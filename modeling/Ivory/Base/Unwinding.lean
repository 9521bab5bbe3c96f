import Mathlib.Data.List.Basic

/-!
# Non-interference

Of a machine some inputs are hidden from an observer.  They do not interfere if the observer sees
the same when they are left out.  The condition is about one step: a hidden input does not change
what is seen, and what is seen after another input depends only on what was seen before.

* `Unwinding.Isolates`: the condition.
* `Unwinding.Isolates.foldl`: **what is seen of a run is what is seen without the hidden inputs.**
-/

namespace Unwinding

variable {σ ι υ : Type}

/-- Hidden inputs are not seen, and the others act on what is seen. -/
structure Isolates (step : σ → ι → σ) (view : σ → υ) (hidden : ι → Bool) : Prop where
  unseen : ∀ s i, hidden i = true → view (step s i) = view s
  congr : ∀ s s' i, hidden i = false → view s = view s' → view (step s i) = view (step s' i)

/-- **Leaving out the hidden inputs is not seen.** -/
theorem Isolates.foldl {step : σ → ι → σ} {view : σ → υ} {hidden : ι → Bool}
    (h : Isolates step view hidden) : ∀ (is : List ι) {s s' : σ}, view s = view s' →
    view (is.foldl step s) = view ((is.filter fun i => !hidden i).foldl step s') := by
  intro is
  induction is with
  | nil => exact fun hs => hs
  | cons i is ih =>
    intro s s' hs
    cases hi : hidden i with
    | true =>
      rw [List.foldl_cons, List.filter_cons_of_neg (by simp [hi])]
      exact ih ((h.unseen s i hi).trans hs)
    | false =>
      rw [List.foldl_cons, List.filter_cons_of_pos (by simp [hi]), List.foldl_cons]
      exact ih (h.congr s s' i hi hs)

end Unwinding
