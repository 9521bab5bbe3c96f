import Mathlib.Data.List.Basic

/-!
# What a list of writes leaves

A state is changed by writes, one after the other.  A view of the state is
something that can be read from it; a write either sets the view, whatever it
was, or leaves it alone.

* `Observes step view effect`: `effect w` is what the write `w` sets the view to.
* `Observes.foldl_induction`: **the view after a list of writes is one that a write of the list
  set, or the old one if there is none.**
* `Observes.foldl_of_set`, `Observes.foldl_of_unset`: all writes set it to the same value; none
  sets it.
* `Precedes l w a`: the write `w` is always done before `a`.
* `Precedes.mem_take`: **so it is among the first writes if `a` is.**
-/

/-- Each write sets the view to its effect, or leaves it alone if it has none. -/
def Observes {σ ω α : Type} (step : σ → ω → σ) (view : σ → α) (effect : ω → Option α) : Prop :=
  ∀ s w, view (step s w) = (effect w).getD (view s)

namespace Observes

variable {σ ω α : Type} {step : σ → ω → σ} {view : σ → α} {effect : ω → Option α}

/-- What holds of all effects, and of the old view unless some write sets it, holds of the view in
the end. -/
theorem foldl_induction (h : Observes step view effect) {Q : α → Prop} : ∀ (ws : List ω) (s : σ),
    (∀ w ∈ ws, ∀ a, effect w = some a → Q a) →
    ((∃ w ∈ ws, ∃ a, effect w = some a) ∨ Q (view s)) → Q (view (ws.foldl step s)) := by
  intro ws
  induction ws with
  | nil =>
    rintro s - (⟨w, hw, -⟩ | hs)
    · cases hw
    · exact hs
  | cons w ws ih =>
    intro s hall hor
    refine ih (step s w) (fun w' hw' => hall w' (List.mem_cons_of_mem _ hw')) ?_
    rw [h s w]
    cases he : effect w with
    | some a => exact .inr (hall w List.mem_cons_self a he)
    | none =>
      refine hor.imp_left ?_
      rintro ⟨w', hw', a, ha⟩
      rcases List.mem_cons.mp hw' with rfl | hw'
      · rw [he] at ha
        cases ha
      · exact ⟨w', hw', a, ha⟩

theorem foldl_of_set (h : Observes step view effect) {ws : List ω} {a : α} (s : σ)
    (hall : ∀ w ∈ ws, ∀ a', effect w = some a' → a' = a) {w : ω} (hw : w ∈ ws)
    (he : effect w = some a) : view (ws.foldl step s) = a :=
  h.foldl_induction (Q := (· = a)) ws s hall (.inl ⟨w, hw, a, he⟩)

theorem foldl_of_unset (h : Observes step view effect) {ws : List ω} (s : σ)
    (hall : ∀ w ∈ ws, effect w = none) : view (ws.foldl step s) = view s :=
  h.foldl_induction (Q := (· = view s)) ws s
    (fun w hw a ha => by rw [hall w hw] at ha; cases ha) (.inr rfl)

end Observes

/-! ### The order of writes -/

/-- Wherever `a` stands in the list, `w` stands before it. -/
def Precedes {ω : Type} (l : List ω) (w a : ω) : Prop := ∀ l₁ l₂, l = l₁ ++ a :: l₂ → w ∈ l₁

namespace Precedes

variable {ω ι : Type} {l l' : List ω} {w a : ω}

theorem of_notMem (h : a ∉ l) : Precedes l w a := by
  rintro l₁ l₂ rfl
  exact absurd (List.mem_append_right _ List.mem_cons_self) h

theorem append (h : Precedes l w a) (h' : Precedes l' w a) : Precedes (l ++ l') w a := by
  intro l₁ l₂ heq
  rcases List.append_eq_append_iff.mp heq with ⟨m, rfl, hm⟩ | ⟨m, rfl, hm⟩
  · exact List.mem_append_right _ (h' m l₂ hm)
  · cases m with
    | nil => exact absurd (h' [] l₂ hm.symm) List.not_mem_nil
    | cons x m =>
      cases hm
      exact h l₁ m rfl

theorem flatMap {f : ι → List ω} {xs : List ι} (h : ∀ x ∈ xs, Precedes (f x) w a) :
    Precedes (xs.flatMap f) w a := by
  induction xs with
  | nil => exact of_notMem List.not_mem_nil
  | cons x xs ih =>
    rw [List.flatMap_cons]
    exact (h x List.mem_cons_self).append (ih fun y hy => h y (List.mem_cons_of_mem _ hy))

theorem of_mem (hw : w ∈ l) (ha : a ∉ l) : Precedes (l ++ l') w a := by
  intro l₁ l₂ heq
  rcases List.append_eq_append_iff.mp heq with ⟨m, rfl, -⟩ | ⟨m, rfl, hm⟩
  · exact List.mem_append_left _ hw
  · cases m with
    | nil => rwa [List.append_nil] at hw
    | cons x m =>
      cases hm
      exact absurd (List.mem_append_right _ List.mem_cons_self) ha

theorem mem_take (h : Precedes l w a) {k : ℕ} (ha : a ∈ l.take k) : w ∈ l.take k := by
  obtain ⟨l₁, l₂, heq⟩ := List.append_of_mem ha
  have hw : w ∈ l₁ := h l₁ (l₂ ++ l.drop k) (by
    rw [← List.cons_append, ← List.append_assoc, ← heq, List.take_append_drop])
  rw [heq]
  exact List.mem_append_left _ hw

end Precedes
