import Mathlib.Algebra.BigOperators.Group.Finset.Basic
import Mathlib.Data.Fintype.Basic
import Mathlib.Logic.Function.Iterate

/-!
# Interleavings

Calls that run at the same time on a shared state.  A call is at a place in its
code, with its local variables; `act` takes one atomic step of a call.  A schedule
says which call takes the next step.

* `Interleaving.Along.invariant`: **an invariant of the steps that meet a condition holds after
  every schedule whose steps all meet it.**
* `Interleaving.Apart.of_step`: what the calls hold stays apart.
* `Interleaving.weight_step`: a step moves a sum over the calls by the difference at one call.
* `Interleaving.Leads`, `Interleaving.run_of_leads`: what a call does when it runs alone.
-/

/-- A shared state and the calls that run on it. -/
structure Interleaving (ι σ τ : Type) where
  shared : σ
  calls : ι → τ

namespace Interleaving

variable {ι σ τ : Type} [DecidableEq ι] (act : σ → τ → σ × τ)

/-- One step of a call. -/
def step (c : Interleaving ι σ τ) (i : ι) : Interleaving ι σ τ :=
  ⟨(act c.shared (c.calls i)).1, Function.update c.calls i (act c.shared (c.calls i)).2⟩

/-- The steps of a schedule. -/
def run (c : Interleaving ι σ τ) (schedule : List ι) : Interleaving ι σ τ :=
  schedule.foldl (step act) c

/-- Every step of the schedule is taken in a state that meets the condition. -/
def Along (P : Interleaving ι σ τ → ι → Prop) : Interleaving ι σ τ → List ι → Prop
  | _, [] => True
  | c, i :: schedule => P c i ∧ Along P (c.step act i) schedule

instance decidableAlong (P : Interleaving ι σ τ → ι → Prop) [∀ c i, Decidable (P c i)] :
    ∀ (c : Interleaving ι σ τ) (schedule : List ι), Decidable (Along act P c schedule)
  | _, [] => isTrue trivial
  | c, i :: schedule =>
    @instDecidableAnd _ _ _ (decidableAlong P (c.step act i) schedule)

section

variable {act}

@[simp] theorem step_calls_self (c : Interleaving ι σ τ) (i : ι) :
    (c.step act i).calls i = (act c.shared (c.calls i)).2 := Function.update_self _ _ _

theorem step_calls_of_ne (c : Interleaving ι σ τ) {i j : ι} (h : j ≠ i) :
    (c.step act i).calls j = c.calls j := Function.update_of_ne h _ _

/-- **The invariant rule.** -/
theorem Along.invariant {P : Interleaving ι σ τ → ι → Prop} {I : Interleaving ι σ τ → Prop}
    (hstep : ∀ c i, I c → P c i → I (c.step act i)) :
    ∀ {schedule : List ι} {c : Interleaving ι σ τ}, Along act P c schedule → I c →
      I (c.run act schedule) := by
  intro schedule
  induction schedule with
  | nil => exact fun _ h => h
  | cons i schedule ih =>
    intro c hP hI
    exact ih hP.2 (hstep c i hI hP.1)

theorem along_of_forall {P : Interleaving ι σ τ → ι → Prop} (h : ∀ c i, P c i) :
    ∀ (schedule : List ι) (c : Interleaving ι σ τ), Along act P c schedule
  | [], _ => trivial
  | i :: schedule, c => ⟨h c i, along_of_forall h schedule (c.step act i)⟩

end

/-! ### What calls hold -/

/-- No two calls hold the same thing. -/
def Apart {κ : Type} (held : τ → Option κ) (c : Interleaving ι σ τ) : Prop :=
  ∀ i j k, i ≠ j → held (c.calls i) = some k → held (c.calls j) ≠ some k

omit [DecidableEq ι] in
theorem Apart.of_step {κ : Type} {held : τ → Option κ} {c c' : Interleaving ι σ τ} {i : ι}
    (h : Apart held c) (hcalls : ∀ j, j ≠ i → c'.calls j = c.calls j)
    (hi : ∀ k, held (c'.calls i) = some k → ∀ j, j ≠ i → held (c.calls j) ≠ some k) :
    Apart held c' := by
  intro j l k hjl hj
  by_cases hji : j = i
  · subst hji
    rw [hcalls l (Ne.symm hjl)]
    exact hi k hj l (Ne.symm hjl)
  · rw [hcalls j hji] at hj
    by_cases hli : l = i
    · subst hli
      exact fun hl => hi k hl j hji hj
    · rw [hcalls l hli]
      exact h j l k hjl hj

/-! ### Sums over the calls -/

section Weight

variable [Fintype ι]

/-- A quantity, summed over the calls. -/
def weight (w : τ → ℕ) (c : Interleaving ι σ τ) : ℕ := ∑ i, w (c.calls i)

theorem weight_step (w : τ → ℕ) {c c' : Interleaving ι σ τ} {i : ι}
    (h : ∀ j, j ≠ i → c'.calls j = c.calls j) :
    c'.weight w + w (c.calls i) = c.weight w + w (c'.calls i) := by
  have hrest : ∑ j ∈ Finset.univ.erase i, w (c'.calls j)
      = ∑ j ∈ Finset.univ.erase i, w (c.calls j) :=
    Finset.sum_congr rfl fun j hj => by rw [h j (Finset.ne_of_mem_erase hj)]
  rw [weight, weight, ← Finset.add_sum_erase _ _ (Finset.mem_univ i),
    ← Finset.add_sum_erase Finset.univ (fun j => w (c.calls j)) (Finset.mem_univ i), hrest]
  omega

omit [DecidableEq ι] in
theorem weight_eq_zero {w : τ → ℕ} {c : Interleaving ι σ τ} (h : ∀ i, w (c.calls i) = 0) :
    c.weight w = 0 := Finset.sum_eq_zero fun i _ => h i

omit [DecidableEq ι] in
theorem weight_eq_single {w : τ → ℕ} {c : Interleaving ι σ τ} (i : ι)
    (h : ∀ j, j ≠ i → w (c.calls j) = 0) : c.weight w = w (c.calls i) :=
  Finset.sum_eq_single i (fun j _ hj => h j hj) fun hi => absurd (Finset.mem_univ i) hi

end Weight

/-! ### A call on its own -/

/-- Some number of steps of one call lead from one place to the other. -/
def Leads (p q : σ × τ) : Prop := ∃ n, (fun p => act p.1 p.2)^[n] p = q

variable {act}

theorem Leads.refl (p : σ × τ) : Leads act p p := ⟨0, rfl⟩

theorem Leads.step {p q : σ × τ} (h : Leads act (act p.1 p.2) q) : Leads act p q := by
  obtain ⟨n, hn⟩ := h
  exact ⟨n + 1, hn⟩

theorem run_replicate (i : ι) : ∀ (n : ℕ) (c : Interleaving ι σ τ),
    c.run act (List.replicate n i)
      = ⟨((fun p => act p.1 p.2)^[n] (c.shared, c.calls i)).1,
          Function.update c.calls i ((fun p => act p.1 p.2)^[n] (c.shared, c.calls i)).2⟩ := by
  intro n
  induction n with
  | zero =>
    intro c
    simp [run, Function.update_eq_self]
  | succ n ih =>
    intro c
    have hrun : c.run act (List.replicate (n + 1) i)
        = (c.step act i).run act (List.replicate n i) := rfl
    rw [hrun, ih, step_calls_self, Function.iterate_succ_apply]
    simp only [step, Function.update_idem]

/-- What a call does alone it does in a row of steps of its own, whatever the others have done. -/
theorem run_of_leads {c : Interleaving ι σ τ} {i : ι} {q : σ × τ}
    (h : Leads act (c.shared, c.calls i) q) :
    ∃ n, c.run act (List.replicate n i) = ⟨q.1, Function.update c.calls i q.2⟩ := by
  obtain ⟨n, hn⟩ := h
  exact ⟨n, by rw [run_replicate, hn]⟩

end Interleaving
