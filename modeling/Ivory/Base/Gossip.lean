import Mathlib.Data.List.Basic
import Mathlib.Logic.Function.Basic

/-!
# Parties that gossip

Every party reacts to a message with messages that go to all the others.
Messages on the way are delivered one at a time and in any order; what a
reaction depends on besides the message is chosen with each delivery.  A
reaction need not end, so it is an `Option`.

* `Gossip.run_rule`: **if every delivery is dealt with and keeps an invariant, so does every
  schedule.**
* `Gossip.handleAll_rule`: the same for one party that deals with its messages in order, where the
  invariant also speaks of the messages dealt with and of those sent.
-/

/-- The parties, and the messages on the way to each. -/
structure Gossip (ι σ μ : Type) where
  party : ι → σ
  mail : ι → List μ

namespace Gossip

variable {ι σ μ κ : Type}

/-- One delivery: to whom, which of the messages, and what the reaction depends on besides. -/
structure Delivery (ι κ : Type) where
  target : ι
  index : ℕ
  choice : κ

variable [DecidableEq ι] (react : κ → σ → μ → Option (σ × List μ))

/-- What a reaction of one party leaves: messages for all others. -/
def reacted (x : Gossip ι σ μ) (i : ι) (left : List μ) (r : σ × List μ) : Gossip ι σ μ where
  party := Function.update x.party i r.1
  mail j := if j = i then left else x.mail j ++ r.2

/-- A delivery; nothing happens if there is no such message. -/
def deliver (x : Gossip ι σ μ) (d : Delivery ι κ) : Option (Gossip ι σ μ) :=
  match (x.mail d.target)[d.index]? with
  | none => some x
  | some m => (react d.choice (x.party d.target) m).map
      (x.reacted d.target ((x.mail d.target).eraseIdx d.index))

/-- Deliveries one after the other. -/
def run (x : Gossip ι σ μ) (ds : List (Delivery ι κ)) : Option (Gossip ι σ μ) :=
  ds.foldlM (deliver react) x

/-- A party deals with messages in order; next to it, the messages it sends. -/
def handleAll (k : κ) (s : σ) : List μ → Option (σ × List μ)
  | [] => some (s, [])
  | m :: ms =>
    match react k s m with
    | none => none
    | some (s, out) => (handleAll k s ms).map fun r => (r.1, out ++ r.2)

/-- A party deals with all its messages in order. -/
def turn (k : κ) (i : ι) (x : Gossip ι σ μ) : Option (Gossip ι σ μ) :=
  (handleAll react k (x.party i) (x.mail i)).map (x.reacted i [])

/-- All messages have been delivered. -/
def Quiet (x : Gossip ι σ μ) : Prop := ∀ i, x.mail i = []

/-! ### Lookups -/

@[simp] theorem reacted_party_self (x : Gossip ι σ μ) (i : ι) (left : List μ) (r : σ × List μ) :
    (x.reacted i left r).party i = r.1 := by
  simp only [reacted, Function.update_self]

theorem reacted_party_of_ne (x : Gossip ι σ μ) {i j : ι} (left : List μ) (r : σ × List μ)
    (h : j ≠ i) : (x.reacted i left r).party j = x.party j := by
  simp only [reacted, Function.update_of_ne h]

@[simp] theorem reacted_mail_self (x : Gossip ι σ μ) (i : ι) (left : List μ) (r : σ × List μ) :
    (x.reacted i left r).mail i = left := if_pos rfl

theorem reacted_mail_of_ne (x : Gossip ι σ μ) {i j : ι} (left : List μ) (r : σ × List μ)
    (h : j ≠ i) : (x.reacted i left r).mail j = x.mail j ++ r.2 := if_neg h

theorem mem_reacted_mail {x : Gossip ι σ μ} {i j : ι} {left : List μ} {r : σ × List μ} {m : μ}
    (hleft : left ⊆ x.mail i) (h : m ∈ (x.reacted i left r).mail j) : m ∈ x.mail j ∨ m ∈ r.2 := by
  by_cases hj : j = i
  · rw [hj, reacted_mail_self] at h
    rw [hj]
    exact .inl (hleft h)
  · rw [reacted_mail_of_ne _ _ _ hj] at h
    exact List.mem_append.mp h

/-! ### Rules -/

/-- **What every delivery keeps, every schedule keeps.** -/
theorem run_rule {I : Gossip ι σ μ → Prop}
    (hstep : ∀ x (d : Delivery ι κ), I x → ∃ x', deliver react x d = some x' ∧ I x') :
    ∀ (ds : List (Delivery ι κ)) (x : Gossip ι σ μ), I x →
      ∃ x', run react x ds = some x' ∧ I x' := by
  intro ds
  induction ds with
  | nil => intro x hx; exact ⟨x, rfl, hx⟩
  | cons d ds ih =>
    intro x hx
    obtain ⟨x₁, h₁, hx₁⟩ := hstep x d hx
    obtain ⟨x₂, h₂, hx₂⟩ := ih x₁ hx₁
    refine ⟨x₂, ?_, hx₂⟩
    rw [run, List.foldlM_cons, h₁]
    exact h₂

theorem deliver_rule {I : Gossip ι σ μ → Prop} {x : Gossip ι σ μ} (d : Delivery ι κ) (hx : I x)
    (hstep : ∀ m ∈ x.mail d.target, ∃ r, react d.choice (x.party d.target) m = some r
      ∧ ∀ left, left ⊆ x.mail d.target → x.mail d.target ⊆ m :: left →
        I (x.reacted d.target left r)) :
    ∃ x', deliver react x d = some x' ∧ I x' := by
  rw [deliver]
  cases hm : (x.mail d.target)[d.index]? with
  | none => exact ⟨x, rfl, hx⟩
  | some m =>
    obtain ⟨r, hr, hI⟩ := hstep m (List.mem_of_getElem? hm)
    refine ⟨x.reacted d.target ((x.mail d.target).eraseIdx d.index) r,
      by simp only [hr, Option.map_some], hI _ List.eraseIdx_subset fun y hy => ?_⟩
    obtain ⟨j, hj, hget⟩ := List.getElem_of_mem hy
    by_cases heq : j = d.index
    · rw [← heq, List.getElem?_eq_getElem hj, Option.some.injEq] at hm
      exact List.mem_cons.mpr (.inl (hget.symm.trans hm))
    · refine List.mem_cons_of_mem _ (List.mem_eraseIdx_iff_getElem?.mpr ⟨j, heq, ?_⟩)
      rw [List.getElem?_eq_getElem hj, hget]

/-- **What each message keeps, dealing with all of them keeps.** -/
theorem handleAll_rule (k : κ) {I : List μ → List μ → σ → Prop} : ∀ (ms done out : List μ) (s : σ),
    (∀ done out s m, m ∈ ms → I done out s →
      ∃ r, react k s m = some r ∧ I (done ++ [m]) (out ++ r.2) r.1) →
    I done out s → ∃ r, handleAll react k s ms = some r ∧ I (done ++ ms) (out ++ r.2) r.1 := by
  intro ms
  induction ms with
  | nil =>
    intro done out s _ h
    exact ⟨(s, []), rfl, by simpa using h⟩
  | cons m ms ih =>
    intro done out s hstep h
    obtain ⟨⟨s₁, o₁⟩, hr, h₁⟩ := hstep done out s m List.mem_cons_self h
    obtain ⟨r, hr', h₂⟩ := ih (done ++ [m]) (out ++ o₁) s₁
      (fun done out s m hm => hstep done out s m (List.mem_cons_of_mem _ hm)) h₁
    refine ⟨(r.1, o₁ ++ r.2), ?_, by simpa using h₂⟩
    rw [handleAll, hr]
    simp only [hr', Option.map_some]

/-! ### Two parties -/

/-- Two parties `s` (`false`) and `t` (`true`) with their messages. -/
def pair (s t : σ) (ms ns : List μ) : Gossip Bool σ μ where
  party i := bif i then t else s
  mail i := bif i then ns else ms

/-- In a round `s` deals with all its messages, and then `t`. -/
def round (k : κ) (x : Gossip Bool σ μ) : Option (Gossip Bool σ μ) :=
  (turn react k false x).bind (turn react k true)

theorem turn_pair_false {k : κ} {s t : σ} {ms : List μ} {r : σ × List μ}
    (h : handleAll react k s ms = some r) :
    turn react k false (pair s t ms []) = some (pair r.1 t [] r.2) := by
  show (handleAll react k s ms).map _ = _
  rw [h, Option.map_some, Option.some.injEq]
  simp only [reacted, pair, mk.injEq]
  refine ⟨funext fun i => ?_, funext fun i => ?_⟩
  · cases i <;> rfl
  · cases i <;> rfl

theorem turn_pair_true {k : κ} {s t : σ} {ms : List μ} {r : σ × List μ}
    (h : handleAll react k t ms = some r) :
    turn react k true (pair s t [] ms) = some (pair s r.1 r.2 []) := by
  show (handleAll react k t ms).map _ = _
  rw [h, Option.map_some, Option.some.injEq]
  simp only [reacted, pair, mk.injEq]
  refine ⟨funext fun i => ?_, funext fun i => ?_⟩
  · cases i <;> rfl
  · cases i <;> rfl

theorem round_pair {k : κ} {s t : σ} {ms : List μ} {r r' : σ × List μ}
    (h : handleAll react k s ms = some r) (h' : handleAll react k t r.2 = some r') :
    round react k (pair s t ms []) = some (pair r.1 r'.1 r'.2 []) := by
  rw [round, turn_pair_false react h, Option.bind_some, turn_pair_true react h']

end Gossip
