import Mathlib.Data.List.Basic
import Mathlib.Tactic

/-!
# A bounded broadcast channel

All receivers read one sequence of values, each at its own place.  The channel holds the last `cap`
values: a receiver that is further behind is told that it lags, and goes on at the oldest value
that is held.  So a receiver never gets a value twice or out of order, and misses none while it is
not further behind than `cap`.

* `Broadcast.recv`: what a receiver gets at its place.
* `Broadcast.window`: the values between two places.
* `Broadcast.Got`: what was got on the way from one place to another, with the rules for a send and
  for each outcome of `recv`.
-/

namespace Broadcast

variable {α : Type}

/-- What a receiver is told. -/
inductive Recv (α : Type)
  | empty
  | lagged (cursor : ℕ)
  | value (a : α)

/-- Receive at a place of the sequence. -/
def recv (cap : ℕ) (log : List α) (cursor : ℕ) : Recv α :=
  if cursor + cap < log.length then .lagged (log.length - cap)
  else
    match log[cursor]? with
    | none => .empty
    | some a => .value a

theorem getElem?_of_recv {cap : ℕ} {log : List α} {cursor : ℕ} {a : α}
    (h : recv cap log cursor = .value a) : log[cursor]? = some a := by
  unfold recv at h
  split at h
  · cases h
  · split at h
    · cases h
    · next he =>
      cases h
      exact he

theorem lagged_of_recv {cap : ℕ} {log : List α} {cursor c : ℕ}
    (h : recv cap log cursor = .lagged c) :
    cursor + cap < log.length ∧ c = log.length - cap := by
  unfold recv at h
  split at h
  · next hlt =>
    cases h
    exact ⟨hlt, rfl⟩
  · split at h <;> cases h

/-! ### Between two places -/

/-- The values from one place up to another. -/
def window (log : List α) (first last : ℕ) : List α := (log.take last).drop first

theorem window_self (log : List α) (c : ℕ) : window log c c = [] :=
  List.drop_eq_nil_of_le (List.length_take_le _ _)

theorem window_append {log : List α} {last : ℕ} (h : last ≤ log.length) (more : List α)
    (first : ℕ) : window (log ++ more) first last = window log first last := by
  rw [window, List.take_append_of_le_length h, window]

theorem window_succ {log : List α} {first last : ℕ} {a : α} (ha : log[last]? = some a)
    (hle : first ≤ last) : window log first (last + 1) = window log first last ++ [a] := by
  obtain ⟨hlt, -⟩ := List.getElem?_eq_some_iff.mp ha
  rw [window, List.take_add_one, ha, List.drop_append_of_le_length (by simp; omega)]
  rfl

theorem window_sublist (log : List α) (first : ℕ) {last last' : ℕ} (h : last ≤ last') :
    (window log first last).Sublist (window log first last') := by
  have hpre : log.take last = (log.take last').take last := by
    rw [List.take_take, Nat.min_eq_left h]
  rw [window, hpre]
  exact (List.take_sublist _ _).drop first

/-! ### What a receiver got -/

/-- On the way from `first` to `last` a receiver got `got`, and if `whole` then all there was. -/
structure Got (log : List α) (first last : ℕ) (got : List α) (whole : Prop) : Prop where
  first_le : first ≤ last
  le_length : last ≤ log.length
  sublist : got.Sublist (window log first last)
  eq_window : whole → got = window log first last

namespace Got

variable {log got : List α} {first last : ℕ} {whole : Prop}

theorem start (h : first ≤ log.length) (whole : Prop) : Got log first first [] whole where
  first_le := le_rfl
  le_length := h
  sublist := List.nil_sublist _
  eq_window _ := (window_self _ _).symm

theorem imp (hg : Got log first last got whole) {whole' : Prop} (h : whole' → whole) :
    Got log first last got whole' :=
  ⟨hg.first_le, hg.le_length, hg.sublist, fun hw => hg.eq_window (h hw)⟩

theorem send (hg : Got log first last got whole) (more : List α) :
    Got (log ++ more) first last got whole where
  first_le := hg.first_le
  le_length := by
    rw [List.length_append]
    exact hg.le_length.trans (Nat.le_add_right _ _)
  sublist := by
    rw [window_append hg.le_length]
    exact hg.sublist
  eq_window h := by
    rw [window_append hg.le_length]
    exact hg.eq_window h

theorem value (hg : Got log first last got whole) {a : α} (ha : log[last]? = some a) :
    Got log first (last + 1) (got ++ [a]) whole where
  first_le := hg.first_le.trans (Nat.le_succ _)
  le_length := (List.getElem?_eq_some_iff.mp ha).1
  sublist := by
    rw [window_succ ha hg.first_le]
    exact hg.sublist.append_right _
  eq_window h := by rw [window_succ ha hg.first_le, hg.eq_window h]

theorem lagged (hg : Got log first last got whole) {cap : ℕ} (hlag : last + cap < log.length)
    (hwhole : ¬ whole) : Got log first (log.length - cap) got whole where
  first_le := hg.first_le.trans (by omega)
  le_length := Nat.sub_le _ _
  sublist := hg.sublist.trans (window_sublist _ _ (by omega))
  eq_window h := absurd h hwhole

end Got

end Broadcast
