import Ivory.Base.Table

/-!
# Entries of several kinds in one byte store

A key-value store maps bytes to bytes.  A `Drawer` is one kind of entry in it: its
keys are a tag byte and a body of fixed length, and a partial function reads
its values.  Two kinds whose tags or whose lengths differ share no key.

* `Drawer.Shows d db view`: what the store holds of this kind, read, is `view`.
* `Drawer.Shows.insert`, `Drawer.Shows.erase`: **an update of the store is an update of the view.**
* `Drawer.Shows.insert_other`, `Drawer.Shows.erase_other`: an update of another kind is none.
-/

/-- One kind of entry. -/
structure Drawer (κ α : Type) where
  tag : UInt8
  width : ℕ
  body : κ → List UInt8
  body_length : ∀ k, (body k).length = width
  body_injective : Function.Injective body
  decode : List UInt8 → Option α

namespace Drawer

variable {κ α κ' α' : Type} (d : Drawer κ α) (d' : Drawer κ' α')

/-- The key of an entry. -/
def key (k : κ) : List UInt8 := d.tag :: d.body k

theorem key_injective : Function.Injective d.key := by
  intro k k' h
  exact d.body_injective (List.cons.inj h).2

variable {d d'} in
/-- **Kinds with another tag or another length share no key.** -/
theorem key_ne (h : (d.tag, d.width) ≠ (d'.tag, d'.width)) (k : κ) (k' : κ') :
    d.key k ≠ d'.key k' := by
  intro heq
  obtain ⟨htag, hbody⟩ := List.cons.inj heq
  refine h (Prod.ext htag ?_)
  rw [← d.body_length k, ← d'.body_length k', hbody]

/-- Read an entry: nothing if there is none, an error if its bytes are no value. -/
def get {ε : Type} (e : ε) (db : Table (List UInt8) (List UInt8)) (k : κ) : Except ε (Option α) :=
  match db[d.key k]? with
  | none => .ok none
  | some bytes =>
    match d.decode bytes with
    | none => .error e
    | some a => .ok (some a)

/-- The entries of this kind, read, are those of the view. -/
def Shows (db : Table (List UInt8) (List UInt8)) (view : κ → Option α) : Prop :=
  ∀ k, db[d.key k]?.map d.decode = (view k).map some

variable {d} {d'} {db : Table (List UInt8) (List UInt8)} {view : κ → Option α}

theorem shows_empty : d.Shows ∅ fun _ => none := fun _ => by
  rw [Std.ExtTreeMap.getElem?_empty]
  rfl

/-- **No entry is misread.** -/
theorem Shows.get (h : d.Shows db view) {ε : Type} (e : ε) (k : κ) :
    d.get e db k = .ok (view k) := by
  have hk := h k
  rw [Drawer.get]
  cases hb : db[d.key k]? with
  | none =>
    rw [hb, Option.map_none, eq_comm, Option.map_eq_none_iff] at hk
    rw [hk]
  | some bytes =>
    rw [hb, Option.map_some, eq_comm, Option.map_eq_some_iff] at hk
    obtain ⟨a, ha, hdec⟩ := hk
    simp only [← hdec, ha]

section Update

variable [DecidableEq κ] {view' : κ → Option α} {k : κ}

/-- **A value that is put under a key is the one in the view.** -/
theorem Shows.insert (h : d.Shows db view) {bytes : List UInt8} {a : α}
    (hdec : d.decode bytes = some a)
    (hview : ∀ k', view' k' = if k' = k then some a else view k') :
    d.Shows (db.insert (d.key k) bytes) view' := by
  intro k'
  rw [Table.get_insert, hview]
  by_cases hk : k' = k
  · rw [if_pos hk, if_pos (by rw [hk]), Option.map_some, hdec]
    rfl
  · rw [if_neg hk, if_neg fun he => hk (d.key_injective he)]
    exact h k'

theorem Shows.erase (h : d.Shows db view)
    (hview : ∀ k', view' k' = if k' = k then none else view k') :
    d.Shows (db.erase (d.key k)) view' := by
  intro k'
  rw [Table.get_erase, hview]
  by_cases hk : k' = k
  · rw [if_pos hk, if_pos (by rw [hk])]
    rfl
  · rw [if_neg hk, if_neg fun he => hk (d.key_injective he)]
    exact h k'

end Update

theorem Shows.insert_other (h : d.Shows db view)
    (hne : (d.tag, d.width) ≠ (d'.tag, d'.width)) (k' : κ') (bytes : List UInt8) :
    d.Shows (db.insert (d'.key k') bytes) view := by
  intro k
  rw [Table.get_insert_of_ne _ _ (key_ne hne k k')]
  exact h k

theorem Shows.erase_other (h : d.Shows db view)
    (hne : (d.tag, d.width) ≠ (d'.tag, d'.width)) (k' : κ') :
    d.Shows (db.erase (d'.key k')) view := by
  intro k
  rw [Table.get_erase, if_neg (key_ne hne k k')]
  exact h k

end Drawer
