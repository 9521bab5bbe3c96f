import Mathlib.Data.List.Basic

/-!
# Shared cells

A memory whose cells are reached through handles.  Two holders of one handle see
each other's writes; a new cell is seen by nobody else.

* `Cells.Extends`: the cells that were there are as they were.
* `Extends.write`: **a write to a new cell is not seen by the old handles.**
-/

/-- A memory: the contents of the cells, in the order they were allocated in. -/
structure Cells (α : Type) where
  vals : List α

namespace Cells

variable {α : Type}

/-- The number of cells; also the handle of the next one. -/
def size (c : Cells α) : ℕ := c.vals.length

/-- The memory with one more cell, whose handle is `c.size`. -/
def alloc (c : Cells α) (v : α) : Cells α := ⟨c.vals ++ [v]⟩

/-- A write through a handle. -/
def write (c : Cells α) (r : ℕ) (v : α) : Cells α := ⟨c.vals.set r v⟩

@[simp] theorem size_alloc (c : Cells α) (v : α) : (c.alloc v).size = c.size + 1 := by
  simp [size, alloc]

@[simp] theorem size_write (c : Cells α) (r : ℕ) (v : α) : (c.write r v).size = c.size := by
  simp [size, write]

variable [Inhabited α]

/-- What is read through a handle. -/
def read (c : Cells α) (r : ℕ) : α := c.vals.getD r default

@[simp] theorem read_alloc_self (c : Cells α) (v : α) : (c.alloc v).read c.size = v := by
  simp [read, alloc, size]

theorem read_alloc_of_lt {c : Cells α} {r : ℕ} (h : r < c.size) (v : α) :
    (c.alloc v).read r = c.read r := by
  simp only [size] at h
  simp only [read, alloc, List.getD_eq_getElem?_getD, List.getElem?_append_left h]

theorem read_write_self {c : Cells α} {r : ℕ} (h : r < c.size) (v : α) :
    (c.write r v).read r = v := by
  simp only [size] at h
  simp [read, write, h]

theorem read_write_of_ne (c : Cells α) {r k : ℕ} (h : r ≠ k) (v : α) :
    (c.write k v).read r = c.read r := by
  simp [read, write, Ne.symm h]

/-- A later memory in which the cells of the earlier one are as they were. -/
structure Extends (c c' : Cells α) : Prop where
  size_le : c.size ≤ c'.size
  read_eq : ∀ r < c.size, c'.read r = c.read r

namespace Extends

variable {c c' : Cells α}

theorem refl (c : Cells α) : Extends c c := ⟨Nat.le_refl _, fun _ _ => rfl⟩

theorem alloc (h : Extends c c') (v : α) : Extends c (c'.alloc v) := by
  refine ⟨?_, fun r hr => ?_⟩
  · rw [size_alloc]
    exact Nat.le_succ_of_le h.size_le
  · rw [read_alloc_of_lt (Nat.lt_of_lt_of_le hr h.size_le), h.read_eq r hr]

theorem write (h : Extends c c') {k : ℕ} (hk : c.size ≤ k) (v : α) : Extends c (c'.write k v) := by
  refine ⟨?_, fun r hr => ?_⟩
  · rw [size_write]
    exact h.size_le
  · rw [read_write_of_ne _ (Nat.ne_of_lt (Nat.lt_of_lt_of_le hr hk)), h.read_eq r hr]

end Extends

end Cells
