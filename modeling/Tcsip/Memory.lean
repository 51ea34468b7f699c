/-
# A block of memory

A block is a function from addresses to cells.  `write m a bs` stores the cells `bs` from
address `a` on, `read m a n` takes `n` cells from there.  A read is cut and put together
like the list it is, and a write is seen by a read of the same place and by no read that
does not overlap it.
-/
import Mathlib

namespace Memory

variable {α : Type*}

/-- The cells at the addresses from `a` to `a + n`. -/
def read (m : ℕ → α) (a n : ℕ) : List α := (List.range n).map fun i => m (a + i)

/-- The block after the cells `bs` were stored from `a` on. -/
def write (m : ℕ → α) (a : ℕ) (bs : List α) (x : ℕ) : α :=
  if a ≤ x then (bs[x - a]?).getD (m x) else m x

/-! ## Reads -/

@[simp] theorem length_read (m : ℕ → α) (a n : ℕ) : (read m a n).length = n := by
  rw [read, List.length_map, List.length_range]

/-- Two reads in a row are one. -/
theorem read_add (m : ℕ → α) (a n k : ℕ) :
    read m a (n + k) = read m a n ++ read m (a + n) k := by
  unfold read
  rw [List.range_add, List.map_append, List.map_map]
  congr 1
  apply List.map_congr_left
  intro i _
  simp only [Function.comp, Nat.add_assoc]

theorem take_read (m : ℕ → α) (a : ℕ) {n k : ℕ} (h : k ≤ n) :
    (read m a n).take k = read m a k := by
  obtain ⟨j, rfl⟩ := Nat.exists_eq_add_of_le h
  rw [read_add, List.take_left' (length_read m a k)]

theorem drop_read (m : ℕ → α) (a : ℕ) {n k : ℕ} (h : k ≤ n) :
    (read m a n).drop k = read m (a + k) (n - k) := by
  obtain ⟨j, rfl⟩ := Nat.exists_eq_add_of_le h
  rw [read_add, List.drop_left' (length_read m a k), Nat.add_sub_cancel_left]

/-- A read only looks at its own addresses. -/
theorem read_congr {m m' : ℕ → α} {a n : ℕ} (h : ∀ x, a ≤ x → x < a + n → m x = m' x) :
    read m a n = read m' a n := by
  apply List.map_congr_left
  intro i hi
  exact h (a + i) (Nat.le_add_right a i) (Nat.add_lt_add_left (List.mem_range.mp hi) a)

/-! ## Writes -/

/-- Outside its range a write changes nothing. -/
theorem write_of_disjoint {m : ℕ → α} {a x : ℕ} {bs : List α} (h : x < a ∨ a + bs.length ≤ x) :
    write m a bs x = m x := by
  unfold write
  split
  · rw [List.getElem?_eq_none (by omega), Option.getD_none]
  · rfl

/-- A write is read back. -/
theorem read_write_self (m : ℕ → α) (a : ℕ) (bs : List α) :
    read (write m a bs) a bs.length = bs := by
  apply List.ext_getElem (length_read _ _ _)
  intro i hi hi'
  simp only [read, write, List.getElem_map, List.getElem_range, Nat.le_add_right, if_true,
    Nat.add_sub_cancel_left, List.getElem?_eq_getElem hi', Option.getD_some]

/-- **Frame.**  A read that does not overlap a write does not see it. -/
theorem read_write_of_disjoint {m : ℕ → α} {a b n : ℕ} {bs : List α}
    (h : b + n ≤ a ∨ a + bs.length ≤ b) : read (write m a bs) b n = read m b n := by
  apply read_congr
  intro x hlo hhi
  exact write_of_disjoint (by omega)

/-- A write behind what is kept extends it. -/
theorem read_write_append (m : ℕ → α) (a n : ℕ) (bs : List α) :
    read (write m (a + n) bs) a (n + bs.length) = read m a n ++ bs := by
  rw [read_add, read_write_self, read_write_of_disjoint (Or.inl le_rfl)]

/-- Two writes in a row are one. -/
theorem write_append (m : ℕ → α) (a : ℕ) (bs cs : List α) :
    write (write m a bs) (a + bs.length) cs = write m a (bs ++ cs) := by
  funext x
  by_cases hx : a + bs.length ≤ x
  · rw [write, if_pos hx, write, write, if_pos (by omega), if_pos (by omega),
      List.getElem?_append_right (by omega), List.getElem?_eq_none (l := bs) (by omega),
      Option.getD_none, Nat.sub_sub]
  · rw [write, if_neg hx, write, write]
    split
    · rw [List.getElem?_append_left (by omega)]
    · rfl

end Memory
