/-
# Big-endian numbers

A number written as `k` bytes, the most significant first, and read back.  What does not fit
into `k` bytes is lost from the top, as when a machine word is stored in a smaller one.
-/
import Mathlib

namespace BigEndian

/-- The lowest byte of `n`. -/
def byte (n : ℕ) : Fin 256 := ⟨n % 256, Nat.mod_lt n (by decide)⟩

/-- The lowest `k` bytes of `n`. -/
def be : ℕ → ℕ → List (Fin 256)
  | 0, _ => []
  | k + 1, n => be k (n / 256) ++ [byte n]

/-- The number that these bytes spell. -/
def ofBe (l : List (Fin 256)) : ℕ := l.foldl (fun n b => n * 256 + b.val) 0

@[simp] theorem length_be (k n : ℕ) : (be k n).length = k := by
  induction k generalizing n with
  | zero => rfl
  | succ k ih => rw [be, List.length_append, ih, List.length_singleton]

theorem ofBe_concat (l : List (Fin 256)) (b : Fin 256) : ofBe (l ++ [b]) = ofBe l * 256 + b := by
  unfold ofBe
  rw [List.foldl_concat]

/-- **What is read back** is what was written, less what did not fit. -/
theorem ofBe_be (k n : ℕ) : ofBe (be k n) = n % 256 ^ k := by
  induction k generalizing n with
  | zero => rw [pow_zero, Nat.mod_one]; rfl
  | succ k ih =>
    rw [be, ofBe_concat, ih, pow_succ']
    calc n / 256 % 256 ^ k * 256 + n % 256
        = n % 256 + 256 * (n / 256 % 256 ^ k) := by ring
      _ = n % (256 * 256 ^ k) := Nat.mod_mul.symm

theorem ofBe_be_of_lt {k n : ℕ} (h : n < 256 ^ k) : ofBe (be k n) = n := by
  rw [ofBe_be, Nat.mod_eq_of_lt h]

end BigEndian
