/-
# Sets of flags in a machine word

A word `x` is tested, extended and reduced by masks: `x & m` as a condition, `x | m`, and
`x & (x ^ m)`, the way to take flags out.  The masks are arbitrary words.
-/
import Mathlib

namespace Flags

variable {w : ℕ}

/-- `x & m` as a condition. -/
abbrev Test (x m : BitVec w) : Prop := x &&& m ≠ 0#w

/-- `x & (x ^ m)`: the flags of `x` that are not in `m`. -/
def drop (x m : BitVec w) : BitVec w := x &&& (x ^^^ m)

theorem drop_eq (x m : BitVec w) : drop x m = x &&& ~~~m := by
  apply BitVec.eq_of_getLsbD_eq
  intro i hi
  unfold drop
  rw [BitVec.getLsbD_and, BitVec.getLsbD_xor, BitVec.getLsbD_and, BitVec.getLsbD_not]
  cases x.getLsbD i <;> simp [hi]

/-- A test of a union is a test of either. -/
theorem test_or (x m n : BitVec w) : Test (x ||| m) n ↔ Test x n ∨ Test m n := by
  unfold Test
  rw [BitVec.and_or_distrib_right, Ne, BitVec.or_eq_zero_iff, not_and_or]

/-- What is left of other flags after flags were dropped. -/
theorem drop_and_of_disjoint {x m n : BitVec w} (h : m &&& n = 0#w) : drop x m &&& n = x &&& n := by
  have hn : ~~~m &&& n = n := by
    apply BitVec.eq_of_getLsbD_eq
    intro i hi
    have hbit : (m &&& n).getLsbD i = false := by rw [h]; exact BitVec.getLsbD_zero
    rw [BitVec.getLsbD_and] at hbit
    rw [BitVec.getLsbD_and, BitVec.getLsbD_not]
    cases hm : m.getLsbD i <;> cases hn : n.getLsbD i <;> simp_all
  rw [drop_eq, BitVec.and_assoc, hn]

/-- Dropping flags does not touch the others. -/
theorem test_drop_of_disjoint {x m n : BitVec w} (h : m &&& n = 0#w) :
    Test (drop x m) n ↔ Test x n := by
  unfold Test
  rw [drop_and_of_disjoint h]

/-- Adding flags does not touch the others. -/
theorem test_or_of_disjoint {x m n : BitVec w} (h : m &&& n = 0#w) :
    Test (x ||| m) n ↔ Test x n := by
  rw [test_or]
  exact or_iff_left fun hm => hm h

/-- A flag that was just added is there. -/
theorem test_or_self {x m n : BitVec w} (h : Test m n) : Test (x ||| m) n :=
  (test_or x m n).mpr (Or.inr h)

/-- Flags that were just dropped are gone. -/
theorem not_test_drop {x m n : BitVec w} (h : n &&& ~~~m = 0#w) : ¬ Test (drop x m) n := by
  unfold Test
  rw [drop_eq, BitVec.and_assoc, BitVec.and_comm (~~~m) n, h, BitVec.and_zero]
  exact not_not.mpr rfl

/-- Dropping flags adds none. -/
theorem test_of_test_drop {x m n : BitVec w} (h : Test (drop x m) n) : Test x n := by
  intro h0
  apply h
  rw [drop_eq, BitVec.and_assoc, BitVec.and_comm (~~~m) n, ← BitVec.and_assoc, h0,
    BitVec.zero_and]

/-- A test for more flags passes too. -/
theorem test_mono {x m n : BitVec w} (h : m &&& n = m) (ht : Test x m) : Test x n := by
  intro h0
  apply ht
  rw [← h, BitVec.and_comm m n, ← BitVec.and_assoc, h0, BitVec.zero_and]

/-! ## Single flags -/

/-- A test for one bit reads the bit. -/
theorem test_twoPow {x : BitVec w} {i : ℕ} : Test x (BitVec.twoPow w i) ↔ x.getLsbD i = true := by
  unfold Test
  rw [BitVec.and_twoPow]
  cases hx : x.getLsbD i with
  | false => simp
  | true =>
      have hi : i < w := BitVec.lt_of_getLsbD hx
      simp only [if_true, iff_true]
      intro h
      have hbit : (BitVec.twoPow w i).getLsbD i = true := by
        rw [BitVec.getLsbD_twoPow]
        simp [hi]
      rw [h, BitVec.getLsbD_zero] at hbit
      exact Bool.noConfusion hbit

theorem test_twoPow_twoPow {i j : ℕ} (hi : i < w) :
    Test (BitVec.twoPow w i) (BitVec.twoPow w j) ↔ j = i := by
  rw [test_twoPow, BitVec.getLsbD_twoPow]
  simp [hi, eq_comm]

/-- The number of set bits. -/
def count (x : BitVec w) : ℕ := (List.range w).countP fun i => x.getLsbD i

/-- The set bits are those for which the test of one bit passes. -/
theorem count_eq_length (x : BitVec w) :
    count x =
      ((List.finRange w).filter fun i : Fin w => decide (Test x (BitVec.twoPow w i))).length := by
  have hbit : (fun i : Fin w => decide (Test x (BitVec.twoPow w i)))
      = (fun i => x.getLsbD i) ∘ Fin.val := by
    funext i
    rw [Function.comp_apply, Bool.eq_iff_iff, decide_eq_true_iff, test_twoPow]
  rw [← List.countP_eq_length_filter, hbit, ← List.countP_map, List.map_coe_finRange_eq_range]
  rfl

/-- Adding one flag. -/
theorem test_or_twoPow {x : BitVec w} {i j : ℕ} (hi : i < w) :
    Test (x ||| BitVec.twoPow w i) (BitVec.twoPow w j) ↔
      j = i ∨ Test x (BitVec.twoPow w j) := by
  rw [test_or, test_twoPow_twoPow hi, or_comm]

/-- Taking one flag out. -/
theorem test_drop_twoPow {x : BitVec w} {i j : ℕ} :
    Test (drop x (BitVec.twoPow w i)) (BitVec.twoPow w j) ↔
      Test x (BitVec.twoPow w j) ∧ j ≠ i := by
  rw [test_twoPow, test_twoPow, drop_eq, BitVec.getLsbD_and, BitVec.getLsbD_not,
    BitVec.getLsbD_twoPow]
  cases hx : x.getLsbD j with
  | false => simp
  | true =>
      have hj : j < w := BitVec.lt_of_getLsbD hx
      by_cases hij : i = j
      · subst hij
        simp [hj]
      · simp [hj, hij, Ne.symm hij]

/-- A word with no flag is `0`. -/
theorem eq_zero_iff {x : BitVec w} :
    x = 0#w ↔ ∀ i, i < w → ¬ Test x (BitVec.twoPow w i) := by
  constructor
  · rintro rfl i _
    rw [test_twoPow, BitVec.getLsbD_zero]
    exact Bool.noConfusion
  · intro h
    apply BitVec.eq_of_getLsbD_eq
    intro i hi
    have hi' := h i hi
    rw [test_twoPow, Bool.not_eq_true] at hi'
    rw [hi', BitVec.getLsbD_zero]

/-- `x ^ m` sets a flag that is clear. -/
theorem xor_twoPow_of_not_test {x : BitVec w} {i : ℕ} (h : ¬ Test x (BitVec.twoPow w i)) :
    x ^^^ BitVec.twoPow w i = x ||| BitVec.twoPow w i := by
  rw [test_twoPow, Bool.not_eq_true] at h
  apply BitVec.eq_of_getLsbD_eq
  intro j hj
  rw [BitVec.getLsbD_xor, BitVec.getLsbD_or, BitVec.getLsbD_twoPow]
  by_cases hij : i = j
  · subst hij
    simp [h]
  · simp [hij]

/-- `x ^ m` takes out a flag that is set. -/
theorem xor_twoPow_of_test {x : BitVec w} {i : ℕ} (h : Test x (BitVec.twoPow w i)) :
    x ^^^ BitVec.twoPow w i = drop x (BitVec.twoPow w i) := by
  rw [test_twoPow] at h
  apply BitVec.eq_of_getLsbD_eq
  intro j hj
  rw [drop_eq, BitVec.getLsbD_xor, BitVec.getLsbD_and, BitVec.getLsbD_not,
    BitVec.getLsbD_twoPow]
  by_cases hij : i = j
  · subst hij
    simp [h, hj]
  · simp [hij, hj]

end Flags
