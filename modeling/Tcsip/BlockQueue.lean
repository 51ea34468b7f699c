/-
# A queue read in blocks

Elements are appended one list at a time and taken out in blocks of `n`.  A reader that
finds fewer than `n` elements gets nothing and leaves them.  What was taken, followed by
what is left, is always what was put in.
-/
import Mathlib

namespace BlockQueue

variable {α : Type*}

/-- A block of `n` elements, if there are so many, and the queue after it was taken. -/
def take (n : ℕ) (q : List α) : Option (List α) × List α :=
  if q.length < n then (none, q) else (some (q.take n), q.drop n)

theorem take_of_lt {n : ℕ} {q : List α} (h : q.length < n) : take n q = (none, q) := if_pos h

theorem take_of_le {n : ℕ} {q : List α} (h : n ≤ q.length) :
    take n q = (some (q.take n), q.drop n) := if_neg (not_lt.mpr h)

/-- Nothing is taken only when fewer than `n` elements are there. -/
theorem take_eq_none {n : ℕ} {q rest : List α} (h : take n q = (none, rest)) :
    q.length < n ∧ rest = q := by
  by_cases hlt : q.length < n
  · rw [take_of_lt hlt] at h
    exact ⟨hlt, (congrArg Prod.snd h).symm⟩
  · rw [take_of_le (not_lt.mp hlt)] at h
    exact nomatch congrArg Prod.fst h

theorem take_eq_some {n : ℕ} {q rest block : List α} (h : take n q = (some block, rest)) :
    n ≤ q.length ∧ block ++ rest = q ∧ rest.length = q.length - n := by
  by_cases hlt : q.length < n
  · rw [take_of_lt hlt] at h
    exact nomatch congrArg Prod.fst h
  · rw [take_of_le (not_lt.mp hlt)] at h
    obtain rfl : q.take n = block := Option.some.inj (congrArg Prod.fst h)
    obtain rfl : q.drop n = rest := congrArg Prod.snd h
    exact ⟨not_lt.mp hlt, List.take_append_drop n q, List.length_drop⟩

/-- What was taken, followed by what is left, is the queue. -/
theorem flatten_take {n : ℕ} {q rest : List α} {c : Option (List α)}
    (h : take n q = (c, rest)) : c.toList.flatten ++ rest = q := by
  cases c with
  | none => rw [(take_eq_none h).2]; rfl
  | some block =>
      rw [Option.toList_some, List.flatten_singleton]
      exact (take_eq_some h).2.1

/-- The blocks that a reader takes until it gets nothing, at most `k`, and what is left. -/
def drain (n : ℕ) : ℕ → List α → List (List α) × List α
  | 0, q => ([], q)
  | k + 1, q =>
    match take n q with
    | (none, rest) => ([], rest)
    | (some block, rest) => (block :: (drain n k rest).1, (drain n k rest).2)

theorem drain_of_lt {n k : ℕ} {q : List α} (h : q.length < n) : drain n (k + 1) q = ([], q) := by
  rw [drain, take_of_lt h]

theorem drain_of_le {n k : ℕ} {q : List α} (h : n ≤ q.length) :
    drain n (k + 1) q =
      (q.take n :: (drain n k (q.drop n)).1, (drain n k (q.drop n)).2) := by
  rw [drain, take_of_le h]

/-- **Conservation.**  The blocks, followed by what is left, are the queue. -/
theorem flatten_drain (n k : ℕ) (q : List α) :
    (drain n k q).1.flatten ++ (drain n k q).2 = q := by
  induction k generalizing q with
  | zero => rfl
  | succ k ih =>
      by_cases h : q.length < n
      · rw [drain_of_lt h]
        rfl
      · rw [drain_of_le (not_lt.mp h), List.flatten_cons, List.append_assoc, ih,
          List.take_append_drop]

/-- Every block has `n` elements. -/
theorem length_of_mem_drain {n k : ℕ} {q block : List α} (h : block ∈ (drain n k q).1) :
    block.length = n := by
  induction k generalizing q with
  | zero => exact absurd h List.not_mem_nil
  | succ k ih =>
      by_cases hlt : q.length < n
      · rw [drain_of_lt hlt] at h
        exact absurd h List.not_mem_nil
      · rw [drain_of_le (not_lt.mp hlt)] at h
        rcases List.mem_cons.mp h with rfl | h
        · rw [List.length_take, min_eq_left (not_lt.mp hlt)]
        · exact ih h

/-! ## Blocks and the whole -/

theorem length_flatten_of_forall {n : ℕ} {blocks : List (List α)}
    (h : ∀ block ∈ blocks, block.length = n) : blocks.flatten.length = n * blocks.length := by
  rw [List.length_flatten, List.map_congr_left h, List.map_const', List.sum_replicate,
    smul_eq_mul, Nat.mul_comm]

/-- **Blocks of `n` with less than `n` left over are the longest such prefix of the whole.** -/
theorem flatten_eq_take {n : ℕ} {blocks : List (List α)} {rest whole : List α}
    (hblocks : ∀ block ∈ blocks, block.length = n) (hrest : rest.length < n)
    (h : blocks.flatten ++ rest = whole) :
    blocks.flatten = whole.take (n * (whole.length / n)) ∧
      rest = whole.drop (n * (whole.length / n)) ∧ rest.length = whole.length % n := by
  have hlen : blocks.flatten.length = n * blocks.length := length_flatten_of_forall hblocks
  have hwhole : whole.length = n * blocks.length + rest.length := by
    rw [← h, List.length_append, hlen]
  have hdiv : whole.length / n = blocks.length := by
    rw [hwhole, Nat.mul_add_div (by omega), Nat.div_eq_of_lt hrest, Nat.add_zero]
  refine ⟨?_, ?_, ?_⟩
  · rw [hdiv, ← hlen, ← h, List.take_left]
  · rw [hdiv, ← hlen, ← h, List.drop_left]
  · rw [hwhole, Nat.mul_add_mod, Nat.mod_eq_of_lt hrest]

end BlockQueue
