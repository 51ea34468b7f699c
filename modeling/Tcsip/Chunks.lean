/-
# Lists cut into chunks

`chunks n k l` cuts `l` into pieces of `n` elements, the last one shorter, and makes at
most `k` cuts.  With enough cuts the chunks together are the list, none of them is empty,
and the `j`-th one begins with the element at `n * j`.

The last section is about lists put together from pieces: dropping a piece that is not
empty is noticed, however the elements are ordered.
-/
import Mathlib

namespace Chunks

variable {α β : Type*}

/-- Pieces of `n` elements, from the front, after at most `k` cuts. -/
def chunks (n : ℕ) : ℕ → List α → List (List α)
  | _, [] => []
  | 0, _ :: _ => []
  | k + 1, a :: l => (a :: l).take n :: chunks n k ((a :: l).drop n)

/-- A chunk shortens what is left. -/
theorem length_drop_le {n k : ℕ} (hn : 0 < n) {a : α} {l : List α}
    (hk : (a :: l).length ≤ k + 1) : ((a :: l).drop n).length ≤ k := by
  rw [List.length_drop]
  omega

/-- **The chunks together are the list.** -/
theorem flatten_chunks {n k : ℕ} (hn : 0 < n) {l : List α} (hk : l.length ≤ k) :
    (chunks n k l).flatten = l := by
  induction k generalizing l with
  | zero =>
      obtain rfl := List.length_eq_zero_iff.mp (Nat.le_zero.mp hk)
      rfl
  | succ k ih =>
      cases l with
      | nil => rfl
      | cons a l =>
          rw [chunks, List.flatten_cons, ih (length_drop_le hn hk), List.take_append_drop]

/-- No chunk is empty. -/
theorem ne_nil_of_mem_chunks {n k : ℕ} (hn : 0 < n) {l b : List α} (hb : b ∈ chunks n k l) :
    b ≠ [] := by
  induction k generalizing l with
  | zero =>
      cases l with
      | nil => exact absurd hb List.not_mem_nil
      | cons a l => exact absurd hb List.not_mem_nil
  | succ k ih =>
      cases l with
      | nil => exact absurd hb List.not_mem_nil
      | cons a l =>
          rw [chunks, List.mem_cons] at hb
          rcases hb with rfl | hb
          · rw [Ne, List.take_eq_nil_iff, not_or]
            exact ⟨Nat.ne_of_gt hn, List.cons_ne_nil a l⟩
          · exact ih hb

/-- The `j`-th chunk begins with the element at `n * j`. -/
theorem head?_getElem?_chunks {n k : ℕ} (hn : 0 < n) {l : List α} (hk : l.length ≤ k) (j : ℕ) :
    ((chunks n k l)[j]?).bind List.head? = l[n * j]? := by
  induction k generalizing l j with
  | zero =>
      obtain rfl := List.length_eq_zero_iff.mp (Nat.le_zero.mp hk)
      rfl
  | succ k ih =>
      cases l with
      | nil => rfl
      | cons a l =>
          rw [chunks]
          cases j with
          | zero =>
              obtain ⟨m, rfl⟩ := Nat.exists_eq_succ_of_ne_zero (Nat.ne_of_gt hn)
              rfl
          | succ j =>
              rw [List.getElem?_cons_succ, ih (length_drop_le hn hk), List.getElem?_drop,
                Nat.mul_succ, Nat.add_comm]

/-! ## Pieces -/

/-- What stands first in the pieces stands in the same order in the whole. -/
theorem map_head_sublist {f : α → β} {g : List α → β} (hg : ∀ a l, g (a :: l) = f a)
    {bs : List (List α)} (hne : ∀ b ∈ bs, b ≠ []) : (bs.map g).Sublist (bs.flatten.map f) := by
  induction bs with
  | nil => exact List.Sublist.refl _
  | cons b bs ih =>
      obtain ⟨a, l, rfl⟩ := List.exists_cons_of_ne_nil (hne b List.mem_cons_self)
      rw [List.map_cons, hg, List.flatten_cons, List.map_append, List.map_cons, List.cons_append]
      exact ((ih fun b hb => hne b (List.mem_cons_of_mem _ hb)).trans
        (List.sublist_append_right _ _)).cons_cons (f a)

/-- **Nothing is dropped unnoticed**: the pieces that pass `p` make up the whole exactly when
every piece passes. -/
theorem flatMap_filter_perm_iff {f : α → List β} {p : α → Bool} {l : List α}
    (hne : ∀ a ∈ l, f a ≠ []) :
    ((l.filter p).flatMap f).Perm (l.flatMap f) ↔ ∀ a ∈ l, p a = true := by
  constructor
  · intro h
    -- the pieces that do not pass would have to be empty
    have hsplit := (List.filter_append_perm p l).flatMap_right f
    rw [List.flatMap_append] at hsplit
    have hlen := (h.trans hsplit.symm).length_eq
    rw [List.length_append] at hlen
    have hnil : (l.filter fun a => !p a).flatMap f = [] :=
      List.length_eq_zero_iff.mp (by omega)
    intro a ha
    by_contra hp
    have hmem : a ∈ l.filter fun a => !p a := List.mem_filter.mpr ⟨ha, by simpa using hp⟩
    exact hne a ha (List.flatMap_eq_nil_iff.mp hnil a hmem)
  · intro h
    rw [List.filter_eq_self.mpr h]

end Chunks
