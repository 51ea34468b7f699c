/-
# Tables of buckets

A table keeps its elements in `n` buckets; `slot a` is the bucket of the element `a`.
Elements are appended to their bucket, a lookup searches the bucket of a key, and a
traversal goes through the buckets one after the other.
-/
import Mathlib

namespace Buckets

variable {α : Type*} {n : ℕ}

/-- A table of `n` buckets. -/
abbrev Table (n : ℕ) (α : Type*) := Fin n → List α

/-- The table without elements. -/
def empty : Table n α := fun _ => []

/-- Append an element to a bucket. -/
def append (t : Table n α) (i : Fin n) (a : α) : Table n α :=
  fun j => if j = i then t j ++ [a] else t j

/-- The first element of a bucket that the handler accepts. -/
def lookup (t : Table n α) (i : Fin n) (accept : α → Bool) : Option α := (t i).find? accept

/-- The elements in the order of a traversal. -/
def elems (t : Table n α) : List α := (List.finRange n).flatMap t

variable (slot : α → Fin n)

/-- The table of the elements of a list, appended one after the other. -/
def ofList (l : List α) : Table n α := l.foldl (fun t a => append t (slot a) a) empty

theorem foldl_append_apply (l : List α) (t : Table n α) (i : Fin n) :
    l.foldl (fun t a => append t (slot a) a) t i
      = t i ++ l.filter fun a => decide (slot a = i) := by
  induction l generalizing t with
  | nil => rw [List.foldl_nil, List.filter_nil, List.append_nil]
  | cons a l ih =>
      rw [List.foldl_cons, ih]
      unfold append
      by_cases h : slot a = i
      · rw [if_pos h.symm, List.filter_cons_of_pos (by simpa using h), List.append_assoc]
        rfl
      · rw [if_neg (Ne.symm h), List.filter_cons_of_neg (by simpa using h)]

/-- A bucket holds the elements of the list that belong there, in their order. -/
theorem ofList_apply (l : List α) (i : Fin n) :
    ofList slot l i = l.filter fun a => decide (slot a = i) := by
  unfold ofList
  rw [foldl_append_apply]
  rfl

/-- Putting an element in front of one bucket puts it into the traversal once. -/
theorem flatMap_cons_at_perm {ι : Type*} [DecidableEq ι] (f : ι → List α) (k : ι) (a : α)
    {is : List ι} (hnd : is.Nodup) (hk : k ∈ is) :
    (is.flatMap fun i => if k = i then a :: f i else f i).Perm (a :: is.flatMap f) := by
  induction is with
  | nil => exact absurd hk List.not_mem_nil
  | cons j is ih =>
      rw [List.nodup_cons] at hnd
      rw [List.flatMap_cons, List.flatMap_cons]
      by_cases hj : k = j
      · rw [if_pos hj]
        have hrest : (is.flatMap fun i => if k = i then a :: f i else f i) = is.flatMap f := by
          apply List.flatMap_congr
          intro i hi
          rw [if_neg]
          rintro rfl
          exact hnd.1 (hj ▸ hi)
        rw [hrest, List.cons_append]
      · rw [if_neg hj]
        have hmem : k ∈ is := (List.mem_cons.mp hk).resolve_left hj
        exact ((ih hnd.2 hmem).append_left (f j)).trans List.perm_middle

/-- A traversal meets the elements of the list, each as often as the list has it. -/
theorem elems_ofList_perm (l : List α) : (elems (ofList slot l)).Perm l := by
  unfold elems
  rw [funext fun i => ofList_apply slot l i]
  induction l with
  | nil => simp
  | cons a l ih =>
      have hcons : (fun i => (a :: l).filter fun b => decide (slot b = i))
          = fun i => if slot a = i then a :: l.filter (fun b => decide (slot b = i))
            else l.filter fun b => decide (slot b = i) := by
        funext i
        by_cases h : slot a = i
        · rw [if_pos h, List.filter_cons_of_pos (by simpa using h)]
        · rw [if_neg h, List.filter_cons_of_neg (by simpa using h)]
      -- the first element of the list stands first in its bucket
      rw [hcons]
      exact (flatMap_cons_at_perm _ (slot a) a (List.nodup_finRange n)
        (List.mem_finRange _)).trans (ih.cons a)

/-- **A handler that accepts everything** finds something exactly when some element of the
list shares the bucket. -/
theorem isSome_lookup_ofList (l : List α) (i : Fin n) :
    (lookup (ofList slot l) i fun _ => true).isSome = true ↔ ∃ a ∈ l, slot a = i := by
  unfold lookup
  rw [ofList_apply, List.find?_isSome]
  constructor
  · rintro ⟨a, ha, -⟩
    exact ⟨a, (List.mem_filter.mp ha).1, by simpa using (List.mem_filter.mp ha).2⟩
  · rintro ⟨a, ha, hslot⟩
    exact ⟨a, List.mem_filter.mpr ⟨ha, by simpa using hslot⟩, rfl⟩

end Buckets
