/-
# Counted objects

A heap of objects with reference counts.  An object begins with one reference; `retain` takes
another, and `release` gives references back: with the last one the object is freed, and its
destructor gives back those that its value says, one after the other, which may free further
objects.  Looking into an object that was freed, or giving back a reference to it, is a fault,
the result `none`.

What keeps a program from faults is an account: the count of every object is the number of
references to it from outside and from the objects that are alive (`Balanced`).  Each
operation moves references between the two, and on a balanced heap giving back a reference that
is held never faults, however much it frees (`Balanced.deref`).
-/
import Mathlib

namespace RefCount

/-- An object and how many references there are to it; it was freed if there are none. -/
structure Cell (α : Type*) where
  count : ℕ
  val : α

/-- The objects in the order of their allocation. -/
abbrev Heap (α : Type*) := List (Cell α)

section operations

variable {α : Type*}

/-- How many references there are to an object; none if it was never allocated. -/
def refs (h : Heap α) (x : ℕ) : ℕ := (h[x]?.map Cell.count).getD 0

/-- Look into an object. -/
def read (h : Heap α) (x : ℕ) : Option α :=
  h[x]?.bind fun c => if c.count = 0 then none else some c.val

/-- A new object, under the number `h.length`. -/
def alloc (h : Heap α) (v : α) : Heap α := h ++ [⟨1, v⟩]

/-- Take one more reference. -/
def retain (h : Heap α) (x : ℕ) : Option (Heap α) :=
  (read h x).map fun v => h.set x ⟨refs h x + 1, v⟩

/-- Change an object, which must be there. -/
def write (h : Heap α) (x : ℕ) (w : α) : Option (Heap α) :=
  (read h x).map fun _ => h.set x ⟨refs h x, w⟩

/-- All references together. -/
def total (h : Heap α) : ℕ := (h.map Cell.count).sum

variable (drops : α → List ℕ)

/-- Give back the references in the list, at most `n`; a destructor comes before the rest of
the list. -/
def release : ℕ → Heap α → List ℕ → Option (Heap α)
  | _, h, [] => some h
  | 0, _, _ :: _ => none
  | n + 1, h, x :: work =>
    (read h x).bind fun v =>
      if refs h x = 1 then release n (h.set x ⟨0, v⟩) (drops v ++ work)
      else release n (h.set x ⟨refs h x - 1, v⟩) work

/-- Give back one reference. -/
def deref (h : Heap α) (x : ℕ) : Option (Heap α) := release drops (total h) h [x]

end operations

/-! ## What the operations change -/

section laws

variable {α : Type*} {h : Heap α} {x y : ℕ} {v w : α}

theorem read_eq_some : read h x = some v ↔ h[x]? = some ⟨refs h x, v⟩ ∧ refs h x ≠ 0 := by
  unfold read refs
  cases hx : h[x]? with
  | none => simp
  | some c =>
    obtain ⟨n, u⟩ := c
    by_cases hn : n = 0 <;> simp [hn]

theorem lt_of_read (hx : read h x = some v) : x < h.length := by
  obtain ⟨hget, -⟩ := read_eq_some.mp hx
  exact (List.getElem?_eq_some_iff.mp hget).1

/-- An object is alive while there are references to it. -/
theorem isSome_read_iff : (read h x).isSome ↔ refs h x ≠ 0 := by
  unfold read refs
  cases h[x]? with
  | none => simp
  | some c => by_cases hn : c.count = 0 <;> simp [hn]

theorem refs_set (hx : x < h.length) (c : Cell α) (y : ℕ) :
    refs (h.set x c) y = if y = x then c.count else refs h y := by
  unfold refs
  rw [List.getElem?_set]
  by_cases hy : x = y
  · subst hy
    simp [hx]
  · rw [if_neg hy, if_neg (Ne.symm hy)]

theorem read_set (hx : x < h.length) (c : Cell α) (y : ℕ) :
    read (h.set x c) y =
      if y = x then (if c.count = 0 then none else some c.val) else read h y := by
  unfold read
  rw [List.getElem?_set]
  by_cases hy : x = y
  · subst hy
    simp [hx]
  · rw [if_neg hy, if_neg (Ne.symm hy)]

theorem refs_alloc (h : Heap α) (v : α) (y : ℕ) :
    refs (alloc h v) y = refs h y + if y = h.length then 1 else 0 := by
  unfold refs alloc
  rw [List.getElem?_append]
  by_cases hy : y < h.length
  · rw [if_pos hy, if_neg (Nat.ne_of_lt hy), Nat.add_zero]
  · rw [if_neg hy, List.getElem?_eq_none (not_lt.mp hy)]
    by_cases heq : y = h.length
    · simp [heq]
    · have hpos : y - h.length ≠ 0 := by omega
      simp [heq, hpos]

theorem read_alloc (h : Heap α) (v : α) (y : ℕ) :
    read (alloc h v) y = if y = h.length then some v else read h y := by
  unfold read alloc
  rw [List.getElem?_append]
  by_cases hy : y < h.length
  · rw [if_pos hy, if_neg (Nat.ne_of_lt hy)]
  · rw [if_neg hy, List.getElem?_eq_none (not_lt.mp hy)]
    by_cases heq : y = h.length
    · simp [heq]
    · have hpos : y - h.length ≠ 0 := by omega
      simp [heq, hpos]

theorem retain_eq (hx : read h x = some v) :
    retain h x = some (h.set x ⟨refs h x + 1, v⟩) := by
  rw [retain, hx, Option.map_some]

theorem write_eq (hx : read h x = some v) (w : α) :
    write h x w = some (h.set x ⟨refs h x, w⟩) := by
  rw [write, hx, Option.map_some]

/-- Another reference shows in no object. -/
theorem read_retain {h' : Heap α} (hr : retain h x = some h') (y : ℕ) : read h' y = read h y := by
  obtain ⟨v, hx, rfl⟩ := Option.map_eq_some_iff.mp hr
  rw [read_set (lt_of_read hx)]
  by_cases hy : y = x
  · rw [if_pos hy, if_neg (Nat.succ_ne_zero _), hy, hx]
  · rw [if_neg hy]

theorem read_write {h' : Heap α} (hw : write h x w = some h') (y : ℕ) :
    read h' y = if y = x then some w else read h y := by
  obtain ⟨v, hx, rfl⟩ := Option.map_eq_some_iff.mp hw
  rw [read_set (lt_of_read hx), if_neg (read_eq_some.mp hx).2]

end laws

/-! ## Balanced heaps -/

section balanced

variable {α : Type*} (drops : α → List ℕ)

/-- The references that an object holds while it is alive. -/
def own (c : Cell α) : Multiset ℕ := if c.count = 0 then 0 else (drops c.val : Multiset ℕ)

/-- The references that the objects hold. -/
def owned (h : Heap α) : Multiset ℕ := (h.map (own drops)).sum

/-- The count of every object is the number of references to it, from outside and from the
objects that are alive. -/
def Balanced (h : Heap α) (out : Multiset ℕ) : Prop :=
  ∀ x, refs h x = out.count x + (owned drops h).count x

variable {drops} {h : Heap α} {out : Multiset ℕ} {x : ℕ} {v : α}

theorem mem_owned {y : ℕ} : y ∈ owned drops h ↔ ∃ x v, read h x = some v ∧ y ∈ drops v := by
  have hown : ∀ c : Cell α, y ∈ own drops c ↔ c.count ≠ 0 ∧ y ∈ drops c.val := by
    intro c
    unfold own
    by_cases hc : c.count = 0 <;> simp [hc]
  have hsum : ∀ l : List (Cell α), y ∈ (l.map (own drops)).sum ↔ ∃ c ∈ l, y ∈ own drops c := by
    intro l
    induction l with
    | nil => simp
    | cons c l ih => simp [ih]
  rw [owned, hsum]
  constructor
  · rintro ⟨c, hc, hy⟩
    obtain ⟨x, hx⟩ := List.mem_iff_getElem?.mp hc
    obtain ⟨hcount, hdrop⟩ := (hown c).mp hy
    exact ⟨x, c.val, by simp [read, hx, hcount], hdrop⟩
  · rintro ⟨x, v, hx, hy⟩
    obtain ⟨hget, hrefs⟩ := read_eq_some.mp hx
    exact ⟨_, List.mem_of_getElem? hget, (hown _).mpr ⟨hrefs, hy⟩⟩

/-- What an exchanged object held and what it holds now. -/
theorem owned_set (drops : α → List ℕ) {c : Cell α} (hx : h[x]? = some c) (c' : Cell α) :
    owned drops (h.set x c') + own drops c = owned drops h + own drops c' := by
  induction h generalizing x with
  | nil => simp at hx
  | cons d h ih =>
    cases x with
    | zero =>
      obtain rfl : d = c := by simpa using hx
      simp only [List.set_cons_zero, owned, List.map_cons, List.sum_cons]
      abel
    | succ x =>
      have hrest := ih (by simpa using hx)
      unfold owned at hrest ⊢
      simp only [List.set_cons_succ, List.map_cons, List.sum_cons]
      rw [add_assoc, hrest, add_assoc]

theorem own_of_read (hx : read h x = some v) :
    own drops ⟨refs h x, v⟩ = (drops v : Multiset ℕ) := if_neg (read_eq_some.mp hx).2

/-- What is held from outside is alive. -/
theorem Balanced.read_of_mem (hb : Balanced drops h out) (hx : x ∈ out) :
    ∃ v, read h x = some v := by
  have hpos : 0 < out.count x := Multiset.count_pos.mpr hx
  have hrefs := hb x
  exact Option.isSome_iff_exists.mp (isSome_read_iff.mpr (by omega))

/-- A new object takes over references from outside. -/
theorem Balanced.alloc (hb : Balanced drops h ((drops v : Multiset ℕ) + out)) :
    Balanced drops (alloc h v) (h.length ::ₘ out) := by
  intro y
  have hy := hb y
  have hown : owned drops (RefCount.alloc h v) = owned drops h + (drops v : Multiset ℕ) := by
    simp [owned, RefCount.alloc, own]
  rw [refs_alloc, hown, Multiset.count_add, Multiset.count_cons]
  rw [Multiset.count_add] at hy
  omega

theorem Balanced.retain (hb : Balanced drops h out) (hx : read h x = some v) :
    ∃ h', RefCount.retain h x = some h' ∧ Balanced drops h' (x ::ₘ out) := by
  refine ⟨_, retain_eq hx, fun y => ?_⟩
  have hget := (read_eq_some.mp hx).1
  have hset := owned_set drops hget ⟨refs h x + 1, v⟩
  have hsame : own drops ⟨refs h x + 1, v⟩ = own drops ⟨refs h x, v⟩ := by
    rw [own_of_read hx]
    exact if_neg (Nat.succ_ne_zero _)
  rw [hsame] at hset
  rw [refs_set (lt_of_read hx), add_right_cancel hset, Multiset.count_cons]
  have hy := hb y
  by_cases heq : y = x
  · subst heq
    rw [if_pos rfl, if_pos rfl]
    show refs h y + 1 = _
    omega
  · rw [if_neg heq, if_neg heq]
    omega

/-- A new value takes over references from outside, and those that only the old one held are
outside afterwards. -/
theorem Balanced.write {w : α} {out' : Multiset ℕ} (hb : Balanced drops h out)
    (hx : read h x = some v)
    (hout : out' + (drops w : Multiset ℕ) = out + (drops v : Multiset ℕ)) :
    ∃ h', RefCount.write h x w = some h' ∧ Balanced drops h' out' := by
  refine ⟨_, write_eq hx w, fun y => ?_⟩
  obtain ⟨hget, hrefs⟩ := read_eq_some.mp hx
  have hset := owned_set drops hget ⟨refs h x, w⟩
  have hnew : own drops ⟨refs h x, w⟩ = (drops w : Multiset ℕ) := if_neg hrefs
  rw [own_of_read hx, hnew] at hset
  have hcount := congrArg (Multiset.count y) hset
  have hmove := congrArg (Multiset.count y) hout
  have hy := hb y
  have hsame : refs (h.set x ⟨refs h x, w⟩) y = refs h y := by
    rw [refs_set (lt_of_read hx)]
    by_cases heq : y = x
    · rw [if_pos heq, heq]
    · rw [if_neg heq]
  rw [Multiset.count_add, Multiset.count_add] at hcount hmove
  rw [hsame]
  omega

/-! ## Giving back references -/

/-- Objects may have been freed, and nothing else has changed. -/
structure Shrinks (h h' : Heap α) : Prop where
  length : h'.length = h.length
  read : ∀ y v, RefCount.read h' y = some v → RefCount.read h y = some v
  val : ∀ y : ℕ, h'[y]?.map Cell.val = h[y]?.map Cell.val

theorem Shrinks.refl (h : Heap α) : Shrinks h h := ⟨rfl, fun _ _ => id, fun _ => rfl⟩

theorem Shrinks.trans {h h' h'' : Heap α} (hh : Shrinks h h') (hh' : Shrinks h' h'') :
    Shrinks h h'' :=
  ⟨hh'.length.trans hh.length, fun y v hy => hh.read y v (hh'.read y v hy),
    fun y => (hh'.val y).trans (hh.val y)⟩

/-- One reference less. -/
theorem shrinks_set (hx : read h x = some v) (n : ℕ) : Shrinks h (h.set x ⟨n, v⟩) := by
  refine ⟨List.length_set, fun y w hy => ?_, fun y => ?_⟩
  · rw [read_set (lt_of_read hx)] at hy
    by_cases heq : y = x
    · rw [if_pos heq] at hy
      rw [heq, hx]
      split at hy
      · exact absurd hy nofun
      · exact hy
    · rwa [if_neg heq] at hy
  · rw [List.getElem?_set]
    by_cases heq : x = y
    · subst heq
      rw [if_pos rfl, if_pos (lt_of_read hx), (read_eq_some.mp hx).1]
      rfl
    · rw [if_neg heq]

theorem total_set {c : Cell α} (hx : h[x]? = some c) (c' : Cell α) :
    total (h.set x c') + c.count = total h + c'.count := by
  induction h generalizing x with
  | nil => simp at hx
  | cons d h ih =>
    cases x with
    | zero =>
      obtain rfl : d = c := by simpa using hx
      simp only [List.set_cons_zero, total, List.map_cons, List.sum_cons]
      omega
    | succ x =>
      have hrest := ih (by simpa using hx)
      unfold total at hrest ⊢
      simp only [List.set_cons_succ, List.map_cons, List.sum_cons]
      omega

/-- **Giving back references that are held** never faults, and what is left is balanced. -/
theorem Balanced.release {work : List ℕ} {n : ℕ}
    (hb : Balanced drops h ((work : Multiset ℕ) + out)) (hn : total h ≤ n) :
    ∃ h', release drops n h work = some h' ∧ Balanced drops h' out ∧ Shrinks h h' := by
  induction n generalizing h work with
  | zero =>
    cases work with
    | nil => exact ⟨h, by rw [RefCount.release], by simpa using hb, Shrinks.refl h⟩
    | cons x work =>
      obtain ⟨v, hx⟩ := hb.read_of_mem (Multiset.mem_add.mpr (Or.inl List.mem_cons_self))
      obtain ⟨hget, hrefs⟩ := read_eq_some.mp hx
      have htotal := total_set hget ⟨0, v⟩
      simp only at htotal
      omega
  | succ n ih =>
    cases work with
    | nil => exact ⟨h, by rw [RefCount.release], by simpa using hb, Shrinks.refl h⟩
    | cons x work =>
      obtain ⟨v, hx⟩ := hb.read_of_mem (Multiset.mem_add.mpr (Or.inl List.mem_cons_self))
      obtain ⟨hget, hrefs⟩ := read_eq_some.mp hx
      rw [RefCount.release, hx, Option.bind_some]
      have hkeep : ∀ (c : ℕ) (work' : List ℕ), c < refs h x →
          Balanced drops (h.set x ⟨c, v⟩) ((work' : Multiset ℕ) + out) →
          ∃ h', RefCount.release drops n (h.set x ⟨c, v⟩) work' = some h' ∧
            Balanced drops h' out ∧ Shrinks h h' := by
        intro c work' hc hb'
        have htotal := total_set hget ⟨c, v⟩
        simp only at htotal
        obtain ⟨h', hrel, hbal, hshrinks⟩ := ih hb' (by omega)
        exact ⟨h', hrel, hbal, (shrinks_set hx c).trans hshrinks⟩
      by_cases hlast : refs h x = 1
      · -- the destructor gives back what the object held
        rw [if_pos hlast]
        refine hkeep 0 (drops v ++ work) (by omega) fun y => ?_
        have hset := owned_set drops hget ⟨0, v⟩
        have hnone : own drops (⟨0, v⟩ : Cell α) = 0 := if_pos rfl
        rw [own_of_read hx, hnone, add_zero] at hset
        have hcount := congrArg (Multiset.count y) hset
        have hy := hb y
        rw [Multiset.count_add] at hcount hy
        rw [refs_set (lt_of_read hx), Multiset.count_add, ← Multiset.coe_add, Multiset.count_add]
        rw [← Multiset.cons_coe, Multiset.count_cons] at hy
        by_cases heq : y = x
        · subst heq
          rw [if_pos rfl] at hy ⊢
          show 0 = _
          omega
        · rw [if_neg heq] at hy ⊢
          omega
      · rw [if_neg hlast]
        refine hkeep (refs h x - 1) work (by omega) fun y => ?_
        have hset := owned_set drops hget ⟨refs h x - 1, v⟩
        have hsame : own drops (⟨refs h x - 1, v⟩ : Cell α) = own drops ⟨refs h x, v⟩ := by
          rw [own_of_read hx]
          exact if_neg (show refs h x - 1 ≠ 0 by omega)
        rw [hsame] at hset
        have hy := hb y
        rw [← Multiset.cons_coe, Multiset.cons_add, Multiset.count_cons] at hy
        rw [refs_set (lt_of_read hx), add_right_cancel hset]
        by_cases heq : y = x
        · subst heq
          rw [if_pos rfl] at hy ⊢
          show refs h y - 1 = _
          omega
        · rw [if_neg heq] at hy ⊢
          omega

/-- **Giving back one reference.** -/
theorem Balanced.deref (hb : Balanced drops h (x ::ₘ out)) :
    ∃ h', deref drops h x = some h' ∧ Balanced drops h' out ∧ Shrinks h h' := by
  apply Balanced.release _ le_rfl
  rwa [Multiset.coe_singleton, Multiset.singleton_add]

/-- **Alive is what is held**, from outside or by an object that is alive. -/
theorem Balanced.isSome_read_iff (hb : Balanced drops h out) :
    (read h x).isSome ↔ x ∈ out ∨ ∃ y v, read h y = some v ∧ x ∈ drops v := by
  rw [RefCount.isSome_read_iff, hb x, ← mem_owned, ← Multiset.count_pos, ← Multiset.count_pos]
  omega

end balanced

end RefCount
