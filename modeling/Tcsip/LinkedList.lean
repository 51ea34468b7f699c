/-
# Doubly linked lists

Elements live at addresses.  Each one knows its neighbours and the header of the list it
was put into, and a header knows the first and the last element.  An element that was freed
is at its address no more, and an operation that would read it has no result (`none`); a
walk also has none when it is not over after `n` elements.

`Chain m l prev p as` says that from `p` on the elements `as` are linked, each with its
address and its data.  A walk sees exactly these (`elements_of_chain`), a flush frees
exactly these (`flushFrom_of_chain`), and cutting a link leaves two chains (`Chain.cut`).
-/
import Mathlib

namespace LinkedList

variable {α τ : Type}

/-! ## Memory -/

/-- A list element. -/
structure Le (α : Type) where
  prev : Option ℕ
  next : Option ℕ
  list : ℕ
  data : α

/-- The header of a list. -/
structure Header where
  head : Option ℕ
  tail : Option ℕ

/-- The elements and the headers by their addresses. -/
structure Mem (α : Type) where
  le : ℕ → Option (Le α)
  list : ℕ → Header

namespace Mem

/-- No element, and all headers initialised. -/
def empty : Mem α := { le := fun _ => none, list := fun _ => ⟨none, none⟩ }

/-- Write an element. -/
def setLe (m : Mem α) (a : ℕ) (c : Le α) : Mem α :=
  { m with le := Function.update m.le a (some c) }

/-- Write a header. -/
def setList (m : Mem α) (l : ℕ) (h : Header) : Mem α :=
  { m with list := Function.update m.list l h }

/-- `le->next = next`. -/
def setNext (m : Mem α) (a : ℕ) (next : Option ℕ) : Option (Mem α) :=
  (m.le a).map fun c => m.setLe a { c with next := next }

/-- `le->prev = prev`. -/
def setPrev (m : Mem α) (a : ℕ) (prev : Option ℕ) : Option (Mem α) :=
  (m.le a).map fun c => m.setLe a { c with prev := prev }

/-- Free an element. -/
def free (m : Mem α) (a : ℕ) : Mem α := { m with le := Function.update m.le a none }

@[simp] theorem setLe_self (m : Mem α) (a : ℕ) (c : Le α) : (m.setLe a c).le a = some c := by
  simp [setLe]

@[simp] theorem setLe_of_ne {m : Mem α} {a b : ℕ} (c : Le α) (h : b ≠ a) :
    (m.setLe a c).le b = m.le b := by
  simp [setLe, h]

@[simp] theorem setLe_list (m : Mem α) (a : ℕ) (c : Le α) : (m.setLe a c).list = m.list := rfl

@[simp] theorem setList_le (m : Mem α) (l : ℕ) (h : Header) : (m.setList l h).le = m.le := rfl

@[simp] theorem setList_self (m : Mem α) (l : ℕ) (h : Header) : (m.setList l h).list l = h := by
  simp [setList]

@[simp] theorem setList_of_ne {m : Mem α} {l k : ℕ} (h : Header) (hne : k ≠ l) :
    (m.setList l h).list k = m.list k := by
  simp [setList, hne]

@[simp] theorem free_of_ne {m : Mem α} {a b : ℕ} (h : b ≠ a) : (m.free a).le b = m.le b := by
  simp [free, h]

end Mem

/-! ## Operations -/

/-- `list_apply` from an element on: the handler is called with each element until it
returns true. -/
def walk (ah : Mem α → ℕ → τ → Option (Mem α × τ × Bool)) :
    ℕ → Mem α → Option ℕ → τ → Option (Mem α × τ)
  | _, m, none, s => some (m, s)
  | 0, _, some _, _ => none
  | n + 1, m, some a, s => do
    let c ← m.le a
    let (m, s, stop) ← ah m a s
    if stop then some (m, s) else walk ah n m c.next s

/-- The data that is met on a walk. -/
def elements : ℕ → Mem α → Option ℕ → Option (List α)
  | _, _, none => some []
  | 0, _, some _ => none
  | n + 1, m, some a => do
    let c ← m.le a
    let xs ← elements n m c.next
    some (c.data :: xs)

/-- The loop of `list_flush`: free each element. -/
def flushFrom : ℕ → Mem α → Option ℕ → Option (Mem α)
  | _, m, none => some m
  | 0, _, some _ => none
  | n + 1, m, some a => do
    let c ← m.le a
    flushFrom n (m.free a) c.next

/-- `list_flush`. -/
def flush (n : ℕ) (m : Mem α) (l : ℕ) : Option (Mem α) :=
  (flushFrom n m (m.list l).head).map fun m => m.setList l ⟨none, none⟩

/-- `list_append` of a new element. -/
def append (m : Mem α) (l a : ℕ) (x : α) : Option (Mem α) :=
  let tail := (m.list l).tail
  let m := m.setLe a { prev := tail, next := none, list := l, data := x }
  match tail with
  | none => some (m.setList l ⟨some a, some a⟩)
  | some t =>
    (m.setNext t (some a)).map fun m => m.setList l { m.list l with tail := some a }

/-! ## Chains -/

/-- From `p` on the elements `as` of the list `l` are linked, up to the end; before them
comes `prev`. -/
def Chain (m : Mem α) (l : ℕ) : Option ℕ → Option ℕ → List (ℕ × α) → Prop
  | _, p, [] => p = none
  | prev, p, (a, x) :: as =>
    p = some a ∧ ∃ next, m.le a = some ⟨prev, next, l, x⟩ ∧ Chain m l (some a) next as

section chain

variable {m m' : Mem α} {l : ℕ} {prev p : Option ℕ} {as us vs : List (ℕ × α)}

/-- A chain only depends on its own elements. -/
theorem Chain.congr (h : Chain m l prev p as) (hle : ∀ a ∈ as.map Prod.fst, m'.le a = m.le a) :
    Chain m' l prev p as := by
  induction as generalizing prev p with
  | nil => exact h
  | cons ax as ih =>
      obtain ⟨a, x⟩ := ax
      obtain ⟨rfl, next, ha, has⟩ := h
      refine ⟨rfl, next, ?_, ih has fun b hb => hle b (List.mem_cons_of_mem a hb)⟩
      rw [hle a List.mem_cons_self, ha]

/-- The head of a chain tells whether it is empty. -/
theorem Chain.head_eq (h : Chain m l prev p as) : p = as.head?.map Prod.fst := by
  cases as with
  | nil => exact h
  | cons ax as => exact h.1

/-- **What is linked from an element on** is one list only, whatever it belongs to. -/
theorem Chain.unique {k : ℕ} {before : Option ℕ} {bs : List (ℕ × α)} (h : Chain m l prev p as)
    (h' : Chain m k before p bs) : as = bs := by
  induction as generalizing prev before p bs with
  | nil =>
      obtain rfl : p = none := h
      cases bs with
      | nil => rfl
      | cons bz bs => exact nomatch h'.1
  | cons ax as ih =>
      obtain ⟨a, x⟩ := ax
      obtain ⟨rfl, next, ha, has⟩ := h
      cases bs with
      | nil => exact nomatch (h' : some a = none)
      | cons bz bs =>
          obtain ⟨b, z⟩ := bz
          obtain ⟨hab, next', hb, hbs⟩ := h'
          obtain rfl := Option.some.inj hab
          obtain ⟨-, rfl, -, rfl⟩ := Le.mk.inj (Option.some.inj (ha.symm.trans hb))
          rw [ih has hbs]

/-- **A walk meets the data of the chain.** -/
theorem elements_of_chain {n : ℕ} (hn : as.length ≤ n) (h : Chain m l prev p as) :
    elements n m p = some (as.map Prod.snd) := by
  induction as generalizing n prev p with
  | nil =>
      obtain rfl : p = none := h
      cases n <;> rfl
  | cons ax as ih =>
      obtain ⟨a, x⟩ := ax
      obtain ⟨rfl, next, ha, has⟩ := h
      obtain ⟨k, rfl⟩ := Nat.exists_eq_succ_of_ne_zero (Nat.ne_zero_of_lt hn)
      rw [elements, ha, Option.bind_eq_bind, Option.bind_some, ih (Nat.le_of_succ_le_succ hn) has]
      rfl

/-- **A flush frees the elements of the chain**, and nothing else. -/
theorem flushFrom_of_chain {n : ℕ} (hn : as.length ≤ n) (hnd : (as.map Prod.fst).Nodup)
    (h : Chain m l prev p as) :
    ∃ m', flushFrom n m p = some m' ∧ m'.list = m.list ∧
      ∀ b, b ∉ as.map Prod.fst → m'.le b = m.le b := by
  induction as generalizing n m prev p with
  | nil =>
      obtain rfl : p = none := h
      exact ⟨m, by cases n <;> rfl, rfl, fun b _ => rfl⟩
  | cons ax as ih =>
      obtain ⟨a, x⟩ := ax
      obtain ⟨rfl, next, ha, has⟩ := h
      obtain ⟨k, rfl⟩ := Nat.exists_eq_succ_of_ne_zero (Nat.ne_zero_of_lt hn)
      obtain ⟨hnot, hnd⟩ := List.nodup_cons.mp hnd
      have hrest : Chain (m.free a) l (some a) next as := has.congr fun b hb =>
        Mem.free_of_ne fun heq => hnot (heq ▸ hb)
      obtain ⟨m', hflush, hlist, hle⟩ := ih (Nat.le_of_succ_le_succ hn) hnd hrest
      refine ⟨m', ?_, hlist, fun b hb => ?_⟩
      · rw [flushFrom, ha, Option.bind_eq_bind, Option.bind_some, hflush]
      · have hba : b ≠ a := fun heq => hb (by simp [heq])
        rw [hle b fun hmem => hb (List.mem_cons_of_mem a hmem), Mem.free_of_ne hba]

/-- **`list_flush`** frees what is behind the header, and leaves the other headers alone. -/
theorem flush_of_chain {n k : ℕ} (hn : as.length ≤ n) (hnd : (as.map Prod.fst).Nodup)
    (h : Chain m l prev (m.list k).head as) :
    ∃ m', flush n m k = some m' ∧ (∀ j, j ≠ k → m'.list j = m.list j) ∧
      ∀ b, b ∉ as.map Prod.fst → m'.le b = m.le b := by
  obtain ⟨freed, hflush, hlist, hle⟩ := flushFrom_of_chain hn hnd h
  refine ⟨freed.setList k ⟨none, none⟩, by rw [flush, hflush, Option.map_some], ?_, hle⟩
  intro j hj
  rw [Mem.setList_of_ne _ hj, hlist]

/-- Two neighbours in a chain know each other. -/
theorem Chain.neighbours {a b : ℕ} {x y : α}
    (h : Chain m l prev p (us ++ (a, x) :: (b, y) :: vs)) :
    ∃ before after, m.le a = some ⟨before, some b, l, x⟩ ∧
      m.le b = some ⟨some a, after, l, y⟩ := by
  induction us generalizing prev p with
  | nil =>
      obtain ⟨rfl, next, ha, rfl, after, hb, -⟩ := h
      exact ⟨prev, after, ha, hb⟩
  | cons cz us ih =>
      obtain ⟨-, next, -, hrest⟩ := h
      exact ih hrest

/-- **Cutting a link** leaves the chain before it and the chain behind it. -/
theorem Chain.cut {a b : ℕ} {x y : α} {before after : Option ℕ}
    (h : Chain m l prev p (us ++ (a, x) :: (b, y) :: vs))
    (hnd : ((us ++ (a, x) :: (b, y) :: vs).map Prod.fst).Nodup)
    (ha : m.le a = some ⟨before, some b, l, x⟩) (ha' : m'.le a = some ⟨before, none, l, x⟩)
    (hb : m.le b = some ⟨some a, after, l, y⟩) (hb' : m'.le b = some ⟨none, after, l, y⟩)
    (hle : ∀ c, c ≠ a → c ≠ b → m'.le c = m.le c) :
    Chain m' l prev p (us ++ [(a, x)]) ∧ Chain m' l none (some b) ((b, y) :: vs) := by
  induction us generalizing prev p with
  | nil =>
      obtain ⟨rfl, next, hcell, rfl, next', hcell', hrest⟩ := h
      obtain ⟨rfl, -⟩ := Le.mk.inj (Option.some.inj (ha.symm.trans hcell))
      obtain ⟨-, rfl, -⟩ := Le.mk.inj (Option.some.inj (hb.symm.trans hcell'))
      obtain ⟨hnota, hnd⟩ := List.nodup_cons.mp hnd
      have hnotb := (List.nodup_cons.mp hnd).1
      refine ⟨⟨rfl, none, ha', rfl⟩, rfl, _, hb', hrest.congr fun c hc => hle c ?_ ?_⟩
      · exact fun heq => hnota (heq ▸ List.mem_cons_of_mem b hc)
      · exact fun heq => hnotb (heq ▸ hc)
  | cons cz us ih =>
      obtain ⟨c, z⟩ := cz
      obtain ⟨rfl, next, hcell, hrest⟩ := h
      obtain ⟨hnot, hnd⟩ := List.nodup_cons.mp hnd
      obtain ⟨hfront, hback⟩ := ih hrest hnd
      refine ⟨⟨rfl, next, ?_, hfront⟩, hback⟩
      rw [hle c (fun heq => hnot (by simp [heq])) (fun heq => hnot (by simp [heq])), hcell]

/-- A new element behind the last one of a chain. -/
theorem Chain.snoc {a t : ℕ} {x z : α} {before : Option ℕ}
    (h : Chain m l prev p (us ++ [(t, z)]))
    (hnd : ((us ++ [(t, z)]).map Prod.fst).Nodup)
    (ht : m.le t = some ⟨before, none, l, z⟩) (ht' : m'.le t = some ⟨before, some a, l, z⟩)
    (ha : m'.le a = some ⟨some t, none, l, x⟩) (hle : ∀ c, c ≠ t → c ≠ a → m'.le c = m.le c)
    (hnew : a ∉ (us ++ [(t, z)]).map Prod.fst) :
    Chain m' l prev p (us ++ [(t, z)] ++ [(a, x)]) := by
  induction us generalizing prev p with
  | nil =>
      obtain ⟨rfl, next, hcell, -⟩ := h
      obtain ⟨rfl, -⟩ := Le.mk.inj (Option.some.inj (ht.symm.trans hcell))
      exact ⟨rfl, some a, ht', rfl, none, ha, rfl⟩
  | cons cw us ih =>
      obtain ⟨c, w⟩ := cw
      obtain ⟨rfl, next, hcell, hrest⟩ := h
      obtain ⟨hnot, hnd⟩ := List.nodup_cons.mp hnd
      refine ⟨rfl, next, ?_, ih hrest hnd fun hmem => hnew (List.mem_cons_of_mem c hmem)⟩
      rw [hle c (fun heq => hnot (by simp [heq])) (fun heq => hnew (by simp [heq])), hcell]

/-- The last element of a chain knows that nothing follows. -/
theorem Chain.last {t : ℕ} {z : α} (h : Chain m l prev p (us ++ [(t, z)])) :
    ∃ before, m.le t = some ⟨before, none, l, z⟩ := by
  induction us generalizing prev p with
  | nil =>
      obtain ⟨-, next, hcell, rfl⟩ := h
      exact ⟨prev, hcell⟩
  | cons cw us ih =>
      obtain ⟨-, next, -, hrest⟩ := h
      exact ih hrest

end chain

/-! ## Lists -/

/-- The list with the header `l` has the elements `as`. -/
structure IsList (m : Mem α) (l : ℕ) (as : List (ℕ × α)) : Prop where
  chain : Chain m l none (m.list l).head as
  tail : (m.list l).tail = as.getLast?.map Prod.fst
  nodup : (as.map Prod.fst).Nodup

/-- The list behind the header `l` has the elements `as`, which belong to the header `own`. -/
structure IsListOf (m : Mem α) (own l : ℕ) (as : List (ℕ × α)) : Prop where
  chain : Chain m own none (m.list l).head as
  tail : (m.list l).tail = as.getLast?.map Prod.fst
  nodup : (as.map Prod.fst).Nodup

/-- A copy of the header shows the same elements. -/
theorem IsList.copy {m : Mem α} {l : ℕ} {as : List (ℕ × α)} (h : IsList m l as) (k : ℕ) :
    IsListOf (m.setList k (m.list l)) l k as := by
  refine ⟨?_, ?_, h.nodup⟩
  · rw [Mem.setList_self]
    exact h.chain.congr fun _ _ => rfl
  · rw [Mem.setList_self]
    exact h.tail

/-- A list that was initialised has no elements. -/
theorem isList_empty (l : ℕ) : IsList (Mem.empty : Mem α) l [] :=
  ⟨rfl, rfl, List.nodup_nil⟩

/-- **`list_append`** puts a new element behind the others. -/
theorem IsList.append {m : Mem α} {l a : ℕ} {as : List (ℕ × α)} (h : IsList m l as)
    (ha : a ∉ as.map Prod.fst) (x : α) :
    ∃ m', append m l a x = some m' ∧ IsList m' l (as ++ [(a, x)]) := by
  have hnd : ((as ++ [(a, x)]).map Prod.fst).Nodup := by
    rw [List.map_append, List.map_singleton, ← List.concat_eq_append]
    exact h.nodup.concat ha
  have hlast : (as ++ [(a, x)]).getLast?.map Prod.fst = some a := by simp
  rcases List.eq_nil_or_concat' as with rfl | ⟨us, ⟨t, z⟩, rfl⟩
  · have htail : (m.list l).tail = none := h.tail
    refine ⟨_, by rw [LinkedList.append, htail], ⟨?_, ?_, hnd⟩⟩
    · exact ⟨by simp, none, by simp, rfl⟩
    · rw [hlast, Mem.setList_self]
  · have htail : (m.list l).tail = some t := by
      rw [h.tail]
      simp
    have hta : t ≠ a := fun heq => ha (by simp [heq])
    obtain ⟨before, ht⟩ := h.chain.last
    have happ : LinkedList.append m l a x
        = some (((m.setLe a ⟨some t, none, l, x⟩).setLe t ⟨before, some a, l, z⟩).setList l
            { m.list l with tail := some a }) := by
      unfold LinkedList.append Mem.setNext
      rw [htail]
      dsimp only
      rw [Mem.setLe_of_ne _ hta, ht]
      rfl
    refine ⟨_, happ, ⟨?_, ?_, hnd⟩⟩
    · rw [Mem.setList_self]
      refine h.chain.snoc h.nodup ht (by simp) ?_ (fun c hct hca => ?_) ha
      · rw [Mem.setList_le, Mem.setLe_of_ne _ hta.symm, Mem.setLe_self]
      · rw [Mem.setList_le, Mem.setLe_of_ne _ hct, Mem.setLe_of_ne _ hca]
    · rw [hlast, Mem.setList_self]

/-- Append these data one by one, each in a new element. -/
def appendAll (m : Mem α) (l a : ℕ) : List α → Option (Mem α)
  | [] => some m
  | x :: xs => (append m l a x).bind fun m => appendAll m l (a + 1) xs

/-- **Every list is built by `list_append`.** -/
theorem IsList.appendAll {m : Mem α} {l a : ℕ} {as : List (ℕ × α)} (h : IsList m l as)
    (ha : ∀ b ∈ as.map Prod.fst, b < a) (xs : List α) :
    ∃ m' as', appendAll m l a xs = some m' ∧ IsList m' l as' ∧
      as'.map Prod.snd = as.map Prod.snd ++ xs := by
  induction xs generalizing m a as with
  | nil => exact ⟨m, as, rfl, h, (List.append_nil _).symm⟩
  | cons x xs ih =>
      obtain ⟨m₁, happ, h₁⟩ := h.append (fun hmem => lt_irrefl a (ha a hmem)) x
      have ha₁ : ∀ b ∈ (as ++ [(a, x)]).map Prod.fst, b < a + 1 := by
        intro b hb
        rw [List.map_append, List.mem_append, List.map_singleton, List.mem_singleton] at hb
        rcases hb with hb | rfl
        · exact Nat.lt_succ_of_lt (ha b hb)
        · exact Nat.lt_succ_self _
      obtain ⟨m', as', hall, h', hdata⟩ := ih h₁ ha₁
      refine ⟨m', as', by rw [LinkedList.appendAll, happ, Option.bind_some, hall], h', ?_⟩
      rw [hdata, List.map_append, List.append_assoc]
      rfl

end LinkedList
