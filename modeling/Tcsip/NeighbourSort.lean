/-
# Sorting by passes of neighbour swaps

The list sort of the base library: a pass walks down the list and swaps each element
with its right neighbour while the handler `sh` does not accept the two in this order;
passes are repeated until one makes no swap.  The number of passes is not bounded by
the code, so `neighbourSort sh n l` runs at most `n` of them and gives `none` if that
was not enough.

When `sh` is the strict order of a key, the sort comes to an end exactly when the
keys are pairwise distinct: every swap then removes an inversion, while two equal keys
make every pass swap again.
-/
import Mathlib

namespace NeighbourSort

variable {α : Type*} (sh : α → α → Bool)

/-! ## Passes -/

/-- A pass that carries `a` down the list.  Also tells whether anything was swapped. -/
def passFrom : α → List α → List α × Bool
  | a, [] => ([a], false)
  | a, b :: l =>
    if sh a b then
      let r := passFrom b l
      (a :: r.1, r.2)
    else
      let r := passFrom a l
      (b :: r.1, true)

/-- A pass over the whole list. -/
def pass : List α → List α × Bool
  | [] => ([], false)
  | a :: l => passFrom sh a l

/-- Passes until one makes no swap, at most `n` of them. -/
def neighbourSort : ℕ → List α → Option (List α)
  | 0, _ => none
  | n + 1, l =>
    let r := pass sh l
    if r.2 then neighbourSort n r.1 else some r.1

/-- The pairs that a pass that carries `a` hands to `sh`. -/
def comparedFrom : α → List α → List (α × α)
  | _, [] => []
  | a, b :: l => (a, b) :: if sh a b then comparedFrom b l else comparedFrom a l

/-- The pairs that the first `n` passes hand to `sh`. -/
def compared : ℕ → List α → List (α × α)
  | 0, _ | _, [] => []
  | n + 1, a :: l =>
    let r := passFrom sh a l
    comparedFrom sh a l ++ if r.2 then compared n r.1 else []

theorem passFrom_perm (a : α) (l : List α) : (passFrom sh a l).1.Perm (a :: l) := by
  induction l generalizing a with
  | nil => exact List.Perm.refl _
  | cons b l ih =>
    rw [passFrom]
    split
    · exact (ih b).cons a
    · exact ((ih a).cons b).trans (List.Perm.swap a b l)

theorem pass_perm (l : List α) : (pass sh l).1.Perm l := by
  cases l with
  | nil => exact List.Perm.refl _
  | cons a l => exact passFrom_perm sh a l

theorem mem_of_mem_comparedFrom {a : α} {l : List α} {p : α × α} (h : p ∈ comparedFrom sh a l) :
    p.1 ∈ a :: l ∧ p.2 ∈ a :: l := by
  induction l generalizing a with
  | nil => exact absurd h List.not_mem_nil
  | cons b l ih =>
    rcases List.mem_cons.mp h with rfl | h
    · exact ⟨List.mem_cons_self, List.mem_cons_of_mem _ List.mem_cons_self⟩
    · have hcarried : ∀ {c}, c = a ∨ c = b → p ∈ comparedFrom sh c l →
          p.1 ∈ a :: b :: l ∧ p.2 ∈ a :: b :: l := by
        intro c hc hp
        have hsub : ∀ {x}, x ∈ c :: l → x ∈ a :: b :: l := by
          intro x hx
          rcases List.mem_cons.mp hx with rfl | hx
          · rcases hc with rfl | rfl <;> simp
          · exact List.mem_cons_of_mem _ (List.mem_cons_of_mem _ hx)
        exact (ih hp).imp hsub hsub
      split at h
      · exact hcarried (Or.inr rfl) h
      · exact hcarried (Or.inl rfl) h

/-- Only elements of the list are compared, in any pass. -/
theorem mem_of_mem_compared {n : ℕ} {l : List α} {p : α × α} (h : p ∈ compared sh n l) :
    p.1 ∈ l ∧ p.2 ∈ l := by
  induction n generalizing l with
  | zero => exact absurd h (by simp [compared])
  | succ n ih =>
    cases l with
    | nil => exact absurd h (by simp [compared])
    | cons a l =>
      rcases List.mem_append.mp h with h | h
      · exact mem_of_mem_comparedFrom sh h
      · split at h
        · have hperm := passFrom_perm sh a l
          exact (ih h).imp hperm.mem_iff.mp hperm.mem_iff.mp
        · exact absurd h List.not_mem_nil

/-- A pass without a swap leaves the list as it was, in the order of the handler. -/
theorem passFrom_of_no_swap {a : α} {l : List α} (h : (passFrom sh a l).2 = false) :
    (passFrom sh a l).1 = a :: l ∧ (a :: l).IsChain (fun x y => sh x y = true) := by
  induction l generalizing a with
  | nil => exact ⟨rfl, List.IsChain.singleton a⟩
  | cons b l ih =>
    rw [passFrom] at h ⊢
    by_cases hab : sh a b = true
    · rw [if_pos hab] at h ⊢
      obtain ⟨heq, hchain⟩ := ih h
      refine ⟨?_, List.IsChain.cons_cons hab hchain⟩
      show a :: (passFrom sh b l).1 = a :: b :: l
      rw [heq]
    · rw [if_neg hab] at h
      exact absurd h (by simp)

theorem pass_of_no_swap {l : List α} (h : (pass sh l).2 = false) :
    (pass sh l).1 = l ∧ l.IsChain (fun x y => sh x y = true) := by
  cases l with
  | nil => exact ⟨rfl, List.IsChain.nil⟩
  | cons a l => exact passFrom_of_no_swap sh h

/-! ## The result -/

/-- **Partial correctness.**  What the sort returns is a permutation of its argument,
in the order of the handler. -/
theorem neighbourSort_spec {n : ℕ} {l r : List α} (h : neighbourSort sh n l = some r) :
    r.Perm l ∧ r.IsChain (fun x y => sh x y = true) := by
  induction n generalizing l with
  | zero => simp [neighbourSort] at h
  | succ n ih =>
    rw [neighbourSort] at h
    by_cases hswap : (pass sh l).2 = true
    · rw [if_pos hswap] at h
      obtain ⟨hperm, hchain⟩ := ih h
      exact ⟨hperm.trans (pass_perm sh l), hchain⟩
    · rw [if_neg hswap] at h
      obtain rfl := Option.some.inj h
      obtain ⟨heq, hchain⟩ := pass_of_no_swap sh (by simpa using hswap)
      rw [heq]
      exact ⟨List.Perm.refl _, hchain⟩

/-! ## Termination -/

/-- The pairs that the handler does not accept in the order they stand in. -/
def inversions : List α → ℕ
  | [] => 0
  | a :: l => l.countP (fun b => !sh a b) + inversions l

/-- A list of `n` elements has at most `n * n` inversions. -/
theorem inversions_le (l : List α) : inversions sh l ≤ l.length * l.length := by
  induction l with
  | nil => simp [inversions]
  | cons a l ih =>
    rw [inversions, List.length_cons]
    have hcount : l.countP (fun b => !sh a b) ≤ l.length := List.countP_le_length
    nlinarith

/-- A pass removes an inversion if it swaps anything, when of two elements that the
handler does not accept the other order is accepted. -/
theorem inversions_passFrom {a : α} {l : List α}
    (htot : ∀ x ∈ a :: l, ∀ y ∈ a :: l, sh x y = false → x = y ∨ sh y x = true)
    (hnd : (a :: l).Nodup) :
    inversions sh (passFrom sh a l).1 + (passFrom sh a l).2.toNat
      ≤ inversions sh (a :: l) := by
  induction l generalizing a with
  | nil => simp [passFrom, inversions]
  | cons b l ih =>
    rw [passFrom]
    by_cases hab : sh a b = true
    · -- `a` stays, and `b` is carried on
      have htail := ih (a := b) (fun x hx y hy => htot x (List.mem_cons_of_mem a hx) y
        (List.mem_cons_of_mem a hy)) (List.nodup_cons.mp hnd).2
      have hcount := (passFrom_perm sh b l).countP_eq (fun y => !sh a y)
      simp only [if_pos hab, inversions]
      rw [hcount]
      simp only [inversions] at htail
      omega
    · have hfalse : sh a b = false := by simpa using hab
      have hne : a ≠ b := fun h => (List.nodup_cons.mp hnd).1 (h ▸ List.mem_cons_self)
      have hba : sh b a = true :=
        (htot a (by simp) b (by simp) hfalse).resolve_left hne
      have hsub : (a :: l).Nodup :=
        hnd.sublist ((List.sublist_cons_self b l).cons_cons a)
      have htail := ih (a := a) (fun x hx y hy => htot x
        (by rcases List.mem_cons.mp hx with h | h <;> simp [h]) y
        (by rcases List.mem_cons.mp hy with h | h <;> simp [h])) hsub
      -- the carried element moves past `b`: the pair they formed is an inversion no more
      have hcount := (passFrom_perm sh a l).countP_eq (fun y => !sh b y)
      simp only [if_neg hab, inversions]
      rw [hcount, List.countP_cons, List.countP_cons]
      simp only [inversions, hba, hfalse, Bool.not_true, Bool.not_false, if_true,
        Bool.toNat_true] at htail ⊢
      have hbool := Bool.toNat_le (passFrom sh a l).2
      simp only [Bool.false_eq_true, if_false]
      omega

theorem inversions_pass {l : List α}
    (htot : ∀ x ∈ l, ∀ y ∈ l, sh x y = false → x = y ∨ sh y x = true) (hnd : l.Nodup) :
    inversions sh (pass sh l).1 + (pass sh l).2.toNat ≤ inversions sh l := by
  cases l with
  | nil => simp [pass, inversions]
  | cons a l => exact inversions_passFrom sh htot hnd

/-- The sort comes to an end within one pass more than there are inversions. -/
theorem exists_neighbourSort {n : ℕ} {l : List α}
    (htot : ∀ x ∈ l, ∀ y ∈ l, sh x y = false → x = y ∨ sh y x = true) (hnd : l.Nodup)
    (hn : inversions sh l < n) : ∃ r, neighbourSort sh n l = some r := by
  induction n generalizing l with
  | zero => omega
  | succ n ih =>
    rw [neighbourSort]
    by_cases hswap : (pass sh l).2 = true
    · rw [if_pos hswap]
      -- the pass has used up an inversion
      have hperm := pass_perm sh l
      have hdec := inversions_pass sh htot hnd
      rw [hswap, Bool.toNat_true] at hdec
      refine ih (fun x hx y hy => htot x (hperm.mem_iff.mp hx) y (hperm.mem_iff.mp hy))
        (hperm.nodup_iff.mpr hnd) (by omega)
    · rw [if_neg hswap]
      exact ⟨_, rfl⟩

/-! ## Handlers that are the strict order of a key -/

section key

variable {ι : Type*} [LinearOrder ι] {key : α → ι}

/-- A result of the sort stands in increasing order of the key. -/
theorem neighbourSort_sorted (hsh : ∀ x y, sh x y = true ↔ key x < key y) {n : ℕ}
    {l r : List α} (h : neighbourSort sh n l = some r) :
    r.Perm l ∧ r.Pairwise (fun x y => key x < key y) := by
  obtain ⟨hperm, hchain⟩ := neighbourSort_spec sh h
  have hchain' : r.IsChain (fun x y => key x < key y) :=
    hchain.imp fun x y hxy => (hsh x y).mp hxy
  have : IsTrans α (fun x y => key x < key y) := ⟨fun _ _ _ => lt_trans⟩
  exact ⟨hperm, hchain'.pairwise⟩

/-- Two elements with different keys are accepted in one of the two orders. -/
theorem accepts_or_swapped (hsh : ∀ x y, sh x y = true ↔ key x < key y) {l : List α}
    (hnd : (l.map key).Nodup) :
    ∀ x ∈ l, ∀ y ∈ l, sh x y = false → x = y ∨ sh y x = true := by
  intro x hx y hy hxy
  have hnot : ¬ key x < key y := fun hlt => by simp [(hsh x y).mpr hlt] at hxy
  rcases lt_or_eq_of_le (not_lt.mp hnot) with hlt | heq
  · exact Or.inr ((hsh y x).mpr hlt)
  · exact Or.inl (List.inj_on_of_nodup_map hnd hx hy heq.symm)

/-- With pairwise distinct keys, `n * n + 1` passes sort `n` elements. -/
theorem neighbourSort_of_nodup (hsh : ∀ x y, sh x y = true ↔ key x < key y) {l : List α}
    (hnd : (l.map key).Nodup) :
    ∃ r, neighbourSort sh (l.length * l.length + 1) l = some r :=
  exists_neighbourSort sh (accepts_or_swapped sh hsh hnd) hnd.of_map
    (Nat.lt_succ_of_le (inversions_le sh l))

/-- **Termination.**  With a strict order of the key as handler, the sort comes to an
end exactly when the keys are pairwise distinct. -/
theorem neighbourSort_terminates_iff (hsh : ∀ x y, sh x y = true ↔ key x < key y)
    (l : List α) :
    (∃ n r, neighbourSort sh n l = some r) ↔ (l.map key).Nodup := by
  constructor
  · rintro ⟨n, r, h⟩
    obtain ⟨hperm, hsorted⟩ := neighbourSort_sorted sh hsh h
    rw [← (hperm.map key).nodup_iff, List.Nodup, List.pairwise_map]
    exact hsorted.imp fun hlt => ne_of_lt hlt
  · intro hnd
    obtain ⟨r, hr⟩ := neighbourSort_of_nodup sh hsh hnd
    exact ⟨_, r, hr⟩

end key

end NeighbourSort
