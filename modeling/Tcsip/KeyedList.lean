/-
# Lists of keyed entries: superseding and paging

`l : List α` holds entries under the keys `f a`.  While the keys are distinct, a search for
the first entry under a key finds the only one.  Two operations on such lists:

* `supersede f a l` puts `a` in and drops every entry that was held under its key;
* `nextPage f cur l` is the entry with the least key beyond the cursor `cur`, and
  `drain fetch n s` what a system delivers that is asked for page after page.

The main facts are that superseding keeps the keys distinct and exchanges exactly one
entry, and that a system whose fetch delivers the next page delivers every entry beyond
the cursor exactly once.
-/
import Mathlib

namespace KeyedList

variable {α ι : Type*} (f : α → ι)

/-- No two entries of the list share a key. -/
abbrev Keyed (l : List α) : Prop := (l.map f).Nodup

theorem Keyed.filter {f : α → ι} {l : List α} (h : Keyed f l) (p : α → Bool) :
    Keyed f (l.filter p) :=
  h.sublist (List.filter_sublist.map f)

/-- Adding an entry keeps the keys distinct exactly when its key is new. -/
theorem keyed_append_singleton_iff {f : α → ι} {l : List α} {a : α} :
    Keyed f (l ++ [a]) ↔ Keyed f l ∧ ∀ b ∈ l, f b ≠ f a := by
  rw [Keyed, List.map_append, List.map_singleton, List.nodup_append]
  constructor
  · rintro ⟨hl, -, hne⟩
    exact ⟨hl, fun b hb => hne (f b) (List.mem_map_of_mem hb) (f a) List.mem_cons_self⟩
  · rintro ⟨hl, hne⟩
    refine ⟨hl, List.nodup_singleton _, ?_⟩
    intro i hi j hj
    obtain ⟨b, hb, rfl⟩ := List.mem_map.mp hi
    rw [List.mem_singleton.mp hj]
    exact hne b hb

/-- With distinct keys the first entry under a key is the only one. -/
theorem Keyed.find?_eq [DecidableEq ι] {f : α → ι} {l : List α} (h : Keyed f l) {a : α}
    (ha : a ∈ l) : (l.find? fun b => decide (f b = f a)) = some a := by
  induction l with
  | nil => exact absurd ha List.not_mem_nil
  | cons b l ih =>
    obtain ⟨hb, hl⟩ := List.nodup_cons.mp h
    rcases List.mem_cons.mp ha with rfl | ha
    · exact List.find?_cons_of_pos (by simp)
    · have hne : f b ≠ f a := fun heq => hb (heq ▸ List.mem_map_of_mem ha)
      rw [List.find?_cons_of_neg (by simpa using hne)]
      exact ih hl ha

/-! ## Superseding an entry -/

section supersede

variable [DecidableEq ι]

/-- The entries held under other keys than `i`. -/
def others (i : ι) (l : List α) : List α := l.filter (fun b => decide (f b ≠ i))

/-- Put `a` in, in place of whatever was held under its key. -/
def supersede (a : α) (l : List α) : List α := others f (f a) l ++ [a]

@[simp] theorem mem_others {i : ι} {l : List α} {b : α} :
    b ∈ others f i l ↔ b ∈ l ∧ f b ≠ i := by
  simp [others]

/-- Nothing is dropped when no entry is held under the key. -/
theorem others_eq_self {i : ι} {l : List α} (h : ∀ b ∈ l, f b ≠ i) : others f i l = l := by
  rw [others, List.filter_eq_self]
  intro b hb
  exact decide_eq_true (h b hb)

/-- Superseding keeps the keys distinct. -/
theorem keyed_supersede {l : List α} (h : Keyed f l) (a : α) : Keyed f (supersede f a l) := by
  rw [Keyed, supersede, List.map_append, List.map_singleton]
  refine List.nodup_append.mpr ⟨Keyed.filter h _, List.nodup_singleton _, ?_⟩
  intro i hi j hj hij
  obtain ⟨b, hb, rfl⟩ := List.mem_map.mp hi
  rw [List.mem_singleton] at hj
  exact ((mem_others f).mp hb).2 (hij.trans hj)

/-- A keyed list is the entry held under a key together with the others. -/
theorem perm_cons_others {l : List α} (h : Keyed f l) {a : α} (ha : a ∈ l) :
    l.Perm (a :: others f (f a) l) := by
  induction l with
  | nil => simp at ha
  | cons b l ih =>
    rw [Keyed, List.map_cons, List.nodup_cons] at h
    obtain ⟨hb, hl⟩ := h
    have hne : ∀ c ∈ l, f c ≠ f b := fun c hc hcb =>
      hb (hcb ▸ List.mem_map_of_mem hc)
    rcases List.mem_cons.mp ha with rfl | ha
    · -- the key of the first entry is held nowhere else
      have hself : others f (f a) (a :: l) = l := by
        rw [others, List.filter_cons_of_neg (by simp), ← others, others_eq_self f hne]
      rw [hself]
    · have hkeep : others f (f a) (b :: l) = b :: others f (f a) l := by
        rw [others, List.filter_cons_of_pos (by simpa using fun hba => hne a ha hba.symm), others]
      rw [hkeep]
      exact ((ih hl ha).cons b).trans (List.Perm.swap a b _)

end supersede

/-! ## Paging -/

section paging

variable [LinearOrder ι]

/-- The key lies beyond the cursor; no cursor is before every key. -/
def beyond (cur : Option ι) (i : ι) : Bool :=
  match cur with
  | none => true
  | some c => decide (c < i)

@[simp] theorem beyond_none (i : ι) : beyond none i = true := rfl

@[simp] theorem beyond_some {c i : ι} : beyond (some c) i = true ↔ c < i := by
  simp [beyond]

/-- The entry with the least key beyond the cursor. -/
def nextPage (cur : Option ι) (l : List α) : Option α :=
  (l.filter (fun a => beyond cur (f a))).argmin f

theorem nextPage_eq_none {cur : Option ι} {l : List α} :
    nextPage f cur l = none ↔ ∀ a ∈ l, ¬ beyond cur (f a) := by
  rw [nextPage, List.argmin_eq_none, List.filter_eq_nil_iff]

theorem mem_of_nextPage_eq_some {cur : Option ι} {l : List α} {a : α}
    (h : nextPage f cur l = some a) : a ∈ l ∧ beyond cur (f a) := by
  have hmem := List.argmin_mem h
  rwa [List.mem_filter] at hmem

theorem nextPage_le {cur : Option ι} {l : List α} {a b : α} (h : nextPage f cur l = some a)
    (hb : b ∈ l) (hcur : beyond cur (f b)) : f a ≤ f b :=
  List.le_of_mem_argmin (List.mem_filter.mpr ⟨hb, hcur⟩) h

/-- What lies beyond the cursor is the next page together with what lies beyond it. -/
theorem filter_beyond_perm {cur : Option ι} {l : List α} (hl : Keyed f l) {a : α}
    (h : nextPage f cur l = some a) :
    (l.filter fun b => beyond cur (f b)).Perm
      (a :: l.filter fun b => beyond (some (f a)) (f b)) := by
  obtain ⟨ha, hcur⟩ := mem_of_nextPage_eq_some f h
  refine (perm_cons_others f (hl.filter _) (List.mem_filter.mpr ⟨ha, hcur⟩)).trans ?_
  refine List.Perm.cons a (List.Perm.of_eq ?_)
  rw [others, List.filter_filter]
  apply List.filter_congr
  intro b hb
  rw [Bool.eq_iff_iff, Bool.and_eq_true, decide_eq_true_eq, beyond_some]
  constructor
  · rintro ⟨hne, hbeyond⟩
    exact lt_of_le_of_ne (nextPage_le f h hb hbeyond) (Ne.symm hne)
  · intro hlt
    refine ⟨ne_of_gt hlt, ?_⟩
    cases cur with
    | none => rfl
    | some c => exact beyond_some.mpr (lt_trans (beyond_some.mp hcur) hlt)

/-! ### Fetching page after page -/

section drain

variable {σ β : Type*}

/-- Fetch until nothing comes, at most `n` times: the pages that came.  A fetch gives the
next state and perhaps a page; it has no result when it never returns. -/
def drain (fetch : σ → Option (σ × Option β)) : ℕ → σ → Option (List β)
  | 0, _ => none
  | n + 1, s =>
    match fetch s with
    | none => none
    | some (_, none) => some []
    | some (t, some b) => (drain fetch n t).map fun bs => b :: bs

/-- **Paging is exact.**  Suppose a fetch in a state that is `At` a cursor delivers the
next page, and leads to a state at its key.  Then fetching until nothing comes delivers
every entry beyond the cursor exactly once. -/
theorem drain_spec {fetch : σ → Option (σ × Option β)} {At : Option ι → σ → Prop}
    {Delivers : β → α → Prop} {l : List α} (hl : Keyed f l)
    (hlast : ∀ cur s, At cur s → nextPage f cur l = none → ∃ t, fetch s = some (t, none))
    (hnext : ∀ cur s a, At cur s → nextPage f cur l = some a →
      ∃ t b, fetch s = some (t, some b) ∧ Delivers b a ∧ At (some (f a)) t) :
    ∀ (n : ℕ) (cur : Option ι) (s : σ), At cur s →
      (l.filter fun a => beyond cur (f a)).length < n →
      ∃ bs as, drain fetch n s = some bs ∧ List.Forall₂ Delivers bs as ∧
        as.Perm (l.filter fun a => beyond cur (f a)) := by
  -- every page leaves one entry less beyond the cursor
  intro n
  induction n with
  | zero =>
      intro cur s _ hn
      exact absurd hn (Nat.not_lt_zero _)
  | succ n ih =>
      intro cur s hs hn
      unfold drain
      cases h : nextPage f cur l with
      | none =>
          obtain ⟨t, ht⟩ := hlast cur s hs h
          rw [ht, List.filter_eq_nil_iff.mpr ((nextPage_eq_none f).mp h)]
          exact ⟨[], [], rfl, List.Forall₂.nil, List.Perm.refl _⟩
      | some a =>
          obtain ⟨t, b, ht, hb, hat⟩ := hnext cur s a hs h
          have hperm := filter_beyond_perm f hl h
          rw [hperm.length_eq, List.length_cons, Nat.add_lt_add_iff_right] at hn
          obtain ⟨bs, as, hbs, hall, has⟩ := ih (some (f a)) t hat hn
          rw [ht]
          refine ⟨b :: bs, a :: as, ?_, List.Forall₂.cons hb hall, ?_⟩
          · show (drain fetch n t).map (fun bs => b :: bs) = some (b :: bs)
            rw [hbs, Option.map_some]
          · exact (has.cons a).trans hperm.symm

end drain

/-! ### All pages, in order -/

/-- The entries in the order of their keys. -/
def ascending (l : List α) : List α := l.insertionSort fun a b => f a ≤ f b

theorem ascending_perm (l : List α) : (ascending f l).Perm l := List.perm_insertionSort _ l

theorem pairwise_ascending {l : List α} (hl : Keyed f l) :
    (ascending f l).Pairwise fun a b => f a < f b := by
  have hkeyed : Keyed f (ascending f l) := ((ascending_perm f l).map f).nodup_iff.mpr hl
  have hne : (ascending f l).Pairwise fun a b => f a ≠ f b := List.pairwise_map.mp hkeyed
  have hle : (ascending f l).Pairwise fun a b => f a ≤ f b := List.pairwise_insertionSort _ l
  exact (hle.and hne).imp fun h => lt_of_le_of_ne h.1 h.2

/-- What is still to come behind the cursor, in order. -/
def upcoming (cur : Option ι) (l : List α) : List α :=
  (ascending f l).filter fun a => beyond cur (f a)

@[simp] theorem mem_upcoming {cur : Option ι} {l : List α} {a : α} :
    a ∈ upcoming f cur l ↔ a ∈ l ∧ beyond cur (f a) := by
  rw [upcoming, List.mem_filter, (ascending_perm f l).mem_iff]

theorem upcoming_none (l : List α) : upcoming f none l = ascending f l :=
  List.filter_eq_self.mpr fun _ _ => rfl

theorem pairwise_upcoming {l : List α} (hl : Keyed f l) (cur : Option ι) :
    (upcoming f cur l).Pairwise fun a b => f a < f b :=
  (pairwise_ascending f hl).filter _

/-- The next page is the first one to come. -/
theorem nextPage_eq_head? {l : List α} (hl : Keyed f l) (cur : Option ι) :
    nextPage f cur l = (upcoming f cur l).head? := by
  cases hpage : nextPage f cur l with
  | none =>
      have hnil : upcoming f cur l = [] := by
        rw [List.eq_nil_iff_forall_not_mem]
        intro a ha
        obtain ⟨hmem, hcur⟩ := (mem_upcoming f).mp ha
        exact (nextPage_eq_none f).mp hpage a hmem hcur
      rw [hnil, List.head?_nil]
  | some a =>
      have ha : a ∈ upcoming f cur l := (mem_upcoming f).mpr (mem_of_nextPage_eq_some f hpage)
      cases hup : upcoming f cur l with
      | nil =>
          rw [hup] at ha
          exact absurd ha List.not_mem_nil
      | cons b rest =>
          have hb : b ∈ upcoming f cur l := hup ▸ List.mem_cons_self
          obtain ⟨hmem, hcur⟩ := (mem_upcoming f).mp hb
          have hpair := pairwise_upcoming f hl cur
          rw [hup, List.pairwise_cons] at hpair
          rw [hup] at ha
          -- the least entry is not one of those behind the first one
          rcases List.mem_cons.mp ha with rfl | ha
          · rfl
          · exact absurd (hpair.1 a ha) (not_lt.mpr (nextPage_le f hpage hmem hcur))

/-- Behind the first page come the others. -/
theorem upcoming_of_cons {l : List α} (hl : Keyed f l) {cur : Option ι} {a : α} {rest : List α}
    (h : upcoming f cur l = a :: rest) : upcoming f (some (f a)) l = rest := by
  have ha : a ∈ upcoming f cur l := h ▸ List.mem_cons_self
  have hcur := ((mem_upcoming f).mp ha).2
  have hpair := pairwise_upcoming f hl cur
  rw [h, List.pairwise_cons] at hpair
  have hsame : upcoming f (some (f a)) l =
      (upcoming f cur l).filter fun b => beyond (some (f a)) (f b) := by
    rw [upcoming, upcoming, List.filter_filter]
    apply List.filter_congr
    intro b _
    rw [Bool.eq_iff_iff, Bool.and_eq_true, iff_self_and, beyond_some]
    intro hlt
    cases cur with
    | none => rfl
    | some i => exact beyond_some.mpr (lt_trans (beyond_some.mp hcur) hlt)
  rw [hsame, h, List.filter_cons_of_neg (by simp), List.filter_eq_self]
  exact fun b hb => beyond_some.mpr (hpair.1 b hb)

section ask

variable {σ β : Type*}

/-- What a system answers that is asked `k` times. -/
def ask (fetch : σ → σ × β) : ℕ → σ → List β
  | 0, _ => []
  | k + 1, s => (fetch s).2 :: ask fetch k (fetch s).1

/-- **Every page in order, and nothing more.**  Suppose a fetch in a state that is `At` a cursor
answers the next page and leads to a state at its key, and behind the last page answers `last`
and stays at the cursor.  Then the answers are the pages to come, in the order of their keys,
and `last` ever after. -/
theorem ask_eq {fetch : σ → σ × β} {At : Option ι → σ → Prop} {page : α → β} {last : β}
    {l : List α} (hl : Keyed f l)
    (hlast : ∀ cur s, At cur s → nextPage f cur l = none →
      (fetch s).2 = last ∧ At cur (fetch s).1)
    (hnext : ∀ cur s a, At cur s → nextPage f cur l = some a →
      (fetch s).2 = page a ∧ At (some (f a)) (fetch s).1)
    (k : ℕ) {cur : Option ι} {s : σ} (hs : At cur s) :
    ask fetch k s = ((upcoming f cur l).take k).map page ++
      List.replicate (k - (upcoming f cur l).length) last := by
  induction k generalizing cur s with
  | zero => simp [ask]
  | succ k ih =>
      have hpage := nextPage_eq_head? f hl cur
      cases hup : upcoming f cur l with
      | nil =>
          rw [hup] at hpage
          obtain ⟨hanswer, hat⟩ := hlast cur s hs hpage
          have hrest := ih hat
          rw [hup] at hrest
          rw [ask, hanswer, hrest, List.take_nil, List.take_nil]
          rfl
      | cons a rest =>
          rw [hup] at hpage
          obtain ⟨hanswer, hat⟩ := hnext cur s a hs hpage
          have hrest := ih hat
          rw [upcoming_of_cons f hl hup] at hrest
          rw [ask, hanswer, hrest, List.take_succ_cons, List.map_cons, List.length_cons,
            Nat.add_sub_add_right, List.cons_append]

end ask

end paging

end KeyedList
