/-
# Which history entries survive

An entry is kept when some current row holds it.  `history_add` writes the list in memory
over the row stored under `topIdx`, so whatever that row holds must still be in the
list.  It is, as long as nobody empties the list: the invariant `KeepsAll` says that the
rows under `topIdx` hold nothing else.  The command-line client does empty it, because it
flushes what a fetch returned and the first fetch returns the list in memory itself; the
next call that ends then replaces a whole bundle by one entry.

The other way to lose entries is to start a new bundle under a key that was used before.
-/
import Tcsip.History

open NeighbourSort Runs

/-- Some current row holds the entry. -/
def EntryKept (T : List (Row Text Obj)) (e : HistEl) : Prop :=
  ∃ r ∈ T, r.curnt ≠ 0 ∧ e.stored ∈ r.entries

instance (T : List (Row Text Obj)) (e : HistEl) : Decidable (EntryKept T e) :=
  inferInstanceAs (Decidable (∃ r ∈ T, _))

/-- Every entry that was added is kept. -/
def AllKept (past : List HistoryEvent) (hist : History) : Prop :=
  ∀ a ∈ addedCalls past, EntryKept hist.table a.el

instance (past : List HistoryEvent) (hist : History) : Decidable (AllKept past hist) :=
  inferInstanceAs (Decidable (∀ a ∈ _, _))

/-- A call is added to a list in memory that nobody emptied, or, when there is none, under
a key that no current row of the client has. -/
def AddsToWhole (hist : History) : HistoryEvent → Prop
  | .add a => (∀ addr ∈ hist.top, hist.lists.getD addr [] ≠ []) ∧
      (hist.top = none → ∀ r ∈ current hist.store hist.table, r.idx ≠ a.ckey)
  | _ => True

instance (hist : History) : ∀ e, Decidable (AddsToWhole hist e)
  | .add _ => inferInstanceAs (Decidable (_ ∧ _))
  | .reset | .next | .cliHist | .restart => isTrue trivial

/-! ## The invariant -/

/-- Everything added so far is kept, and unless the list in memory is empty, the rows it is
going to replace hold nothing but its entries. -/
structure KeepsAll (past : List HistoryEvent) (hist : History) : Prop where
  kept : AllKept past hist
  top_lt : ∀ addr ∈ hist.top, addr < hist.lists.length
  covers : ∀ addr ∈ hist.top, hist.lists.getD addr [] ≠ [] →
    ∃ i, hist.topIdx = some i ∧ ∀ r ∈ current hist.store hist.table, r.idx = i →
      ∀ e ∈ r.entries, e ∈ (hist.lists.getD addr []).map HistEl.stored

theorem keepsAll_historyAlloc (c : StoreClient) (T : List (Row Text Obj)) :
    KeepsAll [] (historyAlloc c T) := by
  constructor
  · intro a ha
    exact absurd ha List.not_mem_nil
  · intro addr haddr
    exact absurd haddr (by simp [historyAlloc])
  · intro addr haddr
    exact absurd haddr (by simp [historyAlloc])

/-- A write loses nothing if its blob holds what the rows it obsoletes hold. -/
theorem entryKept_storeAdd {c : StoreClient} {key i : Text} {blob : Obj} {T : List (Row Text Obj)}
    (hcover : ∀ r ∈ current c T, r.idx = i → ∀ e ∈ r.entries, e ∈ storeBlobParse helParse blob)
    {e : HistEl} (h : EntryKept T e) : EntryKept (storeAdd c key i blob T) e := by
  obtain ⟨r, hr, hcur, he⟩ := h
  by_cases hhit : r.idx = i ∧ c.owns r.blobKey = true ∧ r.blobKey < key
  · -- the row is obsoleted, but the new one holds the entry too
    have hmem : r ∈ current c T := mem_current.mpr ⟨hr, hhit.2.1, hcur⟩
    exact ⟨_, row_mem_storeAddState c key i blob 1 T, one_ne_zero, hcover r hmem hhit.1 _ he⟩
  · exact ⟨r, mem_storeAddState_of_mem hr hhit, hcur, he⟩

/-- The current rows after a write are rows from before and the new one. -/
theorem current_storeAdd_cases {c : StoreClient} {key i : Text} {blob : Obj}
    {T : List (Row Text Obj)} {r : Row Text Obj}
    (h : r ∈ current c (storeAdd c key i blob T)) : r ∈ current c T ∨ r.blob = blob := by
  unfold storeAdd at h
  rw [current_storeAddState, List.mem_append] at h
  rcases h with h | h
  · exact Or.inl (List.mem_filter.mp h).1
  · split at h
    · rw [List.mem_singleton] at h
      exact Or.inr (by rw [h])
    · exact absurd h List.not_mem_nil

/-! ## One event -/

/-- A call keeps everything if its blob holds it and what the rows it obsoletes hold. -/
theorem allKept_add {past : List HistoryEvent} {hist hist' : History} {a : HistoryCall}
    {i : Text} {blob : Obj} (h : AllKept past hist)
    (hold : ∀ r ∈ current hist.store hist.table, r.idx = i →
      ∀ e ∈ r.entries, e ∈ storeBlobParse helParse blob)
    (hnew : a.el.stored ∈ storeBlobParse helParse blob)
    (htable : hist'.table
      = storeAdd hist.store (storeKey hist.store a.now) i blob hist.table) :
    AllKept (past ++ [.add a]) hist' := by
  intro b hb
  rw [addedCalls_append, addedCalls_singleton_add, List.mem_append, List.mem_singleton] at hb
  rw [htable]
  rcases hb with hb | rfl
  · exact entryKept_storeAdd hold (h b hb)
  · exact ⟨_, row_mem_storeAddState _ _ _ _ _ _, one_ne_zero, hnew⟩

/-- A call added to the list in memory. -/
theorem keepsAll_add_top {past : List HistoryEvent} {hist : History} {a : HistoryCall}
    {addr : ℕ} {i : Text} {blob : Obj} (h : KeepsAll past hist)
    (htop : hist.top = some addr) (hidx : hist.topIdx = some i)
    (hwhole : hist.lists.getD addr [] ≠ [])
    (hblob : storeBlobParse helParse blob
      = (hist.lists.getD addr [] ++ [a.el]).map HistEl.stored) :
    KeepsAll (past ++ [.add a])
      { hist with
        lists := hist.lists.set addr (hist.lists.getD addr [] ++ [a.el])
        table := storeAdd hist.store (storeKey hist.store a.now) i blob hist.table } := by
  have hlt : addr < hist.lists.length := h.top_lt addr htop
  obtain ⟨i', hi', hcovers⟩ := h.covers addr htop hwhole
  obtain rfl : i' = i := Option.some.inj (hi'.symm.trans hidx)
  -- what the rows under `i` hold is in the new blob
  have hold : ∀ r ∈ current hist.store hist.table, r.idx = i' →
      ∀ e ∈ r.entries, e ∈ storeBlobParse helParse blob := by
    intro r hr hri e he
    rw [hblob, List.map_append]
    exact List.mem_append_left _ (hcovers r hr hri e he)
  have hnew : a.el.stored ∈ storeBlobParse helParse blob := by
    rw [hblob]
    simp
  refine ⟨allKept_add h.kept hold hnew rfl, ?_, ?_⟩
  · intro addr' haddr'
    show addr' < (hist.lists.set addr _).length
    rw [List.length_set]
    exact h.top_lt addr' haddr'
  · intro addr' haddr' _
    obtain rfl : addr = addr' := Option.some.inj (htop.symm.trans haddr')
    refine ⟨i', hidx, ?_⟩
    intro r hr hri e he
    show e ∈ ((hist.lists.set addr _).getD addr []).map HistEl.stored
    rw [List.getD_eq_getElem _ _ (by simpa using hlt), List.getElem_set_self, ← hblob]
    rcases current_storeAdd_cases hr with hr | hr
    · exact hold r hr hri e he
    · rw [← hr]
      exact he

/-- A call that starts a new list. -/
theorem keepsAll_add_new {past : List HistoryEvent} {hist : History} {a : HistoryCall}
    {blob : Obj} (h : KeepsAll past hist)
    (hfresh : ∀ r ∈ current hist.store hist.table, r.idx ≠ a.ckey)
    (hblob : storeBlobParse helParse blob = [a.el.stored]) :
    KeepsAll (past ++ [.add a])
      { hist with
        lists := hist.lists ++ [[a.el]]
        table := storeAdd hist.store (storeKey hist.store a.now) a.ckey blob hist.table
        top := some hist.lists.length
        topIdx := some a.ckey } := by
  have hget : (hist.lists ++ [[a.el]]).getD hist.lists.length [] = [a.el] := by simp
  have hnew : a.el.stored ∈ storeBlobParse helParse blob := by
    rw [hblob]
    exact List.mem_singleton_self _
  refine ⟨allKept_add h.kept (fun r hr hri => absurd hri (hfresh r hr)) hnew rfl, ?_, ?_⟩
  · intro addr haddr
    obtain rfl := Option.some.inj haddr
    show hist.lists.length < (hist.lists ++ [[a.el]]).length
    simp
  · intro addr haddr _
    obtain rfl := Option.some.inj haddr
    refine ⟨a.ckey, rfl, ?_⟩
    intro r hr hri e he
    show e ∈ ((hist.lists ++ [[a.el]]).getD hist.lists.length []).map HistEl.stored
    rw [hget]
    rcases current_storeAdd_cases hr with hr | hr
    · exact absurd hri (hfresh r hr)
    · have he' : e ∈ storeBlobParse helParse blob := by
        rw [← hr]
        exact he
      rw [hblob] at he'
      exact he'

/-- The command of the client leaves the list in memory as it was, or empty. -/
theorem keepsAll_cliHist {past : List HistoryEvent} {hist hist' : History}
    (h : KeepsAll past hist) (hstep : cliHist hist = some hist') :
    KeepsAll (past ++ [.cliHist]) hist' := by
  have hpast : addedCalls (past ++ [.cliHist]) = addedCalls past := by
    rw [addedCalls_append]
    exact List.append_nil _
  have hkept : AllKept (past ++ [.cliHist]) hist := by
    unfold AllKept
    rw [hpast]
    exact h.kept
  rcases cliHist_cases hstep with rfl | ⟨idx, rfl⟩
  · exact ⟨hkept, h.top_lt, h.covers⟩
  · refine ⟨hkept, ?_, ?_⟩
    · intro addr haddr
      show addr < (hist.lists ++ [[]]).length
      rw [List.length_append, List.length_singleton]
      by_cases htop : hist.top = none
      · have heq : hist.lists.length = addr := by simpa [htop] using haddr
        omega
      · have hlt := h.top_lt addr (by simpa [htop] using haddr)
        omega
    · intro addr haddr hne
      by_cases htop : hist.top = none
      · -- the list in memory is the one that was flushed
        have heq : hist.lists.length = addr := by simpa [htop] using haddr
        refine absurd ?_ hne
        show (hist.lists ++ [[]]).getD addr [] = []
        rw [← heq]
        simp
      · have hmem : addr ∈ hist.top := by simpa [htop] using haddr
        have hget := getD_append_of_lt (h.top_lt addr hmem) []
        obtain ⟨i, hi, hcovers⟩ := h.covers addr hmem (by rw [← hget]; exact hne)
        refine ⟨i, ?_, ?_⟩
        · show (if hist.top = none then idx else hist.topIdx) = some i
          rw [if_neg htop, hi]
        · intro r hr hri e he
          show e ∈ ((hist.lists ++ [[]]).getD addr []).map HistEl.stored
          rw [hget]
          exact hcovers r hr hri e he

/-- **One event** keeps the invariant, unless it is a call added to an emptied list or
under a key in use. -/
theorem keepsAll_step {past : List HistoryEvent} {hist hist' : History} {e : HistoryEvent}
    (h : KeepsAll past hist) (he : e ≠ .next) (hmeet : AddsToWhole hist e)
    (hstep : historyStep hist e = some hist') : KeepsAll (past ++ [e]) hist' := by
  have hpast : ∀ e', addedCalls [e'] = [] → addedCalls (past ++ [e']) = addedCalls past := by
    intro e' he'
    rw [addedCalls_append, he', List.append_nil]
  cases e with
  | add a =>
      rcases historyAdd_cases hstep with ⟨addr, i, blob, htop, hidx, hblob, rfl⟩ |
        ⟨blob, htop, hblob, rfl⟩
      · exact keepsAll_add_top h htop hidx (hmeet.1 addr htop) hblob
      · exact keepsAll_add_new h (hmeet.2 htop) hblob
  | reset =>
      obtain rfl := Option.some.inj hstep
      refine ⟨?_, by simp [historyReset], by simp [historyReset]⟩
      unfold AllKept
      rw [hpast _ rfl]
      exact h.kept
  | next => exact absurd rfl he
  | cliHist => exact keepsAll_cliHist h hstep
  | restart =>
      obtain rfl := Option.some.inj hstep
      refine ⟨?_, by simp [historyAlloc], by simp [historyAlloc]⟩
      unfold AllKept
      rw [hpast _ rfl]
      exact h.kept

/-! ## Whole runs -/

/-- **No entry is lost** in a run of the command-line client in which every call is added
to a list that was not emptied, or under a fresh key. -/
theorem allKept_of_addsToWhole (c : StoreClient) (T : List (Row Text Obj))
    (es : List HistoryEvent) (hcli : ∀ e ∈ es, e ≠ .next)
    (hmeet : StepsMeet historyStep AddsToWhole (historyAlloc c T) es) {hist : History}
    (hrun : run historyStep (historyAlloc c T) es = some hist) : AllKept es hist := by
  refine (run_invariant_past historyStep (I := KeepsAll) es ?_ es [] _ hist rfl
    (keepsAll_historyAlloc c T) hmeet hrun).kept
  intro past e rest s t hall hI hC ht
  refine keepsAll_step hI (hcli e ?_) hC ht
  rw [← hall]
  simp

/-- The history of alice on an empty database. -/
def aliceHistory : History := historyAlloc (storeOpen (lit "alice") (byteOf 'h')) []

/-- Two calls of alice after a start with the command `hist`. -/
def fetchFirst : List HistoryEvent :=
  [.cliHist, .add (endedCall 1400000150 1400000100), .reset,
    .add (endedCall 1400000250 1400000200)]

/-- Two calls of alice with a reset and the command `hist` between them. -/
def fetchBetween : List HistoryEvent :=
  [.add (endedCall 1400000150 1400000100), .reset, .cliHist,
    .add (endedCall 1400000250 1400000200)]

/-- A fetch before the first call does no harm. -/
theorem allKept_fetchFirst :
    ∃ hist, run historyStep aliceHistory fetchFirst = some hist ∧ AllKept fetchFirst hist :=
  ⟨_, rfl, allKept_of_addsToWhole (storeOpen (lit "alice") (byteOf 'h')) [] fetchFirst
    (by simp [fetchFirst]) (by decide) rfl⟩

/-- A fetch between two calls, after a reset, loses the first one. -/
theorem not_allKept_fetchBetween :
    ∃ hist, run historyStep aliceHistory fetchBetween = some hist ∧ ¬ AllKept fetchBetween hist :=
  ⟨_, rfl, by decide⟩
