/-
# Paging through the history

`history_reset` and then `history_next` again and again walk through the rows by falling
`idx`.  The cursor is the key of the last entry fetched, that is of the earliest one,
while the `idx` of a row is the key of the entry that was *added* first.  Paging is exact
as long as the two are the same entry: the invariant `HistoryPaged` keeps this, under the
condition that no call is added to a bundle whose calls all started later
(`historyPaging_exact`).  A call that starts before and ends after another one breaks it.
-/
import Tcsip.History

open KeyedList NeighbourSort Runs

/-- A fetch as the caller sees it: the entries of the list it returns. -/
def nextBundle (hist : History) : Option (History × Option (List HistEl)) :=
  (historyNext hist).map fun p => (p.1, p.2.map fun addr => p.1.lists.getD addr [])

/-- `history_next` until it yields no bundle, at most `n` times. -/
def historyPages (n : ℕ) (hist : History) : Option (List (List HistEl)) :=
  drain nextBundle n hist

/-- Calls as they come: their keys, which begin with their times, and their times are
distinct, and the store keys they are written under increase. -/
structure DistinctCalls (c : StoreClient) (as : List HistoryCall) : Prop where
  keys : (as.map HistoryCall.ckey).Nodup
  times : (as.map HistoryCall.ts).Nodup
  storeKeys : as.Pairwise fun a b => storeKey c a.now < storeKey c b.now
  begins : ∀ a ∈ as, fmtD a.ts.toInt <+: a.ckey

/-- A call is stored under a key that matches the pattern of the client, and if there is
a list in memory, then one of its calls started earlier, and none of them came back
without its uri. -/
def StartsLater (hist : History) : HistoryEvent → Prop
  | .add a => hist.store.owns (storeKey hist.store a.now) = true ∧
      ∀ addr ∈ hist.top, (∃ e ∈ hist.lists.getD addr [], e.time < a.ts) ∧
        ∀ e ∈ hist.lists.getD addr [], e.uri ≠ none
  | _ => True

instance (hist : History) : ∀ e, Decidable (StartsLater hist e)
  | .add _ => inferInstanceAs (Decidable (_ ∧ _))
  | .reset | .next | .cliHist | .restart => isTrue trivial

/-! ## The earliest entry of a row -/

/-- The row is stored under the key of its earliest entry. -/
def UnderEarliest (r : Row Text Obj) : Prop :=
  ∃ m ∈ r.entries, m.key = some r.idx ∧ ∀ e ∈ r.entries, m.time.toInt ≤ e.time.toInt

/-- The cursor a fetch takes from such a row is the `idx` of the row. -/
theorem getIdx_of_underEarliest {r : Row Text Obj} (hr : UnderEarliest r) {hlist : List HistEl}
    (hperm : hlist.Perm r.entries)
    (hsorted : hlist.Pairwise fun x y => x.sortKey < y.sortKey) :
    getIdx hlist = some r.idx := by
  obtain ⟨m, hm, hkey, hmin⟩ := hr
  have hmem : m ∈ hlist := hperm.mem_iff.mpr hm
  obtain ⟨front, last, rfl⟩ := (List.eq_nil_or_concat' hlist).resolve_left
    (List.ne_nil_of_mem hmem)
  have hlast : last ∈ r.entries := hperm.mem_iff.mp (by simp)
  have heq : m = last := by
    rcases List.mem_append.mp hmem with hfront | hsingle
    · -- the list falls, so what stands before the last entry is later
      have hlt : m.sortKey < last.sortKey :=
        (List.pairwise_append.mp hsorted).2.2 m hfront last (List.mem_singleton_self last)
      unfold HistEl.sortKey at hlt
      rw [OrderDual.toDual_lt_toDual] at hlt
      exact absurd (hmin last hlast) (not_le.mpr hlt)
    · exact List.mem_singleton.mp hsingle
  unfold getIdx
  rw [List.getLast?_concat, Option.bind_some, ← heq, hkey]

/-! ## The invariant -/

/-- The rows the client sees hold these calls, each once, and every row is stored under the
key of its earliest entry. -/
structure PagedRows (c : StoreClient) (as : List HistoryCall) (T : List (Row Text Obj)) :
    Prop where
  written : ∀ r ∈ current c T, ∃ a ∈ as, r.blobKey = storeKey c a.now
  state : ∀ r ∈ current c T, r.curnt = 1
  keyed : Keyed Row.idx (current c T)
  entries : ((current c T).flatMap Row.entries).Perm (as.map fun a => a.el.stored)
  earliest : ∀ r ∈ current c T, UnderEarliest r

/-- The rows hold the calls added so far, and the list in memory is one of them. -/
structure HistoryPaged (c : StoreClient) (past : List HistoryEvent) (hist : History) : Prop where
  store : hist.store = c
  rows : PagedRows c (addedCalls past) hist.table
  top : ∀ addr ∈ hist.top, addr < hist.lists.length ∧ ∃ r ∈ current c hist.table,
    hist.topIdx = some r.idx ∧ ((hist.lists.getD addr []).map HistEl.stored).Perm r.entries

theorem pagedRows_nil (c : StoreClient) : PagedRows c [] [] := by
  refine ⟨?_, ?_, List.nodup_nil, List.Perm.refl _, ?_⟩ <;>
  · intro r hr
    exact absurd hr List.not_mem_nil

section rows

variable {c : StoreClient} {as : List HistoryCall} {T : List (Row Text Obj)}

/-- The keys are distinct in the order of the fetches too. -/
theorem PagedRows.keyed_dual (h : PagedRows c as T) :
    Keyed (fun r : Row Text Obj => OrderDual.toDual r.idx) (current c T) := by
  have hmap := h.keyed.map OrderDual.toDual.injective
  rwa [List.map_map] at hmap

/-- An entry of a row is one of the calls. -/
theorem PagedRows.mem_entries (h : PagedRows c as T) {r : Row Text Obj}
    (hr : r ∈ current c T) {e : HistEl} (he : e ∈ r.entries) : ∃ a ∈ as, e = a.el.stored := by
  have hmem : e ∈ (current c T).flatMap Row.entries := List.mem_flatMap.mpr ⟨r, hr, he⟩
  obtain ⟨a, ha, rfl⟩ := List.mem_map.mp (h.entries.mem_iff.mp hmem)
  exact ⟨a, ha, rfl⟩

/-- The calls are the entries of one row together with those of the others. -/
theorem PagedRows.entries_perm (h : PagedRows c as T) {r : Row Text Obj}
    (hr : r ∈ current c T) :
    (r.entries ++ (others Row.idx r.idx (current c T)).flatMap Row.entries).Perm
      (as.map fun a => a.el.stored) := by
  have hsplit := (perm_cons_others Row.idx h.keyed hr).flatMap_right Row.entries
  rw [List.flatMap_cons] at hsplit
  exact hsplit.symm.trans h.entries

/-- The entries of a row have distinct times. -/
theorem PagedRows.nodup_times (h : PagedRows c as T) (hts : (as.map HistoryCall.ts).Nodup)
    {r : Row Text Obj} (hr : r ∈ current c T) : (r.entries.map HistEl.sortKey).Nodup := by
  have hperm := (h.entries_perm hr).map HistEl.time
  rw [List.map_map, List.map_append] at hperm
  have hnd : (r.entries.map HistEl.time).Nodup := (hperm.nodup_iff.mpr hts).of_append_left
  refine List.Nodup.of_map (fun k : ℤᵒᵈ => Int32.ofInt (OrderDual.ofDual k)) ?_
  rw [List.map_map]
  have hback : (fun k : ℤᵒᵈ => Int32.ofInt (OrderDual.ofDual k)) ∘ HistEl.sortKey
      = HistEl.time := by
    funext e
    exact Int32.ofInt_toInt e.time
  rw [hback]
  exact hnd

/-- The row that a call writes under `i`. -/
def HistoryCall.row (c : StoreClient) (a : HistoryCall) (i : Text) (blob : Obj) :
    Row Text Obj :=
  { blobKey := storeKey c a.now, idx := i, blob := blob, curnt := 1 }

/-- **One more call.**  A write with the newest key of a row that holds the entries of the
row it supersedes and the new call. -/
theorem PagedRows.write (h : PagedRows c as T) {a : HistoryCall} {i : Text} {blob : Obj}
    (hown : c.owns (storeKey c a.now) = true)
    (hkey : ∀ b ∈ as, storeKey c b.now < storeKey c a.now)
    (hfirst : UnderEarliest (a.row c i blob))
    (hall : (storeBlobParse helParse blob ++
        (others Row.idx i (current c T)).flatMap Row.entries).Perm
      (as.map (fun a => a.el.stored) ++ [a.el.stored])) :
    PagedRows c (as ++ [a]) (storeAdd c (storeKey c a.now) i blob T) := by
  have hrows : current c (storeAdd c (storeKey c a.now) i blob T)
      = others Row.idx i (current c T) ++ [a.row c i blob] := by
    have hnewest : ∀ r ∈ current c T, r.blobKey < storeKey c a.now := by
      intro r hr
      obtain ⟨b, hb, hbr⟩ := h.written r hr
      rw [hbr]
      exact hkey b hb
    unfold storeAdd
    rw [current_storeAddState_of_newest hnewest hown i blob one_ne_zero]
    rfl
  -- a current row is one of the others or the new one
  have hcases : ∀ r ∈ current c (storeAdd c (storeKey c a.now) i blob T),
      r ∈ current c T ∨ r = a.row c i blob := by
    intro r hr
    rw [hrows, List.mem_append, List.mem_singleton, mem_others] at hr
    exact hr.imp_left And.left
  refine ⟨?_, ?_, ?_, ?_, ?_⟩
  · intro r hr
    rcases hcases r hr with hr | rfl
    · obtain ⟨b, hb, hbr⟩ := h.written r hr
      exact ⟨b, List.mem_append_left _ hb, hbr⟩
    · exact ⟨a, by simp, rfl⟩
  · intro r hr
    rcases hcases r hr with hr | rfl
    · exact h.state r hr
    · rfl
  · rw [hrows]
    exact keyed_supersede Row.idx h.keyed (a.row c i blob)
  · rw [hrows, List.flatMap_append, List.flatMap_singleton, List.map_append, List.map_singleton]
    exact List.perm_append_comm.trans hall
  · intro r hr
    rcases hcases r hr with hr | rfl
    · exact h.earliest r hr
    · exact hfirst

/-- A call with a key comes back with it. -/
theorem key_stored {a : HistoryCall} (hne : a.ckey ≠ []) : a.el.stored.key = some a.ckey := by
  show getStr (bytes a.ckey) = some a.ckey
  rw [getStr_bytes, if_neg hne]

/-- An entry of a row comes back with a key. -/
theorem PagedRows.key_ne_none (h : PagedRows c as T) (hne : ∀ b ∈ as, b.ckey ≠ [])
    {r : Row Text Obj} (hr : r ∈ current c T) {e : HistEl} (he : e.stored ∈ r.entries) :
    e.key ≠ none := by
  obtain ⟨b, hb, heq⟩ := h.mem_entries hr he
  intro hnone
  have hkey := key_stored (hne b hb)
  rw [← heq] at hkey
  simp [HistEl.stored, hnone] at hkey

/-- **A call on top of a row**: the row that holds its entries and the new call supersedes it,
if one of its entries is earlier. -/
theorem PagedRows.write_over (h : PagedRows c as T) {a : HistoryCall} {r : Row Text Obj}
    (hr : r ∈ current c T) {blob : Obj} (hown : c.owns (storeKey c a.now) = true)
    (hkey : ∀ b ∈ as, storeKey c b.now < storeKey c a.now)
    (hblob : (storeBlobParse helParse blob).Perm (r.entries ++ [a.el.stored]))
    {e₀ : HistEl} (he₀ : e₀ ∈ r.entries) (hlater : e₀.time < a.ts) :
    PagedRows c (as ++ [a]) (storeAdd c (storeKey c a.now) r.idx blob T) := by
  apply h.write hown hkey
  · obtain ⟨m, hm, hmkey, hmin⟩ := h.earliest r hr
    refine ⟨m, hblob.mem_iff.mpr (List.mem_append_left _ hm), hmkey, ?_⟩
    intro e he
    rcases List.mem_append.mp (hblob.mem_iff.mp he) with he | he
    · exact hmin e he
    · -- the new call started after one of the bundle, so not before the earliest
      rw [List.mem_singleton.mp he]
      exact (hmin e₀ he₀).trans (le_of_lt (Int32.lt_iff_toInt_lt.mp hlater))
  · set rest := (others Row.idx r.idx (current c T)).flatMap Row.entries
    have hnew : (storeBlobParse helParse blob ++ rest).Perm
        (r.entries ++ [a.el.stored] ++ rest) := hblob.append_right rest
    have hback : (r.entries ++ [a.el.stored] ++ rest).Perm
        (r.entries ++ rest ++ [a.el.stored]) := by
      rw [List.append_assoc, List.append_assoc]
      exact List.perm_append_comm.append_left _
    exact hnew.trans (hback.trans ((h.entries_perm hr).append_right _))

/-- **A call in a row of its own**, under its key, which is new. -/
theorem PagedRows.write_new (h : PagedRows c as T) {a : HistoryCall} {blob : Obj}
    (hown : c.owns (storeKey c a.now) = true)
    (hkey : ∀ b ∈ as, storeKey c b.now < storeKey c a.now)
    (hfresh : ∀ b ∈ as, b.ckey ≠ a.ckey) (hne : ∀ b ∈ as ++ [a], b.ckey ≠ [])
    (hblob : storeBlobParse helParse blob = [a.el.stored]) :
    PagedRows c (as ++ [a]) (storeAdd c (storeKey c a.now) a.ckey blob T) := by
  have hothers : others Row.idx a.ckey (current c T) = current c T := by
    apply others_eq_self Row.idx
    intro r hr heq
    obtain ⟨m, hm, hmkey, _⟩ := h.earliest r hr
    obtain ⟨b, hb, rfl⟩ := h.mem_entries hr hm
    rw [key_stored (hne b (List.mem_append_left _ hb)), heq] at hmkey
    exact hfresh b hb (Option.some.inj hmkey)
  apply h.write hown hkey
  · refine ⟨a.el.stored, ?_, key_stored (hne a (by simp)), ?_⟩
    · show a.el.stored ∈ storeBlobParse helParse blob
      rw [hblob]
      exact List.mem_singleton_self _
    · intro e he
      have he' : e ∈ storeBlobParse helParse blob := he
      rw [hblob, List.mem_singleton] at he'
      rw [he']
  · rw [hothers, hblob]
    exact List.perm_append_comm.trans (h.entries.append_right _)

end rows

/-! ## One event -/

section step

variable {c : StoreClient} {past : List HistoryEvent} {hist hist' : History}

/-- The row a fetch finds is a current row of the client. -/
theorem HistoryPaged.mem_of_select (h : HistoryPaged c past hist) (hord : c.order = false)
    {start : Option Text} {r : Row Text Obj}
    (hsel : storeSelect hist.store start 1 hist.table = some r) : r ∈ current c hist.table := by
  rw [h.store, storeSelect_eq_nextPage_dual hord start one_ne_zero] at hsel
  exact (List.mem_filter.mp (mem_of_nextPage_eq_some _ hsel).1).1

/-- A fetch takes the `idx` of its row as the new cursor, and keeps the invariant. -/
theorem HistoryPaged.fetch (h : HistoryPaged c past hist) (hord : c.order = false)
    {start : Option Text} {bulk : Option ℕ} (hf : historyFetch hist start = some (hist', bulk)) :
    HistoryPaged c past hist' := by
  rcases historyFetch_cases hf with ⟨_, rfl, _⟩ | ⟨r, hlist, hsel, hperm, hsorted, _, rfl⟩
  · exact h
  · have hr : r ∈ current c hist.table := h.mem_of_select hord hsel
    have hidx : getIdx hlist = some r.idx :=
      getIdx_of_underEarliest (h.rows.earliest r hr) hperm hsorted
    -- the entries fetched are as they are stored
    have hstored : hlist.map HistEl.stored = hlist := by
      refine (List.map_congr_left fun e he => ?_).trans (List.map_id hlist)
      obtain ⟨a, _, rfl⟩ := h.rows.mem_entries hr (hperm.mem_iff.mp he)
      exact HistEl.stored_stored _
    refine ⟨h.store, h.rows, ?_⟩
    intro addr haddr
    by_cases htop : hist.top = none
    · obtain rfl : hist.lists.length = addr := by simpa [htop] using haddr
      refine ⟨by simp, r, hr, ?_, ?_⟩
      · show (if hist.top = none then getIdx hlist else hist.topIdx) = some r.idx
        rw [if_pos htop, hidx]
      · show (((hist.lists ++ [hlist]).getD hist.lists.length []).map _).Perm _
        have hget : (hist.lists ++ [hlist]).getD hist.lists.length [] = hlist := by simp
        rw [hget, hstored]
        exact hperm
    · have hmem : addr ∈ hist.top := by simpa [htop] using haddr
      obtain ⟨hlt, r', hr', hidx', hperm'⟩ := h.top addr hmem
      have hget := getD_append_of_lt hlt hlist
      refine ⟨?_, r', hr', ?_, ?_⟩
      · show addr < (hist.lists ++ [hlist]).length
        rw [List.length_append]
        omega
      · show (if hist.top = none then getIdx hlist else hist.topIdx) = some r'.idx
        rw [if_neg htop, hidx']
      · show (((hist.lists ++ [hlist]).getD addr []).map _).Perm _
        rw [hget]
        exact hperm'

/-- A fetch returns. -/
theorem HistoryPaged.exists_fetch (h : HistoryPaged c past hist) (hord : c.order = false)
    (hts : ((addedCalls past).map HistoryCall.ts).Nodup) (start : Option Text) :
    ∃ p, historyFetch hist start = some p :=
  exists_historyFetch fun _ hsel => h.rows.nodup_times hts (h.mem_of_select hord hsel)

/-- Adding a call returns. -/
theorem HistoryPaged.exists_add (h : HistoryPaged c past hist) {a : HistoryCall}
    (hne : ∀ b ∈ addedCalls past, b.ckey ≠ []) (hlater : StartsLater hist (.add a)) :
    ∃ hist', historyStep hist (.add a) = some hist' := by
  apply exists_historyAdd a
  intro addr haddr
  obtain ⟨_, r, hr, hidx, hperm⟩ := h.top addr haddr
  refine ⟨by rw [hidx]; exact Option.some_ne_none _, ?_⟩
  intro e he
  have hmem : e.stored ∈ r.entries := hperm.mem_iff.mp (List.mem_map_of_mem he)
  exact ⟨h.rows.key_ne_none hne hr hmem, (hlater.2 addr haddr).2 e he⟩

/-- Without its list in memory a history still has its rows. -/
theorem HistoryPaged.forget {t : History} (h : HistoryPaged c past hist)
    (hstore : t.store = hist.store)
    (htable : t.table = hist.table) (htop : t.top = none) : HistoryPaged c past t := by
  refine ⟨hstore.trans h.store, htable.symm ▸ h.rows, ?_⟩
  rw [htop]
  exact fun addr haddr => absurd haddr (Option.not_mem_none addr)

/-- A call is added: to the row of the list in memory if there is one, and to a row of its
own otherwise. -/
theorem HistoryPaged.add (h : HistoryPaged c past hist) {a : HistoryCall}
    (hkey : ∀ b ∈ addedCalls past, storeKey c b.now < storeKey c a.now)
    (hfresh : ∀ b ∈ addedCalls past, b.ckey ≠ a.ckey)
    (hne : ∀ b ∈ addedCalls past ++ [a], b.ckey ≠ []) (hlater : StartsLater hist (.add a)) :
    ∃ hist', historyStep hist (.add a) = some hist' ∧ HistoryPaged c (past ++ [.add a]) hist' := by
  obtain ⟨hist', hstep⟩ := h.exists_add (fun b hb => hne b (List.mem_append_left _ hb)) hlater
  obtain ⟨hown, htops⟩ := hlater
  rw [h.store] at hown
  have hcalls : addedCalls (past ++ [.add a]) = addedCalls past ++ [a] := by
    rw [addedCalls_append, addedCalls_singleton_add]
  have hmem : ∀ i blob, a.row c i blob
      ∈ current c (storeAdd c (storeKey c a.now) i blob hist.table) := fun i blob =>
    mem_current.mpr ⟨row_mem_storeAddState _ _ _ _ _ _, hown, one_ne_zero⟩
  refine ⟨hist', hstep, ?_⟩
  rcases historyAdd_cases hstep with ⟨addr, i, blob, htop, hidx, hblob, rfl⟩ |
    ⟨blob, htop, hblob, rfl⟩
  · -- the list in memory is a row, and the new row takes its place
    obtain ⟨hlt, r, hr, hidx', hperm⟩ := h.top addr htop
    obtain rfl : i = r.idx := Option.some.inj (hidx.symm.trans hidx')
    obtain ⟨⟨e₀, he₀, hlt₀⟩, _⟩ := htops addr htop
    rw [List.map_append, List.map_singleton] at hblob
    have hnew : (storeBlobParse helParse blob).Perm (r.entries ++ [a.el.stored]) := by
      rw [hblob]
      exact hperm.append_right _
    refine ⟨h.store, ?_, ?_⟩
    · rw [hcalls, h.store]
      exact h.rows.write_over hr hown hkey hnew (hperm.mem_iff.mp (List.mem_map_of_mem he₀)) hlt₀
    · intro addr' haddr'
      obtain rfl : addr = addr' := Option.some.inj (htop.symm.trans haddr')
      refine ⟨by simpa using hlt, a.row c r.idx blob, ?_, hidx', ?_⟩
      · rw [h.store]
        exact hmem r.idx blob
      · show (((hist.lists.set addr _).getD addr []).map HistEl.stored).Perm
          (storeBlobParse helParse blob)
        rw [List.getD_eq_getElem _ _ (by simpa using hlt), List.getElem_set_self, hblob,
          List.map_append, List.map_singleton]
  · refine ⟨h.store, ?_, ?_⟩
    · rw [hcalls, h.store]
      exact h.rows.write_new hown hkey hfresh hne hblob
    · intro addr haddr
      obtain rfl : hist.lists.length = addr := Option.some.inj haddr
      refine ⟨by simp, a.row c a.ckey blob, ?_, rfl, ?_⟩
      · rw [h.store]
        exact hmem a.ckey blob
      · show (((hist.lists ++ [[a.el]]).getD hist.lists.length []).map HistEl.stored).Perm
          (storeBlobParse helParse blob)
        have hget : (hist.lists ++ [[a.el]]).getD hist.lists.length [] = [a.el] := by simp
        rw [hget, hblob]
        exact List.Perm.refl _

end step

/-! ## Whole runs -/

/-- Calls that come as they do: every prefix does, and the next call is new to it. -/
theorem DistinctCalls.split {c : StoreClient} {as bs : List HistoryCall} {a : HistoryCall}
    (h : DistinctCalls c (as ++ a :: bs)) :
    (∀ b ∈ as, storeKey c b.now < storeKey c a.now) ∧ (∀ b ∈ as, b.ckey ≠ a.ckey) := by
  constructor
  · intro b hb
    exact (List.pairwise_append.mp h.storeKeys).2.2 b hb a List.mem_cons_self
  · intro b hb
    have hkeys := h.keys
    rw [List.map_append, List.map_cons] at hkeys
    exact (List.nodup_append.mp hkeys).2.2 b.ckey (List.mem_map_of_mem hb) a.ckey
      List.mem_cons_self

/-- The key of a call is not empty. -/
theorem DistinctCalls.ckey_ne_nil {c : StoreClient} {as : List HistoryCall}
    (h : DistinctCalls c as) {a : HistoryCall} (ha : a ∈ as) : a.ckey ≠ [] := by
  obtain ⟨rest, hrest⟩ := h.begins a ha
  obtain ⟨d, t, ht, _⟩ := fmtD_eq a.ts.toInt
  rw [← hrest, ht]
  exact List.cons_ne_nil _ _

/-- **Every run returns, and keeps the invariant.** -/
theorem historyPaged_run {c : StoreClient} (hord : c.order = false) (es : List HistoryEvent)
    (hkeep : ∀ e ∈ es, e ≠ .cliHist) (hcalls : DistinctCalls c (addedCalls es))
    (hmeet : StepsMeet historyStep StartsLater (historyAlloc c []) es) :
    ∃ hist, run historyStep (historyAlloc c []) es = some hist ∧ HistoryPaged c es hist := by
  have hinit : HistoryPaged c [] (historyAlloc c []) :=
    ⟨rfl, pagedRows_nil c, fun addr haddr => absurd haddr (by simp [historyAlloc])⟩
  refine run_progress_past historyStep (I := HistoryPaged c) es ?_ es [] _ rfl hinit hmeet
  intro past e rest s hall hI hC
  have hsplit : addedCalls es = addedCalls past ++ addedCalls (e :: rest) := by
    rw [← hall, addedCalls_append]
  -- the other events add no call
  have hsame : ∀ {t}, addedCalls [e] = [] → HistoryPaged c past t →
      HistoryPaged c (past ++ [e]) t := by
    intro t he hP
    have hpast : addedCalls (past ++ [e]) = addedCalls past := by
      rw [addedCalls_append, he, List.append_nil]
    exact ⟨hP.store, hpast.symm ▸ hP.rows, hP.top⟩
  cases e with
  | add a =>
      have hsplit' : addedCalls es = addedCalls past ++ a :: addedCalls rest := hsplit
      obtain ⟨hkey, hfresh⟩ := DistinctCalls.split (hsplit' ▸ hcalls)
      refine hI.add hkey hfresh ?_ hC
      intro b hb
      apply hcalls.ckey_ne_nil
      rw [hsplit']
      rcases List.mem_append.mp hb with hb | hb
      · exact List.mem_append_left _ hb
      · rw [List.mem_singleton.mp hb]
        exact List.mem_append_right _ List.mem_cons_self
  | reset => exact ⟨historyReset s, rfl, hsame rfl (hI.forget rfl rfl rfl)⟩
  | next =>
      have hts : ((addedCalls past).map HistoryCall.ts).Nodup := by
        have htimes := hcalls.times
        rw [hsplit, List.map_append] at htimes
        exact htimes.of_append_left
      obtain ⟨⟨t, bulk⟩, hf⟩ := hI.exists_fetch hord hts s.iter
      refine ⟨t, ?_, hsame rfl (hI.fetch hord hf)⟩
      show (historyFetch s s.iter).map Prod.fst = some t
      rw [hf]
      rfl
  | cliHist =>
      refine absurd rfl (hkeep .cliHist ?_)
      rw [← hall]
      simp
  | restart =>
      exact ⟨historyAlloc s.store s.table, rfl, hsame rfl (hI.forget rfl rfl rfl)⟩

/-! ## Paging -/

/-- A bundle holds the entries of a row. -/
def OfRow (bundle : List HistEl) (r : Row Text Obj) : Prop := bundle.Perm r.entries

theorem flatten_perm_flatMap {bundles : List (List HistEl)} {rows : List (Row Text Obj)}
    (h : List.Forall₂ OfRow bundles rows) :
    bundles.flatten.Perm (rows.flatMap Row.entries) := by
  induction h with
  | nil => exact List.Perm.refl _
  | cons hrow _ ih =>
      rw [List.flatten_cons, List.flatMap_cons]
      exact hrow.append ih

/-- On its way through the rows of the table `T`, with the cursor where `cur` says. -/
def PagingHistory (c : StoreClient) (past : List HistoryEvent) (T : List (Row Text Obj))
    (cur : Option Textᵒᵈ) (hist : History) : Prop :=
  HistoryPaged c past hist ∧ hist.table = T ∧ hist.iter.map OrderDual.toDual = cur

section paging

variable {c : StoreClient} {past : List HistoryEvent} {T : List (Row Text Obj)}
  {cur : Option Textᵒᵈ} {hist : History}

/-- What a fetch selects is the next page. -/
theorem PagingHistory.select_eq (h : PagingHistory c past T cur hist) (hord : c.order = false) :
    storeSelect hist.store hist.iter 1 hist.table
      = nextPage (fun r => OrderDual.toDual r.idx) cur (current c T) := by
  obtain ⟨hP, rfl, rfl⟩ := h
  rw [hP.store, storeSelect_eq_nextPage_dual hord hist.iter one_ne_zero,
    filter_state_self hP.rows.state]

/-- Beyond the last page nothing comes. -/
theorem PagingHistory.fetch_last (h : PagingHistory c past T cur hist) (hord : c.order = false)
    (hts : ((addedCalls past).map HistoryCall.ts).Nodup)
    (hnone : nextPage (fun r : Row Text Obj => OrderDual.toDual r.idx) cur (current c T) = none) :
    ∃ t, nextBundle hist = some (t, none) := by
  have hsel := h.select_eq hord
  obtain ⟨⟨t, bulk⟩, hf⟩ := h.1.exists_fetch hord hts hist.iter
  rcases historyFetch_cases hf with ⟨_, rfl, rfl⟩ | ⟨r, _, hr, _⟩
  · refine ⟨t, ?_⟩
    unfold nextBundle historyNext
    rw [hf]
    rfl
  · rw [hsel, hnone] at hr
    exact absurd hr (by simp)

/-- A fetch delivers the next page and moves the cursor to its key. -/
theorem PagingHistory.fetch_next (h : PagingHistory c past T cur hist) (hord : c.order = false)
    (hts : ((addedCalls past).map HistoryCall.ts).Nodup) {r : Row Text Obj}
    (hsome : nextPage (fun r : Row Text Obj => OrderDual.toDual r.idx) cur (current c T)
      = some r) :
    ∃ t bundle, nextBundle hist = some (t, some bundle) ∧ OfRow bundle r ∧
      PagingHistory c past T (some (OrderDual.toDual r.idx)) t := by
  have hsel := h.select_eq hord
  obtain ⟨hP, hT, -⟩ := h
  obtain ⟨⟨t, bulk⟩, hf⟩ := hP.exists_fetch hord hts hist.iter
  have hP' := hP.fetch hord hf
  rcases historyFetch_cases hf with ⟨hnone, _, _⟩ | ⟨r', hlist, hr', hperm, hsorted, rfl, rfl⟩
  · rw [hsel, hsome] at hnone
    exact absurd hnone (by simp)
  · obtain rfl : r' = r := by
      rw [hsel, hsome] at hr'
      exact (Option.some.inj hr').symm
    have hmem : r' ∈ current c hist.table := by
      rw [hT]
      exact (mem_of_nextPage_eq_some _ hsome).1
    refine ⟨_, hlist, ?_, hperm, hP', hT, ?_⟩
    · unfold nextBundle historyNext
      rw [hf]
      simp
    · show (getIdx hlist).map OrderDual.toDual = some (OrderDual.toDual r'.idx)
      rw [getIdx_of_underEarliest (hP.rows.earliest r' hmem) hperm hsorted, Option.map_some]

end paging

/-- Fetching until nothing comes delivers every row once. -/
theorem historyPages_spec {c : StoreClient} (hord : c.order = false)
    {past : List HistoryEvent} {hist : History} (h : HistoryPaged c past hist)
    (hts : ((addedCalls past).map HistoryCall.ts).Nodup) (hiter : hist.iter = none) :
    ∃ bundles, historyPages (hist.table.length + 1) hist = some bundles ∧
      bundles.flatten.Perm ((current c hist.table).flatMap Row.entries) := by
  have hstart : PagingHistory c past hist.table none hist := ⟨h, rfl, by rw [hiter]; rfl⟩
  have hlen : ((current c hist.table).filter
      fun r => beyond none (OrderDual.toDual r.idx)).length < hist.table.length + 1 :=
    Nat.lt_succ_of_le (length_filter_current_le c hist.table _)
  obtain ⟨bundles, rows, hb, hall, hrows⟩ := drain_spec _ h.rows.keyed_dual
    (fun cur s hs hnone => PagingHistory.fetch_last hs hord hts hnone)
    (fun cur s r hs hsome => PagingHistory.fetch_next hs hord hts hsome)
    (hist.table.length + 1) none hist hstart hlen
  refine ⟨bundles, hb, (flatten_perm_flatMap hall).trans ?_⟩
  simp only [beyond_none, List.filter_true] at hrows
  exact hrows.flatMap_right _

/-- **Paging is exact** after every run in which no call is added to a bundle whose calls
all started later: resetting and fetching until nothing comes returns, and delivers
every call once. -/
theorem historyPaging_exact (login : Text) (letter : CChar) (es : List HistoryEvent)
    (hkeep : ∀ e ∈ es, e ≠ .cliHist)
    (hcalls : DistinctCalls (storeOpen login letter) (addedCalls es))
    (hmeet : StepsMeet historyStep StartsLater (historyAlloc (storeOpen login letter) []) es) :
    ∃ hist bundles, run historyStep (historyAlloc (storeOpen login letter) []) es = some hist ∧
      historyPages (hist.table.length + 1) (historyReset hist) = some bundles ∧
      bundles.flatten.Perm ((addedCalls es).map fun a => a.el.stored) := by
  obtain ⟨hist, hrun, hP⟩ :=
    historyPaged_run (c := storeOpen login letter) rfl es hkeep hcalls hmeet
  have hreset : HistoryPaged (storeOpen login letter) es (historyReset hist) :=
    ⟨hP.store, hP.rows, fun addr haddr => absurd haddr (by simp [historyReset])⟩
  obtain ⟨bundles, hb, hperm⟩ := historyPages_spec rfl hreset hcalls.times rfl
  exact ⟨hist, bundles, hrun, hb, hperm.trans hP.rows.entries⟩

/-- Three calls; the second one is stored `last`, and the process restarts before the
third. -/
def threeCalls (t₁ t₂ t₃ : ℤ) : List HistoryEvent :=
  [.add (endedCall 1400001000 t₁), .add (endedCall 1400001001 t₂), .restart,
    .add (endedCall 1400001002 t₃)]

/-- Calls one after the other are paged exactly. -/
theorem historyPaging_one_after_other :
    ∃ hist bundles, run historyStep (historyAlloc (storeOpen (lit "alice") (byteOf 'h')) [])
        (threeCalls 1400000100 1400000200 1400000300) = some hist ∧
      historyPages (hist.table.length + 1) (historyReset hist) = some bundles ∧
      bundles.flatten.Perm ((addedCalls (threeCalls 1400000100 1400000200 1400000300)).map
        fun a => a.el.stored) :=
  historyPaging_exact _ _ _ (by simp [threeCalls]) ⟨by decide, by decide, by decide, by decide⟩
    (by decide)

/-- A call that started before the one stored first, but ended after it: a later call that
started in between is skipped. -/
theorem not_historyPaging_overlapping :
    DistinctCalls (storeOpen (lit "alice") (byteOf 'h'))
        (addedCalls (threeCalls 1400000300 1400000100 1400000200)) ∧
      ∃ hist bundles, run historyStep (historyAlloc (storeOpen (lit "alice") (byteOf 'h')) [])
          (threeCalls 1400000300 1400000100 1400000200) = some hist ∧
        historyPages (hist.table.length + 1) (historyReset hist) = some bundles ∧
        ¬ bundles.flatten.Perm ((addedCalls
          (threeCalls 1400000300 1400000100 1400000200)).map fun a => a.el.stored) :=
  ⟨⟨by decide, by decide, by decide, by decide⟩, _, _, rfl, rfl, by decide⟩
