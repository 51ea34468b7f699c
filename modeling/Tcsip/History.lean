/-
# The call history

`history.c` keeps the calls that ended as bundles: each row of the client `h` holds an
array of entries.  The bundle in memory (`top`) grows by one entry with every call and is
written as a whole over its row, under `topIdx`; a fetch reads the bundle below the
cursor `iter`, sorts it by falling time, and takes the key of its last entry both as the
new cursor and, when no bundle was in memory, as `topIdx`.

The list that the first fetch returns *is* the list `top`: both are one counted object.
So the lists are kept by address in `lists`, and `top` and the result of a fetch are
addresses.

A call key is printed as `%d@from->to` and never spells a number, so the `idx` of a
history row is the text itself.
-/
import Tcsip.NeighbourSort
import Tcsip.Runs
import Tcsip.Store

open NeighbourSort

/-! ## Entries -/

/-- `struct hist_el`. -/
structure HistEl where
  key : Option Text
  uri : Option Text
  name : Option Text
  event : Int32
  time : Int32
  deriving DecidableEq

/-- `sort_handler`: the later entry first. -/
def HistEl.sortHandler (hel1 hel2 : HistEl) : Bool := decide (hel1.time > hel2.time)

/-- The key the handler compares. -/
def HistEl.sortKey (hel : HistEl) : ℤᵒᵈ := OrderDual.toDual hel.time.toInt

theorem HistEl.sortHandler_iff (x y : HistEl) :
    x.sortHandler y = true ↔ x.sortKey < y.sortKey := by
  unfold HistEl.sortHandler HistEl.sortKey
  rw [decide_eq_true_eq, gt_iff_lt, Int32.lt_iff_toInt_lt, OrderDual.toDual_lt_toDual]

/-- `hel_parse`. -/
def helParse : List Obj → Option HistEl
  | event :: time :: key :: uri :: name :: _ => do
    let event ← event.i64
    let time ← time.i64
    let key ← key.rawBytes
    let uri ← uri.rawBytes
    let name ← name.rawBytes
    some { key := getStr key, uri := getStr uri, name := getStr name,
           event := Int32.ofInt event, time := Int32.ofInt time }
  | _ => none

/-- `write_history_el`: a missing name is written as an empty one, a missing key or uri
is passed to `strlen`. -/
def writeHistoryEl (hel : HistEl) : Option Obj := do
  let key ← pushCstrLen hel.key
  let uri ← pushCstrLen hel.uri
  let name ← pushCstrLen (some (hel.name.getD []))
  some (.array [.integer hel.event.toInt, .integer hel.time.toInt, key, uri, name])

/-- The array that `history_add` packs. -/
def packHistory (hlist : List HistEl) : Option Obj :=
  (hlist.mapM writeHistoryEl).map Obj.array

/-- `get_idx`: the key of the last entry. -/
def getIdx (hlist : List HistEl) : Option Text := hlist.getLast?.bind HistEl.key

/-! ## The history object -/

/-- `struct history`, with the table behind its store client and the list objects. -/
structure History where
  store : StoreClient
  table : List (Row Text Obj)
  lists : List (List HistEl)
  iter : Option Text
  top : Option ℕ
  topIdx : Option Text

/-- `history_alloc`. -/
def historyAlloc (stc : StoreClient) (table : List (Row Text Obj)) : History :=
  { store := stc, table := table, lists := [], iter := none, top := none, topIdx := none }

/-- `history_reset`. -/
def historyReset (hist : History) : History :=
  { hist with top := none, topIdx := none, iter := none }

/-- `history_fetch`, and the address of the list it returns.  There is no next state when
the sort never comes to an end. -/
def historyFetch (hist : History) (startIdx : Option Text) :
    Option (History × Option ℕ) :=
  match storeFetch hist.store startIdx helParse hist.table with
  | none => some (hist, none)
  | some parsed =>
    (neighbourSort HistEl.sortHandler (parsed.length * parsed.length + 1) parsed).map
      fun bulk =>
        let idx := getIdx bulk
        let addr := hist.lists.length
        -- the list that is returned is also kept as `top`
        ({ hist with
            lists := hist.lists ++ [bulk]
            iter := idx
            top := if hist.top = none then some addr else hist.top
            topIdx := if hist.top = none then idx else hist.topIdx }, some addr)

/-- `history_next`. -/
def historyNext (hist : History) : Option (History × Option ℕ) :=
  historyFetch hist hist.iter

/-- `history_add` with the key that `store_key` gave.  There is no next state when an
entry without key or uri is packed, or when there is no text to store as `idx`. -/
def historyAdd (hist : History) (key : Text) (event ts : Int32) (ckey uri name : Text) :
    Option History :=
  let hel : HistEl :=
    { key := some ckey, uri := some uri, name := some name, event := event, time := ts }
  match hist.top with
  | some addr => do
    -- the bundle grows in memory, and replaces the row under the `idx` it has there
    let hlist := hist.lists.getD addr [] ++ [hel]
    let blob ← packHistory hlist
    let idx ← hist.topIdx
    some { hist with
      lists := hist.lists.set addr hlist
      table := storeAdd hist.store key idx blob hist.table }
  | none => do
    let blob ← packHistory [hel]
    some { hist with
      lists := hist.lists ++ [[hel]]
      table := storeAdd hist.store key ckey blob hist.table
      top := some hist.lists.length
      topIdx := some ckey }

/-- The command `hist` of the command-line client: fetch a list, print it, and flush
it. -/
def cliHist (hist : History) : Option History :=
  (historyNext hist).map fun
    | (hist, none) => hist
    | (hist, some hlist) => { hist with lists := hist.lists.set hlist [] }

/-! ## Runs -/

/-- The arguments of a call of `history_add`, and the time it is made at. -/
structure HistoryCall where
  now : Timeval
  event : Int32
  ts : Int32
  ckey : Text
  uri : Text
  name : Text

/-- The entry the call makes. -/
def HistoryCall.el (a : HistoryCall) : HistEl :=
  { key := some a.ckey, uri := some a.uri, name := some a.name, event := a.event, time := a.ts }

/-- A call of alice with bob at the second `t`, stored at the second `now`. -/
def endedCall (now t : ℤ) : HistoryCall :=
  { now := { sec := now, usec := 0 }, event := 10, ts := Int32.ofInt t,
    ckey := fmtD t ++ lit "@sip:alice@x->sip:bob@x", uri := lit "sip:bob@x", name := lit "Bob" }

/-- What can happen to a history.  `restart` is a new process on the same database. -/
inductive HistoryEvent where
  | add (a : HistoryCall)
  | reset
  | next
  | cliHist
  | restart

/-- The state after an event. -/
def historyStep (hist : History) : HistoryEvent → Option History
  | .add a => historyAdd hist (storeKey hist.store a.now) a.event a.ts a.ckey a.uri a.name
  | .reset => some (historyReset hist)
  | .next => (historyNext hist).map Prod.fst
  | .cliHist => cliHist hist
  | .restart => some (historyAlloc hist.store hist.table)

/-- The calls of `history_add` among the events. -/
def addedCalls (es : List HistoryEvent) : List HistoryCall :=
  es.filterMap fun
    | .add a => some a
    | _ => none

@[simp] theorem addedCalls_append (es fs : List HistoryEvent) :
    addedCalls (es ++ fs) = addedCalls es ++ addedCalls fs := by
  unfold addedCalls
  rw [List.filterMap_append]

@[simp] theorem addedCalls_singleton_add (a : HistoryCall) : addedCalls [.add a] = [a] := rfl

/-! ## Writing entries and reading them back -/

/-- An entry as it is read back: empty strings come back as NULL. -/
def HistEl.stored (hel : HistEl) : HistEl :=
  { hel with
    key := hel.key.bind fun t => getStr (bytes t)
    uri := hel.uri.bind fun t => getStr (bytes t)
    name := hel.name.bind fun t => getStr (bytes t) }

/-- **Round trip of an entry.** -/
theorem helParse_writeHistoryEl {hel : HistEl} {o : Obj} (h : writeHistoryEl hel = some o) :
    o.elems.bind helParse = some hel.stored := by
  obtain ⟨key, uri, name, event, time⟩ := hel
  cases key with
  | none => simp [writeHistoryEl, pushCstrLen] at h
  | some key =>
      cases uri with
      | none => simp [writeHistoryEl, pushCstrLen] at h
      | some uri =>
          obtain rfl := Option.some.inj h
          cases name with
          | none => simp [helParse, Obj.elems, Obj.i64, Obj.rawBytes, HistEl.stored, getStr]
          | some name => simp [helParse, Obj.elems, Obj.i64, Obj.rawBytes, HistEl.stored]

/-- **Round trip of a bundle.** -/
theorem storeBlobParse_packHistory {hlist : List HistEl} {blob : Obj}
    (h : packHistory hlist = some blob) :
    storeBlobParse helParse blob = hlist.map HistEl.stored := by
  obtain ⟨items, hitems, rfl⟩ := Option.map_eq_some_iff.mp h
  show items.filterMap (fun item => item.elems.bind helParse) = _
  clear h
  induction hlist generalizing items with
  | nil =>
      rw [List.mapM_nil] at hitems
      obtain rfl := Option.some.inj hitems
      rfl
  | cons hel hlist ih =>
      rw [List.mapM_cons] at hitems
      obtain ⟨o, ho, hrest⟩ := Option.bind_eq_some_iff.mp hitems
      obtain ⟨os, hos, heq⟩ := Option.bind_eq_some_iff.mp hrest
      obtain rfl := Option.some.inj heq
      rw [List.map_cons, ← ih os hos]
      exact List.filterMap_cons_some (helParse_writeHistoryEl ho)

/-! ## What a fetch and an addition do -/

/-- The entries of a row. -/
def Row.entries (r : Row Text Obj) : List HistEl := storeBlobParse helParse r.blob

/-- **A fetch** finds no row and changes nothing, or it puts the entries of the next row,
sorted, into a new list. -/
theorem historyFetch_cases {hist hist' : History} {start : Option Text}
    {bulk : Option ℕ} (h : historyFetch hist start = some (hist', bulk)) :
    (storeSelect hist.store start 1 hist.table = none ∧ hist' = hist ∧ bulk = none) ∨
      ∃ r hlist, storeSelect hist.store start 1 hist.table = some r ∧
        hlist.Perm r.entries ∧ hlist.Pairwise (fun x y => x.sortKey < y.sortKey) ∧
        bulk = some hist.lists.length ∧
        hist' = { hist with
          lists := hist.lists ++ [hlist]
          iter := getIdx hlist
          top := if hist.top = none then some hist.lists.length else hist.top
          topIdx := if hist.top = none then getIdx hlist else hist.topIdx } := by
  unfold historyFetch storeFetch storeFetchState at h
  cases hsel : storeSelect hist.store start 1 hist.table with
  | none =>
      rw [hsel] at h
      obtain ⟨rfl, rfl⟩ := Prod.mk.inj (Option.some.inj h)
      exact Or.inl ⟨rfl, rfl, rfl⟩
  | some r =>
      rw [hsel] at h
      obtain ⟨hlist, hsort, heq⟩ := Option.map_eq_some_iff.mp h
      obtain ⟨hperm, hsorted⟩ := neighbourSort_sorted _ HistEl.sortHandler_iff hsort
      obtain ⟨rfl, rfl⟩ := Prod.mk.inj heq
      exact Or.inr ⟨r, hlist, rfl, hperm, hsorted, rfl, rfl⟩

/-- **The command of the client** finds no row and changes nothing, or it leaves an empty list
where the fetched one was. -/
theorem cliHist_cases {hist hist' : History} (h : cliHist hist = some hist') :
    hist' = hist ∨ ∃ idx, hist' = { hist with
      lists := hist.lists ++ [[]]
      iter := idx
      top := if hist.top = none then some hist.lists.length else hist.top
      topIdx := if hist.top = none then idx else hist.topIdx } := by
  unfold cliHist at h
  obtain ⟨⟨fetched, bulk⟩, hfetch, heq⟩ := Option.map_eq_some_iff.mp h
  rcases historyFetch_cases hfetch with ⟨_, rfl, rfl⟩ | ⟨r, hlist, _, _, _, rfl, rfl⟩
  · exact Or.inl heq.symm
  · refine Or.inr ⟨getIdx hlist, ?_⟩
    have hflushed : (hist.lists ++ [hlist]).set hist.lists.length [] = hist.lists ++ [[]] := by
      simp
    rw [← heq, ← hflushed]

/-- A new list at the end leaves the others where they were. -/
theorem getD_append_of_lt {lists : List (List HistEl)} {addr : ℕ} (h : addr < lists.length)
    (hlist : List HistEl) : (lists ++ [hlist]).getD addr [] = lists.getD addr [] := by
  rw [List.getD_eq_getElem?_getD, List.getD_eq_getElem?_getD, List.getElem?_append_left h]

/-- **An addition** appends the entry to the list in memory and stores the whole list
under `topIdx`, or it starts a new list and stores it under the key of the entry. -/
theorem historyAdd_cases {hist hist' : History} {a : HistoryCall}
    (h : historyStep hist (.add a) = some hist') :
    (∃ addr i blob, hist.top = some addr ∧ hist.topIdx = some i ∧
        storeBlobParse helParse blob
          = (hist.lists.getD addr [] ++ [a.el]).map HistEl.stored ∧
        hist' = { hist with
          lists := hist.lists.set addr (hist.lists.getD addr [] ++ [a.el])
          table := storeAdd hist.store (storeKey hist.store a.now) i blob hist.table }) ∨
      ∃ blob, hist.top = none ∧ storeBlobParse helParse blob = [a.el.stored] ∧
        hist' = { hist with
          lists := hist.lists ++ [[a.el]]
          table := storeAdd hist.store (storeKey hist.store a.now) a.ckey blob hist.table
          top := some hist.lists.length
          topIdx := some a.ckey } := by
  unfold historyStep historyAdd at h
  cases htop : hist.top with
  | none =>
      rw [htop] at h
      obtain ⟨blob, hblob, heq⟩ := Option.bind_eq_some_iff.mp h
      obtain rfl := Option.some.inj heq
      exact Or.inr ⟨blob, rfl, storeBlobParse_packHistory hblob, rfl⟩
  | some addr =>
      rw [htop] at h
      obtain ⟨blob, hblob, hrest⟩ := Option.bind_eq_some_iff.mp h
      obtain ⟨i, hi, heq⟩ := Option.bind_eq_some_iff.mp hrest
      obtain rfl := Option.some.inj heq
      exact Or.inl ⟨addr, i, blob, rfl, hi, storeBlobParse_packHistory hblob, rfl⟩

/-! ## When they return -/

/-- A fetch returns if the entries of the row it finds have pairwise distinct times. -/
theorem exists_historyFetch {hist : History} {start : Option Text}
    (h : ∀ r, storeSelect hist.store start 1 hist.table = some r →
      (r.entries.map HistEl.sortKey).Nodup) :
    ∃ p, historyFetch hist start = some p := by
  unfold historyFetch storeFetch storeFetchState
  cases hsel : storeSelect hist.store start 1 hist.table with
  | none => exact ⟨_, rfl⟩
  | some r =>
      obtain ⟨bulk, hbulk⟩ := neighbourSort_of_nodup _ HistEl.sortHandler_iff (h r hsel)
      show ∃ p, Option.map _ (neighbourSort HistEl.sortHandler
        (r.entries.length * r.entries.length + 1) r.entries) = some p
      rw [hbulk]
      exact ⟨_, rfl⟩

/-- Entries with a key and a uri can be packed. -/
theorem exists_packHistory (hlist : List HistEl)
    (h : ∀ e ∈ hlist, e.key ≠ none ∧ e.uri ≠ none) : ∃ blob, packHistory hlist = some blob := by
  have hitems : ∃ items, hlist.mapM writeHistoryEl = some items := by
    induction hlist with
    | nil => exact ⟨[], rfl⟩
    | cons e hlist ih =>
        obtain ⟨items, hitems⟩ := ih fun e' he' => h e' (List.mem_cons_of_mem e he')
        obtain ⟨hkey, huri⟩ := h e List.mem_cons_self
        obtain ⟨key, hkey⟩ := Option.ne_none_iff_exists'.mp hkey
        obtain ⟨uri, huri⟩ := Option.ne_none_iff_exists'.mp huri
        rw [List.mapM_cons, hitems]
        unfold writeHistoryEl
        rw [hkey, huri]
        exact ⟨_, rfl⟩
  obtain ⟨items, hitems⟩ := hitems
  exact ⟨.array items, by rw [packHistory, hitems, Option.map_some]⟩

/-- An addition returns if the list in memory can be packed and has an `idx`. -/
theorem exists_historyAdd {hist : History} (a : HistoryCall)
    (h : ∀ addr ∈ hist.top, hist.topIdx ≠ none ∧
      ∀ e ∈ hist.lists.getD addr [], e.key ≠ none ∧ e.uri ≠ none) :
    ∃ hist', historyStep hist (.add a) = some hist' := by
  have hel : a.el.key ≠ none ∧ a.el.uri ≠ none := ⟨Option.some_ne_none _, Option.some_ne_none _⟩
  show ∃ hist', historyAdd hist _ _ _ _ _ _ = some hist'
  unfold historyAdd
  cases htop : hist.top with
  | none =>
      obtain ⟨blob, hblob⟩ := exists_packHistory [a.el] fun e he => by
        rw [List.mem_singleton.mp he]
        exact hel
      show ∃ hist', ((packHistory [a.el]).bind _) = some hist'
      rw [hblob]
      exact ⟨_, rfl⟩
  | some addr =>
      obtain ⟨hidx, hwhole⟩ := h addr htop
      obtain ⟨i, hi⟩ := Option.ne_none_iff_exists'.mp hidx
      obtain ⟨blob, hblob⟩ := exists_packHistory (hist.lists.getD addr [] ++ [a.el])
        fun e he => by
          rcases List.mem_append.mp he with he | he
          · exact hwhole e he
          · rw [List.mem_singleton.mp he]
            exact hel
      show ∃ hist', ((packHistory (hist.lists.getD addr [] ++ [a.el])).bind _) = some hist'
      rw [hblob, hi]
      exact ⟨_, rfl⟩

/-- Reading back what was read back changes nothing. -/
@[simp] theorem HistEl.stored_stored (hel : HistEl) : hel.stored.stored = hel.stored := by
  have hfield : ∀ o : Option Text, (o.bind fun t => getStr (bytes t)).bind
      (fun t => getStr (bytes t)) = o.bind fun t => getStr (bytes t) := by
    intro o
    cases o with
    | none => rfl
    | some t =>
        show (getStr (bytes t)).bind (fun t => getStr (bytes t)) = getStr (bytes t)
        rw [getStr_bytes]
        split
        · rfl
        · rename_i ht
          rw [Option.bind_some, getStr_bytes, if_neg ht]
  unfold HistEl.stored
  rw [hfield, hfield, hfield]

/-! ## When a bundle can be sorted -/

/-- The handler tells entries apart by their times. -/
theorem nodup_sortKey_iff (hlist : List HistEl) :
    (hlist.map HistEl.sortKey).Nodup ↔ (hlist.map HistEl.time).Nodup := by
  have hinj : Function.Injective fun t : Int32 => OrderDual.toDual t.toInt :=
    fun s t h => Int32.toInt_inj.mp (OrderDual.toDual.injective h)
  have hmap := List.nodup_map_iff hinj (l := hlist.map HistEl.time)
  rwa [List.map_map] at hmap

/-- **A fetch sorts its bundle**, the latest entry first, exactly when the times in it are
pairwise distinct.  Otherwise its sort makes a swap in every pass. -/
theorem historyFetch_sorts_iff {hist : History} {start : Option Text} {r : Row Text Obj}
    (hsel : storeSelect hist.store start 1 hist.table = some r) :
    ((∃ hist' addr, historyFetch hist start = some (hist', some addr) ∧
        (hist'.lists.getD addr []).Perm r.entries ∧
        (hist'.lists.getD addr []).Pairwise fun x y => y.time ≤ x.time)
      ↔ (r.entries.map HistEl.time).Nodup) ∧
    ((∃ n hlist, neighbourSort HistEl.sortHandler n r.entries = some hlist)
      ↔ (r.entries.map HistEl.time).Nodup) := by
  have hnodup := nodup_sortKey_iff r.entries
  have hterm := neighbourSort_terminates_iff _ HistEl.sortHandler_iff r.entries
  rw [hnodup] at hterm
  refine ⟨⟨?_, fun h => ?_⟩, hterm⟩
  · rintro ⟨hist', addr, hfetch, -⟩
    rcases historyFetch_cases hfetch with ⟨hnone, -, -⟩ | ⟨s, hlist, hs, hperm, hsorted, -, -⟩
    · exact absurd (hnone.symm.trans hsel) (Option.some_ne_none r).symm
    · obtain rfl := Option.some.inj (hs.symm.trans hsel)
      have hdistinct : (hlist.map HistEl.sortKey).Nodup := by
        rw [List.Nodup, List.pairwise_map]
        exact hsorted.imp fun hlt => ne_of_lt hlt
      exact hnodup.mp ((hperm.map _).nodup_iff.mp hdistinct)
  · have hreturns : ∃ p, historyFetch hist start = some p := exists_historyFetch fun s hs => by
      obtain rfl := Option.some.inj (hs.symm.trans hsel)
      exact hnodup.mpr h
    obtain ⟨⟨hist', bulk⟩, hfetch⟩ := hreturns
    rcases historyFetch_cases hfetch with ⟨hnone, -, -⟩ | ⟨s, hlist, hs, hperm, hsorted, rfl, rfl⟩
    · exact absurd (hnone.symm.trans hsel) (Option.some_ne_none r).symm
    · obtain rfl := Option.some.inj (hs.symm.trans hsel)
      have hkept : (hist.lists ++ [hlist]).getD hist.lists.length [] = hlist := by simp
      refine ⟨_, _, hfetch, ?_, ?_⟩
      · rw [hkept]
        exact hperm
      · rw [hkept]
        refine hsorted.imp fun {x y} hlt => Int32.le_iff_toInt_le.mpr ?_
        exact le_of_lt (OrderDual.toDual_lt_toDual.mp hlt)

/-- What is stored after a call with bob that began in the second `t₁` and one with carol that
began in the second `t₂`. -/
def twoCalls (t₁ t₂ : ℤ) : Option History :=
  Runs.run historyStep (historyAlloc (storeOpen (lit "alice") (byteOf 'h')) [])
    [.add (endedCall 1400000150 t₁),
      .add { endedCall 1400000151 t₂ with
        ckey := fmtD t₂ ++ lit "@sip:alice@x->sip:carol@x", uri := lit "sip:carol@x",
        name := lit "Carol" },
      .restart]

/-- Two calls that began in different seconds are sorted. -/
theorem historyFetch_sorts_twoCalls :
    ∃ hist r, twoCalls 1400000100 1400000101 = some hist ∧
      storeSelect hist.store none 1 hist.table = some r ∧
      ((∃ hist' addr, historyFetch hist none = some (hist', some addr) ∧
          (hist'.lists.getD addr []).Perm r.entries ∧
          (hist'.lists.getD addr []).Pairwise fun x y => y.time ≤ x.time)
        ↔ (r.entries.map HistEl.time).Nodup) ∧
      ((∃ n hlist, neighbourSort HistEl.sortHandler n r.entries = some hlist)
        ↔ (r.entries.map HistEl.time).Nodup) :=
  ⟨_, _, rfl, rfl, historyFetch_sorts_iff rfl⟩

/-- Two calls that began in the same second are never sorted: every later fetch hangs. -/
theorem sameSecond_never_sorted :
    ∃ hist r, twoCalls 1400000100 1400000100 = some hist ∧
      storeSelect hist.store none 1 hist.table = some r ∧
      (∀ n, neighbourSort HistEl.sortHandler n r.entries = none) ∧
      historyFetch hist none = none := by
  refine ⟨_, _, rfl, rfl, fun n => ?_, by decide⟩
  rw [Option.eq_none_iff_forall_ne_some]
  intro hlist hsort
  have hnodup := (neighbourSort_terminates_iff _ HistEl.sortHandler_iff _).mp ⟨n, hlist, hsort⟩
  revert hnodup
  decide
