/-
# The store as maps

What a module wants of `store.c` is a map of its own: `store_add_state` puts a blob and a state
under an `idx`, and `store_fetch_state`, asked again and again with the last `idx` it gave,
goes through the entries in one state in the order of the client.  What it has is one table for
all users and modules, in which nothing is ever removed.

An `idx` is what the column makes of the text that a module passes, where numbers come before
other texts and are ordered as numbers.  If the patterns of the clients are separate, and the keys
of what each of them writes under one `idx` print in order, then the table is those maps: whatever
the others do in between, a client is given its own entries, the newest under each `idx`, each once
and in order, and nothing when they are through (`fetches_as_maps`).
-/
import Tcsip.StoreSeparation
import Tcsip.StoreVersions

open KeyedList Runs

namespace StoreMaps

/-! ## Maps -/

/-- What is under an `idx`: the blob and its state, which is not zero. -/
abbrev Entries (ι : Type) := ι → Option (Obj × ℤ)

variable {κ ι : Type} [DecidableEq κ] [LinearOrder ι]

/-- The maps of the clients after an event.  A blob in the state 0 counts as obsolete from the
beginning. -/
def mapsStep (maps : κ → Entries ι) : ShareEvent κ ι → κ → Entries ι
  | .add k _ idx blob state =>
    Function.update maps k
      (Function.update (maps k) idx (if state = 0 then none else some (blob, state)))
  | .fetch _ _ _ => maps

/-- The maps of all clients after a run; nobody has an entry before. -/
def mapsAfter (es : List (ShareEvent κ ι)) : κ → Entries ι := es.foldl mapsStep fun _ _ => none

theorem mapsAfter_concat (es : List (ShareEvent κ ι)) (e : ShareEvent κ ι) :
    mapsAfter (es ++ [e]) = mapsStep (mapsAfter es) e := List.foldl_concat _ _ _ _

/-- What comes after the start `idx`, if there is one. -/
def After (order : Bool) (start : Option ι) (i : ι) : Prop :=
  ∀ s ∈ start, if order then s < i else i < s

/-- The entries of `m` in one state after the start, in the order of the client. -/
structure Lists (m : Entries ι) (order : Bool) (start : Option ι) (state : ℤ)
    (l : List (ι × Obj)) : Prop where
  mem : ∀ i blob, (i, blob) ∈ l ↔ m i = some (blob, state) ∧ After order start i
  sorted : l.Pairwise fun a b => if order then a.1 < b.1 else b.1 < a.1

/-- One call of `store_fetch_state`, from the `idx` that the last one gave. -/
def fetchNext (c : StoreClient) (state : ℤ) (T : SharedTable κ ι) (start : Option ι) :
    Option ι × Option (ι × Obj) :=
  match storeSelect c start state T with
  | none => (start, none)
  | some r => (some r.idx, some (r.idx, r.blob.2))

/-! ## The times of the writes -/

/-- When the client `k` writes under `i`. -/
def addTimes (k : κ) (i : ι) (es : List (ShareEvent κ ι)) : List Timeval :=
  es.flatMap fun
    | .add j now idx _ _ => if j = k ∧ idx = i then [now] else []
    | .fetch _ _ _ => []

theorem addTimes_append (k : κ) (i : ι) (es es' : List (ShareEvent κ ι)) :
    addTimes k i (es ++ es') = addTimes k i es ++ addTimes k i es' := List.flatMap_append

/-- What each client writes under one `idx` has keys that print in order. -/
def Rising (es : List (ShareEvent κ ι)) : Prop :=
  ∀ k i, (addTimes k i es).Pairwise Timeval.PrintsBefore

theorem Rising.of_append {es es' : List (ShareEvent κ ι)} (h : Rising (es ++ es')) : Rising es := by
  intro k i
  have hki := h k i
  rw [addTimes_append] at hki
  exact (List.pairwise_append.mp hki).1

/-- A new write prints after all before it. -/
theorem Rising.before {es : List (ShareEvent κ ι)} {k : κ} {now : Timeval} {idx : ι} {blob : Obj}
    {state : ℤ} (h : Rising (es ++ [.add k now idx blob state])) :
    ∀ t ∈ addTimes k idx es, t.PrintsBefore now := by
  have hki := h k idx
  rw [addTimes_append] at hki
  have hnow : now ∈ addTimes k idx [ShareEvent.add k now idx blob state] := by
    simp [addTimes]
  exact fun t ht => (List.pairwise_append.mp hki).2.2 t ht now hnow

/-! ## The table holds the maps -/

section rows

variable {β : Type}

/-- The rows that a client sees under `i`. -/
def currentAt (c : StoreClient) (T : List (Row ι β)) (i : ι) : List (Row ι β) :=
  (current c T).filter fun r => decide (r.idx = i)

theorem mem_currentAt {c : StoreClient} {T : List (Row ι β)} {i : ι} {r : Row ι β} :
    r ∈ currentAt c T i ↔ r ∈ current c T ∧ r.idx = i := by
  rw [currentAt, List.mem_filter, decide_eq_true_iff]

/-- **A write with the newest key under its `idx`** leaves its row there, and the others. -/
theorem currentAt_storeAddState {c : StoreClient} {key : Text} {idx : ι} {T : List (Row ι β)}
    (hown : c.owns key = true)
    (hnewest : ∀ r ∈ currentAt c T idx, r.blobKey < key) (blob : β) (state : ℤ) (i : ι) :
    currentAt c (storeAddState c key idx blob state T) i =
      if i = idx then if state = 0 then [] else [⟨key, idx, blob, state⟩]
      else currentAt c T i := by
  unfold currentAt
  rw [current_storeAddState, List.filter_append, List.filter_comm]
  by_cases hi : i = idx
  · subst hi
    -- the older rows under this `idx` have smaller keys
    have hold : ((current c T).filter fun r => decide (r.idx = i)).filter
        (fun r => !decide (r.idx = i ∧ r.blobKey < key)) = [] := by
      rw [List.filter_eq_nil_iff]
      intro r hr
      have hidx : r.idx = i := (mem_currentAt.mp hr).2
      simp [hidx, hnewest r hr]
    rw [hold, List.nil_append, if_pos rfl]
    by_cases hstate : state = 0
    · rw [if_neg fun h => h.2 hstate, if_pos hstate]
      rfl
    · rw [if_pos ⟨hown, hstate⟩, if_neg hstate, List.filter_cons_of_pos (by simp)]
      rfl
  · have hkept : ((current c T).filter fun r => decide (r.idx = i)).filter
        (fun r => !decide (r.idx = idx ∧ r.blobKey < key)) =
        (current c T).filter fun r => decide (r.idx = i) := by
      rw [List.filter_eq_self]
      intro r hr
      have hidx : r.idx = i := of_decide_eq_true (List.mem_filter.mp hr).2
      simp [hidx, hi]
    have hnew : (if c.owns key = true ∧ state ≠ 0 then
        [(⟨key, idx, blob, state⟩ : Row ι β)] else []).filter (fun r => decide (r.idx = i)) =
          [] := by
      rw [List.filter_eq_nil_iff]
      intro r hr
      split at hr
      · rw [List.mem_singleton.mp hr]
        simpa using Ne.symm hi
      · exact absurd hr List.not_mem_nil
    rw [hkept, hnew, List.append_nil, if_neg hi]

end rows

section table

variable {client : κ → StoreClient} {T T' : SharedTable κ ι} {past : List (ShareEvent κ ι)}

/-- The table stands for the maps: the rows have keys of the writes so far, and those that a
client sees under an `idx` are the entry of its map. -/
structure Denotes (client : κ → StoreClient) (past : List (ShareEvent κ ι)) (T : SharedTable κ ι) :
    Prop where
  keys : ∀ r ∈ T, ∃ now ∈ addTimes r.writer r.idx past, r.blobKey = storeKey (client r.writer) now
  rows : ∀ k i, (currentAt (client k) T i).map (fun r => (r.blob.2, r.curnt)) =
    (mapsAfter past k i).toList

theorem denotes_nil (client : κ → StoreClient) :
    Denotes client ([] : List (ShareEvent κ ι)) [] where
  keys _ hr := absurd hr List.not_mem_nil
  rows _ _ := rfl

theorem Denotes.keysOfWriters (h : Denotes client past T) : KeysOfWriters client T := by
  intro r hr
  obtain ⟨now, -, hkey⟩ := h.keys r hr
  exact ⟨now, hkey⟩

omit [LinearOrder ι] in
/-- A client sees none of the rows of another one. -/
theorem current_eq_of_others (hsep : ClientsSeparate client) (hkeys : KeysOfWriters client T)
    {k l : κ} (hlk : l ≠ k) :
    current (client l) T = current (client l) (T.filter fun r => decide (r.writer ≠ k)) := by
  unfold current
  rw [List.filter_filter]
  apply List.filter_congr
  intro r hr
  by_cases hl : (client l).owns r.blobKey = true
  · have hwriter : r.writer ≠ k := fun heq =>
      hlk (((hsep.owns_iff hkeys hr l).mp hl).trans heq)
    simp [hwriter]
  · rw [Bool.not_eq_true] at hl
    rw [hl, Bool.false_and, Bool.and_comm, Bool.and_false]

/-- What a client writes leaves the rows of the others. -/
theorem currentAt_of_ne (hsep : ClientsSeparate client) (h : KeysOfWriters client T) {k l : κ}
    (hlk : l ≠ k) (now : Timeval) (idx : ι) (blob : Obj) (state : ℤ) (i : ι) :
    currentAt (client l)
        (storeAddState (client k) (storeKey (client k) now) idx (k, blob) state T) i =
      currentAt (client l) T i := by
  have hkeys' := @keysOfWriters_shareStep κ ι _ client T _ (.add k now idx blob state) h rfl
  have hleaves := hsep.leavesOthers h (.add k now idx blob state)
  unfold currentAt
  rw [current_eq_of_others hsep hkeys' hlk, current_eq_of_others hsep h hlk]
  exact congrArg (currentAt (client l) · i) hleaves

/-- **One event** does to the table what it does to the maps. -/
theorem Denotes.step (hsep : ClientsSeparate client) (h : Denotes client past T)
    {e : ShareEvent κ ι}
    (hrising : Rising (past ++ [e])) (hstep : shareStep client T e = some T') :
    Denotes client (past ++ [e]) T' := by
  cases e with
  | fetch k start state =>
    obtain rfl := Option.some.inj hstep
    refine ⟨?_, ?_⟩
    · intro r hr
      obtain ⟨now, hnow, hkey⟩ := h.keys r hr
      exact ⟨now, by rw [addTimes_append]; exact List.mem_append_left _ hnow, hkey⟩
    · rw [mapsAfter_concat]
      exact h.rows
  | add k now idx blob state =>
    obtain rfl := Option.some.inj hstep
    refine ⟨?_, ?_⟩
    · let P (key : Text) (i : ι) (b : κ × Obj) : Prop :=
        ∃ t ∈ addTimes b.1 i (past ++ [.add k now idx blob state]), key = storeKey (client b.1) t
      apply forall_mem_storeAddState (P := P)
      · intro r hr
        obtain ⟨t, ht, hkey⟩ := h.keys r hr
        exact ⟨t, by rw [addTimes_append]; exact List.mem_append_left _ ht, hkey⟩
      · refine ⟨now, ?_, rfl⟩
        rw [addTimes_append]
        exact List.mem_append_right _ (by simp [addTimes])
    · intro l i
      rw [mapsAfter_concat, mapsStep]
      by_cases hlk : l = k
      · subst hlk
        have hown : (client l).owns (storeKey (client l) now) = true :=
          (owns_storeKey_iff now).mpr ((hsep l l).mpr rfl)
        have hnewest : ∀ r ∈ currentAt (client l) T idx, r.blobKey < storeKey (client l) now := by
          intro r hr
          obtain ⟨hr, hidx⟩ := mem_currentAt.mp hr
          obtain ⟨hmem, hseen, -⟩ := mem_current.mp hr
          obtain ⟨t, ht, hkey⟩ := h.keys r hmem
          rw [← (hsep.owns_iff h.keysOfWriters hmem l).mp hseen, hidx] at ht
          rw [hkey, ← (hsep.owns_iff h.keysOfWriters hmem l).mp hseen, storeKey_lt_iff]
          exact hrising.before t ht
        rw [currentAt_storeAddState hown hnewest, Function.update_self]
        by_cases hi : i = idx
        · subst hi
          rw [if_pos rfl, Function.update_self]
          split <;> rfl
        · rw [if_neg hi, Function.update_of_ne hi]
          exact h.rows l i
      · rw [currentAt_of_ne hsep h.keysOfWriters hlk, Function.update_of_ne hlk]
        exact h.rows l i

/-- **The table denotes the maps** after every run. -/
theorem denotes_of_run (hsep : ClientsSeparate client) {es : List (ShareEvent κ ι)}
    (hrising : Rising es)
    (hrun : run (shareStep client) [] es = some T) : Denotes client es T :=
  run_invariant_past (shareStep client) (I := Denotes client) (C := fun _ _ => True) es
    (fun past e rest s t hall hI _ hstep => by
      have hnow : Rising ((past ++ [e]) ++ rest) := by
        rw [List.append_assoc]
        exact hall ▸ hrising
      exact hI.step hsep hnow.of_append hstep)
    es [] [] T rfl (denotes_nil client) (stepsMeet_of_forall _ (fun _ _ => trivial) _ _) hrun

/-! ## Going through the entries -/

/-- The rows that a client sees are the entries of its map. -/
theorem Denotes.mem_iff (h : Denotes client past T) (k : κ) (i : ι) (blob : Obj) (state : ℤ) :
    (∃ r ∈ current (client k) T, r.idx = i ∧ r.blob.2 = blob ∧ r.curnt = state) ↔
      mapsAfter past k i = some (blob, state) := by
  rw [← Option.mem_toList, ← h.rows k i, List.mem_map]
  constructor
  · rintro ⟨r, hr, hidx, rfl, rfl⟩
    exact ⟨r, mem_currentAt.mpr ⟨hr, hidx⟩, rfl⟩
  · rintro ⟨r, hr, heq⟩
    obtain ⟨hr, hidx⟩ := mem_currentAt.mp hr
    exact ⟨r, hr, hidx, congrArg Prod.fst heq, congrArg Prod.snd heq⟩

/-- Each `idx` is held once. -/
theorem Denotes.keyed (h : Denotes client past T) (k : κ) :
    Keyed Row.idx (current (client k) T) := by
  rw [Keyed, List.nodup_iff_count_le_one]
  intro i
  have hlen : (currentAt (client k) T i).length ≤ 1 := by
    rw [← List.length_map, h.rows k i]
    exact Option.length_toList_le
  rw [currentAt, ← List.countP_eq_length_filter] at hlen
  rw [List.count, List.countP_map]
  refine le_trans (le_of_eq ?_) hlen
  apply List.countP_congr
  intro r _
  simp

/-- The entries in the rows that are still to come, in the order that `f` makes. -/
def toCome {ρ : Type} [LinearOrder ρ] (f : ι → ρ) (start : Option ι)
    (rows : List (Row ι (κ × Obj))) : List (ι × Obj) :=
  (upcoming (fun r => f r.idx) (start.map f) rows).map fun r => (r.idx, r.blob.2)

omit [DecidableEq κ] in
/-- **Fetching again and again**, if a fetch answers the next page in an order of the `idx`. -/
theorem ask_fetchNext {ρ : Type} [LinearOrder ρ] {f : ι → ρ} (hf : Function.Injective f)
    {c : StoreClient} {state : ℤ} {T : SharedTable κ ι} {rows : List (Row ι (κ × Obj))}
    (hrows : Keyed Row.idx rows)
    (hselect : ∀ start, storeSelect c start state T =
      nextPage (fun r => f r.idx) (start.map f) rows) (n : ℕ) (start : Option ι) :
    ask (fetchNext c state T) n start =
      ((toCome f start rows).take n).map some ++
        List.replicate (n - (toCome f start rows).length) none := by
  have hkeyed : Keyed (fun r => f r.idx) rows := by
    have hmap : rows.map (fun r => f r.idx) = (rows.map Row.idx).map f := by
      rw [List.map_map]
      rfl
    rw [Keyed, hmap]
    exact hrows.map hf
  let At (cur : Option ρ) (s : Option ι) : Prop := cur = s.map f
  let page (r : Row ι (κ × Obj)) : Option (ι × Obj) := some (r.idx, r.blob.2)
  have hpages := @ask_eq _ _ (fun r : Row ι (κ × Obj) => f r.idx) _ _ _ (fetchNext c state T) At
    page none rows hkeyed
    (by
      rintro cur s rfl hnone
      unfold fetchNext
      rw [hselect, hnone]
      exact ⟨rfl, rfl⟩)
    (by
      rintro cur s r rfl hsome
      unfold fetchNext
      rw [hselect, hsome]
      exact ⟨rfl, rfl⟩)
    n (start.map f) start rfl
  rw [hpages, toCome, ← List.map_take, List.map_map, List.length_map]
  rfl

/-- The rows to come are the entries of the map. -/
theorem Denotes.lists (h : Denotes client past T) {ρ : Type} [LinearOrder ρ] {f : ι → ρ}
    {order : Bool} (hf : ∀ i j, f i < f j ↔ if order then i < j else j < i) (k : κ)
    (start : Option ι) (state : ℤ) :
    Lists (mapsAfter past k) order start state
      (toCome f start ((current (client k) T).filter fun r => decide (r.curnt = state))) := by
  have hinj : Function.Injective f := by
    intro i j hij
    have hlt := (hf i j).not.mp (by rw [hij]; exact lt_irrefl _)
    have hgt := (hf j i).not.mp (by rw [hij]; exact lt_irrefl _)
    cases order
    · exact le_antisymm (not_lt.mp hlt) (not_lt.mp hgt)
    · exact le_antisymm (not_lt.mp hgt) (not_lt.mp hlt)
  refine ⟨?_, ?_⟩
  · intro i blob
    have hafter : ∀ j, beyond (start.map f) (f j) = true ↔ After order start j := by
      intro j
      cases start with
      | none => exact iff_of_true rfl fun s hs => absurd hs (Option.not_mem_none s)
      | some s =>
        rw [Option.map_some, beyond_some, hf]
        exact ⟨fun hlt s' hs' => Option.some.inj hs' ▸ hlt, fun hall => hall s rfl⟩
    rw [← h.mem_iff k i blob state, toCome, List.mem_map]
    constructor
    · rintro ⟨r, hr, heq⟩
      obtain ⟨hr, hbeyond⟩ := (mem_upcoming _).mp hr
      obtain ⟨hr, hstate⟩ := List.mem_filter.mp hr
      have hidx : r.idx = i := congrArg Prod.fst heq
      exact ⟨⟨r, hr, hidx, congrArg Prod.snd heq, of_decide_eq_true hstate⟩,
        hidx ▸ (hafter r.idx).mp hbeyond⟩
    · rintro ⟨⟨r, hr, rfl, rfl, hstate⟩, hstart⟩
      exact ⟨r, (mem_upcoming _).mpr ⟨List.mem_filter.mpr ⟨hr, decide_eq_true hstate⟩,
        (hafter r.idx).mpr hstart⟩, rfl⟩
  · rw [toCome, List.pairwise_map]
    have hkeyed : Keyed (fun r => f r.idx)
        ((current (client k) T).filter fun r => decide (r.curnt = state)) := by
      have hmap : ((current (client k) T).filter fun r => decide (r.curnt = state)).map
          (fun r => f r.idx) =
          (((current (client k) T).filter fun r => decide (r.curnt = state)).map
            Row.idx).map f := by
        rw [List.map_map]
        rfl
      rw [Keyed, hmap]
      exact ((h.keyed k).filter _).map hinj
    exact (pairwise_upcoming _ hkeyed _).imp fun hlt => (hf _ _).mp hlt

/-- **Each client has a map of its own.**  After every run of separate clients whose keys print
in order, a client that fetches from any start, in either order, is given the entries of its
map that are in the state and come after the start, each once and in order, and then nothing,
however often it asks. -/
theorem fetches_as_maps (hsep : ClientsSeparate client) {es : List (ShareEvent κ ι)}
    (hrising : Rising es)
    (hrun : run (shareStep client) [] es = some T) (k : κ) (order : Bool) (start : Option ι)
    {state : ℤ} (hstate : state ≠ 0) :
    ∃ l, Lists (mapsAfter es k) order start state l ∧
      ∀ n, ask (fetchNext (storeOrder (client k) order) state T) n start =
        (l.take n).map some ++ List.replicate (n - l.length) none := by
  have hdenotes := denotes_of_run hsep hrising hrun
  have hrows := (hdenotes.keyed k).filter fun r => decide (r.curnt = state)
  cases order with
  | true =>
    refine ⟨_, hdenotes.lists (f := id) (fun i j => Iff.rfl) k start state, fun n => ?_⟩
    apply ask_fetchNext Function.injective_id hrows
    intro cur
    rw [storeSelect_eq_nextPage rfl cur hstate, Option.map_id]
    rfl
  | false =>
    refine ⟨_, hdenotes.lists (f := OrderDual.toDual) (fun i j => OrderDual.toDual_lt_toDual) k
      start state, fun n => ?_⟩
    apply ask_fetchNext OrderDual.toDual.injective hrows
    exact fun cur => storeSelect_eq_nextPage_dual rfl cur hstate T

end table

/-! ## The messages and the contacts of alice -/

/-- The clients of alice. -/
def aliceClients (k : Bool) : StoreClient :=
  storeOpen (lit "alice") (if k then byteOf 'm' else byteOf 'c')

/-- Two messages are stored, the first of them twice, and a contact in between. -/
def aliceWrites : List (ShareEvent Bool Text) :=
  [.add true ⟨1400000000, 5⟩ (lit "bob") .nil 3, .add false ⟨1400000000, 6⟩ (lit "bob") .nil 1,
    .add true ⟨1400000001, 0⟩ (lit "carol") .nil 1, .fetch true none 1,
    .add true ⟨1400000002, 0⟩ (lit "bob") .nil 1]

/-- Her messages are the two, each once. -/
theorem fetches_as_maps_alice : ∃ T, run (shareStep aliceClients) [] aliceWrites = some T ∧
    ∃ l, Lists (mapsAfter aliceWrites true) true none 1 l ∧
      ∀ n, ask (fetchNext (storeOrder (aliceClients true) true) 1 T) n none =
        (l.take n).map some ++ List.replicate (n - l.length) none := by
  have hsep : ClientsSeparate aliceClients := by
    unfold ClientsSeparate
    decide +kernel
  have hrising : Rising aliceWrites := by
    intro k i
    by_cases h1 : lit "bob" = i
    · subst h1
      cases k <;> decide
    · by_cases h2 : lit "carol" = i
      · subst h2
        cases k <;> decide
      · simp [addTimes, aliceWrites, h1, h2]
  have hrun : (run (shareStep aliceClients) [] aliceWrites).isSome := rfl
  obtain ⟨T, hT⟩ := Option.isSome_iff_exists.mp hrun
  exact ⟨T, hT, fetches_as_maps hsep hrising hT true true none one_ne_zero⟩

end StoreMaps
