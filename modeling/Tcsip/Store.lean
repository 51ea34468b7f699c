/-
# The blob store

`store.c` keeps the blobs of all modules in one table `blob`.  A client opened for a
login and a letter writes under keys `login/letter/sec.usec` and sees the rows whose
key matches the GLOB pattern `login/letter/*`.  A blob is never changed: a new version
is inserted under the same `idx`, and the rows it replaces lose their `curnt` flag.

The rows a client currently sees (`current`) form a list keyed by `idx`.  As long as the
key of a write is greater than all keys before it, `storeAddState` supersedes an entry
of this list (`current_storeAddState_of_newest`), and the fetch statements page through
it (`storeSelect_eq_nextPage`, `storeSelect_eq_nextPage_dual`).

The column `idx` is declared without a text type, so a text that spells a number is
stored as that number; `ι` is the ordered type of the stored values.
-/
import Tcsip.KeyedList
import Tcsip.Glob
import Tcsip.Msgpack

open KeyedList

/-! ## Clients and keys -/

/-- `struct timeval`. -/
structure Timeval where
  sec : ℤ
  usec : ℤ
  deriving DecidableEq

/-- `struct store_client`, with the login of its store. -/
structure StoreClient where
  login : Text
  letter : CChar
  order : Bool
  deriving DecidableEq

/-- `store_open`. -/
def storeOpen (login : Text) (letter : CChar) : StoreClient :=
  { login := login, letter := letter, order := false }

/-- `store_order`. -/
def storeOrder (c : StoreClient) (val : Bool) : StoreClient := { c with order := val }

/-- `stc->prefix`, printed by `"%s/%c"`. -/
def StoreClient.keyPrefix (c : StoreClient) : Text := c.login ++ [byteOf '/', c.letter]

/-- `stc->key_glob`, printed by `"%s/%c/*"`. -/
def StoreClient.keyGlob (c : StoreClient) : Text :=
  c.login ++ [byteOf '/', c.letter, byteOf '/', byteOf '*']

/-- `store_key` at the time `now`, printed by `"%s/%d.%d"`. -/
def storeKey (c : StoreClient) (now : Timeval) : Text :=
  c.keyPrefix ++ byteOf '/' :: (fmtD now.sec ++ byteOf '.' :: fmtD now.usec)

/-- `blob_key GLOB key_glob`. -/
def StoreClient.owns (c : StoreClient) (key : Text) : Bool := globMatch c.keyGlob key

/-- The keys of a client match its pattern, unless the login or the letter opens a set. -/
theorem owns_storeKey {c : StoreClient} (hlogin : byteOf '[' ∉ c.login)
    (hletter : c.letter ≠ byteOf '[') (now : Timeval) : c.owns (storeKey c now) = true := by
  have hkey : byteOf '[' ∉ c.keyPrefix := by
    simp only [StoreClient.keyPrefix, List.mem_append, List.mem_cons, List.not_mem_nil,
      or_false, not_or]
    exact ⟨hlogin, by decide, hletter.symm⟩
  have hglob : c.keyGlob = c.keyPrefix ++ [byteOf '/', byteOf '*'] := by
    simp [StoreClient.keyGlob, StoreClient.keyPrefix]
  rw [StoreClient.owns, hglob]
  exact globMatch_self hkey _

/-- The seconds of `t` print smaller than those of `t'`, or they print alike and the
microseconds print smaller.  Both are compared digit by digit from the left. -/
def Timeval.PrintsBefore (t t' : Timeval) : Prop :=
  fmtD t.sec < fmtD t'.sec ∨ fmtD t.sec = fmtD t'.sec ∧ fmtD t.usec < fmtD t'.usec

instance (t t' : Timeval) : Decidable (t.PrintsBefore t') :=
  inferInstanceAs (Decidable (_ ∨ _))

/-- **The text order of keys** is the order of the printed times, not that of the
times. -/
theorem storeKey_lt_iff (c : StoreClient) (t t' : Timeval) :
    storeKey c t < storeKey c t' ↔ t.PrintsBefore t' := by
  -- the dot that ends the seconds is smaller than a digit
  have hdot : ∀ d : CChar, IsDigit d → byteOf '.' < d := fun d hd =>
    lt_of_lt_of_le (by decide) hd.1
  obtain ⟨a, s, hs, hsd⟩ := fmtD_eq t.sec
  obtain ⟨b, s', hs', hsd'⟩ := fmtD_eq t'.sec
  rw [storeKey, storeKey, append_lt_append_iff, List.cons_lt_cons_iff, Timeval.PrintsBefore]
  simp only [lt_irrefl, true_and, false_or]
  rw [hs, hs', List.cons_append, List.cons_append, List.cons_lt_cons_iff,
    List.cons_lt_cons_iff, List.cons.injEq,
    field_lt_field_iff (fun d hd => hdot d (hsd d hd)) (fun d hd => hdot d (hsd' d hd)),
    and_or_left, ← and_assoc, or_assoc]

/-! ## The table -/

variable {ι β : Type}

/-- A row of the table `blob`. -/
structure Row (ι β : Type) where
  blobKey : Text
  idx : ι
  blob : β
  curnt : ℤ
  deriving DecidableEq

/-- The rows of the client that are not obsolete. -/
def current (c : StoreClient) (T : List (Row ι β)) : List (Row ι β) :=
  T.filter fun r => c.owns r.blobKey && decide (r.curnt ≠ 0)

@[simp] theorem mem_current {c : StoreClient} {T : List (Row ι β)} {r : Row ι β} :
    r ∈ current c T ↔ r ∈ T ∧ c.owns r.blobKey = true ∧ r.curnt ≠ 0 := by
  simp [current]

/-- The rows in one state are current. -/
theorem filter_state_eq (c : StoreClient) {state : ℤ} (hstate : state ≠ 0)
    (T : List (Row ι β)) :
    (T.filter fun r => c.owns r.blobKey && decide (r.curnt = state))
      = (current c T).filter fun r => decide (r.curnt = state) := by
  rw [current, List.filter_filter]
  apply List.filter_congr
  intro r _
  by_cases hs : r.curnt = state
  · simp [hs, hstate]
  · simp [hs]

/-- Rows that all are in one state are not filtered by it. -/
theorem filter_state_self {c : StoreClient} {state : ℤ} {T : List (Row ι β)}
    (h : ∀ r ∈ current c T, r.curnt = state) :
    ((current c T).filter fun r => decide (r.curnt = state)) = current c T := by
  rw [List.filter_eq_self]
  intro r hr
  exact decide_eq_true (h r hr)

/-- A client sees no more rows than the table has. -/
theorem length_filter_current_le (c : StoreClient) (T : List (Row ι β)) (p : Row ι β → Bool) :
    ((current c T).filter p).length ≤ T.length :=
  (List.length_filter_le _ _).trans (List.length_filter_le _ _)

variable [LinearOrder ι]

/-- `store_obsolete`: the rows of the client with this `idx` and a smaller key lose
their `curnt` flag. -/
def storeObsolete (c : StoreClient) (key : Text) (idx : ι) (T : List (Row ι β)) :
    List (Row ι β) :=
  T.map fun r =>
    if r.idx = idx ∧ c.owns r.blobKey = true ∧ r.blobKey < key then { r with curnt := 0 } else r

/-- `store_add_state`. -/
def storeAddState (c : StoreClient) (key : Text) (idx : ι) (blob : β) (state : ℤ)
    (T : List (Row ι β)) : List (Row ι β) :=
  storeObsolete c key idx (T ++ [{ blobKey := key, idx := idx, blob := blob, curnt := state }])

/-- `store_add`. -/
def storeAdd (c : StoreClient) (key : Text) (idx : ι) (blob : β) (T : List (Row ι β)) :
    List (Row ι β) :=
  storeAddState c key idx blob 1 T

/-- The four statements of `store_fetch_state`: the first row of the client in this state,
in the client's order, after the start `idx` if there is one. -/
def storeSelect (c : StoreClient) (start : Option ι) (state : ℤ) (T : List (Row ι β)) :
    Option (Row ι β) :=
  let rows := T.filter fun r => c.owns r.blobKey && decide (r.curnt = state)
  match c.order, start with
  | true, some i => (rows.filter fun r => decide (i < r.idx)).argmin Row.idx
  | true, none => rows.argmin Row.idx
  | false, some i => (rows.filter fun r => decide (r.idx < i)).argmax Row.idx
  | false, none => rows.argmax Row.idx

/-- `store_blob_parse`: the elements that `parse` makes of the items of the packed
array. -/
def storeBlobParse {α : Type} (parse : List Obj → Option α) (blob : Obj) : List α :=
  (blob.elems.getD []).filterMap fun item => item.elems.bind parse

/-- `store_fetch_state`. -/
def storeFetchState {α : Type} (c : StoreClient) (start : Option ι)
    (parse : List Obj → Option α) (state : ℤ) (T : List (Row ι Obj)) : Option (List α) :=
  (storeSelect c start state T).map fun r => storeBlobParse parse r.blob

/-- `store_fetch`. -/
def storeFetch {α : Type} (c : StoreClient) (start : Option ι)
    (parse : List Obj → Option α) (T : List (Row ι Obj)) : Option (List α) :=
  storeFetchState c start parse 1 T

/-! ## What a write and a fetch do to the rows a client sees -/

/-- The rows left by `store_obsolete` are those it does not hit. -/
theorem current_storeObsolete (c : StoreClient) (key : Text) (idx : ι)
    (T : List (Row ι β)) :
    current c (storeObsolete c key idx T)
      = (current c T).filter fun r => !decide (r.idx = idx ∧ r.blobKey < key) := by
  induction T with
  | nil => rfl
  | cons r T ih =>
    have hcons : storeObsolete c key idx (r :: T)
        = (if r.idx = idx ∧ c.owns r.blobKey = true ∧ r.blobKey < key
            then { r with curnt := 0 } else r) :: storeObsolete c key idx T := rfl
    rw [hcons]
    by_cases hhit : r.idx = idx ∧ c.owns r.blobKey = true ∧ r.blobKey < key
    · -- a row that is hit is current neither in the new table nor among the spared ones
      rw [if_pos hhit, current, List.filter_cons_of_neg (by simp), ← current, ih]
      by_cases hcur : r.curnt ≠ 0
      · rw [current, current, List.filter_cons_of_pos (by simp [hhit.2.1, hcur]),
          List.filter_cons_of_neg (by simp [hhit.1, hhit.2.2])]
      · rw [current, current, List.filter_cons_of_neg (by simpa using fun _ => hcur)]
    · rw [if_neg hhit]
      by_cases hcur : c.owns r.blobKey = true ∧ r.curnt ≠ 0
      · have hspared : ¬ (r.idx = idx ∧ r.blobKey < key) := fun h =>
          hhit ⟨h.1, hcur.1, h.2⟩
        rw [current, current, List.filter_cons_of_pos (by simpa using hcur),
          List.filter_cons_of_pos (by simpa using hcur),
          List.filter_cons_of_pos (by rw [decide_eq_false hspared]; rfl), ← current, ih, current]
      · rw [current, current, List.filter_cons_of_neg (by simpa using hcur),
          List.filter_cons_of_neg (by simpa using hcur), ← current, ih, current]

/-- **What a write leaves current**: the rows it does not obsolete, and its own row. -/
theorem current_storeAddState (c : StoreClient) (key : Text) (idx : ι) (blob : β)
    (state : ℤ) (T : List (Row ι β)) :
    current c (storeAddState c key idx blob state T)
      = ((current c T).filter fun r => !decide (r.idx = idx ∧ r.blobKey < key)) ++
        (if c.owns key = true ∧ state ≠ 0
          then [{ blobKey := key, idx := idx, blob := blob, curnt := state }] else []) := by
  rw [storeAddState, current_storeObsolete, current, List.filter_append, List.filter_append,
    ← current]
  congr 1
  by_cases hown : c.owns key = true ∧ state ≠ 0
  · rw [if_pos hown, List.filter_cons_of_pos (by simpa using hown)]
    simp
  · rw [if_neg hown, List.filter_cons_of_neg (by simpa using hown)]
    rfl

/-- **A write with the newest key supersedes.**  If every key of the rows of the client
is smaller, the new row takes the place of the one with its `idx`. -/
theorem current_storeAddState_of_newest [DecidableEq ι] {c : StoreClient} {key : Text}
    {T : List (Row ι β)} (hkey : ∀ r ∈ current c T, r.blobKey < key)
    (hown : c.owns key = true) (idx : ι) (blob : β) {state : ℤ} (hstate : state ≠ 0) :
    current c (storeAddState c key idx blob state T)
      = supersede Row.idx { blobKey := key, idx := idx, blob := blob, curnt := state }
          (current c T) := by
  rw [current_storeAddState, if_pos ⟨hown, hstate⟩, supersede, others]
  congr 1
  apply List.filter_congr
  intro r hr
  rw [Bool.eq_iff_iff]
  simp [hkey r hr]

/-- **A write under a new `idx`** only adds its row. -/
theorem current_storeAdd_of_fresh {c : StoreClient} {idx : ι} {T : List (Row ι β)}
    (hidx : ∀ r ∈ current c T, r.idx ≠ idx) (key : Text) (blob : β) :
    current c (storeAdd c key idx blob T)
      = current c T ++
        [{ blobKey := key, idx := idx, blob := blob, curnt := 1 }].filter
          fun r => c.owns r.blobKey := by
  have hkeep : (current c T).filter (fun r => !decide (r.idx = idx ∧ r.blobKey < key))
      = current c T := by
    rw [List.filter_eq_self]
    intro r hr
    simp [hidx r hr]
  rw [storeAdd, current_storeAddState, hkeep]
  congr 1
  by_cases hown : c.owns key = true
  · rw [if_pos ⟨hown, one_ne_zero⟩, List.filter_cons_of_pos (by exact hown), List.filter_nil]
  · rw [if_neg (fun h => hown h.1), List.filter_cons_of_neg (by exact hown), List.filter_nil]

/-- The rows of a table after a write. -/
theorem mem_storeAddState {c : StoreClient} {key : Text} {idx : ι} {blob : β} {state : ℤ}
    {T : List (Row ι β)} {r : Row ι β} (h : r ∈ storeAddState c key idx blob state T) :
    (∃ r₀ ∈ T, r.blobKey = r₀.blobKey ∧ r.idx = r₀.idx ∧ r.blob = r₀.blob) ∨
      (r.blobKey = key ∧ r.idx = idx ∧ r.blob = blob) := by
  obtain ⟨r₀, hr₀, heq⟩ := List.mem_map.mp h
  have hsame : r.blobKey = r₀.blobKey ∧ r.idx = r₀.idx ∧ r.blob = r₀.blob := by
    rw [← heq]
    split <;> exact ⟨rfl, rfl, rfl⟩
  rcases List.mem_append.mp hr₀ with hmem | hnew
  · exact Or.inl ⟨r₀, hmem, hsame⟩
  · rw [List.mem_singleton] at hnew
    exact Or.inr (by rw [hnew] at hsame; exact hsame)

/-- What holds of all rows before a write and of its own row holds of all rows after it, if it
is not about the flag. -/
theorem forall_mem_storeAddState {P : Text → ι → β → Prop} {c : StoreClient} {key : Text} {idx : ι}
    {blob : β} {state : ℤ} {T : List (Row ι β)} (hT : ∀ r ∈ T, P r.blobKey r.idx r.blob)
    (hnew : P key idx blob) :
    ∀ r ∈ storeAddState c key idx blob state T, P r.blobKey r.idx r.blob := by
  intro r hr
  rcases mem_storeAddState hr with ⟨r₀, hr₀, hkey, hidx, hblob⟩ | ⟨hkey, hidx, hblob⟩
  · rw [hkey, hidx, hblob]
    exact hT r₀ hr₀
  · rw [hkey, hidx, hblob]
    exact hnew

/-- A write keeps every row that it does not obsolete. -/
theorem mem_storeAddState_of_mem {c : StoreClient} {key : Text} {idx : ι} {blob : β}
    {state : ℤ} {T : List (Row ι β)} {r : Row ι β} (hr : r ∈ T)
    (hhit : ¬ (r.idx = idx ∧ c.owns r.blobKey = true ∧ r.blobKey < key)) :
    r ∈ storeAddState c key idx blob state T := by
  unfold storeAddState storeObsolete
  refine List.mem_map.mpr ⟨r, List.mem_append_left _ hr, ?_⟩
  rw [if_neg hhit]

/-- A write does not obsolete its own row. -/
theorem row_mem_storeAddState (c : StoreClient) (key : Text) (idx : ι) (blob : β)
    (state : ℤ) (T : List (Row ι β)) :
    { blobKey := key, idx := idx, blob := blob, curnt := state }
      ∈ storeAddState c key idx blob state T := by
  unfold storeAddState storeObsolete
  refine List.mem_map.mpr ⟨_, List.mem_append_right _ (List.mem_singleton_self _), ?_⟩
  rw [if_neg (fun h => lt_irrefl _ h.2.2)]

/-- A row that is selected is one of the table that the pattern matches. -/
theorem mem_of_mem_storeSelect {c : StoreClient} {start : Option ι} {state : ℤ}
    {T : List (Row ι β)} {r : Row ι β} (h : r ∈ storeSelect c start state T) :
    r ∈ T ∧ c.owns r.blobKey = true := by
  have hrows : ∀ l : List (Row ι β), l.Sublist
      (T.filter fun r => c.owns r.blobKey && decide (r.curnt = state)) → r ∈ l →
      r ∈ T ∧ c.owns r.blobKey = true := by
    intro l hl hr
    obtain ⟨hmem, hcond⟩ := List.mem_filter.mp (hl.subset hr)
    exact ⟨hmem, (Bool.and_eq_true_iff.mp hcond).1⟩
  unfold storeSelect at h
  dsimp only at h
  split at h
  · exact hrows _ List.filter_sublist (List.argmin_mem h)
  · exact hrows _ (List.Sublist.refl _) (List.argmin_mem h)
  · exact hrows _ List.filter_sublist (List.argmax_mem h)
  · exact hrows _ (List.Sublist.refl _) (List.argmax_mem h)

/-- A write keeps the rows that its pattern does not match, if it is itself none of those that
are looked at. -/
theorem filter_storeAddState {c : StoreClient} {key : Text} {idx : ι} {blob : β} {state : ℤ}
    {T : List (Row ι β)} {p : β → Bool} (hT : ∀ r ∈ T, p r.blob = true → c.owns r.blobKey = false)
    (hnew : p blob = false) :
    (storeAddState c key idx blob state T).filter (fun r => p r.blob) =
      T.filter fun r => p r.blob := by
  have hblob : ∀ r : Row ι β, (if r.idx = idx ∧ c.owns r.blobKey = true ∧ r.blobKey < key
      then { r with curnt := 0 } else r).blob = r.blob := by
    intro r
    split <;> rfl
  unfold storeAddState storeObsolete
  rw [List.map_append, List.filter_append, List.map_singleton, List.filter_cons_of_neg,
    List.filter_nil, List.append_nil, List.filter_map]
  · have hfilter : T.filter ((fun r => p r.blob) ∘ fun r =>
        if r.idx = idx ∧ c.owns r.blobKey = true ∧ r.blobKey < key
          then { r with curnt := 0 } else r) = T.filter fun r => p r.blob := by
      apply List.filter_congr
      intro r _
      exact congrArg p (hblob r)
    rw [hfilter]
    conv_rhs => rw [← List.map_id (T.filter fun r => p r.blob)]
    apply List.map_congr_left
    intro r hr
    obtain ⟨hmem, hp⟩ := List.mem_filter.mp hr
    rw [if_neg, id_eq]
    rintro ⟨-, hown, -⟩
    rw [hT r hmem hp] at hown
    exact Bool.false_ne_true hown
  · rw [hblob, hnew]
    exact Bool.false_ne_true

/-- An ascending client pages through its rows by increasing `idx`. -/
theorem storeSelect_eq_nextPage {c : StoreClient} (hord : c.order = true)
    (start : Option ι) {state : ℤ} (hstate : state ≠ 0) (T : List (Row ι β)) :
    storeSelect c start state T
      = nextPage Row.idx start ((current c T).filter fun r => decide (r.curnt = state)) := by
  simp only [storeSelect, hord, ← filter_state_eq c hstate T, nextPage]
  cases start with
  | none => simp
  | some i => rfl

/-- A descending client pages through its rows by decreasing `idx`. -/
theorem storeSelect_eq_nextPage_dual {c : StoreClient} (hord : c.order = false)
    (start : Option ι) {state : ℤ} (hstate : state ≠ 0) (T : List (Row ι β)) :
    storeSelect c start state T
      = nextPage (fun r => OrderDual.toDual r.idx) (start.map OrderDual.toDual)
          ((current c T).filter fun r => decide (r.curnt = state)) := by
  simp only [storeSelect, hord, ← filter_state_eq c hstate T, nextPage]
  cases start with
  | none => simp only [Option.map_none, beyond_none, List.filter_true]; rfl
  | some i => rfl
