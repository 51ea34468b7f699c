/-
# The contacts

`contacts.c` asks the server for the contact list when the store has none, sorts the
answer by name, cuts it into bundles and stores each bundle under the login of its first
contact.  The first bundle goes to the handler at once and leaves its first login in
`cur_idx`; later fetches walk through the rows by increasing login from there.

Names are compared as arrays of `char`, so the order depends on whether the platform's
`char` is signed.  A bundle holds one contact less than `BUNDLE_SIZE`.

A login that spells a number would be stored as one (see `Tcsip.Store`); here the logins
are texts that do not, and the `idx` of a row is the text itself.
-/
import Tcsip.Chunks
import Tcsip.NeighbourSort
import Tcsip.Store

open Chunks NeighbourSort

/-! ## Contacts and their wire form -/

/-- `struct contact_el`. -/
structure ContactEl where
  login : Option Text
  name : Option Text
  phone : Option Text
  deriving DecidableEq

/-- `ctel_parse`. -/
def ctelParse : List Obj → Option ContactEl
  | login :: name :: phone :: _ => do
    let login ← login.rawBytes
    let name ← name.rawBytes
    let phone ← phone.rawBytes
    some { login := getStr login, name := getStr name, phone := getStr phone }
  | _ => none

/-- `blob_parse`: the answer of the server is a status and the list of contacts.  What does
not unpack to an array with a non-negative status is an empty list. -/
def blobParse : Option Obj → List ContactEl
  | some (.array (.integer status :: contacts :: _)) =>
    if 0 ≤ status then (contacts.elems.getD []).filterMap fun item => item.elems.bind ctelParse
    else []
  | _ => []

/-- `write_contact_el`: a missing field is passed to `strlen`. -/
def writeContactEl (ctel : ContactEl) : Option Obj := do
  let login ← pushCstrLen ctel.login
  let name ← pushCstrLen ctel.name
  let phone ← pushCstrLen ctel.phone
  some (.array [login, name, phone])

/-- The array that `store_contacts` packs. -/
def packContacts (ctlist : List ContactEl) : Option Obj :=
  (ctlist.mapM writeContactEl).map Obj.array

/-! ## The order of the names -/

/-- A byte read as `char`. -/
def charVal (signed : Bool) (c : CChar) : ℤ :=
  if signed then (c.1.1 : ℤ).bmod 256 else c.1.1

/-- The loop of `sort_handler`: the first place where the names differ decides, the
terminator included. -/
def nameBefore (signed : Bool) : Text → Text → Bool
  | [], [] => false
  | [], d :: _ => decide (0 < charVal signed d)
  | c :: _, [] => decide (charVal signed c < 0)
  | c :: s, d :: t =>
    if c ≠ d then decide (charVal signed c < charVal signed d) else nameBefore signed s t

/-- `sort_handler`. -/
def ContactEl.sortHandler (signed : Bool) (cel1 cel2 : ContactEl) : Bool :=
  nameBefore signed (cel1.name.getD []) (cel2.name.getD [])

/-- `list_sort` with this handler.  There is no result when a missing name is compared, or
when the sort never comes to an end. -/
def sortContacts (signed : Bool) (ctlist : List ContactEl) : Option (List ContactEl) :=
  if 2 ≤ ctlist.length ∧ ∃ ctel ∈ ctlist, ctel.name = none then none
  else neighbourSort (ContactEl.sortHandler signed) (ctlist.length * ctlist.length + 1) ctlist

/-! ## The contacts object -/

/-- `struct contacts`, with the table behind its store client; `ch` tells whether a handler
is installed. -/
structure Contacts where
  store : StoreClient
  table : List (Row Text Obj)
  ch : Bool
  curIdx : Option Text

/-- What the module does to its surroundings: it sends a request to the server, or calls
the handler with a list. -/
inductive ContactsOut where
  | request
  | handler (bulk : Option (List ContactEl))

/-- `contacts_alloc`. -/
def contactsAlloc (stc : StoreClient) (table : List (Row Text Obj)) : Contacts :=
  { store := storeOrder stc true, table := table, ch := false, curIdx := none }

/-- `contacts_handler`. -/
def contactsHandler (ct : Contacts) : Contacts := { ct with ch := true }

/-- `cur_idx`. -/
def curIdx (ct : Contacts) (list : List ContactEl) : Contacts :=
  match list with
  | [] => ct
  | ctel :: _ => { ct with curIdx := ctel.login }

@[simp] theorem curIdx_store (ct : Contacts) (list : List ContactEl) :
    (curIdx ct list).store = ct.store := by
  cases list <;> rfl

@[simp] theorem curIdx_table (ct : Contacts) (list : List ContactEl) :
    (curIdx ct list).table = ct.table := by
  cases list <;> rfl

/-- `store_contacts` with the key that `store_key` gave. -/
def storeContacts (ct : Contacts) (key : Text) (ctlist : List ContactEl) : Option Contacts :=
  match ctlist with
  | [] => some ct
  | ctel :: _ => do
    let blob ← packContacts ctlist
    let idx ← ctel.login
    some { ct with table := storeAdd ct.store key idx blob ct.table }

/-- `do_slice` for each element of the list: the list is cut before the element at which
the limit is used up. -/
def doSlice {α : Type} : ℕ → List α → List α × List α
  | _, [] => ([], [])
  | limit, le :: l =>
    if 0 < limit - 1 then
      let r := doSlice (limit - 1) l
      (le :: r.1, r.2)
    else ([], le :: l)

/-- `BUNDLE_SIZE`. -/
def bundleSize : ℕ := 30

/-- The loop of `http_ct_done`.  `cb` tells whether the handler is still to be called, and
the `k`-th bundle is stored at the time `times k`. -/
def bundleLoop (times : ℕ → Timeval) :
    ℕ → ℕ → Bool → List ContactEl → Contacts → Option (Contacts × List ContactsOut)
  | _, _, _, [], ct => some (ct, [])
  | 0, _, _, _ :: _, _ => none
  | n + 1, k, cb, le :: l, ct => do
    let (head, tail) := doSlice bundleSize (le :: l)
    let tell := cb && ct.ch
    -- the first bundle sets the cursor before it is stored
    let ct ← storeContacts (if tell then curIdx ct head else ct) (storeKey ct.store (times k)) head
    let (ct, outs) ← bundleLoop times n (k + 1) (cb && !tell) tail ct
    some (ct, (if tell then [.handler (some head)] else []) ++ outs)

/-- `http_ct_done` for an answer with this code and body. -/
def httpCtDone (signed : Bool) (times : ℕ → Timeval) (code : ℤ) (body : Option Obj)
    (ct : Contacts) : Option (Contacts × List ContactsOut) :=
  if code = 200 then do
    let ctlist ← sortContacts signed (blobParse body)
    bundleLoop times ctlist.length 0 true ctlist ct
  else some (ct, [])

/-- `contacts_fetch`. -/
def contactsFetch (ct : Contacts) : Contacts × List ContactsOut :=
  match storeFetch ct.store ct.curIdx ctelParse ct.table, ct.curIdx with
  | none, none => (ct, [.request])
  | bulk, _ => (curIdx ct (bulk.getD []), if ct.ch then [.handler bulk] else [])

/-! ## Contacts with all their fields -/

/-- No field is missing or empty. -/
def ContactEl.Filled (ctel : ContactEl) : Prop :=
  ctel.login.getD [] ≠ [] ∧ ctel.name.getD [] ≠ [] ∧ ctel.phone.getD [] ≠ []

instance (ctel : ContactEl) : Decidable ctel.Filled := inferInstanceAs (Decidable (_ ∧ _))

/-- What a contact is packed as. -/
def ContactEl.obj (ctel : ContactEl) : Obj :=
  .array [.raw (bytes (ctel.login.getD [])), .raw (bytes (ctel.name.getD [])),
    .raw (bytes (ctel.phone.getD []))]

/-- A field that is not empty is a text. -/
theorem eq_some_getD {t : Option Text} (h : t.getD [] ≠ []) : t = some (t.getD []) := by
  cases t with
  | none => exact absurd rfl h
  | some t => rfl

theorem writeContactEl_of_filled {ctel : ContactEl} (h : ctel.Filled) :
    writeContactEl ctel = some ctel.obj := by
  obtain ⟨hlogin, hname, hphone⟩ := h
  unfold writeContactEl ContactEl.obj
  rw [eq_some_getD hlogin, eq_some_getD hname, eq_some_getD hphone]
  rfl

theorem packContacts_of_filled {ctlist : List ContactEl} (h : ∀ ctel ∈ ctlist, ctel.Filled) :
    packContacts ctlist = some (.array (ctlist.map ContactEl.obj)) := by
  have hitems : ctlist.mapM writeContactEl = some (ctlist.map ContactEl.obj) :=
    mapM_eq_some_map fun ctel hctel => writeContactEl_of_filled (h ctel hctel)
  rw [packContacts, hitems, Option.map_some]

/-- **Round trip of a contact.** -/
theorem ctelParse_obj {ctel : ContactEl} (h : ctel.Filled) :
    ctel.obj.elems.bind ctelParse = some ctel := by
  obtain ⟨hlogin, hname, hphone⟩ := h
  show some (ContactEl.mk (getStr (bytes (ctel.login.getD [])))
    (getStr (bytes (ctel.name.getD []))) (getStr (bytes (ctel.phone.getD [])))) = some ctel
  rw [getStr_bytes, getStr_bytes, getStr_bytes, if_neg hlogin, if_neg hname, if_neg hphone,
    ← eq_some_getD hlogin, ← eq_some_getD hname, ← eq_some_getD hphone]

/-- **Round trip of a bundle.** -/
theorem storeBlobParse_obj {ctlist : List ContactEl} (h : ∀ ctel ∈ ctlist, ctel.Filled) :
    storeBlobParse ctelParse (.array (ctlist.map ContactEl.obj)) = ctlist := by
  show (ctlist.map ContactEl.obj).filterMap (fun item => item.elems.bind ctelParse) = ctlist
  induction ctlist with
  | nil => rfl
  | cons ctel ctlist ih =>
      rw [List.map_cons, List.filterMap_cons, ctelParse_obj (h ctel List.mem_cons_self),
        ih fun x hx => h x (List.mem_cons_of_mem _ hx)]

/-! ## Contacts in name order -/

/-- What `sort_handler` compares: the chars of the name and its terminator. -/
def ContactEl.nameKey (signed : Bool) (ctel : ContactEl) : List ℤ :=
  (ctel.name.getD []).map (charVal signed) ++ [0]

/-- Bytes that are the same signed number are the same. -/
theorem bmod_inj {n m : ℕ} (hn : n < 256) (hm : m < 256)
    (h : (n : ℤ).bmod 256 = (m : ℤ).bmod 256) : n = m := by
  rw [Int.bmod_def, Int.bmod_def] at h
  split at h <;> split at h <;> omega

theorem charVal_injective (signed : Bool) : Function.Injective (charVal signed) := by
  intro c d h
  refine Subtype.ext (Fin.ext ?_)
  unfold charVal at h
  cases signed with
  | false =>
      rw [if_neg Bool.false_ne_true, if_neg Bool.false_ne_true] at h
      exact Int.ofNat_inj.mp h
  | true =>
      rw [if_pos rfl, if_pos rfl] at h
      exact bmod_inj c.1.2 d.1.2 h

theorem charVal_ne_zero (signed : Bool) (c : CChar) : charVal signed c ≠ 0 := by
  have hzero : c.1.1 ≠ 0 := fun h => c.2 (Fin.ext h)
  intro h
  unfold charVal at h
  cases signed with
  | false =>
      rw [if_neg Bool.false_ne_true] at h
      exact hzero (Int.ofNat_eq_zero.mp h)
  | true =>
      rw [if_pos rfl] at h
      exact hzero (bmod_inj c.1.2 (by norm_num) (h.trans Int.zero_bmod.symm))

theorem nameBefore_iff (signed : Bool) (s t : Text) :
    nameBefore signed s t = true
      ↔ s.map (charVal signed) ++ [0] < t.map (charVal signed) ++ [0] := by
  induction s generalizing t with
  | nil =>
      cases t with
      | nil => simp [nameBefore]
      | cons d t =>
          have hd := charVal_ne_zero signed d
          simp [nameBefore, List.cons_lt_cons_iff, hd.symm]
  | cons c s ih =>
      cases t with
      | nil =>
          have hc := charVal_ne_zero signed c
          simp [nameBefore, List.cons_lt_cons_iff, hc]
      | cons d t =>
          rw [nameBefore, List.map_cons, List.map_cons, List.cons_append, List.cons_append,
            List.cons_lt_cons_iff]
          -- the first place where the names differ decides
          by_cases hcd : c = d
          · rw [if_neg (not_not.mpr hcd), ih, hcd]
            simp
          · have hne : charVal signed c ≠ charVal signed d :=
              fun h => hcd (charVal_injective signed h)
            rw [if_pos hcd]
            simp [hne]

theorem ContactEl.sortHandler_iff (signed : Bool) (x y : ContactEl) :
    x.sortHandler signed y = true ↔ x.nameKey signed < y.nameKey signed :=
  nameBefore_iff signed _ _

/-- The contacts in name order. -/
def byName (signed : Bool) (ctlist : List ContactEl) : List ContactEl :=
  ctlist.insertionSort fun x y => x.nameKey signed ≤ y.nameKey signed

theorem byName_perm (signed : Bool) (ctlist : List ContactEl) :
    (byName signed ctlist).Perm ctlist :=
  List.perm_insertionSort _ ctlist

/-- Different names have different keys. -/
theorem nodup_nameKey (signed : Bool) {ctlist : List ContactEl}
    (h : (ctlist.map fun ctel => ctel.name.getD []).Nodup) :
    (ctlist.map (ContactEl.nameKey signed)).Nodup := by
  have hinj : Function.Injective fun t : Text => t.map (charVal signed) ++ [(0 : ℤ)] :=
    fun s t hst => List.map_injective_iff.mpr (charVal_injective signed)
      (List.append_cancel_right hst)
  have hmap := h.map hinj
  rwa [List.map_map] at hmap

/-- **The sort returns the contacts in name order** if their names are distinct. -/
theorem sortContacts_eq_byName (signed : Bool) {ctlist : List ContactEl}
    (hfilled : ∀ ctel ∈ ctlist, ctel.Filled)
    (hnames : (ctlist.map fun ctel => ctel.name.getD []).Nodup) :
    sortContacts signed ctlist = some (byName signed ctlist) := by
  have hno : ¬ (2 ≤ ctlist.length ∧ ∃ ctel ∈ ctlist, ctel.name = none) := by
    rintro ⟨-, ctel, hctel, hnone⟩
    exact (hfilled ctel hctel).2.1 (by rw [hnone]; rfl)
  obtain ⟨sorted, hsorted⟩ := neighbourSort_of_nodup _ (ContactEl.sortHandler_iff signed)
    (nodup_nameKey signed hnames)
  obtain ⟨hperm, hlt⟩ := neighbourSort_sorted _ (ContactEl.sortHandler_iff signed) hsorted
  rw [sortContacts, if_neg hno, hsorted, Option.some.injEq]
  -- two lists of the same contacts in the order of their keys are the same list
  refine List.Perm.eq_of_pairwise ?_ (hlt.imp fun h => le_of_lt h)
    (List.pairwise_insertionSort _ ctlist) (hperm.trans (byName_perm signed ctlist).symm)
  intro x y hx hy hxy hyx
  exact List.inj_on_of_nodup_map (nodup_nameKey signed hnames) (hperm.mem_iff.mp hx)
    ((byName_perm signed ctlist).mem_iff.mp hy) (le_antisymm hxy hyx)

/-! ## When the sort comes to an end -/

theorem ContactEl.nameKey_inj (signed : Bool) {x y : ContactEl} :
    x.nameKey signed = y.nameKey signed ↔ x.name.getD [] = y.name.getD [] :=
  ⟨fun h => List.map_injective_iff.mpr (charVal_injective signed) (List.append_cancel_right h),
    fun h => by rw [ContactEl.nameKey, h, ContactEl.nameKey]⟩

/-- Names that are there are distinct exactly when their keys are. -/
theorem nodup_nameKey_iff (signed : Bool) {ctlist : List ContactEl}
    (hnames : ∀ ctel ∈ ctlist, ctel.name ≠ none) :
    (ctlist.map (ContactEl.nameKey signed)).Nodup ↔ (ctlist.map ContactEl.name).Nodup := by
  rw [List.Nodup, List.Nodup, List.pairwise_map, List.pairwise_map]
  refine List.Pairwise.iff_of_mem fun {x y} hx hy =>
    not_congr ((ContactEl.nameKey_inj signed).trans ?_)
  obtain ⟨s, hs⟩ := Option.ne_none_iff_exists'.mp (hnames x hx)
  obtain ⟨t, ht⟩ := Option.ne_none_iff_exists'.mp (hnames y hy)
  rw [hs, ht, Option.some.injEq, Option.getD_some, Option.getD_some]

theorem sortContacts_perm {signed : Bool} {ctlist sorted : List ContactEl}
    (h : sortContacts signed ctlist = some sorted) : sorted.Perm ctlist := by
  unfold sortContacts at h
  split at h
  · exact absurd h (by simp)
  · exact (neighbourSort_spec _ h).1

/-- **When the sort returns**: there are not two contacts, or all names are there and no two
of them are the same. -/
theorem exists_sortContacts_iff (signed : Bool) (ctlist : List ContactEl) :
    (∃ sorted, sortContacts signed ctlist = some sorted) ↔ ctlist.length ≤ 1 ∨
      (∀ ctel ∈ ctlist, ctel.name ≠ none) ∧ (ctlist.map ContactEl.name).Nodup := by
  by_cases hnames : ∀ ctel ∈ ctlist, ctel.name ≠ none
  · have hno : ¬ (2 ≤ ctlist.length ∧ ∃ ctel ∈ ctlist, ctel.name = none) := by
      rintro ⟨-, ctel, hctel, hnone⟩
      exact hnames ctel hctel hnone
    have hsmall : ctlist.length ≤ 1 → (ctlist.map ContactEl.name).Nodup := by
      intro hlen
      match ctlist with
      | [] => exact List.nodup_nil
      | [_] => exact List.nodup_singleton _
      | _ :: _ :: _ => exact absurd hlen (by simp)
    have hor : ctlist.length ≤ 1 ∨
        (∀ ctel ∈ ctlist, ctel.name ≠ none) ∧ (ctlist.map ContactEl.name).Nodup ↔
          (ctlist.map ContactEl.name).Nodup :=
      ⟨fun h => h.elim hsmall And.right, fun h => Or.inr ⟨hnames, h⟩⟩
    rw [sortContacts, if_neg hno, hor, ← nodup_nameKey_iff signed hnames]
    constructor
    · rintro ⟨sorted, hsort⟩
      exact (neighbourSort_terminates_iff _ (ContactEl.sortHandler_iff signed) ctlist).mp
        ⟨_, sorted, hsort⟩
    · exact neighbourSort_of_nodup _ (ContactEl.sortHandler_iff signed)
  · rw [or_iff_left fun h => hnames h.1]
    simp only [not_forall, not_not] at hnames
    obtain ⟨ctel, hctel, hnone⟩ := hnames
    unfold sortContacts
    by_cases hlen : ctlist.length ≤ 1
    · rw [if_neg fun h => absurd h.1 (by omega)]
      refine iff_of_true ?_ hlen
      match ctlist with
      | [] => exact ⟨_, rfl⟩
      | [_] => exact ⟨_, rfl⟩
      | _ :: _ :: _ => exact absurd hlen (by simp)
    · rw [if_pos ⟨by omega, ctel, hctel, hnone⟩]
      exact iff_of_false (fun ⟨_, h⟩ => absurd h (by simp)) hlen

/-- **The handler and its sort.**  Two contacts are accepted in one of the two orders exactly
when their names differ, so `list_sort` comes to an end, with the contacts ordered by name,
exactly when the names are pairwise distinct. -/
theorem sortHandler_sorts_iff (signed : Bool) {ctlist : List ContactEl}
    (hnames : ∀ ctel ∈ ctlist, ctel.name ≠ none) :
    ((∃ n sorted, neighbourSort (ContactEl.sortHandler signed) n ctlist = some sorted ∧
        sorted.Perm ctlist ∧
        sorted.Pairwise fun x y => x.nameKey signed ≤ y.nameKey signed)
      ↔ (ctlist.map ContactEl.name).Nodup) ∧
    (∀ x y : ContactEl, (x.sortHandler signed y = true ∨ y.sortHandler signed x = true)
      ↔ x.name.getD [] ≠ y.name.getD []) ∧
    ∀ x y z : ContactEl, x.sortHandler signed y = true → y.sortHandler signed z = true →
      x.sortHandler signed z = true := by
  refine ⟨?_, ?_, ?_⟩
  · rw [← nodup_nameKey_iff signed hnames,
      ← neighbourSort_terminates_iff _ (ContactEl.sortHandler_iff signed) ctlist]
    constructor
    · rintro ⟨n, sorted, hsort, -⟩
      exact ⟨n, sorted, hsort⟩
    · rintro ⟨n, sorted, hsort⟩
      obtain ⟨hperm, hlt⟩ := neighbourSort_sorted _ (ContactEl.sortHandler_iff signed) hsort
      exact ⟨n, sorted, hsort, hperm, hlt.imp fun h => le_of_lt h⟩
  · intro x y
    rw [ContactEl.sortHandler_iff, ContactEl.sortHandler_iff]
    exact lt_or_lt_iff_ne.trans (not_congr (ContactEl.nameKey_inj signed))
  · intro x y z hxy hyz
    rw [ContactEl.sortHandler_iff] at hxy hyz ⊢
    exact lt_trans hxy hyz

/-- Two contacts of the same name. -/
def twoNamesakes : List ContactEl :=
  [{ login := some (lit "ann1"), name := some (lit "Ann"), phone := some (lit "112") },
    { login := some (lit "ann2"), name := some (lit "Ann"), phone := some (lit "113") }]

/-- Of two contacts with different names the answer of the server can be sorted. -/
theorem sortHandler_sorts_two :
    let ctlist : List ContactEl :=
      [{ login := some (lit "bob"), name := some (lit "Bob"), phone := some (lit "112") },
        { login := some (lit "ann"), name := some (lit "Ann"), phone := some (lit "113") }]
    ((∃ n sorted, neighbourSort (ContactEl.sortHandler true) n ctlist = some sorted ∧
        sorted.Perm ctlist ∧
        sorted.Pairwise fun x y => x.nameKey true ≤ y.nameKey true)
      ↔ (ctlist.map ContactEl.name).Nodup) ∧
    (∀ x y : ContactEl, (x.sortHandler true y = true ∨ y.sortHandler true x = true)
      ↔ x.name.getD [] ≠ y.name.getD []) ∧
    ∀ x y z : ContactEl, x.sortHandler true y = true → y.sortHandler true z = true →
      x.sortHandler true z = true :=
  sortHandler_sorts_iff true (by decide)

/-- An answer with two namesakes is swapped for ever, and the handler accepts them in
neither order. -/
theorem namesakes_never_sorted :
    blobParse (some (.array [.integer 0, .array (twoNamesakes.map ContactEl.obj)]))
        = twoNamesakes ∧
      (∀ ctel ∈ twoNamesakes, ctel.name ≠ none) ∧
      (∀ signed n, neighbourSort (ContactEl.sortHandler signed) n twoNamesakes = none) ∧
      ∀ signed, ∀ x ∈ twoNamesakes, ∀ y ∈ twoNamesakes, x.sortHandler signed y = false := by
  refine ⟨by decide, by decide, fun signed n => ?_, by decide⟩
  rw [Option.eq_none_iff_forall_ne_some]
  intro sorted hsort
  have hnodup := (neighbourSort_terminates_iff _ (ContactEl.sortHandler_iff signed) _).mp
    ⟨n, sorted, hsort⟩
  revert hnodup
  cases signed <;> decide
