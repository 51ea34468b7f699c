/-
# Paging through the contacts

The answer of the server is delivered in two ways: its first bundle goes to the handler
at once, the others wait in the store until `contacts_fetch` comes to their rows.  Bundles
are cut in the order of the names, rows are walked through in the order of the logins.  A
bundle is reached exactly when its first login lies beyond the first login of all, which
is where the cursor starts (`contactsPaging_iff`).
-/
import Tcsip.Contacts

open Chunks KeyedList NeighbourSort

/-- The contacts of the server: there are some, with all fields, and with pairwise distinct
logins and names. -/
structure ServerContacts (cts : List ContactEl) : Prop where
  ne_nil : cts ≠ []
  filled : ∀ ctel ∈ cts, ctel.Filled
  logins : (cts.map fun ctel => ctel.login.getD []).Nodup
  names : (cts.map fun ctel => ctel.name.getD []).Nodup

/-- Every contact that stands at a multiple of 29 in name order, but for the first one, has
a greater login than the first one, and its bundle is stored under a key that matches the
pattern of the client. -/
def LaterAhead (signed : Bool) (c : StoreClient) (times : ℕ → Timeval)
    (cts : List ContactEl) : Prop :=
  ∀ first ∈ (byName signed cts).head?, ∀ k, ∀ ctel ∈ (byName signed cts)[29 * (k + 1)]?,
    first.login.getD [] < ctel.login.getD [] ∧ c.owns (storeKey c (times (k + 1))) = true

/-- A fetch as the handler sees it: a list with some contacts, or an empty result. -/
def nextContacts (ct : Contacts) : Option (Contacts × Option (List ContactEl)) :=
  match contactsFetch ct with
  | (ct, [.handler (some (ctel :: bulk))]) => some (ct, some (ctel :: bulk))
  | (ct, _) => some (ct, none)

/-- `contacts_fetch` until it delivers an empty result, at most `n` times. -/
def contactsPages (n : ℕ) (ct : Contacts) : Option (List (List ContactEl)) :=
  drain nextContacts n ct

/-! ## The rows of the bundles -/

/-- The login of the first contact of a bundle. -/
def headLogin : List ContactEl → Text
  | [] => []
  | ctel :: _ => ctel.login.getD []

/-- The row of a bundle and its number. -/
def bundleRow (c : StoreClient) (times : ℕ → Timeval) (p : List ContactEl × ℕ) : Row Text Obj :=
  { blobKey := storeKey c (times p.2), idx := headLogin p.1,
    blob := .array (p.1.map ContactEl.obj), curnt := 1 }

/-- The rows of these contacts, cut into at most `n` bundles that are numbered from `k` on. -/
def bundleRows (c : StoreClient) (times : ℕ → Timeval) (n k : ℕ) (l : List ContactEl) :
    List (Row Text Obj) :=
  ((chunks 29 n l).zipIdx k).map (bundleRow c times)

/-- Write a row. -/
def addRow (c : StoreClient) (T : List (Row Text Obj)) (r : Row Text Obj) :
    List (Row Text Obj) :=
  storeAdd c r.blobKey r.idx r.blob T

/-- The contacts in a row. -/
def Row.contacts (r : Row Text Obj) : List ContactEl := storeBlobParse ctelParse r.blob

/-- The cut comes after one element less than the limit. -/
theorem doSlice_succ {α : Type} (n : ℕ) (l : List α) :
    doSlice (n + 1) l = (l.take n, l.drop n) := by
  induction n generalizing l with
  | zero =>
      cases l with
      | nil => rfl
      | cons a l => rfl
  | succ n ih =>
      cases l with
      | nil => rfl
      | cons a l =>
          rw [doSlice, Nat.add_sub_cancel, if_pos (Nat.succ_pos n), ih]
          rfl

/-- A bundle with all fields is written as its row. -/
theorem storeContacts_of_filled (ct : Contacts) {b : List ContactEl} (hne : b ≠ [])
    (hb : ∀ ctel ∈ b, ctel.Filled) (times : ℕ → Timeval) (k : ℕ) :
    storeContacts ct (storeKey ct.store (times k)) b
      = some { ct with table := addRow ct.store ct.table (bundleRow ct.store times (b, k)) } := by
  cases b with
  | nil => exact absurd rfl hne
  | cons ctel b =>
      obtain ⟨login, hlogin⟩ : ∃ login, ctel.login = some login :=
        ⟨_, eq_some_getD (hb ctel List.mem_cons_self).1⟩
      unfold storeContacts addRow bundleRow headLogin
      rw [packContacts_of_filled hb]
      dsimp only
      rw [hlogin]
      rfl

/-! ## What the loop does -/

section loop

variable {times : ℕ → Timeval} {n : ℕ} {l : List ContactEl}

theorem bundleRows_cons (c : StoreClient) (times : ℕ → Timeval) (n k : ℕ) (ctel : ContactEl)
    (l : List ContactEl) :
    bundleRows c times (n + 1) k (ctel :: l)
      = bundleRow c times ((ctel :: l).take 29, k) ::
        bundleRows c times n (k + 1) ((ctel :: l).drop 29) := rfl

/-- A round of the loop cuts off a bundle and writes its row. -/
theorem bundleLoop_cons {ctel : ContactEl} (hfilled : ∀ x ∈ ctel :: l, x.Filled) (k : ℕ)
    (cb : Bool) (ct : Contacts) :
    bundleLoop times (n + 1) k cb (ctel :: l) ct
      = (bundleLoop times n (k + 1) (cb && !(cb && ct.ch)) ((ctel :: l).drop 29)
          { (if cb && ct.ch then curIdx ct ((ctel :: l).take 29) else ct) with
            table := addRow ct.store ct.table
              (bundleRow ct.store times ((ctel :: l).take 29, k)) }).map
        fun p => (p.1, (if cb && ct.ch then [.handler (some ((ctel :: l).take 29))] else [])
          ++ p.2) := by
  have hne : (ctel :: l).take 29 ≠ [] := by simp
  have hbundle : ∀ x ∈ (ctel :: l).take 29, x.Filled := fun x hx =>
    hfilled x (List.mem_of_mem_take hx)
  rw [bundleLoop, show bundleSize = 29 + 1 from rfl, doSlice_succ]
  dsimp only
  cases htell : cb && ct.ch with
  | false =>
      rw [if_neg Bool.false_ne_true, storeContacts_of_filled ct hne hbundle,
        Option.map_eq_bind]
      rfl
  | true =>
      have hstore := storeContacts_of_filled (curIdx ct ((ctel :: l).take 29)) hne hbundle
        times k
      rw [curIdx_store, curIdx_table] at hstore
      rw [if_pos rfl, hstore, Option.map_eq_bind]
      rfl

/-- Once the handler was called, the loop writes the rows of what is left. -/
theorem bundleLoop_rest (hn : l.length ≤ n) (hfilled : ∀ x ∈ l, x.Filled) (k : ℕ)
    (ct : Contacts) :
    bundleLoop times n k false l ct
      = some ({ ct with
          table := (bundleRows ct.store times n k l).foldl (addRow ct.store) ct.table }, []) := by
  induction n generalizing l k ct with
  | zero =>
      obtain rfl := List.length_eq_zero_iff.mp (Nat.le_zero.mp hn)
      rfl
  | succ n ih =>
      cases l with
      | nil => rfl
      | cons ctel l =>
          rw [bundleLoop_cons hfilled, Bool.false_and, Bool.false_and, if_neg Bool.false_ne_true,
            ih (length_drop_le (by norm_num) hn) fun x hx => hfilled x (List.mem_of_mem_drop hx)]
          rfl

end loop

/-! ## The rows it writes -/

section rows

variable {c : StoreClient} {times : ℕ → Timeval} {n : ℕ} {l : List ContactEl}

/-- Rows under new and distinct `idx`s are added, those with a key that matches. -/
theorem current_foldl_addRow {rows T : List (Row Text Obj)} (hnd : (rows.map Row.idx).Nodup)
    (hcurnt : ∀ r ∈ rows, r.curnt = 1)
    (hfresh : ∀ r ∈ rows, ∀ s ∈ current c T, s.idx ≠ r.idx) :
    current c (rows.foldl (addRow c) T)
      = current c T ++ rows.filter fun r => c.owns r.blobKey := by
  induction rows generalizing T with
  | nil => exact (List.append_nil _).symm
  | cons r rows ih =>
      rw [List.map_cons, List.nodup_cons] at hnd
      have hrow : Row.mk r.blobKey r.idx r.blob 1 = r := by
        rw [← hcurnt r List.mem_cons_self]
      have hadd : current c (addRow c T r)
          = current c T ++ [r].filter fun r => c.owns r.blobKey := by
        rw [addRow, current_storeAdd_of_fresh (hfresh r List.mem_cons_self), hrow]
      rw [List.foldl_cons, ih hnd.2 (fun s hs => hcurnt s (List.mem_cons_of_mem r hs)), hadd,
        List.append_assoc, ← List.filter_append, List.singleton_append]
      intro s hs t ht
      rw [hadd, List.mem_append] at ht
      rcases ht with ht | ht
      · exact hfresh s (List.mem_cons_of_mem r hs) t ht
      · obtain rfl := List.mem_singleton.mp (List.mem_of_mem_filter ht)
        intro heq
        exact hnd.1 (heq ▸ List.mem_map_of_mem hs)

theorem curnt_of_mem_bundleRows {k : ℕ} {r : Row Text Obj}
    (hr : r ∈ bundleRows c times n k l) : r.curnt = 1 := by
  obtain ⟨p, _, rfl⟩ := List.mem_map.mp hr
  rfl

/-- The rows of distinct logins have distinct `idx`s. -/
theorem nodup_idx_bundleRows (hn : l.length ≤ n) (k : ℕ)
    (hlogins : (l.map fun ctel => ctel.login.getD []).Nodup) :
    ((bundleRows c times n k l).map Row.idx).Nodup := by
  have hidx : (bundleRows c times n k l).map Row.idx = (chunks 29 n l).map headLogin := by
    rw [bundleRows, List.map_map]
    exact (List.map_map (g := headLogin) (f := Prod.fst)).symm.trans
      (congrArg _ (List.zipIdx_map_fst k _))
  have hne : ∀ b ∈ chunks 29 n l, b ≠ [] := fun b hb => ne_nil_of_mem_chunks (by norm_num) hb
  have hsub := map_head_sublist (f := fun ctel : ContactEl => ctel.login.getD [])
    (g := headLogin) (fun _ _ => rfl) hne
  rw [flatten_chunks (by norm_num) hn] at hsub
  rw [hidx]
  exact hlogins.sublist hsub

/-- A row holds the contacts of its bundle. -/
theorem contacts_bundleRow {p : List ContactEl × ℕ} (h : ∀ x ∈ p.1, x.Filled) :
    (bundleRow c times p).contacts = p.1 :=
  storeBlobParse_obj h

/-- **The rows hold the contacts**, one after the other. -/
theorem flatMap_contacts_bundleRows (hn : l.length ≤ n) (k : ℕ) (hfilled : ∀ x ∈ l, x.Filled) :
    (bundleRows c times n k l).flatMap Row.contacts = l := by
  have hflat := flatten_chunks (by norm_num : 0 < 29) hn
  have hrow : ∀ p ∈ (chunks 29 n l).zipIdx k, (bundleRow c times p).contacts = p.1 := by
    intro p hp
    refine contacts_bundleRow fun x hx => hfilled x ?_
    rw [← hflat]
    exact List.mem_flatten_of_mem (List.fst_mem_of_mem_zipIdx hp) hx
  -- every row is read back as the chunk it was made of
  rw [bundleRows, List.flatMap_map, List.flatMap_congr hrow, List.flatMap_def,
    List.zipIdx_map_fst, hflat]

/-- A property of the keys and the `idx`s of all rows is one of the contacts that stand at a
multiple of 29. -/
theorem forall_mem_bundleRows {P : Text → Text → Prop} (hn : l.length ≤ n) (k : ℕ) :
    (∀ r ∈ bundleRows c times n k l, P r.blobKey r.idx)
      ↔ ∀ j, ∀ ctel ∈ l[29 * j]?, P (storeKey c (times (k + j))) (ctel.login.getD []) := by
  have hhead := head?_getElem?_chunks (by norm_num : 0 < 29) hn
  constructor
  · intro h j ctel hctel
    rw [← hhead j, Option.mem_def, Option.bind_eq_some_iff] at hctel
    obtain ⟨b, hb, hctel⟩ := hctel
    obtain ⟨b', rfl⟩ := List.head?_eq_some_iff.mp hctel
    refine h (bundleRow c times (ctel :: b', k + j)) (List.mem_map_of_mem ?_)
    rw [List.mk_mem_zipIdx_iff_le_and_getElem?_sub, Nat.add_sub_cancel_left]
    exact ⟨Nat.le_add_right k j, hb⟩
  · intro h r hr
    obtain ⟨⟨b, i⟩, hp, rfl⟩ := List.mem_map.mp hr
    obtain ⟨hle, hb⟩ := List.mk_mem_zipIdx_iff_le_and_getElem?_sub.mp hp
    obtain ⟨ctel, b', rfl⟩ := List.exists_cons_of_ne_nil
      (ne_nil_of_mem_chunks (by norm_num) (List.mem_of_getElem? hb))
    have hctel : l[29 * (i - k)]? = some ctel := by
      rw [← hhead, hb]
      rfl
    have hP := h (i - k) ctel hctel
    rwa [Nat.add_sub_cancel' hle] at hP

end rows

/-! ## The answer of the server -/

section answer

variable {signed : Bool} {times : ℕ → Timeval} {body : Option Obj} {ct : Contacts}

/-- The contacts of the answer in name order have all their fields. -/
theorem filled_byName (h : ServerContacts (blobParse body)) :
    ∀ x ∈ byName signed (blobParse body), x.Filled := fun x hx =>
  h.filled x ((byName_perm signed _).mem_iff.mp hx)

/-- **What the answer leads to**: the handler gets the first bundle, the cursor is at its first
login, and the rows of all bundles are written. -/
theorem httpCtDone_eq (hch : ct.ch = true) (h : ServerContacts (blobParse body))
    {first : ContactEl} {l : List ContactEl} (hl : byName signed (blobParse body) = first :: l) :
    httpCtDone signed times 200 body ct
      = some ({ ct with
          curIdx := first.login
          table := (bundleRows ct.store times (first :: l).length 0 (first :: l)).foldl
            (addRow ct.store) ct.table },
        [.handler (some ((first :: l).take 29))]) := by
  have hfilled : ∀ x ∈ first :: l, x.Filled := hl ▸ filled_byName h
  have hrest : ((first :: l).drop 29).length ≤ l.length := length_drop_le (by norm_num) le_rfl
  rw [httpCtDone, if_pos rfl, sortContacts_eq_byName signed h.filled h.names, hl]
  show bundleLoop times (l.length + 1) 0 true (first :: l) ct = _
  have htell : (true && ct.ch) = true := by rw [hch, Bool.true_and]
  rw [bundleLoop_cons hfilled, htell, if_pos rfl, if_pos rfl, Bool.not_true,
    Bool.and_false, bundleLoop_rest hrest fun x hx => hfilled x (List.mem_of_mem_drop hx)]
  rfl

end answer

/-! ## Paging -/

/-- On its way through the rows of the table `T`, perhaps with a cursor. -/
structure OnWay (c : StoreClient) (T : List (Row Text Obj)) (cur : Option Text)
    (ct : Contacts) : Prop where
  store : ct.store = c
  table : ct.table = T
  ch : ct.ch = true
  cursor : ct.curIdx = cur

/-- On its way through the rows of the table `T`, with a cursor. -/
structure AtCursor (c : StoreClient) (T : List (Row Text Obj)) (cur : Option Text)
    (ct : Contacts) : Prop where
  store : ct.store = c
  table : ct.table = T
  ch : ct.ch = true
  cursor : ct.curIdx = cur
  started : cur ≠ none

/-- The rows a client sees hold bundles under their first logins. -/
def OfBundles (c : StoreClient) (T : List (Row Text Obj)) : Prop :=
  ∀ r ∈ current c T, r.curnt = 1 ∧ ∃ ctel l, r.contacts = ctel :: l ∧ ctel.login = some r.idx

section paging

variable {c : StoreClient} {T : List (Row Text Obj)} {cur : Option Text} {ct : Contacts}

/-- What the store gives is the next page. -/
theorem OnWay.storeFetch_eq (h : OnWay c T cur ct) (hord : c.order = true)
    (hrows : OfBundles c T) :
    storeFetch ct.store ct.curIdx ctelParse ct.table =
      (nextPage Row.idx cur (current c T)).map Row.contacts := by
  have hsel : storeSelect c cur 1 T = nextPage Row.idx cur (current c T) := by
    rw [storeSelect_eq_nextPage hord cur one_ne_zero, filter_state_self fun r hr => (hrows r hr).1]
  rw [h.store, h.cursor, h.table, storeFetch, storeFetchState, hsel]
  rfl

/-- Behind the last page a fetch has an empty result, or asks the server if it has no cursor,
and stays where it is. -/
theorem OnWay.fetch_last (h : OnWay c T cur ct) (hord : c.order = true) (hrows : OfBundles c T)
    (hlast : nextPage Row.idx cur (current c T) = none) :
    (contactsFetch ct).2 = [if cur = none then .request else .handler none] ∧
      OnWay c T cur (contactsFetch ct).1 := by
  have hfetch := h.storeFetch_eq hord hrows
  rw [hlast, Option.map_none] at hfetch
  unfold contactsFetch
  rw [hfetch, h.cursor]
  cases cur with
  | none => exact ⟨rfl, h⟩
  | some i =>
      rw [if_neg (Option.some_ne_none i), h.ch]
      exact ⟨rfl, h⟩

/-- A fetch hands the next page to the handler, and moves the cursor to its key. -/
theorem OnWay.fetch_next (h : OnWay c T cur ct) (hord : c.order = true) (hrows : OfBundles c T)
    {r : Row Text Obj} (hnext : nextPage Row.idx cur (current c T) = some r) :
    (contactsFetch ct).2 = [.handler (some r.contacts)] ∧
      OnWay c T (some r.idx) (contactsFetch ct).1 := by
  have hfetch := h.storeFetch_eq hord hrows
  rw [hnext, Option.map_some] at hfetch
  obtain ⟨-, ctel, l, hcontacts, hlogin⟩ := hrows r (mem_of_nextPage_eq_some Row.idx hnext).1
  unfold contactsFetch
  rw [hfetch, h.ch, hcontacts]
  exact ⟨rfl, h.store, h.table, h.ch, hlogin⟩

theorem AtCursor.onWay (h : AtCursor c T cur ct) : OnWay c T cur ct :=
  ⟨h.store, h.table, h.ch, h.cursor⟩

/-- Beyond the last page nothing comes. -/
theorem AtCursor.fetch_last (h : AtCursor c T cur ct) (hord : c.order = true)
    (hrows : OfBundles c T) (hnone : nextPage Row.idx cur (current c T) = none) :
    ∃ t, nextContacts ct = some (t, none) := by
  obtain ⟨hanswer, -⟩ := h.onWay.fetch_last hord hrows hnone
  rw [if_neg h.started] at hanswer
  refine ⟨(contactsFetch ct).1, ?_⟩
  rw [nextContacts, ← Prod.mk.eta (p := contactsFetch ct), hanswer]

/-- A fetch delivers the next page and moves the cursor to its key. -/
theorem AtCursor.fetch_next (h : AtCursor c T cur ct) (hord : c.order = true)
    (hrows : OfBundles c T) {r : Row Text Obj}
    (hsome : nextPage Row.idx cur (current c T) = some r) :
    ∃ t bulk, nextContacts ct = some (t, some bulk) ∧ bulk = r.contacts ∧
      AtCursor c T (some r.idx) t := by
  obtain ⟨hanswer, hway⟩ := h.onWay.fetch_next hord hrows hsome
  obtain ⟨-, ctel, l, hbulk, -⟩ := hrows r (mem_of_nextPage_eq_some _ hsome).1
  refine ⟨(contactsFetch ct).1, r.contacts, ?_, rfl,
    ⟨hway.store, hway.table, hway.ch, hway.cursor, Option.some_ne_none _⟩⟩
  rw [hbulk] at hanswer ⊢
  rw [nextContacts, ← Prod.mk.eta (p := contactsFetch ct), hanswer]

/-- Fetching until nothing comes delivers every row beyond the cursor once. -/
theorem contactsPages_spec (h : AtCursor c T cur ct) (hord : c.order = true)
    (hrows : OfBundles c T) (hkeyed : Keyed Row.idx (current c T)) :
    ∃ more, contactsPages (ct.table.length + 1) ct = some more ∧
      more.flatten.Perm
        (((current c T).filter fun r => beyond cur r.idx).flatMap Row.contacts) := by
  have hlen : ((current c T).filter fun r => beyond cur r.idx).length < ct.table.length + 1 := by
    rw [h.table]
    exact Nat.lt_succ_of_le (length_filter_current_le c T _)
  obtain ⟨more, rows, hmore, hall, hperm⟩ := drain_spec Row.idx hkeyed
    (fun cur s hs hnone => AtCursor.fetch_last hs hord hrows hnone)
    (fun cur s r hs hsome => AtCursor.fetch_next hs hord hrows hsome)
    (ct.table.length + 1) cur ct h hlen
  have hbulks : more = rows.map Row.contacts := by
    rw [← List.forall₂_eq_eq_eq, List.forall₂_map_right_iff]
    exact hall
  refine ⟨more, hmore, ?_⟩
  rw [hbulks, ← List.flatMap_def]
  exact hperm.flatMap_right _

end paging

/-! ## What is delivered -/

/-- The contacts of a login, with a handler installed. -/
def freshContacts (login : Text) (T : List (Row Text Obj)) : Contacts :=
  contactsHandler (contactsAlloc (storeOpen login (byteOf 'c')) T)

/-- With nothing in the store, a fetch asks the server. -/
theorem contactsFetch_fresh {login : Text} {T : List (Row Text Obj)}
    (hempty : current (freshContacts login T).store T = []) :
    contactsFetch (freshContacts login T) = (freshContacts login T, [.request]) := by
  have hsel : storeSelect (freshContacts login T).store none 1 T = none := by
    rw [storeSelect_eq_nextPage rfl none one_ne_zero, hempty]
    rfl
  have hfetch : storeFetch (freshContacts login T).store (freshContacts login T).curIdx ctelParse
      (freshContacts login T).table = none := by
    show (storeSelect (freshContacts login T).store none 1 T).map _ = none
    rw [hsel, Option.map_none]
  unfold contactsFetch
  rw [hfetch]
  rfl

section delivered

variable {c : StoreClient} {times : ℕ → Timeval} {first : ContactEl} {l : List ContactEl}

/-- A row of contacts with all fields holds a bundle under its first login. -/
theorem contacts_of_mem_bundleRows {n k : ℕ} (hn : l.length ≤ n) (hfilled : ∀ x ∈ l, x.Filled)
    {r : Row Text Obj} (hr : r ∈ bundleRows c times n k l) :
    ∃ ctel b, r.contacts = ctel :: b ∧ ctel.login = some r.idx := by
  obtain ⟨⟨b, i⟩, hp, rfl⟩ := List.mem_map.mp hr
  have hb : b ∈ chunks 29 n l := List.fst_mem_of_mem_zipIdx hp
  have hbfilled : ∀ x ∈ b, x.Filled := by
    intro x hx
    apply hfilled x
    rw [← flatten_chunks (by norm_num : 0 < 29) hn]
    exact List.mem_flatten_of_mem hb hx
  obtain ⟨ctel, b', rfl⟩ := List.exists_cons_of_ne_nil (ne_nil_of_mem_chunks (by norm_num) hb)
  exact ⟨ctel, b', contacts_bundleRow hbfilled,
    eq_some_getD (hbfilled ctel List.mem_cons_self).1⟩

/-- Of the rows that are written, those beyond the cursor are later bundles. -/
theorem filter_beyond_bundleRows :
    (((bundleRows c times (first :: l).length 0 (first :: l)).filter
        fun r => c.owns r.blobKey).filter
          fun r => beyond (some (first.login.getD [])) r.idx)
      = (bundleRows c times l.length 1 ((first :: l).drop 29)).filter
          fun r => c.owns r.blobKey && beyond (some (first.login.getD [])) r.idx := by
  have hfirst : ¬ (c.owns (bundleRow c times ((first :: l).take 29, 0)).blobKey &&
      beyond (some (first.login.getD []))
        (bundleRow c times ((first :: l).take 29, 0)).idx) = true := by
    rw [Bool.and_eq_true, beyond_some]
    exact fun h => lt_irrefl _ h.2
  rw [List.filter_filter, List.length_cons, bundleRows_cons,
    List.filter_cons_of_neg (by rw [Bool.and_comm]; exact hfirst)]
  exact List.filter_congr fun r _ => Bool.and_comm _ _

/-- **Nothing but the first bundle is missing** exactly when every later bundle begins with a
login beyond the cursor and has a key that matches. -/
theorem flatMap_contacts_perm_iff (hfilled : ∀ x ∈ first :: l, x.Filled) :
    (((bundleRows c times l.length 1 ((first :: l).drop 29)).filter
        fun r => c.owns r.blobKey && beyond (some (first.login.getD [])) r.idx).flatMap
          Row.contacts).Perm ((first :: l).drop 29)
      ↔ ∀ k, ∀ ctel ∈ (first :: l)[29 * (k + 1)]?,
        first.login.getD [] < ctel.login.getD [] ∧ c.owns (storeKey c (times (k + 1))) = true := by
  have hlen : ((first :: l).drop 29).length ≤ l.length := length_drop_le (by norm_num) le_rfl
  have hlater : ∀ x ∈ (first :: l).drop 29, x.Filled := fun x hx =>
    hfilled x (List.mem_of_mem_drop hx)
  have hne : ∀ r ∈ bundleRows c times l.length 1 ((first :: l).drop 29), r.contacts ≠ [] := by
    intro r hr
    obtain ⟨ctel, b, hb, -⟩ := contacts_of_mem_bundleRows hlen hlater hr
    rw [hb]
    exact List.cons_ne_nil ctel b
  have hdrop := flatMap_filter_perm_iff (p := fun r : Row Text Obj =>
    c.owns r.blobKey && beyond (some (first.login.getD [])) r.idx) hne
  rw [flatMap_contacts_bundleRows hlen 1 hlater] at hdrop
  rw [hdrop]
  simp only [Bool.and_eq_true, beyond_some]
  refine (forall_mem_bundleRows (P := fun key idx =>
    c.owns key = true ∧ first.login.getD [] < idx) hlen 1).trans ?_
  apply forall_congr'
  intro k
  rw [List.getElem?_drop, Nat.mul_succ, Nat.add_comm 1 k, Nat.add_comm 29]
  exact forall₂_congr fun ctel _ => and_comm

end delivered

/-- **When paging is exact.**  After an answer of the server the handler has got the first
bundle, and fetching until nothing comes returns.  Together they deliver every contact once
exactly when every later bundle is stored under a greater login than the first one. -/
theorem contactsPaging_iff (signed : Bool) (login : Text) (times : ℕ → Timeval)
    {T : List (Row Text Obj)} {body : Option Obj}
    (hempty : current (freshContacts login T).store T = [])
    (h : ServerContacts (blobParse body)) :
    contactsFetch (freshContacts login T) = (freshContacts login T, [.request]) ∧
      ∃ ct first more,
        httpCtDone signed times 200 body (freshContacts login T)
          = some (ct, [.handler (some first)]) ∧
        contactsPages (ct.table.length + 1) ct = some more ∧
        ((first ++ more.flatten).Perm (blobParse body)
          ↔ LaterAhead signed (freshContacts login T).store times (blobParse body)) := by
  refine ⟨contactsFetch_fresh hempty, ?_⟩
  have hname : byName signed (blobParse body) ≠ [] := fun hnil =>
    h.ne_nil (List.nil_perm.mp (hnil ▸ byName_perm signed _))
  obtain ⟨first, l, hl⟩ := List.exists_cons_of_ne_nil hname
  have hperm : (first :: l).Perm (blobParse body) := hl ▸ byName_perm signed _
  have hfilled : ∀ x ∈ first :: l, x.Filled := hl ▸ filled_byName h
  have hlogins : ((first :: l).map fun ctel => ctel.login.getD []).Nodup :=
    (hperm.map _).nodup_iff.mpr h.logins
  -- the rows the client sees are those of the bundles
  set c := (freshContacts login T).store
  set rows := bundleRows c times (first :: l).length 0 (first :: l)
  have hnd : (rows.map Row.idx).Nodup := nodup_idx_bundleRows le_rfl 0 hlogins
  have hcur : current c (rows.foldl (addRow c) T) = rows.filter fun r => c.owns r.blobKey := by
    rw [current_foldl_addRow hnd (fun r hr => curnt_of_mem_bundleRows hr)
      (fun r _ s hs => absurd (hempty ▸ hs) List.not_mem_nil), hempty, List.nil_append]
  have hlogin : first.login = some (first.login.getD []) :=
    eq_some_getD (hfilled first List.mem_cons_self).1
  -- so fetching delivers the later bundles beyond the first login
  have hat : AtCursor c (rows.foldl (addRow c) T) (some (first.login.getD []))
      { freshContacts login T with
        curIdx := first.login
        table := rows.foldl (addRow c) T } :=
    ⟨rfl, rfl, rfl, hlogin, Option.some_ne_none _⟩
  have hbundles : OfBundles c (rows.foldl (addRow c) T) :=
    fun r hr =>
      have hmem : r ∈ rows := List.mem_of_mem_filter (hcur ▸ hr)
      ⟨curnt_of_mem_bundleRows hmem, contacts_of_mem_bundleRows le_rfl hfilled hmem⟩
  obtain ⟨more, hmore, hpages⟩ := contactsPages_spec hat rfl hbundles (hcur ▸ Keyed.filter hnd _)
  rw [hcur, filter_beyond_bundleRows] at hpages
  refine ⟨_, _, more, httpCtDone_eq rfl h hl, hmore, ?_⟩
  have hwhole : ((first :: l).take 29 ++ more.flatten).Perm (blobParse body)
      ↔ more.flatten.Perm ((first :: l).drop 29) := by
    have hsplit := hperm
    rw [← List.take_append_drop 29 (first :: l)] at hsplit
    rw [← hsplit.congr_right, List.perm_append_left_iff]
  rw [hwhole, hpages.congr_left, flatMap_contacts_perm_iff hfilled, LaterAhead, hl]
  simp

/-- The answer of the server with these contacts. -/
def answer (cts : List ContactEl) : Obj :=
  .array [.integer 200, .array (cts.map ContactEl.obj)]

/-- The `i`-th contact by name, with a login that begins with these letters. -/
def contactNo (login : Text) (i : ℕ) : ContactEl :=
  let letter := byteOf (Char.ofNat (65 + i))
  { login := some (login ++ [letter]), name := some [letter], phone := some (lit "112") }

/-- Thirty contacts; these are the letters of the first login, the others begin with `u`. -/
def thirtyContacts (login : Text) : List ContactEl :=
  contactNo login 0 :: (List.range 29).map fun i => contactNo (lit "u") (i + 1)

/-- A bundle is stored every second. -/
def everySecond (k : ℕ) : Timeval := { sec := 1400000000 + k, usec := 0 }

/-- Thirty contacts of which the first by name has the least login. -/
theorem contactsPaging_thirty :
    contactsFetch (freshContacts (lit "alice") []) = (freshContacts (lit "alice") [], [.request]) ∧
      ∃ ct first more,
        httpCtDone true everySecond 200 (some (answer (thirtyContacts (lit "a"))))
            (freshContacts (lit "alice") []) = some (ct, [.handler (some first)]) ∧
        contactsPages (ct.table.length + 1) ct = some more ∧
        ((first ++ more.flatten).Perm (blobParse (some (answer (thirtyContacts (lit "a")))))
          ↔ LaterAhead true (freshContacts (lit "alice") []).store everySecond
            (blobParse (some (answer (thirtyContacts (lit "a")))))) :=
  contactsPaging_iff true (lit "alice") everySecond rfl
    ⟨by decide, by decide, by decide, by decide⟩

/-- Thirty contacts of which the first by name has the greatest login: the last one is not
delivered. -/
theorem not_contactsPaging_thirty :
    ServerContacts (blobParse (some (answer (thirtyContacts (lit "z"))))) ∧
      ∃ ct first more,
        httpCtDone true everySecond 200 (some (answer (thirtyContacts (lit "z"))))
            (freshContacts (lit "alice") []) = some (ct, [.handler (some first)]) ∧
        contactsPages (ct.table.length + 1) ct = some more ∧
        ¬ (first ++ more.flatten).Perm (blobParse (some (answer (thirtyContacts (lit "z"))))) :=
  ⟨⟨by decide, by decide, by decide, by decide⟩, _, _, _, rfl, rfl, by decide⟩
