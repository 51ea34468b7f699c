/-
# Fetching all contacts from the store

`store_contacts` stores a bundle under the login of its first contact, and `contacts_fetch`
takes its cursor from the first contact of the bundle that it has read back.  These are the same
login unless it is empty.  So a new contacts object that finds bundles in the store is given
each of them once, in the order of those logins, and empty results ever after; it does not ask
the server (`contactsFetches_eq`).
-/
import Tcsip.ContactsNull
import Tcsip.ContactsPaging

open KeyedList

/-! ## What was stored -/

/-- A contact with NULL in place of every empty field. -/
def ContactEl.fieldsOrNull (ctel : ContactEl) : ContactEl where
  login := ctel.login.filter fun login => decide (login ≠ [])
  name := ctel.name.filter fun name => decide (name ≠ [])
  phone := ctel.phone.filter fun phone => decide (phone ≠ [])

/-- The row was added by a call of `store_contacts` for this bundle. -/
def Row.StoredFor (r : Row Text Obj) (bundle : List ContactEl) : Prop :=
  ∃ ct key ct', storeContacts ct key bundle = some ct' ∧ r ∈ ct'.table ∧ r ∉ ct.table

/-- A row that a write adds and that is current is the one that was written. -/
theorem eq_of_mem_storeAdd {c : StoreClient} {key idx : Text} {blob : Obj}
    {T : List (Row Text Obj)} {r : Row Text Obj} (hr : r ∈ storeAdd c key idx blob T)
    (hnew : r ∉ T) (hcur : r.curnt ≠ 0) :
    r = { blobKey := key, idx := idx, blob := blob, curnt := 1 } := by
  obtain ⟨r₀, hr₀, heq⟩ := List.mem_map.mp hr
  split at heq
  · exact absurd (heq ▸ rfl) hcur
  · subst heq
    rcases List.mem_append.mp hr₀ with hold | hrow
    · exact absurd hold hnew
    · exact List.mem_singleton.mp hrow

section stored

variable {r : Row Text Obj} {bundle : List ContactEl}

/-- **The row of a bundle** is in state 1, with its first login and its blob. -/
theorem Row.StoredFor.fields (h : r.StoredFor bundle) (hcur : r.curnt ≠ 0) :
    r.curnt = 1 ∧ packContacts bundle = some r.blob ∧
      ∃ ctel l, bundle = ctel :: l ∧ ctel.login = some r.idx := by
  obtain ⟨ct, key, ct', hstore, hr, hnew⟩ := h
  cases bundle with
  | nil =>
      obtain rfl := Option.some.inj hstore
      exact absurd hr hnew
  | cons ctel l =>
      obtain ⟨blob, hblob, hrest⟩ := Option.bind_eq_some_iff.mp hstore
      obtain ⟨idx, hidx, heq⟩ := Option.bind_eq_some_iff.mp hrest
      obtain rfl := Option.some.inj heq
      obtain rfl := eq_of_mem_storeAdd hr hnew hcur
      exact ⟨rfl, hblob, ctel, l, rfl, hidx⟩

/-- A field comes back, an empty one as NULL. -/
theorem getStr_bytes_getD (t : Option Text) :
    getStr (bytes (t.getD [])) = t.filter fun t => decide (t ≠ []) := by
  rw [← bind_getStr_bytes]
  cases t <;> rfl

/-- **Round trip of a bundle**, whatever is in it. -/
theorem storeBlobParse_packContacts {blob : Obj} (h : packContacts bundle = some blob) :
    storeBlobParse ctelParse blob = bundle.map ContactEl.fieldsOrNull := by
  have hne : packContacts bundle ≠ none := fun hnone =>
    Option.some_ne_none blob (h.symm.trans hnone)
  rw [packContacts_of_nonNull (nonNull_of_packContacts hne)] at h
  obtain rfl := Option.some.inj h
  have hitem : ∀ ctel : ContactEl,
      ctel.obj.elems.bind ctelParse = some ctel.fieldsOrNull := by
    intro ctel
    unfold ContactEl.fieldsOrNull
    rw [← getStr_bytes_getD, ← getStr_bytes_getD, ← getStr_bytes_getD]
    rfl
  show (bundle.map ContactEl.obj).filterMap (fun item => item.elems.bind ctelParse) = _
  rw [List.filterMap_map, ← List.filterMap_eq_map]
  exact List.filterMap_congr fun ctel _ => hitem ctel

/-- What a row of the store holds: a bundle under its first login. -/
structure Row.Holds (r : Row Text Obj) (bundle : List ContactEl) : Prop where
  curnt : r.curnt = 1
  idx : r.idx = headLogin bundle
  contacts : r.contacts = bundle.map ContactEl.fieldsOrNull
  first : ∃ ctel l, r.contacts = ctel :: l ∧ ctel.login = some r.idx

theorem Row.StoredFor.holds (h : r.StoredFor bundle) (hcur : r.curnt ≠ 0)
    (hlogin : headLogin bundle ≠ []) : r.Holds bundle := by
  obtain ⟨hstate, hblob, ctel, l, rfl, hidx⟩ := h.fields hcur
  have hhead : headLogin (ctel :: l) = r.idx := by
    rw [headLogin, hidx, Option.getD_some]
  have hcontacts : r.contacts = (ctel :: l).map ContactEl.fieldsOrNull :=
    storeBlobParse_packContacts hblob
  have hfirst : ctel.fieldsOrNull.login = some r.idx := by
    rw [hhead] at hlogin
    unfold ContactEl.fieldsOrNull
    rw [hidx, Option.filter_some, if_pos (decide_eq_true hlogin)]
  exact ⟨hstate, hhead.symm, hcontacts, ctel.fieldsOrNull, l.map ContactEl.fieldsOrNull,
    hcontacts, hfirst⟩

end stored

section rows

variable {rows : List (Row Text Obj)} {bundles : List (List ContactEl)}

theorem holds_of_storedFor (h : List.Forall₂ Row.StoredFor rows bundles)
    (hcur : ∀ r ∈ rows, r.curnt ≠ 0) (hlogins : ∀ bundle ∈ bundles, headLogin bundle ≠ []) :
    List.Forall₂ Row.Holds rows bundles := by
  induction h with
  | nil => exact .nil
  | cons hrow _ ih =>
      refine .cons (hrow.holds (hcur _ List.mem_cons_self) (hlogins _ List.mem_cons_self)) ?_
      exact ih (fun r hr => hcur r (List.mem_cons_of_mem _ hr))
        fun bundle hb => hlogins bundle (List.mem_cons_of_mem _ hb)

theorem exists_holds (h : List.Forall₂ Row.Holds rows bundles) :
    ∀ r ∈ rows, ∃ bundle, r.Holds bundle := by
  induction h with
  | nil => exact fun r hr => absurd hr List.not_mem_nil
  | cons hrow _ ih =>
      intro r hr
      rcases List.mem_cons.mp hr with rfl | hr
      · exact ⟨_, hrow⟩
      · exact ih r hr

theorem map_idx_eq (h : List.Forall₂ Row.Holds rows bundles) :
    rows.map Row.idx = bundles.map headLogin := by
  rw [← List.forall₂_eq_eq_eq, List.forall₂_map_left_iff, List.forall₂_map_right_iff]
  exact h.imp fun r bundle hrow => hrow.idx

/-- What is done with the contacts of the rows is done with what comes back of the bundles. -/
theorem map_contacts_eq {γ : Type} (h : List.Forall₂ Row.Holds rows bundles)
    (page : List ContactEl → γ) :
    rows.map (fun r => page r.contacts) =
      bundles.map fun bundle => page (bundle.map ContactEl.fieldsOrNull) := by
  rw [← List.forall₂_eq_eq_eq, List.forall₂_map_left_iff, List.forall₂_map_right_iff]
  exact h.imp fun r bundle hrow => congrArg page hrow.contacts

end rows

/-! ## The fetches -/

section fetches

variable {c : StoreClient} {T : List (Row Text Obj)} {cur : Option Text} {ct : Contacts}

/-- On the way through the rows of the table `T`; a cursor was taken from one of them. -/
def FetchingContacts (c : StoreClient) (T : List (Row Text Obj)) (cur : Option Text)
    (ct : Contacts) : Prop :=
  OnWay c T cur ct ∧ (cur ≠ none → current c T ≠ [])

/-- Behind the last page the results are empty; with no page at all the server is asked. -/
theorem FetchingContacts.fetch_last (h : FetchingContacts c T cur ct) (hord : c.order = true)
    (hrows : OfBundles c T) (hlast : nextPage Row.idx cur (current c T) = none) :
    (contactsFetch ct).2 = [if current c T = [] then .request else .handler none] ∧
      FetchingContacts c T cur (contactsFetch ct).1 := by
  obtain ⟨hway, hstarted⟩ := h
  obtain ⟨hanswer, hway'⟩ := hway.fetch_last hord hrows hlast
  have hempty : current c T = [] ↔ cur = none := by
    constructor
    · intro hnil
      by_contra hcur
      exact hstarted hcur hnil
    · rintro rfl
      exact List.eq_nil_iff_forall_not_mem.mpr fun r hr =>
        (nextPage_eq_none Row.idx).mp hlast r hr rfl
  refine ⟨?_, hway', hstarted⟩
  rw [hanswer]
  simp only [hempty]

theorem FetchingContacts.fetch_next (h : FetchingContacts c T cur ct) (hord : c.order = true)
    (hrows : OfBundles c T) {r : Row Text Obj}
    (hnext : nextPage Row.idx cur (current c T) = some r) :
    (contactsFetch ct).2 = [.handler (some r.contacts)] ∧
      FetchingContacts c T (some r.idx) (contactsFetch ct).1 := by
  obtain ⟨hanswer, hway⟩ := h.1.fetch_next hord hrows hnext
  exact ⟨hanswer, hway, fun _ => List.ne_nil_of_mem (mem_of_nextPage_eq_some Row.idx hnext).1⟩

/-- **All fetches** of a new contacts object: the rows in the order of their `idx`. -/
theorem ask_contactsFetch {login : Text} (hrows : OfBundles (freshContacts login T).store T)
    (hkeyed : Keyed Row.idx (current (freshContacts login T).store T)) (k : ℕ) :
    let rows := ascending Row.idx (current (freshContacts login T).store T)
    ask contactsFetch k (freshContacts login T) =
      (rows.take k).map (fun r => [.handler (some r.contacts)]) ++
        List.replicate (k - rows.length)
          [if current (freshContacts login T).store T = [] then .request else .handler none] := by
  have hstart : FetchingContacts (freshContacts login T).store T none (freshContacts login T) :=
    ⟨⟨rfl, rfl, rfl, rfl⟩, fun h => absurd rfl h⟩
  have hask := ask_eq Row.idx hkeyed
    (fun cur s hs hlast => FetchingContacts.fetch_last hs rfl hrows hlast)
    (fun cur s r hs hnext => FetchingContacts.fetch_next hs rfl hrows hnext) k hstart
  rwa [upcoming_none] at hask

end fetches

/-- **Fetching is complete.**  Let the rows that a new contacts object sees be those that
`store_contacts` wrote for some bundles with different first logins.  Then the fetches hand each
bundle to the handler, in the order of the first logins, and an empty result ever after.  The
server is asked only if there is no row. -/
theorem contactsFetches_eq {login : Text} {T : List (Row Text Obj)}
    {bundles : List (List ContactEl)}
    (hrows : List.Forall₂ Row.StoredFor (current (freshContacts login T).store T) bundles)
    (hlogins : ∀ bundle ∈ bundles, headLogin bundle ≠ [])
    (hnodup : (bundles.map headLogin).Nodup) :
    ∃ order : List (List ContactEl), order.Perm bundles ∧
      order.Pairwise (fun bundle later => headLogin bundle < headLogin later) ∧
      ∀ k, ask contactsFetch k (freshContacts login T) =
        (order.take k).map
            (fun bundle => [.handler (some (bundle.map ContactEl.fieldsOrNull))]) ++
          List.replicate (k - order.length)
            [if bundles = [] then .request else .handler none] := by
  have hholds : List.Forall₂ Row.Holds (current (freshContacts login T).store T) bundles :=
    holds_of_storedFor hrows (fun r hr => (mem_current.mp hr).2.2) hlogins
  have hof : OfBundles (freshContacts login T).store T := by
    intro r hr
    obtain ⟨bundle, hbundle⟩ := exists_holds hholds r hr
    exact ⟨hbundle.curnt, hbundle.first⟩
  have hkeyed : Keyed Row.idx (current (freshContacts login T).store T) := by
    rw [Keyed, map_idx_eq hholds]
    exact hnodup
  -- the bundles in the order in which their rows are walked through
  obtain ⟨order, horder, hperm⟩ :=
    List.perm_comp_forall₂ (ascending_perm Row.idx (current (freshContacts login T).store T)) hholds
  refine ⟨order, hperm, ?_, fun k => ?_⟩
  · rw [← List.pairwise_map, ← map_idx_eq horder, List.pairwise_map]
    exact pairwise_ascending Row.idx hkeyed
  · have hempty : current (freshContacts login T).store T = [] ↔ bundles = [] := by
      rw [← List.length_eq_zero_iff, ← List.length_eq_zero_iff, hholds.length_eq]
    rw [ask_contactsFetch hof hkeyed k,
      map_contacts_eq (List.forall₂_take k horder) fun bulk => [ContactsOut.handler (some bulk)],
      horder.length_eq]
    simp only [hempty]

/-- Two bundles, the later one with a contact without a phone. -/
def twoBundles : List (List ContactEl) :=
  [[{ login := some (lit "mia"), name := some (lit "Mia"), phone := some (lit "112") }],
    [{ login := some (lit "bob"), name := some (lit "Bob"), phone := some [] },
      { login := some (lit "zoe"), name := some (lit "Zoe"), phone := some (lit "113") }]]

/-- Their rows. -/
def twoRows : List (Row Text Obj) :=
  twoBundles.zipIdx.map (bundleRow (storeOpen (lit "alice") (byteOf 'c'))
    fun k => { sec := 1400000000 + k, usec := 7 })

/-- The bundle of bob comes first. -/
theorem contactsFetches_twoBundles :
    ∃ order : List (List ContactEl), order.Perm twoBundles ∧
      order.Pairwise (fun bundle later => headLogin bundle < headLogin later) ∧
      ∀ k, ask contactsFetch k (freshContacts (lit "alice") twoRows) =
        (order.take k).map
            (fun bundle => [.handler (some (bundle.map ContactEl.fieldsOrNull))]) ++
          List.replicate (k - order.length)
            [if twoBundles = [] then .request else .handler none] := by
  refine contactsFetches_eq ?_ (by decide) (by decide)
  have hcur : current (freshContacts (lit "alice") twoRows).store twoRows = twoRows := by
    rw [current, List.filter_eq_self]
    decide
  rw [hcur]
  refine .cons ?_ (.cons ?_ .nil)
  · exact ⟨freshContacts (lit "alice") [], _, _, rfl, row_mem_storeAddState _ _ _ _ _ _,
      List.not_mem_nil⟩
  · exact ⟨freshContacts (lit "alice") [], _, _, rfl, row_mem_storeAddState _ _ _ _ _ _,
      List.not_mem_nil⟩
