/-
# Contacts with empty fields

`ctel_parse` makes a NULL pointer of an empty raw.  The comparison of two names, the encoder of
the store and the report to the control client all read their strings without looking.  And a
raw that begins with a NUL byte is an empty string here, which the store writes as an empty raw
and reads back as NULL.

So a list of contacts can be sorted, stored, reported, read back and processed again exactly
when no field of it is empty as a C string (`processed_iff`).
-/
import Tcsip.Report

open NeighbourSort

/-- What the module does with a list never reads through NULL: the sort, in any number of its
passes, and, for the list and for all bundles of its contacts, the store and the report.  The
cursor only takes hold of a string and reads nothing. -/
structure SafeList (signed : Bool) (ctlist : List ContactEl) : Prop where
  sort : ∀ n, ∀ p ∈ compared (ContactEl.sortHandler signed) n ctlist,
    p.1.name ≠ none ∧ p.2.name ≠ none
  store : ∀ bundle ⊆ ctlist, ∀ ct key, storeContacts ct key bundle ≠ none
  report : ∀ bundle ⊆ ctlist, reportCtlist 0 bundle ≠ none

/-- A list of the server: three raws for each contact. -/
structure ContactRaws where
  login : List Byte
  name : List Byte
  phone : List Byte
  deriving DecidableEq

/-- The contact on the wire. -/
def ContactRaws.obj (r : ContactRaws) : Obj := .array [.raw r.login, .raw r.name, .raw r.phone]

/-- The answer of the server. -/
def contactsBody (status : ℕ) (raws : List ContactRaws) : Obj :=
  .array [.integer status, .array (raws.map ContactRaws.obj)]

/-- The lists that come of it: the one that was received, and what is read back of the bundles
that were stored. -/
inductive ComesOfBody (body : Obj) : List ContactEl → Prop
  | received : ComesOfBody body (blobParse (some body))
  | readBack {bundle : List ContactEl} {blob : Obj} (hsub : bundle ⊆ blobParse (some body))
      (hblob : packContacts bundle = some blob) : ComesOfBody body (storeBlobParse ctelParse blob)

/-- No raw is empty or begins with a NUL byte. -/
def ContactRaws.Filled (r : ContactRaws) : Prop :=
  cstr r.login ≠ [] ∧ cstr r.name ≠ [] ∧ cstr r.phone ≠ []

instance (r : ContactRaws) : Decidable r.Filled := inferInstanceAs (Decidable (_ ∧ _))

/-! ## Fields -/

theorem getD_getStr (b : List Byte) : (getStr b).getD [] = cstr b := by
  unfold getStr
  split_ifs with hpos
  · rfl
  · rw [List.length_pos_iff, not_not] at hpos
    rw [hpos]
    rfl

/-- The contact that `ctel_parse` makes. -/
def ContactRaws.ctel (r : ContactRaws) : ContactEl :=
  { login := getStr r.login, name := getStr r.name, phone := getStr r.phone }

theorem ContactRaws.filled_ctel_iff (r : ContactRaws) : r.ctel.Filled ↔ r.Filled := by
  unfold ContactEl.Filled ContactRaws.Filled ContactRaws.ctel
  dsimp only
  rw [getD_getStr, getD_getStr, getD_getStr]

theorem blobParse_contactsBody (status : ℕ) (raws : List ContactRaws) :
    blobParse (some (contactsBody status raws)) = raws.map ContactRaws.ctel := by
  have hitems : blobParse (some (contactsBody status raws)) =
      if 0 ≤ (status : ℤ) then
        (raws.map ContactRaws.obj).filterMap fun item => item.elems.bind ctelParse
      else [] := rfl
  rw [hitems, if_pos (Int.natCast_nonneg status)]
  clear hitems
  induction raws with
  | nil => rfl
  | cons r raws ih => exact congrArg (r.ctel :: ·) ih

theorem ContactEl.Filled.nonNull {ctel : ContactEl} (h : ctel.Filled) : ctel.NonNull := by
  obtain ⟨hlogin, hname, hphone⟩ := h
  unfold ContactEl.NonNull
  rw [eq_some_getD hlogin, eq_some_getD hname, eq_some_getD hphone]
  exact ⟨Option.some_ne_none _, Option.some_ne_none _, Option.some_ne_none _⟩

/-! ## What can be stored, and read back -/

/-- The encoder of the store needs every string. -/
theorem writeContactEl_ne_none_iff (ctel : ContactEl) :
    writeContactEl ctel ≠ none ↔ ctel.NonNull := by
  unfold writeContactEl ContactEl.NonNull pushCstrLen
  obtain ⟨login, name, phone⟩ := ctel
  cases login <;> cases name <;> cases phone <;> simp

/-- A contact without NULL is written as it would be with empty strings in their place. -/
theorem writeContactEl_eq_obj {ctel : ContactEl} (h : ctel.NonNull) :
    writeContactEl ctel = some ctel.obj := by
  obtain ⟨login, name, phone⟩ := ctel
  obtain ⟨hlogin, hname, hphone⟩ := h
  obtain ⟨login, rfl⟩ := Option.ne_none_iff_exists'.mp hlogin
  obtain ⟨name, rfl⟩ := Option.ne_none_iff_exists'.mp hname
  obtain ⟨phone, rfl⟩ := Option.ne_none_iff_exists'.mp hphone
  rfl

/-- **A contact with a field that is empty** is stored with it, and read back with NULL. -/
theorem filled_of_readBack {ctel ctel' : ContactEl} (h : ctel.obj.elems.bind ctelParse = some ctel')
    (hnull : ctel'.NonNull) : ctel.Filled := by
  obtain rfl := Option.some.inj h
  obtain ⟨hlogin, hname, hphone⟩ := hnull
  dsimp only at hlogin hname hphone
  rw [getStr_bytes] at hlogin hname hphone
  exact ⟨fun h => hlogin (if_pos h), fun h => hname (if_pos h), fun h => hphone (if_pos h)⟩

theorem nonNull_of_packContacts {ctlist : List ContactEl} (h : packContacts ctlist ≠ none) :
    ∀ ctel ∈ ctlist, ctel.NonNull := by
  have hmap : ctlist.mapM writeContactEl ≠ none := fun hnone => h (by rw [packContacts, hnone]; rfl)
  clear h
  induction ctlist with
  | nil => exact fun _ h => absurd h List.not_mem_nil
  | cons ctel ctlist ih =>
      rw [List.mapM_cons] at hmap
      cases hel : writeContactEl ctel with
      | none =>
          rw [hel] at hmap
          exact absurd rfl hmap
      | some ob =>
          rw [hel] at hmap
          have hrest : ctlist.mapM writeContactEl ≠ none := by
            intro hnone
            rw [hnone] at hmap
            exact hmap rfl
          intro x hx
          rcases List.mem_cons.mp hx with rfl | hx
          · exact (writeContactEl_ne_none_iff x).mp (by rw [hel]; exact Option.some_ne_none ob)
          · exact ih hrest x hx

theorem packContacts_of_nonNull {ctlist : List ContactEl} (h : ∀ ctel ∈ ctlist, ctel.NonNull) :
    packContacts ctlist = some (.array (ctlist.map ContactEl.obj)) := by
  have hitems : ctlist.mapM writeContactEl = some (ctlist.map ContactEl.obj) :=
    mapM_eq_some_map fun ctel hctel => writeContactEl_eq_obj (h ctel hctel)
  rw [packContacts, hitems, Option.map_some]

/-- A list that can be stored has no NULL in it. -/
theorem SafeList.nonNull {signed : Bool} {ctlist : List ContactEl} (h : SafeList signed ctlist) :
    ∀ ctel ∈ ctlist, ctel.NonNull := by
  refine nonNull_of_packContacts fun hnone => ?_
  cases ctlist with
  | nil => exact absurd hnone (by simp [packContacts])
  | cons ctel ctlist =>
      have hst : StoreClient := storeOpen [] (byteOf 'c')
      refine h.store (ctel :: ctlist) (List.Subset.refl _) (contactsAlloc hst []) [] ?_
      unfold storeContacts
      dsimp only
      rw [hnone]
      rfl

/-- **A list of filled contacts** is safe. -/
theorem safeList_of_filled (signed : Bool) {ctlist : List ContactEl}
    (h : ∀ ctel ∈ ctlist, ctel.Filled) : SafeList signed ctlist where
  sort n p hp :=
    let hmem := mem_of_mem_compared (ContactEl.sortHandler signed) hp
    ⟨(h _ hmem.1).nonNull.2.1, (h _ hmem.2).nonNull.2.1⟩
  store bundle hsub ct key := by
    cases bundle with
    | nil => exact Option.some_ne_none _
    | cons ctel bundle =>
        have hlogin := (h ctel (hsub List.mem_cons_self)).nonNull.1
        obtain ⟨login, hlogin⟩ := Option.ne_none_iff_exists'.mp hlogin
        unfold storeContacts
        dsimp only
        rw [packContacts_of_filled fun x hx => h x (hsub hx), hlogin]
        exact Option.some_ne_none _
  report bundle hsub := by
    obtain ⟨els, hels, -⟩ := exists_mapM fun ctel hctel =>
      exists_doWriteCtel (h ctel (hsub hctel)).nonNull
    unfold reportCtlist
    rw [if_neg (not_not.mpr rfl), hels]
    exact Option.some_ne_none _

/-- **Every decodable contact**, exactly: what comes of an answer of the server never makes the
module read through NULL if and only if every raw in it is a string that is not empty. -/
theorem processed_iff (signed : Bool) (status : ℕ) (raws : List ContactRaws) :
    (∀ ctlist, ComesOfBody (contactsBody status raws) ctlist → SafeList signed ctlist) ↔
      ∀ r ∈ raws, r.Filled := by
  have hparse := blobParse_contactsBody status raws
  constructor
  · intro h r hr
    have hnull := (h _ .received).nonNull
    -- the stored list is read back with a NULL for each field that is empty
    have hpack := packContacts_of_nonNull hnull
    have hback := (h _ (.readBack (List.Subset.refl _) hpack)).nonNull
    have hmem : r.ctel ∈ blobParse (some (contactsBody status raws)) := by
      rw [hparse]
      exact List.mem_map_of_mem hr
    have hread : ContactEl.obj r.ctel ∈
        (blobParse (some (contactsBody status raws))).map ContactEl.obj :=
      List.mem_map_of_mem hmem
    rw [← r.filled_ctel_iff]
    exact filled_of_readBack rfl (hback _ (List.mem_filterMap.mpr ⟨_, hread, rfl⟩))
  · intro h ctlist hcomes
    have hfilled : ∀ ctel ∈ blobParse (some (contactsBody status raws)), ctel.Filled := by
      rw [hparse]
      intro ctel hctel
      obtain ⟨r, hr, rfl⟩ := List.mem_map.mp hctel
      exact r.filled_ctel_iff.mpr (h r hr)
    cases hcomes with
    | received => exact safeList_of_filled signed hfilled
    | readBack hsub hblob =>
        rw [packContacts_of_filled fun x hx => hfilled x (hsub hx)] at hblob
        obtain rfl := Option.some.inj hblob
        rw [storeBlobParse_obj fun x hx => hfilled x (hsub hx)]
        exact safeList_of_filled signed fun x hx => hfilled x (hsub hx)

/-- Two contacts, one without a name: the first comparison reads through NULL. -/
theorem not_safeList_empty_name :
    ¬ ∀ ctlist, ComesOfBody (contactsBody 0
        [⟨bytes (lit "bob"), [], bytes (lit "1")⟩,
          ⟨bytes (lit "al"), bytes (lit "Al"), bytes (lit "2")⟩])
      ctlist → SafeList true ctlist := by
  intro h
  have hsafe := h _ .received
  have hpair : (ContactRaws.ctel ⟨bytes (lit "bob"), [], bytes (lit "1")⟩,
      ContactRaws.ctel ⟨bytes (lit "al"), bytes (lit "Al"), bytes (lit "2")⟩) ∈
      compared (ContactEl.sortHandler true) 1 (blobParse (some (contactsBody 0
        [⟨bytes (lit "bob"), [], bytes (lit "1")⟩,
          ⟨bytes (lit "al"), bytes (lit "Al"), bytes (lit "2")⟩]))) :=
    List.mem_cons_self
  exact (hsafe.sort 1 _ hpair).1 rfl
