/-
# The blob of a history bundle

`history_add` packs the whole bundle again with every call that comes to it, by the encoder of
the reports to the control client (`do_write_history_el`), and a fetch takes it apart by
`hel_parse`.  A missing name and an empty one are packed alike, as an empty raw, and an empty
raw is read back as NULL.

So a bundle whose entries have a key and a uri comes back as it was but for empty names, and
packing what came back gives the same bytes (`history_survives_storage`): a bundle that is
read, grows and is stored again does not drift.
-/
import Tcsip.Report

open Msgpack

/-- The bytes that `history_add` packs. -/
def historyBytes (hlist : List HistEl) : Option (List Byte) :=
  (hlist.mapM doWriteHistoryEl).map (packMessage (listCount hlist))

/-- Key and uri are not empty. -/
def HistEl.Filled (hel : HistEl) : Prop := hel.key.getD [] ≠ [] ∧ hel.uri.getD [] ≠ []

instance HistEl.decidableFilled (hel : HistEl) : Decidable hel.Filled :=
  inferInstanceAs (Decidable (_ ∧ _))

/-- The entry with NULL in place of an empty name. -/
def HistEl.nameOrNull (hel : HistEl) : HistEl :=
  { hel with name := hel.name.filter fun name => decide (name ≠ []) }

/-- The lengths of the texts fit the format. -/
def HistEl.FitsFormat (hel : HistEl) : Prop :=
  (hel.key.getD []).length < 2 ^ 32 ∧ (hel.uri.getD []).length < 2 ^ 32 ∧
    (hel.name.getD []).length < 2 ^ 32

/-- The number of the entries and the lengths of their texts fit the format. -/
def FitsFormat (hlist : List HistEl) : Prop :=
  hlist.length < 2 ^ 32 ∧ ∀ hel ∈ hlist, hel.FitsFormat

section entry

variable {hel : HistEl}

theorem HistEl.Filled.nonNull (h : hel.Filled) : hel.NonNull := by
  obtain ⟨hkey, huri⟩ := h
  unfold HistEl.NonNull
  rw [eq_some_getD hkey, eq_some_getD huri]
  exact ⟨Option.some_ne_none _, Option.some_ne_none _⟩

/-- Only an empty name is read back as NULL. -/
theorem HistEl.Filled.stored_eq (h : hel.Filled) : hel.stored = hel.nameOrNull := by
  obtain ⟨hkey, huri⟩ := h
  unfold HistEl.stored HistEl.nameOrNull
  rw [bind_getStr_bytes, bind_getStr_bytes, bind_getStr_bytes, eq_some_getD hkey,
    eq_some_getD huri, Option.filter_some, Option.filter_some, if_pos (decide_eq_true hkey),
    if_pos (decide_eq_true huri)]

/-- A name that is left out reads as the empty one. -/
theorem getD_nameOrNull (hel : HistEl) : hel.nameOrNull.name.getD [] = hel.name.getD [] := by
  obtain ⟨key, uri, name, event, time⟩ := hel
  cases name with
  | none => rfl
  | some name =>
      cases name with
      | nil => rfl
      | cons c t => rfl

theorem pushName_eq (name : Option Text) : pushName name = pushStr (some (name.getD [])) := by
  cases name <;> rfl

/-- **A missing name is packed as an empty one.** -/
theorem doWriteHistoryEl_nameOrNull (hel : HistEl) :
    doWriteHistoryEl hel.nameOrNull = doWriteHistoryEl hel := by
  unfold doWriteHistoryEl
  rw [pushName_eq, getD_nameOrNull, pushName_eq]
  rfl

theorem writeHistoryEl_nameOrNull (hel : HistEl) :
    writeHistoryEl hel.nameOrNull = writeHistoryEl hel := by
  unfold writeHistoryEl
  rw [getD_nameOrNull]
  rfl

/-- A text that is not too long is a raw of its bytes. -/
theorem strOf_eq {t : Option Text} (h : (t.getD []).length < 2 ^ 32) :
    strOf t = .raw (bytes (t.getD [])) := by
  have hlen : (bytes (t.getD [])).length < 2 ^ 32 := by
    unfold bytes
    rwa [List.length_map]
  unfold strOf rawOf
  rw [Nat.mod_eq_of_lt hlen, List.take_length]

theorem intOf_toInt (x : Int32) : intOf x.toInt = .integer x.toInt := by
  have hlow := x.le_toInt
  have hhigh := x.toInt_lt
  unfold intOf
  rw [Int.bmod_eq_of_le (by omega) (by omega)]

/-- The object of an entry in the store is the one of its report. -/
theorem writeHistoryEl_eq_report (hnull : hel.NonNull) (hfits : hel.FitsFormat) :
    writeHistoryEl hel = some hel.report := by
  obtain ⟨hkey, huri, hname⟩ := hfits
  unfold HistEl.report
  rw [intOf_toInt, intOf_toInt, strOf_eq hkey, strOf_eq huri, strOf_eq hname]
  obtain ⟨key, uri, name, event, time⟩ := hel
  obtain ⟨key, rfl⟩ := Option.ne_none_iff_exists'.mp hnull.1
  obtain ⟨uri, rfl⟩ := Option.ne_none_iff_exists'.mp hnull.2
  rfl

end entry

section bundle

variable {hlist : List HistEl}

theorem packHistory_nameOrNull (hlist : List HistEl) :
    packHistory (hlist.map HistEl.nameOrNull) = packHistory hlist := by
  have hsame : writeHistoryEl ∘ HistEl.nameOrNull = writeHistoryEl :=
    funext writeHistoryEl_nameOrNull
  rw [packHistory, packHistory, List.mapM_map, hsame]

theorem historyBytes_nameOrNull (hlist : List HistEl) :
    historyBytes (hlist.map HistEl.nameOrNull) = historyBytes hlist := by
  have hsame : doWriteHistoryEl ∘ HistEl.nameOrNull = doWriteHistoryEl :=
    funext doWriteHistoryEl_nameOrNull
  rw [historyBytes, historyBytes, List.mapM_map, hsame, listCount, List.length_map, listCount]

theorem exists_historyBytes (h : ∀ hel ∈ hlist, hel.NonNull) :
    ∃ els, historyBytes hlist = some (packMessage (listCount hlist) els) ∧
      List.Forall₂ (Encodes 1) els (hlist.map HistEl.report) := by
  obtain ⟨els, hels, hall⟩ := exists_mapM fun hel hhel => exists_doWriteHistoryEl (h hel hhel)
  exact ⟨els, by rw [historyBytes, hels, Option.map_some], hall⟩

theorem packHistory_eq_report (h : ∀ hel ∈ hlist, hel.NonNull) (hfits : FitsFormat hlist) :
    packHistory hlist = some (.array (hlist.map HistEl.report)) := by
  have hitems : hlist.mapM writeHistoryEl = some (hlist.map HistEl.report) :=
    mapM_eq_some_map fun hel hhel =>
      writeHistoryEl_eq_report (h hel hhel) (hfits.2 hel hhel)
  rw [packHistory, hitems, Option.map_some]

/-- **The bytes are the object**: the parser finds it in them, and nothing else. -/
theorem reads_historyBytes (h : ∀ hel ∈ hlist, hel.NonNull) (hfits : FitsFormat hlist) {blob : Obj}
    (hblob : packHistory hlist = some blob) {bs : List Byte} (hbs : historyBytes hlist = some bs) :
    Reads ⟨.fresh, bs⟩ [blob] .fresh := by
  rw [packHistory_eq_report h hfits] at hblob
  obtain rfl := Option.some.inj hblob
  obtain ⟨els, hels, hall⟩ := exists_historyBytes h
  obtain rfl := Option.some.inj (hels.symm.trans hbs)
  have hreads := reads_flatten (by decide) (.cons (encodes_list hall hfits.1) .nil)
  rwa [List.flatten_cons, List.flatten_nil, List.append_nil] at hreads

end bundle

/-- **A bundle survives storage.**  Entries with key and uri are packed; they are read back in
their order, with NULL for an empty name; and what was read back is packed to the same blob, byte
for byte.  The parser finds the blob in the bytes if the lengths fit the format. -/
theorem history_survives_storage {hlist : List HistEl} (h : ∀ hel ∈ hlist, hel.Filled) :
    ∃ blob bs, packHistory hlist = some blob ∧ historyBytes hlist = some bs ∧
      storeBlobParse helParse blob = hlist.map HistEl.nameOrNull ∧
      packHistory (storeBlobParse helParse blob) = some blob ∧
      historyBytes (storeBlobParse helParse blob) = some bs ∧
      (FitsFormat hlist → Reads ⟨.fresh, bs⟩ [blob] .fresh) := by
  have hnull : ∀ hel ∈ hlist, hel.NonNull := fun hel hhel => (h hel hhel).nonNull
  obtain ⟨blob, hblob⟩ := exists_packHistory hlist hnull
  obtain ⟨els, hbs, -⟩ := exists_historyBytes hnull
  have hparse : storeBlobParse helParse blob = hlist.map HistEl.nameOrNull := by
    rw [storeBlobParse_packHistory hblob]
    exact List.map_congr_left fun hel hhel => (h hel hhel).stored_eq
  refine ⟨blob, _, hblob, hbs, hparse, ?_, ?_, fun hfits =>
    reads_historyBytes hnull hfits hblob hbs⟩
  · rw [hparse, packHistory_nameOrNull, hblob]
  · rw [hparse, historyBytes_nameOrNull, hbs]

/-- A call without a name, one with an empty name, and one with a negative event in the last second
that an `int` counts. -/
def storedCalls : List HistEl :=
  [{ (endedCall 1400000150 1400000100).el with name := none },
    { (endedCall 1400000151 1400000101).el with name := some [] },
    { (endedCall 1400000152 1400000102).el with event := -10, time := Int32.maxValue }]

/-- The three calls survive. -/
theorem history_survives_storedCalls :
    ∃ blob bs, packHistory storedCalls = some blob ∧ historyBytes storedCalls = some bs ∧
      storeBlobParse helParse blob = storedCalls.map HistEl.nameOrNull ∧
      packHistory (storeBlobParse helParse blob) = some blob ∧
      historyBytes (storeBlobParse helParse blob) = some bs ∧
      (FitsFormat storedCalls → Reads ⟨.fresh, bs⟩ [blob] .fresh) :=
  history_survives_storage (by decide)
