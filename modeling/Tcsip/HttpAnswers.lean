/-
# Answers of the server

A request ends in one of two callbacks: `http_api_err` after an error, or `http_api_done` with
a status code and a body.  Each of the three operations below is to tell the user interface
how it went, once.  They leave their handlers by `goto`s to shared labels, and some paths
pass a report that others need, or pass none.

A body is what `msgpack_unpack_next` makes of it, if anything.  Reading an element that an
array does not have, or a member of the union that is not the one that was unpacked, has no
result here (`none`).  The last section says for which bodies the list of contacts is read
without that.
-/
import Tcsip.Bundles
import Tcsip.Report

open Chunks NeighbourSort

/-- How an HTTP request ended. -/
inductive HttpOutcome where
  | failed
  | done (code : ℤ) (body : Option Obj)

/-- A positive integer that is 0 as `int`. -/
def IsZero : Obj → Prop
  | .integer i => 0 ≤ i ∧ (2 ^ 32 : ℤ) ∣ i
  | _ => False

/-- An `int` is 0 for the multiples of 2^32. -/
theorem ofInt_eq_zero_iff (i : ℤ) : Int32.ofInt i = 0 ↔ (2 ^ 32 : ℤ) ∣ i := by
  rw [← Int32.toInt_inj, Int32.toInt_ofInt, Int32.toInt_zero]
  exact (Int.dvd_iff_bmod_eq_zero (a := 2 ^ 32) (b := i)).symm

/-- A list is read as a whole exactly when each element is. -/
theorem exists_mapM_eq_some_iff {α β : Type} {f : α → Option β} {l : List α} :
    (∃ bs, l.mapM f = some bs) ↔ ∀ a ∈ l, ∃ b, f a = some b := by
  induction l with
  | nil => simp
  | cons a l ih =>
      rw [List.forall_mem_cons, ← ih]
      constructor
      · rintro ⟨bs, h⟩
        rw [List.mapM_cons] at h
        obtain ⟨b, hb, hrest⟩ := Option.bind_eq_some_iff.mp h
        obtain ⟨bs', hbs', -⟩ := Option.bind_eq_some_iff.mp hrest
        exact ⟨⟨b, hb⟩, bs', hbs'⟩
      · rintro ⟨⟨b, hb⟩, bs', hbs'⟩
        refine ⟨b :: bs', ?_⟩
        rw [List.mapM_cons, hb, hbs']
        rfl

/-! ## Logging in by phone -/

/-- A call of `tcsip_report_login`: `LP_OK`, `LP_TOKEN` with the token, or `LP_FAIL`. -/
inductive LoginReport where
  | ok
  | token (token : List Byte)
  | fail
  deriving DecidableEq

namespace LoginPhone

/-- `handle_response` between unpacking the body and the label `out`. -/
def reportsOf : Obj → Option (List LoginReport)
  | .array [] => none
  | .array (.integer i :: rest) =>
    if 0 ≤ i then
      match rest with
      | [] => some (if Int32.ofInt i = 0 then [.ok] else [])
      | [arg] =>
        if Int32.ofInt i = 0 then arg.rawBytes.map fun token => [.token token] else some []
      | _ => some []
    else some []
  | _ => some []

/-- `handle_response`: whatever comes to the label `out` reports `LP_FAIL`. -/
def handleResponse : Option Obj → Option (List LoginReport)
  | none => some []
  | some obj => (reportsOf obj).map fun reports => reports ++ [.fail]

/-- The reports of `http_api_done` and `http_api_err`. -/
def reports : HttpOutcome → Option (List LoginReport)
  | .failed => some [.fail]
  | .done code body => if code = 200 then handleResponse body else some [.fail]

/-- The one report that the body asks for. -/
def wanted : HttpOutcome → LoginReport
  | .done code (some (.array [.integer 0])) => if code = 200 then .ok else .fail
  | .done code (some (.array [.integer 0, .raw token])) =>
    if code = 200 then .token token else .fail
  | _ => .fail

/-- A body that can be unpacked and does not say that the login succeeded: no empty array, and no
array of one or two elements that begins with 0. -/
def PlainFailure : Option Obj → Prop
  | none | some (.array []) => False
  | some (.array (arg :: rest)) => IsZero arg → 2 ≤ rest.length
  | some _ => True

/-- No body asks for a success and is told to have failed plainly. -/
theorem wanted_of_plainFailure {code : ℤ} {body : Option Obj} (h : PlainFailure body) :
    wanted (.done code body) = .fail := by
  have hzero : IsZero (.integer 0) := ⟨le_rfl, dvd_zero _⟩
  unfold wanted
  split
  · next hbody =>
    obtain ⟨rfl, rfl⟩ := HttpOutcome.done.inj hbody
    exact absurd (h hzero) (by simp)
  · next hbody =>
    obtain ⟨rfl, rfl⟩ := HttpOutcome.done.inj hbody
    exact absurd (h hzero) (by simp)
  · rfl

/-- **What comes to the label `out`** without a report before. -/
theorem reportsOf_eq_nil_iff (obj : Obj) : reportsOf obj = some [] ↔ PlainFailure (some obj) := by
  unfold reportsOf
  split
  · simp [PlainFailure]
  · next i rest =>
    have hzero : IsZero (.integer i) ↔ 0 ≤ i ∧ Int32.ofInt i = 0 := by
      rw [ofInt_eq_zero_iff]
      exact Iff.rfl
    show _ ↔ (IsZero (.integer i) → 2 ≤ rest.length)
    rw [hzero]
    by_cases hpos : 0 ≤ i
    · rw [if_pos hpos]
      by_cases hcode : Int32.ofInt i = 0
      · match rest with
        | [] => simp [hpos, hcode]
        | [arg] => simp [hpos, hcode]
        | _ :: _ :: rest => simp
      · match rest with
        | [] => simp [hcode]
        | [arg] => simp [hcode]
        | _ :: _ :: rest => simp
    · simp [hpos]
  · next hempty hinteger =>
    refine iff_of_true rfl ?_
    match obj with
    | .array [] => exact absurd rfl hempty
    | .array (.integer i :: rest) => exact absurd rfl (hinteger i rest)
    | .array (.nil :: _) | .array (.boolean _ :: _) | .array (.double _ :: _)
    | .array (.raw _ :: _) | .array (.array _ :: _) | .array (.map _ :: _) => exact False.elim
    | .nil | .boolean _ | .integer _ | .double _ | .raw _ | .map _ => trivial

/-- **A body is told in one report** exactly when it can be unpacked and says nothing of a
success. -/
theorem handleResponse_iff (body : Option Obj) :
    handleResponse body = some [wanted (.done 200 body)] ↔ PlainFailure body := by
  cases body with
  | none => exact iff_of_false (by simp [handleResponse]) id
  | some obj =>
      rw [← reportsOf_eq_nil_iff]
      constructor
      · intro h
        obtain ⟨reports, hreports, heq⟩ := Option.map_eq_some_iff.mp h
        -- the last report is the failure, so it is the only one
        have hlen := congrArg List.length heq
        rw [List.length_append, List.length_singleton, List.length_singleton] at hlen
        rw [hreports, List.length_eq_zero_iff.mp (by omega : reports.length = 0)]
      · intro h
        have hplain := (reportsOf_eq_nil_iff obj).mp h
        rw [handleResponse, h, wanted_of_plainFailure hplain]
        rfl

/-- Another code than 200 asks for a failure. -/
theorem wanted_of_ne {code : ℤ} (h : code ≠ 200) (body : Option Obj) :
    wanted (.done code body) = .fail := by
  unfold wanted
  split
  · next heq => rw [← (HttpOutcome.done.inj heq).1, if_neg h]
  · next heq => rw [← (HttpOutcome.done.inj heq).1, if_neg h]
  · rfl

end LoginPhone

/-- **When the phone login reports one outcome.**  The one report that is asked for is made,
and no other, exactly when the request failed, or its code is not 200, or the body can be
unpacked and does not say that the login succeeded. -/
theorem loginPhone_reports_iff (o : HttpOutcome) :
    LoginPhone.reports o = some [LoginPhone.wanted o]
      ↔ ∀ body, o = .done 200 body → LoginPhone.PlainFailure body := by
  cases o with
  | failed => exact iff_of_true rfl fun body h => HttpOutcome.noConfusion h
  | done code body =>
      by_cases hcode : code = 200
      · subst hcode
        rw [LoginPhone.reports, if_pos rfl, LoginPhone.handleResponse_iff]
        exact ⟨fun h body' heq => (HttpOutcome.done.inj heq).2 ▸ h, fun h => h body rfl⟩
      · rw [LoginPhone.wanted_of_ne hcode, LoginPhone.reports, if_neg hcode]
        exact iff_of_true rfl fun body' heq => absurd (HttpOutcome.done.inj heq).1 hcode

/-- A login that succeeds is reported as a success and as a failure. -/
theorem loginPhone_ok_and_fail :
    LoginPhone.wanted (.done 200 (some (.array [.integer 0]))) = .ok ∧
      LoginPhone.reports (.done 200 (some (.array [.integer 0]))) = some [.ok, .fail] ∧
      LoginPhone.reports (.done 200 none) = some [] := by
  refine ⟨rfl, ?_, rfl⟩
  decide

/-! ## Signing up -/

/-- A call of `tcsip_report_signup`: `SIGNUP_OK`, `SIGNUP_ERRORS` with the errors, or
`SIGNUP_FAIL`. -/
inductive SignupReport where
  | ok
  | errors (errlist : List FieldError)
  | fail
  deriving DecidableEq

namespace Signup

/-- The body of the loop over the errors: each one is an array of three strings. -/
def fieldError : Obj → Option FieldError
  | .array (.raw field :: .raw code :: .raw desc :: _) =>
    some { field := some (cstr field), code := some (cstr code), desc := some (cstr desc) }
  | _ => none

/-- `handle_response` for what follows a code that is not 0. -/
def reportErrors : List Obj → Option (List SignupReport)
  | .array [] :: _ => none
  | .array (.array l :: items) :: _ =>
    ((.array l :: items).mapM fieldError).map fun errlist => [.errors errlist]
  | _ => some [.fail]

/-- `handle_response`. -/
def handleResponse : Option Obj → Option (List SignupReport)
  | none => some []
  | some (.array []) => none
  | some (.array (.integer i :: rest)) =>
    if 0 ≤ i then if Int32.ofInt i = 0 then some [.ok] else reportErrors rest
    else some []
  -- an array that begins with something else leads to the label `out`
  | some (.array _) => some []
  | some _ => some [.fail]

/-- The reports of `http_api_done` and `http_api_err`. -/
def reports : HttpOutcome → Option (List SignupReport)
  | .failed => some [.fail]
  | .done code body => if code = 200 then handleResponse body else some [.fail]

/-- Three strings, at least. -/
def ThreeStrings (item : Obj) : Prop :=
  ∃ field code desc more, item = .array (.raw field :: .raw code :: .raw desc :: more)

/-- No empty list of errors; and if the first error is an array, each one is an array of three
strings. -/
def ReadableErrors : List Obj → Prop
  | .array [] :: _ => False
  | .array (.array l :: items) :: _ => ∀ item ∈ .array l :: items, ThreeStrings item
  | _ => True

/-- A body that can be unpacked, and either is no array or begins with a positive integer, which
is 0 or followed by errors that can be read. -/
def Readable : Option Obj → Prop
  | none | some (.array []) => False
  | some (.array (.integer i :: rest)) => 0 ≤ i ∧ (¬ (2 ^ 32 : ℤ) ∣ i → ReadableErrors rest)
  | some (.array _) => False
  | some _ => True

theorem fieldError_isSome_iff (item : Obj) :
    (∃ fe, fieldError item = some fe) ↔ ThreeStrings item := by
  constructor
  · rintro ⟨fe, h⟩
    unfold fieldError at h
    split at h
    · exact ⟨_, _, _, _, rfl⟩
    · exact absurd h (by simp)
  · rintro ⟨field, code, desc, more, rfl⟩
    exact ⟨_, rfl⟩

/-- All errors can be read exactly when each one can. -/
theorem mapM_fieldError_isSome_iff (items : List Obj) :
    (∃ errlist, items.mapM fieldError = some errlist) ↔ ∀ item ∈ items, ThreeStrings item := by
  rw [exists_mapM_eq_some_iff]
  exact forall₂_congr fun item _ => fieldError_isSome_iff item

/-- **After a code that is not 0** there is one report if the errors can be read. -/
theorem reportErrors_iff (rest : List Obj) :
    (∃ r, reportErrors rest = some [r]) ↔ ReadableErrors rest := by
  match rest with
  | .array [] :: _ => exact iff_of_false (by simp [reportErrors]) id
  | .array (.array l :: items) :: _ =>
      show (∃ r, Option.map _ ((Obj.array l :: items).mapM fieldError) = some [r]) ↔
        ∀ item ∈ Obj.array l :: items, ThreeStrings item
      rw [← mapM_fieldError_isSome_iff]
      constructor
      · rintro ⟨r, h⟩
        obtain ⟨errlist, herr, -⟩ := Option.map_eq_some_iff.mp h
        exact ⟨errlist, herr⟩
      · rintro ⟨errlist, herr⟩
        exact ⟨.errors errlist, by rw [herr, Option.map_some]⟩
  | [] | .nil :: _ | .boolean _ :: _ | .integer _ :: _ | .double _ :: _ | .raw _ :: _
  | .map _ :: _ | .array (.nil :: _) :: _ | .array (.boolean _ :: _) :: _
  | .array (.integer _ :: _) :: _ | .array (.double _ :: _) :: _ | .array (.raw _ :: _) :: _
  | .array (.map _ :: _) :: _ => exact iff_of_true ⟨.fail, rfl⟩ trivial

/-- **A body leads to one report** exactly when it can be read. -/
theorem handleResponse_iff (body : Option Obj) :
    (∃ r, handleResponse body = some [r]) ↔ Readable body := by
  match body with
  | none => exact iff_of_false (by simp [handleResponse]) id
  | some (.array []) => exact iff_of_false (by simp [handleResponse]) id
  | some (.array (.integer i :: rest)) =>
      unfold handleResponse Readable
      dsimp only
      rw [← ofInt_eq_zero_iff]
      by_cases hpos : 0 ≤ i
      · rw [if_pos hpos]
        by_cases hcode : Int32.ofInt i = 0
        · rw [if_pos hcode]
          exact iff_of_true ⟨.ok, rfl⟩ ⟨hpos, fun h => absurd hcode h⟩
        · rw [if_neg hcode, reportErrors_iff]
          exact ⟨fun h => ⟨hpos, fun _ => h⟩, fun h => h.2 hcode⟩
      · rw [if_neg hpos]
        exact iff_of_false (by simp) fun h => hpos h.1
  | some (.array (.nil :: _)) | some (.array (.boolean _ :: _)) | some (.array (.double _ :: _))
  | some (.array (.raw _ :: _)) | some (.array (.array _ :: _)) | some (.array (.map _ :: _)) =>
      exact iff_of_false (by simp [handleResponse]) id
  | some .nil | some (.boolean _) | some (.integer _) | some (.double _) | some (.raw _)
  | some (.map _) => exact iff_of_true ⟨.fail, rfl⟩ trivial

end Signup

/-! ## Fetching the contacts -/

namespace ContactsAnswer

/-- `blob_parse`, where it reads nothing that is not there: what is no array, or does not begin
with a positive integer, is an empty list. -/
def contactItems : Option Obj → Option (List ContactEl)
  | some (.array []) => none
  | some (.array (.integer i :: rest)) =>
    if 0 ≤ i then
      match rest with
      | .array items :: _ => items.mapM fun item => item.elems.bind ctelParse
      | _ => none
    else some []
  | _ => some []

/-- The lists that `http_ct_done` hands to the handler: the first bundle of the sorted list, if
the sort returns.  That is before the bundle is stored, so it is told even if storing it fails.
`http_ct_err` does nothing. -/
def calls (signed : Bool) (ct : Contacts) : HttpOutcome → List (List ContactEl)
  | .failed => []
  | .done code body =>
    if code = 200 then
      match (contactItems body).bind (sortContacts signed) with
      | none => []
      | some ctlist => if ct.ch then (chunks 29 ctlist.length ctlist).take 1 else []
    else []

/-- The list of the body can be read and is not empty, and it has one contact only, or all names
are there and no two of them are the same. -/
def Sortable (body : Option Obj) : Prop :=
  ∃ ctlist, contactItems body = some ctlist ∧ ctlist ≠ [] ∧
    (ctlist.length ≤ 1 ∨
      (∀ ctel ∈ ctlist, ctel.name ≠ none) ∧ (ctlist.map ContactEl.name).Nodup)

/-- A list that is read without missing an item is what `blobParse` reads. -/
theorem filterMap_eq_of_mapM {f : Obj → Option ContactEl} {items : List Obj}
    {ctlist : List ContactEl} (h : items.mapM f = some ctlist) : items.filterMap f = ctlist := by
  induction items generalizing ctlist with
  | nil =>
      rw [List.mapM_nil] at h
      obtain rfl := Option.some.inj h
      rfl
  | cons item items ih =>
      rw [List.mapM_cons] at h
      obtain ⟨ctel, hctel, hrest⟩ := Option.bind_eq_some_iff.mp h
      obtain ⟨cts, hcts, heq⟩ := Option.bind_eq_some_iff.mp hrest
      obtain rfl := Option.some.inj heq
      rw [List.filterMap_cons, hctel, ih hcts]

/-- Where `contactItems` has a result, it is that of `blobParse`. -/
theorem blobParse_eq {body : Option Obj} {ctlist : List ContactEl}
    (h : contactItems body = some ctlist) : blobParse body = ctlist := by
  unfold contactItems at h
  split at h
  · exact absurd h (by simp)
  · next i rest =>
    split_ifs at h with hpos
    · split at h
      · next items more =>
        show (if 0 ≤ i then items.filterMap (fun item => item.elems.bind ctelParse) else []) =
          ctlist
        rw [if_pos hpos, filterMap_eq_of_mapM h]
      · exact absurd h (by simp)
    · obtain rfl := Option.some.inj h
      cases rest with
      | nil => rfl
      | cons contacts rest => exact if_neg hpos
  · next hempty hinteger =>
    obtain rfl := Option.some.inj h
    match body with
    | none | some .nil | some (.boolean _) | some (.integer _) | some (.double _) | some (.raw _)
    | some (.map _) => rfl
    | some (.array []) => exact absurd rfl hempty
    | some (.array (.integer i :: rest)) => exact absurd rfl (hinteger i rest)
    | some (.array (.nil :: _)) | some (.array (.boolean _ :: _)) | some (.array (.double _ :: _))
    | some (.array (.raw _ :: _)) | some (.array (.array _ :: _))
    | some (.array (.map _ :: _)) => rfl

/-- **The calls of the model**: when `http_ct_done` returns, these lists went to the handler. -/
theorem httpCtDone_calls {signed : Bool} {times : ℕ → Timeval} {code : ℤ} {body : Option Obj}
    {ct ct' : Contacts} {outs : List ContactsOut} {ctlist : List ContactEl}
    (hitems : contactItems body = some ctlist)
    (h : httpCtDone signed times code body ct = some (ct', outs)) :
    outs = (calls signed ct (.done code body)).map fun b => .handler (some b) := by
  unfold httpCtDone at h
  unfold calls
  dsimp only
  by_cases hcode : code = 200
  · rw [if_pos hcode] at h
    rw [blobParse_eq hitems] at h
    obtain ⟨sorted, hsort, hloop⟩ := Option.bind_eq_some_iff.mp h
    rw [if_pos hcode, hitems, Option.bind_some, hsort]
    rw [Bundles.bundleLoop_eq times le_rfl] at hloop
    obtain ⟨ct'', -, heq⟩ := Option.map_eq_some_iff.mp hloop
    obtain ⟨-, rfl⟩ := Prod.mk.inj heq
    rw [Bool.true_and]
    cases hch : ct.ch with
    | false => rfl
    | true =>
        dsimp only
        cases chunks 29 sorted.length sorted <;> rfl
  · rw [if_neg hcode] at h ⊢
    obtain ⟨-, rfl⟩ := Prod.mk.inj (Option.some.inj h)
    rfl

/-- Of a list that is not empty there is a first bundle. -/
theorem exists_take_chunks {α : Type} {l : List α} :
    (∃ b, (chunks 29 l.length l).take 1 = [b]) ↔ l ≠ [] := by
  cases l with
  | nil => simp [chunks]
  | cons a l => simp [chunks]

/-- **An answer reaches the handler once** exactly when its contacts can be sorted. -/
theorem calls_iff (signed : Bool) (ct : Contacts) (body : Option Obj) :
    (∃ bulk, calls signed (contactsHandler ct) (.done 200 body) = [bulk]) ↔ Sortable body := by
  unfold calls Sortable
  dsimp only
  rw [if_pos rfl]
  cases hitems : contactItems body with
  | none => simp
  | some ctlist =>
      rw [Option.bind_some]
      have hsort := exists_sortContacts_iff signed ctlist
      cases hsorted : sortContacts signed ctlist with
      | none =>
          rw [hsorted] at hsort
          have hno := mt hsort.mpr (by simp)
          refine iff_of_false (by simp) ?_
          rintro ⟨l, hl, -, hnames⟩
          rw [← Option.some.inj hl] at hnames
          exact hno hnames
      | some sorted =>
          rw [hsorted] at hsort
          have hnames := hsort.mp ⟨sorted, rfl⟩
          have hnil : sorted ≠ [] ↔ ctlist ≠ [] := not_congr
            ⟨fun h => (h ▸ sortContacts_perm hsorted).nil_eq.symm,
              fun h => (h ▸ sortContacts_perm hsorted).eq_nil⟩
          show (∃ bulk, (chunks 29 sorted.length sorted).take 1 = [bulk]) ↔ _
          rw [exists_take_chunks, hnil]
          constructor
          · exact fun hne => ⟨ctlist, rfl, hne, hnames⟩
          · rintro ⟨l, hl, hne, -⟩
            rwa [← Option.some.inj hl] at hne

end ContactsAnswer

/-- **When a signup and a fetch of contacts are answered.**  A signup leads to one report
exactly when the request failed, or its code is not 200, or the body can be read; a fetch that
goes to the server leads to one call of the handler exactly when the code is 200 and the body
holds contacts that can be sorted. -/
theorem requests_answered_iff (signed : Bool) (ct : Contacts) (o : HttpOutcome) :
    ((∃ r, Signup.reports o = some [r]) ↔ ∀ body, o = .done 200 body → Signup.Readable body) ∧
      ((∃ bulk, ContactsAnswer.calls signed (contactsHandler ct) o = [bulk])
        ↔ ∃ body, o = .done 200 body ∧ ContactsAnswer.Sortable body) := by
  cases o with
  | failed =>
      refine ⟨iff_of_true ⟨.fail, rfl⟩ fun body h => HttpOutcome.noConfusion h, ?_⟩
      exact iff_of_false (by simp [ContactsAnswer.calls]) (by simp)
  | done code body =>
      by_cases hcode : code = 200
      · subst hcode
        constructor
        · rw [Signup.reports, if_pos rfl, Signup.handleResponse_iff]
          exact ⟨fun h body' heq => (HttpOutcome.done.inj heq).2 ▸ h, fun h => h body rfl⟩
        · rw [ContactsAnswer.calls_iff]
          refine ⟨fun h => ⟨body, rfl, h⟩, ?_⟩
          rintro ⟨body', heq, h⟩
          exact (HttpOutcome.done.inj heq).2 ▸ h
      · constructor
        · rw [Signup.reports, if_neg hcode]
          exact iff_of_true ⟨.fail, rfl⟩ fun body' heq => absurd (HttpOutcome.done.inj heq).1 hcode
        · refine iff_of_false (by simp [ContactsAnswer.calls, hcode]) ?_
          rintro ⟨body', heq, -⟩
          exact hcode (HttpOutcome.done.inj heq).1

/-- A signup whose answer cannot be unpacked is not reported; a fetch whose answer is an empty
list, or that fails, does not reach the handler. -/
theorem requests_unanswered :
    Signup.reports (.done 200 none) = some [] ∧
      ContactsAnswer.calls true (freshContacts (lit "alice") [])
        (.done 200 (some (.array [.integer 0, .array []]))) = [] ∧
      ContactsAnswer.calls true (freshContacts (lit "alice") []) .failed = [] :=
  ⟨rfl, by decide, rfl⟩

/-! ## What a body can make the client read -/

namespace ContactsAnswer

/-- The contact of a well-formed item `[login, name, phone]`. -/
def contactOf : Obj → Option ContactEl
  | .array [.raw login, .raw name, .raw phone] =>
    some { login := getStr login, name := getStr name, phone := getStr phone }
  | _ => none

/-- The contacts of a body `[code, items]`. -/
def contactsOf : Option Obj → List ContactEl
  | some (.array [.integer code, .array items]) =>
    if 0 ≤ code then items.filterMap contactOf else []
  | _ => []

/-- Every read of `blob_parse` and `ctel_parse` finds what it takes for granted: an array is not
empty, and behind a positive integer there is an array of arrays of three strings. -/
def Walkable (body : Option Obj) : Prop :=
  ∀ l, body = some (.array l) → l ≠ [] ∧ ∀ i rest, l = .integer i :: rest → 0 ≤ i →
    ∃ items more, rest = .array items :: more ∧ ∀ item ∈ items, Signup.ThreeStrings item

/-- There is nothing behind the items, and nothing behind the three strings of one. -/
def NothingMore (body : Option Obj) : Prop :=
  ∀ i items more, body = some (.array (.integer i :: .array items :: more)) → 0 ≤ i →
    items = [] ∨ more = [] ∧ ∀ item ∈ items, ∃ login name phone,
      item = .array [.raw login, .raw name, .raw phone]

theorem rawBytes_eq_some_iff {ob : Obj} {b : List Byte} : ob.rawBytes = some b ↔ ob = .raw b := by
  cases ob <;> simp [Obj.rawBytes]

theorem ctelParse_isSome_iff (item : Obj) :
    (∃ ctel, item.elems.bind ctelParse = some ctel) ↔ Signup.ThreeStrings item := by
  constructor
  · rintro ⟨ctel, h⟩
    obtain ⟨l, hl, hparse⟩ := Option.bind_eq_some_iff.mp h
    cases item with
    | array l' =>
        obtain rfl := Option.some.inj hl
        unfold ctelParse at hparse
        split at hparse
        · next login name phone more =>
          obtain ⟨blogin, hlogin, hparse⟩ := Option.bind_eq_some_iff.mp hparse
          obtain ⟨bname, hname, hparse⟩ := Option.bind_eq_some_iff.mp hparse
          obtain ⟨bphone, hphone, -⟩ := Option.bind_eq_some_iff.mp hparse
          rw [rawBytes_eq_some_iff] at hlogin hname hphone
          exact ⟨blogin, bname, bphone, more, by rw [hlogin, hname, hphone]⟩
        · exact absurd hparse (by simp)
    | nil | boolean | integer | double | raw | map => exact absurd hl (by simp [Obj.elems])
  · rintro ⟨login, name, phone, more, rfl⟩
    exact ⟨_, rfl⟩

/-- A body of items, behind a positive integer. -/
theorem contactItems_items {i : ℤ} (hi : 0 ≤ i) (items more : List Obj) :
    contactItems (some (.array (.integer i :: .array items :: more))) =
      items.mapM fun item => item.elems.bind ctelParse := if_pos hi

/-- **Safety**: every read is within its type exactly if the body is walkable. -/
theorem contactItems_isSome_iff (body : Option Obj) :
    (∃ ctlist, contactItems body = some ctlist) ↔ Walkable body := by
  match body with
  | none | some .nil | some (.boolean _) | some (.integer _) | some (.double _) | some (.raw _)
  | some (.map _) => exact iff_of_true ⟨[], rfl⟩ fun l hl => absurd hl (by simp)
  | some (.array []) =>
      exact iff_of_false (by simp [contactItems]) fun h => (h [] rfl).1 rfl
  | some (.array (.nil :: rest)) | some (.array (.boolean _ :: rest))
  | some (.array (.double _ :: rest)) | some (.array (.raw _ :: rest))
  | some (.array (.array _ :: rest)) | some (.array (.map _ :: rest)) =>
      refine iff_of_true ⟨[], rfl⟩ fun l hl => ?_
      obtain rfl := Obj.array.inj (Option.some.inj hl)
      exact ⟨List.cons_ne_nil _ _, fun i rest' h => absurd (List.cons.inj h).1 (by simp)⟩
  | some (.array (.integer i :: rest)) =>
      by_cases hi : 0 ≤ i
      · match rest with
        | .array items :: more =>
            rw [contactItems_items hi, exists_mapM_eq_some_iff]
            constructor
            · intro h l hl
              obtain rfl := Obj.array.inj (Option.some.inj hl)
              refine ⟨List.cons_ne_nil _ _, fun j rest' hrest _ => ?_⟩
              obtain ⟨-, rfl⟩ := List.cons.inj hrest
              exact ⟨items, more, rfl,
                fun item hitem => (ctelParse_isSome_iff item).mp (h item hitem)⟩
            · intro h item hitem
              obtain ⟨items', more', heq, hall⟩ := (h _ rfl).2 i _ rfl hi
              obtain rfl := Obj.array.inj (List.cons.inj heq).1
              exact (ctelParse_isSome_iff item).mpr (hall item hitem)
        | [] | .nil :: _ | .boolean _ :: _ | .integer _ :: _ | .double _ :: _ | .raw _ :: _
        | .map _ :: _ =>
            refine iff_of_false (by simp [contactItems, hi]) fun h => ?_
            obtain ⟨items, more, heq, -⟩ := (h _ rfl).2 i _ rfl hi
            exact absurd heq (by simp)
      · refine iff_of_true ⟨[], if_neg hi⟩ fun l hl => ?_
        obtain rfl := Obj.array.inj (Option.some.inj hl)
        refine ⟨List.cons_ne_nil _ _, fun j rest' h hj => absurd hj ?_⟩
        obtain ⟨hij, -⟩ := List.cons.inj h
        exact Obj.integer.inj hij ▸ hi

/-- The items are all well formed if as many contacts are. -/
theorem forall_contactOf_of_length {items : List Obj}
    (h : (items.filterMap contactOf).length = items.length) :
    ∀ item ∈ items, ∃ login name phone, item = .array [.raw login, .raw name, .raw phone] := by
  intro item hitem
  rw [List.length_filterMap_eq_countP, List.countP_eq_length] at h
  have hsome := h item hitem
  unfold contactOf at hsome
  split at hsome
  · exact ⟨_, _, _, rfl⟩
  · exact absurd hsome (by simp)

theorem length_of_mapM {f : Obj → Option ContactEl} {items : List Obj} {ctlist : List ContactEl}
    (h : items.mapM f = some ctlist) : ctlist.length = items.length := by
  rw [← filterMap_eq_of_mapM h, List.length_filterMap_eq_countP, List.countP_eq_length]
  intro item hitem
  obtain ⟨ctel, hctel⟩ := exists_mapM_eq_some_iff.mp ⟨ctlist, h⟩ item hitem
  rw [hctel, Option.isSome_some]

/-- Without items nothing is read. -/
theorem contactsOf_nil (i : ℤ) (more : List Obj) :
    contactsOf (some (.array (.integer i :: .array [] :: more))) = [] := by
  cases more with
  | nil => exact ite_self []
  | cons ob more => rfl

section no_items

variable {body : Option Obj}

theorem contactsOf_of_no_items
    (hitems : ¬ ∃ i items more, body = some (.array (.integer i :: .array items :: more)) ∧ 0 ≤ i) :
    contactsOf body = [] := by
  unfold contactsOf
  split
  · next code items =>
    split_ifs with hcode
    · exact absurd ⟨code, items, [], rfl, hcode⟩ hitems
    · rfl
  · rfl

theorem contactItems_of_no_items
    (hitems : ¬ ∃ i items more, body = some (.array (.integer i :: .array items :: more)) ∧ 0 ≤ i)
    {ctlist : List ContactEl} (h : contactItems body = some ctlist) : ctlist = [] := by
  unfold contactItems at h
  split at h
  · exact absurd h (by simp)
  · next i rest =>
    split_ifs at h with hi
    · split at h
      · next items more => exact absurd ⟨i, items, more, rfl, hi⟩ hitems
      · exact absurd h (by simp)
    · exact (Option.some.inj h).symm
  · exact (Option.some.inj h).symm

end no_items

/-- **A hostile answer causes no out-of-type read and leaves exactly the well-formed items**
precisely if its body is walkable and holds nothing more. -/
theorem contactItems_eq_contactsOf_iff (body : Option Obj) :
    contactItems body = some (contactsOf body) ↔ Walkable body ∧ NothingMore body := by
  have hwalk := contactItems_isSome_iff body
  by_cases hitems : ∃ i items more,
      body = some (.array (.integer i :: .array items :: more)) ∧ 0 ≤ i
  · obtain ⟨i, items, more, rfl, hi⟩ := hitems
    rw [← hwalk, contactItems_items hi]
    constructor
    · intro h
      refine ⟨⟨_, h⟩, fun i' items' more' heq _ => ?_⟩
      obtain ⟨-, heq⟩ := List.cons.inj (Obj.array.inj (Option.some.inj heq))
      obtain ⟨hitems', rfl⟩ := List.cons.inj heq
      obtain rfl := Obj.array.inj hitems'
      have hlen := length_of_mapM h
      cases more with
      | nil =>
          refine Or.inr ⟨rfl, forall_contactOf_of_length ?_⟩
          rw [← hlen, contactsOf, if_pos hi]
      | cons ob more => exact Or.inl (List.length_eq_zero_iff.mp hlen.symm)
    · rintro ⟨⟨ctlist, hctlist⟩, hmore⟩
      rcases hmore i items more rfl hi with rfl | ⟨rfl, hall⟩
      · rw [contactsOf_nil, List.mapM_nil]
        rfl
      · rw [hctlist, ← filterMap_eq_of_mapM hctlist, contactsOf, if_pos hi]
        congr 1
        apply List.filterMap_congr
        intro item hitem
        obtain ⟨login, name, phone, rfl⟩ := hall item hitem
        rfl
  · have hmore : NothingMore body := fun i items more heq hi =>
      absurd ⟨i, items, more, heq, hi⟩ hitems
    rw [and_iff_left hmore, ← hwalk, contactsOf_of_no_items hitems]
    constructor
    · exact fun h => ⟨_, h⟩
    · rintro ⟨ctlist, h⟩
      rw [h, contactItems_of_no_items hitems h]

/-- An answer `[0]` has the list read that it does not have. -/
theorem contactItems_short :
    ¬ ∀ body : Option Obj, contactItems body = some (contactsOf body) := by
  intro h
  exact absurd (h (some (.array [.integer 0]))) (by simp [contactItems])

end ContactsAnswer
