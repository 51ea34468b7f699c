/-
# Reports to the control client

`tcreport.c` writes what happens to the control client, as one msgpack array for each report.
Each writer announces the number of the elements by hand before it pushes them, in most of
them depending on an error code, and some push a list of arrays as the last element.  The
announced numbers are right in every branch, so the client reads one array for each report
(`reports_framed`), as long as no list is too long for an array: its length is counted in
32 bits.

A NULL string is passed to `strlen`; there is no result then.
-/
import Tcsip.Call
import Tcsip.Contacts
import Tcsip.History
import Tcsip.MsgpackPack

open Flags Msgpack

/-! ## Writers -/

/-- `msgpack_pack_array` for `n` elements, and what is pushed after it. -/
def packMessage (n : ℕ) (parts : List (List Byte)) : List Byte := packArray n ++ parts.flatten

/-- `list_count`: a 32-bit number. -/
def listCount {α : Type} (l : List α) : ℕ := l.length % 2 ^ 32

/-- `struct field_error`. -/
structure FieldError where
  field : Option Text
  code : Option Text
  desc : Option Text
  deriving DecidableEq

/-- `report_call_change`. -/
def reportCallChange (ckey : Option Text) (cstate : CallState) (reason : ℤ) :
    Option (List Byte) :=
  if cstate &&& cstateAlive = 0#32 then do
    let ckey ← pushStr ckey
    some (packMessage 3 [pushCstr (lit "sip.call.del"), ckey, packInt reason])
  else if Test cstate cstateEst then do
    let ckey ← pushStr ckey
    some (packMessage 2 [pushCstr (lit "sip.call.est"), ckey])
  else some []

/-- `report_call`; `dname` and `user` are those of the remote address. -/
def reportCall (ckey : Option Text) (cdir cstate ts : ℤ) (dname user : List Byte) :
    Option (List Byte) := do
  let ckey ← pushStr ckey
  some (packMessage 7 [pushCstr (lit "sip.call.add"), ckey, packInt cdir, packInt cstate,
    packInt ts, pushPl dname, pushPl user])

/-- `report_reg`. -/
def reportReg (state : ℤ) : List Byte :=
  packMessage 2 [pushCstr (lit "sip.reg"), packInt state]

/-- `report_up`. -/
def reportUp (op : ℤ) (uri : List Byte) (ok : ℤ) : List Byte :=
  packMessage (if op ≠ 0 then 4 else 3)
    ([pushCstr (lit "sip.up"), packInt op, pushPl uri] ++ if op ≠ 0 then [packInt ok] else [])

/-- `report_msg`; a negative state stands for an incoming message. -/
def reportMsg (ts : ℤ) (idx : Option Text) (auri data : List Byte) (state : ℤ) :
    Option (List Byte) := do
  let idx ← pushStr idx
  some (packMessage 6 [if state < 0 then pushCstr (lit "msg.in") else pushCstr (lit "msg.out"),
    packInt ts, idx, pushPl auri, pushPl data, packInt (if state < 0 then -state else state)])

/-- `report_cert`. -/
def reportCert (err : ℤ) (name uri : List Byte) : List Byte :=
  packMessage (if err ≠ 0 then 2 else 4)
    ([pushCstr (lit "cert.ok"), packInt err] ++
      if err = 0 then [pushPl name, pushPl uri] else [])

/-- `report_lp`. -/
def reportLp (err : ℤ) (token : List Byte) : List Byte :=
  packMessage (if err = 1 then 3 else 2)
    ([pushCstr (lit "api.login_phone"), packInt err] ++ if err = 1 then [pushPl token] else [])

/-- `write_field_err`. -/
def writeFieldErr (fe : FieldError) : Option (List Byte) := do
  let field ← pushStr fe.field
  let code ← pushStr fe.code
  let desc ← pushStr fe.desc
  some (packMessage 3 [field, code, desc])

/-- `report_signup`. -/
def reportSignup (err : ℤ) (elist : List FieldError) : Option (List Byte) :=
  if err = 1 then do
    let els ← elist.mapM writeFieldErr
    some (packMessage 3 [pushCstr (lit "api.signup"), packInt err,
      packMessage (listCount elist) els])
  else some (packMessage 2 [pushCstr (lit "api.signup"), packInt err])

/-- The name of a history element: a missing one is the literal `""`. -/
def pushName : Option Text → Option (List Byte)
  | some name => pushStr (some name)
  | none => some (pushCstr [])

/-- `do_write_history_el`. -/
def doWriteHistoryEl (hel : HistEl) : Option (List Byte) := do
  let key ← pushStr hel.key
  let uri ← pushStr hel.uri
  let name ← pushName hel.name
  some (packMessage 5 [packInt hel.event.toInt, packInt hel.time.toInt, key, uri, name])

/-- `report_hist`. -/
def reportHist (err : ℤ) (idx : Option Text) (hlist : List HistEl) : Option (List Byte) :=
  if err ≠ 0 then some (packMessage 2 [pushCstr (lit "hist.res"), packInt err])
  else do
    let idx ← pushStr idx
    let els ← hlist.mapM doWriteHistoryEl
    some (packMessage 4 [pushCstr (lit "hist.res"), packInt err, idx,
      packMessage (listCount hlist) els])

/-- `do_write_ctel`. -/
def doWriteCtel (ctel : ContactEl) : Option (List Byte) := do
  let login ← pushStr ctel.login
  let name ← pushStr ctel.name
  let phone ← pushStr ctel.phone
  some (packMessage 3 [login, name, phone])

/-- `report_ctlist`. -/
def reportCtlist (err : ℤ) (ctlist : List ContactEl) : Option (List Byte) :=
  if err ≠ 0 then some (packMessage 2 [pushCstr (lit "contacts.res"), packInt err])
  else do
    let els ← ctlist.mapM doWriteCtel
    some (packMessage 3 [pushCstr (lit "contacts.res"), packInt err,
      packMessage (listCount ctlist) els])

/-- `report_histel`. -/
def reportHistel (err op : ℤ) (hel : HistEl) : Option (List Byte) :=
  if err ≠ 0 then some (packMessage 2 [pushCstr (lit "hist.add"), packInt err])
  else do
    let el ← doWriteHistoryEl hel
    some (packMessage 4 [pushCstr (lit "hist.add"), packInt err, packInt op, el])

/-- A call of one of the writers. -/
inductive Report where
  | callChange (ckey : Option Text) (cstate : CallState) (reason : ℤ)
  | call (ckey : Option Text) (cdir cstate ts : ℤ) (dname user : List Byte)
  | reg (state : ℤ)
  | up (op : ℤ) (uri : List Byte) (ok : ℤ)
  | msg (ts : ℤ) (idx : Option Text) (auri data : List Byte) (state : ℤ)
  | cert (err : ℤ) (name uri : List Byte)
  | lp (err : ℤ) (token : List Byte)
  | signup (err : ℤ) (elist : List FieldError)
  | hist (err : ℤ) (idx : Option Text) (hlist : List HistEl)
  | ctlist (err : ℤ) (l : List ContactEl)
  | histel (err op : ℤ) (hel : HistEl)

/-- The bytes it writes. -/
def Report.write : Report → Option (List Byte)
  | .callChange ckey cstate reason => reportCallChange ckey cstate reason
  | .call ckey cdir cstate ts dname user => reportCall ckey cdir cstate ts dname user
  | .reg state => some (reportReg state)
  | .up op uri ok => some (reportUp op uri ok)
  | .msg ts idx auri data state => reportMsg ts idx auri data state
  | .cert err name uri => some (reportCert err name uri)
  | .lp err token => some (reportLp err token)
  | .signup err elist => reportSignup err elist
  | .hist err idx hlist => reportHist err idx hlist
  | .ctlist err l => reportCtlist err l
  | .histel err op hel => reportHistel err op hel

/-! ## What is to be read -/

/-- A number, as an `int`. -/
def intOf (x : ℤ) : Obj := .integer (x.bmod (2 ^ 32))

/-- A string. -/
def strOf (c : Option Text) : Obj := rawOf (bytes (c.getD []))

/-- A literal. -/
def litOf (s : String) : Obj := rawOf (bytes (lit s))

/-- What is written for a field that the server refused. -/
def FieldError.report (fe : FieldError) : Obj :=
  .array [strOf fe.field, strOf fe.code, strOf fe.desc]

/-- What is written for a call of the history. -/
def HistEl.report (hel : HistEl) : Obj :=
  .array [intOf hel.event.toInt, intOf hel.time.toInt, strOf hel.key, strOf hel.uri,
    strOf hel.name]

/-- What is written for a contact. -/
def ContactEl.report (ctel : ContactEl) : Obj :=
  .array [strOf ctel.login, strOf ctel.name, strOf ctel.phone]

/-- The elements of the array that a report is, or nothing for a call that is alive and not
established. -/
def Report.elements : Report → Option (List Obj)
  | .callChange ckey cstate reason =>
    if cstate &&& cstateAlive = 0#32 then some [litOf "sip.call.del", strOf ckey, intOf reason]
    else if Test cstate cstateEst then some [litOf "sip.call.est", strOf ckey]
    else none
  | .call ckey cdir cstate ts dname user =>
    some [litOf "sip.call.add", strOf ckey, intOf cdir, intOf cstate, intOf ts, rawOf dname,
      rawOf user]
  | .reg state => some [litOf "sip.reg", intOf state]
  | .up op uri ok =>
    some ([litOf "sip.up", intOf op, rawOf uri] ++ if op ≠ 0 then [intOf ok] else [])
  | .msg ts idx auri data state =>
    some [if state < 0 then litOf "msg.in" else litOf "msg.out", intOf ts, strOf idx, rawOf auri,
      rawOf data, intOf (if state < 0 then -state else state)]
  | .cert err name uri =>
    some ([litOf "cert.ok", intOf err] ++ if err = 0 then [rawOf name, rawOf uri] else [])
  | .lp err token =>
    some ([litOf "api.login_phone", intOf err] ++ if err = 1 then [rawOf token] else [])
  | .signup err elist =>
    some ([litOf "api.signup", intOf err] ++
      if err = 1 then [.array (elist.map FieldError.report)] else [])
  | .hist err idx hlist =>
    some ([litOf "hist.res", intOf err] ++
      if err = 0 then [strOf idx, .array (hlist.map HistEl.report)] else [])
  | .ctlist err l =>
    some ([litOf "contacts.res", intOf err] ++
      if err = 0 then [.array (l.map ContactEl.report)] else [])
  | .histel err op hel =>
    some ([litOf "hist.add", intOf err] ++ if err = 0 then [intOf op, hel.report] else [])

/-- The name of the array. -/
def Report.name : Report → String
  | .callChange _ cstate _ =>
    if cstate &&& cstateAlive = 0#32 then "sip.call.del" else "sip.call.est"
  | .call _ _ _ _ _ _ => "sip.call.add"
  | .reg _ => "sip.reg"
  | .up _ _ _ => "sip.up"
  | .msg _ _ _ _ state => if state < 0 then "msg.in" else "msg.out"
  | .cert _ _ _ => "cert.ok"
  | .lp _ _ => "api.login_phone"
  | .signup _ _ => "api.signup"
  | .hist _ _ _ => "hist.res"
  | .ctlist _ _ => "contacts.res"
  | .histel _ _ _ => "hist.add"

/-- The strings are there, where the writers rely on it. -/
def FieldError.NonNull (fe : FieldError) : Prop :=
  fe.field ≠ none ∧ fe.code ≠ none ∧ fe.desc ≠ none

/-- The writer measures these two with `strlen`. -/
def HistEl.NonNull (hel : HistEl) : Prop := hel.key ≠ none ∧ hel.uri ≠ none

/-- The writer measures all three with `strlen`. -/
def ContactEl.NonNull (ctel : ContactEl) : Prop :=
  ctel.login ≠ none ∧ ctel.name ≠ none ∧ ctel.phone ≠ none

/-- No string is missing that the writer of the report needs. -/
def Report.NonNull : Report → Prop
  | .callChange ckey _ _ | .call ckey _ _ _ _ _ => ckey ≠ none
  | .reg _ | .up _ _ _ | .cert _ _ _ | .lp _ _ => True
  | .msg _ idx _ _ _ => idx ≠ none
  | .signup _ elist => ∀ fe ∈ elist, fe.NonNull
  | .hist _ idx hlist => idx ≠ none ∧ ∀ hel ∈ hlist, hel.NonNull
  | .ctlist _ l => ∀ ctel ∈ l, ctel.NonNull
  | .histel _ _ hel => hel.NonNull

/-- A list has fewer elements than 32 bits can count. -/
def Report.Countable : Report → Prop
  | .signup _ elist => elist.length < 2 ^ 32
  | .hist _ _ hlist => hlist.length < 2 ^ 32
  | .ctlist _ l => l.length < 2 ^ 32
  | _ => True

/-! ## Each report is one array -/

/-- **The announced number** has to be that of the elements. -/
theorem encodes_packMessage {d : ℕ} {parts : List (List Byte)} {obs : List Obj} {n : ℕ}
    (h : List.Forall₂ (Encodes d) parts obs) (hn : n = obs.length) (hlt : n < 2 ^ 32) :
    Encodes (d + 1) (packMessage n parts) (.array obs) := by
  subst hn
  exact encodes_array (asks_packArray hlt) h

theorem exists_pushStr {c : Option Text} (h : c ≠ none) (d : ℕ) :
    ∃ e, pushStr c = some e ∧ Encodes d e (strOf c) := by
  obtain ⟨t, rfl⟩ := Option.ne_none_iff_exists'.mp h
  exact ⟨_, rfl, encodes_pushStr rfl d⟩

/-- The elements of a list, written one after the other. -/
theorem exists_mapM {α : Type} {d : ℕ} {f : α → Option (List Byte)} {g : α → Obj} {l : List α}
    (h : ∀ x ∈ l, ∃ e, f x = some e ∧ Encodes d e (g x)) :
    ∃ es, l.mapM f = some es ∧ List.Forall₂ (Encodes d) es (l.map g) := by
  induction l with
  | nil => exact ⟨[], rfl, .nil⟩
  | cons x l ih =>
      obtain ⟨e, he, henc⟩ := h x List.mem_cons_self
      obtain ⟨es, hes, hall⟩ := ih fun y hy => h y (List.mem_cons_of_mem _ hy)
      refine ⟨e :: es, ?_, .cons henc hall⟩
      rw [List.mapM_cons, he, hes]
      rfl

/-- A list of at most `2 ^ 32 - 1` elements as an array. -/
theorem encodes_list {α : Type} {d : ℕ} {g : α → Obj} {l : List α} {es : List (List Byte)}
    (h : List.Forall₂ (Encodes d) es (l.map g)) (hlt : l.length < 2 ^ 32) :
    Encodes (d + 1) (packMessage (listCount l) es) (.array (l.map g)) := by
  have hcount : listCount l = l.length := Nat.mod_eq_of_lt hlt
  rw [hcount]
  exact encodes_packMessage h (List.length_map _).symm hlt

theorem exists_writeFieldErr {fe : FieldError} (h : fe.NonNull) :
    ∃ e, writeFieldErr fe = some e ∧ Encodes 1 e fe.report := by
  obtain ⟨field, hfield, hf⟩ := exists_pushStr h.1 0
  obtain ⟨code, hcode, hc⟩ := exists_pushStr h.2.1 0
  obtain ⟨desc, hdesc, hd⟩ := exists_pushStr h.2.2 0
  refine ⟨packMessage 3 [field, code, desc], ?_, ?_⟩
  · simp [writeFieldErr, hfield, hcode, hdesc]
  · exact encodes_packMessage (.cons hf (.cons hc (.cons hd .nil))) rfl (by decide)

theorem exists_doWriteCtel {ctel : ContactEl} (h : ctel.NonNull) :
    ∃ e, doWriteCtel ctel = some e ∧ Encodes 1 e ctel.report := by
  obtain ⟨login, hlogin, hl⟩ := exists_pushStr h.1 0
  obtain ⟨name, hname, hn⟩ := exists_pushStr h.2.1 0
  obtain ⟨phone, hphone, hp⟩ := exists_pushStr h.2.2 0
  refine ⟨packMessage 3 [login, name, phone], ?_, ?_⟩
  · simp [doWriteCtel, hlogin, hname, hphone]
  · exact encodes_packMessage (.cons hl (.cons hn (.cons hp .nil))) rfl (by decide)

theorem exists_pushName (name : Option Text) (d : ℕ) :
    ∃ e, pushName name = some e ∧ Encodes d e (strOf name) := by
  cases name with
  | none => exact ⟨_, rfl, encodes_pushCstr [] d⟩
  | some t => exact exists_pushStr (Option.some_ne_none t) d

theorem exists_doWriteHistoryEl {hel : HistEl} (h : hel.NonNull) :
    ∃ e, doWriteHistoryEl hel = some e ∧ Encodes 1 e hel.report := by
  obtain ⟨key, hkey, hk⟩ := exists_pushStr h.1 0
  obtain ⟨uri, huri, hu⟩ := exists_pushStr h.2 0
  obtain ⟨name, hname, hn⟩ := exists_pushName hel.name 0
  refine ⟨packMessage 5 [packInt hel.event.toInt, packInt hel.time.toInt, key, uri, name], ?_, ?_⟩
  · simp [doWriteHistoryEl, hkey, huri, hname]
  · exact encodes_packMessage (.cons (encodes_packInt _ 0) (.cons (encodes_packInt _ 0)
      (.cons hk (.cons hu (.cons hn .nil))))) rfl (by decide)

/-- What one call writes is nothing, or one array with these elements. -/
def Report.Framed (r : Report) (e : List Byte) : Prop :=
  match r.elements with
  | none => e = []
  | some obs => Encodes 3 e (.array obs)

theorem Report.Framed.of_elements {r : Report} {obs : List Obj} (h : r.elements = some obs)
    {e : List Byte} (he : Encodes 3 e (.array obs)) : r.Framed e := by
  unfold Report.Framed
  rw [h]
  exact he

/-- The name of a report and its code are pushed first. -/
theorem encodes_head (s : String) (err : ℤ) (d : ℕ) :
    List.Forall₂ (Encodes d) [pushCstr (lit s), packInt err] [litOf s, intOf err] :=
  .cons (encodes_pushCstr _ d) (.cons (encodes_packInt err d) .nil)

/-- A report that is nothing but these. -/
theorem framed_head {r : Report} {s : String} {err : ℤ}
    (h : r.elements = some [litOf s, intOf err]) :
    r.Framed (packMessage 2 [pushCstr (lit s), packInt err]) :=
  .of_elements h (encodes_packMessage (encodes_head s err 2) rfl (by decide))

theorem framed_reportCallChange {ckey : Option Text} (h : ckey ≠ none) (cstate : CallState)
    (reason : ℤ) :
    ∃ e, reportCallChange ckey cstate reason = some e ∧
      (Report.callChange ckey cstate reason).Framed e := by
  obtain ⟨key, hkey, hk⟩ := exists_pushStr h 2
  have helements : (Report.callChange ckey cstate reason).elements =
      if cstate &&& cstateAlive = 0#32 then some [litOf "sip.call.del", strOf ckey, intOf reason]
      else if Test cstate cstateEst then some [litOf "sip.call.est", strOf ckey]
      else none := rfl
  unfold reportCallChange
  by_cases hdead : cstate &&& cstateAlive = 0#32
  · rw [if_pos hdead, hkey]
    refine ⟨_, rfl, .of_elements (helements.trans (if_pos hdead)) ?_⟩
    exact encodes_packMessage (.cons (encodes_pushCstr _ 2) (.cons hk
      (.cons (encodes_packInt reason 2) .nil))) rfl (by decide)
  · rw [if_neg hdead] at helements ⊢
    by_cases hest : Test cstate cstateEst
    · rw [if_pos hest, hkey]
      refine ⟨_, rfl, .of_elements (helements.trans (if_pos hest)) ?_⟩
      exact encodes_packMessage (.cons (encodes_pushCstr _ 2) (.cons hk .nil)) rfl (by decide)
    · rw [if_neg hest] at helements ⊢
      refine ⟨[], rfl, ?_⟩
      unfold Report.Framed
      rw [helements]

theorem framed_reportUp (op : ℤ) (uri : List Byte) (ok : ℤ) :
    (Report.up op uri ok).Framed (reportUp op uri ok) := by
  have hhead : List.Forall₂ (Encodes 2) [pushCstr (lit "sip.up"), packInt op, pushPl uri]
      [litOf "sip.up", intOf op, rawOf uri] :=
    .cons (encodes_pushCstr _ 2) (.cons (encodes_packInt op 2)
      (.cons (encodes_pushPl uri 2) .nil))
  unfold reportUp
  refine .of_elements rfl ?_
  by_cases hop : op ≠ 0
  · rw [if_pos hop, if_pos hop, if_pos hop]
    exact encodes_packMessage (List.rel_append hhead (.cons (encodes_packInt ok 2) .nil)) rfl
      (by decide)
  · rw [if_neg hop, if_neg hop, if_neg hop]
    exact encodes_packMessage hhead rfl (by decide)

theorem framed_reportCert (err : ℤ) (name uri : List Byte) :
    (Report.cert err name uri).Framed (reportCert err name uri) := by
  unfold reportCert
  refine .of_elements rfl ?_
  by_cases herr : err = 0
  · rw [if_neg (not_not.mpr herr), if_pos herr, if_pos herr]
    exact encodes_packMessage (List.rel_append (encodes_head "cert.ok" err 2)
      (.cons (encodes_pushPl name 2) (.cons (encodes_pushPl uri 2) .nil))) rfl (by decide)
  · rw [if_pos herr, if_neg herr, if_neg herr]
    exact encodes_packMessage (encodes_head "cert.ok" err 2) rfl (by decide)

theorem framed_reportLp (err : ℤ) (token : List Byte) :
    (Report.lp err token).Framed (reportLp err token) := by
  unfold reportLp
  refine .of_elements rfl ?_
  by_cases herr : err = 1
  · rw [if_pos herr, if_pos herr, if_pos herr]
    exact encodes_packMessage (List.rel_append (encodes_head "api.login_phone" err 2)
      (.cons (encodes_pushPl token 2) .nil)) rfl (by decide)
  · rw [if_neg herr, if_neg herr, if_neg herr]
    exact encodes_packMessage (encodes_head "api.login_phone" err 2) rfl (by decide)

theorem framed_reportSignup {elist : List FieldError} (h : ∀ fe ∈ elist, fe.NonNull)
    (hlt : elist.length < 2 ^ 32) (err : ℤ) :
    ∃ e, reportSignup err elist = some e ∧ (Report.signup err elist).Framed e := by
  unfold reportSignup
  by_cases herr : err = 1
  · obtain ⟨els, hels, hall⟩ := exists_mapM fun fe hfe => exists_writeFieldErr (h fe hfe)
    rw [if_pos herr, hels]
    refine ⟨_, rfl, .of_elements rfl ?_⟩
    rw [if_pos herr]
    exact encodes_packMessage (List.rel_append (encodes_head "api.signup" err 2)
      (.cons (encodes_list hall hlt) .nil)) rfl (by decide)
  · rw [if_neg herr]
    refine ⟨_, rfl, framed_head ?_⟩
    simp [Report.elements, herr]

theorem framed_reportHist {hlist : List HistEl} (h : ∀ hel ∈ hlist, hel.NonNull)
    (hlt : hlist.length < 2 ^ 32) {idx : Option Text} (hidx : idx ≠ none) (err : ℤ) :
    ∃ e, reportHist err idx hlist = some e ∧ (Report.hist err idx hlist).Framed e := by
  unfold reportHist
  by_cases herr : err = 0
  · obtain ⟨i, hi, hidx⟩ := exists_pushStr hidx 2
    obtain ⟨els, hels, hall⟩ := exists_mapM fun hel hhel => exists_doWriteHistoryEl (h hel hhel)
    rw [if_neg (not_not.mpr herr), hi, hels]
    refine ⟨_, rfl, .of_elements rfl ?_⟩
    rw [if_pos herr]
    exact encodes_packMessage (List.rel_append (encodes_head "hist.res" err 2)
      (.cons hidx (.cons (encodes_list hall hlt) .nil))) rfl (by decide)
  · rw [if_pos herr]
    refine ⟨_, rfl, framed_head ?_⟩
    simp [Report.elements, herr]

theorem framed_reportCtlist {l : List ContactEl} (h : ∀ ctel ∈ l, ctel.NonNull)
    (hlt : l.length < 2 ^ 32) (err : ℤ) :
    ∃ e, reportCtlist err l = some e ∧ (Report.ctlist err l).Framed e := by
  unfold reportCtlist
  by_cases herr : err = 0
  · obtain ⟨els, hels, hall⟩ := exists_mapM fun ctel hctel => exists_doWriteCtel (h ctel hctel)
    rw [if_neg (not_not.mpr herr), hels]
    refine ⟨_, rfl, .of_elements rfl ?_⟩
    rw [if_pos herr]
    exact encodes_packMessage (List.rel_append (encodes_head "contacts.res" err 2)
      (.cons (encodes_list hall hlt) .nil)) rfl (by decide)
  · rw [if_pos herr]
    refine ⟨_, rfl, framed_head ?_⟩
    simp [Report.elements, herr]

theorem framed_reportHistel {hel : HistEl} (h : hel.NonNull) (err op : ℤ) :
    ∃ e, reportHistel err op hel = some e ∧ (Report.histel err op hel).Framed e := by
  unfold reportHistel
  by_cases herr : err = 0
  · obtain ⟨el, hel', henc⟩ := exists_doWriteHistoryEl h
    rw [if_neg (not_not.mpr herr), hel']
    refine ⟨_, rfl, .of_elements rfl ?_⟩
    rw [if_pos herr]
    exact encodes_packMessage (List.rel_append (encodes_head "hist.add" err 2)
      (.cons (encodes_packInt op 2) (.cons (henc.mono (by decide)) .nil))) rfl (by decide)
  · rw [if_pos herr]
    refine ⟨_, rfl, framed_head ?_⟩
    simp [Report.elements, herr]

/-- **One call** of any writer. -/
theorem exists_write {r : Report} (hnull : r.NonNull) (hcount : r.Countable) :
    ∃ e, r.write = some e ∧ r.Framed e := by
  cases r with
  | callChange ckey cstate reason => exact framed_reportCallChange hnull cstate reason
  | call ckey cdir cstate ts dname user =>
      obtain ⟨key, hkey, hk⟩ := exists_pushStr hnull 2
      show ∃ e, reportCall ckey cdir cstate ts dname user = some e ∧ _
      unfold reportCall
      rw [hkey]
      refine ⟨_, rfl, .of_elements rfl ?_⟩
      exact encodes_packMessage (.cons (encodes_pushCstr _ 2) (.cons hk
        (.cons (encodes_packInt cdir 2) (.cons (encodes_packInt cstate 2)
          (.cons (encodes_packInt ts 2) (.cons (encodes_pushPl dname 2)
            (.cons (encodes_pushPl user 2) .nil))))))) rfl (by decide)
  | reg state => exact ⟨_, rfl, framed_head rfl⟩
  | up op uri ok => exact ⟨_, rfl, framed_reportUp op uri ok⟩
  | msg ts idx auri data state =>
      obtain ⟨i, hi, hidx⟩ := exists_pushStr hnull 2
      have hname : Encodes 2
          (if state < 0 then pushCstr (lit "msg.in") else pushCstr (lit "msg.out"))
          (if state < 0 then litOf "msg.in" else litOf "msg.out") := by
        split_ifs
        · exact encodes_pushCstr _ 2
        · exact encodes_pushCstr _ 2
      show ∃ e, reportMsg ts idx auri data state = some e ∧ _
      unfold reportMsg
      rw [hi]
      refine ⟨_, rfl, .of_elements rfl ?_⟩
      exact encodes_packMessage (.cons hname (.cons (encodes_packInt ts 2) (.cons hidx
        (.cons (encodes_pushPl auri 2) (.cons (encodes_pushPl data 2)
          (.cons (encodes_packInt _ 2) .nil)))))) rfl (by decide)
  | cert err name uri => exact ⟨_, rfl, framed_reportCert err name uri⟩
  | lp err token => exact ⟨_, rfl, framed_reportLp err token⟩
  | signup err elist => exact framed_reportSignup hnull hcount err
  | hist err idx hlist => exact framed_reportHist hnull.2 hcount hnull.1 err
  | ctlist err l => exact framed_reportCtlist hnull hcount err
  | histel err op hel => exact framed_reportHistel hnull err op

/-- **The stream of reports.**  For any sequence of reports whose strings are there and whose
lists can be counted, the client reads one array for each, in order and with its elements, but
none for a call that is alive and not established; and it is left where a report begins. -/
theorem reports_framed (rs : List Report) (hnull : ∀ r ∈ rs, r.NonNull)
    (hcount : ∀ r ∈ rs, r.Countable) :
    ∃ es, rs.mapM Report.write = some es ∧
      Reads (Unpacker.fresh.feed es.flatten) ((rs.filterMap Report.elements).map Obj.array)
        .fresh := by
  induction rs with
  | nil => exact ⟨[], rfl, .out rfl⟩
  | cons r rs ih =>
      obtain ⟨e, he, hframed⟩ := exists_write (hnull r List.mem_cons_self)
        (hcount r List.mem_cons_self)
      obtain ⟨es, hes, hreads⟩ := ih (fun x hx => hnull x (List.mem_cons_of_mem _ hx))
        fun x hx => hcount x (List.mem_cons_of_mem _ hx)
      refine ⟨e :: es, by rw [List.mapM_cons, he, hes]; rfl, ?_⟩
      rw [List.flatten_cons, List.filterMap_cons]
      unfold Report.Framed at hframed
      cases hel : r.elements with
      | none =>
          rw [hel] at hframed
          rw [hframed]
          exact hreads
      | some obs =>
          rw [hel] at hframed
          exact hframed [] (by decide) es.flatten _ .fresh ⟨_, rfl, hreads⟩

/-- A message, the contacts, and a call that ended. -/
theorem reports_framed_three :
    let rs : List Report := [
      .msg 1400000000 (some (lit "1")) (bytes (lit "sip:bob@x")) [104, 105] (-1),
      .ctlist 0 [⟨some (lit "bob"), some (lit "Bob"), some []⟩],
      .callChange (some (lit "5@a->b")) cstateErr 1]
    ∃ es, rs.mapM Report.write = some es ∧
      Reads (Unpacker.fresh.feed es.flatten) ((rs.filterMap Report.elements).map Obj.array)
        .fresh :=
  reports_framed
    [.msg 1400000000 (some (lit "1")) (bytes (lit "sip:bob@x")) [104, 105] (-1),
      .ctlist 0 [⟨some (lit "bob"), some (lit "Bob"), some []⟩],
      .callChange (some (lit "5@a->b")) cstateErr 1]
    (by simp [Report.NonNull, ContactEl.NonNull]) (by simp [Report.Countable])

instance decidableNonNull : ∀ r : Report, Decidable r.NonNull
  | .callChange ckey _ _ | .call ckey _ _ _ _ _ => inferInstanceAs (Decidable (ckey ≠ none))
  | .reg _ | .up _ _ _ | .cert _ _ _ | .lp _ _ => isTrue trivial
  | .msg _ idx _ _ _ => inferInstanceAs (Decidable (idx ≠ none))
  | .signup _ elist => inferInstanceAs (Decidable
      (∀ fe ∈ elist, fe.field ≠ none ∧ fe.code ≠ none ∧ fe.desc ≠ none))
  | .hist _ idx hlist => inferInstanceAs (Decidable
      (idx ≠ none ∧ ∀ hel ∈ hlist, hel.key ≠ none ∧ hel.uri ≠ none))
  | .ctlist _ l => inferInstanceAs (Decidable
      (∀ ctel ∈ l, ctel.login ≠ none ∧ ctel.name ≠ none ∧ ctel.phone ≠ none))
  | .histel _ _ hel => inferInstanceAs (Decidable (hel.key ≠ none ∧ hel.uri ≠ none))

instance decidableCountable : ∀ r : Report, Decidable r.Countable
  | .signup _ elist => inferInstanceAs (Decidable (elist.length < _))
  | .hist _ _ hlist => inferInstanceAs (Decidable (hlist.length < _))
  | .ctlist _ l => inferInstanceAs (Decidable (l.length < _))
  | .callChange _ _ _ | .call _ _ _ _ _ _ | .reg _ | .up _ _ _ | .cert _ _ _ | .lp _ _ |
    .msg _ _ _ _ _ | .histel _ _ _ => isTrue trivial

theorem rawOf_of_lt {b : List Byte} (h : b.length < 2 ^ 32) : rawOf b = .raw b := by
  rw [rawOf, Nat.mod_eq_of_lt h, List.take_length]

theorem litOf_eq {s : String} (h : (lit s).length < 2 ^ 32) : litOf s = .raw (bytes (lit s)) :=
  rawOf_of_lt ((List.length_map _).trans_lt h)

/-- The name comes first. -/
theorem Report.elements_name {r : Report} {els : List Obj} (h : r.elements = some els) :
    ∃ rest, els = litOf r.name :: rest := by
  cases r with
  | callChange ckey cstate reason =>
      unfold Report.elements at h
      unfold Report.name
      dsimp only at h ⊢
      split_ifs at h ⊢ <;> obtain rfl := Option.some.inj h <;> exact ⟨_, rfl⟩
  | msg ts idx auri data state =>
      obtain rfl := Option.some.inj h
      unfold Report.name
      dsimp only
      split_ifs <;> exact ⟨_, rfl⟩
  | _ =>
      obtain rfl := Option.some.inj h
      exact ⟨_, rfl⟩

theorem Report.litOf_name (r : Report) : litOf r.name = .raw (bytes (lit r.name)) := by
  apply litOf_eq
  unfold Report.name
  cases r with
  | callChange ckey cstate reason =>
      dsimp only
      split <;> decide
  | msg ts idx auri data state =>
      dsimp only
      split <;> decide
  | _ =>
      dsimp only
      decide

theorem strOf_of_lt {t : Text} (h : t.length < 2 ^ 32) : strOf (some t) = .raw (bytes t) :=
  rawOf_of_lt ((List.length_map _).trans_lt h)

theorem bytes_inj {t u : Text} : bytes t = bytes u ↔ t = u := by
  refine ⟨fun h => ?_, congrArg bytes⟩
  rw [← cstr_bytes t, h, cstr_bytes]

/-- These bytes are arrays one after the other, and nothing else. -/
def ReportsHeard (sent : List Byte) (obs : List Obj) : Prop :=
  ∃ es, sent = es.flatten ∧ List.Forall₂ (Encodes 3) es obs

theorem reportsHeard_nil : ReportsHeard [] [] := ⟨[], rfl, .nil⟩

theorem ReportsHeard.reads {sent : List Byte} {obs : List Obj} (h : ReportsHeard sent obs) :
    Reads (Unpacker.fresh.feed sent) obs .fresh := by
  obtain ⟨es, rfl, henc⟩ := h
  exact reads_flatten (by decide) henc

/-- A report adds its array, if it is one. -/
theorem ReportsHeard.framed {sent e : List Byte} {obs : List Obj} {r : Report}
    (h : ReportsHeard sent obs) (hframed : r.Framed e) :
    ReportsHeard (sent ++ e) (obs ++ (r.elements.map Obj.array).toList) := by
  obtain ⟨es, rfl, henc⟩ := h
  unfold Report.Framed at hframed
  cases hel : r.elements with
  | none =>
      rw [hel] at hframed
      rw [hframed, List.append_nil]
      exact ⟨es, rfl, by simpa using henc⟩
  | some els =>
      rw [hel] at hframed
      exact ⟨es ++ [e], by simp, List.rel_append henc (.cons hframed .nil)⟩

theorem ReportsHeard.write {sent buf : List Byte} {obs : List Obj} {r : Report}
    (h : ReportsHeard sent obs)
    (hnull : r.NonNull) (hcount : r.Countable) (hr : r.write = some buf) :
    ReportsHeard (sent ++ buf) (obs ++ (r.elements.map Obj.array).toList) := by
  obtain ⟨e, he, hframed⟩ := exists_write hnull hcount
  obtain rfl := Option.some.inj (he.symm.trans hr)
  exact h.framed hframed

/-- Where the count of a list comes round to 0, the list is announced as empty, and its elements
follow the report. -/
theorem reportCtlist_of_overflow {l : List ContactEl} (h : ∀ ctel ∈ l, ctel.NonNull)
    (hcount : l.length % 2 ^ 32 = 0) :
    ∃ e, reportCtlist 0 l = some e ∧
      Reads (Unpacker.fresh.feed e)
        (.array [litOf "contacts.res", intOf 0, .array []] :: l.map ContactEl.report) .fresh := by
  obtain ⟨els, hels, hall⟩ := exists_mapM fun ctel hctel => exists_doWriteCtel (h ctel hctel)
  unfold reportCtlist
  rw [if_neg (not_not.mpr rfl), hels]
  refine ⟨_, rfl, ?_⟩
  have hempty : Encodes 2 (packMessage 0 []) (.array []) :=
    (encodes_packMessage .nil rfl (by decide)).mono (d := 1) (by decide)
  have hreport : Encodes 3 (packMessage 3 [pushCstr (lit "contacts.res"), packInt 0,
      packMessage 0 []]) (.array [litOf "contacts.res", intOf 0, .array []]) :=
    encodes_packMessage (List.rel_append (encodes_head "contacts.res" 0 2) (.cons hempty .nil)) rfl
      (by decide)
  have hflat : packMessage 3 [pushCstr (lit "contacts.res"), packInt 0,
        packMessage (listCount l) els] =
      (packMessage 3 [pushCstr (lit "contacts.res"), packInt 0, packMessage 0 []] ::
        els).flatten := by
    unfold listCount
    rw [hcount]
    simp [packMessage]
  rw [hflat]
  refine reads_flatten (d := 3) (by decide) (.cons hreport ?_)
  exact hall.imp fun _ _ henc => henc.mono (by decide)

/-- `2 ^ 32` contacts are not read as one array. -/
theorem not_framed_overflow :
    ∃ e, (Report.ctlist 0 (List.replicate (2 ^ 32)
        ⟨some (lit "bob"), some (lit "Bob"), some []⟩)).write = some e ∧
      ¬ ∃ ob up, Reads (Unpacker.fresh.feed e) [ob] up := by
  have hnull : ∀ ctel ∈ List.replicate (2 ^ 32)
      (⟨some (lit "bob"), some (lit "Bob"), some []⟩ : ContactEl), ctel.NonNull := by
    intro ctel hctel
    rw [List.eq_of_mem_replicate hctel]
    exact ⟨Option.some_ne_none _, Option.some_ne_none _, Option.some_ne_none _⟩
  obtain ⟨e, he, hreads⟩ := reportCtlist_of_overflow hnull
    (by rw [List.length_replicate, Nat.mod_self])
  refine ⟨e, he, ?_⟩
  rintro ⟨ob, up, hone⟩
  have hlen := congrArg List.length (hone.unique hreads).1
  rw [List.length_singleton, List.length_cons, List.length_map, List.length_replicate] at hlen
  omega
