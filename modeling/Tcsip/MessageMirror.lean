/-
# What a control client knows of the messages

Each row that is written for a message is reported to the control client, if one is connected:
when the message is sent or comes in, and when a 200 to it has come.  A client that keeps the
latest text and state it was told for each `idx` shows what the database holds
(`shows_messages`), as long as the store keys grow.
-/
import Tcsip.CallReports
import Tcsip.MessageRows

open KeyedList Msgpack Runs

namespace MessageMirror

open CallReports

/-! ## The client and its messages -/

/-- The calls and the connection, the messages, and the rows that were there when the control
client connected. -/
structure Messenger where
  phone : Phone
  msgs : TcMessages
  before : List (Row Text Obj)

/-- After the first login. -/
def Messenger.init (stc : StoreClient) (user : Text) : Messenger :=
  ⟨.init, tcmessageAlloc stc [] user, []⟩

/-- The rows that the client sees. -/
def Messenger.rows (s : Messenger) : List (Row Text Obj) := current s.msgs.store s.msgs.table

/-- The time of the store key of the row that an event writes, and how `tcsip_report_message`
reports it; -1 stands for an incoming message. -/
def written (tcmsg : TcMessages) : MessageEvent → Option (Timeval × Report)
  | .message _ tv now toAddr text => some (now, .msg tv.sec (some (messageIdx tv tcmsg.user toAddr))
      (bytes toAddr) (bytes text) MsgState.pending.toInt)
  | .response i res now _ =>
    if res = .status 200 then
      (tcmsg.sip.requests[i]?).map fun q =>
        (now, .msg q.msg.tv.sec (some (messageIdx q.msg.tv tcmsg.user q.msg.user))
          (bytes q.msg.user) q.msg.data MsgState.sync.toInt)
    else none
  | .incoming now tv fromAddr data =>
    some (now, .msg tv.sec (some (messageIdx tv fromAddr tcmsg.user)) (bytes fromAddr) data (-1))
  | .flush _ | .restart => none

/-- Something happens to the calls or the connection, or to the messages. -/
inductive MessengerEvent where
  | phone (e : PhoneEvent)
  | message (e : MessageEvent)

/-- The rows that are there when a client connects. -/
def Messenger.seen (s : Messenger) : PhoneEvent → List (Row Text Obj)
  | .accept => if s.phone.client then s.before else s.rows
  | .calls _ _ _ | .eof | .report _ => s.before

/-- An event of the messages, with the reports that it writes to the control client. -/
def messengerStep (auri : List Byte → Text) (s : Messenger) : MessengerEvent → Option Messenger
  | .phone e => (phoneStep s.phone e).map fun phone =>
    { s with phone := phone, before := s.seen e }
  | .message .restart => (messageStep auri s.msgs .restart).map fun msgs => ⟨.init, msgs, []⟩
  | .message e => (messageStep auri s.msgs e).bind fun msgs =>
    (s.phone.report ((written s.msgs e).map Prod.snd)).map fun phone =>
      { s with phone := phone, msgs := msgs }

/-! ## Runs in which the keys grow -/

/-- The `idx` and the text fit in a raw. -/
def Short : Report → Prop
  | .msg _ idx _ data _ => (idx.getD []).length < 2 ^ 32 ∧ data.length < 2 ^ 32
  | _ => True

instance decidableShort : DecidablePred Short
  | .msg _ _ _ _ _ => inferInstanceAs (Decidable (_ ∧ _))
  | .hist _ _ _ | .histel _ _ _ | .callChange _ _ _ | .call _ _ _ _ _ _ | .reg _ | .up _ _ _ |
    .cert _ _ _ | .lp _ _ | .signup _ _ | .ctlist _ _ => isTrue trivial

/-- The row can be written: under a key that the client finds and that is greater than those of
the rows it sees. -/
def Writable (s : Messenger) (p : Timeval × Report) : Prop :=
  s.msgs.store.owns (storeKey s.msgs.store p.1) = true ∧
    (∀ r ∈ s.rows, r.blobKey < storeKey s.msgs.store p.1) ∧ Short p.2

instance decidableWritable (s : Messenger) (p : Timeval × Report) : Decidable (Writable s p) :=
  inferInstanceAs (Decidable (_ ∧ _ ∧ _))

/-- A report that is not about a message. -/
def NoMessage (r : Report) : Prop := lit r.name ≠ lit "msg.in" ∧ lit r.name ≠ lit "msg.out"

instance decidableNoMessage : DecidablePred NoMessage :=
  fun _ => inferInstanceAs (Decidable (_ ∧ _))

/-- The condition on a step. -/
def Kept (s : Messenger) : MessengerEvent → Prop
  | .phone (.report r) => NoMessage r ∧ r.NonNull ∧ r.Countable
  | .phone _ => True
  | .message e => ∀ p ∈ written s.msgs e, Writable s p

instance decidableKept (s : Messenger) : DecidablePred (Kept s)
  | .phone (.report _) => inferInstanceAs (Decidable (_ ∧ _ ∧ _))
  | .phone .accept | .phone .eof | .phone (.calls _ _ _) => isTrue trivial
  | .message _ => inferInstanceAs (Decidable (∀ _ ∈ _, _))

/-! ## What the control client reads -/

/-- The text and the state that an array tells for an `idx`. -/
def told (idx : List Byte) : Obj → Option (List Byte × ℤ)
  | .array [.raw name, _, .raw i, _, .raw data, .integer state] =>
    if (name = bytes (lit "msg.in") ∨ name = bytes (lit "msg.out")) ∧ i = idx then
      some (data, state)
    else none
  | _ => none

/-- What is shown for an `idx`: what was told last. -/
def shown (obs : List Obj) (idx : List Byte) : Option (List Byte × ℤ) :=
  (obs.filterMap (told idx)).getLast?

/-- The text and the state of the message in a row. -/
def message (r : Row Text Obj) : Option (List Byte × ℤ) :=
  match r.blob with
  | .array [.array [_, _, _, .raw data, _]] => some (data, r.curnt)
  | _ => none

/-- A row that `write_db` wrote has both. -/
theorem message_of_isMessage {r : Row Text Obj} (h : IsMessage r) : ∃ p, message r = some p := by
  obtain ⟨-, tv, toAddr, data, hblob⟩ := h
  exact ⟨(data, r.curnt), by rw [message, hblob]; rfl⟩

theorem shown_concat (obs : List Obj) (o : Obj) (idx : List Byte) :
    shown (obs ++ [o]) idx = (told idx o).or (shown obs idx) := by
  unfold shown
  rw [List.filterMap_append, List.getLast?_append]
  congr 1
  cases h : told idx o <;> simp [h]

/-- Reports under another name tell nothing. -/
theorem told_of_noMessage {r : Report} (h : NoMessage r) {els : List Obj}
    (hels : r.elements = some els) (idx : List Byte) : told idx (.array els) = none := by
  obtain ⟨rest, rfl⟩ := Report.elements_name hels
  rw [Report.litOf_name]
  unfold told
  split
  · next heq =>
      obtain ⟨hname, -⟩ := List.cons.inj (Obj.array.inj heq)
      obtain rfl := Obj.raw.inj hname
      refine if_neg fun hin => ?_
      rcases hin.1 with hin | hin
      · exact h.1 (bytes_inj.mp hin)
      · exact h.2 (bytes_inj.mp hin)
  · rfl

theorem intOf_state (state : MsgState) : intOf state.toInt = .integer state.toInt := by
  cases state <;> rfl

/-- **A report of a message** tells its text and its state, and nothing of another one. -/
theorem told_msg {idx : Text} {data : List Byte} {n : ℤ} {state : MsgState}
    (hidx : idx.length < 2 ^ 32) (hdata : data.length < 2 ^ 32)
    (hn : (if n < 0 then -n else n) = state.toInt) (ts : ℤ) (auri : List Byte) :
    ∃ els, (Report.msg ts (some idx) auri data n).elements = some els ∧
      ∀ j : Text, told (bytes j) (.array els) =
        if idx = j then some (data, state.toInt) else none := by
  have hname : ∃ name, (if n < 0 then litOf "msg.in" else litOf "msg.out") = .raw name ∧
      (name = bytes (lit "msg.in") ∨ name = bytes (lit "msg.out")) := by
    split
    · exact ⟨_, rawOf_of_lt (by decide), Or.inl rfl⟩
    · exact ⟨_, rawOf_of_lt (by decide), Or.inr rfl⟩
  obtain ⟨name, hraw, hname⟩ := hname
  refine ⟨_, rfl, fun j => ?_⟩
  rw [hraw, hn, strOf_of_lt hidx, rawOf_of_lt hdata, intOf_state]
  show (if (name = _ ∨ name = _) ∧ bytes idx = bytes j then some (data, state.toInt) else none) = _
  by_cases hj : idx = j
  · rw [if_pos ⟨hname, congrArg bytes hj⟩, if_pos hj]
  · rw [if_neg fun h => hj (bytes_inj.mp h.2), if_neg hj]

/-! ## Shown as stored -/

/-- What is shown is stored, and what is stored is shown, unless it was there before. -/
structure Mirrors (before rows : List (Row Text Obj)) (obs : List Obj) : Prop where
  sound : ∀ idx p, shown obs (bytes idx) = some p → ∃ r ∈ rows, r.idx = idx ∧ message r = some p
  known : ∀ r ∈ rows, r ∈ before ∨ shown obs (bytes r.idx) = message r

section Mirrors

variable {before rows : List (Row Text Obj)} {obs : List Obj}

theorem mirrors_nil (rows : List (Row Text Obj)) : Mirrors rows rows [] :=
  ⟨fun _ _ h => absurd h.symm (Option.some_ne_none _), fun _ hr => Or.inl hr⟩

/-- An array that tells nothing. -/
theorem Mirrors.other (h : Mirrors before rows obs) {o : Obj} (ho : ∀ idx, told idx o = none) :
    Mirrors before rows (obs ++ [o]) := by
  have hsame : ∀ idx, shown (obs ++ [o]) idx = shown obs idx := by
    intro idx
    rw [shown_concat, ho, Option.none_or]
  refine ⟨fun idx p hp => h.sound idx p ?_, fun r hr => ?_⟩
  · rwa [hsame] at hp
  · rw [hsame]
    exact h.known r hr

/-- **A row is written**, and reported. -/
theorem Mirrors.write (h : Mirrors before rows obs) {new : Row Text Obj} {p : List Byte × ℤ}
    (hnew : message new = some p) {o : Obj}
    (ho : ∀ j, told (bytes j) o = if new.idx = j then some p else none) :
    Mirrors before (supersede Row.idx new rows) (obs ++ [o]) := by
  have hself : shown (obs ++ [o]) (bytes new.idx) = some p := by
    rw [shown_concat, ho, if_pos rfl, Option.some_or]
  have hother : ∀ {j}, new.idx ≠ j → shown (obs ++ [o]) (bytes j) = shown obs (bytes j) := by
    intro j hj
    rw [shown_concat, ho, if_neg hj, Option.none_or]
  refine ⟨fun idx q hq => ?_, fun r hr => ?_⟩
  · by_cases hidx : new.idx = idx
    · subst hidx
      refine ⟨new, List.mem_append_right _ (List.mem_singleton_self _), rfl, ?_⟩
      rw [hnew, ← hself, hq]
    · rw [hother hidx] at hq
      obtain ⟨r, hr, rfl, hmessage⟩ := h.sound idx q hq
      refine ⟨r, List.mem_append_left _ ?_, rfl, hmessage⟩
      exact (mem_others Row.idx).mpr ⟨hr, fun heq => hidx heq.symm⟩
  · rcases List.mem_append.mp hr with hr | hr
    · obtain ⟨hr, hidx⟩ := (mem_others Row.idx).mp hr
      rw [hother fun heq => hidx heq.symm]
      exact h.known r hr
    · obtain rfl := List.mem_singleton.mp hr
      exact Or.inr (hself.trans hnew.symm)

end Mirrors

/-! ## One event -/

/-- What an event writes is what is reported of it. -/
theorem tableAfter_of_written {tcmsg : TcMessages} {e : MessageEvent} {now : Timeval} {r : Report}
    (h : written tcmsg e = some (now, r)) :
    ∃ ts idx auri data n tv toAddr, ∃ state : MsgState, r = .msg ts (some idx) auri data n ∧
      (if n < 0 then -n else n) = state.toInt ∧
      tableAfter tcmsg e = storeAddState tcmsg.store (storeKey tcmsg.store now) idx
        (messageBlob tv toAddr data idx) state.toInt tcmsg.table := by
  cases e with
  | message takes tv now' toAddr text =>
      obtain ⟨rfl, rfl⟩ := Prod.mk.inj (Option.some.inj h)
      exact ⟨_, _, _, _, _, tv, toAddr, .pending, rfl, rfl, rfl⟩
  | response i res now' takes =>
      obtain ⟨hres, hmap⟩ := Option.ite_none_right_eq_some.mp h
      obtain ⟨q, hq, hpair⟩ := Option.map_eq_some_iff.mp hmap
      obtain ⟨rfl, rfl⟩ := Prod.mk.inj hpair
      refine ⟨_, _, _, _, _, q.msg.tv, q.msg.user, .sync, rfl, rfl, ?_⟩
      rw [tableAfter_response hq, if_pos hres]
      rfl
  | incoming now' tv fromAddr data =>
      obtain ⟨rfl, rfl⟩ := Prod.mk.inj (Option.some.inj h)
      exact ⟨_, _, _, _, _, tv, tcmsg.user, .sync, rfl, rfl, rfl⟩
  | flush takes => exact absurd h.symm (Option.some_ne_none _)
  | restart => exact absurd h.symm (Option.some_ne_none _)

theorem tableAfter_of_not_written {tcmsg : TcMessages} {e : MessageEvent}
    (h : written tcmsg e = none) : tableAfter tcmsg e = tcmsg.table := by
  cases e with
  | message takes tv now toAddr text => exact absurd h (Option.some_ne_none _)
  | response i res now takes =>
      cases hq : tcmsg.sip.requests[i]? with
      | none => rw [tableAfter, hq]
      | some q =>
          rw [tableAfter_response hq]
          unfold written at h
          dsimp only at h
          rw [hq, Option.map_some] at h
          exact if_neg fun hres => Option.some_ne_none _ ((if_pos hres).symm.trans h)
  | incoming now tv fromAddr data => exact absurd h (Option.some_ne_none _)
  | flush takes => rfl
  | restart => rfl

/-- The rows of a client do not depend on its order. -/
theorem current_eq_of_storeOrder {c c' : StoreClient} (h : storeOrder c false = storeOrder c' false)
    (T : List (Row Text Obj)) : current c T = current c' T := by
  show current (storeOrder c false) T = current (storeOrder c' false) T
  rw [h]

/-- The client that is connected shows these rows. -/
def Shown (s : Phone) (before rows : List (Row Text Obj)) : Prop :=
  s.client = true → ∃ obs, ReportsHeard s.sent obs ∧ Mirrors before rows obs

/-- Every row is a message, and the control client shows what is stored. -/
structure View (s : Messenger) : Prop where
  messages : ∀ r ∈ s.msgs.table, IsMessage r
  shows : Shown s.phone s.before s.rows

section View

variable {auri : List Byte → Text} {s t : Messenger} {before rows rows' : List (Row Text Obj)}
  {p p' : Phone} {r : Report}

theorem Shown.report (h : Shown p before rows) (hwrite : ∃ e, r.write = some e ∧ r.Framed e)
    (hr : p.report (some r) = some p') (hM : ∀ obs, Mirrors before rows obs →
      Mirrors before rows' (obs ++ (r.elements.map Obj.array).toList)) :
    Shown p' before rows' := by
  intro hclient
  obtain ⟨hconn, e, hframed, hsent⟩ := sent_of_report hwrite hr hclient
  obtain ⟨obs, hobs, hmirrors⟩ := h hconn
  rw [hsent]
  exact ⟨_, hobs.framed hframed, hM obs hmirrors⟩

/-- Other reports change nothing. -/
theorem Shown.other (h : Shown p before rows) (hno : NoMessage r) (hnull : r.NonNull)
    (hcount : r.Countable) (hr : p.report (some r) = some p') : Shown p' before rows := by
  refine h.report (exists_write hnull hcount) hr fun obs hM => ?_
  cases hels : r.elements with
  | none => simpa using hM
  | some els => exact hM.other (told_of_noMessage hno hels)

theorem callsReport_noMessage {s : Calls} {e : CallsEvent} {dname user : List Byte}
    (h : callsReport s e dname user = some r) : NoMessage r ∧ r.NonNull ∧ r.Countable := by
  rcases callsReport_cases h with ⟨c, rfl⟩ | ⟨c, rfl⟩
  · refine ⟨?_, Option.some_ne_none _, trivial⟩
    show lit "sip.call.add" ≠ _ ∧ lit "sip.call.add" ≠ _
    decide
  · refine ⟨?_, Option.some_ne_none _, trivial⟩
    unfold NoMessage Report.name changeReport
    dsimp only
    split <;> decide

/-- **Something happens to the calls or the connection.** -/
theorem Shown.phone {e : PhoneEvent} (h : Shown s.phone s.before s.rows)
    (hC : Kept s (.phone e)) (hstep : phoneStep s.phone e = some p) :
    Shown p (s.seen e) s.rows := by
  cases e with
  | accept =>
      unfold phoneStep at hstep
      unfold Messenger.seen
      dsimp only
      split_ifs at hstep ⊢ with hconn
      · obtain rfl := Option.some.inj hstep
        exact h
      · obtain rfl := Option.some.inj hstep
        exact fun _ => ⟨[], reportsHeard_nil, mirrors_nil _⟩
  | eof =>
      obtain ⟨-, ht⟩ := Option.ite_none_right_eq_some.mp hstep
      obtain rfl := Option.some.inj ht
      exact fun hclient => Bool.noConfusion hclient
  | report r => exact h.other hC.1 hC.2.1 hC.2.2 hstep
  | calls e dname user =>
      obtain ⟨calls, -, hreport⟩ := Option.bind_eq_some_iff.mp hstep
      have h' : Shown { s.phone with
          calls := calls, ended := s.phone.ended ++ callsEnded s.phone.calls e }
        s.before s.rows := h
      cases hr : callsReport s.phone.calls e dname user with
      | none =>
          rw [hr] at hreport
          obtain rfl := Option.some.inj hreport
          exact h'
      | some r =>
          rw [hr] at hreport
          obtain ⟨hno, hnull, hcount⟩ := callsReport_noMessage hr
          exact h'.other hno hnull hcount hreport

/-- **Something happens to the messages.** -/
theorem View.message (h : View s) {e : MessageEvent}
    (hC : ∀ p ∈ written s.msgs e, Writable s p) {msgs : TcMessages}
    (hmsgs : messageStep auri s.msgs e = some msgs)
    (hr : s.phone.report ((written s.msgs e).map Prod.snd) = some p) :
    View { s with phone := p, msgs := msgs } := by
  obtain ⟨-, htable⟩ := messageStep_table h.messages hmsgs
  have hstore := messageStep_store h.messages hmsgs
  refine ⟨isMessage_step h.messages hmsgs, ?_⟩
  show Shown p s.before (current msgs.store msgs.table)
  rw [current_eq_of_storeOrder hstore, htable]
  cases hw : written s.msgs e with
  | none =>
      rw [hw] at hr
      obtain rfl := Option.some.inj hr
      rw [tableAfter_of_not_written hw]
      exact h.shows
  | some w =>
      obtain ⟨now, r⟩ := w
      obtain ⟨hown, hnewest, hshort⟩ := hC _ hw
      obtain ⟨ts, idx, auri, data, n, tv, toAddr, state, rfl, hn, hafter⟩ :=
        tableAfter_of_written hw
      obtain ⟨hidx, hdata⟩ : idx.length < 2 ^ 32 ∧ data.length < 2 ^ 32 := hshort
      obtain ⟨els, hels, htold⟩ := told_msg hidx hdata hn ts auri
      have hne : state.toInt ≠ 0 := by cases state <;> decide
      rw [hafter, current_storeAddState_of_newest hnewest hown idx _ hne]
      rw [hw] at hr
      have hwrite := exists_write (r := .msg ts (some idx) auri data n) (Option.some_ne_none _)
        trivial
      refine h.shows.report hwrite hr fun obs hM => ?_
      rw [hels]
      exact hM.write rfl htold

/-- **One event.** -/
theorem view_step (s : Messenger) (e : MessengerEvent) (t : Messenger) (h : View s)
    (hC : Kept s e) (hstep : messengerStep auri s e = some t) : View t := by
  have hmessage : ∀ {e : MessageEvent}, (∀ p ∈ written s.msgs e, Writable s p) →
      ((messageStep auri s.msgs e).bind fun msgs =>
        (s.phone.report ((written s.msgs e).map Prod.snd)).map fun phone =>
          { s with phone := phone, msgs := msgs }) = some t → View t := by
    intro e hC hstep
    obtain ⟨msgs, hmsgs, hrest⟩ := Option.bind_eq_some_iff.mp hstep
    obtain ⟨phone, hphone, rfl⟩ := Option.map_eq_some_iff.mp hrest
    exact h.message hC hmsgs hphone
  cases e with
  | phone e =>
      obtain ⟨phone, hphone, rfl⟩ := Option.map_eq_some_iff.mp hstep
      exact ⟨h.messages, h.shows.phone hC hphone⟩
  | message e =>
      cases e with
      | restart =>
          have hmap : (messageStep auri s.msgs .restart).map
              (fun msgs => (⟨.init, msgs, []⟩ : Messenger)) = some t := hstep
          obtain ⟨msgs, hmsgs, rfl⟩ := Option.map_eq_some_iff.mp hmap
          exact ⟨isMessage_step h.messages hmsgs, fun hclient => Bool.noConfusion hclient⟩
      | message takes tv now toAddr text => exact hmessage hC hstep
      | flush takes => exact hmessage hC hstep
      | response i res now takes => exact hmessage hC hstep
      | incoming now tv fromAddr data => exact hmessage hC hstep

end View

theorem view_init (stc : StoreClient) (user : Text) : View (.init stc user) :=
  ⟨fun _ hr => absurd hr List.not_mem_nil, fun hclient => Bool.noConfusion hclient⟩

/-- **The control client has the messages.**  After any run in which rows are written under growing
keys, what was sent to the client that is connected is whole reports.  For each `idx` that they
are about, the last text and state they tell are those of the row that is stored under it, and of
every row that was not there when the client connected they tell the text and the state. -/
theorem shows_messages {auri : List Byte → Text} {login user : Text} {letter : CChar}
    {es : List MessengerEvent}
    (hmeet : StepsMeet (messengerStep auri) Kept (.init (storeOpen login letter) user) es)
    {t : Messenger}
    (hrun : run (messengerStep auri) (.init (storeOpen login letter) user) es = some t)
    (hclient : t.phone.client = true) :
    ∃ objs, Reads (Unpacker.fresh.feed t.phone.sent) objs .fresh ∧
      (∀ idx p, shown objs (bytes idx) = some p →
        ∃ r ∈ t.rows, r.idx = idx ∧ message r = some p) ∧
      ∀ r ∈ t.rows, r ∈ t.before ∨
        ∃ p, message r = some p ∧ shown objs (bytes r.idx) = some p := by
  have h : View t := run_invariant (messengerStep auri) view_step (view_init _ _) hmeet hrun
  obtain ⟨obs, hobs, hmirrors⟩ := h.shows hclient
  refine ⟨obs, hobs.reads, hmirrors.sound, fun r hr => ?_⟩
  obtain ⟨p, hp⟩ := message_of_isMessage (h.messages r (mem_current.mp hr).1)
  exact (hmirrors.known r hr).imp_right fun hshown => ⟨p, hp, hshown.trans hp⟩

/-- Alice sends one message before the client connects and one after; the second one is answered,
and Bob writes back. -/
def threeMessages : List MessengerEvent :=
  [.message (toBob true 1400000000), .phone .accept, .message (toBob true 1400000001),
    .message (.response 1 (.status 200) ⟨1400000002, 0⟩ fun _ => true),
    .message (.incoming ⟨1400000003, 0⟩ ⟨1400000002, 7⟩ (lit "sip:bob@x") (bytes (lit "hello")))]

theorem shows_messages_threeMessages :
    ∃ t, run (messengerStep cstr) (.init (storeOpen (lit "alice") (byteOf 'm')) (lit "sip:alice@x"))
        threeMessages = some t ∧ t.rows.length = 3 ∧ t.before.length = 1 ∧
      ∃ objs, Reads (Unpacker.fresh.feed t.phone.sent) objs .fresh ∧
        (∀ idx p, shown objs (bytes idx) = some p →
          ∃ r ∈ t.rows, r.idx = idx ∧ message r = some p) ∧
        ∀ r ∈ t.rows, r ∈ t.before ∨
          ∃ p, message r = some p ∧ shown objs (bytes r.idx) = some p := by
  have hends : (run (messengerStep cstr)
      (.init (storeOpen (lit "alice") (byteOf 'm')) (lit "sip:alice@x")) threeMessages).map
      (fun t => (t.phone.client, t.rows.length, t.before.length)) = some (true, 3, 1) := by
    decide +kernel
  obtain ⟨t, hrun, ht⟩ := Option.map_eq_some_iff.mp hends
  obtain ⟨hclient, ht⟩ := Prod.mk.inj ht
  obtain ⟨hrows, hbefore⟩ := Prod.mk.inj ht
  exact ⟨t, hrun, hrows, hbefore, shows_messages (by decide +kernel) hrun hclient⟩

end MessageMirror
