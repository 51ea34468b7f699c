/-
# The states of messages that were sent

`tcmessage` writes a message as `MSTATE_PENDING`, and a response 200 writes it as
`MSTATE_SYNC`, be it the response to the message itself or to a copy that a flush has read
back from the store and sent again.

A write takes away the older row if the key of that row matches the client's GLOB pattern.
The pattern is the login with a star, and a `[` in the login is not quoted.  So a message
has one row, in the state that the responses give it, exactly while each 200 finds the row
of its message under a key that matches (`always_keptOnce_iff`); a login without `[` has no
other keys (`stepsMeet_findsOwn`).
-/
import Tcsip.MessageRows
import Tcsip.Runs

open Runs

/-! ## Runs -/

/-- The messages object with a record of its use: the times of the messages, the last key that
was written, the `idx` of the messages that were accepted, of those that a response 200 was
for, and of those that had a row in `MSTATE_SYNC` at some time. -/
structure SendingRun where
  tcmsg : TcMessages
  times : List Timeval
  lastKey : Option Text
  accepted : List Text
  acked : List Text
  synced : List Text

/-- No message yet. -/
def sendingInit (login localUser : Text) : SendingRun where
  tcmsg := tcmessageAlloc (storeOpen login (byteOf 'm')) [] localUser
  times := []
  lastKey := none
  accepted := []
  acked := []
  synced := []

/-- The key for the time `now` comes after the last one. -/
def SendingRun.KeyRises (s : SendingRun) (now : Timeval) : Prop :=
  ∀ k ∈ s.lastKey, k < storeKey s.tcmsg.store now

/-- What may happen: messages at different times, to addresses that can be decoded, and keys
that rise.  No message comes in. -/
def SendingAllowed (auri : List Byte → Text) (s : SendingRun) : MessageEvent → Prop
  | .message _ tv now toAddr _ =>
    tv ∉ s.times ∧ tv.InRange ∧ s.KeyRises now ∧ auri (bytes toAddr) = toAddr
  | .flush _ => True
  | .response _ res now _ => res = .status 200 → s.KeyRises now
  | .incoming _ _ _ _ => False
  | .restart => True

instance (s : SendingRun) (now : Timeval) : Decidable (s.KeyRises now) :=
  inferInstanceAs (Decidable (∀ k ∈ s.lastKey, _))

instance (auri : List Byte → Text) (s : SendingRun) : ∀ e, Decidable (SendingAllowed auri s e)
  | .message _ _ _ _ _ => inferInstanceAs (Decidable (_ ∧ _))
  | .flush _ => isTrue trivial
  | .response _ _ _ _ => inferInstanceAs (Decidable (_ → _))
  | .incoming _ _ _ _ => isFalse id
  | .restart => isTrue trivial

/-- The time of the message. -/
def MessageEvent.times : MessageEvent → List Timeval
  | .message _ tv _ _ _ => [tv]
  | _ => []

/-- When a row is written. -/
def MessageEvent.writesAt : MessageEvent → Option Timeval
  | .message _ _ now _ _ => some now
  | .response _ res now _ => if res = .status 200 then some now else none
  | _ => none

/-- The message that `tcmessage` accepts. -/
def MessageEvent.accepts (user : Text) : MessageEvent → List Text
  | .message _ tv _ toAddr _ => [messageIdx tv user toAddr]
  | _ => []

/-- The message that a response 200 is for. -/
def MessageEvent.acks (requests : List MsgRequest) : MessageEvent → List Text
  | .response i res _ _ =>
    if res = .status 200 then (requests[i]?.bind fun q => q.msg.idx).toList else []
  | _ => []

/-- An event that may happen, with the messages it accepts and the answers it brings on record. -/
def sendingStep (auri : List Byte → Text) (s : SendingRun) (e : MessageEvent) :
    Option SendingRun :=
  if SendingAllowed auri s e then
    (messageStep auri s.tcmsg e).map fun t =>
      { tcmsg := t
        times := s.times ++ e.times
        lastKey := e.writesAt.map (fun now => storeKey s.tcmsg.store now) <|> s.lastKey
        accepted := s.accepted ++ e.accepts s.tcmsg.user
        acked := s.acked ++ e.acks s.tcmsg.sip.requests
        synced := s.synced ++ (s.tcmsg.table.filter fun r =>
          decide (r.curnt = MsgState.sync.toInt)).map Row.idx }
  else none

/-- The state of a message: `MSTATE_SYNC` if a 200 to it has come, and else
`MSTATE_PENDING`. -/
def SendingRun.state (s : SendingRun) (i : Text) : MsgState :=
  if s.acked.contains i then .sync else .pending

/-- Every message that was accepted has one row that is not obsolete, in the state of the
message, and no message is pending again after it was in `MSTATE_SYNC`. -/
def KeptOnce (s : SendingRun) : Prop :=
  (∀ i ∈ s.accepted, (rowsAt s.tcmsg.table i).map Row.curnt = [(s.state i).toInt]) ∧
  ∀ i ∈ s.synced, MsgState.pending.toInt ∉ (rowsAt s.tcmsg.table i).map Row.curnt

/-- A response 200 finds the rows of its message under keys that match the pattern of the
client. -/
def FindsOwn (auri : List Byte → Text) (s : SendingRun) : MessageEvent → Prop
  | .response i res now takes =>
    SendingAllowed auri s (.response i res now takes) → res = .status 200 →
      ∀ q ∈ s.tcmsg.sip.requests[i]?, ∀ r ∈ s.tcmsg.table,
        r.curnt ≠ 0 → q.msg.idx = some r.idx → s.tcmsg.store.owns r.blobKey = true
  | _ => True

/-! ## What a run keeps -/

/-- The message `m` has the `idx` `i` and prints it. -/
structure MsgSingle.Prints (auri : List Byte → Text) (user i : Text) (m : MsgSingle) : Prop where
  idx : m.idx = some i
  printed : messageIdx m.tv user m.user = i
  addr : auri (bytes m.user) = m.user

/-- A row with this key, `idx` and blob was written for a message that was accepted. -/
def SendingRun.Wrote (auri : List Byte → Text) (s : SendingRun) (key idx : Text) (blob : Obj) :
    Prop :=
  idx ∈ s.accepted ∧ (∃ k ∈ s.lastKey, key ≤ k) ∧
    ∃ tv toAddr data, messageIdx tv s.tcmsg.user toAddr = idx ∧
      blob = messageBlob tv toAddr data idx ∧ auri (bytes toAddr) = toAddr

/-- The rows and the requests are for messages that were accepted, and the record agrees with
itself. -/
structure SendingMessages (auri : List Byte → Text) (s : SendingRun) : Prop where
  rows : ∀ r ∈ s.tcmsg.table, s.Wrote auri r.blobKey r.idx r.blob
  requests : ∀ q ∈ s.tcmsg.sip.requests, ∃ i ∈ s.accepted, q.msg.Prints auri s.tcmsg.user i
  accepted : ∀ i ∈ s.accepted, ∃ tv ∈ s.times, tv.InRange ∧
    ∃ toAddr, messageIdx tv s.tcmsg.user toAddr = i
  acked : ∀ i ∈ s.acked, i ∈ s.accepted
  synced : ∀ i ∈ s.synced, i ∈ s.acked

theorem sendingMessages_sendingInit (auri : List Byte → Text) (login localUser : Text) :
    SendingMessages auri (sendingInit login localUser) where
  rows _ hr := absurd hr List.not_mem_nil
  requests _ hq := absurd hq List.not_mem_nil
  accepted _ hi := absurd hi List.not_mem_nil
  acked _ hi := absurd hi List.not_mem_nil
  synced _ hi := absurd hi List.not_mem_nil

section sending

variable {auri : List Byte → Text} {s t : SendingRun} {e : MessageEvent}

theorem SendingMessages.isMessage (h : SendingMessages auri s) :
    ∀ r ∈ s.tcmsg.table, IsMessage r := by
  intro r hr
  obtain ⟨-, -, tv, toAddr, data, hidx, hblob, -⟩ := h.rows r hr
  refine ⟨?_, tv, toAddr, data, hblob⟩
  rw [← hidx]
  exact messageIdx_ne_nil tv s.tcmsg.user toAddr

/-- **A message read back** prints the `idx` of its row. -/
theorem SendingRun.Wrote.prints {key idx : Text} {blob : Obj} (h : s.Wrote auri key idx blob)
    {m : MsgSingle} (hm : m ∈ storeBlobParse (msgParse auri) blob) :
    m.Prints auri s.tcmsg.user idx := by
  obtain ⟨-, -, tv, toAddr, data, hidx, rfl, haddr⟩ := h
  have hne : idx ≠ [] := hidx ▸ messageIdx_ne_nil tv s.tcmsg.user toAddr
  rw [storeBlobParse_messageBlob, List.mem_singleton] at hm
  rw [hm]
  refine ⟨?_, ?_, ?_⟩
  · show getStr (bytes idx) = some idx
    rw [getStr_bytes, if_neg hne]
  · show messageIdx _ s.tcmsg.user (auri (bytes toAddr)) = idx
    rw [messageIdx_bmod, haddr, hidx]
  · show auri (bytes (auri (bytes toAddr))) = auri (bytes toAddr)
    rw [haddr, haddr]

/-- A new message has a new `idx`. -/
theorem SendingMessages.fresh (h : SendingMessages auri s) {takes : MsgSingle → Bool}
    {tv now : Timeval}
    {toAddr text : Text} (hp : SendingAllowed auri s (.message takes tv now toAddr text)) :
    messageIdx tv s.tcmsg.user toAddr ∉ s.accepted := by
  intro hi
  obtain ⟨tv', htv', hrange, toAddr', heq⟩ := h.accepted _ hi
  have htv := messageIdx_inj hrange hp.2.1 heq
  exact hp.1 (htv ▸ htv')

theorem SendingAllowed.keyRises (h : SendingAllowed auri s e) :
    ∀ now ∈ e.writesAt, s.KeyRises now := by
  intro now hnow
  cases e with
  | message takes tv now' toAddr text =>
    obtain rfl := Option.some.inj hnow
    exact h.2.2.1
  | response i res now' takes =>
    obtain ⟨hres, heq⟩ := Option.ite_none_right_eq_some.mp hnow
    obtain rfl := Option.some.inj heq
    exact h hres
  | flush takes => exact absurd hnow (Option.not_mem_none now)
  | incoming now' tv fromAddr data => exact absurd hnow (Option.not_mem_none now)
  | restart => exact absurd hnow (Option.not_mem_none now)

/-- What a step is. -/
theorem sendingStep_eq_some (h : sendingStep auri s e = some t) :
    SendingAllowed auri s e ∧ ∃ m, messageStep auri s.tcmsg e = some m ∧
      t = { tcmsg := m
            times := s.times ++ e.times
            lastKey := e.writesAt.map (fun now => storeKey s.tcmsg.store now) <|> s.lastKey
            accepted := s.accepted ++ e.accepts s.tcmsg.user
            acked := s.acked ++ e.acks s.tcmsg.sip.requests
            synced := s.synced ++ (s.tcmsg.table.filter fun r =>
              decide (r.curnt = MsgState.sync.toInt)).map Row.idx } := by
  unfold sendingStep at h
  obtain ⟨hp, h⟩ := Option.ite_none_right_eq_some.mp h
  obtain ⟨m, hm, rfl⟩ := Option.map_eq_some_iff.mp h
  exact ⟨hp, m, hm, rfl⟩

/-- What was written stays so. -/
theorem SendingRun.Wrote.step {key idx : Text} {blob : Obj} (h : s.Wrote auri key idx blob)
    (hT : ∀ r ∈ s.tcmsg.table, IsMessage r) (hstep : sendingStep auri s e = some t) :
    t.Wrote auri key idx blob := by
  obtain ⟨hp, m, hm, rfl⟩ := sendingStep_eq_some hstep
  obtain ⟨hidx, ⟨k, hk, hle⟩, hwritten⟩ := h
  refine ⟨List.mem_append_left _ hidx, ?_, ?_⟩
  · cases hw : e.writesAt with
    | none => exact ⟨k, hk, hle⟩
    | some now => exact ⟨_, rfl, hle.trans (le_of_lt (hp.keyRises now hw k hk))⟩
  · rw [(messageStep_table hT hm).1]
    exact hwritten

/-- A request that is answered is for a message that was accepted. -/
theorem SendingMessages.acks (h : SendingMessages auri s) :
    ∀ i ∈ e.acks s.tcmsg.sip.requests, i ∈ s.accepted := by
  intro i hi
  cases e with
  | response j res now takes =>
    rw [MessageEvent.acks] at hi
    by_cases hres : res = .status 200
    · rw [if_pos hres, Option.mem_toList] at hi
      obtain ⟨q, hq, hqi⟩ := Option.bind_eq_some_iff.mp hi
      obtain ⟨i', hi', hprints⟩ := h.requests q (List.mem_of_getElem? hq)
      rw [hprints.idx] at hqi
      exact Option.some.inj hqi ▸ hi'
    · rw [if_neg hres] at hi
      exact absurd hi List.not_mem_nil
  | message takes tv now toAddr text => exact absurd hi List.not_mem_nil
  | flush takes => exact absurd hi List.not_mem_nil
  | incoming now tv fromAddr data => exact absurd hi List.not_mem_nil
  | restart => exact absurd hi List.not_mem_nil

/-- Every row after a step was written for a message that was accepted. -/
theorem SendingMessages.rows_step (h : SendingMessages auri s)
    (hstep : sendingStep auri s e = some t) :
    ∀ r ∈ t.tcmsg.table, t.Wrote auri r.blobKey r.idx r.blob := by
  have hold : ∀ r ∈ s.tcmsg.table, t.Wrote auri r.blobKey r.idx r.blob := fun r hr =>
    (h.rows r hr).step h.isMessage hstep
  obtain ⟨hp, m, hm, rfl⟩ := sendingStep_eq_some hstep
  obtain ⟨huser, htable⟩ := messageStep_table h.isMessage hm
  show ∀ r ∈ m.table, _
  rw [htable]
  cases e with
  | message takes tv now toAddr text =>
    apply forall_mem_storeAddState hold
    refine ⟨List.mem_append_right _ List.mem_cons_self, ⟨_, rfl, le_rfl⟩, tv, toAddr, bytes text,
      ?_, rfl, hp.2.2.2⟩
    rw [huser]
  | response i res now takes =>
    obtain ⟨q, hq, -⟩ := Option.map_eq_some_iff.mp hm
    obtain ⟨j, hj, hprints⟩ := h.requests q (List.mem_of_getElem? hq)
    rw [tableAfter_response hq]
    by_cases hres : res = .status 200
    · rw [if_pos hres]
      apply forall_mem_storeAddState hold
      refine ⟨List.mem_append_left _ (hprints.printed ▸ hj),
        ⟨storeKey s.tcmsg.store now, ?_, le_rfl⟩, q.msg.tv, q.msg.user, q.msg.data, ?_, rfl,
        hprints.addr⟩
      · rw [MessageEvent.writesAt, if_pos hres]
        rfl
      · rw [huser]
    · rw [if_neg hres]
      exact hold
  | flush takes => exact hold
  | incoming now tv fromAddr data => exact absurd hp id
  | restart => exact hold

theorem SendingRun.state_of_mem {i : Text} (h : i ∈ s.acked) : s.state i = .sync :=
  if_pos (List.contains_iff_mem.mpr h)

theorem SendingRun.state_of_notMem {i : Text} (h : i ∉ s.acked) : s.state i = .pending :=
  if_neg (mt List.contains_iff_mem.mp h)

/-- Only what is answered decides about the states. -/
theorem SendingRun.state_congr {i : Text} (h : i ∈ t.acked ↔ i ∈ s.acked) :
    t.state i = s.state i := by
  by_cases hi : i ∈ s.acked
  · rw [state_of_mem hi, state_of_mem (h.mpr hi)]
  · rw [state_of_notMem hi, state_of_notMem (mt h.mp hi)]

/-- The first half says it all: a message that was in `MSTATE_SYNC` has been answered. -/
theorem keptOnce_iff (h : SendingMessages auri s) :
    KeptOnce s ↔
      ∀ i ∈ s.accepted, (rowsAt s.tcmsg.table i).map Row.curnt = [(s.state i).toInt] := by
  refine ⟨And.left, fun hkept => ⟨hkept, fun i hi => ?_⟩⟩
  have hacked := h.synced i hi
  rw [hkept i (h.acked i hacked), SendingRun.state_of_mem hacked]
  decide

/-- **A step keeps the record.** -/
theorem SendingMessages.step (h : SendingMessages auri s) (hB : KeptOnce s)
    (hstep : sendingStep auri s e = some t) : SendingMessages auri t := by
  have hrows := h.rows_step hstep
  obtain ⟨hp, m, hm, rfl⟩ := sendingStep_eq_some hstep
  obtain ⟨huser, htable⟩ := messageStep_table h.isMessage hm
  refine ⟨hrows, ?_, ?_, ?_, ?_⟩
  · intro q hq
    rcases messageStep_requests h.isMessage hm q hq with hq | ⟨r, hr, hread⟩ |
      ⟨takes, tv, now, toAddr, text, rfl, htv, hto, hidx⟩
    · obtain ⟨i, hi, hprints⟩ := h.requests q hq
      refine ⟨i, List.mem_append_left _ hi, ?_⟩
      show q.msg.Prints auri m.user i
      rw [huser]
      exact hprints
    · exact ⟨r.idx, (hrows r hr).1, (hrows r hr).prints hread⟩
    · refine ⟨_, List.mem_append_right _ List.mem_cons_self, hidx, ?_, ?_⟩
      · show messageIdx q.msg.tv m.user q.msg.user = messageIdx tv s.tcmsg.user toAddr
        rw [htv, hto, huser]
      · rw [hto]
        exact hp.2.2.2
  · intro i hi
    show ∃ tv ∈ _, tv.InRange ∧ ∃ toAddr, messageIdx tv m.user toAddr = i
    rw [huser]
    rcases List.mem_append.mp hi with hi | hi
    · obtain ⟨tv, htv, hrest⟩ := h.accepted i hi
      exact ⟨tv, List.mem_append_left _ htv, hrest⟩
    · cases e with
      | message takes tv now toAddr text =>
        rw [List.mem_singleton.mp hi]
        exact ⟨tv, List.mem_append_right _ List.mem_cons_self, hp.2.1, toAddr, rfl⟩
      | _ => exact absurd hi List.not_mem_nil
  · intro i hi
    rcases List.mem_append.mp hi with hi | hi
    · exact List.mem_append_left _ (h.acked i hi)
    · exact List.mem_append_left _ (h.acks i hi)
  · intro i hi
    apply List.mem_append_left
    rcases List.mem_append.mp hi with hi | hi
    · exact h.synced i hi
    · -- a row in `MSTATE_SYNC` is the one row of its message
      obtain ⟨r, hr, rfl⟩ := List.mem_map.mp hi
      obtain ⟨hr, hsync⟩ := List.mem_filter.mp hr
      have hcurnt : r.curnt = MsgState.sync.toInt := of_decide_eq_true hsync
      have hmem : r ∈ rowsAt s.tcmsg.table r.idx :=
        mem_rowsAt.mpr ⟨hr, rfl, by rw [hcurnt]; decide⟩
      have hstate := List.mem_map_of_mem (f := Row.curnt) hmem
      rw [hB.1 r.idx (h.rows r hr).1, List.mem_singleton, hcurnt] at hstate
      by_contra hacked
      rw [SendingRun.state_of_notMem hacked] at hstate
      exact absurd hstate (by decide)

/-! ## The states that a step leaves -/

/-- What a step does to the rows and to the record of answers. -/
theorem SendingMessages.facts (h : SendingMessages auri s) (hstep : sendingStep auri s e = some t) :
    t.tcmsg.table = tableAfter s.tcmsg e ∧ t.accepted = s.accepted ++ e.accepts s.tcmsg.user ∧
      t.acked = s.acked ++ e.acks s.tcmsg.sip.requests := by
  obtain ⟨-, m, hm, rfl⟩ := sendingStep_eq_some hstep
  exact ⟨(messageStep_table h.isMessage hm).2, rfl, rfl⟩

/-- An event that writes nothing and answers nothing keeps the states. -/
theorem keptOnce_of_quiet (h : SendingMessages auri s) (hB : KeptOnce s)
    (hstep : sendingStep auri s e = some t) (htable : tableAfter s.tcmsg e = s.tcmsg.table)
    (haccepts : e.accepts s.tcmsg.user = []) (hacks : e.acks s.tcmsg.sip.requests = []) :
    KeptOnce t := by
  obtain ⟨htable', haccepted, hacked⟩ := h.facts hstep
  rw [hacks, List.append_nil] at hacked
  rw [keptOnce_iff (h.step hB hstep), htable', htable, haccepted, haccepts, List.append_nil]
  intro i hi
  rw [SendingRun.state_congr (s := s) (t := t) (by rw [hacked])]
  exact hB.1 i hi

/-- **A new message** has one row, which is pending. -/
theorem keptOnce_message (h : SendingMessages auri s) (hB : KeptOnce s) {takes : MsgSingle → Bool}
    {tv now : Timeval} {toAddr text : Text}
    (hstep : sendingStep auri s (.message takes tv now toAddr text) = some t) : KeptOnce t := by
  have hfresh := h.fresh (sendingStep_eq_some hstep).1
  obtain ⟨htable, haccepted, hacked⟩ := h.facts hstep
  replace hacked : t.acked = s.acked := hacked.trans (List.append_nil _)
  rw [keptOnce_iff (h.step hB hstep), htable, haccepted]
  intro i hi
  rw [SendingRun.state_congr (s := s) (t := t) (by rw [hacked])]
  rcases List.mem_append.mp hi with hi | hi
  · rw [tableAfter, rowsAt_writeDb_of_ne fun heq => hfresh (heq ▸ hi)]
    exact hB.1 i hi
  · obtain rfl := List.mem_singleton.mp hi
    have hnone : rowsAt s.tcmsg.table (messageIdx tv s.tcmsg.user toAddr) = [] := by
      rw [List.eq_nil_iff_forall_not_mem]
      intro r hr
      obtain ⟨hr, hidx, -⟩ := mem_rowsAt.mp hr
      exact hfresh (hidx ▸ (h.rows r hr).1)
    rw [tableAfter, rowsAt_writeDb, hnone, if_pos rfl,
      SendingRun.state_of_notMem fun hacked => hfresh (h.acked _ hacked)]
    rfl

/-- **A response 200** leaves one row, in `MSTATE_SYNC`, exactly when the rows before it are
under keys that match. -/
theorem keptOnce_response_iff (h : SendingMessages auri s) (hB : KeptOnce s) {i : ℕ} {now : Timeval}
    {takes : MsgSingle → Bool}
    (hstep : sendingStep auri s (.response i (.status 200) now takes) = some t) :
    KeptOnce t ↔ FindsOwn auri s (.response i (.status 200) now takes) := by
  obtain ⟨hp, m, hm, -⟩ := sendingStep_eq_some hstep
  obtain ⟨htable, haccepted, hacked⟩ := h.facts hstep
  obtain ⟨q, hq, -⟩ := Option.map_eq_some_iff.mp hm
  obtain ⟨j, hj, hprints⟩ := h.requests q (List.mem_of_getElem? hq)
  have hacks : (MessageEvent.response i (.status 200) now takes).acks s.tcmsg.sip.requests =
      [j] := by
    rw [MessageEvent.acks, if_pos rfl, hq, Option.bind_some, hprints.idx]
    rfl
  rw [hacks] at hacked
  rw [tableAfter_response hq, if_pos rfl] at htable
  replace haccepted : t.accepted = s.accepted := haccepted.trans (List.append_nil _)
  -- the message has one row so far
  obtain ⟨r, hr, -⟩ := List.map_eq_singleton_iff.mp (hB.1 j hj)
  have hmem : r ∈ rowsAt s.tcmsg.table j := hr ▸ List.mem_singleton_self r
  obtain ⟨hrT, hrj, hlive⟩ := mem_rowsAt.mp hmem
  have hlt : r.blobKey < storeKey s.tcmsg.store now := by
    obtain ⟨-, ⟨k, hk, hle⟩, -⟩ := h.rows r hrT
    exact lt_of_le_of_lt hle (hp rfl k hk)
  have hfinds : FindsOwn auri s (.response i (.status 200) now takes) ↔
      s.tcmsg.store.owns r.blobKey = true := by
    constructor
    · exact fun hf => hf hp rfl q hq r hrT hlive (hrj ▸ hprints.idx)
    · intro howns hp' _ q' hq' r' hr' hlive' hidx
      obtain rfl := Option.some.inj (hq.symm.trans hq')
      rw [hprints.idx] at hidx
      have hmem' : r' ∈ rowsAt s.tcmsg.table j :=
        mem_rowsAt.mpr ⟨hr', (Option.some.inj hidx).symm, hlive'⟩
      rw [hr, List.mem_singleton] at hmem'
      rwa [hmem']
  have hstates : (rowsAt t.tcmsg.table j).map Row.curnt
      = (if s.tcmsg.store.owns r.blobKey = true then [] else [r.curnt]) ++
        [MsgState.sync.toInt] := by
    rw [htable, rowsAt_writeDb, hr, hprints.printed, if_pos rfl]
    by_cases howns : s.tcmsg.store.owns r.blobKey = true <;> simp [hrj, hlt, howns]
  have hstate : t.state j = .sync := SendingRun.state_of_mem (by rw [hacked]; simp)
  rw [keptOnce_iff (h.step hB hstep), haccepted, hfinds]
  constructor
  · intro hkept
    have hj' := hkept j hj
    rw [hstates, hstate] at hj'
    by_contra howns
    rw [if_neg howns] at hj'
    exact absurd hj' (by simp)
  · intro howns i' hi'
    by_cases hij : i' = j
    · rw [hij, hstates, hstate, if_pos howns]
      rfl
    · rw [htable, rowsAt_writeDb_of_ne (hprints.printed.symm ▸ Ne.symm hij), hB.1 i' hi',
        SendingRun.state_congr (s := s) (t := t) (by rw [hacked]; simp [hij])]

/-- **One step** keeps the states of all messages exactly when a 200 finds its rows under keys
that match. -/
theorem keptOnce_sendingStep_iff (h : SendingMessages auri s) (hB : KeptOnce s)
    (hstep : sendingStep auri s e = some t) : KeptOnce t ↔ FindsOwn auri s e := by
  cases e with
  | message takes tv now toAddr text => exact iff_of_true (keptOnce_message h hB hstep) trivial
  | response i res now takes =>
    by_cases hres : res = .status 200
    · subst hres
      exact keptOnce_response_iff h hB hstep
    · refine iff_of_true ?_ fun _ h200 => absurd h200 hres
      obtain ⟨-, m, hm, -⟩ := sendingStep_eq_some hstep
      obtain ⟨q, hq, -⟩ := Option.map_eq_some_iff.mp hm
      apply keptOnce_of_quiet h hB hstep
      · rw [tableAfter_response hq, if_neg hres]
      · rfl
      · rw [MessageEvent.acks, if_neg hres]
  | incoming now tv fromAddr data => exact absurd (sendingStep_eq_some hstep).1 id
  | flush takes => exact iff_of_true (keptOnce_of_quiet h hB hstep rfl rfl rfl) trivial
  | restart => exact iff_of_true (keptOnce_of_quiet h hB hstep rfl rfl rfl) trivial

end sending

/-! ## Whole runs -/

/-- **Messages are neither lost nor resurrected** exactly while each 200 finds the row of its
message under a key that matches the pattern of the client, over every interleaving of
messages, flushes and responses. -/
theorem always_keptOnce_iff (auri : List Byte → Text) (login localUser : Text)
    (es : List MessageEvent) :
    Always (sendingStep auri) KeptOnce (sendingInit login localUser) es ↔
      StepsMeet (sendingStep auri) (FindsOwn auri) (sendingInit login localUser) es := by
  apply always_iff_stepsMeet (sendingStep auri) (I := SendingMessages auri)
  · exact fun s e t hI hB hstep => hI.step hB hstep
  · exact fun s e t hI hB hstep => keptOnce_sendingStep_iff hI hB hstep
  · intro s e _ _ hrefused
    cases e with
    | response i res now takes =>
      intro hp _ q hq
      unfold sendingStep at hrefused
      rw [if_pos hp, Option.map_eq_none_iff, messageStep, Option.map_eq_none_iff, hq] at hrefused
      exact absurd hrefused (Option.some_ne_none q)
    | message takes tv now toAddr text => trivial
    | flush takes => trivial
    | incoming now tv fromAddr data => trivial
    | restart => trivial
  · exact sendingMessages_sendingInit auri login localUser
  · exact ⟨fun i hi => absurd hi List.not_mem_nil, fun i hi => absurd hi List.not_mem_nil⟩

/-- A message to bob is sent and answered, within two seconds. -/
def sentAndAnswered : List MessageEvent :=
  [toBob true 1400000000,
    .response 0 (.status 200) { sec := 1400000001, usec := 0 } fun _ => true]

/-- The user logs in as `[`: the message is stored as pending still after the response. -/
theorem pending_after_response :
    ((run (sendingStep cstr) (sendingInit (lit "[") (lit "sip:alice@x")) sentAndAnswered).map
      fun s => s.acked.map fun i => (rowsAt s.tcmsg.table i).map Row.curnt) = some [[3, 1]] := by
  decide +kernel

/-! ## Logins without a set -/

/-- The rows are under keys of the client. -/
structure KeysOf (c : StoreClient) (tcmsg : TcMessages) : Prop where
  store : storeOrder tcmsg.store false = c
  rows : ∀ r ∈ tcmsg.table, IsMessage r
  keys : ∀ r ∈ tcmsg.table, ∃ now, r.blobKey = storeKey c now

section keys

variable {auri : List Byte → Text} {c : StoreClient} {tcmsg t : TcMessages} {e : MessageEvent}

/-- An event writes under keys of the client only. -/
theorem KeysOf.step (h : KeysOf c tcmsg) (hstep : messageStep auri tcmsg e = some t) :
    KeysOf c t := by
  refine ⟨(messageStep_store h.rows hstep).trans h.store, isMessage_step h.rows hstep, ?_⟩
  have hkey : ∀ now, storeKey tcmsg.store now = storeKey c now := by
    intro now
    rw [← h.store]
    rfl
  have hwrite : ∀ now tv fromAddr toAddr data state,
      ∀ r ∈ writeDb tcmsg.store now tv fromAddr toAddr data state tcmsg.table,
        ∃ now, r.blobKey = storeKey c now := by
    intro now tv fromAddr toAddr data state
    exact forall_mem_storeAddState (P := fun key _ _ => ∃ now, key = storeKey c now) h.keys
      ⟨now, hkey now⟩
  rw [(messageStep_table h.rows hstep).2]
  cases e with
  | message takes tv now toAddr text => exact hwrite now tv tcmsg.user toAddr (bytes text) .pending
  | flush takes => exact h.keys
  | response i res now takes =>
    obtain ⟨q, hq, -⟩ := Option.map_eq_some_iff.mp hstep
    rw [tableAfter_response hq]
    split
    · exact hwrite now q.msg.tv tcmsg.user q.msg.user q.msg.data .sync
    · exact h.keys
  | incoming now tv fromAddr data => exact hwrite now tv fromAddr tcmsg.user data .sync
  | restart => exact h.keys

/-- **A login without `[`** finds all rows under keys that match. -/
theorem stepsMeet_findsOwn (auri : List Byte → Text) {login : Text} (hlogin : byteOf '[' ∉ login)
    (localUser : Text) (es : List MessageEvent) :
    StepsMeet (sendingStep auri) (FindsOwn auri) (sendingInit login localUser) es := by
  apply stepsMeet_of_invariant (sendingStep auri)
    (I := fun s => KeysOf (storeOpen login (byteOf 'm')) s.tcmsg)
  · intro s e t hI hstep
    obtain ⟨-, m, hm, rfl⟩ := sendingStep_eq_some hstep
    exact hI.step hm
  · intro s e hI
    cases e with
    | response i res now takes =>
      intro _ _ _ _ r hr _ _
      obtain ⟨now', hkey⟩ := hI.keys r hr
      have hletter : byteOf 'm' ≠ byteOf '[' := by decide
      have howns := owns_storeKey (c := storeOpen login (byteOf 'm')) hlogin hletter now'
      rw [← hkey, ← hI.store] at howns
      exact howns
    | message takes tv now toAddr text => trivial
    | flush takes => trivial
    | incoming now tv fromAddr data => trivial
    | restart => trivial
  · exact ⟨rfl, fun _ hr => absurd hr List.not_mem_nil, fun _ hr => absurd hr List.not_mem_nil⟩

end keys
