/-
# Messages in flight

A message is sent by `tcmessage` and sent again by every flush that finds it first among
the pending rows.  Nothing in `tcmessage_flush` looks at the outstanding requests: its only
guard is the counter, which the user's flush resets and the response to a direct send
lowers.  So a message is sent while an earlier request for it is outstanding exactly when a
flush finds such a message first (`sentOnce_iff`).
-/
import Tcsip.Message

open KeyedList Runs

/-- No message was sent while a request for the same `idx` was outstanding. -/
def SentOnce (sip : SipStack) : Prop :=
  ∀ call ∈ sip.calls, ∀ q ∈ call.2, q.msg.idx ≠ call.1.idx

instance (sip : SipStack) : Decidable (SentOnce sip) :=
  inferInstanceAs (Decidable (∀ call ∈ _, _))

/-- No outstanding request is for the message of this `idx`. -/
def MessageIdle (sip : SipStack) (idx : Text) : Prop := ∀ q ∈ sip.requests, q.msg.idx ≠ some idx

instance (sip : SipStack) (idx : Text) : Decidable (MessageIdle sip idx) :=
  inferInstanceAs (Decidable (∀ q ∈ _, _))

/-- The message in the first pending row, if there is one, has no outstanding request. -/
def FirstIdle (tcmsg : TcMessages) : Prop := ∀ r ∈ firstPending tcmsg, MessageIdle tcmsg.sip r.idx

instance (tcmsg : TcMessages) : Decidable (FirstIdle tcmsg) :=
  inferInstanceAs (Decidable (∀ r ∈ firstPending tcmsg, _))

/-- A new message has no outstanding request yet.  When a flush is due, by the user or by a
response that brings the counter to zero, the first message that is still pending has
none. -/
def FlushesIdle (tcmsg : TcMessages) : MessageEvent → Prop
  | .message _ tv _ toAddr _ => MessageIdle tcmsg.sip (messageIdx tv tcmsg.user toAddr)
  | .flush _ => FirstIdle tcmsg
  | .response i res now _ =>
    res.final = true ∧ res ≠ .error ∧ tcmsg.flush = 1 →
      ∀ q ∈ tcmsg.sip.requests[i]?, FirstIdle (responseSeen (endRequest tcmsg i res) now q.msg res)
  | .incoming _ _ _ _ => True
  | .restart => True

instance (tcmsg : TcMessages) : ∀ e, Decidable (FlushesIdle tcmsg e)
  | .message _ _ _ _ _ => inferInstanceAs (Decidable (MessageIdle _ _))
  | .flush _ => inferInstanceAs (Decidable (FirstIdle _))
  | .response _ _ _ _ => inferInstanceAs (Decidable (_ → _))
  | .incoming _ _ _ _ => isTrue trivial
  | .restart => isTrue trivial

/-! ## One step -/

section step

variable {auri : List Byte → Text} {tcmsg : TcMessages}

/-- A call of `msend` spoils it exactly when the message has an outstanding request. -/
theorem sentOnce_msend (sip : SipStack) (takes : MsgSingle → Bool) {msg : MsgSingle} {idx : Text}
    (hidx : msg.idx = some idx) (resend : Bool) :
    SentOnce (msend sip takes msg resend) ↔ SentOnce sip ∧ MessageIdle sip idx := by
  unfold SentOnce msend MessageIdle
  simp only [List.mem_append, List.mem_singleton, or_imp, forall_and, forall_eq, hidx]

/-- A flush spoils it exactly when the first pending message has an outstanding request. -/
theorem sentOnce_flush (hT : ∀ r ∈ tcmsg.table, IsMessage r) (takes : MsgSingle → Bool) :
    SentOnce (tcmessageFlush auri tcmsg takes).sip ↔ SentOnce tcmsg.sip ∧ FirstIdle tcmsg := by
  unfold FirstIdle
  rcases tcmessageFlush_cases auri hT takes with ⟨hfirst, heq⟩ | ⟨r, msg, hfirst, hidx, heq⟩
  · rw [heq, hfirst]
    simp
  · rw [heq, hfirst, sentOnce_msend tcmsg.sip takes hidx true]
    simp

/-- The end of a request takes no call back. -/
theorem sentOnce_endRequest (i : ℕ) (res : Response) :
    SentOnce (endRequest tcmsg i res).sip ↔ SentOnce tcmsg.sip := by
  unfold endRequest SentOnce
  split <;> rfl

/-- A response spoils it exactly when it leads to a flush that does. -/
theorem sentOnce_response (hT : ∀ r ∈ tcmsg.table, IsMessage r) (takes : MsgSingle → Bool)
    (now : Timeval) (msg : MsgSingle) (res : Response) :
    SentOnce (messageResponse auri tcmsg takes now msg res).sip
      ↔ SentOnce tcmsg.sip ∧ (res.final = true ∧ res ≠ .error ∧ tcmsg.flush = 1 →
        FirstIdle (responseSeen tcmsg now msg res)) := by
  rcases messageResponse_cases auri tcmsg takes now msg res with
    ⟨hprov, heq⟩ | ⟨-, hno, heq⟩ | ⟨hfinal, herr, hone, heq⟩
  · rw [heq]
    exact ⟨fun h => ⟨h, fun hf => absurd hf.1 (by simp [hprov])⟩, And.left⟩
  · rw [heq, responseSeen_sip]
    exact ⟨fun h => ⟨h, fun hf => absurd hf.2 hno⟩, And.left⟩
  · -- the flush sees the rows that the response has left
    have hseen : ∀ r ∈ (noteFlush (responseSeen tcmsg now msg res)).table, IsMessage r :=
      isMessage_responseSeen hT now msg res
    have hsip : (noteFlush (responseSeen tcmsg now msg res)).sip = tcmsg.sip :=
      responseSeen_sip tcmsg now msg res
    rw [heq, sentOnce_flush hseen takes, hsip]
    exact and_congr_right fun _ => ⟨fun h _ => h, fun h => h ⟨hfinal, herr, hone⟩⟩

/-- **A step spoils it** exactly when it does not meet the condition. -/
theorem sentOnce_step {e : MessageEvent} {t : TcMessages} (hT : ∀ r ∈ tcmsg.table, IsMessage r)
    (hstep : messageStep auri tcmsg e = some t) :
    SentOnce t.sip ↔ SentOnce tcmsg.sip ∧ FlushesIdle tcmsg e := by
  cases e with
  | message takes tv now toAddr text =>
      obtain rfl := Option.some.inj hstep
      exact sentOnce_msend tcmsg.sip takes rfl false
  | flush takes =>
      obtain rfl := Option.some.inj hstep
      exact sentOnce_flush hT takes
  | response i res now takes =>
      obtain ⟨q, hq, rfl⟩ := Option.map_eq_some_iff.mp hstep
      have hend : ∀ r ∈ (endRequest tcmsg i res).table, IsMessage r := by
        rw [endRequest_table]
        exact hT
      refine (sentOnce_response hend takes now q.msg res).trans ?_
      rw [sentOnce_endRequest, endRequest_flush]
      show _ ∧ _ ↔ _ ∧ (_ → ∀ p ∈ tcmsg.sip.requests[i]?, _)
      rw [hq]
      simp only [Option.mem_def, Option.some.injEq, forall_eq']
  | incoming now tv fromAddr data =>
      obtain rfl := Option.some.inj hstep
      exact (and_iff_left trivial).symm
  | restart =>
      obtain rfl := Option.some.inj hstep
      exact (and_iff_left trivial).symm

end step

/-! ## Whole runs -/

/-- **When no message is sent twice at a time.**  In every run, no message is sent while an
earlier request for it is outstanding, exactly when every step of the run meets the
condition. -/
theorem sentOnce_iff (auri : List Byte → Text) (login localUser : Text) {es : List MessageEvent}
    {t : TcMessages}
    (hrun : run (messageStep auri) (tcmessageAlloc (storeOpen login (byteOf 'm')) [] localUser) es
      = some t) :
    SentOnce t.sip ↔ StepsMeet (messageStep auri) FlushesIdle
      (tcmessageAlloc (storeOpen login (byteOf 'm')) [] localUser) es := by
  have hmonitor := run_monitor_iff (messageStep auri)
    (B := fun s => SentOnce s.sip) (C := FlushesIdle) (I := fun s => ∀ r ∈ s.table, IsMessage r)
    (fun _ _ _ hT hstep => isMessage_step hT hstep)
    (fun _ _ _ hT hstep => sentOnce_step hT hstep)
    (fun _ hr => absurd hr List.not_mem_nil) hrun
  refine hmonitor.trans (and_iff_right ?_)
  intro call hcall
  exact absurd hcall List.not_mem_nil

/-- A message is stored while the stack is down; later a flush sends it, and it is answered. -/
def storedThenSent : List MessageEvent :=
  [toBob false 1400000000, .flush fun _ => true,
    .response 0 (.status 200) { sec := 1400000100, usec := 0 } fun _ => true]

theorem sentOnce_storedThenSent :
    ∃ t, run (messageStep cstr) aliceMessages storedThenSent = some t ∧ SentOnce t.sip := by
  have hsome : (run (messageStep cstr) aliceMessages storedThenSent).isSome = true := by
    decide +kernel
  obtain ⟨t, hrun⟩ := Option.isSome_iff_exists.mp hsome
  exact ⟨t, hrun, (sentOnce_iff cstr (lit "alice") (lit "sip:alice@x") hrun).mpr
    (by decide +kernel)⟩

/-- Going online twice: the second flush sends the message again. -/
def onlineTwice : List MessageEvent :=
  [toBob false 1400000000, .flush fun _ => true, .flush fun _ => true]

theorem not_sentOnce_onlineTwice :
    ∃ t, run (messageStep cstr) aliceMessages onlineTwice = some t ∧ ¬ SentOnce t.sip :=
  ⟨_, rfl, by decide +kernel⟩
