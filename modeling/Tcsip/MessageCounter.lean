/-
# The counter of the flusher

The counter `flush` is there to make `message_response` wait for all messages of a flush
before it reads the next bunch.  So when it is tested it ought to be the number of
outstanding requests that `send_pending` sent.  But every final response decrements it, also
one to a message that was sent directly; `send_pending` increments it for messages that the
stack did not take; and every flush resets it, whatever is outstanding.

`FlushNotes` keeps these three beside a run, and they are just what the counter is off
(`NotesCancel`): the test is right when they cancel out (`counterRight_iff`).
-/
import Tcsip.Message

open Runs

/-! ## The test -/

/-- The outstanding requests that `send_pending` sent. -/
def resentRequests (tcmsg : TcMessages) : ℕ := tcmsg.sip.requests.countP MsgRequest.resend

/-- If the event is a response that tests the counter, it is the number of outstanding requests
that `send_pending` sent. -/
def CounterRight (tcmsg : TcMessages) : MessageEvent → Prop
  | .response i res now _ =>
    res.final = true → res ≠ .error → ∀ q ∈ tcmsg.sip.requests[i]?,
      (responseSeen (endRequest tcmsg i res) now q.msg res).flush =
        resentRequests (endRequest tcmsg i res)
  | _ => True

instance (tcmsg : TcMessages) : ∀ e, Decidable (CounterRight tcmsg e)
  | .response _ _ _ _ => inferInstanceAs (Decidable (_ → _ → _))
  | .message _ _ _ _ _ | .flush _ | .incoming _ _ _ _ | .restart => isTrue trivial

/-- **What a right test means**: the response starts a flush exactly when no request of the
last bunch is outstanding. -/
theorem autoFlush_iff {auri : List Byte → Text} {tcmsg : TcMessages} {i : ℕ} {res : Response}
    {now : Timeval} {takes : MsgSingle → Bool} {q : MsgRequest}
    (h : CounterRight tcmsg (.response i res now takes))
    (hq : tcmsg.sip.requests[i]? = some q) (hfinal : res.final = true) (herr : res ≠ .error) :
    messageResponse auri (endRequest tcmsg i res) takes now q.msg res
      = if resentRequests (endRequest tcmsg i res) = 0
        then tcmessageFlush auri
          (noteFlush (responseSeen (endRequest tcmsg i res) now q.msg res)) takes
        else responseSeen (endRequest tcmsg i res) now q.msg res := by
  have hright := h hfinal herr q hq
  unfold messageResponse
  rw [if_pos hfinal]
  dsimp only
  rw [hright]
  by_cases hzero : resentRequests (endRequest tcmsg i res) = 0
  · rw [if_pos hzero, if_pos ⟨herr, by rw [hzero]; rfl⟩]
  · rw [if_neg hzero, if_neg fun h' => hzero (Int.ofNat_eq_zero.mp h'.2)]

/-! ## Notes -/

/-- What is noted at the last flush and since: the messages that the stack did not take, the
requests of earlier flushes that were outstanding, and the direct requests that ended
since. -/
structure FlushNotes where
  untaken : ℕ
  before : ℕ
  direct : ℕ
  deriving DecidableEq

/-- Nothing, as at the start of the program. -/
def noNotes : FlushNotes := { untaken := 0, before := 0, direct := 0 }

/-- The messages that a flush reads. -/
def pendingBulk (auri : List Byte → Text) (tcmsg : TcMessages) : List MsgSingle :=
  (storeFetchState (storeOrder tcmsg.store true) none (msgParse auri) MsgState.pending.toInt
    tcmsg.table).getD []

/-- What is noted of a flush. -/
def flushNotes (auri : List Byte → Text) (tcmsg : TcMessages) (takes : MsgSingle → Bool) :
    FlushNotes :=
  { untaken := (pendingBulk auri tcmsg).countP fun msg => !takes msg
    before := resentRequests tcmsg
    direct := 0 }

/-- What is noted of an event. -/
def noteEvent (auri : List Byte → Text) (tcmsg : TcMessages) (g : FlushNotes) :
    MessageEvent → FlushNotes
  | .message _ _ _ _ _ | .incoming _ _ _ _ => g
  | .flush takes => flushNotes auri tcmsg takes
  | .response i res now takes =>
    match tcmsg.sip.requests[i]? with
    | none => g
    | some q =>
      if res.final then
        let seen := responseSeen (endRequest tcmsg i res) now q.msg res
        if res ≠ .error ∧ seen.flush = 0 then flushNotes auri seen takes
        else { g with direct := g.direct + if q.resend then 0 else 1 }
      else g
  | .restart => noNotes

/-- If the event is a response that tests the counter: as many messages of the last flush were
not taken as requests were outstanding at it and direct requests ended since, with the one
that ends now. -/
def NotesCancel (p : TcMessages × FlushNotes) : MessageEvent → Prop
  | .response i res _ _ =>
    res.final = true → res ≠ .error → ∀ q ∈ p.1.sip.requests[i]?,
      p.2.untaken = p.2.before + p.2.direct + if q.resend then 0 else 1
  | _ => True

instance (p : TcMessages × FlushNotes) : ∀ e, Decidable (NotesCancel p e)
  | .response _ _ _ _ => inferInstanceAs (Decidable (_ → _ → _))
  | .message _ _ _ _ _ | .flush _ | .incoming _ _ _ _ | .restart => isTrue trivial

/-! ## The account -/

/-- **The account**: what the counter is off. -/
def RequestsAccounted (p : TcMessages × FlushNotes) : Prop :=
  p.1.flush + p.2.before + p.2.direct = resentRequests p.1 + p.2.untaken

section account

variable {auri : List Byte → Text} {tcmsg : TcMessages} {g : FlushNotes}

/-- Sending a bunch counts all its messages, and those that are taken are outstanding. -/
theorem foldl_sendPending (takes : MsgSingle → Bool) (bulk : List MsgSingle) (s : TcMessages) :
    (bulk.foldl (sendPending takes) s).flush = s.flush + bulk.length ∧
      resentRequests (bulk.foldl (sendPending takes) s) = resentRequests s + bulk.countP takes := by
  induction bulk generalizing s with
  | nil => simp
  | cons msg bulk ih =>
      obtain ⟨hflush, hresent⟩ := ih (sendPending takes s msg)
      have hone : resentRequests (sendPending takes s msg) =
          resentRequests s + if takes msg then 1 else 0 := by
        unfold resentRequests sendPending msend
        dsimp only
        rw [List.countP_append]
        split <;> simp
      rw [List.foldl_cons, hflush, hresent, hone, List.length_cons, List.countP_cons]
      constructor
      · show s.flush + 1 + (bulk.length : ℤ) = s.flush + ((bulk.length + 1 : ℕ) : ℤ)
        push_cast
        ring
      · ring

/-- **A flush** leaves the account in order, whatever it was before. -/
theorem requestsAccounted_flush (auri : List Byte → Text) (tcmsg : TcMessages)
    (takes : MsgSingle → Bool) :
    RequestsAccounted (tcmessageFlush auri tcmsg takes, flushNotes auri tcmsg takes) := by
  obtain ⟨hflush, hresent⟩ := foldl_sendPending takes (pendingBulk auri tcmsg)
    { tcmsg with store := storeOrder tcmsg.store true, flush := 0 }
  have hsplit := List.length_eq_countP_add_countP takes (l := pendingBulk auri tcmsg)
  have hneg : (pendingBulk auri tcmsg).countP (fun msg => decide ¬ takes msg = true)
      = (pendingBulk auri tcmsg).countP fun msg => !takes msg :=
    List.countP_congr fun msg _ => by simp
  rw [hneg] at hsplit
  show (List.foldl (sendPending takes) _ (pendingBulk auri tcmsg)).flush +
      (resentRequests tcmsg : ℤ) + 0
    = (resentRequests (List.foldl (sendPending takes) _ (pendingBulk auri tcmsg)) : ℤ)
      + ((pendingBulk auri tcmsg).countP (fun msg => !takes msg) : ℕ)
  rw [hflush, hresent]
  show (0 : ℤ) + (pendingBulk auri tcmsg).length + (resentRequests tcmsg : ℤ) + 0
    = ((resentRequests tcmsg + (pendingBulk auri tcmsg).countP takes : ℕ) : ℤ) + _
  rw [hsplit]
  push_cast
  ring

/-- A direct message is not counted. -/
theorem resentRequests_tcmessage (takes : MsgSingle → Bool) (tv now : Timeval)
    (toAddr text : Text) :
    resentRequests (tcmessage tcmsg takes tv now toAddr text) = resentRequests tcmsg := by
  unfold resentRequests tcmessage flagSent msend
  dsimp only
  rw [List.countP_append]
  split <;> simp

/-- The end of a request that `send_pending` sent leaves one less. -/
theorem resentRequests_endRequest {i : ℕ} {res : Response} {q : MsgRequest}
    (hq : tcmsg.sip.requests[i]? = some q) (hfinal : res.final = true) :
    resentRequests (endRequest tcmsg i res) + (if q.resend then 1 else 0) =
      resentRequests tcmsg := by
  obtain ⟨hi, rfl⟩ := List.getElem?_eq_some_iff.mp hq
  have hperm := (List.getElem_cons_eraseIdx_perm hi).countP_eq MsgRequest.resend
  rw [List.countP_cons] at hperm
  unfold resentRequests endRequest
  rw [if_pos hfinal]
  exact hperm

theorem resentRequests_responseSeen (now : Timeval) (msg : MsgSingle) (res : Response) :
    resentRequests (responseSeen tcmsg now msg res) = resentRequests tcmsg := by
  unfold resentRequests
  rw [responseSeen_sip]

/-- **A test is right exactly when the notes cancel out.** -/
theorem counterRight_iff_notesCancel (h : RequestsAccounted (tcmsg, g)) (e : MessageEvent) :
    CounterRight tcmsg e ↔ NotesCancel (tcmsg, g) e := by
  cases e with
  | response i res now takes =>
      refine forall_congr' fun hfinal => forall_congr' fun _ => forall₂_congr fun q hq => ?_
      have hend := resentRequests_endRequest hq hfinal
      have haccount : tcmsg.flush + g.before + g.direct = resentRequests tcmsg + g.untaken := h
      rw [responseSeen_flush, endRequest_flush]
      show tcmsg.flush - 1 = (resentRequests (endRequest tcmsg i res) : ℤ)
        ↔ g.untaken = g.before + g.direct + if q.resend then 0 else 1
      cases hresend : q.resend <;> rw [hresend] at hend <;>
        simp only [Bool.false_eq_true, if_true, if_false] at hend ⊢ <;> omega
  | message takes tv now toAddr text => exact Iff.rfl
  | flush takes => exact Iff.rfl
  | incoming now tv fromAddr data => exact Iff.rfl
  | restart => exact Iff.rfl

/-- **Every event keeps the account.** -/
theorem requestsAccounted_step (p : TcMessages × FlushNotes) (e : MessageEvent)
    (q : TcMessages × FlushNotes) (h : RequestsAccounted p)
    (hstep : noted (messageStep auri) (noteEvent auri) p e = some q) : RequestsAccounted q := by
  obtain ⟨s, g⟩ := p
  obtain ⟨t, ht, rfl⟩ := Option.map_eq_some_iff.mp hstep
  have haccount : s.flush + g.before + g.direct = resentRequests s + g.untaken := h
  cases e with
  | message takes tv now toAddr text =>
      obtain rfl := Option.some.inj ht
      show s.flush + (g.before : ℤ) + g.direct =
        resentRequests (tcmessage s takes tv now toAddr text) + _
      rw [resentRequests_tcmessage]
      exact haccount
  | flush takes =>
      obtain rfl := Option.some.inj ht
      exact requestsAccounted_flush auri s takes
  | incoming now tv fromAddr data =>
      obtain rfl := Option.some.inj ht
      exact haccount
  | restart =>
      obtain rfl := Option.some.inj ht
      rfl
  | response i res now takes =>
      obtain ⟨q, hq, rfl⟩ := Option.map_eq_some_iff.mp ht
      unfold noteEvent messageResponse
      dsimp only
      rw [hq]
      dsimp only
      by_cases hfinal : res.final = true
      · rw [if_pos hfinal, if_pos hfinal]
        split
        · exact requestsAccounted_flush auri
            (noteFlush (responseSeen (endRequest s i res) now q.msg res))
            takes
        · have hend := resentRequests_endRequest hq hfinal
          show (responseSeen (endRequest s i res) now q.msg res).flush + (g.before : ℤ)
              + ((g.direct + if q.resend then 0 else 1 : ℕ) : ℤ)
            = (resentRequests (responseSeen (endRequest s i res) now q.msg res) : ℤ) + g.untaken
          rw [resentRequests_responseSeen, responseSeen_flush, endRequest_flush]
          cases hresend : q.resend <;> rw [hresend] at hend <;>
            simp only [Bool.false_eq_true, if_true, if_false] at hend ⊢ <;> omega
      · rw [if_neg hfinal, if_neg hfinal]
        have hsame : endRequest s i res = s := if_neg hfinal
        rw [hsame]
        exact haccount

end account

/-! ## Whole runs -/

/-- **When the counter counts.**  In every run from the start of the program, every test of the
counter finds the number of outstanding requests that `send_pending` sent, exactly when at
every test the messages that were not taken cancel out with the requests that the last
flush forgot and the direct ones that ended since. -/
theorem counterRight_iff (auri : List Byte → Text) (c : StoreClient) (T : List (Row Text Obj))
    (localUser : Text) (es : List MessageEvent) :
    StepsMeet (messageStep auri) CounterRight (tcmessageAlloc c T localUser) es
      ↔ StepsMeet (noted (messageStep auri) (noteEvent auri)) NotesCancel
        (tcmessageAlloc c T localUser, noNotes) es := by
  have hinit : RequestsAccounted (tcmessageAlloc c T localUser, noNotes) := rfl
  rw [← stepsMeet_noted (messageStep auri) (noteEvent auri) _ noNotes]
  exact stepsMeet_congr _ requestsAccounted_step
    (fun p e h => counterRight_iff_notesCancel h e) hinit es

/-- Two messages wait while the stack is down, and the user's flush sends the first of them
again; its response 200 starts the flush that sends the second one. -/
def waitThenFlush : List MessageEvent :=
  [toBob false 1400000000, toBob false 1400000001, .flush fun _ => true,
    .response 0 (.status 200) { sec := 1400000100, usec := 0 } fun _ => true]

/-- A message waits while the stack is down, the next one is taken, and the user's flush sends the
first one again; then the response to the second one comes. -/
def flushMeanwhile : List MessageEvent :=
  [toBob false 1400000000, toBob true 1400000001, .flush fun _ => true,
    .response 0 (.status 200) { sec := 1400000100, usec := 0 } fun _ => true]

/-- The counter counts while only resent messages are outstanding. -/
theorem counterRight_waitThenFlush :
    StepsMeet (messageStep cstr) CounterRight aliceMessages waitThenFlush :=
  (counterRight_iff cstr _ _ _ waitThenFlush).mpr (by decide +kernel)

/-- A response to a direct message is taken for the end of the bunch: the flush that it starts
sends the message that is outstanding once more. -/
theorem not_counterRight_flushMeanwhile :
    ¬ StepsMeet (messageStep cstr) CounterRight aliceMessages flushMeanwhile ∧
      ((run (messageStep cstr) aliceMessages flushMeanwhile).map fun s =>
        (s.autoFlushes.length, resentRequests s, s.sip.requests.length)) = some (1, 2, 2) := by
  decide +kernel
