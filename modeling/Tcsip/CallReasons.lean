/-
# Why a call ended

`tcsipcall_hangup` and the user's `CALL_REJECT` and `CALL_BYE` read the reason of the end off
the flags: `CSTATE_EST` means that the call was answered, `CSTATE_OUT_RING` that the user
cancels it.  But early media set `CSTATE_EST` too, and drop the ringing flag; `CALL_ACCEPT`
sets it whether or not `sipsess_answer` could send the 200; and before the INVITE is out an
outgoing call has no flag at all.

`CallFacts` keeps beside a run what really happened, and `endReason_iff` says when the flags
tell the same.
-/
import Tcsip.CallStates

open Flags Runs

/-! ## What happened in a call -/

/-- What happened so far: the call was answered, a 183 with a body arrived, a 200 could not
be sent, an INVITE was sent. -/
structure CallFacts where
  answered : Bool
  early : Bool
  unsent : Bool
  invited : Bool
  deriving DecidableEq

/-- Nothing. -/
def noFacts : CallFacts := { answered := false, early := false, unsent := false, invited := false }

/-- `CALL_ACCEPT` gets as far as the 200. -/
def AcceptsCall (c : Call) (err : Bool) : Prop :=
  ¬ Test c.cstate (cstateErr ||| cstateEst) ∧ c.cdir = .callIn ∧ Test c.cstate cstateIce ∧
    err = false

instance (c : Call) (err : Bool) : Decidable (AcceptsCall c err) :=
  inferInstanceAs (Decidable (_ ∧ _))

/-- The event makes `sipsess_answer` send a 200: the user accepts the call, or ICE completes in
a call that was accepted. -/
def Sends200 (c : Call) : CallEvent → Prop
  | .control .accept err => AcceptsCall c err
  | .iceOk err => c.cdir = .callIn ∧ ¬ Test c.cstate cstateInRing ∧ AcceptsCall c.iceDone err
  | _ => False

instance (c : Call) : ∀ e, Decidable (Sends200 c e)
  | .control .accept _ | .iceOk _ => inferInstanceAs (Decidable (_ ∧ _))
  | .control .reject _ | .control .bye _ | .progress _ _ _ | .establish _ | .close | .kaWarn
  | .kaFail | .expire => isFalse id

/-- What is known after an event; `sent` is whether `sipsess_answer` succeeds, if it is
called. -/
def CallFacts.note (f : CallFacts) (c : Call) (e : CallEvent) (sent : Bool) : CallFacts :=
  match e with
  | .establish _ => { f with answered := true }
  | .progress scode body _ => { f with early := f.early || (decide (scode = 183) && body) }
  | .iceOk err =>
    { f with
      answered := f.answered || (decide (Sends200 c e) && sent)
      unsent := f.unsent || (decide (Sends200 c e) && !sent)
      invited := f.invited || (decide (c.cdir = .callOut) && !err) }
  | .control _ _ =>
    { f with
      answered := f.answered || (decide (Sends200 c e) && sent)
      unsent := f.unsent || (decide (Sends200 c e) && !sent) }
  | .close | .kaWarn | .kaFail | .expire => f

/-- A step of the call, and what is known after it. -/
def factStep : CallRun × CallFacts → CallEvent × Bool → Option (CallRun × CallFacts) :=
  noted (fun s e => callStep s e.1) fun s f e => f.note s.call e.1 e.2

instance (s : CallRun) (e : CallEvent) : Decidable (IceOnce s e) :=
  inferInstanceAs (Decidable (_ → _))

/-- The user ends the call. -/
def ByUser : CallEvent → Prop
  | .control .reject _ | .control .bye _ => True
  | _ => False

instance : ∀ e, Decidable (ByUser e)
  | .control .reject _ | .control .bye _ => isTrue trivial
  | .control .accept _ | .iceOk _ | .progress _ _ _ | .establish _ | .close | .kaWarn | .kaFail
  | .expire => isFalse id

/-- The reason that tells what happened. -/
def CallFacts.reason (f : CallFacts) (cdir : CallDir) (e : CallEvent) : CallEnd :=
  if f.answered then .ok else if cdir = .callOut ∧ ByUser e then .cancel else .hang

def histOut : BitVec 32 := 2#32
def histIn : BitVec 32 := 4#32
def histOk : BitVec 32 := 8#32
def histHang : BitVec 32 := 16#32

/-- `tcsip_call_history`: the event it stores, if the call is not alive. -/
def tcsipCallHistory (c : Call) : Option (BitVec 32) :=
  if Test c.cstate cstateAlive then none
  else some ((if c.reason = some .ok then histOk else histHang) |||
    (if c.cdir = .callIn then histIn else histOut))

/-- The handler sees the reason that tells what happened, and history tells whether the call
was answered. -/
def EndsRightly (f : CallFacts) (e : CallEvent) (c : Call) : Prop :=
  c.reason = some (f.reason c.cdir e) ∧
    ∃ event ∈ tcsipCallHistory c, (Test event histOk ↔ f.answered = true)

/-- A call that ends unanswered had no early media and no 200 that could not be sent, and if
the user ends it and it is outgoing, its INVITE was sent. -/
def EndUnambiguous (f : CallFacts) (e : CallEvent) (c : Call) : Prop :=
  f.answered = false →
    f.early = false ∧ f.unsent = false ∧ (ByUser e → c.cdir = .callOut → f.invited = true)

/-! ## Flags and facts -/

/-- Before the hangup the flags tell the facts as far as they can. -/
structure AccountsFacts (s : CallRun) (f : CallFacts) : Prop where
  reason : s.call.reason = none
  est : Test s.call.cstate cstateEst ↔ f.answered = true ∨ f.early = true ∨ f.unsent = true
  outRing : s.call.cdir = .callOut →
    (Test s.call.cstate cstateOutRing ↔ f.invited = true ∧ ¬ Test s.call.cstate cstateEst)

/-- An established call does not ring out. -/
theorem FlagsCoherent.not_outRing {c : Call} (h : FlagsCoherent c)
    (hest : Test c.cstate cstateEst) :
    ¬ Test c.cstate cstateOutRing := fun hout => h.ring (test_mono (by decide) hout) hest

/-- For one flag the two ways to test are the same. -/
theorem hasAll_iff_test {x m : CallState} {i : ℕ} (hi : i < 32) (hm : m = BitVec.twoPow 32 i) :
    HasAll x m ↔ Test x m := by
  have hne : BitVec.twoPow 32 i ≠ 0#32 := by
    intro h0
    have hbit := BitVec.getLsbD_twoPow (w := 32) i i
    rw [h0, BitVec.getLsbD_zero] at hbit
    simp [hi] at hbit
  subst hm
  unfold HasAll Test
  rw [BitVec.and_twoPow]
  cases x.getLsbD i with
  | false => simpa using hne.symm
  | true => simpa using hne

theorem accountsFacts_begins {s : CallRun} (h : CallBegins s) : AccountsFacts s noFacts := by
  cases h with
  | out err handler => cases err <;> cases handler <;> exact ⟨rfl, by decide, by decide⟩
  | incoming err acceptErr handler =>
      cases err <;> cases acceptErr <;> cases handler <;> exact ⟨rfl, by decide, by decide⟩

/-- The handler only reads the call. -/
theorem callHandler_call (s : CallRun) : (callHandler s).call = s.call := by
  rcases callHandler_cases s with heq | heq <;> rw [heq]

/-- Activation establishes the call. -/
theorem activate_est {s : CallRun} (h : CallAlive s) (err : Bool) :
    Test (tcsipcallActivate s err).call.cstate cstateEst := by
  have hset : ∀ x : CallState, Test (x ||| cstateEst) cstateEst := fun x => test_or_self (by decide)
  unfold tcsipcallActivate
  split
  · next hall =>
    refine h.coherent.est fun h0 => ?_
    -- media flow already
    have hflow : (s.call.cstate &&& (cstateFlow ||| cstateMedia)) &&& cstateFlow = 0#32 := by
      rw [BitVec.and_assoc, show (cstateFlow ||| cstateMedia) &&& cstateFlow = cstateFlow by decide,
        h0]
    rw [hall] at hflow
    exact absurd hflow (by decide)
  · split
    · rw [callHandler_call]
      exact (test_or _ _ _).mpr (Or.inl (hset _))
    · rw [callHandler_call]
      exact (test_or _ _ _).mpr (Or.inl (hset _))

theorem activate_reason (s : CallRun) (err : Bool) :
    (tcsipcallActivate s err).call.reason = s.call.reason := by
  unfold tcsipcallActivate
  split_ifs
  · rfl
  · rw [callHandler_call]
  · rw [callHandler_call]

/-- After an activation the call is established, and that is so because of what was noted. -/
theorem AccountsFacts.activate {s : CallRun} {f f' : CallFacts} (h : AccountsFacts s f)
    (hs : CallAlive s) (hc : IceReady s.call) (err : Bool)
    (hf : f'.answered = true ∨ f'.early = true ∨ f'.unsent = true) :
    AccountsFacts (tcsipcallActivate s err) f' := by
  have hest := activate_est hs err
  have halive := (hs.activate hc err).1
  refine ⟨(activate_reason s err).trans h.reason, iff_of_true hest hf, fun _ => ?_⟩
  exact iff_of_false (halive.coherent.not_outRing hest) fun hnot => hnot.2 hest

/-- Accepting establishes the call if it gets as far as the 200. -/
theorem accept_est (s : CallRun) (err : Bool) :
    Test (tcsipcallControl s .accept err).call.cstate cstateEst
      ↔ AcceptsCall s.call err ∨ Test s.call.cstate cstateEst := by
  have hdrop : Test (drop s.call.cstate cstateRing) cstateEst ↔ Test s.call.cstate cstateEst :=
    test_drop_of_disjoint (by decide)
  unfold tcsipcallControl AcceptsCall
  dsimp only
  split_ifs with hflags hdir hice herr
  · exact ⟨Or.inr, fun h => h.resolve_left fun ha => ha.1 hflags⟩
  · exact ⟨Or.inr, fun h => h.resolve_left fun ha => hdir ha.2.1⟩
  · rw [hdrop]
    refine ⟨Or.inr, fun h => h.resolve_left fun ha => ?_⟩
    rw [herr] at ha
    exact Bool.noConfusion ha.2.2.2
  · refine iff_of_true (test_or_self (by decide)) (Or.inl ⟨hflags, not_not.mp hdir, hice, ?_⟩)
    simpa using herr
  · rw [hdrop]
    exact ⟨Or.inr, fun h => h.resolve_left fun ha => hice ha.2.2.1⟩

theorem accept_reason (s : CallRun) (err : Bool) :
    (tcsipcallControl s .accept err).call.reason = s.call.reason := by
  unfold tcsipcallControl
  dsimp only
  split_ifs <;> rfl

/-- Accepting is not for outgoing calls. -/
theorem accept_of_callOut {s : CallRun} (h : s.call.cdir = .callOut) (err : Bool) :
    tcsipcallControl s .accept err = s := by
  unfold tcsipcallControl
  dsimp only
  split_ifs with _ hdir
  · rfl
  · rfl
  all_goals
    rw [h] at hdir
    exact absurd (by decide) hdir

/-- What is noted when the call is accepted. -/
theorem AccountsFacts.accept {s : CallRun} {f : CallFacts} (h : AccountsFacts s f)
    (err sent : Bool) :
    AccountsFacts (tcsipcallControl s .accept err)
      { f with
        answered := f.answered || (decide (AcceptsCall s.call err) && sent)
        unsent := f.unsent || (decide (AcceptsCall s.call err) && !sent) } := by
  refine ⟨(accept_reason s err).trans h.reason, ?_, fun hout => ?_⟩
  · rw [accept_est, h.est]
    by_cases ha : AcceptsCall s.call err
    · cases sent <;> simp [ha]
    · simp [ha]
  · have hcdir : s.call.cdir = .callOut :=
      (tcsipcallControl_accept_keeps s err).cdir.symm.trans hout
    rw [accept_of_callOut hcdir]
    exact h.outRing hcdir

/-- The end of ICE sends an outgoing call. -/
theorem mediaIceOk_callOut {s : CallRun} (h : s.call.cdir = .callOut) (err : Bool) :
    mediaIceOk s err = tcsipcallSend { s with call := s.call.iceDone } err := by
  obtain ⟨⟨cdir, _, _, _, _, _, _⟩, _, _, _, _, _, _, _⟩ := s
  obtain rfl : cdir = .callOut := h
  rfl

/-- The end of ICE accepts an incoming call that does not ring any more. -/
theorem mediaIceOk_callIn {s : CallRun} (h : s.call.cdir = .callIn) (err : Bool) :
    mediaIceOk s err = if ¬ Test s.call.iceDone.cstate cstateInRing
      then tcsipcallControl { s with call := s.call.iceDone } .accept err
      else { s with call := s.call.iceDone } := by
  obtain ⟨⟨cdir, _, _, _, _, _, _⟩, _, _, _, _, _, _, _⟩ := s
  obtain rfl : cdir = .callIn := h
  rfl

/-- The flag of complete ICE is no other flag. -/
theorem test_iceDone {c : Call} {n : CallState} (hn : cstateIce &&& n = 0#32) :
    Test c.iceDone.cstate n ↔ Test c.cstate n := test_or_of_disjoint hn

/-- What is noted when an outgoing call is sent. -/
theorem AccountsFacts.send {s : CallRun} {f : CallFacts} (h : AccountsFacts s f) (hs : CallAlive s)
    (hice : ¬ Test s.call.cstate cstateIce) (hcdir : s.call.cdir = .callOut) (err sent : Bool) :
    AccountsFacts (tcsipcallSend { s with call := s.call.iceDone } err)
      (f.note s.call (.iceOk err) sent) := by
  have hno : ¬ Sends200 s.call (.iceOk err) := fun hsend =>
    absurd (hsend.1.symm.trans hcdir) (by decide)
  have hnot : ¬ Test s.call.cstate cstateEst := (hs.coherent.waiting hcdir hice).2
  have hest : ∀ m : CallState, m &&& cstateEst = 0#32 →
      (Test (s.call.iceDone.cstate ||| m) cstateEst ↔ Test s.call.cstate cstateEst) :=
    fun m hm => (test_or_of_disjoint hm).trans (test_iceDone (by decide))
  unfold tcsipcallSend CallFacts.note
  cases err with
  | true =>
      have hring : Test (s.call.iceDone.cstate ||| cstateErr) cstateOutRing ↔
          Test s.call.cstate cstateOutRing :=
        (test_or_of_disjoint (by decide)).trans (test_iceDone (by decide))
      refine ⟨h.reason, (hest cstateErr (by decide)).trans (h.est.trans ?_), fun _ => ?_⟩
      · simp [hno]
      · refine hring.trans ((h.outRing hcdir).trans (and_congr ?_ (not_congr ?_)))
        · simp
        · exact (hest cstateErr (by decide)).symm
  | false =>
      refine ⟨h.reason, (hest cstateOutRing (by decide)).trans (h.est.trans ?_), fun _ => ?_⟩
      · simp [hno]
      · exact iff_of_true (test_or_self (by decide))
          ⟨by simp [hcdir], fun h' => hnot ((hest cstateOutRing (by decide)).mp h')⟩

/-- What is noted when ICE completes in an incoming call. -/
theorem AccountsFacts.iceIn {s : CallRun} {f : CallFacts} (h : AccountsFacts s f)
    (hcdir : s.call.cdir = .callIn) (err sent : Bool) :
    AccountsFacts (mediaIceOk s err) (f.note s.call (.iceOk err) sent) := by
  have hout : ¬ CallDir.callIn = .callOut := by decide
  have h' : AccountsFacts { s with call := s.call.iceDone } f :=
    ⟨h.reason, (test_iceDone (by decide)).trans h.est,
      fun heq => absurd (hcdir.symm.trans heq) hout⟩
  have hinRing : Test s.call.iceDone.cstate cstateInRing ↔ Test s.call.cstate cstateInRing :=
    test_iceDone (by decide)
  rw [mediaIceOk_callIn hcdir]
  unfold CallFacts.note
  by_cases hin : Test s.call.cstate cstateInRing
  · have hno : ¬ Sends200 s.call (.iceOk err) := fun hsend => hsend.2.1 hin
    rw [if_neg (not_not.mpr (hinRing.mpr hin))]
    refine ⟨h'.reason, h'.est.trans ?_, fun heq => absurd (hcdir.symm.trans heq) hout⟩
    simp [hno]
  · have hsend : Sends200 s.call (.iceOk err) ↔ AcceptsCall s.call.iceDone err :=
      ⟨fun hsend => hsend.2.2, fun ha => ⟨hcdir, hin, ha⟩⟩
    have hacc := h'.accept err sent
    rw [if_pos fun hin' => hin (hinRing.mp hin')]
    refine ⟨hacc.reason, hacc.est.trans ?_, fun heq => ?_⟩
    · simp [hsend]
    · have hkept := (tcsipcallControl_accept_keeps { s with call := s.call.iceDone } err).cdir
      exact absurd (hcdir.symm.trans (hkept.symm.trans heq)) hout

/-! ## One event -/

/-- The event hangs the call up. -/
def EndsCall : CallEvent → Prop
  | .control .reject _ | .control .bye _ | .close | .expire => True
  | _ => False

/-- **One event** before the hangup: the flags tell the facts after it too, unless it hangs
up. -/
theorem accountsFacts_handle {s : CallRun} {f : CallFacts} (hs : CallAlive s)
    (h : AccountsFacts s f)
    {e : CallEvent} (henabled : CallEnabled s e) (honce : IceOnce s e) (sent : Bool) :
    EndsCall e ∨ AccountsFacts (handleCall s e) (f.note s.call e sent) := by
  cases e with
  | control action err =>
      cases action with
      | accept => exact Or.inr (h.accept err sent)
      | reject => exact Or.inl trivial
      | bye => exact Or.inl trivial
  | iceOk err =>
      right
      cases hcdir : s.call.cdir with
      | callIn => exact h.iceIn hcdir err sent
      | callOut =>
          show AccountsFacts (mediaIceOk s err) _
          rw [mediaIceOk_callOut hcdir]
          exact h.send hs (honce rfl) hcdir err sent
  | progress scode body err =>
      right
      show AccountsFacts (progressHandler s scode body err) _
      unfold progressHandler
      split
      · next hbody =>
        exact h.activate hs (hs.coherent.iceReady henabled.1) err
          (Or.inr (Or.inl (by simp [CallFacts.note, hbody])))
      · next hbody =>
        have hsame : f.note s.call (.progress scode body err) sent = f := by
          have hno : (decide (scode = 183) && body) = false := by
            rw [Bool.and_eq_false_iff, decide_eq_false_iff_not]
            by_cases hcode : scode = 183
            · exact Or.inr (Bool.eq_false_of_not_eq_true fun hb => hbody ⟨hcode, hb⟩)
            · exact Or.inl hcode
          rw [CallFacts.note, hno, Bool.or_false]
        rw [hsame]
        exact h
  | establish err =>
      exact Or.inr (h.activate hs (hs.coherent.iceReady henabled.1) err (Or.inl rfl))
  | close => exact Or.inl trivial
  | kaWarn => exact Or.inr h
  | kaFail => exact Or.inr ⟨h.reason, h.est, h.outRing⟩
  | expire => exact Or.inl trivial

/-! ## The hangup -/

/-- The hangup leaves the ended call. -/
theorem hangup_call {s : CallRun} (h : s.freed = false) :
    (tcsipcallHangup s).call = endCall s.call := by
  unfold tcsipcallHangup
  rw [if_neg (by rw [h]; decide)]
  exact callHandler_call _

/-- A call without a reason gets it from one flag. -/
theorem endCall_reason (c : Call) :
    (endCall c).reason = some (c.reason.getD (if Test c.cstate cstateEst then .ok else .hang)) := by
  have hall : HasAll c.cstate cstateEst ↔ Test c.cstate cstateEst :=
    hasAll_iff_test (i := 4) (by decide) (by decide)
  unfold endCall
  cases c.reason with
  | some reason => rfl
  | none =>
      by_cases hest : Test c.cstate cstateEst
      · simp [hall, hest]
      · simp [hall, hest]

/-- One of the tests of `CALL_REJECT` and `CALL_BYE`: with the flag `n` the call ends for this
reason, and loses the flag `m`. -/
def Call.endsFor (c : Call) (n m : CallState) (reason : CallEnd) : Call :=
  if HasAll c.cstate n then { c with cstate := drop c.cstate m, reason := some reason } else c

theorem endsFor_reason (c : Call) (n m : CallState) (reason : CallEnd) :
    (c.endsFor n m reason).reason = if HasAll c.cstate n then some reason else c.reason := by
  unfold Call.endsFor
  split <;> rfl

theorem endsFor_test (c : Call) {n m k : CallState} (hk : m &&& k = 0#32) (reason : CallEnd) :
    Test (c.endsFor n m reason).cstate k ↔ Test c.cstate k := by
  unfold Call.endsFor
  split
  · exact test_drop_of_disjoint hk
  · exact Iff.rfl

theorem test_of_endsFor {c : Call} {n m k : CallState} {reason : CallEnd}
    (h : Test (c.endsFor n m reason).cstate k) : Test c.cstate k := by
  unfold Call.endsFor at h
  split at h
  · exact test_of_test_drop h
  · exact h

/-- `CALL_REJECT` and `CALL_BYE` test three flags, one after the other. -/
theorem control_eq_endsFor (s : CallRun) {action : CallAction} (haction : action ≠ .accept)
    (err : Bool) :
    tcsipcallControl s action err = tcsipcallHangup { s with
      call := ((s.call.endsFor cstateInRing cstateInRing .hang).endsFor cstateEst cstateEst
        .ok).endsFor cstateOutRing cstateEst .cancel } := by
  cases action with
  | accept => exact absurd rfl haction
  | reject => rfl
  | bye => rfl

/-- **What `CALL_REJECT` and `CALL_BYE` make of the flags.** -/
theorem bye_reason {s : CallRun} (hfreed : s.freed = false) (hreason : s.call.reason = none)
    {action : CallAction} (haction : action ≠ .accept) (err : Bool) :
    (tcsipcallControl s action err).call.reason
      = some (if Test s.call.cstate cstateOutRing then .cancel
        else if Test s.call.cstate cstateEst then .ok else .hang) := by
  have hest : ∀ x : CallState, HasAll x cstateEst ↔ Test x cstateEst :=
    fun x => hasAll_iff_test (i := 4) (by decide) (by decide)
  have hout : ∀ x : CallState, HasAll x cstateOutRing ↔ Test x cstateOutRing :=
    fun x => hasAll_iff_test (i := 1) (by decide) (by decide)
  -- the flags that come later survive the tests before
  have hest₁ := endsFor_test s.call (n := cstateInRing) (m := cstateInRing) (k := cstateEst)
    (by decide) .hang
  have hout₁ := endsFor_test s.call (n := cstateInRing) (m := cstateInRing) (k := cstateOutRing)
    (by decide) .hang
  have hout₂ := endsFor_test (s.call.endsFor cstateInRing cstateInRing .hang) (n := cstateEst)
    (m := cstateEst) (k := cstateOutRing) (by decide) .ok
  rw [control_eq_endsFor s haction, hangup_call (by exact hfreed), endCall_reason]
  simp only [endsFor_reason, hest, hout, hest₁, hout₁, hout₂, hreason]
  by_cases hring : Test s.call.cstate cstateOutRing
  · rw [if_pos hring, if_pos hring, Option.getD_some]
  · rw [if_neg hring, if_neg hring]
    by_cases hanswered : Test s.call.cstate cstateEst
    · rw [if_pos hanswered, if_pos hanswered, Option.getD_some]
    · rw [if_neg hanswered, if_neg hanswered]
      split
      · rfl
      · -- no test adds a flag
        rw [if_neg fun h => hanswered (test_of_endsFor (test_of_endsFor (test_of_endsFor h))),
          Option.getD_none]

/-- The events that hang a call up: the user's, apart from an accept, and those of the session. -/
theorem ends_cases {e : CallEvent} (he : EndsCall e) :
    (∃ action err, action ≠ .accept ∧ ByUser (.control action err) ∧ e = .control action err) ∨
      e = .close ∨ e = .expire := by
  cases e with
  | control action err =>
      cases action with
      | accept => exact he.elim
      | reject => exact Or.inl ⟨.reject, err, by decide, trivial, rfl⟩
      | bye => exact Or.inl ⟨.bye, err, by decide, trivial, rfl⟩
  | close => exact Or.inr (Or.inl rfl)
  | expire => exact Or.inr (Or.inr rfl)
  | iceOk err => exact he.elim
  | progress scode body err => exact he.elim
  | establish err => exact he.elim
  | kaWarn => exact he.elim
  | kaFail => exact he.elim

/-- **The reason that the hangup reads off the flags.** -/
theorem ends_reason {s : CallRun} (hfreed : s.freed = false) (hreason : s.call.reason = none)
    {e : CallEvent} (he : EndsCall e) :
    (handleCall s e).call.reason
      = some (if ByUser e ∧ Test s.call.cstate cstateOutRing then .cancel
        else if Test s.call.cstate cstateEst then .ok else .hang) := by
  have hhangup : ∀ u : CallRun, u.call = s.call → u.freed = false →
      (tcsipcallHangup u).call.reason
        = some (if Test s.call.cstate cstateEst then .ok else .hang) := by
    intro u hcall hu
    rw [hangup_call hu, hcall, endCall_reason, hreason, Option.getD_none]
  obtain ⟨action, err, haction, huser, rfl⟩ | rfl | rfl := ends_cases he
  · show (tcsipcallControl s action err).call.reason = _
    rw [bye_reason hfreed hreason haction]
    simp [huser]
  · rw [if_neg fun h => h.1]
    exact hhangup s rfl hfreed
  · rw [if_neg fun h => h.1]
    exact hhangup { s with tmr := false } rfl hfreed

/-- The events that hang up do. -/
theorem ends_hangup (s : CallRun) {e : CallEvent} (he : EndsCall e) :
    ∃ u, u.freed = s.freed ∧ handleCall s e = tcsipcallHangup u := by
  obtain ⟨action, err, haction, -, rfl⟩ | rfl | rfl := ends_cases he
  · refine ⟨{ s with
      call := ((s.call.endsFor cstateInRing cstateInRing .hang).endsFor cstateEst cstateEst
        .ok).endsFor cstateOutRing cstateEst .cancel }, rfl, ?_⟩
    exact control_eq_endsFor s haction err
  · exact ⟨s, rfl, rfl⟩
  · exact ⟨{ s with tmr := false }, rfl, rfl⟩

/-- A hangup leaves no flag that says the call is alive. -/
theorem hangup_dead {s : CallRun} (h : s.freed = false) :
    ¬ Test (tcsipcallHangup s).call.cstate cstateAlive := by
  rw [hangup_call h]
  exact fun ht => not_test_drop (by decide) (test_of_test_drop ht)

/-! ## Whole runs -/

/-- Before its hangup a call is alive, and its flags tell the facts. -/
def FlagsTold (p : CallRun × CallFacts) : Prop :=
  p.1.freed = false → CallAlive p.1 ∧ AccountsFacts p.1 p.2

theorem flagsTold_step (p : CallRun × CallFacts) (e : CallEvent × Bool) (q : CallRun × CallFacts)
    (h : FlagsTold p) (honce : IceOnce p.1 e.1) (hstep : factStep p e = some q) : FlagsTold q := by
  obtain ⟨t, ht, rfl⟩ := Option.map_eq_some_iff.mp hstep
  intro hlive
  have hcall := ht
  unfold callStep at hcall
  rw [Option.ite_none_right_eq_some] at hcall
  obtain ⟨henabled, heq⟩ := hcall
  obtain rfl := Option.some.inj heq
  have hfreed : p.1.freed = false := by
    cases hf : p.1.freed with
    | false => rfl
    | true =>
        have hgone :
            (handleCall { p.1 with touched := p.1.touched || p.1.freed } e.1).freed = true :=
          freed_handleCall (s := { p.1 with touched := p.1.touched || p.1.freed }) hf e.1
        exact hgone.symm.trans hlive
  obtain ⟨halive, hacc⟩ := h hfreed
  refine ⟨(halive.step honce ht).1 hlive, ?_⟩
  have halive' : CallAlive { p.1 with touched := p.1.touched || p.1.freed } :=
    ⟨halive.coherent, halive.freed, halive.listed, halive.dels, halive.entries⟩
  have hacc' : AccountsFacts { p.1 with touched := p.1.touched || p.1.freed } p.2 :=
    ⟨hacc.reason, hacc.est, hacc.outRing⟩
  rcases accountsFacts_handle halive' hacc' henabled honce e.2 with hends | hnext
  · obtain ⟨u, -, heq⟩ := ends_hangup { p.1 with touched := p.1.touched || p.1.freed } hends
    have hgone : (tcsipcallHangup u).freed = false := heq ▸ hlive
    rw [tcsipcallHangup_freed] at hgone
    exact Bool.noConfusion hgone
  · exact hnext

theorem test_histOk (p q : Prop) [Decidable p] [Decidable q] :
    Test ((if p then histOk else histHang) ||| (if q then histIn else histOut)) histOk ↔ p := by
  by_cases hp : p <;> by_cases hq : q <;> simp only [hp, hq, if_true, if_false] <;> decide

/-- For a call that was hung up the reason decides. -/
theorem endsRightly_of_dead {c : Call} (h : ¬ Test c.cstate cstateAlive) (f : CallFacts)
    (e : CallEvent) : EndsRightly f e c ↔ c.reason = some (f.reason c.cdir e) := by
  have hok : f.reason c.cdir e = .ok ↔ f.answered = true := by
    unfold CallFacts.reason
    split_ifs <;> simp_all
  refine ⟨And.left, fun hreason => ⟨hreason, _, if_neg h, (test_histOk _ _).trans ?_⟩⟩
  rw [hreason, Option.some.injEq]
  exact hok

/-- **Flags and facts at the hangup.** -/
theorem reason_eq_iff {s : CallRun} {f : CallFacts} (hs : CallAlive s) (h : AccountsFacts s f)
    (e : CallEvent) :
    (if ByUser e ∧ Test s.call.cstate cstateOutRing then CallEnd.cancel
        else if Test s.call.cstate cstateEst then .ok else .hang) = f.reason s.call.cdir e
      ↔ EndUnambiguous f e s.call := by
  unfold CallFacts.reason EndUnambiguous
  by_cases hest : Test s.call.cstate cstateEst
  · -- established: answered, or only taken for it
    rw [if_neg fun hring => hs.coherent.not_outRing hest hring.2, if_pos hest]
    cases hanswered : f.answered with
    | true => simp
    | false =>
        have hwrong := h.est.mp hest
        rw [hanswered] at hwrong
        have hno : ¬ (f.early = false ∧ f.unsent = false ∧
            (ByUser e → s.call.cdir = .callOut → f.invited = true)) := by
          rintro ⟨hearly, hunsent, -⟩
          simp [hearly, hunsent] at hwrong
        simp only [Bool.false_eq_true, if_false, true_implies, hno, iff_false]
        split_ifs <;> simp
  · have hnone : ¬ (f.answered = true ∨ f.early = true ∨ f.unsent = true) :=
      fun h' => hest (h.est.mpr h')
    simp only [not_or, Bool.not_eq_true] at hnone
    obtain ⟨hanswered, hearly, hunsent⟩ := hnone
    rw [if_neg hest, hanswered, hearly, hunsent]
    by_cases hout : s.call.cdir = .callOut
    · have hring := h.outRing hout
      by_cases huser : ByUser e
      · cases hinvited : f.invited <;> simp [hring, hout, huser, hest, hinvited]
      · simp [huser]
    · have hno : ¬ Test s.call.cstate cstateOutRing := fun h' => hout (hs.coherent.outRing h')
      simp [hno, hout]

/-- **The reason of the end.**  In every run of a call in which ICE completes once, the
reason and the history entry at its hangup tell what happened exactly when the call was
answered, or had no early media and no 200 that could not be sent and, if the user ends it
and it is outgoing, its INVITE was sent. -/
theorem endsRightly_iff {s : CallRun} (hs : CallBegins s) {es : List (CallEvent × Bool)}
    (hice : StepsMeet factStep (fun p e => IceOnce p.1 e.1) (s, noFacts) es)
    {u : CallRun} {f : CallFacts} (hrun : run factStep (s, noFacts) es = some (u, f))
    (hfreed : u.freed = false) {e : CallEvent} (he : EndsCall e) {t : CallRun}
    (hstep : callStep u e = some t) :
    EndsRightly f e t.call ↔ EndUnambiguous f e u.call := by
  have htold : FlagsTold (u, f) := run_invariant factStep flagsTold_step
    (fun _ => ⟨CallAlive.begins hs, accountsFacts_begins hs⟩) hice hrun
  obtain ⟨halive, hacc⟩ := htold hfreed
  unfold callStep at hstep
  rw [Option.ite_none_right_eq_some] at hstep
  obtain ⟨-, heq⟩ := hstep
  obtain rfl := Option.some.inj heq
  set v : CallRun := { u with touched := u.touched || u.freed } with hv
  have hcdir : (handleCall v e).call.cdir = u.call.cdir := handleCall_cdir v e
  have hdead : ¬ Test (handleCall v e).call.cstate cstateAlive := by
    obtain ⟨w, hw, heq⟩ := ends_hangup v he
    rw [heq]
    exact hangup_dead (hw.trans hfreed)
  rw [endsRightly_of_dead hdead, ends_reason (s := v) hfreed hacc.reason he, hcdir,
    Option.some.injEq]
  exact reason_eq_iff halive hacc e

/-- An outgoing call that is answered. -/
def answeredCall : List (CallEvent × Bool) := [(.iceOk false, true), (.establish false, true)]

/-- An outgoing call that gets early media and is not answered. -/
def earlyMediaCall : List (CallEvent × Bool) :=
  [(.iceOk false, true), (.progress 183 true false, true)]

/-- The peer ends a call that was answered. -/
theorem endsRightly_answered :
    ∃ u f t, run factStep (tcsipStartCall false true, noFacts) answeredCall = some (u, f) ∧
      callStep u .close = some t ∧ (EndsRightly f .close t.call ↔ EndUnambiguous f .close u.call) :=
  have hice : StepsMeet factStep (fun p e => IceOnce p.1 e.1) (tcsipStartCall false true, noFacts)
      answeredCall := by decide
  ⟨_, _, _, rfl, rfl, endsRightly_iff (e := .close) (.out false true) hice rfl rfl trivial rfl⟩

/-- The user gives up on a call that only had early media: it is taken for answered. -/
theorem not_endsRightly_earlyMedia :
    ∃ u f t, run factStep (tcsipStartCall false true, noFacts) earlyMediaCall = some (u, f) ∧
      f.answered = false ∧ u.call.cdir = .callOut ∧ callStep u (.control .bye false) = some t ∧
      t.call.reason = some .ok ∧ tcsipCallHistory t.call = some (histOk ||| histOut) ∧
      ¬ EndsRightly f (.control .bye false) t.call := by
  refine ⟨_, _, _, rfl, rfl, rfl, rfl, rfl, rfl, fun h => ?_⟩
  exact absurd h.1 (by decide)
