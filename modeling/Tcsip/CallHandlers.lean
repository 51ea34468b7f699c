/-
# What every handler of a call keeps

Handlers change the flags of a call, its session and its media, and a hangup ends it.  But a
call never changes its direction, no handler takes `CSTATE_ERR` away or undoes a hangup, and
only the end of ICE sets `CSTATE_ICE` (`handleCall_keeps`).
-/
import Tcsip.Call

open Flags

/-! ## Flags -/

/-- `CSTATE_ERR` stays and `CSTATE_ICE` is not set, from `x` to `y`. -/
structure FlagsKept (x y : CallState) : Prop where
  err : Test x cstateErr → Test y cstateErr
  ice : Test y cstateIce → Test x cstateIce

/-- Flags that do not change are kept. -/
theorem FlagsKept.refl (x : CallState) : FlagsKept x x := ⟨id, id⟩

/-- From `x` over `y` to `z`. -/
theorem FlagsKept.trans {x y z : CallState} (h : FlagsKept x y) (h' : FlagsKept y z) :
    FlagsKept x z := ⟨fun he => h'.err (h.err he), fun hi => h.ice (h'.ice hi)⟩

/-- To drop flags keeps them, but for `CSTATE_ERR`. -/
theorem flagsKept_drop {x m : CallState} (hm : m &&& cstateErr = 0#32) :
    FlagsKept x (drop x m) :=
  ⟨(test_drop_of_disjoint hm).mpr, test_of_test_drop⟩

/-- To set flags keeps them, but for `CSTATE_ICE`. -/
theorem flagsKept_or {x m : CallState} (hm : m &&& cstateIce = 0#32) : FlagsKept x (x ||| m) :=
  ⟨fun he => (test_or x m cstateErr).mpr (Or.inl he), (test_or_of_disjoint hm).mp⟩

/-! ## Handlers -/

/-- ICE completes in this event. -/
def CompletesIce : CallEvent → Bool
  | .iceOk _ => true
  | _ => false

/-- The call after the flag of complete ICE was set. -/
def Call.iceDone (c : Call) : Call := { c with cstate := c.cstate ||| cstateIce }

/-- What a handler keeps of the call. -/
structure KeepsCall (s t : CallRun) : Prop where
  cdir : t.call.cdir = s.call.cdir
  flags : FlagsKept s.call.cstate t.call.cstate
  freed : s.freed = true → t.freed = true

theorem KeepsCall.refl (s : CallRun) : KeepsCall s s := ⟨rfl, FlagsKept.refl _, id⟩

/-- One handler after another. -/
theorem KeepsCall.trans {s t u : CallRun} (h : KeepsCall s t) (h' : KeepsCall t u) :
    KeepsCall s u :=
  ⟨h'.cdir.trans h.cdir, h.flags.trans h'.flags, fun hf => h'.freed (h.freed hf)⟩

/-- `call->handler` only reports. -/
theorem callHandler_keeps (s : CallRun) : KeepsCall s (callHandler s) := by
  rcases callHandler_cases s with heq | heq
  · rw [heq]
    exact KeepsCall.refl s
  · rw [heq]
    exact ⟨rfl, FlagsKept.refl _, id⟩

/-- A hangup ends every call, also one that was hung up before. -/
theorem tcsipcallHangup_freed (s : CallRun) : (tcsipcallHangup s).freed = true := by
  unfold tcsipcallHangup
  split
  · assumption
  · rfl

/-- A hangup drops flags, but not `CSTATE_ERR`. -/
theorem tcsipcallHangup_keeps (s : CallRun) : KeepsCall s (tcsipcallHangup s) := by
  have hend : KeepsCall s { s with call := endCall s.call } :=
    ⟨rfl, (flagsKept_drop (by decide)).trans (flagsKept_drop (by decide)), id⟩
  have hcall := hend.trans (callHandler_keeps _)
  refine ⟨?_, ?_, fun _ => tcsipcallHangup_freed s⟩
  · unfold tcsipcallHangup
    split
    · rfl
    · exact hcall.cdir
  · unfold tcsipcallHangup
    split
    · exact FlagsKept.refl _
    · exact hcall.flags

/-- An activation sets `CSTATE_EST`, and then `CSTATE_ERR` or the two flags of the media. -/
theorem tcsipcallActivate_keeps (s : CallRun) (err : Bool) :
    KeepsCall s (tcsipcallActivate s err) := by
  have hest : FlagsKept s.call.cstate (drop s.call.cstate cstateRing ||| cstateEst) :=
    (flagsKept_drop (by decide)).trans (flagsKept_or (by decide))
  unfold tcsipcallActivate
  split_ifs
  · exact KeepsCall.refl s
  · refine KeepsCall.trans ?_ (callHandler_keeps _)
    exact ⟨rfl, hest.trans (flagsKept_or (by decide)), id⟩
  · refine KeepsCall.trans ?_ (callHandler_keeps _)
    exact ⟨rfl, hest.trans (flagsKept_or (by decide)), id⟩

/-- `CALL_ACCEPT` drops the ringing flags, and may set `CSTATE_EST`. -/
theorem tcsipcallControl_accept_keeps (s : CallRun) (err : Bool) :
    KeepsCall s (tcsipcallControl s .accept err) := by
  have hdrop : FlagsKept s.call.cstate (drop s.call.cstate cstateRing) :=
    flagsKept_drop (by decide)
  unfold tcsipcallControl
  dsimp only
  split_ifs
  · exact KeepsCall.refl s
  · exact KeepsCall.refl s
  · exact ⟨rfl, hdrop, id⟩
  · exact ⟨rfl, hdrop.trans (flagsKept_or (by decide)), id⟩
  · exact ⟨rfl, hdrop, id⟩

/-- One of the three tests of `CALL_REJECT` and `CALL_BYE`. -/
theorem flagsKept_reason {p : Prop} [Decidable p] {call : Call} {m : CallState}
    {reason : Option CallEnd} (hm : m &&& cstateErr = 0#32) :
    FlagsKept call.cstate
      (if p then { call with cstate := drop call.cstate m, reason := reason }
        else call).cstate := by
  split
  · exact flagsKept_drop hm
  · exact FlagsKept.refl _

/-- `CALL_REJECT` and `CALL_BYE` drop flags and end in a hangup. -/
theorem tcsipcallControl_hangup (s : CallRun) {action : CallAction} (h : action ≠ .accept)
    (err : Bool) : ∃ call, call.handler = s.call.handler ∧ KeepsCall s { s with call := call } ∧
      tcsipcallControl s action err = tcsipcallHangup { s with call := call } := by
  have hbye : tcsipcallControl s action err = tcsipcallControl s .bye err := by
    cases action with
    | accept => exact absurd rfl h
    | reject => rfl
    | bye => rfl
  rw [hbye]
  refine ⟨_, ?_, ?_, rfl⟩
  · split_ifs <;> rfl
  · refine ⟨?_, ?_, id⟩
    · dsimp only
      split_ifs <;> rfl
    · exact (flagsKept_reason (by decide)).trans
        ((flagsKept_reason (by decide)).trans (flagsKept_reason (by decide)))

/-- All actions of the user together. -/
theorem tcsipcallControl_keeps (s : CallRun) (action : CallAction) (err : Bool) :
    KeepsCall s (tcsipcallControl s action err) := by
  by_cases haccept : action = .accept
  · subst haccept
    exact tcsipcallControl_accept_keeps s err
  · obtain ⟨call, -, hkeeps, heq⟩ := tcsipcallControl_hangup s haccept err
    rw [heq]
    exact hkeeps.trans (tcsipcallHangup_keeps _)

/-- The handler of complete ICE sends an outgoing call or accepts an incoming one. -/
theorem mediaIceOk_keeps (s : CallRun) (err : Bool) :
    KeepsCall { s with call := s.call.iceDone } (mediaIceOk s err) := by
  unfold mediaIceOk
  dsimp only
  split
  · unfold tcsipcallSend
    split
    · exact ⟨rfl, flagsKept_or (by decide), id⟩
    · exact ⟨rfl, flagsKept_or (by decide), id⟩
  · split
    · exact tcsipcallControl_accept_keeps { s with call := s.call.iceDone } err
    · exact KeepsCall.refl _

/-- **What the handler of an event keeps**; the end of ICE sets its flag first. -/
theorem handleCall_keeps (s : CallRun) (e : CallEvent) :
    KeepsCall (if CompletesIce e then { s with call := s.call.iceDone } else s)
      (handleCall s e) := by
  cases e with
  | control action err => exact tcsipcallControl_keeps s action err
  | iceOk err => exact mediaIceOk_keeps s err
  | progress scode body err =>
      show KeepsCall s (progressHandler s scode body err)
      unfold progressHandler
      split
      · exact tcsipcallActivate_keeps s err
      · exact KeepsCall.refl s
  | establish err => exact tcsipcallActivate_keeps s err
  | close => exact tcsipcallHangup_keeps s
  | kaWarn => exact KeepsCall.refl s
  | kaFail => exact ⟨rfl, FlagsKept.refl _, id⟩
  | expire =>
      have htmr : KeepsCall s { s with tmr := false } := ⟨rfl, FlagsKept.refl _, id⟩
      exact htmr.trans (tcsipcallHangup_keeps _)

/-! ## What follows for an event -/

/-- The direction of a call never changes. -/
theorem handleCall_cdir (s : CallRun) (e : CallEvent) :
    (handleCall s e).call.cdir = s.call.cdir := by
  rw [(handleCall_keeps s e).cdir]
  split <;> rfl

/-- Nothing undoes a hangup. -/
theorem freed_handleCall {s : CallRun} (h : s.freed = true) (e : CallEvent) :
    (handleCall s e).freed = true := by
  apply (handleCall_keeps s e).freed
  split <;> exact h

/-- No handler takes `CSTATE_ERR` away. -/
theorem err_handleCall {s : CallRun} (h : Test s.call.cstate cstateErr) (e : CallEvent) :
    Test (handleCall s e).call.cstate cstateErr := by
  apply (handleCall_keeps s e).flags.err
  split
  · exact (test_or s.call.cstate cstateIce cstateErr).mpr (Or.inl h)
  · exact h

/-- Only the end of ICE sets its flag. -/
theorem ice_handleCall {s : CallRun} {e : CallEvent} (he : CompletesIce e = false)
    (h : Test (handleCall s e).call.cstate cstateIce) : Test s.call.cstate cstateIce := by
  have hice := (handleCall_keeps s e).flags.ice h
  rw [he] at hice
  exact hice
