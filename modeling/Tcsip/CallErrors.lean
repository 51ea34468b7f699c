/-
# Errors of a call

Five functions that a call makes use of may fail: `tcmedia_alloc` and `sipsess_accept` when it
begins, `sipsess_connect` when ICE is complete, `tcmedia_start` when it is activated, and
`tcmedia_offer` when it is answered.  The call records a failure as `CSTATE_ERR`, and no
handler takes that flag away.  But a failure of `tcmedia_offer` is recorded in a local
variable, whether the user accepts the call or the end of ICE does it for him.
-/
import Tcsip.CallStates

open Flags Runs

/-! ## Failures -/

/-- `CALL_ACCEPT` gets as far as `tcmedia_offer`. -/
def AnswersCall (c : Call) : Prop :=
  ¬ Test c.cstate (cstateErr ||| cstateEst) ∧ c.cdir = .callIn ∧ Test c.cstate cstateIce

instance (c : Call) : Decidable (AnswersCall c) := inferInstanceAs (Decidable (_ ∧ _ ∧ _))

/-- `tcmedia_offer` fails in this event, in a call that was not hung up. -/
def OfferFails (s : CallRun) : CallEvent → Prop
  | .control .accept err =>
    CallEnabled s (.control .accept err) ∧ s.freed = false ∧ err = true ∧ AnswersCall s.call
  | .iceOk err =>
    CallEnabled s (.iceOk err) ∧ s.freed = false ∧ err = true ∧
      ¬ Test s.call.iceDone.cstate cstateInRing ∧ AnswersCall s.call.iceDone
  | _ => False

/-- One of the other functions fails in this event. -/
def OtherFails (s : CallRun) : CallEvent → Prop
  | .iceOk err => err = true ∧ s.call.cdir = .callOut
  | .progress scode body err =>
    err = true ∧ (scode = 183 ∧ body = true) ∧
      ¬ HasAll s.call.cstate (cstateFlow ||| cstateMedia)
  | .establish err => err = true ∧ ¬ HasAll s.call.cstate (cstateFlow ||| cstateMedia)
  | _ => False

instance (s : CallRun) : ∀ e, Decidable (OfferFails s e)
  | .control .accept err =>
    inferInstanceAs (Decidable (CallEnabled s (.control .accept err) ∧ _ ∧ _ ∧ _))
  | .iceOk err => inferInstanceAs (Decidable (CallEnabled s (.iceOk err) ∧ _ ∧ _ ∧ _ ∧ _))
  | .control .reject _ | .control .bye _ | .progress _ _ _ | .establish _ | .close | .kaWarn
  | .kaFail | .expire => isFalse False.elim

instance (s : CallRun) : ∀ e, Decidable (OtherFails s e)
  | .iceOk _ => inferInstanceAs (Decidable (_ ∧ _))
  | .progress _ _ _ => inferInstanceAs (Decidable (_ ∧ (_ ∧ _) ∧ _))
  | .establish _ => inferInstanceAs (Decidable (_ ∧ _))
  | .control _ _ | .close | .kaWarn | .kaFail | .expire => isFalse False.elim

/-- A call, and whether a function failed in it so far. -/
structure FailRun where
  run : CallRun
  failed : Bool
  deriving DecidableEq

/-- An event, with a note of whether a function failed in it. -/
def failStep (s : FailRun) (e : CallEvent) : Option FailRun :=
  (callStep s.run e).map fun t =>
    ⟨t, s.failed || decide (OfferFails s.run e ∨ OtherFails s.run e)⟩

/-- The ways a call begins, with the results of `tcmedia_alloc` and `sipsess_accept`. -/
inductive CallStart where
  | out (err handler : Bool)
  | incoming (err acceptErr handler : Bool)
  deriving DecidableEq

/-- The call as it begins, and whether a function failed already. -/
def CallStart.begin : CallStart → FailRun
  | .out err handler => ⟨tcsipStartCall err handler, err⟩
  | .incoming err acceptErr handler =>
    ⟨tcsipCallIncoming err acceptErr handler, err || acceptErr⟩

/-- Until the hangup, a failure shows in the state of the call. -/
def FailureRecorded (s : FailRun) : Prop :=
  s.run.freed = false → s.failed = true → Test s.run.call.cstate cstateErr

/-- The two events in which `tcmedia_offer` fails. -/
theorem OfferFails.cases {s : CallRun} {e : CallEvent} (h : OfferFails s e) :
    CallEnabled s e ∧ s.freed = false ∧
      (e = .control .accept true ∧ AnswersCall s.call ∨
        e = .iceOk true ∧ ¬ Test s.call.iceDone.cstate cstateInRing ∧
          AnswersCall s.call.iceDone) := by
  cases e with
  | control action err =>
      cases action with
      | accept =>
          obtain ⟨henabled, hfreed, rfl, hans⟩ := h
          exact ⟨henabled, hfreed, Or.inl ⟨rfl, hans⟩⟩
      | reject => exact h.elim
      | bye => exact h.elim
  | iceOk err =>
      obtain ⟨henabled, hfreed, rfl, hring, hans⟩ := h
      exact ⟨henabled, hfreed, Or.inr ⟨rfl, hring, hans⟩⟩
  | _ => exact h.elim

/-! ## What a failure leaves -/

theorem err_activate_of_fail {s : CallRun}
    (h : ¬ HasAll s.call.cstate (cstateFlow ||| cstateMedia)) :
    Test (tcsipcallActivate s true).call.cstate cstateErr := by
  unfold tcsipcallActivate
  rw [if_neg h]
  dsimp only
  rw [if_pos rfl]
  exact (callHandler_keeps _).flags.err (test_or_self (by decide))

/-- The other failures are recorded in the handler. -/
theorem err_of_otherFails {s : CallRun} {e : CallEvent} (h : OtherFails s e) :
    Test (handleCall s e).call.cstate cstateErr := by
  cases e with
  | iceOk err =>
      obtain ⟨rfl, hout⟩ := h
      show Test (mediaIceOk s true).call.cstate cstateErr
      unfold mediaIceOk
      dsimp only
      rw [hout]
      exact test_or_self (by decide)
  | progress scode body err =>
      obtain ⟨rfl, hbody, hflow⟩ := h
      show Test (progressHandler s scode body true).call.cstate cstateErr
      unfold progressHandler
      rw [if_pos hbody]
      exact err_activate_of_fail hflow
  | establish err =>
      obtain ⟨rfl, hflow⟩ := h
      exact err_activate_of_fail hflow
  | _ => exact h.elim

/-- A call that is answered with a failing `tcmedia_offer` only stops to ring. -/
theorem tcsipcallControl_of_offerFails {s : CallRun} (h : AnswersCall s.call) :
    tcsipcallControl s .accept true =
      { s with call := { s.call with cstate := drop s.call.cstate cstateRing } } := by
  obtain ⟨htest, hin, hice⟩ := h
  unfold tcsipcallControl
  dsimp only
  rw [if_neg htest, if_neg (not_not.mpr hin), if_neg (not_not.mpr hice), if_pos rfl]

theorem not_err_of_answers {c : Call} (h : AnswersCall c) :
    ¬ Test (drop c.cstate cstateRing) cstateErr := by
  rw [test_drop_of_disjoint (by decide)]
  intro herr
  apply h.1
  intro h0
  rw [BitVec.and_or_distrib_left, BitVec.or_eq_zero_iff] at h0
  exact herr h0.1

/-- The end of ICE accepts an incoming call that does not ring any more. -/
theorem mediaIceOk_accepts {s : CallRun} (hin : s.call.cdir = .callIn)
    (hring : ¬ Test s.call.iceDone.cstate cstateInRing) (err : Bool) :
    mediaIceOk s err = tcsipcallControl { s with call := s.call.iceDone } .accept err := by
  unfold mediaIceOk
  dsimp only
  split
  · next hout => exact absurd (hin.symm.trans hout) (by decide)
  · exact if_pos hring

/-- A failure of `tcmedia_offer` is not recorded. -/
theorem not_err_of_offerFails {s : CallRun} {e : CallEvent} (h : OfferFails s e) :
    (handleCall s e).freed = false ∧ ¬ Test (handleCall s e).call.cstate cstateErr := by
  obtain ⟨-, hfreed, ⟨rfl, hans⟩ | ⟨rfl, hring, hans⟩⟩ := h.cases
  · show (tcsipcallControl s .accept true).freed = false ∧
      ¬ Test (tcsipcallControl s .accept true).call.cstate cstateErr
    rw [tcsipcallControl_of_offerFails hans]
    exact ⟨hfreed, not_err_of_answers hans⟩
  · show (mediaIceOk s true).freed = false ∧ ¬ Test (mediaIceOk s true).call.cstate cstateErr
    have hcall := tcsipcallControl_of_offerFails (s := { s with call := s.call.iceDone }) hans
    rw [mediaIceOk_accepts hans.2.1 hring, hcall]
    exact ⟨hfreed, not_err_of_answers hans⟩

/-! ## Runs -/

theorem failureRecorded_begin (c : CallStart) : FailureRecorded c.begin := by
  cases c with
  | out err handler =>
      intro _ hfailed
      obtain rfl : err = true := hfailed
      decide +revert
  | incoming err acceptErr handler =>
      intro _ hfailed
      revert hfailed
      cases err <;> cases acceptErr <;> cases handler <;> decide

/-- **One step** records what failed, unless it was `tcmedia_offer`. -/
theorem failureRecorded_failStep_iff {s t : FailRun} {e : CallEvent} (h : FailureRecorded s)
    (hstep : failStep s e = some t) : FailureRecorded t ↔ ¬ OfferFails s.run e := by
  obtain ⟨u, hu, rfl⟩ := Option.map_eq_some_iff.mp hstep
  unfold callStep at hu
  rw [Option.ite_none_right_eq_some] at hu
  obtain ⟨-, heq⟩ := hu
  obtain rfl := Option.some.inj heq
  -- the handler runs in the state with `touched` brought up to date
  have htouch : ∀ b, OfferFails s.run e ↔ OfferFails { s.run with touched := b } e := by
    intro b
    cases e with
    | control action err => cases action <;> exact Iff.rfl
    | _ => exact Iff.rfl
  have htouch' : ∀ b, OtherFails s.run e → OtherFails { s.run with touched := b } e := by
    intro b h
    cases e <;> exact h
  by_cases hoffer : OfferFails s.run e
  · obtain ⟨hfreed, hno⟩ :=
      not_err_of_offerFails ((htouch (s.run.touched || s.run.freed)).mp hoffer)
    refine iff_of_false (fun hrec => hno (hrec hfreed ?_)) (not_not.mpr hoffer)
    show (s.failed || decide (OfferFails s.run e ∨ OtherFails s.run e)) = true
    rw [decide_eq_true (Or.inl hoffer), Bool.or_true]
  · refine iff_of_true (fun hfreed hfailed => ?_) hoffer
    by_cases hother : OtherFails s.run e
    · exact err_of_otherFails (htouch' _ hother)
    · -- nothing failed: the flag is there from before
      have hbefore : s.failed = true := by
        rw [decide_eq_false (not_or.mpr ⟨hoffer, hother⟩), Bool.or_false] at hfailed
        exact hfailed
      have hnotfreed : s.run.freed = false := by
        cases hf : s.run.freed with
        | false => rfl
        | true =>
            have hgone := freed_handleCall
              (s := { s.run with touched := s.run.touched || s.run.freed }) hf e
            exact hgone.symm.trans hfreed
      exact err_handleCall (s := { s.run with touched := s.run.touched || s.run.freed })
        (h hnotfreed hbefore) e

/-- **Failures are recorded exactly while `tcmedia_offer` does not fail**, in every run of a
call, from its beginning on. -/
theorem always_recorded_iff (c : CallStart) (es : List CallEvent) :
    Always failStep FailureRecorded c.begin es ↔
      StepsMeet failStep (fun s e => ¬ OfferFails s.run e) c.begin es := by
  refine always_iff_stepsMeet failStep (I := fun _ => True) (fun _ _ _ _ _ _ => trivial)
    (fun s e t _ hB hstep => failureRecorded_failStep_iff hB hstep) ?_ trivial
    (failureRecorded_begin c)
  intro s e _ _ hrefused hoffer
  -- a failing offer is an event that can happen
  unfold failStep callStep at hrefused
  rw [if_pos hoffer.cases.1] at hrefused
  exact nomatch hrefused

/-- An incoming call with complete ICE is accepted, and `tcmedia_offer` fails: the call has
stopped to ring, and there is no error. -/
theorem offer_failure_not_recorded :
    ∃ t, run failStep (CallStart.incoming false false true).begin
        [.iceOk false, .control .accept true] = some t ∧
      t.run.freed = false ∧ t.failed = true ∧ ¬ Test t.run.call.cstate cstateErr :=
  ⟨_, rfl, by decide⟩
