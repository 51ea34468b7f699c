/-
# The state of a call

The flags of a call before its hangup: a call that rings is not established, it rings on the
side that its direction says, and media flow in established calls only.  The handler of a
call is notified while the call is alive, and once more by the hangup, when it is not; so the
report that deletes a call, and its history entry, are made at the hangup.

ICE gathering completes at most once in a call.  Were it to complete again, an outgoing call
would be sent again, and ring while it is established.
-/
import Tcsip.CallHandlers

open Flags Runs

/-! ## The flags -/

/-- What holds of the flags of a call before its hangup.  `waiting` is about an outgoing
call whose ICE is not complete: it was not sent yet. -/
structure FlagsCoherent (c : Call) : Prop where
  ring : Test c.cstate cstateRing → ¬ Test c.cstate cstateEst
  inRing : Test c.cstate cstateInRing → c.cdir = .callIn
  outRing : Test c.cstate cstateOutRing → c.cdir = .callOut
  flow : Test c.cstate cstateFlow ↔ Test c.cstate cstateMedia
  est : Test c.cstate cstateFlow → Test c.cstate cstateEst
  waiting : c.cdir = .callOut → ¬ Test c.cstate cstateIce →
    c.sess = false ∧ ¬ Test c.cstate cstateEst

/-- The call was not hung up, and nothing was reported. -/
structure CallAlive (s : CallRun) : Prop where
  coherent : FlagsCoherent s.call
  freed : s.freed = false
  listed : s.listed = true
  dels : s.dels = 0
  entries : s.entries = 0

/-- ICE does not complete again. -/
def IceOnce (s : CallRun) (e : CallEvent) : Prop :=
  CompletesIce e = true → ¬ Test s.call.cstate cstateIce

/-- The event calls `call->handler`. -/
def NotifiesHandler (s : CallRun) : CallEvent → Prop
  | .control .reject _ | .control .bye _ | .close | .expire => s.freed = false
  | .establish _ => ¬ HasAll s.call.cstate (cstateFlow ||| cstateMedia)
  | .progress scode body _ =>
    scode = 183 ∧ body = true ∧ ¬ HasAll s.call.cstate (cstateFlow ||| cstateMedia)
  | .control .accept _ | .iceOk _ | .kaWarn | .kaFail => False

/-! ## How the handlers change the flags -/

/-- The flags that `FlagsCoherent` relates to each other. -/
def relatedFlags : List CallState :=
  [cstateRing, cstateInRing, cstateOutRing, cstateFlow, cstateMedia, cstateEst]

theorem err_unrelated : ∀ n ∈ relatedFlags, cstateErr &&& n = 0#32 :=
  List.all_iff_forall_prop.mp (by decide)

theorem ice_unrelated : ∀ n ∈ relatedFlags, cstateIce &&& n = 0#32 :=
  List.all_iff_forall_prop.mp (by decide)

/-- `CSTATE_ERR` and `CSTATE_ICE` say nothing about the other flags. -/
theorem FlagsCoherent.add {c : Call} (h : FlagsCoherent c) {m : CallState}
    (hm : ∀ n ∈ relatedFlags, m &&& n = 0#32) :
    FlagsCoherent { c with cstate := c.cstate ||| m } := by
  have hne : ∀ n ∈ relatedFlags, (Test (c.cstate ||| m) n ↔ Test c.cstate n) :=
    fun n hn => test_or_of_disjoint (hm n hn)
  refine ⟨?_, ?_, ?_, ?_, ?_, ?_⟩ <;> dsimp only
  · rw [hne cstateRing (by decide), hne cstateEst (by decide)]
    exact h.ring
  · rw [hne cstateInRing (by decide)]
    exact h.inRing
  · rw [hne cstateOutRing (by decide)]
    exact h.outRing
  · rw [hne cstateFlow (by decide), hne cstateMedia (by decide)]
    exact h.flow
  · rw [hne cstateFlow (by decide), hne cstateEst (by decide)]
    exact h.est
  · intro hout hice
    rw [hne cstateEst (by decide)]
    exact h.waiting hout fun hice' => hice ((test_or _ _ _).mpr (Or.inl hice'))

theorem flagsCoherent_begins {s : CallRun} (h : CallBegins s) : FlagsCoherent s.call := by
  cases h with
  | out err handler =>
      cases err <;> cases handler <;>
        exact ⟨by decide, by decide, by decide, by decide, by decide, by decide⟩
  | incoming err acceptErr handler =>
      cases err <;> cases acceptErr <;> cases handler <;>
        exact ⟨by decide, by decide, by decide, by decide, by decide, by decide⟩

/-- A call that rang no more, established or not. -/
theorem FlagsCoherent.dropRing {c : Call} (h : FlagsCoherent c) :
    FlagsCoherent { c with cstate := drop c.cstate cstateRing } := by
  refine ⟨?_, ?_, ?_, ?_, ?_, ?_⟩ <;> dsimp only
  · exact fun hr => absurd hr (not_test_drop (by decide))
  · exact fun hr => absurd hr (not_test_drop (by decide))
  · exact fun hr => absurd hr (not_test_drop (by decide))
  · rw [test_drop_of_disjoint (by decide), test_drop_of_disjoint (by decide)]
    exact h.flow
  · rw [test_drop_of_disjoint (by decide), test_drop_of_disjoint (by decide)]
    exact h.est
  · rw [test_drop_of_disjoint (by decide), test_drop_of_disjoint (by decide)]
    exact h.waiting

/-- An outgoing call that has a session, or an incoming one, waits for nothing. -/
def IceReady (c : Call) : Prop := c.cdir = .callOut → Test c.cstate cstateIce

/-- A call that is established rings no more. -/
theorem FlagsCoherent.establish {c : Call} (h : FlagsCoherent c) (hc : IceReady c) :
    FlagsCoherent { c with cstate := drop c.cstate cstateRing ||| cstateEst } := by
  have hd := h.dropRing
  refine ⟨?_, ?_, ?_, ?_, ?_, ?_⟩ <;> dsimp only
  · rw [test_or_of_disjoint (by decide)]
    exact fun hr => absurd hr (not_test_drop (by decide))
  · rw [test_or_of_disjoint (by decide)]
    exact hd.inRing
  · rw [test_or_of_disjoint (by decide)]
    exact hd.outRing
  · rw [test_or_of_disjoint (by decide), test_or_of_disjoint (by decide)]
    exact hd.flow
  · exact fun _ => test_or_self (by decide)
  · intro hout hice
    rw [test_or_of_disjoint (by decide), test_drop_of_disjoint (by decide)] at hice
    exact absurd (hc hout) hice

/-- Media flow in an established call. -/
theorem FlagsCoherent.startMedia {c : Call} (h : FlagsCoherent c) (hest : Test c.cstate cstateEst)
    (hc : IceReady c) (kaTmr : Bool) :
    FlagsCoherent { c with
      cstate := c.cstate ||| (cstateFlow ||| cstateMedia), kaTmr := kaTmr } := by
  refine ⟨?_, ?_, ?_, ?_, ?_, ?_⟩ <;> dsimp only
  · rw [test_or_of_disjoint (by decide)]
    exact fun hr => absurd hest (h.ring hr)
  · rw [test_or_of_disjoint (by decide)]
    exact h.inRing
  · rw [test_or_of_disjoint (by decide)]
    exact h.outRing
  · exact iff_of_true (test_or_self (by decide)) (test_or_self (by decide))
  · rw [test_or_of_disjoint (n := cstateEst) (by decide)]
    exact fun _ => hest
  · intro hout hice
    rw [test_or_of_disjoint (by decide)] at hice
    exact absurd (hc hout) hice

/-- An outgoing call that is sent rings. -/
theorem FlagsCoherent.send {c : Call} (h : FlagsCoherent c) (hout : c.cdir = .callOut)
    (hest : ¬ Test c.cstate cstateEst) (hice : Test c.cstate cstateIce) :
    FlagsCoherent { c with sess := true, cstate := c.cstate ||| cstateOutRing } := by
  refine ⟨?_, ?_, ?_, ?_, ?_, ?_⟩ <;> dsimp only
  · rw [test_or_of_disjoint (n := cstateEst) (by decide)]
    exact fun _ => hest
  · rw [test_or_of_disjoint (by decide)]
    exact h.inRing
  · exact fun _ => hout
  · rw [test_or_of_disjoint (by decide), test_or_of_disjoint (by decide)]
    exact h.flow
  · rw [test_or_of_disjoint (by decide), test_or_of_disjoint (by decide)]
    exact h.est
  · intro _ hnot
    rw [test_or_of_disjoint (by decide)] at hnot
    exact absurd hice hnot

/-! ## The handlers before the hangup -/

theorem CallAlive.begins {s : CallRun} (h : CallBegins s) : CallAlive s := by
  refine ⟨flagsCoherent_begins h, ?_, ?_, ?_, ?_⟩ <;> cases h <;> rfl

/-- **Activation** establishes the call, and notifies while it is alive. -/
theorem CallAlive.activate {s : CallRun} (h : CallAlive s) (hc : IceReady s.call) (err : Bool) :
    CallAlive (tcsipcallActivate s err) ∧
      (¬ HasAll s.call.cstate (cstateFlow ||| cstateMedia) →
        Test (tcsipcallActivate s err).call.cstate cstateAlive) := by
  have hest := h.coherent.establish hc
  have halive : ∀ x m : CallState, Test (x ||| cstateEst ||| m) cstateAlive := by
    intro x m
    rw [test_or, test_or]
    exact Or.inl (Or.inr (by decide))
  unfold tcsipcallActivate
  split
  · next hall => exact ⟨h, fun hnot => absurd hall hnot⟩
  · split
    · rw [callHandler_of_alive (halive _ _)]
      exact ⟨⟨hest.add err_unrelated, h.freed, h.listed, h.dels, h.entries⟩, fun _ => halive _ _⟩
    · rw [callHandler_of_alive (halive _ _)]
      refine ⟨⟨?_, h.freed, h.listed, h.dels, h.entries⟩, fun _ => halive _ _⟩
      refine hest.startMedia (test_or_self (by decide)) (fun hout => ?_) true
      rw [test_or_of_disjoint (by decide), test_drop_of_disjoint (by decide)]
      exact hc hout

/-- **Acceptance** is for incoming calls. -/
theorem CallAlive.accept {s : CallRun} (h : CallAlive s) (err : Bool) :
    CallAlive (tcsipcallControl s .accept err) := by
  have hdrop := h.coherent.dropRing
  unfold tcsipcallControl
  dsimp only
  split_ifs with _ hdir
  · exact h
  · exact h
  · exact ⟨hdrop, h.freed, h.listed, h.dels, h.entries⟩
  · have hin : s.call.cdir = .callIn := not_not.mp hdir
    exact ⟨h.coherent.establish fun hout => absurd (hin.symm.trans hout) (by decide),
      h.freed, h.listed, h.dels, h.entries⟩
  · exact ⟨hdrop, h.freed, h.listed, h.dels, h.entries⟩

/-- **The end of ICE** sends an outgoing call, or accepts an incoming one that the user
accepted. -/
theorem CallAlive.iceOk {s : CallRun} (h : CallAlive s) (hice : ¬ Test s.call.cstate cstateIce)
    (err : Bool) : CallAlive (mediaIceOk s err) := by
  have hadd : FlagsCoherent { s.call with cstate := s.call.cstate ||| cstateIce } :=
    h.coherent.add ice_unrelated
  have h' : CallAlive { s with call := { s.call with cstate := s.call.cstate ||| cstateIce } } :=
    ⟨hadd, h.freed, h.listed, h.dels, h.entries⟩
  unfold mediaIceOk
  dsimp only
  split
  · next hout =>
    have hest : ¬ Test (s.call.cstate ||| cstateIce) cstateEst := by
      rw [test_or_of_disjoint (by decide)]
      exact (h.coherent.waiting hout hice).2
    unfold tcsipcallSend
    split
    · exact ⟨hadd.add err_unrelated, h.freed, h.listed, h.dels, h.entries⟩
    · exact ⟨hadd.send hout hest (test_or_self (by decide)), h.freed, h.listed, h.dels, h.entries⟩
  · split
    · exact h'.accept err
    · exact h'

/-- **The hangup** notifies once, when the call is not alive any more. -/
theorem tcsipcallHangup_notifies {s : CallRun} (hfreed : s.freed = false) (hdels : s.dels = 0)
    (hentries : s.entries = 0) :
    (tcsipcallHangup s).freed = true ∧
      ¬ Test (tcsipcallHangup s).call.cstate cstateAlive ∧
      (s.call.handler = true →
        (tcsipcallHangup s).dels = 1 ∧ (tcsipcallHangup s).entries = 1) := by
  have hdead : ¬ Test (endCall s.call).cstate cstateAlive := fun ht =>
    not_test_drop (by decide) (test_of_test_drop ht)
  unfold tcsipcallHangup
  rw [if_neg (by rw [hfreed]; decide)]
  dsimp only
  refine ⟨rfl, ?_, fun hhandler => ?_⟩
  · rcases callHandler_cases { s with call := endCall s.call } with heq | heq <;> rw [heq] <;>
      exact hdead
  · have hreports : callHandler { s with call := endCall s.call } =
        { s with call := endCall s.call, listed := false, dels := s.dels + 1,
                 entries := s.entries + 1 } := if_pos ⟨hhandler, hdead⟩
    rw [hreports]
    exact ⟨congrArg (· + 1) hdels, congrArg (· + 1) hentries⟩

/-- A session is there only after ICE was complete, on the outgoing side. -/
theorem FlagsCoherent.iceReady {c : Call} (h : FlagsCoherent c) (hsess : c.sess = true) :
    IceReady c := by
  intro hout
  by_cases hice : Test c.cstate cstateIce
  · exact hice
  · rw [(h.waiting hout hice).1] at hsess
    exact Bool.noConfusion hsess

/-! ## One event -/

/-- What a notification sees, and what it has reported by then: before the hangup the call is
alive and nothing is reported, at the hangup it is not alive, and a call with the handler
of the client is reported. -/
def NotifiedRightly (s t : CallRun) : Prop :=
  (t.freed = false → Test t.call.cstate cstateAlive ∧ t.dels = 0 ∧ t.entries = 0) ∧
    (t.freed = true → ¬ Test t.call.cstate cstateAlive ∧
      (s.call.handler = true → t.dels = 1 ∧ t.entries = 1))

theorem notifiedRightly_hangup {s u : CallRun} (hfreed : u.freed = false) (hdels : u.dels = 0)
    (hentries : u.entries = 0) (hhandler : u.call.handler = s.call.handler) :
    NotifiedRightly s (tcsipcallHangup u) := by
  obtain ⟨hgone, hdead, hreports⟩ := tcsipcallHangup_notifies hfreed hdels hentries
  constructor
  · intro hnot
    rw [hgone] at hnot
    exact Bool.noConfusion hnot
  · rw [hhandler] at hreports
    exact fun _ => ⟨hdead, hreports⟩

theorem notifiedRightly_activate {s u : CallRun} (h : CallAlive u) (hc : IceReady u.call)
    (err : Bool) (hnot : ¬ HasAll u.call.cstate (cstateFlow ||| cstateMedia)) :
    NotifiedRightly s (tcsipcallActivate u err) := by
  obtain ⟨halive, hflag⟩ := h.activate hc err
  constructor
  · exact fun _ => ⟨hflag hnot, halive.dels, halive.entries⟩
  · intro hgone
    rw [halive.freed] at hgone
    exact Bool.noConfusion hgone

/-- **One event** keeps the call alive or hangs it up, and notifies rightly. -/
theorem CallAlive.step {s t : CallRun} (h : CallAlive s) {e : CallEvent} (honce : IceOnce s e)
    (hstep : callStep s e = some t) :
    (t.freed = false → CallAlive t) ∧ (NotifiesHandler s e → NotifiedRightly s t) := by
  unfold callStep at hstep
  rw [Option.ite_none_right_eq_some] at hstep
  obtain ⟨henabled, heq⟩ := hstep
  obtain rfl := Option.some.inj heq
  have h' : CallAlive { s with touched := s.touched || s.freed } :=
    ⟨h.coherent, h.freed, h.listed, h.dels, h.entries⟩
  have hends : ∀ u : CallRun, u.freed = false → u.dels = 0 → u.entries = 0 →
      u.call.handler = s.call.handler →
      ((tcsipcallHangup u).freed = false → CallAlive (tcsipcallHangup u)) ∧
        (NotifiesHandler s e → NotifiedRightly s (tcsipcallHangup u)) := by
    intro u hfreed hdels hentries hhandler
    refine ⟨fun hnot => ?_, fun _ => notifiedRightly_hangup hfreed hdels hentries hhandler⟩
    rw [(tcsipcallHangup_notifies hfreed hdels hentries).1] at hnot
    exact Bool.noConfusion hnot
  cases e with
  | control action err =>
      by_cases haccept : action = .accept
      · subst haccept
        exact ⟨fun _ => h'.accept err, False.elim⟩
      · obtain ⟨call, hhandler, -, heq⟩ := tcsipcallControl_hangup
          { s with touched := s.touched || s.freed } haccept err
        have heq' : handleCall { s with touched := s.touched || s.freed }
            (.control action err) = _ := heq
        rw [heq']
        exact hends _ h.freed h.dels h.entries hhandler
  | iceOk err => exact ⟨fun _ => h'.iceOk (honce rfl) err, False.elim⟩
  | progress scode body err =>
      have hc := h'.coherent.iceReady henabled.1
      show (_ → CallAlive (progressHandler _ scode body err)) ∧
        (_ → NotifiedRightly s (progressHandler _ scode body err))
      unfold progressHandler
      split
      · exact ⟨fun _ => (h'.activate hc err).1,
          fun hnot => notifiedRightly_activate h' hc err hnot.2.2⟩
      · next hno => exact ⟨fun _ => h', fun hnot => absurd ⟨hnot.1, hnot.2.1⟩ hno⟩
  | establish err =>
      have hc := h'.coherent.iceReady henabled.1
      exact ⟨fun _ => (h'.activate hc err).1, notifiedRightly_activate h' hc err⟩
  | close => exact hends _ h.freed h.dels h.entries rfl
  | kaWarn => exact ⟨fun _ => h', False.elim⟩
  | kaFail => exact ⟨fun _ => ⟨h.coherent, h.freed, h.listed, h.dels, h.entries⟩, False.elim⟩
  | expire => exact hends _ h.freed h.dels h.entries rfl

/-! ## Whole runs -/

/-- A call is alive until its hangup, and ICE is complete only after the event. -/
structure CallAliveSince (past : List CallEvent) (s : CallRun) : Prop where
  alive : CallAlive s
  ice : Test s.call.cstate cstateIce → 0 < past.countP CompletesIce

theorem CallAliveSince.iceOnce {past : List CallEvent} {s : CallRun} (h : CallAliveSince past s)
    {e : CallEvent} (hcount : (past ++ [e]).countP CompletesIce ≤ 1) : IceOnce s e := by
  intro he hice
  have hpast := h.ice hice
  rw [List.countP_append, List.countP_singleton, if_pos he] at hcount
  omega

/-- **The whole run** up to the hangup. -/
theorem callAliveSince_run {s : CallRun} (hs : CallBegins s) {es : List CallEvent}
    (hcount : es.countP CompletesIce ≤ 1) {u : CallRun} (hrun : run callStep s es = some u)
    (hfreed : u.freed = false) : CallAliveSince es u := by
  refine run_invariant_past callStep
    (I := fun past s => s.freed = false → CallAliveSince past s) (C := fun _ _ => True) es ?_
    es [] s u rfl (fun _ => ⟨CallAlive.begins hs, fun hice => ?_⟩)
    (stepsMeet_of_forall _ (fun _ _ => trivial) s es) hrun hfreed
  · intro past e rest v t hall hI _ hstep hlive
    -- the call was not hung up before either
    have hv : v.freed = false := by
      cases hv : v.freed with
      | false => rfl
      | true =>
          unfold callStep at hstep
          rw [Option.ite_none_right_eq_some] at hstep
          obtain rfl := Option.some.inj hstep.2
          have hgone : (handleCall { v with touched := v.touched || v.freed } e).freed = true :=
            freed_handleCall (s := { v with touched := v.touched || v.freed }) hv e
          exact hgone.symm.trans hlive
    have hle : (past ++ [e]).countP CompletesIce ≤ 1 := by
      have hsplit : past ++ e :: rest = (past ++ [e]) ++ rest := by simp
      rw [← hall, hsplit, List.countP_append] at hcount
      omega
    refine ⟨((hI hv).alive.step ((hI hv).iceOnce hle) hstep).1 hlive, fun hice => ?_⟩
    rw [List.countP_append, List.countP_singleton]
    cases he : CompletesIce e with
    | true => simp
    | false =>
        unfold callStep at hstep
        rw [Option.ite_none_right_eq_some] at hstep
        obtain rfl := Option.some.inj hstep.2
        have hbefore := (hI hv).ice
          (ice_handleCall (s := { v with touched := v.touched || v.freed }) he hice)
        omega
  · -- a call begins without ICE
    cases hs with
    | out err handler => cases err <;> cases handler <;> exact absurd hice (by decide)
    | incoming err acceptErr handler =>
        cases err <;> cases acceptErr <;> cases handler <;> exact absurd hice (by decide)

/-- **The states of a call before its hangup.**  After every run of events in which ICE
completes at most once, a call that was not hung up has coherent flags and nothing was
reported of it; and the next event, whatever it is, notifies rightly. -/
theorem call_states {s : CallRun} (hs : CallBegins s) (es : List CallEvent)
    (hcount : es.countP CompletesIce ≤ 1) {u : CallRun} (hrun : run callStep s es = some u)
    (hfreed : u.freed = false) :
    FlagsCoherent u.call ∧ u.dels = 0 ∧ u.entries = 0 ∧
      ∀ e t, callStep u e = some t → (es ++ [e]).countP CompletesIce ≤ 1 → NotifiesHandler u e →
        NotifiedRightly u t := by
  have h := callAliveSince_run hs hcount hrun hfreed
  refine ⟨h.alive.coherent, h.alive.dels, h.alive.entries, fun e t hstep hle hnot => ?_⟩
  exact (h.alive.step (h.iceOnce hle) hstep).2 hnot

/-- An outgoing call that rings, gets early media and is then answered. -/
theorem call_states_earlyMedia :
    ∃ u, run callStep (tcsipStartCall false true) [.iceOk false, .progress 183 true false] =
        some u ∧ FlagsCoherent u.call ∧ ∃ t, callStep u .close = some t ∧ NotifiedRightly u t := by
  refine ⟨_, rfl, ?_⟩
  have h := call_states (.out false true) [.iceOk false, .progress 183 true false]
    (by decide) rfl rfl
  exact ⟨h.1, _, rfl, h.2.2.2 .close _ rfl (by decide) rfl⟩
