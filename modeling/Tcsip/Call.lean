/-
# A call and its teardown

`tcsipcall.c` runs one call.  Its memory is reached from three sides: the user, through the
list of calls; the peer, through the SIP session; and the media, whose keep-alive timer
raises `MEDIA_KA_FAIL`, upon which the call arms a timer of its own that hangs up 100 ms
later.  A hangup drops the session, stops the media with its timer, takes the call off the
list and frees it.  It does not cancel the timer of the call, nor does `call_destruct`.

So a call is torn down once as long as nobody else hangs up while that timer runs
(`tornDownOnce_of_quiet`).
-/
import Tcsip.Flags
import Tcsip.Runs

open Flags Runs

/-! ## States and flags -/

/-- `call_state_t`. -/
abbrev CallState := BitVec 32

def cstateStop : CallState := 0#32
def cstateInRing : CallState := 1#32
def cstateOutRing : CallState := 2#32
def cstateRing : CallState := cstateInRing ||| cstateOutRing
def cstateFlow : CallState := 4#32
def cstateMedia : CallState := 8#32
def cstateEst : CallState := 16#32
def cstateErr : CallState := 32#32
def cstateIce : CallState := 64#32
def cstateAlive : CallState := cstateEst ||| cstateRing

/-- `TEST(x, bit)`: all these flags are set. -/
abbrev HasAll (x bit : CallState) : Prop := x &&& bit = bit

/-- `call_end_t`. -/
inductive CallEnd where
  | ok
  | cancel
  | hang
  deriving DecidableEq

/-- `call_action_t`. -/
inductive CallAction where
  | accept
  | reject
  | bye
  deriving DecidableEq

/-- `call_dir_t`. -/
inductive CallDir where
  | callIn
  | callOut
  deriving DecidableEq

/-- `struct tcsipcall`: whether there is a session, whether there are media, and whether
their keep-alive timer runs; whether the handler is `tcsip_call_changed`. -/
structure Call where
  cdir : CallDir
  cstate : CallState
  reason : Option CallEnd
  sess : Bool
  media : Bool
  kaTmr : Bool
  handler : Bool
  deriving DecidableEq

/-- A call in its surroundings: on the list of calls, with `call->tmr` armed, its memory
freed, touched after that; and how many hangups, `sip.call.del` reports and history
entries there were. -/
structure CallRun where
  call : Call
  listed : Bool
  tmr : Bool
  freed : Bool
  touched : Bool
  hangups : ℕ
  dels : ℕ
  entries : ℕ
  deriving DecidableEq

/-- A call that was just put on the list. -/
def newCall (call : Call) : CallRun :=
  { call := call, listed := true, tmr := false, freed := false, touched := false,
    hangups := 0, dels := 0, entries := 0 }

/-- `tcsip_start_call`; `err` is the result of `tcmedia_alloc`. -/
def tcsipStartCall (err handler : Bool) : CallRun :=
  newCall {
    cdir := .callOut
    cstate := if err then cstateStop ||| cstateErr else cstateStop
    reason := none
    sess := false
    media := !err
    kaTmr := false
    handler := handler }

/-- `tcsip_call_incoming`; `err` is the result of `tcmedia_alloc`, `acceptErr` that of
`sipsess_accept`. -/
def tcsipCallIncoming (err acceptErr handler : Bool) : CallRun :=
  let cstate := if err then cstateInRing ||| cstateErr else cstateInRing
  newCall {
    cdir := .callIn
    cstate := if acceptErr then cstate ||| cstateErr else cstate
    reason := none
    sess := !acceptErr
    media := !err
    kaTmr := false
    handler := handler }

/-! ## Handlers -/

/-- `call->handler`: `tcsip_call_changed` reports a call that is no longer alive as deleted,
which also takes it off the list, and makes a history entry of it. -/
def callHandler (s : CallRun) : CallRun :=
  if s.call.handler ∧ ¬ Test s.call.cstate cstateAlive then
    { s with listed := false, dels := s.dels + 1, entries := s.entries + 1 }
  else s

/-- What `tcsipcall_hangup` leaves in the call: no session, no media, a reason, and no flag
that says the call is alive. -/
def endCall (call : Call) : Call :=
  { call with
    sess := false
    reason := match call.reason with
      | some reason => some reason
      | none => if HasAll call.cstate cstateEst then some .ok
        else if ¬ Test call.cstate cstateEst then some .hang else none
    cstate := drop (drop call.cstate cstateAlive) cstateEst
    media := false
    kaTmr := false }

/-- `tcsipcall_hangup`.  What it does with a freed call is undefined; it only counts. -/
def tcsipcallHangup (s : CallRun) : CallRun :=
  if s.freed then { s with hangups := s.hangups + 1 }
  else
    let s := callHandler { s with call := endCall s.call }
    -- `call->tmr` stays as it is
    { s with listed := false, freed := true, hangups := s.hangups + 1 }

/-- `tcsipcall_activate`; `err` is the result of `tcmedia_start`. -/
def tcsipcallActivate (s : CallRun) (err : Bool) : CallRun :=
  if HasAll s.call.cstate (cstateFlow ||| cstateMedia) then s
  else
    let cstate := drop s.call.cstate cstateRing ||| cstateEst
    if err then callHandler { s with call := { s.call with cstate := cstate ||| cstateErr } }
    else callHandler { s with call := { s.call with
      cstate := cstate ||| (cstateFlow ||| cstateMedia)
      kaTmr := true } }

/-- `tcsipcall_control`; `err` is the result of `tcmedia_offer`. -/
def tcsipcallControl (s : CallRun) (action : CallAction) (err : Bool) : CallRun :=
  let call := s.call
  match action with
  | .accept =>
    if Test call.cstate (cstateErr ||| cstateEst) then s
    else if call.cdir ≠ .callIn then s
    else if ¬ Test call.cstate cstateIce then
      { s with call := { call with cstate := drop call.cstate cstateRing } }
    else if err then
      -- the error flag goes to the local `err`, not to the call
      { s with call := { call with cstate := drop call.cstate cstateRing } }
    else
      { s with call := { call with cstate := drop call.cstate cstateRing ||| cstateEst } }
  | .reject | .bye =>
    let call := if HasAll call.cstate cstateInRing then
      { call with cstate := drop call.cstate cstateInRing, reason := some .hang } else call
    let call := if HasAll call.cstate cstateEst then
      { call with cstate := drop call.cstate cstateEst, reason := some .ok } else call
    let call := if HasAll call.cstate cstateOutRing then
      { call with cstate := drop call.cstate cstateEst, reason := some .cancel } else call
    tcsipcallHangup { s with call := call }

/-- `tcsipcall_send`; `err` is the result of `sipsess_connect`. -/
def tcsipcallSend (s : CallRun) (err : Bool) : CallRun :=
  if err then { s with call := { s.call with cstate := s.call.cstate ||| cstateErr } }
  else { s with call := { s.call with
    sess := true
    cstate := s.call.cstate ||| cstateOutRing } }

/-- `media_event` for `MEDIA_ICE_OK`; `err` is the result of the call it makes. -/
def mediaIceOk (s : CallRun) (err : Bool) : CallRun :=
  let s := { s with call := { s.call with cstate := s.call.cstate ||| cstateIce } }
  match s.call.cdir with
  | .callOut => tcsipcallSend s err
  | .callIn =>
    if ¬ Test s.call.cstate cstateInRing then tcsipcallControl s .accept err else s

/-- `media_event` for `MEDIA_KA_FAIL`: `tmr_start` arms the timer, also when it is armed
already. -/
def mediaKaFail (s : CallRun) : CallRun := { s with tmr := true }

/-- `progress_handler`; `err` is the result of `tcmedia_start`. -/
def progressHandler (s : CallRun) (scode : ℕ) (body err : Bool) : CallRun :=
  if scode = 183 ∧ body then tcsipcallActivate s err else s

/-! ## Runs -/

/-- What can happen to a call. -/
inductive CallEvent where
  | control (action : CallAction) (err : Bool)
  | iceOk (err : Bool)
  | progress (scode : ℕ) (body err : Bool)
  | establish (err : Bool)
  | close
  | kaWarn
  | kaFail
  | expire
  deriving DecidableEq

/-- Who can raise an event: the user as long as the call is on the list, the peer as long
as there is a session, the media until they are stopped, and the timer while armed. -/
def CallEnabled (s : CallRun) : CallEvent → Prop
  | .control _ _ => s.listed = true
  | .iceOk _ => s.call.media = true
  | .progress _ _ _ => s.call.sess = true ∧ s.call.media = true
  | .establish _ => s.call.sess = true ∧ s.call.media = true
  | .close => s.call.sess = true
  | .kaWarn | .kaFail => s.call.kaTmr = true
  | .expire => s.tmr = true

instance (s : CallRun) : ∀ e, Decidable (CallEnabled s e)
  | .control _ _ | .iceOk _ | .close | .kaWarn | .kaFail | .expire =>
    inferInstanceAs (Decidable (_ = _))
  | .progress _ _ _ | .establish _ => inferInstanceAs (Decidable (_ ∧ _))

/-- The handler of an event. -/
def handleCall (s : CallRun) : CallEvent → CallRun
  | .control action err => tcsipcallControl s action err
  | .iceOk err => mediaIceOk s err
  | .progress scode body err => progressHandler s scode body err
  | .establish err => tcsipcallActivate s err
  | .close => tcsipcallHangup s
  | .kaWarn => s
  | .kaFail => mediaKaFail s
  | .expire => tcsipcallHangup { s with tmr := false }

/-- An event, if someone can raise it.  Its handler touches the call. -/
def callStep (s : CallRun) (e : CallEvent) : Option CallRun :=
  if CallEnabled s e then some (handleCall { s with touched := s.touched || s.freed } e) else none

/-- The ways a call begins. -/
inductive CallBegins : CallRun → Prop
  | out (err handler : Bool) : CallBegins (tcsipStartCall err handler)
  | incoming (err acceptErr handler : Bool) : CallBegins (tcsipCallIncoming err acceptErr handler)

/-- At most one hangup, nothing touched after it, at most one report and one history
entry. -/
def TornDownOnce (s : CallRun) : Prop :=
  s.hangups ≤ 1 ∧ s.touched = false ∧ s.dels ≤ 1 ∧ s.entries ≤ 1

instance (s : CallRun) : Decidable (TornDownOnce s) :=
  inferInstanceAs (Decidable (_ ∧ _))

/-- Neither the user nor the peer ends the call while its timer is armed. -/
def CallQuiet (s : CallRun) : CallEvent → Prop
  | .control .reject _ | .control .bye _ | .close => s.tmr = false
  | _ => True

instance (s : CallRun) : ∀ e, Decidable (CallQuiet s e)
  | .control .reject _ | .control .bye _ | .close => inferInstanceAs (Decidable (_ = _))
  | .control .accept _ | .iceOk _ | .progress _ _ _ | .establish _ | .kaWarn | .kaFail
  | .expire => isTrue trivial

/-! ## The invariant -/

/-- Before the hangup nothing was reported as deleted; after it nobody can reach the call any
more. -/
structure CallTeardown (s : CallRun) : Prop where
  untouched : s.touched = false
  before : s.freed = false → s.hangups = 0 ∧ s.dels = 0 ∧ s.entries = 0
  after : s.freed = true → s.hangups = 1 ∧ s.dels ≤ 1 ∧ s.entries ≤ 1 ∧ s.listed = false ∧
    s.tmr = false ∧ s.call.sess = false ∧ s.call.media = false ∧ s.call.kaTmr = false

theorem callTeardown_begins {s : CallRun} (h : CallBegins s) : CallTeardown s := by
  cases h with
  | out err handler => exact ⟨rfl, fun _ => ⟨rfl, rfl, rfl⟩, fun hf => Bool.noConfusion hf⟩
  | incoming err acceptErr handler =>
      exact ⟨rfl, fun _ => ⟨rfl, rfl, rfl⟩, fun hf => Bool.noConfusion hf⟩

/-- A freed call is out of reach. -/
theorem CallTeardown.not_enabled {s : CallRun} (h : CallTeardown s) (hfreed : s.freed = true)
    (e : CallEvent) : ¬ CallEnabled s e := by
  obtain ⟨_, _, _, hlisted, htmr, hsess, hmedia, hka⟩ := h.after hfreed
  cases e <;> simp [CallEnabled, hlisted, htmr, hsess, hmedia, hka]

/-- The call is there, and nothing was reported. -/
def CallLive (s : CallRun) : Prop :=
  s.freed = false ∧ s.touched = false ∧ s.hangups = 0 ∧ s.dels = 0 ∧ s.entries = 0

theorem CallLive.teardown {s : CallRun} (h : CallLive s) : CallTeardown s := by
  obtain ⟨hfreed, htouched, hcounts⟩ := h
  refine ⟨htouched, fun _ => hcounts, ?_⟩
  intro hf
  rw [hfreed] at hf
  exact absurd hf (by decide)

/-! ## What the handlers do to a live call -/

/-- The handler reports the call as deleted once, or not at all. -/
theorem callHandler_cases (s : CallRun) :
    callHandler s = s ∨
      callHandler s = { s with listed := false, dels := s.dels + 1, entries := s.entries + 1 } := by
  unfold callHandler
  split
  · exact Or.inr rfl
  · exact Or.inl rfl

/-- The handler reports nothing about a call that is alive. -/
theorem callHandler_of_alive {s : CallRun} (h : Test s.call.cstate cstateAlive) :
    callHandler s = s := by
  unfold callHandler
  rw [if_neg (fun hdead => hdead.2 h)]

/-- **A hangup** with the timer idle tears the call down. -/
theorem CallLive.hangup {s : CallRun} (h : CallLive s) (htmr : s.tmr = false) :
    CallTeardown (tcsipcallHangup s) := by
  obtain ⟨hfreed, htouched, hhangups, hdels, hentries⟩ := h
  unfold tcsipcallHangup
  rw [if_neg (by rw [hfreed]; decide)]
  rcases callHandler_cases { s with call := endCall s.call } with heq | heq
  · rw [heq]
    refine ⟨htouched, fun hf => absurd hf (by simp), ?_⟩
    rintro -
    refine ⟨?_, ?_, ?_, rfl, htmr, rfl, rfl, rfl⟩
    · show s.hangups + 1 = 1
      omega
    · show s.dels ≤ 1
      omega
    · show s.entries ≤ 1
      omega
  · rw [heq]
    refine ⟨htouched, fun hf => absurd hf (by simp), ?_⟩
    rintro -
    refine ⟨?_, ?_, ?_, rfl, htmr, rfl, rfl, rfl⟩
    · show s.hangups + 1 = 1
      omega
    · show s.dels + 1 ≤ 1
      omega
    · show s.entries + 1 ≤ 1
      omega

/-- Activation leaves the call live: what it reports is an established call. -/
theorem CallLive.activate {s : CallRun} (h : CallLive s) (err : Bool) :
    CallLive (tcsipcallActivate s err) := by
  have hest : ∀ x y : CallState, Test (x ||| cstateEst ||| y) cstateAlive := by
    intro x y
    rw [test_or, test_or]
    exact Or.inl (Or.inr (by decide))
  unfold tcsipcallActivate
  split
  · exact h
  · split
    · rw [callHandler_of_alive (hest _ _)]
      exact h
    · rw [callHandler_of_alive (hest _ _)]
      exact h

/-- Accepting changes flags only. -/
theorem CallLive.accept {s : CallRun} (h : CallLive s) (err : Bool) :
    CallLive (tcsipcallControl s .accept err) := by
  unfold tcsipcallControl
  dsimp only
  split_ifs <;> exact h

/-- The end of ICE sends or accepts the call. -/
theorem CallLive.iceOk {s : CallRun} (h : CallLive s) (err : Bool) :
    CallLive (mediaIceOk s err) := by
  unfold mediaIceOk
  dsimp only
  split
  · unfold tcsipcallSend
    split <;> exact h
  · split
    · exact CallLive.accept (s := { s with call := { s.call with
        cstate := s.call.cstate ||| cstateIce } }) h err
    · exact h

/-- **One event** keeps the invariant, unless the call is ended while its timer is armed. -/
theorem callTeardown_step (s : CallRun) (e : CallEvent) (t : CallRun) (h : CallTeardown s)
    (hquiet : CallQuiet s e) (hstep : callStep s e = some t) : CallTeardown t := by
  unfold callStep at hstep
  rw [Option.ite_none_right_eq_some] at hstep
  obtain ⟨henabled, heq⟩ := hstep
  obtain rfl := Option.some.inj heq
  -- somebody could raise the event, so the call is still there
  have hfreed : s.freed = false := by
    cases hf : s.freed with
    | false => rfl
    | true => exact absurd henabled (h.not_enabled hf e)
  have hlive : CallLive { s with touched := s.touched || s.freed } := by
    obtain ⟨hhangups, hdels, hentries⟩ := h.before hfreed
    refine ⟨hfreed, ?_, hhangups, hdels, hentries⟩
    show (s.touched || s.freed) = false
    rw [h.untouched, hfreed]
    rfl
  cases e with
  | control action err =>
      cases action with
      | accept => exact (hlive.accept err).teardown
      | reject => exact CallLive.hangup hlive hquiet
      | bye => exact CallLive.hangup hlive hquiet
  | iceOk err => exact (hlive.iceOk err).teardown
  | progress scode body err =>
      show CallTeardown (progressHandler _ scode body err)
      unfold progressHandler
      split
      · exact (hlive.activate err).teardown
      · exact hlive.teardown
  | establish err => exact (hlive.activate err).teardown
  | close => exact hlive.hangup hquiet
  | kaWarn => exact hlive.teardown
  | kaFail => exact CallLive.teardown (s := mediaKaFail { s with touched := _ }) hlive
  | expire =>
      exact CallLive.hangup (s := { s with touched := s.touched || s.freed, tmr := false })
        hlive rfl

/-! ## Whole runs -/

/-- **A call is torn down once** in every run in which neither the user nor the peer ends
the call while its timer is armed. -/
theorem tornDownOnce_of_quiet {s : CallRun} (hs : CallBegins s) (es : List CallEvent)
    (hquiet : StepsMeet callStep CallQuiet s es) {t : CallRun} (hrun : run callStep s es = some t) :
    TornDownOnce t := by
  have ht : CallTeardown t :=
    run_invariant callStep callTeardown_step (callTeardown_begins hs) hquiet hrun
  cases hfreed : t.freed with
  | false =>
      obtain ⟨hhangups, hdels, hentries⟩ := ht.before hfreed
      exact ⟨by omega, ht.untouched, by omega, by omega⟩
  | true =>
      obtain ⟨hhangups, hdels, hentries, _⟩ := ht.after hfreed
      exact ⟨by omega, ht.untouched, hdels, hentries⟩

/-- An outgoing call without sound from the peer, after which `es` happens. -/
def silentCall (es : List CallEvent) : List CallEvent :=
  [.iceOk false, .establish false, .kaWarn, .kaFail] ++ es

/-- When the timer expires, the call is torn down once. -/
theorem tornDownOnce_silent :
    ∃ t, run callStep (tcsipStartCall false true) (silentCall [.expire]) = some t ∧
      TornDownOnce t :=
  ⟨_, rfl, tornDownOnce_of_quiet (.out false true) (silentCall [.expire]) (by decide) rfl⟩

/-- When the peer closes before the timer expires, the call is hung up again after it was
freed. -/
theorem not_tornDownOnce_closed :
    ∃ t, run callStep (tcsipStartCall false true) (silentCall [.close, .expire]) = some t ∧
      ¬ TornDownOnce t :=
  ⟨_, rfl, by decide⟩
