/-
# The registration and what it reports

`tcsipreg.c` keeps one registration and reports its status to a handler.  `REG_AUTH` is set
by the first response 200 and never taken away, neither by a later failure nor when the
registration is dropped and created anew, and a re-registration reports
`REG_ONLINE` on the strength of this flag alone.  So the reports are truthful exactly as
long as nothing is re-registered after a 200 unless the latest response is a 200
(`truthful_iff`).
-/
import Tcsip.Flags
import Tcsip.Runs

open Flags Runs

/-! ## The registration -/

/-- `enum reg_state`. -/
abbrev RegState := BitVec 32

def regNone : RegState := 0#32
def regStart : RegState := 1#32
def regAuth : RegState := 2#32
def regOnline : RegState := 4#32
def regTry : RegState := 5#32

/-- `enum reg_cmd`. -/
inductive RegCmd where
  | off
  | bg
  | fg
  deriving DecidableEq

/-- What is asked of the registration client of the SIP stack. -/
structure SipReg where
  expires : ℤ
  deriving DecidableEq

/-- `struct tcsipreg`, the part that the commands and responses read. -/
structure TcsipReg where
  reg : Option SipReg
  rstate : RegState
  regTime : ℤ
  deriving DecidableEq

/-- `tcsipreg_alloc`. -/
def tcsipregAlloc : TcsipReg := { reg := none, rstate := regNone, regTime := 60 }

/-- `tcsreg_response`, and what it reports.  The case 401 falls through. -/
def tcsregResponse (reg : TcsipReg) (status : ℕ) : TcsipReg × List RegState :=
  match status with
  | 200 => ({ reg with rstate := reg.rstate ||| regAuth ||| regOnline }, [regOnline])
  | _ => ({ reg with rstate := drop reg.rstate regOnline }, [regNone])

/-- The status that `register_handler` passes on; an error counts as 900. -/
def registerStatus (err : Bool) (scode : Option ℕ) : ℕ :=
  if err then 900 else scode.getD 900

/-- `tcsreg_send`; `err` is the result of `sipreg_register`. -/
def tcsregSend (reg : TcsipReg) (err : Bool) : TcsipReg × List RegState :=
  if err then (reg, [regNone])
  else ({ reg with
      reg := some { expires := reg.regTime }
      rstate := reg.rstate ||| regStart }, [regTry])

/-- `tcsreg_resend`; `err` is the result of `sipreg_expires`. -/
def tcsregResend (reg : TcsipReg) (err : Bool) : TcsipReg × List RegState :=
  let reg := { reg with regTime := reg.regTime + 1 }
  if err then ({ reg with reg := none }, [regNone])
  -- `REG_AUTH` may be from an earlier registration
  else ({ reg with reg := some { expires := reg.regTime } },
    if Test reg.rstate regAuth then [regOnline] else [regTry])

/-- `tcsreg_state`. -/
def tcsregState (reg : TcsipReg) (state : RegCmd) (err : Bool) : TcsipReg × List RegState :=
  let register (regTime : ℤ) : TcsipReg × List RegState :=
    let reg := { reg with regTime := regTime }
    if reg.reg.isSome then tcsregResend reg err else tcsregSend reg err
  match state with
  | .off => ({ reg with reg := none }, [])
  | .fg => register 60
  | .bg => register 610

/-! ## Runs -/

/-- A registration in use: the latest response to the current registration, whether any
response so far was 200, and the reports, each with the latest response it was made
after. -/
structure RegRun where
  reg : TcsipReg
  latest : Option ℕ
  seen200 : Bool
  log : List (RegState × Option ℕ)
  deriving DecidableEq

/-- Before the first command. -/
def regInit : RegRun :=
  { reg := tcsipregAlloc, latest := none, seen200 := false, log := [] }

/-- A command, with the outcome of the call it makes, or a response to the registration. -/
inductive RegEvent where
  | command (state : RegCmd) (err : Bool)
  | response (err : Bool) (scode : Option ℕ)
  deriving DecidableEq

/-- A command that finds no registration starts a new one, without a response yet; there
is no response without a registration. -/
def regStep (s : RegRun) : RegEvent → Option RegRun
  | .command state err =>
    let next := tcsregState s.reg state err
    let latest := if s.reg.reg.isSome then s.latest else none
    some { s with
      reg := next.1
      latest := latest
      log := s.log ++ next.2.map fun x => (x, latest) }
  | .response err scode =>
    if s.reg.reg.isSome then
      let status := registerStatus err scode
      let next := tcsregResponse s.reg status
      some {
        reg := next.1
        latest := some status
        seen200 := s.seen200 || decide (status = 200)
        log := s.log ++ next.2.map fun x => (x, some status) }
    else none

/-- Every report of `REG_ONLINE` was made when the latest response to the current
registration was 200. -/
def TruthfulReports (s : RegRun) : Prop := ∀ p ∈ s.log, p.1 = regOnline → p.2 = some 200

instance (s : RegRun) : Decidable (TruthfulReports s) := inferInstanceAs (Decidable (∀ p ∈ _, _))

/-- Not a re-registration that succeeds after some 200, while the latest response is
another one. -/
def ResendsTruly (s : RegRun) : RegEvent → Prop
  | .command state err =>
    state ≠ .off → s.reg.reg.isSome = true → err = false → s.seen200 = true →
      s.latest = some 200
  | .response _ _ => True

instance (s : RegRun) : ∀ e, Decidable (ResendsTruly s e)
  | .command _ _ => inferInstanceAs (Decidable (_ → _))
  | .response _ _ => isTrue trivial

/-! ## The flag `REG_AUTH` -/

/-- `REG_AUTH` is set when some response was 200, whichever registration it was for. -/
def AuthSeen (s : RegRun) : Prop := Test s.reg.rstate regAuth ↔ s.seen200 = true

/-- No command touches `REG_AUTH`. -/
theorem tcsregState_auth (reg : TcsipReg) (state : RegCmd) (err : Bool) :
    Test (tcsregState reg state err).1.rstate regAuth ↔ Test reg.rstate regAuth := by
  have hstart : Test (reg.rstate ||| regStart) regAuth ↔ Test reg.rstate regAuth := by
    rw [test_or, or_iff_left (by decide)]
  unfold tcsregState tcsregResend tcsregSend
  cases state <;> cases reg.reg <;> cases err <;> first | exact Iff.rfl | exact hstart

/-- A response sets it if it is 200, and leaves it alone otherwise. -/
theorem tcsregResponse_auth (reg : TcsipReg) (status : ℕ) :
    Test (tcsregResponse reg status).1.rstate regAuth ↔
      Test reg.rstate regAuth ∨ status = 200 := by
  unfold tcsregResponse
  split
  · show Test (reg.rstate ||| regAuth ||| regOnline) regAuth ↔ _
    rw [test_or, test_or]
    simp [regAuth]
  · rename_i hne
    show Test (drop reg.rstate regOnline) regAuth ↔ _
    rw [test_drop_of_disjoint (by decide), or_iff_left hne]

theorem authSeen_step (s : RegRun) (e : RegEvent) (t : RegRun) (h : AuthSeen s)
    (hstep : regStep s e = some t) : AuthSeen t := by
  unfold AuthSeen at h ⊢
  cases e with
  | command state err =>
      obtain rfl := Option.some.inj hstep
      exact (tcsregState_auth s.reg state err).trans h
  | response err scode =>
      simp only [regStep, Option.ite_none_right_eq_some, Option.some.injEq] at hstep
      obtain ⟨_, rfl⟩ := hstep
      show Test (tcsregResponse s.reg (registerStatus err scode)).1.rstate regAuth ↔ _
      rw [tcsregResponse_auth, h, Bool.or_eq_true, decide_eq_true_eq]

/-! ## What is reported -/

/-- A command reports `REG_ONLINE` exactly when it is a re-registration that succeeds with
`REG_AUTH` set. -/
theorem tcsregState_reports (reg : TcsipReg) (state : RegCmd) (err : Bool) :
    regOnline ∈ (tcsregState reg state err).2 ↔
      state ≠ .off ∧ reg.reg.isSome = true ∧ err = false ∧ Test reg.rstate regAuth := by
  have hreport : (regOnline ∈ if Test reg.rstate regAuth then [regOnline] else [regTry]) ↔
      Test reg.rstate regAuth := by
    split
    · rename_i hauth
      exact iff_of_true (List.mem_singleton_self _) hauth
    · rename_i hauth
      exact iff_of_false (by decide) hauth
  unfold tcsregState tcsregResend tcsregSend
  cases state <;> cases hreg : reg.reg <;> cases err <;>
    simp only [Option.isSome_some, Option.isSome_none, if_true, if_false, hreport, ne_eq,
      reduceCtorEq, not_true_eq_false, not_false_eq_true, false_and, true_and, and_self,
      Bool.false_eq_true] <;> decide

/-- A response reports `REG_ONLINE` exactly when it is 200. -/
theorem tcsregResponse_reports (reg : TcsipReg) (status : ℕ) :
    regOnline ∈ (tcsregResponse reg status).2 ↔ status = 200 := by
  unfold tcsregResponse
  split
  · exact iff_of_true (List.mem_singleton_self _) rfl
  · rename_i hne
    refine iff_of_false ?_ hne
    show regOnline ∉ [regNone]
    decide

/-- What is added to the log is truthful unless it has a `REG_ONLINE` after another
response. -/
theorem truthfulReports_append (s t : RegRun) (xs : List RegState) (latest : Option ℕ)
    (hlog : t.log = s.log ++ xs.map fun x => (x, latest)) :
    TruthfulReports t ↔ TruthfulReports s ∧ (regOnline ∈ xs → latest = some 200) := by
  unfold TruthfulReports
  rw [hlog]
  constructor
  · intro h
    refine ⟨fun p hp => h p (List.mem_append_left _ hp), ?_⟩
    intro hx
    exact h (regOnline, latest) (List.mem_append_right _ (List.mem_map_of_mem hx)) rfl
  · rintro ⟨hold, hnew⟩ p hp honline
    rcases List.mem_append.mp hp with hp | hp
    · exact hold p hp honline
    · obtain ⟨x, hx, rfl⟩ := List.mem_map.mp hp
      exact hnew (honline ▸ hx)

/-- **One event** makes an untruthful report exactly when it does not resend truly. -/
theorem truthfulReports_step (s : RegRun) (e : RegEvent) (t : RegRun) (h : AuthSeen s)
    (hstep : regStep s e = some t) : TruthfulReports t ↔ TruthfulReports s ∧ ResendsTruly s e := by
  unfold AuthSeen at h
  cases e with
  | command state err =>
      -- by the invariant the flag is the record of some 200
      obtain rfl := Option.some.inj hstep
      rw [truthfulReports_append s _ _ _ rfl, tcsregState_reports, h]
      apply and_congr_right
      intro _
      unfold ResendsTruly
      constructor
      · intro hreport hstate hreg herr hseen
        have hlatest := hreport ⟨hstate, hreg, herr, hseen⟩
        rwa [if_pos hreg] at hlatest
      · rintro htruly ⟨hstate, hreg, herr, hseen⟩
        rw [if_pos hreg]
        exact htruly hstate hreg herr hseen
  | response err scode =>
      simp only [regStep, Option.ite_none_right_eq_some, Option.some.injEq] at hstep
      obtain ⟨_, rfl⟩ := hstep
      rw [truthfulReports_append s _ _ _ rfl, tcsregResponse_reports]
      simp [ResendsTruly]

/-! ## Whole runs -/

/-- **Registration status, exactly.**  The reports of a run are truthful if and only if none
of its steps is a re-registration that succeeds after some 200 while the latest response
is another one. -/
theorem truthful_iff (es : List RegEvent) (t : RegRun) (hrun : run regStep regInit es = some t) :
    TruthfulReports t ↔ StepsMeet regStep ResendsTruly regInit es := by
  have hinit : AuthSeen regInit := by
    show Test regNone regAuth ↔ false = true
    decide
  rw [run_monitor_iff regStep authSeen_step truthfulReports_step hinit hrun]
  have hempty : TruthfulReports regInit := fun p hp => absurd hp List.not_mem_nil
  exact and_iff_right hempty

/-- Registered, one more response, and registered again. -/
def registeredAgain (scode : ℕ) : List RegEvent :=
  [.command .fg false, .response false (some 200), .response false (some scode),
    .command .bg false]

/-- When the registration was refreshed in between, the reports are truthful. -/
theorem truthful_refreshed :
    ∃ t, run regStep regInit (registeredAgain 200) = some t ∧ TruthfulReports t :=
  ⟨_, rfl, (truthful_iff (registeredAgain 200) _ rfl).mpr (by decide)⟩

/-- When it was refused in between, online is reported after a 403. -/
theorem not_truthful_refused :
    ∃ t, run regStep regInit (registeredAgain 403) = some t ∧ ¬ TruthfulReports t :=
  ⟨_, rfl, by decide⟩
