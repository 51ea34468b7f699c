/-
# The list of calls

The client keeps its calls in `calls_c`.  The user names a call by its `ckey`, which is made
of the second in which the call began and of the addresses of the two parties, and
`tcsip_call_control` acts on the first call that has the given key.  Nothing makes the keys
distinct: two calls between the same parties that began in the same second share one, and the
second may be what the `Date` header of an invitation says.
-/
import Tcsip.CallHandlers
import Tcsip.CText
import Tcsip.KeyedList

open Runs

/-! ## Calls with their keys -/

/-- A call on the list: `id` is its address, `sec` is `call->tv.tv_sec`. -/
structure TcsipCall where
  id : ℕ
  sec : ℤ
  localAuri : Text
  remoteAuri : Text
  run : CallRun
  deriving DecidableEq

/-- The two addresses in the key, the caller first. -/
def TcsipCall.route (c : TcsipCall) : Text :=
  match c.run.call.cdir with
  | .callOut => c.localAuri ++ lit "->" ++ c.remoteAuri
  | .callIn => c.remoteAuri ++ lit "->" ++ c.localAuri

/-- `tcsipcall_key` -/
def tcsipcallKey (c : TcsipCall) : Text := fmtD c.sec ++ byteOf '@' :: c.route

/-- `sipmsg_parse_date`; `date` is what the `Date` headers left in `tv->tv_sec`, 0 if there
are none. -/
def sipmsgParseDate (date now : ℤ) : ℤ := if date ≤ 0 then now else date

/-- `calls_c`, and the address of the next call. -/
structure Calls where
  list : List TcsipCall
  next : ℕ
  deriving DecidableEq

/-- `find_ckey`, from the first call on. -/
def findCkey (l : List TcsipCall) (ckey : Text) : Option TcsipCall :=
  l.find? fun c => decide (tcsipcallKey c = ckey)

/-- `f` happens to the call with address `id`; a call that is hung up leaves the list. -/
def onCall (l : List TcsipCall) (id : ℕ) (f : CallRun → CallRun) : List TcsipCall :=
  (l.map fun c => if c.id = id then { c with run := f c.run } else c).filter (·.run.listed)

/-- `tcsip_call_control` -/
def tcsipCallControl (l : List TcsipCall) (ckey : Text) (action : CallAction) (err : Bool) :
    List TcsipCall :=
  match findCkey l ckey with
  | none => l
  | some c => onCall l c.id fun s => tcsipcallControl s action err

/-- What happens to the list.  `start` is `tcsip_start_call`, `incoming` is
`tcsip_call_incoming`; the last flags are the results that the call begins with. -/
inductive CallsEvent where
  | start (laddr : Bool) (now : ℤ) (user dest : Text) (err handler : Bool)
  | incoming (date now : ℤ) (user remote : Text) (err acceptErr handler : Bool)
  | control (ckey : Text) (action : CallAction) (err : Bool)
  | happens (id : ℕ) (e : CallEvent)

/-- The call that an event puts on the list. -/
def CallsEvent.added (s : Calls) : CallsEvent → Option TcsipCall
  | .start laddr now user dest err handler =>
    if laddr then some ⟨s.next, now, user, dest, tcsipStartCall err handler⟩ else none
  | .incoming date now user remote err acceptErr handler =>
    some ⟨s.next, sipmsgParseDate date now, user, remote,
      tcsipCallIncoming err acceptErr handler⟩
  | .control _ _ _ | .happens _ _ => none

/-- `tcsipcall_append` -/
def tcsipcallAppend (s : Calls) : Option TcsipCall → Calls
  | none => s
  | some c => ⟨s.list ++ [c], s.next + 1⟩

/-- Only calls on the list have events, and only those that can be raised for them. -/
def callsStep (s : Calls) (e : CallsEvent) : Option Calls :=
  match e with
  | .start _ _ _ _ _ _ | .incoming _ _ _ _ _ _ _ => some (tcsipcallAppend s (e.added s))
  | .control ckey action err => some { s with list := tcsipCallControl s.list ckey action err }
  | .happens id e =>
    if ∃ c ∈ s.list, c.id = id ∧ CallEnabled c.run e then
      some { s with list := onCall s.list id fun r => handleCall r e }
    else none

/-- No two calls share a key, so the key of a call finds it. -/
def KeysIdentify (s : Calls) : Prop :=
  KeyedList.Keyed tcsipcallKey s.list ∧ ∀ c ∈ s.list, findCkey s.list (tcsipcallKey c) = some c

/-- A call that is added began in another second than each call on the list (of those that
an `int` can tell apart), or has other parties. -/
def BeginsApart (s : Calls) (e : CallsEvent) : Prop :=
  ∀ c ∈ e.added s, ∀ d ∈ s.list,
    d.sec.bmod (2 ^ 32) ≠ c.sec.bmod (2 ^ 32) ∨ d.route ≠ c.route

/-! ## Keys -/

theorem at_notMem_fmtD (n : ℤ) : byteOf '@' ∉ fmtD n :=
  notMem_fmtD (by unfold IsDigit; decide) (by decide) n

/-- **Two calls share a key** when they began in one second and have the same parties. -/
theorem tcsipcallKey_eq_iff {c d : TcsipCall} :
    tcsipcallKey c = tcsipcallKey d ↔
      c.sec.bmod (2 ^ 32) = d.sec.bmod (2 ^ 32) ∧ c.route = d.route := by
  unfold tcsipcallKey
  rw [field_eq_field_iff (at_notMem_fmtD _) (at_notMem_fmtD _), fmtD_inj]

/-! ## What a step does to the keys -/

/-- Distinct keys identify the calls. -/
theorem keysIdentify_iff {s : Calls} :
    KeysIdentify s ↔ KeyedList.Keyed tcsipcallKey s.list :=
  ⟨And.left, fun h => ⟨h, fun _ hc => h.find?_eq hc⟩⟩

/-- What happens to a call does not change its key, so the keys stay distinct. -/
theorem keyed_onCall {l : List TcsipCall} (h : KeyedList.Keyed tcsipcallKey l) (id : ℕ)
    {f : CallRun → CallRun} (hf : ∀ s, (f s).call.cdir = s.call.cdir) :
    KeyedList.Keyed tcsipcallKey (onCall l id f) := by
  apply KeyedList.Keyed.filter
  have hkeys : (l.map fun c => if c.id = id then { c with run := f c.run } else c).map tcsipcallKey
      = l.map tcsipcallKey := by
    rw [List.map_map]
    apply List.map_congr_left
    intro c _
    simp only [Function.comp]
    split
    · unfold tcsipcallKey TcsipCall.route
      dsimp only
      rw [hf]
    · rfl
  rw [KeyedList.Keyed, hkeys]
  exact h

theorem keyed_tcsipCallControl {l : List TcsipCall} (h : KeyedList.Keyed tcsipcallKey l)
    (ckey : Text) (action : CallAction) (err : Bool) :
    KeyedList.Keyed tcsipcallKey (tcsipCallControl l ckey action err) := by
  unfold tcsipCallControl
  split
  · exact h
  · exact keyed_onCall h _ fun s => (tcsipcallControl_keeps s action err).cdir

/-- **A call that is added** keeps the keys distinct exactly when it began apart from the
others. -/
theorem keysIdentify_append_iff {s : Calls} (h : KeysIdentify s) (c : Option TcsipCall) :
    KeysIdentify (tcsipcallAppend s c) ↔
      ∀ c' ∈ c, ∀ d ∈ s.list,
        d.sec.bmod (2 ^ 32) ≠ c'.sec.bmod (2 ^ 32) ∨ d.route ≠ c'.route := by
  cases c with
  | none => exact iff_of_true h fun c' hc' => absurd hc' (Option.not_mem_none c')
  | some c =>
      rw [keysIdentify_iff]
      show KeyedList.Keyed tcsipcallKey (s.list ++ [c]) ↔ _
      rw [KeyedList.keyed_append_singleton_iff]
      have hne : ∀ d, tcsipcallKey d ≠ tcsipcallKey c ↔
          d.sec.bmod (2 ^ 32) ≠ c.sec.bmod (2 ^ 32) ∨ d.route ≠ c.route := by
        intro d
        rw [Ne, tcsipcallKey_eq_iff, not_and_or]
      simp only [hne, h.1, true_and, Option.mem_def, Option.some.injEq, forall_eq']

theorem keysIdentify_callsStep_iff {s t : Calls} {e : CallsEvent} (h : KeysIdentify s)
    (hstep : callsStep s e = some t) : KeysIdentify t ↔ BeginsApart s e := by
  have hnone : ∀ c : TcsipCall, c ∉ (none : Option TcsipCall) := Option.not_mem_none
  cases e with
  | start laddr now user dest err handler =>
      obtain rfl := Option.some.inj hstep
      exact keysIdentify_append_iff h _
  | incoming date now user remote err acceptErr handler =>
      obtain rfl := Option.some.inj hstep
      exact keysIdentify_append_iff h _
  | control ckey action err =>
      obtain rfl := Option.some.inj hstep
      refine iff_of_true (keysIdentify_iff.mpr ?_) fun c hc => absurd hc (hnone c)
      exact keyed_tcsipCallControl h.1 ckey action err
  | happens id e =>
      have hstep' : (if ∃ c ∈ s.list, c.id = id ∧ CallEnabled c.run e then
        some { s with list := onCall s.list id fun r => handleCall r e } else none) = some t :=
          hstep
      rw [Option.ite_none_right_eq_some] at hstep'
      obtain rfl := Option.some.inj hstep'.2
      refine iff_of_true (keysIdentify_iff.mpr ?_) fun c hc => absurd hc (hnone c)
      exact keyed_onCall h.1 id fun r => handleCall_cdir r e

/-- **Keys identify calls exactly while no call begins in the second of another one between
the same parties**, in every run of the client. -/
theorem always_keysIdentify_iff (es : List CallsEvent) :
    Always callsStep KeysIdentify ⟨[], 0⟩ es ↔ StepsMeet callsStep BeginsApart ⟨[], 0⟩ es := by
  refine always_iff_stepsMeet callsStep (I := fun _ => True) (fun _ _ _ _ _ _ => trivial)
    (fun s e t _ hB hstep => keysIdentify_callsStep_iff hB hstep) ?_ trivial
    (keysIdentify_iff.mpr List.nodup_nil)
  intro s e _ _ hrefused
  cases e with
  | start laddr now user dest err handler => exact nomatch hrefused
  | incoming date now user remote err acceptErr handler => exact nomatch hrefused
  | control ckey action err => exact nomatch hrefused
  | happens id e => exact fun c hc => absurd hc (Option.not_mem_none c)

/-- Alice calls Bob twice within a second: the key of the second call acts on the first. -/
theorem key_of_other_call :
    let call : CallsEvent :=
      .start true 1400000000 (lit "sip:alice@x") (lit "sip:bob@x") false true
    ((run callsStep ⟨[], 0⟩ [call, call]).map fun s =>
      s.list.map fun c => (c.id, (findCkey s.list (tcsipcallKey c)).map TcsipCall.id)) =
        some [(0, some 0), (1, some 0)] := by
  decide +kernel
