/-
# Calls and their history

`tcsip_call_changed` is the handler of every call of the client.  It reports what became of the
call to the control client, if one is connected, and makes the history entry of a call that has
ended.  A call that was hung up leaves the list.

So every call that ever began is either on the list or in the history, once
(`calls_accounted`).
-/
import Tcsip.CallReasons
import Tcsip.Calls
import Tcsip.Report

open Flags Msgpack Runs

namespace CallReports

/-! ## Notifications -/

/-- `call_dir_t` as a number. -/
def dirCode : CallDir → ℤ
  | .callIn => 0
  | .callOut => 1

/-- `call_end_t` as a number; 0 as long as there is no reason. -/
def endCode : Option CallEnd → ℤ
  | none => 0
  | some .ok => 1
  | some .cancel => 2
  | some .hang => 3

/-- `report_call` of a call; the names are those of its remote address. -/
def callReport (c : TcsipCall) (dname user : List Byte) : Report :=
  .call (some (tcsipcallKey c)) (dirCode c.run.call.cdir) c.run.call.cstate.toInt c.sec dname user

/-- `report_call_change` of a call. -/
def changeReport (c : TcsipCall) : Report :=
  .callChange (some (tcsipcallKey c)) c.run.call.cstate (endCode c.run.call.reason)

instance decidableNotifies (s : CallRun) : ∀ e, Decidable (NotifiesHandler s e)
  | .control .reject _ | .control .bye _ | .close | .expire =>
    inferInstanceAs (Decidable (s.freed = false))
  | .establish _ =>
    inferInstanceAs (Decidable (¬ HasAll s.call.cstate (cstateFlow ||| cstateMedia)))
  | .progress _ _ _ => inferInstanceAs (Decidable (_ ∧ _ ∧ _))
  | .control .accept _ | .iceOk _ | .kaWarn | .kaFail => isFalse id

/-- The call that an event is about, and what happens to it. -/
def target (s : Calls) : CallsEvent → Option (TcsipCall × CallEvent)
  | .start _ _ _ _ _ _ | .incoming _ _ _ _ _ _ _ => none
  | .control ckey action err => (findCkey s.list ckey).map fun c => (c, .control action err)
  | .happens id e => (s.list.find? fun c => decide (c.id = id)).map fun c => (c, e)

/-- The call as its handler sees it, if that is called and is `tcsip_call_changed`. -/
def changed (p : TcsipCall × CallEvent) : Option TcsipCall :=
  if p.1.run.call.handler = true ∧ NotifiesHandler p.1.run p.2 then
    some { p.1 with run := handleCall p.1.run p.2 }
  else none

/-! ## The client and its control client -/

/-- The calls, those that were passed to `history_add`, whether a control client is connected,
what it was sent since then, and how many calls had begun before. -/
structure Phone where
  calls : Calls
  ended : List TcsipCall
  client : Bool
  sent : List Byte
  before : ℕ

/-- No call yet, and nobody connected. -/
def Phone.init : Phone := ⟨⟨[], 0⟩, [], false, [], 0⟩

/-- `write_fd` -/
def Phone.writeFd (s : Phone) (buf : List Byte) : Phone :=
  if s.client then { s with sent := s.sent ++ buf } else s

/-- A report, if there is one. -/
def Phone.report (s : Phone) : Option Report → Option Phone
  | none => some s
  | some r => r.write.map s.writeFd

/-- A control client connects, or is gone; something happens to the calls; or something else is
reported.  The names are those of the remote address of a call that begins. -/
inductive PhoneEvent where
  | accept
  | eof
  | calls (e : CallsEvent) (dname user : List Byte)
  | report (r : Report)

/-- What `tcsip_call_changed` and the beginning of a call report. -/
def callsReport (s : Calls) (e : CallsEvent) (dname user : List Byte) : Option Report :=
  match e.added s with
  | some c => if c.run.call.handler then some (callReport c dname user) else none
  | none => ((target s e).bind changed).map changeReport

/-- `tcsip_call_history`: the calls that are not alive. -/
def callsEnded (s : Calls) (e : CallsEvent) : List TcsipCall :=
  (((target s e).bind changed).filter fun c => (tcsipCallHistory c.run.call).isSome).toList

/-- `accept_cb` turns a second client away, `read_cb` closes one that is gone. -/
def phoneStep (s : Phone) : PhoneEvent → Option Phone
  | .accept =>
    if s.client then some s
    else some { s with client := true, sent := [], before := s.calls.next }
  | .eof => if s.client then some { s with client := false } else none
  | .report r => s.report (some r)
  | .calls e dname user =>
    (callsStep s.calls e).bind fun calls =>
      { s with calls := calls, ended := s.ended ++ callsEnded s.calls e }.report
        (callsReport s.calls e dname user)

/-- The calls have the handler, as `libresip_driver` sets it up, and none is ended while its timer
runs. -/
def Handled (s : Phone) : PhoneEvent → Prop
  | .calls e _ _ => (∀ c ∈ e.added s.calls, c.run.call.handler = true) ∧
      ∀ p ∈ target s.calls e, CallQuiet p.1.run p.2
  | .accept | .eof | .report _ => True

instance decidableHandled (s : Phone) : ∀ e, Decidable (Handled s e)
  | .calls _ _ _ => inferInstanceAs (Decidable (_ ∧ _))
  | .accept | .eof | .report _ => isTrue trivial

/-! ## One event of a call -/

/-- A call on the list of the driver. -/
structure Running (s : CallRun) : Prop where
  live : CallLive s
  listed : s.listed = true
  handler : s.call.handler = true

/-- The call is ended: it leaves the list, and the handler sees that it is not alive. -/
structure Ends (s : CallRun) (e : CallEvent) : Prop where
  notifies : NotifiesHandler s e
  dead : ¬ Test (handleCall s e).call.cstate cstateAlive
  listed : (handleCall s e).listed = false

/-- The call goes on: the handler sees that it is established, if it is called; and media begin to
flow only if it is. -/
structure GoesOn (s : CallRun) (e : CallEvent) : Prop where
  running : Running (handleCall s e)
  notified : NotifiesHandler s e → Test (handleCall s e).call.cstate cstateEst
  est : Test s.call.cstate cstateEst → Test (handleCall s e).call.cstate cstateEst
  flow : Test (handleCall s e).call.cstate cstateFlow →
    Test s.call.cstate cstateFlow ∨ NotifiesHandler s e

theorem Running.begins {s : CallRun} (h : CallBegins s) (hhandler : s.call.handler = true) :
    Running s := by
  refine ⟨?_, ?_, hhandler⟩
  · cases h <;> exact ⟨rfl, rfl, rfl, rfl, rfl⟩
  · cases h <;> rfl

theorem tcsipcallHangup_listed {s : CallRun} (h : s.freed = false) :
    (tcsipcallHangup s).listed = false := by
  unfold tcsipcallHangup
  rw [if_neg (by rw [h]; decide)]

/-- **A hangup.** -/
theorem ends_of_hangup {s u : CallRun} {e : CallEvent} (h : CallLive u) (hnot : NotifiesHandler s e)
    (heq : handleCall s e = tcsipcallHangup u) : Ends s e := by
  obtain ⟨hfreed, -, -, hdels, hentries⟩ := h
  refine ⟨hnot, ?_, ?_⟩
  · rw [heq]
    exact (tcsipcallHangup_notifies hfreed hdels hentries).2.1
  · rw [heq]
    exact tcsipcallHangup_listed hfreed

/-- **Activation.** -/
theorem goesOn_activate {s : CallRun} {e : CallEvent} {err : Bool} (h : Running s)
    (hnot : NotifiesHandler s e ↔ ¬ HasAll s.call.cstate (cstateFlow ||| cstateMedia))
    (heq : handleCall s e = tcsipcallActivate s err) : GoesOn s e := by
  have hlive := h.live.activate err
  have hest : ∀ m, Test (drop s.call.cstate cstateRing ||| cstateEst ||| m) cstateEst :=
    fun m => (test_or _ _ _).mpr (Or.inl (test_or_self (by decide)))
  have halive : ∀ m, Test (drop s.call.cstate cstateRing ||| cstateEst ||| m) cstateAlive :=
    fun m => test_mono (by decide) (hest m)
  rw [← heq] at hlive
  by_cases hall : HasAll s.call.cstate (cstateFlow ||| cstateMedia)
  · have hsame : handleCall s e = s := by
      rw [heq, tcsipcallActivate, if_pos hall]
    rw [hsame] at hlive
    refine ⟨?_, ?_, ?_, ?_⟩ <;> rw [hsame]
    · exact ⟨hlive, h.listed, h.handler⟩
    · exact fun hn => absurd hall (hnot.mp hn)
    · exact id
    · exact Or.inl
  · have hn := hnot.mpr hall
    -- the handler leaves an established call as it is
    have hcall : (handleCall s e).listed = true ∧ (handleCall s e).call.handler = true ∧
        Test (handleCall s e).call.cstate cstateEst := by
      rw [heq, tcsipcallActivate, if_neg hall]
      split
      · rw [callHandler_of_alive (halive _)]
        exact ⟨h.listed, h.handler, hest _⟩
      · rw [callHandler_of_alive (halive _)]
        exact ⟨h.listed, h.handler, hest _⟩
    exact ⟨⟨hlive, hcall.1, hcall.2.1⟩, fun _ => hcall.2.2, fun _ => hcall.2.2, fun _ => Or.inr hn⟩

/-- What an event that does not call the handler leaves. -/
structure Silent (s t : CallRun) : Prop where
  live : CallLive t
  listed : t.listed = s.listed
  handler : t.call.handler = s.call.handler
  est : Test s.call.cstate cstateEst → Test t.call.cstate cstateEst
  flow : Test t.call.cstate cstateFlow → Test s.call.cstate cstateFlow

theorem Silent.goesOn {s : CallRun} {e : CallEvent} (h : Silent s (handleCall s e))
    (hs : Running s) (hnot : ¬ NotifiesHandler s e) : GoesOn s e :=
  ⟨⟨h.live, h.listed.trans hs.listed, h.handler.trans hs.handler⟩, fun hn => absurd hn hnot, h.est,
    fun hf => Or.inl (h.flow hf)⟩

theorem silent_accept {s : CallRun} (h : CallLive s) (err : Bool) :
    Silent s (tcsipcallControl s .accept err) := by
  have hlive := h.accept err
  have hdrop : ∀ {n : CallState}, cstateRing &&& n = 0#32 →
      (Test (drop s.call.cstate cstateRing) n ↔ Test s.call.cstate n) :=
    fun hn => test_drop_of_disjoint hn
  unfold tcsipcallControl at hlive ⊢
  dsimp only at hlive ⊢
  split_ifs at hlive ⊢
  · exact ⟨hlive, rfl, rfl, id, id⟩
  · exact ⟨hlive, rfl, rfl, id, id⟩
  · exact ⟨hlive, rfl, rfl, (hdrop (by decide)).mpr, (hdrop (by decide)).mp⟩
  · refine ⟨hlive, rfl, rfl, fun _ => test_or_self (by decide), fun hf => ?_⟩
    exact (hdrop (by decide)).mp ((test_or_of_disjoint (by decide)).mp hf)
  · exact ⟨hlive, rfl, rfl, (hdrop (by decide)).mpr, (hdrop (by decide)).mp⟩

theorem silent_iceOk {s : CallRun} (h : CallLive s) (err : Bool) : Silent s (mediaIceOk s err) := by
  have hlive := h.iceOk err
  have hest : ∀ {x m : CallState}, Test x cstateEst → Test (x ||| m) cstateEst :=
    fun hx => (test_or _ _ _).mpr (Or.inl hx)
  have hflow : ∀ {x m : CallState}, m &&& cstateFlow = 0#32 → Test (x ||| m) cstateFlow →
      Test x cstateFlow := fun hm => (test_or_of_disjoint hm).mp
  unfold mediaIceOk at hlive ⊢
  dsimp only at hlive ⊢
  split
  · unfold tcsipcallSend at hlive ⊢
    split
    · next hout herr =>
        rw [hout] at hlive
        rw [herr] at hlive
        exact ⟨hlive, rfl, rfl, fun hx => hest (hest hx),
          fun hf => hflow (by decide) (hflow (by decide) hf)⟩
    · next hout herr =>
        rw [hout] at hlive
        rw [if_neg herr] at hlive
        exact ⟨hlive, rfl, rfl, fun hx => hest (hest hx),
          fun hf => hflow (by decide) (hflow (by decide) hf)⟩
  · split
    · have hs := silent_accept (s := { s with call := s.call.iceDone }) h err
      exact ⟨hs.live, hs.listed, hs.handler, fun hx => hs.est (hest hx),
        fun hf => hflow (by decide) (hs.flow hf)⟩
    · exact ⟨h, rfl, rfl, hest, hflow (by decide)⟩

/-- **Every event** ends the call, or the call goes on. -/
theorem ends_or_goesOn {s : CallRun} (h : Running s) (e : CallEvent) : Ends s e ∨ GoesOn s e := by
  cases e with
  | control action err =>
      by_cases haccept : action = .accept
      · subst haccept
        exact Or.inr ((silent_accept h.live err).goesOn h id)
      · obtain ⟨call, -, -, heq⟩ := tcsipcallControl_hangup s haccept err
        refine Or.inl (ends_of_hangup (u := { s with call := call }) h.live ?_ heq)
        cases action with
        | accept => exact absurd rfl haccept
        | reject => exact h.live.1
        | bye => exact h.live.1
  | iceOk err => exact Or.inr ((silent_iceOk h.live err).goesOn h id)
  | progress scode body err =>
      by_cases hearly : scode = 183 ∧ body = true
      · refine Or.inr (goesOn_activate h ?_ (if_pos hearly))
        exact ⟨fun hn => hn.2.2, fun hn => ⟨hearly.1, hearly.2, hn⟩⟩
      · have hsame : handleCall s (.progress scode body err) = s := if_neg hearly
        refine Or.inr (Silent.goesOn ?_ h fun hn => hearly ⟨hn.1, hn.2.1⟩)
        rw [hsame]
        exact ⟨h.live, rfl, rfl, id, id⟩
  | establish err => exact Or.inr (goesOn_activate h Iff.rfl rfl)
  | close => exact Or.inl (ends_of_hangup h.live h.live.1 rfl)
  | kaWarn => exact Or.inr (Silent.goesOn ⟨h.live, rfl, rfl, id, id⟩ h id)
  | kaFail => exact Or.inr (Silent.goesOn ⟨h.live, rfl, rfl, id, id⟩ h id)
  | expire => exact Or.inl (ends_of_hangup (u := { s with tmr := false }) h.live h.live.1 rfl)

/-! ## One event of the list -/

section Lists

variable {s t : Calls} {e : CallsEvent} {p : TcsipCall × CallEvent} {l : List TcsipCall}
  {c : TcsipCall} {f : CallRun → CallRun}

theorem mem_of_target (h : target s e = some p) : p.1 ∈ s.list := by
  cases e with
  | start laddr now user dest err handler => exact nomatch h
  | incoming date now user remote err acceptErr handler => exact nomatch h
  | control ckey action err =>
      obtain ⟨c, hfind, rfl⟩ := Option.map_eq_some_iff.mp h
      exact List.mem_of_find?_eq_some hfind
  | happens id e =>
      obtain ⟨c, hfind, rfl⟩ := Option.map_eq_some_iff.mp h
      exact List.mem_of_find?_eq_some hfind

/-- An event about a call. -/
theorem callsStep_target (h : target s e = some p) (hstep : callsStep s e = some t) :
    e.added s = none ∧ t = { s with list := onCall s.list p.1.id fun r => handleCall r p.2 } := by
  cases e with
  | start laddr now user dest err handler => exact nomatch h
  | incoming date now user remote err acceptErr handler => exact nomatch h
  | control ckey action err =>
      obtain ⟨c, hfind, rfl⟩ := Option.map_eq_some_iff.mp h
      obtain rfl := Option.some.inj hstep
      refine ⟨rfl, ?_⟩
      rw [tcsipCallControl, hfind]
      rfl
  | happens id e =>
      obtain ⟨c, hfind, rfl⟩ := Option.map_eq_some_iff.mp h
      have hid : c.id = id := by simpa using List.find?_some hfind
      obtain ⟨-, hnext⟩ := Option.ite_none_right_eq_some.mp hstep
      obtain rfl := Option.some.inj hnext
      rw [hid]
      exact ⟨rfl, rfl⟩

/-- Any other event. -/
theorem callsStep_no_target (h : target s e = none) (hstep : callsStep s e = some t) :
    t = tcsipcallAppend s (e.added s) := by
  cases e with
  | start laddr now user dest err handler => exact (Option.some.inj hstep).symm
  | incoming date now user remote err acceptErr handler => exact (Option.some.inj hstep).symm
  | control ckey action err =>
      obtain rfl := Option.some.inj hstep
      rw [tcsipCallControl, Option.map_eq_none_iff.mp h]
      rfl
  | happens id e =>
      obtain ⟨⟨c, hc, hid, -⟩, -⟩ := Option.ite_none_right_eq_some.mp hstep
      have hnone := List.find?_eq_none.mp (Option.map_eq_none_iff.mp h) c hc
      exact absurd (decide_eq_true hid) hnone

theorem added_id (h : e.added s = some c) : c.id = s.next := by
  cases e with
  | start laddr now user dest err handler =>
      obtain ⟨-, rfl⟩ := (Option.ite_none_right_eq_some.mp h).imp id Option.some.inj
      rfl
  | incoming date now user remote err acceptErr handler =>
      obtain rfl := Option.some.inj h
      rfl
  | control ckey action err => exact nomatch h
  | happens id e => exact nomatch h

theorem added_begins (h : e.added s = some c) : CallBegins c.run := by
  cases e with
  | start laddr now user dest err handler =>
      obtain ⟨-, rfl⟩ := (Option.ite_none_right_eq_some.mp h).imp id Option.some.inj
      exact .out err handler
  | incoming date now user remote err acceptErr handler =>
      obtain rfl := Option.some.inj h
      exact .incoming err acceptErr handler
  | control ckey action err => exact nomatch h
  | happens id e => exact nomatch h

/-- The list without the call. -/
abbrev without (l : List TcsipCall) (id : ℕ) : List TcsipCall :=
  l.filter fun d => decide (d.id ≠ id)

/-- The list after something happened to the call. -/
abbrev happening (l : List TcsipCall) (id : ℕ) (f : CallRun → CallRun) : List TcsipCall :=
  l.map fun d => if d.id = id then { d with run := f d.run } else d

theorem eq_of_id (hids : KeyedList.Keyed TcsipCall.id l) {d : TcsipCall} (hd : d ∈ l) (hc : c ∈ l)
    (h : d.id = c.id) : d = c :=
  List.inj_on_of_nodup_map hids hd hc h

/-- A call that ends leaves the list. -/
theorem onCall_ends (hids : KeyedList.Keyed TcsipCall.id l) (hl : ∀ d ∈ l, d.run.listed = true)
    (hc : c ∈ l) (hf : (f c.run).listed = false) : onCall l c.id f = without l c.id := by
  unfold onCall
  rw [List.filter_map]
  have hkept : (l.filter ((fun d : TcsipCall => d.run.listed) ∘
      fun d => if d.id = c.id then { d with run := f d.run } else d)) = without l c.id := by
    apply List.filter_congr
    intro d hd
    simp only [Function.comp]
    by_cases hid : d.id = c.id
    · rw [if_pos hid, eq_of_id hids hd hc hid, hf]
      simp
    · rw [if_neg hid, hl d hd]
      simp [hid]
  rw [hkept]
  refine (List.map_congr_left fun d hd => ?_).trans (List.map_id' _)
  exact if_neg (of_decide_eq_true (List.mem_filter.mp hd).2)

/-- A call that goes on stays where it is. -/
theorem onCall_goesOn (hids : KeyedList.Keyed TcsipCall.id l) (hl : ∀ d ∈ l, d.run.listed = true)
    (hc : c ∈ l) (hf : (f c.run).listed = true) : onCall l c.id f = happening l c.id f := by
  unfold onCall
  rw [List.filter_eq_self]
  intro d' hd'
  obtain ⟨d, hd, rfl⟩ := List.mem_map.mp hd'
  by_cases hid : d.id = c.id
  · rw [if_pos hid, eq_of_id hids hd hc hid]
    exact hf
  · rw [if_neg hid]
    exact hl d hd

theorem map_id_happening : (happening l c.id f).map TcsipCall.id = l.map TcsipCall.id := by
  rw [List.map_map]
  apply List.map_congr_left
  intro d _
  simp only [Function.comp]
  split <;> rfl

/-- The call is taken out, and put behind. -/
theorem map_id_without_perm (hids : KeyedList.Keyed TcsipCall.id l) (hc : c ∈ l) :
    ((without l c.id).map TcsipCall.id ++ [c.id]).Perm (l.map TcsipCall.id) := by
  have hmap : (without l c.id).map TcsipCall.id = (l.map TcsipCall.id).erase c.id := by
    rw [hids.erase_eq_filter, List.filter_map]
    congr 1
    apply List.filter_congr
    intro d _
    by_cases hid : d.id = c.id <;> simp [hid]
  rw [hmap]
  exact (List.perm_append_singleton c.id _).trans
    (List.perm_cons_erase (List.mem_map_of_mem hc)).symm

end Lists

/-! ## Every call is on the list or in the history -/

/-- The calls on the list run, those in the history have ended, and there are no others. -/
structure Account (calls : Calls) (ended : List TcsipCall) : Prop where
  running : ∀ c ∈ calls.list, Running c.run
  dead : ∀ c ∈ ended, ¬ Test c.run.call.cstate cstateAlive
  ids : (calls.list.map TcsipCall.id ++ ended.map TcsipCall.id).Perm (List.range calls.next)

theorem Account.keyed {calls : Calls} {ended : List TcsipCall} (h : Account calls ended) :
    KeyedList.Keyed TcsipCall.id calls.list :=
  (h.ids.nodup_iff.mpr List.nodup_range).of_append_left

theorem Account.listed {calls : Calls} {ended : List TcsipCall} (h : Account calls ended) :
    ∀ c ∈ calls.list, c.run.listed = true :=
  fun c hc => (h.running c hc).listed

theorem Account.lt {calls : Calls} {ended : List TcsipCall} (h : Account calls ended)
    {c : TcsipCall} (hc : c ∈ calls.list) : c.id < calls.next :=
  List.mem_range.mp (h.ids.mem_iff.mp (List.mem_append_left _ (List.mem_map_of_mem hc)))

theorem Account.lt_of_mem_ended {calls : Calls} {ended : List TcsipCall} (h : Account calls ended)
    {c : TcsipCall} (hc : c ∈ ended) : c.id < calls.next :=
  List.mem_range.mp (h.ids.mem_iff.mp (List.mem_append_right _ (List.mem_map_of_mem hc)))

/-- Reporting changes nothing but what was sent. -/
theorem report_frame {s t : Phone} {r : Option Report} (h : s.report r = some t) :
    t.calls = s.calls ∧ t.ended = s.ended ∧ t.client = s.client ∧ t.before = s.before := by
  cases r with
  | none =>
      obtain rfl := Option.some.inj h
      exact ⟨rfl, rfl, rfl, rfl⟩
  | some r =>
      obtain ⟨buf, -, rfl⟩ := Option.map_eq_some_iff.mp h
      unfold Phone.writeFd
      split <;> exact ⟨rfl, rfl, rfl, rfl⟩

/-- A report goes to the client that is connected. -/
theorem sent_of_report {s t : Phone} {r : Report} (hwrite : ∃ e, r.write = some e ∧ r.Framed e)
    (hr : s.report (some r) = some t) (hclient : t.client = true) :
    s.client = true ∧ ∃ e, r.Framed e ∧ t.sent = s.sent ++ e := by
  obtain ⟨e, he, hframed⟩ := hwrite
  obtain ⟨buf, hbuf, rfl⟩ := Option.map_eq_some_iff.mp hr
  obtain rfl := Option.some.inj (he.symm.trans hbuf)
  unfold Phone.writeFd at hclient ⊢
  split_ifs at hclient ⊢ with hconn
  · exact ⟨hconn, e, hframed, rfl⟩
  · exact absurd hclient hconn

theorem callsReport_cases {s : Calls} {e : CallsEvent} {dname user : List Byte} {r : Report}
    (h : callsReport s e dname user = some r) :
    (∃ c, r = callReport c dname user) ∨ ∃ c, r = changeReport c := by
  unfold callsReport at h
  cases hadded : e.added s with
  | some c =>
      rw [hadded] at h
      obtain ⟨-, hr⟩ := Option.ite_none_right_eq_some.mp h
      exact Or.inl ⟨c, (Option.some.inj hr).symm⟩
  | none =>
      rw [hadded] at h
      obtain ⟨c, -, rfl⟩ := Option.map_eq_some_iff.mp h
      exact Or.inr ⟨c, rfl⟩

/-- The call after what happened to it. -/
abbrev after (p : TcsipCall × CallEvent) : TcsipCall := { p.1 with run := handleCall p.1.run p.2 }

section Target

variable {s : Calls} {e : CallsEvent} {p : TcsipCall × CallEvent}

theorem bind_changed_of_notifies (h : target s e = some p) (hrun : Running p.1.run)
    (hnot : NotifiesHandler p.1.run p.2) : (target s e).bind changed = some (after p) := by
  rw [h, Option.bind_some]
  exact if_pos ⟨hrun.handler, hnot⟩

theorem bind_changed_of_not (h : target s e = some p) (hnot : ¬ NotifiesHandler p.1.run p.2) :
    (target s e).bind changed = none := by
  rw [h, Option.bind_some]
  exact if_neg fun hn => hnot hn.2

theorem callsEnded_of_ends (h : target s e = some p) (hrun : Running p.1.run)
    (hends : Ends p.1.run p.2) : callsEnded s e = [after p] := by
  unfold callsEnded
  rw [bind_changed_of_notifies h hrun hends.notifies, Option.filter_some,
    if_pos (by rw [tcsipCallHistory, if_neg hends.dead]; rfl)]
  rfl

theorem callsEnded_of_goesOn (h : target s e = some p) (hrun : Running p.1.run)
    (hgoes : GoesOn p.1.run p.2) : callsEnded s e = [] := by
  unfold callsEnded
  by_cases hnot : NotifiesHandler p.1.run p.2
  · have halive : Test (after p).run.call.cstate cstateAlive :=
      test_mono (by decide) (hgoes.notified hnot)
    rw [bind_changed_of_notifies h hrun hnot, Option.filter_some,
      if_neg (by rw [tcsipCallHistory, if_pos halive]; decide)]
    rfl
  · rw [bind_changed_of_not h hnot]
    rfl

end Target

/-- **A call that begins** is put on the list. -/
theorem Account.append {calls : Calls} {ended : List TcsipCall} (h : Account calls ended)
    {e : CallsEvent} (hhandler : ∀ c ∈ e.added calls, c.run.call.handler = true) :
    Account (tcsipcallAppend calls (e.added calls)) ended := by
  cases hadded : e.added calls with
  | none => exact h
  | some c =>
      refine ⟨fun d hd => ?_, h.dead, ?_⟩
      · rcases List.mem_append.mp hd with hd | hd
        · exact h.running d hd
        · obtain rfl := List.mem_singleton.mp hd
          exact .begins (added_begins hadded) (hhandler d hadded)
      · show ((calls.list ++ [c]).map TcsipCall.id ++ ended.map TcsipCall.id).Perm
          (List.range (calls.next + 1))
        rw [List.map_append, List.map_singleton, added_id hadded, List.range_succ,
          List.append_assoc, List.singleton_append]
        exact List.perm_middle.trans ((h.ids.cons _).trans (List.perm_append_singleton _ _).symm)

/-- **A call that ends** goes to the history. -/
theorem Account.ends {calls : Calls} {ended : List TcsipCall} (h : Account calls ended)
    {p : TcsipCall × CallEvent} (hmem : p.1 ∈ calls.list) (hends : Ends p.1.run p.2) :
    Account { calls with list := without calls.list p.1.id } (ended ++ [after p]) := by
  refine ⟨fun d hd => h.running d (List.mem_filter.mp hd).1, fun d hd => ?_, ?_⟩
  · rcases List.mem_append.mp hd with hd | hd
    · exact h.dead d hd
    · obtain rfl := List.mem_singleton.mp hd
      exact hends.dead
  · have hperm := (map_id_without_perm h.keyed hmem).append_right (ended.map TcsipCall.id)
    refine List.Perm.trans ?_ (hperm.trans h.ids)
    rw [List.map_append, List.map_singleton, List.append_assoc]
    exact List.perm_append_comm.append_left _

/-- **A call that goes on** stays. -/
theorem Account.goesOn {calls : Calls} {ended : List TcsipCall} (h : Account calls ended)
    {p : TcsipCall × CallEvent} (hmem : p.1 ∈ calls.list) (hgoes : GoesOn p.1.run p.2) :
    Account { calls with list := happening calls.list p.1.id fun r => handleCall r p.2 } ended := by
  refine ⟨fun d' hd' => ?_, h.dead, ?_⟩
  · obtain ⟨d, hd, rfl⟩ := List.mem_map.mp hd'
    split
    · next hid =>
        rw [eq_of_id h.keyed hd hmem hid]
        exact hgoes.running
    · exact h.running d hd
  · dsimp only
    rw [map_id_happening]
    exact h.ids

/-- **One event** keeps the account. -/
theorem account_step (s : Phone) (e : PhoneEvent) (t : Phone) (h : Account s.calls s.ended)
    (hC : Handled s e) (hstep : phoneStep s e = some t) : Account t.calls t.ended := by
  cases e with
  | accept =>
      unfold phoneStep at hstep
      split_ifs at hstep <;> obtain rfl := Option.some.inj hstep <;> exact h
  | eof =>
      obtain ⟨-, ht⟩ := Option.ite_none_right_eq_some.mp hstep
      obtain rfl := Option.some.inj ht
      exact h
  | report r =>
      have hframe : s.report (some r) = some t := hstep
      obtain ⟨hcalls, hended, -, -⟩ := report_frame hframe
      rwa [hcalls, hended]
  | calls e dname user =>
      obtain ⟨calls, hcalls, hreport⟩ := Option.bind_eq_some_iff.mp hstep
      obtain ⟨htcalls, htended, -, -⟩ := report_frame hreport
      rw [htcalls, htended]
      dsimp only
      cases htarget : target s.calls e with
      | none =>
          have hnil : callsEnded s.calls e = [] := by
            unfold callsEnded
            rw [htarget]
            rfl
          obtain rfl := callsStep_no_target htarget hcalls
          rw [hnil, List.append_nil]
          exact h.append hC.1
      | some p =>
          have hmem := mem_of_target htarget
          have hrun := h.running p.1 hmem
          obtain ⟨-, rfl⟩ := callsStep_target htarget hcalls
          rcases ends_or_goesOn hrun p.2 with hends | hgoes
          · rw [callsEnded_of_ends htarget hrun hends,
              onCall_ends h.keyed h.listed hmem hends.listed]
            exact h.ends hmem hends
          · rw [callsEnded_of_goesOn htarget hrun hgoes, List.append_nil,
              onCall_goesOn h.keyed h.listed hmem hgoes.running.listed]
            exact h.goesOn hmem hgoes

theorem account_init : Account Phone.init.calls Phone.init.ended :=
  ⟨fun _ hc => absurd hc List.not_mem_nil, fun _ hc => absurd hc List.not_mem_nil, .refl _⟩

/-- **No call is lost.**  After any run of the driver, each call that ever began is on the list, and
has not ended, or it was passed to `history_add` when it had ended: one of the two, and once. -/
theorem calls_accounted {es : List PhoneEvent} (hmeet : StepsMeet phoneStep Handled .init es)
    {t : Phone} (hrun : run phoneStep .init es = some t) :
    (∀ c ∈ t.calls.list, c.run.freed = false) ∧
      (∀ c ∈ t.ended, ∃ event, tcsipCallHistory c.run.call = some event) ∧
      (t.calls.list.map TcsipCall.id ++ t.ended.map TcsipCall.id).Perm
        (List.range t.calls.next) := by
  have h : Account t.calls t.ended :=
    run_invariant phoneStep (I := fun s => Account s.calls s.ended) account_step account_init
      hmeet hrun
  refine ⟨fun c hc => (h.running c hc).live.1, fun c hc => ?_, h.ids⟩
  rw [tcsipCallHistory, if_neg (h.dead c hc)]
  exact ⟨_, rfl⟩

/-- An outgoing call that is answered, and ended by the peer. -/
theorem calls_accounted_answered :
    ∃ t, run phoneStep .init
        [.calls (.start true 1400000000 (lit "sip:alice@x") (lit "sip:bob@x") false true) [] [],
          .calls (.happens 0 (.iceOk false)) [] [], .calls (.happens 0 (.establish false)) [] [],
          .calls (.happens 0 .close) [] []] = some t ∧
      (t.calls.list.map TcsipCall.id ++ t.ended.map TcsipCall.id).Perm
        (List.range t.calls.next) := by
  have hsome : (run phoneStep .init
      [.calls (.start true 1400000000 (lit "sip:alice@x") (lit "sip:bob@x") false true) [] [],
        .calls (.happens 0 (.iceOk false)) [] [], .calls (.happens 0 (.establish false)) [] [],
        .calls (.happens 0 .close) [] []]).isSome := by decide +kernel
  obtain ⟨t, hrun⟩ := Option.isSome_iff_exists.mp hsome
  exact ⟨t, hrun, (calls_accounted (by decide +kernel) hrun).2.2⟩

end CallReports
