/-
# What a control client knows of the calls

The control client is told of a call when it is put on the list, when it is established, and when
it has ended.  The reports go to whoever is connected at the time, and nowhere if nobody is.

A client that reads the arrays one after the other, and keeps a list of its own by their keys, has
at any time exactly the calls that began since it connected and are on the list, as long as keys
identify calls (`shows_calls`).
-/
import Tcsip.CallReports

open Flags Msgpack Runs

namespace CallReports

/-! ## The list of a control client -/

/-- It is no report of a call, its strings are there, and its lists can be counted. -/
def OtherReport : Report → Prop
  | .callChange _ _ _ | .call _ _ _ _ _ _ => False
  | r => r.NonNull ∧ r.Countable

instance decidableOtherReport : ∀ r, Decidable (OtherReport r)
  | .callChange _ _ _ | .call _ _ _ _ _ _ => isFalse id
  | .reg _ | .up _ _ _ | .cert _ _ _ | .lp _ _ | .msg _ _ _ _ _ | .signup _ _ | .hist _ _ _ |
    .ctlist _ _ | .histel _ _ _ => inferInstanceAs (Decidable (_ ∧ _))

/-- A call that begins has a key that no call on the list has, and that a raw can hold. -/
def Distinct (s : Phone) : PhoneEvent → Prop
  | .calls e _ _ => BeginsApart s.calls e ∧
      ∀ c ∈ e.added s.calls, (tcsipcallKey c).length < 2 ^ 32
  | .report r => OtherReport r
  | .accept | .eof => True

instance decidableDistinct (s : Phone) : ∀ e, Decidable (Distinct s e)
  | .calls e _ _ => inferInstanceAs (Decidable
      ((∀ c ∈ e.added s.calls, ∀ d ∈ s.calls.list,
        d.sec.bmod (2 ^ 32) ≠ c.sec.bmod (2 ^ 32) ∨ d.route ≠ c.route) ∧ _))
  | .report r => inferInstanceAs (Decidable (OtherReport r))
  | .accept | .eof => isTrue trivial

/-- Keys of calls, and whether they were reported as established. -/
abbrev Ui := List (List Byte × Bool)

/-- What a report says about the calls. -/
def Ui.update (ui : Ui) : Obj → Ui
  | .array (.raw name :: .raw key :: _) =>
    if name = bytes (lit "sip.call.add") then ui ++ [(key, false)]
    else if name = bytes (lit "sip.call.est") then
      ui.map fun p => if p.1 = key then (key, true) else p
    else if name = bytes (lit "sip.call.del") then ui.filter fun p => decide (p.1 ≠ key)
    else ui
  | _ => ui

/-- The entry is that of the call: one that is shown as established is, and one with media is
shown so. -/
structure Shows (c : TcsipCall) (p : List Byte × Bool) : Prop where
  key : p.1 = bytes (tcsipcallKey c)
  est : p.2 = true → Test c.run.call.cstate cstateEst
  flow : Test c.run.call.cstate cstateFlow → p.2 = true

/-! ## What the control client has read -/

/-- The client has read so much, and knows of these calls. -/
def Knows (sent : List Byte) (ui : Ui) : Prop :=
  ∃ obs, ReportsHeard sent obs ∧ obs.foldl Ui.update [] = ui

theorem Knows.reads {sent : List Byte} {ui : Ui} (h : Knows sent ui) :
    ∃ objs, Reads (Unpacker.fresh.feed sent) objs .fresh ∧ objs.foldl Ui.update [] = ui := by
  obtain ⟨obs, hheard, hui⟩ := h
  exact ⟨obs, hheard.reads, hui⟩

theorem nonNull_callReport (c : TcsipCall) (dname user : List Byte) :
    (callReport c dname user).NonNull := Option.some_ne_none _

theorem nonNull_changeReport (c : TcsipCall) : (changeReport c).NonNull := Option.some_ne_none _

/-- What the client knows after a report. -/
def Ui.hear (ui : Ui) (r : Report) : Ui :=
  match r.elements with
  | none => ui
  | some obs => ui.update (.array obs)

theorem Knows.report {s t : Phone} {ui : Ui} {r : Report} (h : Knows s.sent ui)
    (hclient : s.client = true) (hnull : r.NonNull) (hcount : r.Countable)
    (hr : s.report (some r) = some t) : Knows t.sent (ui.hear r) := by
  obtain ⟨buf, hbuf, rfl⟩ := Option.map_eq_some_iff.mp hr
  obtain ⟨obs, hheard, hui⟩ := h
  have hwritten : (s.writeFd buf).sent = s.sent ++ buf := by rw [Phone.writeFd, if_pos hclient]
  refine ⟨_, hwritten ▸ hheard.write hnull hcount hbuf, ?_⟩
  rw [List.foldl_append, hui]
  unfold Ui.hear
  cases r.elements <;> rfl

/-- Other reports have a number where those of calls have the key. -/
theorem hear_other {ui : Ui} {r : Report} (h : OtherReport r) : ui.hear r = ui := by
  cases r with
  | callChange ckey cstate reason => exact h.elim
  | call ckey cdir cstate ts dname user => exact h.elim
  | reg state => rfl
  | up op uri ok => rfl
  | msg ts idx auri data state =>
      show ui.update (.array [if state < 0 then litOf "msg.in" else litOf "msg.out", intOf ts, _, _,
        _, _]) = ui
      split <;> rfl
  | cert err name uri => rfl
  | lp err token => rfl
  | signup err elist => rfl
  | hist err idx hlist => rfl
  | ctlist err l => rfl
  | histel err op hel => rfl

theorem hear_callReport {ui : Ui} {c : TcsipCall} (h : (tcsipcallKey c).length < 2 ^ 32)
    (dname user : List Byte) :
    ui.hear (callReport c dname user) = ui ++ [(bytes (tcsipcallKey c), false)] := by
  have hel : (callReport c dname user).elements = some [litOf "sip.call.add",
      strOf (some (tcsipcallKey c)), intOf (dirCode c.run.call.cdir), intOf c.run.call.cstate.toInt,
      intOf c.sec, rawOf dname, rawOf user] := rfl
  unfold Ui.hear
  rw [hel, strOf_of_lt h]
  rfl

theorem hear_changeReport_dead {ui : Ui} {c : TcsipCall} (h : (tcsipcallKey c).length < 2 ^ 32)
    (hdead : ¬ Test c.run.call.cstate cstateAlive) :
    ui.hear (changeReport c) = ui.filter fun p => decide (p.1 ≠ bytes (tcsipcallKey c)) := by
  have hel : (changeReport c).elements = some [litOf "sip.call.del",
      strOf (some (tcsipcallKey c)), intOf (endCode c.run.call.reason)] := if_pos (not_not.mp hdead)
  unfold Ui.hear
  rw [hel, strOf_of_lt h]
  rfl

theorem hear_changeReport_est {ui : Ui} {c : TcsipCall} (h : (tcsipcallKey c).length < 2 ^ 32)
    (hest : Test c.run.call.cstate cstateEst) :
    ui.hear (changeReport c) = ui.map fun p =>
      if p.1 = bytes (tcsipcallKey c) then (bytes (tcsipcallKey c), true) else p := by
  have halive : Test c.run.call.cstate cstateAlive := test_mono (by decide) hest
  have hel : (changeReport c).elements = some [litOf "sip.call.est",
      strOf (some (tcsipcallKey c))] := (if_neg halive).trans (if_pos hest)
  unfold Ui.hear
  rw [hel, strOf_of_lt h]
  rfl

/-! ## The list of the control client is that of the driver -/

/-- The calls that began since then. -/
abbrev since (n : ℕ) (l : List TcsipCall) : List TcsipCall := l.filter fun c => decide (n ≤ c.id)

theorem since_without (n : ℕ) (l : List TcsipCall) (id : ℕ) :
    since n (without l id) = without (since n l) id := by
  unfold since without
  rw [List.filter_filter, List.filter_filter]
  apply List.filter_congr
  intro d _
  exact Bool.and_comm _ _

theorem since_happening (n : ℕ) (l : List TcsipCall) (id : ℕ) (f : CallRun → CallRun) :
    since n (happening l id f) = happening (since n l) id f := by
  rw [since, happening, List.filter_map]
  congr 1
  apply List.filter_congr
  intro d _
  simp only [Function.comp]
  split <;> rfl

section Shows

variable {l m : List TcsipCall} {c : TcsipCall} {ui : Ui}

/-- A call that ended is taken off both lists. -/
theorem shows_without (hids : KeyedList.Keyed TcsipCall.id l)
    (hkeys : KeyedList.Keyed tcsipcallKey l) (hc : c ∈ l) (hm : ∀ d ∈ m, d ∈ l)
    (h : List.Forall₂ Shows m ui) :
    List.Forall₂ Shows (without m c.id)
      (ui.filter fun p => decide (p.1 ≠ bytes (tcsipcallKey c))) := by
  have hfilter : without m c.id =
      m.filter fun d => decide (bytes (tcsipcallKey d) ≠ bytes (tcsipcallKey c)) := by
    apply List.filter_congr
    intro d hd
    rw [decide_eq_decide, Ne, Ne, bytes_inj, not_iff_not]
    constructor
    · intro hid
      rw [eq_of_id hids (hm d hd) hc hid]
    · intro hkey
      rw [List.inj_on_of_nodup_map hkeys (hm d hd) hc hkey]
  rw [hfilter]
  refine List.rel_filter ?_ h
  intro d p hp
  simp only [decide_eq_true_eq, hp.key]

/-- Something happened to a call, and the client was told or not. -/
theorem shows_happening {f : CallRun → CallRun} {g : List Byte × Bool → List Byte × Bool}
    (hids : KeyedList.Keyed TcsipCall.id l) (hc : c ∈ l) (hm : ∀ d ∈ m, d ∈ l)
    (h : List.Forall₂ Shows m ui) (hsame : ∀ p, Shows c p → Shows { c with run := f c.run } (g p))
    (hother : ∀ d ∈ l, d ≠ c → ∀ p, Shows d p → g p = p) :
    List.Forall₂ Shows (happening m c.id f) (ui.map g) := by
  rw [List.forall₂_map_left_iff, List.forall₂_map_right_iff]
  refine ((List.forall₂_and_left m ui).mpr ⟨hm, h⟩).imp ?_
  rintro d p ⟨hd, hp⟩
  by_cases hid : d.id = c.id
  · rw [if_pos hid]
    obtain rfl := eq_of_id hids hd hc hid
    exact hsame p hp
  · rw [if_neg hid, hother d hd (fun heq => hid (congrArg TcsipCall.id heq)) p hp]
    exact hp

end Shows

theorem not_flow_of_begins {s : CallRun} (h : CallBegins s) : ¬ Test s.call.cstate cstateFlow := by
  cases h with
  | out err handler => cases err <;> cases handler <;> decide
  | incoming err acceptErr handler => cases err <;> cases acceptErr <;> cases handler <;> decide

/-- A call that begins has no media. -/
theorem Shows.begins {c : TcsipCall} (h : CallBegins c.run) :
    Shows c (bytes (tcsipcallKey c), false) :=
  ⟨rfl, fun hf => Bool.noConfusion hf, fun hflow => absurd hflow (not_flow_of_begins h)⟩

/-- What the control client knows is right: it has the calls that began since it connected. -/
structure View (s : Phone) : Prop where
  account : Account s.calls s.ended
  keys : KeyedList.Keyed tcsipcallKey s.calls.list
  short : ∀ c ∈ s.calls.list, (tcsipcallKey c).length < 2 ^ 32
  before : s.before ≤ s.calls.next
  shows : s.client = true →
    ∃ ui, Knows s.sent ui ∧ List.Forall₂ Shows (since s.before s.calls.list) ui

/-- The key of a call does not change. -/
theorem tcsipcallKey_after (p : TcsipCall × CallEvent) :
    tcsipcallKey (after p) = tcsipcallKey p.1 := by
  unfold tcsipcallKey TcsipCall.route
  dsimp only
  rw [handleCall_cdir]

/-- The client has read what was reported, and it shows the calls on the list. -/
abbrev Shown (s : Phone) (l : List TcsipCall) : Prop :=
  ∃ ui, Knows s.sent ui ∧ List.Forall₂ Shows (since s.before l) ui

section Told

variable {s t : Phone} {e : CallsEvent} {dname user : List Byte} {calls : Calls}
  {ended : List TcsipCall}

/-- **The client is told of a call that begins.** -/
theorem shown_append (h : Shown s s.calls.list) (hclient : s.client = true)
    (hbefore : s.before ≤ s.calls.next)
    (hhandler : ∀ c ∈ e.added s.calls, c.run.call.handler = true)
    (hshort : ∀ c ∈ e.added s.calls, (tcsipcallKey c).length < 2 ^ 32)
    (htarget : target s.calls e = none)
    (hr : { s with calls := calls, ended := ended }.report (callsReport s.calls e dname user) =
      some t) : Shown t (tcsipcallAppend s.calls (e.added s.calls)).list := by
  obtain ⟨ui, hknows, hshows⟩ := h
  obtain ⟨-, -, -, htbefore⟩ := report_frame hr
  unfold Shown
  rw [htbefore]
  unfold callsReport at hr
  cases hadded : e.added s.calls with
  | none =>
      rw [hadded, htarget] at hr
      obtain rfl := Option.some.inj hr
      exact ⟨ui, hknows, hshows⟩
  | some c =>
      have hreport : { s with calls := calls, ended := ended }.report
          (some (callReport c dname user)) = some t := by
        rw [hadded] at hr
        dsimp only at hr
        rwa [if_pos (hhandler c hadded)] at hr
      have hknows' := Knows.report (s := { s with calls := calls, ended := ended }) hknows hclient
        (nonNull_callReport c dname user) trivial hreport
      rw [hear_callReport (hshort c hadded)] at hknows'
      refine ⟨_, hknows', ?_⟩
      show List.Forall₂ Shows (since s.before (s.calls.list ++ [c])) _
      have hsince : since s.before [c] = [c] := by
        rw [since, List.filter_singleton, added_id hadded, decide_eq_true hbefore]
        rfl
      rw [since, List.filter_append]
      rw [since] at hsince
      rw [hsince]
      exact List.rel_append hshows (.cons (.begins (added_begins hadded)) .nil)

variable {p : TcsipCall × CallEvent}

theorem callsReport_of_target (htarget : target s.calls e = some p)
    (hadded : e.added s.calls = none) :
    callsReport s.calls e dname user = (changed p).map changeReport := by
  unfold callsReport
  rw [hadded, htarget]
  rfl

/-- **The client is told of a call that ends.** -/
theorem shown_ends (h : Shown s s.calls.list) (hclient : s.client = true)
    (hview : View s) (hmem : p.1 ∈ s.calls.list) (hends : Ends p.1.run p.2)
    (hr : { s with calls := calls, ended := ended }.report ((changed p).map changeReport) =
      some t) : Shown t (without s.calls.list p.1.id) := by
  obtain ⟨ui, hknows, hshows⟩ := h
  obtain ⟨-, -, -, htbefore⟩ := report_frame hr
  have hchanged : changed p = some (after p) :=
    if_pos ⟨(hview.account.running p.1 hmem).handler, hends.notifies⟩
  rw [hchanged, Option.map_some] at hr
  have hknows' := Knows.report (s := { s with calls := calls, ended := ended }) hknows hclient
    (nonNull_changeReport _) trivial hr
  have hkey := tcsipcallKey_after p
  rw [hear_changeReport_dead (hkey ▸ hview.short p.1 hmem) hends.dead, hkey] at hknows'
  refine ⟨_, hknows', ?_⟩
  rw [htbefore, since_without]
  exact shows_without hview.account.keyed hview.keys hmem
    (fun d hd => (List.mem_filter.mp hd).1) hshows

/-- **The client is told when a call is established.** -/
theorem shown_goesOn (h : Shown s s.calls.list) (hclient : s.client = true)
    (hview : View s) (hmem : p.1 ∈ s.calls.list) (hgoes : GoesOn p.1.run p.2)
    (hr : { s with calls := calls, ended := ended }.report ((changed p).map changeReport) =
      some t) : Shown t (happening s.calls.list p.1.id fun r => handleCall r p.2) := by
  obtain ⟨ui, hknows, hshows⟩ := h
  obtain ⟨-, -, -, htbefore⟩ := report_frame hr
  have hm : ∀ d ∈ since s.before s.calls.list, d ∈ s.calls.list :=
    fun d hd => (List.mem_filter.mp hd).1
  have hkey := tcsipcallKey_after p
  unfold Shown
  rw [htbefore, since_happening]
  by_cases hnot : NotifiesHandler p.1.run p.2
  · have hchanged : changed p = some (after p) :=
      if_pos ⟨(hview.account.running p.1 hmem).handler, hnot⟩
    rw [hchanged, Option.map_some] at hr
    have hknows' := Knows.report (s := { s with calls := calls, ended := ended }) hknows hclient
      (nonNull_changeReport _) trivial hr
    rw [hear_changeReport_est (hkey ▸ hview.short p.1 hmem) (hgoes.notified hnot), hkey] at hknows'
    refine ⟨_, hknows', shows_happening hview.account.keyed hmem hm hshows ?_ ?_⟩
    · intro q hq
      rw [if_pos hq.key]
      exact ⟨congrArg bytes hkey.symm, fun _ => hgoes.notified hnot, fun _ => rfl⟩
    · intro d hd hne q hq
      refine if_neg fun heq => hne ?_
      exact List.inj_on_of_nodup_map hview.keys hd hmem (bytes_inj.mp (hq.key.symm.trans heq))
  · have hchanged : changed p = none := if_neg fun hn => hnot hn.2
    rw [hchanged] at hr
    obtain rfl := Option.some.inj hr
    refine ⟨ui, hknows, ?_⟩
    have hnext := shows_happening (f := fun r => handleCall r p.2) (g := fun q => q)
      hview.account.keyed hmem hm hshows ?_ fun _ _ _ _ _ => rfl
    · rwa [List.map_id'] at hnext
    · intro q hq
      exact ⟨hq.key.trans (congrArg bytes hkey.symm), fun hest => hgoes.est (hq.est hest),
        fun hflow => hq.flow ((hgoes.flow hflow).resolve_right hnot)⟩

/-- A client that connects has seen no call begin. -/
theorem View.accept (h : View s) :
    View { s with client := true, sent := [], before := s.calls.next } := by
  refine ⟨h.account, h.keys, h.short, le_rfl, fun _ => ⟨[], ⟨[], reportsHeard_nil, rfl⟩, ?_⟩⟩
  have hnil : since s.calls.next s.calls.list = [] := by
    rw [since, List.filter_eq_nil_iff]
    intro c hc
    have hlt := h.account.lt hc
    simp only [decide_eq_true_eq, not_le]
    exact hlt
  dsimp only
  rw [hnil]
  exact .nil

/-- Other reports change nothing. -/
theorem View.report (h : View s) {r : Report} (hother : OtherReport r)
    (hr : s.report (some r) = some t) : View t := by
  obtain ⟨hcalls, hended, hclient, hbefore⟩ := report_frame hr
  refine ⟨?_, hcalls ▸ h.keys, hcalls ▸ h.short, ?_, fun hconn => ?_⟩
  · rw [hcalls, hended]
    exact h.account
  · rw [hbefore, hcalls]
    exact h.before
  · rw [hclient] at hconn
    obtain ⟨ui, hknows, hshows⟩ := h.shows hconn
    have hfine : r.NonNull ∧ r.Countable := by
      cases r with
      | callChange ckey cstate reason => exact hother.elim
      | call ckey cdir cstate ts dname user => exact hother.elim
      | _ => exact hother
    have hknows' := hknows.report hconn hfine.1 hfine.2 hr
    rw [hear_other hother] at hknows'
    rw [hbefore, hcalls]
    exact ⟨ui, hknows', hshows⟩

/-- Keys stay short, and calls begin after those of before. -/
theorem View.frame (h : View s) (hshort : ∀ c ∈ e.added s.calls, (tcsipcallKey c).length < 2 ^ 32)
    (hcalls : callsStep s.calls e = some calls) :
    (∀ c ∈ calls.list, (tcsipcallKey c).length < 2 ^ 32) ∧ s.before ≤ calls.next := by
  cases htarget : target s.calls e with
  | none =>
      obtain rfl := callsStep_no_target htarget hcalls
      cases hadded : e.added s.calls with
      | none => exact ⟨h.short, h.before⟩
      | some d =>
          refine ⟨fun c hc => ?_, h.before.trans (Nat.le_succ _)⟩
          rcases List.mem_append.mp hc with hc | hc
          · exact h.short c hc
          · obtain rfl := List.mem_singleton.mp hc
            exact hshort c hadded
  | some p =>
      have hmem := mem_of_target htarget
      have hrun := h.account.running p.1 hmem
      obtain ⟨-, rfl⟩ := callsStep_target htarget hcalls
      rcases ends_or_goesOn hrun p.2 with hends | hgoes
      · rw [onCall_ends h.account.keyed h.account.listed hmem hends.listed]
        exact ⟨fun c hc => h.short c (List.mem_filter.mp hc).1, h.before⟩
      · rw [onCall_goesOn h.account.keyed h.account.listed hmem hgoes.running.listed]
        refine ⟨fun c' hc' => ?_, h.before⟩
        obtain ⟨c, hc, rfl⟩ := List.mem_map.mp hc'
        split
        · next hid =>
            rw [eq_of_id h.account.keyed hc hmem hid]
            exact (tcsipcallKey_after p).symm ▸ h.short p.1 hmem
        · exact h.short c hc

/-- What happens to the calls is shown. -/
theorem View.shown (h : View s) (hclient : s.client = true)
    (hhandler : ∀ c ∈ e.added s.calls, c.run.call.handler = true)
    (hshort : ∀ c ∈ e.added s.calls, (tcsipcallKey c).length < 2 ^ 32)
    (hcalls : callsStep s.calls e = some calls)
    (hr : { s with calls := calls, ended := ended }.report (callsReport s.calls e dname user) =
      some t) : Shown t calls.list := by
  cases htarget : target s.calls e with
  | none =>
      obtain rfl := callsStep_no_target htarget hcalls
      exact shown_append (h.shows hclient) hclient h.before hhandler hshort htarget hr
  | some p =>
      have hmem := mem_of_target htarget
      have hrun := h.account.running p.1 hmem
      obtain ⟨hadded, rfl⟩ := callsStep_target htarget hcalls
      rw [callsReport_of_target htarget hadded] at hr
      rcases ends_or_goesOn hrun p.2 with hends | hgoes
      · rw [onCall_ends h.account.keyed h.account.listed hmem hends.listed]
        exact shown_ends (h.shows hclient) hclient h hmem hends hr
      · rw [onCall_goesOn h.account.keyed h.account.listed hmem hgoes.running.listed]
        exact shown_goesOn (h.shows hclient) hclient h hmem hgoes hr

end Told

/-- **One event** keeps what the client knows right. -/
theorem view_step (s : Phone) (e : PhoneEvent) (t : Phone) (h : View s)
    (hC : Handled s e ∧ Distinct s e) (hstep : phoneStep s e = some t) : View t := by
  cases e with
  | accept =>
      unfold phoneStep at hstep
      split_ifs at hstep with hclient
      · obtain rfl := Option.some.inj hstep
        exact h
      · obtain rfl := Option.some.inj hstep
        exact h.accept
  | eof =>
      obtain ⟨-, ht⟩ := Option.ite_none_right_eq_some.mp hstep
      obtain rfl := Option.some.inj ht
      exact ⟨h.account, h.keys, h.short, h.before, fun hf => Bool.noConfusion hf⟩
  | report r => exact h.report hC.2 hstep
  | calls e dname user =>
      have haccount := account_step s _ t h.account hC.1 hstep
      obtain ⟨calls, hcalls, hreport⟩ := Option.bind_eq_some_iff.mp hstep
      obtain ⟨htcalls, -, htclient, htbefore⟩ := report_frame hreport
      have hkeys : KeyedList.Keyed tcsipcallKey calls.list :=
        ((keysIdentify_callsStep_iff (keysIdentify_iff.mpr h.keys) hcalls).mpr hC.2.1).1
      obtain ⟨hshort, hbefore⟩ := h.frame hC.2.2 hcalls
      refine ⟨haccount, htcalls ▸ hkeys, htcalls ▸ hshort, ?_, fun hconn => ?_⟩
      · rw [htbefore, htcalls]
        exact hbefore
      · rw [htclient] at hconn
        rw [htcalls]
        exact h.shown hconn hC.1.1 hC.2.2 hcalls hreport

theorem view_init : View .init :=
  ⟨account_init, List.nodup_nil, fun _ hc => absurd hc List.not_mem_nil, le_rfl,
    fun hf => Bool.noConfusion hf⟩

/-- **The control client has the calls.**  After any run of the driver in which keys of calls are
distinct, what was sent to the client that is connected is whole reports, and a client that reads
them in order and keeps a list of its own has in it exactly the calls that began since it
connected and are on the list, in their order. -/
theorem shows_calls {es : List PhoneEvent}
    (hmeet : StepsMeet phoneStep (fun s e => Handled s e ∧ Distinct s e) .init es) {t : Phone}
    (hrun : run phoneStep .init es = some t) (hclient : t.client = true) :
    ∃ objs, Reads (Unpacker.fresh.feed t.sent) objs .fresh ∧
      List.Forall₂ Shows (t.calls.list.filter fun c => decide (t.before ≤ c.id))
        (objs.foldl Ui.update []) := by
  have h : View t := run_invariant phoneStep view_step view_init hmeet hrun
  obtain ⟨ui, hknows, hshows⟩ := h.shows hclient
  obtain ⟨objs, hreads, rfl⟩ := hknows.reads
  exact ⟨objs, hreads, hshows⟩

/-- Alice calls Bob, and Carol calls Alice while they talk; then Bob hangs up. -/
def twoCalls : List PhoneEvent :=
  [.accept,
    .calls (.start true 1400000000 (lit "sip:alice@x") (lit "sip:bob@x") false true) []
      (bytes (lit "bob")),
    .calls (.happens 0 (.iceOk false)) [] [], .calls (.happens 0 (.establish false)) [] [],
    .report (.reg 1),
    .calls (.incoming 0 1400000007 (lit "sip:alice@x") (lit "sip:carol@x") false false true) []
      (bytes (lit "carol")),
    .calls (.happens 0 .close) [] []]

theorem shows_calls_twoCalls :
    ∃ t, run phoneStep .init twoCalls = some t ∧ ∃ objs,
      Reads (Unpacker.fresh.feed t.sent) objs .fresh ∧
        List.Forall₂ Shows (t.calls.list.filter fun c => decide (t.before ≤ c.id))
          (objs.foldl Ui.update []) := by
  have hclient : (run phoneStep .init twoCalls).map Phone.client = some true := by decide +kernel
  obtain ⟨t, hrun, hconn⟩ := Option.map_eq_some_iff.mp hclient
  exact ⟨t, hrun, shows_calls (by decide +kernel) hrun hconn⟩

end CallReports
