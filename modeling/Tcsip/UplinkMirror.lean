/-
# What a control client knows of the uplinks

With each response to a REGISTER the contacts it lists are compared with those of the response
before, and what comes, stays and goes is reported to the control client that is connected at the
time.  A response that is missing lists nothing.

A client that reads the arrays one after the other, and sets and removes uplinks by their uris,
has those of the latest response as soon as it has seen one, whenever it connected.  What it has
besides is told exactly (`shows_uplinks`): an uplink that is no longer listed stays if another one
was listed in its bucket when it went.
-/
import Tcsip.Registration
import Tcsip.Report
import Tcsip.Uplinks

open Buckets Msgpack Runs

namespace UplinkMirror

/-! ## Contacts -/

/-- `struct sip_addr`, what is read of it. -/
structure ContactAddr where
  auri : Text
  params : Text

section contacts

variable (sipAddrDecode : Text → Option ContactAddr) (sipParamExists : Text → Bool)
  (sipParamDecode : Text → Option Text)

/-- `find_uplink` for the value of a header; the parameter that is looked for is `uplink`, and
its value is empty if it cannot be decoded. -/
def findUplink (val : Text) : Option Uplink :=
  match sipAddrDecode val with
  | none => none
  | some addr =>
    if sipParamExists addr.params then
      let state := (sipParamDecode addr.params).getD []
      some { uri := addr.auri, ok := decide (state.length = 0) }
    else none

/-- `tcsreg_contacts`: the list that the handler gets.  A missing message has no headers. -/
def tcsregContacts (msg : Option (List Text)) : List Uplink :=
  (msg.getD []).filterMap (findUplink sipAddrDecode sipParamExists sipParamDecode)

/-! ## Responses and reports -/

/-- The registration and the uplinks; whether a control client is connected, what it was sent
since then, and the lists of the responses since then, the latest one first. -/
structure Registrar where
  reg : TcsipReg
  ups : Tcuplinks
  client : Bool
  sent : List Byte
  since : List (List Uplink)

/-- Nothing registered yet, and nobody connected. -/
def Registrar.init : Registrar := ⟨tcsipregAlloc, tcuplinksAlloc true, false, [], []⟩

/-- `write_fd` -/
def Registrar.writeFd (s : Registrar) (buf : List Byte) : Registrar :=
  if s.client then { s with sent := s.sent ++ buf } else s

/-- Reports, one after the other. -/
def Registrar.report (s : Registrar) : List Report → Option Registrar
  | [] => some s
  | r :: rs => r.write.bind fun buf => (s.writeFd buf).report rs

/-- `report_reg` -/
def regReport (state : RegState) : Report := .reg state.toInt

/-- `report_up` -/
def upReport (e : UplinkEvent) : Report := .up e.2 (bytes e.1.uri) (if e.1.ok then 1 else 0)

/-- A control client connects, or is gone; a response or an error comes, with the values of the
contact headers; the state of the registration is set; or something else is reported. -/
inductive LinkEvent where
  | accept
  | eof
  | response (err : Bool) (msg : Option (ℕ × List Text))
  | state (cmd : RegCmd) (err : Bool)
  | report (r : Report)

/-- `register_handler`. -/
def registerHandler (s : Registrar) (err : Bool) (msg : Option (ℕ × List Text)) :
    Option Registrar := do
  let reg := tcsregResponse s.reg (registerStatus err (msg.map Prod.fst))
  let upl := tcsregContacts sipAddrDecode sipParamExists sipParamDecode (msg.map Prod.snd)
  let s ← { s with reg := reg.1 }.report (reg.2.map regReport)
  let ups ← uplinkUpd s.ups upl
  { s with ups := ups.1, since := upl :: s.since }.report (ups.2.map upReport)

/-- An event of the registration, with the reports that it writes to the control client. -/
def linkStep (s : Registrar) : LinkEvent → Option Registrar
  | .accept => if s.client then some s else some { s with client := true, sent := [], since := [] }
  | .eof => if s.client then some { s with client := false } else none
  | .response err msg => registerHandler sipAddrDecode sipParamExists sipParamDecode s err msg
  | .state cmd err =>
    let reg := tcsregState s.reg cmd err
    { s with reg := reg.1 }.report (reg.2.map regReport)
  | .report r => s.report [r]

/-- It is a report of an uplink. -/
def isUp : Report → Bool
  | .up _ _ _ => true
  | _ => false

/-- It is another report, its strings are there, and its lists can be counted. -/
def OtherReport (r : Report) : Prop := isUp r = false ∧ r.NonNull ∧ r.Countable

/-- The uris fit in a raw. -/
def Short (l : List Uplink) : Prop := ∀ up ∈ l, up.uri.length < 2 ^ 32

instance (l : List Uplink) : Decidable (Short l) :=
  inferInstanceAs (Decidable (∀ up ∈ l, up.uri.length < 2 ^ 32))

/-- A client leaves only when there is one, and what is reported can be. -/
def Reportable (s : Registrar) : LinkEvent → Prop
  | .eof => s.client = true
  | .response _ msg =>
    Short (tcsregContacts sipAddrDecode sipParamExists sipParamDecode (msg.map Prod.snd))
  | .report r => OtherReport r
  | .accept | .state _ _ => True

instance decidableReportable (s : Registrar) :
    ∀ e, Decidable (Reportable sipAddrDecode sipParamExists sipParamDecode s e)
  | .eof => inferInstanceAs (Decidable (_ = true))
  | .response _ _ => inferInstanceAs (Decidable (Short _))
  | .report _ => inferInstanceAs (Decidable (_ ∧ _ ∧ _))
  | .accept | .state _ _ => isTrue trivial

end contacts

/-! ## The uplinks of a control client -/

/-- What a control client shows: whether the uplink with a uri is there, and what was told of
it last. -/
abbrev LinkUi := List Byte → Option ℤ

/-- What a report says about the uplinks. -/
def LinkUi.update (ui : LinkUi) : Obj → LinkUi
  | .array [.raw name, .integer op, .raw uri] =>
    if name = bytes (lit "sip.up") ∧ op = 0 then Function.update ui uri none else ui
  | .array [.raw name, .integer op, .raw uri, .integer ok] =>
    if name = bytes (lit "sip.up") ∧ op ≠ 0 then Function.update ui uri (some ok) else ui
  | _ => ui

/-- The state of the last uplink of a list with this uri. -/
def okOf (l : List Uplink) (uri : Text) : Option Bool :=
  (l.reverse.find? fun up => decide (up.uri = uri)).map Uplink.ok

/-- The number that a report has for `ok`. -/
def okCode (ok : Bool) : ℤ := if ok then 1 else 0

/-- The uplink was listed by one of the responses, with this state, and by none after it; and if
there is one after it, the first one listed an uplink in the same bucket. -/
def ShownSince (since : List (List Uplink)) (uri : Text) (ok : Bool) : Prop :=
  ∃ later l earlier, since = later ++ l :: earlier ∧ okOf l uri = some ok ∧
    (∀ m ∈ later, uri ∉ uris m) ∧ ∀ m ∈ later.getLast?, SharesBucket m ⟨uri, ok⟩

theorem okOf_eq_none_iff {l : List Uplink} {uri : Text} : okOf l uri = none ↔ uri ∉ uris l := by
  unfold okOf uris
  simp only [Option.map_eq_none_iff, List.find?_eq_none, List.mem_reverse, decide_eq_true_eq,
    List.mem_map, not_exists, not_and]

/-! ## One response after the other -/

/-- The same from response to response: what is listed is shown, and of the rest what was not in
the list before, or shares a bucket. -/
def shownBy : List (List Uplink) → Text → Option Bool
  | [], _ => none
  | l :: ls, uri =>
    if uri ∈ uris l then okOf l uri
    else if uri ∈ uris (ls.headD []) ∧ ¬ SharesBucket l ⟨uri, true⟩ then none
    else shownBy ls uri

theorem shownBy_cons (l : List Uplink) (ls : List (List Uplink)) (uri : Text) :
    shownBy (l :: ls) uri = if uri ∈ uris l then okOf l uri
      else if uri ∈ uris (ls.headD []) ∧ ¬ SharesBucket l ⟨uri, true⟩ then none
      else shownBy ls uri := rfl

theorem shownBy_eq_some_iff {since : List (List Uplink)} {uri : Text} {ok : Bool} :
    shownBy since uri = some ok ↔ ShownSince since uri ok := by
  induction since with
  | nil =>
    refine iff_of_false (fun h => absurd h nofun) ?_
    rintro ⟨later, l, earlier, h, -⟩
    exact absurd h (by simp)
  | cons l ls ih =>
    rw [shownBy_cons]
    by_cases hl : uri ∈ uris l
    · -- the latest response decides
      rw [if_pos hl]
      constructor
      · exact fun hok => ⟨[], l, ls, rfl, hok, nofun, nofun⟩
      · rintro ⟨later, m, earlier, heq, hok, hlater, -⟩
        cases later with
        | nil =>
          obtain ⟨rfl, -⟩ := List.cons.inj heq
          exact hok
        | cons l' later =>
          obtain ⟨rfl, -⟩ := List.cons.inj heq
          exact absurd hl (hlater l List.mem_cons_self)
    rw [if_neg hl]
    have hnone : ¬ okOf l uri = some ok := by
      rw [okOf_eq_none_iff.mpr hl]
      exact nofun
    have hcons : ShownSince (l :: ls) uri ok ↔ ShownSince ls uri ok ∧
        (uri ∈ uris (ls.headD []) → SharesBucket l ⟨uri, ok⟩) := by
      constructor
      · rintro ⟨later, m, earlier, heq, hok, hlater, hlast⟩
        cases later with
        | nil =>
          obtain ⟨rfl, -⟩ := List.cons.inj heq
          exact absurd hok hnone
        | cons l' later =>
          obtain ⟨rfl, rfl⟩ := List.cons.inj heq
          have hlater' := fun m hm => hlater m (List.mem_cons_of_mem _ hm)
          cases later with
          | nil => exact ⟨⟨[], m, earlier, rfl, hok, nofun, nofun⟩, fun _ => hlast l rfl⟩
          | cons m' later =>
            refine ⟨⟨m' :: later, m, earlier, rfl, hok, hlater', fun x hx => hlast x ?_⟩,
              fun hmem => absurd hmem (hlater' m' List.mem_cons_self)⟩
            rw [List.getLast?_cons_cons]
            exact hx
      · rintro ⟨⟨later, m, earlier, rfl, hok, hlater, hlast⟩, hmeets⟩
        refine ⟨l :: later, m, earlier, rfl, hok, ?_, fun x hx => ?_⟩
        · rintro x (_ | ⟨_, hx⟩)
          · exact hl
          · exact hlater x hx
        · cases later with
          | nil =>
            obtain rfl : l = x := by simpa using hx
            apply hmeets
            show uri ∈ uris m
            by_contra hnot
            rw [okOf_eq_none_iff.mpr hnot] at hok
            exact absurd hok nofun
          | cons m' later =>
            rw [List.getLast?_cons_cons] at hx
            exact hlast x hx
    rw [hcons, ← ih]
    split
    · next hgone => exact iff_of_false nofun fun h => hgone.2 (h.2 hgone.1)
    · next hstays =>
      refine (and_iff_left fun hmem => ?_).symm
      by_contra hnot
      exact hstays ⟨hmem, hnot⟩

/-! ## What the client hears of one response -/

/-- What an event says. -/
def LinkUi.hear (ui : LinkUi) (e : UplinkEvent) : LinkUi :=
  Function.update ui (bytes e.1.uri) (if e.2 = 0 then none else some (okCode e.1.ok))

theorem update_upReport (ui : LinkUi) {e : UplinkEvent} (hop : e.2 ≤ 2)
    (hshort : e.1.uri.length < 2 ^ 32) :
    ((upReport e).elements.map Obj.array).toList.foldl LinkUi.update ui = ui.hear e := by
  obtain ⟨⟨uri, ok⟩, op⟩ := e
  have huri : rawOf (bytes uri) = .raw (bytes uri) :=
    rawOf_of_lt ((List.length_map _).trans_lt hshort)
  have hel : (upReport (⟨uri, ok⟩, op)).elements = some ([litOf "sip.up", intOf op,
      .raw (bytes uri)] ++ if (op : ℤ) ≠ 0 then [intOf (okCode ok)] else []) := by
    rw [← huri]
    rfl
  rw [hel]
  have hcases : op = 0 ∨ op = 1 ∨ op = 2 := by
    simp only at hop
    omega
  rcases hcases with rfl | rfl | rfl <;> cases ok <;> rfl

/-- The last event about a uri decides. -/
theorem foldl_hear (ui : LinkUi) (evs : List UplinkEvent) (uri : Text) :
    evs.foldl LinkUi.hear ui (bytes uri) =
      match evs.reverse.find? fun e => decide (e.1.uri = uri) with
      | some e => if e.2 = 0 then none else some (okCode e.1.ok)
      | none => ui (bytes uri) := by
  induction evs using List.reverseRecOn with
  | nil => rfl
  | append_singleton evs e ih =>
    rw [List.foldl_append, List.foldl_cons, List.foldl_nil, LinkUi.hear, Function.update_apply,
      List.reverse_append, List.reverse_singleton, List.singleton_append, List.find?_cons]
    by_cases huri : e.1.uri = uri
    · rw [if_pos (congrArg bytes huri.symm), decide_eq_true huri]
    · rw [if_neg fun h => huri (bytes_inj.mp h).symm, decide_eq_false huri, ih]

theorem tellAdded_op (prev : List Uplink) (up : Uplink) :
    (tellAdded prev up).2 = 1 ∨ (tellAdded prev up).2 = 2 := by
  unfold tellAdded
  split
  · exact Or.inr rfl
  · exact Or.inl rfl

/-- An uplink that is told as gone is not listed. -/
theorem uri_not_mem_of_gone {l : List Uplink} {up : Uplink} (h : ¬ SharesBucket l up) :
    up.uri ∉ uris l := fun hmem => h (sharesBucket_of_mem_uris hmem)

/-- **The events of one response** set what it lists, and remove what went and shares no
bucket. -/
theorem foldl_updEvents (ui : LinkUi) (prev l : List Uplink) (uri : Text) :
    (updEvents prev l).foldl LinkUi.hear ui (bytes uri) =
      if uri ∈ uris l then (okOf l uri).map okCode
      else if uri ∈ uris prev ∧ ¬ SharesBucket l ⟨uri, true⟩ then none
      else ui (bytes uri) := by
  set gone := (elems (ofList Uplink.slot prev)).filter fun up => ¬ SharesBucket l up with hset
  have hgone : ∀ up, up ∈ gone ↔ up ∈ prev ∧ ¬ SharesBucket l up := by
    intro up
    rw [hset, List.mem_filter, (elems_ofList_perm Uplink.slot prev).mem_iff, decide_eq_true_eq]
  rw [foldl_hear, updEvents, ← hset, List.reverse_append, List.find?_append, ← List.map_reverse,
    ← List.map_reverse, List.find?_map, List.find?_map]
  have hpred : (fun e : UplinkEvent => decide (e.1.uri = uri)) ∘ tellAdded prev =
      fun up => decide (up.uri = uri) := rfl
  have hpred' : (fun e : UplinkEvent => decide (e.1.uri = uri)) ∘ (fun up => (up, 0)) =
      fun up : Uplink => decide (up.uri = uri) := rfl
  rw [hpred, hpred']
  cases hfind : gone.reverse.find? fun up => decide (up.uri = uri) with
  | some up =>
    obtain ⟨hprev, hmeets⟩ := (hgone up).mp (List.mem_reverse.mp (List.mem_of_find?_eq_some hfind))
    obtain rfl : up.uri = uri := by simpa using List.find?_some hfind
    rw [if_neg (uri_not_mem_of_gone hmeets), if_pos ⟨List.mem_map_of_mem hprev, hmeets⟩]
    rfl
  | none =>
    have hstays : ¬ (uri ∈ uris prev ∧ ¬ SharesBucket l ⟨uri, true⟩) := by
      rintro ⟨hprev, hmeets⟩
      obtain ⟨up, hup, rfl⟩ := List.mem_map.mp hprev
      have hmem := List.mem_reverse.mpr ((hgone up).mpr ⟨hup, hmeets⟩)
      exact List.find?_eq_none.mp hfind up hmem (decide_eq_true rfl)
    rw [if_neg hstays]
    unfold okOf
    cases hl : l.reverse.find? fun up => decide (up.uri = uri) with
    | some up =>
      obtain rfl : up.uri = uri := by simpa using List.find?_some hl
      have hmem := List.mem_reverse.mp (List.mem_of_find?_eq_some hl)
      have huris : up.uri ∈ uris l := List.mem_map_of_mem hmem
      rw [if_pos huris]
      show (if (tellAdded prev up).2 = 0 then none else some (okCode up.ok)) = _
      rw [if_neg]
      · rfl
      · rcases tellAdded_op prev up with hop | hop <;> omega
    | none =>
      rw [if_neg]
      · rfl
      · rw [← okOf_eq_none_iff]
        exact Option.map_eq_none_iff.mpr hl

/-! ## What the client knows -/

/-- The arrays of some reports. -/
def arrays (rs : List Report) : List Obj := rs.flatMap fun r => (r.elements.map Obj.array).toList

theorem Registrar.report_spec (s : Registrar) {rs : List Report}
    (hrs : ∀ r ∈ rs, r.NonNull ∧ r.Countable) :
    ∃ sent, s.report rs = some { s with sent := sent } ∧
      (s.client = true →
        ∀ obs, ReportsHeard s.sent obs → ReportsHeard sent (obs ++ arrays rs)) := by
  induction rs generalizing s with
  | nil => exact ⟨s.sent, rfl, fun _ obs h => (List.append_nil obs).symm ▸ h⟩
  | cons r rs ih =>
    obtain ⟨hnull, hcount⟩ := hrs r List.mem_cons_self
    obtain ⟨buf, hbuf, -⟩ := exists_write hnull hcount
    obtain ⟨sent, hsent, hheard⟩ := ih (s.writeFd buf) fun r' hr' =>
      hrs r' (List.mem_cons_of_mem r hr')
    unfold Registrar.writeFd at hsent hheard
    refine ⟨sent, ?_, fun hclient obs h => ?_⟩
    · rw [Registrar.report, hbuf, Option.bind_some, Registrar.writeFd, hsent]
      split <;> rfl
    · rw [if_pos hclient] at hheard
      have hnext := hheard hclient _ (h.write hnull hcount hbuf)
      rw [List.append_assoc] at hnext
      exact hnext

theorem name_of_not_isUp {r : Report} (h : isUp r = false) : lit r.name ≠ lit "sip.up" := by
  unfold Report.name
  cases r with
  | up op uri ok => exact Bool.noConfusion h
  | callChange ckey cstate reason =>
      dsimp only
      split <;> decide
  | msg ts idx auri data state =>
      dsimp only
      split <;> decide
  | _ =>
      dsimp only
      decide

/-- A report under another name says nothing about the uplinks. -/
theorem update_of_name {r : Report} (h : lit r.name ≠ lit "sip.up") (ui : LinkUi)
    (rest : List Obj) : LinkUi.update ui (.array (litOf r.name :: rest)) = ui := by
  have hname : ∀ {name : List Byte} {els : List Obj},
      Obj.array (litOf r.name :: rest) = .array (.raw name :: els) →
        name ≠ bytes (lit "sip.up") := by
    intro name els heq
    rw [Report.litOf_name] at heq
    obtain ⟨hraw, -⟩ := List.cons.inj (Obj.array.inj heq)
    obtain rfl := Obj.raw.inj hraw
    exact fun heq => h (bytes_inj.mp heq)
  unfold LinkUi.update
  split
  · next heq => exact if_neg fun hup => hname heq hup.1
  · next heq => exact if_neg fun hup => hname heq hup.1
  · rfl

/-- Other reports say nothing about the uplinks. -/
theorem foldl_other {rs : List Report} (h : ∀ r ∈ rs, OtherReport r) (ui : LinkUi) :
    (arrays rs).foldl LinkUi.update ui = ui := by
  induction rs with
  | nil => rfl
  | cons r rs ih =>
    have hr : (r.elements.map Obj.array).toList.foldl LinkUi.update ui = ui := by
      cases hels : r.elements with
      | none => rfl
      | some els =>
        obtain ⟨rest, rfl⟩ := Report.elements_name hels
        exact update_of_name (name_of_not_isUp (h r List.mem_cons_self).1) ui rest
    rw [arrays, List.flatMap_cons, List.foldl_append, hr]
    exact ih fun r' hr' => h r' (List.mem_cons_of_mem r hr')

theorem foldl_upReport {evs : List UplinkEvent}
    (h : ∀ e ∈ evs, e.2 ≤ 2 ∧ e.1.uri.length < 2 ^ 32) (ui : LinkUi) :
    (arrays (evs.map upReport)).foldl LinkUi.update ui = evs.foldl LinkUi.hear ui := by
  induction evs generalizing ui with
  | nil => rfl
  | cons e evs ih =>
    obtain ⟨hop, hshort⟩ := h e List.mem_cons_self
    rw [List.map_cons, arrays, List.flatMap_cons, List.foldl_append,
      update_upReport ui hop hshort, List.foldl_cons]
    exact ih (fun e' he' => h e' (List.mem_cons_of_mem e he')) _

theorem short_updEvents {prev l : List Uplink} (hprev : Short prev) (hl : Short l) :
    ∀ e ∈ updEvents prev l, e.2 ≤ 2 ∧ e.1.uri.length < 2 ^ 32 := by
  intro e he
  rcases List.mem_append.mp he with he | he
  · obtain ⟨up, hup, rfl⟩ := List.mem_map.mp he
    refine ⟨?_, hl up hup⟩
    rcases tellAdded_op prev up with hop | hop <;> omega
  · obtain ⟨up, hup, rfl⟩ := List.mem_map.mp he
    have hmem := (elems_ofList_perm Uplink.slot prev).mem_iff.mp (List.mem_filter.mp hup).1
    exact ⟨Nat.zero_le 2, hprev up hmem⟩

/-- The table holds the list of the response before, and the client knows what it should. -/
structure Tracks (s : Registrar) : Prop where
  holds : ∃ prev, Short prev ∧
    (∀ l, uplinkUpd s.ups l = some (uplinksHolding l, updEvents prev l)) ∧
      ∀ l ∈ s.since.head?, l = prev
  knows : s.client = true → ∃ obs, ReportsHeard s.sent obs ∧
    ∀ uri, obs.foldl LinkUi.update (fun _ => none) (bytes uri) = (shownBy s.since uri).map okCode

/-- Other reports do not change what is known. -/
theorem Tracks.report {s : Registrar} (h : Tracks s) {rs : List Report}
    (hrs : ∀ r ∈ rs, OtherReport r) : ∃ t, s.report rs = some t ∧ Tracks t ∧
      t.ups = s.ups ∧ t.since = s.since ∧ t.client = s.client := by
  obtain ⟨sent, hreport, hheard⟩ := s.report_spec fun r hr => (hrs r hr).2
  refine ⟨_, hreport, ⟨h.holds, fun hclient => ?_⟩, rfl, rfl, rfl⟩
  obtain ⟨obs, hobs, hui⟩ := h.knows hclient
  refine ⟨_, hheard hclient obs hobs, fun uri => ?_⟩
  rw [List.foldl_append, foldl_other hrs]
  exact hui uri

theorem tracks_init : Tracks .init :=
  ⟨⟨[], nofun, uplinkUpd_first, nofun⟩, fun h => Bool.noConfusion h⟩

theorem otherReport_reg (l : List RegState) : ∀ r ∈ l.map regReport, OtherReport r := by
  intro r hr
  obtain ⟨state, -, rfl⟩ := List.mem_map.mp hr
  exact ⟨rfl, trivial, trivial⟩

section runs

variable (sipAddrDecode : Text → Option ContactAddr) (sipParamExists : Text → Bool)
  (sipParamDecode : Text → Option Text)

/-- **One response.** -/
theorem Tracks.response {s : Registrar} (h : Tracks s) {err : Bool}
    {msg : Option (ℕ × List Text)}
    (hshort : Short (tcsregContacts sipAddrDecode sipParamExists sipParamDecode
      (msg.map Prod.snd))) :
    ∃ t, registerHandler sipAddrDecode sipParamExists sipParamDecode s err msg = some t ∧
      Tracks t := by
  set reg := tcsregResponse s.reg (registerStatus err (msg.map Prod.fst)) with hreg
  set upl := tcsregContacts sipAddrDecode sipParamExists sipParamDecode (msg.map Prod.snd) with hupl
  have h' : Tracks { s with reg := reg.1 } := ⟨h.holds, h.knows⟩
  obtain ⟨s₁, e₁, h₁, -, -, -⟩ := h'.report (otherReport_reg reg.2)
  obtain ⟨prev, hprev, hupd, hhead⟩ := h₁.holds
  have hevents := short_updEvents hprev hshort
  have hnull : ∀ r ∈ (updEvents prev upl).map upReport, r.NonNull ∧ r.Countable := by
    intro r hr
    obtain ⟨e, -, rfl⟩ := List.mem_map.mp hr
    exact ⟨trivial, trivial⟩
  obtain ⟨sent, hreport, hheard⟩ := Registrar.report_spec
    { s₁ with ups := uplinksHolding upl, since := upl :: s₁.since } hnull
  refine ⟨{ s₁ with ups := uplinksHolding upl, since := upl :: s₁.since, sent := sent }, ?_,
    ⟨⟨upl, hshort, uplinkUpd_holding upl, fun l hl => (Option.some.inj hl).symm⟩,
      fun hclient => ?_⟩⟩
  · unfold registerHandler
    dsimp only
    rw [← hreg, ← hupl, e₁, Option.bind_eq_bind, Option.bind_some, hupd, Option.bind_eq_bind,
      Option.bind_some, hreport]
  · obtain ⟨obs, hobs, hui⟩ := h₁.knows hclient
    refine ⟨_, hheard hclient obs hobs, fun uri => ?_⟩
    rw [List.foldl_append, foldl_upReport hevents, foldl_updEvents, hui, shownBy_cons]
    cases hsince : s₁.since with
    | nil =>
      -- the client was not there before, and has nothing that could be removed
      rw [List.headD_nil]
      have hnil : ¬ (uri ∈ uris [] ∧ ¬ SharesBucket upl ⟨uri, true⟩) :=
        fun h => List.not_mem_nil h.1
      have hnone : shownBy [] uri = none := rfl
      rw [if_neg hnil, hnone]
      by_cases hl : uri ∈ uris upl
      · rw [if_pos hl, if_pos hl]
      · rw [if_neg hl, if_neg hl, Option.map_none, ite_self]
    | cons l ls =>
      obtain rfl : l = prev := hhead l (by rw [hsince]; rfl)
      rw [List.headD_cons]
      by_cases hl : uri ∈ uris upl
      · rw [if_pos hl, if_pos hl]
      · rw [if_neg hl, if_neg hl]
        split <;> rfl

/-- **One event** that is possible is, and the client knows what it should afterwards. -/
theorem Tracks.step {s : Registrar} (h : Tracks s) (e : LinkEvent)
    (he : Reportable sipAddrDecode sipParamExists sipParamDecode s e) :
    ∃ t, linkStep sipAddrDecode sipParamExists sipParamDecode s e = some t ∧ Tracks t := by
  cases e with
  | accept =>
    by_cases hclient : s.client = true
    · exact ⟨s, if_pos hclient, h⟩
    · obtain ⟨prev, hprev, hupd, -⟩ := h.holds
      refine ⟨_, if_neg hclient, ⟨⟨prev, hprev, hupd, nofun⟩, fun _ => ⟨[], reportsHeard_nil, ?_⟩⟩⟩
      exact fun uri => rfl
  | eof => exact ⟨_, if_pos he, ⟨h.holds, fun hclient => Bool.noConfusion hclient⟩⟩
  | response err msg => exact h.response sipAddrDecode sipParamExists sipParamDecode he
  | state cmd err =>
    have h' : Tracks { s with reg := (tcsregState s.reg cmd err).1 } := ⟨h.holds, h.knows⟩
    obtain ⟨t, ht, htracks, -⟩ := h'.report
      (otherReport_reg (tcsregState s.reg cmd err).2)
    exact ⟨t, ht, htracks⟩
  | report r =>
    have hother : ∀ r' ∈ [r], OtherReport r' := fun r' hr' => List.mem_singleton.mp hr' ▸ he
    obtain ⟨t, ht, htracks, -⟩ := h.report hother
    exact ⟨t, ht, htracks⟩

/-- **The control client has the uplinks.**  Whatever the responses list and the handler of their
parameters finds there, and whenever clients connect and leave: what was sent to the client that is
connected is whole reports, and one that reads them in order shows exactly the uplinks of the
latest response, with the state it gives, and those that went when another one was listed in their
bucket. -/
theorem shows_uplinks {es : List LinkEvent}
    (hmeet : StepsMeet (linkStep sipAddrDecode sipParamExists sipParamDecode)
      (Reportable sipAddrDecode sipParamExists sipParamDecode) .init es) :
    ∃ t, run (linkStep sipAddrDecode sipParamExists sipParamDecode) .init es = some t ∧
      (t.client = true → ∃ objs, Reads (Unpacker.fresh.feed t.sent) objs .fresh ∧
        ∀ uri ok, objs.foldl LinkUi.update (fun _ => none) (bytes uri) = some (okCode ok) ↔
          ShownSince t.since uri ok) := by
  obtain ⟨t, hrun, htracks⟩ := run_progress_past
    (linkStep sipAddrDecode sipParamExists sipParamDecode) (I := fun _ => Tracks) es
    (fun past e rest s _ h he => h.step sipAddrDecode sipParamExists sipParamDecode e he) es []
    .init rfl tracks_init hmeet
  refine ⟨t, hrun, fun hclient => ?_⟩
  obtain ⟨obs, hheard, hui⟩ := htracks.knows hclient
  refine ⟨obs, hheard.reads, fun uri ok => ?_⟩
  have hinj : Function.Injective okCode := by
    intro a b hab
    cases a <;> cases b <;> first | rfl | exact absurd hab (by decide)
  rw [hui, ← shownBy_eq_some_iff, ← Option.map_some, (Option.map_injective hinj).eq_iff]

end runs

/-! ## An uplink that comes, and a client that comes later -/

/-- The contact `<uri>params`. -/
def contactOf (val : Text) : Option ContactAddr :=
  some ⟨(val.takeWhile fun c => decide (c ∉ lit ">")).drop 1,
    (val.dropWhile fun c => decide (c ∉ lit ">")).drop 1⟩

/-- The parameters begin with `uplink`. -/
def hasUplink (params : Text) : Bool := decide (lit ";uplink" <+: params)

/-- Its value. -/
def uplinkValue (params : Text) : Option Text :=
  if lit ";uplink=" <+: params then some (params.drop 8) else none

/-- The first client sees one uplink, the second one two, one of which is not ready. -/
def twoClients : List LinkEvent :=
  [.state .fg false, .accept,
    .response false (some (200, [lit "<sip:alice@x>;uplink", lit "<sip:bob@x>;expires=60"])),
    .report (.cert 0 [] []), .eof, .response true none, .accept,
    .response false (some (200, [lit "<sip:alice@x>;uplink", lit "<sip:carol@x>;uplink=wait"]))]

theorem shows_uplinks_twoClients :
    ∃ t, run (linkStep contactOf hasUplink uplinkValue) .init twoClients = some t ∧
      (t.client = true → ∃ objs, Reads (Unpacker.fresh.feed t.sent) objs .fresh ∧
        ∀ uri ok, objs.foldl LinkUi.update (fun _ => none) (bytes uri) = some (okCode ok) ↔
          ShownSince t.since uri ok) :=
  shows_uplinks contactOf hasUplink uplinkValue (by decide +kernel)

end UplinkMirror
