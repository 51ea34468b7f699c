/-
# What a control client knows of the history

A call that has ended is stored in the history and reported to the control client, if one is
connected.  The client also asks for what is stored, bundle by bundle: `hist.fetch` begins with
the newest one if its flag says so, and goes on where the last one ended otherwise.  Calls end in
between, the client logs in again, or the program is started anew on the same database.

Whatever a client that has asked to begin was not told of is stored under an `idx` that it has
still to reach.  So when it is told that there are no more bundles, and from then on, it has
exactly the calls that ever ended (`shows_history`); and it is told so in the end
(`fetches_history`).
-/
import Tcsip.CallReports
import Tcsip.HistoryPaging

open KeyedList Msgpack Runs

namespace HistoryMirror

open CallReports

/-! ## The client and its history -/

/-- The calls with the display names of their remote addresses, the history, what `history_add`
was called with in this and all earlier processes, and how much had been sent to the control
client when it last asked to begin. -/
structure Logbook where
  phone : Phone
  dnames : List (List Byte)
  hist : History
  log : List HistoryCall
  mark : Option ℕ

/-- After the first login. -/
def Logbook.init (stc : StoreClient) : Logbook := ⟨.init, [], historyAlloc stc [], [], none⟩

/-- `tcsip_call_history`: what `history_add` is called with for a call that is not alive. -/
def Logbook.call (s : Logbook) (now : Timeval) (c : TcsipCall) : HistoryCall where
  now := now
  event := Int32.ofBitVec ((tcsipCallHistory c.run.call).getD 0)
  ts := Int32.ofInt c.sec
  ckey := tcsipcallKey c
  uri := c.remoteAuri
  name := cstr (s.dnames.getD c.id [])

/-- `history_add` with the handler `report_histel`, which is called first. -/
def addCall (now : Timeval) (s : Logbook) (c : TcsipCall) : Option Logbook :=
  (s.phone.report (some (.histel 0 0 (s.call now c).el))).bind fun phone =>
    (historyStep s.hist (.add (s.call now c))).map fun hist =>
      { s with phone := phone, hist := hist, log := s.log ++ [s.call now c] }

/-- What `tcsip_hist_ipc` calls `report_hist` with. -/
def fetchReport (p : History × Option ℕ) : Report :=
  match p.2 with
  | some addr => .hist 0 p.1.iter (p.1.lists.getD addr [])
  | none => .hist 1 none []

/-- `tcsip_hist_ipc` -/
def tcsipHistIpc (s : Logbook) (flag : Bool) : Option Logbook :=
  (historyNext (if flag then historyReset s.hist else s.hist)).bind fun p =>
    (s.phone.report (some (fetchReport p))).map fun phone => { s with phone := phone, hist := p.1 }

/-- Something happens to the calls or the connection, at this time; the control client sends
`hist.fetch`; it logs in again; or the program is started anew. -/
inductive LogbookEvent where
  | phone (e : PhoneEvent) (now : Timeval)
  | fetch (flag : Bool)
  | login
  | restart

/-- The calls that an event ends. -/
def endedBy (s : Phone) : PhoneEvent → List TcsipCall
  | .calls e _ _ => callsEnded s.calls e
  | .accept | .eof | .report _ => []

/-- A call that begins brings a name. -/
def Logbook.named (s : Logbook) : PhoneEvent → List (List Byte)
  | .calls e dname _ => s.dnames ++ ((e.added s.phone.calls).map fun _ => dname).toList
  | .accept | .eof | .report _ => s.dnames

/-- A client that connects has asked for nothing. -/
def Logbook.marked (s : Logbook) : PhoneEvent → Option ℕ
  | .accept => if s.phone.client then s.mark else none
  | .calls _ _ _ | .eof | .report _ => s.mark

/-- An event of the client, with the bytes that it writes and the calls that end in it. -/
def logbookStep (s : Logbook) : LogbookEvent → Option Logbook
  | .phone e now => (phoneStep s.phone e).bind fun phone =>
    (endedBy s.phone e).foldlM (addCall now)
      { s with phone := phone, dnames := s.named e, mark := s.marked e }
  | .fetch flag =>
    if s.phone.client then
      tcsipHistIpc { s with mark := if flag then some s.phone.sent.length else s.mark } flag
    else none
  | .login => some { s with hist := historyAlloc s.hist.store s.hist.table }
  | .restart => some {
      phone := .init
      dnames := []
      hist := historyAlloc s.hist.store s.hist.table
      log := s.log
      mark := none }

/-! ## Runs in which paging is exact -/

/-- The call can be stored: under a key that the client finds and that is the greatest so far; its
remote address is known; it began in another second than all calls before, and after one of the
bundle in memory. -/
def Storable (s : Logbook) (a : HistoryCall) : Prop :=
  s.hist.store.owns (storeKey s.hist.store a.now) = true ∧ a.uri ≠ [] ∧
    (∀ b ∈ s.log, storeKey s.hist.store b.now < storeKey s.hist.store a.now ∧ b.ts ≠ a.ts) ∧
    ∀ addr ∈ s.hist.top, ∃ e ∈ s.hist.lists.getD addr [], e.time < a.ts

instance decidableStorable (s : Logbook) (a : HistoryCall) : Decidable (Storable s a) :=
  inferInstanceAs (Decidable (_ ∧ _ ∧ _ ∧ _))

/-- A report that is not about the history. -/
def NoHistory : Report → Prop
  | .hist _ _ _ | .histel _ _ _ => False
  | _ => True

instance decidableNoHistory : DecidablePred NoHistory
  | .hist _ _ _ | .histel _ _ _ => isFalse id
  | .callChange _ _ _ | .call _ _ _ _ _ _ | .reg _ | .up _ _ _ | .msg _ _ _ _ _ | .cert _ _ _ |
    .lp _ _ | .signup _ _ | .ctlist _ _ => isTrue trivial

/-- The report of something else. -/
def Elsewhere : PhoneEvent → Prop
  | .report r => NoHistory r ∧ r.NonNull ∧ r.Countable
  | .accept | .eof | .calls _ _ _ => True

instance decidableElsewhere : DecidablePred Elsewhere
  | .report _ => inferInstanceAs (Decidable (_ ∧ _ ∧ _))
  | .accept | .eof | .calls _ _ _ => isTrue trivial

/-- The condition on a step. -/
def Kept (s : Logbook) : LogbookEvent → Prop
  | .phone e now => Handled s.phone e ∧ Elsewhere e ∧
      ∀ c ∈ endedBy s.phone e, Storable s (s.call now c)
  | .fetch _ => s.log.length < 2 ^ 32
  | .login | .restart => True

instance decidableKept (s : Logbook) : DecidablePred (Kept s)
  | .phone _ _ => inferInstanceAs (Decidable (_ ∧ _ ∧ _))
  | .fetch _ => inferInstanceAs (Decidable (s.log.length < _))
  | .login | .restart => isTrue trivial

/-! ## What the control client reads -/

/-- The entries that a report brings. -/
def entriesOf : Obj → List Obj
  | .array (.raw name :: .integer err :: els) =>
    if err ≠ 0 then []
    else if name = bytes (lit "hist.add") then els.drop 1
    else if name = bytes (lit "hist.res") then (els.drop 1).flatMap fun o => o.elems.getD []
    else []
  | _ => []

/-- It tells that there are no more bundles. -/
def tellsEnd : Obj → Bool
  | .array (.raw name :: .integer err :: _) => decide (name = bytes (lit "hist.res") ∧ err = 1)
  | _ => false

/-- What a client shows that has read this. -/
def shown (obs : List Obj) : List Obj := obs.flatMap entriesOf

theorem shown_append (obs os : List Obj) : shown (obs ++ os) = shown obs ++ shown os :=
  List.flatMap_append

theorem names_of_noHistory {r : Report} (h : NoHistory r) :
    lit r.name ≠ lit "hist.add" ∧ lit r.name ≠ lit "hist.res" := by
  unfold Report.name
  cases r with
  | hist err idx hlist => exact h.elim
  | histel err op hel => exact h.elim
  | callChange ckey cstate reason =>
      dsimp only
      split <;> decide
  | msg ts idx auri data state =>
      dsimp only
      split <;> decide
  | _ =>
      dsimp only
      decide

/-- Reports under another name are not about the history. -/
theorem entriesOf_of_noHistory {r : Report} (h : NoHistory r) {els : List Obj}
    (hels : r.elements = some els) :
    entriesOf (.array els) = [] ∧ tellsEnd (.array els) = false := by
  obtain ⟨hadd, hres⟩ := names_of_noHistory h
  obtain ⟨rest, rfl⟩ := Report.elements_name hels
  rw [Report.litOf_name]
  cases rest with
  | nil => exact ⟨rfl, rfl⟩
  | cons o rest =>
      cases o with
      | integer err =>
          constructor
          · show (if err ≠ 0 then [] else if _ then _ else if _ then _ else []) = []
            rw [if_neg fun heq => hadd (bytes_inj.mp heq),
              if_neg fun heq => hres (bytes_inj.mp heq), ite_self]
          · exact decide_eq_false fun heq => hres (bytes_inj.mp heq.1)
      | _ => exact ⟨rfl, rfl⟩

/-- A report with one entry, and one with a bundle. -/
theorem entriesOf_histel {els : List Obj} {op : ℤ} {hel : HistEl}
    (h : (Report.histel 0 op hel).elements = some els) :
    entriesOf (.array els) = [hel.report] ∧ tellsEnd (.array els) = false := by
  obtain rfl := Option.some.inj h
  rw [litOf_eq (by decide)]
  exact ⟨rfl, rfl⟩

theorem entriesOf_hist {els : List Obj} {idx : Option Text} {hlist : List HistEl}
    (h : (Report.hist 0 idx hlist).elements = some els) :
    entriesOf (.array els) = hlist.map HistEl.report ∧ tellsEnd (.array els) = false := by
  obtain rfl := Option.some.inj h
  rw [litOf_eq (by decide)]
  refine ⟨?_, rfl⟩
  show ([.array (hlist.map HistEl.report)] : List Obj).flatMap (fun o => o.elems.getD []) = _
  rw [List.flatMap_singleton]
  rfl

theorem entriesOf_end {els : List Obj} (h : (Report.hist 1 none []).elements = some els) :
    entriesOf (.array els) = [] ∧ tellsEnd (.array els) = true := by
  obtain rfl := Option.some.inj h
  rw [litOf_eq (by decide)]
  exact ⟨rfl, rfl⟩

/-- An entry is reported as it is read back from the store. -/
theorem report_stored (hel : HistEl) : hel.stored.report = hel.report := by
  have hstr : ∀ c : Option Text, strOf (c.bind fun t => getStr (bytes t)) = strOf c := by
    intro c
    cases c with
    | none => rfl
    | some t =>
        rw [Option.bind_some, getStr_bytes]
        split
        · next hnil => rw [hnil]; rfl
        · rfl
  unfold HistEl.report HistEl.stored
  dsimp only
  rw [hstr, hstr, hstr]

/-! ## Shown, or still ahead -/

/-- What was read is calls that ended, each of these was read or is stored under an `idx` that
the cursor has still to reach, and was read if the end was told. -/
structure Shows (c : StoreClient) (log : List HistoryCall) (hist : History) (obs : List Obj) :
    Prop where
  sound : ∀ o ∈ shown obs, ∃ a ∈ log, o = a.el.report
  ahead : ∀ a ∈ log, a.el.report ∈ shown obs ∨
    ∃ r ∈ current c hist.table, a.el.stored ∈ r.entries ∧ ∀ i ∈ hist.iter, r.idx < i
  done : (∃ o ∈ obs, tellsEnd o = true) → ∀ a ∈ log, a.el.report ∈ shown obs

section Shows

variable {c : StoreClient} {log : List HistoryCall} {hist t : History} {obs : List Obj}
  {past : List HistoryEvent}

/-- One more array that does not tell the end. -/
theorem Shows.hear (h : Shows c log hist obs) {o : Obj} (hend : tellsEnd o = false)
    {log' : List HistoryCall} (hlog : ∀ a ∈ log', a ∈ log ∨ a.el.report ∈ entriesOf o)
    (hmono : ∀ a ∈ log, a ∈ log') (hsound : ∀ x ∈ entriesOf o, ∃ a ∈ log', x = a.el.report)
    (hahead : ∀ a ∈ log, ∀ r ∈ current c hist.table, a.el.stored ∈ r.entries →
      (∀ i ∈ hist.iter, r.idx < i) → a.el.report ∈ entriesOf o ∨
        ∃ r ∈ current c t.table, a.el.stored ∈ r.entries ∧ ∀ i ∈ t.iter, r.idx < i) :
    Shows c log' t (obs ++ [o]) := by
  have hshown : shown (obs ++ [o]) = shown obs ++ entriesOf o := by
    rw [shown_append]
    exact congrArg (shown obs ++ ·) (List.flatMap_singleton _ _)
  have hold : ∀ {x}, x ∈ shown obs → x ∈ shown (obs ++ [o]) := fun hx => by
    rw [hshown]
    exact List.mem_append_left _ hx
  have hnew : ∀ {x}, x ∈ entriesOf o → x ∈ shown (obs ++ [o]) := fun hx => by
    rw [hshown]
    exact List.mem_append_right _ hx
  refine ⟨fun x hx => ?_, fun a ha => ?_, fun hdone a ha => ?_⟩
  · rw [hshown] at hx
    rcases List.mem_append.mp hx with hx | hx
    · obtain ⟨a, ha, rfl⟩ := h.sound x hx
      exact ⟨a, hmono a ha, rfl⟩
    · exact hsound x hx
  · rcases hlog a ha with ha | ha
    · rcases h.ahead a ha with hshow | ⟨r, hr, hmem, hlt⟩
      · exact Or.inl (hold hshow)
      · exact (hahead a ha r hr hmem hlt).imp_left hnew
    · exact Or.inl (hnew ha)
  · obtain ⟨x, hx, htells⟩ := hdone
    rcases List.mem_append.mp hx with hx | hx
    · rcases hlog a ha with ha | ha
      · exact hold (h.done ⟨x, hx, htells⟩ a ha)
      · exact hnew ha
    · rw [List.mem_singleton.mp hx, hend] at htells
      exact Bool.noConfusion htells

/-- Reports of something else change nothing. -/
theorem Shows.other (h : Shows c log hist obs) {r : Report} (hr : NoHistory r) :
    Shows c log hist (obs ++ (r.elements.map Obj.array).toList) := by
  cases hels : r.elements with
  | none => simpa using h
  | some els =>
      obtain ⟨hnil, hend⟩ := entriesOf_of_noHistory hr hels
      refine h.hear hend (fun a ha => Or.inl ha) (fun a ha => ha) ?_ ?_
      · rw [hnil]
        exact fun x hx => absurd hx List.not_mem_nil
      · exact fun a _ r hr hmem hlt => Or.inr ⟨r, hr, hmem, hlt⟩

/-- Whoever begins has everything ahead. -/
theorem shows_nil (h : HistoryPaged c past hist) (hiter : hist.iter = none)
    (hlog : addedCalls past = log) : Shows c log hist [] := by
  subst hlog
  refine ⟨fun o ho => absurd ho List.not_mem_nil, fun a ha => Or.inr ?_, ?_⟩
  · have hmem : a.el.stored ∈ (current c hist.table).flatMap Row.entries :=
      h.rows.entries.mem_iff.mpr (List.mem_map_of_mem (f := fun a => a.el.stored) ha)
    obtain ⟨r, hr, hentry⟩ := List.mem_flatMap.mp hmem
    rw [hiter]
    exact ⟨r, hr, hentry, fun i hi => absurd hi (Option.not_mem_none i)⟩
  · rintro ⟨o, ho, -⟩
    exact absurd ho List.not_mem_nil

/-- The cursor goes back to the beginning. -/
theorem Shows.rewind (h : Shows c log hist obs) (htable : t.table = hist.table)
    (hiter : t.iter = none) : Shows c log t obs := by
  refine ⟨h.sound, fun a ha => (h.ahead a ha).imp_right ?_, h.done⟩
  rintro ⟨r, hr, hmem, -⟩
  rw [htable, hiter]
  exact ⟨r, hr, hmem, fun i hi => absurd hi (Option.not_mem_none i)⟩

/-- **An addition keeps the rows in their places**: what a row holds is held under the same `idx`
afterwards. -/
theorem row_of_add (h : HistoryPaged c past hist) {a : HistoryCall}
    (hown : c.owns (storeKey c a.now) = true)
    (hkey : ∀ b ∈ addedCalls past, storeKey c b.now < storeKey c a.now)
    (hadd : historyStep hist (.add a) = some t) {r : Row Text Obj}
    (hr : r ∈ current c hist.table) (hfresh : hist.top = none → r.idx ≠ a.ckey) :
    t.iter = hist.iter ∧
      ∃ r' ∈ current c t.table, r'.idx = r.idx ∧ ∀ e ∈ r.entries, e ∈ r'.entries := by
  have hrows : ∀ i blob, current c (storeAdd c (storeKey c a.now) i blob hist.table) =
      others Row.idx i (current c hist.table) ++ [a.row c i blob] := by
    intro i blob
    have hnewest : ∀ x ∈ current c hist.table, x.blobKey < storeKey c a.now := by
      intro x hx
      obtain ⟨b, hb, hbx⟩ := h.rows.written x hx
      rw [hbx]
      exact hkey b hb
    unfold storeAdd
    rw [current_storeAddState_of_newest hnewest hown i blob one_ne_zero]
    rfl
  -- the other rows stay as they are
  have hother : ∀ i blob, r.idx ≠ i →
      ∃ r' ∈ current c (storeAdd c (storeKey c a.now) i blob hist.table), r'.idx = r.idx ∧
        ∀ e ∈ r.entries, e ∈ r'.entries := by
    intro i blob hne
    refine ⟨r, ?_, rfl, fun e he => he⟩
    rw [hrows]
    exact List.mem_append_left _ ((mem_others Row.idx).mpr ⟨hr, hne⟩)
  rcases historyAdd_cases hadd with ⟨addr, i, blob, htop, hidx, hblob, rfl⟩ |
    ⟨blob, htop, hblob, rfl⟩
  · refine ⟨rfl, ?_⟩
    dsimp only
    rw [h.store]
    by_cases hi : r.idx = i
    · -- the row of the bundle in memory
      obtain ⟨-, r', hr', hidx', hperm⟩ := h.top addr htop
      obtain rfl : i = r'.idx := Option.some.inj (hidx.symm.trans hidx')
      obtain rfl : r = r' := List.inj_on_of_nodup_map h.rows.keyed hr hr' hi
      refine ⟨a.row c r.idx blob, ?_, rfl, fun e he => ?_⟩
      · rw [hrows]
        exact List.mem_append_right _ (List.mem_singleton_self _)
      · show e ∈ storeBlobParse helParse blob
        rw [hblob, List.map_append]
        exact List.mem_append_left _ (hperm.mem_iff.mpr he)
    · exact hother i blob hi
  · refine ⟨rfl, ?_⟩
    dsimp only
    rw [h.store]
    exact hother a.ckey blob (hfresh htop)

/-- A call with a remote address comes back with it. -/
theorem uri_stored {a : HistoryCall} (hne : a.uri ≠ []) : a.el.stored.uri = some a.uri := by
  show getStr (bytes a.uri) = some a.uri
  rw [getStr_bytes, if_neg hne]

/-- A bundle is stored under the key of one of its calls. -/
theorem exists_call_of_row (h : HistoryPaged c past hist) (hne : ∀ b ∈ addedCalls past, b.ckey ≠ [])
    {r : Row Text Obj} (hr : r ∈ current c hist.table) :
    ∃ b ∈ addedCalls past, r.idx = b.ckey := by
  obtain ⟨m, hm, hmkey, -⟩ := h.rows.earliest r hr
  obtain ⟨b, hb, rfl⟩ := h.rows.mem_entries hr hm
  rw [key_stored (hne b hb)] at hmkey
  exact ⟨b, hb, (Option.some.inj hmkey).symm⟩

/-- **A call that is added** is reported. -/
theorem Shows.add (h : Shows c log hist obs) (hpaged : HistoryPaged c past hist)
    (hlog : addedCalls past = log) (hne : ∀ b ∈ log, b.ckey ≠ []) {a : HistoryCall}
    (hown : c.owns (storeKey c a.now) = true)
    (hkey : ∀ b ∈ log, storeKey c b.now < storeKey c a.now) (hfresh : ∀ b ∈ log, b.ckey ≠ a.ckey)
    (hadd : historyStep hist (.add a) = some t) :
    Shows c (log ++ [a]) t
      (obs ++ ((Report.histel 0 0 a.el).elements.map Obj.array).toList) := by
  subst hlog
  cases hels : (Report.histel 0 0 a.el).elements with
  | none => exact absurd hels (Option.some_ne_none _)
  | some els =>
      obtain ⟨hentry, hend⟩ := entriesOf_histel hels
      refine h.hear hend (fun b hb => ?_) (fun b hb => List.mem_append_left _ hb) ?_ ?_
      · rw [hentry]
        exact (List.mem_append.mp hb).imp_right fun hb => by
          rw [List.mem_singleton.mp hb]
          exact List.mem_singleton_self _
      · intro x hx
        rw [hentry] at hx
        exact ⟨a, by simp, List.mem_singleton.mp hx⟩
      · intro b hb r hr hmem hlt
        have hidx : r.idx ≠ a.ckey := by
          obtain ⟨b, hb, hidx⟩ := exists_call_of_row hpaged hne hr
          rw [hidx]
          exact hfresh b hb
        obtain ⟨hiter, r', hr', hsame, hentries⟩ :=
          row_of_add hpaged hown hkey hadd hr fun _ => hidx
        refine Or.inr ⟨r', hr', hentries _ hmem, ?_⟩
        rw [hsame, hiter]
        exact hlt

/-- The end is told when everything was shown. -/
theorem Shows.tell_end (h : Shows c log hist obs) (hall : ∀ a ∈ log, a.el.report ∈ shown obs) :
    Shows c log hist (obs ++ ((Report.hist 1 none []).elements.map Obj.array).toList) := by
  cases hels : (Report.hist 1 none []).elements with
  | none => exact absurd hels (Option.some_ne_none _)
  | some els =>
      obtain ⟨hnil, -⟩ := entriesOf_end hels
      have hsame : shown (obs ++ [.array els]) = shown obs := by
        rw [shown_append]
        show shown obs ++ [.array els].flatMap entriesOf = shown obs
        rw [List.flatMap_singleton, hnil, List.append_nil]
      refine ⟨?_, fun a ha => Or.inl ?_, fun _ a ha => ?_⟩
      · show ∀ o ∈ shown (obs ++ [.array els]), _
        rw [hsame]
        exact h.sound
      · show a.el.report ∈ shown (obs ++ [.array els])
        rw [hsame]
        exact hall a ha
      · show a.el.report ∈ shown (obs ++ [.array els])
        rw [hsame]
        exact hall a ha

/-- A bundle is reported, and no row is ahead of the cursor that is above it. -/
theorem Shows.bundle (h : Shows c log hist obs) (hpaged : HistoryPaged c past hist)
    (hlog : addedCalls past = log) {r : Row Text Obj} (hmem : r ∈ current c hist.table)
    (hfirst : ∀ r' ∈ current c hist.table, (∀ i ∈ hist.iter, r'.idx < i) → r'.idx ≤ r.idx)
    (htable : t.table = hist.table) (hiter : t.iter = some r.idx) {idx : Option Text}
    {hlist : List HistEl} (hperm : hlist.Perm r.entries) :
    Shows c log t (obs ++ ((Report.hist 0 idx hlist).elements.map Obj.array).toList) := by
  subst hlog
  cases hels : (Report.hist 0 idx hlist).elements with
  | none => exact absurd hels (Option.some_ne_none _)
  | some els =>
      obtain ⟨hentries, hend⟩ := entriesOf_hist hels
      refine h.hear hend (fun a ha => Or.inl ha) (fun a ha => ha) ?_ ?_
      · intro x hx
        rw [hentries] at hx
        obtain ⟨e, he, rfl⟩ := List.mem_map.mp hx
        obtain ⟨a, ha, rfl⟩ := hpaged.rows.mem_entries hmem (hperm.mem_iff.mp he)
        exact ⟨a, ha, report_stored _⟩
      · intro a ha r' hr' hentry hlt
        by_cases hsame : r'.idx = r.idx
        · obtain rfl : r' = r := List.inj_on_of_nodup_map hpaged.rows.keyed hr' hmem hsame
          left
          rw [hentries, ← report_stored]
          exact List.mem_map_of_mem (hperm.mem_iff.mpr hentry)
        · right
          rw [htable, hiter]
          refine ⟨r', hr', hentry, fun i hi => ?_⟩
          obtain rfl : r.idx = i := Option.some.inj hi
          exact lt_of_le_of_ne (hfirst r' hr' hlt) hsame

/-- **A fetch** reports the next bundle, or that there is none. -/
theorem Shows.fetch (h : Shows c log hist obs) (hpaged : HistoryPaged c past hist)
    (hlog : addedCalls past = log) (hord : c.order = false) {bulk : Option ℕ}
    (hnext : historyNext hist = some (t, bulk)) :
    Shows c log t (obs ++ ((fetchReport (t, bulk)).elements.map Obj.array).toList) := by
  have hselect := PagingHistory.select_eq ⟨hpaged, rfl, rfl⟩ hord
  -- a row is ahead if its `idx` is beyond the cursor
  have hbeyond : ∀ r : Row Text Obj, (∀ i ∈ hist.iter, r.idx < i) →
      beyond (hist.iter.map OrderDual.toDual) (OrderDual.toDual r.idx) = true := by
    intro r hr
    cases hiter : hist.iter with
    | none => rfl
    | some i => exact beyond_some.mpr (OrderDual.toDual_lt_toDual.mpr (hr i hiter))
  rcases historyFetch_cases hnext with ⟨hnone, rfl, rfl⟩ |
    ⟨r, hlist, hr, hperm, hsorted, rfl, rfl⟩
  · -- nothing is ahead, so everything was shown
    rw [hselect] at hnone
    refine h.tell_end fun a ha => (h.ahead a ha).resolve_right ?_
    rintro ⟨r, hr, -, hlt⟩
    exact (nextPage_eq_none _).mp hnone r hr (hbeyond r hlt)
  · rw [hselect] at hr
    have hmem : r ∈ current c hist.table := (mem_of_nextPage_eq_some _ hr).1
    have hidx : getIdx hlist = some r.idx :=
      getIdx_of_underEarliest (hpaged.rows.earliest r hmem) hperm hsorted
    have hget : (hist.lists ++ [hlist]).getD hist.lists.length [] = hlist := by simp
    have hfirst : ∀ r' ∈ current c hist.table, (∀ i ∈ hist.iter, r'.idx < i) →
        r'.idx ≤ r.idx := by
      intro r' hr' hlt
      have hle := nextPage_le _ hr hr' (hbeyond r' hlt)
      exact OrderDual.toDual_le_toDual.mp hle
    unfold fetchReport
    dsimp only
    rw [hget]
    refine h.bundle hpaged hlog hmem hfirst ?_ ?_ hperm
    · rfl
    · exact hidx

end Shows

/-! ## What was sent -/

/-- The client that is connected was sent whole reports, and what it was sent behind the mark
satisfies `P`. -/
def Told (s : Phone) (mark : Option ℕ) (P : List Obj → Prop) : Prop :=
  s.client = true → (∃ all, ReportsHeard s.sent all) ∧ ∀ n ∈ mark, n ≤ s.sent.length ∧
    ∃ old obs, ReportsHeard (s.sent.take n) old ∧ ReportsHeard (s.sent.drop n) obs ∧ P obs

section Told

variable {s t : Phone} {mark : Option ℕ} {P Q : List Obj → Prop}

theorem Told.mono (h : Told s mark P) (hPQ : ∀ obs, P obs → Q obs) : Told s mark Q := by
  intro hclient
  obtain ⟨hall, hmarked⟩ := h hclient
  refine ⟨hall, fun n hn => ?_⟩
  obtain ⟨hle, old, obs, hold, hobs, hP⟩ := hmarked n hn
  exact ⟨hle, old, obs, hold, hobs, hPQ obs hP⟩

/-- **One more report.** -/
theorem Told.report (h : Told s mark P) {r : Report} (hwrite : ∃ e, r.write = some e ∧ r.Framed e)
    (hr : s.report (some r) = some t)
    (hPQ : ∀ obs, P obs → Q (obs ++ (r.elements.map Obj.array).toList)) : Told t mark Q := by
  intro hclient
  obtain ⟨hconn, e, hframed, hsent⟩ := sent_of_report hwrite hr hclient
  obtain ⟨⟨all, hall⟩, hmarked⟩ := h hconn
  rw [hsent]
  refine ⟨⟨_, hall.framed hframed⟩, fun n hn => ?_⟩
  obtain ⟨hle, old, obs, hold, hobs, hP⟩ := hmarked n hn
  rw [List.take_append_of_le_length hle, List.drop_append_of_le_length hle]
  refine ⟨?_, old, _, hold, hobs.framed hframed, hPQ obs hP⟩
  rw [List.length_append]
  omega

/-- The client asks to begin: nothing was sent since. -/
theorem Told.begin (h : Told s mark P) (hQ : Q []) : Told s (some s.sent.length) Q := by
  intro hclient
  obtain ⟨⟨all, hall⟩, -⟩ := h hclient
  refine ⟨⟨all, hall⟩, fun n hn => ?_⟩
  obtain rfl : s.sent.length = n := Option.some.inj hn
  refine ⟨le_rfl, all, [], ?_, ?_, hQ⟩
  · rwa [List.take_length]
  · rw [List.drop_length]
    exact reportsHeard_nil

end Told

/-! ## Events of the calls -/

section Phone

variable {s t : Phone} {e : PhoneEvent}

/-- What is reported of calls is not about the history. -/
theorem callsReport_noHistory {s : Calls} {e : CallsEvent} {dname user : List Byte} {r : Report}
    (h : callsReport s e dname user = some r) : NoHistory r ∧ r.NonNull ∧ r.Countable := by
  rcases callsReport_cases h with ⟨c, rfl⟩ | ⟨c, rfl⟩
  · exact ⟨trivial, Option.some_ne_none _, trivial⟩
  · exact ⟨trivial, Option.some_ne_none _, trivial⟩

/-- Every event reports nothing about the history; a client that connects was sent nothing, and
has no mark. -/
theorem told_phoneStep {l : Logbook} {P : List Obj → Prop} (h : Told l.phone l.mark P)
    (hP : ∀ obs r, NoHistory r → P obs → P (obs ++ (r.elements.map Obj.array).toList))
    (helse : Elsewhere e) (hstep : phoneStep l.phone e = some t) : Told t (l.marked e) P := by
  cases e with
  | accept =>
      unfold phoneStep at hstep
      unfold Logbook.marked
      by_cases hconn : l.phone.client = true
      · rw [if_pos hconn] at hstep
        obtain rfl := Option.some.inj hstep
        rw [if_pos hconn]
        exact h
      · rw [if_neg hconn] at hstep
        obtain rfl := Option.some.inj hstep
        rw [if_neg hconn]
        exact fun _ => ⟨⟨[], reportsHeard_nil⟩, fun n hn => absurd hn (Option.not_mem_none n)⟩
  | eof =>
      obtain ⟨-, ht⟩ := Option.ite_none_right_eq_some.mp hstep
      obtain rfl := Option.some.inj ht
      exact fun hclient => Bool.noConfusion hclient
  | report r => exact h.report (exists_write helse.2.1 helse.2.2) hstep fun obs => hP obs r helse.1
  | calls e dname user =>
      obtain ⟨calls, -, hreport⟩ := Option.bind_eq_some_iff.mp hstep
      have h' : Told { l.phone with
          calls := calls, ended := l.phone.ended ++ callsEnded l.phone.calls e } l.mark P := h
      cases hr : callsReport l.phone.calls e dname user with
      | none =>
          rw [hr] at hreport
          obtain rfl := Option.some.inj hreport
          exact h'
      | some r =>
          rw [hr] at hreport
          obtain ⟨hno, hnull, hcount⟩ := callsReport_noHistory hr
          exact h'.report (exists_write hnull hcount) hreport fun obs => hP obs r hno

theorem ended_phoneStep (hstep : phoneStep s e = some t) : t.ended = s.ended ++ endedBy s e := by
  cases e with
  | accept =>
      unfold phoneStep at hstep
      split_ifs at hstep <;> obtain rfl := Option.some.inj hstep <;>
        exact (List.append_nil _).symm
  | eof =>
      obtain ⟨-, ht⟩ := Option.ite_none_right_eq_some.mp hstep
      obtain rfl := Option.some.inj ht
      exact (List.append_nil _).symm
  | report r =>
      have hr : s.report (some r) = some t := hstep
      exact (report_frame hr).2.1.trans (List.append_nil _).symm
  | calls e dname user =>
      obtain ⟨calls, -, hreport⟩ := Option.bind_eq_some_iff.mp hstep
      exact (report_frame hreport).2.1

/-- There is a name for each call that began. -/
theorem length_named {l : Logbook} (h : l.dnames.length = l.phone.calls.next)
    (hstep : phoneStep l.phone e = some t) : (l.named e).length = t.calls.next := by
  cases e with
  | accept =>
      unfold phoneStep at hstep
      split_ifs at hstep <;> obtain rfl := Option.some.inj hstep <;> exact h
  | eof =>
      obtain ⟨-, ht⟩ := Option.ite_none_right_eq_some.mp hstep
      obtain rfl := Option.some.inj ht
      exact h
  | report r =>
      have hr : l.phone.report (some r) = some t := hstep
      rw [(report_frame hr).1]
      exact h
  | calls e dname user =>
      obtain ⟨calls, hcalls, hreport⟩ := Option.bind_eq_some_iff.mp hstep
      rw [(report_frame hreport).1]
      unfold Logbook.named
      dsimp only
      rw [List.length_append, h]
      cases htarget : target l.phone.calls e with
      | none =>
          obtain rfl := callsStep_no_target htarget hcalls
          cases e.added l.phone.calls <;> rfl
      | some p =>
          obtain ⟨hadded, rfl⟩ := callsStep_target htarget hcalls
          rw [hadded]
          rfl

/-- Names do not change. -/
theorem getD_named {l : Logbook} {i : ℕ} (hi : i < l.dnames.length) :
    (l.named e).getD i [] = l.dnames.getD i [] := by
  cases e with
  | calls e dname user => exact List.getD_append _ _ _ _ hi
  | _ => rfl

/-- A call that an event ends was on the list. -/
theorem lt_of_mem_endedBy (h : Account s.calls s.ended) {d : TcsipCall} (hd : d ∈ endedBy s e) :
    d.id < s.calls.next := by
  cases e with
  | calls e dname user =>
      have hd' : d ∈ callsEnded s.calls e := hd
      unfold callsEnded at hd'
      obtain ⟨hsome, -⟩ := Option.filter_eq_some_iff.mp (Option.mem_toList.mp hd')
      obtain ⟨p, hp, hchanged⟩ := Option.bind_eq_some_iff.mp hsome
      obtain ⟨-, hafter⟩ := Option.ite_none_right_eq_some.mp hchanged
      obtain rfl := Option.some.inj hafter
      exact (h.lt (mem_of_target hp) : p.1.id < s.calls.next)
  | _ => exact absurd hd List.not_mem_nil

/-- An event ends one call, or none. -/
theorem endedBy_cases (s : Phone) (e : PhoneEvent) : endedBy s e = [] ∨ ∃ c, endedBy s e = [c] := by
  cases e with
  | calls e dname user =>
      show callsEnded s.calls e = [] ∨ ∃ c, callsEnded s.calls e = [c]
      unfold callsEnded
      cases ((target s.calls e).bind changed).filter fun c =>
          (tcsipCallHistory c.run.call).isSome with
      | none => exact Or.inl rfl
      | some c => exact Or.inr ⟨c, rfl⟩
  | _ => exact Or.inl rfl

end Phone

/-! ## The invariant -/

@[simp] theorem addedCalls_map_add (log : List HistoryCall) :
    addedCalls (log.map HistoryEvent.add) = log := by
  induction log with
  | nil => rfl
  | cons a log ih => exact congrArg (a :: ·) ih

/-- The history holds the calls that were added, under keys that begin with their seconds; no two
seconds are the same; and the control client was told. -/
structure Recorded (c : StoreClient) (s : Logbook) : Prop where
  paged : HistoryPaged c (s.log.map HistoryEvent.add) s.hist
  keyed : ∀ a ∈ s.log, ∃ rest, a.ckey = fmtD a.ts.toInt ++ byteOf '@' :: rest
  times : (s.log.map HistoryCall.ts).Nodup
  uris : ∀ a ∈ s.log, a.uri ≠ []
  told : Told s.phone s.mark (Shows c s.log s.hist)

theorem keyed_call (s : Logbook) (now : Timeval) (d : TcsipCall) :
    (s.call now d).ckey = fmtD (s.call now d).ts.toInt ++ byteOf '@' :: d.route := by
  have hsec : fmtD (Int32.ofInt d.sec).toInt = fmtD d.sec := by
    rw [fmtD_inj, Int32.toInt_ofInt]
    exact Int.bmod_bmod
  show tcsipcallKey d = fmtD (Int32.ofInt d.sec).toInt ++ byteOf '@' :: d.route
  rw [hsec]
  rfl

section Recorded

variable {c : StoreClient} {s t : Logbook} {now : Timeval} {d : TcsipCall}

theorem Recorded.ckey_ne_nil (h : Recorded c s) : ∀ a ∈ s.log, a.ckey ≠ [] := by
  intro a ha
  obtain ⟨rest, hrest⟩ := h.keyed a ha
  rw [hrest]
  exact fun hnil => List.cons_ne_nil _ _ (List.append_eq_nil_iff.mp hnil).2

/-- Calls of different seconds have different keys. -/
theorem Recorded.ckey_ne (h : Recorded c s) {b : HistoryCall} (hb : b ∈ s.log)
    (hts : b.ts ≠ (s.call now d).ts) : b.ckey ≠ (s.call now d).ckey := by
  obtain ⟨rest, hrest⟩ := h.keyed b hb
  rw [hrest, keyed_call]
  intro heq
  have hsec := ((field_eq_field_iff (at_notMem_fmtD _) (at_notMem_fmtD _)).mp heq).1
  rw [fmtD_inj] at hsec
  have hofInt : Int32.ofInt b.ts.toInt = Int32.ofInt (s.call now d).ts.toInt := by
    rw [← Int32.toInt_inj, Int32.toInt_ofInt, Int32.toInt_ofInt]
    exact hsec
  rw [Int32.ofInt_toInt, Int32.ofInt_toInt] at hofInt
  exact hts hofInt

/-- A call that can be stored is added to a bundle whose entries came back whole. -/
theorem Recorded.startsLater (h : Recorded c s) {a : HistoryCall} (ha : Storable s a) :
    StartsLater s.hist (.add a) := by
  refine ⟨ha.1, fun addr haddr => ⟨ha.2.2.2 addr haddr, fun e he hnone => ?_⟩⟩
  obtain ⟨-, r, hr, -, hperm⟩ := h.paged.top addr haddr
  obtain ⟨b, hb, heq⟩ := h.paged.rows.mem_entries hr
    (hperm.mem_iff.mp (List.mem_map_of_mem he))
  rw [addedCalls_map_add] at hb
  have huri : b.el.stored.uri = some b.uri := uri_stored (h.uris b hb)
  rw [← heq] at huri
  simp [HistEl.stored, hnone] at huri

/-- **A call is added.** -/
theorem Recorded.add (h : Recorded c s) (hs : Storable s (s.call now d))
    (hstep : addCall now s d = some t) : Recorded c t := by
  obtain ⟨phone, hphone, hrest⟩ := Option.bind_eq_some_iff.mp hstep
  obtain ⟨hist, hadd, rfl⟩ := Option.map_eq_some_iff.mp hrest
  set a := s.call now d with ha
  have hown : c.owns (storeKey c a.now) = true := h.paged.store ▸ hs.1
  have hkey : ∀ b ∈ s.log, storeKey c b.now < storeKey c a.now :=
    fun b hb => h.paged.store ▸ (hs.2.2.1 b hb).1
  have hfresh : ∀ b ∈ s.log, b.ckey ≠ a.ckey := fun b hb => h.ckey_ne hb (hs.2.2.1 b hb).2
  have hakey : a.ckey ≠ [] := by
    rw [ha, keyed_call]
    exact fun hnil => List.cons_ne_nil _ _ (List.append_eq_nil_iff.mp hnil).2
  have hlog : (s.log ++ [a]).map HistoryEvent.add = s.log.map HistoryEvent.add ++ [.add a] := by
    rw [List.map_append, List.map_singleton]
  have hnew : ∀ {P : HistoryCall → Prop}, (∀ b ∈ s.log, P b) → P a → ∀ b ∈ s.log ++ [a], P b := by
    intro P hold hnew b hb
    rcases List.mem_append.mp hb with hb | hb
    · exact hold b hb
    · rw [List.mem_singleton.mp hb]
      exact hnew
  refine ⟨?_, hnew h.keyed ⟨_, keyed_call s now d⟩, ?_, hnew h.uris hs.2.1, ?_⟩
  · obtain ⟨hist', hadd', hpaged⟩ := h.paged.add (a := a) (by rwa [addedCalls_map_add])
      (by rwa [addedCalls_map_add]) (by rw [addedCalls_map_add]; exact hnew h.ckey_ne_nil hakey)
      (h.startsLater hs)
    obtain rfl := Option.some.inj (hadd'.symm.trans hadd)
    show HistoryPaged c ((s.log ++ [a]).map HistoryEvent.add) hist'
    rw [hlog]
    exact hpaged
  · show ((s.log ++ [a]).map HistoryCall.ts).Nodup
    exact keyed_append_singleton_iff.mpr ⟨h.times, fun b hb => (hs.2.2.1 b hb).2⟩
  · have hnull : (Report.histel 0 0 a.el).NonNull := ⟨Option.some_ne_none _, Option.some_ne_none _⟩
    refine h.told.report (exists_write hnull trivial) hphone fun obs hshows => ?_
    exact hshows.add h.paged (addedCalls_map_add _) h.ckey_ne_nil hown hkey hfresh hadd

/-- What a fetch reports can be written. -/
theorem Recorded.exists_write_fetch (h : Recorded c s) (hord : c.order = false)
    (hlen : s.log.length < 2 ^ 32) {p : History × Option ℕ} (hnext : historyNext s.hist = some p) :
    ∃ e, (fetchReport p).write = some e ∧ (fetchReport p).Framed e := by
  obtain ⟨hist, bulk⟩ := p
  rcases historyFetch_cases hnext with ⟨-, rfl, rfl⟩ |
    ⟨r, hlist, hr, hperm, hsorted, rfl, rfl⟩
  · exact ⟨_, rfl, framed_head rfl⟩
  · have hmem : r ∈ current c s.hist.table := h.paged.mem_of_select hord hr
    have hidx : getIdx hlist = some r.idx :=
      getIdx_of_underEarliest (h.paged.rows.earliest r hmem) hperm hsorted
    have hget : (s.hist.lists ++ [hlist]).getD s.hist.lists.length [] = hlist := by simp
    unfold fetchReport
    dsimp only
    rw [hget, hidx]
    refine exists_write ⟨Option.some_ne_none _, fun e he => ?_⟩ ?_
    · obtain ⟨b, hb, rfl⟩ := h.paged.rows.mem_entries hmem (hperm.mem_iff.mp he)
      rw [addedCalls_map_add] at hb
      refine ⟨?_, ?_⟩
      · rw [key_stored (h.ckey_ne_nil b hb)]
        exact Option.some_ne_none _
      · rw [uri_stored (h.uris b hb)]
        exact Option.some_ne_none _
    · -- a bundle is a part of the calls
      have hpart := (h.paged.rows.entries_perm hmem).length_eq
      rw [List.length_append, List.length_map, addedCalls_map_add] at hpart
      show hlist.length < 2 ^ 32
      rw [hperm.length_eq]
      omega

/-- **A fetch.** -/
theorem Recorded.fetch (h : Recorded c s) (hord : c.order = false)
    (hlen : s.log.length < 2 ^ 32) (hstep : tcsipHistIpc s false = some t) : Recorded c t := by
  obtain ⟨⟨hist, bulk⟩, hnext, hrest⟩ := Option.bind_eq_some_iff.mp hstep
  obtain ⟨phone, hphone, rfl⟩ := Option.map_eq_some_iff.mp hrest
  refine ⟨h.paged.fetch hord hnext, h.keyed, h.times, h.uris, ?_⟩
  refine h.told.report (h.exists_write_fetch hord hlen hnext) hphone fun obs hshows => ?_
  exact hshows.fetch h.paged (addedCalls_map_add _) hord hnext

/-- The cursor goes back, and the client begins. -/
theorem Recorded.begin (h : Recorded c s) :
    Recorded c { s with hist := historyReset s.hist, mark := some s.phone.sent.length } := by
  have hpaged : HistoryPaged c (s.log.map HistoryEvent.add) (historyReset s.hist) :=
    h.paged.forget rfl rfl rfl
  exact ⟨hpaged, h.keyed, h.times, h.uris,
    h.told.begin (shows_nil hpaged rfl (addedCalls_map_add _))⟩

/-- Nothing is kept in memory. -/
theorem Recorded.forget (h : Recorded c s) :
    Recorded c { s with hist := historyAlloc s.hist.store s.hist.table } :=
  ⟨h.paged.forget rfl rfl rfl, h.keyed, h.times, h.uris,
    h.told.mono fun _ hshows => hshows.rewind rfl rfl⟩

end Recorded

/-- The history is recorded, with the calls that ended in this process. -/
structure Inv (c : StoreClient) (s : Logbook) : Prop where
  recorded : Recorded c s
  account : Account s.phone.calls s.phone.ended
  names : s.dnames.length = s.phone.calls.next
  ended : ∀ d ∈ s.phone.ended, ∃ now, s.call now d ∈ s.log

theorem inv_init (c : StoreClient) : Inv c (Logbook.init c) := by
  have hpaged : HistoryPaged c [] (historyAlloc c []) :=
    ⟨rfl, pagedRows_nil c, fun addr haddr => absurd haddr (Option.not_mem_none addr)⟩
  refine ⟨⟨hpaged, ?_, List.nodup_nil, ?_, ?_⟩, account_init, rfl, ?_⟩
  · exact fun _ ha => absurd ha List.not_mem_nil
  · exact fun _ ha => absurd ha List.not_mem_nil
  · exact fun hclient => Bool.noConfusion hclient
  · exact fun _ hd => absurd hd List.not_mem_nil

section Inv

variable {c : StoreClient} {s t : Logbook}

/-- The entry of a call depends on its name only. -/
theorem call_eq {d : TcsipCall} (hname : t.dnames.getD d.id [] = s.dnames.getD d.id [])
    (now : Timeval) : t.call now d = s.call now d := by
  unfold Logbook.call
  rw [hname]

/-- Nothing happens to the calls. -/
theorem Inv.keep (h : Inv c s) (hrec : Recorded c t) (hcalls : t.phone.calls = s.phone.calls)
    (hended : t.phone.ended = s.phone.ended) (hdnames : t.dnames = s.dnames)
    (hlog : t.log = s.log) : Inv c t := by
  refine ⟨hrec, ?_, ?_, fun d hd => ?_⟩
  · rw [hcalls, hended]
    exact h.account
  · rw [hdnames, hcalls]
    exact h.names
  · rw [hended] at hd
    obtain ⟨now, hmem⟩ := h.ended d hd
    refine ⟨now, ?_⟩
    rw [call_eq (congrArg (fun l => l.getD d.id []) hdnames), hlog]
    exact hmem

theorem tcsipHistIpc_frame {flag : Bool} (h : tcsipHistIpc s flag = some t) :
    t.phone.calls = s.phone.calls ∧ t.phone.ended = s.phone.ended ∧
      t.phone.client = s.phone.client ∧ t.dnames = s.dnames ∧ t.log = s.log ∧ t.mark = s.mark := by
  obtain ⟨p, -, hrest⟩ := Option.bind_eq_some_iff.mp h
  obtain ⟨phone, hphone, rfl⟩ := Option.map_eq_some_iff.mp hrest
  obtain ⟨hcalls, hended, hclient, -⟩ := report_frame hphone
  exact ⟨hcalls, hended, hclient, rfl, rfl, rfl⟩

theorem addCall_frame {now : Timeval} {d : TcsipCall} (h : addCall now s d = some t) :
    t.phone.calls = s.phone.calls ∧ t.phone.ended = s.phone.ended ∧ t.dnames = s.dnames ∧
      t.log = s.log ++ [s.call now d] := by
  obtain ⟨phone, hphone, hrest⟩ := Option.bind_eq_some_iff.mp h
  obtain ⟨hist, -, rfl⟩ := Option.map_eq_some_iff.mp hrest
  obtain ⟨hcalls, hended, -, -⟩ := report_frame hphone
  exact ⟨hcalls, hended, rfl, rfl⟩

/-- **Something happens to the calls**, and one of them may end. -/
theorem Inv.phone (h : Inv c s) {e : PhoneEvent} {now : Timeval} (hC : Kept s (.phone e now))
    (hstep : logbookStep s (.phone e now) = some t) : Inv c t := by
  obtain ⟨hhandled, helse, hstorable⟩ := hC
  obtain ⟨phone, hphone, hadd⟩ := Option.bind_eq_some_iff.mp hstep
  have hrec := h.recorded
  set mid : Logbook := { s with phone := phone, dnames := s.named e, mark := s.marked e }
  have hmid : Recorded c mid :=
    ⟨hrec.paged, hrec.keyed, hrec.times, hrec.uris,
      told_phoneStep hrec.told (fun obs r hr hshows => hshows.other hr) helse hphone⟩
  have haccount : Account phone.calls phone.ended :=
    account_step s.phone e phone h.account hhandled hphone
  have hnames : (s.named e).length = phone.calls.next := length_named h.names hphone
  have hended := ended_phoneStep hphone
  -- a call that ended, or ends now, keeps its name
  have hcall : ∀ {d : TcsipCall}, d.id < s.phone.calls.next → ∀ now',
      mid.call now' d = s.call now' d :=
    fun hd => call_eq (getD_named (h.names ▸ hd))
  have hold : ∀ d ∈ s.phone.ended, ∃ now', mid.call now' d ∈ s.log := by
    intro d hd
    obtain ⟨now', hmem⟩ := h.ended d hd
    refine ⟨now', ?_⟩
    rw [hcall (h.account.lt_of_mem_ended hd)]
    exact hmem
  rcases endedBy_cases s.phone e with hnil | ⟨d, hd⟩
  · rw [hnil] at hadd hended
    obtain rfl : mid = t := Option.some.inj hadd
    rw [List.append_nil] at hended
    exact ⟨hmid, haccount, hnames, fun d hd => hold d (hended ▸ hd)⟩
  · have hmem : d ∈ endedBy s.phone e := hd ▸ List.mem_singleton_self d
    have hs : Storable mid (mid.call now d) := by
      rw [hcall (lt_of_mem_endedBy h.account hmem)]
      exact hstorable d hmem
    rw [hd] at hadd hended
    have hadd' : addCall now mid d = some t := by simpa using hadd
    obtain ⟨hcalls, htended, hdnames, hlog⟩ := addCall_frame hadd'
    refine ⟨hmid.add hs hadd', ?_, ?_, fun d' hd' => ?_⟩
    · rw [hcalls, htended]
      exact haccount
    · rw [hdnames, hcalls]
      exact hnames
    · have hsame := call_eq (congrArg (fun l => l.getD d'.id []) hdnames)
      rw [htended] at hd'
      have hd'' : d' ∈ s.phone.ended ++ [d] := hended ▸ hd'
      rcases List.mem_append.mp hd'' with hd'' | hd''
      · obtain ⟨now', hmem⟩ := hold d' hd''
        refine ⟨now', ?_⟩
        rw [hsame, hlog]
        exact List.mem_append_left _ hmem
      · obtain rfl := List.mem_singleton.mp hd''
        refine ⟨now, ?_⟩
        rw [hsame, hlog]
        exact List.mem_append_right _ (List.mem_singleton_self _)

/-- **One event.** -/
theorem inv_step (hord : c.order = false) (s : Logbook) (e : LogbookEvent) (t : Logbook)
    (h : Inv c s) (hC : Kept s e) (hstep : logbookStep s e = some t) : Inv c t := by
  cases e with
  | phone e now => exact h.phone hC hstep
  | fetch flag =>
      obtain ⟨-, hfetch⟩ := Option.ite_none_right_eq_some.mp hstep
      obtain ⟨hcalls, hended, -, hdnames, hlog, -⟩ := tcsipHistIpc_frame hfetch
      refine h.keep ?_ hcalls hended hdnames hlog
      cases flag with
      | false => exact h.recorded.fetch hord hC hfetch
      | true => exact h.recorded.begin.fetch hord hC hfetch
  | login =>
      obtain rfl := Option.some.inj hstep
      exact h.keep h.recorded.forget rfl rfl rfl rfl
  | restart =>
      obtain rfl := Option.some.inj hstep
      have hrec := h.recorded
      exact ⟨⟨hrec.paged.forget rfl rfl rfl, hrec.keyed, hrec.times, hrec.uris,
        fun hf => Bool.noConfusion hf⟩, account_init, rfl, fun _ hd => absurd hd List.not_mem_nil⟩

end Inv

/-- **The control client has the history.**  After any run in which calls can be stored, every
call that ended in this process is in the history.  What was sent to the client that is connected
is whole reports; those since it last asked to begin show nothing but calls that ended, and all of
them as soon as one of them has told that there are no more bundles. -/
theorem shows_history {login : Text} {letter : CChar} {es : List LogbookEvent}
    (hmeet : StepsMeet logbookStep Kept (.init (storeOpen login letter)) es) {t : Logbook}
    (hrun : run logbookStep (.init (storeOpen login letter)) es = some t)
    (hclient : t.phone.client = true) :
    (∀ d ∈ t.phone.ended, ∃ now, t.call now d ∈ t.log) ∧
      ∀ n ∈ t.mark, ∃ old obs,
        Reads (Unpacker.fresh.feed (t.phone.sent.take n)) old .fresh ∧
        Reads (Unpacker.fresh.feed (t.phone.sent.drop n)) obs .fresh ∧
        (∀ o ∈ shown obs, ∃ a ∈ t.log, o = a.el.report) ∧
        ((∃ o ∈ obs, tellsEnd o = true) → ∀ a ∈ t.log, a.el.report ∈ shown obs) := by
  have h : Inv (storeOpen login letter) t :=
    run_invariant logbookStep (inv_step rfl) (inv_init _) hmeet hrun
  refine ⟨h.ended, fun n hn => ?_⟩
  obtain ⟨-, hmarked⟩ := h.recorded.told hclient
  obtain ⟨-, old, obs, hold, hobs, hshows⟩ := hmarked n hn
  exact ⟨old, obs, hold.reads, hobs.reads, hshows.sound, hshows.done⟩

/-- Alice calls Bob, who hangs up; the client asks for the history; then Carol calls, and gives
up. -/
def twoCalls : List LogbookEvent :=
  [.phone .accept ⟨1400000000, 0⟩,
    .phone (.calls (.start true 1400000000 (lit "sip:alice@x") (lit "sip:bob@x") false true)
      (bytes (lit "Bob")) (bytes (lit "bob"))) ⟨1400000000, 0⟩,
    .phone (.calls (.happens 0 (.iceOk false)) [] []) ⟨1400000001, 0⟩,
    .phone (.calls (.happens 0 (.establish false)) [] []) ⟨1400000002, 0⟩,
    .phone (.calls (.happens 0 .close) [] []) ⟨1400000009, 0⟩,
    .fetch true,
    .phone (.calls (.incoming 0 1400000010 (lit "sip:alice@x") (lit "sip:carol@x") false false true)
      (bytes (lit "Carol")) (bytes (lit "carol"))) ⟨1400000010, 0⟩,
    .phone (.calls (.happens 1 .close) [] []) ⟨1400000012, 500⟩,
    .fetch false]

theorem shows_history_twoCalls :
    ∃ t, run logbookStep (.init (storeOpen (lit "alice") (byteOf 'h'))) twoCalls = some t ∧
      t.log.length = 2 ∧ ∃ n ∈ t.mark, ∃ old obs,
        Reads (Unpacker.fresh.feed (t.phone.sent.take n)) old .fresh ∧
        Reads (Unpacker.fresh.feed (t.phone.sent.drop n)) obs .fresh ∧
        (∀ o ∈ shown obs, ∃ a ∈ t.log, o = a.el.report) ∧
        ((∃ o ∈ obs, tellsEnd o = true) → ∀ a ∈ t.log, a.el.report ∈ shown obs) := by
  have hends : (run logbookStep (.init (storeOpen (lit "alice") (byteOf 'h'))) twoCalls).map
      (fun t => (t.phone.client, t.log.length, t.mark.isSome)) = some (true, 2, true) := by
    decide +kernel
  obtain ⟨t, hrun, ht⟩ := Option.map_eq_some_iff.mp hends
  obtain ⟨hclient, ht⟩ := Prod.mk.inj ht
  obtain ⟨hlen, hmark⟩ := Prod.mk.inj ht
  obtain ⟨n, hn⟩ := Option.isSome_iff_exists.mp hmark
  exact ⟨t, hrun, hlen, n, hn, (shows_history (by decide +kernel) hrun hclient).2 n hn⟩

/-! ## Asking until the end -/

/-- The rows that the cursor has still to reach. -/
def toReach (c : StoreClient) (hist : History) : List (Row Text Obj) :=
  (current c hist.table).filter fun r =>
    beyond (hist.iter.map OrderDual.toDual) (OrderDual.toDual r.idx)

section Asking

variable {c : StoreClient} {s t : Logbook}

/-- The end was told, or the cursor has fewer than `n` rows to reach. -/
def Nears (c : StoreClient) (n : ℕ) (hist : History) (obs : List Obj) : Prop :=
  (∃ o ∈ obs, tellsEnd o = true) ∨ (toReach c hist).length < n

theorem Recorded.exists_fetch (h : Recorded c s) (hord : c.order = false)
    (hlen : s.log.length < 2 ^ 32) : ∃ t, tcsipHistIpc s false = some t := by
  obtain ⟨p, hp⟩ := h.paged.exists_fetch hord (by rw [addedCalls_map_add]; exact h.times)
    s.hist.iter
  have hnext : historyNext s.hist = some p := hp
  obtain ⟨e, he, -⟩ := h.exists_write_fetch hord hlen hnext
  refine ⟨{ s with phone := s.phone.writeFd e, hist := p.1 }, ?_⟩
  show (historyNext s.hist).bind _ = _
  rw [hnext, Option.bind_some]
  show ((fetchReport p).write.map s.phone.writeFd).map _ = _
  rw [he]
  rfl

/-- **A fetch** tells the end, or brings the cursor to another row. -/
theorem nears_fetch {past : List HistoryEvent} {hist hist' : History} (h : HistoryPaged c past hist)
    (hord : c.order = false) {n : ℕ} {obs : List Obj} {bulk : Option ℕ}
    (hnext : historyNext hist = some (hist', bulk)) (hnears : Nears c (n + 1) hist obs) :
    Nears c n hist' (obs ++ ((fetchReport (hist', bulk)).elements.map Obj.array).toList) := by
  rcases hnears with ⟨o, ho, htells⟩ | hlt
  · exact Or.inl ⟨o, List.mem_append_left _ ho, htells⟩
  · rcases historyFetch_cases hnext with ⟨-, rfl, rfl⟩ |
      ⟨r, hlist, hr, hperm, hsorted, rfl, rfl⟩
    · refine Or.inl ⟨.array [litOf "hist.res", intOf 1], ?_, (entriesOf_end rfl).2⟩
      exact List.mem_append_right _ (List.mem_singleton_self _)
    · right
      have hmem : r ∈ current c hist.table := h.mem_of_select hord hr
      rw [PagingHistory.select_eq ⟨h, rfl, rfl⟩ hord] at hr
      have hidx : getIdx hlist = some r.idx :=
        getIdx_of_underEarliest (h.rows.earliest r hmem) hperm hsorted
      have hless := (filter_beyond_perm _ h.rows.keyed_dual hr).length_eq
      rw [List.length_cons] at hless
      unfold toReach at hlt ⊢
      rw [hless] at hlt
      dsimp only
      rw [hidx, Option.map_some]
      omega

/-- Asking `n` times brings the end, if there are fewer rows to reach. -/
theorem Recorded.asks (h : Recorded c s) (hord : c.order = false)
    (hlen : s.log.length < 2 ^ 32) (hclient : s.phone.client = true) {n : ℕ}
    (htold : Told s.phone s.mark fun obs => Shows c s.log s.hist obs ∧ Nears c n s.hist obs) :
    ∃ t, run logbookStep s (List.replicate n (.fetch false)) = some t ∧ t.log = s.log ∧
      t.mark = s.mark ∧ t.phone.client = true ∧ Told t.phone t.mark fun obs =>
        Shows c t.log t.hist obs ∧ Nears c 0 t.hist obs := by
  induction n generalizing s with
  | zero => exact ⟨s, rfl, rfl, rfl, hclient, htold⟩
  | succ n ih =>
      obtain ⟨u, hu⟩ := h.exists_fetch hord hlen
      obtain ⟨-, -, huclient, -, hulog, humark⟩ := tcsipHistIpc_frame hu
      have hstep : logbookStep s (.fetch false) = some u := (if_pos hclient).trans hu
      have hutold : Told u.phone u.mark fun obs =>
          Shows c u.log u.hist obs ∧ Nears c n u.hist obs := by
        obtain ⟨⟨hist, bulk⟩, hnext, hrest⟩ := Option.bind_eq_some_iff.mp hu
        obtain ⟨phone, hphone, rfl⟩ := Option.map_eq_some_iff.mp hrest
        refine htold.report (h.exists_write_fetch hord hlen hnext) hphone fun obs hP => ?_
        exact ⟨hP.1.fetch h.paged (addedCalls_map_add _) hord hnext,
          nears_fetch h.paged hord hnext hP.2⟩
      obtain ⟨t, hrun, hlog, hmark, hconn, ht⟩ := ih (h.fetch hord hlen hu) (hulog ▸ hlen)
        (huclient.trans hclient) hutold
      refine ⟨t, ?_, hlog.trans hulog, hmark.trans humark, hconn, ht⟩
      exact (run_cons_eq_some logbookStep).mpr ⟨u, hstep, hrun⟩

end Asking

/-- **The control client gets the history.**  After any run in which calls can be stored, a client
that asks to begin, and goes on as often as there are rows, gets an answer each time, and what it is
sent meanwhile shows exactly the calls that ever ended. -/
theorem fetches_history {login : Text} {letter : CChar} {es : List LogbookEvent}
    (hmeet : StepsMeet logbookStep Kept (.init (storeOpen login letter)) es) {s : Logbook}
    (hrun : run logbookStep (.init (storeOpen login letter)) es = some s)
    (hclient : s.phone.client = true) (hlen : s.log.length < 2 ^ 32) :
    ∃ t, run logbookStep s
        (.fetch true :: List.replicate s.hist.table.length (.fetch false)) = some t ∧
      t.log = s.log ∧ ∃ obs,
        Reads (Unpacker.fresh.feed (t.phone.sent.drop s.phone.sent.length)) obs .fresh ∧
        ∀ o, o ∈ shown obs ↔ ∃ a ∈ t.log, o = a.el.report := by
  have h : Inv (storeOpen login letter) s :=
    run_invariant logbookStep (inv_step rfl) (inv_init _) hmeet hrun
  have hbegin := h.recorded.begin
  have hnil : Shows (storeOpen login letter) s.log (historyReset s.hist) [] :=
    shows_nil hbegin.paged rfl (addedCalls_map_add _)
  have hnears : Nears (storeOpen login letter) (s.hist.table.length + 1) (historyReset s.hist) [] :=
    Or.inr (Nat.lt_succ_of_le (length_filter_current_le _ s.hist.table _))
  -- the first fetch, after the reset, is one more
  obtain ⟨t, ht, hlog, hmark, hconn, htold⟩ := hbegin.asks rfl hlen hclient
    (h.recorded.told.begin ⟨hnil, hnears⟩)
  refine ⟨t, ?_, hlog, ?_⟩
  · obtain ⟨u, hu, hrest⟩ := (run_cons_eq_some logbookStep).mp ht
    exact (run_cons_eq_some logbookStep).mpr ⟨u, hu, hrest⟩
  · obtain ⟨-, hmarked⟩ := htold hconn
    obtain ⟨-, -, obs, -, hobs, hshows, hend⟩ := hmarked _ hmark
    have hdone := hshows.done (hend.resolve_right (Nat.not_lt_zero _))
    refine ⟨obs, hobs.reads, fun o => ⟨hshows.sound o, ?_⟩⟩
    rintro ⟨a, ha, rfl⟩
    exact hdone a ha

/-- A client that asks to begin again after the two calls is sent both. -/
theorem fetches_history_twoCalls :
    ∃ s t, run logbookStep (.init (storeOpen (lit "alice") (byteOf 'h'))) twoCalls = some s ∧
      run logbookStep s (.fetch true :: List.replicate s.hist.table.length (.fetch false)) =
        some t ∧
      t.log.length = 2 ∧ ∃ obs,
        Reads (Unpacker.fresh.feed (t.phone.sent.drop s.phone.sent.length)) obs .fresh ∧
        ∀ o, o ∈ shown obs ↔ ∃ a ∈ t.log, o = a.el.report := by
  have hends : (run logbookStep (.init (storeOpen (lit "alice") (byteOf 'h'))) twoCalls).map
      (fun s => (s.phone.client, s.log.length)) = some (true, 2) := by decide +kernel
  obtain ⟨s, hrun, hs⟩ := Option.map_eq_some_iff.mp hends
  obtain ⟨hclient, hlen⟩ := Prod.mk.inj hs
  obtain ⟨t, ht, hlog, hshows⟩ := fetches_history (by decide +kernel) hrun hclient
    (by rw [hlen]; decide)
  exact ⟨s, t, hrun, ht, by rw [hlog, hlen], hshows⟩

end HistoryMirror
