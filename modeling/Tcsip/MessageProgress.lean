/-
# Progress of automatic flushes

A response that brings the counter to zero starts the next flush.  Only a response 200
takes a message out of `MSTATE_PENDING`; any other final code leaves the row as it is, and
the flush it starts sends the same message again.  So the pending rows get fewer from one
automatic flush to the next exactly when the response in between is a 200 for a message
that still has a pending row (`autoFlushes_decrease_iff`).
-/
import Tcsip.Message

open KeyedList Runs

/-! ## Runs of responses -/

/-- What comes back for the `i`-th outstanding request. -/
structure RequestAnswer where
  i : ℕ
  res : Response
  now : Timeval
  takes : MsgSingle → Bool

/-- The state after an answer. -/
def answerStep (auri : List Byte → Text) (tcmsg : TcMessages) (a : RequestAnswer) :
    Option TcMessages :=
  messageStep auri tcmsg (.response a.i a.res a.now a.takes)

/-- From each automatic flush to the next, the pending rows get fewer. -/
def FlushesDecreasing (tcmsg : TcMessages) : Prop := tcmsg.autoFlushes.IsChain fun n m => m < n

/-- An answer that starts another automatic flush is a 200 to a message that has a pending
row, with a smaller store key than the time of the answer gives. -/
def SettlesPending (tcmsg : TcMessages) (a : RequestAnswer) : Prop :=
  a.res.final = true ∧ a.res ≠ .error ∧ tcmsg.flush = 1 ∧ tcmsg.autoFlushes ≠ [] →
    a.res = .status 200 ∧ ∀ q ∈ tcmsg.sip.requests[a.i]?,
      ∃ r ∈ pendingRows tcmsg.store tcmsg.table,
        r.idx = messageIdx q.msg.tv tcmsg.user q.msg.user ∧
          r.blobKey < storeKey tcmsg.store a.now

instance (tcmsg : TcMessages) : Decidable (FlushesDecreasing tcmsg) :=
  inferInstanceAs (Decidable (List.IsChain _ _))

instance (tcmsg : TcMessages) (a : RequestAnswer) : Decidable (SettlesPending tcmsg a) :=
  inferInstanceAs (Decidable (_ → _))

/-- The number of pending rows. -/
def pendingCount (tcmsg : TcMessages) : ℕ := (pendingRows tcmsg.store tcmsg.table).length

/-! ## What a response does to the pending rows -/

section response

variable {tcmsg : TcMessages} {now : Timeval} {msg : MsgSingle} {res : Response}

/-- A row written as `MSTATE_SYNC` takes away the older pending rows of its `idx`. -/
theorem pendingRows_flagSent (tcmsg : TcMessages) (now : Timeval) (msg : MsgSingle) :
    pendingRows tcmsg.store (flagSent tcmsg now msg .sync).table
      = (pendingRows tcmsg.store tcmsg.table).filter fun r =>
        !decide (r.idx = messageIdx msg.tv tcmsg.user msg.user ∧
          r.blobKey < storeKey tcmsg.store now) := by
  have hnew : ∀ (p : Prop) [Decidable p] (r : Row Text Obj), r.curnt = 1 →
      (if p then [r] else []).filter (fun r => decide (r.curnt = MsgState.pending.toInt)) = [] := by
    intro p _ r hr
    split
    · rw [List.filter_cons_of_neg (by rw [hr]; decide), List.filter_nil]
    · rfl
  unfold pendingRows flagSent writeDb
  dsimp only
  rw [current_storeAddState, List.filter_append, hnew _ _ rfl, List.append_nil,
    List.filter_filter, List.filter_filter]
  apply List.filter_congr
  intro r _
  rw [Bool.eq_iff_iff, Bool.and_eq_true, Bool.and_eq_true, and_comm]
  simp only [Bool.not_eq_true', decide_eq_false_iff_not]

/-- **What a response leaves pending**: a 200 takes away the older rows of its message. -/
theorem pendingRows_responseSeen (tcmsg : TcMessages) (now : Timeval) (msg : MsgSingle)
    (res : Response) :
    pendingRows (responseSeen tcmsg now msg res).store (responseSeen tcmsg now msg res).table
      = (pendingRows tcmsg.store tcmsg.table).filter fun r =>
        !decide (res = .status 200 ∧ r.idx = messageIdx msg.tv tcmsg.user msg.user ∧
          r.blobKey < storeKey tcmsg.store now) := by
  by_cases hres : res = .status 200
  · rw [responseSeen, if_pos hres]
    refine (pendingRows_flagSent { tcmsg with flush := tcmsg.flush - 1 } now msg).trans ?_
    apply List.filter_congr
    intro r _
    simp only [hres, true_and]
  · rw [responseSeen, if_neg hres]
    show pendingRows tcmsg.store tcmsg.table = _
    rw [eq_comm, List.filter_eq_self]
    intro r _
    simp only [hres, false_and, decide_false, Bool.not_false]

/-- Only a 200 to a message with an older pending row makes the pending rows fewer. -/
theorem pendingCount_responseSeen_lt :
    pendingCount (responseSeen tcmsg now msg res) < pendingCount tcmsg
      ↔ res = .status 200 ∧ ∃ r ∈ pendingRows tcmsg.store tcmsg.table,
        r.idx = messageIdx msg.tv tcmsg.user msg.user ∧ r.blobKey < storeKey tcmsg.store now := by
  unfold pendingCount
  rw [pendingRows_responseSeen, List.length_filter_lt_length_iff_exists]
  constructor
  · rintro ⟨r, hr, hhit⟩
    simp only [Bool.not_eq_true, Bool.not_eq_false', decide_eq_true_eq] at hhit
    exact ⟨hhit.1, r, hr, hhit.2⟩
  · rintro ⟨hres, r, hr, hhit⟩
    refine ⟨r, hr, ?_⟩
    simp only [Bool.not_eq_true, Bool.not_eq_false', decide_eq_true_eq]
    exact ⟨hres, hhit⟩

/-- No response makes them more. -/
theorem pendingCount_responseSeen_le :
    pendingCount (responseSeen tcmsg now msg res) ≤ pendingCount tcmsg := by
  unfold pendingCount
  rw [pendingRows_responseSeen]
  exact List.length_filter_le _ _

end response

/-! ## One answer -/

/-- Every row is a message.  Once there was an automatic flush, the counter is at most one, and
while it is one, as many rows are pending as were at the last such flush. -/
structure FlushingMessages (tcmsg : TcMessages) : Prop where
  rows : ∀ r ∈ tcmsg.table, IsMessage r
  atMostOne : tcmsg.autoFlushes ≠ [] → tcmsg.flush ≤ 1
  last : tcmsg.autoFlushes ≠ [] → tcmsg.flush = 1 →
    tcmsg.autoFlushes.getLast? = some (pendingCount tcmsg)

section answer

variable {auri : List Byte → Text} {tcmsg t : TcMessages} {a : RequestAnswer}

/-- The state in which the handler tests the counter, for the answer to this request. -/
def tested (tcmsg : TcMessages) (a : RequestAnswer) (q : MsgRequest) : TcMessages :=
  responseSeen (endRequest tcmsg a.i a.res) a.now q.msg a.res

theorem tested_flush (tcmsg : TcMessages) (a : RequestAnswer) (q : MsgRequest) :
    (tested tcmsg a q).flush = tcmsg.flush - 1 := by
  rw [tested, responseSeen_flush, endRequest_flush]

theorem tested_autoFlushes (tcmsg : TcMessages) (a : RequestAnswer) (q : MsgRequest) :
    (tested tcmsg a q).autoFlushes = tcmsg.autoFlushes := by
  rw [tested, responseSeen_autoFlushes, endRequest_eq]

theorem isMessage_tested (hT : ∀ r ∈ tcmsg.table, IsMessage r) (a : RequestAnswer)
    (q : MsgRequest) :
    ∀ r ∈ (tested tcmsg a q).table, IsMessage r := by
  apply isMessage_responseSeen
  rw [endRequest_table]
  exact hT

/-- Only a 200 to a message with an older pending row has made the pending rows fewer. -/
theorem pendingCount_tested_lt (tcmsg : TcMessages) (a : RequestAnswer) (q : MsgRequest) :
    pendingCount (tested tcmsg a q) < pendingCount tcmsg
      ↔ a.res = .status 200 ∧ ∃ r ∈ pendingRows tcmsg.store tcmsg.table,
        r.idx = messageIdx q.msg.tv tcmsg.user q.msg.user ∧
          r.blobKey < storeKey tcmsg.store a.now := by
  rw [tested, endRequest_eq]
  exact pendingCount_responseSeen_lt

/-- No answer has made them more. -/
theorem pendingCount_tested_le (tcmsg : TcMessages) (a : RequestAnswer) (q : MsgRequest) :
    pendingCount (tested tcmsg a q) ≤ pendingCount tcmsg := by
  rw [tested, endRequest_eq]
  exact pendingCount_responseSeen_le

/-- The three things an answer can do: nothing, end a request without a flush, or end it with
one. -/
theorem answerStep_cases (h : answerStep auri tcmsg a = some t) :
    ∃ q, tcmsg.sip.requests[a.i]? = some q ∧
      ((a.res.final = false ∧ t = tcmsg) ∨
      (a.res.final = true ∧ ¬ (a.res ≠ .error ∧ tcmsg.flush = 1) ∧ t = tested tcmsg a q) ∨
      (a.res.final = true ∧ a.res ≠ .error ∧ tcmsg.flush = 1 ∧
        t = tcmessageFlush auri (noteFlush (tested tcmsg a q)) a.takes)) := by
  obtain ⟨q, hq, heq⟩ := Option.map_eq_some_iff.mp h
  refine ⟨q, hq, ?_⟩
  have hcases := messageResponse_cases auri (endRequest tcmsg a.i a.res) a.takes a.now q.msg a.res
  rw [heq, endRequest_flush] at hcases
  rcases hcases with ⟨hprov, ht⟩ | hfinal | hfinal
  · refine Or.inl ⟨hprov, ?_⟩
    rw [ht, endRequest, hprov, if_neg Bool.false_ne_true]
  · exact Or.inr (Or.inl hfinal)
  · exact Or.inr (Or.inr hfinal)

/-- An automatic flush leaves the counter at most at one and the rows as they are, and adds
their number to the record. -/
theorem autoFlush_spec (auri : List Byte → Text) (hT : ∀ r ∈ tcmsg.table, IsMessage r)
    (takes : MsgSingle → Bool) :
    (tcmessageFlush auri (noteFlush tcmsg) takes).flush ≤ 1 ∧
      (tcmessageFlush auri (noteFlush tcmsg) takes).autoFlushes
        = tcmsg.autoFlushes ++ [pendingCount tcmsg] ∧
      pendingCount (tcmessageFlush auri (noteFlush tcmsg) takes) = pendingCount tcmsg := by
  have hnoted : ∀ r ∈ (noteFlush tcmsg).table, IsMessage r := hT
  rcases tcmessageFlush_cases auri hnoted takes with ⟨-, heq⟩ | ⟨_, _, -, -, heq⟩
  · rw [heq]
    exact ⟨zero_le_one, rfl, rfl⟩
  · rw [heq]
    exact ⟨le_rfl, rfl, rfl⟩

/-- **An answer keeps the counter and the record of flushes in step.** -/
theorem flushingMessages_step (hI : FlushingMessages tcmsg) (h : answerStep auri tcmsg a = some t) :
    FlushingMessages t := by
  have hrows := isMessage_step hI.rows h
  obtain ⟨q, -, ⟨-, rfl⟩ | ⟨-, -, rfl⟩ | ⟨-, -, -, rfl⟩⟩ := answerStep_cases h
  · exact hI
  · -- without a flush the counter falls below one
    have hlow : (tested tcmsg a q).autoFlushes ≠ [] → (tested tcmsg a q).flush ≤ 0 := by
      intro hne
      rw [tested_autoFlushes] at hne
      have hle := hI.atMostOne hne
      rw [tested_flush]
      omega
    refine ⟨hrows, fun hne => ?_, fun hne hone => ?_⟩
    · have hle := hlow hne
      omega
    · have hle := hlow hne
      omega
  · obtain ⟨hle, hlog, hcount⟩ := autoFlush_spec auri (isMessage_tested hI.rows a q)
      a.takes
    refine ⟨hrows, fun _ => hle, fun _ _ => ?_⟩
    rw [hlog, hcount]
    exact List.getLast?_concat

/-- **When an answer keeps the pending rows falling.** -/
theorem flushesDecreasing_step (hI : FlushingMessages tcmsg)
    (h : answerStep auri tcmsg a = some t) :
    FlushesDecreasing t ↔ FlushesDecreasing tcmsg ∧ SettlesPending tcmsg a := by
  obtain ⟨q, hq, ⟨hprov, rfl⟩ | ⟨-, hno, rfl⟩ | ⟨hfinal, herr, hone, rfl⟩⟩ := answerStep_cases h
  · exact ⟨fun hd => ⟨hd, fun hf => absurd hf.1 (by simp [hprov])⟩, And.left⟩
  · unfold FlushesDecreasing
    rw [tested_autoFlushes]
    exact ⟨fun hd => ⟨hd, fun hf => absurd ⟨hf.2.1, hf.2.2.1⟩ hno⟩, And.left⟩
  · obtain ⟨-, hlog, -⟩ := autoFlush_spec auri (isMessage_tested hI.rows a q) a.takes
    unfold FlushesDecreasing SettlesPending
    rw [hlog, tested_autoFlushes, List.isChain_append, hq]
    apply and_congr_right
    intro _
    by_cases hne : tcmsg.autoFlushes = []
    · rw [hne]
      simp
    · -- the last flush before this one found as many rows as are pending now
      rw [hI.last hne hone]
      simp [hfinal, herr, hone, hne, pendingCount_tested_lt]

/-- The numbers on record and the number of pending rows stay below a bound. -/
theorem bounded_step {n : ℕ} (hrows : ∀ r ∈ tcmsg.table, IsMessage r)
    (hcount : pendingCount tcmsg ≤ n) (hlog : ∀ m ∈ tcmsg.autoFlushes, m ≤ n)
    (h : answerStep auri tcmsg a = some t) :
    pendingCount t ≤ n ∧ ∀ m ∈ t.autoFlushes, m ≤ n := by
  obtain ⟨q, -, ⟨-, rfl⟩ | ⟨-, -, rfl⟩ | ⟨-, -, -, rfl⟩⟩ := answerStep_cases h
  · exact ⟨hcount, hlog⟩
  · rw [tested_autoFlushes]
    exact ⟨(pendingCount_tested_le tcmsg a q).trans hcount, hlog⟩
  · obtain ⟨-, hlog', hcount'⟩ := autoFlush_spec auri (isMessage_tested hrows a q) a.takes
    have hle := (pendingCount_tested_le tcmsg a q).trans hcount
    rw [hlog', hcount', tested_autoFlushes]
    refine ⟨hle, fun m hm => ?_⟩
    rcases List.mem_append.mp hm with hm | hm
    · exact hlog m hm
    · rw [List.mem_singleton.mp hm]
      exact hle

end answer

/-! ## Whole runs -/

/-- A falling chain of positive numbers is not longer than its bound. -/
theorem length_filter_le_of_isChain {l : List ℕ} {n : ℕ} (h : l.IsChain fun k m => m < k)
    (hn : ∀ m ∈ l, m ≤ n) : (l.filter fun m => decide (0 < m)).length ≤ n := by
  have htrans : IsTrans ℕ fun k m => m < k := ⟨fun _ _ _ hab hbc => hbc.trans hab⟩
  have hnd : l.Nodup := (List.isChain_iff_pairwise.mp h).imp fun hlt => ne_of_gt hlt
  have hsub : l.filter (fun m => decide (0 < m)) ⊆ List.range' 1 n := by
    intro m hm
    obtain ⟨hmem, hpos⟩ := List.mem_filter.mp hm
    have hle := hn m hmem
    have hpos' := of_decide_eq_true hpos
    rw [List.mem_range'_1]
    omega
  calc (l.filter fun m => decide (0 < m)).length
      ≤ (List.range' 1 n).length := ((hnd.filter _).subperm hsub).length_le
    _ = n := List.length_range'

/-- **When automatic flushes make progress.**  Take any state that is reached, and any answers
that come then.  From each automatic flush to the next the pending rows get fewer, exactly
when every answer that starts another one settles a pending row; and then at most as many
automatic flushes find a pending row as there were at the start. -/
theorem autoFlushes_decrease_iff (auri : List Byte → Text) (login localUser : Text)
    {past : List MessageEvent} {answers : List RequestAnswer} {s t : TcMessages}
    (hpast : run (messageStep auri)
      (tcmessageAlloc (storeOpen login (byteOf 'm')) [] localUser) past = some s)
    (hrun : run (answerStep auri) { s with autoFlushes := [] } answers = some t) :
    (FlushesDecreasing t
        ↔ StepsMeet (answerStep auri) SettlesPending { s with autoFlushes := [] } answers) ∧
      (FlushesDecreasing t →
        (t.autoFlushes.filter fun n => decide (0 < n)).length ≤ pendingCount s) := by
  have hrows : ∀ r ∈ s.table, IsMessage r :=
    run_invariant (messageStep auri) (I := fun s => ∀ r ∈ s.table, IsMessage r)
      (C := fun _ _ => True) (fun _ _ _ hT _ hstep => isMessage_step hT hstep)
      (fun _ hr => absurd hr List.not_mem_nil)
      (stepsMeet_of_forall _ (fun _ _ => trivial) _ _) hpast
  have hinit : FlushingMessages { s with autoFlushes := [] } :=
    ⟨hrows, fun hne => absurd rfl hne, fun hne => absurd rfl hne⟩
  have hiff : FlushesDecreasing t ↔
      StepsMeet (answerStep auri) SettlesPending { s with autoFlushes := [] } answers := by
    have hmonitor := run_monitor_iff (answerStep auri)
      (B := FlushesDecreasing) (C := SettlesPending)
      (I := FlushingMessages) (fun _ _ _ hI hstep => flushingMessages_step hI hstep)
      (fun _ _ _ hI hstep => flushesDecreasing_step hI hstep) hinit hrun
    exact hmonitor.trans (and_iff_right List.IsChain.nil)
  refine ⟨hiff, fun hdec => ?_⟩
  -- the numbers on record never exceed the pending rows of the start
  have hstart : (∀ r ∈ s.table, IsMessage r) ∧
      pendingCount { s with autoFlushes := [] } ≤ pendingCount s ∧
      ∀ m ∈ ({ s with autoFlushes := [] } : TcMessages).autoFlushes, m ≤ pendingCount s :=
    ⟨hrows, le_rfl, fun _ hm => absurd hm List.not_mem_nil⟩
  have hbounded := run_invariant (answerStep auri)
    (I := fun u => (∀ r ∈ u.table, IsMessage r) ∧
      pendingCount u ≤ pendingCount s ∧ ∀ m ∈ u.autoFlushes, m ≤ pendingCount s)
    (fun _ _ _ hI _ hstep => ⟨isMessage_step hI.1 hstep, bounded_step hI.1 hI.2.1 hI.2.2 hstep⟩)
    hstart (hiff.mp hdec) hrun
  exact length_filter_le_of_isChain hdec hbounded.2.2

/-- Two messages are stored while the stack is down, then the user goes online. -/
def twoPending : List MessageEvent :=
  [toBob false 1400000000, toBob false 1400000001, .flush fun _ => true]

/-- A final response with this code to the first outstanding request. -/
def answered (scode : ℕ) (sec : ℤ) : RequestAnswer :=
  { i := 0, res := .status scode, now := { sec := sec, usec := 0 }, takes := fun _ => true }

/-- Two such responses. -/
def answeredTwice (scode : ℕ) : List RequestAnswer :=
  [answered scode 1400000100, answered scode 1400000101]

theorem autoFlushes_decrease_twoPending :
    ∃ s t, run (messageStep cstr) aliceMessages twoPending = some s ∧
      run (answerStep cstr) { s with autoFlushes := [] } (answeredTwice 200) = some t ∧
      FlushesDecreasing t ∧
      (t.autoFlushes.filter fun n => decide (0 < n)).length ≤ pendingCount s := by
  have hmeet : ((run (messageStep cstr) aliceMessages twoPending).bind fun s =>
      (run (answerStep cstr) { s with autoFlushes := [] } (answeredTwice 200)).map fun _ =>
        decide (StepsMeet (answerStep cstr) SettlesPending { s with autoFlushes := [] }
          (answeredTwice 200))) = some true := by decide +kernel
  obtain ⟨s, hpast, hrest⟩ := Option.bind_eq_some_iff.mp hmeet
  obtain ⟨t, hrun, hdecide⟩ := Option.map_eq_some_iff.mp hrest
  have hiff := autoFlushes_decrease_iff cstr (lit "alice") (lit "sip:alice@x") hpast hrun
  have hdec := hiff.1.mpr (of_decide_eq_true hdecide)
  exact ⟨s, t, hpast, hrun, hdec, hiff.2 hdec⟩

/-- Two responses 404: each starts a flush that sends the same message again. -/
theorem not_decreasing_notFound :
    ∃ s t, run (messageStep cstr) aliceMessages twoPending = some s ∧
      run (answerStep cstr) { s with autoFlushes := [] } (answeredTwice 404) = some t ∧
      ¬ FlushesDecreasing t := by
  have hfail : ((run (messageStep cstr) aliceMessages twoPending).bind fun s =>
      (run (answerStep cstr) { s with autoFlushes := [] } (answeredTwice 404)).map fun t =>
        decide (FlushesDecreasing t)) = some false := by decide +kernel
  obtain ⟨s, hpast, hrest⟩ := Option.bind_eq_some_iff.mp hfail
  obtain ⟨t, hrun, hdecide⟩ := Option.map_eq_some_iff.mp hrest
  exact ⟨s, t, hpast, hrun, of_decide_eq_false hdecide⟩
