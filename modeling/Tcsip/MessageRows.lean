/-
# The rows of messages

What the events do to the rows under one `idx`, and to the requests.  Whoever writes a row,
the call that sends the message or the response to it or to a copy read back from the store,
prints the `idx` anew from what it holds; reading back does not change it
(`messageIdx_bmod`), and messages of different times have different ones
(`messageIdx_inj`).
-/
import Tcsip.Message

open KeyedList

/-! ## The `idx` of a message -/

theorem fmtD_bmod (n : ℤ) : fmtD (n.bmod (2 ^ 32)) = fmtD n :=
  fmtD_inj.mpr Int.bmod_bmod

theorem fmt06u_bmod (n : ℤ) : fmt06u (n.bmod (2 ^ 32)) = fmt06u n := by
  have hmod : (n.bmod (2 ^ 32)).emod (2 ^ 32) = n.emod (2 ^ 32) := Int.bmod_emod
  unfold fmt06u
  rw [hmod]

/-- Numbers that went through an `int` of the packer print as before. -/
@[simp] theorem messageIdx_bmod (tv : Timeval) (fromAddr toAddr : Text) :
    messageIdx { sec := tv.sec.bmod (2 ^ 32), usec := tv.usec.bmod (2 ^ 32) } fromAddr toAddr
      = messageIdx tv fromAddr toAddr := by
  unfold messageIdx
  rw [fmtD_bmod, fmt06u_bmod]

/-- What `gettimeofday` gives while the seconds fit an `int`. -/
structure Timeval.InRange (tv : Timeval) : Prop where
  sec : -2147483648 ≤ tv.sec ∧ tv.sec < 2147483648
  usec : 0 ≤ tv.usec ∧ tv.usec < 1000000

instance (tv : Timeval) : Decidable tv.InRange :=
  decidable_of_iff ((-2147483648 ≤ tv.sec ∧ tv.sec < 2147483648) ∧
    (0 ≤ tv.usec ∧ tv.usec < 1000000)) ⟨fun h => ⟨h.1, h.2⟩, fun h => ⟨h.sec, h.usec⟩⟩

/-- Numbers in range come back from the packer as they were. -/
theorem Timeval.InRange.bmod_eq {tv : Timeval} (h : tv.InRange) :
    tv.sec.bmod (2 ^ 32) = tv.sec ∧ tv.usec.bmod (2 ^ 32) = tv.usec := by
  have hsec := h.sec
  have husec := h.usec
  exact ⟨Int.bmod_eq_of_le (by omega) (by omega), Int.bmod_eq_of_le (by omega) (by omega)⟩

/-- **Messages of different times have different `idx`.** -/
theorem messageIdx_inj {tv tv' : Timeval} {fromAddr fromAddr' toAddr toAddr' : Text}
    (h : tv.InRange) (h' : tv'.InRange)
    (heq : messageIdx tv fromAddr toAddr = messageIdx tv' fromAddr' toAddr') : tv = tv' := by
  have hdot : ∀ n, byteOf '.' ∉ fmtD n := notMem_fmtD (by unfold IsDigit; decide) (by decide)
  have hat : ∀ n, byteOf '@' ∉ fmt06u n := notMem_fmt06u (by unfold IsDigit; decide)
  unfold messageIdx at heq
  rw [field_eq_field_iff (hdot _) (hdot _), field_eq_field_iff (hat _) (hat _), fmtD_inj] at heq
  obtain ⟨hsec, husec, -⟩ := heq
  have hsec' : tv.sec = tv'.sec := by
    rwa [h.bmod_eq.1, h'.bmod_eq.1] at hsec
  have husec' : tv.usec = tv'.usec := by
    have hmod : tv.usec % 2 ^ 32 = tv'.usec % 2 ^ 32 := fmt06u_inj husec
    have hlt := h.usec
    have hlt' := h'.usec
    omega
  cases tv
  cases tv'
  simp only at hsec' husec'
  rw [hsec', husec']

/-! ## The rows under one `idx` -/

/-- The rows under `i` that are not obsolete, of whatever client. -/
def rowsAt (T : List (Row Text Obj)) (i : Text) : List (Row Text Obj) :=
  T.filter fun r => decide (r.idx = i ∧ r.curnt ≠ 0)

theorem mem_rowsAt {T : List (Row Text Obj)} {i : Text} {r : Row Text Obj} :
    r ∈ rowsAt T i ↔ r ∈ T ∧ r.idx = i ∧ r.curnt ≠ 0 := by
  rw [rowsAt, List.mem_filter, decide_eq_true_eq]

/-- What `store_obsolete` leaves under `i`. -/
theorem rowsAt_storeObsolete (c : StoreClient) (key idx i : Text) (T : List (Row Text Obj)) :
    rowsAt (storeObsolete c key idx T) i
      = (rowsAt T i).filter fun r =>
        !decide (r.idx = idx ∧ c.owns r.blobKey = true ∧ r.blobKey < key) := by
  unfold rowsAt storeObsolete
  rw [List.filter_map, List.filter_filter]
  induction T with
  | nil => rfl
  | cons r T ih =>
    by_cases hhit : r.idx = idx ∧ c.owns r.blobKey = true ∧ r.blobKey < key
    · rw [List.filter_cons_of_neg (by simp [hhit]), List.filter_cons_of_neg (by simp [hhit])]
      exact ih
    · by_cases hlive : r.idx = i ∧ r.curnt ≠ 0
      · rw [List.filter_cons_of_pos (by simpa [hhit] using hlive),
          List.filter_cons_of_pos (by simpa [hhit] using hlive), List.map_cons, if_neg hhit, ih]
      · rw [List.filter_cons_of_neg (by simpa [hhit] using hlive),
          List.filter_cons_of_neg (by simpa [hhit] using hlive)]
        exact ih

/-- **What a write leaves under `i`.** -/
theorem rowsAt_writeDb (c : StoreClient) (now tv : Timeval) (fromAddr toAddr : Text)
    (data : List Byte) (state : MsgState) (T : List (Row Text Obj)) (i : Text) :
    (rowsAt (writeDb c now tv fromAddr toAddr data state T) i).map Row.curnt
      = (((rowsAt T i).filter fun r => !decide (r.idx = messageIdx tv fromAddr toAddr ∧
          c.owns r.blobKey = true ∧ r.blobKey < storeKey c now)).map Row.curnt) ++
        if messageIdx tv fromAddr toAddr = i then [state.toInt] else [] := by
  have hstate : state.toInt ≠ 0 := by
    cases state <;> decide
  unfold writeDb storeAddState
  dsimp only
  rw [rowsAt_storeObsolete, rowsAt, List.filter_append, List.filter_append, List.map_append,
    ← rowsAt]
  congr 1
  by_cases hi : messageIdx tv fromAddr toAddr = i
  · simp [hi, hstate]
  · simp [hi]

/-- A write changes nothing under another `idx`. -/
theorem rowsAt_writeDb_of_ne {c : StoreClient} {now tv : Timeval} {fromAddr toAddr : Text}
    {data : List Byte} {state : MsgState} {T : List (Row Text Obj)} {i : Text}
    (hi : messageIdx tv fromAddr toAddr ≠ i) :
    (rowsAt (writeDb c now tv fromAddr toAddr data state T) i).map Row.curnt
      = (rowsAt T i).map Row.curnt := by
  rw [rowsAt_writeDb, if_neg hi, List.append_nil, List.filter_eq_self.mpr]
  intro r hr
  have hri := (mem_rowsAt.mp hr).2.1
  simp [hri, Ne.symm hi]

/-! ## What the events do -/

section events

variable {auri : List Byte → Text} {tcmsg : TcMessages}

/-- The requests after a flush: those before it, and some for messages read from the rows. -/
theorem requests_tcmessageFlush (takes : MsgSingle → Bool) :
    ∀ q ∈ (tcmessageFlush auri tcmsg takes).sip.requests,
      q ∈ tcmsg.sip.requests ∨
        ∃ r ∈ tcmsg.table, q.msg ∈ storeBlobParse (msgParse auri) r.blob := by
  have hfold : ∀ (L : List MsgSingle) (s : TcMessages),
      ∀ q ∈ (L.foldl (sendPending takes) s).sip.requests, q ∈ s.sip.requests ∨ q.msg ∈ L := by
    intro L
    induction L with
    | nil => exact fun s q hq => Or.inl hq
    | cons m L ih =>
      intro s q hq
      rcases ih (sendPending takes s m) q hq with hq | hq
      · unfold sendPending msend at hq
        rcases List.mem_append.mp hq with hq | hq
        · exact Or.inl hq
        · split at hq
          · rw [List.mem_singleton.mp hq]
            exact Or.inr List.mem_cons_self
          · exact absurd hq List.not_mem_nil
      · exact Or.inr (List.mem_cons_of_mem m hq)
  intro q hq
  unfold tcmessageFlush storeFetchState at hq
  dsimp only at hq
  cases hfirst : firstPending tcmsg with
  | none =>
    rw [show storeSelect _ none MsgState.pending.toInt tcmsg.table = none from hfirst] at hq
    exact Or.inl hq
  | some r =>
    rw [show storeSelect _ none MsgState.pending.toInt tcmsg.table = some r from hfirst] at hq
    rcases hfold _ _ q hq with hq | hq
    · exact Or.inl hq
    · exact Or.inr ⟨r, firstPending_mem hfirst, hq⟩

theorem responseSeen_table (tcmsg : TcMessages) (now : Timeval) (msg : MsgSingle)
    (res : Response) :
    (responseSeen tcmsg now msg res).table =
      if res = .status 200 then
        writeDb tcmsg.store now msg.tv tcmsg.user msg.user msg.data .sync tcmsg.table
      else tcmsg.table := by
  unfold responseSeen flagSent
  split_ifs <;> rfl

theorem responseSeen_user (tcmsg : TcMessages) (now : Timeval) (msg : MsgSingle)
    (res : Response) : (responseSeen tcmsg now msg res).user = tcmsg.user := by
  unfold responseSeen flagSent
  split <;> rfl

/-- **A response** writes the row of its message if it is a 200.  It takes no other requests up
than for messages that it reads from the rows. -/
theorem messageResponse_spec (auri : List Byte → Text) (hT : ∀ r ∈ tcmsg.table, IsMessage r)
    (takes : MsgSingle → Bool) (now : Timeval) (msg : MsgSingle) (res : Response) :
    let t := messageResponse auri tcmsg takes now msg res
    t.table = (responseSeen tcmsg now msg res).table ∧ t.user = tcmsg.user ∧
      ∀ q ∈ t.sip.requests, q ∈ tcmsg.sip.requests ∨
        ∃ r ∈ t.table, q.msg ∈ storeBlobParse (msgParse auri) r.blob := by
  have hseen := isMessage_responseSeen hT now msg res
  have hsip := responseSeen_sip tcmsg now msg res
  have huser := responseSeen_user tcmsg now msg res
  rcases messageResponse_cases auri tcmsg takes now msg res with
    ⟨hprov, heq⟩ | ⟨-, -, heq⟩ | ⟨-, -, -, heq⟩
  · rw [heq, responseSeen_table, if_neg]
    · exact ⟨rfl, rfl, fun q hq => Or.inl hq⟩
    · rintro rfl
      exact absurd hprov (by decide)
  · rw [heq]
    exact ⟨rfl, huser, fun q hq => Or.inl (hsip ▸ hq)⟩
  · rw [heq]
    have hnoted : ∀ r ∈ (noteFlush (responseSeen tcmsg now msg res)).table, IsMessage r := hseen
    have htable := tcmessageFlush_table auri hnoted takes
    refine ⟨htable, ?_, fun q hq => ?_⟩
    · rcases tcmessageFlush_cases auri hnoted takes with ⟨-, h⟩ | ⟨_, _, -, -, h⟩ <;>
        · rw [h]
          exact huser
    · rw [htable]
      rcases requests_tcmessageFlush takes q hq with hq | hq
      · exact Or.inl (hsip ▸ hq)
      · exact Or.inr hq

theorem mem_endRequest {i : ℕ} {res : Response} {q : MsgRequest}
    (h : q ∈ (endRequest tcmsg i res).sip.requests) : q ∈ tcmsg.sip.requests := by
  unfold endRequest at h
  split at h
  · exact List.mem_of_mem_eraseIdx h
  · exact h

/-- The table after an event. -/
def tableAfter (tcmsg : TcMessages) : MessageEvent → List (Row Text Obj)
  | .message _ tv now toAddr text =>
    writeDb tcmsg.store now tv tcmsg.user toAddr (bytes text) .pending tcmsg.table
  | .response i res now _ =>
    match tcmsg.sip.requests[i]? with
    | some q =>
      if res = .status 200 then
        writeDb tcmsg.store now q.msg.tv tcmsg.user q.msg.user q.msg.data .sync tcmsg.table
      else tcmsg.table
    | none => tcmsg.table
  | .incoming now tv fromAddr data =>
    writeDb tcmsg.store now tv fromAddr tcmsg.user data .sync tcmsg.table
  | .flush _ => tcmsg.table
  | .restart => tcmsg.table

theorem tableAfter_response {i : ℕ} {res : Response} {now : Timeval} {takes : MsgSingle → Bool}
    {q : MsgRequest} (hq : tcmsg.sip.requests[i]? = some q) :
    tableAfter tcmsg (.response i res now takes) =
      if res = .status 200 then
        writeDb tcmsg.store now q.msg.tv tcmsg.user q.msg.user q.msg.data .sync tcmsg.table
      else tcmsg.table := by
  rw [tableAfter, hq]

/-- **What an event does to the table**: it writes the row of a new message, or of one that a
200 is for, and nothing else. -/
theorem messageStep_table {e : MessageEvent} {t : TcMessages} (hT : ∀ r ∈ tcmsg.table, IsMessage r)
    (hstep : messageStep auri tcmsg e = some t) :
    t.user = tcmsg.user ∧ t.table = tableAfter tcmsg e := by
  cases e with
  | message takes tv now toAddr text =>
    obtain rfl := Option.some.inj hstep
    exact ⟨rfl, rfl⟩
  | flush takes =>
    obtain rfl := Option.some.inj hstep
    refine ⟨?_, tcmessageFlush_table auri hT takes⟩
    rcases tcmessageFlush_cases auri hT takes with ⟨-, h⟩ | ⟨_, _, -, -, h⟩ <;> rw [h]
  | response i res now takes =>
    obtain ⟨q, hq, rfl⟩ := Option.map_eq_some_iff.mp hstep
    have hend : ∀ r ∈ (endRequest tcmsg i res).table, IsMessage r := by
      rw [endRequest_table]
      exact hT
    obtain ⟨htable, huser, -⟩ := messageResponse_spec auri hend takes now q.msg res
    refine ⟨huser.trans (by rw [endRequest_eq]), ?_⟩
    rw [htable, responseSeen_table, endRequest_eq, tableAfter_response hq]
  | incoming now tv fromAddr data =>
    obtain rfl := Option.some.inj hstep
    exact ⟨rfl, rfl⟩
  | restart =>
    obtain rfl := Option.some.inj hstep
    exact ⟨rfl, rfl⟩

/-- **What an event does to the requests**: it adds one for a new message, or some for messages
that it reads from the rows. -/
theorem messageStep_requests {e : MessageEvent} {t : TcMessages}
    (hT : ∀ r ∈ tcmsg.table, IsMessage r) (hstep : messageStep auri tcmsg e = some t) :
    ∀ q ∈ t.sip.requests, q ∈ tcmsg.sip.requests ∨
      (∃ r ∈ t.table, q.msg ∈ storeBlobParse (msgParse auri) r.blob) ∨
      ∃ takes tv now toAddr text, e = .message takes tv now toAddr text ∧
        q.msg.tv = tv ∧ q.msg.user = toAddr ∧
        q.msg.idx = some (messageIdx tv tcmsg.user toAddr) := by
  cases e with
  | message takes tv now toAddr text =>
    obtain rfl := Option.some.inj hstep
    intro q hq
    unfold tcmessage flagSent msend at hq
    rcases List.mem_append.mp hq with hq | hq
    · exact Or.inl hq
    · split at hq
      · obtain rfl := List.mem_singleton.mp hq
        exact Or.inr (Or.inr ⟨takes, tv, now, toAddr, text, rfl, rfl, rfl, rfl⟩)
      · exact absurd hq List.not_mem_nil
  | flush takes =>
    obtain rfl := Option.some.inj hstep
    intro q hq
    rw [tcmessageFlush_table auri hT takes]
    exact (requests_tcmessageFlush takes q hq).imp_right Or.inl
  | response i res now takes =>
    obtain ⟨p, hp, rfl⟩ := Option.map_eq_some_iff.mp hstep
    have hend : ∀ r ∈ (endRequest tcmsg i res).table, IsMessage r := by
      rw [endRequest_table]
      exact hT
    obtain ⟨-, -, hreq⟩ := messageResponse_spec auri hend takes now p.msg res
    intro q hq
    exact (hreq q hq).imp mem_endRequest Or.inl
  | incoming now tv fromAddr data =>
    obtain rfl := Option.some.inj hstep
    exact fun q hq => Or.inl hq
  | restart =>
    obtain rfl := Option.some.inj hstep
    exact fun q hq => absurd hq List.not_mem_nil

theorem tcmessageFlush_store (hT : ∀ r ∈ tcmsg.table, IsMessage r) (takes : MsgSingle → Bool) :
    storeOrder (tcmessageFlush auri tcmsg takes).store false = storeOrder tcmsg.store false := by
  rcases tcmessageFlush_cases auri hT takes with ⟨-, heq⟩ | ⟨_, _, -, -, heq⟩ <;>
    · rw [heq]
      rfl

theorem responseSeen_store (tcmsg : TcMessages) (now : Timeval) (msg : MsgSingle)
    (res : Response) : (responseSeen tcmsg now msg res).store = tcmsg.store := by
  unfold responseSeen flagSent
  split <;> rfl

/-- Nothing but the order of a client changes. -/
theorem messageStep_store {e : MessageEvent} {t : TcMessages} (hT : ∀ r ∈ tcmsg.table, IsMessage r)
    (hstep : messageStep auri tcmsg e = some t) :
    storeOrder t.store false = storeOrder tcmsg.store false := by
  cases e with
  | message takes tv now toAddr text =>
    obtain rfl := Option.some.inj hstep
    rfl
  | flush takes =>
    obtain rfl := Option.some.inj hstep
    exact tcmessageFlush_store hT takes
  | response i res now takes =>
    obtain ⟨q, -, rfl⟩ := Option.map_eq_some_iff.mp hstep
    have hend : ∀ r ∈ (endRequest tcmsg i res).table, IsMessage r := by
      rw [endRequest_table]
      exact hT
    have hseen : (responseSeen (endRequest tcmsg i res) now q.msg res).store = tcmsg.store := by
      rw [responseSeen_store, endRequest_eq]
    rcases messageResponse_cases auri (endRequest tcmsg i res) takes now q.msg res with
      ⟨-, heq⟩ | ⟨-, -, heq⟩ | ⟨-, -, -, heq⟩
    · rw [heq, endRequest_eq]
    · rw [heq, hseen]
    · have hnoted : ∀ r ∈ (noteFlush (responseSeen (endRequest tcmsg i res) now q.msg res)).table,
          IsMessage r := isMessage_responseSeen hend now q.msg res
      rw [heq, tcmessageFlush_store hnoted]
      exact congrArg (storeOrder · false) hseen
  | incoming now tv fromAddr data =>
    obtain rfl := Option.some.inj hstep
    rfl
  | restart =>
    obtain rfl := Option.some.inj hstep
    rfl

end events
