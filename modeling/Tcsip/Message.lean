/-
# Instant messages

`tcmessage.c` sends a message directly and writes it to the store as `MSTATE_PENDING`; a
response 200 writes it again as `MSTATE_SYNC`.  `tcmessage_flush` reads the first pending
row and sends what is in it once more.  It is called by the user, and by a response that
brings the counter `flush` to zero.

The SIP stack is what the module sees of it: the requests that have not had their final
response, and the calls of `msend` so far.  A message is identified by its `idx`, which is
printed as `%d.%06u@from->to` and never spells a number, so the `idx` of a message row is
the text itself.

`sip_addr_decode` is not part of the repository: the parameter `auri` is the address that
it leaves in the decoded record.
-/
import Tcsip.Runs
import Tcsip.Store

open KeyedList

/-! ## Messages and their rows -/

/-- `enum msg_state`. -/
inductive MsgState where
  | sync
  | server
  | pending
  deriving DecidableEq

/-- The number stored as `curnt`. -/
def MsgState.toInt : MsgState → ℤ
  | .sync => 1
  | .server => 2
  | .pending => 3

/-- `struct msg_single`; the peer is given by its address `user->auri`. -/
structure MsgSingle where
  tv : Timeval
  user : Text
  data : List Byte
  login : Option Text
  idx : Option Text
  deriving DecidableEq

/-- `message_idx`. -/
def messageIdx (tv : Timeval) (fromAddr toAddr : Text) : Text :=
  fmtD tv.sec ++ byteOf '.' :: (fmt06u tv.usec ++ byteOf '@' :: (fromAddr ++ lit "->" ++ toAddr))

/-- The array that `write_db` packs; `msgpack_pack_int` takes an `int`. -/
def messageBlob (tv : Timeval) (toAddr : Text) (data : List Byte) (idx : Text) : Obj :=
  .array [.array [.integer (tv.sec.bmod (2 ^ 32)), .integer (tv.usec.bmod (2 ^ 32)),
    .raw (bytes toAddr), .raw data, .raw (bytes idx)]]

/-- `write_db` with the key that `store_key` gives at the time `now`. -/
def writeDb (c : StoreClient) (now tv : Timeval) (fromAddr toAddr : Text) (data : List Byte)
    (state : MsgState) (T : List (Row Text Obj)) : List (Row Text Obj) :=
  let idx := messageIdx tv fromAddr toAddr
  storeAddState c (storeKey c now) idx (messageBlob tv toAddr data idx) state.toInt T

/-- `msg_parse`. -/
def msgParse (auri : List Byte → Text) : List Obj → Option MsgSingle
  | sec :: usec :: login :: data :: idx :: _ => do
    let sec ← sec.i64
    let usec ← usec.i64
    let login ← login.rawBytes
    let data ← data.rawBytes
    let idx ← idx.rawBytes
    some { tv := { sec := sec, usec := usec }, user := auri login, data := data,
           login := getStr login, idx := getStr idx }
  | _ => none

/-! ## The messages object -/

/-- A request without a final response; `resend` tells whether `send_pending` sent it. -/
structure MsgRequest where
  msg : MsgSingle
  resend : Bool
  deriving DecidableEq

/-- The SIP stack: the outstanding requests, and every call of `msend` with the requests that
were outstanding when it was made. -/
structure SipStack where
  requests : List MsgRequest
  calls : List (MsgSingle × List MsgRequest)

/-- `struct tcmessages`, with the table behind its store client and the SIP stack.
`autoFlushes` has an entry for each call of `tcmessage_flush` by `message_response`: how many
rows were pending then. -/
structure TcMessages where
  store : StoreClient
  table : List (Row Text Obj)
  user : Text
  flush : ℤ
  sip : SipStack
  autoFlushes : List ℕ

/-- `tcmessage_alloc`. -/
def tcmessageAlloc (stc : StoreClient) (table : List (Row Text Obj)) (localUser : Text) :
    TcMessages :=
  { store := stc, table := table, user := localUser, flush := 0,
    sip := { requests := [], calls := [] }, autoFlushes := [] }

/-- `msend`: the request is outstanding if the stack takes the message. -/
def msend (sip : SipStack) (takes : MsgSingle → Bool) (msg : MsgSingle) (resend : Bool) :
    SipStack :=
  { requests := sip.requests ++ if takes msg then [{ msg := msg, resend := resend }] else []
    calls := sip.calls ++ [(msg, sip.requests)] }

/-- `flag_sent`. -/
def flagSent (tcmsg : TcMessages) (now : Timeval) (msg : MsgSingle) (state : MsgState) :
    TcMessages :=
  { tcmsg with
    table := writeDb tcmsg.store now msg.tv tcmsg.user msg.user msg.data state tcmsg.table }

/-- `tcmessage` at the time `tv`.  `flag_sent` sets the `idx` of the message while its request
holds the same message, so the message is built with it. -/
def tcmessage (tcmsg : TcMessages) (takes : MsgSingle → Bool) (tv now : Timeval)
    (toAddr text : Text) : TcMessages :=
  let msg : MsgSingle :=
    { tv := tv, user := toAddr, data := bytes text, login := none,
      idx := some (messageIdx tv tcmsg.user toAddr) }
  flagSent { tcmsg with sip := msend tcmsg.sip takes msg false } now msg .pending

/-- `send_pending`: the counter grows even if the message was not taken. -/
def sendPending (takes : MsgSingle → Bool) (tcmsg : TcMessages) (msg : MsgSingle) : TcMessages :=
  { tcmsg with sip := msend tcmsg.sip takes msg true, flush := tcmsg.flush + 1 }

/-- `tcmessage_flush`. -/
def tcmessageFlush (auri : List Byte → Text) (tcmsg : TcMessages) (takes : MsgSingle → Bool) :
    TcMessages :=
  let tcmsg := { tcmsg with store := storeOrder tcmsg.store true }
  let bulk := storeFetchState tcmsg.store none (msgParse auri) MsgState.pending.toInt tcmsg.table
  let tcmsg := { tcmsg with flush := 0 }
  (bulk.getD []).foldl (sendPending takes) tcmsg

/-- A response, or the error that ends a request without one. -/
inductive Response where
  | status (scode : ℕ)
  | error
  deriving DecidableEq

/-- It ends the request. -/
def Response.final : Response → Bool
  | .status scode => decide (200 ≤ scode)
  | .error => true

/-- The rows in `MSTATE_PENDING`. -/
def pendingRows (c : StoreClient) (T : List (Row Text Obj)) : List (Row Text Obj) :=
  (current c T).filter fun r => decide (r.curnt = MsgState.pending.toInt)

/-- `message_response` up to the test of the counter, for a final response. -/
def responseSeen (tcmsg : TcMessages) (now : Timeval) (msg : MsgSingle) (res : Response) :
    TcMessages :=
  let tcmsg := { tcmsg with flush := tcmsg.flush - 1 }
  if res = .status 200 then flagSent tcmsg now msg .sync else tcmsg

/-- Take down how many rows are pending. -/
def noteFlush (tcmsg : TcMessages) : TcMessages :=
  { tcmsg with
    autoFlushes := tcmsg.autoFlushes ++ [(pendingRows tcmsg.store tcmsg.table).length] }

/-- `message_response`. -/
def messageResponse (auri : List Byte → Text) (tcmsg : TcMessages) (takes : MsgSingle → Bool)
    (now : Timeval) (msg : MsgSingle) (res : Response) : TcMessages :=
  if res.final then
    let tcmsg := responseSeen tcmsg now msg res
    -- after an error the handler returns before it looks at the counter
    if res ≠ .error ∧ tcmsg.flush = 0 then tcmessageFlush auri (noteFlush tcmsg) takes
    else tcmsg
  else tcmsg

/-- `message_incoming`, for a message dated `tv`. -/
def messageIncoming (tcmsg : TcMessages) (now tv : Timeval) (fromAddr : Text) (data : List Byte) :
    TcMessages :=
  { tcmsg with table := writeDb tcmsg.store now tv fromAddr tcmsg.user data .sync tcmsg.table }

/-! ## Runs -/

/-- What can happen to the messages object: a message to send, a flush by the user, a response
to the `i`-th outstanding request, an incoming message, a new process on the same database.
`takes` tells which messages the SIP stack takes, `now` is the time of the store key. -/
inductive MessageEvent where
  | message (takes : MsgSingle → Bool) (tv now : Timeval) (toAddr text : Text)
  | flush (takes : MsgSingle → Bool)
  | response (i : ℕ) (res : Response) (now : Timeval) (takes : MsgSingle → Bool)
  | incoming (now tv : Timeval) (fromAddr : Text) (data : List Byte)
  | restart

/-- The messages object of alice, with an empty store. -/
def aliceMessages : TcMessages :=
  tcmessageAlloc (storeOpen (lit "alice") (byteOf 'm')) [] (lit "sip:alice@x")

/-- A message of alice to bob at the second `t`, stored in the same second. -/
def toBob (taken : Bool) (t : ℤ) : MessageEvent :=
  .message (fun _ => taken) { sec := t, usec := 5 } { sec := t, usec := 9 } (lit "sip:bob@x")
    (lit "hi")

/-- The state in which the handler of the `i`-th request runs: a final response ends the
request. -/
def endRequest (tcmsg : TcMessages) (i : ℕ) (res : Response) : TcMessages :=
  if res.final then
    { tcmsg with sip := { tcmsg.sip with requests := tcmsg.sip.requests.eraseIdx i } }
  else tcmsg

/-- The state after an event; there is no response to a request that is not outstanding. -/
def messageStep (auri : List Byte → Text) (tcmsg : TcMessages) :
    MessageEvent → Option TcMessages
  | .message takes tv now toAddr text => some (tcmessage tcmsg takes tv now toAddr text)
  | .flush takes => some (tcmessageFlush auri tcmsg takes)
  | .response i res now takes =>
    (tcmsg.sip.requests[i]?).map fun q =>
      messageResponse auri (endRequest tcmsg i res) takes now q.msg res
  | .incoming now tv fromAddr data => some (messageIncoming tcmsg now tv fromAddr data)
  | .restart => some { tcmessageAlloc (storeOrder tcmsg.store false) tcmsg.table tcmsg.user with
      sip := { requests := [], calls := tcmsg.sip.calls }
      autoFlushes := tcmsg.autoFlushes }

/-! ## The rows that are written -/

/-- A row that `write_db` wrote. -/
def IsMessage (r : Row Text Obj) : Prop :=
  r.idx ≠ [] ∧ ∃ tv toAddr data, r.blob = messageBlob tv toAddr data r.idx

theorem messageIdx_ne_nil (tv : Timeval) (fromAddr toAddr : Text) :
    messageIdx tv fromAddr toAddr ≠ [] := by
  obtain ⟨c, t, hct, -⟩ := fmtD_eq tv.sec
  rw [messageIdx, hct]
  exact List.cons_ne_nil c _

/-- A write adds a message and changes no blob. -/
theorem isMessage_of_mem_writeDb {c : StoreClient} {now tv : Timeval} {fromAddr toAddr : Text}
    {data : List Byte} {state : MsgState} {T : List (Row Text Obj)}
    (hT : ∀ r ∈ T, IsMessage r) :
    ∀ r ∈ writeDb c now tv fromAddr toAddr data state T, IsMessage r := by
  intro r hr
  rcases mem_storeAddState hr with ⟨r₀, hr₀, -, hidx, hblob⟩ | ⟨-, hidx, hblob⟩
  · obtain ⟨hne, tv₀, toAddr₀, data₀, hr₀blob⟩ := hT r₀ hr₀
    unfold IsMessage
    rw [hidx, hblob]
    exact ⟨hne, tv₀, toAddr₀, data₀, hr₀blob⟩
  · unfold IsMessage
    rw [hidx, hblob]
    exact ⟨messageIdx_ne_nil tv fromAddr toAddr, tv, toAddr, data, rfl⟩

/-- The message in a blob. -/
theorem storeBlobParse_messageBlob (auri : List Byte → Text) (tv : Timeval) (toAddr : Text)
    (data : List Byte) (idx : Text) :
    storeBlobParse (msgParse auri) (messageBlob tv toAddr data idx) =
      [{ tv := { sec := tv.sec.bmod (2 ^ 32), usec := tv.usec.bmod (2 ^ 32) }
         user := auri (bytes toAddr), data := data, login := getStr (bytes toAddr)
         idx := getStr (bytes idx) }] := rfl

/-- **Reading a row back** gives one message, with the `idx` of the row. -/
theorem storeBlobParse_isMessage (auri : List Byte → Text) {r : Row Text Obj} (h : IsMessage r) :
    ∃ msg, storeBlobParse (msgParse auri) r.blob = [msg] ∧ msg.idx = some r.idx := by
  obtain ⟨hne, tv, toAddr, data, hblob⟩ := h
  rw [hblob, storeBlobParse_messageBlob]
  refine ⟨_, rfl, ?_⟩
  show getStr (bytes r.idx) = some r.idx
  rw [getStr_bytes, if_neg hne]

/-! ## What a flush and a response do -/

/-- The row that a flush reads: the pending one with the least `idx`. -/
def firstPending (tcmsg : TcMessages) : Option (Row Text Obj) :=
  storeSelect (storeOrder tcmsg.store true) none MsgState.pending.toInt tcmsg.table

theorem firstPending_eq (tcmsg : TcMessages) :
    firstPending tcmsg = nextPage Row.idx none (pendingRows tcmsg.store tcmsg.table) :=
  storeSelect_eq_nextPage rfl none (by decide) tcmsg.table

theorem firstPending_mem {tcmsg : TcMessages} {r : Row Text Obj}
    (h : firstPending tcmsg = some r) : r ∈ tcmsg.table := by
  rw [firstPending_eq] at h
  have hmem := (mem_of_nextPage_eq_some _ h).1
  exact (mem_current.mp (List.mem_of_mem_filter hmem)).1

/-- **A flush** finds no pending row, or calls `msend` for the message in the first one. -/
theorem tcmessageFlush_cases (auri : List Byte → Text) {tcmsg : TcMessages}
    (hT : ∀ r ∈ tcmsg.table, IsMessage r) (takes : MsgSingle → Bool) :
    (firstPending tcmsg = none ∧
      tcmessageFlush auri tcmsg takes
        = { tcmsg with store := storeOrder tcmsg.store true, flush := 0 }) ∨
      ∃ r msg, firstPending tcmsg = some r ∧ msg.idx = some r.idx ∧
        tcmessageFlush auri tcmsg takes
          = { tcmsg with
              store := storeOrder tcmsg.store true
              flush := 1
              sip := msend tcmsg.sip takes msg true } := by
  have hbulk : storeFetchState (storeOrder tcmsg.store true) none (msgParse auri)
      MsgState.pending.toInt tcmsg.table
        = (firstPending tcmsg).map fun r => storeBlobParse (msgParse auri) r.blob := rfl
  unfold tcmessageFlush
  dsimp only
  rw [hbulk]
  cases hfirst : firstPending tcmsg with
  | none => exact Or.inl ⟨rfl, rfl⟩
  | some r =>
      -- a row holds one message, so one is sent
      obtain ⟨msg, hmsg, hidx⟩ := storeBlobParse_isMessage auri (hT r (firstPending_mem hfirst))
      refine Or.inr ⟨r, msg, rfl, hidx, ?_⟩
      rw [Option.map_some, hmsg]
      rfl

@[simp] theorem tcmessageFlush_table (auri : List Byte → Text) {tcmsg : TcMessages}
    (hT : ∀ r ∈ tcmsg.table, IsMessage r) (takes : MsgSingle → Bool) :
    (tcmessageFlush auri tcmsg takes).table = tcmsg.table := by
  rcases tcmessageFlush_cases auri hT takes with ⟨-, heq⟩ | ⟨_, _, -, -, heq⟩ <;> rw [heq]

theorem responseSeen_flush (tcmsg : TcMessages) (now : Timeval) (msg : MsgSingle)
    (res : Response) : (responseSeen tcmsg now msg res).flush = tcmsg.flush - 1 := by
  unfold responseSeen flagSent
  split <;> rfl

theorem responseSeen_sip (tcmsg : TcMessages) (now : Timeval) (msg : MsgSingle)
    (res : Response) : (responseSeen tcmsg now msg res).sip = tcmsg.sip := by
  unfold responseSeen flagSent
  split <;> rfl

theorem responseSeen_autoFlushes (tcmsg : TcMessages) (now : Timeval) (msg : MsgSingle)
    (res : Response) : (responseSeen tcmsg now msg res).autoFlushes = tcmsg.autoFlushes := by
  unfold responseSeen flagSent
  split <;> rfl

theorem isMessage_responseSeen {tcmsg : TcMessages} (hT : ∀ r ∈ tcmsg.table, IsMessage r)
    (now : Timeval) (msg : MsgSingle) (res : Response) :
    ∀ r ∈ (responseSeen tcmsg now msg res).table, IsMessage r := by
  unfold responseSeen
  split
  · exact isMessage_of_mem_writeDb hT
  · exact hT

/-- **A response** is provisional and changes nothing, or it is final; then it leads to a flush
exactly when it is no error and brings the counter to zero. -/
theorem messageResponse_cases (auri : List Byte → Text) (tcmsg : TcMessages)
    (takes : MsgSingle → Bool) (now : Timeval) (msg : MsgSingle) (res : Response) :
    (res.final = false ∧ messageResponse auri tcmsg takes now msg res = tcmsg) ∨
    (res.final = true ∧ ¬ (res ≠ .error ∧ tcmsg.flush = 1) ∧
      messageResponse auri tcmsg takes now msg res = responseSeen tcmsg now msg res) ∨
    (res.final = true ∧ res ≠ .error ∧ tcmsg.flush = 1 ∧
      messageResponse auri tcmsg takes now msg res
        = tcmessageFlush auri (noteFlush (responseSeen tcmsg now msg res)) takes) := by
  unfold messageResponse
  dsimp only
  rw [responseSeen_flush]
  by_cases hfinal : res.final = true
  · rw [if_pos hfinal]
    by_cases hflush : res ≠ .error ∧ tcmsg.flush - 1 = 0
    · rw [if_pos hflush]
      exact Or.inr (Or.inr ⟨hfinal, hflush.1, by omega, rfl⟩)
    · rw [if_neg hflush]
      refine Or.inr (Or.inl ⟨hfinal, ?_, rfl⟩)
      rintro ⟨herr, hone⟩
      exact hflush ⟨herr, by omega⟩
  · rw [if_neg hfinal]
    exact Or.inl ⟨by simpa using hfinal, rfl⟩

/-- The end of a request changes nothing but the SIP stack. -/
theorem endRequest_eq (tcmsg : TcMessages) (i : ℕ) (res : Response) :
    endRequest tcmsg i res = { tcmsg with sip := (endRequest tcmsg i res).sip } := by
  unfold endRequest
  split <;> rfl

theorem endRequest_table (tcmsg : TcMessages) (i : ℕ) (res : Response) :
    (endRequest tcmsg i res).table = tcmsg.table := by
  rw [endRequest_eq]

theorem endRequest_flush (tcmsg : TcMessages) (i : ℕ) (res : Response) :
    (endRequest tcmsg i res).flush = tcmsg.flush := by
  rw [endRequest_eq]

/-- **Every row is a message**, after every step. -/
theorem isMessage_step {auri : List Byte → Text} {tcmsg t : TcMessages} {e : MessageEvent}
    (hT : ∀ r ∈ tcmsg.table, IsMessage r) (hstep : messageStep auri tcmsg e = some t) :
    ∀ r ∈ t.table, IsMessage r := by
  cases e with
  | message takes tv now toAddr text =>
      obtain rfl := Option.some.inj hstep
      exact isMessage_of_mem_writeDb hT
  | flush takes =>
      obtain rfl := Option.some.inj hstep
      rw [tcmessageFlush_table auri hT]
      exact hT
  | response i res now takes =>
      obtain ⟨q, -, rfl⟩ := Option.map_eq_some_iff.mp hstep
      have hend : ∀ r ∈ (endRequest tcmsg i res).table, IsMessage r := by
        rw [endRequest_table]
        exact hT
      have hseen : ∀ r ∈ (noteFlush (responseSeen (endRequest tcmsg i res) now q.msg res)).table,
          IsMessage r := isMessage_responseSeen hend now q.msg res
      rcases messageResponse_cases auri (endRequest tcmsg i res) takes now q.msg res with
        ⟨-, heq⟩ | ⟨-, -, heq⟩ | ⟨-, -, -, heq⟩
      · rw [heq]
        exact hend
      · rw [heq]
        exact hseen
      · rw [heq, tcmessageFlush_table auri hseen]
        exact hseen
  | incoming now tv fromAddr data =>
      obtain rfl := Option.some.inj hstep
      exact isMessage_of_mem_writeDb hT
  | restart =>
      obtain rfl := Option.some.inj hstep
      exact hT
