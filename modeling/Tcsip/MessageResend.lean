/-
# Messages that are sent again

`tcmessage_flush` reads a pending message back from its row and sends it once more, and a
response 200 makes `flag_sent` write what was read back as `MSTATE_SYNC`.  What is read back is
the message that was stored, and it prints the same `idx` (`exists_isStored`).  So
the new row stands under the `idx` of the pending one.

Whether it replaces the pending one is up to the store keys, which are compared as texts.
`message_idx` prints microseconds with six digits, `store_key` prints them as they are; then
a later row of the same second need not have the greater key, and the message stays pending
beside its copy (`resent_replaces_iff`).
-/
import Tcsip.MessageRows
import Tcsip.Runs

/-- The row that `write_db` writes at the time `now`. -/
def messageRow (c : StoreClient) (now tv : Timeval) (fromAddr toAddr : Text) (data : List Byte)
    (state : MsgState) : Row Text Obj :=
  { blobKey := storeKey c now
    idx := messageIdx tv fromAddr toAddr
    blob := messageBlob tv toAddr data (messageIdx tv fromAddr toAddr)
    curnt := state.toInt }

/-- The message is the one that was stored. -/
structure MsgSingle.IsStored (msg : MsgSingle) (tv : Timeval) (fromAddr toAddr : Text)
    (data : List Byte) : Prop where
  time : msg.tv = tv
  peer : msg.user = toAddr
  login : msg.login = some toAddr
  body : msg.data = data
  idx : msg.idx = some (messageIdx tv fromAddr toAddr)
  printed : messageIdx msg.tv fromAddr msg.user = messageIdx tv fromAddr toAddr

section message

variable {auri : List Byte → Text} {tv : Timeval} {fromAddr toAddr : Text} {data : List Byte}

/-- **Round trip of a message**, if its address comes back from `sip_addr_decode`. -/
theorem exists_isStored (htv : tv.InRange) (haddr : auri (bytes toAddr) = toAddr)
    (hne : toAddr ≠ []) (fromAddr : Text) (data : List Byte) :
    ∃ msg, storeBlobParse (msgParse auri)
        (messageBlob tv toAddr data (messageIdx tv fromAddr toAddr)) = [msg] ∧
      msg.IsStored tv fromAddr toAddr data := by
  obtain ⟨hsec, husec⟩ := htv.bmod_eq
  have hidx := messageIdx_ne_nil tv fromAddr toAddr
  have hparse := storeBlobParse_messageBlob auri tv toAddr data (messageIdx tv fromAddr toAddr)
  rw [hsec, husec, haddr, getStr_bytes, getStr_bytes, if_neg hne, if_neg hidx] at hparse
  exact ⟨_, hparse, ⟨rfl, rfl, rfl, rfl, rfl, rfl⟩⟩

/-- The copy is written as the message itself would be. -/
theorem MsgSingle.IsStored.flagSent_table {msg : MsgSingle} {tcmsg : TcMessages}
    (h : msg.IsStored tv tcmsg.user toAddr data) (now : Timeval) (state : MsgState) :
    (flagSent tcmsg now msg state).table =
      storeAddState tcmsg.store (storeKey tcmsg.store now) (messageIdx tv tcmsg.user toAddr)
        (messageBlob tv toAddr data (messageIdx tv tcmsg.user toAddr)) state.toInt
          tcmsg.table := by
  show storeAddState _ _ (messageIdx msg.tv tcmsg.user msg.user)
    (messageBlob msg.tv msg.user msg.data (messageIdx msg.tv tcmsg.user msg.user)) _ _ = _
  rw [h.printed, h.peer, h.body, h.time]

/-- A row that a client sees stays current after a write under its `idx` exactly if its key is
not smaller. -/
theorem notMem_current_storeAddState_iff {c : StoreClient} {T : List (Row Text Obj)}
    {r : Row Text Obj} (hr : r ∈ current c T) (key : Text) (blob : Obj) (state : ℤ) :
    r ∉ current c (storeAddState c key r.idx blob state T) ↔ r.blobKey < key := by
  rw [current_storeAddState, List.mem_append, not_or, List.mem_filter]
  constructor
  · rintro ⟨hold, -⟩
    by_contra hkey
    exact hold ⟨hr, by simp [hkey]⟩
  · intro hkey
    refine ⟨fun h => absurd h.2 (by simp [hkey]), fun h => ?_⟩
    split at h
    · -- the row that was written has the key `key` itself
      rw [List.mem_singleton.mp h] at hkey
      exact lt_irrefl _ hkey
    · exact absurd h List.not_mem_nil

end message

/-- **When a message is replaced by its copy.**  What is read back is the message that was
stored.  The row that `flag_sent` writes of it stands under the same `idx`, and replaces the
pending row exactly if its key is printed with the later time. -/
theorem resent_replaces_iff {auri : List Byte → Text} {bare : Text → Prop}
    (hauri : ∀ uri, bare uri → auri (bytes uri) = uri) {tv : Timeval} (htv : tv.InRange)
    {toAddr : Text} (hbare : bare toAddr) (hne : toAddr ≠ []) (fromAddr : Text)
    (data : List Byte) :
    ∃ msg, storeBlobParse (msgParse auri)
        (messageBlob tv toAddr data (messageIdx tv fromAddr toAddr)) = [msg] ∧
      msg.IsStored tv fromAddr toAddr data ∧
      ∀ (tcmsg : TcMessages) (now later : Timeval), tcmsg.user = fromAddr →
        messageRow tcmsg.store now tv fromAddr toAddr data .pending ∈
          current tcmsg.store tcmsg.table →
        messageRow tcmsg.store later tv fromAddr toAddr data .sync ∈
          (flagSent tcmsg later msg .sync).table ∧
        (messageRow tcmsg.store now tv fromAddr toAddr data .pending ∉
            current tcmsg.store (flagSent tcmsg later msg .sync).table
          ↔ now.PrintsBefore later) := by
  obtain ⟨msg, hparse, hstored⟩ :=
    exists_isStored htv (hauri toAddr hbare) hne fromAddr data
  refine ⟨msg, hparse, hstored, ?_⟩
  rintro tcmsg now later rfl hrow
  rw [hstored.flagSent_table]
  refine ⟨row_mem_storeAddState _ _ _ _ _ _, ?_⟩
  rw [← storeKey_lt_iff tcmsg.store]
  exact notMem_current_storeAddState_iff hrow _ _ _

/-- The time of a message to bob. -/
def bobTime : Timeval := { sec := 1400000000, usec := 89000 }

/-- The messages of alice with one to bob that the SIP stack did not take, stored as pending a
millisecond after its time. -/
def pendingToBob : TcMessages :=
  tcmessage aliceMessages (fun _ => false) bobTime { sec := 1400000000, usec := 90000 }
    (lit "sip:bob@x") (lit "hi")

/-- The row of that message is pending. -/
theorem pendingToBob_row :
    messageRow pendingToBob.store { sec := 1400000000, usec := 90000 } bobTime
        (lit "sip:alice@x") (lit "sip:bob@x") (bytes (lit "hi")) .pending ∈
      current pendingToBob.store pendingToBob.table :=
  mem_current.mpr ⟨row_mem_storeAddState _ _ _ _ _ _, by decide, by decide⟩

/-- Sent again in the next second, the message is replaced. -/
theorem resent_replaces_next_second :
    ∃ msg, storeBlobParse (msgParse cstr) (messageBlob bobTime (lit "sip:bob@x")
        (bytes (lit "hi")) (messageIdx bobTime (lit "sip:alice@x") (lit "sip:bob@x"))) = [msg] ∧
      messageRow pendingToBob.store { sec := 1400000000, usec := 90000 } bobTime
          (lit "sip:alice@x") (lit "sip:bob@x") (bytes (lit "hi")) .pending ∉
        current pendingToBob.store
          (flagSent pendingToBob { sec := 1400000001, usec := 5 } msg .sync).table := by
  have hauri : ∀ uri, uri = lit "sip:bob@x" → cstr (bytes uri) = uri := fun uri _ => cstr_bytes uri
  have htv : bobTime.InRange := by decide
  obtain ⟨msg, hparse, -, hreplaces⟩ :=
    resent_replaces_iff hauri htv rfl (by decide) (lit "sip:alice@x") (bytes (lit "hi"))
  exact ⟨msg, hparse, (hreplaces pendingToBob _ _ rfl pendingToBob_row).2.mpr (by decide)⟩

/-- Sent again and answered in the same second, the message is pending beside its copy: the key
of the copy ends in `.500000`, which is smaller than `.90000`. -/
theorem resent_stays_pending :
    (Runs.run (messageStep cstr) pendingToBob
        [.flush fun _ => true,
          .response 0 (.status 200) { sec := 1400000000, usec := 500000 } fun _ => false]).map
      (fun t => (current t.store t.table).map fun r => (r.idx, r.curnt)) =
    some [(messageIdx bobTime (lit "sip:alice@x") (lit "sip:bob@x"), MsgState.pending.toInt),
      (messageIdx bobTime (lit "sip:alice@x") (lit "sip:bob@x"), MsgState.sync.toInt)] := by
  decide +kernel
