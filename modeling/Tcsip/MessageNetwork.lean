/-
# Messages between users

Each user has a messages object and a database of his own.  A message travels as the `MESSAGE`
request that `msend` makes, under the time, the addresses and the text of its sender; it may
arrive late, out of order, never, or more than once, and `tcmessage_flush` sends it again as
long as its row is pending, also from a later process.  `message_incoming` knows nothing of
that: it writes a row for each arrival.

What makes one message of many arrivals is the `idx`, printed from the time and the addresses.
All writes of one message, of its sender and of its receiver, print the same `idx` and the same
blob, and those of different messages print different ones.  So the store of each user holds
the messages that he sent or received, each once (`exchanged_exactly`), as long as the keys of
his writes print in order.

The SIP stacks are not part of the repository.  Of them the model says that what arrives is what
some call of `msend` gave to a stack, at the user it is addressed to, with the address of the
sender in `From`; `dates` is what comes of the `Date` header.
-/
import Tcsip.Date
import Tcsip.MessageStates
import Tcsip.StoreVersions

open KeyedList Runs

namespace MessageNetwork

/-! ## Messages and events -/

/-- A message on its way: who sent it at which time, to which address, and the text. -/
structure Mail (κ : Type) where
  sender : κ
  tv : Timeval
  toAddr : Text
  data : List Byte
  deriving DecidableEq

/-- What can happen: something at one user that is not a message coming in, or a message that
arrives at a user.  `mem` is what `message_incoming` finds in its memory, `clock` and `now` are
the times at which it parses the date and makes the key. -/
inductive NetEvent (κ : Type) where
  | own (k : κ) (e : MessageEvent)
  | deliver (k : κ) (m : Mail κ) (mem : Leftover) (clock now : Timeval)

/-- Nothing comes in. -/
def isLocal : MessageEvent → Bool
  | .incoming _ _ _ _ => false
  | _ => true

variable {κ : Type}

/-- `msend` was called for the message. -/
def Mail.Is (m : Mail κ) (c : MsgSingle) : Prop :=
  c.tv = m.tv ∧ c.user = m.toAddr ∧ c.data = m.data

instance (m : Mail κ) (c : MsgSingle) : Decidable (m.Is c) :=
  inferInstanceAs (Decidable (_ ∧ _))

section network

variable [DecidableEq κ] (auri : List Byte → Text) (dates : Text → List Text)
  (susec : κ → Suseconds) (login address : κ → Text)

/-- The store client of a user. -/
def client (k : κ) : StoreClient := storeOpen (login k) (byteOf 'm')

/-- Nobody has sent a message. -/
def netInit : κ → TcMessages := fun k => tcmessageAlloc (client login k) [] (address k)

/-- A message arrives at a user it is addressed to, if it was given to the stack of its sender;
the stack may have refused it, then it is one that never arrives. -/
def netStep (net : κ → TcMessages) : NetEvent κ → Option (κ → TcMessages)
  | .own k e =>
    if isLocal e then (messageStep auri (net k) e).map (Function.update net k) else none
  | .deliver k m mem clock now =>
    if m.toAddr = (net k).user ∧ ∃ c ∈ (net m.sender).sip.calls, m.Is c.1 then
      (receiverTime (susec k) dates mem clock m.tv).map fun tv =>
        Function.update net k (messageIncoming (net k) now tv (net m.sender).user m.data)
    else none

/-! ## What is sent, received and written -/

/-- The message that `tcmessage` takes from a user. -/
def NetEvent.sends : NetEvent κ → List (Mail κ)
  | .own k (.message _ tv _ toAddr text) =>
    [{ sender := k, tv := tv, toAddr := toAddr, data := bytes text }]
  | _ => []

/-- The message that arrives at the user `k`. -/
def NetEvent.receives (k : κ) : NetEvent κ → List (Mail κ)
  | .own _ _ => []
  | .deliver j m _ _ _ => if j = k then [m] else []

/-- When the user `k` writes a row. -/
def NetEvent.writesAt (k : κ) : NetEvent κ → List Timeval
  | .own j e => if j = k then e.writesAt.toList else []
  | .deliver j _ _ _ now => if j = k then [now] else []

/-- All messages that were sent, in order. -/
def sent (es : List (NetEvent κ)) : List (Mail κ) := es.flatMap NetEvent.sends

/-- The messages that reached `k`, in order. -/
def received (k : κ) (es : List (NetEvent κ)) : List (Mail κ) := es.flatMap (NetEvent.receives k)

/-- The times under which `k` wrote its rows. -/
def writeTimes (k : κ) (es : List (NetEvent κ)) : List Timeval := es.flatMap (NetEvent.writesAt k)

/-- What the user `k` sent or received. -/
def exchanged (k : κ) (es : List (NetEvent κ)) : List (Mail κ) :=
  ((sent es).filter fun m => decide (m.sender = k)) ++ received k es

omit [DecidableEq κ] in
theorem sent_append (es es' : List (NetEvent κ)) :
    sent (es ++ es') = sent es ++ sent es' := List.flatMap_append

omit [DecidableEq κ] in
theorem sent_concat (es : List (NetEvent κ)) (e : NetEvent κ) :
    sent (es ++ [e]) = sent es ++ e.sends := by
  simp [sent]

theorem received_concat (k : κ) (es : List (NetEvent κ)) (e : NetEvent κ) :
    received k (es ++ [e]) = received k es ++ e.receives k := by
  simp [received]

theorem writeTimes_append (k : κ) (es es' : List (NetEvent κ)) :
    writeTimes k (es ++ es') = writeTimes k es ++ writeTimes k es' := List.flatMap_append

theorem writeTimes_concat (k : κ) (es : List (NetEvent κ)) (e : NetEvent κ) :
    writeTimes k (es ++ [e]) = writeTimes k es ++ e.writesAt k := by
  simp [writeTimes]

theorem mem_exchanged {k : κ} {es : List (NetEvent κ)} {m : Mail κ} :
    m ∈ exchanged k es ↔ m ∈ sent es ∧ m.sender = k ∨ m ∈ received k es := by
  simp [exchanged]

/-- The users: their logins open no set in a GLOB pattern, and their addresses differ and stand
in angle brackets. -/
structure Users : Prop where
  noSet : ∀ k, byteOf '[' ∉ login k
  injective : Function.Injective address
  bracket : ∀ k, byteOf '>' ∉ address k

/-- What is asked of the clocks and the addresses: the messages of one user have different
times that can be told in a `Date` header and fit an `int`, the addresses come back from
`sip_addr_decode`, and the store keys of each user print in order. -/
structure Timely (es : List (NetEvent κ)) : Prop where
  dated : ∀ m ∈ sent es, m.tv.Dated ∧ m.tv.InRange
  addr : ∀ m ∈ sent es, auri (bytes m.toAddr) = m.toAddr
  distinct : ((sent es).map fun m => (m.sender, m.tv)).Nodup
  rising : ∀ k, (writeTimes k es).Pairwise Timeval.PrintsBefore

/-- The events so far are no less timely. -/
theorem Timely.of_append {auri : List Byte → Text} {es es' : List (NetEvent κ)}
    (h : Timely auri (es ++ es')) : Timely auri es := by
  have hsent : ∀ m ∈ sent es, m ∈ sent (es ++ es') := fun m hm =>
    sent_append es es' ▸ List.mem_append_left _ hm
  refine ⟨fun m hm => h.dated m (hsent m hm), fun m hm => h.addr m (hsent m hm), ?_, fun k => ?_⟩
  · have hdistinct := h.distinct
    rw [sent_append, List.map_append] at hdistinct
    exact hdistinct.of_append_left
  · have hrising := h.rising k
    rw [writeTimes_append] at hrising
    exact (List.pairwise_append.mp hrising).1

end network

/-! ## The names of messages -/

section names

variable (address : κ → Text)

/-- The `idx` under which both ends store the message. -/
def Mail.idx (m : Mail κ) : Text := messageIdx m.tv (address m.sender) m.toAddr

/-- The blob that both ends store. -/
def Mail.blob (m : Mail κ) : Obj := messageBlob m.tv m.toAddr m.data (m.idx address)

variable {address}

/-- **The `idx` names the message**: its sender, its time and its receiver. -/
theorem Mail.idx_inj (haddress : Function.Injective address)
    (hbracket : ∀ k, byteOf '>' ∉ address k) {m m' : Mail κ} (h : m.tv.InRange)
    (h' : m'.tv.InRange) (heq : m.idx address = m'.idx address) :
    m.sender = m'.sender ∧ m.tv = m'.tv ∧ m.toAddr = m'.toAddr := by
  have htv : m.tv = m'.tv := messageIdx_inj h h' heq
  have hto : ∀ (a t : Text), a ++ lit "->" ++ t = (a ++ [byteOf '-']) ++ byteOf '>' :: t := by
    intro a t
    simp [lit, byteOf]
  have hsep : ∀ k, byteOf '>' ∉ address k ++ [byteOf '-'] := by
    intro k hk
    rcases List.mem_append.mp hk with hk | hk
    · exact hbracket k hk
    · exact absurd hk (by decide)
  unfold Mail.idx messageIdx at heq
  rw [htv] at heq
  have hroute := List.append_cancel_left heq
  rw [List.cons.injEq, List.append_cancel_left_eq, List.cons.injEq] at hroute
  have hparties := hroute.2.2
  rw [hto, hto, field_eq_field_iff (hsep _) (hsep _)] at hparties
  obtain ⟨hfrom, hto⟩ := hparties
  exact ⟨haddress (List.append_cancel_right hfrom), htv, hto⟩

end names

/-! ## What a user says -/

/-- The messages that `msend` was called for, and those of the outstanding requests. -/
def said (sip : SipStack) : List MsgSingle :=
  sip.requests.map MsgRequest.msg ++ sip.calls.map Prod.fst

theorem mem_said {sip : SipStack} {c : MsgSingle} :
    c ∈ said sip ↔ (∃ q ∈ sip.requests, q.msg = c) ∨ ∃ p ∈ sip.calls, p.1 = c := by
  simp only [said, List.mem_append, List.mem_map]

theorem mem_said_msend {sip : SipStack} {takes : MsgSingle → Bool} {msg c : MsgSingle}
    {resend : Bool} (h : c ∈ said (msend sip takes msg resend)) : c ∈ said sip ∨ c = msg := by
  rw [mem_said] at h ⊢
  unfold msend at h
  dsimp only at h
  rcases h with ⟨q, hq, rfl⟩ | ⟨p, hp, rfl⟩
  · rcases List.mem_append.mp hq with hq | hq
    · exact Or.inl (Or.inl ⟨q, hq, rfl⟩)
    · split at hq
      · exact Or.inr (by rw [List.mem_singleton.mp hq])
      · exact absurd hq List.not_mem_nil
  · rcases List.mem_append.mp hp with hp | hp
    · exact Or.inl (Or.inr ⟨p, hp, rfl⟩)
    · exact Or.inr (by rw [List.mem_singleton.mp hp])

section said

variable {auri : List Byte → Text} {tcmsg t : TcMessages} {c : MsgSingle}

/-- A flush says again what is in pending rows. -/
theorem mem_said_tcmessageFlush {takes : MsgSingle → Bool}
    (h : c ∈ said (tcmessageFlush auri tcmsg takes).sip) :
    c ∈ said tcmsg.sip ∨
      ∃ r ∈ pendingRows tcmsg.store tcmsg.table, c ∈ storeBlobParse (msgParse auri) r.blob := by
  have hfold : ∀ (L : List MsgSingle) (s : TcMessages),
      c ∈ said (L.foldl (sendPending takes) s).sip → c ∈ said s.sip ∨ c ∈ L := by
    intro L
    induction L with
    | nil => exact fun s hs => Or.inl hs
    | cons m L ih =>
      intro s hs
      rcases ih (sendPending takes s m) hs with hs | hs
      · rcases mem_said_msend hs with hs | rfl
        · exact Or.inl hs
        · exact Or.inr List.mem_cons_self
      · exact Or.inr (List.mem_cons_of_mem m hs)
  unfold tcmessageFlush storeFetchState at h
  dsimp only at h
  cases hfirst : firstPending tcmsg with
  | none =>
    rw [show storeSelect _ none MsgState.pending.toInt tcmsg.table = none from hfirst] at h
    exact Or.inl h
  | some r =>
    rw [show storeSelect _ none MsgState.pending.toInt tcmsg.table = some r from hfirst] at h
    rw [firstPending_eq] at hfirst
    have hr := (mem_of_nextPage_eq_some _ hfirst).1
    exact (hfold _ _ h).imp id fun hc => ⟨r, hr, hc⟩

theorem pendingRows_tcmessageFlush (hT : ∀ r ∈ tcmsg.table, IsMessage r)
    (takes : MsgSingle → Bool) :
    pendingRows (tcmessageFlush auri tcmsg takes).store (tcmessageFlush auri tcmsg takes).table =
      pendingRows tcmsg.store tcmsg.table := by
  rcases tcmessageFlush_cases auri hT takes with ⟨-, heq⟩ | ⟨_, _, -, -, heq⟩ <;>
    · rw [heq]
      rfl

theorem mem_said_endRequest {i : ℕ} {res : Response}
    (h : c ∈ said (endRequest tcmsg i res).sip) : c ∈ said tcmsg.sip := by
  rw [mem_said] at h ⊢
  rcases h with ⟨q, hq, rfl⟩ | hcall
  · exact Or.inl ⟨q, mem_endRequest hq, rfl⟩
  · unfold endRequest at hcall
    split at hcall <;> exact Or.inr hcall

/-- **What an event says**: a new message, or one that it reads from a pending row. -/
theorem mem_said_messageStep {e : MessageEvent} (hT : ∀ r ∈ tcmsg.table, IsMessage r)
    (hstep : messageStep auri tcmsg e = some t) (h : c ∈ said t.sip) :
    c ∈ said tcmsg.sip ∨
      (∃ r ∈ pendingRows t.store t.table, c ∈ storeBlobParse (msgParse auri) r.blob) ∨
      ∃ takes tv now toAddr text, e = .message takes tv now toAddr text ∧
        c.tv = tv ∧ c.user = toAddr ∧ c.data = bytes text := by
  cases e with
  | message takes tv now toAddr text =>
    obtain rfl := Option.some.inj hstep
    rcases mem_said_msend h with h | rfl
    · exact Or.inl h
    · exact Or.inr (Or.inr ⟨takes, tv, now, toAddr, text, rfl, rfl, rfl, rfl⟩)
  | flush takes =>
    obtain rfl := Option.some.inj hstep
    rw [pendingRows_tcmessageFlush hT]
    exact (mem_said_tcmessageFlush h).imp_right Or.inl
  | response i res now takes =>
    obtain ⟨q, -, rfl⟩ := Option.map_eq_some_iff.mp hstep
    have hend : ∀ r ∈ (endRequest tcmsg i res).table, IsMessage r := by
      rw [endRequest_table]
      exact hT
    have hnoted : ∀ r ∈ (noteFlush (responseSeen (endRequest tcmsg i res) now q.msg res)).table,
        IsMessage r := isMessage_responseSeen hend now q.msg res
    have hsip := responseSeen_sip (endRequest tcmsg i res) now q.msg res
    rcases messageResponse_cases auri (endRequest tcmsg i res) takes now q.msg res with
      ⟨-, heq⟩ | ⟨-, -, heq⟩ | ⟨-, -, -, heq⟩
    · rw [heq] at h
      exact Or.inl (mem_said_endRequest h)
    · rw [heq, hsip] at h
      exact Or.inl (mem_said_endRequest h)
    · rw [heq] at h ⊢
      rw [pendingRows_tcmessageFlush hnoted]
      rcases mem_said_tcmessageFlush h with h | h
      · have hsaid : c ∈ said (endRequest tcmsg i res).sip := by
          rw [← hsip]
          exact h
        exact Or.inl (mem_said_endRequest hsaid)
      · exact Or.inr (Or.inl h)
  | incoming now tv fromAddr data =>
    obtain rfl := Option.some.inj hstep
    exact Or.inl h
  | restart =>
    obtain rfl := Option.some.inj hstep
    exact Or.inl (mem_said.mpr (Or.inr (by simpa [mem_said] using h)))

end said

/-! ## What a user holds -/

section user

variable [DecidableEq κ] {auri : List Byte → Text} {login address : κ → Text} {k : κ}
  {past : List (NetEvent κ)} {T T' : TcMessages} {log ws : List (StoreWrite Text Obj)}
  {e : NetEvent κ}

/-- The write is one of the message: its sender writes it as pending first. -/
structure Mail.Wrote (address : κ → Text) (k : κ) (m : Mail κ) (w : StoreWrite Text Obj) :
    Prop where
  idx : w.idx = m.idx address
  blob : w.blob = m.blob address
  state : w.state = MsgState.sync.toInt ∨ w.state = MsgState.pending.toInt ∧ m.sender = k

/-- The messages object of the user `k`, and all that he wrote so far. -/
structure Conversing (login address : κ → Text) (k : κ) (past : List (NetEvent κ))
    (T : TcMessages) (log : List (StoreWrite Text Obj)) : Prop where
  user : T.user = address k
  store : storeOrder T.store false = client login k
  table : T.table = storeWrites (client login k) [] log
  times : log.map StoreWrite.now = writeTimes k past
  wrote : ∀ w ∈ log, ∃ m ∈ exchanged k past, m.Wrote address k w
  kept : ∀ m ∈ exchanged k past, ∃ w ∈ log, w.idx = m.idx address
  synced : ∀ m ∈ received k past, ∀ w ∈ lastWrite (m.idx address) log,
    w.state = MsgState.sync.toInt
  genuine : ∀ m ∈ received k past, m ∈ sent past ∧ m.toAddr = address k
  spoken : ∀ c ∈ said T.sip, ∃ m ∈ sent past, m.sender = k ∧ m.Is c

theorem conversing_netInit (login address : κ → Text) (k : κ) :
    Conversing login address k [] (netInit login address k) [] where
  user := rfl
  store := rfl
  table := rfl
  times := rfl
  wrote _ hw := absurd hw List.not_mem_nil
  kept _ hm := absurd hm List.not_mem_nil
  synced _ hm := absurd hm List.not_mem_nil
  genuine _ hm := absurd hm List.not_mem_nil
  spoken _ hc := absurd hc List.not_mem_nil

theorem Conversing.exchanged_sent (h : Conversing login address k past T log) :
    ∀ m ∈ exchanged k past, m ∈ sent past := by
  intro m hm
  rcases mem_exchanged.mp hm with hm | hm
  · exact hm.1
  · exact (h.genuine m hm).1

theorem Conversing.isMessage (h : Conversing login address k past T log) :
    ∀ r ∈ T.table, IsMessage r := by
  intro r hr
  rw [h.table] at hr
  obtain ⟨w, hw, hidx, hblob⟩ := exists_write_of_mem _ _ r hr
  obtain ⟨m, -, hm⟩ := h.wrote w hw
  unfold IsMessage
  rw [hidx, hblob, hm.idx, hm.blob]
  exact ⟨messageIdx_ne_nil _ _ _, m.tv, m.toAddr, m.data, rfl⟩

/-- Keys and patterns do not depend on the order of a client. -/
theorem Conversing.storeAddState_eq (h : Conversing login address k past T log) (now : Timeval)
    (idx : Text) (blob : Obj) (state : ℤ) (R : List (Row Text Obj)) :
    storeAddState T.store (storeKey T.store now) idx blob state R =
      storeWrites (client login k) R
        [{ now := now, idx := idx, blob := blob, state := state }] := by
  rw [← h.store]
  rfl

/-- The rows that the user sees are those of his writes. -/
theorem Conversing.exists_write (h : Conversing login address k past T log) :
    ∀ r ∈ current T.store T.table, ∃ w ∈ log, r = w.row (client login k) := by
  have hcurrent : current T.store T.table =
      current (client login k) (storeWrites (client login k) [] log) := by
    rw [h.table, ← h.store]
    rfl
  rw [hcurrent]
  exact exists_write_of_mem_current rfl log

omit [DecidableEq κ] in
/-- **A message read back** is the one that was sent. -/
theorem Mail.is_of_mem_parse {m : Mail κ} (htv : m.tv.InRange)
    (haddr : auri (bytes m.toAddr) = m.toAddr) {c : MsgSingle}
    (hc : c ∈ storeBlobParse (msgParse auri) (m.blob address)) : m.Is c := by
  rw [Mail.blob, storeBlobParse_messageBlob, List.mem_singleton] at hc
  rw [hc, htv.bmod_eq.1, htv.bmod_eq.2]
  exact ⟨rfl, haddr, rfl⟩

/-- What is new for the user `k` in an event. -/
theorem mem_exchanged_concat {m : Mail κ} :
    m ∈ exchanged k (past ++ [e]) ↔
      m ∈ exchanged k past ∨ (m ∈ e.sends ∧ m.sender = k ∨ m ∈ e.receives k) := by
  simp only [mem_exchanged, sent_concat, received_concat, List.mem_append]
  tauto

/-- **One event.**  Its writes are of messages that the user sends, receives or has exchanged,
what he receives he writes as `MSTATE_SYNC`, and he says what he sends or what is pending. -/
theorem Conversing.next (h : Conversing login address k past T log)
    (ht : Timely auri (past ++ [e])) (huser : T'.user = T.user)
    (hstore : storeOrder T'.store false = storeOrder T.store false)
    (htable : T'.table = storeWrites (client login k) T.table ws)
    (htimes : ws.map StoreWrite.now = e.writesAt k)
    (hwrote : ∀ w ∈ ws, ∃ m ∈ exchanged k (past ++ [e]), m.Wrote address k w)
    (hkept : ∀ m, m ∈ e.sends ∧ m.sender = k ∨ m ∈ e.receives k → ∃ w ∈ ws, w.idx = m.idx address)
    (hsynced : ∀ m ∈ received k (past ++ [e]), ∀ w ∈ ws, w.idx = m.idx address →
      w.state = MsgState.sync.toInt)
    (hgenuine : ∀ m ∈ e.receives k, m ∈ sent past ∧ m.toAddr = address k)
    (hsaid : ∀ c ∈ said T'.sip, c ∈ said T.sip ∨
      (∃ r ∈ pendingRows T'.store T'.table, c ∈ storeBlobParse (msgParse auri) r.blob) ∨
      ∃ m ∈ e.sends, m.sender = k ∧ m.Is c) :
    Conversing login address k (past ++ [e]) T' (log ++ ws) := by
  have hsent : ∀ m ∈ sent past, m ∈ sent (past ++ [e]) := fun m hm =>
    sent_concat past e ▸ List.mem_append_left _ hm
  -- what is said is left for later, as it may be read from the rows
  have hbefore : Conversing login address k (past ++ [e])
      { T' with sip := { requests := [], calls := [] } } (log ++ ws) := by
    refine ⟨huser.trans h.user, hstore.trans h.store, ?_, ?_, ?_, ?_, ?_, ?_, ?_⟩
    · rw [storeWrites_append, ← h.table]
      exact htable
    · rw [List.map_append, h.times, htimes, writeTimes_concat]
    · intro w hw
      rcases List.mem_append.mp hw with hw | hw
      · obtain ⟨m, hm, hmw⟩ := h.wrote w hw
        exact ⟨m, mem_exchanged_concat.mpr (Or.inl hm), hmw⟩
      · exact hwrote w hw
    · intro m hm
      rcases mem_exchanged_concat.mp hm with hm | hm
      · obtain ⟨w, hw, hidx⟩ := h.kept m hm
        exact ⟨w, List.mem_append_left _ hw, hidx⟩
      · obtain ⟨w, hw, hidx⟩ := hkept m hm
        exact ⟨w, List.mem_append_right _ hw, hidx⟩
    · intro m hm w hw
      rcases mem_lastWrite_append hw with ⟨hw, hidx⟩ | ⟨hw, hother⟩
      · exact hsynced m hm w hw hidx
      · rw [received_concat] at hm
        rcases List.mem_append.mp hm with hm | hm
        · exact h.synced m hm w hw
        · obtain ⟨v, hv, hidx⟩ := hkept m (Or.inr hm)
          exact absurd hidx (hother v hv)
    · intro m hm
      rw [received_concat] at hm
      rcases List.mem_append.mp hm with hm | hm
      · exact (h.genuine m hm).imp_left (hsent m)
      · exact (hgenuine m hm).imp_left (hsent m)
    · exact fun c hc => absurd hc List.not_mem_nil
  refine { hbefore with spoken := ?_ }
  intro c hc
  rcases hsaid c hc with hc | ⟨r, hr, hc⟩ | ⟨m, hm, hsender, his⟩
  · obtain ⟨m, hm, hmc⟩ := h.spoken c hc
    exact ⟨m, hsent m hm, hmc⟩
  · -- a pending row was written by the sender
    obtain ⟨hr, hpending⟩ := List.mem_filter.mp hr
    obtain ⟨w, hw, rfl⟩ := hbefore.exists_write r hr
    obtain ⟨m, hm, hmw⟩ := hbefore.wrote w hw
    have hsender : m.sender = k := by
      rcases hmw.state with hsync | ⟨-, hsender⟩
      · have hstate : w.state = MsgState.pending.toInt := of_decide_eq_true hpending
        rw [hsync] at hstate
        exact absurd hstate (by decide)
      · exact hsender
    have hm' := hbefore.exchanged_sent m hm
    have hread : c ∈ storeBlobParse (msgParse auri) (m.blob address) := by
      rw [← hmw.blob]
      exact hc
    exact ⟨m, hm', hsender, Mail.is_of_mem_parse (ht.dated m hm').2 (ht.addr m hm') hread⟩
  · exact ⟨m, sent_concat past e ▸ List.mem_append_right _ hm, hsender, his⟩

/-- What happens elsewhere changes nothing. -/
theorem Conversing.away (h : Conversing login address k past T log) (ht : Timely auri (past ++ [e]))
    (hsends : ∀ m ∈ e.sends, m.sender ≠ k) (hreceives : e.receives k = [])
    (hwrites : e.writesAt k = []) : Conversing login address k (past ++ [e]) T log := by
  have hnext : Conversing login address k (past ++ [e]) T (log ++ []) :=
    h.next ht rfl rfl rfl hwrites.symm
    (fun w hw => absurd hw List.not_mem_nil)
    (fun m hm => by
      rcases hm with ⟨hm, hsender⟩ | hm
      · exact absurd hsender (hsends m hm)
      · rw [hreceives] at hm
        exact absurd hm List.not_mem_nil)
    (fun m _ w hw => absurd hw List.not_mem_nil)
    (fun m hm => by
      rw [hreceives] at hm
      exact absurd hm List.not_mem_nil)
    (fun c hc => Or.inl hc)
  rwa [List.append_nil] at hnext

/-- An event of the user that writes no row. -/
theorem Conversing.own_quiet (h : Conversing login address k past T log) {me : MessageEvent}
    (ht : Timely auri (past ++ [.own k me])) (hstep : messageStep auri T me = some T')
    (htable : tableAfter T me = T.table) (hsends : (NetEvent.own k me).sends = [])
    (hwrites : me.writesAt = none) :
    Conversing login address k (past ++ [.own k me]) T' log := by
  obtain ⟨huser, htable'⟩ := messageStep_table h.isMessage hstep
  have hnext : Conversing login address k (past ++ [.own k me]) T' (log ++ []) :=
    h.next ht huser (messageStep_store h.isMessage hstep) (htable'.trans htable)
    (by rw [NetEvent.writesAt, if_pos rfl, hwrites]; rfl)
    (fun w hw => absurd hw List.not_mem_nil)
    (fun m hm => by
      rw [hsends] at hm
      rcases hm with ⟨hm, -⟩ | hm <;> exact absurd hm List.not_mem_nil)
    (fun m _ w hw => absurd hw List.not_mem_nil)
    (fun m hm => absurd hm List.not_mem_nil)
    (fun c hc => by
      rcases mem_said_messageStep h.isMessage hstep hc with hc | hc | ⟨_, _, _, _, _, rfl, -⟩
      · exact Or.inl hc
      · exact Or.inr (Or.inl hc)
      · exact absurd hsends (List.cons_ne_nil _ _))
  rwa [List.append_nil] at hnext

/-- A new message is none of those sent before. -/
theorem Timely.fresh (ht : Timely auri (past ++ [e])) {m m' : Mail κ} (hm : m ∈ sent past)
    (hm' : m' ∈ e.sends) : ¬ (m.sender = m'.sender ∧ m.tv = m'.tv) := by
  rintro ⟨hsender, htv⟩
  have hdistinct := ht.distinct
  rw [sent_concat, List.map_append] at hdistinct
  have hne := (List.nodup_append.mp hdistinct).2.2 _ (List.mem_map_of_mem hm) _
    (List.mem_map_of_mem hm')
  exact hne (Prod.ext hsender htv)

/-- **A new message** is written as pending. -/
theorem Conversing.own_message (hu : Users login address)
    (h : Conversing login address k past T log) {takes : MsgSingle → Bool} {tv now : Timeval}
    {toAddr text : Text} (ht : Timely auri (past ++ [.own k (.message takes tv now toAddr text)]))
    (hstep : messageStep auri T (.message takes tv now toAddr text) = some T') :
    ∃ w, Conversing login address k (past ++ [.own k (.message takes tv now toAddr text)]) T'
      (log ++ [w]) := by
  let m : Mail κ := { sender := k, tv := tv, toAddr := toAddr, data := bytes text }
  have hm : m ∈ (NetEvent.own k (.message takes tv now toAddr text)).sends := List.mem_cons_self
  obtain ⟨huser, htable⟩ := messageStep_table h.isMessage hstep
  refine ⟨{ now := now, idx := m.idx address, blob := m.blob address
            state := MsgState.pending.toInt },
    h.next ht huser (messageStep_store h.isMessage hstep) ?_ ?_ ?_ ?_ ?_ ?_ ?_⟩
  · rw [htable, tableAfter, writeDb, h.user, h.storeAddState_eq]
    rfl
  · rw [NetEvent.writesAt, if_pos rfl]
    rfl
  · intro w hw
    rw [List.mem_singleton.mp hw]
    exact ⟨m, mem_exchanged_concat.mpr (Or.inr (Or.inl ⟨hm, rfl⟩)), rfl, rfl, Or.inr ⟨rfl, rfl⟩⟩
  · rintro m' (⟨hm', -⟩ | hm')
    · rw [List.mem_singleton.mp hm']
      exact ⟨_, List.mem_cons_self, rfl⟩
    · exact absurd hm' List.not_mem_nil
  · -- what was received had another `idx`
    intro m' hm' w hw hidx
    rw [List.mem_singleton.mp hw] at hidx
    have hsent : m' ∈ sent past := by
      rw [received_concat] at hm'
      exact (h.genuine m' (by simpa [NetEvent.receives] using hm')).1
    have hrange : ∀ m ∈ sent (past ++ [.own k (.message takes tv now toAddr text)]), m.tv.InRange :=
      fun m hm => (ht.dated m hm).2
    rw [sent_concat] at hrange
    obtain ⟨hsender, htv, -⟩ := Mail.idx_inj hu.injective hu.bracket
      (hrange m (List.mem_append_right _ hm)) (hrange m' (List.mem_append_left _ hsent)) hidx
    exact absurd ⟨hsender.symm, htv.symm⟩ (ht.fresh hsent hm)
  · exact fun m' hm' => absurd hm' List.not_mem_nil
  · intro c hc
    rcases mem_said_messageStep h.isMessage hstep hc with hc | hc |
      ⟨_, _, _, _, _, heq, htv, hto, hdata⟩
    · exact Or.inl hc
    · exact Or.inr (Or.inl hc)
    · cases heq
      exact Or.inr (Or.inr ⟨m, hm, rfl, htv, hto, hdata⟩)

/-- **A response 200** writes the message that it is for. -/
theorem Conversing.own_response (h : Conversing login address k past T log) {i : ℕ} {now : Timeval}
    {takes : MsgSingle → Bool}
    (ht : Timely auri (past ++ [.own k (.response i (.status 200) now takes)]))
    (hstep : messageStep auri T (.response i (.status 200) now takes) = some T') :
    ∃ w, Conversing login address k (past ++ [.own k (.response i (.status 200) now takes)]) T'
      (log ++ [w]) := by
  obtain ⟨huser, htable⟩ := messageStep_table h.isMessage hstep
  obtain ⟨q, hq, -⟩ := Option.map_eq_some_iff.mp hstep
  obtain ⟨m, hm, hsender, htv, hto, hdata⟩ :=
    h.spoken q.msg (mem_said.mpr (Or.inl ⟨q, List.mem_of_getElem? hq, rfl⟩))
  refine ⟨{ now := now, idx := m.idx address, blob := m.blob address
            state := MsgState.sync.toInt },
    h.next ht huser (messageStep_store h.isMessage hstep) ?_ ?_ ?_ ?_ ?_ ?_ ?_⟩
  · rw [htable, tableAfter_response hq, if_pos rfl, writeDb, h.user, h.storeAddState_eq, htv, hto,
      hdata, ← hsender]
    rfl
  · rw [NetEvent.writesAt, if_pos rfl]
    rfl
  · intro w hw
    rw [List.mem_singleton.mp hw]
    have hex : m ∈ exchanged k past := mem_exchanged.mpr (Or.inl ⟨hm, hsender⟩)
    exact ⟨m, mem_exchanged_concat.mpr (Or.inl hex), rfl, rfl, Or.inl rfl⟩
  · rintro m' (⟨hm', -⟩ | hm') <;> exact absurd hm' List.not_mem_nil
  · intro m' _ w hw _
    rw [List.mem_singleton.mp hw]
  · exact fun m' hm' => absurd hm' List.not_mem_nil
  · intro c hc
    rcases mem_said_messageStep h.isMessage hstep hc with hc | hc | ⟨_, _, _, _, _, heq, -⟩
    · exact Or.inl hc
    · exact Or.inr (Or.inl hc)
    · exact absurd heq nofun

theorem conversing_own (hu : Users login address) (h : Conversing login address k past T log)
    {me : MessageEvent} (hlocal : isLocal me = true) (ht : Timely auri (past ++ [.own k me]))
    (hstep : messageStep auri T me = some T') :
    ∃ log', Conversing login address k (past ++ [.own k me]) T' log' := by
  cases me with
  | message takes tv now toAddr text =>
    obtain ⟨w, hw⟩ := h.own_message hu ht hstep
    exact ⟨_, hw⟩
  | flush takes => exact ⟨log, h.own_quiet ht hstep rfl rfl rfl⟩
  | response i res now takes =>
    by_cases hres : res = .status 200
    · subst hres
      obtain ⟨w, hw⟩ := h.own_response ht hstep
      exact ⟨_, hw⟩
    · obtain ⟨q, hq, -⟩ := Option.map_eq_some_iff.mp hstep
      refine ⟨log, h.own_quiet ht hstep ?_ rfl ?_⟩
      · rw [tableAfter_response hq, if_neg hres]
      · rw [MessageEvent.writesAt, if_neg hres]
  | incoming now tv fromAddr data => exact absurd hlocal Bool.false_ne_true
  | restart => exact ⟨log, h.own_quiet ht hstep rfl rfl rfl⟩

/-! ## What arrives -/

variable {dates : Text → List Text} {susec : κ → Suseconds}
  (hdates : ∀ v, HeaderValue v → dates (lit "Date: " ++ v ++ lit "\r\n") = [v])

omit [DecidableEq κ] in
include hdates in
/-- **The receiver stores a message as its sender does**, whatever its memory holds. -/
theorem Mail.received_alike (address : κ → Text) {m : Mail κ} (htv : m.tv.Dated) (s : Suseconds)
    (mem : Leftover) (clock : Timeval) : ∃ tv, receiverTime s dates mem clock m.tv = some tv ∧
      messageIdx tv (address m.sender) m.toAddr = m.idx address ∧
      messageBlob tv m.toAddr m.data (m.idx address) = m.blob address := by
  refine ⟨_, receiverTime_eq hdates htv, ?_, ?_⟩
  · unfold Mail.idx messageIdx
    rw [fmt06u_store s mem.tv.usec htv.usec]
  · have hword := Suseconds.store_emod s mem.tv.usec m.tv.usec.toNat
    rw [Int.toNat_of_nonneg htv.usec.1] at hword
    have hstored : (s.store mem.tv.usec m.tv.usec.toNat).bmod (2 ^ 32) =
        m.tv.usec.bmod (2 ^ 32) := by
      rw [← Int.emod_bmod]
      exact (congrArg (Int.bmod · (2 ^ 32)) hword).trans (Int.emod_bmod _ _)
    unfold Mail.blob messageBlob
    dsimp only
    rw [hstored]

include hdates in
/-- **A message that arrives** is written as `MSTATE_SYNC`, be it the first time or not. -/
theorem Conversing.deliver (h : Conversing login address k past T log) {m : Mail κ} {mem : Leftover}
    {clock now tv : Timeval} (ht : Timely auri (past ++ [.deliver k m mem clock now]))
    (hm : m ∈ sent past) (hto : m.toAddr = T.user)
    (htime : receiverTime (susec k) dates mem clock m.tv = some tv) :
    ∃ log', Conversing login address k (past ++ [.deliver k m mem clock now])
      (messageIncoming T now tv (address m.sender) m.data) log' := by
  obtain ⟨tv', htime', hidx, hblob⟩ := Mail.received_alike hdates address
    (ht.of_append.dated m hm).1 (susec k) mem clock
  obtain rfl := Option.some.inj (htime.symm.trans htime')
  have hreceives : (NetEvent.deliver k m mem clock now).receives k = [m] := if_pos rfl
  refine ⟨log ++ [{ now := now, idx := m.idx address, blob := m.blob address
                    state := MsgState.sync.toInt }],
    h.next ht rfl rfl ?_ ?_ ?_ ?_ ?_ ?_ ?_⟩
  · show writeDb _ _ _ _ _ _ _ _ = _
    rw [writeDb, ← hto, hidx, hblob, h.storeAddState_eq]
  · exact (if_pos rfl).symm
  · intro w hw
    rw [List.mem_singleton.mp hw]
    refine ⟨m, mem_exchanged_concat.mpr (Or.inr (Or.inr ?_)), rfl, rfl, Or.inl rfl⟩
    rw [hreceives]
    exact List.mem_cons_self
  · rintro m' (⟨hm', -⟩ | hm')
    · exact absurd hm' List.not_mem_nil
    · rw [hreceives] at hm'
      rw [List.mem_singleton.mp hm']
      exact ⟨_, List.mem_cons_self, rfl⟩
  · intro m' _ w hw _
    rw [List.mem_singleton.mp hw]
  · intro m' hm'
    rw [hreceives] at hm'
    rw [List.mem_singleton.mp hm']
    exact ⟨hm, hto.trans h.user⟩
  · exact fun c hc => Or.inl hc

end user

/-! ## All users -/

section all

variable [DecidableEq κ] {auri : List Byte → Text} {dates : Text → List Text}
  {susec : κ → Suseconds} {login address : κ → Text} {past es : List (NetEvent κ)}
  {net net' : κ → TcMessages} {e : NetEvent κ}
  (hdates : ∀ v, HeaderValue v → dates (lit "Date: " ++ v ++ lit "\r\n") = [v])

include hdates in
/-- **One event** at one user keeps the account of every user. -/
theorem conversing_netStep (hu : Users login address)
    (h : ∀ k, ∃ log, Conversing login address k past (net k) log)
    (ht : Timely auri (past ++ [e])) (hstep : netStep auri dates susec net e = some net') :
    ∀ k, ∃ log, Conversing login address k (past ++ [e]) (net' k) log := by
  intro k
  obtain ⟨log, hk⟩ := h k
  cases e with
  | own j me =>
    unfold netStep at hstep
    obtain ⟨hlocal, hstep⟩ := Option.ite_none_right_eq_some.mp hstep
    obtain ⟨t, ht', rfl⟩ := Option.map_eq_some_iff.mp hstep
    by_cases hjk : k = j
    · subst hjk
      rw [Function.update_self]
      exact conversing_own hu hk hlocal ht ht'
    · rw [Function.update_of_ne hjk]
      refine ⟨log, hk.away ht ?_ rfl ?_⟩
      · intro m hm hsender
        cases me with
        | message takes tv now toAddr text =>
          rw [List.mem_singleton.mp hm] at hsender
          exact hjk hsender.symm
        | _ => exact absurd hm List.not_mem_nil
      · rw [NetEvent.writesAt, if_neg (Ne.symm hjk)]
  | deliver j m mem clock now =>
    unfold netStep at hstep
    obtain ⟨⟨hto, c, hc, his⟩, hstep⟩ := Option.ite_none_right_eq_some.mp hstep
    obtain ⟨tv, htime, rfl⟩ := Option.map_eq_some_iff.mp hstep
    by_cases hjk : k = j
    · subst hjk
      rw [Function.update_self]
      -- what was given to the stack had been sent
      obtain ⟨slog, hs⟩ := h m.sender
      obtain ⟨m', hm', hsender, his'⟩ := hs.spoken c.1 (mem_said.mpr (Or.inr ⟨c, hc, rfl⟩))
      have heq : m' = m := by
        obtain ⟨_, _, _, _⟩ := m
        obtain ⟨_, _, _, _⟩ := m'
        obtain ⟨htv, huser, hdata⟩ := his
        obtain ⟨htv', huser', hdata'⟩ := his'
        simp only [Mail.mk.injEq]
        exact ⟨hsender, htv'.symm.trans htv, huser'.symm.trans huser, hdata'.symm.trans hdata⟩
      rw [heq] at hm'
      rw [hs.user]
      exact hk.deliver hdates ht hm' hto htime
    · rw [Function.update_of_ne hjk]
      refine ⟨log, hk.away ht ?_ ?_ ?_⟩
      · exact fun m hm => absurd hm List.not_mem_nil
      · rw [NetEvent.receives, if_neg (Ne.symm hjk)]
      · rw [NetEvent.writesAt, if_neg (Ne.symm hjk)]

/-! ## Each message once -/

/-- The `idx` tells the messages apart. -/
theorem Timely.eq_of_idx (ht : Timely auri es) (hu : Users login address) {m m' : Mail κ}
    (hm : m ∈ sent es) (hm' : m' ∈ sent es) (hidx : m.idx address = m'.idx address) : m = m' := by
  obtain ⟨hsender, htv, -⟩ := Mail.idx_inj hu.injective hu.bracket (ht.dated m hm).2
    (ht.dated m' hm').2 hidx
  exact List.inj_on_of_nodup_map ht.distinct hm hm' (Prod.ext hsender htv)

/-- The store of the user `k` holds the messages that he sent or received, each once; those
that he received are in `MSTATE_SYNC`, and were sent to him. -/
structure HoldsExactly (address : κ → Text) (es : List (NetEvent κ)) (k : κ) (T : TcMessages) :
    Prop where
  rows : ((current T.store T.table).map fun r => (r.idx, r.blob)).Perm
    ((exchanged k es).dedup.map fun m => (m.idx address, m.blob address))
  synced : ∀ m ∈ received k es, ∀ r ∈ current T.store T.table, r.idx = m.idx address →
    r.curnt = MsgState.sync.toInt
  genuine : ∀ m ∈ received k es, m ∈ sent es ∧ m.toAddr = address k

/-- The newest row under each `idx` is the only one. -/
theorem Conversing.latest (hu : Users login address) {k : κ} {T : TcMessages}
    {log : List (StoreWrite Text Obj)} (h : Conversing login address k es T log)
    (ht : Timely auri es) : LatestCurrent T.store T.table log := by
  have hletter : (client login k).letter ≠ byteOf '[' := by
    show byteOf 'm' ≠ byteOf '['
    decide
  have hprinted : PrintedInOrder (client login k) log := by
    refine ⟨fun w hw => ⟨?_, owns_storeKey (hu.noSet k) hletter w.now⟩, ?_⟩
    · obtain ⟨m, -, hm⟩ := h.wrote w hw
      rcases hm.state with hstate | ⟨hstate, -⟩ <;>
        · rw [hstate]
          decide
    · have hrising := ht.rising k
      rw [← h.times, List.pairwise_map] at hrising
      apply hrising.imp
      intro w w' hlt _
      exact hlt
  have hlatest := latestCurrent_of_printedInOrder hprinted
  rw [← h.table, ← h.store] at hlatest
  exact hlatest

theorem Conversing.holdsExactly (hu : Users login address) {k : κ} {T : TcMessages}
    {log : List (StoreWrite Text Obj)} (h : Conversing login address k es T log)
    (ht : Timely auri es) : HoldsExactly address es k T := by
  have hlatest := h.latest hu ht
  refine ⟨?_, ?_, h.genuine⟩
  · rw [List.perm_ext_iff_of_nodup]
    · intro p
      rw [List.mem_map, List.mem_map]
      constructor
      · rintro ⟨r, hr, rfl⟩
        obtain ⟨w, hw, rfl⟩ := h.exists_write r hr
        obtain ⟨m, hm, hmw⟩ := h.wrote w hw
        exact ⟨m, List.mem_dedup.mpr hm, Prod.ext hmw.idx.symm hmw.blob.symm⟩
      · rintro ⟨m, hm, rfl⟩
        have hm' := List.mem_dedup.mp hm
        obtain ⟨w, hw, hidx⟩ := h.kept m hm'
        obtain ⟨v, hv, hvlog, hvidx⟩ := exists_lastWrite hw
        obtain ⟨m', hm'', hmv⟩ := h.wrote v hvlog
        -- the last write under this `idx` is one of the same message
        have heq : m' = m := ht.eq_of_idx hu (h.exchanged_sent m' hm'') (h.exchanged_sent m hm')
          (by rw [← hmv.idx, hvidx, hidx])
        exact ⟨v.row T.store, ((hlatest.mem_iff hv _).mpr rfl).1,
          Prod.ext (hvidx.trans hidx) (heq ▸ hmv.blob)⟩
    · refine List.Nodup.of_map Prod.fst ?_
      rw [List.map_map]
      apply hlatest.nodup
      intro r hr
      obtain ⟨w, hw, rfl⟩ := h.exists_write r hr
      exact ⟨w, hw, rfl⟩
    · apply List.Nodup.map_on _ (List.nodup_dedup _)
      intro m hm m' hm' heq
      exact ht.eq_of_idx hu (h.exchanged_sent m (List.mem_dedup.mp hm))
        (h.exchanged_sent m' (List.mem_dedup.mp hm')) (congrArg Prod.fst heq)
  · intro m hm r hr hidx
    obtain ⟨w, hw, rfl⟩ := h.exists_write r hr
    obtain ⟨v, hv, -⟩ := exists_lastWrite hw
    rw [(hlatest.mem_iff hv _).mp ⟨hr, rfl⟩]
    exact h.synced m hm v (hidx ▸ hv)

include hdates in
/-- **Every message is stored once, at its sender and at its receiver**, over every interleaving
of what users send, flush and restart and of what the network delivers, however late, often or
out of order. -/
theorem exchanged_exactly (hu : Users login address) (ht : Timely auri es)
    (hrun : run (netStep auri dates susec) (netInit login address) es = some net) :
    ∀ k, HoldsExactly address es k (net k) := by
  have hinv := run_invariant_past (netStep auri dates susec)
    (I := fun past net => ∀ k, ∃ log, Conversing login address k past (net k) log)
    (C := fun _ _ => True) es
    (fun past e rest s t hall hI _ hstep => by
      have hnow : Timely auri ((past ++ [e]) ++ rest) := by
        rw [List.append_assoc]
        exact hall ▸ ht
      exact conversing_netStep hdates hu hI hnow.of_append hstep)
    es [] (netInit login address) net rfl
    (fun k => ⟨[], conversing_netInit login address k⟩)
    (stepsMeet_of_forall _ (fun _ _ => trivial) _ _) hrun
  intro k
  obtain ⟨log, hk⟩ := hinv k
  exact hk.holdsExactly hu ht

end all

/-! ## A message that arrives three times -/

/-- Alice and bob. -/
def aliceAndBob (k : Bool) : Text := if k then lit "alice" else lit "bob"

def addressOf (k : Bool) : Text := lit "sip:" ++ aliceAndBob k ++ lit "@x"

/-- Memory that `sipmsg_parse_date` finds. -/
def leftover (usec : ℤ) : Leftover := ⟨fun _ => noTm, ⟨0, usec⟩⟩

/-- The message of alice to bob. -/
def hello : Mail Bool :=
  { sender := true, tv := someTime, toAddr := addressOf false, data := bytes (lit "hi") }

/-- Alice sends a message and flushes before the response has come; bob gets it twice, answers,
and gets it once more. -/
def conversation : List (NetEvent Bool) :=
  [.own true (.message (fun _ => true) someTime ⟨1400000000, 2000⟩ (addressOf false) (lit "hi")),
    .own true (.flush fun _ => true),
    .deliver false hello (leftover 0) ⟨1400000001, 0⟩ ⟨1400000001, 5⟩,
    .deliver false hello (leftover (2 ^ 40)) ⟨1400000002, 0⟩ ⟨1400000002, 5⟩,
    .own true (.response 0 (.status 200) ⟨1400000003, 0⟩ fun _ => true),
    .own false (.message (fun _ => true) ⟨1400000004, 7⟩ ⟨1400000004, 9⟩ (addressOf true)
      (lit "hi")),
    .own false .restart,
    .deliver false hello (leftover 0) ⟨1400000005, 0⟩ ⟨1400000005, 5⟩]

theorem users_aliceAndBob : Users aliceAndBob addressOf :=
  ⟨by decide, by decide, by decide⟩

theorem timely_conversation : Timely cstr conversation :=
  ⟨by decide +kernel, by decide +kernel, by decide, by decide⟩

/-- Both have the two messages. -/
theorem exchanged_exactly_conversation :
    ∃ net, run (netStep cstr lineValue fun _ => .bits64) (netInit aliceAndBob addressOf)
        conversation = some net ∧ ∀ k, HoldsExactly addressOf conversation k (net k) := by
  have hrun : (run (netStep cstr lineValue fun _ => .bits64) (netInit aliceAndBob addressOf)
      conversation).isSome := by decide +kernel
  obtain ⟨net, hnet⟩ := Option.isSome_iff_exists.mp hrun
  exact ⟨net, hnet, exchanged_exactly (fun v _ => lineValue_header v) users_aliceAndBob
    timely_conversation hnet⟩

end MessageNetwork
