/-
# The lifetimes of messages

The objects of `tcmessage.c` are counted.  A message is held by its request until the final
response, and holds what it is made of and the messages object `ctx`; that object is held by
the `tcsip` it belongs to, which exchanges it at each login.  What is asked of such code is
that nothing is used or freed after it was freed, whatever comes first: the responses, the next
login, or the end of the program.

That holds of every run (`lifetimes_of_run`), and the account says more.  A message is freed with
the final response to its request; one that the SIP stack did not take is never freed, as
nobody gives back the reference made for the handler.  A messages object outlives its login
as long as one of its messages is alive.  And the `tcsip` itself is never freed once a user has
logged in, for `tcmessage_handler` takes a reference that `destruct` does not give back.

The heap holds the objects of `re` that these functions share; `plain` are those without
references of their own, addresses, buffers and texts.  What a function allocates and frees
itself is left out, as is the counter `flush`: whether a response leads to a flush is left open.
-/
import Tcsip.RefCount
import Tcsip.Runs

open RefCount Runs

namespace MessageLifetimes

/-! ## Objects -/

/-- `struct tcsip`, `struct tcmessages` and `struct msg_single` with their references. -/
inductive MemObject where
  | tcsip (userC msg : Option ℕ)
  | tcmessages (user arg : ℕ)
  | msgSingle (user : ℕ) (data login idx ctx : Option ℕ)
  | plain
  deriving DecidableEq

/-- What `sipc_destruct`, `destruct` and `msg_destruct` give back; `arg` is none of it. -/
def MemObject.drops : MemObject → List ℕ
  | .tcsip userC msg => userC.toList ++ msg.toList
  | .tcmessages user _ => [user]
  | .msgSingle user data login idx ctx =>
    user :: (data.toList ++ login.toList ++ idx.toList ++ ctx.toList)
  | .plain => []

/-- The heap, and the references from outside of it: that of the owner of the `tcsip`, which is
the object 0, those of the handlers of outstanding requests and of requests that `re` did not
take, and those that nobody will give back. -/
structure Objects where
  heap : Heap MemObject
  owner : Bool
  requests : List ℕ
  refused : List ℕ
  lost : List ℕ

/-- `tcsip_alloc`. -/
def tcsipAlloc : Objects where
  heap := [⟨1, .tcsip none none⟩]
  owner := true
  requests := []
  refused := []
  lost := []

/-- All of these objects are alive. -/
def alive (h : Heap MemObject) (xs : List ℕ) : Bool := xs.all fun x => (read h x).isSome

/-- A new object without references. -/
def allocPlain (s : Objects) : Objects := { s with heap := alloc s.heap .plain }

/-- `msend`, for the message `m` of `t`: it looks at both addresses and the text, and the handler
gets a reference to the message, also if the stack does not take it. -/
def msend (s : Objects) (t m : ℕ) (taken : Bool) : Option Objects :=
  match read s.heap t, read s.heap m with
  | some (.tcmessages local' _), some (.msgSingle user data _ _ _) =>
    if alive s.heap (local' :: user :: data.toList) then
      (retain s.heap m).map fun h =>
        if taken then { s with heap := h, requests := s.requests ++ [m] }
        else { s with heap := h, refused := s.refused ++ [m] }
    else none
  | _, _ => none

/-- `flag_sent`: the text that was in `idx` before is not given back. -/
def flagSent (s : Objects) (t m : ℕ) : Option Objects :=
  match read s.heap t, read s.heap m with
  | some (.tcmessages local' _), some (.msgSingle user data login idx ctx) =>
    if alive s.heap (local' :: user :: data.toList) then
      (write (alloc s.heap .plain) m (.msgSingle user data login (some s.heap.length) ctx)).map
        fun h => { s with heap := h, lost := s.lost ++ idx.toList }
    else none
  | _, _ => none

/-- `tcsip_report_message`, with the message and the `tcsip` of `t`. -/
def reportMessage (s : Objects) (t m : ℕ) : Option Objects :=
  match read s.heap t, read s.heap m with
  | some (.tcmessages _ arg), some (.msgSingle user data _ idx _) =>
    if alive s.heap (arg :: user :: (data.toList ++ idx.toList)) then some s else none
  | _, _ => none

/-- `mem_deref`, with all that the destructors give back. -/
def derefObject (s : Objects) (x : ℕ) : Option Objects :=
  (deref MemObject.drops s.heap x).map fun h => { s with heap := h }

/-- `mem_ref` -/
def retainObject (s : Objects) (x : ℕ) : Option Objects :=
  (retain s.heap x).map fun h => { s with heap := h }

/-- `tcmessage` in `t`, to the address `dest`.  The first reference to the text stays with
nobody. -/
def tcmessage (s : Objects) (t dest : ℕ) (taken : Bool) : Option Objects := do
  let data := s.heap.length
  let s ← retainObject (allocPlain s) data
  let s ← retainObject s dest
  let s ← retainObject s t
  let m := s.heap.length
  let s := { s with
    heap := alloc s.heap (.msgSingle dest (some data) none none (some t))
    lost := s.lost ++ [data] }
  let s ← msend s t m taken
  let s ← flagSent s t m
  let s ← reportMessage s t m
  derefObject s m

/-- `SEND_MESSAGE` in `tcsip_ob_cmd`, which does not give back `dest`. -/
def sendMessage (s : Objects) (taken : Bool) : Option Objects :=
  match read s.heap 0 with
  | some (.tcsip _ msg) =>
    let dest := s.heap.length
    let s := { allocPlain s with lost := s.lost ++ [dest] }
    match msg with
    | none => some s
    | some t => tcmessage s t dest taken
  | _ => none

/-- What `msg_parse` finds in a row: whether the address, the text and the `idx` are not empty,
and then whether the stack takes the message. -/
structure Parsed where
  login : Bool
  data : Bool
  idx : Bool
  taken : Bool
  deriving DecidableEq

/-- A field that is there or not. -/
def allocField (s : Objects) (there : Bool) : Objects × Option ℕ :=
  if there then (allocPlain s, some s.heap.length) else (s, none)

/-- `msg_parse`. -/
def msgParse (s : Objects) (p : Parsed) : Objects × ℕ :=
  let user := s.heap.length
  let (s, login) := allocField (allocPlain s) p.login
  let (s, data) := allocField s p.data
  let (s, idx) := allocField s p.idx
  ({ s with heap := alloc s.heap (.msgSingle user data login idx none) }, s.heap.length)

/-- `store_blob_parse`: the messages in the order of the list. -/
def parseAll (s : Objects) : List Parsed → Objects × List (ℕ × Bool)
  | [] => (s, [])
  | p :: ps =>
    let (s, m) := msgParse s p
    let (s, ms) := parseAll s ps
    (s, (m, p.taken) :: ms)

/-- `send_pending`. -/
def sendPending (t : ℕ) (s : Objects) (m : ℕ × Bool) : Option Objects := do
  let s ← retainObject s t
  match read s.heap m.1 with
  | some (.msgSingle user data login idx _) => do
    let h ← write s.heap m.1 (.msgSingle user data login idx (some t))
    msend { s with heap := h } t m.1 m.2
  | _ => none

/-- `tcmessage_flush` in `t`: all that was parsed is sent, and then `list_flush` gives it
back. -/
def tcmessageFlush (s : Objects) (t : ℕ) (ps : List Parsed) : Option Objects :=
  if alive s.heap [t] then do
    let (s, ms) := parseAll s ps
    let s ← ms.foldlM (sendPending t) s
    (ms.map Prod.fst).foldlM derefObject s
  else none

/-- The flush in `tcsip_set_online`. -/
def flushMessages (s : Objects) (ps : List Parsed) : Option Objects :=
  match read s.heap 0 with
  | some (.tcsip _ (some t)) => tcmessageFlush s t ps
  | some (.tcsip _ none) => some s
  | _ => none

/-- The row of a message that has arrived is written and reported. -/
def acknowledge (s : Objects) (t m : ℕ) (ok : Bool) : Option Objects :=
  if ok then (flagSent s t m).bind fun s => reportMessage s t m else some s

/-- The flush after the last response, if it comes to one. -/
def flushAfter (s : Objects) (t : ℕ) : Option (List Parsed) → Option Objects
  | some ps => tcmessageFlush s t ps
  | none => some s

/-- `message_response` for the final response to the `i`-th request. -/
def messageResponse (s : Objects) (i : ℕ) (ok : Bool) (flush : Option (List Parsed)) :
    Option Objects := do
  let m ← s.requests[i]?
  match read s.heap m with
  | some (.msgSingle _ _ _ _ (some t)) =>
    if alive s.heap [t] then do
      let s ← acknowledge { s with requests := s.requests.eraseIdx i } t m ok
      let s ← flushAfter s t flush
      derefObject s m
    else none
  | _ => none

/-- `tcsip_local` from the new `user_c` on, which is put over the old one; `ok` if the login does
not end early.  The messages object is given back before the field is set to it. -/
def tcsipLocal (s : Objects) (ok : Bool) : Option Objects :=
  match read s.heap 0 with
  | some (.tcsip userC msg) => do
    let user := s.heap.length
    let s := { allocPlain s with lost := s.lost ++ userC.toList }
    if ok then do
      let h ← write s.heap 0 (.tcsip (some user) none)
      let s ← msg.toList.foldlM derefObject { s with heap := h }
      let s ← retainObject s user
      let s ← retainObject s 0
      let t := s.heap.length
      let s := { s with heap := alloc s.heap (.tcmessages user 0), lost := s.lost ++ [0] }
      let h ← write s.heap 0 (.tcsip (some user) (some t))
      some { s with heap := h }
    else do
      let h ← write s.heap 0 (.tcsip (some user) msg)
      some { s with heap := h }
  | _ => none

/-- `tcsip_close`. -/
def tcsipClose (s : Objects) : Option Objects := derefObject { s with owner := false } 0

/-! ## Runs -/

/-- What can happen. -/
inductive LifeEvent where
  | login (ok : Bool)
  | message (taken : Bool)
  | flush (ps : List Parsed)
  | response (i : ℕ) (ok : Bool) (flush : Option (List Parsed))
  | close
  deriving DecidableEq

/-- The state after an event, unless something is used that was freed. -/
def lifeStep (s : Objects) : LifeEvent → Option Objects
  | .login ok => tcsipLocal s ok
  | .message taken => sendMessage s taken
  | .flush ps => flushMessages s ps
  | .response i ok flush => messageResponse s i ok flush
  | .close => tcsipClose s

/-- The owner uses the `tcsip` until he closes it, and a response is one to a request. -/
def Allowed (s : Objects) : LifeEvent → Prop
  | .response i _ _ => i < s.requests.length
  | _ => s.owner = true

instance (s : Objects) : ∀ e, Decidable (Allowed s e)
  | .response _ _ _ => inferInstanceAs (Decidable (_ < _))
  | .login _ => inferInstanceAs (Decidable (_ = _))
  | .message _ => inferInstanceAs (Decidable (_ = _))
  | .flush _ => inferInstanceAs (Decidable (_ = _))
  | .close => inferInstanceAs (Decidable (_ = _))

/-! ## Sound heaps -/

/-- What an object is, also after it was freed. -/
inductive Kind where
  | tcsip
  | tcmessages
  | msgSingle
  | plain
  deriving DecidableEq

/-- The kind of an object by its `struct`. -/
def MemObject.kind : MemObject → Kind
  | .tcsip _ _ => .tcsip
  | .tcmessages _ _ => .tcmessages
  | .msgSingle _ _ _ _ _ => .msgSingle
  | .plain => .plain

/-- The kind of the object with this number, freed or not. -/
def kindOf (h : Heap MemObject) (x : ℕ) : Option Kind := (h[x]?.map Cell.val).map MemObject.kind

/-- The fields of an object point to objects of the right kind. -/
def MemObject.Fields (κ : ℕ → Option Kind) : MemObject → Prop
  | .tcsip userC msg => (∀ y ∈ userC, κ y = some .plain) ∧ ∀ y ∈ msg, κ y = some .tcmessages
  | .tcmessages user arg => κ user = some .plain ∧ arg = 0
  | .msgSingle user data login idx ctx =>
    (∀ y ∈ user :: (data.toList ++ login.toList ++ idx.toList), κ y = some .plain) ∧
      ∀ y ∈ ctx, κ y = some .tcmessages
  | .plain => True

/-- The message was sent by a messages object. -/
def Sent (h : Heap MemObject) (m : ℕ) : Prop :=
  ∃ user data login idx t, read h m = some (.msgSingle user data login idx (some t))

/-- The references from outside, without those that a function holds. -/
def outside (s : Objects) : Multiset ℕ :=
  (if s.owner then {0} else 0) + (s.requests : Multiset ℕ) + (s.refused : Multiset ℕ) +
    (s.lost : Multiset ℕ)

/-- The heap is balanced with the references `held`, its fields are of the right kinds, and the
references from outside are what they are said to be. -/
structure Sound (s : Objects) (held : Multiset ℕ) : Prop where
  balanced : Balanced MemObject.drops s.heap (outside s + held)
  fields : ∀ x v, read s.heap x = some v → v.Fields (kindOf s.heap)
  first : ∀ x, kindOf s.heap x = some .tcsip ↔ x = 0
  sent : ∀ m ∈ s.requests ++ s.refused, Sent s.heap m
  lost : ∀ x ∈ s.lost, kindOf s.heap x = some .plain ∨ x = 0
  arg : ∀ t, kindOf s.heap t = some .tcmessages → 0 ∈ s.lost

/-- What a function leaves as it was: the kinds, and the values of objects that are alive and
not in `M`. -/
structure Keeps (M : Set ℕ) (s s' : Objects) : Prop where
  kinds : ∀ y k, kindOf s.heap y = some k → kindOf s'.heap y = some k
  same : ∀ y v, y ∉ M → read s.heap y = some v → read s'.heap y = some v
  owner : s'.owner = s.owner
  lost : 0 ∈ s'.lost ↔ 0 ∈ s.lost

theorem Keeps.refl (M : Set ℕ) (s : Objects) : Keeps M s s :=
  ⟨fun _ _ => id, fun _ _ _ => id, rfl, Iff.rfl⟩

theorem Keeps.trans {M : Set ℕ} {s s' s'' : Objects} (h : Keeps M s s') (h' : Keeps M s' s'') :
    Keeps M s s'' :=
  ⟨fun y k hy => h'.kinds y k (h.kinds y k hy), fun y v hM hy => h'.same y v hM (h.same y v hM hy),
    h'.owner.trans h.owner, h'.lost.trans h.lost⟩

theorem Keeps.mono {M N : Set ℕ} {s s' : Objects} (h : Keeps M s s') (hMN : M ⊆ N) :
    Keeps N s s' :=
  ⟨h.kinds, fun y v hN hy => h.same y v (fun hM => hN (hMN hM)) hy, h.owner, h.lost⟩

section kinds

variable {h : Heap MemObject} {x y : ℕ} {v w : MemObject}

theorem kindOf_of_read (hx : read h x = some v) : kindOf h x = some v.kind := by
  rw [kindOf, (read_eq_some.mp hx).1]
  rfl

theorem kindOf_alloc (h : Heap MemObject) (v : MemObject) (y : ℕ) :
    kindOf (alloc h v) y = if y = h.length then some v.kind else kindOf h y := by
  unfold kindOf alloc
  rw [List.getElem?_append]
  by_cases hy : y < h.length
  · rw [if_pos hy, if_neg (Nat.ne_of_lt hy)]
  · rw [if_neg hy, List.getElem?_eq_none (not_lt.mp hy)]
    by_cases heq : y = h.length
    · simp [heq]
    · have hpos : y - h.length ≠ 0 := by omega
      simp [heq, hpos]

theorem kindOf_length (h : Heap MemObject) : kindOf h h.length = none := by
  rw [kindOf, List.getElem?_eq_none le_rfl]
  rfl

/-- A new value of the same kind. -/
theorem kindOf_set (hx : read h x = some v) (hkind : w.kind = v.kind) (n : ℕ) :
    kindOf (h.set x ⟨n, w⟩) = kindOf h := by
  funext y
  unfold kindOf
  rw [List.getElem?_set]
  by_cases heq : x = y
  · subst heq
    rw [if_pos rfl, if_pos (lt_of_read hx), (read_eq_some.mp hx).1]
    exact congrArg some hkind
  · rw [if_neg heq]

theorem kindOf_shrinks {h' : Heap MemObject} (hs : Shrinks h h') : kindOf h' = kindOf h := by
  funext y
  rw [kindOf, hs.val y, kindOf]

theorem MemObject.Fields.mono {κ κ' : ℕ → Option Kind} (hκ : ∀ y k, κ y = some k → κ' y = some k)
    (hv : v.Fields κ) : v.Fields κ' := by
  cases v with
  | tcsip userC msg => exact ⟨fun y hy => hκ y _ (hv.1 y hy), fun y hy => hκ y _ (hv.2 y hy)⟩
  | tcmessages user arg => exact ⟨hκ user _ hv.1, hv.2⟩
  | msgSingle user data login idx ctx =>
    exact ⟨fun y hy => hκ y _ (hv.1 y hy), fun y hy => hκ y _ (hv.2 y hy)⟩
  | plain => trivial

end kinds

/-! ## What the operations keep -/

section operations

variable {s : Objects} {held : Multiset ℕ} {x : ℕ} {v w : MemObject}

/-- What an object holds is alive. -/
theorem Sound.isSome_of_drops (h : Sound s held) (hx : read s.heap x = some v) :
    ∀ y ∈ v.drops, (read s.heap y).isSome := fun _ hy =>
  h.balanced.isSome_read_iff.mpr (Or.inr ⟨x, v, hx, hy⟩)

theorem Sound.isSome_of_held (h : Sound s held) (hx : x ∈ outside s + held) :
    (read s.heap x).isSome :=
  h.balanced.isSome_read_iff.mpr (Or.inl hx)

theorem Sound.congr_held {held' : Multiset ℕ} (h : Sound s held) (heq : held = held') :
    Sound s held' := heq ▸ h

/-- **A new object** takes over references. -/
theorem Sound.alloc (h : Sound s ((v.drops : Multiset ℕ) + held)) (hv : v.Fields (kindOf s.heap))
    (hkind : v.kind ≠ .tcsip) (harg : v.kind = .tcmessages → 0 ∈ s.lost) :
    Sound { s with heap := alloc s.heap v } (s.heap.length ::ₘ held) ∧
      Keeps ∅ s { s with heap := alloc s.heap v } := by
  have hkinds : ∀ y k, kindOf s.heap y = some k → kindOf (RefCount.alloc s.heap v) y = some k := by
    intro y k hy
    rw [kindOf_alloc, if_neg]
    · exact hy
    · rintro rfl
      rw [kindOf_length] at hy
      exact absurd hy nofun
  have hsame : ∀ y w, read s.heap y = some w → read (RefCount.alloc s.heap v) y = some w := by
    intro y w hy
    rw [read_alloc, if_neg (Nat.ne_of_lt (lt_of_read hy)), hy]
  refine ⟨⟨?_, ?_, ?_, ?_, ?_, ?_⟩, hkinds, fun y w _ => hsame y w, rfl, Iff.rfl⟩
  · have hb := h.balanced
    rw [add_left_comm] at hb
    rw [Multiset.add_cons]
    exact hb.alloc
  · intro y w hy
    rw [read_alloc] at hy
    split at hy
    · obtain rfl := Option.some.inj hy
      exact hv.mono hkinds
    · exact (h.fields y w hy).mono hkinds
  · intro y
    rw [kindOf_alloc]
    split
    · rename_i heq
      have hlen : s.heap.length ≠ 0 := by
        have hzero := (h.first 0).mpr rfl
        intro hlen
        rw [← hlen, kindOf_length] at hzero
        exact absurd hzero nofun
      exact iff_of_false (fun hk => hkind (Option.some.inj hk)) (heq ▸ hlen)
    · exact h.first y
  · rintro m hm
    obtain ⟨user, data, login, idx, t, hread⟩ := h.sent m hm
    exact ⟨user, data, login, idx, t, hsame m _ hread⟩
  · exact fun y hy => (h.lost y hy).imp (hkinds y _) id
  · intro t ht
    rw [kindOf_alloc] at ht
    split at ht
    · exact harg (Option.some.inj ht)
    · exact h.arg t ht

/-- A new object without references. -/
theorem Sound.allocPlain (h : Sound s held) :
    Sound (allocPlain s) (s.heap.length ::ₘ held) ∧ Keeps ∅ s (allocPlain s) := by
  have hheld : held = ((MemObject.plain.drops : List ℕ) : Multiset ℕ) + held := (zero_add held).symm
  exact (h.congr_held hheld).alloc trivial nofun nofun

/-- **Another reference** to an object that is alive. -/
theorem Sound.retain (h : Sound s held) (hx : read s.heap x = some v) :
    ∃ s', retainObject s x = some s' ∧ Sound s' (x ::ₘ held) ∧ Keeps ∅ s s' ∧
      s'.heap.length = s.heap.length ∧ s'.lost = s.lost := by
  obtain ⟨h', hretain, hbal⟩ := h.balanced.retain hx
  have hread := read_retain hretain
  have hkind : kindOf h' = kindOf s.heap := by
    rw [retain_eq hx] at hretain
    rw [← Option.some.inj hretain, kindOf_set hx rfl]
  have hlen : h'.length = s.heap.length := by
    rw [retain_eq hx] at hretain
    rw [← Option.some.inj hretain, List.length_set]
  refine ⟨{ s with heap := h' }, by rw [retainObject, hretain]; rfl, ⟨?_, ?_, ?_, ?_, ?_, ?_⟩,
    ⟨?_, ?_, rfl, Iff.rfl⟩, hlen, rfl⟩
  · rw [Multiset.add_cons]
    exact hbal
  · intro y w hy
    rw [hread] at hy
    exact hkind ▸ h.fields y w hy
  · exact hkind ▸ h.first
  · rintro m hm
    obtain ⟨user, data, login, idx, t, hm⟩ := h.sent m hm
    exact ⟨user, data, login, idx, t, (hread m).trans hm⟩
  · exact hkind ▸ h.lost
  · exact hkind ▸ h.arg
  · exact fun y k hy => hkind ▸ hy
  · exact fun y w _ hy => (hread y).trans hy

/-- **A new value** of the same kind, which takes over references. -/
theorem Sound.write {held' : Multiset ℕ} (h : Sound s held) (hx : read s.heap x = some v)
    (hkind : w.kind = v.kind) (hw : w.Fields (kindOf s.heap))
    (hsent : ∀ user data login idx t, v = .msgSingle user data login idx (some t) →
      ∃ user data login idx t, w = .msgSingle user data login idx (some t))
    (hheld : held' + (w.drops : Multiset ℕ) = held + (v.drops : Multiset ℕ)) :
    ∃ h', write s.heap x w = some h' ∧ Sound { s with heap := h' } held' ∧
      Keeps {x} s { s with heap := h' } ∧ read h' x = some w ∧ h'.length = s.heap.length := by
  have hout : (outside s + held') + (w.drops : Multiset ℕ) =
      (outside s + held) + (v.drops : Multiset ℕ) := by
    rw [add_assoc, hheld, add_assoc]
  obtain ⟨h', hwrite, hbal⟩ := h.balanced.write hx hout
  have hread := read_write hwrite
  have hset : h' = s.heap.set x ⟨refs s.heap x, w⟩ := by
    rw [write_eq hx] at hwrite
    exact (Option.some.inj hwrite).symm
  have hkinds : kindOf h' = kindOf s.heap := by
    rw [hset, kindOf_set hx hkind]
  refine ⟨h', hwrite, ⟨hbal, ?_, ?_, ?_, ?_, ?_⟩, ⟨?_, ?_, rfl, Iff.rfl⟩, ?_, ?_⟩
  · intro y u hy
    show u.Fields (kindOf h')
    rw [hkinds]
    rw [hread] at hy
    split at hy
    · exact Option.some.inj hy ▸ hw
    · exact h.fields y u hy
  · exact hkinds ▸ h.first
  · intro m hm
    obtain ⟨user, data, login, idx, t, hm⟩ := h.sent m hm
    by_cases heq : m = x
    · subst heq
      obtain ⟨user', data', login', idx', t', rfl⟩ :=
        hsent user data login idx t (Option.some.inj (hx.symm.trans hm))
      exact ⟨user', data', login', idx', t', (hread m).trans (if_pos rfl)⟩
    · exact ⟨user, data, login, idx, t, (hread m).trans ((if_neg heq).trans hm)⟩
  · exact hkinds ▸ h.lost
  · exact hkinds ▸ h.arg
  · exact fun y k hy => hkinds ▸ hy
  · exact fun y u hy hu => (hread y).trans ((if_neg hy).trans hu)
  · exact (hread x).trans (if_pos rfl)
  · rw [hset, List.length_set]

/-- **Giving back a reference.** -/
theorem Sound.deref (h : Sound s (x ::ₘ held)) :
    ∃ s', derefObject s x = some s' ∧ Sound s' held ∧ s'.owner = s.owner ∧ s'.lost = s.lost ∧
      ∀ y v, read s'.heap y = some v → read s.heap y = some v := by
  have hb := h.balanced
  rw [Multiset.add_cons] at hb
  obtain ⟨h', hderef, hbal, hshrinks⟩ := hb.deref
  have hkinds := kindOf_shrinks hshrinks
  refine ⟨{ s with heap := h' }, by rw [derefObject, hderef]; rfl,
    ⟨hbal, ?_, ?_, ?_, ?_, ?_⟩, rfl, rfl, hshrinks.read⟩
  · exact fun y u hy => hkinds ▸ h.fields y u (hshrinks.read y u hy)
  · exact hkinds ▸ h.first
  · intro m hm
    -- a message that is held from outside is still alive
    have hout : m ∈ outside s + held := by
      unfold outside
      rcases List.mem_append.mp hm with hm | hm <;> simp [hm]
    obtain ⟨u, hu⟩ := hbal.read_of_mem hout
    obtain ⟨user, data, login, idx, t, hread⟩ := h.sent m hm
    rw [hshrinks.read m u hu] at hread
    exact ⟨user, data, login, idx, t, hu.trans hread⟩
  · exact hkinds ▸ h.lost
  · exact hkinds ▸ h.arg

/-- The `tcsip` is no plain object. -/
theorem Sound.zero_mem_append {xs : List ℕ} (h : Sound s held)
    (hxs : ∀ x ∈ xs, kindOf s.heap x = some .plain) : 0 ∈ s.lost ++ xs ↔ 0 ∈ s.lost := by
  rw [List.mem_append, or_iff_left]
  intro hzero
  have hplain := hxs 0 hzero
  rw [(h.first 0).mpr rfl] at hplain
  exact absurd hplain nofun

/-- References that nobody will give back. -/
theorem Sound.lose {xs : List ℕ} (h : Sound s ((xs : Multiset ℕ) + held))
    (hxs : ∀ x ∈ xs, kindOf s.heap x = some .plain ∨ x = 0) :
    Sound { s with lost := s.lost ++ xs } held := by
  refine ⟨?_, h.fields, h.first, h.sent, ?_, fun t ht => List.mem_append_left _ (h.arg t ht)⟩
  · have hout : outside { s with lost := s.lost ++ xs } + held =
        outside s + ((xs : Multiset ℕ) + held) := by
      unfold outside
      rw [← Multiset.coe_add]
      simp only [add_assoc]
    rw [hout]
    exact h.balanced
  · intro x hx
    rcases List.mem_append.mp hx with hx | hx
    · exact h.lost x hx
    · exact hxs x hx

/-- The reference of a handler. -/
theorem Sound.handler (h : Sound s (x ::ₘ held)) (hx : Sent s.heap x) (taken : Bool) :
    Sound (if taken then { s with requests := s.requests ++ [x] }
      else { s with refused := s.refused ++ [x] }) held := by
  have hsent : ∀ (l : List ℕ), (∀ m ∈ l, m ∈ s.requests ++ s.refused ∨ m = x) →
      ∀ m ∈ l, Sent s.heap m := by
    intro l hl m hm
    rcases hl m hm with hm | rfl
    · exact h.sent m hm
    · exact hx
  cases taken with
  | true =>
    refine ⟨?_, h.fields, h.first, hsent _ ?_, h.lost, h.arg⟩
    · have hout : outside { s with requests := s.requests ++ [x] } + held =
          outside s + (x ::ₘ held) := by
        unfold outside
        rw [← Multiset.coe_add, Multiset.coe_singleton, ← Multiset.singleton_add]
        ac_rfl
      rw [if_pos rfl, hout]
      exact h.balanced
    · intro m hm
      simp only [if_true, List.mem_append, List.mem_singleton] at hm ⊢
      tauto
  | false =>
    refine ⟨?_, h.fields, h.first, hsent _ ?_, h.lost, h.arg⟩
    · have hout : outside { s with refused := s.refused ++ [x] } + held =
          outside s + (x ::ₘ held) := by
        unfold outside
        rw [← Multiset.coe_add, Multiset.coe_singleton, ← Multiset.singleton_add]
        ac_rfl
      rw [if_neg Bool.false_ne_true, hout]
      exact h.balanced
    · intro m hm
      simp only [Bool.false_eq_true, if_false, List.mem_append, List.mem_singleton] at hm ⊢
      tauto

/-- The handler of a request that ends takes its reference. -/
theorem Sound.eraseIdx {i : ℕ} (h : Sound s held) (hi : s.requests[i]? = some x) :
    Sound { s with requests := s.requests.eraseIdx i } (x ::ₘ held) := by
  refine ⟨?_, h.fields, h.first, ?_, h.lost, h.arg⟩
  · have hperm : (s.requests : Multiset ℕ) = x ::ₘ (s.requests.eraseIdx i : Multiset ℕ) := by
      rw [Multiset.cons_coe, Multiset.coe_eq_coe]
      obtain ⟨hlt, rfl⟩ := List.getElem?_eq_some_iff.mp hi
      exact (List.getElem_cons_eraseIdx_perm hlt).symm
    have hout : outside { s with requests := s.requests.eraseIdx i } + (x ::ₘ held) =
        outside s + held := by
      unfold outside
      rw [hperm, ← Multiset.singleton_add, ← Multiset.singleton_add]
      ac_rfl
    rw [hout]
    exact h.balanced
  · intro m hm
    apply h.sent
    rcases List.mem_append.mp hm with hm | hm
    · exact List.mem_append_left _ (List.mem_of_mem_eraseIdx hm)
    · exact List.mem_append_right _ hm

end operations

/-! ## Sending a message -/

section sending

variable {s : Objects} {held : Multiset ℕ} {t m user arg peer : ℕ}
  {data login idx ctx : Option ℕ}

theorem alive_iff {h : Heap MemObject} {xs : List ℕ} :
    alive h xs = true ↔ ∀ x ∈ xs, (read h x).isSome := List.all_eq_true

/-- Both addresses and the text are there. -/
theorem Sound.alive_parts (h : Sound s held) (ht : read s.heap t = some (.tcmessages user arg))
    (hm : read s.heap m = some (.msgSingle peer data login idx ctx)) :
    alive s.heap (user :: peer :: data.toList) = true := by
  rw [alive_iff]
  intro x hx
  rcases List.mem_cons.mp hx with rfl | hx
  · exact h.isSome_of_drops ht x List.mem_cons_self
  · apply h.isSome_of_drops hm
    rcases List.mem_cons.mp hx with rfl | hx
    · exact List.mem_cons_self
    · simp only [MemObject.drops, List.mem_cons, List.mem_append]
      tauto

theorem msend_spec (h : Sound s held) (ht : read s.heap t = some (.tcmessages user arg)) {c : ℕ}
    (hm : read s.heap m = some (.msgSingle peer data login idx (some c))) (taken : Bool) :
    ∃ s', msend s t m taken = some s' ∧ Sound s' held ∧ Keeps ∅ s s' := by
  obtain ⟨s₁, hretain, hs₁, hkeeps, -⟩ := h.retain hm
  obtain ⟨h', hh', rfl⟩ := Option.map_eq_some_iff.mp hretain
  have hsent : Sent h' m := ⟨peer, data, login, idx, c, hkeeps.same m _ (Set.notMem_empty m) hm⟩
  refine ⟨_, ?_, hs₁.handler hsent taken, ?_⟩
  · unfold msend
    rw [ht, hm]
    dsimp only
    rw [if_pos (h.alive_parts ht hm), hh']
    rfl
  · cases taken <;> exact ⟨hkeeps.kinds, hkeeps.same, rfl, Iff.rfl⟩

theorem flagSent_spec (h : Sound s held) (ht : read s.heap t = some (.tcmessages user arg))
    (hm : read s.heap m = some (.msgSingle peer data login idx ctx)) :
    ∃ s', flagSent s t m = some s' ∧ Sound s' held ∧ Keeps {m} s s' ∧
      ∃ i, read s'.heap m = some (.msgSingle peer data login (some i) ctx) := by
  obtain ⟨halloc, hkeeps⟩ := h.allocPlain
  have hfields := h.fields m _ hm
  have hm' := hkeeps.same m _ (Set.notMem_empty m) hm
  let w : MemObject := .msgSingle peer data login (some s.heap.length) ctx
  have hkind : w.kind = (MemObject.msgSingle peer data login idx ctx).kind := rfl
  have hw : w.Fields (kindOf (alloc s.heap .plain)) := by
    have hfields' := halloc.fields m _ hm'
    refine ⟨fun y hy => ?_, hfields'.2⟩
    by_cases heq : y = s.heap.length
    · rw [heq, kindOf_alloc, if_pos rfl]
      rfl
    · apply hfields'.1
      simp only [List.mem_cons, List.mem_append, Option.toList_some, List.not_mem_nil] at hy ⊢
      tauto
  have hsent : ∀ user data' login' idx' c,
      MemObject.msgSingle peer data login idx ctx = .msgSingle user data' login' idx' (some c) →
      ∃ user data login idx c, w = .msgSingle user data login idx (some c) := by
    rintro _ _ _ _ c heq
    cases heq
    exact ⟨peer, data, login, some s.heap.length, c, rfl⟩
  have hheld : ((idx.toList : Multiset ℕ) + held) + (w.drops : Multiset ℕ) =
      (s.heap.length ::ₘ held) +
        ((MemObject.msgSingle peer data login idx ctx).drops : Multiset ℕ) := by
    simp only [w, MemObject.drops, ← Multiset.cons_coe, ← Multiset.coe_add, Option.toList_some,
      ← Multiset.singleton_add, Multiset.coe_nil]
    abel
  obtain ⟨h', hwrite, hs', hkeeps', hread, -⟩ := halloc.write hm' hkind hw hsent hheld
  have hwrite' : write (alloc s.heap .plain) m
      (.msgSingle peer data login (some s.heap.length) ctx) = some h' := hwrite
  have hplain : ∀ x ∈ idx.toList, kindOf s.heap x = some .plain := by
    intro x hx
    apply hfields.1
    simp only [List.mem_cons, List.mem_append]
    tauto
  refine ⟨{ s with heap := h', lost := s.lost ++ idx.toList }, ?_, hs'.lose ?_, ?_, _, hread⟩
  · unfold flagSent
    rw [ht, hm]
    dsimp only
    rw [if_pos (h.alive_parts ht hm), hwrite']
    rfl
  · exact fun x hx => Or.inl (hkeeps'.kinds x _ (hkeeps.kinds x _ (hplain x hx)))
  · exact ⟨fun y k hy => hkeeps'.kinds y k (hkeeps.kinds y k hy), fun y v hy hv =>
      hkeeps'.same y v hy (hkeeps.same y v (Set.notMem_empty y) hv), rfl,
      h.zero_mem_append hplain⟩

theorem reportMessage_spec (h : Sound s held) (ht : read s.heap t = some (.tcmessages user arg))
    (hm : read s.heap m = some (.msgSingle peer data login idx ctx)) :
    reportMessage s t m = some s := by
  have harg : arg = 0 := (h.fields t _ ht).2
  have hzero : (read s.heap 0).isSome := by
    apply h.isSome_of_held
    have hlost := h.arg t (kindOf_of_read ht)
    unfold outside
    simp [hlost]
  unfold reportMessage
  rw [ht, hm]
  dsimp only
  rw [if_pos]
  rw [alive_iff]
  intro x hx
  rcases List.mem_cons.mp hx with rfl | hx
  · exact harg ▸ hzero
  · apply h.isSome_of_drops hm
    simp only [MemObject.drops, List.mem_cons, List.mem_append] at hx ⊢
    tauto

/-- **Sending a message** gives back all that it takes but what is lost. -/
theorem tcmessage_spec {dest : ℕ} (h : Sound s held)
    (ht : read s.heap t = some (.tcmessages user arg)) (hdest : read s.heap dest = some .plain)
    (taken : Bool) :
    ∃ s', tcmessage s t dest taken = some s' ∧ Sound s' held ∧ s'.owner = s.owner ∧
      (0 ∈ s'.lost ↔ 0 ∈ s.lost) := by
  obtain ⟨h₀, k₀⟩ := h.allocPlain
  have hdata : read (allocPlain s).heap s.heap.length = some .plain := by
    unfold allocPlain
    rw [read_alloc, if_pos rfl]
  obtain ⟨s₁, e₁, h₁, k₁, -, l₁⟩ := h₀.retain hdata
  have k₀₁ := k₀.trans k₁
  obtain ⟨s₂, e₂, h₂, k₂, -, l₂⟩ := h₁.retain (k₀₁.same dest _ (Set.notMem_empty _) hdest)
  have k₀₂ := k₀₁.trans k₂
  obtain ⟨s₃, e₃, h₃, k₃, -, l₃⟩ := h₂.retain (k₀₂.same t _ (Set.notMem_empty _) ht)
  have k₀₃ := k₀₂.trans k₃
  have hkinds : kindOf s₃.heap s.heap.length = some .plain :=
    kindOf_of_read (k₃.same _ _ (Set.notMem_empty _) (k₂.same _ _ (Set.notMem_empty _)
      (k₁.same _ _ (Set.notMem_empty _) hdata)))
  -- the message takes over one of the two references to its text, the other one is lost
  let w : MemObject := .msgSingle dest (some s.heap.length) none none (some t)
  have hheld : t ::ₘ dest ::ₘ s.heap.length ::ₘ s.heap.length ::ₘ held =
      (w.drops : Multiset ℕ) + ((([s.heap.length] : List ℕ) : Multiset ℕ) + held) := by
    simp only [w, MemObject.drops, ← Multiset.cons_coe, ← Multiset.coe_add, Option.toList_some,
      Option.toList_none, ← Multiset.singleton_add, Multiset.coe_nil]
    abel
  have hw : w.Fields (kindOf s₃.heap) := by
    refine ⟨fun y hy => ?_, fun y hy => ?_⟩
    · have hy' : y = dest ∨ y = s.heap.length := by simpa using hy
      rcases hy' with rfl | rfl
      · exact kindOf_of_read (k₀₃.same _ _ (Set.notMem_empty _) hdest)
      · exact hkinds
    · obtain rfl : t = y := by simpa using hy
      exact kindOf_of_read (k₀₃.same _ _ (Set.notMem_empty _) ht)
  obtain ⟨h₄, k₄⟩ := (h₃.congr_held hheld).alloc hw Kind.noConfusion Kind.noConfusion
  have hlost : ∀ x ∈ [s.heap.length],
      kindOf (alloc s₃.heap w) x = some .plain ∨ x = 0 := by
    intro x hx
    rw [List.mem_singleton.mp hx]
    exact Or.inl (k₄.kinds _ _ hkinds)
  have h₅ := (h₄.congr_held (Multiset.add_cons _ _ _).symm).lose hlost
  have hm₅ : read (alloc s₃.heap w) s₃.heap.length = some w := by
    rw [read_alloc, if_pos rfl]
  have ht₅ : read (alloc s₃.heap w) t = some (.tcmessages user arg) :=
    k₄.same _ _ (Set.notMem_empty _) (k₀₃.same _ _ (Set.notMem_empty _) ht)
  have hne : t ≠ s₃.heap.length := Nat.ne_of_lt (lt_of_read (k₀₃.same _ _ (Set.notMem_empty _) ht))
  obtain ⟨s₆, e₆, h₆, k₆⟩ := msend_spec h₅ ht₅ hm₅ taken
  have ht₆ := k₆.same _ _ (Set.notMem_empty _) ht₅
  obtain ⟨s₇, e₇, h₇, k₇, i, hm₇⟩ := flagSent_spec h₆ ht₆ (k₆.same _ _ (Set.notMem_empty _) hm₅)
  have e₈ := reportMessage_spec h₇ (k₇.same _ _ hne ht₆) hm₇
  obtain ⟨s₉, e₉, h₉, o₉, l₉, -⟩ := h₇.deref
  refine ⟨s₉, ?_, h₉, ?_, ?_⟩
  · unfold tcmessage
    dsimp only
    rw [e₁, Option.bind_eq_bind, Option.bind_some, e₂, Option.bind_some, e₃, Option.bind_some, e₆,
      Option.bind_some, e₇, Option.bind_some, e₈, Option.bind_some, e₉]
  · rw [o₉, k₇.owner, k₆.owner]
    exact k₀₃.owner
  · rw [l₉, k₇.lost, k₆.lost, ← k₀₃.lost]
    apply h₃.zero_mem_append
    intro x hx
    rw [List.mem_singleton.mp hx]
    exact hkinds

end sending

/-! ## Flushing -/

section flushing

variable {s : Objects} {held : Multiset ℕ} {t user arg : ℕ}

/-- A message that was read from a row and not sent yet. -/
def Unsent (h : Heap MemObject) (m : ℕ) : Prop :=
  ∃ user data login idx, read h m = some (.msgSingle user data login idx none)

theorem allocField_spec (h : Sound s held) (there : Bool) :
    Sound (allocField s there).1 ((allocField s there).2.toList + held) ∧
      Keeps ∅ s (allocField s there).1 ∧
      (∀ y ∈ (allocField s there).2.toList, kindOf (allocField s there).1.heap y = some .plain) ∧
      s.heap.length ≤ (allocField s there).1.heap.length := by
  cases there with
  | true =>
    obtain ⟨h', k'⟩ := h.allocPlain
    refine ⟨h', k', fun y hy => ?_, ?_⟩
    · obtain rfl : y = s.heap.length := by simpa [allocField] using hy
      show kindOf (alloc s.heap .plain) s.heap.length = some .plain
      rw [kindOf_alloc, if_pos rfl]
      rfl
    · show s.heap.length ≤ (alloc s.heap .plain).length
      rw [alloc, List.length_append]
      omega
  | false =>
    exact ⟨h.congr_held (zero_add held).symm, Keeps.refl ∅ s,
      fun y hy => absurd hy List.not_mem_nil, le_rfl⟩

theorem msgParse_spec (h : Sound s held) (p : Parsed) :
    Sound (msgParse s p).1 ((msgParse s p).2 ::ₘ held) ∧ Keeps ∅ s (msgParse s p).1 ∧
      Unsent (msgParse s p).1.heap (msgParse s p).2 ∧ s.heap.length ≤ (msgParse s p).2 ∧
      (msgParse s p).2 < (msgParse s p).1.heap.length := by
  obtain ⟨h₀, k₀⟩ := h.allocPlain
  have huser : kindOf (allocPlain s).heap s.heap.length = some .plain := by
    show kindOf (alloc s.heap .plain) s.heap.length = some .plain
    rw [kindOf_alloc, if_pos rfl]
    rfl
  have hle₀ : s.heap.length ≤ (allocPlain s).heap.length := by
    show s.heap.length ≤ (alloc s.heap .plain).length
    rw [alloc, List.length_append]
    omega
  obtain ⟨h₁, k₁, hlogin, hle₁⟩ := allocField_spec h₀ p.login
  obtain ⟨h₂, k₂, hdata, hle₂⟩ := allocField_spec h₁ p.data
  obtain ⟨h₃, k₃, hidx, hle₃⟩ := allocField_spec h₂ p.idx
  generalize hs₁ : allocField (allocPlain s) p.login = r₁ at *
  generalize hs₂ : allocField r₁.1 p.data = r₂ at *
  generalize hs₃ : allocField r₂.1 p.idx = r₃ at *
  let w : MemObject := .msgSingle s.heap.length r₂.2 r₁.2 r₃.2 none
  have hheld : (r₃.2.toList : Multiset ℕ) +
      (r₂.2.toList + (r₁.2.toList + (s.heap.length ::ₘ held))) =
      (w.drops : Multiset ℕ) + held := by
    simp only [w, MemObject.drops, ← Multiset.cons_coe, ← Multiset.coe_add, Option.toList_none,
      ← Multiset.singleton_add, Multiset.coe_nil]
    abel
  have hw : w.Fields (kindOf r₃.1.heap) := by
    refine ⟨fun y hy => ?_, fun y hy => absurd hy (Option.not_mem_none y)⟩
    simp only [List.mem_cons, List.mem_append] at hy
    rcases hy with rfl | (hy | hy) | hy
    · exact k₃.kinds _ _ (k₂.kinds _ _ (k₁.kinds _ _ huser))
    · exact k₃.kinds _ _ (hdata y hy)
    · exact k₃.kinds _ _ (k₂.kinds _ _ (hlogin y hy))
    · exact hidx y hy
  obtain ⟨h₄, k₄⟩ := (h₃.congr_held hheld).alloc hw Kind.noConfusion Kind.noConfusion
  have hparse : msgParse s p = ({ r₃.1 with heap := alloc r₃.1.heap w }, r₃.1.heap.length) := by
    subst hs₃ hs₂ hs₁
    rfl
  rw [hparse]
  refine ⟨h₄, k₀.trans (k₁.trans (k₂.trans (k₃.trans k₄))),
    ⟨s.heap.length, r₂.2, r₁.2, r₃.2, ?_⟩, ?_, ?_⟩
  · show read (alloc r₃.1.heap w) r₃.1.heap.length = some w
    rw [read_alloc, if_pos rfl]
  · exact hle₀.trans (hle₁.trans (hle₂.trans hle₃))
  · show r₃.1.heap.length < (alloc r₃.1.heap w).length
    rw [alloc, List.length_append]
    exact Nat.lt_succ_self _

/-- **Parsing a blob** makes as many new messages. -/
theorem parseAll_spec (h : Sound s held) (ps : List Parsed) :
    Sound (parseAll s ps).1 ((((parseAll s ps).2.map Prod.fst : List ℕ) : Multiset ℕ) + held) ∧
      Keeps ∅ s (parseAll s ps).1 ∧
      (∀ m ∈ (parseAll s ps).2, Unsent (parseAll s ps).1.heap m.1 ∧ s.heap.length ≤ m.1) ∧
      ((parseAll s ps).2.map Prod.fst).Nodup := by
  induction ps generalizing s held with
  | nil =>
    exact ⟨h.congr_held (zero_add held).symm, Keeps.refl ∅ s,
      fun m hm => absurd hm List.not_mem_nil, List.nodup_nil⟩
  | cons p ps ih =>
    obtain ⟨h₁, k₁, ⟨user, data, login, idx, hread⟩, hle, hlt⟩ := msgParse_spec h p
    obtain ⟨h₂, k₂, hms, hnodup⟩ := ih h₁
    have hparse : parseAll s (p :: ps) =
        ((parseAll (msgParse s p).1 ps).1,
          ((msgParse s p).2, p.taken) :: (parseAll (msgParse s p).1 ps).2) := rfl
    rw [hparse]
    refine ⟨h₂.congr_held ?_, k₁.trans k₂, ?_, ?_⟩
    · rw [List.map_cons, ← Multiset.cons_coe, Multiset.add_cons, Multiset.cons_add]
    · intro m hm
      rcases List.mem_cons.mp hm with rfl | hm
      · exact ⟨⟨user, data, login, idx, k₂.same _ _ (Set.notMem_empty _) hread⟩, hle⟩
      · obtain ⟨hunsent, hle'⟩ := hms m hm
        exact ⟨hunsent, by omega⟩
    · rw [List.map_cons, List.nodup_cons]
      refine ⟨fun hmem => ?_, hnodup⟩
      obtain ⟨m, hm, heq⟩ := List.mem_map.mp hmem
      have hle' := (hms m hm).2
      simp only at heq
      omega

theorem sendPending_spec (h : Sound s held) (ht : read s.heap t = some (.tcmessages user arg))
    {m : ℕ × Bool} (hm : Unsent s.heap m.1) :
    ∃ s', sendPending t s m = some s' ∧ Sound s' held ∧ Keeps {m.1} s s' := by
  obtain ⟨peer, data, login, idx, hread⟩ := hm
  obtain ⟨s₁, e₁, h₁, k₁, -, -⟩ := h.retain ht
  have hread₁ := k₁.same _ _ (Set.notMem_empty _) hread
  have ht₁ := k₁.same _ _ (Set.notMem_empty _) ht
  let w : MemObject := .msgSingle peer data login idx (some t)
  have hkind : w.kind = (MemObject.msgSingle peer data login idx none).kind := rfl
  have hw : w.Fields (kindOf s₁.heap) := by
    refine ⟨(h₁.fields _ _ hread₁).1, fun y hy => ?_⟩
    obtain rfl : t = y := by simpa using hy
    exact kindOf_of_read ht₁
  have hheld : held + (w.drops : Multiset ℕ) =
      (t ::ₘ held) + ((MemObject.msgSingle peer data login idx none).drops : Multiset ℕ) := by
    simp only [w, MemObject.drops, ← Multiset.cons_coe, ← Multiset.coe_add, Option.toList_some,
      Option.toList_none, ← Multiset.singleton_add, Multiset.coe_nil]
    abel
  have hsent : ∀ user data' login' idx' c,
      MemObject.msgSingle peer data login idx none = .msgSingle user data' login' idx' (some c) →
      ∃ user data login idx c, w = .msgSingle user data login idx (some c) :=
    fun _ _ _ _ _ heq => absurd heq nofun
  obtain ⟨h', hwrite, h₂, k₂, hread₂, -⟩ := h₁.write hread₁ hkind hw hsent hheld
  have hne : t ≠ m.1 := by
    intro heq
    rw [heq, hread] at ht
    exact absurd ht nofun
  obtain ⟨s₃, e₃, h₃, k₃⟩ := msend_spec h₂ (k₂.same _ _ hne ht₁) hread₂ m.2
  have hkeeps := (k₁.mono (Set.empty_subset _)).trans (k₂.trans (k₃.mono (Set.empty_subset _)))
  refine ⟨s₃, ?_, h₃, hkeeps⟩
  unfold sendPending
  rw [e₁, Option.bind_eq_bind, Option.bind_some, hread₁]
  dsimp only
  rw [hwrite, Option.bind_eq_bind, Option.bind_some, e₃]

/-- **All that was parsed** is sent. -/
theorem sendAll_spec {ms : List (ℕ × Bool)} (h : Sound s held)
    (ht : read s.heap t = some (.tcmessages user arg)) (hms : ∀ m ∈ ms, Unsent s.heap m.1)
    (hnodup : (ms.map Prod.fst).Nodup) :
    ∃ s', ms.foldlM (sendPending t) s = some s' ∧ Sound s' held ∧ s'.owner = s.owner ∧
      (0 ∈ s'.lost ↔ 0 ∈ s.lost) := by
  induction ms generalizing s with
  | nil => exact ⟨s, rfl, h, rfl, Iff.rfl⟩
  | cons m ms ih =>
    rw [List.map_cons, List.nodup_cons] at hnodup
    obtain ⟨s₁, e₁, h₁, k₁⟩ := sendPending_spec h ht (hms m List.mem_cons_self)
    have ht₁ : read s₁.heap t = some (.tcmessages user arg) := by
      obtain ⟨_, _, _, _, hread⟩ := hms m List.mem_cons_self
      refine k₁.same t _ (fun heq => ?_) ht
      rw [Set.mem_singleton_iff.mp heq, hread] at ht
      exact absurd ht nofun
    have hms₁ : ∀ m' ∈ ms, Unsent s₁.heap m'.1 := by
      intro m' hm'
      obtain ⟨peer, data, login, idx, hread⟩ := hms m' (List.mem_cons_of_mem m hm')
      refine ⟨peer, data, login, idx, k₁.same m'.1 _ (fun heq => ?_) hread⟩
      exact hnodup.1 (Set.mem_singleton_iff.mp heq ▸ List.mem_map_of_mem hm')
    obtain ⟨s', e', h', o', l'⟩ := ih h₁ ht₁ hms₁ hnodup.2
    refine ⟨s', ?_, h', o'.trans k₁.owner, l'.trans k₁.lost⟩
    rw [List.foldlM_cons, e₁, Option.bind_eq_bind, Option.bind_some, e']

theorem derefAll_spec {xs : List ℕ} (h : Sound s ((xs : Multiset ℕ) + held)) :
    ∃ s', xs.foldlM derefObject s = some s' ∧ Sound s' held ∧ s'.owner = s.owner ∧
      s'.lost = s.lost ∧ ∀ y v, read s'.heap y = some v → read s.heap y = some v := by
  induction xs generalizing s with
  | nil => exact ⟨s, rfl, h.congr_held (zero_add held), rfl, rfl, fun _ _ => id⟩
  | cons x xs ih =>
    rw [← Multiset.cons_coe, Multiset.cons_add] at h
    obtain ⟨s₁, e₁, h₁, o₁, l₁, r₁⟩ := h.deref
    obtain ⟨s', e', h', o', l', r'⟩ := ih h₁
    refine ⟨s', ?_, h', o'.trans o₁, l'.trans l₁, fun y v hy => r₁ y v (r' y v hy)⟩
    rw [List.foldlM_cons, e₁, Option.bind_eq_bind, Option.bind_some, e']

/-- **A flush** gives back every message that it read, and the requests keep those they need. -/
theorem tcmessageFlush_spec (h : Sound s held) (ht : read s.heap t = some (.tcmessages user arg))
    (ps : List Parsed) :
    ∃ s', tcmessageFlush s t ps = some s' ∧ Sound s' held ∧ s'.owner = s.owner ∧
      (0 ∈ s'.lost ↔ 0 ∈ s.lost) := by
  obtain ⟨h₁, k₁, hms, hnodup⟩ := parseAll_spec h ps
  obtain ⟨s₂, e₂, h₂, o₂, l₂⟩ := sendAll_spec h₁ (k₁.same _ _ (Set.notMem_empty _) ht)
    (fun m hm => (hms m hm).1) hnodup
  obtain ⟨s₃, e₃, h₃, o₃, l₃, -⟩ := derefAll_spec h₂
  refine ⟨s₃, ?_, h₃, o₃.trans (o₂.trans k₁.owner), by rw [l₃, l₂, k₁.lost]⟩
  have halive : alive s.heap [t] = true := by
    rw [alive_iff]
    intro x hx
    rw [List.mem_singleton.mp hx, ht]
    rfl
  unfold tcmessageFlush
  rw [if_pos halive]
  show ((parseAll s ps).2.foldlM (sendPending t) (parseAll s ps).1).bind _ = _
  rw [e₂, Option.bind_some, e₃]

end flushing

/-! ## Events -/

section events

variable {s : Objects} {held : Multiset ℕ}

/-- The owner holds the `tcsip`. -/
theorem Sound.read_tcsip (h : Sound s held) (howner : s.owner = true) :
    ∃ userC msg, read s.heap 0 = some (.tcsip userC msg) := by
  have hout : 0 ∈ outside s + held := by
    unfold outside
    simp [howner]
  obtain ⟨v, hv⟩ := Option.isSome_iff_exists.mp (h.isSome_of_held hout)
  have hkind := kindOf_of_read hv
  rw [(h.first 0).mpr rfl] at hkind
  cases v with
  | tcsip userC msg => exact ⟨userC, msg, hv⟩
  | tcmessages user arg => exact absurd hkind nofun
  | msgSingle user data login idx ctx => exact absurd hkind nofun
  | plain => exact absurd hkind nofun

theorem read_tcmessages {h : Heap MemObject} {t : ℕ} (hkind : kindOf h t = some .tcmessages)
    (halive : (read h t).isSome) : ∃ user arg, read h t = some (.tcmessages user arg) := by
  obtain ⟨v, hv⟩ := Option.isSome_iff_exists.mp halive
  rw [kindOf_of_read hv] at hkind
  cases v with
  | tcmessages user arg => exact ⟨user, arg, hv⟩
  | tcsip userC msg => exact absurd hkind nofun
  | msgSingle user data login idx ctx => exact absurd hkind nofun
  | plain => exact absurd hkind nofun

/-- The current messages object is alive. -/
theorem Sound.read_msg (h : Sound s held) {userC : Option ℕ} {t : ℕ}
    (hsip : read s.heap 0 = some (.tcsip userC (some t))) :
    ∃ user arg, read s.heap t = some (.tcmessages user arg) :=
  read_tcmessages ((h.fields 0 _ hsip).2 t rfl)
    (h.isSome_of_drops hsip t (List.mem_append_right _ List.mem_cons_self))

theorem sendMessage_spec (h : Sound s 0) (howner : s.owner = true) (taken : Bool) :
    ∃ s', sendMessage s taken = some s' ∧ Sound s' 0 ∧ s'.owner = s.owner ∧
      (0 ∈ s'.lost ↔ 0 ∈ s.lost) := by
  obtain ⟨userC, msg, hsip⟩ := h.read_tcsip howner
  obtain ⟨h₁, k₁⟩ := h.allocPlain
  have hdest : read (allocPlain s).heap s.heap.length = some .plain := by
    unfold allocPlain
    rw [read_alloc, if_pos rfl]
  have hplain : ∀ x ∈ [s.heap.length], kindOf (allocPlain s).heap x = some .plain := by
    intro x hx
    rw [List.mem_singleton.mp hx]
    exact kindOf_of_read hdest
  have h₂ : Sound { allocPlain s with lost := (allocPlain s).lost ++ [s.heap.length] } 0 :=
    h₁.lose fun x hx => Or.inl (hplain x hx)
  have l₂ := h₁.zero_mem_append hplain
  unfold sendMessage
  rw [hsip]
  cases msg with
  | none => exact ⟨_, rfl, h₂, rfl, l₂⟩
  | some t =>
    obtain ⟨user, arg, ht⟩ := h.read_msg hsip
    obtain ⟨s₃, e₃, h₃, o₃, l₃⟩ := tcmessage_spec h₂ (k₁.same _ _ (Set.notMem_empty _) ht) hdest
      taken
    exact ⟨s₃, e₃, h₃, o₃, l₃.trans l₂⟩

theorem flushMessages_spec (h : Sound s 0) (howner : s.owner = true) (ps : List Parsed) :
    ∃ s', flushMessages s ps = some s' ∧ Sound s' 0 ∧ s'.owner = s.owner ∧
      (0 ∈ s'.lost ↔ 0 ∈ s.lost) := by
  obtain ⟨userC, msg, hsip⟩ := h.read_tcsip howner
  unfold flushMessages
  rw [hsip]
  cases msg with
  | none => exact ⟨s, rfl, h, rfl, Iff.rfl⟩
  | some t =>
    obtain ⟨user, arg, ht⟩ := h.read_msg hsip
    exact tcmessageFlush_spec h ht ps

theorem acknowledge_spec {t m user arg peer : ℕ} {data login idx ctx : Option ℕ}
    (h : Sound s held) (ht : read s.heap t = some (.tcmessages user arg))
    (hm : read s.heap m = some (.msgSingle peer data login idx ctx)) (ok : Bool) :
    ∃ s', acknowledge s t m ok = some s' ∧ Sound s' held ∧
      read s'.heap t = some (.tcmessages user arg) ∧ s'.owner = s.owner ∧
      (0 ∈ s'.lost ↔ 0 ∈ s.lost) := by
  cases ok with
  | false => exact ⟨s, rfl, h, ht, rfl, Iff.rfl⟩
  | true =>
    obtain ⟨s', e', h', k', i', hm'⟩ := flagSent_spec h ht hm
    have hne : t ≠ m := by
      rintro rfl
      rw [hm] at ht
      exact absurd ht nofun
    have ht' := k'.same t _ hne ht
    refine ⟨s', ?_, h', ht', k'.owner, k'.lost⟩
    rw [acknowledge, if_pos rfl, e', Option.bind_some, reportMessage_spec h' ht' hm']

theorem flushAfter_spec {t user arg : ℕ} (h : Sound s held)
    (ht : read s.heap t = some (.tcmessages user arg)) (flush : Option (List Parsed)) :
    ∃ s', flushAfter s t flush = some s' ∧ Sound s' held ∧ s'.owner = s.owner ∧
      (0 ∈ s'.lost ↔ 0 ∈ s.lost) := by
  cases flush with
  | none => exact ⟨s, rfl, h, rfl, Iff.rfl⟩
  | some ps => exact tcmessageFlush_spec h ht ps

/-- **A final response** gives back the reference of its request, and may free the message, the
messages object, and what they hold. -/
theorem messageResponse_spec (h : Sound s 0) {i : ℕ} (hi : i < s.requests.length) (ok : Bool)
    (flush : Option (List Parsed)) :
    ∃ s', messageResponse s i ok flush = some s' ∧ Sound s' 0 ∧ s'.owner = s.owner ∧
      (0 ∈ s'.lost ↔ 0 ∈ s.lost) := by
  obtain ⟨m, hm⟩ : ∃ m, s.requests[i]? = some m := ⟨_, List.getElem?_eq_getElem hi⟩
  obtain ⟨peer, data, login, idx, t, hread⟩ :=
    h.sent m (List.mem_append_left _ (List.mem_of_getElem? hm))
  have hkind : kindOf s.heap t = some .tcmessages := (h.fields m _ hread).2 t rfl
  have halive : (read s.heap t).isSome := by
    apply h.isSome_of_drops hread
    simp [MemObject.drops]
  obtain ⟨user, arg, ht⟩ := read_tcmessages hkind halive
  have halive' : alive s.heap [t] = true := by
    rw [alive_iff]
    intro x hx
    rw [List.mem_singleton.mp hx, ht]
    rfl
  have h₁ := h.eraseIdx hm
  obtain ⟨s₂, e₂, h₂, ht₂, o₂, l₂⟩ := acknowledge_spec h₁ ht hread ok
  obtain ⟨s₃, e₃, h₃, o₃, l₃⟩ := flushAfter_spec h₂ ht₂ flush
  obtain ⟨s₄, e₄, h₄, o₄, l₄, -⟩ := h₃.deref
  refine ⟨s₄, ?_, h₄, o₄.trans (o₃.trans o₂), by rw [l₄, l₃, l₂]⟩
  unfold messageResponse
  rw [hm, Option.bind_eq_bind, Option.bind_some, hread]
  dsimp only
  rw [if_pos halive', e₂, Option.bind_eq_bind, Option.bind_some, e₃, Option.bind_some,
    e₄]

/-- The new `user_c`, with the messages object that was there or none: the old `user_c` is
lost. -/
theorem newUser_spec (h : Sound s 0) {userC msg msg' : Option ℕ}
    (hsip : read s.heap 0 = some (.tcsip userC msg)) (hsub : ∀ t ∈ msg', t ∈ msg)
    (hheld : held + (msg'.toList : Multiset ℕ) = (msg.toList : Multiset ℕ)) :
    ∃ h', write (alloc s.heap .plain) 0 (.tcsip (some s.heap.length) msg') = some h' ∧
      Sound { s with heap := h', lost := s.lost ++ userC.toList } held ∧
      read h' 0 = some (.tcsip (some s.heap.length) msg') ∧
      (0 ∈ s.lost ++ userC.toList ↔ 0 ∈ s.lost) := by
  obtain ⟨h₁, k₁⟩ := h.allocPlain
  have hsip₁ := k₁.same 0 _ (Set.notMem_empty 0) hsip
  have hfields := h₁.fields 0 _ hsip₁
  have huser : kindOf (alloc s.heap .plain) s.heap.length = some .plain := by
    rw [kindOf_alloc, if_pos rfl]
    rfl
  have hplain : ∀ x ∈ userC.toList, kindOf s.heap x = some .plain := fun x hx =>
    (h.fields 0 _ hsip).1 x (Option.mem_toList.mp hx)
  let w : MemObject := .tcsip (some s.heap.length) msg'
  have hkind : w.kind = (MemObject.tcsip userC msg).kind := rfl
  have hw : w.Fields (kindOf (alloc s.heap .plain)) := by
    refine ⟨fun y hy => ?_, fun y hy => hfields.2 y (hsub y hy)⟩
    obtain rfl : s.heap.length = y := by simpa using hy
    exact huser
  have hmove : ((userC.toList : Multiset ℕ) + held) + (w.drops : Multiset ℕ) =
      (s.heap.length ::ₘ 0) + ((MemObject.tcsip userC msg).drops : Multiset ℕ) := by
    simp only [w, MemObject.drops, ← Multiset.coe_add, ← hheld, Option.toList_some,
      Multiset.coe_singleton, ← Multiset.singleton_add]
    abel
  obtain ⟨h', hwrite, h₂, k₂, hread, -⟩ := h₁.write hsip₁ hkind hw
    (fun _ _ _ _ _ heq => absurd heq nofun) hmove
  refine ⟨h', hwrite, h₂.lose fun x hx => Or.inl ?_, hread, h.zero_mem_append hplain⟩
  exact k₂.kinds x _ (k₁.kinds x _ (hplain x hx))

/-- **A login** exchanges the messages object, and from then on the `tcsip` is held by nobody
who would give it back. -/
theorem tcsipLocal_spec (h : Sound s 0) (howner : s.owner = true) (ok : Bool) :
    ∃ s', tcsipLocal s ok = some s' ∧ Sound s' 0 ∧ s'.owner = s.owner ∧
      (0 ∈ s'.lost ↔ 0 ∈ s.lost ∨ ok = true) := by
  obtain ⟨userC, msg, hsip⟩ := h.read_tcsip howner
  unfold tcsipLocal
  rw [hsip]
  cases ok with
  | false =>
    obtain ⟨h₁, e₁, hs₁, -, l₁⟩ := newUser_spec h hsip (fun _ => id) (zero_add _)
    refine ⟨{ s with heap := h₁, lost := s.lost ++ userC.toList }, ?_, hs₁, rfl, ?_⟩
    · show (write (alloc s.heap .plain) 0 _).bind _ = _
      rw [e₁]
      rfl
    · simpa using l₁
  | true =>
    obtain ⟨h₁, e₁, hs₁, hsip₁, l₁⟩ := newUser_spec h hsip
      (fun t ht => absurd ht (Option.not_mem_none t)) (add_zero _)
    obtain ⟨s₂, e₂, h₂, o₂, l₂, r₂⟩ := derefAll_spec (hs₁.congr_held (add_zero _).symm)
    obtain ⟨userC', msg', hsip₂⟩ := h₂.read_tcsip (o₂.trans howner)
    rw [Option.some.inj ((r₂ 0 _ hsip₂).symm.trans hsip₁)] at hsip₂
    obtain ⟨v, hv⟩ := Option.isSome_iff_exists.mp
      (h₂.isSome_of_drops hsip₂ s.heap.length List.mem_cons_self)
    obtain ⟨s₃, e₃, h₃, k₃, -, l₃⟩ := h₂.retain hv
    have hsip₃ := k₃.same 0 _ (Set.notMem_empty 0) hsip₂
    obtain ⟨s₄, e₄, h₄, k₄, -, l₄⟩ := h₃.retain hsip₃
    have hsip₄ := k₄.same 0 _ (Set.notMem_empty 0) hsip₃
    have hfields := h₄.fields 0 _ hsip₄
    -- the reference of `arg` is lost, and the one to the user goes to the messages object
    let w : MemObject := .tcmessages s.heap.length 0
    let s₅ : Objects := { s₄ with lost := s₄.lost ++ [0] }
    have h₅ : Sound s₅ ((w.drops : Multiset ℕ) + 0) :=
      h₄.lose fun x hx => Or.inr (List.mem_singleton.mp hx)
    have hw : w.Fields (kindOf s₅.heap) := ⟨hfields.1 _ rfl, rfl⟩
    have hzero : 0 ∈ s₅.lost := List.mem_append_right _ List.mem_cons_self
    obtain ⟨h₆, k₆⟩ := h₅.alloc hw nofun fun _ => hzero
    have hsip₆ := k₆.same 0 _ (Set.notMem_empty 0) hsip₄
    let w' : MemObject := .tcsip (some s.heap.length) (some s₄.heap.length)
    have hw' : w'.Fields (kindOf (alloc s₄.heap w)) := by
      refine ⟨fun y hy => k₆.kinds y _ (hfields.1 y hy), fun y hy => ?_⟩
      obtain rfl : s₄.heap.length = y := by simpa using hy
      rw [kindOf_alloc, if_pos rfl]
      rfl
    have hmove : 0 + (w'.drops : Multiset ℕ) = (s₄.heap.length ::ₘ 0) +
        ((MemObject.tcsip (some s.heap.length) none).drops : Multiset ℕ) := by
      simp only [w', MemObject.drops, ← Multiset.coe_add, Option.toList_some, Option.toList_none,
        Multiset.coe_singleton, ← Multiset.singleton_add, Multiset.coe_nil]
      abel
    have hkind : w'.kind = (MemObject.tcsip (some s.heap.length) none).kind := rfl
    obtain ⟨h', e₇, h₇, -, -, -⟩ := h₆.write hsip₆ hkind hw'
      (fun _ _ _ _ _ heq => absurd heq nofun) hmove
    refine ⟨_, ?_, h₇, ?_, ?_⟩
    · show (write (alloc s.heap .plain) 0 _).bind _ = _
      rw [e₁, Option.bind_some]
      show (msg.toList.foldlM derefObject
        { s with heap := h₁, lost := s.lost ++ userC.toList }).bind _ = _
      rw [e₂, Option.bind_some, e₃, Option.bind_eq_bind, Option.bind_some, e₄,
        Option.bind_eq_bind, Option.bind_some]
      show (write (alloc s₅.heap w) 0 w').bind _ = _
      rw [e₇]
      rfl
    · exact (k₄.owner.trans k₃.owner).trans o₂
    · exact iff_of_true (List.mem_append_right _ List.mem_cons_self) (Or.inr rfl)

theorem tcsipClose_spec (h : Sound s 0) (howner : s.owner = true) :
    ∃ s', tcsipClose s = some s' ∧ Sound s' 0 ∧ s'.owner = false ∧ s'.lost = s.lost := by
  have h₁ : Sound { s with owner := false } (0 ::ₘ 0) := by
    refine ⟨?_, h.fields, h.first, h.sent, h.lost, h.arg⟩
    have hout : outside { s with owner := false } + (0 ::ₘ 0) = outside s + 0 := by
      unfold outside
      rw [howner, if_pos rfl, if_neg Bool.false_ne_true, ← Multiset.singleton_add]
      ac_rfl
    rw [hout]
    exact h.balanced
  obtain ⟨s', e', h', o', l', -⟩ := h₁.deref
  exact ⟨s', e', h', o', l'⟩

/-! ## What is alive -/

/-- Who holds an object: somebody outside, or an object that is alive. -/
theorem Sound.isSome_read_iff {x : ℕ} (h : Sound s 0) :
    (read s.heap x).isSome ↔ (x = 0 ∧ s.owner = true) ∨ x ∈ s.requests ++ s.refused ∨
      x ∈ s.lost ∨ ∃ y v, read s.heap y = some v ∧ x ∈ v.drops := by
  rw [h.balanced.isSome_read_iff]
  unfold outside
  cases s.owner <;> simp [or_assoc]

theorem Sound.kindOf_drops (h : Sound s 0) {x y : ℕ} {v : MemObject}
    (hy : read s.heap y = some v) (hx : x ∈ v.drops) :
    kindOf s.heap x = some .plain ∨ kindOf s.heap x = some .tcmessages := by
  have hfields := h.fields y v hy
  cases v with
  | tcsip userC msg =>
    rcases List.mem_append.mp hx with hx | hx
    · exact Or.inl (hfields.1 x (Option.mem_toList.mp hx))
    · exact Or.inr (hfields.2 x (Option.mem_toList.mp hx))
  | tcmessages user arg =>
    rw [List.mem_singleton.mp hx]
    exact Or.inl hfields.1
  | msgSingle user data login idx ctx =>
    simp only [MemObject.drops, ← List.cons_append] at hx
    rcases List.mem_append.mp hx with hx | hx
    · exact Or.inl (hfields.1 x hx)
    · exact Or.inr (hfields.2 x (Option.mem_toList.mp hx))
  | plain => exact absurd hx List.not_mem_nil

theorem Sound.kindOf_handler (h : Sound s 0) {m : ℕ} (hm : m ∈ s.requests ++ s.refused) :
    kindOf s.heap m = some .msgSingle := by
  obtain ⟨_, _, _, _, _, hread⟩ := h.sent m hm
  exact kindOf_of_read hread

/-- The messages are held by their handlers only. -/
theorem Sound.msgSingle_alive_iff (h : Sound s 0) {m : ℕ}
    (hm : kindOf s.heap m = some .msgSingle) :
    (read s.heap m).isSome ↔ m ∈ s.requests ++ s.refused := by
  have hne : m ≠ 0 := by
    rintro rfl
    rw [(h.first 0).mpr rfl] at hm
    exact absurd hm nofun
  rw [h.isSome_read_iff]
  constructor
  · rintro (⟨rfl, -⟩ | hm' | hlost | ⟨y, v, hy, hdrop⟩)
    · exact absurd rfl hne
    · exact hm'
    · rcases h.lost m hlost with hplain | rfl
      · rw [hm] at hplain
        exact absurd hplain nofun
      · exact absurd rfl hne
    · rcases h.kindOf_drops hy hdrop with hkind | hkind <;> rw [hm] at hkind <;>
        exact absurd hkind nofun
  · exact fun hm' => Or.inr (Or.inl hm')

/-- The messages object `t` is the one of the `tcsip`, or that of a message whose handler may
still be called or was never taken. -/
def InUse (s : Objects) (t : ℕ) : Prop :=
  (∃ userC, read s.heap 0 = some (.tcsip userC (some t))) ∨
    ∃ m ∈ s.requests ++ s.refused,
      ∃ user data login idx, read s.heap m = some (.msgSingle user data login idx (some t))

theorem Sound.tcmessages_alive_iff (h : Sound s 0) {t : ℕ}
    (ht : kindOf s.heap t = some .tcmessages) : (read s.heap t).isSome ↔ InUse s t := by
  have hne : t ≠ 0 := by
    rintro rfl
    rw [(h.first 0).mpr rfl] at ht
    exact absurd ht nofun
  rw [h.isSome_read_iff]
  constructor
  · rintro (⟨rfl, -⟩ | hm | hlost | ⟨y, v, hy, hdrop⟩)
    · exact absurd rfl hne
    · rw [h.kindOf_handler hm] at ht
      exact absurd ht nofun
    · rcases h.lost t hlost with hplain | rfl
      · rw [ht] at hplain
        exact absurd hplain nofun
      · exact absurd rfl hne
    · -- only the field of its kind can be the one that holds it
      have hplain : kindOf s.heap t ≠ some .plain := by
        rw [ht]
        nofun
      have hfields := h.fields y v hy
      cases v with
      | tcsip userC msg =>
        obtain rfl : y = 0 := (h.first y).mp (kindOf_of_read hy)
        rcases List.mem_append.mp hdrop with hdrop | hdrop
        · exact absurd (hfields.1 t (Option.mem_toList.mp hdrop)) hplain
        · rw [Option.mem_toList] at hdrop
          exact Or.inl ⟨userC, hdrop ▸ hy⟩
      | tcmessages user arg =>
        rw [List.mem_singleton.mp hdrop] at hplain
        exact absurd hfields.1 hplain
      | msgSingle user data login idx ctx =>
        simp only [MemObject.drops, ← List.cons_append] at hdrop
        rcases List.mem_append.mp hdrop with hdrop | hdrop
        · exact absurd (hfields.1 t hdrop) hplain
        · rw [Option.mem_toList] at hdrop
          have hm := (h.msgSingle_alive_iff (kindOf_of_read hy)).mp (hy ▸ rfl)
          exact Or.inr ⟨y, hm, user, data, login, idx, hdrop ▸ hy⟩
      | plain => exact absurd hdrop List.not_mem_nil
  · rintro (⟨userC, hsip⟩ | ⟨m, -, user, data, login, idx, hm⟩)
    · exact Or.inr (Or.inr (Or.inr ⟨0, _, hsip, by simp [MemObject.drops]⟩))
    · exact Or.inr (Or.inr (Or.inr ⟨m, _, hm, by simp [MemObject.drops]⟩))

/-- The `tcsip` is held by its owner, or was lost. -/
theorem Sound.tcsip_alive_iff (h : Sound s 0) :
    (read s.heap 0).isSome ↔ s.owner = true ∨ 0 ∈ s.lost := by
  have hzero := (h.first 0).mpr rfl
  rw [h.isSome_read_iff]
  constructor
  · rintro (⟨-, howner⟩ | hm | hlost | ⟨y, v, hy, hdrop⟩)
    · exact Or.inl howner
    · rw [h.kindOf_handler hm] at hzero
      exact absurd hzero nofun
    · exact Or.inr hlost
    · rcases h.kindOf_drops hy hdrop with hkind | hkind <;> rw [hzero] at hkind <;>
        exact absurd hkind nofun
  · rintro (howner | hlost)
    · exact Or.inl ⟨rfl, howner⟩
    · exact Or.inr (Or.inr (Or.inl hlost))

end events

/-! ## Every run -/

/-- What is alive after the events `es`. -/
structure Lifetimes (es : List LifeEvent) (s : Objects) : Prop where
  msgSingle : ∀ m, kindOf s.heap m = some .msgSingle →
    ((read s.heap m).isSome ↔ m ∈ s.requests ++ s.refused)
  tcmessages : ∀ t, kindOf s.heap t = some .tcmessages → ((read s.heap t).isSome ↔ InUse s t)
  tcsip : (read s.heap 0).isSome ↔ .close ∉ es ∨ .login true ∈ es
  lost : ∀ x ∈ s.lost, (read s.heap x).isSome

/-- The invariant of a run: the state is sound, and tells whether the owner has closed the
`tcsip` and whether a user has logged in. -/
structure Tracks (past : List LifeEvent) (s : Objects) : Prop where
  sound : Sound s 0
  owner : s.owner = true ↔ .close ∉ past
  login : 0 ∈ s.lost ↔ .login true ∈ past

theorem Tracks.lifetimes {past : List LifeEvent} {s : Objects} (h : Tracks past s) :
    Lifetimes past s where
  msgSingle _ hm := h.sound.msgSingle_alive_iff hm
  tcmessages _ ht := h.sound.tcmessages_alive_iff ht
  tcsip := by rw [h.sound.tcsip_alive_iff, h.owner, h.login]
  lost _ hx := h.sound.isSome_read_iff.mpr (Or.inr (Or.inr (Or.inl hx)))

theorem tracks_tcsipAlloc : Tracks [] tcsipAlloc := by
  have hread : ∀ x v, read tcsipAlloc.heap x = some v → v = .tcsip none none := by
    intro x v hx
    cases x with
    | zero => exact (Option.some.inj hx).symm
    | succ x => simp [RefCount.read, tcsipAlloc] at hx
  have hkind : ∀ x, kindOf tcsipAlloc.heap x = if x = 0 then some .tcsip else none := by
    intro x
    cases x with
    | zero => rfl
    | succ x => simp [kindOf, tcsipAlloc]
  refine ⟨⟨fun x => ?_, ?_, ?_, ?_, ?_, ?_⟩, by simp [tcsipAlloc], by simp [tcsipAlloc]⟩
  · cases x with
    | zero => rfl
    | succ x => simp [refs, tcsipAlloc, outside, owned, own, MemObject.drops]
  · intro x v hx
    rw [hread x v hx]
    simp [MemObject.Fields]
  · intro x
    rw [hkind]
    by_cases hx : x = 0 <;> simp [hx]
  · simp [tcsipAlloc]
  · simp [tcsipAlloc]
  · intro t ht
    rw [hkind] at ht
    by_cases hzero : t = 0 <;> simp [hzero] at ht

/-- **One event** that is allowed uses nothing that was freed. -/
theorem Tracks.step {past : List LifeEvent} {s : Objects} (h : Tracks past s) (e : LifeEvent)
    (he : Allowed s e) : ∃ s', lifeStep s e = some s' ∧ Tracks (past ++ [e]) s' := by
  -- but for a login and the end, an event leaves the owner and the `tcsip` to themselves
  have hother : ∀ s', .close ≠ e → .login true ≠ e → Sound s' 0 → s'.owner = s.owner →
      (0 ∈ s'.lost ↔ 0 ∈ s.lost) → Tracks (past ++ [e]) s' := by
    intro s' hclose hlogin hsound howner hlost
    refine ⟨hsound, ?_, ?_⟩
    · rw [howner, h.owner, List.mem_append, List.mem_singleton, or_iff_left hclose]
    · rw [hlost, h.login, List.mem_append, List.mem_singleton, or_iff_left hlogin]
  cases e with
  | login ok =>
    obtain ⟨s', e', h', o', l'⟩ := tcsipLocal_spec h.sound he ok
    have hclose : ¬ LifeEvent.close = .login ok := nofun
    refine ⟨s', e', h', ?_, ?_⟩
    · rw [o', h.owner, List.mem_append, List.mem_singleton, or_iff_left hclose]
    · rw [l', h.login, List.mem_append, List.mem_singleton, LifeEvent.login.injEq, eq_comm]
  | message taken =>
    obtain ⟨s', e', h', o', l'⟩ := sendMessage_spec h.sound he taken
    exact ⟨s', e', hother s' nofun nofun h' o' l'⟩
  | flush ps =>
    obtain ⟨s', e', h', o', l'⟩ := flushMessages_spec h.sound he ps
    exact ⟨s', e', hother s' nofun nofun h' o' l'⟩
  | response i ok flush =>
    obtain ⟨s', e', h', o', l'⟩ := messageResponse_spec h.sound he ok flush
    exact ⟨s', e', hother s' nofun nofun h' o' l'⟩
  | close =>
    obtain ⟨s', e', h', o', l'⟩ := tcsipClose_spec h.sound he
    refine ⟨s', e', h', ?_, ?_⟩
    · simp [o']
    · rw [l', h.login, List.mem_append, List.mem_singleton, or_iff_left nofun]

/-- **Whatever happens**, nothing is used and nothing is freed after it was freed, and each
object lives as long as it is needed.  Only messages that the stack did not take, the `tcsip`
once a user has logged in, and what is lost live on. -/
theorem lifetimes_of_run {es : List LifeEvent}
    (hmeet : StepsMeet lifeStep Allowed tcsipAlloc es) :
    ∃ s, run lifeStep tcsipAlloc es = some s ∧ Lifetimes es s := by
  obtain ⟨s, hrun, htracks⟩ := run_progress_past lifeStep (I := Tracks) es
    (fun past e rest s _ h he => h.step e he) es [] tcsipAlloc rfl tracks_tcsipAlloc hmeet
  exact ⟨s, hrun, htracks.lifetimes⟩

/-- A message is sent, two more are read from the store, of which the stack takes one, and the
user logs in again before the responses come. -/
def relogin : List LifeEvent :=
  [.login true, .message true, .flush [⟨true, true, true, true⟩, ⟨true, true, true, false⟩],
    .login true, .response 0 true none, .response 0 true (some []), .message false, .close]

theorem lifetimes_of_relogin :
    ∃ s, run lifeStep tcsipAlloc relogin = some s ∧ Lifetimes relogin s :=
  lifetimes_of_run (by decide +kernel)

end MessageLifetimes
