/-
# Cutting the contact list into bundles

`http_ct_done` goes through the sorted list with two headers on its stack.  A round cuts
the list behind `head` before its thirtieth element, which becomes the first one behind
`tail`, hands the front to the handler and to `store_contacts`, frees it, and goes on with
what is behind `tail`.  The elements keep pointing to the header they were appended to, the
one on the heap, so it is that header whose last element `do_slice` hands on.  After the
first round it is an element that was freed: it is copied, but nothing reads it.

The loop of `Tcsip.Contacts` works on plain lists.  Here it runs on linked elements, and the
last section shows that it cuts the same bundles.
-/
import Tcsip.ContactsPaging
import Tcsip.LinkedList

open Chunks LinkedList

namespace Bundles

variable {α : Type}

/-! ## The loop on linked elements -/

/-- Where `ctlist` points to. -/
def ctlistAt : ℕ := 0

/-- The address of `head`. -/
def headAt : ℕ := 1

/-- The address of `tail`. -/
def tailAt : ℕ := 2

/-- `do_slice` once the limit is used up: `le` becomes the first element of the list `new`. -/
def cutBefore (new : ℕ) (m : Mem α) (le : ℕ) : Option (Mem α) := do
  let c ← m.le le
  let orig := c.list
  let m := m.setList new { m.list new with tail := (m.list orig).tail }
  let m := m.setList orig { m.list orig with tail := c.prev }
  let m := m.setList new { m.list new with head := some le }
  let prev ← c.prev
  let m ← m.setNext prev none
  m.setPrev le none

/-- `do_slice`. -/
def doSlice (new : ℕ) (m : Mem α) (le : ℕ) (limit : ℕ) : Option (Mem α × ℕ × Bool) :=
  let limit := limit - 1
  if 0 < limit then some (m, limit, false)
  else (cutBefore new m le).map fun m => (m, limit, true)

/-- `list_slice`, in at most `n` steps. -/
def listSlice (n orig rp limit : ℕ) (m : Mem α) : Option (Mem α × Bool) :=
  let head := (m.list orig).head
  let m := m.setList rp ⟨none, none⟩
  (walk (doSlice rp) n m (m.list orig).head limit).map fun p => (p.1, head.isSome)

/-- The loop of `http_ct_done`, at most `n` rounds: the lists that are handed to the handler,
and those that are passed to `store_contacts`.  `ch` tells whether a handler is installed. -/
def sliceLoop (ch : Bool) : ℕ → Bool → Mem α → Option (List (List α) × List (List α))
  | 0, _, _ => none
  | n + 1, cb, m => do
    let (m, more) ← listSlice n headAt tailAt bundleSize m
    if more then
      let bulk ← elements n m (m.list headAt).head
      let tell := cb && ch
      let m ← flush n m headAt
      let m := m.setList headAt (m.list tailAt)
      let (told, stored) ← sliceLoop ch n (cb && !tell) m
      some ((if tell then [bulk] else []) ++ told, bulk :: stored)
    else some ([], [])

/-- What `http_ct_done` does with the sorted list at `ctlist`. -/
def bundle (ch : Bool) (n : ℕ) (m : Mem α) : Option (List (List α) × List (List α)) :=
  sliceLoop ch n true (m.setList headAt (m.list ctlistAt))

/-! ## A cut -/

section cut

variable (new : ℕ) {m : Mem α} {l : ℕ} {prev p : Option ℕ} {as us vs : List (ℕ × α)}

/-- With a limit that is not used up the list is left as it is. -/
theorem walk_short {n k : ℕ} (hn : as.length ≤ n) (hk : as.length < k)
    (h : Chain m l prev p as) :
    walk (doSlice new) n m p k = some (m, k - as.length) := by
  induction as generalizing n k prev p with
  | nil =>
      obtain rfl : p = none := h
      cases n <;> rfl
  | cons ax as ih =>
      obtain ⟨a, x⟩ := ax
      obtain ⟨rfl, next, ha, has⟩ := h
      obtain ⟨n, rfl⟩ := Nat.exists_eq_succ_of_ne_zero (Nat.ne_zero_of_lt hn)
      rw [List.length_cons] at hn hk
      have hlimit : 0 < k - 1 := by omega
      rw [walk, ha, Option.bind_eq_bind, Option.bind_some, doSlice, if_pos hlimit]
      show walk (doSlice new) n m next (k - 1) = _
      rw [ih (by omega) (by omega) has, List.length_cons]
      congr 2
      omega

/-- The walk comes to the element at which the limit is used up, and cuts there. -/
theorem walk_cut {n b : ℕ} {y : α} (hn : us.length < n)
    (h : Chain m l prev p (us ++ (b, y) :: vs)) :
    walk (doSlice new) n m p (us.length + 1) = (cutBefore new m b).map fun m => (m, 0) := by
  induction us generalizing n prev p with
  | nil =>
      obtain ⟨rfl, next, hb, -⟩ := h
      obtain ⟨n, rfl⟩ := Nat.exists_eq_succ_of_ne_zero (Nat.ne_zero_of_lt hn)
      rw [walk, hb, Option.bind_eq_bind, Option.bind_some, doSlice, if_neg (by simp)]
      cases cutBefore new m b <;> rfl
  | cons ax us ih =>
      obtain ⟨a, x⟩ := ax
      obtain ⟨rfl, next, ha, hrest⟩ := h
      obtain ⟨n, rfl⟩ := Nat.exists_eq_succ_of_ne_zero (Nat.ne_zero_of_lt hn)
      rw [walk, ha, Option.bind_eq_bind, Option.bind_some, doSlice, if_pos (by simp)]
      exact ih (Nat.lt_of_succ_lt_succ hn) hrest

/-- **A cut** makes two lists of one.  The element before the cut becomes the last one of the
list `l`, whose last element `new` takes over. -/
theorem cutBefore_chain {a b : ℕ} {x y : α} (hl : l ≠ new)
    (h : Chain m l prev p (us ++ (a, x) :: (b, y) :: vs))
    (hnd : ((us ++ (a, x) :: (b, y) :: vs).map Prod.fst).Nodup) :
    ∃ m', cutBefore new m b = some m' ∧
      m'.list l = ⟨(m.list l).head, some a⟩ ∧ m'.list new = ⟨some b, (m.list l).tail⟩ ∧
      (∀ k, k ≠ l → k ≠ new → m'.list k = m.list k) ∧
      Chain m' l prev p (us ++ [(a, x)]) ∧ Chain m' l none (some b) ((b, y) :: vs) := by
  obtain ⟨before, after, ha, hb⟩ := h.neighbours
  have hab : b ≠ a := by
    rw [List.map_append, List.nodup_append] at hnd
    intro heq
    exact (List.nodup_cons.mp hnd.2.1).1 (by simp [heq])
  have hcut : ∃ m', cutBefore new m b = some m' ∧
      m'.list l = ⟨(m.list l).head, some a⟩ ∧ m'.list new = ⟨some b, (m.list l).tail⟩ ∧
      (∀ k, k ≠ l → k ≠ new → m'.list k = m.list k) ∧
      m'.le = ((m.setLe a ⟨before, none, l, x⟩).setLe b ⟨none, after, l, y⟩).le := by
    unfold cutBefore Mem.setNext Mem.setPrev
    simp only [hb, ha, Option.bind_eq_bind, Option.bind_some, Mem.setList_le, Option.map_some,
      Mem.setLe_of_ne _ hab, Option.some.injEq, exists_eq_left', Mem.setLe_list]
    refine ⟨?_, ?_, fun k hkl hknew => ?_, rfl⟩
    · rw [Mem.setList_of_ne _ hl, Mem.setList_self, Mem.setList_of_ne _ hl]
    · rw [Mem.setList_self, Mem.setList_of_ne _ hl.symm, Mem.setList_self]
    · rw [Mem.setList_of_ne _ hknew, Mem.setList_of_ne _ hkl, Mem.setList_of_ne _ hknew]
  obtain ⟨m', hm', hown, hnew, hlist, hle⟩ := hcut
  refine ⟨m', hm', hown, hnew, hlist, h.cut hnd ha ?_ hb ?_ fun c hca hcb => ?_⟩
  · rw [hle, Mem.setLe_of_ne _ hab.symm, Mem.setLe_self]
  · rw [hle, Mem.setLe_self]
  · rw [hle, Mem.setLe_of_ne _ hcb, Mem.setLe_of_ne _ hca]

/-- Before the first element of a list there is nothing to cut off. -/
theorem cutBefore_first {b : ℕ} {y : α} (h : Chain m l none p ((b, y) :: vs)) :
    cutBefore new m b = none := by
  obtain ⟨-, next, hb, -⟩ := h
  unfold cutBefore
  rw [hb]
  rfl

/-- In a list that is longer than `k` two elements stand next to each other at the cut. -/
theorem exists_neighbours {β : Type} {k : ℕ} {as : List β} (hk : 0 < k) (hlen : k < as.length) :
    ∃ us vs a b, as = us ++ a :: b :: vs ∧ us.length + 1 = k := by
  refine ⟨as.take (k - 1), as.drop (k + 1), as[k - 1], as[k], ?_, ?_⟩
  · have hfirst := List.drop_eq_getElem_cons (l := as) (i := k - 1) (by omega)
    have hsecond := List.drop_eq_getElem_cons (l := as) (i := k) hlen
    have hsucc : k - 1 + 1 = k := by omega
    rw [hsucc, hsecond] at hfirst
    rw [← hfirst, List.take_append_drop]
  · rw [List.length_take]
    omega

variable {new}

/-- The walk of `list_slice` sees the list as it was: only the header of the other list is
written before it. -/
theorem chain_init {orig : ℕ} (hne : orig ≠ new) (h : Chain m l none (m.list orig).head as) :
    Chain (m.setList new ⟨none, none⟩) l none
      ((m.setList new ⟨none, none⟩).list orig).head as := by
  rw [Mem.setList_of_ne _ hne]
  exact h.congr fun _ _ => rfl

/-- A list with fewer elements than the limit is not cut. -/
theorem listSlice_of_lt {n orig limit : ℕ} (hne : orig ≠ new) (hn : as.length ≤ n)
    (hlimit : as.length < limit) (h : Chain m l none (m.list orig).head as) :
    listSlice n orig new limit m = some (m.setList new ⟨none, none⟩, decide (as ≠ [])) := by
  have hsome : (m.list orig).head.isSome = decide (as ≠ []) := by
    rw [h.head_eq]
    cases as <;> rfl
  unfold listSlice
  dsimp only
  rw [walk_short new hn hlimit (chain_init hne h), hsome]
  rfl

/-- Any other list is cut before the element at which the limit is used up. -/
theorem listSlice_of_split {n orig b : ℕ} {y : α} (hne : orig ≠ new) (hn : us.length < n)
    (h : Chain m l none (m.list orig).head (us ++ (b, y) :: vs)) :
    listSlice n orig new (us.length + 1) m
      = (cutBefore new (m.setList new ⟨none, none⟩) b).map fun m => (m, true) := by
  have hsome : (m.list orig).head.isSome = true := by
    rw [h.head_eq]
    cases us <;> rfl
  unfold listSlice
  dsimp only
  rw [walk_cut new hn (chain_init hne h), hsome, Option.map_map]
  rfl

/-- **Where `list_slice` cuts**: with the limit `us.length + 2` before the element `b`, the
second one behind `us`.  The header that was cut keeps its last element. -/
theorem listSlice_cut {n orig a b : ℕ} {x y : α} (hor : orig ≠ l) (hnew : l ≠ new)
    (hne : orig ≠ new) (hn : us.length + 1 < n)
    (h : Chain m l none (m.list orig).head (us ++ (a, x) :: (b, y) :: vs))
    (hnd : ((us ++ (a, x) :: (b, y) :: vs).map Prod.fst).Nodup) :
    ∃ m', listSlice n orig new (us.length + 2) m = some (m', true) ∧
      m'.list orig = m.list orig ∧ m'.list l = ⟨(m.list l).head, some a⟩ ∧
      m'.list new = ⟨some b, (m.list l).tail⟩ ∧
      Chain m' l none (m'.list orig).head (us ++ [(a, x)]) ∧
      Chain m' l none (m'.list new).head ((b, y) :: vs) := by
  have hsplit : us ++ (a, x) :: (b, y) :: vs = (us ++ [(a, x)]) ++ (b, y) :: vs := by simp
  have hlen : (us ++ [(a, x)]).length = us.length + 1 := List.length_append
  have hwalk := listSlice_of_split hne (hlen.symm ▸ hn) (hsplit ▸ h)
  rw [hlen] at hwalk
  obtain ⟨m', hcut, hl, htail, hlist, hfront, hback⟩ :=
    cutBefore_chain new hnew (chain_init hne h) hnd
  rw [Mem.setList_of_ne _ hnew] at hl htail
  have horig : m'.list orig = m.list orig := by
    rw [hlist orig hor hne, Mem.setList_of_ne _ hne]
  refine ⟨m', by rw [hwalk, hcut, Option.map_some], horig, hl, htail, ?_, ?_⟩
  · rw [hlist orig hor hne]
    exact hfront
  · rw [htail]
    exact hback

/-- **`list_slice`** leaves the first `k` elements behind `orig` and puts the others behind
`rp`, and tells whether there was any element. -/
theorem listSlice_spec {n k : ℕ} (hk : 0 < k) (hn : as.length ≤ n)
    (h : Chain m ctlistAt none (m.list headAt).head as) (hnd : (as.map Prod.fst).Nodup) :
    ∃ m', listSlice n headAt tailAt (k + 1) m = some (m', decide (as ≠ [])) ∧
      Chain m' ctlistAt none (m'.list headAt).head (as.take k) ∧
      Chain m' ctlistAt none (m'.list tailAt).head (as.drop k) := by
  have hne : headAt ≠ tailAt := by decide
  by_cases hlen : as.length ≤ k
  · rw [List.take_of_length_le hlen, List.drop_eq_nil_of_le hlen]
    refine ⟨_, listSlice_of_lt hne hn (Nat.lt_succ_of_le hlen) h, chain_init hne h, ?_⟩
    rw [Mem.setList_self]
    rfl
  · -- the element before the cut, and the one behind it
    obtain ⟨us, vs, ⟨a, x⟩, ⟨b, y⟩, rfl, rfl⟩ := exists_neighbours hk (Nat.lt_of_not_le hlen)
    have hsplit : us ++ (a, x) :: (b, y) :: vs = (us ++ [(a, x)]) ++ (b, y) :: vs := by simp
    have hlen' : (us ++ [(a, x)]).length = us.length + 1 := List.length_append
    have hshort : us.length + 1 < n := by
      simp only [List.length_append, List.length_cons] at hn
      omega
    obtain ⟨m', hslice, -, -, -, hfront, hback⟩ :=
      listSlice_cut (by decide) (by decide) hne hshort h hnd
    refine ⟨m', by rw [hslice]; simp, ?_, ?_⟩
    · rw [hsplit, List.take_left' hlen']
      exact hfront
    · rw [hsplit, List.drop_left' hlen']
      exact hback

end cut

/-! ## The bundles -/

/-- **The loop hands on the bundles one by one**, each of them to `store_contacts` and the
first one to the handler. -/
theorem sliceLoop_spec (ch : Bool) {n : ℕ} {cb : Bool} {m : Mem α} {as : List (ℕ × α)}
    (hn : as.length ≤ n) (h : Chain m ctlistAt none (m.list headAt).head as)
    (hnd : (as.map Prod.fst).Nodup) :
    sliceLoop ch (n + 1) cb m
      = some (if cb && ch then ((chunks 29 n (as.map Prod.snd)).head?).toList else [],
          chunks 29 n (as.map Prod.snd)) := by
  induction n generalizing cb m as with
  | zero =>
      obtain rfl := List.length_eq_zero_iff.mp (Nat.le_zero.mp hn)
      obtain ⟨m', hslice, -, -⟩ := listSlice_spec (k := 29) (by norm_num) hn h hnd
      rw [sliceLoop, show bundleSize = 29 + 1 from rfl, hslice]
      show some ([], []) = _
      simp [chunks]
  | succ n ih =>
      obtain ⟨m', hslice, hfront, hback⟩ := listSlice_spec (k := 29) (by norm_num) hn h hnd
      rw [sliceLoop, show bundleSize = 29 + 1 from rfl, hslice]
      cases as with
      | nil =>
          show some ([], []) = _
          simp [chunks]
      | cons a as =>
          have htake : ((a :: as).take 29).length ≤ n + 1 :=
            le_trans (List.length_take_le' 29 _) hn
          have hsplit : (((a :: as).take 29).map Prod.fst ++
              ((a :: as).drop 29).map Prod.fst).Nodup := by
            rw [← List.map_append, List.take_append_drop]
            exact hnd
          obtain ⟨hndfront, hndback, hdisj⟩ := List.nodup_append.mp hsplit
          -- the front is freed, and `head` moves on to the rest
          obtain ⟨freed, hflush, hlist, hle⟩ := flush_of_chain htake hndfront hfront
          have hrest : Chain (freed.setList headAt (freed.list tailAt)) ctlistAt none
              ((freed.setList headAt (freed.list tailAt)).list headAt).head
              ((a :: as).drop 29) := by
            rw [Mem.setList_self, hlist tailAt (by decide)]
            exact hback.congr fun b hb => hle b fun hmem => hdisj b hmem b hb rfl
          have hlen : ((a :: as).drop 29).length ≤ n := length_drop_le (by norm_num) hn
          rw [Option.bind_eq_bind, Option.bind_some]
          dsimp only
          rw [if_pos (by simp), elements_of_chain htake hfront, hflush]
          simp only [Option.bind_eq_bind, Option.bind_some, ih hlen hrest hndback]
          cases cb <;> cases ch <;> simp [chunks, List.map_take, List.map_drop]

/-! ## The bundles of the contacts -/

/-- `store_contacts` for one bundle after the other, numbered from `k` on. -/
def storeBundles (times : ℕ → Timeval) : ℕ → List (List ContactEl) → Contacts → Option Contacts
  | _, [], ct => some ct
  | k, b :: bs, ct =>
    (storeContacts ct (storeKey ct.store (times k)) b).bind fun ct =>
      storeBundles times (k + 1) bs ct

/-- `store_contacts` does not touch the handler. -/
theorem storeContacts_ch {ct ct' : Contacts} {key : Text} {b : List ContactEl}
    (h : storeContacts ct key b = some ct') : ct'.ch = ct.ch := by
  cases b with
  | nil =>
      obtain rfl := Option.some.inj h
      rfl
  | cons ctel b =>
      obtain ⟨blob, -, h⟩ := Option.bind_eq_some_iff.mp h
      obtain ⟨idx, -, h⟩ := Option.bind_eq_some_iff.mp h
      obtain rfl := Option.some.inj h
      rfl

/-- A turn that stores a bundle tells what it has told before, if the turns after it tell
nothing. -/
theorem storeContacts_bind_rest {times : ℕ → Timeval} {k : ℕ} {bs : List (List ContactEl)}
    {rest : Contacts → Option (Contacts × List ContactsOut)} {ct : Contacts}
    (hrest : ∀ ct' : Contacts, ct'.ch = ct.ch →
      rest ct' = (storeBundles times k bs ct').map fun ct'' => (ct'', []))
    (key : Text) (b : List ContactEl) (outs : List ContactsOut) :
    ((storeContacts ct key b).bind fun ct' => (rest ct').bind fun r => some (r.1, outs ++ r.2))
      = ((storeContacts ct key b).bind (storeBundles times k bs)).map fun ct' => (ct', outs) := by
  cases hstore : storeContacts ct key b with
  | none => rfl
  | some ct' =>
      rw [Option.bind_some, Option.bind_some, hrest ct' (storeContacts_ch hstore)]
      cases storeBundles times k bs ct' with
      | none => rfl
      | some ct'' => rw [Option.map_some, Option.bind_some, List.append_nil, Option.map_some]

/-- **The loop on plain lists** hands the same bundle to the handler and stores the same
bundles. -/
theorem bundleLoop_eq (times : ℕ → Timeval) {n : ℕ} {l : List ContactEl} (hn : l.length ≤ n)
    (k : ℕ) (cb : Bool) (ct : Contacts) :
    bundleLoop times n k cb l ct
      = (storeBundles times k (chunks 29 n l)
          (if cb && ct.ch then curIdx ct ((chunks 29 n l).headD []) else ct)).map fun ct' =>
            (ct', (if cb && ct.ch then (chunks 29 n l).head?.toList else []).map
              fun b => .handler (some b)) := by
  induction n generalizing l k cb ct with
  | zero =>
      obtain rfl := List.length_eq_zero_iff.mp (Nat.le_zero.mp hn)
      cases cb <;> cases hch : ct.ch <;> simp [bundleLoop, chunks, storeBundles, curIdx]
  | succ n ih =>
      cases l with
      | nil => cases cb <;> cases hch : ct.ch <;> simp [bundleLoop, chunks, storeBundles, curIdx]
      | cons ctel l =>
          have hlen : ((ctel :: l).drop 29).length ≤ n := length_drop_le (by norm_num) hn
          rw [bundleLoop, show bundleSize = 29 + 1 from rfl, doSlice_succ, chunks]
          dsimp only
          rw [List.headD_cons, storeBundles, List.head?_cons, Option.toList_some]
          -- once it was called, or without one, the handler is not called again
          have hrest : ∀ ct', ct'.ch = ct.ch →
              bundleLoop times n (k + 1) (cb && !(cb && ct.ch)) ((ctel :: l).drop 29) ct'
                = (storeBundles times (k + 1) (chunks 29 n ((ctel :: l).drop 29)) ct').map
                    fun ct' => (ct', []) := by
            intro ct' hch
            have hnot : ((cb && !(cb && ct.ch)) && ct'.ch) = false := by
              rw [hch]
              cases cb <;> cases ct.ch <;> rfl
            rw [ih hlen, hnot]
            rfl
          cases htell : cb && ct.ch with
          | false =>
              rw [if_neg Bool.false_ne_true, if_neg Bool.false_ne_true, if_neg Bool.false_ne_true]
              rw [htell] at hrest
              exact storeContacts_bind_rest hrest _ _ []
          | true =>
              rw [if_pos rfl, if_pos rfl, if_pos rfl, curIdx_store]
              rw [htell] at hrest
              have hcalled : ∀ ct' : Contacts, ct'.ch = (curIdx ct ((ctel :: l).take 29)).ch → _ :=
                hrest
              exact storeContacts_bind_rest hcalled _ _ [.handler (some ((ctel :: l).take 29))]

/-- **The bundles partition the contact list.**  The loop comes to an end.  The lists it
passes to `store_contacts` are not empty and together they are the list; the first one, if
there is any, is what the handler gets.  The loop on plain lists stores just these. -/
theorem bundles_partition {m : Mem ContactEl} {as : List (ℕ × ContactEl)}
    (h : IsList m ctlistAt as) (times : ℕ → Timeval) (ct : Contacts) :
    ∃ told stored, bundle ct.ch (as.length + 1) m = some (told, stored) ∧
      (∀ b ∈ stored, b ≠ []) ∧ stored.flatten = as.map Prod.snd ∧
      told = (if ct.ch then stored.take 1 else []) ∧
      bundleLoop times as.length 0 true (as.map Prod.snd) ct
        = (storeBundles times 0 stored
            (if ct.ch then curIdx ct (stored.headD []) else ct)).map
          fun ct' => (ct', told.map fun b => .handler (some b)) := by
  have hlen : (as.map Prod.snd).length ≤ as.length := le_of_eq (List.length_map _)
  have hinit : Chain (m.setList headAt (m.list ctlistAt)) ctlistAt none
      ((m.setList headAt (m.list ctlistAt)).list headAt).head as := by
    rw [Mem.setList_self]
    exact h.chain.congr fun _ _ => rfl
  have htake : ∀ bs : List (List ContactEl), bs.head?.toList = bs.take 1 := fun bs => by
    cases bs <;> rfl
  refine ⟨_, _, sliceLoop_spec ct.ch le_rfl hinit h.nodup,
    fun b hb => ne_nil_of_mem_chunks (by norm_num) hb, flatten_chunks (by norm_num) hlen, ?_, ?_⟩
  · rw [Bool.true_and, htake]
  · rw [bundleLoop_eq times hlen, Bool.true_and]

/-- Thirty contacts make two bundles. -/
theorem bundles_partition_thirty :
    ∃ (m : Mem ContactEl) (as : List (ℕ × ContactEl)),
      appendAll Mem.empty ctlistAt 0 (thirtyContacts (lit "a")) = some m ∧
      as.map Prod.snd = thirtyContacts (lit "a") ∧
      ∃ told stored,
        bundle (freshContacts (lit "alice") []).ch (as.length + 1) m = some (told, stored) ∧
        (∀ b ∈ stored, b ≠ []) ∧ stored.flatten = as.map Prod.snd ∧
        told = (if (freshContacts (lit "alice") []).ch then stored.take 1 else []) ∧
        bundleLoop everySecond as.length 0 true (as.map Prod.snd) (freshContacts (lit "alice") [])
          = (storeBundles everySecond 0 stored
              (if (freshContacts (lit "alice") []).ch
                then curIdx (freshContacts (lit "alice") []) (stored.headD [])
                else freshContacts (lit "alice") [])).map
            fun ct' => (ct', told.map fun b => .handler (some b)) := by
  obtain ⟨m, as, hall, h, hdata⟩ :=
    (isList_empty ctlistAt).appendAll (a := 0) (by simp) (thirtyContacts (lit "a"))
  exact ⟨m, as, hall, hdata, bundles_partition h everySecond (freshContacts (lit "alice") [])⟩

end Bundles
