/-
# Several clients on one database

On Linux the stores of all logins are one file, so the clients of all users and modules share
the table `blob` and are told apart by their keys alone.  A key is `login/letter/sec.usec`,
and a client takes every row whose key matches `login/letter/*`.  The login is printed into the
pattern as it is: its `*`, `?` and `[` are special there, and a star also stands for slashes.

Whether a client takes a key of another one does not depend on the time in the key
(`owns_storeKey_iff`), so the clients leave each other alone exactly when no pattern matches the
beginning of another client's keys, and every pattern matches its own (`undisturbed_iff`).

What the clients pass as `idx` is here what the column makes of it, so that two texts that spell
one number are one `idx`.
-/
import Tcsip.Runs
import Tcsip.Store

open Runs

/-! ## Whose keys a pattern matches -/

/-- The pattern of `c` matches the beginning `login/letter/` of the keys of `d`. -/
def StoreClient.Reaches (c d : StoreClient) : Prop :=
  globMatch c.keyGlob (d.keyPrefix ++ [byteOf '/']) = true

instance (c d : StoreClient) : Decidable (c.Reaches d) := inferInstanceAs (Decidable (_ = true))

theorem utf8Chars_slash (t : Text) :
    utf8Chars (t ++ [byteOf '/']) = utf8Chars t ++ ['/'.toNat] := by
  rw [utf8Chars, utf8Go_append_ascii none _ _ (by decide)]
  rfl

theorem utf8Chars_keyGlob (c : StoreClient) :
    utf8Chars c.keyGlob = utf8Chars c.keyPrefix ++ slashStar := by
  have hglob : c.keyGlob = c.keyPrefix ++ byteOf '/' :: [byteOf '*'] := by
    simp [StoreClient.keyGlob, StoreClient.keyPrefix]
  rw [hglob, utf8Chars, utf8Go_append_ascii none _ _ (by decide)]
  rfl

/-- The time in a key has no slash in it. -/
theorem notMem_slash_time (now : Timeval) :
    '/'.toNat ∉ utf8Chars (fmtD now.sec ++ byteOf '.' :: fmtD now.usec) := by
  have hdigit : ¬ IsDigit (byteOf '/') := by
    unfold IsDigit
    decide
  intro h
  obtain ⟨b, hb, hval⟩ := mem_of_mem_utf8Go (by decide) h
  obtain rfl : b = byteOf '/' := Subtype.ext (Fin.ext (by rw [hval]; rfl))
  rcases List.mem_append.mp hb with hb | hb
  · exact notMem_fmtD hdigit (by decide) now.sec hb
  · rcases List.mem_cons.mp hb with hb | hb
    · exact absurd hb (by decide)
    · exact notMem_fmtD hdigit (by decide) now.usec hb

/-- **The time in a key does not matter** for the client that takes it. -/
theorem owns_storeKey_iff {c d : StoreClient} (now : Timeval) :
    c.owns (storeKey d now) = true ↔ c.Reaches d := by
  have hkey : utf8Chars (storeKey d now) = utf8Chars (d.keyPrefix ++ [byteOf '/']) ++
      utf8Chars (fmtD now.sec ++ byteOf '.' :: fmtD now.usec) := by
    rw [storeKey, utf8Chars, utf8Chars_slash, utf8Go_append_ascii none _ _ (by decide),
      List.append_assoc]
    rfl
  unfold StoreClient.owns StoreClient.Reaches globMatch
  rw [hkey, utf8Chars_keyGlob, patternCompare_slashStar_append (notMem_slash_time now)]

/-- Without special characters a client reaches those whose keys begin with its own prefix. -/
theorem StoreClient.reaches_iff_of_plain {c d : StoreClient}
    (hc : ∀ x ∈ utf8Chars c.keyPrefix, PlainChar x) :
    c.Reaches d ↔
      utf8Chars (c.keyPrefix ++ [byteOf '/']) <+: utf8Chars (d.keyPrefix ++ [byteOf '/']) := by
  unfold StoreClient.Reaches globMatch
  rw [utf8Chars_keyGlob, utf8Chars_slash c.keyPrefix]
  exact patternCompare_slashStar_of_plain hc (by simp [slashStar])

/-! ## A shared table -/

variable {κ ι : Type}

/-- What a client does: `store_add_state` with the key that `store_key` gives at the time
`now`, or `store_fetch_state`. -/
inductive ShareEvent (κ ι : Type)
  | add (k : κ) (now : Timeval) (idx : ι) (blob : Obj) (state : ℤ)
  | fetch (k : κ) (start : Option ι) (state : ℤ)

/-- The table, with the client that wrote each row beside its blob. -/
abbrev SharedTable (κ ι : Type) := List (Row ι (κ × Obj))

/-- The client that wrote a row. -/
def Row.writer (r : Row ι (κ × Obj)) : κ := r.blob.1

section Sharing

variable [LinearOrder ι] (client : κ → StoreClient)

/-- A client writes to the table, or reads from it. -/
def shareStep (T : SharedTable κ ι) : ShareEvent κ ι → Option (SharedTable κ ι)
  | .add k now idx blob state =>
    some (storeAddState (client k) (storeKey (client k) now) idx (k, blob) state T)
  | .fetch _ _ _ => some T

/-- Every row matches the pattern of the client that wrote it. -/
def OwnRows (T : SharedTable κ ι) : Prop := ∀ r ∈ T, (client r.writer).owns r.blobKey = true

/-- Each client reaches its own keys and nobody else's. -/
def ClientsSeparate : Prop := ∀ k l, (client k).Reaches (client l) ↔ k = l

/-- Without special characters the clients are separate exactly when the prefix of none begins
that of another, as `alice/m/` begins `alice/m/h/`, a key prefix of the user `alice/m`. -/
theorem clientsSeparate_iff_of_plain
    (hplain : ∀ k, ∀ x ∈ utf8Chars (client k).keyPrefix, PlainChar x) :
    ClientsSeparate client ↔ ∀ k l, k ≠ l →
      ¬ utf8Chars ((client k).keyPrefix ++ [byteOf '/']) <+:
        utf8Chars ((client l).keyPrefix ++ [byteOf '/']) := by
  unfold ClientsSeparate
  refine forall_congr' fun k => forall_congr' fun l => ?_
  rw [StoreClient.reaches_iff_of_plain (hplain k)]
  constructor
  · exact fun h hne hprefix => hne (h.mp hprefix)
  · intro h
    refine ⟨fun hprefix => by_contra fun hne => h hne hprefix, ?_⟩
    rintro rfl
    exact List.prefix_refl _

/-! ## Separate clients -/

/-- The rows have keys of the clients that wrote them. -/
def KeysOfWriters (T : SharedTable κ ι) : Prop :=
  ∀ r ∈ T, ∃ now, r.blobKey = storeKey (client r.writer) now

variable {client}

theorem keysOfWriters_shareStep {T T' : SharedTable κ ι} {e : ShareEvent κ ι}
    (h : KeysOfWriters client T) (hstep : shareStep client T e = some T') :
    KeysOfWriters client T' := by
  cases e with
  | add k now idx blob state =>
      obtain rfl := Option.some.inj hstep
      let P (key : Text) (_ : ι) (b : κ × Obj) : Prop := ∃ now, key = storeKey (client b.1) now
      exact forall_mem_storeAddState (P := P) h ⟨now, rfl⟩
  | fetch k start state =>
      obtain rfl := Option.some.inj hstep
      exact h

omit [LinearOrder ι] in
/-- Separate clients take the rows that they wrote. -/
theorem ClientsSeparate.owns_iff (hsep : ClientsSeparate client) {T : SharedTable κ ι}
    (hkeys : KeysOfWriters client T) {r : Row ι (κ × Obj)} (hr : r ∈ T) (k : κ) :
    (client k).owns r.blobKey = true ↔ k = r.writer := by
  obtain ⟨now, hkey⟩ := hkeys r hr
  rw [hkey, owns_storeKey_iff]
  exact hsep k r.writer

omit [LinearOrder ι] in
theorem ClientsSeparate.ownRows (hsep : ClientsSeparate client) {T : SharedTable κ ι}
    (hkeys : KeysOfWriters client T) : OwnRows client T :=
  fun _ hr => (hsep.owns_iff hkeys hr _).mpr rfl

/-! ## Runs in which nobody is disturbed -/

variable [DecidableEq κ] (client)

/-- A fetch returns no row of another client, and a write leaves the rows of others as they
are. -/
def LeavesOthers (T : SharedTable κ ι) : ShareEvent κ ι → Prop
  | .add k now idx blob state =>
    (storeAddState (client k) (storeKey (client k) now) idx (k, blob) state T).filter
        (fun r => decide (r.writer ≠ k)) = T.filter fun r => decide (r.writer ≠ k)
  | .fetch k start state => ∀ r ∈ storeSelect (client k) start state T, r.writer = k

/-- No step of the run disturbs another client, and all rows match their own pattern. -/
def ClientsUndisturbed (es : List (ShareEvent κ ι)) : Prop :=
  StepsMeet (shareStep client) (LeavesOthers client) [] es ∧
    Always (shareStep client) (OwnRows client) [] es

variable {client}

theorem ClientsSeparate.leavesOthers (hsep : ClientsSeparate client) {T : SharedTable κ ι}
    (hkeys : KeysOfWriters client T) (e : ShareEvent κ ι) : LeavesOthers client T e := by
  cases e with
  | add k now idx blob state =>
      refine filter_storeAddState (p := fun b : κ × Obj => decide (b.1 ≠ k))
        (fun r hr hother => ?_) ?_
      · rw [← Bool.not_eq_true, hsep.owns_iff hkeys hr k]
        exact fun heq => of_decide_eq_true hother heq.symm
      · exact decide_eq_false fun hne => hne rfl
  | fetch k start state =>
      intro r hr
      obtain ⟨hmem, hown⟩ := mem_of_mem_storeSelect hr
      exact ((hsep.owns_iff hkeys hmem k).mp hown).symm

/-- **Separate clients leave each other alone** in every run. -/
theorem ClientsSeparate.undisturbed (hsep : ClientsSeparate client) (es : List (ShareEvent κ ι)) :
    ClientsUndisturbed client es := by
  have hinit : KeysOfWriters client ([] : SharedTable κ ι) :=
    fun r hr => absurd hr List.not_mem_nil
  constructor
  · exact stepsMeet_of_invariant (shareStep client)
      (fun T e T' => keysOfWriters_shareStep) (fun T e hkeys => hsep.leavesOthers hkeys e) hinit es
  · exact always_of_invariant (shareStep client) (fun T e T' => keysOfWriters_shareStep)
      (fun T hkeys => hsep.ownRows hkeys) hinit es

/-! ## Clients that are not separate -/

omit [DecidableEq κ] in
/-- After one write of `l` the table has its row. -/
theorem shareStep_add_nil (l : κ) (now : Timeval) (idx : ι) (blob : Obj) {state : ℤ} :
    shareStep client [] (.add l now idx blob state) =
      some [⟨storeKey (client l) now, idx, (l, blob), state⟩] := by
  unfold shareStep storeAddState storeObsolete
  dsimp only
  rw [List.nil_append, List.map_singleton, if_neg fun h => lt_irrefl _ h.2.2]

/-- **Clients that leave each other alone in every run are separate.** -/
theorem clientsSeparate_of_undisturbed [Inhabited ι]
    (h : ∀ es : List (ShareEvent κ ι), ClientsUndisturbed client es) : ClientsSeparate client := by
  intro k l
  constructor
  · -- a row that `l` writes is returned to `k`
    intro hreach
    by_contra hne
    let now : Timeval := ⟨0, 0⟩
    have hmeet := (h [.add l now default .nil 1, .fetch k none 1]).1
    have hfetch := (hmeet.2 _ (shareStep_add_nil l now default .nil)).1
    have hown : (client k).owns (storeKey (client l) now) = true :=
      (owns_storeKey_iff now).mpr hreach
    refine hne (hfetch ⟨storeKey (client l) now, default, (l, .nil), 1⟩ ?_).symm
    unfold storeSelect
    rw [List.filter_cons_of_pos (by rw [hown]; rfl), List.filter_nil]
    cases (client k).order <;> rfl
  · rintro rfl
    let now : Timeval := ⟨0, 0⟩
    have halways := (h [.add k now default .nil 1]).2
    have hrows := halways.2 _ (shareStep_add_nil k now default .nil)
    exact (owns_storeKey_iff now).mp (hrows _ (List.mem_singleton_self _))

/-- **Clients on one database do not interfere, whatever they do, exactly when the pattern of
each matches the beginning of its own keys and of no other's.** -/
theorem undisturbed_iff [Inhabited ι] :
    (∀ es : List (ShareEvent κ ι), ClientsUndisturbed client es) ↔ ClientsSeparate client :=
  ⟨clientsSeparate_of_undisturbed, fun hsep es => hsep.undisturbed es⟩

end Sharing

/-- The messages of a user with the login `*` and those of alice. -/
def starAndAlice : Bool → StoreClient
  | true => storeOpen (lit "*") (byteOf 'm')
  | false => storeOpen (lit "alice") (byteOf 'm')

/-- A fetch for the user `*` returns a message of alice. -/
theorem star_reads_alice :
    starAndAlice true ≠ starAndAlice false ∧
      ¬ ClientsUndisturbed starAndAlice
        [.add false ⟨1400000000, 5⟩ (lit "a") .nil 1, .fetch true none 1] := by
  refine ⟨by decide, fun h => ?_⟩
  have hfetch := (h.1.2 _ (shareStep_add_nil false ⟨1400000000, 5⟩ (lit "a") .nil)).1
  have hrow : (⟨storeKey (starAndAlice false) ⟨1400000000, 5⟩, lit "a", (false, .nil), 1⟩ :
      Row Text (Bool × Obj)) ∈ storeSelect (starAndAlice true) none 1
        [⟨storeKey (starAndAlice false) ⟨1400000000, 5⟩, lit "a", (false, .nil), 1⟩] := by
    have hown :
        (starAndAlice true).owns (storeKey (starAndAlice false) ⟨1400000000, 5⟩) = true := by
      decide +kernel
    unfold storeSelect
    rw [List.filter_cons_of_pos (by rw [hown]; rfl), List.filter_nil]
    rfl
  exact absurd (hfetch _ hrow) (by decide)
