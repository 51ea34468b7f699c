/-
# Packing msgpack, and reading what was packed

The writers of `pack_template.h` that the client uses: numbers, the header of an array, and raws
with their bytes.  An array is a header with a count, followed by so many elements; nothing
but the writer keeps the two in step.

`Encodes d e ob` says that the parser, where an object may begin and with `d` places left on
its stack, makes of the bytes `e` the object `ob`, whatever comes behind them.  The parts of an
array that is written element by element then add up (`encodes_array`).
-/
import Tcsip.MsgpackUnpack

open BigEndian

namespace Msgpack

/-! ## Writers -/

/-- `msgpack_pack_int`: the argument is an `int`. -/
def packInt (x : ℤ) : List Byte :=
  let d := x.bmod (2 ^ 32)
  let bits := (d % 2 ^ 32).toNat
  if d < -(2 ^ 5) then
    if d < -(2 ^ 15) then byte 0xd2 :: be 4 bits
    else if d < -(2 ^ 7) then byte 0xd1 :: be 2 bits
    else byte 0xd0 :: be 1 bits
  else if d < 2 ^ 7 then be 1 bits
  else if d < 2 ^ 8 then byte 0xcc :: be 1 bits
  else if d < 2 ^ 16 then byte 0xcd :: be 2 bits
  else byte 0xce :: be 4 bits

/-- `msgpack_pack_array`: the argument is an `unsigned int`. -/
def packArray (n : ℕ) : List Byte :=
  let n := n % 2 ^ 32
  if n < 16 then [byte (0x90 ||| n)]
  else if n < 65536 then byte 0xdc :: be 2 n
  else byte 0xdd :: be 4 n

/-- `msgpack_pack_raw`: the argument is a `size_t`. -/
def packRaw (l : ℕ) : List Byte :=
  if l < 32 then [byte (0xa0 ||| l)]
  else if l < 65536 then byte 0xda :: be 2 l
  else byte 0xdb :: be 4 l

/-- `msgpack_pack_raw_body`: the length is cast to an `int` and taken by the callback as an
`unsigned int`. -/
def packRawBody (b : List Byte) (l : ℕ) : List Byte := b.take (l % 2 ^ 32)

/-- A raw with the bytes at `b`, of the length `l`. -/
def pushSized (b : List Byte) (l : ℕ) : List Byte := packRaw l ++ packRawBody b l

/-- `push_cstr`, for a literal. -/
def pushCstr (c : Text) : List Byte := pushSized (bytes c) c.length

/-- `push_pl`. -/
def pushPl (c : List Byte) : List Byte := pushSized c c.length

/-- `push_cstr_len`: the length is kept in an `int`.  There is no result for NULL. -/
def pushStr (c : Option Text) : Option (List Byte) :=
  c.map fun t =>
    let tmp := (t.length : ℤ).bmod (2 ^ 32)
    pushSized (bytes t) (tmp % 2 ^ 64).toNat

/-! ## What bytes ask of the parser -/

/-- With the bytes `e` the parser comes from a header to the action `a`. -/
def Asks (e : List Byte) (a : Action) : Prop :=
  ∀ stack rest objs up', (∀ up last, spin up = (perform stack last rest a).result stack →
    Reads up objs up') → Reads ⟨⟨.header, stack⟩, e ++ rest⟩ objs up'

theorem asks_header (b : Byte) : Asks [b] (headerAction b) :=
  fun _ _ _ _ h => h _ _ rfl

theorem Asks.trail {e n : List Byte} {kind : TrailKind} (h : Asks e (.trail kind))
    (hn : n.length = kind.len) : Asks (e ++ n) (trailAction kind n) := by
  intro stack rest objs up' hreads
  rw [List.append_assoc]
  refine h stack (n ++ rest) objs up' fun up last hs => .step hs ?_
  refine hreads _ ((n ++ rest).drop (kind.len - 1)) ?_
  show (turn ⟨.trail kind, stack⟩ (n ++ rest)).result stack = _
  rw [turn_trail, if_neg (by rw [List.length_append]; omega), ← hn, List.take_left,
    List.drop_left]

/-- What the parser does after a push. -/
def Pushed.Reads (p : Pushed) (rest : List Byte) (objs : List Obj) (up' : Unpacker) : Prop :=
  match p with
  | .root ob => ∃ objs', objs = ob :: objs' ∧ Msgpack.Reads ⟨.fresh, rest⟩ objs' up'
  | .stacked stack => Msgpack.Reads ⟨⟨.header, stack⟩, rest⟩ objs up'

theorem Pushed.Reads.of_spin {p : Pushed} {rest : List Byte} {objs : List Obj}
    {up up' : Unpacker} {stack : List Frame} (h : p.Reads rest objs up')
    (hs : spin up = (p.turn rest).result stack) : Msgpack.Reads up objs up' := by
  cases p with
  | root ob =>
      obtain ⟨objs', rfl, hr⟩ := h
      exact .step hs hr
  | stacked stack' => exact .step hs h

/-- The bytes `e` are the object `ob`, nested at most `d` deep. -/
def Encodes (d : ℕ) (e : List Byte) (ob : Obj) : Prop :=
  ∀ stack, stack.length + d ≤ embedStackSize → ∀ rest objs up',
    (push ob stack).Reads rest objs up' → Reads ⟨⟨.header, stack⟩, e ++ rest⟩ objs up'

theorem Encodes.mono {d d' : ℕ} {e : List Byte} {ob : Obj} (h : Encodes d e ob) (hd : d ≤ d') :
    Encodes d' e ob :=
  fun stack hstack => h stack (by omega)

theorem Asks.encodes {e : List Byte} {ob : Obj} (h : Asks e (.value ob)) (d : ℕ) :
    Encodes d e ob :=
  fun stack _ rest objs up' hp => h stack rest objs up' fun _ _ hs => hp.of_spin hs

/-! ## Arrays -/

/-- The elements of an array, the first of which is still to come. -/
theorem reads_items {d : ℕ} {es : List (List Byte)} {obs : List Obj}
    (h : List.Forall₂ (Encodes d) es obs) {stack : List Frame}
    (hroom : stack.length + 1 + d ≤ embedStackSize) {rest : List Byte} {objs : List Obj}
    {up' : Unpacker} (l : List Obj) {more : ℕ} (hmore : obs.length = more + 1)
    (hp : (push (.array (l ++ obs)) stack).Reads rest objs up') :
    Reads ⟨⟨.header, .arrayItem l more :: stack⟩, es.flatten ++ rest⟩ objs up' := by
  induction h generalizing l more with
  | nil => exact absurd hmore (by simp)
  | @cons e ob es obs he hes ih =>
      rw [List.flatten_cons, List.append_assoc]
      refine he (.arrayItem l more :: stack) (by rw [List.length_cons]; exact hroom) _ _ _ ?_
      cases obs with
      | nil =>
          -- the last one
          obtain rfl : more = 0 := by simpa using hmore.symm
          cases hes
          exact hp
      | cons ob' obs =>
          obtain ⟨m, rfl⟩ : ∃ m, more = m + 1 := ⟨obs.length, by simpa using hmore.symm⟩
          refine ih (l ++ [ob]) (by simpa using hmore) ?_
          rw [List.append_assoc]
          exact hp

/-- **An array**: a header with the count, and so many elements. -/
theorem encodes_array {d : ℕ} {head : List Byte} {es : List (List Byte)} {obs : List Obj}
    (hhead : Asks head (.container false obs.length)) (h : List.Forall₂ (Encodes d) es obs) :
    Encodes (d + 1) (head ++ es.flatten) (.array obs) := by
  intro stack hstack rest objs up' hp
  rw [List.append_assoc]
  refine hhead stack (es.flatten ++ rest) objs up' fun up last hs => ?_
  rw [perform_container (by omega)] at hs
  cases hobs : obs with
  | nil =>
      subst hobs
      cases h
      exact Pushed.Reads.of_spin hp hs
  | cons ob obs' =>
      rw [hobs] at hs
      exact .step hs (reads_items h (by omega) [] (by rw [hobs]; rfl) hp)

/-- Objects one after the other, where a client begins to read. -/
theorem reads_flatten {d : ℕ} (hd : d ≤ embedStackSize) {es : List (List Byte)} {obs : List Obj}
    (h : List.Forall₂ (Encodes d) es obs) : Reads ⟨.fresh, es.flatten⟩ obs .fresh := by
  induction h with
  | nil => exact .out rfl
  | @cons e ob es obs he _ ih =>
      rw [List.flatten_cons]
      exact he [] (by simpa using hd) es.flatten (ob :: obs) .fresh ⟨obs, rfl, ih⟩

/-! ## The writers encode what they are given -/

theorem asks_trailed {b : Byte} {kind : TrailKind} (hb : headerAction b = .trail kind)
    {n : List Byte} (hn : n.length = kind.len) : Asks (b :: n) (trailAction kind n) :=
  Asks.trail (hb ▸ asks_header b) hn

/-- A number of one byte. -/
theorem headerAction_fixnum {v : ℤ} (hlow : -(2 ^ 5) ≤ v) (hhigh : v < 2 ^ 7) {n : ℕ}
    (hn : (n : ℤ) = v % 2 ^ 32) : headerAction (byte n) = .value (.integer v) := by
  have hb : (byte n).val = n % 256 := rfl
  unfold headerAction
  rw [hb]
  by_cases hneg : v < 0
  · rw [if_neg (by omega), if_neg (by omega), if_neg (by omega), if_neg (by omega),
      if_neg (by omega), show ((n % 256 : ℕ) : ℤ) - 256 = v from by omega]
  · rw [if_pos (by omega), show ((n % 256 : ℕ) : ℤ) = v from by omega]

/-- **Numbers.** -/
theorem encodes_packInt (x : ℤ) (d : ℕ) : Encodes d (packInt x) (.integer (x.bmod (2 ^ 32))) := by
  have hlow : -(2 ^ 31) ≤ x.bmod (2 ^ 32) := by
    have := Int.le_bmod (x := x) (m := 2 ^ 32) (by decide)
    omega
  have hhigh : x.bmod (2 ^ 32) < 2 ^ 31 := by
    have := Int.bmod_lt (x := x) (m := 2 ^ 32) (by decide)
    omega
  unfold packInt
  dsimp only
  generalize x.bmod (2 ^ 32) = v at hlow hhigh ⊢
  obtain ⟨n, hn⟩ : ∃ n : ℕ, (n : ℤ) = v % 2 ^ 32 :=
    ⟨(v % 2 ^ 32).toNat, Int.toNat_of_nonneg (Int.emod_nonneg v (by decide))⟩
  have hbits : (v % 2 ^ 32).toNat = n := by omega
  rw [hbits]
  split_ifs with hneg h16 h8 hfix h8' h16'
  · have h := asks_trailed (b := byte 0xd2) rfl (length_be 4 n)
    rw [trailAction, ofBe_be, show ((n % 256 ^ 4 : ℕ) : ℤ).bmod (2 ^ 32) = v from by
      rw [Int.bmod_def]; omega] at h
    exact h.encodes d
  · have h := asks_trailed (b := byte 0xd1) rfl (length_be 2 n)
    rw [trailAction, ofBe_be, show ((n % 256 ^ 2 : ℕ) : ℤ).bmod (2 ^ 16) = v from by
      rw [Int.bmod_def]; omega] at h
    exact h.encodes d
  · have h := asks_trailed (b := byte 0xd0) rfl (length_be 1 n)
    rw [trailAction, ofBe_be, show ((n % 256 ^ 1 : ℕ) : ℤ).bmod (2 ^ 8) = v from by
      rw [Int.bmod_def]; omega] at h
    exact h.encodes d
  · have h := asks_header (byte n)
    rw [headerAction_fixnum (by omega) hfix hn] at h
    exact h.encodes d
  · have h := asks_trailed (b := byte 0xcc) rfl (length_be 1 n)
    rw [trailAction, ofBe_be, show ((n % 256 ^ 1 : ℕ) : ℤ) = v from by omega] at h
    exact h.encodes d
  · have h := asks_trailed (b := byte 0xcd) rfl (length_be 2 n)
    rw [trailAction, ofBe_be, show ((n % 256 ^ 2 : ℕ) : ℤ) = v from by omega] at h
    exact h.encodes d
  · have h := asks_trailed (b := byte 0xce) rfl (length_be 4 n)
    rw [trailAction, ofBe_be, show ((n % 256 ^ 4 : ℕ) : ℤ) = v from by omega] at h
    exact h.encodes d

/-- **The header of an array** that is not too long for one. -/
theorem asks_packArray {n : ℕ} (hn : n < 2 ^ 32) : Asks (packArray n) (.container false n) := by
  unfold packArray
  dsimp only
  rw [Nat.mod_eq_of_lt hn]
  split_ifs with hfix h16
  · have hor : 0x90 ||| n = 0x90 + n := by
      clear hn
      revert n
      decide
    have h := asks_header (byte (0x90 ||| n))
    rw [hor] at h ⊢
    have hb : (byte (0x90 + n)).val = 0x90 + n := Nat.mod_eq_of_lt (by omega)
    rw [headerAction, hb, if_neg (by omega), if_neg (by omega), if_pos (by omega),
      show (0x90 + n) % 16 = n from by omega] at h
    exact h
  · have h := asks_trailed (b := byte 0xdc) rfl (length_be 2 n)
    rwa [trailAction, ofBe_be_of_lt (by omega)] at h
  · have h := asks_trailed (b := byte 0xdd) rfl (length_be 4 n)
    rwa [trailAction, ofBe_be_of_lt (by omega)] at h

/-- The header of a raw announces the length modulo `2 ^ 32`. -/
theorem asks_packRaw (l : ℕ) : Asks (packRaw l) (rawAction (l % 2 ^ 32)) := by
  unfold packRaw
  split_ifs with hfix h16
  · have hor : 0xa0 ||| l = 0xa0 + l := by
      revert l
      decide
    have h := asks_header (byte (0xa0 ||| l))
    rw [hor] at h ⊢
    have hb : (byte (0xa0 + l)).val = 0xa0 + l := Nat.mod_eq_of_lt (by omega)
    rw [headerAction, hb, if_neg (by omega), if_neg (by omega), if_neg (by omega),
      if_pos (by omega), show (0xa0 + l) % 32 = l % 2 ^ 32 from by omega] at h
    exact h
  · have h := asks_trailed (b := byte 0xda) rfl (length_be 2 l)
    rwa [trailAction, ofBe_be, show l % 256 ^ 2 = l % 2 ^ 32 from by omega] at h
  · have h := asks_trailed (b := byte 0xdb) rfl (length_be 4 l)
    rwa [trailAction, ofBe_be] at h

/-- **Raws.**  Header and body agree on the length, whatever it is. -/
theorem encodes_pushSized {b : List Byte} {l : ℕ} (hl : l % 2 ^ 32 ≤ b.length) (d : ℕ) :
    Encodes d (pushSized b l) (.raw (b.take (l % 2 ^ 32))) := by
  have hlen : (packRawBody b l).length = l % 2 ^ 32 := by
    unfold packRawBody
    rw [List.length_take, min_eq_left hl]
  have h := asks_packRaw l
  unfold rawAction at h
  split_ifs at h with hpos
  · exact (h.trail hlen).encodes d
  · have hzero : l % 2 ^ 32 = 0 := by omega
    unfold pushSized packRawBody
    rw [hzero, List.take_zero, List.append_nil]
    exact h.encodes d

/-- What a string or a buffer is read back as: its first bytes, if it is longer than a raw can
be. -/
def rawOf (b : List Byte) : Obj := .raw (b.take (b.length % 2 ^ 32))

theorem encodes_pushPl (c : List Byte) (d : ℕ) : Encodes d (pushPl c) (rawOf c) :=
  encodes_pushSized (Nat.mod_le _ _) d

theorem encodes_pushCstr (c : Text) (d : ℕ) : Encodes d (pushCstr c) (rawOf (bytes c)) := by
  have hlen : c.length = (bytes c).length := (List.length_map _).symm
  unfold pushCstr
  rw [hlen]
  exact encodes_pushSized (Nat.mod_le _ _) d

/-- **Strings.**  A length that does not fit into an `int` is the same modulo `2 ^ 32`. -/
theorem encodes_pushStr {c : Option Text} {e : List Byte} (h : pushStr c = some e) (d : ℕ) :
    Encodes d e (rawOf (bytes (c.getD []))) := by
  obtain ⟨t, rfl, he⟩ := Option.map_eq_some_iff.mp h
  dsimp only at he
  have hlen : t.length = (bytes t).length := (List.length_map _).symm
  have hsize : ((t.length : ℤ).bmod (2 ^ 32) % 2 ^ 64).toNat % 2 ^ 32 =
      (bytes t).length % 2 ^ 32 := by
    rw [← hlen, Int.bmod_def]
    omega
  generalize ((t.length : ℤ).bmod (2 ^ 32) % 2 ^ 64).toNat = l at hsize he
  have hle : l % 2 ^ 32 ≤ (bytes t).length := hsize ▸ Nat.mod_le _ _
  have henc := encodes_pushSized hle d
  rw [hsize, he] at henc
  exact henc

end Msgpack
