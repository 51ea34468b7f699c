/-
# C strings and the numbers printed into them

A C string is the list of its bytes before the terminating NUL (`Text`), and two of
them compare bytewise, as `memcmp` and the text order of the store do.  `fmtD` and
`fmt06u` are the conversions `%d` and `%06u`; both read the machine word of an `int`.

Printed numbers can be read back, also behind zeros that pad them, so different numbers
print differently.

The order of printed numbers is the order of their digits: `decimal 9 < decimal 10` is
false.  What is needed of it are the two facts of the last section: a common beginning does
not matter, and fields that end at a separator smaller than everything in them are
compared before what follows.
-/
import Mathlib

/-! ## Bytes and strings -/

abbrev Byte := Fin 256

/-- The zero byte. -/
def nul : Byte := 0

/-- A byte that can stand in a C string. -/
abbrev CChar := {b : Byte // b ≠ 0}

/-- A C string, without its terminator. -/
abbrev Text := List CChar

/-- The byte of a character of the basic Latin block. -/
def byteOf (c : Char) : CChar :=
  if h : Fin.ofNat 256 c.toNat ≠ 0 then ⟨Fin.ofNat 256 c.toNat, h⟩ else ⟨63, by decide⟩

/-- A string literal of the source. -/
def lit (s : String) : Text := s.toList.map byteOf

/-- The C string at the start of a buffer: what comes before the first NUL. -/
def cstr : List Byte → Text
  | [] => []
  | b :: l => if h : b ≠ 0 then ⟨b, h⟩ :: cstr l else []

/-- The bytes that `strlen` counts. -/
def bytes (t : Text) : List Byte := t.map Subtype.val

@[simp] theorem cstr_bytes (t : Text) : cstr (bytes t) = t := by
  induction t with
  | nil => rfl
  | cons c t ih =>
    rw [bytes, List.map_cons, cstr, dif_pos c.property]
    exact congrArg (c :: ·) ih

@[simp] theorem bytes_eq_nil {t : Text} : bytes t = [] ↔ t = [] := by
  rw [bytes, List.map_eq_nil_iff]

/-! ## Printing numbers -/

/-- The decimal digits of a number. -/
def decimal (n : ℕ) : Text := (Nat.toDigits 10 n).map byteOf

/-- `%d`: the argument is read as a 32-bit `int`. -/
def fmtD (n : ℤ) : Text :=
  let v := n.bmod (2 ^ 32)
  if v < 0 then byteOf '-' :: decimal v.natAbs else decimal v.natAbs

/-- `%06u`: the argument is read as a 32-bit `unsigned` and padded with zeros to six
digits. -/
def fmt06u (n : ℤ) : Text :=
  let d := decimal (n.emod (2 ^ 32)).toNat
  List.replicate (6 - d.length) (byteOf '0') ++ d

/-- A decimal digit. -/
def IsDigit (c : CChar) : Prop := byteOf '0' ≤ c ∧ c ≤ byteOf '9'

theorem toNat_of_isDigit {c : Char} (h : c.isDigit = true) : 48 ≤ c.toNat ∧ c.toNat ≤ 57 := by
  simp only [Char.isDigit, ge_iff_le, Bool.and_eq_true, decide_eq_true_eq,
    UInt32.le_iff_toNat_le] at h
  exact h

/-- The byte of a digit is its character code. -/
theorem val_byteOf {c : Char} (h : c.isDigit = true) : (byteOf c).1.1 = c.toNat := by
  obtain ⟨hlo, hhi⟩ := toNat_of_isDigit h
  have hne : Fin.ofNat 256 c.toNat ≠ 0 := by
    intro h0
    have := congrArg Fin.val h0
    simp only [Fin.ofNat, Fin.val_zero] at this
    omega
  rw [byteOf, dif_pos hne]
  exact Nat.mod_eq_of_lt (by omega)

theorem isDigit_byteOf {c : Char} (h : c.isDigit = true) : IsDigit (byteOf c) := by
  obtain ⟨hlo, hhi⟩ := toNat_of_isDigit h
  have hval := val_byteOf h
  constructor
  · show (48 : ℕ) ≤ (byteOf c).1.1
    omega
  · show (byteOf c).1.1 ≤ 57
    omega

theorem isDigit_of_mem_decimal {n : ℕ} {c : CChar} (h : c ∈ decimal n) : IsDigit c := by
  obtain ⟨d, hd, rfl⟩ := List.mem_map.mp h
  exact isDigit_byteOf (Nat.isDigit_of_mem_toDigits (by decide) (by decide) hd)

theorem decimal_ne_nil (n : ℕ) : decimal n ≠ [] := by
  rw [decimal, Ne, List.map_eq_nil_iff]
  exact Nat.toDigits_ne_nil

/-- Only the sign of a printed `int` is not a digit. -/
theorem fmtD_eq (n : ℤ) :
    ∃ c t, fmtD n = c :: t ∧ ∀ d ∈ t, IsDigit d := by
  rw [fmtD]
  split
  · exact ⟨_, _, rfl, fun d hd => isDigit_of_mem_decimal hd⟩
  · obtain ⟨c, t, hct⟩ := List.exists_cons_of_ne_nil (decimal_ne_nil (n.bmod (2 ^ 32)).natAbs)
    exact ⟨c, t, hct, fun d hd => isDigit_of_mem_decimal (hct ▸ List.mem_cons_of_mem c hd)⟩

/-- A printed `int` has nothing but digits and perhaps a minus in it. -/
theorem notMem_fmtD {c : CChar} (hdigit : ¬ IsDigit c) (hminus : c ≠ byteOf '-') (n : ℤ) :
    c ∉ fmtD n := by
  unfold fmtD
  dsimp only
  split_ifs
  · intro h
    rcases List.mem_cons.mp h with h | h
    · exact hminus h
    · exact hdigit (isDigit_of_mem_decimal h)
  · exact fun h => hdigit (isDigit_of_mem_decimal h)

/-- A printed `unsigned` has nothing but digits in it. -/
theorem notMem_fmt06u {c : CChar} (hdigit : ¬ IsDigit c) (n : ℤ) : c ∉ fmt06u n := by
  intro h
  rcases List.mem_append.mp h with h | h
  · apply hdigit
    rw [List.eq_of_mem_replicate h]
    unfold IsDigit
    decide
  · exact hdigit (isDigit_of_mem_decimal h)

/-! ## Reading numbers back -/

/-- The number that digits stand for. -/
def decimalValue (t : Text) : ℕ := t.foldl (fun v c => 10 * v + (c.1.1 - 48)) 0

theorem decimalValue_map_byteOf {l : List Char} (h : ∀ c ∈ l, c.isDigit = true) :
    decimalValue (l.map byteOf) = Nat.ofDigitChars 10 l 0 := by
  unfold decimalValue Nat.ofDigitChars
  rw [List.foldl_map]
  apply List.foldl_ext
  intro v c hc
  rw [val_byteOf (h c hc)]
  rfl

/-- A printed number is read back. -/
@[simp] theorem decimalValue_decimal (n : ℕ) : decimalValue (decimal n) = n := by
  unfold decimal
  rw [decimalValue_map_byteOf fun c hc => Nat.isDigit_of_mem_toDigits (by decide) (by decide) hc,
    Nat.ofDigitChars_ten_toDigits]

/-- Zeros in front do not count. -/
theorem decimalValue_zeros (k : ℕ) (t : Text) :
    decimalValue (List.replicate k (byteOf '0') ++ t) = decimalValue t := by
  have hzeros : (List.replicate k (byteOf '0')).foldl (fun v c => 10 * v + (c.1.1 - 48)) 0 = 0 := by
    induction k with
    | zero => rfl
    | succ k ih =>
      rw [List.replicate_succ, List.foldl_cons]
      exact ih
  unfold decimalValue
  rw [List.foldl_append, hzeros]

/-- Different numbers are printed differently. -/
theorem decimal_injective : Function.Injective decimal := by
  intro m n h
  rw [← decimalValue_decimal m, h, decimalValue_decimal]

theorem not_isDigit_minus : ¬ IsDigit (byteOf '-') := by
  unfold IsDigit
  decide

/-- **`%d` shows the machine word**, and nothing else. -/
theorem fmtD_inj {m n : ℤ} : fmtD m = fmtD n ↔ m.bmod (2 ^ 32) = n.bmod (2 ^ 32) := by
  constructor
  · intro h
    -- only a negative number begins with a minus
    have hsign : ∀ (k : ℕ) (t : Text), decimal k ≠ byteOf '-' :: t := by
      intro k t heq
      exact not_isDigit_minus (isDigit_of_mem_decimal (heq ▸ List.mem_cons_self))
    unfold fmtD at h
    dsimp only at h
    split_ifs at h with hm hn hn
    · have habs := decimal_injective (List.cons.inj h).2
      omega
    · exact absurd h.symm (hsign _ _)
    · exact absurd h (hsign _ _)
    · have habs := decimal_injective h
      omega
  · intro h
    unfold fmtD
    rw [h]

theorem fmt06u_inj {m n : ℤ} (h : fmt06u m = fmt06u n) : m.emod (2 ^ 32) = n.emod (2 ^ 32) := by
  have hval := congrArg decimalValue h
  unfold fmt06u at hval
  rw [decimalValue_zeros, decimalValue_zeros, decimalValue_decimal, decimalValue_decimal] at hval
  have hm : 0 ≤ m.emod (2 ^ 32) := Int.emod_nonneg m (by decide)
  have hn : 0 ≤ n.emod (2 ^ 32) := Int.emod_nonneg n (by decide)
  omega

/-- **Fields before a separator** that does not occur in them can be told apart from what
follows. -/
theorem field_eq_field_iff {α : Type*} {sep : α} {a b x y : List α} (ha : sep ∉ a)
    (hb : sep ∉ b) : a ++ sep :: x = b ++ sep :: y ↔ a = b ∧ x = y := by
  induction a generalizing b with
  | nil =>
    cases b with
    | nil => simp
    | cons d b =>
      have hd : sep ≠ d := fun h => hb (h ▸ List.mem_cons_self)
      simp [hd]
  | cons c a ih =>
    cases b with
    | nil =>
      have hc : c ≠ sep := fun h => ha (h ▸ List.mem_cons_self)
      simp [hc]
    | cons d b =>
      rw [List.cons_append, List.cons_append, List.cons.injEq,
        ih (fun h => ha (List.mem_cons_of_mem c h)) (fun h => hb (List.mem_cons_of_mem d h)),
        List.cons.injEq, and_assoc]

/-! ## The order of printed numbers -/

section lex

variable {α : Type*} [LinearOrder α]

/-- A common beginning does not matter for the order. -/
theorem append_lt_append_iff (p a b : List α) : p ++ a < p ++ b ↔ a < b := by
  induction p with
  | nil => rfl
  | cons c p ih =>
    rw [List.cons_append, List.cons_append, List.cons_lt_cons_iff]
    simp [ih]

/-- **Fields before a separator.**  If the separator is smaller than everything in the
fields before it, then the fields are compared first, and only equal ones leave the
decision to what follows. -/
theorem field_lt_field_iff {sep : α} {a b x y : List α} (ha : ∀ c ∈ a, sep < c)
    (hb : ∀ c ∈ b, sep < c) :
    a ++ sep :: x < b ++ sep :: y ↔ a < b ∨ a = b ∧ x < y := by
  induction a generalizing b with
  | nil =>
    cases b with
    | nil => simp
    | cons d b =>
      have hd : sep < d := hb d List.mem_cons_self
      simp [List.cons_lt_cons_iff, hd]
  | cons c a ih =>
    have hc : sep < c := ha c List.mem_cons_self
    cases b with
    | nil => simp [List.cons_lt_cons_iff, not_lt_of_gt hc, ne_of_gt hc]
    | cons d b =>
      have hrec := ih (b := b) (fun e he => ha e (List.mem_cons_of_mem c he))
        (fun e he => hb e (List.mem_cons_of_mem d he))
      simp only [List.cons_append, List.cons_lt_cons_iff, hrec, List.cons.injEq]
      tauto

end lex
