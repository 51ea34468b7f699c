/-
# Sound through mu-law

`rtp_send_pcmu` makes a byte of every sample and `rtp_recv_pcmu` a sample of every byte.
Between them a sample keeps its sign and loses what is below the step of its segment: the
segment `p` holds the biased magnitudes from `2 ^ p` on, in sixteen steps of `2 ^ (p - 4)`.

The bias is added in 16 bits.  From a magnitude of 32735 on the sum is a negative number,
which passes the clamp, and the scan for the leading bit runs past the last segment: what
comes back has the sign of a negative sample, whatever the sign of the sample was.
-/
import Tcsip.Receivers

namespace Receivers

/-! ## The encoder of `g711.c` -/

/-- The loop of `MuLaw_Encode`: the position of the leading bit, or 4. -/
def muLawPosition (number : BitVec 16) : BitVec 16 → ℕ → ℕ
  | _, 0 => 0
  | mask, position + 1 =>
    if number &&& mask ≠ mask ∧ 5 ≤ position + 1 then
      muLawPosition number (mask >>> 1) position
    else position + 1

/-- `MuLaw_Encode` -/
def muLawEncode (number : BitVec 16) : BitVec 8 :=
  let (number, sign) := if number.slt 0#16 then (-number, 0x80#8) else (number, 0#8)
  let number := number + 33#16
  let number := if (0x1FFF#16).slt number then 0x1FFF#16 else number
  let position := muLawPosition number 0x1000#16 12
  let lsb := (number.sshiftRight (position - 4)).setWidth 8 &&& 0x0F#8
  ~~~(sign ||| (BitVec.ofNat 8 position - 5#8) <<< 4 ||| lsb)

example : (muLawDecode (muLawEncode 32740#16)).toInt = -5471 := by decide

/-- The loop of `rtp_send_pcmu`. -/
def encodeLoop (ibuf : List (BitVec 16)) : List Byte :=
  ibuf.map fun x => BigEndian.byte (muLawEncode x).toNat

/-- The `short` at an address, the low byte first. -/
def shortAt (data : ℕ → Byte) (a : ℕ) : BitVec 16 :=
  BitVec.ofNat 16 ((data a).val + 256 * (data (a + 1)).val)

/-- `n` of them in a row. -/
def shortsAt (data : ℕ → Byte) (a n : ℕ) : List (BitVec 16) :=
  (List.range n).map fun i => shortAt data (a + 2 * i)

/-- What comes back of one sample. -/
def heard (x : BitVec 16) : BitVec 16 := muLawDecode (muLawEncode x)

/-! ## The scan -/

theorem and_twoPow_eq_iff {n : BitVec 16} {k : ℕ} (hk : k < 16) :
    n &&& BitVec.twoPow 16 k = BitVec.twoPow 16 k ↔ n.getLsbD k = true := by
  have hne : (0#16 : BitVec 16) ≠ BitVec.twoPow 16 k := by
    intro h
    have hval := congrArg BitVec.toNat h
    rw [BitVec.toNat_twoPow_of_lt hk] at hval
    exact absurd hval.symm (Nat.two_pow_pos k).ne'
  rw [BitVec.and_twoPow]
  cases n.getLsbD k with
  | true => simp
  | false => simpa using hne

theorem twoPow_ushiftRight_one {k : ℕ} (hk : k + 1 < 16) :
    BitVec.twoPow 16 (k + 1) >>> 1 = BitVec.twoPow 16 k := by
  apply BitVec.eq_of_toNat_eq
  rw [BitVec.toNat_ushiftRight, BitVec.toNat_twoPow_of_lt hk, BitVec.toNat_twoPow_of_lt (by omega),
    Nat.shiftRight_eq_div_pow, pow_one, pow_succ, Nat.mul_div_cancel _ (by decide)]

/-- **The scan** ends at the leading bit, and at 4 if there is none from 5 on. -/
theorem muLawPosition_eq {n : BitVec 16} {p k : ℕ} (h4 : 4 ≤ p) (hpk : p ≤ k) (hk : k < 16)
    (hbit : p = 4 ∨ n.getLsbD p = true) (hzero : ∀ j, p < j → j ≤ k → n.getLsbD j = false) :
    muLawPosition n (BitVec.twoPow 16 k) k = p := by
  induction k, hpk using Nat.le_induction with
  | base =>
      obtain ⟨q, rfl⟩ : ∃ q, p = q + 1 := ⟨p - 1, by omega⟩
      rw [muLawPosition, if_neg]
      rintro ⟨hne, h5⟩
      exact hne ((and_twoPow_eq_iff hk).mpr (hbit.resolve_left (by omega)))
  | succ k hpk ih =>
      have hclear : n &&& BitVec.twoPow 16 (k + 1) ≠ BitVec.twoPow 16 (k + 1) := by
        rw [Ne, and_twoPow_eq_iff hk, hzero (k + 1) (by omega) le_rfl]
        exact Bool.false_ne_true
      rw [muLawPosition, if_pos ⟨hclear, by omega⟩, twoPow_ushiftRight_one hk]
      exact ih (by omega) fun j hj hjk => hzero j hj (by omega)

/-! ## A code and its value -/

/-- The last two lines of `MuLaw_Encode`. -/
def muLawCode (number : BitVec 16) (sign : BitVec 8) : BitVec 8 :=
  let position := muLawPosition number 0x1000#16 12
  let lsb := (number.sshiftRight (position - 4)).setWidth 8 &&& 0x0F#8
  ~~~(sign ||| (BitVec.ofNat 8 position - 5#8) <<< 4 ||| lsb)

/-- The value of a code in segment `e`. -/
theorem muLawDecode_segment (e : Fin 8) (l : Fin 16) :
    (muLawDecode (~~~(0#8 ||| (BitVec.ofNat 8 (e + 5) - 5#8) <<< 4 ||| BitVec.ofNat 8 l))).toInt =
      ((16 + l) * 2 ^ (e + 1 : ℕ) + 2 ^ (e : ℕ) - 33 : ℤ) ∧
    (muLawDecode (~~~(0x80#8 ||| (BitVec.ofNat 8 (e + 5) - 5#8) <<< 4 |||
        BitVec.ofNat 8 l))).toInt =
      -((16 + l) * 2 ^ (e + 1 : ℕ) + 2 ^ (e : ℕ) - 33 : ℤ) := by
  revert e l
  decide +kernel

/-- The value of a code from behind the last segment. -/
theorem muLawDecode_wrapped (l : Fin 16) :
    (muLawDecode (~~~(0#8 ||| (BitVec.ofNat 8 4 - 5#8) <<< 4 ||| BitVec.ofNat 8 l))).toInt =
      -(4191 + 256 * l : ℤ) ∧
    (muLawDecode (~~~(0x80#8 ||| (BitVec.ofNat 8 4 - 5#8) <<< 4 ||| BitVec.ofNat 8 l))).toInt =
      -(4191 + 256 * l : ℤ) := by
  revert l
  decide +kernel

theorem lsb_eq {n : BitVec 16} {k : ℕ} (h : n.toNat < 2 ^ 15 ∨ k = 0) :
    (n.sshiftRight k).setWidth 8 &&& 0x0F#8 = BitVec.ofNat 8 (n.toNat / 2 ^ k % 16) := by
  have hshift : n.sshiftRight k = n >>> k := by
    rcases h with h | rfl
    · apply BitVec.sshiftRight_eq_of_msb_false
      rw [BitVec.msb_eq_false_iff_two_mul_lt]
      omega
    · rw [BitVec.sshiftRight_zero, BitVec.ushiftRight_zero]
  have hand (a : ℕ) : a &&& 15 = a % 16 := Nat.and_two_pow_sub_one_eq_mod a 4
  apply BitVec.eq_of_toNat_eq
  rw [hshift, BitVec.toNat_and, BitVec.toNat_setWidth, BitVec.toNat_ushiftRight,
    Nat.shiftRight_eq_div_pow, BitVec.toNat_ofNat, BitVec.toNat_ofNat]
  have h15 : 15 % 2 ^ 8 = 15 := rfl
  rw [h15, hand]
  omega

/-- What is kept of a biased magnitude: the beginning of its step, half a step on, less the
bias. -/
def kept (m : ℕ) : ℕ :=
  m / 2 ^ (m.log2 - 4) * 2 ^ (m.log2 - 4) + 2 ^ (m.log2 - 5) - 33

section kept

variable {m : ℕ}

theorem log2_bounds (hlo : 33 ≤ m) (hhi : m ≤ 8191) : 5 ≤ m.log2 ∧ m.log2 ≤ 12 := by
  constructor
  · exact (Nat.le_log2 (by omega)).mpr (by omega)
  · exact Nat.lt_succ_iff.mp ((Nat.log2_lt (by omega)).mpr (by omega))

/-- The steps of a segment are counted from 16 to 31. -/
theorem step_bounds (hlo : 33 ≤ m) (hhi : m ≤ 8191) :
    16 ≤ m / 2 ^ (m.log2 - 4) ∧ m / 2 ^ (m.log2 - 4) < 32 := by
  have h4 : 4 ≤ m.log2 := le_trans (by decide) (log2_bounds hlo hhi).1
  have hm : m ≠ 0 := by omega
  have hpow : 2 ^ m.log2 = 16 * 2 ^ (m.log2 - 4) := by
    rw [← Nat.sub_add_cancel h4, pow_add, Nat.add_sub_cancel]
    ring
  constructor
  · rw [Nat.le_div_iff_mul_le (Nat.two_pow_pos _), ← hpow]
    exact Nat.log2_self_le hm
  · rw [Nat.div_lt_iff_lt_mul (Nat.two_pow_pos _)]
    calc m < 2 ^ (m.log2 + 1) := Nat.lt_log2_self
      _ = 32 * 2 ^ (m.log2 - 4) := by rw [pow_succ, hpow]; ring

/-- The first of these steps is not below the bias. -/
theorem bias_le_step (hlo : 33 ≤ m) (hhi : m ≤ 8191) :
    33 ≤ m / 2 ^ (m.log2 - 4) * 2 ^ (m.log2 - 4) + 2 ^ (m.log2 - 5) := by
  obtain ⟨h5, h12⟩ := log2_bounds hlo hhi
  obtain ⟨h16, h32⟩ := step_bounds hlo hhi
  have h2 : 2 ^ 1 ≤ 2 ^ (m.log2 - 4) := Nat.pow_le_pow_right (by decide) (by omega)
  have h1 : 0 < 2 ^ (m.log2 - 5) := Nat.two_pow_pos _
  have hmul := Nat.mul_le_mul h16 h2
  omega

theorem cast_kept (hlo : 33 ≤ m) (hhi : m ≤ 8191) :
    (kept m : ℤ) = (16 + (m / 2 ^ (m.log2 - 4) % 16 : ℕ)) * 2 ^ (m.log2 - 4) +
      2 ^ (m.log2 - 5) - 33 := by
  obtain ⟨h16, h32⟩ := step_bounds hlo hhi
  have hstep : 16 + m / 2 ^ (m.log2 - 4) % 16 = m / 2 ^ (m.log2 - 4) := by omega
  have hnat : kept m + 33 =
      (16 + m / 2 ^ (m.log2 - 4) % 16) * 2 ^ (m.log2 - 4) + 2 ^ (m.log2 - 5) := by
    rw [hstep]
    exact Nat.sub_add_cancel (bias_le_step hlo hhi)
  rw [eq_sub_iff_add_eq]
  exact_mod_cast hnat

/-- **A biased magnitude comes back as what is kept of it**, with the sign it was given. -/
theorem muLawDecode_code {n : BitVec 16} (hlo : 33 ≤ n.toNat) (hhi : n.toNat ≤ 8191) :
    (muLawDecode (muLawCode n 0#8)).toInt = kept n.toNat ∧
    (muLawDecode (muLawCode n 0x80#8)).toInt = -(kept n.toNat : ℤ) := by
  obtain ⟨h5, h12⟩ := log2_bounds hlo hhi
  have hm : n.toNat ≠ 0 := by omega
  obtain ⟨h16, h32⟩ := step_bounds hlo hhi
  have hpos : muLawPosition n 0x1000#16 12 = n.toNat.log2 := by
    refine muLawPosition_eq (by omega) h12 (by decide) (Or.inr ?_) fun j hj hjk => ?_
    · exact Nat.testBit_of_two_pow_le_and_two_pow_add_one_gt (Nat.log2_self_le hm) Nat.lt_log2_self
    · apply Nat.testBit_lt_two_pow
      exact Nat.lt_log2_self.trans_le (Nat.pow_le_pow_right (by decide) hj)
  have htable := muLawDecode_segment ⟨n.toNat.log2 - 5, by omega⟩
    ⟨n.toNat / 2 ^ (n.toNat.log2 - 4) % 16, Nat.mod_lt _ (by decide)⟩
  have he : n.toNat.log2 - 5 + 5 = n.toNat.log2 := Nat.sub_add_cancel h5
  have he1 : n.toNat.log2 - 5 + 1 = n.toNat.log2 - 4 := by omega
  unfold muLawCode
  rw [hpos]
  dsimp only
  rw [lsb_eq (Or.inl (hhi.trans_lt (by decide))), cast_kept hlo hhi]
  dsimp only at htable
  rw [he, he1] at htable
  exact htable

/-- **What is kept grows with the magnitude.** -/
theorem kept_mono {m' : ℕ} (hlo : 33 ≤ m) (h : m ≤ m') (hhi : m' ≤ 8191) : kept m ≤ kept m' := by
  obtain ⟨h5, h12⟩ := log2_bounds hlo (h.trans hhi)
  obtain ⟨h5', h12'⟩ := log2_bounds (hlo.trans h) hhi
  have hlog : m.log2 ≤ m'.log2 :=
    (Nat.le_log2 (by omega)).mpr ((Nat.log2_self_le (by omega)).trans h)
  apply Nat.sub_le_sub_right
  rcases hlog.lt_or_eq with hlt | heq
  · obtain ⟨h16, h32⟩ := step_bounds hlo (h.trans hhi)
    obtain ⟨h16', h32'⟩ := step_bounds (hlo.trans h) hhi
    have hhalf : 2 ^ (m.log2 - 5) ≤ 2 ^ (m.log2 - 4) :=
      Nat.pow_le_pow_right (by decide) (by omega)
    have hq' : 2 ^ (m.log2 - 4) * 2 ≤ 2 ^ (m'.log2 - 4) := by
      rw [← pow_succ]
      exact Nat.pow_le_pow_right (by decide) (by omega)
    calc m / 2 ^ (m.log2 - 4) * 2 ^ (m.log2 - 4) + 2 ^ (m.log2 - 5)
        ≤ 31 * 2 ^ (m.log2 - 4) + 2 ^ (m.log2 - 4) := by
          have hmul := Nat.mul_le_mul_right (2 ^ (m.log2 - 4)) (Nat.lt_succ_iff.mp h32)
          omega
      _ ≤ 16 * 2 ^ (m'.log2 - 4) := by omega
      _ ≤ m' / 2 ^ (m'.log2 - 4) * 2 ^ (m'.log2 - 4) := Nat.mul_le_mul_right _ h16'
      _ ≤ m' / 2 ^ (m'.log2 - 4) * 2 ^ (m'.log2 - 4) + 2 ^ (m'.log2 - 5) := Nat.le_add_right _ _
  · rw [heq]
    exact Nat.add_le_add_right (Nat.mul_le_mul_right _ (Nat.div_le_div_right h)) _

/-- The last segment. -/
theorem kept_last (hlo : 4096 ≤ m) (hhi : m ≤ 8191) : kept m = m / 256 * 256 + 95 := by
  have hlog : m.log2 = 12 := by
    have hle := (log2_bounds (by omega) hhi).2
    have hge : 12 ≤ m.log2 := (Nat.le_log2 (by omega)).mpr hlo
    omega
  rw [kept, hlog]
  omega

/-- What is kept of a small magnitude is not above the last segment. -/
theorem kept_le_iff {k : ℕ} (hlo : 33 ≤ m) (hhi : m ≤ 8191) :
    kept m ≤ 4191 + 256 * k ↔ m < 4352 + 256 * k := by
  by_cases hm : 4096 ≤ m
  · rw [kept_last hm hhi]
    omega
  · have hle := kept_mono hlo (by omega) (by decide : 4096 ≤ 8191)
    rw [kept_last le_rfl (by decide)] at hle
    omega

theorem kept_pos (hlo : 34 ≤ m) (hhi : m ≤ 8191) : 0 < kept m :=
  lt_of_lt_of_le (by decide : 0 < kept 34) (kept_mono (by decide) hlo hhi)

/-- From behind the last segment the sign is always that of a negative sample. -/
theorem muLawDecode_code_wrapped {n : BitVec 16} (hlo : 0x8000 ≤ n.toNat)
    (hhi : n.toNat < 0x8020) :
    (muLawDecode (muLawCode n 0#8)).toInt = -(4191 + 256 * (n.toNat % 16) : ℤ) ∧
    (muLawDecode (muLawCode n 0x80#8)).toInt = -(4191 + 256 * (n.toNat % 16) : ℤ) := by
  have hpos : muLawPosition n 0x1000#16 12 = 4 := by
    refine muLawPosition_eq (p := 4) (k := 12) le_rfl (by decide) (by decide) (Or.inl rfl)
      fun j hj hjk => ?_
    have hsub : n.toNat = 2 ^ 15 + (n.toNat - 2 ^ 15) := by omega
    rw [BitVec.getLsbD, hsub, Nat.testBit_two_pow_add_gt (by omega)]
    apply Nat.testBit_lt_two_pow
    calc n.toNat - 2 ^ 15 < 2 ^ 5 := by omega
      _ ≤ 2 ^ j := Nat.pow_le_pow_right (by decide) hj
  have htable := muLawDecode_wrapped ⟨n.toNat % 16, Nat.mod_lt _ (by decide)⟩
  unfold muLawCode
  rw [hpos]
  dsimp only
  rw [Nat.sub_self, lsb_eq (Or.inr rfl), pow_zero, Nat.div_one]
  exact htable

end kept

/-! ## One sample -/

/-- The magnitude, as `MuLaw_Encode` negates it: 16 bits. -/
def magnitude (x : BitVec 16) : BitVec 16 := if x.slt 0#16 then -x else x

/-- The bias and the clamp. -/
def biased (number : BitVec 16) : BitVec 16 :=
  let number := number + 33#16
  if (0x1FFF#16).slt number then 0x1FFF#16 else number

theorem muLawEncode_eq (x : BitVec 16) :
    muLawEncode x = muLawCode (biased (magnitude x)) (if x.slt 0#16 then 0x80#8 else 0#8) := by
  unfold muLawEncode magnitude
  by_cases h : x.slt 0#16 = true
  · simp only [if_pos h]
    rfl
  · simp only [if_neg h]
    rfl

theorem slt_zero_iff {x : BitVec 16} : x.slt 0#16 = true ↔ x.toInt < 0 := by
  rw [BitVec.slt_iff_toInt_lt]
  rfl

theorem toNat_magnitude (x : BitVec 16) : (magnitude x).toNat = x.toInt.natAbs := by
  unfold magnitude
  split
  · rename_i h
    rw [slt_zero_iff] at h
    rw [BitVec.toNat_neg]
    rw [BitVec.toInt_eq_toNat_cond] at h ⊢
    split at h <;> omega
  · rename_i h
    rw [slt_zero_iff] at h
    rw [BitVec.toInt_eq_toNat_cond] at h ⊢
    split at h <;> omega

theorem toNat_biased {n : BitVec 16} (h : n.toNat ≤ 32768) :
    (biased n).toNat =
      if n.toNat ≤ 32734 then min (n.toNat + 33) 8191 else n.toNat + 33 := by
  have hadd : (n + 33#16).toNat = n.toNat + 33 := by
    rw [BitVec.toNat_add]
    exact Nat.mod_eq_of_lt (by show n.toNat + 33 < 65536; omega)
  have hslt : (0x1FFF#16).slt (n + 33#16) = true ↔ 8191 < n.toNat + 33 ∧ n.toNat ≤ 32734 := by
    rw [BitVec.slt_iff_toInt_lt, BitVec.toInt_eq_toNat_cond (n + 33#16), hadd]
    have h8191 : (0x1FFF#16 : BitVec 16).toInt = 8191 := rfl
    rw [h8191]
    split <;> omega
  unfold biased
  dsimp only
  by_cases hclamp : (0x1FFF#16).slt (n + 33#16) = true
  · have hn := hslt.mp hclamp
    rw [if_pos hclamp, if_pos hn.2, min_eq_right (by omega)]
    rfl
  · rw [if_neg hclamp, hadd]
    rw [hslt] at hclamp
    split <;> omega

/-- What comes back of a sample of this value. -/
def heardInt (t : ℤ) : ℤ :=
  if t.natAbs ≤ 32734 then t.sign * kept (min (t.natAbs + 33) 8191)
  else if t.natAbs ≤ 32766 then -(4191 + 256 * ((t.natAbs + 33) % 16 : ℕ))
  else 0

theorem toInt_heard (x : BitVec 16) : (heard x).toInt = heardInt x.toInt := by
  have hlo : -32768 ≤ x.toInt := BitVec.le_toInt x
  have hhi : x.toInt < 32768 := BitVec.toInt_lt
  have hbiased := toNat_biased (n := magnitude x) (by rw [toNat_magnitude]; omega)
  rw [toNat_magnitude] at hbiased
  unfold heard heardInt
  rw [muLawEncode_eq]
  by_cases hclean : x.toInt.natAbs ≤ 32734
  · rw [if_pos hclean] at hbiased ⊢
    have hcode := muLawDecode_code (n := biased (magnitude x)) (by omega) (by omega)
    rw [hbiased] at hcode
    by_cases hneg : x.toInt < 0
    · rw [if_pos (slt_zero_iff.mpr hneg), Int.sign_eq_neg_one_of_neg hneg, hcode.2, neg_one_mul]
    · rw [if_neg (mt slt_zero_iff.mp hneg), hcode.1]
      rcases eq_or_ne x.toInt 0 with h0 | h0
      · rw [h0]
        rfl
      · rw [Int.sign_eq_one_of_pos (by omega), one_mul]
  · rw [if_neg hclean] at hbiased ⊢
    by_cases hdeep : x.toInt.natAbs ≤ 32766
    · have hcode := muLawDecode_code_wrapped (n := biased (magnitude x)) (by omega) (by omega)
      rw [hbiased] at hcode
      rw [if_pos hdeep]
      split
      · exact hcode.2
      · exact hcode.1
    · rw [if_neg hdeep, ← muLawEncode_eq]
      -- three samples are left
      have hx : x = 32767#16 ∨ x = -32767#16 ∨ x = -32768#16 := by
        have hval : x.toInt = 32767 ∨ x.toInt = -32767 ∨ x.toInt = -32768 := by omega
        rcases hval with h | h | h
        · exact Or.inl (BitVec.eq_of_toInt_eq h)
        · exact Or.inr (Or.inl (BitVec.eq_of_toInt_eq h))
        · exact Or.inr (Or.inr (BitVec.eq_of_toInt_eq h))
      rcases hx with rfl | rfl | rfl <;> decide

section values

variable {t u : ℤ}

theorem heardInt_of_nonneg (h0 : 0 ≤ t) (h : t ≤ 32734) :
    heardInt t = kept (min (t.natAbs + 33) 8191) := by
  rw [heardInt, if_pos (by omega)]
  rcases h0.eq_or_lt with rfl | hpos
  · rfl
  · rw [Int.sign_eq_one_of_pos hpos, one_mul]

theorem heardInt_of_neg (h0 : t < 0) (h : -32734 ≤ t) :
    heardInt t = -(kept (min (t.natAbs + 33) 8191) : ℤ) := by
  rw [heardInt, if_pos (by omega), Int.sign_eq_neg_one_of_neg h0, neg_one_mul]

theorem heardInt_of_wrapped (hlo : 32735 ≤ t.natAbs) (hhi : t.natAbs ≤ 32766) :
    heardInt t = -(4191 + 256 * ((t.natAbs + 33) % 16 : ℕ)) := by
  rw [heardInt, if_neg (by omega), if_pos hhi]

theorem heardInt_of_end (h : 32767 ≤ t.natAbs) : heardInt t = 0 := by
  rw [heardInt, if_neg (by omega), if_neg (by omega)]

/-- **The sign is kept** except where the bias wraps a positive sample. -/
theorem heardInt_sign_iff :
    (0 ≤ t → 0 ≤ heardInt t) ∧ (t ≤ 0 → heardInt t ≤ 0) ↔ ¬ (32735 ≤ t ∧ t ≤ 32766) := by
  rcases le_or_gt 32767 t.natAbs with hend | hend
  · rw [heardInt_of_end hend]
    omega
  rcases le_or_gt 32735 t.natAbs with hwrap | hclean
  · rw [heardInt_of_wrapped hwrap (by omega)]
    omega
  rcases le_or_gt 0 t with h0 | h0
  · rw [heardInt_of_nonneg h0 (by omega)]
    refine iff_of_true ⟨fun _ => Int.natCast_nonneg _, fun hle => ?_⟩ (by omega)
    obtain rfl : t = 0 := by omega
    decide
  · rw [heardInt_of_neg h0 (by omega)]
    omega

/-- Samples that do not wrap keep their order. -/
theorem heardInt_mono (ht : t.natAbs ≤ 32734) (hu : u.natAbs ≤ 32734) (htu : t ≤ u) :
    heardInt t ≤ heardInt u := by
  rcases le_or_gt 0 t with h0 | h0
  · rw [heardInt_of_nonneg h0 (by omega), heardInt_of_nonneg (by omega) (by omega)]
    exact_mod_cast kept_mono (by omega) (by omega) (by omega)
  rcases le_or_gt 0 u with hu0 | hu0
  · rw [heardInt_of_neg h0 (by omega), heardInt_of_nonneg hu0 (by omega)]
    omega
  · rw [heardInt_of_neg h0 (by omega), heardInt_of_neg hu0 (by omega)]
    have hmono : kept (min (u.natAbs + 33) 8191) ≤ kept (min (t.natAbs + 33) 8191) :=
      kept_mono (by omega) (by omega) (by omega)
    omega

/-- When the order of `t ≤ u` survives, given that no positive sample wraps.  The three lowest and
the highest magnitudes come back as silence, the wrapped ones by the low bits of the biased
magnitude. -/
def PairKept (t u : ℤ) : Prop :=
  if t ≤ -32767 then u ≤ -32767 ∨ 0 ≤ u
  else if t ≤ -32735 then
    if u ≤ -32735 then (33 - u) % 16 ≤ (33 - t) % 16
    else u < 0 → min (33 - u) 8191 < 4352 + 256 * ((33 - t) % 16)
  else u = 32767 → t ≤ 0 ∨ t = 32767

theorem heardInt_neg_of_neg (h0 : t < 0) (h : -32767 < t) : heardInt t < 0 := by
  rcases le_or_gt 32735 t.natAbs with hwrap | hclean
  · rw [heardInt_of_wrapped hwrap (by omega)]
    omega
  · rw [heardInt_of_neg h0 (by omega)]
    have hpos := kept_pos (m := min (t.natAbs + 33) 8191) (by omega) (by omega)
    omega

theorem heardInt_pos_of_pos (h0 : 0 < t) (h : t ≤ 32734) : 0 < heardInt t := by
  rw [heardInt_of_nonneg h0.le h]
  exact_mod_cast kept_pos (m := min (t.natAbs + 33) 8191) (by omega) (by omega)

theorem heardInt_le_iff (htu : t ≤ u) (hlo : -32768 ≤ t) (hhi : u ≤ 32767)
    (ht : ¬ (32735 ≤ t ∧ t ≤ 32766)) (hu : ¬ (32735 ≤ u ∧ u ≤ 32766)) :
    heardInt t ≤ heardInt u ↔ PairKept t u := by
  have hsign := (heardInt_sign_iff (t := u)).mpr hu
  unfold PairKept
  split_ifs with hend hwrap huwrap
  · rw [heardInt_of_end (t := t) (by omega)]
    constructor
    · intro h
      by_contra hneg
      have := heardInt_neg_of_neg (t := u) (by omega) (by omega)
      omega
    · rintro (h | h)
      · rw [heardInt_of_end (by omega)]
      · exact hsign.1 h
  · rw [heardInt_of_wrapped (t := t) (by omega) (by omega),
      heardInt_of_wrapped (t := u) (by omega) (by omega)]
    omega
  · rw [heardInt_of_wrapped (t := t) (by omega) (by omega)]
    rcases lt_or_ge u 0 with hu0 | hu0
    · have hkept := kept_le_iff (m := min (u.natAbs + 33) 8191) (k := (t.natAbs + 33) % 16)
        (by omega) (by omega)
      rw [heardInt_of_neg hu0 (by omega)]
      omega
    · have := hsign.1 hu0
      omega
  · rcases le_or_gt u 32734 with hu' | hu'
    · exact iff_of_true (heardInt_mono (by omega) (by omega) htu) (by omega)
    · rw [heardInt_of_end (t := u) (by omega)]
      rcases le_or_gt t 0 with h0 | h0
      · exact iff_of_true ((heardInt_sign_iff.mpr ht).2 h0) fun _ => Or.inl h0
      rcases le_or_gt t 32734 with ht' | ht'
      · have := heardInt_pos_of_pos h0 ht'
        omega
      · rw [heardInt_of_end (by omega)]
        omega

end values

/-! ## A block of samples -/

theorem shortsAt_succ (data : ℕ → Byte) (a n : ℕ) :
    shortsAt data a (n + 1) = shortAt data a :: shortsAt data (a + 2) n := by
  unfold shortsAt
  rw [List.range_succ_eq_map, List.map_cons, List.map_map]
  congr 1
  apply List.map_congr_left
  intro i _
  simp only [Function.comp, Nat.succ_eq_add_one, Nat.mul_add, Nat.add_assoc, Nat.add_comm,
    Nat.mul_one]

/-- A `short` is read back. -/
theorem shortAt_write (data : ℕ → Byte) (a : ℕ) (v : BitVec 16) (bs : List Byte) :
    shortAt (Memory.write data a (shortBytes v ++ bs)) a = v := by
  have h0 : Memory.write data a (shortBytes v ++ bs) a = BigEndian.byte v.toNat := by
    rw [Memory.write, if_pos le_rfl, Nat.sub_self]
    rfl
  have h1 : Memory.write data a (shortBytes v ++ bs) (a + 1) = BigEndian.byte (v.toNat / 256) := by
    rw [Memory.write, if_pos (Nat.le_succ a), Nat.add_sub_cancel_left]
    rfl
  have hv := v.isLt
  apply BitVec.eq_of_toNat_eq
  rw [shortAt, h0, h1, BitVec.toNat_ofNat]
  show (v.toNat % 256 + 256 * (v.toNat / 256 % 256)) % 65536 = v.toNat
  omega

theorem shortsAt_pcmBytes (data : ℕ → Byte) (a : ℕ) (ibuf : List Byte) :
    shortsAt (Memory.write data a (pcmBytes ibuf)) a ibuf.length =
      ibuf.map fun code => muLawDecode (BitVec.ofNat 8 code.val) := by
  induction ibuf generalizing data a with
  | nil => rfl
  | cons code ibuf ih =>
      have hcons : pcmBytes (code :: ibuf) =
          shortBytes (muLawDecode (BitVec.ofNat 8 code.val)) ++ pcmBytes ibuf := rfl
      rw [List.length_cons, shortsAt_succ, hcons, shortAt_write, ← Memory.write_append,
        length_shortBytes, ih, List.map_cons]

/-- What the two loops make of a block: the samples that the receiver's slot at `obuf` holds after
it. -/
def pcmuBlock (data : ℕ → Byte) (obuf : ℕ) (xs : List (BitVec 16)) : List (BitVec 16) :=
  let ibuf := encodeLoop xs
  shortsAt (decodeLoop data obuf ibuf).1 obuf ibuf.length

theorem pcmuBlock_eq (data : ℕ → Byte) (obuf : ℕ) (xs : List (BitVec 16)) :
    pcmuBlock data obuf xs = xs.map heard := by
  unfold pcmuBlock
  dsimp only
  rw [decodeLoop_eq, shortsAt_pcmBytes, encodeLoop, List.map_map]
  apply List.map_congr_left
  intro x _
  have hbyte : BitVec.ofNat 8 (BigEndian.byte (muLawEncode x).toNat).val = muLawEncode x := by
    apply BitVec.eq_of_toNat_eq
    have hlt := (muLawEncode x).isLt
    rw [BitVec.toNat_ofNat]
    show (muLawEncode x).toNat % 256 % 256 = (muLawEncode x).toNat
    omega
  simp only [Function.comp, hbyte, heard]

/-- The samples `ys` are as many as the `xs`, in the same order of size and of the same sign. -/
structure KeepsWaveform (xs ys : List (BitVec 16)) : Prop where
  length : ys.length = xs.length
  order : ∀ p ∈ xs.zip ys, ∀ q ∈ xs.zip ys, p.1.toInt ≤ q.1.toInt → p.2.toInt ≤ q.2.toInt
  nonneg : ∀ p ∈ xs.zip ys, 0 ≤ p.1.toInt → 0 ≤ p.2.toInt
  nonpos : ∀ p ∈ xs.zip ys, p.1.toInt ≤ 0 → p.2.toInt ≤ 0

/-- No sample is in the range where the bias turns it over, and those that come back wrong have
nothing to be out of order with. -/
structure Distinguishable (xs : List (BitVec 16)) : Prop where
  sample : ∀ x ∈ xs, ¬ (32735 ≤ x.toInt ∧ x.toInt ≤ 32766)
  pair : ∀ x ∈ xs, ∀ y ∈ xs, x.toInt ≤ y.toInt → PairKept x.toInt y.toInt

/-- Samples of moderate volume are. -/
theorem distinguishable_of_moderate {xs : List (BitVec 16)}
    (h : ∀ x ∈ xs, x.toInt.natAbs ≤ 32734) : Distinguishable xs := by
  constructor
  · intro x hx
    have := h x hx
    omega
  · intro x hx y hy _
    have := h x hx
    have := h y hy
    unfold PairKept
    rw [if_neg (by omega), if_neg (by omega)]
    omega

/-- **PCMU keeps order and sign** of a block exactly if its samples are distinguishable. -/
theorem pcmuBlock_keeps_iff (data : ℕ → Byte) (obuf : ℕ) (xs : List (BitVec 16)) :
    KeepsWaveform xs (pcmuBlock data obuf xs) ↔ Distinguishable xs := by
  have hmem {x : BitVec 16} (hx : x ∈ xs) : (x, heard x) ∈ xs.zip (pcmuBlock data obuf xs) := by
    rw [pcmuBlock_eq, ← List.map_prod_left_eq_zip]
    exact List.mem_map_of_mem hx
  have hle (x : BitVec 16) : -32768 ≤ x.toInt ∧ x.toInt ≤ 32767 :=
    ⟨BitVec.le_toInt x, Int.lt_add_one_iff.mp BitVec.toInt_lt⟩
  constructor
  · intro h
    have hsample : ∀ x ∈ xs, ¬ (32735 ≤ x.toInt ∧ x.toInt ≤ 32766) := by
      intro x hx
      have hnonneg := h.nonneg _ (hmem hx)
      have hnonpos := h.nonpos _ (hmem hx)
      rw [toInt_heard] at hnonneg hnonpos
      exact heardInt_sign_iff.mp ⟨hnonneg, hnonpos⟩
    refine ⟨hsample, fun x hx y hy hxy => ?_⟩
    have horder := h.order _ (hmem hx) _ (hmem hy) hxy
    rw [toInt_heard, toInt_heard] at horder
    exact (heardInt_le_iff hxy (hle x).1 (hle y).2 (hsample x hx) (hsample y hy)).mp horder
  · intro h
    constructor
    · rw [pcmuBlock_eq, List.length_map]
    all_goals
      rw [pcmuBlock_eq, ← List.map_prod_left_eq_zip]
      intro p hp
      obtain ⟨x, hx, rfl⟩ := List.mem_map.mp hp
    · intro q hq hxy
      obtain ⟨y, hy, rfl⟩ := List.mem_map.mp hq
      rw [toInt_heard, toInt_heard]
      exact (heardInt_le_iff hxy (hle x).1 (hle y).2 (h.sample x hx) (h.sample y hy)).mpr
        (h.pair x hx y hy hxy)
    · rw [toInt_heard]
      exact (heardInt_sign_iff.mpr (h.sample x hx)).1
    · rw [toInt_heard]
      exact (heardInt_sign_iff.mpr (h.sample x hx)).2

/-- The loudest sample comes back as silence, below the softest. -/
theorem pcmuBlock_loudest :
    ¬ ∀ (data : ℕ → Byte) (obuf : ℕ) (xs : List (BitVec 16)),
      KeepsWaveform xs (pcmuBlock data obuf xs) := by
  intro h
  have horder := (h (fun _ => BigEndian.byte 0) 0 [1#16, 32767#16]).order
  rw [pcmuBlock_eq] at horder
  have hlt := horder (1#16, heard 1#16) (by decide) (32767#16, heard 32767#16) (by decide)
    (by decide)
  exact absurd hlt (by decide)

end Receivers
