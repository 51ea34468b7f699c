/-
# When a certificate ends

A certificate says when it ends in digits: two for the year if that is from 1950 to 2049, else
four.  `cert_time` has `strptime` read them and `timegm` count the seconds, and returns an
`int`, which a login compares with the clock.

On the way the two digits 50 to 68 become years of this century, and seconds from `2 ^ 31` on
become negative.  The first does no harm, as what is read then is a negative `int` too, and the
certificate has ended either way.  So a login judges the end of a certificate rightly at all
times exactly if it lies before `2 ^ 31` (`timedOut_iff`).
-/
import Tcsip.CTime
import Tcsip.Certificate

open CTime

namespace CertTime

/-! ## The code -/

/-- `V_ASN1_UTCTIME`, `V_ASN1_GENERALIZEDTIME` and the other types. -/
inductive Asn1Type where
  | utcTime
  | generalizedTime
  | other
  deriving DecidableEq

/-- `ASN1_TIME` -/
structure Asn1Time where
  type : Asn1Type
  data : Text
  deriving DecidableEq

/-- The conversions `%y`, `%Y`, `%m`, `%d`, `%H`, `%M` and `%S`. -/
inductive Field where
  | y
  | Y
  | m
  | d
  | H
  | M
  | S
  deriving DecidableEq

/-- What is read for a conversion, and the text behind it. -/
def Field.read (s : Text) : Field → Option (ℕ × Text)
  | .y => getNumber 0 99 2 s
  | .Y => getNumber 0 9999 4 s
  | .m => getNumber 1 12 2 s
  | .d => getNumber 1 31 2 s
  | .H => getNumber 0 23 2 s
  | .M => getNumber 0 59 2 s
  | .S => getNumber 0 61 2 s

/-- Years of two digits begin with 1969. -/
def Field.set (tm : Tm) (v : ℕ) : Field → Tm
  | .y => { tm with year := if 69 ≤ v then v else v + 100 }
  | .Y => { tm with year := v - 1900 }
  | .m => { tm with mon := v - 1 }
  | .d => { tm with mday := v }
  | .H => { tm with hour := v }
  | .M => { tm with min := v }
  | .S => { tm with sec := v }

/-- `strptime` with a format of these conversions only.  It derives the day of the week as well,
which `timegm` does not look at. -/
def readFields : List Field → Text → Tm → Option Tm
  | [], _, tm => some tm
  | c :: f, s, tm => (c.read s).bind fun r => readFields f r.2 (c.set tm r.1)

/-- `%y%m%d%H%M%S` -/
def utcFormat : List Field := [.y, .m, .d, .H, .M, .S]

/-- `%Y%m%d%H%M%S` -/
def generalizedFormat : List Field := [.Y, .m, .d, .H, .M, .S]

/-- `cert_time`; `tv` is what the stack holds. -/
def certTime (asntime : Asn1Time) (tv : Tm) : ℤ :=
  let ptime := match asntime.type with
    | .utcTime => readFields utcFormat asntime.data tv
    | .generalizedTime => readFields generalizedFormat asntime.data tv
    | .other => none
  match ptime with
  | none => 0
  | some tv => (timegm tv).bmod (2 ^ 32)

/-! ## What a certificate says -/

/-- The number that stands for a conversion. -/
def Field.shown (tm : Tm) : Field → ℕ
  | .y => ((tm.year + 1900) % 100).toNat
  | .Y => (tm.year + 1900).toNat
  | .m => (tm.mon + 1).toNat
  | .d => tm.mday.toNat
  | .H => tm.hour.toNat
  | .M => tm.min.toNat
  | .S => tm.sec.toNat

/-- How many digits it has. -/
def Field.width : Field → ℕ
  | .Y => 4
  | _ => 2

def fieldsText (tm : Tm) (f : List Field) : Text :=
  f.flatMap fun c => padded c.width (c.shown tm)

/-- The year of a time. -/
def yearOf (t : ℤ) : ℤ := (gmtime t).year + 1900

/-- How certificates state a time. -/
def derTime (t : ℤ) : Asn1Time :=
  if 1950 ≤ yearOf t ∧ yearOf t ≤ 2049 then
    ⟨.utcTime, fieldsText (gmtime t) utcFormat ++ lit "Z"⟩
  else ⟨.generalizedTime, fieldsText (gmtime t) generalizedFormat ++ lit "Z"⟩

/-- The time that the digits are taken for: a hundred years late from 1950 to 1968. -/
def takenFor (t : ℤ) : ℤ :=
  if 1950 ≤ yearOf t ∧ yearOf t ≤ 1968 then t + 36525 * 86400 else t

/-! ## Reading the digits -/

/-- A date whose fields all have as many digits as they are given. -/
structure Printable (tm : Tm) : Prop where
  year : 0 ≤ tm.year + 1900 ∧ tm.year + 1900 ≤ 9999
  mon : 0 ≤ tm.mon ∧ tm.mon ≤ 11
  mday : 1 ≤ tm.mday ∧ tm.mday ≤ 31
  hour : 0 ≤ tm.hour ∧ tm.hour ≤ 23
  min : 0 ≤ tm.min ∧ tm.min ≤ 59
  sec : 0 ≤ tm.sec ∧ tm.sec ≤ 59

theorem printable_gmtime {t : ℤ} (h : 0 ≤ yearOf t ∧ yearOf t ≤ 9999) : Printable (gmtime t) := by
  unfold yearOf at h
  obtain ⟨e, y, m, d, hy, hm, hd, -, -, heq⟩ := gmtime_spec t
  rw [heq] at h
  rw [heq]
  refine ⟨h, ?_, ?_, ?_, ?_, ?_⟩ <;> dsimp only <;> omega

theorem Printable.read_shown {tm : Tm} (h : Printable tm) (c : Field) (rest : Text) :
    c.read (padded c.width (c.shown tm) ++ rest) = some (c.shown tm, rest) := by
  obtain ⟨hyear, hmon, hmday, hhour, hmin, hsec⟩ := h
  cases c <;> apply getNumber_padded <;> simp only [Field.width, Field.shown] <;> omega

/-- **The digits of a date are read back**, whatever follows. -/
theorem Printable.readFields_fieldsText {tm : Tm} (h : Printable tm) (f : List Field) (rest : Text)
    (t : Tm) :
    readFields f (fieldsText tm f ++ rest) t =
      some (f.foldl (fun t c => c.set t (c.shown tm)) t) := by
  induction f generalizing t with
  | nil => rfl
  | cons c f ih =>
    have happend : fieldsText tm (c :: f) ++ rest =
        padded c.width (c.shown tm) ++ (fieldsText tm f ++ rest) := by
      rw [fieldsText, List.flatMap_cons, List.append_assoc]
      rfl
    rw [happend, readFields, h.read_shown, Option.bind_some]
    exact ih _

/-- With four digits for the year nothing is lost. -/
theorem Printable.foldl_generalizedFormat {tm : Tm} (h : Printable tm) (t : Tm) :
    generalizedFormat.foldl (fun t c => c.set t (c.shown tm)) t = { tm with wday := t.wday } := by
  obtain ⟨hyear, hmon, hmday, hhour, hmin, hsec⟩ := h
  simp only [generalizedFormat, List.foldl_cons, List.foldl_nil, Field.set, Field.shown,
    Tm.mk.injEq, and_true]
  refine ⟨?_, ?_, ?_, ?_, ?_, ?_⟩ <;> omega

/-- A date of which two digits of the year are known, in the century from 1969 to 2068. -/
def inCentury (tm : Tm) : Tm :=
  { tm with year := if tm.year + 1900 ≤ 1968 then tm.year + 100 else tm.year }

/-- With two digits the century is that one. -/
theorem Printable.foldl_utcFormat {tm : Tm} (h : Printable tm)
    (hyear : 1950 ≤ tm.year + 1900 ∧ tm.year + 1900 ≤ 2049) (t : Tm) :
    utcFormat.foldl (fun t c => c.set t (c.shown tm)) t =
      { inCentury tm with wday := t.wday } := by
  obtain ⟨-, hmon, hmday, hhour, hmin, hsec⟩ := h
  simp only [utcFormat, List.foldl_cons, List.foldl_nil, Field.set, Field.shown, inCentury,
    Tm.mk.injEq, and_true]
  refine ⟨?_, ?_, ?_, ?_, ?_, ?_⟩ <;> (try split_ifs) <;> omega

/-! ## A hundred years later -/

/-- From each of the years 1950 to 1968, a hundred years have the same number of days. -/
theorem sum_take_century : ∀ k < 19,
    146097 + (yearLens.take (50 + k)).sum = (yearLens.take (350 + k)).sum + 36525 := by
  decide +kernel

/-- The months are as long as a hundred years before. -/
theorem monthLens_century : ∀ k : ℕ, k < 19 → monthLens (50 + k) = monthLens (350 + k) := by
  decide +kernel

theorem timegm_century {tm : Tm} (hmon : 0 ≤ tm.mon ∧ tm.mon ≤ 11)
    (hyear : 1950 ≤ tm.year + 1900 ∧ tm.year + 1900 ≤ 1968) :
    timegm { tm with year := tm.year + 100 } = timegm tm + 36525 * 86400 := by
  obtain ⟨k, hk⟩ : ∃ k : ℕ, tm.year = 50 + k := ⟨(tm.year - 50).toNat, by omega⟩
  have hlt : k < 19 := by omega
  have hsum := sum_take_century k hlt
  have hlens : monthLens (2050 + k) = monthLens (1950 + k) := by
    have hlate := monthLens_add 5 (50 + k)
    have hearly := monthLens_add 4 (350 + k)
    rw [show (400 * 5 + (50 + k) : ℤ) = 2050 + k by omega] at hlate
    rw [show (400 * 4 + (350 + k) : ℤ) = 1950 + k by omega] at hearly
    rw [hlate, hearly, monthLens_century k hlt]
  have hlate : tm.year + 100 + 1900 + tm.mon / 12 = 2050 + k := by omega
  have hearly : tm.year + 1900 + tm.mon / 12 = 1950 + k := by omega
  have hsplit : (2050 + k : ℤ) / 400 = 5 ∧ ((2050 + k : ℤ) % 400).toNat = 50 + k ∧
      (1950 + k : ℤ) / 400 = 4 ∧ ((1950 + k : ℤ) % 400).toNat = 350 + k := by omega
  obtain ⟨hera, hin, hera', hin'⟩ := hsplit
  unfold timegm
  simp only [hlate, hearly, hera, hin, hera', hin', hlens]
  omega

/-! ## What is read -/

/-- `timegm` does not look at the day of the week. -/
theorem timegm_wday (tm : Tm) (w : ℤ) : timegm { tm with wday := w } = timegm tm := rfl

/-- What is counted for two digits. -/
theorem timegm_inCentury {t : ℤ} (h : 1950 ≤ yearOf t ∧ yearOf t ≤ 2049)
    (htm : Printable (gmtime t)) : timegm (inCentury (gmtime t)) = takenFor t := by
  by_cases hold : (gmtime t).year + 1900 ≤ 1968
  · have hlate := timegm_century htm.mon ⟨h.1, hold⟩
    rw [timegm_gmtime] at hlate
    rw [inCentury, if_pos hold, takenFor, if_pos ⟨h.1, hold⟩]
    exact hlate
  · rw [inCentury, if_neg hold, takenFor, if_neg fun hboth => hold hboth.2]
    exact timegm_gmtime t

/-- **`cert_time` reads what a certificate states**, up to the century of a year from 1950 to 1968
and to the width of an `int`, whatever the stack holds. -/
theorem certTime_derTime {t : ℤ} (h : 0 ≤ yearOf t ∧ yearOf t ≤ 9999) (tv : Tm) :
    certTime (derTime t) tv = (takenFor t).bmod (2 ^ 32) := by
  have htm := printable_gmtime h
  unfold certTime derTime
  by_cases hutc : 1950 ≤ yearOf t ∧ yearOf t ≤ 2049
  · rw [if_pos hutc]
    dsimp only
    rw [htm.readFields_fieldsText, htm.foldl_utcFormat hutc]
    dsimp only
    rw [timegm_wday, timegm_inCentury hutc htm]
  · have hlate : takenFor t = t := if_neg (by omega)
    rw [if_neg hutc]
    dsimp only
    rw [htm.readFields_fieldsText, htm.foldl_generalizedFormat]
    dsimp only
    rw [timegm_wday, timegm_gmtime, hlate]

/-- The middle of 2040 is read as a time before 1970. -/
theorem certTime_derTime_2040 :
    certTime (derTime 2224000000) (gmtime 0) = 2224000000 - 2 ^ 32 := by
  have hread := certTime_derTime (t := 2224000000) (by decide +kernel) (gmtime 0)
  rw [hread]
  decide +kernel

/-! ## The login -/

/-- A year has 365 or 366 days. -/
theorem sum_take_yearLens : ∀ y < 400, 365 * y ≤ (yearLens.take y).sum ∧
    (yearLens.take y).sum ≤ 366 * y := by
  decide +kernel

/-- The times of a year, roughly. -/
theorem bounds_of_yearOf (t : ℤ) :
    ∃ e : ℤ, ∃ y : ℕ, y < 400 ∧ yearOf t = 400 * e + y ∧
      86400 * (146097 * e + 365 * y - epochDays) ≤ t ∧
      t < 86400 * (146097 * e + 366 * y + 372 - epochDays) := by
  obtain ⟨e, y, m, d, hy, hm, hd, he, hdays, heq⟩ := gmtime_spec t
  have hyears := sum_take_yearLens y hy
  have hmonths : ((monthLens y).take m).sum ≤ m * 31 := by
    have hcard := List.sum_le_card_nsmul ((monthLens y).take m) 31
      fun n hn => le_of_mem_monthLens (List.mem_of_mem_take hn)
    refine hcard.trans ?_
    rw [smul_eq_mul]
    exact Nat.mul_le_mul_right 31 (List.length_take_le m _)
  refine ⟨e, y, hy, ?_, ?_, ?_⟩
  · unfold yearOf
    rw [heq]
    dsimp only
    omega
  · omega
  · omega

theorem neg_le_of_yearOf {t : ℤ} (h : 1950 ≤ yearOf t) : -10 ^ 9 ≤ t := by
  obtain ⟨e, y, hy, hyear, hlo, -⟩ := bounds_of_yearOf t
  unfold epochDays at hlo
  have he : 4 ≤ e := by omega
  rcases he.eq_or_lt with rfl | he <;> omega

theorem neg_of_yearOf {t : ℤ} (h : yearOf t ≤ 1968) : t < 0 := by
  obtain ⟨e, y, hy, hyear, -, hhi⟩ := bounds_of_yearOf t
  unfold epochDays at hhi
  have he : e ≤ 4 := by omega
  rcases he.eq_or_lt with rfl | he <;> omega

/-- A login finds that the certificate has ended, if it can read the address in it. -/
theorem tcsipLocal_eq_three_iff {A : Type*} {env : LoginEnv A} {sip : Tcsip A} {login : Text}
    {i : X509Info} {now : ℤ} {tlsErr : Bool} (h : (env.sipAddrDecode i.cname).2 = false) :
    (tcsipLocal env sip login (some i) now tlsErr).2 = 3 ↔ i.after < now := by
  unfold tcsipLocal
  dsimp only
  rw [h, if_neg Bool.false_ne_true]
  split_ifs with hlt htls <;> simp [hlt]

/-- **A login judges the end of a certificate rightly**, whatever the clock says, exactly if the
certificate ends before `2 ^ 31`. -/
theorem timedOut_iff {A : Type*} (env : LoginEnv A) (sip : Tcsip A) (login subject : Text)
    (residue : List Byte) (tv : Tm) (tlsErr : Bool) {t : ℤ}
    (hyear : 1950 ≤ yearOf t ∧ yearOf t ≤ 9999)
    (hname : (env.sipAddrDecode (cnOf (onelineBuf subject residue))).2 = false) :
    (∀ now : ℤ, 0 ≤ now →
      ((tcsipLocal env sip login
          (x509Info (some (some ⟨subject, certTime (derTime t) tv⟩)) residue).2 now tlsErr).2 = 3 ↔
        t < now)) ↔ t < 2 ^ 31 := by
  have hlo := neg_le_of_yearOf hyear.1
  have hread := certTime_derTime ⟨by omega, hyear.2⟩ tv
  have hverdict : ∀ now, (tcsipLocal env sip login
      (x509Info (some (some ⟨subject, certTime (derTime t) tv⟩)) residue).2 now tlsErr).2 = 3 ↔
        (takenFor t).bmod (2 ^ 32) < now := by
    intro now
    rw [← hread]
    exact tcsipLocal_eq_three_iff hname
  simp only [hverdict]
  constructor
  · intro h
    by_contra hge
    -- at its very end, the certificate has been over for long
    have hnew : takenFor t = t := if_neg fun hold => by have := neg_of_yearOf hold.2; omega
    have hat := (h t (by omega)).mp
    rw [hnew] at hat
    exact lt_irrefl t (hat (by have := Int.bmod_lt (x := t) (m := 2 ^ 32) (by decide); omega))
  · intro hlt now hnow
    by_cases hold : 1950 ≤ yearOf t ∧ yearOf t ≤ 1968
    · -- a hundred years late, it is far enough behind `2 ^ 31` to be negative again
      have hneg := neg_of_yearOf hold.2
      have htaken : (takenFor t).bmod (2 ^ 32) = t + 36525 * 86400 - 2 ^ 32 := by
        have hwrap : (t + 36525 * 86400 - 2 ^ 32).bmod (2 ^ 32) = t + 36525 * 86400 - 2 ^ 32 :=
          Int.bmod_eq_of_le (by omega) (by omega)
        rw [takenFor, if_pos hold, ← hwrap]
        exact (Int.sub_bmod_right _ (2 ^ 32)).symm
      omega
    · rw [takenFor, if_neg hold, Int.bmod_eq_of_le (by omega) (by omega)]

/-- A certificate that ends in 2033 is judged rightly. -/
theorem timedOut_iff_2033 :
    let sip : Tcsip Text := tcsipAlloc
    (∀ now : ℤ, 0 ≤ now →
      ((tcsipLocal textEnv sip (lit "anna")
          (x509Info (some (some ⟨lit "/CN=anna", certTime (derTime 2000000000) (gmtime 0)⟩))
            (List.replicate 91 nul)).2 now false).2 = 3 ↔ 2000000000 < now)) ↔
      (2000000000 : ℤ) < 2 ^ 31 :=
  timedOut_iff textEnv tcsipAlloc (lit "anna") (lit "/CN=anna") (List.replicate 91 nul) (gmtime 0)
    false (by decide +kernel) rfl

end CertTime
