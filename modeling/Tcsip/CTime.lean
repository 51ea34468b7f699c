/-
# Dates in C

`gmtime` breaks a number of seconds down into a date of the calendar, `strftime` prints a date
by a format, `strptime` reads one by a format, and `timegm` gives the seconds of a date.  They
are described as in the C library with its own names of days and months.

`timegm` undoes `gmtime`, and what `strftime` prints by a format is read back by `strptime` with
the same format, whatever follows (`strptime_text`): a format is a list of pieces, and the
lemma on formats is the lemma on one piece, once for each.
-/
import Tcsip.CText

namespace CTime

/-! ## Stretches of unequal length -/

/-- The stretch in which a position lies, and how far it is from the beginning of it. -/
def locate : List ℕ → ℕ → ℕ × ℕ
  | [], d => (0, d)
  | n :: l, d => if d < n then (0, d) else ((locate l (d - n)).1 + 1, (locate l (d - n)).2)

/-- The stretches before the one found, and the distance in it, make up the position. -/
theorem sum_take_locate (l : List ℕ) (d : ℕ) :
    (l.take (locate l d).1).sum + (locate l d).2 = d := by
  induction l generalizing d with
  | nil => simp [locate]
  | cons n l ih =>
    rw [locate]
    split
    · simp
    · rename_i hn
      have hrec := ih (d - n)
      rw [List.take_succ_cons, List.sum_cons]
      omega

/-- A position before the end lies in one of the stretches, and not behind it. -/
theorem locate_lt {l : List ℕ} {d : ℕ} (hd : d < l.sum) :
    ∃ n, l[(locate l d).1]? = some n ∧ (locate l d).2 < n := by
  induction l generalizing d with
  | nil => simp at hd
  | cons n l ih =>
    rw [List.sum_cons] at hd
    rw [locate]
    split
    · rename_i hn
      exact ⟨n, rfl, hn⟩
    · obtain ⟨k, hk, hlt⟩ := ih (d := d - n) (by omega)
      exact ⟨k, by simpa using hk, hlt⟩

/-! ## The calendar -/

def IsLeap (y : ℤ) : Prop := y % 4 = 0 ∧ (y % 100 ≠ 0 ∨ y % 400 = 0)

instance (y : ℤ) : Decidable (IsLeap y) := inferInstanceAs (Decidable (_ ∧ _))

/-- The days of the months of a year. -/
def monthLens (y : ℤ) : List ℕ :=
  [31, if IsLeap y then 29 else 28, 31, 30, 31, 30, 31, 31, 30, 31, 30, 31]

/-- The days of the 400 years after which the calendar repeats. -/
def yearLens : List ℕ := (List.range 400).map fun y : ℕ => (monthLens y).sum

theorem sum_yearLens : yearLens.sum = 146097 := by decide +kernel

theorem of_getElem?_yearLens {y n : ℕ} (h : yearLens[y]? = some n) :
    y < 400 ∧ (monthLens y).sum = n := by
  unfold yearLens at h
  rw [List.getElem?_map, Option.map_eq_some_iff] at h
  obtain ⟨i, hi, rfl⟩ := h
  obtain ⟨hlt, hiy⟩ := List.getElem?_eq_some_iff.mp hi
  rw [List.getElem_range] at hiy
  subst hiy
  exact ⟨by simpa only [List.length_range] using hlt, rfl⟩

/-- No month is longer than 31 days. -/
theorem le_of_mem_monthLens {y : ℤ} {n : ℕ} (h : n ∈ monthLens y) : n ≤ 31 := by
  unfold monthLens at h
  simp only [List.mem_cons, List.not_mem_nil, or_false] at h
  split_ifs at h <;> omega

/-- The calendar repeats after 400 years. -/
theorem isLeap_add (e y : ℤ) : IsLeap (400 * e + y) ↔ IsLeap y := by
  unfold IsLeap
  omega

theorem monthLens_add (e y : ℤ) : monthLens (400 * e + y) = monthLens y := by
  unfold monthLens
  rw [if_congr (isLeap_add e y) rfl rfl]

/-- `struct tm`, the fields that are used: months count from 0, years from 1900, days of the
week from Sunday. -/
structure Tm where
  sec : ℤ
  min : ℤ
  hour : ℤ
  mday : ℤ
  mon : ℤ
  year : ℤ
  wday : ℤ
  deriving DecidableEq

/-- The days from the first of January of the year 0 to that of 1970. -/
def epochDays : ℤ := 719528

/-- `gmtime`: the date and the time of day of a Unix time, in the proleptic Gregorian calendar. -/
def gmtime (t : ℤ) : Tm :=
  let days := t / 86400
  let era := (days + epochDays) / 146097
  let year := locate yearLens ((days + epochDays) % 146097).toNat
  let month := locate (monthLens year.1) year.2
  { sec := t % 60
    min := t / 60 % 60
    hour := t / 3600 % 24
    mday := month.2 + 1
    mon := month.1
    year := 400 * era + year.1 - 1900
    wday := (days + 4) % 7 }

/-- `timegm`; a month outside its range counts towards the year, and days, hours, minutes and
seconds are just added up. -/
def timegm (tm : Tm) : ℤ :=
  let year := tm.year + 1900 + tm.mon / 12
  let days := 146097 * (year / 400) + (yearLens.take (year % 400).toNat).sum
    + ((monthLens year).take (tm.mon % 12).toNat).sum + (tm.mday - 1) - epochDays
  86400 * days + 3600 * tm.hour + 60 * tm.min + tm.sec

/-- What `gmtime` finds: a year of the 400, a month of the year, a day of the month. -/
theorem gmtime_spec (t : ℤ) :
    ∃ e : ℤ, ∃ y m d : ℕ, y < 400 ∧ m < 12 ∧ d < 31 ∧
      e = (t / 86400 + epochDays) / 146097 ∧
      ((yearLens.take y).sum + ((monthLens y).take m).sum + d : ℤ)
        = (t / 86400 + epochDays) % 146097 ∧
      gmtime t = { sec := t % 60, min := t / 60 % 60, hour := t / 3600 % 24, mday := d + 1,
                   mon := m, year := 400 * e + y - 1900, wday := (t / 86400 + 4) % 7 } := by
  have hnonneg : 0 ≤ (t / 86400 + epochDays) % 146097 := Int.emod_nonneg _ (by decide)
  have hlt : (t / 86400 + epochDays) % 146097 < 146097 := Int.emod_lt_of_pos _ (by decide)
  obtain ⟨n, hn⟩ : ∃ n : ℕ, (t / 86400 + epochDays) % 146097 = n := Int.eq_ofNat_of_zero_le hnonneg
  have hyear := sum_take_locate yearLens n
  obtain ⟨k, hk, hyday⟩ := locate_lt (l := yearLens) (d := n) (by rw [sum_yearLens]; omega)
  obtain ⟨hy, rfl⟩ := of_getElem?_yearLens hk
  have hmonth := sum_take_locate (monthLens (locate yearLens n).1) (locate yearLens n).2
  obtain ⟨j, hj, hmday⟩ := locate_lt hyday
  have hm := (List.getElem?_eq_some_iff.mp hj).1
  have hj31 := le_of_mem_monthLens (List.mem_of_getElem? hj)
  refine ⟨_, _, _, _, hy, hm, hmday.trans_le hj31, rfl, ?_, ?_⟩
  · rw [hn]
    omega
  · unfold gmtime
    simp only [hn, Int.toNat_natCast]

/-- **`timegm` undoes `gmtime`.** -/
theorem timegm_gmtime (t : ℤ) : timegm (gmtime t) = t := by
  obtain ⟨e, y, m, d, hy, hm, -, he, hdays, heq⟩ := gmtime_spec t
  rw [heq]
  have hmon : (m : ℤ) / 12 = 0 ∧ ((m : ℤ) % 12).toNat = m := by omega
  have hyear : 400 * e + (y : ℤ) - 1900 + 1900 + 0 = 400 * e + y := by omega
  have hsplit : (400 * e + (y : ℤ)) / 400 = e ∧ ((400 * e + (y : ℤ)) % 400).toNat = y := by omega
  unfold timegm
  simp only [hmon.1, hmon.2, hyear, hsplit.1, hsplit.2, monthLens_add]
  omega

/-! ## Characters -/

/-- `isspace` -/
def IsBlank (c : CChar) : Prop := c.1.1 = 32 ∨ 9 ≤ c.1.1 ∧ c.1.1 ≤ 13

instance : DecidablePred IsBlank := fun _ => inferInstanceAs (Decidable (_ ∨ _))

instance : DecidablePred IsDigit := fun _ => inferInstanceAs (Decidable (_ ∧ _))

/-- `tolower`, on the character code. -/
def lower (c : CChar) : ℕ := if 65 ≤ c.1.1 ∧ c.1.1 ≤ 90 then c.1.1 + 32 else c.1.1

/-- `isalpha` -/
def IsLetter (c : CChar) : Prop := 97 ≤ lower c ∧ lower c ≤ 122

instance : DecidablePred IsLetter := fun _ => inferInstanceAs (Decidable (_ ∧ _))

def skipBlanks (s : Text) : Text := s.dropWhile (decide <| IsBlank ·)

theorem val_isDigit {c : CChar} (h : IsDigit c) : 48 ≤ c.1.1 ∧ c.1.1 ≤ 57 := h

theorem not_isBlank_of_isDigit {c : CChar} (h : IsDigit c) : ¬ IsBlank c := by
  obtain ⟨hlo, hhi⟩ := val_isDigit h
  unfold IsBlank
  omega

theorem not_isBlank_of_isLetter {c : CChar} (h : IsLetter c) : ¬ IsBlank c := by
  unfold IsLetter lower at h
  unfold IsBlank
  split_ifs at h <;> omega

/-- What does not begin with a blank is not shortened. -/
theorem skipBlanks_of_head {s : Text} (h : ∀ c ∈ s.head?, ¬ IsBlank c) : skipBlanks s = s := by
  cases s with
  | nil => rfl
  | cons c s => exact List.dropWhile_cons_of_neg (by simpa using h c rfl)

theorem skipBlanks_cons {c : CChar} (h : IsBlank c) (s : Text) :
    skipBlanks (c :: s) = skipBlanks s :=
  List.dropWhile_cons_of_pos (by simpa using h)

/-! ## Numbers of a fixed width -/

/-- A number in at least `k` digits. -/
def padded (k n : ℕ) : Text :=
  List.replicate (k - (decimal n).length) (byteOf '0') ++ decimal n

theorem length_decimal_le {k n : ℕ} (hk : 0 < k) (hn : n < 10 ^ k) : (decimal n).length ≤ k := by
  rw [decimal, List.length_map]
  exact (Nat.length_toDigits_le_iff (by decide) hk).mpr hn

theorem length_padded {k n : ℕ} (hk : 0 < k) (hn : n < 10 ^ k) : (padded k n).length = k := by
  have := length_decimal_le hk hn
  rw [padded, List.length_append, List.length_replicate]
  omega

theorem isDigit_of_mem_padded {k n : ℕ} {c : CChar} (h : c ∈ padded k n) : IsDigit c := by
  rcases List.mem_append.mp h with h | h
  · rw [List.eq_of_mem_replicate h]
    decide
  · exact isDigit_of_mem_decimal h

theorem padded_eq_cons (k n : ℕ) : ∃ c t, padded k n = c :: t ∧ IsDigit c := by
  obtain ⟨c, t, h⟩ := List.exists_cons_of_ne_nil
    (show padded k n ≠ [] from fun h => decimal_ne_nil n (List.append_eq_nil_iff.mp h).2)
  exact ⟨c, t, h, isDigit_of_mem_padded (k := k) (n := n) (h ▸ List.mem_cons_self)⟩

/-- A number does not begin with a blank. -/
theorem skipBlanks_padded (k n : ℕ) (rest : Text) :
    skipBlanks (padded k n ++ rest) = padded k n ++ rest := by
  obtain ⟨c, t, ht, hc⟩ := padded_eq_cons k n
  apply skipBlanks_of_head
  rw [ht]
  simpa using not_isBlank_of_isDigit hc

@[simp] theorem decimalValue_padded (k n : ℕ) : decimalValue (padded k n) = n := by
  rw [padded, decimalValue_zeros, decimalValue_decimal]

/-- One more digit of a number. -/
def pushDigit (v : ℕ) (c : CChar) : ℕ := 10 * v + (c.1.1 - 48)

/-- The digits that `get_number` takes behind the value `v`: at most `n`, and none that makes
the value exceed `hi`. -/
def digitsLoop (hi : ℕ) : ℕ → ℕ → Text → ℕ × Text
  | n + 1, v, c :: s =>
    if v * 10 ≤ hi ∧ IsDigit c then digitsLoop hi n (pushDigit v c) s else (v, c :: s)
  | _, v, s => (v, s)

/-- `get_number`: a number from `lo` to `hi` of at most `n` digits behind blanks. -/
def getNumber (lo hi n : ℕ) (s : Text) : Option (ℕ × Text) :=
  let s := skipBlanks s
  if ∃ c ∈ s.head?, IsDigit c then
    let r := digitsLoop hi n 0 s
    if lo ≤ r.1 ∧ r.1 ≤ hi then some r else none
  else none

theorem le_foldl_pushDigit (v : ℕ) (t : Text) : v ≤ t.foldl pushDigit v := by
  induction t generalizing v with
  | nil => exact le_rfl
  | cons c t ih =>
    refine le_trans ?_ (ih (pushDigit v c))
    unfold pushDigit
    omega

/-- Digits up to the greatest value are taken, and the rest is left. -/
theorem digitsLoop_append (hi : ℕ) {t : Text} (ht : ∀ c ∈ t, IsDigit c) (v : ℕ)
    (hle : t.foldl pushDigit v ≤ hi) (rest : Text) :
    digitsLoop hi t.length v (t ++ rest) = (t.foldl pushDigit v, rest) := by
  induction t generalizing v with
  | nil => rfl
  | cons c t ih =>
    have hstep : v * 10 ≤ hi := by
      have := le_foldl_pushDigit (pushDigit v c) t
      rw [List.foldl_cons] at hle
      unfold pushDigit at this hle
      omega
    rw [List.length_cons, List.cons_append, digitsLoop, if_pos ⟨hstep, ht c List.mem_cons_self⟩,
      ih (fun d hd => ht d (List.mem_cons_of_mem c hd)) _ hle, List.foldl_cons]

/-- **A padded number is read back**, whatever follows. -/
theorem getNumber_padded {lo hi k n : ℕ} (hk : 0 < k) (hn : n < 10 ^ k) (hlo : lo ≤ n)
    (hhi : n ≤ hi) (rest : Text) : getNumber lo hi k (padded k n ++ rest) = some (n, rest) := by
  have hlen := length_padded hk hn
  have hvalue : (padded k n).foldl pushDigit 0 = n := decimalValue_padded k n
  have hloop := digitsLoop_append hi (fun c hc => isDigit_of_mem_padded hc) 0
    (hvalue.trans_le hhi) rest
  rw [hlen, hvalue] at hloop
  obtain ⟨c, t, ht, hc⟩ := padded_eq_cons k n
  have hhead : ∃ d ∈ (padded k n ++ rest).head?, IsDigit d := ⟨c, by simp [ht], hc⟩
  unfold getNumber
  dsimp only
  rw [skipBlanks_padded, if_pos hhead, hloop, if_pos ⟨hlo, hhi⟩]

/-! ## Names -/

def dayNames : List Text :=
  ["Sunday", "Monday", "Tuesday", "Wednesday", "Thursday", "Friday", "Saturday"].map lit

def monthNames : List Text :=
  ["January", "February", "March", "April", "May", "June", "July", "August", "September",
    "October", "November", "December"].map lit

/-- The short form of a name. -/
def abbr (name : Text) : Text := name.take 3

/-- `strncasecmp(s, p, strlen(p)) == 0` -/
def BeginsWith (s p : Text) : Prop := (s.take p.length).map lower = p.map lower

instance (s p : Text) : Decidable (BeginsWith s p) := inferInstanceAs (Decidable (_ = _))

/-- The first name, in full or in its short form, with which a text begins. -/
def readName : List Text → Text → Option (ℕ × Text)
  | [], _ => none
  | name :: l, s =>
    if BeginsWith s name then some (0, s.drop name.length)
    else if BeginsWith s (abbr name) then some (0, s.drop (abbr name).length)
    else (readName l s).map fun r => (r.1 + 1, r.2)

/-- By what names are told apart. -/
def key (s : Text) : List ℕ := (abbr s).map lower

/-- Names of letters only, of which no two begin alike. -/
structure Distinct (l : List Text) : Prop where
  long : ∀ name ∈ l, 3 ≤ name.length
  letters : ∀ name ∈ l, ∀ c ∈ name, IsLetter c
  nodup : (l.map key).Nodup

theorem isLetter_of_all {l : List Text} (h : l.all (·.all (decide <| IsLetter ·)) = true) :
    ∀ name ∈ l, ∀ c ∈ name, IsLetter c := by
  simpa only [List.all_eq_true, decide_eq_true_eq] using h

theorem distinct_dayNames : Distinct dayNames :=
  ⟨by decide, isLetter_of_all (by decide), by decide⟩

theorem distinct_monthNames : Distinct monthNames :=
  ⟨by decide, isLetter_of_all (by decide), by decide⟩

theorem length_abbr {name : Text} (h : 3 ≤ name.length) : (abbr name).length = 3 := by
  rw [abbr, List.length_take]
  omega

theorem key_abbr_append {name : Text} (h : 3 ≤ name.length) (rest : Text) :
    key (abbr name ++ rest) = key name := by
  unfold key
  congr 1
  exact List.take_left' (length_abbr h)

/-- A text that begins with a name is told apart as the name is. -/
theorem key_of_beginsWith {s p : Text} (hp : 3 ≤ p.length) (h : BeginsWith s p) :
    key s = key p := by
  have htake := congrArg (List.take 3) h
  rw [← List.map_take, ← List.map_take, List.take_take, Nat.min_eq_left hp] at htake
  exact htake

/-- A short form is the beginning of its name in full only if the text goes on with a letter. -/
theorem length_of_beginsWith {name rest : Text} (hlong : 3 ≤ name.length)
    (hletters : ∀ c ∈ name, IsLetter c) (hrest : ∀ c ∈ rest.head?, ¬ IsLetter c)
    (h : BeginsWith (abbr name ++ rest) name) : name.length = 3 := by
  by_contra hne
  have hlen := length_abbr hlong
  have hname : name = abbr name ++ name.drop 3 := (List.take_append_drop 3 name).symm
  obtain ⟨c, t, ht⟩ : ∃ c t, name.drop 3 = c :: t :=
    List.exists_cons_of_ne_nil (by rw [Ne, List.drop_eq_nil_iff]; omega)
  have hc : IsLetter c := hletters c (List.mem_of_mem_drop (ht ▸ List.mem_cons_self))
  have hdrop := congrArg (List.drop 3) h
  rw [← List.map_drop, ← List.map_drop, ht, List.drop_take, List.drop_left' hlen] at hdrop
  cases rest with
  | nil => simp at hdrop
  | cons d rest =>
    obtain ⟨j, hj⟩ : ∃ j, name.length - 3 = j + 1 := ⟨name.length - 4, by omega⟩
    rw [hj, List.take_succ_cons, List.map_cons, List.map_cons, List.cons.injEq] at hdrop
    apply hrest d rfl
    unfold IsLetter
    rw [hdrop.1]
    exact hc

/-- **The short form of a name is read back** where no letter follows. -/
theorem readName_abbr {l : List Text} (h : Distinct l) {k : ℕ} {name : Text}
    (hk : l[k]? = some name) {rest : Text} (hrest : ∀ c ∈ rest.head?, ¬ IsLetter c) :
    readName l (abbr name ++ rest) = some (k, rest) := by
  have hlong := h.long name (List.mem_of_getElem? hk)
  have hlen := length_abbr hlong
  induction l generalizing k with
  | nil => simp at hk
  | cons first l ih =>
    have hfirst := h.long first List.mem_cons_self
    have hnodup := h.nodup
    rw [List.map_cons, List.nodup_cons] at hnodup
    rw [readName]
    cases k with
    | zero =>
      obtain rfl : first = name := by simpa using hk
      by_cases hfull : BeginsWith (abbr first ++ rest) first
      · have h3 := length_of_beginsWith hlong (h.letters first List.mem_cons_self) hrest hfull
        rw [if_pos hfull, List.drop_left' (hlen.trans h3.symm)]
      · have hshort : BeginsWith (abbr first ++ rest) (abbr first) := by
          unfold BeginsWith
          rw [List.take_left' rfl]
        rw [if_neg hfull, if_pos hshort, List.drop_left' rfl]
    | succ k =>
      have hmem : key name ∈ l.map key :=
        List.mem_map_of_mem (List.mem_of_getElem? (by simpa using hk))
      have hother : ∀ p, 3 ≤ p.length → key p = key first →
          ¬ BeginsWith (abbr name ++ rest) p := by
        intro p hp heq hbegins
        have := key_of_beginsWith hp hbegins
        rw [key_abbr_append hlong, heq] at this
        exact hnodup.1 (this ▸ hmem)
      have hshort : key (abbr first) = key first := by
        simpa using key_abbr_append hfirst []
      rw [if_neg (hother first hfirst rfl),
        if_neg (hother (abbr first) (length_abbr hfirst).ge hshort),
        ih ⟨fun n hn => h.long n (List.mem_cons_of_mem _ hn),
          fun n hn => h.letters n (List.mem_cons_of_mem _ hn), hnodup.2⟩ (by simpa using hk)]
      rfl

/-! ## Formats -/

/-- The conversions `%a`, `%b`, `%d`, `%Y`, `%H`, `%M` and `%S`. -/
inductive Conv where
  | a
  | b
  | d
  | Y
  | H
  | M
  | S
  deriving DecidableEq

/-- A piece of a format. -/
inductive Piece where
  | conv (c : Conv)
  | chr (c : CChar)
  deriving DecidableEq

abbrev Format := List Piece

/-- The pieces of a format. -/
def pieces : List Char → Format
  | '%' :: 'a' :: f => .conv .a :: pieces f
  | '%' :: 'b' :: f => .conv .b :: pieces f
  | '%' :: 'd' :: f => .conv .d :: pieces f
  | '%' :: 'Y' :: f => .conv .Y :: pieces f
  | '%' :: 'H' :: f => .conv .H :: pieces f
  | '%' :: 'M' :: f => .conv .M :: pieces f
  | '%' :: 'S' :: f => .conv .S :: pieces f
  | c :: f => .chr (byteOf c) :: pieces f
  | [] => []

/-- The pieces of a format string. -/
def format (s : String) : Format := pieces s.toList

/-- What a conversion shows. -/
def Conv.value (tm : Tm) : Conv → ℤ
  | .a => tm.wday
  | .b => tm.mon
  | .d => tm.mday
  | .Y => tm.year + 1900
  | .H => tm.hour
  | .M => tm.min
  | .S => tm.sec

/-- Store the number that was read for a conversion. -/
def Conv.set (tm : Tm) (v : ℤ) : Conv → Tm
  | .a => { tm with wday := v }
  | .b => { tm with mon := v }
  | .d => { tm with mday := v }
  | .Y => { tm with year := v - 1900 }
  | .H => { tm with hour := v }
  | .M => { tm with min := v }
  | .S => { tm with sec := v }

/-- The short form of a name by its number. -/
def nameAt (l : List Text) (i : ℤ) : Text :=
  if 0 ≤ i then (l[i.toNat]?).elim (lit "?") abbr else lit "?"

/-- What is printed for a conversion; C leaves open what stands there if the field is outside
its range. -/
def Conv.print (tm : Tm) : Conv → Text
  | .a => nameAt dayNames tm.wday
  | .b => nameAt monthNames tm.mon
  | .d => padded 2 tm.mday.toNat
  | .Y => fmtD (tm.year + 1900)
  | .H => padded 2 tm.hour.toNat
  | .M => padded 2 tm.min.toNat
  | .S => padded 2 tm.sec.toNat

/-- What is read for a conversion, and the text behind it. -/
def Conv.read (s : Text) : Conv → Option (ℕ × Text)
  | .a => readName dayNames s
  | .b => readName monthNames s
  | .d => getNumber 1 31 2 s
  | .Y => getNumber 0 9999 4 s
  | .H => getNumber 0 23 2 s
  | .M => getNumber 0 59 2 s
  | .S => getNumber 0 61 2 s

/-- What `strftime` prints for a piece. -/
def Piece.print (tm : Tm) : Piece → Text
  | .conv c => c.print tm
  | .chr c => [c]

/-- What a format shows of a date. -/
def text (tm : Tm) (f : Format) : Text := f.flatMap (Piece.print tm)

theorem text_append (tm : Tm) (f g : Format) : text tm (f ++ g) = text tm f ++ text tm g :=
  List.flatMap_append

@[simp] theorem text_map_chr (tm : Tm) (t : Text) : text tm (t.map Piece.chr) = t := by
  induction t with
  | nil => rfl
  | cons c t ih => exact congrArg (c :: ·) ih

/-- `strftime` into an array of `max` bytes.  If the text does not fit, nothing is known of the
array. -/
def strftime (max : ℕ) (f : Format) (tm : Tm) : Option Text :=
  if (text tm f).length < max then some (text tm f) else none

/-- `strptime`: the text that is left if all of the format was read, and `tm`, of which fields
may be filled even if it was not. -/
def strptime : Format → Text → Tm → Option Text × Tm
  | [], s, tm => (some s, tm)
  | .conv c :: f, s, tm =>
    match c.read s with
    | some (v, s) => strptime f s (c.set tm v)
    | none => (none, tm)
  | .chr c :: f, s, tm =>
    if IsBlank c then strptime f (skipBlanks s) tm
    else if s.head? = some c then strptime f s.tail tm
    else (none, tm)

/-- A format is read up to any point first. -/
theorem strptime_append (f g : Format) (s : Text) (tm : Tm) :
    strptime (f ++ g) s tm =
      match strptime f s tm with
      | (some s, tm) => strptime g s tm
      | (none, tm) => (none, tm) := by
  induction f generalizing s tm with
  | nil => rfl
  | cons p f ih =>
    cases p with
    | conv c =>
      rw [List.cons_append, strptime, strptime]
      cases c.read s with
      | none => rfl
      | some r => exact ih r.2 _
    | chr c =>
      rw [List.cons_append, strptime, strptime]
      split_ifs
      · exact ih _ _
      · exact ih _ _
      · rfl

/-! ## Reading back what was printed -/

/-- The field is in the range that is printed so that it can be read. -/
def Conv.Shown (tm : Tm) : Conv → Prop
  | .a => 0 ≤ tm.wday ∧ tm.wday ≤ 6
  | .b => 0 ≤ tm.mon ∧ tm.mon ≤ 11
  | .d => 1 ≤ tm.mday ∧ tm.mday ≤ 31
  | .Y => 1000 ≤ tm.year + 1900 ∧ tm.year + 1900 ≤ 9999
  | .H => 0 ≤ tm.hour ∧ tm.hour ≤ 23
  | .M => 0 ≤ tm.min ∧ tm.min ≤ 59
  | .S => 0 ≤ tm.sec ∧ tm.sec ≤ 61

/-- The conversions that show a name. -/
def Conv.Named (c : Conv) : Prop := c = .a ∨ c = .b

instance (c : Conv) : Decidable c.Named := inferInstanceAs (Decidable (_ ∨ _))

/-- A year of four digits. -/
theorem fmtD_eq_padded {n : ℕ} (hlo : 1000 ≤ n) (hhi : n ≤ 9999) : fmtD n = padded 4 n := by
  have hlen : ¬ (decimal n).length ≤ 3 := by
    rw [decimal, List.length_map, Nat.length_toDigits_le_iff (by decide) (by decide)]
    omega
  have hword : (n : ℤ).bmod (2 ^ 32) = n := Int.bmod_eq_of_le (by omega) (by omega)
  unfold fmtD
  simp only [hword]
  rw [if_neg (by omega), padded, Nat.sub_eq_zero_of_le (by omega)]
  rfl

theorem nameAt_eq {l : List Text} {i : ℤ} (h0 : 0 ≤ i) (hi : i < l.length) :
    ∃ name, l[i.toNat]? = some name ∧ nameAt l i = abbr name := by
  have hlt : i.toNat < l.length := by omega
  refine ⟨l[i.toNat], List.getElem?_eq_getElem hlt, ?_⟩
  rw [nameAt, if_pos h0, List.getElem?_eq_getElem hlt]
  rfl

/-- The conversion shows the name of this number in a list of names. -/
structure Conv.ShowsName (tm : Tm) (c : Conv) (l : List Text) (name : Text) : Prop where
  named : c.Named
  distinct : Distinct l
  mem : l[(c.value tm).toNat]? = some name
  print : c.print tm = abbr name
  read : ∀ s, c.read s = readName l s

/-- The conversion shows the number in `k` digits. -/
structure Conv.ShowsNumber (tm : Tm) (c : Conv) (lo hi k : ℕ) : Prop where
  pos : 0 < k
  le : k ≤ 4
  fits : (c.value tm).toNat < 10 ^ k
  ge : lo ≤ (c.value tm).toNat
  upto : (c.value tm).toNat ≤ hi
  print : c.print tm = padded k (c.value tm).toNat
  read : ∀ s, c.read s = getNumber lo hi k s

/-- A number of a field in its range, printed in two digits. -/
theorem Conv.showsNumber {tm : Tm} {c : Conv} {lo hi : ℕ} (h : lo ≤ c.value tm ∧ c.value tm ≤ hi)
    (hhi : hi < 100) (hprint : c.print tm = padded 2 (c.value tm).toNat)
    (hread : ∀ s, c.read s = getNumber lo hi 2 s) : c.ShowsNumber tm lo hi 2 := by
  refine ⟨by decide, by decide, ?_, ?_, ?_, hprint, hread⟩ <;> omega

theorem Conv.value_nonneg {tm : Tm} {c : Conv} (h : c.Shown tm) : 0 ≤ c.value tm := by
  cases c <;> simp only [Conv.Shown] at h <;> simp only [Conv.value] <;> omega

theorem Conv.print_cases {tm : Tm} {c : Conv} (h : c.Shown tm) :
    (∃ l name, c.ShowsName tm l name) ∨ ∃ lo hi k, c.ShowsNumber tm lo hi k := by
  cases c with
  | a =>
    obtain ⟨name, hname, hprint⟩ := nameAt_eq (l := dayNames) h.1
      (show tm.wday < 7 by have := h.2; omega)
    exact .inl ⟨_, name, .inl rfl, distinct_dayNames, hname, hprint, fun _ => rfl⟩
  | b =>
    obtain ⟨name, hname, hprint⟩ := nameAt_eq (l := monthNames) h.1
      (show tm.mon < 12 by have := h.2; omega)
    exact .inl ⟨_, name, .inr rfl, distinct_monthNames, hname, hprint, fun _ => rfl⟩
  | d => exact .inr ⟨1, 31, 2, Conv.showsNumber h (by decide) rfl fun _ => rfl⟩
  | Y =>
    obtain ⟨n, hn⟩ : ∃ n : ℕ, tm.year + 1900 = n := Int.eq_ofNat_of_zero_le (by have := h.1; omega)
    have hvalue : (Conv.value tm .Y).toNat = n := by rw [Conv.value, hn, Int.toNat_natCast]
    have hrange : 1000 ≤ n ∧ n ≤ 9999 := by
      simp only [Conv.Shown] at h
      omega
    refine .inr ⟨0, 9999, 4, by decide, by decide, ?_, ?_, ?_, ?_, fun _ => rfl⟩
    · rw [hvalue]
      omega
    · exact Nat.zero_le _
    · rw [hvalue]
      exact hrange.2
    · rw [hvalue, Conv.print, hn]
      exact fmtD_eq_padded hrange.1 hrange.2
  | H => exact .inr ⟨0, 23, 2, Conv.showsNumber h (by decide) rfl fun _ => rfl⟩
  | M => exact .inr ⟨0, 59, 2, Conv.showsNumber h (by decide) rfl fun _ => rfl⟩
  | S => exact .inr ⟨0, 61, 2, Conv.showsNumber h (by decide) rfl fun _ => rfl⟩

/-- **What one conversion printed is read back**, behind a name only where no letter follows. -/
theorem Conv.read_print {tm : Tm} {c : Conv} (h : c.Shown tm) {rest : Text}
    (hrest : c.Named → ∀ x ∈ rest.head?, ¬ IsLetter x) :
    c.read (c.print tm ++ rest) = some ((c.value tm).toNat, rest) := by
  rcases Conv.print_cases h with ⟨l, name, hs⟩ | ⟨lo, hi, k, hs⟩
  · rw [hs.read, hs.print]
    exact readName_abbr hs.distinct hs.mem (hrest hs.named)
  · rw [hs.read, hs.print]
    exact getNumber_padded hs.pos hs.fits hs.ge hs.upto rest

/-- No conversion prints a blank. -/
theorem Conv.not_isBlank_of_mem_print {tm : Tm} {c : Conv} (h : c.Shown tm) {x : CChar}
    (hx : x ∈ c.print tm) : ¬ IsBlank x := by
  rcases Conv.print_cases h with ⟨l, name, hs⟩ | ⟨lo, hi, k, hs⟩
  · rw [hs.print] at hx
    exact not_isBlank_of_isLetter
      (hs.distinct.letters name (List.mem_of_getElem? hs.mem) x (List.mem_of_mem_take hx))
  · rw [hs.print] at hx
    exact not_isBlank_of_isDigit (isDigit_of_mem_padded hx)

/-- Something is printed for each conversion, but not more than four characters. -/
theorem Conv.length_print {tm : Tm} {c : Conv} (h : c.Shown tm) :
    0 < (c.print tm).length ∧ (c.print tm).length ≤ 4 := by
  rcases Conv.print_cases h with ⟨l, name, hs⟩ | ⟨lo, hi, k, hs⟩
  · rw [hs.print, length_abbr (hs.distinct.long name (List.mem_of_getElem? hs.mem))]
    decide
  · rw [hs.print, length_padded hs.pos hs.fits]
    exact ⟨hs.pos, hs.le⟩

theorem Conv.print_eq_cons {tm : Tm} {c : Conv} (h : c.Shown tm) :
    ∃ x t, c.print tm = x :: t :=
  List.exists_cons_of_length_pos (Conv.length_print h).1

/-- What may follow a piece: a letter behind a name, or a blank behind a blank, would be read
with it. -/
def Piece.Before : Piece → Option Piece → Prop
  | .conv c, some (.chr x) => c.Named → ¬ IsLetter x
  | .conv c, _ => ¬ c.Named
  | .chr x, some (.chr y) => IsBlank x → ¬ IsBlank y
  | .chr _, some (.conv _) => True
  | .chr x, none => ¬ IsBlank x

instance : (p : Piece) → (q : Option Piece) → Decidable (p.Before q)
  | .conv c, some (.chr x) => inferInstanceAs (Decidable (c.Named → ¬ IsLetter x))
  | .conv c, some (.conv _) => inferInstanceAs (Decidable (¬ c.Named))
  | .conv c, none => inferInstanceAs (Decidable (¬ c.Named))
  | .chr x, some (.chr y) => inferInstanceAs (Decidable (IsBlank x → ¬ IsBlank y))
  | .chr _, some (.conv _) => inferInstanceAs (Decidable True)
  | .chr x, none => inferInstanceAs (Decidable (¬ IsBlank x))

/-- Every piece of the format ends where the next one begins. -/
def Clear : Format → Prop
  | [] => True
  | p :: f => p.Before f.head? ∧ Clear f

instance : (f : Format) → Decidable (Clear f)
  | [] => inferInstanceAs (Decidable True)
  | p :: f =>
    have : Decidable (Clear f) := instDecidableClear f
    inferInstanceAs (Decidable (p.Before f.head? ∧ Clear f))

/-- The fields that a format shows are copied from one date to another. -/
def copyFields (tm : Tm) : Format → Tm → Tm
  | [], t => t
  | .conv c :: f, t => copyFields tm f (c.set t (c.value tm))
  | .chr _ :: f, t => copyFields tm f t

theorem copyFields_append_map_chr (tm : Tm) (f : Format) (l : Text) (t : Tm) :
    copyFields tm (f ++ l.map Piece.chr) t = copyFields tm f t := by
  induction f generalizing t with
  | nil =>
    induction l with
    | nil => rfl
    | cons c l ih => exact ih
  | cons p f ih =>
    cases p with
    | conv c => exact ih _
    | chr c => exact ih t

/-- What is printed for a format does not begin with a blank unless the format does. -/
theorem not_isBlank_of_head_text {tm : Tm} {p : Piece} {f : Format}
    (hp : ∀ c, p = .conv c → c.Shown tm) (hblank : ∀ x, p = .chr x → ¬ IsBlank x) (rest : Text) :
    ∀ x ∈ (text tm (p :: f) ++ rest).head?, ¬ IsBlank x := by
  intro x hx
  cases p with
  | conv c =>
    obtain ⟨y, t, ht⟩ := Conv.print_eq_cons (hp c rfl)
    rw [text, List.flatMap_cons, Piece.print, ht] at hx
    obtain rfl : y = x := by simpa using hx
    exact Conv.not_isBlank_of_mem_print (hp c rfl) (ht ▸ List.mem_cons_self)
  | chr y =>
    obtain rfl : y = x := by simpa [text, Piece.print] using hx
    exact hblank y rfl

/-- **What was printed by a format is read back with the same format**, whatever follows. -/
theorem strptime_text {tm : Tm} {f : Format} (hf : Clear f)
    (htm : ∀ c, Piece.conv c ∈ f → c.Shown tm) (rest : Text) (t : Tm) :
    strptime f (text tm f ++ rest) t = (some rest, copyFields tm f t) := by
  induction f generalizing t with
  | nil => rfl
  | cons p f ih =>
    obtain ⟨hbefore, hclear⟩ := hf
    have hrec := fun t => ih hclear (fun c hc => htm c (List.mem_cons_of_mem p hc)) t
    have happend : text tm (p :: f) ++ rest = p.print tm ++ (text tm f ++ rest) := by
      rw [text, List.flatMap_cons, List.append_assoc]
      rfl
    rw [happend]
    cases p with
    | conv c =>
      have hc := htm c List.mem_cons_self
      have hrest : c.Named → ∀ x ∈ (text tm f ++ rest).head?, ¬ IsLetter x := by
        intro hnamed x hx
        cases f with
        | nil => exact absurd hnamed hbefore
        | cons q f =>
          cases q with
          | conv c' => exact absurd hnamed hbefore
          | chr y =>
            obtain rfl : y = x := by simpa [text, Piece.print] using hx
            exact hbefore hnamed
      rw [strptime, Piece.print, Conv.read_print hc hrest]
      have hvalue : ((c.value tm).toNat : ℤ) = c.value tm :=
        Int.toNat_of_nonneg (Conv.value_nonneg hc)
      rw [copyFields, ← hvalue]
      exact hrec _
    | chr x =>
      rw [strptime, Piece.print, List.singleton_append, copyFields]
      split
      · rename_i hblank
        rw [skipBlanks_cons hblank, skipBlanks_of_head]
        · exact hrec t
        · cases f with
          | nil => exact absurd hblank hbefore
          | cons q f =>
            apply not_isBlank_of_head_text
            · rintro c rfl
              exact htm c (List.mem_cons_of_mem _ List.mem_cons_self)
            · rintro y rfl
              exact hbefore hblank
      · rw [List.head?_cons, if_pos rfl]
        exact hrec t

/-- The blanks in what is printed are those of the format. -/
theorem mem_format_of_isBlank {tm : Tm} {f : Format} (htm : ∀ c, Piece.conv c ∈ f → c.Shown tm)
    {x : CChar} (hx : x ∈ text tm f) (hblank : IsBlank x) : Piece.chr x ∈ f := by
  obtain ⟨p, hp, hxp⟩ := List.mem_flatMap.mp hx
  cases p with
  | conv c => exact absurd hblank (Conv.not_isBlank_of_mem_print (htm c hp) hxp)
  | chr y =>
    obtain rfl : x = y := List.mem_singleton.mp hxp
    exact hp

/-- The most characters that are printed for a piece. -/
def Piece.width : Piece → ℕ
  | .conv _ => 4
  | .chr _ => 1

theorem length_text_le {tm : Tm} {f : Format} (htm : ∀ c, Piece.conv c ∈ f → c.Shown tm) :
    (text tm f).length ≤ (f.map Piece.width).sum := by
  rw [text, List.length_flatMap]
  apply List.sum_le_sum
  intro p hp
  cases p with
  | conv c => exact (Conv.length_print (htm c hp)).2
  | chr x => exact le_rfl

/-- `strftime` succeeds if the array is large enough for the format. -/
theorem strftime_eq {tm : Tm} {f : Format} (htm : ∀ c, Piece.conv c ∈ f → c.Shown tm) {max : ℕ}
    (hmax : (f.map Piece.width).sum < max) : strftime max f tm = some (text tm f) :=
  if_pos (lt_of_le_of_lt (length_text_le htm) hmax)

/-- From 1970 to the year 9999 every field can be read back. -/
theorem shown_gmtime {t : ℤ} (h0 : 0 ≤ t) (hyear : (gmtime t).year + 1900 ≤ 9999) (c : Conv) :
    c.Shown (gmtime t) := by
  obtain ⟨e, y, m, d, hy, hm, hd, he, -, heq⟩ := gmtime_spec t
  have he4 : 4 ≤ e := by
    unfold epochDays at he
    omega
  rw [heq] at hyear
  rw [heq]
  cases c <;> dsimp only [Conv.Shown] at hyear ⊢ <;> omega

end CTime
