/-
# The names of calls and messages

Both ends name a call by its second and its parties, and a message by its second, its
microsecond and its parties.  The sender puts its clock into a `Date` header, and the receiver
takes the time from there: `find_date` tries the form that `tcsipcall_send` writes, and then the
one of `msend`, which has the microseconds behind a dot.

The seconds always arrive, and so does what is printed of the microseconds, so the names are
alike (`ckey_alike`, `idx_alike`).  But `sscanf` stores an `unsigned` through the address of
`tv_usec`: where that has 64 bits, its upper half keeps what stood there, and in
`message_incoming` nothing has been stored there before (`namedAlike_iff`).
-/
import Tcsip.CTime
import Tcsip.Calls
import Tcsip.Message

open CTime

/-! ## The two headers -/

/-- The `Date` header of `tcsipcall_send`. -/
def tcsipcallSendDate (tv : Timeval) : Option Text :=
  strftime 100 (format "Date: %a, %d %b %Y %H:%M:%S GMT\r\n") (gmtime tv.sec)

/-- The `Date` header of `msend`. -/
def msendDate (tv : Timeval) : Option Text :=
  (strftime 100 (format "Date: %a, %d %b %Y %H:%M:%S") (gmtime tv.sec)).map fun dt =>
    (dt ++ byteOf '.' :: (fmt06u tv.usec ++ lit " GMT\r\n")).take 119

/-! ## Parsing a date -/

/-- The type of `tv_usec`, `long` or `int`. -/
inductive Suseconds where
  | bits64
  | bits32
  deriving DecidableEq

/-- An `unsigned` is stored at the address of a `tv_usec`: of 64 bits, the lowest byte first,
it takes the lower half. -/
def Suseconds.store (usec : ℤ) (v : ℕ) : Suseconds → ℤ
  | .bits64 => 2 ^ 32 * (usec / 2 ^ 32) + v
  | .bits32 => (v : ℤ).bmod (2 ^ 32)

theorem Suseconds.store_bits64 (old : ℤ) (v : ℕ) :
    Suseconds.bits64.store old v = 2 ^ 32 * (old / 2 ^ 32) + v := rfl

theorem Suseconds.store_bits32 (old : ℤ) (v : ℕ) :
    Suseconds.bits32.store old v = (v : ℤ).bmod (2 ^ 32) := rfl

/-- The lower half is what was stored. -/
theorem Suseconds.store_emod (k : Suseconds) (old : ℤ) (v : ℕ) :
    (k.store old v).emod (2 ^ 32) = (v : ℤ).emod (2 ^ 32) := by
  cases k with
  | bits64 =>
    rw [Suseconds.store_bits64]
    exact Int.mul_add_emod_self_left _ _ _
  | bits32 =>
    have hmod : ((v : ℤ).bmod (2 ^ 32)).emod (2 ^ 32) = (v : ℤ).emod (2 ^ 32) := Int.bmod_emod
    rw [Suseconds.store_bits32, hmod]

/-- The whole is what was stored if there is no upper half, or if that was zero. -/
theorem Suseconds.store_eq_iff (k : Suseconds) (old : ℤ) {n : ℤ} (hn : 0 ≤ n ∧ n < 1000000) :
    k.store old n.toNat = n ↔ k = .bits32 ∨ 0 ≤ old ∧ old < 2 ^ 32 := by
  have hnat : (n.toNat : ℤ) = n := Int.toNat_of_nonneg hn.1
  cases k with
  | bits64 =>
    have hlong : Suseconds.bits64 ≠ Suseconds.bits32 := nofun
    rw [Suseconds.store_bits64, hnat, or_iff_right hlong]
    omega
  | bits32 =>
    rw [Suseconds.store_bits32, hnat, iff_true_right (.inl rfl)]
    exact Int.bmod_eq_of_le (by omega) (by omega)

/-- Printed, it is what was stored. -/
theorem fmt06u_store (k : Suseconds) (old : ℤ) {n : ℤ} (hn : 0 ≤ n ∧ n < 1000000) :
    fmt06u (k.store old n.toNat) = fmt06u n := by
  unfold fmt06u
  rw [Suseconds.store_emod, Int.toNat_of_nonneg hn.1]

/-- `%06u` in `sscanf`: at most six characters behind blanks, with a sign or without. -/
def scan06u (s : Text) : Option ℕ :=
  let field := (skipBlanks s).take 6
  let minus := field.head? = some (byteOf '-')
  let plus := field.head? = some (byteOf '+')
  let digits := (if minus ∨ plus then field.tail else field).takeWhile (decide <| IsDigit ·)
  if digits = [] then none
  else if minus then some ((2 ^ 32 - decimalValue digits) % 2 ^ 32)
  else some (decimalValue digits)

/-- `find_date`; `tm` is what its `struct tm` holds before. -/
def findDate (k : Suseconds) (val : Text) (tm : Tm) (tv : Timeval) : Bool × Timeval :=
  match strptime (format "%a, %d %b %Y %H:%M:%S GMT") val tm with
  | (some _, tm) => (false, { sec := timegm tm, usec := 0 })
  | (none, tm) =>
    match strptime (format "%a, %d %b %Y %H:%M:%S.") val tm with
    | (some ret, tm) =>
      (false, { sec := timegm tm, usec := (scan06u ret).elim tv.usec (k.store tv.usec) })
    | (none, _) => (true, tv)

/-- What a receiver finds in its memory: the `struct tm` of each call of `find_date`, and the
`struct timeval` that is to be filled. -/
structure Leftover where
  tm : ℕ → Tm
  tv : Timeval

/-- `sip_msg_hdr_apply` with `find_date`: the `Date` headers in turn, until one is no date. -/
def applyFindDate (k : Suseconds) (tm : ℕ → Tm) : ℕ → List Text → Timeval → Timeval
  | _, [], tv => tv
  | n, val :: vals, tv =>
    match findDate k val (tm n) tv with
    | (true, tv) => tv
    | (false, tv) => applyFindDate k tm (n + 1) vals tv

/-- `sipmsg_parse_date`, with the values of the `Date` headers of the message. -/
def sipmsgParseTimeval (k : Suseconds) (mem : Leftover) (vals : List Text) (now : Timeval) :
    Timeval :=
  let tv := applyFindDate k mem.tm 0 vals { mem.tv with sec := 0 }
  if tv.sec ≤ 0 then now else tv

/-- The list of calls takes the seconds from here. -/
theorem sec_sipmsgParseTimeval (k : Suseconds) (mem : Leftover) (vals : List Text)
    (now : Timeval) :
    (sipmsgParseTimeval k mem vals now).sec
      = sipmsgParseDate (applyFindDate k mem.tm 0 vals { mem.tv with sec := 0 }).sec now.sec := by
  unfold sipmsgParseTimeval sipmsgParseDate
  dsimp only
  split <;> rfl

/-! ## What the headers say -/

/-- The times that are spoken of: from 1970 to the year 9999. -/
structure Timeval.Dated (tv : Timeval) : Prop where
  sec : 1 ≤ tv.sec
  year : (gmtime tv.sec).year + 1900 ≤ 9999
  usec : 0 ≤ tv.usec ∧ tv.usec < 1000000

instance (tv : Timeval) : Decidable tv.Dated :=
  decidable_of_iff (1 ≤ tv.sec ∧ (gmtime tv.sec).year + 1900 ≤ 9999 ∧
    (0 ≤ tv.usec ∧ tv.usec < 1000000)) ⟨fun h => ⟨h.1, h.2.1, h.2.2⟩, fun h => ⟨h.1, h.2, h.3⟩⟩

/-- The date and the time of day in both headers. -/
def dateFormat : Format := format "%a, %d %b %Y %H:%M:%S"

/-- The value of the header that a call sends. -/
def callValue (tv : Timeval) : Text := text (gmtime tv.sec) dateFormat ++ lit " GMT"

/-- The value of the header that a message carries. -/
def messageValue (tv : Timeval) : Text :=
  text (gmtime tv.sec) dateFormat ++ byteOf '.' :: (fmt06u tv.usec ++ lit " GMT")

theorem Timeval.Dated.shown {tv : Timeval} (h : tv.Dated) (c : Conv) : c.Shown (gmtime tv.sec) :=
  shown_gmtime (by have := h.sec; omega) h.year c

theorem fmt06u_eq_padded {n : ℤ} (h : 0 ≤ n ∧ n < 1000000) : fmt06u n = padded 6 n.toNat := by
  have hword : n.emod (2 ^ 32) = n := Int.emod_eq_of_lt h.1 (by omega)
  rw [fmt06u, hword]
  rfl

theorem tcsipcallSendDate_eq {tv : Timeval} (h : tv.Dated) :
    tcsipcallSendDate tv = some (lit "Date: " ++ callValue tv ++ lit "\r\n") := by
  have hsplit : format "Date: %a, %d %b %Y %H:%M:%S GMT\r\n"
      = (lit "Date: ").map Piece.chr ++ dateFormat ++ (lit " GMT\r\n").map Piece.chr := by rfl
  have hend : lit " GMT\r\n" = lit " GMT" ++ lit "\r\n" := by rfl
  rw [tcsipcallSendDate, strftime_eq (fun c _ => h.shown c) (by decide), hsplit, text_append,
    text_append, text_map_chr, text_map_chr, hend, callValue]
  simp only [List.append_assoc]

theorem msendDate_eq {tv : Timeval} (h : tv.Dated) :
    msendDate tv = some (lit "Date: " ++ messageValue tv ++ lit "\r\n") := by
  have hsplit : format "Date: %a, %d %b %Y %H:%M:%S"
      = (lit "Date: ").map Piece.chr ++ dateFormat := by rfl
  have hend : lit " GMT\r\n" = lit " GMT" ++ lit "\r\n" := by rfl
  have hlen : (text (gmtime tv.sec) dateFormat).length ≤ 35 :=
    length_text_le fun c _ => h.shown c
  have husec : (fmt06u tv.usec).length = 6 := by
    have := h.usec
    rw [fmt06u_eq_padded h.usec]
    exact length_padded (by decide) (by omega)
  rw [msendDate, strftime_eq (fun c _ => h.shown c) (by decide), Option.map_some, hsplit,
    text_append, text_map_chr, messageValue, List.take_of_length_le]
  · simp only [hend, List.append_assoc, List.cons_append]
  · have hpre : (lit "Date: ").length = 6 := rfl
    have hpost : (lit " GMT\r\n").length = 6 := rfl
    simp only [List.length_append, List.length_cons]
    omega

/-! ## What the receivers read -/

/-- The date format fills all fields. -/
theorem copyFields_dateFormat (tm t : Tm) : copyFields tm dateFormat t = tm := by
  have hyear : copyFields tm dateFormat t = { tm with year := tm.year + 1900 - 1900 } := rfl
  rw [hyear, Int.add_sub_cancel]

/-- The date is read, and what the format still has after it. -/
theorem strptime_dateFormat {tv : Timeval} (h : tv.Dated) {l : Text}
    (hl : Clear (dateFormat ++ l.map Piece.chr)) (rest : Text) (tm : Tm) :
    strptime (dateFormat ++ l.map Piece.chr) (text (gmtime tv.sec) dateFormat ++ (l ++ rest)) tm
      = (some rest, gmtime tv.sec) := by
  have htext : text (gmtime tv.sec) dateFormat ++ (l ++ rest)
      = text (gmtime tv.sec) (dateFormat ++ l.map Piece.chr) ++ rest := by
    rw [text_append, text_map_chr, List.append_assoc]
  rw [htext, strptime_text hl (fun c _ => h.shown c), copyFields_append_map_chr,
    copyFields_dateFormat]

theorem format_gmt :
    format "%a, %d %b %Y %H:%M:%S GMT" = dateFormat ++ (lit " GMT").map Piece.chr := by rfl

theorem format_dot : format "%a, %d %b %Y %H:%M:%S." = dateFormat ++ (lit ".").map Piece.chr := by
  rfl

/-- The header of a call is read at the first attempt. -/
theorem findDate_callValue {tv : Timeval} (h : tv.Dated) (k : Suseconds) (tm : Tm)
    (old : Timeval) :
    findDate k (callValue tv) tm old = (false, { sec := tv.sec, usec := 0 }) := by
  have hread := strptime_dateFormat h (l := lit " GMT") (by decide) [] tm
  rw [List.append_nil] at hread
  rw [findDate, format_gmt, callValue, hread]
  dsimp only
  rw [timegm_gmtime]

/-- Six digits are scanned, whatever follows. -/
theorem scan06u_fmt06u {n : ℤ} (h : 0 ≤ n ∧ n < 1000000) (rest : Text) :
    scan06u (fmt06u n ++ rest) = some n.toNat := by
  have hlen : (padded 6 n.toNat).length = 6 := length_padded (by decide) (by omega)
  obtain ⟨c, t, ht, hc⟩ := padded_eq_cons 6 n.toNat
  have hsign : ∀ d, ¬ IsDigit d → (padded 6 n.toNat).head? ≠ some d := by
    rintro d hd heq
    rw [ht] at heq
    obtain rfl : c = d := by simpa using heq
    exact hd hc
  have hdigits : (padded 6 n.toNat).takeWhile (decide <| IsDigit ·) = padded 6 n.toNat :=
    List.takeWhile_eq_self_iff.mpr fun d hd => by simpa using isDigit_of_mem_padded hd
  have hne : padded 6 n.toNat ≠ [] := ht ▸ List.cons_ne_nil c t
  rw [fmt06u_eq_padded h]
  unfold scan06u
  simp only [skipBlanks_padded, List.take_left' hlen, hsign _ not_isDigit_minus,
    hsign (byteOf '+') (by decide), or_self, if_false, hdigits, hne, decimalValue_padded]

/-- The header of a message is read at the second attempt: at the first one there is a dot
where `GMT` should be. -/
theorem findDate_messageValue {tv : Timeval} (h : tv.Dated) (k : Suseconds) (tm : Tm)
    (old : Timeval) :
    findDate k (messageValue tv) tm old
      = (false, { sec := tv.sec, usec := k.store old.usec tv.usec.toNat }) := by
  have hfirst : strptime (format "%a, %d %b %Y %H:%M:%S GMT") (messageValue tv) tm
      = (none, gmtime tv.sec) := by
    have hread := strptime_dateFormat h (l := []) (by decide)
      (byteOf '.' :: (fmt06u tv.usec ++ lit " GMT")) tm
    rw [List.map_nil, List.append_nil] at hread
    rw [format_gmt, strptime_append, messageValue, ← List.nil_append (byteOf '.' :: _), hread]
    rfl
  have hsecond := strptime_dateFormat h (l := lit ".") (by decide)
    (fmt06u tv.usec ++ lit " GMT") (gmtime tv.sec)
  rw [findDate, hfirst]
  dsimp only
  rw [format_dot, show messageValue tv
    = text (gmtime tv.sec) dateFormat ++ (lit "." ++ (fmt06u tv.usec ++ lit " GMT")) from rfl,
    hsecond]
  dsimp only
  rw [timegm_gmtime, scan06u_fmt06u h.usec, Option.elim_some]

/-! ## From one end to the other -/

/-- What can stand as a value in a header line: it has no line end in it, and no blank at
either of its ends. -/
structure HeaderValue (v : Text) : Prop where
  line : ∀ x ∈ v, x ≠ byteOf '\r' ∧ x ≠ byteOf '\n'
  first : ∃ x ∈ v.head?, ¬ IsBlank x
  last : ∃ x ∈ v.getLast?, ¬ IsBlank x

/-- Both headers are a date, something without line ends, and ` GMT`. -/
theorem headerValue_date {tv : Timeval} (h : tv.Dated) (mid : Text)
    (hmid : ∀ x ∈ mid, x ≠ byteOf '\r' ∧ x ≠ byteOf '\n') :
    HeaderValue (text (gmtime tv.sec) dateFormat ++ (mid ++ lit " GMT")) := by
  have hdate : ∀ x ∈ text (gmtime tv.sec) dateFormat, x ≠ byteOf '\r' ∧ x ≠ byteOf '\n' := by
    intro x hx
    have hformat := mem_format_of_isBlank (fun c _ => h.shown c) hx
    constructor
    · rintro rfl
      exact absurd (hformat (by decide)) (by decide)
    · rintro rfl
      exact absurd (hformat (by decide)) (by decide)
  have hgmt : ∀ x ∈ lit " GMT", x ≠ byteOf '\r' ∧ x ≠ byteOf '\n' := by
    have hcr : byteOf '\r' ∉ lit " GMT" := by decide
    have hlf : byteOf '\n' ∉ lit " GMT" := by decide
    exact fun x hx => ⟨fun h => hcr (h ▸ hx), fun h => hlf (h ▸ hx)⟩
  refine ⟨?_, ?_, ?_⟩
  · intro x hx
    simp only [List.mem_append] at hx
    rcases hx with hx | hx | hx
    · exact hdate x hx
    · exact hmid x hx
    · exact hgmt x hx
  · obtain ⟨x, t, ht⟩ := Conv.print_eq_cons (h.shown .a)
    have hx := Conv.not_isBlank_of_mem_print (h.shown .a) (ht ▸ List.mem_cons_self)
    refine ⟨x, ?_, hx⟩
    rw [show text (gmtime tv.sec) dateFormat
      = Conv.print (gmtime tv.sec) .a ++ text (gmtime tv.sec) dateFormat.tail from rfl, ht]
    rfl
  · refine ⟨byteOf 'T', ?_, by decide⟩
    rw [List.getLast?_append_of_ne_nil _ (by simp [lit]),
      List.getLast?_append_of_ne_nil _ (by decide)]
    rfl

theorem headerValue_callValue {tv : Timeval} (h : tv.Dated) : HeaderValue (callValue tv) :=
  headerValue_date h [] (by simp)

theorem headerValue_messageValue {tv : Timeval} (h : tv.Dated) :
    HeaderValue (messageValue tv) := by
  have hmid : ∀ x ∈ byteOf '.' :: fmt06u tv.usec, x ≠ byteOf '\r' ∧ x ≠ byteOf '\n' := by
    intro x hx
    rcases List.mem_cons.mp hx with rfl | hx
    · decide
    · constructor
      · rintro rfl
        exact notMem_fmt06u (by decide) _ hx
      · rintro rfl
        exact notMem_fmt06u (by decide) _ hx
  exact headerValue_date h _ hmid

/-! `dates` stands for the two SIP stacks, which are not part of the repository: the values of
the `Date` headers that the receiver finds if the sender has put the given line into the
message. -/

section ends

variable (k : Suseconds) (dates : Text → List Text) (mem : Leftover) (now : Timeval)

/-- `call->tv` of the callee, for a call that began at the time `tv`. -/
def calleeTime (tv : Timeval) : Option Timeval :=
  (tcsipcallSendDate tv).map fun date => sipmsgParseTimeval k mem (dates date) now

/-- The time of an incoming message that was sent at the time `tv`. -/
def receiverTime (tv : Timeval) : Option Timeval :=
  (msendDate tv).map fun date => sipmsgParseTimeval k mem (dates date) now

/-- Both ends name calls and messages of the time `tv` alike, and agree on the time. -/
structure NamedAlike (tv : Timeval) : Prop where
  callee : calleeTime k dates mem now tv = some { sec := tv.sec, usec := 0 }
  receiver : receiverTime k dates mem now tv = some tv
  ckey : ∀ c d : TcsipCall, c.run.call.cdir = .callOut → d.run.call.cdir = .callIn →
    c.sec = tv.sec → (calleeTime k dates mem now tv).map Timeval.sec = some d.sec →
    c.localAuri = d.remoteAuri → c.remoteAuri = d.localAuri → tcsipcallKey d = tcsipcallKey c
  idx : ∀ fromAddr toAddr : Text,
    (receiverTime k dates mem now tv).map (messageIdx · fromAddr toAddr)
      = some (messageIdx tv fromAddr toAddr)

variable {k dates mem now} {tv : Timeval}
  (hdates : ∀ v, HeaderValue v → dates (lit "Date: " ++ v ++ lit "\r\n") = [v])

include hdates

/-- The callee takes the second of the caller. -/
theorem calleeTime_eq (h : tv.Dated) :
    calleeTime k dates mem now tv = some { sec := tv.sec, usec := 0 } := by
  have hsec := h.sec
  rw [calleeTime, tcsipcallSendDate_eq h, Option.map_some, hdates _ (headerValue_callValue h)]
  unfold sipmsgParseTimeval applyFindDate
  rw [findDate_callValue h]
  exact congrArg some (if_neg (by show ¬ tv.sec ≤ 0; omega))

/-- The receiver takes the second of the sender, and stores the microseconds over what its
memory held. -/
theorem receiverTime_eq (h : tv.Dated) :
    receiverTime k dates mem now tv
      = some { sec := tv.sec, usec := k.store mem.tv.usec tv.usec.toNat } := by
  have hsec := h.sec
  rw [receiverTime, msendDate_eq h, Option.map_some, hdates _ (headerValue_messageValue h)]
  unfold sipmsgParseTimeval applyFindDate
  rw [findDate_messageValue h]
  exact congrArg some (if_neg (by show ¬ tv.sec ≤ 0; omega))

/-- **Both ends name calls alike.** -/
theorem ckey_alike (h : tv.Dated) {c d : TcsipCall} (hc : c.run.call.cdir = .callOut)
    (hd : d.run.call.cdir = .callIn) (hsec : c.sec = tv.sec)
    (hparsed : (calleeTime k dates mem now tv).map Timeval.sec = some d.sec)
    (hcaller : c.localAuri = d.remoteAuri) (hcallee : c.remoteAuri = d.localAuri) :
    tcsipcallKey d = tcsipcallKey c := by
  rw [calleeTime_eq hdates h, Option.map_some, Option.some.injEq] at hparsed
  unfold tcsipcallKey TcsipCall.route
  rw [hc, hd, hsec, ← hparsed, hcaller, hcallee]

/-- **Both ends name messages alike.** -/
theorem idx_alike (h : tv.Dated) (fromAddr toAddr : Text) :
    (receiverTime k dates mem now tv).map (messageIdx · fromAddr toAddr)
      = some (messageIdx tv fromAddr toAddr) := by
  rw [receiverTime_eq hdates h, Option.map_some]
  unfold messageIdx
  rw [fmt06u_store k mem.tv.usec h.usec]

/-- **The time of a message arrives exactly** if `tv_usec` has 32 bits, or if the upper half of
it was zero. -/
theorem namedAlike_iff (h : tv.Dated) :
    NamedAlike k dates mem now tv ↔ k = .bits32 ∨ 0 ≤ mem.tv.usec ∧ mem.tv.usec < 2 ^ 32 := by
  rw [← Suseconds.store_eq_iff k mem.tv.usec h.usec]
  constructor
  · intro halike
    have hreceiver := halike.receiver
    rw [receiverTime_eq hdates h, Option.some.injEq] at hreceiver
    exact congrArg Timeval.usec hreceiver
  · intro hstore
    refine ⟨calleeTime_eq hdates h, ?_, fun c d => ckey_alike hdates h, idx_alike hdates h⟩
    rw [receiverTime_eq hdates h, hstore]

end ends

/-! A receiver on Linux whose stack holds something else. -/

/-- The value of a header line. -/
def lineValue (line : Text) : List Text := [(line.drop 6).take (line.length - 8)]

theorem lineValue_header (v : Text) : lineValue (lit "Date: " ++ v ++ lit "\r\n") = [v] := by
  have hpre : (lit "Date: ").length = 6 := rfl
  have hpost : (lit "\r\n").length = 2 := rfl
  have hlen : (lit "Date: " ++ v ++ lit "\r\n").length - 8 = v.length := by
    simp only [List.length_append]
    omega
  rw [lineValue, hlen, List.append_assoc, List.drop_left' hpre, List.take_left' rfl]

/-- 13 May 2014, 16:53:20.001234. -/
def someTime : Timeval := { sec := 1400000000, usec := 1234 }

theorem dated_someTime : someTime.Dated := ⟨by decide, by decide +kernel, by decide, by decide⟩

/-- Nothing in a `struct tm`. -/
def noTm : Tm := { sec := 0, min := 0, hour := 0, mday := 0, mon := 0, year := 0, wday := 0 }

theorem namedAlike_iff_zeroed :
    NamedAlike .bits64 lineValue ⟨fun _ => noTm, ⟨0, 0⟩⟩ ⟨0, 0⟩ someTime ↔
      Suseconds.bits64 = .bits32 ∨ (0 : ℤ) ≤ 0 ∧ (0 : ℤ) < 2 ^ 32 :=
  namedAlike_iff (fun v _ => lineValue_header v) dated_someTime

theorem not_namedAlike_stale :
    ¬ ∀ (k : Suseconds) (dates : Text → List Text) (mem : Leftover) (now tv : Timeval),
      (∀ v, HeaderValue v → dates (lit "Date: " ++ v ++ lit "\r\n") = [v]) → tv.Dated →
        NamedAlike k dates mem now tv := by
  intro hall
  have halike := (hall .bits64 lineValue ⟨fun _ => noTm, ⟨0, 2 ^ 40⟩⟩ ⟨0, 0⟩ someTime
    (fun v _ => lineValue_header v) dated_someTime).receiver
  rw [receiverTime_eq (fun v _ => lineValue_header v) dated_someTime] at halike
  exact absurd halike (by decide)
