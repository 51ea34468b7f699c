/-
# The name in a certificate

`x509_info` has the subject of a certificate printed into a buffer on the stack, looks for
`/CN=` at each of the first 96 bytes of the buffer and copies what follows, up to a slash
or a NUL.  The search does not end where the subject does: if the subject has no `/CN=`, one
that the stack held behind the NUL is found in its place.

The text behind the first occurrence of a marker (`afterFirst`) is looked at first, for lists
of anything.
-/
import Tcsip.CText
import Tcsip.Client

/-! ## The text behind a marker -/

section marker

variable {α : Type*} {p : List α}

/-- A prefix without the separator ends before it. -/
theorem prefix_append_sep_iff {z : α} (hz : z ∉ p) (a b : List α) :
    p <+: a ++ z :: b ↔ p <+: a := by
  constructor
  · intro h
    rcases List.prefix_or_prefix_of_prefix h (List.prefix_append a (z :: b)) with hpa | hap
    · exact hpa
    · obtain ⟨q, rfl⟩ := hap
      rw [List.prefix_append_right_inj] at h
      cases q with
      | nil => rw [List.append_nil]
      | cons c q =>
          have hc : c = z := (List.cons_prefix_cons.mp h).1
          exact absurd (List.mem_append_right a (hc ▸ List.mem_cons_self)) hz
  · exact fun h => h.trans (List.prefix_append a (z :: b))

variable [DecidableEq α]

/-- What follows the first occurrence of `p`. -/
def afterFirst (p : List α) : List α → Option (List α)
  | [] => none
  | c :: l => if p <+: c :: l then some ((c :: l).drop p.length) else afterFirst p l

@[simp] theorem afterFirst_nil (p : List α) : afterFirst p [] = none := rfl

theorem afterFirst_cons_of_pos {c : α} {l : List α} (h : p <+: c :: l) :
    afterFirst p (c :: l) = some ((c :: l).drop p.length) := if_pos h

theorem afterFirst_cons_of_neg {c : α} {l : List α} (h : ¬ p <+: c :: l) :
    afterFirst p (c :: l) = afterFirst p l := if_neg h

/-- **A marker is not split by a separator**: the first one is in front of it, or if there is
none, the first one behind it. -/
theorem afterFirst_append_sep (hp : p ≠ []) {z : α} (hz : z ∉ p) (a b : List α) :
    afterFirst p (a ++ z :: b) =
      ((afterFirst p a).map (· ++ z :: b)).or (afterFirst p b) := by
  induction a with
  | nil =>
      have hnot : ¬ p <+: z :: b := by
        intro h
        exact hp (List.prefix_nil.mp ((prefix_append_sep_iff hz [] b).mp h))
      rw [List.nil_append, afterFirst_cons_of_neg hnot]
      rfl
  | cons c a ih =>
      have hiff := prefix_append_sep_iff hz (c :: a) b
      rw [List.cons_append] at hiff ⊢
      by_cases h : p <+: c :: a
      · rw [afterFirst_cons_of_pos h, afterFirst_cons_of_pos (hiff.mpr h), ← List.cons_append,
          List.drop_append_of_le_length h.length_le]
        rfl
      · rw [afterFirst_cons_of_neg h, afterFirst_cons_of_neg (mt hiff.mp h), ih]

theorem afterFirst_append (hp : p ≠ []) (t : List α) : afterFirst p (p ++ t) = some t := by
  obtain ⟨c, q, rfl⟩ := List.exists_cons_of_ne_nil hp
  have hpre : c :: q <+: c :: (q ++ t) := List.prefix_append (c :: q) t
  rw [List.cons_append, afterFirst_cons_of_pos hpre, ← List.cons_append, List.drop_left]

theorem afterFirst_map {β : Type*} [DecidableEq β] {f : α → β} (hf : Function.Injective f)
    (p l : List α) :
    afterFirst (p.map f) (l.map f) = (afterFirst p l).map (List.map f) := by
  induction l with
  | nil => rfl
  | cons c l ih =>
      have hiff : p.map f <+: (c :: l).map f ↔ p <+: c :: l :=
        List.prefix_map_iff_of_injective hf
      rw [List.map_cons] at hiff ⊢
      by_cases h : p <+: c :: l
      · rw [afterFirst_cons_of_pos h, afterFirst_cons_of_pos (hiff.mpr h), ← List.map_cons,
          ← List.map_drop, List.length_map]
        rfl
      · rw [afterFirst_cons_of_neg h, afterFirst_cons_of_neg (mt hiff.mp h), ih]

theorem length_of_afterFirst {l t : List α} (h : afterFirst p l = some t) :
    t.length + p.length ≤ l.length := by
  induction l with
  | nil => exact absurd h (by simp)
  | cons c l ih =>
      by_cases hpre : p <+: c :: l
      · have hle := hpre.length_le
        rw [afterFirst_cons_of_pos hpre] at h
        rw [← Option.some.inj h, List.length_drop]
        omega
      · rw [afterFirst_cons_of_neg hpre] at h
        have hle := ih h
        rw [List.length_cons]
        omega

/-- **A search that stops short.**  If every position but the last that `p` could stand at is
tried, then only a `p` at the very end is missed. -/
theorem find_range_eq {l : List α} {n : ℕ} (hl : l.length = n + p.length) :
    ((List.range n).find? fun i => decide (p <+: l.drop i)).map (fun i => l.drop (i + p.length)) =
      (afterFirst p l).filter (· ≠ []) := by
  induction n generalizing l with
  | zero =>
      cases h : afterFirst p l with
      | none => rfl
      | some t =>
          have hlen := length_of_afterFirst h
          have ht : t = [] := List.length_eq_zero_iff.mp (by omega)
          rw [ht]
          rfl
  | succ n ih =>
      cases l with
      | nil => rw [List.length_nil] at hl; omega
      | cons c l =>
          rw [List.length_cons] at hl
          rw [List.range_succ_eq_map, List.find?_cons]
          by_cases h : p <+: c :: l
          · have hdrop : (c :: l).drop p.length ≠ [] := by
              rw [Ne, List.drop_eq_nil_iff, List.length_cons]
              omega
            simp [h, afterFirst_cons_of_pos h, Option.filter, hdrop]
          · rw [afterFirst_cons_of_neg h, ← ih (by omega), List.find?_map]
            simp [h, Function.comp_def, Nat.succ_add]

end marker

/-! ## The code -/

/-- What `x509_info` reads of a certificate; `notAfter` is what `cert_time` makes of it. -/
structure X509 where
  subject : Text
  notAfter : ℤ

/-- `buf` after `X509_NAME_oneline`: `residue` is what the stack held there before. -/
def onelineBuf (subject : Text) (residue : List Byte) : List Byte :=
  bytes subject ++ nul :: residue

/-- The first loop of `x509_info`. -/
def cnStart (buf : List Byte) : ℕ :=
  match (List.range (100 - 4)).find? fun idx => bytes (lit "/CN=") <+: buf.drop idx with
  | some idx => idx + 4
  | none => 0

/-- The second loop: `end`. -/
def cnEnd (buf : List Byte) (start : ℕ) : ℕ :=
  start + ((buf.drop start).take (100 - start)).findIdx fun b =>
    b = (byteOf '/').1 ∨ b = nul

/-- The string behind `cname`. -/
def cnOf (buf : List Byte) : Text :=
  let start := cnStart buf
  cstr ((buf.drop start).take (cnEnd buf start - start))

/-- `x509_info`: `file` is `none` if the file cannot be opened, `some none` if there is no
certificate in it. -/
def x509Info (file : Option (Option X509)) (residue : List Byte) : ℤ × Option X509Info :=
  match file with
  | none => (-1, none)
  | some none => (-2, none)
  | some (some x509) => (0, some ⟨x509.notAfter, cnOf (onelineBuf x509.subject residue)⟩)

/-- What the name is supposed to be: the text behind the first `/CN=` of the subject, up to the
next slash. -/
def commonName (subject : Text) : Text :=
  match afterFirst (lit "/CN=") subject with
  | some t => t.takeWhile (· ≠ byteOf '/')
  | none => []

/-! ## What the loops find -/

/-- The part of the buffer that the second loop starts at. -/
def cnTail (buf : List Byte) : List Byte :=
  ((afterFirst (bytes (lit "/CN=")) buf).filter (· ≠ [])).getD buf

theorem drop_cnStart {buf : List Byte} (hbuf : buf.length = 100) :
    buf.drop (cnStart buf) = cnTail buf := by
  have hfind := find_range_eq (p := bytes (lit "/CN=")) (l := buf) (n := 96) hbuf
  unfold cnTail cnStart
  rw [← hfind]
  cases (List.range (100 - 4)).find? fun idx => decide (bytes (lit "/CN=") <+: buf.drop idx) with
  | none => rfl
  | some idx => rfl

theorem cstr_cons {b : Byte} (hb : b ≠ nul) (l : List Byte) : cstr (b :: l) = ⟨b, hb⟩ :: cstr l :=
  dif_pos hb

theorem cstr_bytes_append (t : Text) (l : List Byte) : cstr (bytes t ++ nul :: l) = t := by
  induction t with
  | nil => rfl
  | cons c t ih =>
      rw [bytes, List.map_cons, List.cons_append, cstr_cons c.property]
      exact congrArg (c :: ·) ih

/-- What a C string shows of bytes up to the first that is a slash or a NUL. -/
theorem cstr_takeWhile (l : List Byte) :
    cstr (l.takeWhile fun b => !decide (b = (byteOf '/').1 ∨ b = nul)) =
      (cstr l).takeWhile (· ≠ byteOf '/') := by
  induction l with
  | nil => rfl
  | cons b l ih =>
      by_cases hnul : b = nul
      · subst hnul
        rfl
      · rw [cstr_cons hnul, List.takeWhile_cons, List.takeWhile_cons]
        by_cases hslash : b = (byteOf '/').1
        · subst hslash
          simp [cstr]
        · have hne : (⟨b, hnul⟩ : CChar) ≠ byteOf '/' := fun h => hslash (congrArg Subtype.val h)
          rw [if_pos (by simp [hnul, hslash]), if_pos (by simp [hne]), cstr_cons hnul, ih]

/-- **The name** is the string that the second loop starts at, up to a slash. -/
theorem cnOf_eq {buf : List Byte} (hbuf : buf.length = 100) :
    cnOf buf = (cstr (cnTail buf)).takeWhile (· ≠ byteOf '/') := by
  have htake : (buf.drop (cnStart buf)).take (100 - cnStart buf) = buf.drop (cnStart buf) := by
    apply List.take_of_length_le
    rw [List.length_drop, hbuf]
  unfold cnOf cnEnd
  dsimp only
  rw [htake, Nat.add_sub_cancel_left, drop_cnStart hbuf, ← cstr_takeWhile,
    List.takeWhile_eq_take_findIdx_not]
  simp only [Bool.not_not]

section name

variable {subject : Text} {residue : List Byte}

/-- With a marker in the subject the rest of the buffer does not matter. -/
theorem cnTail_of_mem {t : Text} (h : afterFirst (lit "/CN=") subject = some t) :
    cnTail (onelineBuf subject residue) = bytes t ++ nul :: residue := by
  unfold cnTail onelineBuf
  rw [afterFirst_append_sep (by decide) (by decide), bytes, bytes,
    afterFirst_map Subtype.val_injective, h]
  simp [Option.filter, bytes]

/-- Without one, the marker is looked for behind the NUL. -/
theorem cnTail_of_notMem (h : afterFirst (lit "/CN=") subject = none) :
    cnTail (onelineBuf subject residue) =
      ((afterFirst (bytes (lit "/CN=")) residue).filter (· ≠ [])).getD
        (onelineBuf subject residue) := by
  unfold cnTail onelineBuf
  rw [afterFirst_append_sep (by decide) (by decide), bytes, bytes,
    afterFirst_map Subtype.val_injective, h]
  rfl

/-- The bytes of the buffer that the code takes for the name are those of the subject's: it has
a `/CN=`; or there is one in the residue, and nothing between it and the next slash or NUL; or
there is none at all, and the subject is empty or begins with a slash. -/
def NameOfSubject (subject : Text) (residue : List Byte) : Prop :=
  (afterFirst (lit "/CN=") subject).isSome = true ∨
    match afterFirst (bytes (lit "/CN=")) residue with
    | some (b :: _) => b = (byteOf '/').1 ∨ b = nul
    | _ => ∀ c ∈ subject.head?, c = byteOf '/'

/-- Nothing is read when the first byte ends the name. -/
theorem takeWhile_cstr_cons_eq_nil {b : Byte} {l : List Byte} :
    (cstr (b :: l)).takeWhile (· ≠ byteOf '/') = [] ↔ b = (byteOf '/').1 ∨ b = nul := by
  by_cases hnul : b = nul
  · subst hnul
    exact iff_of_true rfl (Or.inr rfl)
  · rw [cstr_cons hnul, List.takeWhile_cons, or_iff_left hnul]
    simp [Subtype.ext_iff]

theorem takeWhile_eq_nil_iff_head? {s : Text} :
    s.takeWhile (· ≠ byteOf '/') = [] ↔ ∀ c ∈ s.head?, c = byteOf '/' := by
  cases s with
  | nil => simp
  | cons c s => simp [List.takeWhile_cons]

theorem length_onelineBuf (hlen : subject.length ≤ 99)
    (hres : residue.length = 99 - subject.length) : (onelineBuf subject residue).length = 100 := by
  rw [onelineBuf, List.length_append, bytes, List.length_map, List.length_cons]
  omega

theorem cnOf_onelineBuf_iff (hlen : subject.length ≤ 99)
    (hres : residue.length = 99 - subject.length) :
    cnOf (onelineBuf subject residue) = commonName subject ↔ NameOfSubject subject residue := by
  rw [cnOf_eq (length_onelineBuf hlen hres), NameOfSubject, commonName]
  cases hs : afterFirst (lit "/CN=") subject with
  | some t =>
      rw [cnTail_of_mem hs, cstr_bytes_append]
      exact iff_of_true rfl (Or.inl rfl)
  | none =>
      rw [cnTail_of_notMem hs, Option.isSome_none, or_iff_right Bool.false_ne_true]
      rcases hr : afterFirst (bytes (lit "/CN=")) residue with _ | _ | ⟨b, l⟩
      · exact (cstr_bytes_append subject residue).symm ▸ takeWhile_eq_nil_iff_head?
      · exact (cstr_bytes_append subject residue).symm ▸ takeWhile_eq_nil_iff_head?
      · exact takeWhile_cstr_cons_eq_nil

/-- A residue that gives the name `c` to every subject without a marker. -/
def intruder (subject : Text) (c : CChar) : List Byte :=
  bytes (lit "/CN=") ++ bytes (c :: List.replicate (94 - subject.length) (byteOf '/'))

theorem length_intruder (hlen : subject.length ≤ 94) (c : CChar) :
    (intruder subject c).length = 99 - subject.length := by
  have h4 : (bytes (lit "/CN=")).length = 4 := rfl
  rw [intruder, List.length_append, h4, bytes, List.length_map, List.length_cons,
    List.length_replicate]
  omega

theorem cnOf_intruder (hs : afterFirst (lit "/CN=") subject = none) (hlen : subject.length ≤ 94)
    {c : CChar} (hc : c ≠ byteOf '/') :
    cnOf (onelineBuf subject (intruder subject c)) = [c] := by
  have hbuf := length_onelineBuf (hlen.trans (by decide)) (length_intruder hlen c)
  have htail : cnTail (onelineBuf subject (intruder subject c)) =
      bytes (c :: List.replicate (94 - subject.length) (byteOf '/')) := by
    rw [cnTail_of_notMem hs, intruder, afterFirst_append (by decide)]
    rfl
  rw [cnOf_eq hbuf, htail, cstr_bytes, List.takeWhile_cons, if_pos (by simp [hc])]
  cases 94 - subject.length with
  | zero => rfl
  | succ n => simp [List.replicate_succ]

/-- A residue of fewer than five bytes is not searched. -/
theorem cnTail_of_short (hs : afterFirst (lit "/CN=") subject = none)
    (hres : residue.length ≤ 4) :
    cnTail (onelineBuf subject residue) = onelineBuf subject residue := by
  rw [cnTail_of_notMem hs]
  cases hr : afterFirst (bytes (lit "/CN=")) residue with
  | none => rfl
  | some t =>
      have h4 : (bytes (lit "/CN=")).length = 4 := rfl
      have hle := length_of_afterFirst hr
      have ht : t = [] := List.length_eq_zero_iff.mp (by omega)
      rw [ht]
      rfl

/-- **The residue does not matter** exactly if the subject has a marker, or leaves no room for
one behind it. -/
theorem cnOf_indep_iff (hlen : subject.length ≤ 99) :
    (∀ residue residue', residue.length = 99 - subject.length →
      residue'.length = 99 - subject.length →
      cnOf (onelineBuf subject residue) = cnOf (onelineBuf subject residue')) ↔
      (afterFirst (lit "/CN=") subject).isSome = true ∨ 95 ≤ subject.length := by
  constructor
  · intro h
    by_contra hneg
    rw [not_or, Bool.not_eq_true, Option.isSome_eq_false_iff, Option.isNone_iff_eq_none] at hneg
    obtain ⟨hs, hroom⟩ := hneg
    have hlen94 : subject.length ≤ 94 := by omega
    have heq := h (intruder subject (byteOf 'x')) (intruder subject (byteOf 'y'))
      (length_intruder hlen94 _) (length_intruder hlen94 _)
    rw [cnOf_intruder hs hlen94 (by decide), cnOf_intruder hs hlen94 (by decide)] at heq
    exact absurd heq (by decide)
  · intro h residue residue' hres hres'
    rw [cnOf_eq (length_onelineBuf hlen hres), cnOf_eq (length_onelineBuf hlen hres')]
    cases hs : afterFirst (lit "/CN=") subject with
    | some t =>
        rw [cnTail_of_mem hs, cnTail_of_mem hs, cstr_bytes_append, cstr_bytes_append]
    | none =>
        rw [hs, Option.isSome_none, or_iff_right Bool.false_ne_true] at h
        rw [cnTail_of_short hs (by omega), cnTail_of_short hs (by omega), onelineBuf, onelineBuf,
          cstr_bytes_append, cstr_bytes_append]

end name

/-! ## The name in the answer -/

/-- The user that a login sets is the one of the subject, if its name is read right. -/
theorem tcsipLocal_cname {A : Type*} (env : LoginEnv A) (sip : Tcsip A) (login : Text) (now : ℤ)
    (tlsErr : Bool) {x509 : X509} {residue : List Byte} (hlen : x509.subject.length ≤ 99)
    (hres : residue.length = 99 - x509.subject.length)
    (hname : NameOfSubject x509.subject residue) :
    (tcsipLocal env sip login (x509Info (some (some x509)) residue).2 now tlsErr).1.cname =
      some ⟨sip.heap, commonName x509.subject⟩ := by
  have hinfo : x509Info (some (some x509)) residue =
      (0, some ⟨x509.notAfter, commonName x509.subject⟩) := by
    simp only [x509Info, (cnOf_onelineBuf_iff hlen hres).mpr hname]
  rw [hinfo]
  unfold tcsipLocal
  dsimp only
  split_ifs <;> rfl

/-- **The name of a certificate** is the one in its subject exactly if the stack does not get in
the way, and it does not depend on the stack exactly if the subject has a name, or no room
behind it. -/
theorem x509Info_name_iff (x509 : X509) (hlen : x509.subject.length ≤ 99) :
    (∀ residue, residue.length = 99 - x509.subject.length →
      (x509Info (some (some x509)) residue =
        (0, some ⟨x509.notAfter, commonName x509.subject⟩) ↔
          NameOfSubject x509.subject residue)) ∧
    ((∀ residue residue', residue.length = 99 - x509.subject.length →
      residue'.length = 99 - x509.subject.length →
      x509Info (some (some x509)) residue = x509Info (some (some x509)) residue') ↔
        (afterFirst (lit "/CN=") x509.subject).isSome = true ∨ 95 ≤ x509.subject.length) := by
  constructor
  · intro residue hres
    rw [← cnOf_onelineBuf_iff hlen hres]
    simp [x509Info]
  · rw [← cnOf_indep_iff hlen]
    simp [x509Info]

/-- A subject with a name is read right over anything. -/
theorem x509Info_name_anna :
    x509Info (some (some ⟨lit "/O=texr/CN=anna/L=x", 7⟩)) (List.replicate 80 nul) =
      (0, some ⟨7, lit "anna"⟩) := by
  have hname := (x509Info_name_iff ⟨lit "/O=texr/CN=anna/L=x", 7⟩ (by decide)).1
    (List.replicate 80 nul) List.length_replicate
  exact hname.mpr (Or.inl (by decide))

/-- An organisation without a name takes the one that the stack holds. -/
theorem x509Info_residue_ne :
    ¬ ∀ x509 : X509, x509.subject.length ≤ 99 →
      ∀ residue : List Byte, residue.length = 99 - x509.subject.length →
        x509Info (some (some x509)) residue =
          (0, some ⟨x509.notAfter, commonName x509.subject⟩) := by
  intro h
  have heq := h ⟨lit "/O=texr", 0⟩ (by decide) (intruder (lit "/O=texr") (byteOf 'x'))
    (length_intruder (by decide) _)
  have hname : cnOf (onelineBuf (lit "/O=texr") (intruder (lit "/O=texr") (byteOf 'x'))) =
      [byteOf 'x'] := cnOf_intruder (by decide) (by decide) (by decide)
  simp only [x509Info, hname] at heq
  exact absurd heq (by decide)
