/-
# The GLOB operator

`patternCompare` of the embedded database with its GLOB characters `*`, `?` and `[`.
Pattern and string are first read as UTF-8 characters (`utf8Chars`), which the code
does on the fly; the searches it makes after a `*` are one search over the tails of the
string here.

What the store needs is `globMatch_self`: a pattern that is some text followed by `*`
matches every string that begins with this text, unless the text has a `[` in it.
-/
import Tcsip.CText

/-! ## Reading UTF-8 -/

/-- The value bits of the first byte of a longer character. -/
def utf8Trans1 (b : ℕ) : ℕ :=
  if b < 0xe0 then b - 0xc0
  else if b < 0xf0 then b - 0xe0
  else if b < 0xf8 then b - 0xf0
  else if b < 0xfc then b - 0xf8
  else if b = 0xfd then 1
  else 0

/-- Values that no longer character may stand for are read as U+FFFD. -/
def utf8Checked (c : ℕ) : ℕ :=
  if c < 0x80 ∨ (0xd800 ≤ c ∧ c < 0xe000) ∨ c = 0xfffe ∨ c = 0xffff then 0xfffd else c

/-- The characters of a string; `pending` is the value of a longer character that may
still be continued. -/
def utf8Go : Option ℕ → Text → List ℕ
  | none, [] => []
  | some c, [] => [utf8Checked c]
  | none, b :: l =>
    if 0xc0 ≤ b.1.1 then utf8Go (some (utf8Trans1 b.1.1)) l else b.1.1 :: utf8Go none l
  | some c, b :: l =>
    if 0x80 ≤ b.1.1 ∧ b.1.1 < 0xc0 then
      utf8Go (some ((c * 64 + b.1.1 % 64) % 2 ^ 32)) l
    else if 0xc0 ≤ b.1.1 then utf8Checked c :: utf8Go (some (utf8Trans1 b.1.1)) l
    else utf8Checked c :: b.1.1 :: utf8Go none l

def utf8Chars (t : Text) : List ℕ := utf8Go none t

/-- A character of the basic Latin block ends whatever was pending. -/
theorem utf8Go_append_ascii (pending : Option ℕ) (l x : Text) {b : CChar}
    (hb : b.1.1 < 0x80) :
    utf8Go pending (l ++ b :: x) = utf8Go pending l ++ b.1.1 :: utf8Go none x := by
  induction l generalizing pending with
  | nil =>
    have h1 : ¬ 0xc0 ≤ b.1.1 := by omega
    have h2 : ¬ (0x80 ≤ b.1.1 ∧ b.1.1 < 0xc0) := by omega
    cases pending with
    | none => simp [utf8Go, h1]
    | some c => simp [utf8Go, h1, h2]
  | cons d l ih =>
    cases pending with
    | none =>
      simp only [List.cons_append, utf8Go]
      split <;> simp [ih]
    | some c =>
      simp only [List.cons_append, utf8Go]
      split
      · exact ih _
      · split <;> simp [ih]

theorem utf8Checked_ge (c : ℕ) : 0x80 ≤ utf8Checked c := by
  rw [utf8Checked]
  split <;> omega

/-- Characters of the basic Latin block are bytes of the string. -/
theorem mem_of_mem_utf8Go {pending : Option ℕ} {l : Text} {n : ℕ} (hn : n < 0x80)
    (h : n ∈ utf8Go pending l) : ∃ b ∈ l, b.1.1 = n := by
  have hchecked : ∀ c, n ≠ utf8Checked c := fun c => by
    have := utf8Checked_ge c
    omega
  induction l generalizing pending with
  | nil =>
    cases pending with
    | none => simp [utf8Go] at h
    | some c => exact absurd (by simpa [utf8Go] using h) (hchecked c)
  | cons b l ih =>
    have hlift : (∃ d ∈ l, d.1.1 = n) → ∃ d ∈ b :: l, d.1.1 = n := by
      rintro ⟨d, hd, hdn⟩
      exact ⟨d, List.mem_cons_of_mem b hd, hdn⟩
    cases pending with
    | none =>
      rw [utf8Go] at h
      split at h
      · exact hlift (ih h)
      · rcases List.mem_cons.mp h with rfl | h
        · exact ⟨b, List.mem_cons_self, rfl⟩
        · exact hlift (ih h)
    | some c =>
      rw [utf8Go] at h
      split at h
      · exact hlift (ih h)
      · split at h
        · rcases List.mem_cons.mp h with h | h
          · exact absurd h (hchecked c)
          · exact hlift (ih h)
        · rcases List.mem_cons.mp h with h | h
          · exact absurd h (hchecked c)
          · rcases List.mem_cons.mp h with rfl | h
            · exact ⟨b, List.mem_cons_self, rfl⟩
            · exact hlift (ih h)

/-! ## Pattern matching -/

/-- The members of a set up to its closing bracket, for the character `c` of the
string: whether it was seen, and the pattern after the bracket.  A set that is not
closed matches nothing. -/
def globSet (c : ℕ) : ℕ → Bool → List ℕ → Option (Bool × List ℕ)
  | _, _, [] => none
  | _, seen, [c2] => if c2 = ']'.toNat then some (seen, []) else none
  | prior, seen, c2 :: hi :: p =>
    if c2 = ']'.toNat then some (seen, hi :: p)
    else if c2 = '-'.toNat ∧ hi ≠ ']'.toNat ∧ 0 < prior then
      globSet c 0 (seen || (prior ≤ c && c ≤ hi)) p
    else globSet c c2 (seen || c == c2) (hi :: p)

/-- A set `[...]` or `[^...]`, after its opening bracket; a `]` right at the beginning
is a member. -/
def globClass (c : ℕ) (p : List ℕ) : Option (Bool × List ℕ) :=
  let invert := p.head? == some '^'.toNat
  let p := if invert then p.tail else p
  let first := p.head? == some ']'.toNat
  let seen := first && c == ']'.toNat
  let p := if first then p.tail else p
  (globSet c 0 seen p).map fun r => (r.1 ^^ invert, r.2)

/-- `patternCompare` for GLOB; the fuel bounds the length of the pattern. -/
def patternCompare : ℕ → List ℕ → List ℕ → Bool
  | 0, _, _ => false
  | _ + 1, [], s => s.isEmpty
  | n + 1, c :: p, s =>
    if c = '*'.toNat then s.tails.any fun t => patternCompare n p t
    else
      match s with
      | [] => false
      | d :: t =>
        if c = '?'.toNat then patternCompare n p t
        else if c = '['.toNat then
          match globClass d p with
          | some (true, q) => patternCompare n q t
          | _ => false
        else c == d && patternCompare n p t

/-- `string GLOB pattern`. -/
def globMatch (pattern string : Text) : Bool :=
  patternCompare ((utf8Chars pattern).length + 1) (utf8Chars pattern) (utf8Chars string)

/-- Characters without a `[`, followed by a star, match themselves with anything after
them. -/
theorem patternCompare_self_star {A : List ℕ} (hA : '['.toNat ∉ A) (X : List ℕ) {n : ℕ}
    (hn : A.length + 2 ≤ n) :
    patternCompare n (A ++ ['*'.toNat]) (A ++ X) = true := by
  induction A generalizing n with
  | nil =>
    obtain ⟨n, rfl⟩ : ∃ k, n = k + 2 := ⟨n - 2, by simp at hn; omega⟩
    simp only [List.nil_append, patternCompare, if_true, List.any_eq_true]
    exact ⟨[], by simp, rfl⟩
  | cons c A ih =>
    obtain ⟨n, rfl⟩ : ∃ k, n = k + 1 := ⟨n - 1, by simp at hn; omega⟩
    have hrest : patternCompare n (A ++ ['*'.toNat]) (A ++ X) = true :=
      ih (fun h => hA (List.mem_cons_of_mem c h)) (by simp at hn; omega)
    have hc : c ≠ '['.toNat := fun h => hA (h ▸ List.mem_cons_self)
    simp only [List.cons_append, patternCompare]
    split
    · -- the character is itself a star, which may match nothing
      rw [List.any_eq_true]
      exact ⟨A ++ X, by simp [List.mem_tails], hrest⟩
    · simp only [hrest, beq_self_eq_true, Bool.and_self, ite_self]

/-- **A text followed by `/*` matches what continues the text after a slash**, unless
it has a `[` in it. -/
theorem globMatch_self {t : Text} (ht : byteOf '[' ∉ t) (x : Text) :
    globMatch (t ++ [byteOf '/', byteOf '*']) (t ++ byteOf '/' :: x) = true := by
  have hpat : utf8Chars (t ++ [byteOf '/', byteOf '*'])
      = (utf8Chars t ++ ['/'.toNat]) ++ ['*'.toNat] := by
    rw [utf8Chars, utf8Go_append_ascii none t _ (by decide), List.append_assoc]
    rfl
  have hstr : utf8Chars (t ++ byteOf '/' :: x)
      = (utf8Chars t ++ ['/'.toNat]) ++ utf8Chars x := by
    rw [utf8Chars, utf8Go_append_ascii none t x (by decide), List.append_assoc]
    rfl
  have hbracket : '['.toNat ∉ utf8Chars t ++ ['/'.toNat] := by
    rw [List.mem_append, not_or]
    refine ⟨fun h => ?_, by decide⟩
    obtain ⟨b, hb, hval⟩ := mem_of_mem_utf8Go (by decide) h
    apply ht
    have hbv : b = byteOf '[' := Subtype.ext (Fin.ext (by rw [hval]; rfl))
    rwa [← hbv]
  rw [globMatch, hpat, hstr]
  exact patternCompare_self_star hbracket _ (by simp)

/-! ## Patterns that end in a slash and a star -/

/-- The end of such a pattern. -/
def slashStar : List ℕ := ['/'.toNat, '*'.toNat]

/-- A set that is closed is closed before the end. -/
theorem globSet_append_slashStar {c prior : ℕ} {seen seen' : Bool} {A q : List ℕ}
    (h : globSet c prior seen (A ++ slashStar) = some (seen', q)) : ∃ B, q = B ++ slashStar := by
  induction hn : A.length using Nat.strong_induction_on generalizing A prior seen with
  | _ n ih =>
      match A with
      | [] =>
          have hnone : globSet c prior seen slashStar = none := by
            simp [slashStar, globSet]
          exact nomatch hnone.symm.trans h
      | [x] =>
          rw [List.singleton_append, slashStar, globSet] at h
          split at h
          · exact ⟨[], (Prod.ext_iff.mp (Option.some.inj h)).2.symm⟩
          · split at h
            · -- the range would take the slash
              have hnone : ∀ s, globSet c 0 s ['*'.toNat] = none := fun s => by simp [globSet]
              exact nomatch (hnone _).symm.trans h
            · exact ih 0 (by rw [← hn]; exact Nat.zero_lt_one) (A := []) h rfl
      | x :: y :: A =>
          rw [List.cons_append, List.cons_append, globSet] at h
          split at h
          · exact ⟨y :: A, (Prod.ext_iff.mp (Option.some.inj h)).2.symm⟩
          · split at h
            · exact ih A.length (by rw [← hn, List.length_cons, List.length_cons]; omega) h rfl
            · exact ih (y :: A).length (by rw [← hn, List.length_cons (a := x)]; omega)
                (A := y :: A) h rfl

theorem globClass_append_slashStar {c : ℕ} {seen : Bool} {A q : List ℕ}
    (h : globClass c (A ++ slashStar) = some (seen, q)) : ∃ B, q = B ++ slashStar := by
  -- neither a `^` nor a `]` at the beginning can be the slash
  have hdrop : ∀ (m : ℕ) (B : List ℕ), m ≠ '/'.toNat → ∃ B',
      (if (B ++ slashStar).head? == some m then (B ++ slashStar).tail else B ++ slashStar) =
        B' ++ slashStar := by
    intro m B hm
    cases B with
    | nil => exact ⟨[], if_neg fun heq => hm (Option.some.inj (beq_iff_eq.mp heq)).symm⟩
    | cons x B =>
        split
        · exact ⟨B, rfl⟩
        · exact ⟨x :: B, rfl⟩
  unfold globClass at h
  obtain ⟨⟨seen', q'⟩, hset, heq⟩ := Option.map_eq_some_iff.mp h
  obtain ⟨B, hB⟩ := hdrop '^'.toNat A (by decide)
  rw [hB] at hset
  obtain ⟨B', hB'⟩ := hdrop ']'.toNat B (by decide)
  rw [hB'] at hset
  obtain rfl : q' = q := (Prod.ext_iff.mp heq).2
  exact globSet_append_slashStar hset

/-- What a star, a question mark, a set and any other character match. -/
theorem patternCompare_cons_cons (n c : ℕ) (p : List ℕ) (d : ℕ) (t : List ℕ) :
    patternCompare (n + 1) (c :: p) (d :: t) =
      if c = '*'.toNat then (d :: t).tails.any fun u => patternCompare n p u
      else if c = '?'.toNat then patternCompare n p t
      else if c = '['.toNat then
        match globClass d p with
        | some (true, q) => patternCompare n q t
        | _ => false
      else c == d && patternCompare n p t := by
  simp only [patternCompare]

theorem patternCompare_cons_nil (n c : ℕ) (p : List ℕ) :
    patternCompare (n + 1) (c :: p) [] =
      if c = '*'.toNat then patternCompare n p [] else false := by
  simp only [patternCompare, List.tails, List.any_cons, List.any_nil, Bool.or_false]

/-- Such a pattern matches nothing without a slash. -/
theorem patternCompare_slashStar_of_notMem {n : ℕ} {A s : List ℕ} (hs : '/'.toNat ∉ s) :
    patternCompare n (A ++ slashStar) s = false := by
  induction n generalizing A s with
  | zero => rfl
  | succ n ih =>
      cases s with
      | nil =>
          cases A with
          | nil => rfl
          | cons c A =>
              rw [List.cons_append, patternCompare_cons_nil, ih hs, ite_self]
      | cons d s =>
          have hs' : '/'.toNat ∉ s := fun hmem => hs (List.mem_cons_of_mem d hmem)
          cases A with
          | nil =>
              have hd : ('/'.toNat == d) = false :=
                beq_false_of_ne fun heq => hs (heq ▸ List.mem_cons_self)
              rw [List.nil_append, slashStar, patternCompare_cons_cons, hd]
              rfl
          | cons c A =>
              rw [List.cons_append, patternCompare_cons_cons]
              split
              · rw [List.any_eq_false]
                intro t ht
                rw [ih fun hmem => hs ((List.mem_tails _ _ |>.mp ht).subset hmem)]
                exact Bool.false_ne_true
              · split
                · exact ih hs'
                · split
                  · split
                    · next hclass =>
                      obtain ⟨B, rfl⟩ := globClass_append_slashStar hclass
                      exact ih hs'
                    · rfl
                  · rw [ih hs', Bool.and_false]

/-- A star at the end matches everything, if there is fuel for it. -/
theorem patternCompare_star (n : ℕ) (s : List ℕ) :
    patternCompare n ['*'.toNat] s = decide (2 ≤ n) := by
  match n with
  | 0 => rfl
  | 1 => simp [patternCompare]
  | n + 2 =>
      have hempty : ∃ u ∈ s.tails, patternCompare (n + 1) [] u = true :=
        ⟨[], (List.mem_tails _ _).mpr List.nil_suffix, rfl⟩
      rw [decide_eq_true (by omega)]
      simpa only [patternCompare, if_true, List.any_eq_true] using hempty

/-- A search over tails does not look into an end in which it finds nothing. -/
theorem any_tails_append {α : Type*} {p : List α → Bool} {s d : List α}
    (hin : ∀ u, u <:+ d → p u = false) (happend : ∀ u, p (u ++ d) = p u) :
    (s ++ d).tails.any p = s.tails.any p := by
  rw [Bool.eq_iff_iff, List.any_eq_true, List.any_eq_true]
  constructor
  · rintro ⟨u, hu, hmatch⟩
    have hsuffix := (List.mem_tails _ _).mp hu
    rcases List.suffix_or_suffix_of_suffix hsuffix (List.suffix_append s d) with hend | ⟨v, rfl⟩
    · rw [hin u hend] at hmatch
      exact absurd hmatch Bool.false_ne_true
    · obtain ⟨w, hw⟩ := hsuffix
      rw [← List.append_assoc] at hw
      rw [happend] at hmatch
      exact ⟨v, (List.mem_tails _ _).mpr ⟨w, List.append_cancel_right hw⟩, hmatch⟩
  · rintro ⟨u, hu, hmatch⟩
    obtain ⟨w, rfl⟩ := (List.mem_tails _ _).mp hu
    refine ⟨u ++ d, (List.mem_tails _ _).mpr ⟨w, ?_⟩, by rwa [happend]⟩
    rw [List.append_assoc]

/-- **What comes after the last slash does not matter** for such a pattern. -/
theorem patternCompare_slashStar_append {n : ℕ} {A s d : List ℕ} (hd : '/'.toNat ∉ d) :
    patternCompare n (A ++ slashStar) (s ++ d) = patternCompare n (A ++ slashStar) s := by
  induction n generalizing A s with
  | zero => rfl
  | succ n ih =>
      cases s with
      | nil =>
          rw [List.nil_append, patternCompare_slashStar_of_notMem hd,
            patternCompare_slashStar_of_notMem List.not_mem_nil]
      | cons x s =>
          rw [List.cons_append]
          cases A with
          | nil =>
              rw [List.nil_append, slashStar, patternCompare_cons_cons, patternCompare_cons_cons,
                patternCompare_star, patternCompare_star]
              rfl
          | cons c A =>
              rw [List.cons_append, patternCompare_cons_cons, patternCompare_cons_cons]
              have hstar := any_tails_append (p := fun u => patternCompare n (A ++ slashStar) u)
                (s := x :: s) (fun u hu =>
                  patternCompare_slashStar_of_notMem fun hmem => hd (hu.subset hmem)) fun _ => ih
              rw [List.cons_append] at hstar
              rw [hstar, ih]
              split
              · rfl
              · split
                · rfl
                · split
                  · split
                    · next hclass =>
                      obtain ⟨B, rfl⟩ := globClass_append_slashStar hclass
                      exact ih
                    · rfl
                  · rfl

/-- A character that stands for itself in a pattern. -/
def PlainChar (c : ℕ) : Prop := c ≠ '*'.toNat ∧ c ≠ '?'.toNat ∧ c ≠ '['.toNat

/-- Without special characters such a pattern matches what begins with it. -/
theorem patternCompare_slashStar_of_plain {n : ℕ} {A s : List ℕ} (hA : ∀ c ∈ A, PlainChar c)
    (hn : A.length + 3 ≤ n) :
    patternCompare n (A ++ slashStar) s = true ↔ A ++ ['/'.toNat] <+: s := by
  induction A generalizing n s with
  | nil =>
      obtain ⟨n, rfl⟩ : ∃ k, n = k + 3 := ⟨n - 3, by simp at hn; omega⟩
      cases s with
      | nil => exact iff_of_false Bool.false_ne_true (by simp)
      | cons d s =>
          rw [List.nil_append, slashStar, patternCompare_cons_cons, patternCompare_star]
          simp
  | cons c A ih =>
      obtain ⟨n, rfl⟩ : ∃ k, n = k + 1 := ⟨n - 1, by simp at hn; omega⟩
      obtain ⟨hstar, hquest, hset⟩ := hA c List.mem_cons_self
      cases s with
      | nil =>
          rw [List.cons_append, patternCompare_cons_nil, if_neg hstar]
          exact iff_of_false Bool.false_ne_true (by simp)
      | cons d s =>
          rw [List.cons_append, patternCompare_cons_cons, if_neg hstar, if_neg hquest, if_neg hset,
            Bool.and_eq_true, ih (fun x hx => hA x (List.mem_cons_of_mem c hx))
              (by rw [List.length_cons] at hn; omega), beq_iff_eq, List.cons_append,
            List.cons_prefix_cons]
