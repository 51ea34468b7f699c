/-
# Which packet is read next

`ajitter_get_ptr` looks for the smallest stamp among the used slots, but only up to `last`, the
stamp of the latest put and not the greatest one.  A packet that comes late lowers `last`, and
hides the packets with greater stamps until a later put raises it again.  So a packet is found,
and the oldest one, as long as no read uses up all packets that are not hidden while others
are.

A stamp is a double, so it may be a `NaN`, which is not below itself and hides everything.
-/
import Tcsip.AjitterBuilds

/-! ## Stamps -/

/-- How doubles compare, as far as the search depends on it. -/
class StampOrder (τ : Type*) extends LE τ where
  trans : ∀ {a b c : τ}, a ≤ b → b ≤ c → a ≤ c
  right : ∀ {a b : τ}, a ≤ b → b ≤ b

instance {τ : Type*} [LinearOrder τ] : StampOrder τ where
  trans := le_trans
  right := fun _ => le_rfl

variable {τ : Type*} [StampOrder τ] [DecidableLE τ]

/-- `s > t` for doubles. -/
def StampAbove (s t : τ) : Prop := t ≤ s ∧ ¬ s ≤ t

/-- `NULL` is returned only when no slot is used, and otherwise a used slot whose stamp is
not greater than that of any other. -/
structure Ajitter.FindsOldest (aj : Ajitter τ) : Prop where
  null : ajitterGetPtr aj = none ↔ aj.used = 0#32
  oldest : ∀ i, ajitterGetPtr aj = some i →
    aj.Used i ∧ ∀ j, aj.Used j → ¬ StampAbove (aj.time i) (aj.time j)

/-- A used slot that `last` does not hide. -/
def Ajitter.Visible (aj : Ajitter τ) (i : Fin AJD) : Prop := aj.Used i ∧ aj.time i ≤ aj.last

instance (aj : Ajitter τ) (i : Fin AJD) : Decidable (aj.Visible i) :=
  inferInstanceAs (Decidable (_ ∧ _))

/-- The bytes to be read in the slots that are not hidden. -/
def Ajitter.visibleBytes (aj : Ajitter τ) : ℤ :=
  ∑ i with aj.Visible i, (aj.packet i).left

/-! ## The search -/

theorem scanSlots_eq_none {aj : Ajitter τ} {l : List (Fin AJD)} {minTime : τ}
    {minIdx : Option (Fin AJD)} (h : scanSlots aj l minTime minIdx = none) :
    minIdx = none ∧ ∀ j ∈ l, aj.Used j → ¬ aj.time j ≤ minTime := by
  induction l generalizing minTime minIdx with
  | nil => exact ⟨h, fun j hj => absurd hj List.not_mem_nil⟩
  | cons idx rest ih =>
      rw [scanSlots] at h
      split at h
      · next hfree =>
        obtain ⟨hnone, hrest⟩ := ih h
        refine ⟨hnone, fun j hj hused => ?_⟩
        rcases List.mem_cons.mp hj with rfl | hj
        · exact absurd hfree hused
        · exact hrest j hj hused
      · split at h
        · cases (ih h).1
        · next hgt =>
          obtain ⟨hnone, hrest⟩ := ih h
          refine ⟨hnone, fun j hj hused => ?_⟩
          rcases List.mem_cons.mp hj with rfl | hj
          · exact hgt
          · exact hrest j hj hused

/-- What is found is not above the bound, and nothing that was passed is below it. -/
theorem scanSlots_least {aj : Ajitter τ} {l : List (Fin AJD)} {minTime : τ}
    {minIdx : Option (Fin AJD)} {i : Fin AJD} (hmin : ∀ k ∈ minIdx, aj.time k = minTime)
    (h : scanSlots aj l minTime minIdx = some i) :
    (aj.time i ≤ minTime ∨ aj.time i = minTime) ∧
      ∀ j ∈ l, aj.Used j → ¬ StampAbove (aj.time i) (aj.time j) := by
  induction l generalizing minTime minIdx with
  | nil => exact ⟨Or.inr (hmin i h), fun j hj => absurd hj List.not_mem_nil⟩
  | cons idx rest ih =>
      rw [scanSlots] at h
      split at h
      · next hfree =>
        obtain ⟨hle, hrest⟩ := ih hmin h
        refine ⟨hle, fun j hj hused => ?_⟩
        rcases List.mem_cons.mp hj with rfl | hj
        · exact absurd hfree hused
        · exact hrest j hj hused
      · split at h
        · next hidx =>
          obtain ⟨hle, hrest⟩ := ih (fun k hk => by rw [← Option.some.inj hk]) h
          refine ⟨Or.inl ?_, fun j hj hused => ?_⟩
          · rcases hle with hle | heq
            · exact StampOrder.trans hle hidx
            · rwa [heq]
          · rcases List.mem_cons.mp hj with rfl | hj
            · -- the slot found is this one, or one with a stamp that is not above it
              rintro ⟨hge, hnot⟩
              rcases hle with hle | heq
              · exact hnot hle
              · rw [heq] at hnot hge
                exact hnot hge
            · exact hrest j hj hused
        · next hgt =>
          obtain ⟨hle, hrest⟩ := ih hmin h
          refine ⟨hle, fun j hj hused => ?_⟩
          rcases List.mem_cons.mp hj with rfl | hj
          · rintro ⟨hge, -⟩
            rcases hle with hle | heq
            · exact hgt (StampOrder.trans hge hle)
            · exact hgt (heq ▸ hge)
          · exact hrest j hj hused

theorem ajitterGetPtr_eq_none_iff {aj : Ajitter τ} :
    ajitterGetPtr aj = none ↔ ∀ j, ¬ aj.Visible j := by
  constructor
  · intro h j hj
    unfold ajitterGetPtr at h
    rw [if_neg fun h0 => used_eq_zero_iff.mp h0 j hj.1] at h
    exact (scanSlots_eq_none h).2 j (List.mem_finRange j) hj.1 hj.2
  · intro h
    cases hget : ajitterGetPtr aj with
    | none => rfl
    | some i =>
        obtain ⟨j, hused, hle⟩ := ajitterGetPtr_visible hget
        exact absurd ⟨hused, hle⟩ (h j)

/-- What is returned is visible itself. -/
theorem visible_of_getPtr {aj : Ajitter τ} {i : Fin AJD} (h : ajitterGetPtr aj = some i) :
    aj.Visible i := by
  refine ⟨ajitterGetPtr_used h, ?_⟩
  obtain ⟨j, hused, hle⟩ := ajitterGetPtr_visible h
  unfold ajitterGetPtr at h
  rw [if_neg fun h0 => used_eq_zero_iff.mp h0 j hused] at h
  rcases (scanSlots_least (fun k hk => absurd hk (Option.not_mem_none k)) h).1 with hi | hi
  · exact hi
  · rw [hi]
    exact StampOrder.right hle

/-- **The search is right exactly when it can see a used slot**, if there is one. -/
theorem findsOldest_iff {aj : Ajitter τ} :
    aj.FindsOldest ↔ aj.used = 0#32 ∨ ∃ j, aj.Visible j := by
  constructor
  · intro h
    by_cases hzero : aj.used = 0#32
    · exact Or.inl hzero
    · refine Or.inr (by_contra fun hno => hzero (h.null.mp ?_))
      exact ajitterGetPtr_eq_none_iff.mpr fun j hj => hno ⟨j, hj⟩
  · intro h
    refine ⟨⟨fun hnone => ?_, ajitterGetPtr_of_used_eq_zero⟩, fun i hi => ?_⟩
    · rcases h with hzero | ⟨j, hj⟩
      · exact hzero
      · exact absurd hj (ajitterGetPtr_eq_none_iff.mp hnone j)
    · refine ⟨ajitterGetPtr_used hi, fun j hused => ?_⟩
      unfold ajitterGetPtr at hi
      split at hi
      · cases hi
      · exact (scanSlots_least (fun k hk => absurd hk (Option.not_mem_none k)) hi).2 j
          (List.mem_finRange j) hused

/-! ## What a read leaves -/

/-- Every used slot has bytes to be read. -/
def Ajitter.Filled (aj : Ajitter τ) : Prop := ∀ i, aj.Used i → 0 < (aj.packet i).left

section Round

variable {b : Build} {size : ℤ} {aj : Ajitter τ} {ob : ℕ → Byte} {idx : Fin AJD}

omit [StampOrder τ] [DecidableLE τ] in
/-- A round leaves bytes in every slot that stays in use. -/
theorem filled_copyRound (b : Build) (size : ℤ) (ob : ℕ → Byte) (h : aj.Filled)
    (hidx : aj.Used idx) :
    (copyRound b size aj ob idx).1.Filled := by
  intro i hi
  have hused := (consumed_copyRound hidx).used i hi
  rw [copyRound_packet]
  by_cases hne : i = idx
  · subst hne
    rw [Function.update_self]
    by_contra hleft
    unfold Ajitter.Used at hi
    rw [copyRound_used, if_pos (by dsimp only at hleft; omega)] at hi
    exact ((test_bdrop hidx).mp hi).2 rfl
  · rw [Function.update_of_ne hne]
    exact h i hused

omit [DecidableLE τ] in
/-- A round that does not use up its packet leaves it visible. -/
theorem visible_copyRound_of_lt (b : Build) (ob : ℕ → Byte) (hidx : aj.Visible idx)
    (hlong : size - aj.outHave < (aj.packet idx).left) :
    (copyRound b size aj ob idx).1.Visible idx := by
  refine ⟨?_, ?_⟩
  · unfold Ajitter.Used
    rw [copyRound_used, if_neg (by unfold getNow; omega)]
    exact hidx.1
  · rw [copyRound_time, copyRound_last]
    exact hidx.2

omit [DecidableLE τ] in
/-- A round that uses up its packet takes it away, and its bytes. -/
theorem visible_copyRound_of_le (hidx : aj.Visible idx)
    (hshort : (aj.packet idx).left ≤ size - aj.outHave) {i : Fin AJD} :
    (copyRound b size aj ob idx).1.Visible i ↔ aj.Visible i ∧ i ≠ idx := by
  unfold Ajitter.Visible Ajitter.Used
  rw [copyRound_time, copyRound_last, copyRound_used, if_pos (by unfold getNow; omega),
    test_bdrop hidx.1]
  tauto

theorem visibleBytes_copyRound (b : Build) (ob : ℕ → Byte) (hidx : aj.Visible idx)
    (hshort : (aj.packet idx).left ≤ size - aj.outHave) :
    aj.visibleBytes =
      (aj.packet idx).left + (copyRound b size aj ob idx).1.visibleBytes := by
  have hfilter : Finset.univ.filter (copyRound b size aj ob idx).1.Visible =
      (Finset.univ.filter aj.Visible).erase idx := by
    ext i
    rw [Finset.mem_filter_univ, visible_copyRound_of_le hidx hshort, Finset.mem_erase,
      Finset.mem_filter_univ, and_comm]
  unfold Ajitter.visibleBytes
  rw [hfilter, ← Finset.add_sum_erase _ _ (Finset.mem_filter_univ idx |>.mpr hidx)]
  congr 1
  apply Finset.sum_congr rfl
  intro i hi
  rw [copyRound_packet, Function.update_of_ne (Finset.ne_of_mem_erase hi)]

end Round

/-- Visible slots have bytes, so there are bytes exactly when there are such slots. -/
theorem Ajitter.Filled.visibleBytes_pos_iff {aj : Ajitter τ} (h : aj.Filled) :
    0 < aj.visibleBytes ↔ ∃ i, aj.Visible i := by
  have hnonneg : ∀ i ∈ Finset.univ.filter aj.Visible, 0 ≤ (aj.packet i).left :=
    fun i hi => (h i (Finset.mem_filter_univ i |>.mp hi).1).le
  unfold Ajitter.visibleBytes
  rw [Finset.sum_pos_iff_of_nonneg hnonneg]
  constructor
  · rintro ⟨i, hi, -⟩
    exact ⟨i, Finset.mem_filter_univ i |>.mp hi⟩
  · rintro ⟨i, hi⟩
    exact ⟨i, Finset.mem_filter_univ i |>.mpr hi, h i hi.1⟩

/-- **A read leaves a visible slot exactly when the visible slots have more bytes than it
needs.**  A loop that is not at its first round needs some bytes. -/
theorem filled_copyLoop {b : Build} {size : ℤ} {fuel : ℕ} {aj : Ajitter τ}
    {ob : ℕ → Byte} {ts : Option τ} {r : Copied τ} (h : aj.Filled)
    (hbegins : (∃ i, aj.Visible i) ∨ aj.outHave < size)
    (hr : copyLoop b size fuel aj ob ts = some r) :
    r.aj.Filled ∧ ((∃ i, r.aj.Visible i) ↔ size - aj.outHave < aj.visibleBytes) := by
  revert h hbegins
  apply copyLoop_induction (motive := fun aj r => aj.Filled →
    (∃ i, aj.Visible i) ∨ aj.outHave < size →
    r.aj.Filled ∧ ((∃ i, r.aj.Visible i) ↔ size - aj.outHave < aj.visibleBytes)) ?_ ?_ ?_ hr
  · intro aj _ _ hget h hbegins
    have hno := ajitterGetPtr_eq_none_iff.mp hget
    have hbytes : ¬ 0 < aj.visibleBytes := fun hpos =>
      (h.visibleBytes_pos_iff.mp hpos).elim hno
    have hneed := hbegins.resolve_left fun ⟨i, hi⟩ => hno i hi
    exact ⟨h, iff_of_false (fun ⟨i, hi⟩ => hno i hi) (by omega)⟩
  · intro aj ob idx r hget hretry ih h _
    have hvis := visible_of_getPtr hget
    obtain ⟨hshort, hout⟩ := outHave_copyRound_of_retry hretry
    obtain ⟨hfilled, hiff⟩ := ih (filled_copyRound b size ob h hvis.1) (Or.inr hretry)
    refine ⟨hfilled, hiff.trans ?_⟩
    rw [hout, visibleBytes_copyRound b ob hvis hshort]
    omega
  · intro aj ob idx hget hstop h _
    have hvis := visible_of_getPtr hget
    have hround := filled_copyRound b size ob h hvis.1
    by_cases hlong : size - aj.outHave < (aj.packet idx).left
    · -- the chunk is complete before the packet is used up
      have hle : (aj.packet idx).left ≤ aj.visibleBytes :=
        Finset.single_le_sum (f := fun i => (aj.packet i).left)
          (fun i hi => (h i (Finset.mem_filter_univ i |>.mp hi).1).le)
          (Finset.mem_filter_univ idx |>.mpr hvis)
      exact ⟨hround, iff_of_true ⟨idx, visible_copyRound_of_lt b ob hvis hlong⟩ (by omega)⟩
    · have hshort := not_lt.mp hlong
      refine ⟨hround, hround.visibleBytes_pos_iff.symm.trans ?_⟩
      rw [visibleBytes_copyRound b ob hvis hshort]
      rw [copyRound_outHave, getNow, min_eq_right hshort] at hstop
      omega

/-- A round takes its bytes from a packet that is not hidden. -/
theorem hidden_copyRound {b : Build} {size : ℤ} {aj : Ajitter τ} (ob : ℕ → Byte)
    {i idx : Fin AJD} (hget : ajitterGetPtr aj = some idx) (hused : aj.Used i)
    (hhidden : ¬ aj.time i ≤ aj.last) : (copyRound b size aj ob idx).1.Used i := by
  have hvis := visible_of_getPtr hget
  have hne : i ≠ idx := fun heq => hhidden (heq ▸ hvis.2)
  unfold Ajitter.Used
  rw [copyRound_used]
  split
  · exact (test_bdrop hvis.1).mpr ⟨hused, hne⟩
  · exact hused

/-- A read does not take away what is hidden. -/
theorem hidden_copyLoop {b : Build} {size : ℤ} {fuel : ℕ} {aj : Ajitter τ} {ob : ℕ → Byte}
    {ts : Option τ} {r : Copied τ} {i : Fin AJD} (hused : aj.Used i)
    (hhidden : ¬ aj.time i ≤ aj.last) (hr : copyLoop b size fuel aj ob ts = some r) :
    r.aj.Used i := by
  revert hused hhidden
  apply copyLoop_induction (motive := fun aj r => aj.Used i → ¬ aj.time i ≤ aj.last →
    r.aj.Used i) ?_ ?_ ?_ hr
  · intro aj _ _ _ hused _
    exact hused
  · intro aj ob idx r hget _ ih hused hhidden
    exact ih (hidden_copyRound ob hget hused hhidden) (by rwa [copyRound_time, copyRound_last])
  · intro aj ob idx hget _ hused hhidden
    exact hidden_copyRound ob hget hused hhidden

/-! ## Runs -/

variable [Zero τ]

/-- Producers put packets with `left > 0`. -/
def PutsBytes : JitterOp τ → Prop
  | .put _ left _ => 0 < left
  | .copy _ _ => True

instance : ∀ op : JitterOp τ, Decidable (PutsBytes op)
  | .put _ left _ => inferInstanceAs (Decidable (0 < left))
  | .copy _ _ => isTrue trivial

/-- The same, with producers that put only packets of at least a byte. -/
def packetStep (b : Build) (s : JitterRun τ) (op : JitterOp τ) : Option (JitterRun τ) :=
  if PutsBytes op then jitterStep b s op else none

/-- A put has a stamp that is no `NaN`, or leaves the buffer empty, as on Apple systems when it
overflows; a read finds no packet hidden, or does not need all bytes that are not. -/
def KeepsVisible (b : Build) (s : JitterRun τ) : JitterOp τ → Prop
  | .put _ _ time => time ≤ time ∨ b = .apple ∧ s.aj.Full
  | .copy size _ => (∀ i, s.aj.Used i → s.aj.time i ≤ s.aj.last) ∨
      size - s.aj.outHave < s.aj.visibleBytes

omit [DecidableLE τ] [Zero τ] in
/-- After a put into slot `idx` the stamp of the put decides. -/
theorem visible_put_iff {b : Build} {aj : Ajitter τ} {idx : Fin AJD} {bs : List Byte} {left : ℤ}
    {time : τ} (hused : (ajitterPutDone b (fillSlot aj idx bs left) idx time).Used idx) :
    (∃ j, (ajitterPutDone b (fillSlot aj idx bs left) idx time).Visible j) ↔ time ≤ time := by
  constructor
  · rintro ⟨j, -, hj⟩
    exact StampOrder.right hj
  · intro h
    refine ⟨idx, hused, ?_⟩
    dsimp only [ajitterPutDone]
    rwa [Function.update_self]

omit [StampOrder τ] [DecidableLE τ] [Zero τ] in
theorem filled_putDone {b : Build} {aj : Ajitter τ} {idx : Fin AJD} {bs : List Byte} {left : ℤ}
    {time : τ} (hleft : 0 < left) (h : ∀ i, i ≠ idx →
      (ajitterPutDone b (fillSlot aj idx bs left) idx time).Used i → 0 < (aj.packet i).left) :
    (ajitterPutDone b (fillSlot aj idx bs left) idx time).Filled := by
  intro i hi
  by_cases hne : i = idx
  · subst hne
    dsimp only [ajitterPutDone, fillSlot]
    rwa [Function.update_self]
  · dsimp only [ajitterPutDone, fillSlot]
    rw [Function.update_of_ne hne]
    exact h i hne hi

/-- **A put** leaves a packet that can be found, exactly when its stamp is no `NaN`. -/
theorem findsOldest_put_iff {b : Build} {s t : JitterRun τ} {bs : List Byte} {left : ℤ} {time : τ}
    (h : s.aj.Filled) (hleft : 0 < left) (hstep : jitterStep b s (.put bs left time) = some t) :
    t.aj.Filled ∧ (t.aj.FindsOldest ↔ time ≤ time ∨ b = .apple ∧ s.aj.Full) := by
  rcases ajitterPutPtr_cases s.aj with ⟨idx, hfree, -, heq⟩ | ⟨hfull, heq⟩
  · rw [jitterStep, heq] at hstep
    obtain rfl := Option.some.inj hstep
    rw [findsOldest_iff]
    have hbits : ∀ j, (ajitterPutDone b (fillSlot s.aj idx bs left) idx time).Used j ↔
        j = idx ∨ s.aj.Used j := fun j => test_bset hfree
    have hidx := (hbits idx).mpr (Or.inl rfl)
    refine ⟨filled_putDone hleft fun i hne hi => h i (((hbits i).mp hi).resolve_left hne), ?_⟩
    rw [visible_put_iff hidx, or_iff_right fun hzero => used_eq_zero_iff.mp hzero idx hidx]
    exact (or_iff_left fun hover => hfree (hover.2 idx)).symm
  · rw [jitterStep, heq] at hstep
    obtain rfl := Option.some.inj hstep
    rw [findsOldest_iff]
    cases b with
    | apple =>
        -- the mask that `ajitter_put_ptr` set is flipped back
        have hzero : bset .apple 1#32 0 = 0#32 := by decide
        refine ⟨filled_putDone hleft fun i _ hi => ?_, iff_of_true (Or.inl hzero) ?_⟩
        · exact absurd hi (used_eq_zero_iff.mp hzero i)
        · exact Or.inr ⟨rfl, hfull⟩
    | other =>
        have hone : bset .other 1#32 0 = mask 0 := by decide
        have hbits : ∀ j, Flags.Test (bset .other 1#32 0) (mask j) ↔ j = 0 := by
          intro j
          rw [hone]
          exact test_mask_mask
        have h0 : (ajitterPutDone .other (fillSlot
            { s.aj with used := 1#32, last := (0 : τ) } 0 bs left) 0 time).Used 0 :=
          (hbits 0).mpr rfl
        refine ⟨filled_putDone hleft fun i hne hi => absurd ((hbits i).mp hi) hne, ?_⟩
        rw [visible_put_iff h0, or_iff_right fun hzero => used_eq_zero_iff.mp hzero 0 h0]
        exact (or_iff_left fun hover => nomatch hover.1).symm

/-- **A read** leaves a packet that can be found, or none at all, exactly when nothing is
hidden or not all that is visible is used up. -/
theorem findsOldest_copy_iff {b : Build} {s t : JitterRun τ} {size : ℤ} {ob : ℕ → Byte}
    (h : s.aj.Filled) (hfinds : s.aj.FindsOldest)
    (hstep : jitterStep b s (.copy size ob) = some t) :
    t.aj.Filled ∧ (t.aj.FindsOldest ↔ KeepsVisible b s (.copy size ob)) := by
  obtain ⟨r, hr, rfl⟩ := Option.map_eq_some_iff.mp hstep
  dsimp only
  have hcons := consumed_copyLoop hr
  rcases findsOldest_iff.mp hfinds with hzero | hvis
  · -- an empty buffer stays empty
    have hrzero : r.aj.used = 0#32 :=
      used_eq_zero_iff.mpr fun j hj => used_eq_zero_iff.mp hzero j (hcons.used j hj)
    refine ⟨fun i hi => absurd hi (used_eq_zero_iff.mp hrzero i), iff_of_true ?_ ?_⟩
    · exact findsOldest_iff.mpr (Or.inl hrzero)
    · exact Or.inl fun i hi => absurd hi (used_eq_zero_iff.mp hzero i)
  · obtain ⟨hfilled, hiff⟩ := filled_copyLoop h (Or.inl hvis) hr
    refine ⟨hfilled, ?_⟩
    rw [findsOldest_iff, hiff]
    unfold KeepsVisible
    dsimp only
    by_cases hall : ∀ i, s.aj.Used i → s.aj.time i ≤ s.aj.last
    · refine iff_of_true ?_ (Or.inl hall)
      by_cases hbytes : size - s.aj.outHave < s.aj.visibleBytes
      · exact Or.inr hbytes
      · -- every used slot would be visible
        refine Or.inl (used_eq_zero_iff.mpr fun j hj => hbytes (hiff.mp ⟨j, hj, ?_⟩))
        rw [hcons.time, hcons.last]
        exact hall j (hcons.used j hj)
    · rw [or_iff_right hall, or_iff_right]
      intro hrzero
      obtain ⟨i, hi⟩ := not_forall.mp hall
      obtain ⟨hused, hhidden⟩ := Classical.not_imp.mp hi
      exact used_eq_zero_iff.mp hrzero i (hidden_copyLoop hused hhidden hr)

/-- **A buffered packet is found, and the oldest one, exactly while reads do not use up all
packets that are not hidden**, over every run of puts and reads. -/
theorem always_findsOldest_iff (b : Build) (csize : ℕ) (m : Malloced τ) (ops : List (JitterOp τ)) :
    Runs.Always (packetStep b) (fun s => s.aj.FindsOldest) ⟨ajitterInit csize m, none⟩ ops ↔
      Runs.StepsMeet (packetStep b) (fun s op => PutsBytes op → KeepsVisible b s op)
        ⟨ajitterInit csize m, none⟩ ops := by
  have hstep : ∀ (s : JitterRun τ) op t, s.aj.Filled → s.aj.FindsOldest →
      packetStep b s op = some t →
        t.aj.Filled ∧ (t.aj.FindsOldest ↔ (PutsBytes op → KeepsVisible b s op)) := by
    intro s op t hI hB hs
    obtain ⟨hbytes, hs⟩ := Option.ite_none_right_eq_some.mp hs
    rw [forall_prop_of_true hbytes]
    cases op with
    | put bs left time => exact findsOldest_put_iff hI hbytes hs
    | copy size ob => exact findsOldest_copy_iff hI hB hs
  apply Runs.always_iff_stepsMeet (packetStep b) (I := fun s => s.aj.Filled)
  · exact fun s op t hI hB hs => (hstep s op t hI hB hs).1
  · exact fun s op t hI hB hs => (hstep s op t hI hB hs).2
  · intro s op _ _ hs hbytes
    -- nothing but a put without bytes is refused
    unfold packetStep at hs
    rw [if_pos hbytes] at hs
    cases op with
    | put bs left time => exact nomatch hs
    | copy size ob =>
        obtain ⟨r, hr⟩ := Option.isSome_iff_exists.mp (ajitterCopyChunk_isSome b s.aj size ob none)
        exact nomatch (Option.map_eq_none_iff.mp hs).symm.trans hr
  · exact fun i hi => absurd hi (used_eq_zero_iff.mp rfl i)
  · exact findsOldest_iff.mpr (Or.inl rfl)

/-- A packet with number 5, one with number 3 that comes late, and a read of the late one: the
first packet is in the buffer, but nothing is found. -/
theorem late_packet_strands_others :
    let s : JitterRun ℤ := ⟨ajitterInit 320 ⟨fun _ => 0, fun _ => 0, fun _ => 0⟩, none⟩
    let ops : List (JitterOp ℤ) := [.put [1, 1] 2 5, .put [2, 2] 2 3, .copy 2 fun _ => 0]
    ∃ t, Runs.run (packetStep .other) s ops = some t ∧ t.aj.used = 1#32 ∧
      ajitterGetPtr t.aj = none ∧ ¬ t.aj.FindsOldest := by
  intro s ops
  have hrun : ((Runs.run (packetStep .other) s ops).map fun t =>
      (t.aj.used, ajitterGetPtr t.aj)) = some (1#32, none) := by
    decide +kernel
  obtain ⟨t, ht, heq⟩ := Option.map_eq_some_iff.mp hrun
  have hused : t.aj.used = 1#32 := congrArg Prod.fst heq
  have hget : ajitterGetPtr t.aj = none := congrArg Prod.snd heq
  refine ⟨t, ht, hused, hget, fun h => ?_⟩
  exact absurd (hused.symm.trans (h.null.mp hget)) (by decide)
