/-
# The jitter buffer

The model of `ajitter.c`: 32 slots for packets, a mask of the used ones, the time stamp of
each slot and the stamp `last` of the latest packet.  A producer takes the first free slot
(`ajitterPutPtr`), fills it and reports it (`ajitterPutDone`); a consumer copies chunks of
bytes out of the oldest slots (`ajitterCopyChunk`).

Stamps are of any type with a decidable `≤` and a zero; nothing is assumed of the order
here, so a stamp may be a `NaN`.  `csize` is the size of a slot's data; the data of all
slots lie in one block of memory, slot after slot, as `ajitter_init` places them.  The
index of a slot is written by `ajitter_init` alone, so it is the slot's position.
-/
import Tcsip.CText
import Tcsip.Flags
import Tcsip.Memory

/-! ## The buffer -/

/-- The number of slots. -/
abbrev AJD : ℕ := 32

instance : NeZero AJD := ⟨by decide⟩

/-- The header of a slot: `left` bytes are still to be read, from `off` on. -/
structure AjitterPacket where
  left : ℤ
  off : ℤ
deriving DecidableEq

/-- `struct ajitter`; the handler is with the code that installs it. -/
structure Ajitter (τ : Type*) where
  used : BitVec 32
  packet : Fin AJD → AjitterPacket
  data : ℕ → Byte
  time : Fin AJD → τ
  last : τ
  csize : ℕ
  outBuffer : ℕ → Byte
  outHave : ℤ

/-- What `malloc` left in the memory it returned. -/
structure Malloced (τ : Type*) where
  data : ℕ → Byte
  outBuffer : ℕ → Byte
  time : Fin AJD → τ

/-- `ajitter_packet.data` of slot `idx`, as an address in the data block. -/
def slotData (csize : ℕ) (idx : Fin AJD) : ℕ := csize * idx

/-- `1<<idx` -/
def mask (idx : Fin AJD) : BitVec 32 := 1#32 <<< idx.val

/-- The two definitions of `bset` and `bdrop`. -/
inductive Build
  | apple
  | other
deriving DecidableEq

/-- `bset`: Apple's builds flip the bit where the others set it. -/
def bset : Build → BitVec 32 → Fin AJD → BitVec 32
  | .apple, val, bn => val ^^^ mask bn
  | .other, val, bn => val ||| mask bn

/-- `bdrop`, which is the same as `bset` on Apple systems. -/
def bdrop : Build → BitVec 32 → Fin AJD → BitVec 32
  | .apple, val, bn => val ^^^ mask bn
  | .other, val, bn => Flags.drop val (mask bn)

variable {τ : Type*} [LE τ] [DecidableLE τ] [Zero τ]

/-- `memset` clears `sizeof(int) * AJD` bytes of the stamps, which are doubles. -/
def ajitterInit (chunkSize : ℕ) (m : Malloced τ) : Ajitter τ where
  used := 0#32
  packet := fun _ => ⟨0, 0⟩
  data := m.data
  time := fun idx => if 8 * idx.val < 4 * AJD then 0 else m.time idx
  last := 0
  csize := chunkSize
  outBuffer := m.outBuffer
  outHave := 0

/-! ## The producer -/

/-- `ajitter_put_ptr`: the first free slot; if there is none, all packets are dropped and slot 0 is
handed out, marked as used already. -/
def ajitterPutPtr (aj : Ajitter τ) : Ajitter τ × Fin AJD :=
  match (List.finRange AJD).find? fun idx => decide (aj.used &&& mask idx = 0#32) with
  | some idx => (aj, idx)
  | none => ({ aj with used := 1#32, last := 0 }, 0)

/-- What a producer does with the slot it was given: it stores `bs` from the start of the
slot's data on and sets `left` and `off`. -/
def fillSlot (aj : Ajitter τ) (idx : Fin AJD) (bs : List Byte) (left : ℤ) : Ajitter τ :=
  { aj with
    data := Memory.write aj.data (slotData aj.csize idx) bs
    packet := Function.update aj.packet idx ⟨left, 0⟩ }

/-- `ajitter_put_done` up to the call of the handler. -/
def ajitterPutDone (b : Build) (aj : Ajitter τ) (idx : Fin AJD) (time : τ) : Ajitter τ :=
  { aj with
    time := Function.update aj.time idx time
    last := time
    used := bset b aj.used idx }

/-- A packet with the bytes `bs` and the stamp `time` goes through the three steps. -/
def ajitterPut (b : Build) (aj : Ajitter τ) (bs : List Byte) (time : τ) : Ajitter τ :=
  let (aj, idx) := ajitterPutPtr aj
  ajitterPutDone b (fillSlot aj idx bs bs.length) idx time

/-! ## The consumer -/

/-- `ajitter_get_done` -/
def ajitterGetDone (b : Build) (aj : Ajitter τ) (idx : Fin AJD) : Ajitter τ :=
  { aj with used := bdrop b aj.used idx }

/-- The loop of `ajitter_get_ptr` over the slots that are left, with `min_time` and
`min_idx` so far. -/
def scanSlots (aj : Ajitter τ) : List (Fin AJD) → τ → Option (Fin AJD) → Option (Fin AJD)
  | [], _, minIdx => minIdx
  | idx :: rest, minTime, minIdx =>
    if aj.used &&& mask idx = 0#32 then scanSlots aj rest minTime minIdx
    else if aj.time idx ≤ minTime then scanSlots aj rest (aj.time idx) (some idx)
    else scanSlots aj rest minTime minIdx

/-- `ajitter_get_ptr`: the slot with the least stamp, if any stamp is not above `last`. -/
def ajitterGetPtr (aj : Ajitter τ) : Option (Fin AJD) :=
  if aj.used = 0#32 then none
  else scanSlots aj (List.finRange AJD) aj.last none

/-- One round of the loop of `ajitter_copy_chunk`, with the packet in slot `idx` and the
output buffer `ob`.  A negative length, which `memcpy` does not survive, copies nothing. -/
def copyRound (b : Build) (size : ℤ) (aj : Ajitter τ) (ob : ℕ → Byte) (idx : Fin AJD) :
    Ajitter τ × (ℕ → Byte) :=
  let ajp := aj.packet idx
  let need := size - aj.outHave
  let getNow := min need ajp.left
  let src := Memory.read aj.data (slotData aj.csize idx + ajp.off).toNat getNow.toNat
  let aj₁ := { aj with
    packet := Function.update aj.packet idx ⟨ajp.left - getNow, ajp.off + getNow⟩ }
  let aj₂ := if ajp.left - getNow < 1 then ajitterGetDone b aj₁ idx else aj₁
  ({ aj₂ with outHave := aj.outHave + getNow }, Memory.write ob aj.outHave.toNat src)

/-- What `ajitter_copy_chunk` leaves: the buffer, `ob`, the stamp whose whole part is in
`*ts`, and the returned flag. -/
structure Copied (τ : Type*) where
  aj : Ajitter τ
  ob : ℕ → Byte
  ts : Option τ
  ret : Bool

/-- The loop of `ajitter_copy_chunk`, for at most `fuel` rounds. -/
def copyLoop (b : Build) (size : ℤ) :
    ℕ → Ajitter τ → (ℕ → Byte) → Option τ → Option (Copied τ)
  | 0, _, _, _ => none
  | fuel + 1, aj, ob, ts =>
    match ajitterGetPtr aj with
    | none => some ⟨aj, ob, ts, false⟩
    | some idx =>
      let (aj', ob') := copyRound b size aj ob idx
      if aj'.outHave < size then copyLoop b size fuel aj' ob' (some (aj.time idx))
      else some ⟨{ aj' with outHave := 0 }, ob', some (aj.time idx), true⟩

/-- Every round but the last frees a slot, so there are at most `AJD + 1`. -/
def ajitterCopyChunk (b : Build) (aj : Ajitter τ) (size : ℤ) (ob : ℕ → Byte) (ts : Option τ) :
    Option (Copied τ) := copyLoop b size (AJD + 1) aj ob ts

/-- The result and the chunk, when there is one. -/
def ajitterGetChunk (b : Build) (aj : Ajitter τ) (size : ℤ) (ts : Option τ) :
    Option (Ajitter τ × Option τ × Option (List Byte)) :=
  (ajitterCopyChunk b aj size aj.outBuffer ts).map fun r =>
    ({ r.aj with outBuffer := r.ob }, r.ts,
      if r.ret then some (Memory.read r.ob 0 size.toNat) else none)

omit [LE τ] [DecidableLE τ] [Zero τ]

/-! ## The mask of used slots -/

/-- Slot `idx` is marked as used. -/
abbrev Ajitter.Used (aj : Ajitter τ) (idx : Fin AJD) : Prop := Flags.Test aj.used (mask idx)

/-- Every slot is marked as used, so that the next `ajitter_put_ptr` clears the buffer. -/
def Ajitter.Full (aj : Ajitter τ) : Prop := ∀ idx, aj.Used idx

instance (aj : Ajitter τ) : Decidable aj.Full := inferInstanceAs (Decidable (∀ idx, aj.Used idx))

theorem used_eq_zero_iff {u : BitVec 32} :
    u = 0#32 ↔ ∀ idx, ¬ Flags.Test u (mask idx) := by
  rw [Flags.eq_zero_iff]
  exact ⟨fun h idx => h idx idx.isLt, fun h i hi => h ⟨i, hi⟩⟩

theorem test_mask_mask {i j : Fin AJD} : Flags.Test (mask i) (mask j) ↔ j = i := by
  rw [Fin.ext_iff]
  exact Flags.test_twoPow_twoPow i.isLt

/-- Setting the bit of a free slot, in either build. -/
theorem test_bset {b : Build} {u : BitVec 32} {i j : Fin AJD} (h : ¬ Flags.Test u (mask i)) :
    Flags.Test (bset b u i) (mask j) ↔ j = i ∨ Flags.Test u (mask j) := by
  rw [Fin.ext_iff]
  cases b with
  | apple =>
      show Flags.Test (u ^^^ BitVec.twoPow 32 i) _ ↔ _
      rw [Flags.xor_twoPow_of_not_test h]
      exact Flags.test_or_twoPow i.isLt
  | other => exact Flags.test_or_twoPow i.isLt

/-- Clearing the bit of a used slot, in either build. -/
theorem test_bdrop {b : Build} {u : BitVec 32} {i j : Fin AJD} (h : Flags.Test u (mask i)) :
    Flags.Test (bdrop b u i) (mask j) ↔ Flags.Test u (mask j) ∧ j ≠ i := by
  rw [Ne, Fin.ext_iff]
  cases b with
  | apple =>
      show Flags.Test (u ^^^ BitVec.twoPow 32 i) _ ↔ _
      rw [Flags.xor_twoPow_of_test h]
      exact Flags.test_drop_twoPow
  | other => exact Flags.test_drop_twoPow

/-- The slots in use, in the order of their positions. -/
def Ajitter.slots (aj : Ajitter τ) : List (Fin AJD) :=
  (List.finRange AJD).filter fun idx => decide (aj.Used idx)

theorem Ajitter.mem_slots {aj : Ajitter τ} {idx : Fin AJD} : idx ∈ aj.slots ↔ aj.Used idx := by
  simp [Ajitter.slots]

theorem Ajitter.length_slots_le (aj : Ajitter τ) : aj.slots.length ≤ AJD := by
  have h := List.length_filter_le (fun idx => decide (aj.Used idx)) (List.finRange AJD)
  rwa [List.length_finRange] at h

/-- There are as many of them as the mask has set bits. -/
theorem Ajitter.length_slots (aj : Ajitter τ) : aj.slots.length = Flags.count aj.used :=
  (Flags.count_eq_length aj.used).symm

/-! ## What `ajitter_put_ptr` finds -/

section PutPtr

variable [Zero τ]

/-- There is a free slot, the first one is returned, and nothing changes; or there is none,
slot 0 is returned marked as used, and `last` is 0. -/
theorem ajitterPutPtr_cases (aj : Ajitter τ) :
    (∃ idx, ¬ aj.Used idx ∧ (∀ j < idx, aj.Used j) ∧ ajitterPutPtr aj = (aj, idx)) ∨
    (aj.Full ∧ ajitterPutPtr aj = ({ aj with used := 1#32, last := 0 }, 0)) := by
  unfold ajitterPutPtr
  cases h : (List.finRange AJD).find? fun idx => decide (aj.used &&& mask idx = 0#32) with
  | none =>
      right
      refine ⟨fun idx => ?_, rfl⟩
      simpa using List.find?_eq_none.mp h idx (List.mem_finRange idx)
  | some idx =>
      left
      refine ⟨idx, ?_, fun j hj => ?_, rfl⟩
      · simpa using List.find?_some h
      · -- the slots before the one found were passed over
        obtain ⟨-, as, bs, heq, hno⟩ := List.find?_eq_some_iff_append.mp h
        have hsorted := List.pairwise_lt_finRange AJD
        rw [heq] at hsorted
        have hmem : j ∈ as ++ idx :: bs := by rw [← heq]; exact List.mem_finRange j
        rcases List.mem_append.mp hmem with hj' | hj'
        · simpa using hno j hj'
        · rcases List.mem_cons.mp hj' with rfl | hj'
          · exact absurd hj (lt_irrefl _)
          · have hlt := (List.pairwise_cons.mp (List.pairwise_append.mp hsorted).2.1).1 j hj'
            exact absurd (hj.trans hlt) (lt_irrefl _)

/-- With a free slot nothing is cleared. -/
theorem ajitterPutPtr_of_not_full {aj : Ajitter τ} (h : ¬ aj.Full) :
    ∃ idx, ¬ aj.Used idx ∧ ajitterPutPtr aj = (aj, idx) := by
  rcases ajitterPutPtr_cases aj with ⟨idx, hfree, -, heq⟩ | ⟨hfull, -⟩
  · exact ⟨idx, hfree, heq⟩
  · exact absurd hfull h

theorem ajitterPutPtr_of_full {aj : Ajitter τ} (h : aj.Full) :
    ajitterPutPtr aj = ({ aj with used := 1#32, last := 0 }, 0) := by
  rcases ajitterPutPtr_cases aj with ⟨idx, hfree, -, -⟩ | ⟨-, heq⟩
  · exact absurd (h idx) hfree
  · exact heq

end PutPtr

/-! ## What `ajitter_get_ptr` finds -/

section GetPtr

variable [LE τ] [DecidableLE τ]

theorem scanSlots_used {aj : Ajitter τ} {l : List (Fin AJD)} {minTime : τ}
    {minIdx : Option (Fin AJD)} {i : Fin AJD} (hmin : ∀ j ∈ minIdx, aj.Used j)
    (h : scanSlots aj l minTime minIdx = some i) : aj.Used i := by
  induction l generalizing minTime minIdx with
  | nil => exact hmin i h
  | cons idx rest ih =>
      rw [scanSlots] at h
      split at h
      · exact ih hmin h
      · next hused =>
        split at h
        · exact ih (fun j hj => by rwa [← Option.some.inj hj]) h
        · exact ih hmin h

/-- Only used slots are returned. -/
theorem ajitterGetPtr_used {aj : Ajitter τ} {i : Fin AJD} (h : ajitterGetPtr aj = some i) :
    aj.Used i := by
  unfold ajitterGetPtr at h
  split at h
  · exact nomatch h
  · exact scanSlots_used (fun j hj => absurd hj (Option.not_mem_none j)) h

/-- Once the first packet is found, no other takes its place. -/
theorem scanSlots_stay {aj : Ajitter τ} {l : List (Fin AJD)} {i : Fin AJD}
    (h : ∀ j ∈ l, aj.Used j → j ≠ i → ¬ aj.time j ≤ aj.time i) :
    scanSlots aj l (aj.time i) (some i) = some i := by
  induction l with
  | nil => rfl
  | cons idx rest ih =>
      have hrest := ih fun j hj => h j (List.mem_cons_of_mem idx hj)
      rw [scanSlots]
      split
      · exact hrest
      · next hused =>
        by_cases hidx : idx = i
        · subst hidx
          split <;> exact hrest
        · rw [if_neg (h idx List.mem_cons_self hused hidx)]
          exact hrest

/-- Among equal stamps the last slot is the one that stays. -/
theorem scanSlots_eq_some {aj : Ajitter τ} {l : List (Fin AJD)} {i : Fin AJD} {minTime : τ}
    {minIdx : Option (Fin AJD)} (hsorted : l.Pairwise (· < ·)) (hi : i ∈ l) (hused : aj.Used i)
    (hmin : aj.time i ≤ minTime)
    (h : ∀ j ∈ l, aj.Used j → j ≠ i → aj.time i ≤ aj.time j ∧ (aj.time j ≤ aj.time i → j < i)) :
    scanSlots aj l minTime minIdx = some i := by
  induction l generalizing minTime minIdx with
  | nil => exact absurd hi List.not_mem_nil
  | cons idx rest ih =>
      obtain ⟨hfirst, hrest⟩ := List.pairwise_cons.mp hsorted
      have htail : ∀ j ∈ rest, aj.Used j → j ≠ i →
          aj.time i ≤ aj.time j ∧ (aj.time j ≤ aj.time i → j < i) :=
        fun j hj => h j (List.mem_cons_of_mem idx hj)
      rw [scanSlots]
      by_cases hidx : idx = i
      · subst hidx
        rw [if_neg hused, if_pos hmin]
        exact scanSlots_stay fun j hj hu hne hle =>
          absurd ((htail j hj hu hne).2 hle) (not_lt_of_gt (hfirst j hj))
      · have hi' : i ∈ rest := (List.mem_cons.mp hi).resolve_left (Ne.symm hidx)
        split
        · exact ih hrest hi' hmin htail
        · next hidxUsed =>
          split
          · exact ih hrest hi' (h idx List.mem_cons_self hidxUsed hidx).1 htail
          · exact ih hrest hi' hmin htail

/-- A used slot that is not hidden by `last` is the one returned, if its stamp is the smallest
and it is behind all other used slots with this stamp. -/
theorem ajitterGetPtr_eq_some {aj : Ajitter τ} {i : Fin AJD} (hused : aj.Used i)
    (hlast : aj.time i ≤ aj.last)
    (h : ∀ j, aj.Used j → j ≠ i → aj.time i ≤ aj.time j ∧ (aj.time j ≤ aj.time i → j < i)) :
    ajitterGetPtr aj = some i := by
  unfold ajitterGetPtr
  rw [if_neg fun h0 => used_eq_zero_iff.mp h0 i hused]
  exact scanSlots_eq_some (List.pairwise_lt_finRange AJD) (List.mem_finRange i) hused hlast
    fun j _ => h j

theorem ajitterGetPtr_of_used_eq_zero {aj : Ajitter τ} (h : aj.used = 0#32) :
    ajitterGetPtr aj = none := by
  unfold ajitterGetPtr
  rw [if_pos h]

theorem scanSlots_visible {aj : Ajitter τ} {l : List (Fin AJD)} {minTime : τ} {i : Fin AJD}
    (h : scanSlots aj l minTime none = some i) : ∃ j, aj.Used j ∧ aj.time j ≤ minTime := by
  induction l with
  | nil => exact nomatch h
  | cons idx rest ih =>
      rw [scanSlots] at h
      split at h
      · exact ih h
      · next hused =>
        split at h
        · next hle => exact ⟨idx, hused, hle⟩
        · exact ih h

/-- If anything is returned, some used slot is not hidden by `last`. -/
theorem ajitterGetPtr_visible {aj : Ajitter τ} {i : Fin AJD} (h : ajitterGetPtr aj = some i) :
    ∃ j, aj.Used j ∧ aj.time j ≤ aj.last := by
  unfold ajitterGetPtr at h
  split at h
  · exact nomatch h
  · exact scanSlots_visible h

end GetPtr

/-! ## The copy loop -/

section CopyRound

variable {b : Build} {size : ℤ} {aj : Ajitter τ} {ob : ℕ → Byte} {idx : Fin AJD}

/-- How many bytes a round takes out of slot `idx`. -/
def getNow (size : ℤ) (aj : Ajitter τ) (idx : Fin AJD) : ℤ :=
  min (size - aj.outHave) (aj.packet idx).left

@[simp] theorem copyRound_time : (copyRound b size aj ob idx).1.time = aj.time := by
  unfold copyRound
  dsimp only
  split <;> rfl

@[simp] theorem copyRound_last : (copyRound b size aj ob idx).1.last = aj.last := by
  unfold copyRound
  dsimp only
  split <;> rfl

@[simp] theorem copyRound_data : (copyRound b size aj ob idx).1.data = aj.data := by
  unfold copyRound
  dsimp only
  split <;> rfl

@[simp] theorem copyRound_csize : (copyRound b size aj ob idx).1.csize = aj.csize := by
  unfold copyRound
  dsimp only
  split <;> rfl

@[simp] theorem copyRound_outHave :
    (copyRound b size aj ob idx).1.outHave = aj.outHave + getNow size aj idx := rfl

theorem copyRound_packet :
    (copyRound b size aj ob idx).1.packet =
      Function.update aj.packet idx
        ⟨(aj.packet idx).left - getNow size aj idx, (aj.packet idx).off + getNow size aj idx⟩ := by
  unfold copyRound
  dsimp only
  split <;> rfl

theorem copyRound_used :
    (copyRound b size aj ob idx).1.used =
      if (aj.packet idx).left - getNow size aj idx < 1 then bdrop b aj.used idx else aj.used := by
  unfold copyRound getNow
  dsimp only
  split <;> rfl

theorem copyRound_ob :
    (copyRound b size aj ob idx).2 =
      Memory.write ob aj.outHave.toNat
        (Memory.read aj.data (slotData aj.csize idx + (aj.packet idx).off).toNat
          (getNow size aj idx).toNat) := rfl

/-- If a chunk is not complete after `min need left` bytes, nothing is left: the least of the two
is not what was needed.  The order need not go with the addition, so numbers may wrap around. -/
theorem left_eq_zero_of_short {G : Type*} [AddCommGroup G] [LinearOrder G] {size got left : G}
    (h : got + min (size - got) left < size) : left - min (size - got) left = 0 := by
  rcases min_choice (size - got) left with hneed | hleft
  · rw [hneed, add_sub_cancel] at h
    exact absurd h (lt_irrefl size)
  · rw [hleft, sub_self]

/-- Another round follows only when the packet of this one is used up. -/
theorem copyRound_used_of_retry (h : (copyRound b size aj ob idx).1.outHave < size) :
    (copyRound b size aj ob idx).1.used = bdrop b aj.used idx := by
  have hleft : (aj.packet idx).left - getNow size aj idx = 0 := left_eq_zero_of_short h
  rw [copyRound_used, hleft, if_pos Int.zero_lt_one]

/-- Then all of it was copied. -/
theorem outHave_copyRound_of_retry (h : (copyRound b size aj ob idx).1.outHave < size) :
    (aj.packet idx).left ≤ size - aj.outHave ∧
      (copyRound b size aj ob idx).1.outHave = aj.outHave + (aj.packet idx).left := by
  have hnow : getNow size aj idx = (aj.packet idx).left :=
    (sub_eq_zero.mp (left_eq_zero_of_short h)).symm
  refine ⟨hnow ▸ min_le_left _ _, ?_⟩
  rw [copyRound_outHave, hnow]

/-- Then its slot was given back, and no other. -/
theorem used_iff_of_retry (hused : aj.Used idx)
    (h : (copyRound b size aj ob idx).1.outHave < size) (j : Fin AJD) :
    (copyRound b size aj ob idx).1.Used j ↔ aj.Used j ∧ j ≠ idx := by
  unfold Ajitter.Used
  rw [copyRound_used_of_retry h]
  exact test_bdrop hused

/-- A slot that is given back is in use no more. -/
theorem length_slots_of_retry (hused : aj.Used idx)
    (h : (copyRound b size aj ob idx).1.outHave < size) :
    (copyRound b size aj ob idx).1.slots.length < aj.slots.length := by
  have hmem : idx ∈ aj.slots := Ajitter.mem_slots.mpr hused
  have hslots : (copyRound b size aj ob idx).1.slots =
      aj.slots.filter fun j => decide (j ≠ idx) := by
    unfold Ajitter.slots
    rw [List.filter_filter]
    apply List.filter_congr
    intro j _
    rw [Bool.eq_iff_iff, decide_eq_true_iff, Bool.and_eq_true, decide_eq_true_iff,
      decide_eq_true_iff, used_iff_of_retry hused h, and_comm]
  rw [hslots]
  exact List.length_filter_lt_length_iff_exists.mpr ⟨idx, hmem, by simp⟩

end CopyRound

/-- A consumer only takes slots away and moves on in their packets. -/
structure Consumed (aj aj' : Ajitter τ) : Prop where
  used : ∀ j, aj'.Used j → aj.Used j
  time : aj'.time = aj.time
  last : aj'.last = aj.last
  data : aj'.data = aj.data
  csize : aj'.csize = aj.csize

theorem Consumed.refl (aj : Ajitter τ) : Consumed aj aj := ⟨fun _ h => h, rfl, rfl, rfl, rfl⟩

theorem Consumed.trans {aj₁ aj₂ aj₃ : Ajitter τ} (h : Consumed aj₁ aj₂) (h' : Consumed aj₂ aj₃) :
    Consumed aj₁ aj₃ :=
  ⟨fun j hj => h.used j (h'.used j hj), h'.time.trans h.time, h'.last.trans h.last,
    h'.data.trans h.data, h'.csize.trans h.csize⟩

theorem consumed_copyRound {b : Build} {size : ℤ} {aj : Ajitter τ} {ob : ℕ → Byte}
    {idx : Fin AJD} (h : aj.Used idx) : Consumed aj (copyRound b size aj ob idx).1 := by
  refine ⟨fun j hj => ?_, copyRound_time, copyRound_last, copyRound_data, copyRound_csize⟩
  unfold Ajitter.Used at hj
  rw [copyRound_used] at hj
  split at hj
  · exact ((test_bdrop h).mp hj).1
  · exact hj

section CopyLoop

variable [LE τ] [DecidableLE τ]

variable {b : Build} {size : ℤ} {fuel : ℕ} {aj : Ajitter τ} {ob : ℕ → Byte} {ts : Option τ}

theorem copyLoop_of_none (h : ajitterGetPtr aj = none) :
    copyLoop b size (fuel + 1) aj ob ts = some ⟨aj, ob, ts, false⟩ := by
  rw [copyLoop, h]

theorem copyLoop_of_some {idx : Fin AJD} (h : ajitterGetPtr aj = some idx) :
    copyLoop b size (fuel + 1) aj ob ts =
      if (copyRound b size aj ob idx).1.outHave < size then
        copyLoop b size fuel (copyRound b size aj ob idx).1 (copyRound b size aj ob idx).2
          (some (aj.time idx))
      else some ⟨{ (copyRound b size aj ob idx).1 with outHave := 0 },
        (copyRound b size aj ob idx).2, some (aj.time idx), true⟩ := by
  rw [copyLoop, h]

/-- **The rule for the loop**: what holds when no packet is found and when the chunk is complete,
and is carried over from the rounds that follow, holds of every loop that ends. -/
theorem copyLoop_induction {motive : Ajitter τ → Copied τ → Prop}
    (empty : ∀ {aj : Ajitter τ} {ob : ℕ → Byte} {ts : Option τ}, ajitterGetPtr aj = none →
      motive aj ⟨aj, ob, ts, false⟩)
    (retry : ∀ {aj : Ajitter τ} {ob : ℕ → Byte} {idx : Fin AJD} {r : Copied τ},
      ajitterGetPtr aj = some idx → (copyRound b size aj ob idx).1.outHave < size →
      motive (copyRound b size aj ob idx).1 r → motive aj r)
    (complete : ∀ {aj : Ajitter τ} {ob : ℕ → Byte} {idx : Fin AJD},
      ajitterGetPtr aj = some idx → ¬ (copyRound b size aj ob idx).1.outHave < size →
      motive aj ⟨{ (copyRound b size aj ob idx).1 with outHave := 0 },
        (copyRound b size aj ob idx).2, some (aj.time idx), true⟩)
    {r : Copied τ} (h : copyLoop b size fuel aj ob ts = some r) : motive aj r := by
  induction fuel generalizing aj ob ts with
  | zero => exact nomatch h
  | succ fuel ih =>
      cases hget : ajitterGetPtr aj with
      | none =>
          rw [copyLoop_of_none hget] at h
          obtain rfl := Option.some.inj h
          exact empty hget
      | some idx =>
          rw [copyLoop_of_some hget] at h
          split at h
          · next hretry => exact retry hget hretry (ih h)
          · next hstop =>
            obtain rfl := Option.some.inj h
            exact complete hget hstop

/-- The loop ends within as many rounds as slots are in use, and one more. -/
theorem copyLoop_isSome (h : aj.slots.length < fuel) :
    (copyLoop b size fuel aj ob ts).isSome := by
  induction fuel generalizing aj ob ts with
  | zero => exact absurd h (Nat.not_lt_zero _)
  | succ fuel ih =>
      cases hget : ajitterGetPtr aj with
      | none => rw [copyLoop_of_none hget]; rfl
      | some idx =>
          rw [copyLoop_of_some hget]
          split
          · next hretry =>
            have hlt := length_slots_of_retry (ajitterGetPtr_used hget) hretry
            exact ih (by omega)
          · rfl

theorem consumed_copyLoop {r : Copied τ} (h : copyLoop b size fuel aj ob ts = some r) :
    Consumed aj r.aj := by
  apply copyLoop_induction (motive := fun aj r => Consumed aj r.aj) ?_ ?_ ?_ h
  · intro aj _ _ _
    exact Consumed.refl aj
  · intro aj _ idx r hget _ ih
    exact (consumed_copyRound (ajitterGetPtr_used hget)).trans ih
  · intro aj ob idx hget _
    have hround : Consumed aj (copyRound b size aj ob idx).1 :=
      consumed_copyRound (ajitterGetPtr_used hget)
    exact ⟨hround.used, hround.time, hround.last, hround.data, hround.csize⟩

/-- `ajitter_copy_chunk` always returns. -/
theorem ajitterCopyChunk_isSome (b : Build) (aj : Ajitter τ) (size : ℤ) (ob : ℕ → Byte)
    (ts : Option τ) : (ajitterCopyChunk b aj size ob ts).isSome :=
  copyLoop_isSome (Nat.lt_succ_of_le aj.length_slots_le)

end CopyLoop
