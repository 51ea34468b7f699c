/-
# Where the jitter reads and writes

Each slot has `csize` bytes.  While the unread bytes of the used slots lie inside their slots
(`InSlots`), every copy of `ajitter_copy_chunk` has a length from 0 up to what is needed and
what is left, and the copies keep it so.  A packet that fits its slot keeps it so too, and
changes no other slot.
-/
import Tcsip.AjitterQueue

variable {τ : Type*}

/-! ## The bytes of the slots -/

/-- The unread bytes of the used slots lie inside the slots. -/
structure Ajitter.InSlots (aj : Ajitter τ) : Prop where
  left : ∀ i, aj.Used i → 0 ≤ (aj.packet i).left
  off : ∀ i, aj.Used i → 0 ≤ (aj.packet i).off
  bound : ∀ i, aj.Used i → (aj.packet i).off + (aj.packet i).left ≤ aj.csize

/-- All bytes of slot `j`, read or not. -/
def Ajitter.slotBytes (aj : Ajitter τ) (j : Fin AJD) : List Byte :=
  Memory.read aj.data (slotData aj.csize j) aj.csize

theorem Ajitter.inSlots_of_used_eq_zero {aj : Ajitter τ} (h : aj.used = 0#32) : aj.InSlots := by
  have hnone : ∀ i, ¬ aj.Used i := used_eq_zero_iff.mp h
  exact ⟨fun i hi => absurd hi (hnone i), fun i hi => absurd hi (hnone i),
    fun i hi => absurd hi (hnone i)⟩

/-- A slot ends before the next one starts. -/
theorem slotData_add_le {csize : ℕ} {i j : Fin AJD} (h : i < j) :
    slotData csize i + csize ≤ slotData csize j := by
  unfold slotData
  calc csize * i + csize = csize * (i + 1) := (Nat.mul_succ csize i).symm
    _ ≤ csize * j := Nat.mul_le_mul_left csize h

theorem slotData_disjoint (csize : ℕ) {i j : Fin AJD} (h : i ≠ j) :
    slotData csize i + csize ≤ slotData csize j ∨ slotData csize j + csize ≤ slotData csize i := by
  rcases lt_or_gt_of_ne h with hlt | hgt
  · exact Or.inl (slotData_add_le hlt)
  · exact Or.inr (slotData_add_le hgt)

/-! ## Storing a packet -/

section Store

variable [Zero τ] {b : Build} {aj : Ajitter τ} {bs : List Byte} {left : ℤ} {time : τ}

/-- The buffer after a packet was stored in the slot that `ajitter_put_ptr` returned. -/
abbrev Ajitter.store (b : Build) (aj : Ajitter τ) (bs : List Byte) (left : ℤ) (time : τ) :
    Ajitter τ :=
  ajitterPutDone b (fillSlot (ajitterPutPtr aj).1 (ajitterPutPtr aj).2 bs left)
    (ajitterPutPtr aj).2 time

@[simp] theorem ajitterPutPtr_packet (aj : Ajitter τ) :
    (ajitterPutPtr aj).1.packet = aj.packet := by
  rcases ajitterPutPtr_cases aj with ⟨_, -, -, heq⟩ | ⟨-, heq⟩ <;> rw [heq]

@[simp] theorem ajitterPutPtr_csize (aj : Ajitter τ) : (ajitterPutPtr aj).1.csize = aj.csize := by
  rcases ajitterPutPtr_cases aj with ⟨_, -, -, heq⟩ | ⟨-, heq⟩ <;> rw [heq]

@[simp] theorem ajitterPutPtr_data (aj : Ajitter τ) : (ajitterPutPtr aj).1.data = aj.data := by
  rcases ajitterPutPtr_cases aj with ⟨_, -, -, heq⟩ | ⟨-, heq⟩ <;> rw [heq]

@[simp] theorem ajitterPutPtr_outHave (aj : Ajitter τ) :
    (ajitterPutPtr aj).1.outHave = aj.outHave := by
  rcases ajitterPutPtr_cases aj with ⟨_, -, -, heq⟩ | ⟨-, heq⟩ <;> rw [heq]

@[simp] theorem store_csize : (aj.store b bs left time).csize = aj.csize := ajitterPutPtr_csize aj

/-- The other slots that are used then were used before. -/
theorem used_of_used_store {j : Fin AJD} (h : (aj.store b bs left time).Used j)
    (hj : j ≠ (ajitterPutPtr aj).2) : aj.Used j := by
  rcases ajitterPutPtr_cases aj with ⟨idx, hfree, -, heq⟩ | ⟨-, heq⟩
  · unfold Ajitter.store at h
    rw [heq] at h hj
    exact ((test_bset hfree).mp h).resolve_left hj
  · -- the buffer was emptied, and only slot 0 may be marked
    unfold Ajitter.store at h
    rw [heq] at h hj
    have hone : ∀ j, Flags.Test (bset b 1#32 0) (mask j) → j = 0 := by
      cases b <;> decide
    exact absurd (hone j h) hj

/-- **A packet that fits its slot** keeps the bytes inside the slots. -/
theorem Ajitter.InSlots.store (h : aj.InSlots) (hleft : 0 ≤ left) (hfits : left ≤ aj.csize) :
    (aj.store b bs left time).InSlots := by
  have hpacket : ∀ j, (aj.store b bs left time).Used j →
      (aj.store b bs left time).packet j = ⟨left, 0⟩ ∨
        aj.Used j ∧ (aj.store b bs left time).packet j = aj.packet j := by
    intro j hj
    by_cases hidx : j = (ajitterPutPtr aj).2
    · left
      rw [hidx]
      exact stored_packet_self
    · right
      refine ⟨used_of_used_store hj hidx, ?_⟩
      rw [Ajitter.store, stored_packet_of_ne hidx, ajitterPutPtr_packet]
  refine ⟨fun j hj => ?_, fun j hj => ?_, fun j hj => ?_⟩
  · rcases hpacket j hj with heq | ⟨hused, heq⟩
    · rw [heq]
      exact hleft
    · rw [heq]
      exact h.left j hused
  · rcases hpacket j hj with heq | ⟨hused, heq⟩
    · rw [heq]
    · rw [heq]
      exact h.off j hused
  · rw [store_csize]
    rcases hpacket j hj with heq | ⟨hused, heq⟩
    · rw [heq, zero_add]
      exact hfits
    · rw [heq]
      exact h.bound j hused

/-- A packet that fits its slot leaves all bytes of the other slots. -/
theorem slotBytes_store_of_ne {j : Fin AJD} (hj : j ≠ (ajitterPutPtr aj).2)
    (hfits : bs.length ≤ aj.csize) :
    (aj.store b bs left time).slotBytes j = aj.slotBytes j := by
  unfold Ajitter.slotBytes
  rw [store_csize]
  dsimp only [Ajitter.store, ajitterPutDone, fillSlot]
  rw [ajitterPutPtr_csize, ajitterPutPtr_data]
  apply Memory.read_write_of_disjoint
  rcases slotData_disjoint aj.csize hj with h | h
  · exact Or.inl h
  · exact Or.inr (by omega)

end Store

/-! ## Copying a chunk -/

/-- One `memcpy` of `ajitter_copy_chunk`: `out_have` and `left` before it, and its length. -/
structure ChunkCopy where
  outHave : ℤ
  left : ℤ
  getNow : ℤ
deriving DecidableEq

/-- The length is not negative, and neither above what is needed nor above what is left. -/
def ChunkCopy.InBounds (size : ℤ) (c : ChunkCopy) : Prop :=
  0 ≤ c.getNow ∧ c.getNow ≤ min (size - c.outHave) c.left

instance (size : ℤ) (c : ChunkCopy) : Decidable (c.InBounds size) :=
  inferInstanceAs (Decidable (0 ≤ c.getNow ∧ c.getNow ≤ min (size - c.outHave) c.left))

section Copy

variable [LE τ] [DecidableLE τ] {b : Build} {size : ℤ} {fuel : ℕ} {aj : Ajitter τ}
  {ob : ℕ → Byte} {ts : Option τ} {idx : Fin AJD}

/-- The copies of the loop of `ajitter_copy_chunk`. -/
def chunkCopies (b : Build) (size : ℤ) : ℕ → Ajitter τ → (ℕ → Byte) → List ChunkCopy
  | 0, _, _ => []
  | fuel + 1, aj, ob =>
    match ajitterGetPtr aj with
    | none => []
    | some idx =>
      let (aj', ob') := copyRound b size aj ob idx
      ⟨aj.outHave, (aj.packet idx).left, getNow size aj idx⟩ ::
        if aj'.outHave < size then chunkCopies b size fuel aj' ob' else []

theorem chunkCopies_of_none (h : ajitterGetPtr aj = none) :
    chunkCopies b size (fuel + 1) aj ob = [] := by
  rw [chunkCopies, h]

theorem chunkCopies_of_some (h : ajitterGetPtr aj = some idx) :
    chunkCopies b size (fuel + 1) aj ob =
      ⟨aj.outHave, (aj.packet idx).left, getNow size aj idx⟩ ::
        if (copyRound b size aj ob idx).1.outHave < size then
          chunkCopies b size fuel (copyRound b size aj ob idx).1 (copyRound b size aj ob idx).2
        else [] := by
  rw [chunkCopies, h]

omit [LE τ] [DecidableLE τ] in
/-- A used slot has no negative number of bytes to give. -/
theorem Ajitter.InSlots.getNow_nonneg (h : aj.InSlots) (hused : aj.Used idx)
    (hsize : aj.outHave < size) : 0 ≤ getNow size aj idx :=
  le_min (by omega) (h.left idx hused)

omit [LE τ] [DecidableLE τ] in
/-- **A round** keeps the bytes inside the slots. -/
theorem inSlots_copyRound (h : aj.InSlots) (hused : aj.Used idx)
    (hsize : aj.outHave < size) : (copyRound b size aj ob idx).1.InSlots := by
  have hnow := h.getNow_nonneg hused hsize
  have hleft : getNow size aj idx ≤ (aj.packet idx).left := min_le_right _ _
  have hround : Consumed aj (copyRound b size aj ob idx).1 := consumed_copyRound hused
  refine ⟨fun j hj => ?_, fun j hj => ?_, fun j hj => ?_⟩
  all_goals
    have hold := hround.used j hj
    rw [copyRound_packet]
    by_cases hidx : j = idx
  · rw [hidx, Function.update_self]
    exact sub_nonneg.mpr hleft
  · rw [Function.update_of_ne hidx]
    exact h.left j hold
  · rw [hidx, Function.update_self]
    exact add_nonneg (h.off idx hused) hnow
  · rw [Function.update_of_ne hidx]
    exact h.off j hold
  · rw [hidx, Function.update_self, copyRound_csize]
    have hbound := h.bound idx hused
    dsimp only
    omega
  · rw [Function.update_of_ne hidx, copyRound_csize]
    exact h.bound j hold

/-- **The whole loop** keeps the bytes inside the slots, and less than a chunk waits after it. -/
theorem inSlots_copyLoop (h : aj.InSlots) (h0 : 0 ≤ aj.outHave)
    (hsize : aj.outHave < size) {r : Copied τ} (hr : copyLoop b size fuel aj ob ts = some r) :
    r.aj.InSlots ∧ 0 ≤ r.aj.outHave ∧ r.aj.outHave < size := by
  revert h h0 hsize
  apply copyLoop_induction (motive := fun aj r => aj.InSlots → 0 ≤ aj.outHave →
    aj.outHave < size → r.aj.InSlots ∧ 0 ≤ r.aj.outHave ∧ r.aj.outHave < size) ?_ ?_ ?_ hr
  · intro aj _ _ _ h h0 hsize
    exact ⟨h, h0, hsize⟩
  · intro aj ob idx r hget hretry ih h h0 hsize
    have hused := ajitterGetPtr_used hget
    exact ih (inSlots_copyRound h hused hsize) (add_nonneg h0 (h.getNow_nonneg hused hsize)) hretry
  · intro aj ob idx hget _ h h0 hsize
    have hround : (copyRound b size aj ob idx).1.InSlots :=
      inSlots_copyRound h (ajitterGetPtr_used hget) hsize
    exact ⟨⟨hround.left, hround.off, hround.bound⟩, le_rfl, lt_of_le_of_lt h0 hsize⟩

/-- **Every copy is in bounds.** -/
theorem chunkCopies_inBounds (h : aj.InSlots) (h0 : 0 ≤ aj.outHave)
    (hsize : aj.outHave < size) : ∀ c ∈ chunkCopies b size fuel aj ob, c.InBounds size := by
  induction fuel generalizing aj ob with
  | zero => exact fun c hc => absurd hc List.not_mem_nil
  | succ fuel ih =>
      cases hget : ajitterGetPtr aj with
      | none =>
          rw [chunkCopies_of_none hget]
          exact fun c hc => absurd hc List.not_mem_nil
      | some idx =>
          have hused := ajitterGetPtr_used hget
          have hnow := h.getNow_nonneg hused hsize
          rw [chunkCopies_of_some hget]
          intro c hc
          rcases List.mem_cons.mp hc with rfl | hc
          · exact ⟨hnow, le_rfl⟩
          · split at hc
            · next hretry =>
              exact ih (inSlots_copyRound h hused hsize) (add_nonneg h0 hnow) hretry c hc
            · exact absurd hc List.not_mem_nil

end Copy
