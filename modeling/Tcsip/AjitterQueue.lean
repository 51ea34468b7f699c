/-
# The jitter buffer as a queue of bytes

While the stamps of the used slots do not decrease in the order in which they were filled, none
of them is above `last`, and of two slots with one stamp the one filled first stands behind the
other, the buffer is a queue (`Queues`): `ajitter_get_ptr` returns the slot that was filled
first, putting a packet appends its bytes, and reading a chunk takes a block from the front.
The bytes of a partial chunk that wait in `out_buffer` come first in that queue.  The order does
not depend on every packet having bytes (`Lines`), only that of the slots left in use does.

Where the stamps increase strictly (`Holds`), the places of the slots do not matter.
-/
import Tcsip.Ajitter
import Tcsip.BlockQueue

variable {τ : Type*}

/-! ## The queue -/

/-- The bytes that are still to be read in slot `idx`. -/
def Ajitter.unread (aj : Ajitter τ) (idx : Fin AJD) : List Byte :=
  Memory.read aj.data (slotData aj.csize idx + (aj.packet idx).off).toNat
    (aj.packet idx).left.toNat

/-- The used slots are `q`, in the order in which they are to be read: of equal stamps the one
further back comes first.  Some may have no bytes. -/
structure Ajitter.Lines [LE τ] (aj : Ajitter τ) (q : List (Fin AJD)) : Prop where
  nodup : q.Nodup
  used : ∀ i, aj.Used i ↔ i ∈ q
  before : q.Pairwise fun i j => aj.time i ≤ aj.time j ∧ (aj.time j ≤ aj.time i → j < i)
  last : ∀ i ∈ q, aj.time i ≤ aj.last
  left : ∀ i ∈ q, 0 ≤ (aj.packet i).left
  off : ∀ i ∈ q, 0 ≤ (aj.packet i).off

/-- The used slots are `q`, in the order in which they are to be read: of equal stamps the one
further back comes first. -/
structure Ajitter.Queues [LE τ] (aj : Ajitter τ) (q : List (Fin AJD)) : Prop where
  nodup : q.Nodup
  used : ∀ i, aj.Used i ↔ i ∈ q
  before : q.Pairwise fun i j => aj.time i ≤ aj.time j ∧ (aj.time j ≤ aj.time i → j < i)
  last : ∀ i ∈ q, aj.time i ≤ aj.last
  left : ∀ i ∈ q, 0 < (aj.packet i).left
  off : ∀ i ∈ q, 0 ≤ (aj.packet i).off

/-- The used slots are `q`, in the order in which they are to be read, and their stamps
increase. -/
structure Ajitter.Holds [LE τ] (aj : Ajitter τ) (q : List (Fin AJD)) : Prop where
  nodup : q.Nodup
  used : ∀ i, aj.Used i ↔ i ∈ q
  before : q.Pairwise fun i j => aj.time i ≤ aj.time j ∧ ¬ aj.time j ≤ aj.time i
  last : ∀ i ∈ q, aj.time i ≤ aj.last
  left : ∀ i ∈ q, 0 < (aj.packet i).left
  off : ∀ i ∈ q, 0 ≤ (aj.packet i).off

/-- The bytes of the slots in `q`. -/
def Ajitter.stream (aj : Ajitter τ) (q : List (Fin AJD)) : List Byte := q.flatMap aj.unread

/-- The bytes that `ob` has of the chunk being put together. -/
def Ajitter.partialChunk (aj : Ajitter τ) (ob : ℕ → Byte) : List Byte :=
  Memory.read ob 0 aj.outHave.toNat

/-- Everything that was put and not handed out. -/
def Ajitter.content (aj : Ajitter τ) (q : List (Fin AJD)) : List Byte :=
  aj.partialChunk aj.outBuffer ++ aj.stream q

theorem Ajitter.length_unread (aj : Ajitter τ) (idx : Fin AJD) :
    (aj.unread idx).length = (aj.packet idx).left.toNat := Memory.length_read _ _ _

section Lines

variable [LE τ] {aj : Ajitter τ} {q : List (Fin AJD)} {i : Fin AJD}

theorem Ajitter.Queues.lines (h : aj.Queues q) : aj.Lines q :=
  ⟨h.nodup, h.used, h.before, h.last, fun i hi => (h.left i hi).le, h.off⟩

theorem Ajitter.Lines.queues (h : aj.Lines q) (hleft : ∀ i ∈ q, 0 < (aj.packet i).left) :
    aj.Queues q := ⟨h.nodup, h.used, h.before, h.last, hleft, h.off⟩

theorem Ajitter.lines_nil : aj.Lines [] ↔ aj.used = 0#32 := by
  constructor
  · intro h
    exact used_eq_zero_iff.mpr fun idx hidx => List.not_mem_nil ((h.used idx).mp hidx)
  · intro h
    refine ⟨List.nodup_nil, fun idx => ?_, List.Pairwise.nil, ?_, ?_, ?_⟩
    · exact iff_of_false (used_eq_zero_iff.mp h idx) List.not_mem_nil
    all_goals exact fun idx hidx => absurd hidx List.not_mem_nil

theorem Ajitter.queues_nil : aj.Queues [] ↔ aj.used = 0#32 :=
  ⟨fun h => Ajitter.lines_nil.mp h.lines,
    fun h => (Ajitter.lines_nil.mpr h).queues fun _ hi => absurd hi List.not_mem_nil⟩

theorem Ajitter.Lines.length_le (h : aj.Lines q) : q.length ≤ AJD := by
  have hle := h.nodup.length_le_card
  rwa [Fintype.card_fin] at hle

/-- There is only one such order. -/
theorem Ajitter.Lines.unique {q' : List (Fin AJD)} (h : aj.Lines q) (h' : aj.Lines q') :
    q = q' := by
  have hperm : q.Perm q' := (List.perm_ext_iff_of_nodup h.nodup h'.nodup).mpr fun i => by
    rw [← h.used, h'.used]
  refine hperm.eq_of_pairwise (fun i j _ _ hij hji => ?_) h.before h'.before
  exact absurd (hij.2 hji.1) (hji.2 hij.1).asymm

variable [DecidableLE τ]

/-- **The oldest packet comes first.** -/
theorem Ajitter.Lines.getPtr (h : aj.Lines (i :: q)) : ajitterGetPtr aj = some i := by
  apply ajitterGetPtr_eq_some
  · exact (h.used i).mpr List.mem_cons_self
  · exact h.last i List.mem_cons_self
  · intro j hj hne
    have hmem : j ∈ q := (List.mem_cons.mp ((h.used j).mp hj)).resolve_left hne
    exact (List.pairwise_cons.mp h.before).1 j hmem

omit [DecidableLE τ] in
/-- A queue goes on without its first slot. -/
theorem Ajitter.Lines.tail (h : aj.Lines (i :: q)) {aj' : Ajitter τ}
    (hused : ∀ j, aj'.Used j ↔ aj.Used j ∧ j ≠ i) (htime : aj'.time = aj.time)
    (hlast : aj'.last = aj.last) (hpkt : ∀ j ∈ q, aj'.packet j = aj.packet j) :
    aj'.Lines q := by
  have hnot : i ∉ q := (List.nodup_cons.mp h.nodup).1
  have hsub : ∀ j ∈ q, j ∈ i :: q := fun j hj => List.mem_cons_of_mem i hj
  refine ⟨(List.nodup_cons.mp h.nodup).2, fun j => ?_, ?_, ?_, ?_, ?_⟩
  · rw [hused, h.used, List.mem_cons]
    constructor
    · rintro ⟨hj, hne⟩
      exact hj.resolve_left hne
    · exact fun hj => ⟨Or.inr hj, fun heq => hnot (heq ▸ hj)⟩
  · rw [htime]
    exact (List.pairwise_cons.mp h.before).2
  · rw [htime, hlast]
    exact fun j hj => h.last j (hsub j hj)
  · intro j hj
    rw [hpkt j hj]
    exact h.left j (hsub j hj)
  · intro j hj
    rw [hpkt j hj]
    exact h.off j (hsub j hj)

omit [DecidableLE τ] in
/-- A queue goes on with a new slot behind the others. -/
theorem Ajitter.Lines.concat (h : aj.Lines q) {aj' : Ajitter τ} (hfree : ¬ aj.Used i)
    (hused : ∀ j, aj'.Used j ↔ j = i ∨ aj.Used j) (htime : ∀ j ∈ q, aj'.time j = aj.time j)
    (hpkt : ∀ j ∈ q, aj'.packet j = aj.packet j) (hlast : aj'.last = aj'.time i)
    (hself : aj'.time i ≤ aj'.time i)
    (hafter : ∀ j ∈ q, aj.time j ≤ aj'.time i ∧ (aj'.time i ≤ aj.time j → i < j))
    (hleft : 0 ≤ (aj'.packet i).left) (hoff : 0 ≤ (aj'.packet i).off) :
    aj'.Lines (q ++ [i]) := by
  have hnot : i ∉ q := fun hmem => hfree ((h.used i).mpr hmem)
  refine ⟨?_, fun j => ?_, ?_, ?_, ?_, ?_⟩
  · exact List.nodup_append.mpr ⟨h.nodup, List.nodup_singleton i, fun j hj k hk =>
      (List.mem_singleton.mp hk).symm ▸ fun heq => hnot (heq ▸ hj)⟩
  · rw [hused, h.used, List.mem_append, List.mem_singleton, or_comm]
  · apply List.pairwise_append.mpr
    refine ⟨h.before.imp_of_mem fun hj hk hb => ?_, List.pairwise_singleton _ _, ?_⟩
    · rw [htime _ hj, htime _ hk]
      exact hb
    · intro j hj k hk
      obtain rfl := List.mem_singleton.mp hk
      rw [htime j hj]
      exact hafter j hj
  · intro j hj
    rw [hlast]
    rcases List.mem_append.mp hj with hj | hj
    · rw [htime j hj]
      exact (hafter j hj).1
    · rw [List.mem_singleton.mp hj]
      exact hself
  · intro j hj
    rcases List.mem_append.mp hj with hj | hj
    · rw [hpkt j hj]
      exact h.left j hj
    · rw [List.mem_singleton.mp hj]
      exact hleft
  · intro j hj
    rcases List.mem_append.mp hj with hj | hj
    · rw [hpkt j hj]
      exact h.off j hj
    · rw [List.mem_singleton.mp hj]
      exact hoff

end Lines

/-- A slot whose header stays has the same bytes. -/
theorem Ajitter.unread_congr {aj aj' : Ajitter τ} {i : Fin AJD} (hdata : aj'.data = aj.data)
    (hcsize : aj'.csize = aj.csize) (hpkt : aj'.packet i = aj.packet i) :
    aj'.unread i = aj.unread i := by
  unfold Ajitter.unread
  rw [hdata, hcsize, hpkt]

theorem Ajitter.stream_congr {aj aj' : Ajitter τ} {q : List (Fin AJD)}
    (h : ∀ i ∈ q, aj'.unread i = aj.unread i) : aj'.stream q = aj.stream q := by
  unfold Ajitter.stream
  rw [List.flatMap_def, List.flatMap_def, List.map_congr_left h]

theorem Ajitter.stream_concat (aj : Ajitter τ) (q : List (Fin AJD)) (i : Fin AJD) :
    aj.stream (q ++ [i]) = aj.stream q ++ aj.unread i := by
  unfold Ajitter.stream
  rw [List.flatMap_append, List.flatMap_singleton]

/-! ## One round of the copy loop -/

section Round

variable [LE τ] {b : Build} {size : ℤ} {aj : Ajitter τ} {ob : ℕ → Byte} {q : List (Fin AJD)}
  {i : Fin AJD}

omit [LE τ] in
/-- A round appends the first bytes of its packet to the chunk. -/
theorem partialChunk_copyRound (h0 : 0 ≤ aj.outHave) (hnow : 0 ≤ getNow size aj i)
    (hleft : getNow size aj i ≤ (aj.packet i).left) :
    (copyRound b size aj ob i).1.partialChunk (copyRound b size aj ob i).2 =
      aj.partialChunk ob ++ (aj.unread i).take (getNow size aj i).toNat := by
  unfold Ajitter.partialChunk Ajitter.unread
  rw [copyRound_outHave, copyRound_ob, Memory.take_read _ _ (Int.toNat_le_toNat hleft),
    Int.toNat_add h0 hnow]
  have happend := Memory.read_write_append ob 0 aj.outHave.toNat
    (Memory.read aj.data (slotData aj.csize i + (aj.packet i).off).toNat
      (getNow size aj i).toNat)
  rwa [Memory.length_read, Nat.zero_add] at happend

omit [LE τ] in
theorem copyRound_packet_of_ne {j : Fin AJD} (hj : j ≠ i) :
    (copyRound b size aj ob i).1.packet j = aj.packet j := by
  rw [copyRound_packet, Function.update_of_ne hj]

omit [LE τ] in
/-- A packet that is read in part. -/
theorem copyRound_packet_of_long (hlong : size - aj.outHave < (aj.packet i).left) :
    (copyRound b size aj ob i).1.packet i =
      ⟨(aj.packet i).left - (size - aj.outHave), (aj.packet i).off + (size - aj.outHave)⟩ := by
  have hnow : getNow size aj i = size - aj.outHave := min_eq_left hlong.le
  rw [copyRound_packet, Function.update_self, hnow]

omit [LE τ] in
/-- What stays of a packet that is read in part. -/
theorem unread_copyRound_of_long (hoff : 0 ≤ (aj.packet i).off) (hsize : aj.outHave < size)
    (hlong : size - aj.outHave < (aj.packet i).left) :
    (copyRound b size aj ob i).1.unread i = (aj.unread i).drop (size - aj.outHave).toNat := by
  unfold Ajitter.unread
  rw [copyRound_packet_of_long hlong, copyRound_data, copyRound_csize,
    Memory.drop_read _ _ (Int.toNat_le_toNat hlong.le)]
  dsimp only
  congr 1 <;> omega

/-- A packet with no more bytes than needed is used up and leaves the queue. -/
theorem Ajitter.Lines.copyRound_short (h : aj.Lines (i :: q)) (b : Build) (size : ℤ)
    (ob : ℕ → Byte) (h0 : 0 ≤ aj.outHave)
    (hshort : (aj.packet i).left ≤ size - aj.outHave) :
    (copyRound b size aj ob i).1.Lines q ∧
      (copyRound b size aj ob i).1.outHave = aj.outHave + (aj.packet i).left ∧
      (copyRound b size aj ob i).1.partialChunk (copyRound b size aj ob i).2 ++
        (copyRound b size aj ob i).1.stream q = aj.partialChunk ob ++ aj.stream (i :: q) := by
  have hnow : getNow size aj i = (aj.packet i).left := min_eq_right hshort
  have hleft : 0 ≤ (aj.packet i).left := h.left i List.mem_cons_self
  have hnot : i ∉ q := (List.nodup_cons.mp h.nodup).1
  have hpkt : ∀ j ∈ q, (copyRound b size aj ob i).1.packet j = aj.packet j :=
    fun j hj => copyRound_packet_of_ne fun heq => hnot (heq ▸ hj)
  refine ⟨h.tail (fun j => ?_) copyRound_time copyRound_last hpkt, ?_, ?_⟩
  · unfold Ajitter.Used
    rw [copyRound_used, hnow, if_pos (by omega)]
    exact test_bdrop ((h.used i).mpr List.mem_cons_self)
  · rw [copyRound_outHave, hnow]
  · rw [partialChunk_copyRound h0 (by omega) hnow.le, hnow,
      Ajitter.stream_congr fun j hj =>
        Ajitter.unread_congr copyRound_data copyRound_csize (hpkt j hj),
      List.append_assoc, ← aj.length_unread, List.take_length]
    rfl

/-- A packet with more bytes than needed completes the chunk and stays. -/
theorem Ajitter.Lines.copyRound_long (h : aj.Lines (i :: q)) (b : Build) (size : ℤ)
    (ob : ℕ → Byte) (h0 : 0 ≤ aj.outHave) (hsize : aj.outHave < size)
    (hlong : size - aj.outHave < (aj.packet i).left) :
    (copyRound b size aj ob i).1.Lines (i :: q) ∧
      (copyRound b size aj ob i).1.outHave = size ∧
      (copyRound b size aj ob i).1.partialChunk (copyRound b size aj ob i).2 ++
        (copyRound b size aj ob i).1.stream (i :: q) =
          aj.partialChunk ob ++ aj.stream (i :: q) := by
  have hnow : getNow size aj i = size - aj.outHave := min_eq_left hlong.le
  have hnot : i ∉ q := (List.nodup_cons.mp h.nodup).1
  have hoff : 0 ≤ (aj.packet i).off := h.off i List.mem_cons_self
  have hself : (copyRound b size aj ob i).1.packet i = _ := copyRound_packet_of_long hlong
  have hpkt : ∀ j ∈ q, (copyRound b size aj ob i).1.packet j = aj.packet j :=
    fun j hj => copyRound_packet_of_ne fun heq => hnot (heq ▸ hj)
  have hused : (copyRound b size aj ob i).1.used = aj.used := by
    rw [copyRound_used, hnow, if_neg (by omega)]
  refine ⟨⟨h.nodup, ?_, ?_, ?_, ?_, ?_⟩, ?_, ?_⟩
  · unfold Ajitter.Used
    rw [hused]
    exact h.used
  · rw [copyRound_time]
    exact h.before
  · rw [copyRound_time, copyRound_last]
    exact h.last
  · intro j hj
    rcases List.mem_cons.mp hj with rfl | hj
    · rw [hself]
      dsimp only
      omega
    · rw [hpkt j hj]
      exact h.left j (List.mem_cons_of_mem i hj)
  · intro j hj
    rcases List.mem_cons.mp hj with rfl | hj
    · rw [hself]
      dsimp only
      omega
    · rw [hpkt j hj]
      exact h.off j (List.mem_cons_of_mem i hj)
  · rw [copyRound_outHave, hnow]
    omega
  · -- what was copied and what stays in slot `i` are its unread bytes
    have hrest : (copyRound b size aj ob i).1.unread i = _ :=
      unread_copyRound_of_long (h.off i List.mem_cons_self) hsize hlong
    rw [partialChunk_copyRound h0 (by omega) (by omega), hnow]
    unfold Ajitter.stream
    rw [List.flatMap_cons, List.flatMap_cons, hrest, List.append_assoc,
      ← List.append_assoc (List.take _ _), List.take_append_drop]
    congr 2
    exact Ajitter.stream_congr fun j hj =>
      Ajitter.unread_congr copyRound_data copyRound_csize (hpkt j hj)

end Round

/-! ## The whole copy loop -/

section Loop

variable [LE τ] [DecidableLE τ] {b : Build} {size : ℤ} {fuel : ℕ} {aj : Ajitter τ}
  {ob : ℕ → Byte} {ts : Option τ} {q : List (Fin AJD)}

omit [LE τ] [DecidableLE τ] in
theorem Ajitter.length_partialChunk (aj : Ajitter τ) (ob : ℕ → Byte) :
    (aj.partialChunk ob).length = aj.outHave.toNat := Memory.length_read _ _ _

omit [LE τ] [DecidableLE τ] in
/-- A complete chunk is the front of the queue, and the rest stays. -/
theorem Ajitter.chunk_of_complete {s : List Byte} (hout : aj.outHave = size)
    (hs : aj.partialChunk ob ++ aj.stream q = s) :
    Memory.read ob 0 size.toNat = s.take size.toNat ∧ aj.stream q = s.drop size.toNat := by
  have hlen : (aj.partialChunk ob).length = size.toNat := by rw [aj.length_partialChunk, hout]
  rw [← hs, ← hlen, List.take_left, List.drop_left, hlen, ← hout]
  exact ⟨rfl, rfl⟩

/-- With enough bytes the loop hands out a chunk, and a packet that stays has bytes left. -/
theorem Ajitter.Lines.copyLoop_of_le (h : aj.Lines q) (b : Build) (ts : Option τ)
    (h0 : 0 ≤ aj.outHave) (hsize : aj.outHave < size) (hfuel : q.length < fuel)
    (hle : size.toNat ≤ (aj.partialChunk ob ++ aj.stream q).length) :
    ∃ r q', copyLoop b size fuel aj ob ts = some r ∧ r.ret = true ∧ r.aj.Lines q' ∧
      q' <:+ q ∧ (∀ i ∈ q', 0 < (aj.packet i).left → 0 < (r.aj.packet i).left) ∧
      r.aj.outHave = 0 ∧
      Memory.read r.ob 0 size.toNat = (aj.partialChunk ob ++ aj.stream q).take size.toNat ∧
      r.aj.stream q' = (aj.partialChunk ob ++ aj.stream q).drop size.toNat := by
  induction q generalizing aj ob ts fuel with
  | nil =>
      rw [List.length_append, aj.length_partialChunk] at hle
      have hnil : (aj.stream []).length = 0 := rfl
      omega
  | cons i q ih =>
      obtain ⟨fuel, rfl⟩ := Nat.exists_eq_succ_of_ne_zero (Nat.ne_of_gt (Nat.zero_lt_of_lt hfuel))
      have hleft : 0 ≤ (aj.packet i).left := h.left i List.mem_cons_self
      have hnot : i ∉ q := (List.nodup_cons.mp h.nodup).1
      have hpkt : ∀ j ∈ q, (copyRound b size aj ob i).1.packet j = aj.packet j :=
        fun j hj => copyRound_packet_of_ne fun heq => hnot (heq ▸ hj)
      rw [Nat.succ_eq_add_one, copyLoop_of_some h.getPtr]
      by_cases hlong : size - aj.outHave < (aj.packet i).left
      · obtain ⟨hh, hout, hs⟩ := h.copyRound_long b size ob h0 hsize hlong
        rw [if_neg (by omega)]
        have hchunk := Ajitter.chunk_of_complete hout hs
        refine ⟨_, i :: q, rfl, rfl, ⟨hh.nodup, hh.used, hh.before, hh.last, hh.left, hh.off⟩,
          List.suffix_refl _, fun j hj hpos => ?_, rfl, hchunk.1, hchunk.2⟩
        dsimp only
        rcases List.mem_cons.mp hj with rfl | hj
        · rw [copyRound_packet_of_long hlong]
          exact sub_pos.mpr hlong
        · rwa [hpkt j hj]
      · obtain ⟨hh, hout, hs⟩ := h.copyRound_short b size ob h0 (not_lt.mp hlong)
        by_cases hmore : aj.outHave + (aj.packet i).left < size
        · -- the packet was too short: the next round goes on with the others
          rw [if_pos (by omega), ← hs]
          obtain ⟨r, q', hr, hret, hq', hsuffix, hpos, hrest⟩ :=
            ih hh (some (aj.time i)) (by omega) (by omega) (Nat.lt_of_succ_lt_succ hfuel)
              (by rwa [hs])
          refine ⟨r, q', hr, hret, hq', hsuffix.trans (List.suffix_cons i q), fun j hj => ?_, hrest⟩
          rw [← hpkt j (hsuffix.subset hj)]
          exact hpos j hj
        · rw [if_neg (by omega)]
          have hchunk := Ajitter.chunk_of_complete (show _ = size by omega) hs
          refine ⟨_, q, rfl, rfl, ⟨hh.nodup, hh.used, hh.before, hh.last, hh.left, hh.off⟩,
            List.suffix_cons i q, fun j hj hpos => ?_, rfl, hchunk.1, hchunk.2⟩
          dsimp only
          rwa [hpkt j hj]

/-- With too few bytes the loop collects them all in `ob`. -/
theorem Ajitter.Lines.copyLoop_of_lt (h : aj.Lines q) (b : Build) (ts : Option τ)
    (h0 : 0 ≤ aj.outHave) (hfuel : q.length < fuel)
    (hlt : (aj.partialChunk ob ++ aj.stream q).length < size.toNat) :
    ∃ r, copyLoop b size fuel aj ob ts = some r ∧ r.ret = false ∧ r.aj.Lines [] ∧
      r.aj.outHave = (aj.partialChunk ob ++ aj.stream q).length ∧
      r.aj.partialChunk r.ob = aj.partialChunk ob ++ aj.stream q := by
  induction q generalizing aj ob ts fuel with
  | nil =>
      obtain ⟨fuel, rfl⟩ := Nat.exists_eq_succ_of_ne_zero (Nat.ne_of_gt (Nat.zero_lt_of_lt hfuel))
      have hget : ajitterGetPtr aj = none :=
        ajitterGetPtr_of_used_eq_zero (Ajitter.lines_nil.mp h)
      have hnil : aj.partialChunk ob ++ aj.stream [] = aj.partialChunk ob := List.append_nil _
      refine ⟨_, copyLoop_of_none hget, rfl, h, ?_, hnil.symm⟩
      rw [hnil, aj.length_partialChunk]
      exact (Int.toNat_of_nonneg h0).symm
  | cons i q ih =>
      obtain ⟨fuel, rfl⟩ := Nat.exists_eq_succ_of_ne_zero (Nat.ne_of_gt (Nat.zero_lt_of_lt hfuel))
      have hleft : 0 ≤ (aj.packet i).left := h.left i List.mem_cons_self
      have hlen : (aj.partialChunk ob ++ aj.stream (i :: q)).length =
          aj.outHave.toNat + ((aj.packet i).left.toNat + (aj.stream q).length) := by
        unfold Ajitter.stream
        rw [List.length_append, aj.length_partialChunk, List.flatMap_cons, List.length_append,
          aj.length_unread]
      obtain ⟨hh, hout, hs⟩ := h.copyRound_short b size ob h0 (by omega)
      rw [Nat.succ_eq_add_one, copyLoop_of_some h.getPtr, if_pos (by omega), ← hs]
      exact ih hh _ (by omega) (Nat.lt_of_succ_lt_succ hfuel) (by rwa [hs])

end Loop

/-! ## The operations on the queue of bytes -/

section Operations

variable [LE τ] [DecidableLE τ] {b : Build} {size : ℤ} {aj : Ajitter τ} {ts : Option τ}
  {q : List (Fin AJD)}

/-- **Reading a chunk takes a block from the front of the queue.**  A read that gets nothing
leaves no slot in use: what there is waits in `out_buffer`. -/
theorem Ajitter.Lines.getChunk (h : aj.Lines q) (b : Build) (ts : Option τ) (h0 : 0 ≤ aj.outHave)
    (hsize : aj.outHave < size) :
    ∃ aj' ts' c q', ajitterGetChunk b aj size ts = some (aj', ts', c) ∧ aj'.Lines q' ∧
      q' <:+ q ∧ (∀ i ∈ q', 0 < (aj.packet i).left → 0 < (aj'.packet i).left) ∧
      Consumed aj aj' ∧ 0 ≤ aj'.outHave ∧ aj'.outHave < size ∧
      BlockQueue.take size.toNat (aj.content q) = (c, aj'.content q') ∧ (c = none → q' = []) := by
  have hfuel : q.length < AJD + 1 := Nat.lt_succ_of_le h.length_le
  unfold ajitterGetChunk ajitterCopyChunk
  by_cases hle : size.toNat ≤ (aj.content q).length
  · obtain ⟨r, q', hr, hret, hh, hsuffix, hpos, hout, hread, hstream⟩ :=
      h.copyLoop_of_le b ts h0 hsize hfuel hle
    have hcons := consumed_copyLoop hr
    rw [hr, Option.map_some, hret, if_pos rfl, BlockQueue.take_of_le hle]
    refine ⟨_, _, _, q', rfl, ⟨hh.nodup, hh.used, hh.before, hh.last, hh.left, hh.off⟩, hsuffix,
      hpos, ⟨hcons.used, hcons.time, hcons.last, hcons.data, hcons.csize⟩, hout.ge, ?_, ?_,
      fun hc => nomatch hc⟩
    · rw [hout]
      omega
    · have hpart : ({ r.aj with outBuffer := r.ob } : Ajitter τ).content q' = r.aj.stream q' := by
        unfold Ajitter.content Ajitter.partialChunk
        rw [hout]
        rfl
      rw [hread, hpart, hstream]
      rfl
  · have hlt := not_le.mp hle
    obtain ⟨r, hr, hret, hh, hout, hpart⟩ :=
      h.copyLoop_of_lt b ts h0 hfuel hlt
    have hcons := consumed_copyLoop hr
    rw [hr, Option.map_some, hret, BlockQueue.take_of_lt hlt]
    refine ⟨_, _, _, [], rfl, ⟨hh.nodup, hh.used, hh.before, hh.last, hh.left, hh.off⟩,
      List.nil_suffix, fun _ hi => absurd hi List.not_mem_nil,
      ⟨hcons.used, hcons.time, hcons.last, hcons.data, hcons.csize⟩, ?_, ?_, ?_, fun _ => rfl⟩
    · dsimp only
      rw [hout]
      exact Int.natCast_nonneg _
    · have hlen : (aj.partialChunk aj.outBuffer ++ aj.stream q).length < size.toNat := hlt
      dsimp only
      rw [hout]
      omega
    · have hcontent : ({ r.aj with outBuffer := r.ob } : Ajitter τ).content [] = aj.content q :=
        (List.append_nil _).trans hpart
      rw [hcontent]
      rfl

/-- The same for packets that have bytes: those that stay in use have some left. -/
theorem Ajitter.Queues.getChunk (h : aj.Queues q) (b : Build) (ts : Option τ) (h0 : 0 ≤ aj.outHave)
    (hsize : aj.outHave < size) :
    ∃ aj' ts' c q', ajitterGetChunk b aj size ts = some (aj', ts', c) ∧ aj'.Queues q' ∧
      q' <:+ q ∧ Consumed aj aj' ∧ 0 ≤ aj'.outHave ∧ aj'.outHave < size ∧
      BlockQueue.take size.toNat (aj.content q) = (c, aj'.content q') ∧ (c = none → q' = []) := by
  obtain ⟨aj', ts', c, q', hget, hlines, hsuffix, hpos, hrest⟩ := h.lines.getChunk b ts h0 hsize
  exact ⟨aj', ts', c, q', hget,
    hlines.queues fun i hi => hpos i hi (h.left i (hsuffix.subset hi)), hsuffix, hrest⟩

/-- `n` bytes from the start of slot `idx` on do not run over bytes of slot `j` that are
still to be read. -/
abbrev Ajitter.Clear (aj : Ajitter τ) (n : ℕ) (idx j : Fin AJD) : Prop :=
  slotData aj.csize j + (aj.packet j).off + (aj.packet j).left ≤ slotData aj.csize idx ∨
    (slotData aj.csize idx + n : ℤ) ≤ slotData aj.csize j + (aj.packet j).off

/-- Storing `n` bytes in the slot that `ajitter_put_ptr` returns does not run over bytes
still to be read. -/
def Ajitter.Spares [Zero τ] (aj : Ajitter τ) (n : ℕ) : Prop :=
  ∀ j, aj.Used j → aj.Clear n (ajitterPutPtr aj).2 j

instance [Zero τ] (aj : Ajitter τ) (n : ℕ) : Decidable (aj.Spares n) :=
  inferInstanceAs (Decidable (∀ j, aj.Used j → aj.Clear n (ajitterPutPtr aj).2 j))

section Stored

variable {idx j : Fin AJD} {b : Build} {bs : List Byte} {left : ℤ} {time : τ}

omit [LE τ] [DecidableLE τ] in
@[simp] theorem stored_time_self :
    (ajitterPutDone b (fillSlot aj idx bs left) idx time).time idx = time :=
  Function.update_self _ _ _

omit [LE τ] [DecidableLE τ] in
theorem stored_time_of_ne (hj : j ≠ idx) :
    (ajitterPutDone b (fillSlot aj idx bs left) idx time).time j = aj.time j :=
  Function.update_of_ne hj _ _

omit [LE τ] [DecidableLE τ] in
@[simp] theorem stored_packet_self :
    (ajitterPutDone b (fillSlot aj idx bs left) idx time).packet idx = ⟨left, 0⟩ :=
  Function.update_self _ _ _

omit [LE τ] [DecidableLE τ] in
theorem stored_packet_of_ne (hj : j ≠ idx) :
    (ajitterPutDone b (fillSlot aj idx bs left) idx time).packet j = aj.packet j :=
  Function.update_of_ne hj _ _

omit [LE τ] [DecidableLE τ] in
/-- The packet that was stored is read back. -/
theorem unread_stored_self :
    (ajitterPutDone b (fillSlot aj idx bs bs.length) idx time).unread idx = bs := by
  unfold Ajitter.unread
  rw [stored_packet_self]
  dsimp only [ajitterPutDone, fillSlot]
  rw [Int.add_zero, Int.toNat_natCast, Int.toNat_natCast]
  exact Memory.read_write_self _ _ _

omit [LE τ] [DecidableLE τ] in
/-- The other packets are not touched. -/
theorem unread_stored_of_ne (hj : j ≠ idx) (hleft : 0 ≤ (aj.packet j).left)
    (hoff : 0 ≤ (aj.packet j).off) (hclear : aj.Clear bs.length idx j) :
    (ajitterPutDone b (fillSlot aj idx bs left) idx time).unread j = aj.unread j := by
  unfold Ajitter.unread
  rw [stored_packet_of_ne hj]
  dsimp only [ajitterPutDone, fillSlot]
  apply Memory.read_write_of_disjoint
  rcases hclear with hs | hs
  · left
    omega
  · right
    omega

end Stored

omit [DecidableLE τ] in
/-- **Putting a packet appends its bytes to the queue**, if there is a free slot, the stamp
is not below the stamps in the buffer, the slot is before those of packets with the same stamp,
and the bytes keep clear of those of other packets. -/
theorem Ajitter.Lines.put [Zero τ] (h : aj.Lines q) (b : Build) (bs : List Byte) (time : τ)
    (hroom : ¬ aj.Full) (hself : time ≤ time)
    (hafter : ∀ i ∈ q, aj.time i ≤ time ∧ (time ≤ aj.time i → (ajitterPutPtr aj).2 < i))
    (hspare : aj.Spares bs.length) :
    ∃ idx, (ajitterPut b aj bs time).Lines (q ++ [idx]) ∧
      (ajitterPut b aj bs time).time idx = time ∧
      (∀ j ∈ q, (ajitterPut b aj bs time).time j = aj.time j) ∧
      (ajitterPut b aj bs time).packet idx = ⟨bs.length, 0⟩ ∧
      (∀ j ∈ q, (ajitterPut b aj bs time).packet j = aj.packet j) ∧
      (ajitterPut b aj bs time).outHave = aj.outHave ∧
      (ajitterPut b aj bs time).outBuffer = aj.outBuffer ∧
      (ajitterPut b aj bs time).stream (q ++ [idx]) = aj.stream q ++ bs := by
  obtain ⟨idx, hfree, heq⟩ := ajitterPutPtr_of_not_full hroom
  unfold Ajitter.Spares at hspare
  unfold ajitterPut
  rw [heq] at hspare hafter ⊢
  dsimp only at hspare hafter ⊢
  have hnot : idx ∉ q := fun hmem => hfree ((h.used idx).mpr hmem)
  have hne : ∀ j ∈ q, j ≠ idx := fun j hj heq' => hnot (heq' ▸ hj)
  have htime : ∀ j ∈ q, (ajitterPutDone b (fillSlot aj idx bs bs.length) idx time).time j =
      aj.time j := fun j hj => stored_time_of_ne (hne j hj)
  have hpkt : ∀ j ∈ q, (ajitterPutDone b (fillSlot aj idx bs bs.length) idx time).packet j =
      aj.packet j := fun j hj => stored_packet_of_ne (hne j hj)
  have hstream : (ajitterPutDone b (fillSlot aj idx bs bs.length) idx time).stream q =
      aj.stream q :=
    Ajitter.stream_congr fun j hj => unread_stored_of_ne (hne j hj) (h.left j hj) (h.off j hj)
      (hspare j ((h.used j).mpr hj))
  refine ⟨idx, ?_, stored_time_self, htime, stored_packet_self, hpkt, rfl, rfl, ?_⟩
  · apply h.concat hfree (fun j => test_bset hfree) htime hpkt
    · rw [stored_time_self]
      rfl
    · rw [stored_time_self]
      exact hself
    · rw [stored_time_self]
      exact hafter
    · rw [stored_packet_self]
      exact Int.natCast_nonneg _
    · rw [stored_packet_self]
  · rw [Ajitter.stream_concat, hstream, unread_stored_self]

omit [DecidableLE τ] in
/-- The same for packets that have bytes. -/
theorem Ajitter.Queues.put [Zero τ] (h : aj.Queues q) (b : Build) {bs : List Byte} (time : τ)
    (hroom : ¬ aj.Full) (hbs : bs ≠ []) (hself : time ≤ time)
    (hafter : ∀ i ∈ q, aj.time i ≤ time ∧ (time ≤ aj.time i → (ajitterPutPtr aj).2 < i))
    (hspare : aj.Spares bs.length) :
    ∃ idx, (ajitterPut b aj bs time).Queues (q ++ [idx]) ∧
      (ajitterPut b aj bs time).time idx = time ∧
      (∀ j ∈ q, (ajitterPut b aj bs time).time j = aj.time j) ∧
      (ajitterPut b aj bs time).outHave = aj.outHave ∧
      (ajitterPut b aj bs time).content (q ++ [idx]) = aj.content q ++ bs := by
  obtain ⟨idx, hlines, hidx, htime, hself', hpkt, hout, hbuf, hstream⟩ :=
    h.lines.put b bs time hroom hself hafter hspare
  have hlen : 0 < bs.length := List.length_pos_of_ne_nil hbs
  refine ⟨idx, hlines.queues fun j hj => ?_, hidx, htime, hout, ?_⟩
  · rcases List.mem_append.mp hj with hj | hj
    · rw [hpkt j hj]
      exact h.left j hj
    · rw [List.mem_singleton.mp hj, hself']
      exact Int.natCast_pos.mpr hlen
  · unfold Ajitter.content Ajitter.partialChunk
    rw [hout, hbuf, hstream, ← List.append_assoc]

end Operations

/-! ## Increasing stamps -/

section Increasing

variable [LE τ] {aj : Ajitter τ} {q : List (Fin AJD)}

/-- Stamps that increase order the slots by themselves. -/
theorem Ajitter.Holds.queues (h : aj.Holds q) : aj.Queues q :=
  ⟨h.nodup, h.used, h.before.imp fun hij => ⟨hij.1, fun hji => absurd hji hij.2⟩, h.last, h.left,
    h.off⟩

theorem Ajitter.Queues.holds (h : aj.Queues q)
    (hbefore : q.Pairwise fun i j => aj.time i ≤ aj.time j ∧ ¬ aj.time j ≤ aj.time i) :
    aj.Holds q := ⟨h.nodup, h.used, hbefore, h.last, h.left, h.off⟩

theorem Ajitter.holds_nil : aj.Holds [] ↔ aj.used = 0#32 :=
  ⟨fun h => Ajitter.queues_nil.mp h.queues,
    fun h => (Ajitter.queues_nil.mpr h).holds List.Pairwise.nil⟩

variable [DecidableLE τ]

/-- Reading a chunk takes a block from the front of the queue. -/
theorem Ajitter.Holds.getChunk {size : ℤ} (h : aj.Holds q) (b : Build) (ts : Option τ)
    (h0 : 0 ≤ aj.outHave) (hsize : aj.outHave < size) :
    ∃ aj' ts' c q', ajitterGetChunk b aj size ts = some (aj', ts', c) ∧ aj'.Holds q' ∧
      Consumed aj aj' ∧ 0 ≤ aj'.outHave ∧ aj'.outHave < size ∧
      BlockQueue.take size.toNat (aj.content q) = (c, aj'.content q') ∧ (c = none → q' = []) := by
  obtain ⟨aj', ts', c, q', hget, hq', hsuffix, hcons, hrest⟩ := h.queues.getChunk b ts h0 hsize
  refine ⟨aj', ts', c, q', hget, hq'.holds ?_, hcons, hrest⟩
  rw [hcons.time]
  exact h.before.sublist hsuffix.sublist

omit [DecidableLE τ] in
/-- Putting a packet with a stamp above all stamps in the buffer appends its bytes. -/
theorem Ajitter.Holds.put [Zero τ] (h : aj.Holds q) (b : Build) {bs : List Byte} (time : τ)
    (hroom : ¬ aj.Full) (hbs : bs ≠ []) (hself : time ≤ time)
    (hafter : ∀ i ∈ q, aj.time i ≤ time ∧ ¬ time ≤ aj.time i) (hspare : aj.Spares bs.length) :
    ∃ idx, (ajitterPut b aj bs time).Holds (q ++ [idx]) ∧
      (ajitterPut b aj bs time).time idx = time ∧
      (∀ j ∈ q, (ajitterPut b aj bs time).time j = aj.time j) ∧
      (ajitterPut b aj bs time).outHave = aj.outHave ∧
      (ajitterPut b aj bs time).content (q ++ [idx]) = aj.content q ++ bs := by
  obtain ⟨idx, hput, hidx, htime, hrest⟩ := h.queues.put b time hroom hbs hself
    (fun i hi => ⟨(hafter i hi).1, fun hle => absurd hle (hafter i hi).2⟩) hspare
  refine ⟨idx, hput.holds ?_, hidx, htime, hrest⟩
  apply List.pairwise_append.mpr
  refine ⟨h.before.imp_of_mem fun hj hk hjk => ?_, List.pairwise_singleton _ _, ?_⟩
  · rw [htime _ hj, htime _ hk]
    exact hjk
  · intro j hj k hk
    obtain rfl := List.mem_singleton.mp hk
    rw [htime j hj, hidx]
    exact hafter j hj

end Increasing
