/-
# Stamps that do not decrease

The recorders put their blocks with the whole second as the stamp, so many blocks have one
stamp.  `ajitter_get_ptr` compares with `<=` and so keeps the last of several slots with the
smallest stamp, which is the block put first only if the blocks were filled from the back to
the front.  `ajitter_put_ptr` hands out the first free slot, so this is the case only where
slots were freed in between.
-/
import Tcsip.AjitterQueue
import Tcsip.Runs

variable {τ : Type*} [Preorder τ] [DecidableLE τ] [Zero τ]

/-! ## Puts and reads -/

/-- A packet is put, or a chunk is read. -/
inductive BufferEvent (τ : Type*)
  | put (bs : List Byte) (time : τ)
  | read

/-- The jitter, the stamp of the latest packet, the packets that were put and the chunks that
were read. -/
structure Buffering (τ : Type*) where
  aj : Ajitter τ
  latest : Option τ
  packets : List (List Byte)
  chunks : List (List Byte)

/-- The jitter that `ajitter_init` leaves, before any packet. -/
def Buffering.start (csize : ℕ) (m : Malloced τ) : Buffering τ :=
  ⟨ajitterInit csize m, none, [], []⟩

/-- A put, or a read of `size` bytes. -/
def bufferStep (b : Build) (size : ℤ) (s : Buffering τ) :
    BufferEvent τ → Option (Buffering τ)
  | .put bs time => some ⟨ajitterPut b s.aj bs time, some time, s.packets ++ [bs], s.chunks⟩
  | .read =>
    (ajitterGetChunk b s.aj size none).map fun r =>
      { s with aj := r.1, chunks := s.chunks ++ r.2.2.toList }

/-- A packet has bytes and a stamp not below the one before, and there are never more than 32
in the buffer. -/
def NonDecreasing (s : Buffering τ) : BufferEvent τ → Prop
  | .put bs time => bs ≠ [] ∧ ¬ s.aj.Full ∧ ∀ t ∈ s.latest, t ≤ time
  | .read => True

/-- A packet comes into a slot before those of all waiting packets with its stamp, stays inside
the memory of the slots and clear of the others, and a chunk fits into the 1024 bytes of
`out_buffer`. -/
def FillsBackwards (size : ℤ) (s : Buffering τ) : BufferEvent τ → Prop
  | .put bs time =>
    (∀ i, s.aj.Used i → time ≤ s.aj.time i → (ajitterPutPtr s.aj).2 < i) ∧
      s.aj.Spares bs.length ∧
      slotData s.aj.csize (ajitterPutPtr s.aj).2 + bs.length ≤ s.aj.csize * AJD
  | .read => size ≤ 1024

instance (s : Buffering τ) : ∀ e, Decidable (NonDecreasing s e)
  | .put bs time => inferInstanceAs (Decidable (bs ≠ [] ∧ ¬ s.aj.Full ∧ ∀ t ∈ s.latest, t ≤ time))
  | .read => isTrue trivial

instance (size : ℤ) (s : Buffering τ) : ∀ e, Decidable (FillsBackwards size s e)
  | .put bs time => inferInstanceAs (Decidable
      ((∀ i, s.aj.Used i → time ≤ s.aj.time i → (ajitterPutPtr s.aj).2 < i) ∧
        s.aj.Spares bs.length ∧
        slotData s.aj.csize (ajitterPutPtr s.aj).2 + bs.length ≤ s.aj.csize * AJD))
  | .read => inferInstanceAs (Decidable (size ≤ 1024))

/-! ## The invariant -/

/-- The packets of `q` are waiting, none with a stamp above the latest one, and what was read,
followed by what is in the buffer, is what was put. -/
structure Buffering.Fifo (size : ℤ) (q : List (Fin AJD)) (s : Buffering τ) : Prop where
  queues : s.aj.Queues q
  nonneg : 0 ≤ s.aj.outHave
  lt : s.aj.outHave < size
  stamps : ∀ i ∈ q, ∃ t ∈ s.latest, s.aj.time i ≤ t
  bytes : s.chunks.flatten ++ s.aj.content q = s.packets.flatten

variable {b : Build} {size : ℤ} {q : List (Fin AJD)} {s : Buffering τ}

omit [DecidableLE τ] in
theorem Buffering.fifo_start (hsize : 0 < size) (csize : ℕ) (m : Malloced τ) :
    (Buffering.start csize m).Fifo size [] :=
  ⟨Ajitter.queues_nil.mpr rfl, le_rfl, hsize, fun _ hi => absurd hi List.not_mem_nil, rfl⟩

omit [DecidableLE τ] in
/-- **A packet that is put goes to the end.** -/
theorem Buffering.Fifo.put (h : s.Fifo size q) {bs : List Byte} {time : τ}
    (hput : NonDecreasing s (.put bs time)) (hback : FillsBackwards size s (.put bs time)) :
    ∃ q', Buffering.Fifo size q'
      ⟨ajitterPut b s.aj bs time, some time, s.packets ++ [bs], s.chunks⟩ := by
  obtain ⟨hbs, hroom, hlatest⟩ := hput
  obtain ⟨hslot, hspare, -⟩ := hback
  have hbelow : ∀ i ∈ q, s.aj.time i ≤ time := by
    intro i hi
    obtain ⟨t, ht, hle⟩ := h.stamps i hi
    exact hle.trans (hlatest t ht)
  obtain ⟨idx, hqueues, hidx, htime, hout, hcontent⟩ :=
    h.queues.put b time hroom hbs le_rfl
      (fun i hi => ⟨hbelow i hi, hslot i ((h.queues.used i).mpr hi)⟩) hspare
  refine ⟨q ++ [idx], hqueues, hout ▸ h.nonneg, hout ▸ h.lt, ?_, ?_⟩
  · intro i hi
    refine ⟨time, rfl, ?_⟩
    rcases List.mem_append.mp hi with hi | hi
    · rw [htime i hi]
      exact hbelow i hi
    · obtain rfl := List.mem_singleton.mp hi
      rw [hidx]
  · dsimp only
    rw [hcontent, ← List.append_assoc, h.bytes, List.flatten_append, List.flatten_singleton]

/-- **A read takes from the front.** -/
theorem Buffering.Fifo.read (h : s.Fifo size q) :
    ∃ t q', bufferStep b size s .read = some t ∧ t.Fifo size q' := by
  obtain ⟨aj, ts, c, q', hget, hqueues, -, hcons, h0, hlt, htake, -⟩ :=
    h.queues.getChunk b none h.nonneg h.lt
  refine ⟨{ s with aj := aj, chunks := s.chunks ++ c.toList }, q', ?_, hqueues, h0, hlt, ?_, ?_⟩
  · rw [bufferStep, hget]
    rfl
  · intro i hi
    have hq : i ∈ q := (h.queues.used i).mp (hcons.used i ((hqueues.used i).mpr hi))
    rw [hcons.time]
    exact h.stamps i hq
  · dsimp only
    rw [List.flatten_append, List.append_assoc, BlockQueue.flatten_take htake]
    exact h.bytes

/-- **One step** keeps the order. -/
theorem Buffering.Fifo.step (h : s.Fifo size q) {e : BufferEvent τ} (hput : NonDecreasing s e)
    (hback : FillsBackwards size s e) :
    ∃ t q', bufferStep b size s e = some t ∧ t.Fifo size q' := by
  cases e with
  | put bs time =>
      obtain ⟨q', hq'⟩ := h.put (b := b) hput hback
      exact ⟨_, q', rfl, hq'⟩
  | read => exact h.read

/-- **First in, first out.**  In every run of puts with stamps that do not decrease and reads
whose steps all meet the condition, the chunks together, followed by the partial chunk, are a
prefix of the packets together. -/
theorem buffer_first_in_first_out (b : Build) {size : ℤ} (hsize : 0 < size) (csize : ℕ)
    (m : Malloced τ) (es : List (BufferEvent τ))
    (hmeet : Runs.StepsMeet (bufferStep b size)
      (fun s e => NonDecreasing s e ∧ FillsBackwards size s e) (Buffering.start csize m) es) :
    ∃ t, Runs.run (bufferStep b size) (Buffering.start csize m) es = some t ∧
      t.chunks.flatten ++ Memory.read t.aj.outBuffer 0 t.aj.outHave.toNat <+:
        t.packets.flatten := by
  obtain ⟨t, ht, q, hq⟩ := Runs.run_progress_past (bufferStep b size)
    (I := fun _ s => ∃ q, s.Fifo size q) es
    (fun _ e _ s _ ⟨q, hq⟩ hC =>
      let ⟨t, q', ht, hq'⟩ := hq.step (b := b) hC.1 hC.2
      ⟨t, ht, q', hq'⟩)
    es [] (Buffering.start csize m) rfl ⟨[], Buffering.fifo_start hsize csize m⟩ hmeet
  refine ⟨t, ht, t.aj.stream q, ?_⟩
  rw [List.append_assoc]
  exact hq.bytes

/-- A third packet with the stamp of the second comes into the slot that the first one left. -/
theorem buffer_first_in_first_out_reused :
    let start : Buffering ℤ := .start 320 ⟨fun _ => 0, fun _ => 0, fun _ => 0⟩
    let es : List (BufferEvent ℤ) :=
      [.put [1, 1] 5, .put [2, 2] 6, .read, .put [3, 3, 3] 6, .read, .read, .read]
    ∃ t, Runs.run (bufferStep .other 2) start es = some t ∧
      t.chunks.flatten ++ Memory.read t.aj.outBuffer 0 t.aj.outHave.toNat <+:
        t.packets.flatten :=
  buffer_first_in_first_out .other (by decide : (0 : ℤ) < 2) 320
    ⟨fun _ => 0, fun _ => 0, fun _ => 0⟩
    [.put [1, 1] 5, .put [2, 2] 6, .read, .put [3, 3, 3] 6, .read, .read, .read]
    (by decide +kernel)

/-- Two packets of the same second: the second one is read first. -/
theorem equal_stamps_last_in_first_out :
    let start : Buffering ℤ := .start 320 ⟨fun _ => 0, fun _ => 0, fun _ => 0⟩
    let es : List (BufferEvent ℤ) := [.put [1] 5, .put [2] 5, .read]
    Runs.StepsMeet (bufferStep .other 1) NonDecreasing start es ∧
      ∃ t, Runs.run (bufferStep .other 1) start es = some t ∧
        ¬ t.chunks.flatten ++ Memory.read t.aj.outBuffer 0 t.aj.outHave.toNat <+:
          t.packets.flatten := by
  intro start es
  have hrun : ((Runs.run (bufferStep .other 1) start es).map fun t =>
      (t.packets.flatten, t.chunks.flatten ++
        Memory.read t.aj.outBuffer 0 t.aj.outHave.toNat)) = some ([1, 2], [2]) := by
    decide +kernel
  obtain ⟨t, ht, heq⟩ := Option.map_eq_some_iff.mp hrun
  obtain ⟨hpackets, hchunks⟩ := Prod.ext_iff.mp heq
  refine ⟨by decide +kernel, t, ht, ?_⟩
  dsimp only at hpackets hchunks
  rw [hpackets, hchunks]
  decide
