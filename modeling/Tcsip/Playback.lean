/-
# Playing: from the network to the sound card

A received packet is put with its 16-bit sequence number as the stamp, and the player reads
chunks of one size.  While the sequence numbers grow, the stamps order the packets as they
were sent.  When the number starts again at 0, `last` becomes 0 with it, and hides every
packet from before that is still waiting; so the order is kept when no packet is waiting
then.
-/
import Tcsip.AjitterQueue
import Tcsip.Runs

variable {τ : Type*} [LE τ] [DecidableLE τ] [Zero τ]

/-! ## Packets and reads -/

/-- `(double)hdr->seq`: the numbers of 16 bits are exact. -/
structure SeqStamp (τ : Type*) [LE τ] where
  stamp : BitVec 16 → τ
  le_iff : ∀ s t, stamp s ≤ stamp t ↔ s ≤ t

/-- A packet arrives whose payload decodes to `bs`, or the player reads. -/
inductive PlayEvent
  | arrive (bs : List Byte)
  | read

/-- The play jitter, the sequence number of the next packet, the packets that arrived and
the chunks that were read. -/
structure Playback (τ : Type*) where
  aj : Ajitter τ
  seq : BitVec 16
  arrived : List (List Byte)
  chunks : List (List Byte)

/-- The jitter that `ajitter_init` leaves, before the packet with the number `seq`. -/
def Playback.start (csize : ℕ) (m : Malloced τ) (seq : BitVec 16) : Playback τ :=
  ⟨ajitterInit csize m, seq, [], []⟩

/-- A packet arrives and is put, or the device reads `size` bytes. -/
def playStep (b : Build) (d : SeqStamp τ) (size : ℤ) (s : Playback τ) :
    PlayEvent → Option (Playback τ)
  | .arrive bs =>
    some ⟨ajitterPut b s.aj bs (d.stamp s.seq), s.seq + 1, s.arrived ++ [bs], s.chunks⟩
  | .read =>
    (ajitterGetChunk b s.aj size none).map fun r =>
      { s with aj := r.1, chunks := s.chunks ++ r.2.2.toList }

/-- A packet has bytes, and there are never more than 32 in the buffer. -/
def PacketReceived (s : Playback τ) : PlayEvent → Prop
  | .arrive bs => bs ≠ [] ∧ ¬ s.aj.Full
  | .read => True

/-- The bytes `malloc` was asked for, for `out_buffer`. -/
def outSize : ℤ := 1024

/-- The sequence number starts again only when no packet is waiting, a packet stays inside
the memory of the slots and clear of the others, and a chunk fits `out_buffer`. -/
def KeepsOrder (size : ℤ) (s : Playback τ) : PlayEvent → Prop
  | .arrive bs =>
    (s.seq = 0#16 → s.aj.used = 0#32) ∧ s.aj.Spares bs.length ∧
      slotData s.aj.csize (ajitterPutPtr s.aj).2 + bs.length ≤ s.aj.csize * AJD
  | .read => size ≤ outSize

omit [DecidableLE τ] [LE τ] [Zero τ] in
instance (s : Playback τ) : ∀ e, Decidable (PacketReceived s e)
  | .arrive bs => inferInstanceAs (Decidable (bs ≠ [] ∧ ¬ s.aj.Full))
  | .read => isTrue trivial

omit [DecidableLE τ] [LE τ] in
instance (size : ℤ) (s : Playback τ) : ∀ e, Decidable (KeepsOrder size s e)
  | .arrive bs => inferInstanceAs (Decidable ((s.seq = 0#16 → s.aj.used = 0#32) ∧
      s.aj.Spares bs.length ∧
      slotData s.aj.csize (ajitterPutPtr s.aj).2 + bs.length ≤ s.aj.csize * AJD))
  | .read => inferInstanceAs (Decidable (size ≤ outSize))

/-! ## The invariant -/

/-- The packets of `q` are waiting, with stamps below the next one until it starts again at
0, and what was read, followed by what is in the buffer, is what arrived. -/
structure Playback.InOrder (d : SeqStamp τ) (size : ℤ) (q : List (Fin AJD)) (s : Playback τ) :
    Prop where
  holds : s.aj.Holds q
  nonneg : 0 ≤ s.aj.outHave
  lt : s.aj.outHave < size
  stamps : ∀ i ∈ q, ∃ n, s.aj.time i = d.stamp n ∧ (s.seq ≠ 0#16 → n < s.seq)
  bytes : s.chunks.flatten ++ s.aj.content q = s.arrived.flatten

variable {b : Build} {d : SeqStamp τ} {size : ℤ} {q : List (Fin AJD)} {s : Playback τ}

omit [DecidableLE τ] in
theorem Playback.inOrder_start (hsize : 0 < size) (csize : ℕ) (m : Malloced τ)
    (seq : BitVec 16) : (Playback.start csize m seq).InOrder d size [] :=
  ⟨Ajitter.holds_nil.mpr rfl, le_rfl, hsize, fun _ hi => absurd hi List.not_mem_nil, rfl⟩

omit [DecidableLE τ] [Zero τ] in
/-- A new packet comes after all that are waiting. -/
theorem Playback.InOrder.before_next (h : s.InOrder d size q)
    (hwrap : s.seq = 0#16 → s.aj.used = 0#32) {i : Fin AJD} (hi : i ∈ q) :
    s.aj.time i ≤ d.stamp s.seq ∧ ¬ d.stamp s.seq ≤ s.aj.time i := by
  have hne : s.seq ≠ 0#16 := fun h0 =>
    used_eq_zero_iff.mp (hwrap h0) i ((h.holds.used i).mpr hi)
  obtain ⟨n, htime, hlt⟩ := h.stamps i hi
  have hn := hlt hne
  rw [htime, d.le_iff, d.le_iff]
  exact ⟨BitVec.le_of_lt hn, BitVec.not_le.mpr hn⟩

omit [DecidableLE τ] in
/-- **A packet that arrives goes to the end.** -/
theorem Playback.InOrder.arrive (h : s.InOrder d size q) {bs : List Byte}
    (hrecv : PacketReceived s (.arrive bs)) (hkeep : KeepsOrder size s (.arrive bs)) :
    ∃ q', Playback.InOrder d size q'
      ⟨ajitterPut b s.aj bs (d.stamp s.seq), s.seq + 1, s.arrived ++ [bs], s.chunks⟩ := by
  obtain ⟨hbs, hroom⟩ := hrecv
  obtain ⟨hwrap, hspare, -⟩ := hkeep
  have hself : d.stamp s.seq ≤ d.stamp s.seq := (d.le_iff _ _).mpr (BitVec.le_refl _)
  obtain ⟨idx, hholds, hidx, htime, hout, hcontent⟩ :=
    h.holds.put b _ hroom hbs hself (fun i hi => h.before_next hwrap hi) hspare
  refine ⟨q ++ [idx], hholds, hout ▸ h.nonneg, hout ▸ h.lt, ?_, ?_⟩
  · intro i hi
    rcases List.mem_append.mp hi with hi | hi
    · obtain ⟨n, hn, hlt⟩ := h.stamps i hi
      refine ⟨n, (htime i hi).trans hn, fun hnext => ?_⟩
      have hne : s.seq ≠ 0#16 := fun h0 =>
        used_eq_zero_iff.mp (hwrap h0) i ((h.holds.used i).mpr hi)
      have hn' := hlt hne
      dsimp only at hnext ⊢
      bv_omega
    · obtain rfl := List.mem_singleton.mp hi
      refine ⟨s.seq, hidx, fun hnext => ?_⟩
      dsimp only at hnext ⊢
      bv_omega
  · dsimp only
    rw [hcontent, ← List.append_assoc, h.bytes, List.flatten_append]
    simp

omit [Zero τ] in
/-- **A read takes from the front**, and gets nothing only when less than a chunk is there. -/
theorem Playback.InOrder.read (h : s.InOrder d size q) :
    ∃ aj ts c q', ajitterGetChunk b s.aj size none = some (aj, ts, c) ∧
      Playback.InOrder d size q' { s with aj := aj, chunks := s.chunks ++ c.toList } ∧
      (c = none → (s.arrived.flatten.length : ℤ) < s.chunks.flatten.length + size) := by
  obtain ⟨aj, ts, c, q', hget, hholds, hcons, h0, hlt, htake, -⟩ :=
    h.holds.getChunk b none h.nonneg h.lt
  have hsub : ∀ i ∈ q', i ∈ q := fun i hi =>
    (h.holds.used i).mp (hcons.used i ((hholds.used i).mpr hi))
  have hbytes := h.bytes
  refine ⟨aj, ts, c, q', hget, ⟨hholds, h0, hlt, ?_, ?_⟩, ?_⟩
  · intro i hi
    obtain ⟨n, hn, hseq⟩ := h.stamps i (hsub i hi)
    exact ⟨n, (congrFun hcons.time i).trans hn, hseq⟩
  · dsimp only
    rw [List.flatten_append, List.append_assoc, BlockQueue.flatten_take htake]
    exact hbytes
  · rintro rfl
    have hlt' := (BlockQueue.take_eq_none htake).1
    rw [← hbytes, List.length_append]
    omega

/-- **One step** keeps the order. -/
theorem Playback.InOrder.step (h : s.InOrder d size q) {e : PlayEvent} (hrecv : PacketReceived s e)
    (hkeep : KeepsOrder size s e) :
    ∃ t q', playStep b d size s e = some t ∧ t.InOrder d size q' := by
  cases e with
  | arrive bs =>
      obtain ⟨q', hq'⟩ := h.arrive (b := b) hrecv hkeep
      exact ⟨_, q', rfl, hq'⟩
  | read =>
      obtain ⟨aj, ts, c, q', hget, hq', -⟩ := h.read (b := b)
      refine ⟨_, q', ?_, hq'⟩
      rw [playStep, hget]
      rfl

/-- **Playback keeps the order.**  In every run of arrivals and reads whose steps all keep
the condition, the chunks together are a prefix of the packets together, and a read gets
nothing only if less than a chunk is waiting. -/
theorem playback_in_order (b : Build) (d : SeqStamp τ) {size : ℤ} (hsize : 0 < size)
    (csize : ℕ) (m : Malloced τ) (seq : BitVec 16) (es : List PlayEvent)
    (hmeet : Runs.StepsMeet (playStep b d size)
      (fun s e => PacketReceived s e ∧ KeepsOrder size s e) (Playback.start csize m seq) es) :
    ∃ t, Runs.run (playStep b d size) (Playback.start csize m seq) es = some t ∧
      t.chunks.flatten <+: t.arrived.flatten ∧
      ∃ r, ajitterGetChunk b t.aj size none = some r ∧
        (r.2.2 = none → (t.arrived.flatten.length : ℤ) < t.chunks.flatten.length + size) := by
  obtain ⟨t, ht, q, hq⟩ := Runs.run_progress_past (playStep b d size)
    (I := fun _ s => ∃ q, s.InOrder d size q) es
    (fun _ e _ s _ ⟨q, hq⟩ hC =>
      let ⟨t, q', ht, hq'⟩ := hq.step (b := b) hC.1 hC.2
      ⟨t, ht, q', hq'⟩)
    es [] (Playback.start csize m seq) rfl ⟨[], Playback.inOrder_start hsize csize m seq⟩ hmeet
  obtain ⟨aj, ts, c, q', hget, -, hnone⟩ := hq.read (b := b)
  exact ⟨t, ht, ⟨t.aj.content q, hq.bytes⟩, _, hget, hnone⟩

/-- `SeqStamp` for numbers that are exact. -/
def intStamp : SeqStamp ℤ where
  stamp := fun s => s.toNat
  le_iff := fun s t => by rw [Nat.cast_le, BitVec.le_def]

/-- Three packets around the wrap, the last of them after the others were read. -/
theorem playback_in_order_wrap :
    let start : Playback ℤ := .start 320 ⟨fun _ => 0, fun _ => 0, fun _ => 0⟩ 65534#16
    ∃ t, Runs.run (playStep .other intStamp 2) start
        [.arrive [1, 2, 3], .arrive [4], .read, .read, .arrive [5, 6]] = some t ∧
      t.chunks.flatten <+: t.arrived.flatten := by
  intro start
  obtain ⟨t, ht, hprefix, -⟩ := playback_in_order .other intStamp (by decide : (0 : ℤ) < 2) 320
    ⟨fun _ => 0, fun _ => 0, fun _ => 0⟩ 65534#16
    [.arrive [1, 2, 3], .arrive [4], .read, .read, .arrive [5, 6]] (by decide +kernel)
  exact ⟨t, ht, hprefix⟩

/-- A packet with number 65535 waits while the next one arrives: the next one is read
first. -/
theorem playback_out_of_order_at_wrap :
    let start : Playback ℤ := .start 320 ⟨fun _ => 0, fun _ => 0, fun _ => 0⟩ 65535#16
    let es : List PlayEvent := [.arrive [1], .arrive [2], .read]
    Runs.StepsMeet (playStep .other intStamp 1) PacketReceived start es ∧
      ((Runs.run (playStep .other intStamp 1) start es).map fun t =>
        (t.arrived, t.chunks)) = some ([[1], [2]], [[2]]) := by
  decide +kernel
