/-
# Receiving: from the network to the play jitter

A received packet is decoded straight into the slot that `ajitter_put_ptr` returned.
`rtp_recv_pcmu` stores two bytes for each byte of the payload, but compares the length of the
payload with `csize`: a payload longer than half a slot runs over into the next one.
`rtp_recv_opus` takes twice what `opus_decode` returned as the number of bytes, also when that
is an error: a negative `left` then makes `ajitter_copy_chunk` copy a negative length.
-/
import Tcsip.AjitterBounds
import Tcsip.BigEndian
import Tcsip.Runs

namespace Receivers

/-! ## The decoder of `g711.c` -/

/-- `MuLaw_Decode` -/
def muLawDecode (number : BitVec 8) : BitVec 16 :=
  let number := ~~~number
  let sign := number &&& 0x80#8
  let number := if sign = 0#8 then number else number &&& ~~~0x80#8
  let position := ((number &&& 0xF0#8) >>> 4).toNat + 5
  let decoded := (1#16 <<< position ||| (number &&& 0x0F#8).setWidth 16 <<< (position - 4) |||
    1#16 <<< (position - 5)) - 33#16
  if sign = 0#8 then decoded else -decoded

example : (muLawDecode 0x00#8).toInt = -8031 := by decide

/-- The bytes of a `short` in memory, the low one first. -/
def shortBytes (v : BitVec 16) : List Byte :=
  [BigEndian.byte v.toNat, BigEndian.byte (v.toNat / 256)]

theorem length_shortBytes (v : BitVec 16) : (shortBytes v).length = 2 := rfl

/-- The bytes that a payload decodes to. -/
def pcmBytes (ibuf : List Byte) : List Byte :=
  ibuf.flatMap fun code : Byte => shortBytes (muLawDecode (BitVec.ofNat 8 code.val))

theorem length_pcmBytes (ibuf : List Byte) : (pcmBytes ibuf).length = 2 * ibuf.length := by
  unfold pcmBytes
  simp only [List.length_flatMap, length_shortBytes, List.map_const', List.sum_replicate,
    smul_eq_mul, Nat.mul_comm]

/-! ## The receivers -/

/-- What the receivers use of their context. -/
structure RtpRecv (τ : Type*) where
  playJitter : Ajitter τ
  lastRead : ℤ

/-- A packet: `hdr->seq`, the payload that `rtp_un` leaves, if its result is not negative, and
the seconds of `gettimeofday`, if it does not fail. -/
structure RecvPacket where
  seq : BitVec 16
  payload : Option (List Byte)
  now : Option ℤ

/-- The loop of `rtp_recv_pcmu` with the output at `obuf`: the data after it, and the addresses
it stored to. -/
def decodeLoop : (ℕ → Byte) → ℕ → List Byte → (ℕ → Byte) × List ℕ
  | data, _, [] => (data, [])
  | data, obuf, code :: ibuf =>
    let decoded := shortBytes (muLawDecode (BitVec.ofNat 8 code.val))
    let (data, stored) := decodeLoop (Memory.write data obuf decoded) (obuf + 2) ibuf
    (data, obuf :: (obuf + 1) :: stored)

/-- What `opus_decode` returns when it is asked for at most 160 samples, and what it stores. -/
structure OpusDecode where
  ret : ℤ
  pcm : List Byte
  ret_le : ret ≤ 160
  length_pcm_le : pcm.length ≤ 320
  length_pcm : 0 ≤ ret → (pcm.length : ℤ) = ret * 2

section Receive

variable {τ : Type*} [Zero τ]

/-- `stamp` is the conversion of the sequence number to `double`. -/
def rtpRecvPcmu (b : Build) (stamp : BitVec 16 → τ) (arg : RtpRecv τ) (p : RecvPacket) :
    RtpRecv τ :=
  match p.payload with
  | none => arg
  | some ibuf =>
    if arg.playJitter.csize < ibuf.length then arg
    else
      let (aj, idx) := ajitterPutPtr arg.playJitter
      let aj := { aj with
        data := (decodeLoop aj.data (slotData aj.csize idx) ibuf).1
        packet := Function.update aj.packet idx ⟨ibuf.length * 2, 0⟩ }
      ⟨ajitterPutDone b aj idx (stamp p.seq), p.now.getD arg.lastRead⟩

/-- `rtp_recv_opus` -/
def rtpRecvOpus (b : Build) (stamp : BitVec 16 → τ) (opusDecode : List Byte → OpusDecode)
    (arg : RtpRecv τ) (p : RecvPacket) : RtpRecv τ :=
  match p.payload with
  | none => arg
  | some inb =>
    let (aj, idx) := ajitterPutPtr arg.playJitter
    let r := opusDecode inb
    let aj := fillSlot aj idx r.pcm (r.ret * 2)
    ⟨ajitterPutDone b aj idx (stamp p.seq), p.now.getD arg.lastRead⟩

/-! ## PCMU -/

/-- **The loop** stores the decoded bytes, two for each byte of the payload. -/
theorem decodeLoop_eq (data : ℕ → Byte) (obuf : ℕ) (ibuf : List Byte) :
    decodeLoop data obuf ibuf =
      (Memory.write data obuf (pcmBytes ibuf), List.range' obuf (2 * ibuf.length)) := by
  induction ibuf generalizing data obuf with
  | nil =>
      refine Prod.ext (funext fun x => ?_) rfl
      exact (Memory.write_of_disjoint (Nat.lt_or_ge x obuf)).symm
  | cons code ibuf ih =>
      rw [decodeLoop, ih]
      dsimp only
      refine Prod.ext ?_ ?_
      · exact Memory.write_append data obuf (shortBytes (muLawDecode (BitVec.ofNat 8 code.val)))
          (pcmBytes ibuf)
      · rw [List.length_cons, Nat.mul_succ, List.range'_succ, List.range'_succ]

variable {b : Build} {stamp : BitVec 16 → τ} {arg : RtpRecv τ} {p : RecvPacket} {ibuf : List Byte}

/-- A packet that is not dropped is stored like any other. -/
theorem rtpRecvPcmu_playJitter (hun : p.payload = some ibuf)
    (hkept : ibuf.length ≤ arg.playJitter.csize) :
    (rtpRecvPcmu b stamp arg p).playJitter =
      arg.playJitter.store b (pcmBytes ibuf) (ibuf.length * 2) (stamp p.seq) := by
  unfold rtpRecvPcmu
  rw [hun]
  dsimp only
  rw [if_neg (not_lt.mpr hkept), decodeLoop_eq]
  rfl

/-- A decoded packet stays inside its slot: every address stored to is one of its own, no other
slot changes, and `left` is not above the size of the slot. -/
structure StaysInSlot (aj aj' : Ajitter τ) (stored : List ℕ) : Prop where
  stored : ∀ a ∈ stored, slotData aj.csize (ajitterPutPtr aj).2 ≤ a ∧
    a < slotData aj.csize (ajitterPutPtr aj).2 + aj.csize
  others : ∀ j, j ≠ (ajitterPutPtr aj).2 → aj'.slotBytes j = aj.slotBytes j
  left : (aj'.packet (ajitterPutPtr aj).2).left ≤ aj'.csize

/-- The addresses that the loop of `rtp_recv_pcmu` stores to. -/
def pcmuStored (aj : Ajitter τ) (ibuf : List Byte) : List ℕ :=
  (decodeLoop (ajitterPutPtr aj).1.data (slotData aj.csize (ajitterPutPtr aj).2) ibuf).2

/-- A packet stays inside its slot exactly when twice its length fits. -/
theorem rtpRecvPcmu_stays_iff_fits (hun : p.payload = some ibuf)
    (hkept : ibuf.length ≤ arg.playJitter.csize) :
    StaysInSlot arg.playJitter (rtpRecvPcmu b stamp arg p).playJitter
      (pcmuStored arg.playJitter ibuf) ↔ 2 * ibuf.length ≤ arg.playJitter.csize := by
  rw [rtpRecvPcmu_playJitter hun hkept]
  constructor
  · intro h
    have hleft := h.left
    rw [stored_packet_self, store_csize] at hleft
    dsimp only at hleft
    omega
  · intro hfits
    refine ⟨fun a ha => ?_, fun j hj => ?_, ?_⟩
    · rw [pcmuStored, decodeLoop_eq, List.mem_range'_1] at ha
      omega
    · exact slotBytes_store_of_ne hj ((length_pcmBytes ibuf).trans_le hfits)
    · rw [stored_packet_self, store_csize]
      dsimp only
      omega

/-- **Receiving PCMU touches only its own slot exactly for payloads of up to 160 bytes.** -/
theorem rtpRecvPcmu_stays_iff (b : Build) (stamp : BitVec 16 → τ) (arg : RtpRecv τ)
    (hcsize : arg.playJitter.csize = 320) (p : RecvPacket) (ibuf : List Byte)
    (hun : p.payload = some ibuf) (hkept : ibuf.length ≤ arg.playJitter.csize) :
    StaysInSlot arg.playJitter (rtpRecvPcmu b stamp arg p).playJitter
      (pcmuStored arg.playJitter ibuf) ↔ ibuf.length ≤ 160 := by
  rw [rtpRecvPcmu_stays_iff_fits hun hkept, hcsize]
  omega

end Receive

/-- A context with an empty play jitter of slots of 320 bytes. -/
def newRecv : RtpRecv ℕ :=
  ⟨ajitterInit 320 ⟨fun _ => BigEndian.byte 0, fun _ => BigEndian.byte 0, fun _ => 0⟩, 0⟩

/-- 20 ms of sound. -/
theorem rtpRecvPcmu_stays_frame :
    let ibuf := List.replicate 160 (BigEndian.byte 0)
    StaysInSlot newRecv.playJitter
      (rtpRecvPcmu .other BitVec.toNat newRecv ⟨1#16, some ibuf, none⟩).playJitter
      (pcmuStored newRecv.playJitter ibuf) := by
  intro ibuf
  have hlen : ibuf.length = 160 := List.length_replicate
  exact (rtpRecvPcmu_stays_iff .other BitVec.toNat newRecv rfl ⟨1#16, some ibuf, none⟩ ibuf rfl
    (hlen.trans_le (by decide))).mpr hlen.le

/-- One byte more: the start of slot 1 is overwritten. -/
theorem rtpRecvPcmu_leaves_slot :
    let ibuf := List.replicate 161 (BigEndian.byte 0)
    let aj := (rtpRecvPcmu .other BitVec.toNat newRecv ⟨1#16, some ibuf, none⟩).playJitter
    (ajitterPutPtr newRecv.playJitter).2 = 0 ∧
      aj.slotBytes 1 ≠ newRecv.playJitter.slotBytes 1 ∧
      ¬ StaysInSlot newRecv.playJitter aj (pcmuStored newRecv.playJitter ibuf) := by
  intro ibuf aj
  have hlen : ibuf.length = 161 := List.length_replicate
  refine ⟨by decide, fun h => ?_, fun h => ?_⟩
  · have hfirst := congrArg List.head? h
    revert hfirst
    decide +kernel
  · have hfits : 2 * ibuf.length ≤ 320 :=
      (rtpRecvPcmu_stays_iff_fits rfl (hlen.trans_le (by decide))).mp h
    omega

/-! ## Opus packets and reads -/

/-- A packet arrives, and the decoder in its state then; or a chunk is copied to `ob`. -/
inductive OpusEvent
  | packet (p : RecvPacket) (opusDecode : List Byte → OpusDecode)
  | read (ob : ℕ → Byte)

/-- The receiver, and all copies made so far. -/
structure OpusRun (τ : Type*) where
  recv : RtpRecv τ
  copies : List ChunkCopy

/-- No copy was out of bounds, no used slot reaches beyond its end, and less than a chunk is
waiting. -/
structure OpusRun.InBounds {τ : Type*} (size : ℤ) (s : OpusRun τ) : Prop where
  copies : ∀ c ∈ s.copies, c.InBounds size
  slots : ∀ i, s.recv.playJitter.Used i →
    (s.recv.playJitter.packet i).off + (s.recv.playJitter.packet i).left ≤ s.recv.playJitter.csize
  outHave : 0 ≤ s.recv.playJitter.outHave ∧ s.recv.playJitter.outHave < size

section Opus

variable {τ : Type*} [LE τ] [DecidableLE τ] [Zero τ]

/-- The receiver that `rtp_recv_init` leaves. -/
def OpusRun.start (m : Malloced τ) : OpusRun τ := ⟨⟨ajitterInit 320 m, 0⟩, []⟩

/-- The reads are of `size` bytes. -/
def opusStep (b : Build) (stamp : BitVec 16 → τ) (size : ℤ) (s : OpusRun τ) :
    OpusEvent → Option (OpusRun τ)
  | .packet p opusDecode => some { s with recv := rtpRecvOpus b stamp opusDecode s.recv p }
  | .read ob =>
    (ajitterCopyChunk b s.recv.playJitter size ob none).map fun r =>
      ⟨{ s.recv with playJitter := r.aj },
        s.copies ++ chunkCopies b size (AJD + 1) s.recv.playJitter ob⟩

omit [LE τ] [DecidableLE τ] [Zero τ] in
/-- `opus_decode` returns no error. -/
def Decodes (_ : OpusRun τ) : OpusEvent → Prop
  | .packet p opusDecode => ∀ inb ∈ p.payload, 0 ≤ (opusDecode inb).ret
  | .read _ => True

/-- What the bounds of the next copies follow from. -/
structure OpusRun.Inv (size : ℤ) (s : OpusRun τ) : Prop where
  csize : s.recv.playJitter.csize = 320
  inSlots : s.recv.playJitter.InSlots
  nonneg : 0 ≤ s.recv.playJitter.outHave
  lt : s.recv.playJitter.outHave < size
  copies : ∀ c ∈ s.copies, c.InBounds size

variable {b : Build} {stamp : BitVec 16 → τ} {size : ℤ} {s t : OpusRun τ}

omit [LE τ] [DecidableLE τ] [Zero τ] in
theorem OpusRun.Inv.inBounds (h : s.Inv size) : s.InBounds size :=
  ⟨h.copies, h.inSlots.bound, h.nonneg, h.lt⟩

omit [LE τ] [DecidableLE τ] in
theorem OpusRun.inv_start (hsize : 0 < size) (m : Malloced τ) : (OpusRun.start m).Inv size :=
  ⟨rfl, Ajitter.inSlots_of_used_eq_zero rfl, le_rfl, hsize, fun _ hc => absurd hc List.not_mem_nil⟩

omit [LE τ] [DecidableLE τ] in
/-- A packet without an error fits its slot. -/
theorem OpusRun.Inv.packet (h : s.Inv size) {p : RecvPacket} {opusDecode : List Byte → OpusDecode}
    (hret : ∀ inb ∈ p.payload, 0 ≤ (opusDecode inb).ret) :
    OpusRun.Inv size { s with recv := rtpRecvOpus b stamp opusDecode s.recv p } := by
  unfold rtpRecvOpus
  cases hun : p.payload with
  | none => exact h
  | some inb =>
      have hnonneg := hret inb hun
      have hle := (opusDecode inb).ret_le
      have hstore : (s.recv.playJitter.store b (opusDecode inb).pcm ((opusDecode inb).ret * 2)
          (stamp p.seq)).InSlots :=
        h.inSlots.store (by omega) (by rw [h.csize]; omega)
      refine ⟨?_, hstore, ?_, ?_, h.copies⟩
      · exact (ajitterPutPtr_csize s.recv.playJitter).trans h.csize
      · exact h.nonneg.trans_eq (ajitterPutPtr_outHave s.recv.playJitter).symm
      · exact (ajitterPutPtr_outHave s.recv.playJitter).trans_lt h.lt

omit [Zero τ] in
/-- A read keeps the invariant. -/
theorem OpusRun.Inv.read (h : s.Inv size) {ob : ℕ → Byte} {r : Copied τ}
    (hr : ajitterCopyChunk b s.recv.playJitter size ob none = some r) :
    OpusRun.Inv size ⟨{ s.recv with playJitter := r.aj },
      s.copies ++ chunkCopies b size (AJD + 1) s.recv.playJitter ob⟩ := by
  obtain ⟨hslots, h0, hlt⟩ := inSlots_copyLoop h.inSlots h.nonneg h.lt hr
  refine ⟨(consumed_copyLoop hr).csize.trans h.csize, hslots, h0, hlt, fun c hc => ?_⟩
  rcases List.mem_append.mp hc with hc | hc
  · exact h.copies c hc
  · exact chunkCopies_inBounds h.inSlots h.nonneg h.lt c hc

/-- **One step** that is no decoding error. -/
theorem OpusRun.Inv.step (h : s.Inv size) {e : OpusEvent} (hdec : Decodes s e) :
    ∃ t, opusStep b stamp size s e = some t ∧ t.Inv size := by
  cases e with
  | packet p opusDecode => exact ⟨_, rfl, h.packet hdec⟩
  | read ob =>
      obtain ⟨r, hr⟩ := Option.isSome_iff_exists.mp
        (ajitterCopyChunk_isSome b s.recv.playJitter size ob none)
      refine ⟨_, ?_, h.read hr⟩
      rw [opusStep, hr]
      rfl

/-- **Reading is memory-safe while `opus_decode` returns no error**: in every run of packets and
reads whose packets all decode, all copies so far and all slots are in bounds at every
state. -/
theorem opus_reads_inBounds (b : Build) (stamp : BitVec 16 → τ) {size : ℤ} (hsize : 0 < size)
    (m : Malloced τ) (es : List OpusEvent)
    (hmeet : Runs.StepsMeet (opusStep b stamp size) Decodes (OpusRun.start m) es) :
    (Runs.run (opusStep b stamp size) (OpusRun.start m) es).isSome ∧
      Runs.Always (opusStep b stamp size) (OpusRun.InBounds size) (OpusRun.start m) es :=
  Runs.always_of_stepsMeet (opusStep b stamp size) (fun _ _ hI hC => hI.step hC)
    (fun _ hI => hI.inBounds) (OpusRun.inv_start hsize m) hmeet

/-- **An error that comes into an empty jitter is read as a negative length.** -/
theorem opus_error_outOfBounds {s t : OpusRun τ} (hempty : s.recv.playJitter.used = 0#32)
    {p : RecvPacket} {inb : List Byte} (hun : p.payload = some inb)
    {opusDecode : List Byte → OpusDecode} (herr : (opusDecode inb).ret < 0)
    (hself : stamp p.seq ≤ stamp p.seq) {ob : ℕ → Byte}
    (hrun : Runs.run (opusStep b stamp size) s [.packet p opusDecode, .read ob] = some t) :
    ¬ t.InBounds size := by
  obtain ⟨u, hu, hrest⟩ := (Runs.run_cons_eq_some _).mp hrun
  obtain ⟨t', ht', hlast⟩ := (Runs.run_cons_eq_some _).mp hrest
  obtain rfl := Option.some.inj hu
  obtain ⟨r, -, rfl⟩ := Option.map_eq_some_iff.mp ht'
  obtain rfl := Option.some.inj hlast
  have hnone := used_eq_zero_iff.mp hempty
  obtain ⟨idx, hfree, hput⟩ := ajitterPutPtr_of_not_full fun hfull => hnone 0 (hfull 0)
  unfold rtpRecvOpus
  rw [hun]
  dsimp only
  rw [hput]
  dsimp only
  -- the slot of the packet is the only one in use
  set aj := ajitterPutDone b (fillSlot s.recv.playJitter idx (opusDecode inb).pcm
    ((opusDecode inb).ret * 2)) idx (stamp p.seq) with haj
  have hused : ∀ j, aj.Used j ↔ j = idx ∨ s.recv.playJitter.Used j := fun j => test_bset hfree
  have hget : ajitterGetPtr aj = some idx := by
    apply ajitterGetPtr_eq_some ((hused idx).mpr (Or.inl rfl))
    · rw [haj, stored_time_self]
      exact hself
    · intro j hj hne
      exact absurd (((hused j).mp hj).resolve_left hne) (hnone j)
  have hleft : (aj.packet idx).left = (opusDecode inb).ret * 2 := by rw [haj, stored_packet_self]
  intro h
  have hcopy := h.copies ⟨aj.outHave, (aj.packet idx).left, getNow size aj idx⟩
    (List.mem_append_right _ (by rw [chunkCopies_of_some hget]; exact List.mem_cons_self))
  have hnow : getNow size aj idx ≤ (aj.packet idx).left := min_le_right _ _
  have h0 : 0 ≤ getNow size aj idx := hcopy.1
  omega

end Opus

/-- A frame of silence. -/
def silentFrame : OpusDecode where
  ret := 160
  pcm := List.replicate 320 (BigEndian.byte 0)
  ret_le := le_rfl
  length_pcm_le := List.length_replicate.le
  length_pcm := fun _ => by rw [List.length_replicate]; rfl

/-- `OPUS_INVALID_PACKET`, and nothing is stored. -/
def invalidPacket : OpusDecode where
  ret := -4
  pcm := []
  ret_le := by decide
  length_pcm_le := Nat.zero_le _
  length_pcm := fun h => absurd h (by decide)

/-- A packet that is read in two halves. -/
theorem opus_reads_inBounds_half :
    let start : OpusRun ℕ := .start ⟨fun _ => 0, fun _ => 0, fun _ => 0⟩
    let es : List OpusEvent :=
      [.packet ⟨1#16, some [0], none⟩ fun _ => silentFrame, .read fun _ => 0, .read fun _ => 0]
    Runs.Always (opusStep .other BitVec.toNat 160) (OpusRun.InBounds 160) start es :=
  (opus_reads_inBounds .other BitVec.toNat (by decide) ⟨fun _ => 0, fun _ => 0, fun _ => 0⟩
    [.packet ⟨1#16, some [0], none⟩ fun _ => silentFrame, .read fun _ => 0, .read fun _ => 0]
    ⟨fun _ _ => (by decide : 0 ≤ silentFrame.ret),
      fun _ _ => ⟨trivial, fun _ _ => ⟨trivial, fun _ _ => trivial⟩⟩⟩).2

/-- One malformed packet, and a read: `memcpy` is called with -8. -/
theorem opus_read_negative :
    let start : OpusRun ℕ := .start ⟨fun _ => 0, fun _ => 0, fun _ => 0⟩
    let es : List OpusEvent :=
      [.packet ⟨1#16, some [255], none⟩ fun _ => invalidPacket, .read fun _ => 0]
    ((Runs.run (opusStep .other BitVec.toNat 320) start es).map fun t =>
        (t.copies, t.recv.playJitter.outHave)) = some ([⟨0, -8, -8⟩], -8) ∧
      ¬ Runs.Always (opusStep .other BitVec.toNat 320) (OpusRun.InBounds 320) start es := by
  intro start es
  have hrun : ((Runs.run (opusStep .other BitVec.toNat 320) start es).map fun t =>
      (t.copies, t.recv.playJitter.outHave)) = some ([⟨0, -8, -8⟩], -8) := by decide +kernel
  refine ⟨hrun, fun h => ?_⟩
  obtain ⟨t, ht, heq⟩ := Option.map_eq_some_iff.mp hrun
  have h0 : 0 ≤ t.recv.playJitter.outHave := (h.of_run _ ht).outHave.1
  have hout : t.recv.playJitter.outHave = -8 := (Prod.ext_iff.mp heq).2
  omega

end Receivers
