/-
# Recording: from the sound card to the encoder

`alsa_rec` reads up to 512 frames of two bytes from the sound card into a slot of the record
jitter.  Its `ajitter_put_done` calls the handler `rtp_send_pcmu`, which takes chunks of 320
bytes out again, as long as there are any, and hands each to the encoder.  So the bytes that
were captured are cut anew: nothing is lost, and less than a frame waits for the next block.
-/
import Tcsip.AjitterQueue
import Tcsip.Runs

variable {τ : Type*}

/-! ## The recorder -/

/-- `REC_CH` of `asound.c` -/
def recCh : ℤ := 512

/-- `frame_size` of `rtp_send_pcmu` -/
def frameSize : ℤ := 320

/-- `-EPIPE` -/
def epipe : ℤ := -32

/-- What `snd_pcm_readi` returns for `recCh` frames of two bytes, what it stores, and the
stamp taken after it. -/
structure Readi (τ : Type*) where
  ret : ℤ
  data : List Byte
  now : τ
  le_recCh : ret ≤ recCh
  length_data : 0 < ret → (data.length : ℤ) = ret * 2

/-- The record jitter, `arg->ts` of the sender, and the frames handed to the encoder, each
with the stamp of its packet. -/
structure Recorder (τ : Type*) where
  aj : Ajitter τ
  ts : Option τ
  frames : List (List Byte × Option τ)

variable [LE τ] [DecidableLE τ] [Zero τ]

omit [Zero τ] in
/-- The loop of `rtp_send_pcmu`, for at most `fuel` rounds. -/
def rtpSendPcmu (b : Build) : ℕ → Recorder τ → Option (Recorder τ)
  | 0, _ => none
  | fuel + 1, s =>
    match ajitterGetChunk b s.aj frameSize s.ts with
    | none => none
    | some (aj, ts, none) => some ⟨aj, ts, s.frames⟩
    | some (aj, ts, some ibuf) => rtpSendPcmu b fuel ⟨aj, ts, s.frames ++ [(ibuf, ts)]⟩

/-- More rounds than there are bytes. -/
def drainFuel (aj : Ajitter τ) : ℕ := aj.outHave.toNat + ∑ i, (aj.packet i).left.toNat + 1

/-- `alsa_rec` after `snd_pcm_readi`: the frames are put, and the sender takes all whole blocks. -/
def alsaRec (b : Build) (s : Recorder τ) (r : Readi τ) : Option (Recorder τ) :=
  let (aj, idx) := ajitterPutPtr s.aj
  if r.ret = epipe then some { s with aj }
  else if r.ret ≤ 0 then some { s with aj }
  else
    let aj := ajitterPutDone b (fillSlot aj idx r.data (r.ret * 2)) idx r.now
    rtpSendPcmu b (drainFuel aj) { s with aj }

omit [LE τ] [DecidableLE τ] [Zero τ] in
/-- The bytes that a step captures. -/
def Readi.captured (r : Readi τ) : List Byte := if r.ret ≤ 0 then [] else r.data

/-- No packet and no partial chunk. -/
def Ajitter.Empty (aj : Ajitter τ) : Prop := aj.used = 0#32 ∧ aj.outHave = 0

/-! ## The drain loop -/

section Drain

variable {b : Build} {q : List (Fin AJD)}

omit [LE τ] [DecidableLE τ] [Zero τ] in
/-- No more bytes are queued than the slots hold. -/
theorem length_stream_le (aj : Ajitter τ) (h : q.Nodup) :
    (aj.stream q).length ≤ ∑ i, (aj.packet i).left.toNat := by
  unfold Ajitter.stream
  rw [List.length_flatMap, List.map_congr_left fun i _ => aj.length_unread i,
    ← List.sum_toFinset _ h]
  exact Finset.sum_le_sum_of_subset (Finset.subset_univ _)

omit [DecidableLE τ] [Zero τ] in
theorem Ajitter.Lines.length_content_lt {aj : Ajitter τ} (h : aj.Lines q) :
    (aj.content q).length < drainFuel aj := by
  have hle := length_stream_le aj h.nodup
  unfold Ajitter.content drainFuel
  rw [List.length_append, aj.length_partialChunk]
  omega

omit [Zero τ] in
/-- **The loop hands out all full frames** and leaves less than one in `out_buffer`. -/
theorem rtpSendPcmu_spec {fuel : ℕ} {s : Recorder τ} (h : s.aj.Holds q)
    (h0 : 0 ≤ s.aj.outHave) (hsize : s.aj.outHave < frameSize)
    (hfuel : (s.aj.content q).length < fuel) :
    ∃ t, rtpSendPcmu b fuel s = some t ∧ t.aj.Holds [] ∧ 0 ≤ t.aj.outHave ∧
      t.aj.outHave < frameSize ∧
      t.frames.map Prod.fst =
        s.frames.map Prod.fst ++ (BlockQueue.drain 320 fuel (s.aj.content q)).1 ∧
      t.aj.content [] = (BlockQueue.drain 320 fuel (s.aj.content q)).2 := by
  induction fuel generalizing s q with
  | zero => exact absurd hfuel (Nat.not_lt_zero _)
  | succ fuel ih =>
      obtain ⟨aj', ts', c, q', hget, hh, -, h0', hsize', htake, hnone⟩ :=
        h.getChunk b s.ts h0 hsize
      have htake' : BlockQueue.take 320 (s.aj.content q) = (c, aj'.content q') := htake
      rw [rtpSendPcmu, hget, BlockQueue.drain, htake']
      cases c with
      | none =>
          obtain rfl := hnone rfl
          exact ⟨_, rfl, hh, h0', hsize', (List.append_nil _).symm, rfl⟩
      | some ibuf =>
          -- a frame was taken: the queue is shorter by its bytes
          obtain ⟨hle, -, hlen⟩ := BlockQueue.take_eq_some htake'
          obtain ⟨t, ht, hht, ht0, htsize, hframes, hrest⟩ :=
            ih (s := ⟨aj', ts', s.frames ++ [(ibuf, ts')]⟩) hh h0' hsize'
              (by dsimp only; omega)
          refine ⟨t, ht, hht, ht0, htsize, ?_, hrest⟩
          rw [hframes, List.map_append, List.append_assoc]
          rfl

end Drain

/-! ## The invariant of a recording -/

/-- No slot is in use, and the frames handed out followed by the partial chunk are the bytes
captured so far. -/
structure Recorder.Reframes (captured : List Byte) (s : Recorder τ) : Prop where
  used : s.aj.Holds []
  nonneg : 0 ≤ s.aj.outHave
  lt : s.aj.outHave < frameSize
  length : ∀ frame ∈ s.frames.map Prod.fst, frame.length = 320
  bytes : (s.frames.map Prod.fst).flatten ++ s.aj.content [] = captured

section Steps

variable {ρ : Type*} [Preorder ρ] [DecidableLE ρ] [Zero ρ] {b : Build}

/-- A block of captured bytes goes through the jitter. -/
theorem Recorder.Reframes.block {captured : List Byte} {s : Recorder ρ}
    (h : s.Reframes captured) {data : List Byte} (now : ρ) (hdata : data ≠ []) :
    ∃ t, rtpSendPcmu b (drainFuel (ajitterPut b s.aj data now))
        { s with aj := ajitterPut b s.aj data now } = some t ∧
      t.Reframes (captured ++ data) := by
  have hzero : s.aj.used = 0#32 := Ajitter.holds_nil.mp h.used
  have hroom : ¬ s.aj.Full := fun hfull => used_eq_zero_iff.mp hzero 0 (hfull 0)
  have hspare : s.aj.Spares data.length := fun j hj => absurd hj (used_eq_zero_iff.mp hzero j)
  obtain ⟨idx, hput, -, -, hout, hcontent⟩ :=
    h.used.put b now hroom hdata le_rfl
      (fun i hi => absurd hi List.not_mem_nil) hspare
  obtain ⟨t, ht, hheld, h0, hlt, hframes, hrest⟩ :=
    rtpSendPcmu_spec (b := b) (s := { s with aj := ajitterPut b s.aj data now }) hput
      (hout ▸ h.nonneg) (hout ▸ h.lt) hput.queues.lines.length_content_lt
  refine ⟨t, ht, hheld, h0, hlt, ?_, ?_⟩
  · intro frame hframe
    rw [hframes] at hframe
    rcases List.mem_append.mp hframe with hframe | hframe
    · exact h.length frame hframe
    · exact BlockQueue.length_of_mem_drain hframe
  · -- what the loop hands out and leaves is what it found
    rw [hframes, hrest, List.flatten_append, List.append_assoc, BlockQueue.flatten_drain]
    dsimp only
    rw [hcontent, ← List.append_assoc, h.bytes]

/-- **One step.**  It always returns, and keeps the bytes in order. -/
theorem Recorder.Reframes.step {captured : List Byte} {s : Recorder ρ}
    (h : s.Reframes captured) (r : Readi ρ) :
    ∃ t, alsaRec b s r = some t ∧ t.Reframes (captured ++ r.captured) := by
  have hzero : s.aj.used = 0#32 := Ajitter.holds_nil.mp h.used
  have hroom : ¬ s.aj.Full := fun hfull => used_eq_zero_iff.mp hzero 0 (hfull 0)
  obtain ⟨idx, -, heq⟩ := ajitterPutPtr_of_not_full hroom
  by_cases hret : r.ret ≤ 0
  · -- a failed capture leaves the jitter as it is
    have hnil : captured ++ r.captured = captured := by
      rw [Readi.captured, if_pos hret, List.append_nil]
    refine ⟨s, ?_, hnil.symm ▸ h⟩
    unfold alsaRec
    rw [heq]
    dsimp only
    rw [if_pos hret, ite_self]
  · have hlen : (r.data.length : ℤ) = r.ret * 2 := r.length_data (not_le.mp hret)
    have hdata : r.data ≠ [] := by
      intro hnil
      rw [hnil, List.length_nil] at hlen
      omega
    obtain ⟨t, ht, hre⟩ := h.block (b := b) r.now hdata
    refine ⟨t, ?_, ?_⟩
    · unfold alsaRec
      unfold ajitterPut at ht
      rw [heq] at ht ⊢
      dsimp only at ht ⊢
      rw [if_neg (by unfold epipe; omega), if_neg hret, ← hlen]
      exact ht
    · rw [Readi.captured, if_neg hret]
      exact hre

/-- **Every run.**  The steps always return, and keep the bytes in order. -/
theorem Recorder.Reframes.steps {captured : List Byte} {s : Recorder ρ}
    (h : s.Reframes captured) (es : List (Readi ρ)) :
    ∃ t, Runs.run (alsaRec b) s es = some t ∧
      t.Reframes (captured ++ es.flatMap Readi.captured) := by
  have hI : s.Reframes (captured ++ ([] : List (Readi ρ)).flatMap Readi.captured) := by
    rw [List.flatMap_nil, List.append_nil]
    exact h
  refine Runs.run_progress_past (alsaRec b)
    (I := fun past s => s.Reframes (captured ++ past.flatMap Readi.captured))
    (C := fun _ _ => True) es ?_ es [] s rfl hI
    (Runs.stepsMeet_of_forall _ (fun _ _ => trivial) s es)
  intro past r rest u _ hu _
  obtain ⟨t, ht, hre⟩ := hu.step (b := b) r
  refine ⟨t, ht, ?_⟩
  rw [List.flatMap_append, List.flatMap_singleton, ← List.append_assoc]
  exact hre

omit [DecidableLE ρ] [Zero ρ] in
theorem Recorder.reframes_of_empty {aj : Ajitter ρ} (h : aj.Empty) :
    Recorder.Reframes [] ⟨aj, none, []⟩ := by
  refine ⟨Ajitter.holds_nil.mpr h.1, h.2.ge, ?_, fun frame hf => absurd hf List.not_mem_nil, ?_⟩
  · show aj.outHave < frameSize
    rw [h.2]
    decide
  · show aj.content [] = []
    unfold Ajitter.content Ajitter.partialChunk
    rw [h.2]
    rfl

/-- **The capture pipeline is a lossless reframer.**  Whatever the steps are, they all
return; the frames handed to the encoder are the longest prefix of the captured bytes that
is made of frames, no slot is in use, and the bytes left over are at the front of
`out_buffer`. -/
theorem capture_reframes (b : Build) (aj : Ajitter ρ) (h : aj.Empty) (es : List (Readi ρ)) :
    ∃ t, Runs.run (alsaRec b) ⟨aj, none, []⟩ es = some t ∧
      let captured := es.flatMap Readi.captured
      let whole := 320 * (captured.length / 320)
      (t.frames.map Prod.fst).flatten = captured.take whole ∧
        (∀ frame ∈ t.frames.map Prod.fst, frame.length = 320) ∧
        t.aj.used = 0#32 ∧
        t.aj.outHave = ((captured.length % 320 : ℕ) : ℤ) ∧
        Memory.read t.aj.outBuffer 0 (captured.length % 320) = captured.drop whole := by
  obtain ⟨t, ht, hre⟩ := (Recorder.reframes_of_empty h).steps (b := b) es
  rw [List.nil_append] at hre
  have hpart : t.aj.content [] = t.aj.partialChunk t.aj.outBuffer := List.append_nil _
  have hlen : (t.aj.content []).length = t.aj.outHave.toNat := by
    rw [hpart, t.aj.length_partialChunk]
  have h0 := hre.nonneg
  have hlt := hre.lt
  unfold frameSize at hlt
  obtain ⟨hframes, hrest, hmod⟩ :=
    BlockQueue.flatten_eq_take hre.length (by omega) hre.bytes
  refine ⟨t, ht, hframes, hre.length, Ajitter.holds_nil.mp hre.used, by omega, ?_⟩
  rw [← hrest, ← hmod, hlen, hpart]
  rfl

end Steps

/-- Two blocks of 100 frames with equal stamps and a failed read between them: one frame is
handed out, and 80 bytes are left. -/
theorem capture_reframes_two_blocks :
    let block : Readi ℤ := ⟨100, List.replicate 200 7, 5, by decide, by decide +kernel⟩
    let fail : Readi ℤ := ⟨epipe, [], 5, by decide, by decide⟩
    ∃ t, Runs.run (alsaRec .other)
        ⟨ajitterInit 1024 ⟨fun _ => 0, fun _ => 0, fun _ => 0⟩, none, []⟩
        [block, fail, block] = some t ∧
      (t.frames.map Prod.fst).flatten = List.replicate 320 7 ∧ t.aj.outHave = 80 := by
  intro block fail
  obtain ⟨t, ht, hframes, -, -, hout, -⟩ :=
    capture_reframes .other (ajitterInit 1024 ⟨fun _ => 0, fun _ => 0, fun _ => 0⟩)
      ⟨rfl, rfl⟩ [block, fail, block]
  have hcaptured : [block, fail, block].flatMap Readi.captured = List.replicate 400 7 := by
    decide +kernel
  rw [hcaptured, List.length_replicate] at hframes hout
  exact ⟨t, ht, hframes.trans (by rw [List.take_replicate]; rfl), hout⟩
