/-
# The timestamps of the packets that are sent

`rtp_send_pcmu` sends each packet with the stamp that `ajitter_get_chunk` leaves, the stamp of
the last slot that the frame took bytes from.  `alsa_rec` stamps a slot with the seconds of
the clock, as a `double` that `ajitter_copy_chunk` turns into an `int`.  So the frames that one
block completes all go out with the same stamp, and from one block to the next it grows by the
seconds that went by.  `rtp_send_opus` leaves the stamps alone and counts by itself.
-/
import Tcsip.Capture
import Tcsip.BigEndian

/-! ## Numbers in steps -/

section StampsAdvance

/-- Each number is the one before it plus `d`. -/
def StampsAdvance (d : BitVec 32) (l : List (BitVec 32)) : Prop := l.IsChain fun a b => b = a + d

instance (d : BitVec 32) (l : List (BitVec 32)) : Decidable (StampsAdvance d l) :=
  inferInstanceAs (Decidable (l.IsChain _))

theorem stampsAdvance_nil (d : BitVec 32) : StampsAdvance d [] := List.IsChain.nil

theorem stampsAdvance_concat_iff {d v : BitVec 32} {l : List (BitVec 32)} :
    StampsAdvance d (l ++ [v]) ↔ StampsAdvance d l ∧ ∀ a ∈ l.getLast?, v = a + d := by
  unfold StampsAdvance
  rw [List.isChain_append]
  simp

/-- Equal numbers do not advance. -/
theorem stampsAdvance_append_replicate_iff {d v : BitVec 32} (hd : d ≠ 0) (l : List (BitVec 32))
    (n : ℕ) :
    StampsAdvance d (l ++ List.replicate n v) ↔
      StampsAdvance d l ∧ n ≤ 1 ∧ (n = 1 → ∀ a ∈ l.getLast?, v = a + d) := by
  match n with
  | 0 => simp
  | 1 => simp [stampsAdvance_concat_iff]
  | n + 2 =>
      refine iff_of_false (fun h => ?_) fun h => absurd h.2.1 (by omega)
      unfold StampsAdvance at h
      rw [List.isChain_append, List.replicate_succ, List.replicate_succ] at h
      have hstep : v = v + d := (List.isChain_cons_cons.mp h.2.1).1
      exact hd (by simpa using hstep.symm)

end StampsAdvance

variable {τ : Type*}

/-! ## The stamp of a chunk -/

section Stamp

variable [LE τ] [DecidableLE τ] {b : Build} {size : ℤ} {v : τ}

/-- A chunk has the stamp of a slot that was in use. -/
theorem copyLoop_ts {fuel : ℕ} {aj : Ajitter τ} {ob : ℕ → Byte} {ts : Option τ} {r : Copied τ}
    (h : copyLoop b size fuel aj ob ts = some r) (hv : ∀ i, aj.Used i → aj.time i = v)
    (hret : r.ret = true) : r.ts = some v := by
  revert hv hret
  apply copyLoop_induction (motive := fun aj r => (∀ i, aj.Used i → aj.time i = v) →
    r.ret = true → r.ts = some v) ?_ ?_ ?_ h
  · intro aj _ _ _ _ hret
    exact absurd hret Bool.false_ne_true
  · intro aj ob idx r hget _ ih hv hret
    have hround : Consumed aj (copyRound b size aj ob idx).1 :=
      consumed_copyRound (ajitterGetPtr_used hget)
    refine ih (fun i hi => ?_) hret
    rw [hround.time]
    exact hv i (hround.used i hi)
  · intro aj ob idx hget _ hv _
    rw [hv idx (ajitterGetPtr_used hget)]

/-- What is left of the jitter after a chunk was asked for. -/
theorem getChunk_stamp {aj aj' : Ajitter τ} {ts ts' : Option τ} {c : Option (List Byte)}
    (h : ajitterGetChunk b aj size ts = some (aj', ts', c)) (hv : ∀ i, aj.Used i → aj.time i = v) :
    (c ≠ none → ts' = some v) ∧ ∀ i, aj'.Used i → aj'.time i = v := by
  unfold ajitterGetChunk ajitterCopyChunk at h
  obtain ⟨r, hr, heq⟩ := Option.map_eq_some_iff.mp h
  obtain ⟨rfl, hrest⟩ := Prod.mk.inj heq
  obtain ⟨rfl, rfl⟩ := Prod.mk.inj hrest
  have hcons := consumed_copyLoop hr
  constructor
  · intro hc
    refine copyLoop_ts hr hv ?_
    by_contra hret
    exact hc (if_neg hret)
  · intro i hi
    show r.aj.time i = v
    rw [hcons.time]
    exact hv i (hcons.used i hi)

/-- **All frames of one block have its stamp.** -/
theorem rtpSendPcmu_stamps {fuel : ℕ} {s t : Recorder τ} (h : rtpSendPcmu b fuel s = some t)
    (hv : ∀ i, s.aj.Used i → s.aj.time i = v) :
    ∃ n, t.frames.map Prod.snd = s.frames.map Prod.snd ++ List.replicate n (some v) := by
  induction fuel generalizing s with
  | zero => exact absurd h (by simp [rtpSendPcmu])
  | succ fuel ih =>
      rw [rtpSendPcmu] at h
      split at h
      · exact absurd h (by simp)
      · obtain rfl := Option.some.inj h
        exact ⟨0, (List.append_nil _).symm⟩
      · next aj ts ibuf hget =>
        obtain ⟨hts, hv'⟩ := getChunk_stamp hget hv
        obtain ⟨n, hn⟩ := ih h hv'
        refine ⟨n + 1, ?_⟩
        rw [hn, hts (Option.some_ne_none _), List.map_append, List.append_assoc,
          List.replicate_succ]
        rfl

end Stamp

/-! ## PCMU -/

/-- `(int)` of a `double`.  A number that an `int` can hold stays what it is; what becomes of any
other is left to the compiler. -/
structure DoubleToInt where
  conv : ℤ → BitVec 32
  conv_eq : ∀ x, -2 ^ 31 ≤ x → x < 2 ^ 31 → conv x = BitVec.ofInt 32 x

/-- The conversion that gives the least `int` for whatever does not fit. -/
def DoubleToInt.indefinite : DoubleToInt where
  conv x := if -2 ^ 31 ≤ x ∧ x < 2 ^ 31 then BitVec.ofInt 32 x else BitVec.intMin 32
  conv_eq _ hlow hhigh := if_pos ⟨hlow, hhigh⟩

/-- The stamp of a chunk, as `rtp_encode` puts it into the header; `arg->ts` is 0 at first. -/
def stampOf (cast : DoubleToInt) (ts : Option ℤ) : BitVec 32 := (ts.map cast.conv).getD 0#32

/-- The timestamps of the packets sent so far. -/
def Recorder.timestamps (cast : DoubleToInt) (s : Recorder ℤ) : List (BitVec 32) :=
  s.frames.map fun frame => stampOf cast frame.2

/-- How many frames a block completes. -/
def framesCompleted (s : Recorder ℤ) (r : Readi ℤ) : ℕ :=
  if r.ret ≤ 0 then 0 else ((s.aj.outHave + r.ret * 2) / frameSize).toNat

/-- A block completes at most one frame, and if it does after another one, then the clock, as an
`int`, is 160 seconds after the last timestamp. -/
def OneFrame (cast : DoubleToInt) (s : Recorder ℤ) (r : Readi ℤ) : Prop :=
  framesCompleted s r ≤ 1 ∧
    (framesCompleted s r = 1 → ∀ a ∈ (s.timestamps cast).getLast?, cast.conv r.now = a + 160#32)

/-- While the clock fits into an `int`, that is about its seconds. -/
theorem oneFrame_iff_of_fits {cast : DoubleToInt} {s : Recorder ℤ} {r : Readi ℤ}
    (hlow : -2 ^ 31 ≤ r.now) (hhigh : r.now < 2 ^ 31) :
    OneFrame cast s r ↔ framesCompleted s r ≤ 1 ∧ (framesCompleted s r = 1 →
      ∀ a ∈ (s.timestamps cast).getLast?, BitVec.ofInt 32 r.now = a + 160#32) := by
  unfold OneFrame
  rw [cast.conv_eq r.now hlow hhigh]

section Pcmu

variable (cast : DoubleToInt) {b : Build} {captured : List Byte} {s : Recorder ℤ}

/-- What has been captured is in frames and in `out_buffer`. -/
theorem Recorder.Reframes.length_captured (h : s.Reframes captured) :
    (captured.length : ℤ) = 320 * (s.timestamps cast).length + s.aj.outHave := by
  have hlen := BlockQueue.length_flatten_of_forall h.length
  have h0 := h.nonneg
  have hpart : (s.aj.content []).length = s.aj.outHave.toNat := by
    have hcontent : s.aj.content [] = s.aj.partialChunk s.aj.outBuffer := List.append_nil _
    rw [hcontent, s.aj.length_partialChunk]
  rw [← h.bytes, List.length_append, hlen, hpart, Recorder.timestamps, List.length_map,
    List.length_map]
  push_cast
  rw [Int.toNat_of_nonneg h0]

/-- The only slot in use after a block was put into an empty jitter has its stamp. -/
theorem used_of_put {aj : Ajitter ℤ} (hzero : aj.used = 0#32) {idx : Fin AJD} (bs : List Byte)
    (left now : ℤ) :
    ∀ i, (ajitterPutDone b (fillSlot aj idx bs left) idx now).Used i →
      (ajitterPutDone b (fillSlot aj idx bs left) idx now).time i = now := by
  intro i hi
  have hfree : ¬ aj.Used idx := used_eq_zero_iff.mp hzero idx
  rcases (test_bset hfree).mp hi with rfl | hused
  · exact Function.update_self ..
  · exact absurd hused (used_eq_zero_iff.mp hzero i)

/-- **One step** sends the frames that its block completes, all with the same timestamp. -/
theorem Recorder.Reframes.step_timestamps (h : s.Reframes captured) (r : Readi ℤ) :
    ∃ t, alsaRec b s r = some t ∧ t.Reframes (captured ++ r.captured) ∧
      t.timestamps cast =
        s.timestamps cast ++ List.replicate (framesCompleted s r) (cast.conv r.now) := by
  obtain ⟨t, ht, hre⟩ := h.step (b := b) r
  refine ⟨t, ht, hre, ?_⟩
  have hzero : s.aj.used = 0#32 := Ajitter.holds_nil.mp h.used
  have hroom : ¬ s.aj.Full := fun hfull => used_eq_zero_iff.mp hzero 0 (hfull 0)
  obtain ⟨idx, -, heq⟩ := ajitterPutPtr_of_not_full hroom
  unfold alsaRec at ht
  rw [heq] at ht
  dsimp only at ht
  by_cases hret : r.ret ≤ 0
  · rw [if_pos hret, ite_self] at ht
    obtain rfl := Option.some.inj ht
    rw [framesCompleted, if_pos hret, List.replicate_zero, List.append_nil]
  · rw [if_neg (by unfold epipe; omega), if_neg hret] at ht
    obtain ⟨n, hn⟩ := rtpSendPcmu_stamps ht (used_of_put hzero r.data (r.ret * 2) r.now)
    have hstamps : t.timestamps cast =
        s.timestamps cast ++ List.replicate n (cast.conv r.now) := by
      have hmap := congrArg (List.map (stampOf cast)) hn
      rw [List.map_append, List.map_replicate, List.map_map, List.map_map] at hmap
      exact hmap
    -- the frames and what is left over are as long as the block
    have hlen := h.length_captured cast
    have hlen' := hre.length_captured cast
    rw [hstamps, List.length_append, List.length_append, List.length_replicate, Readi.captured,
      if_neg hret] at hlen'
    push_cast at hlen'
    rw [hlen, r.length_data (not_le.mp hret)] at hlen'
    have hcount : n = framesCompleted s r := by
      rw [framesCompleted, if_neg hret]
      have h0 := hre.nonneg
      have hlt := hre.lt
      unfold frameSize at hlt ⊢
      omega
    rw [hstamps, hcount]

/-- A step spoils the timestamps exactly if it does not meet the condition. -/
theorem stampsAdvance_step_iff (h : s.Reframes captured) {r : Readi ℤ} {t : Recorder ℤ}
    (ht : alsaRec b s r = some t) :
    StampsAdvance 160#32 (t.timestamps cast) ↔
      StampsAdvance 160#32 (s.timestamps cast) ∧ OneFrame cast s r := by
  obtain ⟨t', ht', -, hstamps⟩ := h.step_timestamps cast (b := b) r
  rw [ht'] at ht
  obtain rfl := Option.some.inj ht
  rw [hstamps, stampsAdvance_append_replicate_iff (by decide)]
  rfl

end Pcmu

/-! ## Opus -/

/-- `OPUS_MS` of `rtp_opus.c` -/
def opusMs : BitVec 32 := 960#32

/-- The record jitter, `arg->ts` of the sender, and the frames handed to the encoder, each with
the timestamp of its packet. -/
structure OpusSender (τ : Type*) where
  aj : Ajitter τ
  ts : BitVec 32
  frames : List (List Byte × BitVec 32)

/-- The loop of `rtp_send_opus`, for at most `fuel` rounds.  The stamp of a chunk goes to `len`,
which is assigned before it is read. -/
def rtpSendOpus [LE τ] [DecidableLE τ] (b : Build) : ℕ → OpusSender τ → Option (OpusSender τ)
  | 0, _ => none
  | fuel + 1, s =>
    match ajitterGetChunk b s.aj frameSize none with
    | none => none
    | some (aj, _, none) => some { s with aj }
    | some (aj, _, some ibuf) =>
      rtpSendOpus b fuel ⟨aj, s.ts + opusMs, s.frames ++ [(ibuf, s.ts)]⟩

/-- `alsa_rec` with the handler `rtp_send_opus`. -/
def alsaRecOpus [LE τ] [DecidableLE τ] [Zero τ] (b : Build) (s : OpusSender τ) (r : Readi τ) :
    Option (OpusSender τ) :=
  let (aj, idx) := ajitterPutPtr s.aj
  if r.ret = epipe then some { s with aj }
  else if r.ret ≤ 0 then some { s with aj }
  else
    let aj := ajitterPutDone b (fillSlot aj idx r.data (r.ret * 2)) idx r.now
    rtpSendOpus b (drainFuel aj) { s with aj }

/-- The time stamps of the packets that were sent. -/
def OpusSender.timestamps (s : OpusSender τ) : List (BitVec 32) := s.frames.map Prod.snd

section Opus

variable [LE τ] [DecidableLE τ] {b : Build} {size : ℤ}

/-- Where the stamp goes does not matter for the chunk. -/
theorem copyLoop_ts_irrel (fuel : ℕ) (aj : Ajitter τ) (ob : ℕ → Byte) (ts ts' : Option τ) :
    (copyLoop b size fuel aj ob ts).map (fun r => (r.aj, r.ob, r.ret)) =
      (copyLoop b size fuel aj ob ts').map fun r => (r.aj, r.ob, r.ret) := by
  cases fuel with
  | zero => rfl
  | succ fuel =>
      cases hget : ajitterGetPtr aj with
      | none =>
          rw [copyLoop_of_none hget, copyLoop_of_none hget]
          rfl
      | some idx => rw [copyLoop_of_some hget, copyLoop_of_some hget]

theorem getChunk_ts_irrel {aj aj' : Ajitter τ} {ts ts' : Option τ} {c : Option (List Byte)}
    (h : ajitterGetChunk b aj size ts = some (aj', ts', c)) :
    ∃ ts'', ajitterGetChunk b aj size none = some (aj', ts'', c) := by
  unfold ajitterGetChunk ajitterCopyChunk at h ⊢
  obtain ⟨r, hr, heq⟩ := Option.map_eq_some_iff.mp h
  obtain ⟨rfl, hrest⟩ := Prod.mk.inj heq
  obtain ⟨rfl, rfl⟩ := Prod.mk.inj hrest
  have hsome := congrArg (Option.map fun r => (r.aj, r.ob, r.ret)) hr
  rw [Option.map_some, ← copyLoop_ts_irrel (AJD + 1) aj aj.outBuffer none ts] at hsome
  obtain ⟨r', hr', heq'⟩ := Option.map_eq_some_iff.mp hsome
  obtain ⟨haj, hrest'⟩ := Prod.mk.inj heq'
  obtain ⟨hob, hret⟩ := Prod.mk.inj hrest'
  rw [hr', Option.map_some, haj, hob, hret]
  exact ⟨_, rfl⟩

/-- The two senders took the same frames out of the same jitter. -/
structure SendersAlike (p : Recorder τ) (s : OpusSender τ) : Prop where
  aj : s.aj = p.aj
  bytes : s.frames.map Prod.fst = p.frames.map Prod.fst

/-- The timestamps sent, and the next one. -/
def OpusSender.Counts (s : OpusSender τ) : Prop := StampsAdvance opusMs (s.timestamps ++ [s.ts])

/-- **The loop of `rtp_send_opus`** takes the frames that `rtp_send_pcmu` would take, and counts
them. -/
theorem rtpSendOpus_alike {fuel : ℕ} {p t : Recorder τ} {s : OpusSender τ}
    (h : rtpSendPcmu b fuel p = some t) (hs : SendersAlike p s) (hcounts : s.Counts) :
    ∃ u, rtpSendOpus b fuel s = some u ∧ SendersAlike t u ∧ u.Counts := by
  induction fuel generalizing p s with
  | zero => exact absurd h (by simp [rtpSendPcmu])
  | succ fuel ih =>
      rw [rtpSendPcmu] at h
      rw [rtpSendOpus, hs.aj]
      split at h
      · exact absurd h (by simp)
      · next aj ts hget =>
        obtain ⟨ts', hget'⟩ := getChunk_ts_irrel hget
        obtain rfl := Option.some.inj h
        rw [hget']
        exact ⟨_, rfl, ⟨rfl, hs.bytes⟩, hcounts⟩
      · next aj ts ibuf hget =>
        obtain ⟨ts', hget'⟩ := getChunk_ts_irrel hget
        rw [hget']
        refine ih h ⟨rfl, ?_⟩ ?_
        · simp only [List.map_append, hs.bytes, List.map_singleton]
        · -- the next timestamp is one frame on
          have hstamps : (⟨aj, s.ts + opusMs, s.frames ++ [(ibuf, s.ts)]⟩ :
              OpusSender τ).timestamps = s.timestamps ++ [s.ts] := List.map_append
          unfold OpusSender.Counts
          rw [hstamps, stampsAdvance_concat_iff]
          refine ⟨hcounts, fun a ha => ?_⟩
          rw [List.getLast?_append, List.getLast?_singleton] at ha
          obtain rfl := Option.some.inj ha
          rfl

variable [Zero τ]

theorem alsaRecOpus_alike {p t : Recorder τ} {s : OpusSender τ} {r : Readi τ}
    (h : alsaRec b p r = some t) (hs : SendersAlike p s) (hcounts : s.Counts) :
    ∃ u, alsaRecOpus b s r = some u ∧ SendersAlike t u ∧ u.Counts := by
  unfold alsaRec at h
  unfold alsaRecOpus
  rw [hs.aj]
  dsimp only at h ⊢
  split_ifs at h ⊢ with hpipe hret
  · obtain rfl := Option.some.inj h
    exact ⟨_, rfl, ⟨rfl, hs.bytes⟩, hcounts⟩
  · obtain rfl := Option.some.inj h
    exact ⟨_, rfl, ⟨rfl, hs.bytes⟩, hcounts⟩
  · exact rtpSendOpus_alike h ⟨rfl, hs.bytes⟩ hcounts

end Opus

/-- **Every run of the Opus sender** returns and its timestamps advance by one frame. -/
theorem opus_timestamps_advance {b : Build} {aj : Ajitter ℤ} (h : aj.Empty) (ts : BitVec 32)
    (es : List (Readi ℤ)) :
    ∃ u, Runs.run (alsaRecOpus b) ⟨aj, ts, []⟩ es = some u ∧ StampsAdvance opusMs u.timestamps := by
  have hruns := Runs.always_of_stepsMeet (alsaRecOpus b)
    (I := fun s => ∃ p captured, p.Reframes captured ∧ SendersAlike p s ∧ s.Counts)
    (B := fun s => StampsAdvance opusMs s.timestamps) (C := fun _ _ => True) ?_ ?_ ?_
    (Runs.stepsMeet_of_forall _ (fun _ _ => trivial) (⟨aj, ts, []⟩ : OpusSender ℤ) es)
  · obtain ⟨hsome, halways⟩ := hruns
    obtain ⟨u, hu⟩ := Option.isSome_iff_exists.mp hsome
    exact ⟨u, hu, halways.of_run _ hu⟩
  · rintro s r ⟨p, captured, hre, hs, hcounts⟩ -
    obtain ⟨t, ht, hre'⟩ := hre.step (b := b) r
    obtain ⟨u, hu, hs', hcounts'⟩ := alsaRecOpus_alike ht hs hcounts
    exact ⟨u, hu, t, _, hre', hs', hcounts'⟩
  · rintro s ⟨-, -, -, -, hcounts⟩
    exact (stampsAdvance_concat_iff.mp hcounts).1
  · exact ⟨_, _, Recorder.reframes_of_empty h, ⟨rfl, rfl⟩, List.isChain_singleton _⟩

/-- **Every run of the PCMU sender** returns, and its timestamps advance by one frame exactly if
every block completes at most one frame, 160 seconds after the one before. -/
theorem pcmu_timestamps_advance_iff (cast : DoubleToInt) {b : Build} {aj : Ajitter ℤ}
    (h : aj.Empty) (es : List (Readi ℤ)) :
    ∃ t, Runs.run (alsaRec b) ⟨aj, none, []⟩ es = some t ∧
      (StampsAdvance 160#32 (t.timestamps cast) ↔
        Runs.StepsMeet (alsaRec b) (OneFrame cast) ⟨aj, none, []⟩ es) := by
  have hstart := Recorder.reframes_of_empty h
  obtain ⟨t, ht, -⟩ := hstart.steps (b := b) es
  refine ⟨t, ht, ?_⟩
  have hmonitor := Runs.run_monitor_iff (alsaRec b)
    (B := fun s => StampsAdvance 160#32 (s.timestamps cast)) (C := OneFrame cast)
    (I := fun s => ∃ captured, s.Reframes captured) ?_ ?_ ⟨[], hstart⟩ ht
  · rw [hmonitor, and_iff_right]
    exact stampsAdvance_nil _
  · rintro s r t ⟨captured, hre⟩ ht
    obtain ⟨t', ht', hre'⟩ := hre.step (b := b) r
    rw [ht'] at ht
    obtain rfl := Option.some.inj ht
    exact ⟨_, hre'⟩
  · rintro s r t ⟨captured, hre⟩ ht
    exact stampsAdvance_step_iff cast hre ht

/-- **The timestamps of a call** from an empty record jitter: those of Opus always advance by 960;
those of PCMU advance by 160 exactly if all blocks meet the condition. -/
theorem timestamps_advance_iff (cast : DoubleToInt) (b : Build) (aj : Ajitter ℤ) (h : aj.Empty)
    (es : List (Readi ℤ)) :
    (∀ ts, ∃ u, Runs.run (alsaRecOpus b) ⟨aj, ts, []⟩ es = some u ∧
      StampsAdvance 960#32 u.timestamps) ∧
    ∃ t, Runs.run (alsaRec b) ⟨aj, none, []⟩ es = some t ∧
      (StampsAdvance 160#32 (t.timestamps cast) ↔
        Runs.StepsMeet (alsaRec b) (OneFrame cast) ⟨aj, none, []⟩ es) :=
  ⟨fun ts => opus_timestamps_advance h ts es, pcmu_timestamps_advance_iff cast h es⟩

/-- A block of this many samples, read when the clock showed `now`. -/
def blockAt (n : ℕ) (hn : n ≤ 512) (now : ℤ) : Readi ℤ where
  ret := n
  data := List.replicate (2 * n) (BigEndian.byte 7)
  now := now
  le_recCh := by unfold recCh; omega
  length_data := by intro _; rw [List.length_replicate]; omega

/-- The record jitter of a new call. -/
def newJitter : Ajitter ℤ :=
  ajitterInit 1024 ⟨fun _ => BigEndian.byte 0, fun _ => BigEndian.byte 0, fun _ => 0⟩

/-- Two frames that were captured 160 seconds apart. -/
theorem timestamps_advance_slowly :
    ∃ t, Runs.run (alsaRec .other) ⟨newJitter, none, []⟩
        [blockAt 160 (by decide) 5, blockAt 160 (by decide) 165] = some t ∧
      StampsAdvance 160#32 (t.timestamps .indefinite) := by
  obtain ⟨-, t, ht, hiff⟩ := timestamps_advance_iff .indefinite .other newJitter ⟨rfl, rfl⟩
    [blockAt 160 (by decide) 5, blockAt 160 (by decide) 165]
  refine ⟨t, ht, hiff.mpr ⟨⟨by decide, fun _ a ha => ?_⟩, fun u hu => ⟨?_, fun _ _ => trivial⟩⟩⟩
  · exact absurd ha (Option.not_mem_none a)
  · have hempty : newJitter.Empty := ⟨rfl, rfl⟩
    obtain ⟨u', hu', hre, hstamps⟩ := (Recorder.reframes_of_empty hempty).step_timestamps
      .indefinite (b := .other) (blockAt 160 (by decide) 5)
    obtain rfl := Option.some.inj (hu'.symm.trans hu)
    -- one frame was sent, and nothing is left over
    have hstamps' : u'.timestamps .indefinite = [5#32] := hstamps
    have hlen := hre.length_captured .indefinite
    rw [hstamps'] at hlen
    have hout : u'.aj.outHave = 0 := by
      have hcaptured : ([] ++ (blockAt 160 (by decide) 5).captured).length = 320 :=
        List.length_replicate
      rw [hcaptured, List.length_singleton] at hlen
      omega
    have hone : framesCompleted u' (blockAt 160 (by decide) 165) = 1 := by
      unfold framesCompleted
      rw [hout]
      rfl
    refine ⟨hone.le, fun _ a ha => ?_⟩
    rw [hstamps'] at ha
    obtain rfl := Option.some.inj ha
    rfl

/-- A full read of the sound card completes three frames at once. -/
theorem timestamps_stand_still :
    ¬ ∀ (cast : DoubleToInt) (b : Build) (aj : Ajitter ℤ), aj.Empty → ∀ es : List (Readi ℤ),
      ∃ t, Runs.run (alsaRec b) ⟨aj, none, []⟩ es = some t ∧
        StampsAdvance 160#32 (t.timestamps cast) := by
  intro h
  obtain ⟨t, ht, hadv⟩ := h .indefinite .other newJitter ⟨rfl, rfl⟩ [blockAt 512 le_rfl 5]
  have hempty : newJitter.Empty := ⟨rfl, rfl⟩
  obtain ⟨t', ht', hiff⟩ := pcmu_timestamps_advance_iff .indefinite (b := .other) hempty
    [blockAt 512 le_rfl 5]
  obtain rfl := Option.some.inj (ht.symm.trans ht')
  have hone := (hiff.mp hadv).1.1
  exact absurd hone (by decide)
