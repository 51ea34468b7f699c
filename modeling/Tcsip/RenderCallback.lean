/-
# Playing on Apple systems

The render callback of the voice unit asks for as many bytes as the buffer of the device has.
It sets `out_have` to 0 first, so that `ajitter_copy_chunk` begins at the start of the buffer.
But a copy that finds too little has taken what there was, and counts on `out_have` and on the
buffer for the next try: the callback fills the buffer with silence instead, and the bytes are
lost.
-/
import Tcsip.AjitterQueue
import Tcsip.BigEndian
import Tcsip.Runs

variable {τ : Type*}

/-! ## The callback -/

/-- The play jitter and the buffer of the device after a callback, and whether it has sound. -/
structure Rendered (τ : Type*) where
  playJitter : Ajitter τ
  audioBuffer : ℕ → Byte
  ret : Bool

/-- The bytes that `memset` writes. -/
def silence (audioBufferSize : ℤ) : List Byte :=
  List.replicate audioBufferSize.toNat (BigEndian.byte 0)

/-- `play_jitter->out_have = 0` -/
def Ajitter.restart (aj : Ajitter τ) : Ajitter τ := { aj with outHave := 0 }

/-- `MyOutputBusRenderCallack`: silence if the jitter has too little. -/
def myOutputBusRenderCallack [LE τ] [DecidableLE τ] (playJitter : Ajitter τ)
    (audioBufferSize : ℤ) (audioBuffer : ℕ → Byte) : Option (Rendered τ) :=
  (ajitterCopyChunk .apple playJitter.restart audioBufferSize audioBuffer none).map fun r =>
    if r.ret then ⟨r.aj, r.ob, true⟩
    else ⟨r.aj, Memory.write r.ob 0 (silence audioBufferSize), false⟩

section Callback

variable [LE τ] {aj : Ajitter τ} {q : List (Fin AJD)}

theorem Ajitter.Lines.restart (h : aj.Lines q) : aj.restart.Lines q :=
  ⟨h.nodup, h.used, h.before, h.last, h.left, h.off⟩

variable [DecidableLE τ] {audioBufferSize : ℤ}

/-- **With enough bytes** the device gets the first of them, and the others stay. -/
theorem Ajitter.Lines.render_of_le (h : aj.Lines q) (hsize : 0 < audioBufferSize)
    (audioBuffer : ℕ → Byte)
    (hle : audioBufferSize.toNat ≤ (aj.stream q).length) :
    ∃ r q', myOutputBusRenderCallack aj audioBufferSize audioBuffer = some r ∧ r.ret = true ∧
      r.playJitter.Lines q' ∧ q' <:+ q ∧ r.playJitter.time = aj.time ∧
      Memory.read r.audioBuffer 0 audioBufferSize.toNat ++ r.playJitter.stream q' =
        aj.stream q := by
  have hle' : audioBufferSize.toNat ≤
      (aj.restart.partialChunk audioBuffer ++ aj.restart.stream q).length := hle
  obtain ⟨r, q', hr, hret, hlines, hsuffix, -, -, hread, hstream⟩ :=
    h.restart.copyLoop_of_le .apple none le_rfl hsize (Nat.lt_succ_of_le h.length_le) hle'
  refine ⟨⟨r.aj, r.ob, true⟩, q', ?_, rfl, hlines, hsuffix, (consumed_copyLoop hr).time, ?_⟩
  · unfold myOutputBusRenderCallack ajitterCopyChunk
    rw [hr, Option.map_some, hret, if_pos rfl]
  · dsimp only
    rw [hread, hstream, List.take_append_drop]
    rfl

/-- **With too few bytes** the device gets silence, and nothing stays. -/
theorem Ajitter.Lines.render_of_lt (h : aj.Lines q) (audioBuffer : ℕ → Byte)
    (hlt : (aj.stream q).length < audioBufferSize.toNat) :
    ∃ r, myOutputBusRenderCallack aj audioBufferSize audioBuffer = some r ∧ r.ret = false ∧
      r.playJitter.Lines [] := by
  have hlt' : (aj.restart.partialChunk audioBuffer ++ aj.restart.stream q).length <
      audioBufferSize.toNat := hlt
  obtain ⟨r, hr, hret, hlines, -, -⟩ :=
    h.restart.copyLoop_of_lt .apple none le_rfl (Nat.lt_succ_of_le h.length_le) hlt'
  refine ⟨⟨r.aj, Memory.write r.ob 0 (silence audioBufferSize), false⟩, ?_, rfl,
    hlines⟩
  unfold myOutputBusRenderCallack ajitterCopyChunk
  rw [hr, Option.map_some, hret]
  rfl

end Callback

/-! ## Packets and callbacks -/

/-- A packet is put, or the device asks for bytes. -/
inductive RenderEvent (τ : Type*)
  | put (bs : List Byte) (time : τ)
  | render (audioBufferSize : ℤ) (audioBuffer : ℕ → Byte)

/-- The play jitter, the stamp of the latest packet, the packets that were put, and what the
device got from callbacks that had sound. -/
structure RenderRun (τ : Type*) where
  aj : Ajitter τ
  latest : Option τ
  packets : List (List Byte)
  handed : List (List Byte)

/-- The number of bytes still to be read in all slots. -/
def Ajitter.unreadLength (aj : Ajitter τ) : ℕ :=
  (aj.slots.map fun i => (aj.packet i).left.toNat).sum

/-- What was handed to the device, followed by the bytes still to be read in the order of the
slots, is what was put. -/
def RenderRun.Conserves [LE τ] (s : RenderRun τ) : Prop :=
  ∃ q, s.aj.Lines q ∧ s.handed.flatten ++ s.aj.stream q = s.packets.flatten

section Run

variable [Preorder τ] [DecidableLE τ] [Zero τ]

/-- The jitter that `ajitter_init` leaves, before any packet. -/
def RenderRun.start (csize : ℕ) (m : Malloced τ) : RenderRun τ :=
  ⟨ajitterInit csize m, none, [], []⟩

/-- A packet is put, or the device calls back for a buffer. -/
def renderStep (s : RenderRun τ) : RenderEvent τ → Option (RenderRun τ)
  | .put bs time => some ⟨ajitterPut .apple s.aj bs time, some time, s.packets ++ [bs], s.handed⟩
  | .render audioBufferSize audioBuffer =>
    (myOutputBusRenderCallack s.aj audioBufferSize audioBuffer).map fun r =>
      { s with
        aj := r.playJitter
        handed := s.handed ++
          if r.ret then [Memory.read r.audioBuffer 0 audioBufferSize.toNat] else [] }

/-- The stamps increase, there are never more than 32 packets in the buffer, and the device
asks for bytes. -/
def StampsIncreasing (s : RenderRun τ) : RenderEvent τ → Prop
  | .put _ time => ¬ s.aj.Full ∧ ∀ t ∈ s.latest, t ≤ time ∧ ¬ time ≤ t
  | .render audioBufferSize _ => 0 < audioBufferSize

/-- A packet stays inside the memory of the slots and clear of what is still to be read in the
others, as every packet does that is not longer than a slot. -/
def KeepsClear (s : RenderRun τ) : RenderEvent τ → Prop
  | .put bs _ => s.aj.Spares bs.length ∧
      slotData s.aj.csize (ajitterPutPtr s.aj).2 + bs.length ≤ s.aj.csize * AJD
  | .render _ _ => True

/-- The device asks for no more than there is, or there is nothing. -/
def FindsEnough (s : RenderRun τ) : RenderEvent τ → Prop
  | .put _ _ => True
  | .render audioBufferSize _ => audioBufferSize ≤ s.aj.unreadLength ∨ s.aj.unreadLength = 0

instance (s : RenderRun τ) : ∀ e, Decidable (StampsIncreasing s e)
  | .put _ time =>
    inferInstanceAs (Decidable (¬ s.aj.Full ∧ ∀ t ∈ s.latest, t ≤ time ∧ ¬ time ≤ t))
  | .render audioBufferSize _ => inferInstanceAs (Decidable (0 < audioBufferSize))

instance (s : RenderRun τ) : ∀ e, Decidable (KeepsClear s e)
  | .put bs _ => inferInstanceAs (Decidable (s.aj.Spares bs.length ∧
      slotData s.aj.csize (ajitterPutPtr s.aj).2 + bs.length ≤ s.aj.csize * AJD))
  | .render _ _ => isTrue trivial

instance (s : RenderRun τ) : ∀ e, Decidable (FindsEnough s e)
  | .put _ _ => isTrue trivial
  | .render audioBufferSize _ => inferInstanceAs
      (Decidable (audioBufferSize ≤ s.aj.unreadLength ∨ s.aj.unreadLength = 0))

/-! ## The invariant -/

/-- The packets of `q` are waiting, none with a stamp above the latest one, and no more bytes
were handed out or are waiting than were put. -/
structure RenderRun.Waits (q : List (Fin AJD)) (s : RenderRun τ) : Prop where
  lines : s.aj.Lines q
  stamps : ∀ i ∈ q, ∃ t ∈ s.latest, s.aj.time i ≤ t
  length : s.handed.flatten.length + (s.aj.stream q).length ≤ s.packets.flatten.length

variable {q : List (Fin AJD)} {s : RenderRun τ}

omit [Preorder τ] [DecidableLE τ] [Zero τ] in
theorem Ajitter.Lines.length_stream [LE τ] {aj : Ajitter τ} (h : aj.Lines q) :
    (aj.stream q).length = aj.unreadLength := by
  have hnodup : aj.slots.Nodup := (List.nodup_finRange AJD).filter _
  have hperm : q.Perm aj.slots := (List.perm_ext_iff_of_nodup h.nodup hnodup).mpr fun i => by
    rw [← h.used, Ajitter.mem_slots]
  unfold Ajitter.stream Ajitter.unreadLength
  rw [List.length_flatMap, List.map_congr_left fun i _ => aj.length_unread i]
  exact (hperm.map _).sum_eq

omit [DecidableLE τ] [Zero τ] in
theorem RenderRun.Waits.conserves_iff (h : s.Waits q) :
    s.Conserves ↔ s.handed.flatten ++ s.aj.stream q = s.packets.flatten := by
  constructor
  · rintro ⟨q', hq', heq⟩
    rwa [h.lines.unique hq']
  · exact fun heq => ⟨q, h.lines, heq⟩

omit [DecidableLE τ] in
theorem RenderRun.waits_start (csize : ℕ) (m : Malloced τ) : (RenderRun.start csize m).Waits [] :=
  ⟨Ajitter.lines_nil.mpr rfl, fun _ hi => absurd hi List.not_mem_nil, le_rfl⟩

/-! ## The steps -/

omit [DecidableLE τ] in
/-- **A packet that is put** comes behind all others, and nothing is lost by it. -/
theorem RenderRun.Waits.put (h : s.Waits q) {bs : List Byte} {time : τ}
    (hinc : StampsIncreasing s (.put bs time)) (hclear : KeepsClear s (.put bs time)) :
    ∃ q', RenderRun.Waits q'
        ⟨ajitterPut .apple s.aj bs time, some time, s.packets ++ [bs], s.handed⟩ ∧
      (RenderRun.Conserves
        ⟨ajitterPut .apple s.aj bs time, some time, s.packets ++ [bs], s.handed⟩ ↔
          s.Conserves) := by
  obtain ⟨hroom, hlatest⟩ := hinc
  have hbelow : ∀ i ∈ q, s.aj.time i ≤ time ∧ ¬ time ≤ s.aj.time i := by
    intro i hi
    obtain ⟨t, ht, hle⟩ := h.stamps i hi
    obtain ⟨hlt, hnot⟩ := hlatest t ht
    exact ⟨hle.trans hlt, fun hge => hnot (hge.trans hle)⟩
  obtain ⟨idx, hlines, hidx, htime, -, -, -, -, hstream⟩ := h.lines.put .apple bs time hroom le_rfl
    (fun i hi => ⟨(hbelow i hi).1, fun hge => absurd hge (hbelow i hi).2⟩) hclear.1
  have hlen := h.length
  have hwaits : RenderRun.Waits (q ++ [idx])
      ⟨ajitterPut .apple s.aj bs time, some time, s.packets ++ [bs], s.handed⟩ := by
    refine ⟨hlines, fun i hi => ⟨time, rfl, ?_⟩, ?_⟩
    · rcases List.mem_append.mp hi with hi | hi
      · exact (htime i hi).trans_le (hbelow i hi).1
      · rw [List.mem_singleton.mp hi]
        exact hidx.le
    · dsimp only
      rw [hstream, List.length_append, List.flatten_append, List.length_append,
        List.flatten_singleton]
      omega
  refine ⟨q ++ [idx], hwaits, ?_⟩
  rw [hwaits.conserves_iff, h.conserves_iff]
  dsimp only
  rw [hstream, List.flatten_append, List.flatten_singleton, ← List.append_assoc,
    List.append_left_inj]

/-- A callback that finds enough loses nothing. -/
theorem RenderRun.Waits.render_enough (h : s.Waits q) {audioBufferSize : ℤ}
    (hsize : 0 < audioBufferSize) (audioBuffer : ℕ → Byte)
    (hle : audioBufferSize.toNat ≤ (s.aj.stream q).length) :
    ∃ t q', renderStep s (.render audioBufferSize audioBuffer) = some t ∧ t.Waits q' ∧
      (t.Conserves ↔ s.Conserves) := by
  have hlen := h.length
  obtain ⟨r, q', hr, hret, hlines, hsuffix, htime, hbytes⟩ :=
    h.lines.render_of_le hsize audioBuffer hle
  have hflat : (s.handed ++ [Memory.read r.audioBuffer 0 audioBufferSize.toNat]).flatten ++
      r.playJitter.stream q' = s.handed.flatten ++ s.aj.stream q := by
    rw [List.flatten_append, List.flatten_singleton, List.append_assoc, hbytes]
  have hwaits : RenderRun.Waits q' ⟨r.playJitter, s.latest, s.packets,
      s.handed ++ [Memory.read r.audioBuffer 0 audioBufferSize.toNat]⟩ := by
    refine ⟨hlines, fun i hi => ?_, ?_⟩
    · rw [htime]
      exact h.stamps i (hsuffix.subset hi)
    · rwa [← List.length_append, hflat, List.length_append]
  refine ⟨_, q', ?_, hwaits, ?_⟩
  · rw [renderStep, hr, Option.map_some, hret, if_pos rfl]
  · rw [hwaits.conserves_iff, h.conserves_iff, hflat]

/-- A callback that finds too little loses everything. -/
theorem RenderRun.Waits.render_short (h : s.Waits q) {audioBufferSize : ℤ}
    (audioBuffer : ℕ → Byte) (hlt : (s.aj.stream q).length < audioBufferSize.toNat) :
    ∃ t, renderStep s (.render audioBufferSize audioBuffer) = some t ∧ t.Waits [] ∧
      (t.Conserves ↔ s.Conserves ∧ s.aj.stream q = []) := by
  have hlen := h.length
  obtain ⟨r, hr, hret, hlines⟩ := h.lines.render_of_lt audioBuffer hlt
  have hwaits : RenderRun.Waits [] ⟨r.playJitter, s.latest, s.packets, s.handed⟩ :=
    ⟨hlines, fun i hi => absurd hi List.not_mem_nil, (Nat.le_add_right _ _).trans hlen⟩
  refine ⟨_, ?_, hwaits, ?_⟩
  · rw [renderStep, hr, Option.map_some, hret, if_neg Bool.false_ne_true, List.append_nil]
  · rw [hwaits.conserves_iff, h.conserves_iff]
    show s.handed.flatten ++ [] = s.packets.flatten ↔ _
    rw [List.append_nil]
    constructor
    · intro heq
      -- the bytes handed out are all that were put, so none was waiting
      rw [heq] at hlen
      have hempty : s.aj.stream q = [] := List.length_eq_zero_iff.mp (by omega)
      exact ⟨by rw [hempty, List.append_nil, heq], hempty⟩
    · rintro ⟨heq, hempty⟩
      rwa [hempty, List.append_nil] at heq

/-- **A callback** hands out the first bytes, or takes them all for nothing. -/
theorem RenderRun.Waits.render (h : s.Waits q) {audioBufferSize : ℤ} (hsize : 0 < audioBufferSize)
    (audioBuffer : ℕ → Byte) :
    ∃ t q', renderStep s (.render audioBufferSize audioBuffer) = some t ∧ t.Waits q' ∧
      (t.Conserves ↔ s.Conserves ∧ FindsEnough s (.render audioBufferSize audioBuffer)) := by
  have hunread := h.lines.length_stream
  have hfinds : FindsEnough s (.render audioBufferSize audioBuffer) ↔
      audioBufferSize ≤ s.aj.unreadLength ∨ s.aj.unreadLength = 0 := Iff.rfl
  by_cases hle : audioBufferSize.toNat ≤ (s.aj.stream q).length
  · obtain ⟨t, q', ht, hwaits, hiff⟩ := h.render_enough hsize audioBuffer hle
    exact ⟨t, q', ht, hwaits, hiff.trans (and_iff_left (hfinds.mpr (Or.inl (by omega)))).symm⟩
  · obtain ⟨t, ht, hwaits, hiff⟩ := h.render_short audioBuffer (not_le.mp hle)
    refine ⟨t, [], ht, hwaits, ?_⟩
    rw [hiff, hfinds, or_iff_right (by omega), ← hunread, List.length_eq_zero_iff]

/-- **One step.** -/
theorem RenderRun.Waits.step (h : s.Waits q) {e : RenderEvent τ}
    (hgiven : StampsIncreasing s e ∧ KeepsClear s e) :
    ∃ t, renderStep s e = some t ∧ (∃ q', t.Waits q') ∧
      (t.Conserves ↔ s.Conserves ∧ FindsEnough s e) := by
  obtain ⟨hinc, hclear⟩ := hgiven
  cases e with
  | put bs time =>
      obtain ⟨q', hwaits, hiff⟩ := h.put hinc hclear
      exact ⟨_, rfl, ⟨q', hwaits⟩, hiff.trans (and_iff_left trivial).symm⟩
  | render audioBufferSize audioBuffer =>
      obtain ⟨t, q', ht, hwaits, hiff⟩ := h.render hinc audioBuffer
      exact ⟨t, ht, ⟨q', hwaits⟩, hiff⟩

/-- **Nothing is lost exactly while every callback finds enough, or nothing at all**, over every
run of callbacks and of packets with increasing stamps that keep clear of each other. -/
theorem render_conserves_iff (csize : ℕ) (m : Malloced τ) (es : List (RenderEvent τ))
    (hmeet : Runs.StepsMeet renderStep (fun s e => StampsIncreasing s e ∧ KeepsClear s e)
      (RenderRun.start csize m) es) :
    ∃ t, Runs.run renderStep (RenderRun.start csize m) es = some t ∧
      (t.Conserves ↔ Runs.StepsMeet renderStep FindsEnough (RenderRun.start csize m) es) := by
  obtain ⟨t, ht, hiff⟩ := Runs.run_monitor_iff_of_stepsMeet renderStep
    (B := RenderRun.Conserves) (I := fun s => ∃ q, s.Waits q)
    (fun _ _ ⟨_, hq⟩ hgiven => hq.step hgiven) ⟨[], RenderRun.waits_start csize m⟩ hmeet
  have hstart : (RenderRun.start csize m).Conserves :=
    (RenderRun.waits_start csize m).conserves_iff.mpr rfl
  exact ⟨t, ht, hiff.trans (and_iff_right hstart)⟩

end Run

/-- Two packets of which the device takes one and a half, and the rest after a third. -/
theorem render_conserves_halves :
    let start : RenderRun ℤ := .start 320 ⟨fun _ => 0, fun _ => 0, fun _ => 0⟩
    let es : List (RenderEvent ℤ) := [.put [1, 2] 1, .put [3, 4] 2, .render 3 fun _ => 0,
      .put [5, 6] 3, .render 3 fun _ => 0, .render 2 fun _ => 0]
    ∃ t, Runs.run renderStep start es = some t ∧ t.Conserves := by
  intro start es
  obtain ⟨t, ht, hiff⟩ := render_conserves_iff 320 ⟨fun _ => 0, fun _ => 0, fun _ => 0⟩
    [.put [1, 2] 1, .put [3, 4] (2 : ℤ), .render 3 fun _ => 0,
      .put [5, 6] 3, .render 3 fun _ => 0, .render 2 fun _ => 0] (by decide +kernel)
  exact ⟨t, ht, hiff.mpr (by decide +kernel)⟩

/-- The device asks for four bytes when there are two: it gets silence, and when the next two
come, there are only these. -/
theorem render_loses_underrun :
    let start : RenderRun ℤ := .start 320 ⟨fun _ => 0, fun _ => 0, fun _ => 0⟩
    let es : List (RenderEvent ℤ) := [.put [1, 2] 1, .render 4 fun _ => 0, .put [3, 4] 2]
    Runs.StepsMeet renderStep (fun s e => StampsIncreasing s e ∧ KeepsClear s e) start es ∧
      ∃ t, Runs.run renderStep start es = some t ∧ t.aj.unreadLength = 2 ∧ ¬ t.Conserves := by
  intro start es
  have hrun : ((Runs.run renderStep start es).map fun t =>
      (t.handed, t.packets, t.aj.unreadLength)) = some ([], [[1, 2], [3, 4]], 2) := by
    decide +kernel
  obtain ⟨t, ht, heq⟩ := Option.map_eq_some_iff.mp hrun
  obtain ⟨hhanded, hpackets, hunread⟩ : t.handed = [] ∧ t.packets = [[1, 2], [3, 4]] ∧
      t.aj.unreadLength = 2 := by
    simpa only [Prod.mk.injEq] using heq
  refine ⟨by decide +kernel, t, ht, hunread, ?_⟩
  rintro ⟨q, hlines, hbytes⟩
  have hlen := congrArg List.length hbytes
  rw [hhanded, hpackets, List.flatten_nil, List.nil_append, hlines.length_stream, hunread] at hlen
  exact absurd hlen (by decide)
