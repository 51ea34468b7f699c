/-
# The keep-alive timer

Every five seconds `ka_handler` compares the clock with `last_read` of the receive context, the
second at which the latest packet was accepted, and raises `MEDIA_KA_FAIL` when it is 15
seconds old.  That hangs up the call.

Before the first packet is accepted `last_read` is 0, so a call whose peer sends nothing within
five seconds fails at the first tick.  And `ka_handler` reads through `rtp_recv_ctx`, while the
Speex context has no `fmt` before its `last_read`: with 64-bit pointers it reads the padding
behind `last_read`, which keeps what `malloc` found (`word_speex_of_lp64`), and with 32-bit
pointers the buffer address that the Speex library put into `dec_bits` (`word_speex_of_ilp32`).

So only silent calls are hung up as long as, for PCMU and Opus, some packet was accepted before
a tick that is less than 15 seconds after the start, and, for Speex, what `malloc` found, or the
address, happens to be a recent second whenever the call is not silent
(`always_justified_iff`).
-/
import Tcsip.CLayout
import Tcsip.MediaFlow

open CLayout Runs

/-! ## The receive contexts -/

/-- The size of a pointer. -/
inductive Abi where
  | lp64
  | ilp32
  deriving DecidableEq

/-- A pointer is as large as it is aligned. -/
def Abi.ptr : Abi → CType
  | .lp64 => ⟨8, 8⟩
  | .ilp32 => ⟨4, 4⟩

/-- The fields of the receive contexts. -/
inductive RecvField where
  | magic
  | srtpIn
  | playJitter
  | fmt
  | lastRead
  | frameSize
  | decBits
  | decState
  | dec
  deriving DecidableEq

/-- `SpeexBits`: the buffer, seven numbers, and a reserved pointer. -/
def speexBits (abi : Abi) : CType :=
  structType ((0, abi.ptr) :: ((List.range 7).map fun i => (i + 1, CType.int)) ++ [(8, abi.ptr)])

/-- `rtp_recv_ctx`. -/
def rtpRecvCtx (abi : Abi) : Layout RecvField :=
  [(.magic, .int), (.srtpIn, abi.ptr), (.playJitter, abi.ptr), (.fmt, .int), (.lastRead, .int)]

/-- `rtp_recv_speex_ctx`. -/
def rtpRecvSpeexCtx (abi : Abi) : Layout RecvField :=
  [(.magic, .int), (.srtpIn, abi.ptr), (.playJitter, abi.ptr), (.lastRead, .int),
    (.decBits, speexBits abi), (.decState, abi.ptr), (.frameSize, .int)]

/-- `rtp_recv_pcmu_ctx`. -/
def rtpRecvPcmuCtx (abi : Abi) : Layout RecvField :=
  [(.magic, .int), (.srtpIn, abi.ptr), (.playJitter, abi.ptr), (.fmt, .int), (.lastRead, .int),
    (.frameSize, .int)]

/-- `rtp_recv_opus_ctx`. -/
def rtpRecvOpusCtx (abi : Abi) : Layout RecvField :=
  [(.magic, .int), (.srtpIn, abi.ptr), (.playJitter, abi.ptr), (.fmt, .int), (.lastRead, .int),
    (.dec, abi.ptr)]

/-- Where each context has its `last_read`, and where `ka_handler` looks for it. -/
example : field (rtpRecvCtx .lp64) .lastRead = some (28, 4) ∧
    field (rtpRecvSpeexCtx .lp64) .lastRead = some (24, 4) ∧
    field (rtpRecvSpeexCtx .lp64) .decBits = some (32, 48) ∧
    field (rtpRecvCtx .ilp32) .lastRead = some (16, 4) ∧
    field (rtpRecvSpeexCtx .ilp32) .decBits = some (16, 36) := by decide

section contexts

variable (abi : Abi)

/-- What the libraries hand out, word by word: the pointers, and the contents of `dec_bits`. -/
abbrev Handles := RecvField → Words

/-- `rtp_recv_speex_init`. -/
def rtpRecvSpeexInit (h : Handles) (mem : Words) : Words :=
  let l := rtpRecvSpeexCtx abi
  let mem := store l .srtpIn (fun _ => 0) mem
  let mem := store l .playJitter (fun _ => 0) mem
  let mem := store l .decState (h .decState) mem
  let mem := store l .decBits (h .decBits) mem
  let mem := store l .frameSize (h .frameSize) mem
  let mem := store l .lastRead (fun _ => 0) mem
  store l .magic (fun _ => 0x1ab1D00F) mem

/-- `rtp_recv_pcmu_init`. -/
def rtpRecvPcmuInit (mem : Words) : Words :=
  let l := rtpRecvPcmuCtx abi
  let mem := store l .srtpIn (fun _ => 0) mem
  let mem := store l .playJitter (fun _ => 0) mem
  let mem := store l .frameSize (fun _ => 320) mem
  let mem := store l .magic (fun _ => 0x1ab1D00F) mem
  let mem := store l .fmt (fun _ => MediaFmt.code .pcmu) mem
  store l .lastRead (fun _ => 0) mem

/-- `rtp_recv_opus_init`. -/
def rtpRecvOpusInit (h : Handles) (mem : Words) : Words :=
  let l := rtpRecvOpusCtx abi
  let mem := store l .srtpIn (fun _ => 0) mem
  let mem := store l .playJitter (fun _ => 0) mem
  let mem := store l .fmt (fun _ => MediaFmt.code .opus) mem
  let mem := store l .lastRead (fun _ => 0) mem
  let mem := store l .dec (h .dec) mem
  store l .magic (fun _ => 0x1ab1D00F) mem

/-- `rtp_recv_init`; `mem` is what `malloc` returns. -/
def rtpRecvInit (fmt : MediaFmt) (h : Handles) (mem : Words) : Words :=
  match fmt with
  | .speex => rtpRecvSpeexInit abi h mem
  | .pcmu => rtpRecvPcmuInit abi mem
  | .opus => rtpRecvOpusInit abi h mem

/-- A packet: the second it comes, the result of `rtp_un`, and what the Speex library makes of
`dec_bits`. -/
structure RtpPacket where
  sec : ℤ
  len : ℤ
  decBits : Words

/-- The value as an `int`. -/
def toInt (x : ℤ) : ℤ := x.bmod (2 ^ 32)

/-- `rtp_recv_speex`: the context after it, and whether the packet is accepted. -/
def rtpRecvSpeex (p : RtpPacket) (mem : Words) : Words × Bool :=
  if p.len < 0 then (mem, false)
  else
    let mem := store (rtpRecvSpeexCtx abi) .decBits p.decBits mem
    (store (rtpRecvSpeexCtx abi) .lastRead (fun _ => toInt p.sec) mem, true)

/-- `rtp_recv_pcmu`; `csize` is the size of a slot of the jitter buffer. -/
def rtpRecvPcmu (csize : ℤ) (p : RtpPacket) (mem : Words) : Words × Bool :=
  if p.len < 0 then (mem, false)
  else if p.len > csize then (mem, false)
  else (store (rtpRecvPcmuCtx abi) .lastRead (fun _ => toInt p.sec) mem, true)

/-- `rtp_recv_opus`. -/
def rtpRecvOpus (p : RtpPacket) (mem : Words) : Words × Bool :=
  if p.len < 0 then (mem, false)
  else (store (rtpRecvOpusCtx abi) .lastRead (fun _ => toInt p.sec) mem, true)

/-- `rtp_recv_io` with the handler of the codec. -/
def rtpRecvIo (fmt : MediaFmt) (csize : ℤ) (p : RtpPacket) (mem : Words) : Words × Bool :=
  match fmt with
  | .speex => rtpRecvSpeex abi p mem
  | .pcmu => rtpRecvPcmu abi csize p mem
  | .opus => rtpRecvOpus abi p mem

/-- What `ka_handler` raises. -/
inductive KaEvent where
  | warn
  | fail
  deriving DecidableEq

/-- What `ka_handler` reads as `last_read`, whatever the context is. -/
def kaWord (mem : Words) : ℤ := (load (rtpRecvCtx abi) .lastRead mem).getD 0

/-- `ka_handler` at the second `sec`. -/
def kaHandler (sec : ℤ) (mem : Words) : Option KaEvent :=
  let delt := toInt (toInt sec - kaWord abi mem)
  if delt < 5 then none else if delt < 15 then some .warn else some .fail

end contexts

/-! ## Runs -/

/-- Running media: the receive context, the second of the start and of what came last, the
ticks so far, the second of the latest accepted packet, and what the latest tick raised if
nothing came after it.  Beside it stands what others have put where `ka_handler` looks into a
Speex context: `padding` is what `malloc` found in the four bytes before `dec_bits` with 64-bit
pointers, and `chars` the latest address that the Speex library has given the buffer of
`dec_bits` with 32-bit ones. -/
structure KaRun where
  mem : Words
  start : ℤ
  now : ℤ
  ticks : ℕ
  accepted : Option ℤ
  raised : Option KaEvent
  padding : ℤ
  chars : ℤ

/-- A packet, or a tick of the timer. -/
inductive KaOp where
  | packet (p : RtpPacket)
  | tick

/-- The second of the next tick. -/
def KaRun.nextTick (s : KaRun) : ℤ := s.start + 5 * (s.ticks + 1)

/-- The word that is no second: what `malloc` found, or the address of the buffer. -/
def KaRun.speexWord (abi : Abi) (s : KaRun) : ℤ :=
  match abi with
  | .lp64 => s.padding
  | .ilp32 => s.chars

/-- On a clock of 32 bits the word is a second later than `t - 15`, and at most half a round
ahead. -/
def WordRecent (word t : ℤ) : Prop := ∃ a, a ≡ word [ZMOD 2 ^ 32] ∧ t - 15 < a ∧ a ≤ t + 2 ^ 31

/-- Media were started at or before `t - 15`, and no packet was accepted since. -/
def KaRun.SilentAt (s : KaRun) (t : ℤ) : Prop := s.start ≤ t - 15 ∧ ∀ a ∈ s.accepted, a ≤ t - 15

/-- `MEDIA_KA_FAIL` is raised for silent calls only. -/
def FailJustified (s : KaRun) : Prop := s.raised = some .fail → s.SilentAt s.now

section runs

variable (abi : Abi) (fmt : MediaFmt) (csize : ℤ)

/-- `tcmedia_start` at the second `sec`: a new context, with the session and the jitter buffer
written through `rtp_recv_ctx`. -/
def KaRun.begin (h : Handles) (mem : Words) (sec : ℤ) : KaRun :=
  let ctx := rtpRecvInit abi fmt h mem
  let ctx := store (rtpRecvCtx abi) .srtpIn (h .srtpIn) ctx
  { mem := store (rtpRecvCtx abi) .playJitter (h .playJitter) ctx
    start := sec
    now := sec
    ticks := 0
    accepted := none
    raised := none
    padding := mem 28
    chars := h .decBits 16 }

/-- Packets come in the order of time, and none after a tick that was due before it. -/
def kaStep (s : KaRun) : KaOp → Option KaRun
  | .packet p =>
    if s.now ≤ p.sec ∧ p.sec ≤ s.nextTick then
      let next := rtpRecvIo abi fmt csize p s.mem
      some { s with
        mem := next.1
        now := p.sec
        accepted := if next.2 then some p.sec else s.accepted
        raised := none
        chars := if next.2 then p.decBits 16 else s.chars }
    else none
  | .tick => some { s with
      now := s.nextTick
      ticks := s.ticks + 1
      raised := kaHandler abi s.nextTick s.mem }

/-- A tick that finds a packet accepted before, or comes 15 seconds after the start or later,
or in the first seconds of a round of the clock.  For Speex the call is silent, or what `malloc`
found, or the address of the buffer, happens to be a recent second. -/
def HangsUpSilent (s : KaRun) : KaOp → Prop
  | .packet _ => True
  | .tick =>
    match fmt with
    | .speex => s.SilentAt s.nextTick ∨ WordRecent (s.speexWord abi) s.nextTick
    | .pcmu | .opus =>
      s.accepted ≠ none ∨ s.start ≤ s.nextTick - 15 ∨ toInt s.nextTick < 15

/-! ### The word that is read -/

theorem kaWord_store_of_apart {l : Layout RecvField} {f : RecvField}
    (h : Apart (rtpRecvCtx abi) .lastRead l f) (content mem : Words) :
    kaWord abi (store l f content mem) = kaWord abi mem := by
  unfold kaWord
  rw [load_store_of_apart h]

/-- A context that begins like `rtp_recv_ctx`. -/
theorem kaWord_store_lastRead {l : Layout RecvField}
    (h : field l .lastRead = field (rtpRecvCtx abi) .lastRead) (v : ℤ) (mem : Words) :
    kaWord abi (store l .lastRead (fun _ => v) mem) = v := by
  cases abi with
  | lp64 =>
      have hctx : field (rtpRecvCtx .lp64) .lastRead = some (28, 4) := by decide
      unfold kaWord
      rw [load_store_of_eq hctx (h.trans hctx) (by decide), Option.getD_some]
  | ilp32 =>
      have hctx : field (rtpRecvCtx .ilp32) .lastRead = some (16, 4) := by decide
      unfold kaWord
      rw [load_store_of_eq hctx (h.trans hctx) (by decide), Option.getD_some]

theorem field_lastRead_pcmu :
    field (rtpRecvPcmuCtx abi) .lastRead = field (rtpRecvCtx abi) .lastRead := by
  cases abi <;> decide

theorem field_lastRead_opus :
    field (rtpRecvOpusCtx abi) .lastRead = field (rtpRecvCtx abi) .lastRead := by
  cases abi <;> decide

/-- PCMU and Opus: 0 at first. -/
theorem kaWord_begin (hfmt : fmt ≠ .speex) (h : Handles) (mem : Words) (sec : ℤ) :
    kaWord abi (KaRun.begin abi fmt h mem sec).mem = 0 := by
  unfold KaRun.begin
  dsimp only
  rw [kaWord_store_of_apart abi (by cases abi <;> decide),
    kaWord_store_of_apart abi (by cases abi <;> decide)]
  cases fmt with
  | speex => exact absurd rfl hfmt
  | pcmu => exact kaWord_store_lastRead abi (field_lastRead_pcmu abi) 0 _
  | opus =>
      unfold rtpRecvInit rtpRecvOpusInit
      dsimp only
      rw [kaWord_store_of_apart abi (by cases abi <;> decide),
        kaWord_store_of_apart abi (by cases abi <;> decide)]
      exact kaWord_store_lastRead abi (field_lastRead_opus abi) 0 _

/-- PCMU and Opus: an accepted packet leaves its second. -/
theorem kaWord_rtpRecvIo (hfmt : fmt ≠ .speex) (p : RtpPacket) (mem : Words) :
    kaWord abi (rtpRecvIo abi fmt csize p mem).1 =
      if (rtpRecvIo abi fmt csize p mem).2 then toInt p.sec else kaWord abi mem := by
  cases fmt with
  | speex => exact absurd rfl hfmt
  | pcmu =>
      unfold rtpRecvIo rtpRecvPcmu
      dsimp only
      by_cases hneg : p.len < 0
      · rw [if_pos hneg]
        rfl
      rw [if_neg hneg]
      by_cases hbig : p.len > csize
      · rw [if_pos hbig]
        rfl
      · rw [if_neg hbig]
        exact kaWord_store_lastRead abi (field_lastRead_pcmu abi) _ _
  | opus =>
      unfold rtpRecvIo rtpRecvOpus
      dsimp only
      by_cases hneg : p.len < 0
      · rw [if_pos hneg]
        rfl
      · rw [if_neg hneg]
        exact kaWord_store_lastRead abi (field_lastRead_opus abi) _ _

/-- With 32-bit pointers the word is the first of `dec_bits`. -/
theorem kaWord_store_decBits (content ctx : Words) :
    kaWord .ilp32 (store (rtpRecvSpeexCtx .ilp32) .decBits content ctx) = content 16 := by
  have hctx : field (rtpRecvCtx .ilp32) .lastRead = some (16, 4) := by decide
  have hbits : field (rtpRecvSpeexCtx .ilp32) .decBits = some (16, 36) := by decide
  unfold kaWord load store
  rw [hctx, hbits]
  rfl

/-- **Speex with 64-bit pointers**: the word is padding, and no packet changes it. -/
theorem word_speex_of_lp64 (p : RtpPacket) (mem : Words) :
    kaWord .lp64 (rtpRecvSpeex .lp64 p mem).1 = kaWord .lp64 mem := by
  unfold rtpRecvSpeex
  split_ifs
  · rfl
  · dsimp only
    rw [kaWord_store_of_apart .lp64 (by decide), kaWord_store_of_apart .lp64 (by decide)]

/-- **Speex with 32-bit pointers**: the word is the address of the buffer of `dec_bits`, which
the library writes with each packet that `rtp_un` lets through. -/
theorem word_speex_of_ilp32 (p : RtpPacket) (mem : Words) :
    kaWord .ilp32 (rtpRecvSpeex .ilp32 p mem).1 =
      if p.len < 0 then kaWord .ilp32 mem else p.decBits 16 := by
  unfold rtpRecvSpeex
  split_ifs
  · rfl
  · dsimp only
    rw [kaWord_store_of_apart .ilp32 (by decide), kaWord_store_decBits]

/-- The word of a new Speex context. -/
theorem kaWord_begin_speex (h : Handles) (mem : Words) (sec : ℤ) :
    kaWord abi (KaRun.begin abi .speex h mem sec).mem =
      (KaRun.begin abi .speex h mem sec).speexWord abi := by
  unfold KaRun.speexWord KaRun.begin rtpRecvInit rtpRecvSpeexInit
  cases abi with
  | lp64 =>
      dsimp only
      repeat rw [kaWord_store_of_apart .lp64 (by decide)]
      have hctx : field (rtpRecvCtx .lp64) .lastRead = some (28, 4) := by decide
      unfold kaWord load
      rw [hctx]
      rfl
  | ilp32 =>
      dsimp only
      repeat rw [kaWord_store_of_apart .ilp32 (by decide)]
      exact kaWord_store_decBits _ _

/-- The word of a Speex context after a packet. -/
theorem kaWord_packet_speex {s t : KaRun} {p : RtpPacket}
    (hword : kaWord abi s.mem = s.speexWord abi)
    (hs : kaStep abi .speex csize s (.packet p) = some t) :
    kaWord abi t.mem = t.speexWord abi := by
  obtain ⟨-, ht⟩ := Option.ite_none_right_eq_some.mp hs
  obtain rfl := Option.some.inj ht
  cases abi with
  | lp64 => exact (word_speex_of_lp64 p s.mem).trans hword
  | ilp32 =>
      refine (word_speex_of_ilp32 p s.mem).trans ?_
      rw [hword]
      unfold KaRun.speexWord rtpRecvIo rtpRecvSpeex
      by_cases hneg : p.len < 0 <;> simp [hneg]

/-! ### The verdict -/

theorem kaHandler_eq_fail {sec : ℤ} {mem : Words} :
    kaHandler abi sec mem = some .fail ↔ 15 ≤ toInt (toInt sec - kaWord abi mem) := by
  unfold kaHandler
  dsimp only
  split_ifs with h5 h15
  · exact iff_of_false (by simp) (by omega)
  · exact iff_of_false (by simp) (by omega)
  · exact iff_of_true rfl (by omega)

/-- The age is below 15 when the word is recent. -/
theorem wordRecent_iff (word t : ℤ) : WordRecent word t ↔ toInt (toInt t - word) < 15 := by
  have hage : toInt (toInt t - word) = (t - word).bmod (2 ^ 32) := Int.bmod_sub_bmod
  rw [hage]
  have hlow : -(2 ^ 31) ≤ (t - word).bmod (2 ^ 32) := Int.le_bmod (by decide)
  have hmod : (t - word).bmod (2 ^ 32) ≡ t - word [ZMOD 2 ^ 32] := Int.bmod_emod
  constructor
  · rintro ⟨a, ha, hlt, hle⟩
    have hsame : (t - a).bmod (2 ^ 32) = (t - word).bmod (2 ^ 32) := by
      rw [← Int.emod_bmod, ← Int.emod_bmod (t - word)]
      exact congrArg (fun x : ℤ => x.bmod (2 ^ 32)) (ha.sub_left t)
    rw [← hsame, Int.bmod_eq_of_le (by omega) (by omega)]
    omega
  · intro hlt
    refine ⟨t - (t - word).bmod (2 ^ 32), ?_, by omega, by omega⟩
    calc t - (t - word).bmod (2 ^ 32) ≡ t - (t - word) [ZMOD 2 ^ 32] := hmod.sub_left t
      _ = word := by omega

/-- The age of an earlier second is not overrated, also when the clock went round. -/
theorem age_of_le {t a : ℤ} (h : a ≤ t) (hage : 15 ≤ toInt (toInt t - toInt a)) :
    a ≤ t - 15 := by
  unfold toInt at hage
  rw [Int.bmod_def, Int.bmod_def, Int.bmod_def] at hage
  omega

/-- The invariant of a run. -/
structure KaRun.Clocked (s : KaRun) : Prop where
  now : s.start ≤ s.now
  next : s.now ≤ s.nextTick
  accepted : ∀ a ∈ s.accepted, s.start ≤ a ∧ a ≤ s.now
  word : fmt ≠ .speex → kaWord abi s.mem = toInt (s.accepted.getD 0)
  speexWord : fmt = .speex → kaWord abi s.mem = s.speexWord abi

theorem clocked_begin (h : Handles) (mem : Words) (sec : ℤ) :
    (KaRun.begin abi fmt h mem sec).Clocked abi fmt where
  now := le_rfl
  next := by
    unfold KaRun.nextTick KaRun.begin
    dsimp only
    omega
  accepted a ha := absurd ha (Option.not_mem_none a)
  word hfmt := kaWord_begin abi fmt hfmt h mem sec
  speexWord hfmt := hfmt ▸ kaWord_begin_speex abi h mem sec

theorem KaRun.Clocked.step {s t : KaRun} {op : KaOp} (hI : s.Clocked abi fmt)
    (hs : kaStep abi fmt csize s op = some t) : t.Clocked abi fmt := by
  cases op with
  | packet p =>
      obtain ⟨⟨hnow, hnext⟩, ht⟩ := Option.ite_none_right_eq_some.mp hs
      obtain rfl := Option.some.inj ht
      refine ⟨hI.now.trans hnow, hnext, fun a ha => ?_, fun hfmt => ?_, fun hfmt => ?_⟩
      · dsimp only at ha
        split_ifs at ha
        · obtain rfl := Option.some.inj ha
          exact ⟨hI.now.trans hnow, le_rfl⟩
        · exact ⟨(hI.accepted a ha).1, (hI.accepted a ha).2.trans hnow⟩
      · dsimp only
        rw [kaWord_rtpRecvIo abi fmt csize hfmt]
        split_ifs
        · rfl
        · exact hI.word hfmt
      · subst hfmt
        exact kaWord_packet_speex abi csize (hI.speexWord rfl) hs
  | tick =>
      obtain rfl := Option.some.inj hs
      refine ⟨hI.now.trans hI.next, ?_, fun a ha => ?_, hI.word, hI.speexWord⟩
      · unfold KaRun.nextTick
        push_cast
        omega
      · exact ⟨(hI.accepted a ha).1, (hI.accepted a ha).2.trans hI.next⟩

/-- **A tick** hangs up a silent call, or none. -/
theorem failJustified_tick_iff {s t : KaRun} (hI : s.Clocked abi fmt)
    (hs : kaStep abi fmt csize s .tick = some t) :
    FailJustified t ↔ HangsUpSilent abi fmt s .tick := by
  obtain rfl := Option.some.inj hs
  have hverdict : FailJustified { s with
        now := s.nextTick
        ticks := s.ticks + 1
        raised := kaHandler abi s.nextTick s.mem } ↔
      (15 ≤ toInt (toInt s.nextTick - kaWord abi s.mem) → s.SilentAt s.nextTick) := by
    unfold FailJustified
    rw [kaHandler_eq_fail]
    rfl
  rw [hverdict]
  by_cases hfmt : fmt = .speex
  · subst hfmt
    unfold HangsUpSilent
    dsimp only
    rw [wordRecent_iff, ← hI.speexWord rfl, ← not_lt, imp_iff_not_or, not_not, or_comm]
  have hword := hI.word hfmt
  have hcond : HangsUpSilent abi fmt s .tick ↔
      s.accepted ≠ none ∨ s.start ≤ s.nextTick - 15 ∨ toInt s.nextTick < 15 := by
    cases fmt with
    | speex => exact absurd rfl hfmt
    | pcmu | opus => rfl
  rw [hcond, hword]
  unfold KaRun.SilentAt
  cases hacc : s.accepted with
  | none =>
      -- the age is that of the second 0
      have hage : toInt (toInt s.nextTick - toInt 0) = toInt s.nextTick := by
        unfold toInt
        simp
      rw [Option.getD_none, hage]
      simp only [Option.not_mem_none, false_implies, implies_true, and_true, ne_eq,
        not_true_eq_false, false_or]
      omega
  | some a =>
      obtain ⟨hstart, hnow⟩ := hI.accepted a hacc
      refine iff_of_true (fun hage => ?_) (Or.inl (Option.some_ne_none a))
      have hold := age_of_le (hnow.trans hI.next) hage
      refine ⟨hstart.trans hold, fun b hb => ?_⟩
      obtain rfl := Option.some.inj hb
      exact hold

/-- **Keep-alive, exactly.**  In every run of a start, packets and ticks `MEDIA_KA_FAIL` is
raised for silent calls only, if and only if every tick meets the condition. -/
theorem always_justified_iff (h : Handles) (mem : Words) (sec : ℤ) (ops : List KaOp) :
    Always (kaStep abi fmt csize) FailJustified (KaRun.begin abi fmt h mem sec) ops ↔
      StepsMeet (kaStep abi fmt csize) (HangsUpSilent abi fmt)
        (KaRun.begin abi fmt h mem sec) ops := by
  refine always_iff_stepsMeet _ (I := fun s => s.Clocked abi fmt)
    (fun s op t hI _ hs => hI.step abi fmt csize hs) ?_ ?_ (clocked_begin abi fmt h mem sec)
    (fun hfail => absurd hfail (by simp [KaRun.begin]))
  · intro s op t hI _ hs
    cases op with
    | packet p =>
        obtain ⟨-, ht⟩ := Option.ite_none_right_eq_some.mp hs
        obtain rfl := Option.some.inj ht
        exact iff_of_true (fun hfail => absurd hfail (by simp)) trivial
    | tick => exact failJustified_tick_iff abi fmt csize hI hs
  · intro s op _ _ hs
    cases op with
    | packet p => trivial
    | tick => exact absurd hs (Option.some_ne_none _)

end runs

/-- A PCMU call in which nothing was received yet fails at the first tick, five seconds after
the start. -/
theorem fails_before_first_packet :
    ∃ t, run (kaStep .lp64 .pcmu 320)
        (KaRun.begin .lp64 .pcmu (fun _ _ => 0) (fun _ => 0) 1400000000) [.tick] = some t ∧
      t.raised = some .fail ∧ t.start = t.now - 5 ∧ ¬ FailJustified t := by
  refine ⟨_, rfl, ?_, by decide, fun hjust => ?_⟩
  · decide +kernel
  · have hsilent := hjust (by decide +kernel)
    exact absurd hsilent.1 (by decide)
