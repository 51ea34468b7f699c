/-
# From one sound card to the other

The whole way of a sample when both ends use PCMU and ALSA: `alsa_rec` reads a block into the
record jitter, `rtp_send_pcmu` makes a packet of every 160 samples, the network delivers the
packets as it likes, `rtp_recv_pcmu` decodes them into the play jitter, and the handler of the
play jitter, `MyCallback`, hands everything to the sound card at once.

The packets that this program makes fill exactly one chunk of the callback.  So the play jitter
is empty between two packets, and what is played are the packets in the order in which they
arrive: the sequence numbers have no say, and a chunk that the sound card refuses with `-EPIPE`
leaves nothing behind.
-/
import Tcsip.Capture
import Tcsip.MuLaw
import Tcsip.Playback
import Tcsip.RtpIo
import Tcsip.Timestamps

namespace SoundPath

open Receivers RtpIo

/-! ## Samples and their bytes -/

/-- The samples of a sound card that takes `S16_LE`. -/
def samples : List Byte → List (BitVec 16)
  | lo :: hi :: bytes => BitVec.ofNat 16 (lo.val + 256 * hi.val) :: samples bytes
  | _ => []

theorem length_samples (bytes : List Byte) : (samples bytes).length = bytes.length / 2 := by
  induction bytes using samples.induct with
  | case1 lo hi bytes ih =>
      rw [samples, List.length_cons, ih, List.length_cons, List.length_cons]
      omega
  | case2 bytes h =>
      match bytes with
      | [] => rfl
      | [_] => simp only [samples, List.length_nil, List.length_singleton, Nat.reduceDiv]
      | lo :: hi :: bytes => exact absurd rfl (h lo hi bytes)

/-- Samples are cut where their bytes are. -/
theorem samples_append {bytes : List Byte} (more : List Byte) {n : ℕ}
    (h : bytes.length = 2 * n) : samples (bytes ++ more) = samples bytes ++ samples more := by
  induction n generalizing bytes with
  | zero =>
      obtain rfl := List.length_eq_zero_iff.mp h
      rfl
  | succ n ih =>
      match bytes, h with
      | lo :: hi :: bytes, h =>
        have hlen : bytes.length = 2 * n := by
          rw [List.length_cons, List.length_cons] at h
          omega
        rw [List.cons_append, List.cons_append, samples, samples, ih hlen, List.cons_append]

theorem samples_shortBytes (v : BitVec 16) (bytes : List Byte) :
    samples (shortBytes v ++ bytes) = v :: samples bytes := by
  have hv := v.isLt
  show BitVec.ofNat 16 (v.toNat % 256 + 256 * (v.toNat / 256 % 256)) :: samples bytes = _
  congr 1
  apply BitVec.eq_of_toNat_eq
  rw [BitVec.toNat_ofNat]
  omega

/-- **What the receiver's loop decodes** of what the sender's loop encodes. -/
theorem samples_pcmBytes_encodeLoop (xs : List (BitVec 16)) :
    samples (pcmBytes (encodeLoop xs)) = xs.map heard := by
  induction xs with
  | nil => rfl
  | cons x xs ih =>
      have hbyte : BitVec.ofNat 8 (BigEndian.byte (muLawEncode x).toNat).val = muLawEncode x := by
        apply BitVec.eq_of_toNat_eq
        have hlt := (muLawEncode x).isLt
        rw [BitVec.toNat_ofNat]
        show (muLawEncode x).toNat % 256 % 256 = (muLawEncode x).toNat
        omega
      have hcons : pcmBytes (encodeLoop (x :: xs)) =
          shortBytes (heard x) ++ pcmBytes (encodeLoop xs) := by
        show shortBytes (muLawDecode (BitVec.ofNat 8 _)) ++ _ = _
        rw [hbyte]
        rfl
      rw [hcons, samples_shortBytes, ih, List.map_cons]

/-- The `k`-th block of 160 samples. -/
def block (xs : List (BitVec 16)) (k : ℕ) : List (BitVec 16) := (xs.drop (160 * k)).take 160

/-- **Frames are blocks of samples**: the `k`-th frame of 320 bytes has the `k`-th block. -/
theorem block_of_frames {frames : List (List Byte)} {rest whole : List Byte}
    (hframes : ∀ frame ∈ frames, frame.length = 320) (h : frames.flatten ++ rest = whole)
    {k : ℕ} {frame : List Byte} (hk : frames[k]? = some frame) :
    samples frame = block (samples whole) k := by
  induction frames generalizing whole k with
  | nil => exact absurd hk (by simp)
  | cons first frames ih =>
      have hfirst : first.length = 320 := hframes first List.mem_cons_self
      have hlen : (samples first).length = 160 := by rw [length_samples, hfirst]
      have hwhole : samples whole = samples first ++ samples (frames.flatten ++ rest) := by
        rw [← h, List.flatten_cons, List.append_assoc]
        exact samples_append (n := 160) _ hfirst
      cases k with
      | zero =>
          obtain rfl := Option.some.inj hk
          rw [hwhole, block, Nat.mul_zero, List.drop_zero, List.take_left' hlen]
      | succ k =>
          have hnext := ih (fun f hf => hframes f (List.mem_cons_of_mem _ hf)) rfl
            (by rw [← hk, List.getElem?_cons_succ])
          rw [hnext, hwhole, block, block, Nat.mul_succ, Nat.add_comm (160 * k) 160,
            ← List.drop_drop, List.drop_left' hlen]

/-! ## The sender -/

/-- What `rtp_send_pcmu` uses of its context, and what it handed to `udp_send`: the packets and
the datagrams that `rtp_p` made of them.  `seq` and `ssrc` are those of the RTP socket. -/
structure PcmuSender where
  srtpOut : Option Srtp
  pt : BitVec 7
  ssrc : BitVec 32
  seq : BitVec 16
  mb : Mbuf
  sent : List (Packet × List Byte)

theorem length_no_csrc : ([] : List (BitVec 32)).length ≤ 15 := Nat.zero_le _

theorem no_extension :
    ∀ e ∈ (none : Option (BitVec 16 × List (BitVec 32))), e.2.length < 2 ^ 16 :=
  fun _ he => absurd he (Option.not_mem_none _)

/-- The header that `rtp_encode` writes, from the front of the buffer on. -/
def rtpEncode (arg : PcmuSender) (ts : BitVec 32) : RtpHeader where
  pad := false
  m := false
  pt := arg.pt
  seq := arg.seq
  ts := ts
  ssrc := arg.ssrc
  csrc := []
  x := none
  cc_le := length_no_csrc
  len_lt := no_extension

/-- The rest of a round of `rtp_send_pcmu`, with the chunk and its stamp. -/
def sendFrame (cast : DoubleToInt) (arg : PcmuSender) (frame : List Byte × Option ℤ) :
    PcmuSender :=
  let payload := encodeLoop (samples frame.1)
  let hdr := rtpEncode arg (stampOf cast frame.2)
  let mb : Mbuf := ⟨Memory.write arg.mb.buf rtpHeaderSize payload, 0,
    frameSize.toNat / 2 + rtpHeaderSize⟩
  let mb := { mb with buf := Memory.write mb.buf mb.pos hdr.bytes }
  let mb := rtpP arg.srtpOut mb
  { arg with
    seq := arg.seq + 1
    mb := mb
    sent := arg.sent ++ [(⟨hdr, payload⟩, Memory.read mb.buf mb.pos (mbufGetLeft mb))] }

/-! ## The callback of the sound card -/

/-- `avail` of `MyCallback` -/
def avail : ℤ := 160

/-- The play jitter, and the chunks that were given to `snd_pcm_writei`, each with what it
returned. -/
structure Player (τ : Type*) where
  aj : Ajitter τ
  writes : List (List Byte × ℤ)

/-- A received datagram: the context of `srtp_unprotect` at that time, the buffer as `rtp_decode`
left it, `hdr->seq`, and the seconds of `gettimeofday`, if it does not fail. -/
structure Datagram where
  srtpIn : Option Srtp
  mb : Mbuf
  seq : BitVec 16
  now : Option ℤ

/-- Both ends of one direction of a call. -/
structure State (τ : Type*) where
  recorder : Recorder ℤ
  sender : PcmuSender
  recv : RtpRecv τ
  writes : List (List Byte × ℤ)

/-- The sound card is read, or a datagram arrives: the `k`-th one that was sent, or one that is
dropped. -/
inductive Event
  | capture (r : Readi ℤ)
  | deliver (k : ℕ) (d : Datagram)
  | reject (d : Datagram)

section Code

variable {τ : Type*} [LE τ] [DecidableLE τ]

/-- The loop of `MyCallback`, for at most `fuel` rounds.  `writei` are the answers of the sound
card; after `-EPIPE` it is prepared again, and the chunk is lost. -/
def myCallback (b : Build) (writei : ℕ → ℤ) : ℕ → Player τ → Option (Player τ)
  | 0, _ => none
  | fuel + 1, s =>
    match ajitterGetChunk b s.aj (avail * 2) none with
    | none => none
    | some (aj, _, none) => some { s with aj }
    | some (aj, _, some obuf) =>
      let ret := writei s.writes.length
      let s : Player τ := ⟨aj, s.writes ++ [(obuf, ret)]⟩
      if ret = epipe then some s else myCallback b writei fuel s

variable [Zero τ]

/-- `rtp_recv_pcmu`, with the call of the handler in `ajitter_put_done`. -/
def recvPcmu (b : Build) (stamp : BitVec 16 → τ) (writei : ℕ → ℤ) (s : State τ) (d : Datagram) :
    Option (State τ) :=
  let un := rtpUn d.srtpIn d.mb
  let ibuf := Memory.read un.mb.buf un.mb.pos un.len.toNat
  let payload := if un.len < 0 then none else some ibuf
  let recv := Receivers.rtpRecvPcmu b stamp s.recv ⟨d.seq, payload, d.now⟩
  if un.len < 0 ∨ s.recv.playJitter.csize < ibuf.length then some { s with recv }
  else
    (myCallback b writei (drainFuel recv.playJitter) ⟨recv.playJitter, s.writes⟩).map fun p =>
      { s with recv := { recv with playJitter := p.aj }, writes := p.writes }

/-- A step of either end. -/
def step (cast : DoubleToInt) (b : Build) (stamp : BitVec 16 → τ) (writei : ℕ → ℤ)
    (s : State τ) : Event → Option (State τ)
  | .capture r =>
    (alsaRec b s.recorder r).map fun recorder =>
      { s with
        recorder := recorder
        sender := (recorder.frames.drop s.recorder.frames.length).foldl (sendFrame cast) s.sender }
  | .deliver _ d => recvPcmu b stamp writei s d
  | .reject d => recvPcmu b stamp writei s d

end Code

/-! ## What the sender sends -/

section Sender

variable {cast : DoubleToInt} {arg : PcmuSender} {frame : List Byte × Option ℤ}

/-- The datagram is made of the packet; without a context, or if `srtp_protect` fails, it is the
packet. -/
def Datagrams (srtpOut : Option Srtp) (pq : Packet × List Byte) : Prop :=
  pq.1.hdr.Plain ∧ pq.2 = (srtpOut.bind fun srtp => srtp.protect pq.1.bytes).getD pq.1.bytes

theorem sendFrame_sent (h : frame.1.length = 320) :
    ∃ pq, (sendFrame cast arg frame).sent = arg.sent ++ [pq] ∧ Datagrams arg.srtpOut pq ∧
      pq.1.payload = encodeLoop (samples frame.1) := by
  refine ⟨_, rfl, ⟨⟨rfl, rfl⟩, ?_⟩, rfl⟩
  set hdr := rtpEncode arg (stampOf cast frame.2) with hhdr
  set payload := encodeLoop (samples frame.1) with hpayload
  have hhlen : hdr.bytes.length = rtpHeaderSize := hdr.length_bytes_eq_iff.mpr ⟨rfl, rfl⟩
  have hplen : payload.length = 160 := by
    rw [hpayload, encodeLoop, List.length_map, length_samples, h]
  -- the header and the payload lie one behind the other
  have hread : Memory.read (Memory.write (Memory.write arg.mb.buf rtpHeaderSize payload) 0
      hdr.bytes) 0 (160 + rtpHeaderSize) = hdr.bytes ++ payload := by
    rw [Nat.add_comm, Memory.read_add, Nat.zero_add]
    refine congrArg₂ (· ++ ·) ?_ ?_
    · rw [← hhlen]
      exact Memory.read_write_self _ _ _
    · rw [Memory.read_write_of_disjoint (Or.inr (by rw [hhlen, Nat.zero_add])), ← hplen]
      exact Memory.read_write_self _ _ _
  have hsize : frameSize.toNat / 2 = 160 := rfl
  dsimp only [mbufGetLeft]
  rw [hsize]
  cases hsrtp : arg.srtpOut with
  | none =>
      simp only [rtpP, Option.bind_none, Option.getD_none, Nat.sub_zero]
      exact hread
  | some srtp =>
      simp only [rtpP, mbufGetLeft, Nat.sub_zero, hread, Option.bind_some]
      have hbytes : (⟨hdr, payload⟩ : Packet).bytes = hdr.bytes ++ payload := rfl
      rw [hbytes]
      cases hprotect : srtp.protect (hdr.bytes ++ payload) with
      | none => simpa only [Nat.sub_zero, Option.getD_none] using hread
      | some out =>
          simp only [Nat.sub_zero, Option.getD_some]
          exact Memory.read_write_self _ _ _

/-- What was sent for the frames: a datagram for each. -/
structure Sends (srtpOut : Option Srtp) (frames : List (List Byte)) (arg : PcmuSender) : Prop where
  context : arg.srtpOut = srtpOut
  payloads : arg.sent.map (fun pq => pq.1.payload) = frames.map fun f => encodeLoop (samples f)
  datagrams : ∀ pq ∈ arg.sent, Datagrams srtpOut pq

theorem Sends.foldl (cast : DoubleToInt) {srtpOut : Option Srtp} {frames : List (List Byte)}
    (h : Sends srtpOut frames arg) (more : List (List Byte × Option ℤ))
    (hmore : ∀ f ∈ more.map Prod.fst, f.length = 320) :
    Sends srtpOut (frames ++ more.map Prod.fst) (more.foldl (sendFrame cast) arg) := by
  induction more generalizing arg frames with
  | nil =>
      rw [List.map_nil, List.append_nil]
      exact h
  | cons frame more ih =>
      obtain ⟨pq, hsent, hpq, hpayload⟩ := @sendFrame_sent cast arg _
        (hmore frame.1 (List.mem_cons_self))
      have hnext : Sends srtpOut (frames ++ [frame.1]) (sendFrame cast arg frame) := by
        refine ⟨h.context, ?_, fun x hx => ?_⟩
        · rw [hsent, List.map_append, List.map_append, h.payloads, List.map_singleton, hpayload,
            List.map_singleton]
        · rw [hsent] at hx
          rcases List.mem_append.mp hx with hx | hx
          · exact h.datagrams x hx
          · obtain rfl := List.mem_singleton.mp hx
            exact h.context ▸ hpq
      have hrest := ih hnext fun f hf => hmore f (List.mem_cons_of_mem _ hf)
      rw [List.append_assoc] at hrest
      exact hrest

end Sender

/-! ## What the callback plays -/

section Callback

variable {τ : Type*} [LE τ] [DecidableLE τ] {b : Build} {writei : ℕ → ℤ} {q : List (Fin AJD)}

/-- **The loop of the callback** gives full chunks to the sound card, in the order of the queue.
It ends when less than a chunk is left, or after a chunk that was refused. -/
theorem myCallback_spec {fuel : ℕ} {s : Player τ} (h : s.aj.Lines q) (h0 : 0 ≤ s.aj.outHave)
    (hsize : s.aj.outHave < 320) (hfuel : (s.aj.content q).length < fuel) :
    ∃ t q' chunks, myCallback b writei fuel s = some t ∧ t.aj.Lines q' ∧
      q' <:+ q ∧ (∀ i ∈ q', 0 < (s.aj.packet i).left → 0 < (t.aj.packet i).left) ∧
      0 ≤ t.aj.outHave ∧ t.aj.outHave < 320 ∧ t.aj.csize = s.aj.csize ∧
      t.writes.map Prod.fst = s.writes.map Prod.fst ++ chunks ∧
      (∀ chunk ∈ chunks, chunk.length = 320) ∧
      chunks.flatten ++ t.aj.content q' = s.aj.content q ∧
      ((t.aj.content q').length < 320 ∧ q' = [] ∨ chunks ≠ [] ∧ ∃ n, writei n = epipe) := by
  induction fuel generalizing s q with
  | zero => exact absurd hfuel (Nat.not_lt_zero _)
  | succ fuel ih =>
      obtain ⟨aj', ts', c, q', hget, hh, hsuffix, hpos, hcons, h0', hsize', htake, hnone⟩ :=
        h.getChunk b none h0 hsize
      have htake' : BlockQueue.take 320 (s.aj.content q) = (c, aj'.content q') := htake
      have hget' : ajitterGetChunk b s.aj (avail * 2) none = some (aj', ts', c) := hget
      rw [myCallback, hget']
      cases c with
      | none =>
          obtain ⟨hlt, hsame⟩ := BlockQueue.take_eq_none htake'
          refine ⟨_, q', [], rfl, hh, hsuffix, hpos, h0', hsize', hcons.csize,
            (List.append_nil _).symm, fun _ hc => absurd hc List.not_mem_nil, hsame,
            Or.inl ⟨?_, hnone rfl⟩⟩
          dsimp only
          rwa [hsame]
      | some obuf =>
          obtain ⟨hle, hflat, hlen⟩ := BlockQueue.take_eq_some htake'
          have hobuf : obuf.length = 320 := by
            have hsum := congrArg List.length hflat
            rw [List.length_append] at hsum
            omega
          dsimp only
          by_cases hret : writei s.writes.length = epipe
          · rw [if_pos hret]
            refine ⟨_, q', [obuf], rfl, hh, hsuffix, hpos, h0', hsize', hcons.csize,
              List.map_append, ?_, ?_, Or.inr ⟨List.cons_ne_nil _ _, _, hret⟩⟩
            · intro chunk hchunk
              obtain rfl := List.mem_singleton.mp hchunk
              exact hobuf
            · rw [List.flatten_singleton]
              exact hflat
          · rw [if_neg hret]
            obtain ⟨t, q'', chunks, ht, hht, hsuffix', hpos', ht0, htsize, htc, hwrites, hchunks,
              hrest, hend⟩ := ih (s := ⟨aj', s.writes ++ [(obuf, writei s.writes.length)]⟩) hh h0'
                hsize' (by dsimp only; omega)
            refine ⟨t, q'', obuf :: chunks, ht, hht, hsuffix'.trans hsuffix, fun i hi hleft => ?_,
              ht0, htsize, htc.trans hcons.csize, ?_, ?_, ?_,
              hend.imp_right fun hpipe => ⟨List.cons_ne_nil _ _, hpipe.2⟩⟩
            · exact hpos' i hi (hpos i (hsuffix'.subset hi) hleft)
            · rw [hwrites, List.map_append, List.append_assoc]
              rfl
            · intro chunk hchunk
              rcases List.mem_cons.mp hchunk with rfl | hchunk
              · exact hobuf
              · exact hchunks chunk hchunk
            · rw [List.flatten_cons, List.append_assoc, hrest]
              exact hflat

/-- Nothing waits in the play jitter. -/
structure Idle (aj : Ajitter τ) : Prop where
  used : aj.used = 0#32
  outHave : aj.outHave = 0
  csize : aj.csize = 320

/-- One chunk in the jitter is handed over, and nothing stays, whatever the sound card answers. -/
theorem myCallback_one {aj : Ajitter τ} (h : aj.Queues q) (h0 : aj.outHave = 0)
    (hcsize : aj.csize = 320) {chunk : List Byte} (hcontent : aj.content q = chunk)
    (hlen : chunk.length = 320) (writes : List (List Byte × ℤ)) :
    ∃ t, myCallback b writei (drainFuel aj) ⟨aj, writes⟩ = some t ∧ Idle t.aj ∧
      t.writes.map Prod.fst = writes.map Prod.fst ++ [chunk] := by
  obtain ⟨t, q', chunks, ht, hh, hsuffix, hpos, ht0, htsize, htc, hwrites, hchunks, hflat, hend⟩ :=
    @myCallback_spec τ _ _ b writei q _ ⟨aj, writes⟩ h.lines h0.ge
      (by rw [h0]; decide) h.lines.length_content_lt
  have hsum := congrArg List.length hflat
  rw [List.length_append, BlockQueue.length_flatten_of_forall hchunks, hcontent, hlen] at hsum
  have hne : chunks ≠ [] := by
    rcases hend with ⟨hlt, -⟩ | ⟨hne, -⟩
    · rintro rfl
      rw [List.length_nil, Nat.mul_zero, Nat.zero_add] at hsum
      omega
    · exact hne
  obtain ⟨first, rest, rfl⟩ := List.exists_cons_of_ne_nil hne
  rw [List.length_cons] at hsum
  -- the chunk was all there was
  have hrest : rest = [] := List.length_eq_zero_iff.mp (by omega)
  have hnil : t.aj.content q' = [] := List.length_eq_zero_iff.mp (by omega)
  subst hrest
  rw [List.flatten_singleton, hnil, List.append_nil, hcontent] at hflat
  subst hflat
  obtain ⟨hpart, hstream⟩ := List.append_eq_nil_iff.mp hnil
  refine ⟨t, ht, ⟨?_, ?_, htc.trans hcsize⟩, hwrites⟩
  · cases q' with
    | nil => exact Ajitter.lines_nil.mp hh
    | cons i q' =>
        have hleft := hpos i List.mem_cons_self (h.left i (hsuffix.subset List.mem_cons_self))
        have hunread := congrArg List.length (List.append_eq_nil_iff.mp hstream).1
        rw [Ajitter.length_unread, List.length_nil] at hunread
        omega
  · have hout := congrArg List.length hpart
    rw [Ajitter.length_partialChunk, List.length_nil] at hout
    omega

end Callback

/-! ## What a datagram brings -/

/-- The datagram is the one that was made of the packet, `rtp_decode` left the buffer behind its
header, and the context, if there is one, makes the packet of it again. -/
structure Accepts (pq : Packet × List Byte) (d : Datagram) : Prop where
  atPayload : ∃ a, AtPayload pq.1 pq.2 a d.mb
  plain : d.srtpIn = none → pq.2 = pq.1.bytes
  unprotect : ∀ srtp ∈ d.srtpIn, srtp.unprotect pq.2 = some pq.1.bytes

/-- What `rtp_recv_pcmu` finds in a datagram. -/
def Datagram.payload (d : Datagram) : Option (List Byte) :=
  let un := rtpUn d.srtpIn d.mb
  if un.len < 0 then none else some (Memory.read un.mb.buf un.mb.pos un.len.toNat)

/-- `rtp_un` refuses the datagram, or its payload is longer than a slot of the play jitter. -/
def Rejects (d : Datagram) : Prop := ∀ ibuf ∈ d.payload, 320 < ibuf.length

section Receiver

variable {pq : Packet × List Byte} {d : Datagram}

/-- The payload is found where `rtp_un` leaves the buffer. -/
theorem rtpUn_accepts (h : Accepts pq d) (hplain : pq.1.hdr.Plain) :
    (rtpUn d.srtpIn d.mb).len = pq.1.payload.length ∧
      Memory.read (rtpUn d.srtpIn d.mb).mb.buf (rtpUn d.srtpIn d.mb).mb.pos
        pq.1.payload.length = pq.1.payload := by
  obtain ⟨a, hread, hpos, hstop⟩ := h.atPayload
  have hlen := pq.1.hdr.length_bytes_eq_iff.mpr hplain
  have hbytes : pq.1.bytes.length = rtpHeaderSize + pq.1.payload.length := by
    rw [Packet.bytes, List.length_append, hlen]
  -- the payload of a buffer that holds the packet
  have hpayload {buf : ℕ → Byte} (hbuf : Memory.read buf a pq.1.bytes.length = pq.1.bytes) :
      Memory.read buf (a + rtpHeaderSize) pq.1.payload.length = pq.1.payload := by
    rw [hbytes, Memory.read_add] at hbuf
    exact List.append_inj_right hbuf (by rw [Memory.length_read, hlen])
  cases hsrtp : d.srtpIn with
  | none =>
      have hq := h.plain hsrtp
      rw [hq] at hread hstop
      simp only [rtpUn, mbufGetLeft]
      rw [hpos, hlen]
      refine ⟨?_, hpayload hread⟩
      omega
  | some srtp =>
      have hun := h.unprotect srtp hsrtp
      have hback : (mbufAdvance d.mb (-rtpHeaderSize)).pos = a := by
        simp only [mbufAdvance, hpos, hlen]
        omega
      have hgiven : Memory.read d.mb.buf a (mbufGetLeft (mbufAdvance d.mb (-rtpHeaderSize))) =
          pq.2 := by
        rw [mbufGetLeft, hback, mbufAdvance_stop, hstop, Nat.add_sub_cancel_left, hread]
      have heq : rtpUn (some srtp) d.mb = ⟨pq.1.bytes.length - rtpHeaderSize,
          mbufAdvance ⟨Memory.write d.mb.buf a pq.1.bytes, a, d.mb.stop⟩ rtpHeaderSize,
          some pq.2⟩ := by
        unfold rtpUn
        simp only [hback, mbufAdvance_buf, mbufAdvance_stop, hgiven, hun]
      rw [heq]
      refine ⟨?_, ?_⟩
      · simp only [hbytes]
        omega
      · have hnew : (mbufAdvance ⟨Memory.write d.mb.buf a pq.1.bytes, a, d.mb.stop⟩
            rtpHeaderSize).pos = a + rtpHeaderSize := by
          simp only [mbufAdvance]
          omega
        rw [hnew]
        exact hpayload (Memory.read_write_self _ _ _)

/-- Of what the context makes nothing, a forged packet or one that it has seen before, nothing is
accepted. -/
theorem rejects_of_unprotect {srtp : Srtp} (hsrtp : d.srtpIn = some srtp)
    (hun : srtp.unprotect (Memory.read (mbufAdvance d.mb (-rtpHeaderSize)).buf
      (mbufAdvance d.mb (-rtpHeaderSize)).pos
      (mbufGetLeft (mbufAdvance d.mb (-rtpHeaderSize)))) = none) : Rejects d := by
  have hlen : (rtpUn d.srtpIn d.mb).len = -1 := by simp only [rtpUn, hsrtp, hun]
  have hnone : d.payload = none := by
    unfold Datagram.payload
    dsimp only
    rw [hlen]
    rfl
  exact fun _ hibuf => absurd (hnone ▸ hibuf) (Option.not_mem_none _)

variable {τ : Type*} [LE τ] [DecidableLE τ] [Zero τ] {b : Build} {stamp : BitVec 16 → τ}
  {writei : ℕ → ℤ} {s : State τ}

/-- A payload that is not too long goes through the play jitter. -/
theorem recvPcmu_of_payload {ibuf : List Byte} (h : d.payload = some ibuf)
    (hkept : ibuf.length ≤ s.recv.playJitter.csize) :
    recvPcmu b stamp writei s d =
      let aj := ajitterPut b s.recv.playJitter (pcmBytes ibuf) (stamp d.seq)
      (myCallback b writei (drainFuel aj) ⟨aj, s.writes⟩).map fun p =>
        { s with
          recv := ⟨p.aj, (Receivers.rtpRecvPcmu b stamp s.recv ⟨d.seq, some ibuf, d.now⟩).lastRead⟩
          writes := p.writes } := by
  unfold Datagram.payload at h
  dsimp only at h
  split_ifs at h with hneg
  obtain rfl := Option.some.inj h
  set ibuf := Memory.read (rtpUn d.srtpIn d.mb).mb.buf (rtpUn d.srtpIn d.mb).mb.pos
    (rtpUn d.srtpIn d.mb).len.toNat
  have hstore : (Receivers.rtpRecvPcmu b stamp s.recv ⟨d.seq, some ibuf, d.now⟩).playJitter =
      ajitterPut b s.recv.playJitter (pcmBytes ibuf) (stamp d.seq) := by
    have hleft : (ibuf.length * 2 : ℤ) = (pcmBytes ibuf).length := by
      rw [length_pcmBytes]
      push_cast
      exact mul_comm _ _
    rw [rtpRecvPcmu_playJitter (p := ⟨d.seq, some ibuf, d.now⟩) rfl hkept, hleft]
    rfl
  unfold recvPcmu
  dsimp only
  rw [if_neg hneg, if_neg (not_or.mpr ⟨hneg, not_lt.mpr hkept⟩), hstore]

omit [DecidableLE τ] in
/-- The only slot in use of a jitter that had none, even if the packet has no bytes. -/
theorem put_into_empty {aj : Ajitter τ} (hused : aj.used = 0#32) (hself : ∀ n, stamp n ≤ stamp n)
    (bs : List Byte) (n : BitVec 16) :
    ∃ idx, (ajitterPut b aj bs (stamp n)).Lines [idx] ∧
      ((ajitterPut b aj bs (stamp n)).packet idx).left = bs.length ∧
      (ajitterPut b aj bs (stamp n)).outHave = aj.outHave ∧
      (ajitterPut b aj bs (stamp n)).csize = aj.csize ∧
      (ajitterPut b aj bs (stamp n)).content [idx] = aj.content [] ++ bs := by
  have hnone := used_eq_zero_iff.mp hused
  obtain ⟨idx, hput, -, -, hpkt, -, hout, hbuf, hstream⟩ :=
    (Ajitter.lines_nil.mpr hused).put b bs (stamp n) (fun hfull => hnone 0 (hfull 0)) (hself n)
      (fun i hi => absurd hi List.not_mem_nil) fun j hj => absurd hj (hnone j)
  refine ⟨idx, hput, by rw [hpkt], hout, ajitterPutPtr_csize aj, ?_⟩
  unfold Ajitter.content Ajitter.partialChunk
  rw [hout, hbuf, List.append_assoc]
  exact congrArg _ hstream

/-- **A packet of the program's own is played at once**, and nothing stays in the play jitter. -/
theorem recvPcmu_accepts (hidle : Idle s.recv.playJitter) (hself : ∀ n, stamp n ≤ stamp n)
    (h : Accepts pq d) (hplain : pq.1.hdr.Plain) (hlen : pq.1.payload.length = 160) :
    ∃ recv writes, recvPcmu b stamp writei s d = some { s with recv, writes } ∧
      Idle recv.playJitter ∧
      writes.map Prod.fst = s.writes.map Prod.fst ++ [pcmBytes pq.1.payload] := by
  have hpayload : d.payload = some pq.1.payload := by
    obtain ⟨hun, hread⟩ := rtpUn_accepts h hplain
    unfold Datagram.payload
    dsimp only
    rw [hun, if_neg (not_lt.mpr (Int.natCast_nonneg _)), Int.toNat_natCast, hread]
  have hpcm : (pcmBytes pq.1.payload).length = 320 := by rw [length_pcmBytes, hlen]
  obtain ⟨idx, hput, hleft, hout, hcsize, hcontent⟩ := put_into_empty (b := b) hidle.used hself
    (pcmBytes pq.1.payload) d.seq
  have hqueues := hput.queues fun i hi => by
    rw [List.mem_singleton.mp hi, hleft, hpcm]
    decide
  have hnil : s.recv.playJitter.content [] = [] := by
    unfold Ajitter.content Ajitter.partialChunk
    rw [hidle.outHave]
    rfl
  rw [hnil, List.nil_append] at hcontent
  obtain ⟨t, ht, hidle', hwrites⟩ := @myCallback_one τ _ _ b writei _ _ hqueues
    (hout.trans hidle.outHave) (hcsize.trans hidle.csize) _ hcontent hpcm s.writes
  have hkept : pq.1.payload.length ≤ s.recv.playJitter.csize := by
    rw [hlen, hidle.csize]
    decide
  have hstep := @recvPcmu_of_payload _ τ _ _ _ b stamp writei _ _ hpayload hkept
  dsimp only at hstep
  rw [ht] at hstep
  exact ⟨_, _, hstep, hidle', hwrites⟩

/-- What is dropped is not played. -/
theorem recvPcmu_rejects (hcsize : s.recv.playJitter.csize = 320) (h : Rejects d) :
    recvPcmu b stamp writei s d = some s := by
  unfold recvPcmu Receivers.rtpRecvPcmu
  by_cases hneg : (rtpUn d.srtpIn d.mb).len < 0
  · simp only [hneg, if_true, true_or]
  · have hlong := h _ (by
      unfold Datagram.payload
      exact if_neg hneg)
    simp only [hneg, hcsize, hlong, if_false, if_true, or_true]

end Receiver

/-! ## Packets of any length -/

section AnyPeer

variable {τ : Type*} [LE τ] [DecidableLE τ] [Zero τ] {b : Build} {stamp : BitVec 16 → τ}
  {writei : ℕ → ℤ} {s : State τ}

/-- No slot is in use, and what was given to the sound card, followed by the chunk that is not yet
full, is what arrived. -/
structure Plays (arrived : List Byte) (s : State τ) : Prop where
  used : s.recv.playJitter.used = 0#32
  nonneg : 0 ≤ s.recv.playJitter.outHave
  lt : s.recv.playJitter.outHave < 320
  csize : s.recv.playJitter.csize = 320
  length : ∀ chunk ∈ s.writes.map Prod.fst, chunk.length = 320
  bytes : (s.writes.map Prod.fst).flatten ++ s.recv.playJitter.content [] = arrived

/-- What a datagram adds to what is to be played. -/
def Datagram.sound (d : Datagram) : List Byte := pcmBytes (d.payload.getD [])

/-- **A payload of any length** is played at once but for less than a chunk. -/
theorem Plays.recv {arrived : List Byte} (h : Plays arrived s) (hself : ∀ n, stamp n ≤ stamp n)
    (hdev : ∀ n, writei n ≠ epipe) {d : Datagram}
    (hd : ∀ ibuf ∈ d.payload, ibuf.length ≤ 160) :
    ∃ t, recvPcmu b stamp writei s d = some t ∧ Plays (arrived ++ d.sound) t := by
  cases hpayload : d.payload with
  | none =>
      have hneg : (rtpUn d.srtpIn d.mb).len < 0 := by
        unfold Datagram.payload at hpayload
        dsimp only at hpayload
        split_ifs at hpayload with hneg
        exact hneg
      have hsound : arrived ++ d.sound = arrived := by
        unfold Datagram.sound
        rw [hpayload]
        exact List.append_nil _
      refine ⟨s, ?_, hsound.symm ▸ h⟩
      unfold recvPcmu Receivers.rtpRecvPcmu
      simp only [hneg, if_true, true_or]
  | some ibuf =>
      have hle := hd ibuf hpayload
      have hsound : d.sound = pcmBytes ibuf := by
        unfold Datagram.sound
        rw [hpayload]
        rfl
      obtain ⟨idx, hput, -, hout, hcsize, hcontent⟩ := put_into_empty (b := b) h.used hself
        (pcmBytes ibuf) d.seq
      obtain ⟨t, q', chunks, ht, hh, -, -, ht0, htsize, htc, hwrites, hchunks, hflat, hend⟩ :=
        @myCallback_spec τ _ _ b writei _ _
          ⟨ajitterPut b s.recv.playJitter (pcmBytes ibuf) (stamp d.seq), s.writes⟩ hput
          (h.nonneg.trans_eq hout.symm) (hout.trans_lt h.lt) hput.length_content_lt
      obtain ⟨-, rfl⟩ := hend.resolve_right fun hpipe => hdev _ hpipe.2.choose_spec
      have hstep := @recvPcmu_of_payload _ τ _ _ _ b stamp writei _ _ hpayload
        (show ibuf.length ≤ s.recv.playJitter.csize by rw [h.csize]; omega)
      dsimp only at hstep
      rw [ht] at hstep
      refine ⟨_, hstep, Ajitter.lines_nil.mp hh, ht0, htsize, htc.trans (hcsize.trans h.csize), ?_,
        ?_⟩
      · dsimp only
        intro chunk hchunk
        rw [hwrites] at hchunk
        rcases List.mem_append.mp hchunk with hchunk | hchunk
        · exact h.length chunk hchunk
        · exact hchunks chunk hchunk
      · dsimp only at hflat ⊢
        rw [hwrites, List.flatten_append, List.append_assoc, hflat, hcontent, ← List.append_assoc,
          h.bytes, hsound]

/-- **Whatever the peer's packets are cut into**, and whatever their sequence numbers are: as long
as the sound card takes what it is given, it is given the payloads in the order in which they
arrive, chunk by chunk, and what is not yet a chunk waits in the one that is being filled. -/
theorem played_in_order_of_arrival (b : Build) (d : SeqStamp τ) (writei : ℕ → ℤ)
    (hdev : ∀ n, writei n ≠ epipe) (s : State τ) (hidle : Idle s.recv.playJitter)
    (hwrites : s.writes = []) (es : List Datagram)
    (hes : ∀ dg ∈ es, ∀ ibuf ∈ dg.payload, ibuf.length ≤ 160) :
    ∃ t, Runs.run (recvPcmu b d.stamp writei) s es = some t ∧
      let arrived := es.flatMap Datagram.sound
      Plays arrived t ∧
        (t.writes.map Prod.fst).flatten = arrived.take (320 * (arrived.length / 320)) := by
  have hself (n : BitVec 16) : d.stamp n ≤ d.stamp n := (d.le_iff n n).mpr (BitVec.le_refl n)
  have hstart : Plays (([] : List Datagram).flatMap Datagram.sound) s := by
    refine ⟨hidle.used, hidle.outHave.ge, by rw [hidle.outHave]; decide, hidle.csize, ?_, ?_⟩
    · rw [hwrites]
      exact fun _ h => absurd h List.not_mem_nil
    · rw [hwrites]
      unfold Ajitter.content Ajitter.partialChunk
      rw [hidle.outHave]
      rfl
  have hstep : ∀ past e rest s, past ++ e :: rest = es →
      Plays (past.flatMap Datagram.sound) s → True →
      ∃ t, recvPcmu b d.stamp writei s e = some t ∧
        Plays ((past ++ [e]).flatMap Datagram.sound) t := by
    intro past e rest s hall hI _
    obtain ⟨t, ht, hplays⟩ := hI.recv (b := b) hself hdev
      (hes e (hall ▸ List.mem_append_right _ List.mem_cons_self))
    refine ⟨t, ht, ?_⟩
    rw [List.flatMap_append, List.flatMap_singleton]
    exact hplays
  obtain ⟨t, ht, hplays⟩ := Runs.run_progress_past (recvPcmu b d.stamp writei)
    (C := fun _ _ => True) es hstep es [] s rfl hstart
    (Runs.stepsMeet_of_forall _ (fun _ _ => trivial) s es)
  have hrest : (t.recv.playJitter.content []).length < 320 := by
    have hpart : t.recv.playJitter.content [] =
        t.recv.playJitter.partialChunk t.recv.playJitter.outBuffer := List.append_nil _
    rw [hpart, Ajitter.length_partialChunk]
    have hlt := hplays.lt
    omega
  exact ⟨t, ht, hplays, (BlockQueue.flatten_eq_take hplays.length hrest hplays.bytes).1⟩

end AnyPeer

/-- A datagram without encryption whose payload has `n` bytes. -/
def bareDatagram (n : ℕ) (seq : BitVec 16) : Datagram :=
  ⟨none, ⟨fun _ => BigEndian.byte 7, rtpHeaderSize, rtpHeaderSize + n⟩, seq, none⟩

/-- Packets of 100, of no and of 80 bytes around the wrap of the sequence number: one chunk, and 40
bytes that wait. -/
theorem played_in_order_of_arrival_wrap :
    let s : State ℤ :=
      ⟨⟨newJitter, none, []⟩, ⟨none, 0, 7, 1, ⟨fun _ => BigEndian.byte 0, 0, 0⟩, []⟩,
        ⟨ajitterInit 320 ⟨fun _ => 0, fun _ => 0, fun _ => 0⟩, 0⟩, []⟩
    let es := [bareDatagram 100 65534, bareDatagram 0 65535, bareDatagram 80 0]
    ∃ t, Runs.run (recvPcmu .other intStamp.stamp fun _ => 160) s es = some t ∧
      Plays (es.flatMap Datagram.sound) t ∧ (t.writes.map Prod.fst).flatten.length = 320 := by
  intro s es
  obtain ⟨t, ht, hplays, hflat⟩ := played_in_order_of_arrival .other intStamp (fun _ => 160)
    (fun _ => by decide) s ⟨rfl, rfl, rfl⟩ rfl es (by decide +kernel)
  exact ⟨t, ht, hplays, (congrArg List.length hflat).trans (by decide +kernel)⟩

/-! ## Every run -/

/-- The bytes that were captured. -/
def captured (es : List Event) : List Byte :=
  es.flatMap fun
    | .capture r => r.captured
    | _ => []

/-- The datagrams that were delivered, by the order in which they were sent. -/
def delivered (es : List Event) : List ℕ :=
  es.filterMap fun
    | .deliver k _ => some k
    | _ => none

theorem captured_append (past es : List Event) :
    captured (past ++ es) = captured past ++ captured es := List.flatMap_append

theorem delivered_append (past es : List Event) :
    delivered (past ++ es) = delivered past ++ delivered es := List.filterMap_append

section Runs

variable {τ : Type*}

/-- The network delivers what was sent, as often and in whatever order it likes, or something that
`rtp_recv_pcmu` drops. -/
def Carried (s : State τ) : Event → Prop
  | .capture _ => True
  | .deliver k d => ∃ pq, s.sender.sent[k]? = some pq ∧ Accepts pq d
  | .reject d => Rejects d

/-- What was played is what the delivered blocks sound like. -/
structure Inv (srtpOut : Option Srtp) (past : List Event) (s : State τ) : Prop where
  recorder : s.recorder.Reframes (captured past)
  sender : Sends srtpOut (s.recorder.frames.map Prod.fst) s.sender
  idle : Idle s.recv.playJitter
  known : ∀ k ∈ delivered past, k < (s.recorder.frames.map Prod.fst).length
  played : s.writes.map (fun w => samples w.1) =
    (delivered past).map fun k => (block (samples (captured past)) k).map heard

variable [LE τ] [DecidableLE τ] [Zero τ] {cast : DoubleToInt} {b : Build}
  {stamp : BitVec 16 → τ} {writei : ℕ → ℤ} {srtpOut : Option Srtp} {past : List Event} {s : State τ}

omit [LE τ] [DecidableLE τ] [Zero τ] in
/-- A frame that was sent is a block of the samples. -/
theorem Inv.block_frame (h : Inv srtpOut past s) {k : ℕ} {frame : List Byte}
    (hk : (s.recorder.frames.map Prod.fst)[k]? = some frame) :
    samples frame = block (samples (captured past)) k :=
  block_of_frames h.recorder.length h.recorder.bytes hk

/-- The loop only adds frames. -/
theorem rtpSendPcmu_prefix {fuel : ℕ} {p t : Recorder ℤ} (h : rtpSendPcmu b fuel p = some t) :
    p.frames <+: t.frames := by
  induction fuel generalizing p with
  | zero => exact absurd h (by simp [rtpSendPcmu])
  | succ fuel ih =>
      rw [rtpSendPcmu] at h
      split at h
      · exact absurd h (by simp)
      · obtain rfl := Option.some.inj h
        exact List.prefix_refl _
      · exact (List.prefix_append _ _).trans (ih h)

theorem alsaRec_prefix {p t : Recorder ℤ} {r : Readi ℤ} (h : alsaRec b p r = some t) :
    p.frames <+: t.frames := by
  unfold alsaRec at h
  dsimp only at h
  split_ifs at h
  · obtain rfl := Option.some.inj h
    exact List.prefix_refl _
  · obtain rfl := Option.some.inj h
    exact List.prefix_refl _
  · have hloop := rtpSendPcmu_prefix h
    exact hloop

/-- **A block is captured.** -/
theorem Inv.capture (h : Inv srtpOut past s) (r : Readi ℤ) :
    ∃ t, step cast b stamp writei s (.capture r) = some t ∧
      Inv srtpOut (past ++ [.capture r]) t := by
  obtain ⟨p, hp, hre⟩ := h.recorder.step (b := b) r
  obtain ⟨more, hmore⟩ := alsaRec_prefix hp
  have hcaptured : captured (past ++ [.capture r]) = captured past ++ r.captured := by
    rw [captured_append]
    exact congrArg (captured past ++ ·) (List.append_nil _)
  have hdelivered : delivered (past ++ [.capture r]) = delivered past := by
    rw [delivered_append]
    exact List.append_nil _
  have hdrop : p.frames.drop s.recorder.frames.length = more := by rw [← hmore, List.drop_left]
  have hframes : p.frames.map Prod.fst = s.recorder.frames.map Prod.fst ++ more.map Prod.fst := by
    rw [← hmore, List.map_append]
  have hsends := h.sender.foldl cast more fun f hf =>
    hre.length f (hframes ▸ List.mem_append_right _ hf)
  refine ⟨{ s with recorder := p, sender := more.foldl (sendFrame cast) s.sender }, ?_,
    hcaptured ▸ hre, hframes ▸ hsends, h.idle, ?_, ?_⟩
  · rw [step, hp, Option.map_some, hdrop]
  · intro k hk
    rw [hdelivered] at hk
    dsimp only
    rw [hframes, List.length_append]
    exact Nat.lt_add_right _ (h.known k hk)
  · -- the blocks that were delivered stay what they are
    rw [hdelivered, hcaptured, h.played]
    apply List.map_congr_left
    intro k hk
    have hlt := h.known k hk
    have hold := List.getElem?_eq_getElem hlt
    have hnew : (p.frames.map Prod.fst)[k]? = some (s.recorder.frames.map Prod.fst)[k] := by
      rw [hframes, List.getElem?_append_left hlt, hold]
    rw [← h.block_frame hold, block_of_frames hre.length hre.bytes hnew]

/-- **A datagram is delivered.** -/
theorem Inv.deliver (h : Inv srtpOut past s) (hself : ∀ n, stamp n ≤ stamp n) {k : ℕ}
    {d : Datagram} (hd : Carried s (.deliver k d)) :
    ∃ t, step cast b stamp writei s (.deliver k d) = some t ∧
      Inv srtpOut (past ++ [.deliver k d]) t := by
  obtain ⟨pq, hpq, haccepts⟩ := hd
  -- the packet has the samples of a frame
  have hpayload : ∃ frame, (s.recorder.frames.map Prod.fst)[k]? = some frame ∧
      encodeLoop (samples frame) = pq.1.payload := by
    have hmap := congrArg (fun l => l[k]?) h.sender.payloads
    simp only [List.getElem?_map (l := s.sender.sent), hpq, Option.map_some] at hmap
    rw [List.getElem?_map] at hmap
    exact Option.map_eq_some_iff.mp hmap.symm
  obtain ⟨frame, hframe, hpayload⟩ := hpayload
  have hlen : pq.1.payload.length = 160 := by
    have hmem := h.recorder.length frame (List.mem_of_getElem? hframe)
    rw [← hpayload, encodeLoop, List.length_map, length_samples, hmem]
  obtain ⟨recv, writes, hstep, hidle, hwrites⟩ := @recvPcmu_accepts _ _ τ _ _ _ b stamp writei s
    h.idle hself haccepts (h.sender.datagrams pq (List.mem_of_getElem? hpq)).1 hlen
  have hcaptured : captured (past ++ [.deliver k d]) = captured past := by
    rw [captured_append]
    exact List.append_nil _
  have hdelivered : delivered (past ++ [.deliver k d]) = delivered past ++ [k] :=
    delivered_append past [.deliver k d]
  refine ⟨_, hstep, hcaptured ▸ h.recorder, h.sender, hidle, ?_, ?_⟩
  · intro j hj
    rw [hdelivered] at hj
    rcases List.mem_append.mp hj with hj | hj
    · exact h.known j hj
    · obtain rfl := List.mem_singleton.mp hj
      exact (List.getElem?_eq_some_iff.mp hframe).1
  · have hchunks : writes.map (fun w => samples w.1) =
        s.writes.map (fun w => samples w.1) ++ [samples (pcmBytes pq.1.payload)] := by
      have hmap := congrArg (List.map samples) hwrites
      rw [List.map_append, List.map_map, List.map_map, List.map_singleton] at hmap
      exact hmap
    dsimp only
    rw [hdelivered, hcaptured, List.map_append, List.map_singleton, hchunks, h.played, ← hpayload,
      samples_pcmBytes_encodeLoop, h.block_frame hframe]

/-- **What is dropped changes nothing.** -/
theorem Inv.reject (h : Inv srtpOut past s) {d : Datagram} (hd : Rejects d) :
    ∃ t, step cast b stamp writei s (.reject d) = some t ∧ Inv srtpOut (past ++ [.reject d]) t := by
  have hcaptured : captured (past ++ [.reject d]) = captured past := by
    rw [captured_append]
    exact List.append_nil _
  have hdelivered : delivered (past ++ [.reject d]) = delivered past := by
    rw [delivered_append]
    exact List.append_nil _
  refine ⟨s, recvPcmu_rejects h.idle.csize hd, hcaptured ▸ h.recorder, h.sender, h.idle, ?_, ?_⟩
  · rw [hdelivered]
    exact h.known
  · rw [hdelivered, hcaptured]
    exact h.played

/-- Both ends of a new call. -/
def start (aj : Ajitter ℤ) (srtpOut : Option Srtp) (pt : BitVec 7) (ssrc : BitVec 32)
    (seq : BitVec 16) (mb : Mbuf) (recv : RtpRecv τ) : State τ :=
  ⟨⟨aj, none, []⟩, ⟨srtpOut, pt, ssrc, seq, mb, []⟩, recv, []⟩

/-- **Sound is heard as it arrives.**  However captures and arrivals interleave, whichever packets
are lost, repeated, reordered, forged or too long, and whatever the sound card answers, the run goes
through; and what was given to the sound card are, in the order of arrival, the blocks of 160
recorded samples that the accepted datagrams were made of, each sample as it comes through
mu-law. -/
theorem heard_as_it_arrives (cast : DoubleToInt) (b : Build) (d : SeqStamp τ)
    (writei : ℕ → ℤ) (aj : Ajitter ℤ) (haj : aj.Empty) (srtpOut : Option Srtp) (pt : BitVec 7)
    (ssrc : BitVec 32) (seq : BitVec 16) (mb : Mbuf) (recv : RtpRecv τ)
    (hidle : Idle recv.playJitter) (es : List Event)
    (hmeet : Runs.StepsMeet (step cast b d.stamp writei) Carried
      (start aj srtpOut pt ssrc seq mb recv) es) :
    ∃ t, Runs.run (step cast b d.stamp writei) (start aj srtpOut pt ssrc seq mb recv) es = some t ∧
      t.writes.map (fun w => samples w.1) =
        (delivered es).map fun k => (block (samples (captured es)) k).map heard := by
  have hself (n : BitVec 16) : d.stamp n ≤ d.stamp n := (d.le_iff n n).mpr (BitVec.le_refl n)
  have hstart : Inv srtpOut [] (start aj srtpOut pt ssrc seq mb recv) :=
    ⟨Recorder.reframes_of_empty haj, ⟨rfl, rfl, fun _ h => absurd h List.not_mem_nil⟩, hidle,
      fun _ h => absurd h List.not_mem_nil, rfl⟩
  have hstep : ∀ past e rest s, past ++ e :: rest = es → Inv srtpOut past s → Carried s e →
      ∃ t, step cast b d.stamp writei s e = some t ∧ Inv srtpOut (past ++ [e]) t := by
    intro past e rest s _ hI hC
    cases e with
    | capture r => exact hI.capture r
    | deliver k dg => exact hI.deliver hself hC
    | reject dg => exact hI.reject hC
  obtain ⟨t, ht, hinv⟩ :=
    Runs.run_progress_past (step cast b d.stamp writei) es hstep es [] _ rfl hstart hmeet
  exact ⟨t, ht, hinv.played⟩

end Runs

/-! ## A packet -/

/-- The sender of a call without encryption. -/
def plainSender : PcmuSender := ⟨none, 0, 7, 1, ⟨fun _ => BigEndian.byte 0, 0, 0⟩, []⟩

/-- A frame of equal samples, captured when the clock showed 5. -/
def evenFrame : List Byte × Option ℤ := (List.replicate 320 (BigEndian.byte 7), some 5)

/-- The receiver's buffer, with what the sender's buffer holds. -/
def evenDatagram : Datagram :=
  ⟨none, mbufAdvance (sendFrame .indefinite plainSender evenFrame).mb rtpHeaderSize, 1, none⟩

/-- Without encryption a copy of the sender's buffer is accepted. -/
theorem accepts_copy {cast : DoubleToInt} {arg : PcmuSender} {frame : List Byte × Option ℤ}
    (harg : arg.srtpOut = none) (h : frame.1.length = 320) (seq : BitVec 16) (now : Option ℤ) :
    ∃ pq, (sendFrame cast arg frame).sent = arg.sent ++ [pq] ∧
      Accepts pq ⟨none, mbufAdvance (sendFrame cast arg frame).mb rtpHeaderSize, seq, now⟩ := by
  obtain ⟨pq, hsent, ⟨hplain, hpq⟩, -⟩ := @sendFrame_sent cast arg frame h
  rw [harg] at hpq
  have hmb : (sendFrame cast arg frame).mb.pos = 0 := by simp only [sendFrame, rtpP, harg]
  have hread : pq.2 = Memory.read (sendFrame cast arg frame).mb.buf 0
      (mbufGetLeft (sendFrame cast arg frame).mb) := by
    have hlast : (sendFrame cast arg frame).sent = arg.sent ++ [(_, Memory.read
        (sendFrame cast arg frame).mb.buf (sendFrame cast arg frame).mb.pos
        (mbufGetLeft (sendFrame cast arg frame).mb))] := rfl
    rw [hsent, hmb] at hlast
    exact congrArg Prod.snd (List.cons.inj (List.append_cancel_left hlast)).1
  have hleft : pq.2.length = (sendFrame cast arg frame).mb.stop := by
    rw [hread, Memory.length_read, mbufGetLeft, hmb, Nat.sub_zero]
  refine ⟨pq, hsent, ⟨0, ?_, ?_, ?_⟩, fun _ => hpq, fun _ hs => absurd hs (Option.not_mem_none _)⟩
  · rw [mbufAdvance_buf]
    conv_rhs => rw [hread]
    rw [hread, Memory.length_read]
  · rw [pq.1.hdr.length_bytes_eq_iff.mpr hplain]
    simp only [mbufAdvance, hmb]
    rfl
  · rw [hleft, Nat.zero_add, mbufAdvance_stop]

/-- A block is captured and delivered while the next one is captured. -/
theorem heard_as_it_arrives_one :
    let es := [Event.capture (blockAt 160 (by decide) 5), .deliver 0 evenDatagram,
      .capture (blockAt 100 (by decide) 5)]
    ∃ t, Runs.run (step .indefinite .other intStamp.stamp fun _ => 160)
        (start newJitter none 0 7 1 ⟨fun _ => BigEndian.byte 0, 0, 0⟩
          ⟨ajitterInit 320 ⟨fun _ => 0, fun _ => 0, fun _ => 0⟩, 0⟩) es = some t ∧
      t.writes.map (fun w => samples w.1) = [List.replicate 160 (heard 0x0707#16)] := by
  intro es
  have hmeet : Runs.StepsMeet (step .indefinite .other intStamp.stamp fun _ => 160) Carried
      (start newJitter none 0 7 1 ⟨fun _ => BigEndian.byte 0, 0, 0⟩
        ⟨ajitterInit 320 ⟨fun _ => 0, fun _ => 0, fun _ => 0⟩, 0⟩) es := by
    refine ⟨trivial, fun s hs => ⟨?_, fun _ _ => ⟨trivial, fun _ _ => trivial⟩⟩⟩
    -- the first block makes one frame
    have hframes : (alsaRec .other ⟨newJitter, none, []⟩ (blockAt 160 (by decide) 5)).map
        Recorder.frames = some [evenFrame] := by decide +kernel
    obtain ⟨p, hp, hone⟩ := Option.map_eq_some_iff.mp hframes
    unfold step at hs
    obtain ⟨p', hp', rfl⟩ := Option.map_eq_some_iff.mp hs
    obtain rfl := Option.some.inj (hp.symm.trans hp')
    obtain ⟨pq, hpq, haccepts⟩ := @accepts_copy .indefinite plainSender evenFrame rfl
      List.length_replicate 1 none
    refine ⟨pq, ?_, haccepts⟩
    have hsent : (p.frames.foldl (sendFrame .indefinite) plainSender).sent = [pq] := by
      rw [hone]
      exact hpq
    exact congrArg (fun l => l[0]?) hsent
  obtain ⟨t, ht, hwrites⟩ := heard_as_it_arrives .indefinite .other intStamp (fun _ => 160)
    newJitter ⟨rfl, rfl⟩ none 0 7 1 ⟨fun _ => BigEndian.byte 0, 0, 0⟩
    ⟨ajitterInit 320 ⟨fun _ => 0, fun _ => 0, fun _ => 0⟩, 0⟩ ⟨rfl, rfl, rfl⟩ es hmeet
  exact ⟨t, ht, hwrites.trans (by decide +kernel)⟩

end SoundPath
