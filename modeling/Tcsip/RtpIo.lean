/-
# Protecting and unprotecting RTP packets

`rtp_un` is called with the buffer at the payload and goes back by twelve bytes to find the
packet that `srtp_unprotect` has to be given.  Twelve bytes are the fixed part of the header:
a packet with contributing sources or with a header extension begins further in front, and
what `srtp_unprotect` is given then is not a packet.

The wire format of the header is the one of `struct rtp_header`; `srtp_protect` and
`srtp_unprotect` are functions of the bytes they are given.
-/
import Tcsip.Memory
import Tcsip.BigEndian
import Tcsip.CText

namespace RtpIo

/-! ## Packets -/

/-- `RTP_HEADER_SIZE`: `rtp_un` takes every header for one of this size. -/
def rtpHeaderSize : ℕ := 12

/-- `struct rtp_header` on the wire: `cc` is the number of the contributing sources, `ext` says
whether there is an extension. -/
structure RtpHeader where
  pad : Bool
  m : Bool
  pt : BitVec 7
  seq : BitVec 16
  ts : BitVec 32
  ssrc : BitVec 32
  csrc : List (BitVec 32)
  x : Option (BitVec 16 × List (BitVec 32))
  cc_le : csrc.length ≤ 15
  len_lt : ∀ e ∈ x, e.2.length < 2 ^ 16

/-- 32-bit words in network order. -/
def words (l : List (BitVec 32)) : List Byte := l.flatMap fun w => BigEndian.be 4 w.toNat

/-- The twelve bytes that every header has. -/
def RtpHeader.fixed (h : RtpHeader) : List Byte :=
  [BigEndian.byte (128 + 32 * h.pad.toNat + 16 * h.x.isSome.toNat + h.csrc.length),
    BigEndian.byte (128 * h.m.toNat + h.pt.toNat)] ++
  BigEndian.be 2 h.seq.toNat ++ BigEndian.be 4 h.ts.toNat ++ BigEndian.be 4 h.ssrc.toNat

/-- Its type, its length in words, and the words. -/
def RtpHeader.extension (h : RtpHeader) : List Byte :=
  match h.x with
  | none => []
  | some (type, data) => BigEndian.be 2 type.toNat ++ BigEndian.be 2 data.length ++ words data

/-- The header as it is sent. -/
def RtpHeader.bytes (h : RtpHeader) : List Byte := h.fixed ++ words h.csrc ++ h.extension

/-- A packet before it is protected. -/
structure Packet where
  hdr : RtpHeader
  payload : List Byte

/-- The packet as it is sent without SRTP. -/
def Packet.bytes (p : Packet) : List Byte := p.hdr.bytes ++ p.payload

/-- Nothing but the fixed part. -/
def RtpHeader.Plain (h : RtpHeader) : Prop := h.csrc = [] ∧ h.x = none

theorem length_words (l : List (BitVec 32)) : (words l).length = 4 * l.length := by
  unfold words
  simp only [List.length_flatMap, BigEndian.length_be, List.map_const', List.sum_replicate,
    smul_eq_mul, Nat.mul_comm]

theorem RtpHeader.length_fixed (h : RtpHeader) : h.fixed.length = rtpHeaderSize := by
  simp only [RtpHeader.fixed, List.length_append, BigEndian.length_be, List.length_cons,
    List.length_nil, rtpHeaderSize]

/-- **The header is as long as its fixed part** exactly if it has no other. -/
theorem RtpHeader.length_bytes_eq_iff (h : RtpHeader) :
    h.bytes.length = rtpHeaderSize ↔ h.Plain := by
  rw [RtpHeader.bytes, List.length_append, List.length_append, h.length_fixed, length_words,
    RtpHeader.extension, RtpHeader.Plain]
  cases hx : h.x with
  | none => simp
  | some e =>
      simp only [List.length_append, BigEndian.length_be, length_words, reduceCtorEq, and_false,
        iff_false]
      omega

theorem RtpHeader.size_le_length (h : RtpHeader) : rtpHeaderSize ≤ h.bytes.length := by
  rw [RtpHeader.bytes, List.append_assoc, List.length_append, h.length_fixed]
  exact Nat.le_add_right _ _

/-! ## The code -/

/-- `struct mbuf`; `stop` is its `end`. -/
structure Mbuf where
  buf : ℕ → Byte
  pos : ℕ
  stop : ℕ

/-- `mbuf_get_left` -/
def mbufGetLeft (mb : Mbuf) : ℕ := mb.stop - mb.pos

/-- `mbuf_advance` -/
def mbufAdvance (mb : Mbuf) (n : ℤ) : Mbuf := { mb with pos := (mb.pos + n).toNat }

@[simp] theorem mbufAdvance_buf (mb : Mbuf) (n : ℤ) : (mbufAdvance mb n).buf = mb.buf := rfl

@[simp] theorem mbufAdvance_stop (mb : Mbuf) (n : ℤ) : (mbufAdvance mb n).stop = mb.stop := rfl

/-- The two functions of a context, with no result if they return an error. -/
structure Srtp where
  protect : List Byte → Option (List Byte)
  unprotect : List Byte → Option (List Byte)

/-- `rtp_p` -/
def rtpP (srtp : Option Srtp) (mb : Mbuf) : Mbuf :=
  match srtp with
  | none => mb
  | some srtp =>
    match srtp.protect (Memory.read mb.buf mb.pos (mbufGetLeft mb)) with
    | none => { mb with stop := mbufGetLeft mb }
    | some out => { mb with buf := Memory.write mb.buf mb.pos out, stop := out.length }

/-- What `rtp_un` returns, the buffer after it, and what it gave to `srtp_unprotect`. -/
structure Un where
  len : ℤ
  mb : Mbuf
  given : Option (List Byte)

/-- `rtp_un` -/
def rtpUn (srtp : Option Srtp) (mb : Mbuf) : Un :=
  match srtp with
  | none => ⟨mbufGetLeft mb, mb, none⟩
  | some srtp =>
    let mb := mbufAdvance mb (-rtpHeaderSize)
    let hdr := Memory.read mb.buf mb.pos (mbufGetLeft mb)
    match srtp.unprotect hdr with
    | none => ⟨-1, mb, some hdr⟩
    | some out =>
      let mb := mbufAdvance { mb with buf := Memory.write mb.buf mb.pos out } rtpHeaderSize
      ⟨out.length - rtpHeaderSize, mb, some hdr⟩

/-! ## A packet from the peer -/

/-- `q` is what the peer made of the packet: it is longer by the tag, `srtp_unprotect` makes the
packet of it again, and makes nothing of a part of it. -/
structure Protected (peer srtp : Srtp) (p : Packet) (q : List Byte) : Prop where
  protect : peer.protect p.bytes = some q
  unprotect : srtp.unprotect q = some p.bytes
  part : ∀ r, r <:+ q → r ≠ q → srtp.unprotect r = none
  tag : p.bytes.length ≤ q.length

/-- The buffer holds `q` from `a` on and is at the payload. -/
structure AtPayload (p : Packet) (q : List Byte) (a : ℕ) (mb : Mbuf) : Prop where
  read : Memory.read mb.buf a q.length = q
  pos : mb.pos = a + p.hdr.bytes.length
  stop : mb.stop = a + q.length

/-- The whole of `q` was given to `srtp_unprotect`; the buffer is at the payload, and its length was
returned. -/
structure Unprotects (p : Packet) (q : List Byte) (a : ℕ) (r : Un) : Prop where
  given : r.given = some q
  pos : r.mb.pos = a + p.hdr.bytes.length
  len : r.len = p.payload.length
  payload : Memory.read r.mb.buf r.mb.pos p.payload.length = p.payload

section

variable {peer srtp : Srtp} {p : Packet} {q : List Byte} {a : ℕ} {mb : Mbuf}

/-- What `rtp_un` gives to `srtp_unprotect`: all but the part of the header behind the first twelve
bytes, cut off at the front. -/
theorem read_back (hq : Protected peer srtp p q) (hat : AtPayload p q a mb) :
    Memory.read (mbufAdvance mb (-rtpHeaderSize)).buf (mbufAdvance mb (-rtpHeaderSize)).pos
      (mbufGetLeft (mbufAdvance mb (-rtpHeaderSize))) =
        q.drop (p.hdr.bytes.length - rtpHeaderSize) := by
  have hsize := p.hdr.size_le_length
  have hlen : p.hdr.bytes.length ≤ q.length := by
    have htag := hq.tag
    rw [Packet.bytes, List.length_append] at htag
    omega
  have hpos : (mbufAdvance mb (-rtpHeaderSize)).pos =
      a + (p.hdr.bytes.length - rtpHeaderSize) := by
    simp only [mbufAdvance, hat.pos]
    omega
  have hleft : mbufGetLeft (mbufAdvance mb (-rtpHeaderSize)) =
      q.length - (p.hdr.bytes.length - rtpHeaderSize) := by
    rw [mbufGetLeft, hpos, mbufAdvance_stop, hat.stop]
    omega
  rw [hpos, hleft, mbufAdvance_buf, ← Memory.drop_read mb.buf a (by omega), hat.read]

/-- What the peer's `rtp_p` sends is received so: its buffer is at the packet, which begins the
buffer. -/
theorem atPayload_rtpP (hq : Protected peer srtp p q)
    (hread : Memory.read mb.buf 0 p.bytes.length = p.bytes) (hpos : mb.pos = 0)
    (hstop : mb.stop = p.bytes.length) :
    AtPayload p q 0 (mbufAdvance (rtpP (some peer) mb) p.hdr.bytes.length) := by
  have hp : rtpP (some peer) mb = ⟨Memory.write mb.buf 0 q, 0, q.length⟩ := by
    unfold rtpP mbufGetLeft
    simp only [hpos, hstop, Nat.sub_zero, hread, hq.protect]
  rw [hp]
  refine ⟨Memory.read_write_self mb.buf 0 q, ?_, (Nat.zero_add _).symm⟩
  simp only [mbufAdvance]
  omega

/-- With nothing but the fixed part all goes well. -/
theorem unprotects_of_plain (hq : Protected peer srtp p q) (hat : AtPayload p q a mb)
    (hplain : p.hdr.Plain) : Unprotects p q a (rtpUn (some srtp) mb) := by
  have hlen := p.hdr.length_bytes_eq_iff.mpr hplain
  have hgiven := read_back hq hat
  rw [hlen, Nat.sub_self, List.drop_zero] at hgiven
  have hpos : (mbufAdvance mb (-rtpHeaderSize)).pos = a := by
    simp only [mbufAdvance, hat.pos, hlen]
    omega
  rw [hpos, mbufAdvance_buf] at hgiven
  have hun : rtpUn (some srtp) mb =
      ⟨p.bytes.length - rtpHeaderSize, mbufAdvance ⟨Memory.write mb.buf a p.bytes, a, mb.stop⟩
        rtpHeaderSize, some q⟩ := by
    unfold rtpUn
    simp only [hgiven, hq.unprotect, hpos, mbufAdvance_buf, mbufAdvance_stop]
  have hbytes : p.bytes.length = rtpHeaderSize + p.payload.length := by
    rw [Packet.bytes, List.length_append, hlen]
  rw [hun]
  refine ⟨rfl, ?_, ?_, ?_⟩
  · simp only [mbufAdvance, hlen]
    omega
  · simp only [hbytes]
    omega
  · have hread := Memory.read_write_self mb.buf a p.bytes
    rw [hbytes, Memory.read_add] at hread
    exact List.append_inj_right hread (by rw [Memory.length_read, hlen])

/-- **The program's own packets** go through `rtp_p` and `rtp_un` unchanged. -/
theorem unprotects_rtpP (hq : Protected peer srtp p q)
    (hread : Memory.read mb.buf 0 p.bytes.length = p.bytes) (hpos : mb.pos = 0)
    (hstop : mb.stop = p.bytes.length) (hplain : p.hdr.Plain) :
    Unprotects p q 0
      (rtpUn (some srtp) (mbufAdvance (rtpP (some peer) mb) p.hdr.bytes.length)) :=
  unprotects_of_plain hq (atPayload_rtpP hq hread hpos hstop) hplain

/-- With anything else the packet is dropped. -/
theorem rtpUn_of_not_plain (hq : Protected peer srtp p q) (hat : AtPayload p q a mb)
    (hplain : ¬ p.hdr.Plain) :
    (rtpUn (some srtp) mb).len = -1 ∧ (rtpUn (some srtp) mb).given ≠ some q := by
  have hsize := p.hdr.size_le_length
  have hne := mt p.hdr.length_bytes_eq_iff.mp hplain
  have hq0 : p.hdr.bytes.length ≤ q.length := by
    have htag := hq.tag
    rw [Packet.bytes, List.length_append] at htag
    omega
  have hcut : q.drop (p.hdr.bytes.length - rtpHeaderSize) ≠ q := by
    intro h
    have hlen := congrArg List.length h
    rw [List.length_drop] at hlen
    omega
  have hun : rtpUn (some srtp) mb = ⟨-1, mbufAdvance mb (-rtpHeaderSize),
      some (q.drop (p.hdr.bytes.length - rtpHeaderSize))⟩ := by
    unfold rtpUn
    simp only [read_back hq hat, hq.part _ (List.drop_suffix _ q) hcut]
  rw [hun]
  exact ⟨rfl, fun h => hcut (Option.some.inj h)⟩

end

/-- **Unprotecting works exactly for packets without contributing sources and without a header
extension**; every other packet is dropped. -/
theorem rtpUn_unprotects_iff (peer srtp : Srtp) (p : Packet) (q : List Byte) (a : ℕ) (mb : Mbuf)
    (hq : Protected peer srtp p q) (hat : AtPayload p q a mb) :
    (Unprotects p q a (rtpUn (some srtp) mb) ↔ p.hdr.csrc = [] ∧ p.hdr.x = none) ∧
    (¬ (p.hdr.csrc = [] ∧ p.hdr.x = none) → (rtpUn (some srtp) mb).len = -1) := by
  refine ⟨⟨fun h => ?_, unprotects_of_plain hq hat⟩, fun h => (rtpUn_of_not_plain hq hat h).1⟩
  by_contra hplain
  exact (rtpUn_of_not_plain hq hat hplain).2 h.given

/-! ## Two packets -/

/-- A header of the program's own packets, and one with a contributing source. -/
def header (csrc : List (BitVec 32)) (h : csrc.length ≤ 15) : RtpHeader :=
  ⟨false, false, 0, 1, 160, 7, csrc, none, h, fun _ he => absurd he (Option.not_mem_none _)⟩

/-- A context that knows one packet: the tag is ten bytes. -/
def onePacket (p : Packet) : Srtp :=
  let q := p.bytes ++ List.replicate 10 (BigEndian.byte 255)
  ⟨fun b => if b = p.bytes then some q else none, fun r => if r = q then some p.bytes else none⟩

/-- The buffer that `rtp_recv` gets for the packet: the whole datagram, from the payload on. -/
def received (p : Packet) : Mbuf :=
  let q := p.bytes ++ List.replicate 10 (BigEndian.byte 255)
  ⟨Memory.write (fun _ => BigEndian.byte 0) 0 q, p.hdr.bytes.length, q.length⟩

theorem protected_onePacket (p : Packet) :
    Protected (onePacket p) (onePacket p) p
      (p.bytes ++ List.replicate 10 (BigEndian.byte 255)) := by
  refine ⟨if_pos rfl, if_pos rfl, fun r _ hr => if_neg hr, ?_⟩
  rw [List.length_append]
  exact Nat.le_add_right _ _

theorem atPayload_received (p : Packet) :
    AtPayload p (p.bytes ++ List.replicate 10 (BigEndian.byte 255)) 0 (received p) :=
  ⟨Memory.read_write_self (fun _ => BigEndian.byte 0) 0 (p.bytes ++ _), (Nat.zero_add _).symm,
    (Nat.zero_add _).symm⟩

/-- A packet of the program comes through. -/
theorem rtpUn_unprotects_plain :
    let p : Packet := ⟨header [] (by decide), [BigEndian.byte 1, BigEndian.byte 2]⟩
    (rtpUn (some (onePacket p)) (received p)).len = 2 := by
  intro p
  have hun := (rtpUn_unprotects_iff (onePacket p) (onePacket p) p _ 0 (received p)
    (protected_onePacket p) (atPayload_received p)).1.mpr ⟨rfl, rfl⟩
  exact hun.len

/-- One with a contributing source does not. -/
theorem rtpUn_csrc_dropped :
    ¬ ∀ (peer srtp : Srtp) (p : Packet) (q : List Byte) (a : ℕ) (mb : Mbuf),
      Protected peer srtp p q → AtPayload p q a mb → Unprotects p q a (rtpUn (some srtp) mb) := by
  intro h
  have hun := h _ _ ⟨header [9#32] (by decide), [BigEndian.byte 1]⟩ _ 0 _
    (protected_onePacket _) (atPayload_received _)
  have hdrop := rtpUn_of_not_plain
    (protected_onePacket ⟨header [9#32] (by decide), [BigEndian.byte 1]⟩)
    (atPayload_received _) (fun hplain => absurd hplain.1 (by decide))
  exact hdrop.2 hun.given

end RtpIo
