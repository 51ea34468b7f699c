/-
# The media description and the key of the peer

`tcmedia_formats` picks the last section of the description that has a common format.
When it is one of the two encrypted ones, the handler `sdp_crypto` is run on its crypto
attributes until one is accepted, and decodes what it accepts into the key buffer.
Whether one was accepted is not looked at: SRTP is set up from the buffer in any case,
with the zero bytes it began with, an earlier key, or part of a rejected one.  The key
is the negotiated one exactly when the first attribute that passes the checks
is there and really has the form of a crypto attribute (`allNegotiated_iff`).

The expression matcher and the base64 decoder of the SIP library are parameters.  The
matcher gives the suite and the key of a value that has the form `tag suite method:key`.
When there is no match, the handler goes on with what its pointers happened to hold
(`stale`).
-/
import Tcsip.CText

/-! ## Descriptions -/

/-- Which of the own sections a section of the description belongs to. -/
inductive MediaSection where
  | avp
  | savp
  | savpf
  | other
  deriving DecidableEq

/-- `struct sdp_format`. -/
structure SdpFormat where
  name : Text
  pt : ℤ
  deriving DecidableEq

/-- A crypto attribute, and what `crypt_s` and `key` hold if its value has another form. -/
structure CryptoAttr where
  value : Text
  stale : Text × Text
  deriving DecidableEq

/-- A section after the description was decoded: its first common format and its crypto
attributes. -/
structure SdpMedia where
  sect : MediaSection
  rformat : Option SdpFormat
  crypto : List CryptoAttr
  deriving DecidableEq

/-- `fmt` of the media. -/
inductive MediaFmt where
  | speex
  | pcmu
  | opus
  deriving DecidableEq

/-- `struct tcmedia`: the key buffer, the key the incoming SRTP session was created with, the
payload type and the codec. -/
structure TcMedia where
  srtpInKey : List Byte
  srtpIn : Option (List Byte)
  pt : ℤ
  fmt : MediaFmt
  deriving DecidableEq

/-- An offer or answer as `tcmedia_formats` meets it: the sections, and the results of the
two calls of `srtp_create`. -/
structure Negotiation where
  medial : List SdpMedia
  inErr : ℤ
  outErr : ℤ
  deriving DecidableEq

/-- The section that `tcmedia_formats` picks: the last one with a common format. -/
def selectedMedia (medial : List SdpMedia) : Option (SdpMedia × SdpFormat) :=
  (medial.filterMap fun md => md.rformat.map fun rfmt => (md, rfmt)).getLast?

/-- The section is encrypted. -/
def SdpMedia.Secure (md : SdpMedia) : Prop := md.sect = .savp ∨ md.sect = .savpf

instance (md : SdpMedia) : Decidable md.Secure := inferInstanceAs (Decidable (_ ∨ _))

/-- `tcmedia_set_format`. -/
def tcmediaSetFormat (fmt : MediaFmt) (fmtName : Text) : MediaFmt :=
  if fmtName = lit "speex" then .speex
  else if fmtName = lit "PCMU" then .pcmu
  else if fmtName = lit "opus" then .opus
  else fmt

/-! ## Crypto attributes -/

section crypto

variable (reRegex : Text → Option (Text × Text)) (base64Decode : Text → List Byte)

/-- The suite and the key that `sdp_crypto` looks at. -/
def CryptoAttr.fields (a : CryptoAttr) : Text × Text := (reRegex a.value).getD a.stale

/-- `sdp_crypto`: the key buffer after it, and whether the attribute is accepted. -/
def sdpCrypto (a : CryptoAttr) (srtpInKey : List Byte) : List Byte × Bool :=
  let crypt := a.fields reRegex
  if crypt.1 ≠ lit "AES_CM_128_HMAC_SHA1_80" then (srtpInKey, false)
  else if crypt.2.length ≠ 40 then (srtpInKey, false)
  else
    let decoded := base64Decode crypt.2
    -- the buffer is written before the length is looked at
    let srtpInKey := decoded ++ srtpInKey.drop decoded.length
    if decoded.length ≠ 30 then (srtpInKey, false) else (srtpInKey, true)

/-- `sdp_media_rattr_apply` with this handler: the key buffer after it. -/
def cryptoApply : List CryptoAttr → List Byte → List Byte
  | [], srtpInKey => srtpInKey
  | a :: as, srtpInKey =>
    let next := sdpCrypto reRegex base64Decode a srtpInKey
    if next.2 then next.1 else cryptoApply as next.1

/-- `tcmedia_formats`, and its result. -/
def tcmediaFormats (media : TcMedia) (d : Negotiation) : TcMedia × ℤ :=
  match selectedMedia d.medial with
  | none => (media, -22)
  | some (md, rfmt) =>
    let srtp : TcMedia × ℤ :=
      if md.Secure then
        -- whether an attribute was accepted is dropped
        let key := cryptoApply reRegex base64Decode md.crypto media.srtpInKey
        if d.inErr ≠ 0 then ({ media with srtpInKey := key }, d.inErr)
        else ({ media with srtpInKey := key, srtpIn := some (key.take 30) }, d.outErr)
      else (media, 0)
    if srtp.2 ≠ 0 then srtp
    else ({ srtp.1 with fmt := tcmediaSetFormat srtp.1.fmt rfmt.name, pt := rfmt.pt }, 0)

/-! ## What is accepted -/

/-- The attribute passes the checks: the suite, 40 characters of key, 30 bytes decoded. -/
def CryptoAttr.Passes (a : CryptoAttr) : Prop :=
  (a.fields reRegex).1 = lit "AES_CM_128_HMAC_SHA1_80" ∧ (a.fields reRegex).2.length = 40 ∧
    (base64Decode (a.fields reRegex).2).length = 30

instance (a : CryptoAttr) : Decidable (a.Passes reRegex base64Decode) :=
  inferInstanceAs (Decidable (_ ∧ _))

/-- The attribute that the search accepts: the first one that passes. -/
def acceptedCrypto (as : List CryptoAttr) : Option CryptoAttr :=
  as.find? fun a => decide (a.Passes reRegex base64Decode)

/-- Exactly what passes is accepted. -/
theorem sdpCrypto_accepts (a : CryptoAttr) (key : List Byte) :
    (sdpCrypto reRegex base64Decode a key).2 = true ↔ a.Passes reRegex base64Decode := by
  unfold sdpCrypto CryptoAttr.Passes
  dsimp only
  split_ifs with hsuite hlen hdec <;> simp_all

/-- What is accepted is decoded into the beginning of the buffer. -/
theorem sdpCrypto_key {a : CryptoAttr} (h : a.Passes reRegex base64Decode) (key : List Byte) :
    (sdpCrypto reRegex base64Decode a key).1.take 30
      = base64Decode (a.fields reRegex).2 := by
  obtain ⟨hsuite, hlen, hdec⟩ := h
  unfold sdpCrypto
  dsimp only
  rw [if_neg (not_not.mpr hsuite), if_neg (not_not.mpr hlen), if_neg (not_not.mpr hdec)]
  show (base64Decode _ ++ _).take 30 = _
  rw [← hdec, List.take_left]

/-- **The search** leaves the key of the attribute it accepts. -/
theorem cryptoApply_key {as : List CryptoAttr} {a : CryptoAttr}
    (h : acceptedCrypto reRegex base64Decode as = some a) (key : List Byte) :
    (cryptoApply reRegex base64Decode as key).take 30
      = base64Decode (a.fields reRegex).2 := by
  induction as generalizing key with
  | nil => exact absurd h (by simp [acceptedCrypto])
  | cons b as ih =>
      unfold cryptoApply
      unfold acceptedCrypto at h
      rw [List.find?_cons] at h
      by_cases hb : b.Passes reRegex base64Decode
      · rw [decide_eq_true hb] at h
        obtain rfl := Option.some.inj h
        rw [if_pos ((sdpCrypto_accepts reRegex base64Decode b key).mpr hb)]
        exact sdpCrypto_key reRegex base64Decode hb key
      · -- whatever a rejected attribute left in the buffer is written over
        rw [decide_eq_false hb] at h
        rw [if_neg (mt (sdpCrypto_accepts reRegex base64Decode b key).mp hb)]
        exact ih h _

/-! ## Negotiated keys -/

/-- The incoming session was created with the key of the attribute that was accepted, a
crypto attribute of the section. -/
def NegotiatedKey (md : SdpMedia) (media : TcMedia) : Prop :=
  ∃ a ∈ acceptedCrypto reRegex base64Decode md.crypto, ∃ crypt ∈ reRegex a.value,
    media.srtpIn = some (base64Decode crypt.2)

/-- If an encrypted section was selected and 0 is returned, the key is negotiated. -/
def KeyNegotiated (media : TcMedia) (d : Negotiation) : Prop :=
  ∀ md rfmt, selectedMedia d.medial = some (md, rfmt) → md.Secure →
    (tcmediaFormats reRegex base64Decode media d).2 = 0 →
    NegotiatedKey reRegex base64Decode md (tcmediaFormats reRegex base64Decode media d).1

/-- Every offer and answer of the call negotiates its key. -/
def AllNegotiated : TcMedia → List Negotiation → Prop
  | _, [] => True
  | media, d :: ds => KeyNegotiated reRegex base64Decode media d ∧
      AllNegotiated (tcmediaFormats reRegex base64Decode media d).1 ds

/-- If an encrypted section is selected and both SRTP sessions can be created, then some of
its crypto attributes passes the checks, and the first one that does has the form of a
crypto attribute. -/
def OffersKey (d : Negotiation) : Prop :=
  ∀ md rfmt, selectedMedia d.medial = some (md, rfmt) → md.Secure → d.inErr = 0 → d.outErr = 0 →
    ∃ a ∈ acceptedCrypto reRegex base64Decode md.crypto, reRegex a.value ≠ none

/-- The outcome for an encrypted section. -/
theorem tcmediaFormats_secure {d : Negotiation} {md : SdpMedia} {rfmt : SdpFormat}
    (hsel : selectedMedia d.medial = some (md, rfmt)) (hsec : md.Secure) (media : TcMedia) :
    ((tcmediaFormats reRegex base64Decode media d).2 = 0 ↔ d.inErr = 0 ∧ d.outErr = 0) ∧
      (d.inErr = 0 → (tcmediaFormats reRegex base64Decode media d).1.srtpIn
        = some ((cryptoApply reRegex base64Decode md.crypto media.srtpInKey).take 30)) := by
  unfold tcmediaFormats
  rw [hsel]
  dsimp only
  rw [if_pos hsec]
  by_cases hin : d.inErr = 0
  · by_cases hout : d.outErr = 0 <;> simp [hin, hout]
  · simp [hin]

/-- **One description.** -/
theorem keyNegotiated_iff (media : TcMedia) (d : Negotiation) :
    KeyNegotiated reRegex base64Decode media d ↔ OffersKey reRegex base64Decode d := by
  unfold KeyNegotiated OffersKey
  refine forall_congr' fun md => forall_congr' fun rfmt => ?_
  refine forall_congr' fun hsel => forall_congr' fun hsec => ?_
  obtain ⟨hzero, hkey⟩ := tcmediaFormats_secure reRegex base64Decode hsel hsec media
  rw [hzero, and_imp]
  refine forall_congr' fun hin => forall_congr' fun hout => ?_
  unfold NegotiatedKey
  rw [hkey hin]
  constructor
  · rintro ⟨a, ha, crypt, hcrypt, _⟩
    refine ⟨a, ha, ?_⟩
    rw [Option.mem_def.mp hcrypt]
    exact Option.some_ne_none crypt
  · rintro ⟨a, ha, hform⟩
    obtain ⟨crypt, hcrypt⟩ := Option.ne_none_iff_exists'.mp hform
    refine ⟨a, ha, crypt, hcrypt, ?_⟩
    rw [cryptoApply_key reRegex base64Decode ha, CryptoAttr.fields, hcrypt, Option.getD_some]

/-- **Encrypted media, exactly.**  Over any sequence of offers and answers, every encrypted
section is set up with a negotiated key if and only if each of them offers one. -/
theorem allNegotiated_iff (media : TcMedia) (ds : List Negotiation) :
    AllNegotiated reRegex base64Decode media ds ↔
      ∀ d ∈ ds, OffersKey reRegex base64Decode d := by
  induction ds generalizing media with
  | nil => simp [AllNegotiated]
  | cons d ds ih =>
      unfold AllNegotiated
      rw [keyNegotiated_iff, ih, List.forall_mem_cons]

end crypto

/-- The media before any description. -/
def newMedia : TcMedia :=
  { srtpInKey := List.replicate 64 nul, srtpIn := none, pt := 0, fmt := .speex }

/-- A description with an encrypted section and no crypto attribute. -/
def bareSavp : Negotiation :=
  { medial := [{ sect := .savp, rformat := some { name := lit "PCMU", pt := 0 }, crypto := [] }]
    inErr := 0
    outErr := 0 }

/-- It is accepted, and SRTP is set up with thirty zero bytes. -/
theorem not_allNegotiated_bareSavp :
    (tcmediaFormats (fun _ => none) (fun _ => []) newMedia bareSavp).2 = 0 ∧
      (tcmediaFormats (fun _ => none) (fun _ => []) newMedia bareSavp).1.srtpIn
        = some (List.replicate 30 nul) ∧
      ¬ AllNegotiated (fun _ => none) (fun _ => []) newMedia [bareSavp] := by
  refine ⟨by decide, by decide, ?_⟩
  intro h
  obtain ⟨a, ha, _⟩ := h.1 _ _ rfl (Or.inl rfl) (by decide)
  exact absurd ha (Option.not_mem_none a)
