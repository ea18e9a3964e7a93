import Flotsync.Udpour.Repair
import Flotsync.Udpour.SenderFrames
import Flotsync.Lib.BigEndian

/-!
The frame codec of `UDPour`. A datagram is the 20-byte big-endian header followed by
the frame's body: the payload bytes, nothing for `Ack` and `NoLongerAvailable`, and
the portable roaring serialization of the missing parts for `NeedParts`. The roaring
crate is a parameter, `BitmapCodec`, with the behaviour its portable format
documents. Encoding a frame and decoding the datagram gives the frame back. Decoding
reads the bitmap off the front of a `NeedParts` body and does not look at what
follows it, so such a datagram with bytes after the bitmap decodes to a frame that
encodes to the datagram without them.
-/

set_option autoImplicit false

namespace Flotsync.Udpour

open BigEndian

namespace FrameType

def toU8 : FrameType → UInt8
  | .payload => 0x01
  | .noLongerAvailable => 0x02
  | .ack => 0x81
  | .needParts => 0x82

/-- `FrameType::try_from`. -/
def tryFrom (value : UInt8) : Except UDPourTypeError FrameType :=
  if value = 0x01 then .ok .payload
  else if value = 0x02 then .ok .noLongerAvailable
  else if value = 0x81 then .ok .ack
  else if value = 0x82 then .ok .needParts
  else .error (.unknownFrameType value)

@[simp] theorem tryFrom_toU8 (frameType : FrameType) : tryFrom frameType.toU8 = .ok frameType := by
  cases frameType <;> rfl

theorem toU8_of_tryFrom {value : UInt8} {frameType : FrameType} (h : tryFrom value = .ok frameType) :
    frameType.toU8 = value := by
  unfold tryFrom at h
  split_ifs at h with h₁ h₂ h₃ h₄ <;> cases h
  · exact h₁.symm
  · exact h₂.symm
  · exact h₃.symm
  · exact h₄.symm

end FrameType

theorem PartCount.new_val (c : PartCount) (h : c.val < 2 ^ 32) : PartCount.new c.val h = some c := by
  simp [PartCount.new, c.pos]

theorem PartCount.val_of_new {value : ℕ} {h : value < 2 ^ 32} {c : PartCount}
    (hnew : PartCount.new value h = some c) : c.val = value := by
  unfold PartCount.new at hnew
  split_ifs at hnew
  cases hnew
  rfl

namespace Wire

/-- `UDPourHeader` with every field it has on the wire. -/
structure UDPourHeader where
  frameType : FrameType
  version : UInt8
  flags : UInt8
  reserved : UInt8
  messageId : UInt32
  partNumber : UInt32
  partCount : PartCount
  checksum : UInt32
deriving DecidableEq

namespace UDPourHeader

def payloadWithFlags (messageId partNumber : UInt32) (partCount : PartCount) (checksum : UInt32)
    (flags : UInt8) : UDPourHeader :=
  ⟨.payload, protocolVersion, flags, 0, messageId, partNumber, partCount, checksum⟩

def control (frameType : FrameType) (messageId : UInt32) (partCount : PartCount)
    (checksum : UInt32) : Except UDPourTypeError UDPourHeader :=
  if frameType = .payload then .error .payloadControlHeader
  else .ok ⟨frameType, protocolVersion, 0, 0, messageId, 0, partCount, checksum⟩

def validate (h : UDPourHeader) : Except UDPourTypeError UDPourHeader :=
  if h.version ≠ protocolVersion then .error (.unsupportedVersion h.version)
  else
    match h.frameType with
    | .payload =>
      if h.partNumber.toNat < h.partCount.val then .ok h
      else .error (.partNumberOutOfRange h.partNumber.toNat h.partCount.val)
    | .ack | .needParts | .noLongerAvailable =>
      if h.partNumber = 0 then .ok h
      else .error (.controlPartNumberMustBeZero h.partNumber.toNat)

/-- `is_retransmit`: the low flag bit, on a payload frame. -/
def isRetransmit (h : UDPourHeader) : Bool :=
  h.frameType = .payload && (h.flags &&& 1) != 0

/-- The twenty bytes `encode_into_buf` writes. -/
def toBytes (h : UDPourHeader) : List UInt8 :=
  [h.frameType.toU8, h.version, h.flags, h.reserved] ++ putU32 h.messageId ++
    putU32 h.partNumber ++ putU32 (UInt32.ofNat h.partCount.val) ++ putU32 h.checksum

/-- `encode_into_buf`, whose `debug_assert!` wants a validated header. -/
def encodeIntoBuf (h : UDPourHeader) : Option (List UInt8) :=
  match h.validate with
  | .error _ => none
  | .ok _ => some h.toBytes

/-- `decode_from_buf`: the fields in order, each error as soon as its field is read;
`none` where a read runs past the end of the buffer. -/
def decodeFromBuf (buf : List UInt8) : Option (Except UDPourTypeError UDPourHeader) := do
  let (frameType, buf) ← getU8 buf
  match FrameType.tryFrom frameType with
  | .error e => return .error e
  | .ok frameType =>
    let (version, buf) ← getU8 buf
    let (flags, buf) ← getU8 buf
    let (reserved, buf) ← getU8 buf
    let (messageId, buf) ← getU32 buf
    let (partNumber, buf) ← getU32 buf
    let (partCount, buf) ← getU32 buf
    match PartCount.new partCount.toNat partCount.toNat_lt with
    | none => return .error .zeroPartCount
    | some partCount =>
      let (checksum, _) ← getU32 buf
      return validate ⟨frameType, version, flags, reserved, messageId, partNumber, partCount, checksum⟩

theorem eq_of_validate {h h' : UDPourHeader} (hvalid : h.validate = .ok h') : h = h' := by
  unfold validate at hvalid
  repeat' split at hvalid
  all_goals cases hvalid
  all_goals rfl

@[simp] theorem length_toBytes (h : UDPourHeader) : h.toBytes.length = 20 := by
  simp [toBytes]

theorem encodeIntoBuf_eq {h : UDPourHeader} (hvalid : h.validate = .ok h) :
    h.encodeIntoBuf = some h.toBytes := by
  simp [encodeIntoBuf, hvalid]

theorem decodeFromBuf_toBytes_append {h : UDPourHeader} (hvalid : h.validate = .ok h)
    (rest : List UInt8) : decodeFromBuf (h.toBytes ++ rest) = some (.ok h) := by
  have hcount : (UInt32.ofNat h.partCount.val).toNat = h.partCount.val :=
    UInt32.toNat_ofNat_of_lt' h.partCount.lt
  simp only [decodeFromBuf, toBytes, List.cons_append, List.nil_append, List.append_assoc,
    getU8_cons, getU32_putU32_append, FrameType.tryFrom_toU8, Option.bind_eq_bind,
    Option.bind_some, Option.pure_def]
  simp only [hcount, PartCount.new_val]
  exact congrArg some hvalid

theorem eq_of_decodeFromBuf {buf : List UInt8} {h : UDPourHeader}
    (hdec : decodeFromBuf buf = some (.ok h)) :
    buf = h.toBytes ++ buf.drop 20 ∧ h.validate = .ok h := by
  simp only [decodeFromBuf, Option.bind_eq_bind, Option.pure_def, Option.bind_eq_some_iff,
    Prod.exists] at hdec
  obtain ⟨frameTypeByte, buf₁, h₁, hdec⟩ := hdec
  split at hdec
  · cases hdec
  · rename_i frameType hframeType
    simp only [Option.bind_eq_some_iff, Prod.exists] at hdec
    obtain ⟨version, buf₂, h₂, flags, buf₃, h₃, reserved, buf₄, h₄, messageId, buf₅, h₅,
      partNumber, buf₆, h₆, partCountValue, buf₇, h₇, hdec⟩ := hdec
    split at hdec
    · cases hdec
    · rename_i partCount hpartCount
      simp only [Option.bind_eq_some_iff, Prod.exists, Option.some.injEq] at hdec
      obtain ⟨checksum, buf₈, h₈, hdec⟩ := hdec
      -- the validated header is the record of the fields read
      obtain rfl := eq_of_validate hdec
      have hcount : UInt32.ofNat partCount.val = partCountValue := by
        rw [PartCount.val_of_new hpartCount, UInt32.ofNat_toNat]
      have hbuf : buf = toBytes ⟨frameType, version, flags, reserved, messageId, partNumber,
          partCount, checksum⟩ ++ buf₈ := by
        rw [eq_of_getU8 h₁, eq_of_getU8 h₂, eq_of_getU8 h₃, eq_of_getU8 h₄, eq_of_getU32 h₅,
          eq_of_getU32 h₆, eq_of_getU32 h₇, eq_of_getU32 h₈, toBytes, hcount,
          FrameType.toU8_of_tryFrom hframeType]
        simp
      refine ⟨?_, hdec⟩
      conv_rhs => rw [hbuf]
      rw [List.drop_left' (length_toBytes _)]
      exact hbuf

theorem decodeFromBuf_isSome {buf : List UInt8} (hlen : 20 ≤ buf.length) :
    (decodeFromBuf buf).isSome := by
  rcases buf with _ | ⟨b₀, _ | ⟨b₁, _ | ⟨b₂, _ | ⟨b₃, rest₀⟩⟩⟩⟩ <;> simp only [List.length_cons,
    List.length_nil] at hlen <;> try omega
  -- the sixteen bytes after the first four are four `u32`s
  obtain ⟨messageId, rest₁, rfl, hlen₁⟩ := exists_putU32_append rest₀ (by omega)
  obtain ⟨partNumber, rest₂, rfl, hlen₂⟩ := exists_putU32_append rest₁ (by omega)
  obtain ⟨partCount, rest₃, rfl, hlen₃⟩ := exists_putU32_append rest₂ (by omega)
  obtain ⟨checksum, rest₄, rfl, -⟩ := exists_putU32_append rest₃ (by omega)
  simp only [decodeFromBuf, getU8_cons, getU32_putU32_append, Option.bind_eq_bind,
    Option.bind_some, Option.pure_def]
  split
  · rfl
  · split <;> rfl

end UDPourHeader

/-- What the codec uses of the roaring crate: `is_empty`, `serialized_size`,
`serialize_into` a growable buffer (which cannot fail) and `deserialize_from`, which
reads one bitmap off the front of a reader and leaves the bytes after it. -/
structure BitmapCodec (Bitmap : Type) where
  isEmpty : Bitmap → Bool
  serializedSize : Bitmap → ℕ
  serialize : Bitmap → List UInt8
  deserialize : List UInt8 → Option (Bitmap × List UInt8)

/-- The documented behaviour of the portable format: its size is `serialized_size`, it
starts with a cookie, and reading a serialization gives the bitmap back and leaves what
follows. -/
structure BitmapCodec.Lawful {Bitmap : Type} (codec : BitmapCodec Bitmap) : Prop where
  serializedSize_eq : ∀ b, codec.serializedSize b = (codec.serialize b).length
  serialize_ne_nil : ∀ b, codec.serialize b ≠ []
  deserialize_serialize : ∀ b rest, codec.deserialize (codec.serialize b ++ rest) = some (b, rest)

inductive UDPourFrame (Bitmap : Type) where
  | payload (header : UDPourHeader) (payload : List UInt8)
  | ack (header : UDPourHeader)
  | needParts (header : UDPourHeader) (missingParts : Bitmap)
  | noLongerAvailable (header : UDPourHeader)
deriving DecidableEq

namespace UDPourFrame

variable {Bitmap : Type}

def header : UDPourFrame Bitmap → UDPourHeader
  | .payload header _ | .ack header | .needParts header _ | .noLongerAvailable header => header

/-- The frame type the variant stands for. -/
def variantType : UDPourFrame Bitmap → FrameType
  | .payload .. => .payload
  | .ack _ => .ack
  | .needParts .. => .needParts
  | .noLongerAvailable _ => .noLongerAvailable

end UDPourFrame

end Wire

namespace Codec

open Wire

variable {Bitmap : Type} (codec : BitmapCodec Bitmap)

def encodedFrameLen : UDPourFrame Bitmap → ℕ
  | .payload _ payload => frameHeaderLen + payload.length
  | .ack _ | .noLongerAvailable _ => frameHeaderLen
  | .needParts _ missingParts => frameHeaderLen + codec.serializedSize missingParts

/-- The body of `decode_frame` after the header: `body_len` is the body's length. -/
def decodeBody (header : Wire.UDPourHeader) (body : List UInt8) : Except CodecError (UDPourFrame Bitmap) :=
  match header.frameType with
  | .payload => .ok (.payload header body)
  | .ack => if body.length = 0 then .ok (.ack header) else .error (.unexpectedBody header.frameType)
  | .noLongerAvailable =>
    if body.length = 0 then .ok (.noLongerAvailable header)
    else .error (.unexpectedBody header.frameType)
  | .needParts =>
    if body.length = 0 then .error .emptyNeedParts
    else
      match codec.deserialize body with
      | none => .error .bitmap
      -- what the reader left after the bitmap is dropped
      | some (missingParts, _) =>
        if codec.isEmpty missingParts then .error .emptyNeedParts
        else .ok (.needParts header missingParts)

/-- `decode_frame`; `none` where the source panics. The body is everything after the
header (the slice `try_slice` takes is always in range). -/
def decodeFrame (payload : List UInt8) : Option (Except CodecError (UDPourFrame Bitmap)) :=
  if payload.length < frameHeaderLen then some (.error (.frameTooShort payload.length))
  else
    match Wire.UDPourHeader.decodeFromBuf payload with
    | none => none
    | some (.error e) => some (.error (.type e))
    | some (.ok header) => some (decodeBody codec header (payload.drop frameHeaderLen))

/-- `encode_frame`; the header is validated first, so `encode_header`'s `expect` holds. -/
def encodeFrame (frame : UDPourFrame Bitmap) : Option (Except CodecError (List UInt8)) :=
  match frame.header.validate with
  | .error e => some (.error (.type e))
  | .ok _ =>
    frame.header.encodeIntoBuf.map fun header =>
      match frame with
      | .payload _ payload => .ok (header ++ payload)
      | .ack _ | .noLongerAvailable _ => .ok header
      | .needParts _ missingParts => .ok (header ++ codec.serialize missingParts)

variable {codec}

theorem decodeFrame_isSome (payload : List UInt8) : (decodeFrame codec payload).isSome := by
  unfold decodeFrame
  split_ifs with hlen
  · rfl
  · have hlong : 20 ≤ payload.length := by
      unfold frameHeaderLen at hlen
      omega
    have hsome := Wire.UDPourHeader.decodeFromBuf_isSome hlong
    split
    · simp_all
    · rfl
    · rfl

theorem decodeFrame_toBytes_append {header : Wire.UDPourHeader} (hvalid : header.validate = .ok header)
    (body : List UInt8) :
    decodeFrame codec (header.toBytes ++ body) = some (decodeBody codec header body) := by
  have hlen : ¬(header.toBytes ++ body).length < frameHeaderLen := by
    simp [frameHeaderLen]
  rw [decodeFrame, if_neg hlen, Wire.UDPourHeader.decodeFromBuf_toBytes_append hvalid]
  simp [frameHeaderLen, List.drop_left']

theorem eq_of_decodeFrame {bytes : List UInt8} {frame : UDPourFrame Bitmap}
    (hdec : decodeFrame codec bytes = some (.ok frame)) :
    ∃ header body, bytes = header.toBytes ++ body ∧ header.validate = .ok header ∧
      decodeBody codec header body = .ok frame := by
  unfold decodeFrame at hdec
  split_ifs at hdec
  · cases hdec
  split at hdec
  · cases hdec
  · cases hdec
  · rename_i header hheader
    obtain ⟨hbytes, hvalid⟩ := Wire.UDPourHeader.eq_of_decodeFromBuf hheader
    exact ⟨header, _, hbytes, hvalid, Option.some.inj hdec⟩

theorem encodeFrame_eq {frame : UDPourFrame Bitmap}
    (hvalid : frame.header.validate = .ok frame.header) :
    encodeFrame codec frame = some (.ok (frame.header.toBytes ++ match frame with
      | .payload _ payload => payload
      | .ack _ | .noLongerAvailable _ => []
      | .needParts _ missingParts => codec.serialize missingParts)) := by
  rw [encodeFrame, hvalid]
  dsimp only
  rw [Wire.UDPourHeader.encodeIntoBuf_eq hvalid]
  cases frame <;> simp

/-- Conversely, with a bitmap reader that reads only serializations, a decoded datagram
is the encoding of its frame followed by what the reader left, which is nothing unless
the frame is `NeedParts`. -/
theorem encodeFrame_of_decodeFrame
    (hread : ∀ bs missingParts rest, codec.deserialize bs = some (missingParts, rest) →
      bs = codec.serialize missingParts ++ rest)
    {bytes : List UInt8} {frame : UDPourFrame Bitmap}
    (hdec : decodeFrame codec bytes = some (.ok frame)) :
    ∃ encoded ignored, encodeFrame codec frame = some (.ok encoded) ∧ bytes = encoded ++ ignored ∧
      (frame.variantType ≠ .needParts → ignored = []) := by
  obtain ⟨header, body, rfl, hvalid, hbody⟩ := eq_of_decodeFrame hdec
  unfold decodeBody at hbody
  split at hbody
  · cases hbody
    exact ⟨_, [], @encodeFrame_eq Bitmap codec (.payload header body) hvalid, by simp [UDPourFrame.header],
      fun _ => rfl⟩
  · split_ifs at hbody with hlen
    cases hbody
    rw [List.length_eq_zero_iff] at hlen
    subst hlen
    exact ⟨_, [], @encodeFrame_eq Bitmap codec (.ack header) hvalid, by simp [UDPourFrame.header],
      fun _ => rfl⟩
  · split_ifs at hbody with hlen
    cases hbody
    rw [List.length_eq_zero_iff] at hlen
    subst hlen
    exact ⟨_, [], @encodeFrame_eq Bitmap codec (.noLongerAvailable header) hvalid,
      by simp [UDPourFrame.header], fun _ => rfl⟩
  · split_ifs at hbody
    split at hbody
    · cases hbody
    · rename_i missingParts rest hdeserialize
      split_ifs at hbody
      cases hbody
      -- the reader's rest is the only part of the datagram the frame does not give back
      refine ⟨_, rest, @encodeFrame_eq Bitmap codec (.needParts header missingParts) hvalid, ?_,
        fun hne => absurd rfl hne⟩
      rw [hread _ _ _ hdeserialize]
      simp [UDPourFrame.header]

section Lawful

variable (hcodec : codec.Lawful)
include hcodec

/-- Encoding a frame whose header is valid and names its variant, and decoding the
datagram, gives the frame back; `encoded_frame_len` is the datagram's length. -/
theorem decodeFrame_encodeFrame {frame : UDPourFrame Bitmap}
    (hvalid : frame.header.validate = .ok frame.header)
    (htype : frame.header.frameType = frame.variantType)
    (hbitmap : ∀ header missingParts, frame = .needParts header missingParts →
      codec.isEmpty missingParts = false) :
    ∃ bytes, encodeFrame codec frame = some (.ok bytes) ∧
      decodeFrame codec bytes = some (.ok frame) ∧ encodedFrameLen codec frame = bytes.length := by
  refine ⟨_, encodeFrame_eq hvalid, ?_, ?_⟩
  · rw [decodeFrame_toBytes_append hvalid]
    cases frame with
    | payload header payload => simp_all [decodeBody, UDPourFrame.header, UDPourFrame.variantType]
    | ack header => simp_all [decodeBody, UDPourFrame.header, UDPourFrame.variantType]
    | noLongerAvailable header => simp_all [decodeBody, UDPourFrame.header, UDPourFrame.variantType]
    | needParts header missingParts =>
      have hne := hcodec.serialize_ne_nil missingParts
      have hread := hcodec.deserialize_serialize missingParts []
      simp only [List.append_nil] at hread
      simp_all [decodeBody, UDPourFrame.header, UDPourFrame.variantType]
  · cases frame <;> simp [encodedFrameLen, frameHeaderLen, hcodec.serializedSize_eq]

/-- A datagram of a `NeedParts` frame with bytes after its bitmap decodes to the frame,
which encodes to the datagram without those bytes. -/
theorem need_parts_bytes_after_bitmap_are_dropped {header : Wire.UDPourHeader}
    (hvalid : header.validate = .ok header) (htype : header.frameType = .needParts)
    {missingParts : Bitmap} (hne : codec.isEmpty missingParts = false)
    {extra : List UInt8} (hextra : extra ≠ []) :
    decodeFrame codec (header.toBytes ++ codec.serialize missingParts ++ extra) =
        some (.ok (.needParts header missingParts)) ∧
      encodeFrame codec (.needParts header missingParts) =
        some (.ok (header.toBytes ++ codec.serialize missingParts)) ∧
      header.toBytes ++ codec.serialize missingParts ≠
        header.toBytes ++ codec.serialize missingParts ++ extra := by
  refine ⟨?_, @encodeFrame_eq Bitmap codec (.needParts header missingParts) hvalid,
    by simpa using hextra.symm⟩
  rw [List.append_assoc, decodeFrame_toBytes_append hvalid]
  simp only [decodeBody, htype, hcodec.deserialize_serialize, hne]
  simp [hextra]

end Lawful

/-- The portable format of `roaring` on the bitmaps `∅` (`false`) and `{0}` (`true`): the
cookie and the container count, then for `{0}` one array container's key, cardinality,
offset and value, 18 bytes in all. -/
def portableSingleton (b : Bool) : List UInt8 :=
  if b then [0x3A, 0x30, 0, 0, 1, 0, 0, 0, 0, 0, 0, 0, 0x10, 0, 0, 0, 0, 0]
  else [0x3A, 0x30, 0, 0, 0, 0, 0, 0]

/-- `serialized_size`, `serialize_into` and `deserialize_from` on those two bitmaps. -/
def portableSingletonCodec : BitmapCodec Bool where
  isEmpty b := !b
  serializedSize b := (portableSingleton b).length
  serialize := portableSingleton
  deserialize bytes :=
    if portableSingleton true <+: bytes then some (true, bytes.drop 18)
    else if portableSingleton false <+: bytes then some (false, bytes.drop 8)
    else none

theorem portableSingletonCodec_lawful : portableSingletonCodec.Lawful where
  serializedSize_eq _ := rfl
  serialize_ne_nil b := by cases b <;> simp [portableSingletonCodec, portableSingleton]
  deserialize_serialize b rest := by
    cases b with
    | true => simp [portableSingletonCodec, portableSingleton]
    | false =>
      -- the container counts differ in the fifth byte
      have hne : ¬ portableSingleton true <+: portableSingleton false ++ rest := by
        rintro ⟨t, ht⟩
        have h4 := congrArg (·[4]?) ht
        simp [portableSingleton] at h4
      simp only [portableSingletonCodec, if_neg hne, List.prefix_append, if_true]
      simp [portableSingleton]

theorem need_parts_bytes_after_bitmap_are_dropped_portable_format :
    let header : Wire.UDPourHeader := ⟨.needParts, 1, 0, 0, 7, 0, ⟨1, Nat.one_pos, by norm_num⟩, 0⟩
    let bitmap := portableSingletonCodec.serialize true
    decodeFrame portableSingletonCodec (header.toBytes ++ bitmap ++ [0]) =
        some (.ok (.needParts header true)) ∧
      encodeFrame portableSingletonCodec (.needParts header true) = some (.ok (header.toBytes ++ bitmap)) ∧
      header.toBytes ++ bitmap ≠ header.toBytes ++ bitmap ++ [0] :=
  need_parts_bytes_after_bitmap_are_dropped portableSingletonCodec_lawful rfl rfl rfl
    (List.cons_ne_nil _ _)

end Codec

/-- The header fields the state machines read. -/
def Wire.UDPourHeader.toHeader (h : Wire.UDPourHeader) : Flotsync.Udpour.UDPourHeader :=
  ⟨h.isRetransmit, h.messageId, h.partNumber.toNat, h.partCount, h.checksum⟩

/-- The datagram frame the sender's payload frame is: the header of `payload_with_flags`,
with the retransmit bit set on retransmissions. -/
def PayloadFrame.toWire {Bitmap : Type} (frame : PayloadFrame) : Wire.UDPourFrame Bitmap :=
  .payload (Wire.UDPourHeader.payloadWithFlags frame.header.messageId
    (UInt32.ofNat frame.header.partNumber) frame.header.partCount frame.header.checksum
    (if frame.header.retransmit then 1 else 0)) frame.payload

theorem PayloadFrame.decodeFrame_toWire {Bitmap : Type} (codec : Wire.BitmapCodec Bitmap)
    {frame : PayloadFrame} (hpart : frame.header.partNumber < frame.header.partCount.val) :
    ∃ bytes header, Codec.encodeFrame codec (frame.toWire : Wire.UDPourFrame Bitmap) = some (.ok bytes) ∧
      Codec.decodeFrame codec bytes = some (.ok (.payload header frame.payload)) ∧
      header.toHeader = frame.header := by
  have hnumber : (UInt32.ofNat frame.header.partNumber).toNat = frame.header.partNumber :=
    UInt32.toNat_ofNat_of_lt' (lt_of_lt_of_eq (hpart.trans frame.header.partCount.lt) (by norm_num))
  have hvalid : (frame.toWire : Wire.UDPourFrame Bitmap).header.validate =
      .ok (frame.toWire : Wire.UDPourFrame Bitmap).header := by
    simp [toWire, Wire.UDPourFrame.header, Wire.UDPourHeader.validate,
      Wire.UDPourHeader.payloadWithFlags, hnumber, hpart]
  refine ⟨_, (frame.toWire : Wire.UDPourFrame Bitmap).header, Codec.encodeFrame_eq hvalid, ?_, ?_⟩
  · rw [Codec.decodeFrame_toBytes_append hvalid]
    rfl
  · obtain ⟨⟨retransmit, messageId, partNumber, partCount, checksum⟩, payload⟩ := frame
    simp only at hnumber
    cases retransmit <;> simp [Wire.UDPourHeader.toHeader, Wire.UDPourFrame.header, toWire,
      Wire.UDPourHeader.payloadWithFlags, Wire.UDPourHeader.isRetransmit, hnumber]

/-- Every frame `start_transfer` sends crosses the wire unchanged. -/
theorem SenderMachine.decodeFrame_startTransfer {Bitmap : Type} (codec : Wire.BitmapCodec Bitmap)
    {crc32c : List UInt8 → UInt32} {s s' : SenderMachine} {payload : List UInt8} {now : ℕ}
    {messageId : UInt32} {frames : List PayloadFrame}
    (hstart : s.startTransfer crc32c payload now = some (s', .ok (.sendPayloads messageId frames))) :
    ∀ frame ∈ frames, ∃ bytes header,
      Codec.encodeFrame codec (frame.toWire : Wire.UDPourFrame Bitmap) = some (.ok bytes) ∧
      Codec.decodeFrame codec bytes = some (.ok (.payload header frame.payload)) ∧
      header.toHeader = frame.header := by
  obtain ⟨messageId', frames', live, haction, -, -, -, hsent⟩ := startTransfer_eq_ok hstart
  cases haction
  intro frame hframe
  have hpart := (hsent frame hframe).partNumber_lt
  rw [← (hsent frame hframe).partCount_eq] at hpart
  exact frame.decodeFrame_toWire codec hpart

end Flotsync.Udpour
