import Mathlib

/-!
The frames of `UDPour`, the multipart protocol that carries one logical payload over
one UDP route in parts. Every frame carries the message id, the part count and the
whole-message checksum; a payload frame adds its zero-based part number and bytes.
Bytes are `UInt8` lists (an `IoPayload` is only looked at as its bytes). The
frames here carry the header fields the state machines read; the protocol version,
the flag and reserved bytes and the frame type are kept by the wire header of the
codec.
-/

set_option autoImplicit false

namespace Flotsync.Udpour

/-- `PartCount`: a non-zero `u32`. -/
structure PartCount where
  val : ℕ
  pos : 0 < val
  lt : val < 2 ^ 32
deriving DecidableEq

namespace PartCount

/-- `PartCount::new` on a `u32` value; a zero count is refused. -/
def new (value : ℕ) (h : value < 2 ^ 32) : Option PartCount :=
  if hv : 0 < value then some ⟨value, hv, h⟩ else none

def lastPartNumber (c : PartCount) : ℕ := c.val - 1

theorem lastPartNumber_lt (c : PartCount) : c.lastPartNumber < c.val := by
  have := c.pos
  unfold lastPartNumber
  omega

end PartCount

/-- `PROTOCOL_VERSION`. -/
def protocolVersion : UInt8 := 1

/-- `FrameType`: sender frames have the top bit clear, receiver frames set. -/
inductive FrameType where
  | payload
  | noLongerAvailable
  | ack
  | needParts
deriving DecidableEq, Repr

inductive UDPourTypeError where
  | unsupportedVersion (version : UInt8)
  | unknownFrameType (value : UInt8)
  | zeroPartCount
  | partNumberOutOfRange (partNumber partCount : ℕ)
  | controlPartNumberMustBeZero (partNumber : ℕ)
  | payloadControlHeader
deriving DecidableEq, Repr

/-- The header fields a payload frame carries; `retransmit` is the low flag bit. -/
structure UDPourHeader where
  retransmit : Bool
  messageId : UInt32
  partNumber : ℕ
  partCount : PartCount
  checksum : UInt32
deriving DecidableEq

structure PayloadFrame where
  header : UDPourHeader
  payload : List UInt8
deriving DecidableEq

/-- Control frames carry no part number (it is zero on the wire). -/
structure AckFrame where
  messageId : UInt32
  partCount : PartCount
  checksum : UInt32
deriving DecidableEq

structure NeedPartsFrame where
  messageId : UInt32
  partCount : PartCount
  checksum : UInt32
  missingParts : Finset ℕ
deriving DecidableEq

structure NoLongerAvailableFrame where
  messageId : UInt32
  partCount : PartCount
  checksum : UInt32
deriving DecidableEq

/-! Times are `Instant`s and `Duration`s counted in nanoseconds. `Instant + Duration`
panics past the latest instant of the clock, here that of `std` on Unix: `i64::MAX`
seconds and the largest sub-second part. -/

/-- `Duration::MAX`: `u64::MAX` seconds and the largest sub-second part. -/
def durationMax : ℕ := (2 ^ 64 - 1) * 10 ^ 9 + (10 ^ 9 - 1)

def instantMax : ℕ := (2 ^ 63 - 1) * 10 ^ 9 + (10 ^ 9 - 1)

/-- `Instant + Duration`; `none` where it panics. -/
def addDuration (now duration : ℕ) : Option ℕ :=
  if now + duration ≤ instantMax then some (now + duration) else none

/-- `Duration::saturating_add`. -/
def saturatingAdd (a b : ℕ) : ℕ := min (a + b) durationMax

@[simp] theorem addDuration_eq_some {now duration t : ℕ} :
    addDuration now duration = some t ↔ now + duration ≤ instantMax ∧ now + duration = t := by
  unfold addDuration
  split_ifs with h <;> simp [h]

theorem addDuration_of_le {now duration : ℕ} (h : now + duration ≤ instantMax) :
    addDuration now duration = some (now + duration) := if_pos h

def NeedPartsFrame.noLongerAvailableFrame (frame : NeedPartsFrame) : NoLongerAvailableFrame :=
  ⟨frame.messageId, frame.partCount, frame.checksum⟩

end Flotsync.Udpour
