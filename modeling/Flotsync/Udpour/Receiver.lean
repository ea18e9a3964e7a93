import Flotsync.Udpour.Types

/-!
The receiver of `UDPour`. For each `(source, message_id)` it holds a pending transfer,
with one slot per part and the set of missing part numbers, or, once the transfer
was delivered, a tombstone that answers late frames of the same message with an
`Ack` and suppresses a second delivery. A frame that disagrees with the transfer's
metadata, its regular part size or an earlier copy of its part purges the transfer
as confused; a complete transfer whose bytes fail the checksum is purged too.

Two functions are parameters: `crc32c`, the CRC32C of a byte string (the source
chains `crc32c_append` over the chunks of the reassembled payload), and
`fitOneNeedPartsFrame`, the codec that fits missing part numbers into one
`NeedParts` frame of bounded size (its size depends on the roaring encoding).
-/

set_option autoImplicit false

namespace Flotsync.Udpour

structure ReceiverConfig where
  repairInterval : ℕ
  giveUpTimeout : ℕ
  maxNeedPartsFrameLen : ℕ
  deliveredTombstoneTimeout : ℕ

structure ReceiverTransferKey (S : Type) where
  source : S
  messageId : UInt32
deriving DecidableEq

inductive ReceiverPurgeReason where
  | confused
  | checksumMismatch
  | deliveredTombstoneExpired
  | noLongerAvailable
  | timedOut
deriving DecidableEq, Repr

inductive ReceiverAction (S : Type) where
  | deliver (source : S) (payload : List UInt8)
  | sendAck (source : S) (frame : AckFrame)
  | sendNeedParts (source : S) (frame : NeedPartsFrame)
  | purged (key : ReceiverTransferKey S) (reason : ReceiverPurgeReason)
deriving DecidableEq

/-- The errors of the codec; the receiver passes on those of `NeedParts` frames. A
bitmap error does not keep its source, and a slice of the datagram is always in range. -/
inductive CodecError where
  | frameTooShort (len : ℕ)
  | unexpectedBody (frameType : FrameType)
  | emptyNeedParts
  | maxFrameLenTooSmall (maxFrameLen : ℕ)
  | bitmap
  | type (source : UDPourTypeError)
deriving DecidableEq, Repr

inductive ReceiverError where
  | splitNeedParts (source : CodecError)
deriving DecidableEq, Repr

structure InboundTransfer where
  partCount : PartCount
  checksum : UInt32
  parts : List (Option (List UInt8))
  missingParts : Finset ℕ
  /-- The largest missing part number of the last repair request. -/
  repairWatermark : Option ℕ
  regularPartSize : Option ℕ
  giveUpDeadline : ℕ
  repairDeadline : ℕ

structure DeliveredTombstone where
  partCount : PartCount
  checksum : UInt32
  expiresAt : ℕ

def DeliveredTombstone.matches (t : DeliveredTombstone) (partCount : PartCount)
    (checksum : UInt32) : Bool :=
  t.partCount = partCount && t.checksum = checksum

inductive InboundState where
  | pending (transfer : InboundTransfer)
  | delivered (tombstone : DeliveredTombstone)

inductive InboundUpdate where
  | pending
  | deliver (payload : List UInt8) (messageId : UInt32) (partCount : PartCount) (checksum : UInt32)
  | purged (reason : ReceiverPurgeReason)

namespace InboundTransfer

def new (partCount : PartCount) (checksum : UInt32) (now : ℕ) (config : ReceiverConfig) :
    Option InboundTransfer := do
  let giveUpDeadline ← addDuration now config.giveUpTimeout
  let repairDeadline ← addDuration now config.repairInterval
  some ⟨partCount, checksum, List.replicate partCount.val none, Finset.range partCount.val, none, none,
    giveUpDeadline, repairDeadline⟩

/-- The parts in order, joined; the source asserts that every slot is filled. -/
def assemblePayload (t : InboundTransfer) : Option (List UInt8) :=
  (t.parts.mapM id).map List.flatten

variable (crc32c : List UInt8 → UInt32)

/-- The end of `accept_payload`: reset both deadlines, and deliver once no part is
missing and the reassembled bytes pass the checksum. -/
def finishPayload (t : InboundTransfer) (messageId : UInt32) (now : ℕ) (config : ReceiverConfig) :
    Option (InboundUpdate × InboundTransfer) := do
  let giveUpDeadline ← addDuration now config.giveUpTimeout
  let repairDeadline ← addDuration now config.repairInterval
  let t := { t with giveUpDeadline, repairDeadline }
  if t.missingParts = ∅ then
    t.assemblePayload.map fun payload =>
      if crc32c payload ≠ t.checksum then (.purged .checksumMismatch, t)
      else (.deliver payload messageId t.partCount t.checksum, t)
  else some (.pending, t)

/-- The part's slot in `accept_payload`: the first copy of a part is kept, a
differing later copy is confusion. -/
def storePart (t : InboundTransfer) (frame : PayloadFrame) (now : ℕ) (config : ReceiverConfig) :
    Option (InboundUpdate × InboundTransfer) :=
  let partIndex := frame.header.partNumber
  match t.parts[partIndex]? with
  | none => none
  | some (some existing) =>
    if existing ≠ frame.payload then some (.purged .confused, t)
    else t.finishPayload crc32c frame.header.messageId now config
  | some none =>
    { t with parts := t.parts.set partIndex (some frame.payload)
             missingParts := t.missingParts.erase partIndex }.finishPayload crc32c
      frame.header.messageId now config

/-- `InboundTransfer::accept_payload`. Every part but the final one must have the
size of the first such part seen. -/
def acceptPayload (t : InboundTransfer) (frame : PayloadFrame) (now : ℕ) (config : ReceiverConfig) :
    Option (InboundUpdate × InboundTransfer) :=
  if frame.header.partCount ≠ t.partCount ∨ frame.header.checksum ≠ t.checksum ∨
      t.partCount.val ≤ frame.header.partNumber then
    some (.purged .confused, t)
  else if frame.header.partNumber = t.partCount.lastPartNumber then
    t.storePart crc32c frame now config
  else
    match t.regularPartSize with
    | some existing =>
      if existing ≠ frame.payload.length then some (.purged .confused, t)
      else t.storePart crc32c frame now config
    | none => { t with regularPartSize := some frame.payload.length }.storePart crc32c frame now config

end InboundTransfer

section Repair

variable (fitOneNeedPartsFrame : UInt32 → PartCount → UInt32 → Finset ℕ → Option ℕ → ℕ →
  Except CodecError (Option NeedPartsFrame))

/-- `next_need_parts_frame`: the next repair request, walking forward from the
watermark and wrapping once; the source asserts that the wrap finds a frame. -/
def InboundTransfer.nextNeedPartsFrame (t : InboundTransfer) (messageId : UInt32)
    (maxNeedPartsFrameLen : ℕ) : Option (Except ReceiverError (Option NeedPartsFrame) × InboundTransfer) :=
  if t.missingParts = ∅ then some (.ok none, t) else
  let fit (after : Option ℕ) := fitOneNeedPartsFrame messageId t.partCount t.checksum t.missingParts
    after maxNeedPartsFrameLen
  let emit (frame : NeedPartsFrame) :=
    let watermark := if h : frame.missingParts.Nonempty then some (frame.missingParts.max' h) else none
    some (.ok (some frame), { t with repairWatermark := watermark })
  match fit t.repairWatermark with
  | .error e => some (.error (.splitNeedParts e), t)
  | .ok (some frame) => emit frame
  | .ok none =>
    match fit none with
    | .error e => some (.error (.splitNeedParts e), t)
    | .ok (some frame) => emit frame
    | .ok none => none

end Repair

structure ReceiverMachine (S : Type) where
  config : ReceiverConfig
  transfers : AList fun _ : ReceiverTransferKey S => InboundState

namespace ReceiverMachine

variable {S : Type} [DecidableEq S]

abbrev Transfers (S : Type) := AList fun _ : ReceiverTransferKey S => InboundState

def new (config : ReceiverConfig) : ReceiverMachine S := ⟨config, ∅⟩

def ackFrame (messageId : UInt32) (partCount : PartCount) (checksum : UInt32) : AckFrame :=
  ⟨messageId, partCount, checksum⟩

/-- What a delivery does to the entry: a tombstone replaces it, and the payload goes
up with an `Ack` back to the sender. -/
def deliverActions (config : ReceiverConfig) (source : S) (payload : List UInt8)
    (messageId : UInt32) (partCount : PartCount) (checksum : UInt32) (now : ℕ) :
    Option (InboundState × List (ReceiverAction S)) :=
  (addDuration now config.deliveredTombstoneTimeout).map fun expiresAt =>
    (.delivered ⟨partCount, checksum, expiresAt⟩,
      [.deliver source payload, .sendAck source (ackFrame messageId partCount checksum)])

def applyPendingUpdate (config : ReceiverConfig) (source : S) (key : ReceiverTransferKey S)
    (transfers : Transfers S) (transfer : InboundTransfer) (update : InboundUpdate) (now : ℕ) :
    Option (Transfers S × List (ReceiverAction S)) :=
  match update with
  | .pending => some (transfers.insert key (.pending transfer), [])
  | .deliver payload messageId partCount checksum =>
    (deliverActions config source payload messageId partCount checksum now).map
      fun (state, actions) => (transfers.insert key state, actions)
  | .purged reason => some (transfers.erase key, [.purged key reason])

def applyNewTransferUpdate (config : ReceiverConfig) (source : S) (key : ReceiverTransferKey S)
    (transfers : Transfers S) (transfer : InboundTransfer) (update : InboundUpdate) (now : ℕ) :
    Option (Transfers S × List (ReceiverAction S)) :=
  match update with
  | .pending => some (transfers.insert key (.pending transfer), [])
  | .deliver payload messageId partCount checksum =>
    (deliverActions config source payload messageId partCount checksum now).map
      fun (state, actions) => (transfers.insert key state, actions)
  | .purged reason => some (transfers, [.purged key reason])

variable (crc32c : List UInt8 → UInt32)

/-- `accept_delivered_payload`: a frame of the delivered message is acknowledged
again; a retransmission of another one is dropped; any other frame starts a new
transfer under the reused id. -/
def acceptDeliveredPayload (config : ReceiverConfig) (key : ReceiverTransferKey S)
    (tombstone : DeliveredTombstone) (frame : PayloadFrame) (now : ℕ) :
    Option (Option InboundState × List (ReceiverAction S)) :=
  if tombstone.matches frame.header.partCount frame.header.checksum then
    some (some (.delivered tombstone), [.sendAck key.source
      (ackFrame key.messageId frame.header.partCount frame.header.checksum)])
  else if frame.header.retransmit then some (some (.delivered tombstone), [])
  else do
    let transfer ← InboundTransfer.new frame.header.partCount frame.header.checksum now config
    let (update, transfer) ← transfer.acceptPayload crc32c frame now config
    match update with
    | .pending => some (some (.pending transfer), [])
    | .deliver payload messageId partCount checksum =>
      (deliverActions config key.source payload messageId partCount checksum now).map
        fun (state, actions) => (some state, actions)
    | .purged reason => some (none, [.purged key reason])

/-- `ReceiverMachine::accept_payload`. -/
def acceptPayload (m : ReceiverMachine S) (source : S) (frame : PayloadFrame) (now : ℕ) :
    Option (ReceiverMachine S × List (ReceiverAction S)) :=
  let key : ReceiverTransferKey S := ⟨source, frame.header.messageId⟩
  match m.transfers.lookup key with
  | some (.delivered tombstone) =>
    (acceptDeliveredPayload crc32c m.config key tombstone frame now).map fun (next, actions) =>
      match next with
      | some state => ({ m with transfers := m.transfers.insert key state }, actions)
      | none => ({ m with transfers := m.transfers.erase key }, actions)
  | some (.pending transfer) => do
    let (update, transfer) ← transfer.acceptPayload crc32c frame now m.config
    let (transfers, actions) ←
      applyPendingUpdate m.config source key m.transfers transfer update now
    some ({ m with transfers }, actions)
  | none => do
    let transfer ← InboundTransfer.new frame.header.partCount frame.header.checksum now m.config
    let (update, transfer) ← transfer.acceptPayload crc32c frame now m.config
    let (transfers, actions) ←
      applyNewTransferUpdate m.config source key m.transfers transfer update now
    some ({ m with transfers }, actions)

/-- `accept_no_longer_available`: the sender gave up the message, so its pending
transfer is purged if the metadata agree. -/
def acceptNoLongerAvailable (m : ReceiverMachine S) (source : S) (frame : NoLongerAvailableFrame) :
    ReceiverMachine S × Option (ReceiverAction S) :=
  let key : ReceiverTransferKey S := ⟨source, frame.messageId⟩
  match m.transfers.lookup key with
  | some (.pending transfer) =>
    if transfer.partCount ≠ frame.partCount ∨ transfer.checksum ≠ frame.checksum then (m, none)
    else ({ m with transfers := m.transfers.erase key }, some (.purged key .noLongerAvailable))
  | _ => (m, none)

variable (fitOneNeedPartsFrame : UInt32 → PartCount → UInt32 → Finset ℕ → Option ℕ → ℕ →
  Except CodecError (Option NeedPartsFrame))

/-- One round of the `poll_timeouts` loop. A pending transfer without missing parts
reaches the source's `unreachable!`, here `none`. -/
def pollKey (config : ReceiverConfig) (now : ℕ) (key : ReceiverTransferKey S)
    (transfers : Transfers S) : Option (Transfers S × Except ReceiverError (List (ReceiverAction S))) :=
  match transfers.lookup key with
  | none => some (transfers, .ok [])
  | some (.pending transfer) =>
    if transfer.giveUpDeadline ≤ now then
      some (transfers.erase key, .ok [.purged key .timedOut])
    else if transfer.repairDeadline ≤ now then
      match transfer.nextNeedPartsFrame fitOneNeedPartsFrame key.messageId
          config.maxNeedPartsFrameLen with
      | none => none
      | some (.error e, _) => some (transfers, .error e)
      | some (.ok none, _) => none
      | some (.ok (some frame), transfer) =>
        (addDuration now config.repairInterval).map fun repairDeadline =>
          (transfers.insert key (.pending { transfer with repairDeadline }),
            .ok [.sendNeedParts key.source frame])
    else some (transfers, .ok [])
  | some (.delivered tombstone) =>
    if tombstone.expiresAt ≤ now then
      some (transfers.erase key, .ok [.purged key .deliveredTombstoneExpired])
    else some (transfers, .ok [])

/-- The loop of `poll_timeouts` over the keys present when it starts; an error ends
it with the changes made so far. -/
def pollKeys (config : ReceiverConfig) (now : ℕ) :
    List (ReceiverTransferKey S) → Transfers S →
      Option (Transfers S × Except ReceiverError (List (ReceiverAction S)))
  | [], transfers => some (transfers, .ok [])
  | key :: rest, transfers =>
    match pollKey fitOneNeedPartsFrame config now key transfers with
    | none => none
    | some (transfers, .error e) => some (transfers, .error e)
    | some (transfers, .ok actions) =>
      (pollKeys config now rest transfers).map fun (transfers, result) =>
        (transfers, result.map (actions ++ ·))

/-- `poll_timeouts`: purge stalled transfers and expired tombstones, and ask for the
missing parts of transfers whose repair deadline passed. `keys` are the map's keys in
the order the hash map yields them, which the code leaves open. -/
def pollTimeouts (m : ReceiverMachine S) (now : ℕ) (keys : List (ReceiverTransferKey S)) :
    Option (ReceiverMachine S × Except ReceiverError (List (ReceiverAction S))) :=
  (pollKeys fitOneNeedPartsFrame m.config now keys m.transfers).map
    fun (transfers, result) => ({ m with transfers }, result)

end ReceiverMachine

end Flotsync.Udpour
