import Flotsync.Udpour.Types
import Flotsync.Lib.Chunks

/-!
The sender of `UDPour`: it allocates a message id that is neither live nor cooling
down, slices the payload into parts of `max_part_payload_len` bytes (the last one
shorter, and one empty part for an empty payload), keeps the message for repairs,
and answers `NeedParts` with retransmissions of the requested parts. The checksum
`crc32c` is a parameter: the CRC32C of the payload bytes, which the source computes
chunk by chunk with `crc32c_append`.
-/

set_option autoImplicit false

namespace Flotsync.Udpour

structure SenderConfig where
  /-- `NonZeroUsize`. -/
  maxPartPayloadLen : ℕ
  maxPartPayloadLen_pos : 0 < maxPartPayloadLen
  retentionTimeout : ℕ
  idReuseCooldown : ℕ
  eagerAckCleanup : Bool

inductive SenderError where
  | tooManyParts (payloadLen maxPartPayloadLen : ℕ)
  | invalidPartCount
  | messageIdExhausted
  | requestedPartOutOfRange (partNumber partCount : ℕ)
deriving DecidableEq, Repr

inductive SenderPurgeReason where
  | acked
  | aborted
  | retentionExpired
deriving DecidableEq, Repr

inductive SenderAction where
  | sendPayloads (messageId : UInt32) (frames : List PayloadFrame)
  | sendNoLongerAvailable (frame : NoLongerAvailableFrame)
  | observedAck (messageId : UInt32)
  | purged (messageId : UInt32) (reason : SenderPurgeReason)
deriving DecidableEq

/-- `part_count_for_payload`: `⌈max(len, 1) / m⌉` parts, which must fit in a `u32`. -/
def partCountForPayload (payloadLen maxPartPayloadLen : ℕ) : Except SenderError PartCount :=
  let partCount := (max payloadLen 1 + maxPartPayloadLen - 1) / maxPartPayloadLen
  if h : partCount < 2 ^ 32 then
    match PartCount.new partCount h with
    | some c => .ok c
    | none => .error .invalidPartCount
  else .error (.tooManyParts payloadLen maxPartPayloadLen)

/-- `get_slice_for_part`: `max_part_payload_len` bytes from the part's offset, the
rest of the payload for the final part; the source asserts the range is inside the
payload. -/
def getSliceForPart (payload : List UInt8) (maxPartPayloadLen partNumber : ℕ)
    (partCount : PartCount) : Option (List UInt8) :=
  let start := partNumber * maxPartPayloadLen
  let len := if partNumber = partCount.lastPartNumber then payload.length - start
    else maxPartPayloadLen
  if start + len ≤ payload.length then some ((payload.drop start).take len) else none

/-- A message kept for repairs; `expiresAt` is unset until the initial send is done. -/
structure LiveMessage where
  payload : List UInt8
  checksum : UInt32
  partCount : PartCount
  expiresAt : Option ℕ

namespace LiveMessage

def «matches» (live : LiveMessage) (partCount : PartCount) (checksum : UInt32) : Bool :=
  live.partCount = partCount && live.checksum = checksum

def payloadFrame (live : LiveMessage) (messageId : UInt32) (maxPartPayloadLen partNumber : ℕ)
    (retransmit : Bool) : Option PayloadFrame :=
  (getSliceForPart live.payload maxPartPayloadLen partNumber live.partCount).map fun payload =>
    ⟨⟨retransmit, messageId, partNumber, live.partCount, live.checksum⟩, payload⟩

def allPayloadFrames (live : LiveMessage) (messageId : UInt32) (maxPartPayloadLen : ℕ) :
    Option (List PayloadFrame) :=
  (List.range live.partCount.val).mapM fun partNumber =>
    live.payloadFrame messageId maxPartPayloadLen partNumber false

/-- The retransmissions of the requested parts, in ascending order; a part beyond
the message is refused. -/
def payloadFramesForMissingParts (live : LiveMessage) (messageId : UInt32)
    (maxPartPayloadLen : ℕ) (missingParts : Finset ℕ) :
    Option (Except SenderError (List PayloadFrame)) :=
  let frames := ((missingParts.sort (· ≤ ·)).mapM fun partNumber =>
    live.payloadFrame messageId maxPartPayloadLen partNumber true).map .ok
  if h : missingParts.Nonempty then
    if live.partCount.val ≤ missingParts.max' h then
      some (.error (.requestedPartOutOfRange (missingParts.max' h) live.partCount.val))
    else frames
  else frames

end LiveMessage

/-- Ids that were purged and may not be reused before their cooldown ends. The
source keeps the expirations in a min-heap and pops expired entries from its top,
which removes exactly the entries that have expired. -/
structure CooldownIds where
  ids : Finset UInt32
  expirations : List (ℕ × UInt32)

namespace CooldownIds

def new : CooldownIds := ⟨∅, []⟩

def contains (c : CooldownIds) (messageId : UInt32) : Bool := decide (messageId ∈ c.ids)

/-- The source asserts that an id cools down at most once at a time. -/
def insert (c : CooldownIds) (messageId : UInt32) (expiresAt : ℕ) : Option CooldownIds :=
  if messageId ∈ c.ids then none
  else some ⟨Insert.insert messageId c.ids, c.expirations ++ [(expiresAt, messageId)]⟩

def gcExpired (c : CooldownIds) (now : ℕ) : CooldownIds :=
  let expired := c.expirations.filter fun e => e.1 ≤ now
  ⟨c.ids \ (expired.map Prod.snd).toFinset, c.expirations.filter fun e => now < e.1⟩

end CooldownIds

structure SenderMachine where
  config : SenderConfig
  nextMessageId : UInt32
  live : AList fun _ : UInt32 => LiveMessage
  cooldown : CooldownIds

namespace SenderMachine

def withInitialMessageId (config : SenderConfig) (nextMessageId : UInt32) : SenderMachine :=
  ⟨config, nextMessageId, ∅, .new⟩

def new (config : SenderConfig) : SenderMachine := withInitialMessageId config 0

/-- The search loop of `allocate_message_id`, with the rounds it has left; the
candidate counter wraps around the `u32` range, and it moves on in every round. -/
def allocateLoop (s : SenderMachine) : ℕ → SenderMachine × Option UInt32
  | 0 => (s, none)
  | fuel + 1 =>
    let candidate := s.nextMessageId
    let s := { s with nextMessageId := s.nextMessageId + 1 }
    if (s.live.lookup candidate).isSome then s.allocateLoop fuel
    else if s.cooldown.contains candidate then s.allocateLoop fuel
    else (s, some candidate)

/-- `allocate_message_id`: `u32::MAX + 1` rounds after collecting expired cooldowns.
The sender keeps the collected cooldowns and the advanced counter also when no id
is free. -/
def allocateMessageId (s : SenderMachine) (now : ℕ) : SenderMachine × Except SenderError UInt32 :=
  let (s, candidate) := { s with cooldown := s.cooldown.gcExpired now }.allocateLoop (2 ^ 32)
  match candidate with
  | some messageId => (s, .ok messageId)
  | none => (s, .error .messageIdExhausted)

section Start

variable (crc32c : List UInt8 → UInt32)

/-- `start_transfer`: the new message id and all payload frames of the message. An
error after the allocation keeps the allocation's changes. -/
def startTransfer (s : SenderMachine) (payload : List UInt8) (now : ℕ) :
    Option (SenderMachine × Except SenderError SenderAction) :=
  let (s, allocated) := s.allocateMessageId now
  match allocated with
  | .error e => some (s, .error e)
  | .ok messageId =>
    let checksum := crc32c payload
    match partCountForPayload payload.length s.config.maxPartPayloadLen with
    | .error e => some (s, .error e)
    | .ok partCount =>
      let liveMessage : LiveMessage := ⟨payload, checksum, partCount, none⟩
      (liveMessage.allPayloadFrames messageId s.config.maxPartPayloadLen).map fun frames =>
        ({ s with live := s.live.insert messageId liveMessage }, .ok (.sendPayloads messageId frames))

end Start

/-- `mark_initial_send_complete`: the retention of a live message starts; `none` where the
deadline passes the latest instant. -/
def markInitialSendComplete (s : SenderMachine) (messageId : UInt32) (now : ℕ) :
    Option SenderMachine :=
  match s.live.lookup messageId with
  | none => some s
  | some live =>
    (addDuration now s.config.retentionTimeout).map fun expiresAt =>
      { s with live := s.live.insert messageId { live with expiresAt := some expiresAt } }

/-- `purge_message`: drop a live message and cool its id down; `none` inside when it
is not live. -/
def purgeMessage (s : SenderMachine) (messageId : UInt32) (now : ℕ) (reason : SenderPurgeReason) :
    Option (SenderMachine × Option SenderAction) :=
  match s.live.lookup messageId with
  | none => some (s, none)
  | some _ => do
    let cooledUntil ← addDuration now s.config.idReuseCooldown
    let cooldown ← s.cooldown.insert messageId cooledUntil
    some ({ s with live := s.live.erase messageId, cooldown }, some (.purged messageId reason))

def handleAck (s : SenderMachine) (ack : AckFrame) (now : ℕ) :
    Option (SenderMachine × Option SenderAction) :=
  match s.live.lookup ack.messageId with
  | none => some (s, none)
  | some live =>
    if !live.matches ack.partCount ack.checksum then some (s, none)
    else if s.config.eagerAckCleanup then s.purgeMessage ack.messageId now .acked
    else some (s, some (.observedAck ack.messageId))

/-- `handle_need_parts`: retransmit the requested parts of a live message, or say it
is gone. The sender's state does not change. -/
def handleNeedParts (s : SenderMachine) (needParts : NeedPartsFrame) :
    Option (Except SenderError SenderAction) :=
  match s.live.lookup needParts.messageId with
  | none => some (.ok (.sendNoLongerAvailable needParts.noLongerAvailableFrame))
  | some live =>
    if !live.matches needParts.partCount needParts.checksum then
      some (.ok (.sendNoLongerAvailable needParts.noLongerAvailableFrame))
    else
      (live.payloadFramesForMissingParts needParts.messageId s.config.maxPartPayloadLen
        needParts.missingParts).map (·.map (.sendPayloads needParts.messageId))

/-- Purge every id of the list, one after another. -/
def purgeAll (now : ℕ) (reason : SenderPurgeReason) :
    SenderMachine → List UInt32 → Option (SenderMachine × List SenderAction)
  | s, [] => some (s, [])
  | s, messageId :: rest => do
    let (s, action) ← s.purgeMessage messageId now reason
    let (s, actions) ← purgeAll now reason s rest
    return (s, action.toList ++ actions)

/-- `poll_timeouts`: purge the messages whose retention expired. -/
def pollTimeouts (s : SenderMachine) (now : ℕ) : Option (SenderMachine × List SenderAction) :=
  let s := { s with cooldown := s.cooldown.gcExpired now }
  let expiredIds := s.live.entries.filterMap fun entry =>
    match entry.2.expiresAt with
    | some expiresAt => if expiresAt ≤ now then some entry.1 else none
    | none => none
  purgeAll now .retentionExpired s expiredIds

def abortTransfer (s : SenderMachine) (messageId : UInt32) (now : ℕ) :
    Option (SenderMachine × Option SenderAction) :=
  s.purgeMessage messageId now .aborted

end SenderMachine

end Flotsync.Udpour
