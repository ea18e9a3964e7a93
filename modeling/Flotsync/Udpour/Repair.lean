import Flotsync.Udpour.Sender
import Flotsync.Udpour.ReceiverSteps

/-!
Repair requests. The receiver asks for missing parts with `NeedParts` frames whose
body is the roaring bitmap of the requested part numbers, and a frame must fit in
`max_need_parts_frame_len` bytes. `select_bitmap_chunk` keeps the missing parts
above the repair watermark and `split_bitmap_to_serialized_bounds` cuts the largest
prefix of them whose serialized bitmap fits the budget: a halving search from a
proportional estimate, then a search upwards. A bitmap is its set of values, and
the roaring crate's `serialized_size` is the parameter `serializedSize`.

`UDPourConfig::new` accepts any frame length above `FRAME_HEADER_LEN +
MIN_ENCODED_NON_EMPTY_BITMAP_LEN = 36`. The portable format spends 8 bytes on the
header and 8 on each container before its values, so a bitmap of one value takes
18 bytes, not 16: at the smallest accepted length, 37, no chunk fits the 17 bytes
left for the body, and every repair request fails.
-/

set_option autoImplicit false

namespace Flotsync.Udpour

inductive RoaringBitmapError where
  | emptyBitmap
  | maxSerializedSizeTooSmall (maxSerializedSize minSerializedSize : ℕ)
  | zeroChunkCount
  | prefixLongerThanBitmap (prefixLen cardinality : ℕ)
  | chunkTooSmall (maxSerializedSize : ℕ)
  | serialize
  | deserialize
deriving DecidableEq, Repr

/-- `MIN_ENCODED_NON_EMPTY_BITMAP_LEN`. -/
def minEncodedNonEmptyBitmapLen : ℕ := 16

/-- `FRAME_HEADER_LEN`. -/
def frameHeaderLen : ℕ := 20

namespace RoaringHelpers

/-- The `n` smallest values of a bitmap. -/
def smallest (bitmap : Finset ℕ) (n : ℕ) : Finset ℕ := ((bitmap.sort (· ≤ ·)).take n).toFinset

/-- `RoaringBitmap::remove_biggest`. -/
def removeBiggest (bitmap : Finset ℕ) (n : ℕ) : Finset ℕ := smallest bitmap (bitmap.card - n)

/-- `RoaringBitmap::remove_smallest`. -/
def removeSmallest (bitmap : Finset ℕ) (n : ℕ) : Finset ℕ := bitmap \ smallest bitmap n

/-- `prefix_chunk`: the first `prefix_len` values. -/
def prefixChunk (bitmap : Finset ℕ) (prefixLen : ℕ) : Except RoaringBitmapError (Finset ℕ) :=
  if prefixLen = 0 then .error .zeroChunkCount
  else if bitmap.card < prefixLen then .error (.prefixLongerThanBitmap prefixLen bitmap.card)
  else if prefixLen = bitmap.card then .ok bitmap
  else .ok (removeBiggest bitmap (bitmap.card - prefixLen))

/-- `suffix_after`: the values strictly above the watermark, if there are any. -/
def suffixAfter (bitmap : Finset ℕ) : Option ℕ → Option (Finset ℕ)
  | none => some bitmap
  | some value =>
    let suffix := bitmap.filter (value < ·)
    if suffix = ∅ then none else some suffix

variable (serializedSize : Finset ℕ → ℕ)

/-- The first loop of `best_prefix_chunk_cardinality`: halve the candidate until its
prefix fits, lowering the known upper bound `high_fit` on the way. -/
def shrinkCandidate (bitmap : Finset ℕ) (maxSerializedSize candidate highFit : ℕ) :
    Except RoaringBitmapError (ℕ × ℕ) :=
  match prefixChunk bitmap candidate with
  | .error e => .error e
  | .ok candidateBitmap =>
    if maxSerializedSize < serializedSize candidateBitmap then
      if candidate - 1 = 0 then .error (.chunkTooSmall maxSerializedSize)
      else shrinkCandidate bitmap maxSerializedSize (max (candidate / 2) 1) (candidate - 1)
    else .ok (candidate, highFit)
termination_by candidate
decreasing_by omega

/-- The second loop of `best_prefix_chunk_cardinality`: search upwards between a
prefix length that fits and one above which none was seen to fit. -/
def searchUp (bitmap : Finset ℕ) (maxSerializedSize lowFit highFit : ℕ) :
    Except RoaringBitmapError ℕ :=
  if lowFit < highFit then
    let mid := (lowFit + highFit + 1) / 2
    match prefixChunk bitmap mid with
    | .error e => .error e
    | .ok midBitmap =>
      if serializedSize midBitmap ≤ maxSerializedSize then
        searchUp bitmap maxSerializedSize mid highFit
      else searchUp bitmap maxSerializedSize lowFit (mid - 1)
  else .ok lowFit
termination_by highFit - lowFit
decreasing_by all_goals omega

/-- `best_prefix_chunk_cardinality`, from the estimate clamped to `1..=total`. -/
def bestPrefixChunkCardinality (bitmap : Finset ℕ) (totalCardinality initialCandidate
    maxSerializedSize : ℕ) : Except RoaringBitmapError ℕ := do
  let candidate := if initialCandidate < 1 then 1
    else if totalCardinality < initialCandidate then totalCardinality else initialCandidate
  let (lowFit, highFit) ←
    shrinkCandidate serializedSize bitmap maxSerializedSize candidate totalCardinality
  let lowFit ← searchUp serializedSize bitmap maxSerializedSize lowFit highFit
  return max lowFit 1

structure SplittingResult where
  chunk : Finset ℕ
  rest : Option (Finset ℕ)

/-- `split_bitmap_to_serialized_bounds`: the whole bitmap when it fits, else its
largest fitting prefix and the rest. -/
def splitBitmapToSerializedBounds (bitmap : Finset ℕ) (maxSerializedSize : ℕ) :
    Except RoaringBitmapError SplittingResult :=
  if bitmap = ∅ then .error .emptyBitmap
  else if maxSerializedSize < minEncodedNonEmptyBitmapLen then
    .error (.maxSerializedSizeTooSmall maxSerializedSize minEncodedNonEmptyBitmapLen)
  else if serializedSize bitmap ≤ maxSerializedSize then .ok ⟨bitmap, none⟩
  else do
    let totalCardinality := bitmap.card
    let estimatedCutoff := totalCardinality * maxSerializedSize / serializedSize bitmap
    let fittingPrefixLen ← bestPrefixChunkCardinality serializedSize bitmap totalCardinality
      estimatedCutoff maxSerializedSize
    let chunk ← prefixChunk bitmap fittingPrefixLen
    return ⟨chunk, some (removeSmallest bitmap fittingPrefixLen)⟩

/-- `select_bitmap_chunk`: one fitting chunk of the values above the watermark;
`none` inside when no value is above it. -/
def selectBitmapChunk (bitmap : Finset ℕ) (afterExclusive : Option ℕ) (maxSerializedSize : ℕ) :
    Except RoaringBitmapError (Option (Finset ℕ)) :=
  if maxSerializedSize < minEncodedNonEmptyBitmapLen then
    .error (.maxSerializedSizeTooSmall maxSerializedSize minEncodedNonEmptyBitmapLen)
  else if bitmap = ∅ then .ok none
  else
    match suffixAfter bitmap afterExclusive with
    | none => .ok none
    | some suffix =>
      (splitBitmapToSerializedBounds serializedSize suffix maxSerializedSize).map (some ·.chunk)

section TooSmall

/-! When the budget is below the size of every non-empty bitmap, no prefix fits and
the halving search runs down to a single value and gives up. -/

theorem smallest_nonempty {bitmap : Finset ℕ} (hne : bitmap.Nonempty) {n : ℕ} (hn : 0 < n) :
    (smallest bitmap n).Nonempty := by
  obtain ⟨x, hx⟩ := hne
  have hsort : bitmap.sort (· ≤ ·) ≠ [] := by
    intro hnil
    have hmem := (Finset.mem_sort (· ≤ ·)).2 hx
    rw [hnil] at hmem
    cases hmem
  obtain ⟨a, l, hl⟩ := List.exists_cons_of_ne_nil hsort
  obtain ⟨n, rfl⟩ := Nat.exists_eq_add_one_of_ne_zero hn.ne'
  exact ⟨a, by simp [smallest, hl]⟩

theorem prefixChunk_eq_ok {bitmap : Finset ℕ} {prefixLen : ℕ} (hpos : 0 < prefixLen)
    (hle : prefixLen ≤ bitmap.card) :
    ∃ chunk, prefixChunk bitmap prefixLen = .ok chunk ∧ (bitmap.Nonempty → chunk.Nonempty) := by
  unfold prefixChunk
  rw [if_neg hpos.ne', if_neg (not_lt.2 hle)]
  split_ifs with heq
  · exact ⟨bitmap, rfl, id⟩
  · refine ⟨_, rfl, fun hne => smallest_nonempty hne ?_⟩
    omega

theorem suffixAfter_nonempty {bitmap suffix : Finset ℕ} {afterExclusive : Option ℕ}
    (hne : bitmap.Nonempty) (h : suffixAfter bitmap afterExclusive = some suffix) :
    suffix.Nonempty := by
  cases afterExclusive with
  | none =>
    cases h
    exact hne
  | some value =>
    dsimp only [suffixAfter] at h
    split_ifs at h with hempty
    cases h
    exact Finset.nonempty_iff_ne_empty.2 hempty

variable {serializedSize : Finset ℕ → ℕ} {maxSerializedSize : ℕ}
  (htoo : ∀ chunk : Finset ℕ, chunk.Nonempty → maxSerializedSize < serializedSize chunk)
include htoo

theorem shrinkCandidate_eq_chunkTooSmall {bitmap : Finset ℕ} (hne : bitmap.Nonempty)
    (candidate highFit : ℕ) : 0 < candidate → candidate ≤ bitmap.card →
      shrinkCandidate serializedSize bitmap maxSerializedSize candidate highFit =
        .error (.chunkTooSmall maxSerializedSize) := by
  fun_induction shrinkCandidate serializedSize bitmap maxSerializedSize candidate highFit with
  | case1 candidate _ e hchunk =>
    intro hpos hle
    obtain ⟨chunk, hok, -⟩ := prefixChunk_eq_ok hpos hle
    rw [hok] at hchunk
    cases hchunk
  | case2 => intros; rfl
  | case3 candidate _ _ _ _ hlast ih =>
    -- the halved candidate is again a valid prefix length
    intro hpos hle
    exact ih (by omega) (by omega)
  | case4 candidate _ chunk hchunk hfits =>
    intro hpos hle
    obtain ⟨chunk', hok, hchunk'⟩ := prefixChunk_eq_ok hpos hle
    rw [hok] at hchunk
    cases hchunk
    exact absurd (htoo _ (hchunk' hne)) hfits

theorem splitBitmapToSerializedBounds_eq_chunkTooSmall {bitmap : Finset ℕ} (hne : bitmap.Nonempty)
    (hmin : minEncodedNonEmptyBitmapLen ≤ maxSerializedSize) :
    splitBitmapToSerializedBounds serializedSize bitmap maxSerializedSize =
      .error (.chunkTooSmall maxSerializedSize) := by
  have hcard : 0 < bitmap.card := Finset.card_pos.2 hne
  unfold splitBitmapToSerializedBounds
  rw [if_neg hne.ne_empty, if_neg (not_lt.2 hmin), if_neg (not_le.2 (htoo bitmap hne))]
  unfold bestPrefixChunkCardinality
  dsimp only
  rw [shrinkCandidate_eq_chunkTooSmall htoo hne _ _ (by split_ifs <;> omega)
    (by split_ifs <;> omega)]
  rfl

theorem selectBitmapChunk_ne_some {bitmap : Finset ℕ} (afterExclusive : Option ℕ)
    (hmin : minEncodedNonEmptyBitmapLen ≤ maxSerializedSize) (chunk : Finset ℕ) :
    selectBitmapChunk serializedSize bitmap afterExclusive maxSerializedSize ≠ .ok (some chunk) := by
  unfold selectBitmapChunk
  rw [if_neg (not_lt.2 hmin)]
  split_ifs with hempty
  · simp
  · split
    · simp
    · rename_i suffix hsuffix
      have hne := suffixAfter_nonempty (Finset.nonempty_iff_ne_empty.2 hempty) hsuffix
      rw [splitBitmapToSerializedBounds_eq_chunkTooSmall htoo hne hmin]
      simp [Except.map]

theorem selectBitmapChunk_none_eq_error {bitmap : Finset ℕ} (hne : bitmap.Nonempty)
    (hmin : minEncodedNonEmptyBitmapLen ≤ maxSerializedSize) :
    selectBitmapChunk serializedSize bitmap none maxSerializedSize =
      .error (.chunkTooSmall maxSerializedSize) := by
  unfold selectBitmapChunk
  rw [if_neg (not_lt.2 hmin), if_neg hne.ne_empty]
  dsimp only [suffixAfter]
  rw [splitBitmapToSerializedBounds_eq_chunkTooSmall htoo hne hmin]
  rfl

end TooSmall

end RoaringHelpers

namespace Codec

/-- `fit_one_need_parts_frame`: one `NeedParts` frame of at most `max_frame_len` bytes
for the missing parts above the watermark. The control header it builds cannot be
refused. -/
def fitOneNeedPartsFrame (serializedSize : Finset ℕ → ℕ) (messageId : UInt32)
    (partCount : PartCount) (checksum : UInt32) (missingParts : Finset ℕ)
    (afterExclusive : Option ℕ) (maxFrameLen : ℕ) : Except CodecError (Option NeedPartsFrame) :=
  if maxFrameLen < frameHeaderLen + minEncodedNonEmptyBitmapLen then
    .error (.maxFrameLenTooSmall maxFrameLen)
  else if missingParts = ∅ then .error .emptyNeedParts
  else
    match RoaringHelpers.selectBitmapChunk serializedSize missingParts afterExclusive
        (maxFrameLen - frameHeaderLen) with
    | .error _ => .error .bitmap
    | .ok none => .ok none
    | .ok (some chunk) => .ok (some ⟨messageId, partCount, checksum, chunk⟩)

section TooSmall

variable {serializedSize : Finset ℕ → ℕ} {messageId : UInt32} {partCount : PartCount}
  {checksum : UInt32} {missingParts : Finset ℕ} {maxFrameLen : ℕ}
  (htoo : ∀ chunk : Finset ℕ, chunk.Nonempty → maxFrameLen - frameHeaderLen < serializedSize chunk)
  (hlen : frameHeaderLen + minEncodedNonEmptyBitmapLen ≤ maxFrameLen)
include htoo hlen

theorem fitOneNeedPartsFrame_of_too_small (hmissing : missingParts.Nonempty)
    (afterExclusive : Option ℕ) :
    fitOneNeedPartsFrame serializedSize messageId partCount checksum missingParts afterExclusive
        maxFrameLen = .ok none ∨
      fitOneNeedPartsFrame serializedSize messageId partCount checksum missingParts afterExclusive
        maxFrameLen = .error .bitmap := by
  have hbody : minEncodedNonEmptyBitmapLen ≤ maxFrameLen - frameHeaderLen := by omega
  unfold fitOneNeedPartsFrame
  rw [if_neg (not_lt.2 hlen), if_neg hmissing.ne_empty]
  split
  · exact .inr rfl
  · exact .inl rfl
  · rename_i chunk hchunk
    exact absurd hchunk (RoaringHelpers.selectBitmapChunk_ne_some htoo afterExclusive hbody chunk)

theorem fitOneNeedPartsFrame_none_of_too_small (hmissing : missingParts.Nonempty) :
    fitOneNeedPartsFrame serializedSize messageId partCount checksum missingParts none maxFrameLen =
      .error .bitmap := by
  have hbody : minEncodedNonEmptyBitmapLen ≤ maxFrameLen - frameHeaderLen := by omega
  unfold fitOneNeedPartsFrame
  rw [if_neg (not_lt.2 hlen), if_neg hmissing.ne_empty,
    RoaringHelpers.selectBitmapChunk_none_eq_error htoo hmissing hbody]

end TooSmall

end Codec

inductive UDPourConfigError where
  | zeroPollInterval
  | needPartsFrameLenTooSmall (maxNeedPartsFrameLen : ℕ)
deriving DecidableEq, Repr

/-- The runtime configuration; durations are nanoseconds. -/
structure UDPourConfig where
  sender : SenderConfig
  receiver : ReceiverConfig
  pollInterval : ℕ

/-- `UDPourConfig::new`: check the repair frame length, derive the tombstone timeout
and the poll interval. -/
def UDPourConfig.new (sender : SenderConfig) (receiver : ReceiverConfig) :
    Except UDPourConfigError UDPourConfig :=
  if receiver.maxNeedPartsFrameLen ≤ frameHeaderLen + minEncodedNonEmptyBitmapLen then
    .error (.needPartsFrameLenTooSmall receiver.maxNeedPartsFrameLen)
  else
    let receiver := { receiver with
      deliveredTombstoneTimeout := saturatingAdd sender.retentionTimeout sender.idReuseCooldown }
    let pollInterval := min (min (min sender.retentionTimeout receiver.repairInterval)
      receiver.giveUpTimeout) receiver.deliveredTombstoneTimeout
    if pollInterval = 0 then .error .zeroPollInterval
    else .ok ⟨sender, receiver, pollInterval⟩

theorem UDPourConfig.new_eq_ok {sender : SenderConfig} {receiver : ReceiverConfig}
    {config : UDPourConfig} (h : UDPourConfig.new sender receiver = .ok config) :
    frameHeaderLen + minEncodedNonEmptyBitmapLen < receiver.maxNeedPartsFrameLen ∧
      config.receiver.maxNeedPartsFrameLen = receiver.maxNeedPartsFrameLen := by
  dsimp only [UDPourConfig.new] at h
  split_ifs at h with hlen
  cases h
  exact ⟨not_le.1 hlen, rfl⟩

theorem InboundTransfer.nextNeedPartsFrame_of_too_small {serializedSize : Finset ℕ → ℕ}
    {t : InboundTransfer} {messageId : UInt32} {len : ℕ}
    (htoo : ∀ chunk : Finset ℕ, chunk.Nonempty → len - frameHeaderLen < serializedSize chunk)
    (hlen : frameHeaderLen + minEncodedNonEmptyBitmapLen ≤ len) (hmissing : t.missingParts.Nonempty) :
    t.nextNeedPartsFrame (Codec.fitOneNeedPartsFrame serializedSize) messageId len =
      some (.error (.splitNeedParts .bitmap), t) := by
  unfold InboundTransfer.nextNeedPartsFrame
  rw [if_neg hmissing.ne_empty]
  dsimp only
  -- past the watermark nothing fits either; the wrap then fails
  rcases @Codec.fitOneNeedPartsFrame_of_too_small serializedSize messageId t.partCount t.checksum _ _
    htoo hlen hmissing t.repairWatermark with hfit | hfit
  · rw [hfit, Codec.fitOneNeedPartsFrame_none_of_too_small htoo hlen hmissing]
  · rw [hfit]

theorem repair_requests_fail_at_smallest_accepted_frame_len (serializedSize : Finset ℕ → ℕ)
    (hsize : ∀ bitmap : Finset ℕ, bitmap.Nonempty → 18 ≤ serializedSize bitmap)
    (sender : SenderConfig) (receiver : ReceiverConfig) (config : UDPourConfig)
    (hconfig : UDPourConfig.new sender receiver = .ok config)
    (hlen : receiver.maxNeedPartsFrameLen = 37)
    (t : InboundTransfer) (messageId : UInt32) (hmissing : t.missingParts.Nonempty) :
    t.nextNeedPartsFrame (Codec.fitOneNeedPartsFrame serializedSize) messageId
      config.receiver.maxNeedPartsFrameLen = some (.error (.splitNeedParts .bitmap), t) := by
  obtain ⟨-, hreceiver⟩ := UDPourConfig.new_eq_ok hconfig
  rw [hreceiver, hlen]
  -- 17 bytes are left for the body, one short of the smallest non-empty bitmap
  have htoo : ∀ chunk : Finset ℕ, chunk.Nonempty → 37 - frameHeaderLen < serializedSize chunk :=
    fun chunk hchunk => by
      have hchunk18 := hsize chunk hchunk
      unfold frameHeaderLen
      omega
  exact InboundTransfer.nextNeedPartsFrame_of_too_small htoo (by decide) hmissing

theorem repair_requests_fail_at_smallest_accepted_frame_len_single_part :
    let sender : SenderConfig := ⟨1, Nat.one_pos, 10, 10, false⟩
    let receiver : ReceiverConfig := ⟨10, 100, 37, 0⟩
    let config : UDPourConfig := ⟨sender, { receiver with deliveredTombstoneTimeout := 20 }, 10⟩
    let t : InboundTransfer := ⟨⟨1, Nat.one_pos, by decide⟩, 0, [none], {0}, none, none, 100, 10⟩
    (∀ bitmap : Finset ℕ, bitmap.Nonempty → 18 ≤ 16 + 2 * bitmap.card) ∧
      UDPourConfig.new sender receiver = .ok config ∧ receiver.maxNeedPartsFrameLen = 37 ∧
      InboundTransfer.new ⟨1, Nat.one_pos, by decide⟩ 0 0 receiver = some t ∧
      t.missingParts.Nonempty ∧
      t.nextNeedPartsFrame (Codec.fitOneNeedPartsFrame fun bitmap => 16 + 2 * bitmap.card) 0
        config.receiver.maxNeedPartsFrameLen = some (.error (.splitNeedParts .bitmap), t) := by
  intro sender receiver config t
  have hsize : ∀ bitmap : Finset ℕ, bitmap.Nonempty → 18 ≤ 16 + 2 * bitmap.card :=
    fun bitmap hne => by
      have hcard := Finset.card_pos.2 hne
      omega
  have hmissing : t.missingParts.Nonempty := ⟨0, by simp [t]⟩
  exact ⟨hsize, rfl, rfl, rfl, hmissing, repair_requests_fail_at_smallest_accepted_frame_len _ hsize
    sender receiver config rfl rfl t 0 hmissing⟩

theorem poll_timeouts_error_drops_purge_actions (crc32c : List UInt8 → UInt32)
    (serializedSize : Finset ℕ → ℕ)
    (hsize : ∀ bitmap : Finset ℕ, bitmap.Nonempty → 18 ≤ serializedSize bitmap) :
    let sender : SenderConfig := ⟨1, Nat.one_pos, 1, 0, false⟩
    let receiver : ReceiverConfig := ⟨1, 100, 37, 1⟩
    let twoParts : PartCount := ⟨2, by decide, by decide⟩
    let onePart : PartCount := ⟨1, Nat.one_pos, by decide⟩
    let first : PayloadFrame := ⟨⟨false, 1, 0, twoParts, 0⟩, [1]⟩
    let single : PayloadFrame := ⟨⟨false, 2, 0, onePart, crc32c [2]⟩, [2]⟩
    UDPourConfig.new sender ⟨1, 100, 37, 0⟩ = .ok ⟨sender, receiver, 1⟩ ∧
    ∃ (m₁ m₂ m₃ : ReceiverMachine ℕ) (e : ReceiverError),
      (ReceiverMachine.new receiver).acceptPayload crc32c 0 first 0 = some (m₁, []) ∧
      m₁.acceptPayload crc32c 0 single 0 = some (m₂,
        [.deliver 0 [2], .sendAck 0 (ReceiverMachine.ackFrame 2 onePart (crc32c [2]))]) ∧
      [⟨0, 2⟩, ⟨0, 1⟩].Perm m₂.transfers.keys ∧
      m₂.pollTimeouts (Codec.fitOneNeedPartsFrame serializedSize) 1 [⟨0, 2⟩, ⟨0, 1⟩] =
        some (m₃, .error e) ∧
      (∃ tombstone, m₂.transfers.lookup ⟨0, 2⟩ = some (.delivered tombstone)) ∧
      m₃.transfers.lookup ⟨0, 2⟩ = none := by
  intro sender receiver twoParts onePart first single
  let pending : InboundTransfer :=
    ⟨twoParts, 0, [some [1], none], {1}, none, some 1, 100, 1⟩
  let m₁ : ReceiverMachine ℕ := ⟨receiver, (∅ : ReceiverMachine.Transfers ℕ).insert ⟨0, 1⟩ (.pending pending)⟩
  have h₁ : (ReceiverMachine.new receiver).acceptPayload crc32c 0 first 0 = some (m₁, []) := rfl
  have h₂ := @ReceiverMachine.acceptPayload_single_part ℕ _ crc32c m₁ 0 single 0
    ⟨by decide, by decide, by decide⟩ rfl rfl rfl rfl
  have hrepair : pending.nextNeedPartsFrame (Codec.fitOneNeedPartsFrame serializedSize) 1 37 =
      some (.error (.splitNeedParts .bitmap), pending) :=
    InboundTransfer.nextNeedPartsFrame_of_too_small
      (fun chunk hchunk => by have := hsize chunk hchunk; unfold frameHeaderLen; omega)
      (by decide) ⟨1, by decide⟩
  let tombstone : DeliveredTombstone := ⟨onePart, crc32c [2], 0 + 1⟩
  let m₂ : ReceiverMachine ℕ := ⟨receiver, m₁.transfers.insert ⟨0, 2⟩ (.delivered tombstone)⟩
  -- the loop visits the tombstone first, purges it, then fails on the pending transfer
  have hkeys : m₂.transfers.keys = [⟨0, 2⟩, ⟨0, 1⟩] := rfl
  refine ⟨rfl, m₁, m₂, ⟨receiver, m₂.transfers.erase ⟨0, 2⟩⟩, .splitNeedParts .bitmap, h₁, h₂,
    hkeys ▸ List.Perm.refl _, ?_, ⟨tombstone, AList.lookup_insert _⟩, AList.lookup_erase _ _⟩
  have hexpired : ReceiverMachine.pollKey (Codec.fitOneNeedPartsFrame serializedSize) receiver 1 ⟨0, 2⟩
      m₂.transfers = some (m₂.transfers.erase ⟨0, 2⟩, .ok [.purged ⟨0, 2⟩ .deliveredTombstoneExpired]) := by
    rw [ReceiverMachine.pollKey, AList.lookup_insert]
    rfl
  have hpending : (m₂.transfers.erase ⟨0, 2⟩).lookup ⟨0, 1⟩ = some (.pending pending) := by
    rw [AList.lookup_erase_ne (by decide), AList.lookup_insert_ne (by decide), AList.lookup_insert]
  have hfail : ReceiverMachine.pollKey (Codec.fitOneNeedPartsFrame serializedSize) receiver 1 ⟨0, 1⟩
      (m₂.transfers.erase ⟨0, 2⟩) = some (m₂.transfers.erase ⟨0, 2⟩, .error (.splitNeedParts .bitmap)) := by
    rw [ReceiverMachine.pollKey, hpending]
    dsimp only
    rw [if_neg (by decide), if_pos (by decide)]
    rw [show receiver.maxNeedPartsFrameLen = 37 from rfl, hrepair]
  rw [ReceiverMachine.pollTimeouts, ReceiverMachine.pollKeys, hexpired]
  dsimp only
  rw [ReceiverMachine.pollKeys, hfail]
  rfl

theorem poll_timeouts_error_drops_purge_actions_one_container :
    (∀ bitmap : Finset ℕ, bitmap.Nonempty → 18 ≤ 16 + 2 * bitmap.card) ∧
    let sender : SenderConfig := ⟨1, Nat.one_pos, 1, 0, false⟩
    let receiver : ReceiverConfig := ⟨1, 100, 37, 1⟩
    let twoParts : PartCount := ⟨2, by decide, by decide⟩
    let onePart : PartCount := ⟨1, Nat.one_pos, by decide⟩
    let first : PayloadFrame := ⟨⟨false, 1, 0, twoParts, 0⟩, [1]⟩
    let single : PayloadFrame := ⟨⟨false, 2, 0, onePart, 0⟩, [2]⟩
    UDPourConfig.new sender ⟨1, 100, 37, 0⟩ = .ok ⟨sender, receiver, 1⟩ ∧
    ∃ (m₁ m₂ m₃ : ReceiverMachine ℕ) (e : ReceiverError),
      (ReceiverMachine.new receiver).acceptPayload (fun _ => 0) 0 first 0 = some (m₁, []) ∧
      m₁.acceptPayload (fun _ => 0) 0 single 0 = some (m₂,
        [.deliver 0 [2], .sendAck 0 (ReceiverMachine.ackFrame 2 onePart 0)]) ∧
      [⟨0, 2⟩, ⟨0, 1⟩].Perm m₂.transfers.keys ∧
      m₂.pollTimeouts (Codec.fitOneNeedPartsFrame fun bitmap => 16 + 2 * bitmap.card) 1
        [⟨0, 2⟩, ⟨0, 1⟩] = some (m₃, .error e) ∧
      (∃ tombstone, m₂.transfers.lookup ⟨0, 2⟩ = some (.delivered tombstone)) ∧
      m₃.transfers.lookup ⟨0, 2⟩ = none := by
  have hsize : ∀ bitmap : Finset ℕ, bitmap.Nonempty → 18 ≤ 16 + 2 * bitmap.card :=
    fun bitmap hne => by
      have hcard := Finset.card_pos.2 hne
      omega
  exact ⟨hsize, poll_timeouts_error_drops_purge_actions (fun _ => 0) _ hsize⟩

end Flotsync.Udpour
