import Flotsync.Udpour.SenderIds
import Flotsync.Lib.Checked

/-!
What the sender puts on the wire for one message. A message kept by `start_transfer`
is sliced: its part count is `⌈max(len, 1) / max_part_payload_len⌉` and its checksum
is the payload's. Part `i` of a sliced message is then the `i`-th piece of width
`max_part_payload_len` of the payload (the last one shorter, or empty for an empty
payload), the assertion of `get_slice_for_part` holds for every part, and the pieces
join to the payload. Both the initial frames and the retransmissions of
`handle_need_parts` are frames of that shape.
-/

set_option autoImplicit false

namespace Flotsync.Udpour

theorem partCountForPayload_val {payloadLen maxPartPayloadLen : ℕ} {partCount : PartCount}
    (h : partCountForPayload payloadLen maxPartPayloadLen = .ok partCount) :
    partCount.val = (max payloadLen 1 + maxPartPayloadLen - 1) / maxPartPayloadLen := by
  dsimp only [partCountForPayload] at h
  split_ifs at h with hlt
  split at h
  · rename_i c hc
    cases h
    unfold PartCount.new at hc
    split_ifs at hc
    cases hc
    rfl
  · cases h

/-- A message as `start_transfer` keeps it, at the sender's part size. -/
structure LiveMessage.Sliced (crc32c : List UInt8 → UInt32) (live : LiveMessage)
    (maxPartPayloadLen : ℕ) : Prop where
  pos : 0 < maxPartPayloadLen
  partCount : partCountForPayload live.payload.length maxPartPayloadLen = .ok live.partCount
  checksum : live.checksum = crc32c live.payload

/-- A frame of the message as the sender builds it, with either retransmit flag:
part `i` carries the `i`-th piece of the payload. -/
structure LiveMessage.SentFrame (live : LiveMessage) (maxPartPayloadLen : ℕ) (messageId : UInt32)
    (frame : PayloadFrame) : Prop where
  messageId_eq : frame.header.messageId = messageId
  partCount_eq : frame.header.partCount = live.partCount
  checksum_eq : frame.header.checksum = live.checksum
  partNumber_lt : frame.header.partNumber < live.partCount.val
  payload_eq : frame.payload = Chunks.piece live.payload maxPartPayloadLen frame.header.partNumber

namespace LiveMessage.Sliced

variable {crc32c : List UInt8 → UInt32} {live : LiveMessage} {m : ℕ}

theorem bounds (h : live.Sliced crc32c m) :
    (live.partCount.val - 1) * m < max live.payload.length 1 ∧
      live.payload.length ≤ live.partCount.val * m := by
  have hceil := Chunks.ceil_bounds (a := max live.payload.length 1) h.pos
    (lt_max_of_lt_right Nat.one_pos)
  rw [← partCountForPayload_val h.partCount] at hceil
  exact ⟨hceil.1, (le_max_left _ _).trans hceil.2⟩

theorem mul_add_le_length (h : live.Sliced crc32c m) {i : ℕ} (hi : i < live.partCount.lastPartNumber) :
    i * m + m ≤ live.payload.length := by
  have hlow := h.bounds.1
  have hle : (i + 1) * m ≤ (live.partCount.val - 1) * m :=
    Nat.mul_le_mul_right m (by unfold PartCount.lastPartNumber at hi; omega)
  have hm : 1 ≤ (i + 1) * m := Nat.one_le_iff_ne_zero.2 (Nat.mul_ne_zero (by omega) h.pos.ne')
  rw [Nat.succ_mul] at hle hm
  omega

theorem length_piece (h : live.Sliced crc32c m) {i : ℕ} (hi : i < live.partCount.lastPartNumber) :
    (Chunks.piece live.payload m i).length = m :=
  Chunks.length_piece (by rw [Nat.succ_mul]; exact h.mul_add_le_length hi)

theorem flatten_pieces (h : live.Sliced crc32c m) :
    ((List.range live.partCount.val).map (Chunks.piece live.payload m)).flatten = live.payload := by
  rw [Chunks.flatten_pieces]
  exact List.take_of_length_le h.bounds.2

theorem getSliceForPart_eq (h : live.Sliced crc32c m) {i : ℕ} (hi : i < live.partCount.val) :
    getSliceForPart live.payload m i live.partCount = some (Chunks.piece live.payload m i) := by
  have ⟨hlow, hhigh⟩ := h.bounds
  dsimp only [getSliceForPart]
  by_cases hlast : i = live.partCount.lastPartNumber
  · -- the final part: from its offset to the end, at most one piece
    have hstart : i * m ≤ live.payload.length := by
      unfold PartCount.lastPartNumber at hlast
      subst hlast
      cases Nat.lt_or_ge live.payload.length 1 <;> grind
    have hrest : live.payload.length - i * m ≤ m := by
      have hsplit : live.partCount.val * m = (live.partCount.val - 1) * m + m := by
        rw [← Nat.succ_mul, Nat.succ_eq_add_one, Nat.sub_add_cancel live.partCount.pos]
      unfold PartCount.lastPartNumber at hlast
      subst hlast
      omega
    rw [if_pos hlast, if_pos (by omega), Chunks.piece,
      List.take_of_length_le (by rw [List.length_drop]),
      List.take_of_length_le (by rw [List.length_drop]; exact hrest)]
  · have hfull := h.mul_add_le_length
      (lt_of_le_of_ne (Nat.le_sub_one_of_lt hi) hlast)
    rw [if_neg hlast, if_pos hfull]
    rfl

theorem payloadFrame_eq (h : live.Sliced crc32c m) (messageId : UInt32) {i : ℕ}
    (hi : i < live.partCount.val) (retransmit : Bool) :
    live.payloadFrame messageId m i retransmit =
      some ⟨⟨retransmit, messageId, i, live.partCount, live.checksum⟩, Chunks.piece live.payload m i⟩ := by
  rw [LiveMessage.payloadFrame, h.getSliceForPart_eq hi]
  rfl

theorem sentFrame_of_payloadFrame (h : live.Sliced crc32c m) {messageId : UInt32} {i : ℕ}
    {retransmit : Bool} {frame : PayloadFrame} (hi : i < live.partCount.val)
    (hframe : live.payloadFrame messageId m i retransmit = some frame) :
    live.SentFrame m messageId frame := by
  rw [h.payloadFrame_eq messageId hi] at hframe
  cases hframe
  exact ⟨rfl, rfl, rfl, hi, rfl⟩

theorem allPayloadFrames_eq (h : live.Sliced crc32c m) (messageId : UInt32) :
    live.allPayloadFrames messageId m = some ((List.range live.partCount.val).map fun i =>
      ⟨⟨false, messageId, i, live.partCount, live.checksum⟩, Chunks.piece live.payload m i⟩) :=
  Checked.mapM_eq_some_map fun _ hi => h.payloadFrame_eq messageId (List.mem_range.1 hi) false

theorem sentFrame_of_mem_allPayloadFrames (h : live.Sliced crc32c m) {messageId : UInt32}
    {frames : List PayloadFrame} (hframes : live.allPayloadFrames messageId m = some frames) :
    ∀ frame ∈ frames, live.SentFrame m messageId frame := by
  intro frame hframe
  obtain ⟨i, hi, hpayload⟩ := Checked.exists_mem_of_mapM_eq_some hframes frame hframe
  exact h.sentFrame_of_payloadFrame (List.mem_range.1 hi) hpayload

theorem payloadFramesForMissingParts_isSome (h : live.Sliced crc32c m) (messageId : UInt32)
    (missingParts : Finset ℕ) :
    (live.payloadFramesForMissingParts messageId m missingParts).isSome := by
  have hframes : ∀ parts : List ℕ, (∀ i ∈ parts, i < live.partCount.val) →
      (parts.mapM fun i => live.payloadFrame messageId m i true).isSome := fun parts hparts => by
    rw [Checked.mapM_eq_some_map fun i hi => h.payloadFrame_eq messageId (hparts i hi) true]
    rfl
  dsimp only [LiveMessage.payloadFramesForMissingParts]
  split_ifs with hne hmax
  · rfl
  · -- every requested part is at most the largest one, which is in range
    rw [Option.isSome_map]
    exact hframes _ fun i hi =>
      lt_of_le_of_lt (missingParts.le_max' i ((Finset.mem_sort _).1 hi)) (not_le.1 hmax)
  · rw [Finset.not_nonempty_iff_eq_empty.1 hne]
    simp

end LiveMessage.Sliced

namespace SenderMachine

variable {crc32c : List UInt8 → UInt32}

theorem startTransfer_eq_ok {s s' : SenderMachine} {payload : List UInt8} {now : ℕ}
    {action : SenderAction} (h : s.startTransfer crc32c payload now = some (s', .ok action)) :
    ∃ messageId frames live, action = .sendPayloads messageId frames ∧
      s'.live.lookup messageId = some live ∧ live.payload = payload ∧
      live.Sliced crc32c s'.config.maxPartPayloadLen ∧
      ∀ frame ∈ frames, live.SentFrame s'.config.maxPartPayloadLen messageId frame := by
  dsimp only [startTransfer] at h
  split at h
  · cases h
  · rename_i messageId _
    split at h
    · cases h
    · rename_i partCount hcount
      obtain ⟨frames, hframes, h⟩ := Option.map_eq_some_iff.1 h
      simp only [Prod.mk.injEq, Except.ok.injEq] at h
      obtain ⟨rfl, rfl⟩ := h
      have hsliced : LiveMessage.Sliced crc32c ⟨payload, crc32c payload, partCount, none⟩
          (s.allocateMessageId now).1.config.maxPartPayloadLen :=
        ⟨(s.allocateMessageId now).1.config.maxPartPayloadLen_pos, hcount, rfl⟩
      exact ⟨messageId, frames, _, rfl, AList.lookup_insert _, rfl, hsliced,
        hsliced.sentFrame_of_mem_allPayloadFrames hframes⟩

/-- `start_transfer` never reaches the assertion of `get_slice_for_part`. -/
theorem startTransfer_isSome (s : SenderMachine) (payload : List UInt8) (now : ℕ) :
    (s.startTransfer crc32c payload now).isSome := by
  dsimp only [startTransfer]
  split
  · rfl
  · split
    · rfl
    · rename_i partCount hcount
      have hsliced : LiveMessage.Sliced crc32c ⟨payload, crc32c payload, partCount, none⟩
          (s.allocateMessageId now).1.config.maxPartPayloadLen :=
        ⟨(s.allocateMessageId now).1.config.maxPartPayloadLen_pos, hcount, rfl⟩
      rw [hsliced.allPayloadFrames_eq]
      rfl

/-- `handle_need_parts` never reaches the assertion of `get_slice_for_part` while the
live messages are sliced. -/
theorem handleNeedParts_isSome {s : SenderMachine}
    (hsliced : ∀ messageId live, s.live.lookup messageId = some live →
      live.Sliced crc32c s.config.maxPartPayloadLen) (needParts : NeedPartsFrame) :
    (s.handleNeedParts needParts).isSome := by
  unfold handleNeedParts
  split
  · rfl
  · rename_i live hlive
    split_ifs
    · rfl
    · rw [Option.isSome_map]
      exact (hsliced _ _ hlive).payloadFramesForMissingParts_isSome _ _

theorem handleNeedParts_markInitialSendComplete {s s' : SenderMachine} {messageId : UInt32} {now : ℕ}
    (h : s.markInitialSendComplete messageId now = some s') (needParts : NeedPartsFrame) :
    s'.handleNeedParts needParts = s.handleNeedParts needParts := by
  unfold markInitialSendComplete at h
  split at h
  · cases h
    rfl
  · rename_i live hlive
    obtain ⟨expiresAt, -, rfl⟩ := Option.map_eq_some_iff.1 h
    by_cases hid : needParts.messageId = messageId
    · rw [handleNeedParts, handleNeedParts, hid, AList.lookup_insert, hlive]
      rfl
    · simp only [handleNeedParts, AList.lookup_insert_ne hid]

end SenderMachine

end Flotsync.Udpour
