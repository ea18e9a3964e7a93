import Flotsync.Udpour.Receiver

/-!
What one payload frame does to a pending transfer. `Slots` is the agreement the
receiver keeps between its two views of the transfer, the slot vector and the set
of missing part numbers; storing a part keeps it, and a transfer whose missing set
empties has every slot filled, so its reassembly cannot fail.
-/

set_option autoImplicit false

namespace Flotsync.Udpour

theorem mapM_id_map_some {α : Type} (bs : List α) : (bs.map some).mapM id = some bs := by
  induction bs with
  | nil => rfl
  | cons b bs ih => simp [List.mapM_cons, ih]

theorem eq_map_some_filterMap {α : Type} {l : List (Option α)} (h : ∀ x ∈ l, x ≠ none) :
    l = (l.filterMap id).map some := by
  induction l with
  | nil => rfl
  | cons a l ih =>
    have htail : l = (l.filterMap id).map some := ih fun x hx => h x (List.mem_cons_of_mem a hx)
    cases a with
    | none => exact absurd rfl (h none List.mem_cons_self)
    | some b =>
      rw [List.filterMap_cons_some (f := id) rfl, List.map_cons]
      exact congrArg _ htail

namespace InboundTransfer

/-- One slot per part, and a part is missing exactly when its slot is empty. -/
structure Slots (t : InboundTransfer) : Prop where
  length : t.parts.length = t.partCount.val
  missing : ∀ i, i ∈ t.missingParts ↔ t.parts[i]? = some none

theorem new_eq_some {partCount : PartCount} {checksum : UInt32} {now : ℕ} {config : ReceiverConfig}
    {t : InboundTransfer} (h : new partCount checksum now config = some t) :
    ∃ giveUpDeadline repairDeadline, t = ⟨partCount, checksum, List.replicate partCount.val none,
      Finset.range partCount.val, none, none, giveUpDeadline, repairDeadline⟩ := by
  simp only [new, Option.bind_eq_bind, Option.bind_eq_some_iff, Option.some.injEq] at h
  obtain ⟨giveUpDeadline, -, repairDeadline, -, rfl⟩ := h
  exact ⟨giveUpDeadline, repairDeadline, rfl⟩

theorem slots_new {partCount : PartCount} {checksum : UInt32} {now : ℕ} {config : ReceiverConfig}
    {t : InboundTransfer} (h : new partCount checksum now config = some t) : t.Slots := by
  obtain ⟨giveUpDeadline, repairDeadline, rfl⟩ := new_eq_some h
  exact ⟨List.length_replicate, fun i => by simp [List.getElem?_replicate]⟩

theorem Slots.congr {t t' : InboundTransfer} (ht : t.Slots) (hparts : t'.parts = t.parts)
    (hmissing : t'.missingParts = t.missingParts) (hcount : t'.partCount = t.partCount) :
    t'.Slots :=
  ⟨by rw [hparts, hcount]; exact ht.length, fun i => by rw [hparts, hmissing]; exact ht.missing i⟩

theorem Slots.fill {t : InboundTransfer} (ht : t.Slots) {i : ℕ} (hi : t.parts[i]? = some none)
    (b : List UInt8) :
    { t with parts := t.parts.set i (some b), missingParts := t.missingParts.erase i }.Slots := by
  have hlt : i < t.parts.length := (List.getElem?_eq_some_iff.1 hi).1
  refine ⟨by simpa using ht.length, fun j => ?_⟩
  simp only [Finset.mem_erase, List.getElem?_set, ht.missing j]
  by_cases hj : i = j
  · subst hj
    simp [hlt]
  · simp [hj, Ne.symm hj]

theorem Slots.assemblePayload_eq {t : InboundTransfer} (ht : t.Slots) (hempty : t.missingParts = ∅) :
    ∃ bs : List (List UInt8), t.parts = bs.map some ∧ t.assemblePayload = some bs.flatten := by
  have hall : ∀ slot ∈ t.parts, slot ≠ none := by
    intro slot hslot hnone
    obtain ⟨i, hi, hget⟩ := List.getElem_of_mem hslot
    have hmem : i ∈ t.missingParts := (ht.missing i).2 (by simp [hi, hget, hnone])
    simp [hempty] at hmem
  obtain ⟨bs, hparts⟩ : ∃ bs : List (List UInt8), t.parts = bs.map some :=
    ⟨_, eq_map_some_filterMap hall⟩
  refine ⟨bs, hparts, ?_⟩
  rw [assemblePayload, hparts, mapM_id_map_some]
  rfl

variable (crc32c : List UInt8 → UInt32)

section Finish

variable {t t' : InboundTransfer} {messageId : UInt32} {now : ℕ} {config : ReceiverConfig}
  {update : InboundUpdate}

theorem finishPayload_eq_some (h : t.finishPayload crc32c messageId now config = some (update, t')) :
    (∃ giveUpDeadline repairDeadline, addDuration now config.giveUpTimeout = some giveUpDeadline ∧
      addDuration now config.repairInterval = some repairDeadline ∧
      t' = { t with giveUpDeadline, repairDeadline }) ∧
    ((t.missingParts ≠ ∅ ∧ update = .pending) ∨
      (t.missingParts = ∅ ∧ ∃ payload, t.assemblePayload = some payload ∧
        ((crc32c payload ≠ t.checksum ∧ update = .purged .checksumMismatch) ∨
          (crc32c payload = t.checksum ∧
            update = .deliver payload messageId t.partCount t.checksum)))) := by
  simp only [finishPayload, Option.bind_eq_bind, Option.bind_eq_some_iff] at h
  obtain ⟨giveUpDeadline, hg, repairDeadline, hr, h⟩ := h
  -- the deadlines are reset before the missing set is looked at
  split_ifs at h with hmissing
  · obtain ⟨payload, hpayload, h⟩ := Option.map_eq_some_iff.1 h
    have hpayload' : t.assemblePayload = some payload := hpayload
    split_ifs at h with hcrc
    · cases h
      exact ⟨⟨_, _, hg, hr, rfl⟩, .inr ⟨hmissing, payload, hpayload', .inl ⟨hcrc, rfl⟩⟩⟩
    · cases h
      exact ⟨⟨_, _, hg, hr, rfl⟩, .inr ⟨hmissing, payload, hpayload', .inr ⟨not_not.1 hcrc, rfl⟩⟩⟩
  · cases h
    exact ⟨⟨_, _, hg, hr, rfl⟩, .inl ⟨hmissing, rfl⟩⟩

theorem finishPayload_not_purged_confused
    (h : t.finishPayload crc32c messageId now config = some (update, t')) :
    update ≠ .purged .confused := by
  obtain ⟨-, ⟨-, rfl⟩ | ⟨-, _, -, ⟨-, rfl⟩ | ⟨-, rfl⟩⟩⟩ := finishPayload_eq_some crc32c h <;>
    simp

end Finish

section Store

variable {t t' : InboundTransfer} {frame : PayloadFrame} {now : ℕ} {config : ReceiverConfig}
  {update : InboundUpdate}

theorem storePart_eq_some (h : t.storePart crc32c frame now config = some (update, t')) :
    (∃ existing, t.parts[frame.header.partNumber]? = some (some existing) ∧
      existing ≠ frame.payload ∧ update = .purged .confused ∧ t' = t) ∨
    (t.parts[frame.header.partNumber]? = some (some frame.payload) ∧
      t.finishPayload crc32c frame.header.messageId now config = some (update, t')) ∨
    (t.parts[frame.header.partNumber]? = some none ∧
      { t with parts := t.parts.set frame.header.partNumber (some frame.payload)
               missingParts := t.missingParts.erase frame.header.partNumber }.finishPayload
        crc32c frame.header.messageId now config = some (update, t')) := by
  dsimp only [storePart] at h
  split at h
  · cases h
  · rename_i existing hslot
    split_ifs at h with hne
    · cases h
      exact .inl ⟨existing, hslot, hne, rfl, rfl⟩
    · rw [not_not] at hne
      subst hne
      exact .inr (.inl ⟨hslot, h⟩)
  · rename_i hslot
    exact .inr (.inr ⟨hslot, h⟩)

theorem Slots.storePart (ht : t.Slots) (h : t.storePart crc32c frame now config = some (update, t'))
    (hconfused : update ≠ .purged .confused) :
    t'.parts = t.parts.set frame.header.partNumber (some frame.payload) ∧
    (t.parts[frame.header.partNumber]? = some none ∨
      t.parts[frame.header.partNumber]? = some (some frame.payload)) ∧
    t'.Slots ∧ t'.partCount = t.partCount ∧ t'.checksum = t.checksum ∧
    t'.regularPartSize = t.regularPartSize ∧
    ((t'.missingParts ≠ ∅ ∧ update = .pending) ∨
      (t'.missingParts = ∅ ∧ ∃ payload, t'.assemblePayload = some payload ∧
        ((crc32c payload ≠ t.checksum ∧ update = .purged .checksumMismatch) ∨
          (crc32c payload = t.checksum ∧
            update = .deliver payload frame.header.messageId t.partCount t.checksum)))) := by
  rcases storePart_eq_some crc32c h with ⟨_, _, _, rfl, -⟩ | ⟨hslot, hfinish⟩ | ⟨hslot, hfinish⟩
  · exact absurd rfl hconfused
  · obtain ⟨⟨_, _, -, -, rfl⟩, hupdate⟩ := finishPayload_eq_some crc32c hfinish
    have hset : t.parts.set frame.header.partNumber (some frame.payload) = t.parts := by
      obtain ⟨hlt, hget⟩ := List.getElem?_eq_some_iff.1 hslot
      rw [← hget, List.set_getElem_self]
    exact ⟨hset.symm, .inr hslot, ht.congr rfl rfl rfl, rfl, rfl, rfl, hupdate⟩
  · obtain ⟨⟨_, _, -, -, rfl⟩, hupdate⟩ := finishPayload_eq_some crc32c hfinish
    exact ⟨rfl, .inl hslot, (ht.fill hslot frame.payload).congr rfl rfl rfl, rfl, rfl, rfl, hupdate⟩

end Store

section Accept

variable {t t' : InboundTransfer} {frame : PayloadFrame} {now : ℕ} {config : ReceiverConfig}
  {update : InboundUpdate}

/-- A frame that `accept_payload` does not refuse as confused matches the
transfer's metadata, names one of its parts, and is stored. -/
theorem acceptPayload_eq_some (h : t.acceptPayload crc32c frame now config = some (update, t'))
    (hconfused : update ≠ .purged .confused) :
    frame.header.partCount = t.partCount ∧ frame.header.checksum = t.checksum ∧
      frame.header.partNumber < t.partCount.val ∧
      ∃ t₁ : InboundTransfer, t₁.parts = t.parts ∧ t₁.missingParts = t.missingParts ∧ t₁.partCount = t.partCount ∧
        t₁.checksum = t.checksum ∧ t₁.storePart crc32c frame now config = some (update, t') := by
  unfold acceptPayload at h
  split_ifs at h with hmeta hfinal
  · cases h
    exact absurd rfl hconfused
  · simp only [not_or, not_not, not_le] at hmeta
    exact ⟨hmeta.1, hmeta.2.1, hmeta.2.2, t, rfl, rfl, rfl, rfl, h⟩
  · simp only [not_or, not_not, not_le] at hmeta
    refine ⟨hmeta.1, hmeta.2.1, hmeta.2.2, ?_⟩
    split at h
    · split_ifs at h
      · cases h
        exact absurd rfl hconfused
      · exact ⟨t, rfl, rfl, rfl, rfl, h⟩
    · exact ⟨{ t with regularPartSize := some frame.payload.length }, rfl, rfl, rfl, rfl, h⟩

end Accept

end InboundTransfer

end Flotsync.Udpour
