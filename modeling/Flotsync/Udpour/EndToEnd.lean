import Flotsync.Udpour.ReceiverTotal
import Flotsync.Udpour.SenderFrames

/-!
The sender and the receiver together. The frames the sender cuts from one message
reach the receiver through a network that may reorder, duplicate and drop them and
mix them with other peers' traffic: every such arrangement is a list of receiver
calls. The receiver's entry for the message follows the set of part numbers that
arrived (`Follows`): nothing before the first, a pending transfer holding exactly
those parts as the sender cut them while some part is missing, and a tombstone of
the message once all are in. So the message is delivered once, with its bytes, at
the call that brings its last part, and it is never purged, however the frames
arrive, as long as no timer fires and its sender does not withdraw it.
-/

set_option autoImplicit false

namespace Flotsync.Udpour

variable {S : Type} [DecidableEq S]

namespace InboundTransfer

/-- A transfer of the sliced message `live` that took the parts `seen`, each as the
sender cut it. -/
structure Holds (t : InboundTransfer) (live : LiveMessage) (m : ℕ) (seen : Finset ℕ) : Prop where
  partCount : t.partCount = live.partCount
  checksum : t.checksum = live.checksum
  parts : t.parts = (List.range live.partCount.val).map fun i =>
    if i ∈ seen then some (Chunks.piece live.payload m i) else none
  missing : t.missingParts = Finset.range live.partCount.val \ seen
  regularPartSize : t.regularPartSize = none ∨ t.regularPartSize = some m

variable {live : LiveMessage} {m : ℕ}

theorem holds_new {now : ℕ} {config : ReceiverConfig} {t : InboundTransfer}
    (h : new live.partCount live.checksum now config = some t) : t.Holds live m ∅ := by
  obtain ⟨giveUpDeadline, repairDeadline, rfl⟩ := new_eq_some h
  exact ⟨rfl, rfl, by simp, by simp, .inl rfl⟩

variable (crc32c : List UInt8 → UInt32)
variable {t : InboundTransfer} {seen : Finset ℕ}

theorem Holds.assemblePayload_eq (hsliced : live.Sliced crc32c m) (ht : t.Holds live m seen)
    (hall : Finset.range live.partCount.val ⊆ seen) : t.assemblePayload = some live.payload := by
  have hparts : t.parts = ((List.range live.partCount.val).map (Chunks.piece live.payload m)).map some := by
    rw [ht.parts, List.map_map]
    refine List.map_congr_left fun i hi => ?_
    simp [hall (Finset.mem_range.2 (List.mem_range.1 hi))]
  rw [assemblePayload, hparts, mapM_id_map_some, Option.map_some, hsliced.flatten_pieces]

theorem Holds.finishPayload (hsliced : live.Sliced crc32c m) (ht : t.Holds live m seen)
    (messageId : UInt32) {now : ℕ} {config : ReceiverConfig} (hfits : config.Fits now) :
    ∃ t', t.finishPayload crc32c messageId now config =
      some (if Finset.range live.partCount.val ⊆ seen then
        .deliver live.payload messageId live.partCount live.checksum else .pending, t') ∧
      t'.Holds live m seen := by
  -- finishing only resets the deadlines
  have ht' : InboundTransfer.Holds
      { t with giveUpDeadline := now + config.giveUpTimeout
               repairDeadline := now + config.repairInterval } live m seen :=
    ⟨ht.partCount, ht.checksum, ht.parts, ht.missing, ht.regularPartSize⟩
  refine ⟨_, ?_, ht'⟩
  have hmissing : t.missingParts = ∅ ↔ Finset.range live.partCount.val ⊆ seen := by
    rw [ht.missing, Finset.sdiff_eq_empty_iff_subset]
  simp only [InboundTransfer.finishPayload, addDuration_of_le hfits.1, addDuration_of_le hfits.2.1,
    Option.bind_eq_bind, Option.bind_some]
  by_cases hall : Finset.range live.partCount.val ⊆ seen
  · have hcrc : ¬ crc32c live.payload ≠ t.checksum := by rw [ht.checksum, hsliced.checksum]; simp
    rw [if_pos (hmissing.2 hall), ht'.assemblePayload_eq crc32c hsliced hall, Option.map_some,
      if_neg hcrc, if_pos hall, ht.partCount, ht.checksum]
  · rw [if_neg (mt hmissing.1 hall), if_neg hall]

variable {messageId : UInt32} {frame : PayloadFrame}

theorem Holds.fill (ht : t.Holds live m seen) (hframe : live.SentFrame m messageId frame) :
    InboundTransfer.Holds
      { t with parts := t.parts.set frame.header.partNumber (some frame.payload)
               missingParts := t.missingParts.erase frame.header.partNumber }
      live m (insert frame.header.partNumber seen) where
  partCount := ht.partCount
  checksum := ht.checksum
  parts := by
    rw [ht.parts, hframe.payload_eq]
    apply List.ext_getElem?
    intro j
    by_cases hij : frame.header.partNumber = j
    · subst hij
      simp [hframe.partNumber_lt]
    · rw [List.getElem?_set_ne hij]
      rcases Nat.lt_or_ge j live.partCount.val with hj | hj
      · simp [hj, Ne.symm hij]
      · simp [hj]
  missing := by rw [ht.missing, Finset.sdiff_insert]
  regularPartSize := ht.regularPartSize

theorem Holds.storePart (hsliced : live.Sliced crc32c m) (ht : t.Holds live m seen)
    (hframe : live.SentFrame m messageId frame) {now : ℕ} {config : ReceiverConfig}
    (hfits : config.Fits now) :
    ∃ t', t.storePart crc32c frame now config =
      some (if Finset.range live.partCount.val ⊆ insert frame.header.partNumber seen then
        .deliver live.payload messageId live.partCount live.checksum else .pending, t') ∧
      t'.Holds live m (insert frame.header.partNumber seen) := by
  have hslot : t.parts[frame.header.partNumber]? =
      some (if frame.header.partNumber ∈ seen then some frame.payload else none) := by
    rw [ht.parts, hframe.payload_eq]
    simp [hframe.partNumber_lt]
  rw [InboundTransfer.storePart, hslot, ← hframe.messageId_eq]
  by_cases hseen : frame.header.partNumber ∈ seen
  · -- a copy of a part already in: equal to it, so nothing changes
    rw [if_pos hseen]
    dsimp only
    rw [if_neg (not_not.2 rfl), Finset.insert_eq_of_mem hseen]
    exact ht.finishPayload crc32c hsliced _ hfits
  · rw [if_neg hseen]
    exact (ht.fill hframe).finishPayload crc32c hsliced _ hfits

theorem Holds.acceptPayload (hsliced : live.Sliced crc32c m) (ht : t.Holds live m seen)
    (hframe : live.SentFrame m messageId frame) {now : ℕ} {config : ReceiverConfig}
    (hfits : config.Fits now) :
    ∃ t', t.acceptPayload crc32c frame now config =
      some (if Finset.range live.partCount.val ⊆ insert frame.header.partNumber seen then
        .deliver live.payload messageId live.partCount live.checksum else .pending, t') ∧
      t'.Holds live m (insert frame.header.partNumber seen) := by
  have hmeta : ¬ (frame.header.partCount ≠ t.partCount ∨ frame.header.checksum ≠ t.checksum ∨
      t.partCount.val ≤ frame.header.partNumber) := by
    rw [ht.partCount, ht.checksum, hframe.partCount_eq, hframe.checksum_eq]
    simp [hframe.partNumber_lt]
  rw [InboundTransfer.acceptPayload, if_neg hmeta]
  by_cases hlast : frame.header.partNumber = t.partCount.lastPartNumber
  · rw [if_pos hlast]
    exact ht.storePart crc32c hsliced hframe hfits
  · -- a part before the last is a full piece, the regular size
    have hregular : frame.header.partNumber < live.partCount.lastPartNumber := by
      have hlt := hframe.partNumber_lt
      rw [ht.partCount] at hlast
      unfold PartCount.lastPartNumber at hlast ⊢
      omega
    have hlen : frame.payload.length = m := by
      rw [hframe.payload_eq]
      exact hsliced.length_piece hregular
    rw [if_neg hlast]
    rcases ht.regularPartSize with hsize | hsize <;> rw [hsize] <;> dsimp only
    · refine Holds.storePart crc32c hsliced ?_ hframe hfits
      exact ⟨ht.partCount, ht.checksum, ht.parts, ht.missing, .inr (congrArg some hlen)⟩
    · rw [if_neg (by rw [hlen]; exact not_not.2 rfl)]
      exact ht.storePart crc32c hsliced hframe hfits

end InboundTransfer

/-- The peer an action is about: the one a payload came from or a frame goes to. -/
def ReceiverAction.peer : ReceiverAction S → S
  | .deliver source _ => source
  | .sendAck source _ => source
  | .sendNeedParts source _ => source
  | .purged key _ => key.source

/-- The payload an action delivers from `source`. -/
def ReceiverAction.deliveredFrom (source : S) : ReceiverAction S → Option (List UInt8)
  | .deliver s payload => if s = source then some payload else none
  | _ => none

/-- The part number a call brings from `source`. -/
def ReceiverEvent.partFrom (source : S) : ReceiverEvent S → Option ℕ
  | .payload s frame _ => if s = source then some frame.header.partNumber else none
  | _ => none

/-- A call that cannot purge a transfer from `source`: a payload frame from any peer, or
a `NoLongerAvailable` from another one. Polls are left out, since their timeouts purge. -/
def ReceiverEvent.SparesSource (source : S) : ReceiverEvent S → Prop
  | .payload .. => True
  | .noLongerAvailable s _ => s ≠ source
  | .pollTimeouts .. => False

/-- The part numbers that arrived from `source` among `events`. -/
def partsFrom (source : S) (events : List (ReceiverEvent S)) : Finset ℕ :=
  (events.filterMap (ReceiverEvent.partFrom source)).toFinset

theorem partsFrom_append (source : S) (events : List (ReceiverEvent S)) (event : ReceiverEvent S) :
    partsFrom source (events ++ [event]) = partsFrom source events ∪ partsFrom source [event] := by
  simp [partsFrom, List.filterMap_append, List.toFinset_append]

theorem deliveredFrom_eq_none {source : S} {action : ReceiverAction S} (h : action.peer ≠ source) :
    action.deliveredFrom source = none := by
  cases action <;> simp_all [ReceiverAction.peer, ReceiverAction.deliveredFrom]

namespace ReceiverMachine

section Run

variable (crc32c : List UInt8 → UInt32)
  (fitOneNeedPartsFrame : UInt32 → PartCount → UInt32 → Finset ℕ → Option ℕ → ℕ →
    Except CodecError (Option NeedPartsFrame))

/-- A run that also collects the actions of its calls, in order. -/
def runActions (m : ReceiverMachine S) :
    List (ReceiverEvent S) → Option (ReceiverMachine S × List (ReceiverAction S))
  | [] => some (m, [])
  | event :: rest => (m.handle crc32c fitOneNeedPartsFrame event).bind fun r =>
    (r.1.runActions rest).map fun r' => (r'.1, r.2 ++ r'.2)

theorem runActions_append (m : ReceiverMachine S) (events : List (ReceiverEvent S))
    (event : ReceiverEvent S) :
    m.runActions crc32c fitOneNeedPartsFrame (events ++ [event]) =
      (m.runActions crc32c fitOneNeedPartsFrame events).bind fun r =>
        (r.1.handle crc32c fitOneNeedPartsFrame event).map fun r' => (r'.1, r.2 ++ r'.2) := by
  induction events generalizing m with
  | nil =>
    simp only [List.nil_append, runActions, Option.bind_some]
    cases m.handle crc32c fitOneNeedPartsFrame event <;> simp
  | cons e rest ih =>
    simp only [List.cons_append, runActions]
    cases m.handle crc32c fitOneNeedPartsFrame e with
    | none => rfl
    | some r =>
      simp only [Option.bind_some, ih]
      cases r.1.runActions crc32c fitOneNeedPartsFrame rest <;> simp [Function.comp_def]

theorem run_of_runActions {m m' : ReceiverMachine S} {events : List (ReceiverEvent S)}
    {actions : List (ReceiverAction S)}
    (h : m.runActions crc32c fitOneNeedPartsFrame events = some (m', actions)) :
    m.run crc32c fitOneNeedPartsFrame events = some m' := by
  induction events generalizing m actions with
  | nil =>
    cases h
    rfl
  | cons event rest ih =>
    simp only [runActions] at h
    obtain ⟨r, hr, h⟩ := Option.bind_eq_some_iff.1 h
    obtain ⟨r', hr', h⟩ := Option.map_eq_some_iff.1 h
    cases h
    simp only [run, hr, Option.bind_some]
    exact ih hr'

end Run

section Calls

variable (crc32c : List UInt8 → UInt32)
variable {m : ReceiverMachine S} {source : S} {frame : PayloadFrame} {now : ℕ}

theorem Applied.peer {key : ReceiverTransferKey S} {update : InboundUpdate} {t' : InboundTransfer}
    {m' : ReceiverMachine S} {actions : List (ReceiverAction S)} (hkey : key.source = source)
    (h : Applied key source update t' m' actions) : ∀ action ∈ actions, action.peer = source := by
  cases update <;> obtain ⟨-, rfl⟩ := h <;> simp [ReceiverAction.peer, hkey]

theorem acceptPayload_peer {m' : ReceiverMachine S} {actions : List (ReceiverAction S)}
    (h : m.acceptPayload crc32c source frame now = some (m', actions)) :
    ∀ action ∈ actions, action.peer = source := by
  dsimp only [acceptPayload] at h
  split at h
  · obtain ⟨⟨next, acts⟩, hdelivered, h⟩ := Option.map_eq_some_iff.1 h
    have hacts : ∀ action ∈ acts, action.peer = source := by
      unfold acceptDeliveredPayload at hdelivered
      split_ifs at hdelivered
      · cases hdelivered
        simp [ReceiverAction.peer]
      · cases hdelivered
        simp
      · simp only [Option.bind_eq_bind, Option.bind_eq_some_iff] at hdelivered
        obtain ⟨t₀, -, ⟨update, t'⟩, -, hnext⟩ := hdelivered
        cases update with
        | deliver payload messageId partCount checksum =>
          obtain ⟨⟨state, acts'⟩, hdeliver, hnext⟩ := Option.map_eq_some_iff.1 hnext
          obtain ⟨_, rfl, rfl⟩ := deliverActions_eq_some hdeliver
          cases hnext
          simp [ReceiverAction.peer]
        | _ => cases hnext; simp [ReceiverAction.peer]
    cases next <;> cases h <;> exact hacts
  · simp only [Option.bind_eq_bind, Option.bind_eq_some_iff] at h
    obtain ⟨⟨update, t'⟩, -, ⟨transfers', acts⟩, happly, h⟩ := h
    cases h
    exact (applyPendingUpdate_eq_some (m := m) happly).1.peer rfl
  · rename_i hlookup
    simp only [Option.bind_eq_bind, Option.bind_eq_some_iff] at h
    obtain ⟨t₀, -, ⟨update, t'⟩, -, ⟨transfers', acts⟩, happly, h⟩ := h
    cases h
    exact (applyNewTransferUpdate_eq_some (m := m) hlookup happly).1.peer rfl

theorem acceptNoLongerAvailable_peer (frame : NoLongerAvailableFrame) {action : ReceiverAction S}
    (h : (m.acceptNoLongerAvailable source frame).2 = some action) : action.peer = source := by
  dsimp only [acceptNoLongerAvailable] at h
  split at h
  · split_ifs at h
    cases h
    rfl
  · cases h

theorem acceptNoLongerAvailable_lookup_ne (frame : NoLongerAvailableFrame) {key : ReceiverTransferKey S}
    (hk : key ≠ ⟨source, frame.messageId⟩) :
    (m.acceptNoLongerAvailable source frame).1.transfers.lookup key = m.transfers.lookup key := by
  dsimp only [acceptNoLongerAvailable]
  split
  · split_ifs
    · rfl
    · exact AList.lookup_erase_ne hk
  · rfl

variable {update : InboundUpdate} {t' : InboundTransfer}

variable {transfers' : Transfers S} {actions : List (ReceiverAction S)}

theorem acceptPayload_of_none (hlookup : m.transfers.lookup ⟨source, frame.header.messageId⟩ = none)
    {t₀ : InboundTransfer}
    (hnew : InboundTransfer.new frame.header.partCount frame.header.checksum now m.config = some t₀)
    (haccept : t₀.acceptPayload crc32c frame now m.config = some (update, t'))
    (happly : applyNewTransferUpdate m.config source ⟨source, frame.header.messageId⟩ m.transfers t'
      update now = some (transfers', actions)) :
    m.acceptPayload crc32c source frame now = some (⟨m.config, transfers'⟩, actions) := by
  dsimp only [acceptPayload]
  rw [hlookup]
  simp only [hnew, haccept, happly, Option.bind_eq_bind, Option.bind_some]

theorem acceptPayload_of_pending {t : InboundTransfer}
    (hlookup : m.transfers.lookup ⟨source, frame.header.messageId⟩ = some (.pending t))
    (haccept : t.acceptPayload crc32c frame now m.config = some (update, t'))
    (happly : applyPendingUpdate m.config source ⟨source, frame.header.messageId⟩ m.transfers t'
      update now = some (transfers', actions)) :
    m.acceptPayload crc32c source frame now = some (⟨m.config, transfers'⟩, actions) := by
  dsimp only [acceptPayload]
  rw [hlookup]
  simp only [haccept, happly, Option.bind_eq_bind, Option.bind_some]

theorem acceptPayload_of_tombstone {tombstone : DeliveredTombstone}
    (hlookup : m.transfers.lookup ⟨source, frame.header.messageId⟩ = some (.delivered tombstone))
    (hmatches : tombstone.matches frame.header.partCount frame.header.checksum = true) :
    m.acceptPayload crc32c source frame now = some
      ({ m with transfers := m.transfers.insert ⟨source, frame.header.messageId⟩ (.delivered tombstone) },
       [.sendAck source (ackFrame frame.header.messageId frame.header.partCount frame.header.checksum)]) := by
  dsimp only [acceptPayload]
  rw [hlookup]
  dsimp only [acceptDeliveredPayload]
  rw [if_pos hmatches]
  rfl

theorem applyNewTransferUpdate_eq (config : ReceiverConfig) (key : ReceiverTransferKey S)
    (transfers : Transfers S) (transfer : InboundTransfer) (h : ∀ reason, update ≠ .purged reason) :
    applyNewTransferUpdate config source key transfers transfer update now =
      applyPendingUpdate config source key transfers transfer update now := by
  cases update with
  | pending => rfl
  | deliver => rfl
  | purged reason => exact absurd rfl (h reason)

end Calls

section Follows

variable {live : LiveMessage} {m : ℕ}

/-- What the receiver keeps for a message of which the parts `seen` arrived. -/
inductive Follows (live : LiveMessage) (m : ℕ) : Option InboundState → Finset ℕ → Prop
  | fresh : Follows live m none ∅
  | pending {t : InboundTransfer} {seen : Finset ℕ} (ht : t.Holds live m seen)
      (hmissing : ¬ Finset.range live.partCount.val ⊆ seen) :
      Follows live m (some (.pending t)) seen
  | delivered {tombstone : DeliveredTombstone} {seen : Finset ℕ}
      (hmatches : tombstone.matches live.partCount live.checksum = true)
      (hall : Finset.range live.partCount.val ⊆ seen) :
      Follows live m (some (.delivered tombstone)) seen

theorem follows_applyPendingUpdate {config : ReceiverConfig} (source : S) (key : ReceiverTransferKey S)
    (transfers : Transfers S) {t' : InboundTransfer} {seen : Finset ℕ} (ht' : t'.Holds live m seen)
    (messageId : UInt32) {now : ℕ} (htomb : now + config.deliveredTombstoneTimeout ≤ instantMax) :
    ∃ transfers' actions, applyPendingUpdate config source key transfers t'
        (if Finset.range live.partCount.val ⊆ seen then
          .deliver live.payload messageId live.partCount live.checksum else .pending) now =
        some (transfers', actions) ∧
      Follows live m (transfers'.lookup key) seen ∧
      (∀ reason, .purged key reason ∉ actions) ∧
      actions.filterMap (ReceiverAction.deliveredFrom source) =
        if Finset.range live.partCount.val ⊆ seen then [live.payload] else [] := by
  by_cases hall : Finset.range live.partCount.val ⊆ seen
  · simp only [if_pos hall, applyPendingUpdate, deliverActions, addDuration_of_le htomb, Option.map_some]
    refine ⟨_, _, rfl, ?_, by simp, by simp [ReceiverAction.deliveredFrom]⟩
    rw [AList.lookup_insert]
    exact .delivered (by simp [DeliveredTombstone.matches]) hall
  · simp only [if_neg hall, applyPendingUpdate]
    refine ⟨_, _, rfl, ?_, by simp, rfl⟩
    rw [AList.lookup_insert]
    exact .pending ht' hall

variable (crc32c : List UInt8 → UInt32)

theorem Follows.acceptPayload (hsliced : live.Sliced crc32c m) {mach : ReceiverMachine S}
    {source : S} {messageId : UInt32} {seen : Finset ℕ}
    (hf : Follows live m (mach.transfers.lookup ⟨source, messageId⟩) seen) {frame : PayloadFrame}
    (hframe : live.SentFrame m messageId frame) {now : ℕ} (hfits : mach.config.Fits now) :
    ∃ mach' actions, mach.acceptPayload crc32c source frame now = some (mach', actions) ∧
      Follows live m (mach'.transfers.lookup ⟨source, messageId⟩) (insert frame.header.partNumber seen) ∧
      (∀ reason, .purged ⟨source, messageId⟩ reason ∉ actions) ∧
      actions.filterMap (ReceiverAction.deliveredFrom source) =
        if Finset.range live.partCount.val ⊆ insert frame.header.partNumber seen ∧
          ¬ Finset.range live.partCount.val ⊆ seen then [live.payload] else [] := by
  have hid := hframe.messageId_eq
  subst hid
  generalize hstate : mach.transfers.lookup ⟨source, frame.header.messageId⟩ = state at hf
  cases hf with
  | fresh =>
    have hnone : ¬ Finset.range live.partCount.val ⊆ ∅ := by simp [live.partCount.pos.ne']
    obtain ⟨t₀, hnew⟩ := Option.isSome_iff_exists.1
      (InboundTransfer.new_isSome live.partCount live.checksum hfits)
    obtain ⟨t', haccept, ht'⟩ := (InboundTransfer.holds_new (m := m) hnew).acceptPayload
      crc32c hsliced hframe hfits
    rw [← hframe.partCount_eq, ← hframe.checksum_eq] at hnew
    obtain ⟨transfers', actions, happly, hf', hpurge, hdeliver⟩ := follows_applyPendingUpdate source
      ⟨source, frame.header.messageId⟩ mach.transfers ht' frame.header.messageId hfits.2.2
    rw [← applyNewTransferUpdate_eq _ _ _ _ (by split <;> simp)] at happly
    refine ⟨_, _, acceptPayload_of_none crc32c hstate hnew haccept happly, hf', hpurge, ?_⟩
    rw [hdeliver]
    simp [hnone]
  | pending ht hmissing =>
    obtain ⟨t', haccept, ht'⟩ := ht.acceptPayload crc32c hsliced hframe hfits
    obtain ⟨transfers', actions, happly, hf', hpurge, hdeliver⟩ := follows_applyPendingUpdate source
      ⟨source, frame.header.messageId⟩ mach.transfers ht' frame.header.messageId hfits.2.2
    refine ⟨_, _, acceptPayload_of_pending crc32c hstate haccept happly, hf', hpurge, ?_⟩
    rw [hdeliver]
    simp [hmissing]
  | delivered hmatches hall =>
    -- the tombstone answers with an `Ack` and stays
    rw [← hframe.partCount_eq, ← hframe.checksum_eq] at hmatches
    refine ⟨_, _, acceptPayload_of_tombstone crc32c hstate hmatches, ?_, by simp, ?_⟩
    · rw [AList.lookup_insert, hframe.partCount_eq, hframe.checksum_eq] at *
      exact .delivered hmatches (hall.trans (Finset.subset_insert _ _))
    · simp [ReceiverAction.deliveredFrom, hall]

theorem Follows.other {mach mach' : ReceiverMachine S} {source s : S} {messageId : UInt32}
    {seen : Finset ℕ} (hf : Follows live m (mach.transfers.lookup ⟨source, messageId⟩) seen)
    (hs : s ≠ source) {actions : List (ReceiverAction S)} (hpeer : ∀ action ∈ actions, action.peer = s)
    (hlookup : mach'.transfers.lookup ⟨source, messageId⟩ = mach.transfers.lookup ⟨source, messageId⟩) :
    Follows live m (mach'.transfers.lookup ⟨source, messageId⟩) seen ∧
      (∀ reason, .purged ⟨source, messageId⟩ reason ∉ actions) ∧
      actions.filterMap (ReceiverAction.deliveredFrom source) = [] := by
  refine ⟨hlookup ▸ hf, fun reason h => hs ?_, List.filterMap_eq_nil_iff.2 fun action h => ?_⟩
  · exact (hpeer _ h).symm
  · exact deliveredFrom_eq_none (by rw [hpeer action h]; exact hs)

variable (fitOneNeedPartsFrame : UInt32 → PartCount → UInt32 → Finset ℕ → Option ℕ → ℕ →
  Except CodecError (Option NeedPartsFrame))

/-- One call: a frame of the message from `source` is taken as `Follows.acceptPayload`
says, and any other call, which cannot fail on a state whose slots agree with its
missing sets, is about another peer. -/
theorem Follows.handle (hsliced : live.Sliced crc32c m) {mach : ReceiverMachine S}
    (hslots : AllSlots mach.transfers) {source : S} {messageId : UInt32} {seen : Finset ℕ}
    (hf : Follows live m (mach.transfers.lookup ⟨source, messageId⟩) seen) {event : ReceiverEvent S}
    (hsent : ∀ frame now, event = .payload source frame now → live.SentFrame m messageId frame)
    (hspares : event.SparesSource source) (hfits : event.Fits mach.config) :
    ∃ mach' actions, mach.handle crc32c fitOneNeedPartsFrame event = some (mach', actions) ∧
      Follows live m (mach'.transfers.lookup ⟨source, messageId⟩) (seen ∪ partsFrom source [event]) ∧
      (∀ reason, .purged ⟨source, messageId⟩ reason ∉ actions) ∧
      actions.filterMap (ReceiverAction.deliveredFrom source) =
        if Finset.range live.partCount.val ⊆ seen ∪ partsFrom source [event] ∧
          ¬ Finset.range live.partCount.val ⊆ seen then [live.payload] else [] := by
  cases event with
  | payload s frame now =>
    by_cases hs : s = source
    · subst hs
      have hparts : seen ∪ partsFrom s [.payload s frame now] = insert frame.header.partNumber seen := by
        simp [partsFrom, ReceiverEvent.partFrom]
      rw [hparts]
      exact hf.acceptPayload crc32c hsliced (hsent frame now rfl) hfits
    · obtain ⟨⟨mach', actions⟩, hstep⟩ :=
        Option.isSome_iff_exists.1 (acceptPayload_isSome crc32c hslots s frame hfits)
      have hkey : (⟨source, messageId⟩ : ReceiverTransferKey S) ≠ ⟨s, frame.header.messageId⟩ := by
        simp [Ne.symm hs]
      have hparts : partsFrom source [.payload s frame now] = ∅ := by
        simp [partsFrom, ReceiverEvent.partFrom, hs]
      obtain ⟨hf', hpurge, hdeliver⟩ := hf.other hs (acceptPayload_peer crc32c hstep)
        ((acceptPayload_eq_some crc32c hstep).1 _ hkey)
      refine ⟨mach', actions, hstep, ?_, hpurge, ?_⟩
      · rwa [hparts, Finset.union_empty]
      · simp [hdeliver, hparts]
  | noLongerAvailable s frame =>
    have hs : s ≠ source := hspares
    have hkey : (⟨source, messageId⟩ : ReceiverTransferKey S) ≠ ⟨s, frame.messageId⟩ := by
      simp [Ne.symm hs]
    have hpeer : ∀ action ∈ (mach.acceptNoLongerAvailable s frame).2.toList, action.peer = s := by
      intro action h
      exact acceptNoLongerAvailable_peer frame (Option.mem_toList.1 h)
    have hparts : partsFrom source [.noLongerAvailable s frame] = ∅ := by
      simp [partsFrom, ReceiverEvent.partFrom]
    obtain ⟨hf', hpurge, hdeliver⟩ := hf.other hs hpeer (acceptNoLongerAvailable_lookup_ne frame hkey)
    refine ⟨(mach.acceptNoLongerAvailable s frame).1, (mach.acceptNoLongerAvailable s frame).2.toList,
      rfl, ?_, hpurge, ?_⟩
    · rwa [hparts, Finset.union_empty]
    · simp [hdeliver, hparts]
  | pollTimeouts now keys => exact absurd hspares id

/-- Over a whole run from a fresh receiver: the entry of the message follows the parts
that arrived, nothing purges it, and it was delivered once if every part arrived and
never otherwise. -/
theorem Follows.run (hsliced : live.Sliced crc32c m) (config : ReceiverConfig) (source : S)
    (messageId : UInt32) :
    ∀ events : List (ReceiverEvent S),
      (∀ frame now, .payload source frame now ∈ events → live.SentFrame m messageId frame) →
      (∀ event ∈ events, event.SparesSource source) → (∀ event ∈ events, event.Fits config) →
      ∃ mach actions, (new config : ReceiverMachine S).runActions crc32c fitOneNeedPartsFrame events =
          some (mach, actions) ∧
        Follows live m (mach.transfers.lookup ⟨source, messageId⟩) (partsFrom source events) ∧
        (∀ reason, .purged ⟨source, messageId⟩ reason ∉ actions) ∧
        actions.filterMap (ReceiverAction.deliveredFrom source) =
          if Finset.range live.partCount.val ⊆ partsFrom source events then [live.payload] else [] := by
  intro events
  -- induction on the run from its end; the receiver's own invariant on the prefix keeps
  -- the calls of other peers from failing
  induction events using List.reverseRecOn with
  | nil =>
    intro _ _ _
    refine ⟨_, _, rfl, ?_, by simp, ?_⟩
    · simp only [new, AList.lookup_empty, partsFrom, List.filterMap_nil, List.toFinset_nil]
      exact .fresh
    · simp [partsFrom, live.partCount.pos.ne']
  | append_singleton events event ih =>
    intro hsent hcalls htimes
    obtain ⟨mach, actions, hrun, hf, hpurge, hdeliver⟩ :=
      ih (fun frame now h => hsent frame now (List.mem_append_left _ h))
        (fun e h => hcalls e (List.mem_append_left _ h)) fun e h => htimes e (List.mem_append_left _ h)
    have hmach := run_of_runActions crc32c fitOneNeedPartsFrame hrun
    have hinv := (tracks_new config).run events mach hmach
    have hlast : event ∈ events ++ [event] := List.mem_append_right _ (List.mem_singleton_self _)
    have hfits : event.Fits mach.config := by
      rw [run_config crc32c fitOneNeedPartsFrame hmach]
      exact htimes event hlast
    obtain ⟨mach', acts, hstep, hf', hpurge', hdeliver'⟩ := hf.handle crc32c fitOneNeedPartsFrame hsliced
      (fun key t ht => (hinv key t ht).1) (fun frame now h => hsent frame now (h ▸ hlast))
      (hcalls event hlast) hfits
    refine ⟨mach', actions ++ acts, ?_, ?_, ?_, ?_⟩
    · rw [runActions_append, hrun, Option.bind_some, hstep]
      rfl
    · rw [partsFrom_append]
      exact hf'
    · intro reason h
      rcases List.mem_append.1 h with h | h
      · exact hpurge reason h
      · exact hpurge' reason h
    · rw [List.filterMap_append, hdeliver, hdeliver', partsFrom_append]
      -- the deliveries so far, then the one of this call if it completes the message
      by_cases hall : Finset.range live.partCount.val ⊆ partsFrom source events
      · simp [hall, hall.trans Finset.subset_union_left]
      · simp [hall]

end Follows

end ReceiverMachine


namespace SenderMachine

variable {crc32c : List UInt8 → UInt32}

end SenderMachine

section ExactlyOnce

open ReceiverMachine

end ExactlyOnce

end Flotsync.Udpour
