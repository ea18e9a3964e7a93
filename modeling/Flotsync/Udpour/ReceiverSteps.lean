import Flotsync.Udpour.Reassembly

/-!
The receiver's calls, one spec lemma each. A payload frame only touches the entry of
its own `(source, message_id)`; there it updates a pending transfer, starts a new one
(in an empty entry, or over a tombstone of another message under a reused id), or
leaves a tombstone as it is. `accept_no_longer_available` and `poll_timeouts` never
change a transfer's slots: they keep it, with new deadlines or a new repair
watermark, or drop it. Runs of calls are lists of `ReceiverEvent`s.
-/

set_option autoImplicit false

namespace Flotsync.Udpour

variable {S : Type} [DecidableEq S]

/-- One call of the receiver's interface. -/
inductive ReceiverEvent (S : Type) where
  | payload (source : S) (frame : PayloadFrame) (now : ℕ)
  | noLongerAvailable (source : S) (frame : NoLongerAvailableFrame)
  | pollTimeouts (now : ℕ) (keys : List (ReceiverTransferKey S))

/-- At `now` every deadline the receiver sets stays within the clock's range. -/
def ReceiverConfig.Fits (config : ReceiverConfig) (now : ℕ) : Prop :=
  now + config.giveUpTimeout ≤ instantMax ∧ now + config.repairInterval ≤ instantMax ∧
    now + config.deliveredTombstoneTimeout ≤ instantMax

/-- A call whose clock reading leaves room for the timeouts it may add. -/
def ReceiverEvent.Fits {S : Type} (config : ReceiverConfig) : ReceiverEvent S → Prop
  | .payload _ _ now => config.Fits now
  | .noLongerAvailable .. => True
  | .pollTimeouts now _ => now + config.repairInterval ≤ instantMax

namespace ReceiverMachine

/-- What a pending transfer may become under a call that does not store a part:
the same slots and metadata, or nothing. -/
def KeepsSlots (before after : Option InboundState) : Prop :=
  ∀ t', after = some (.pending t') →
    ∃ t, before = some (.pending t) ∧ t'.parts = t.parts ∧ t'.missingParts = t.missingParts ∧
      t'.partCount = t.partCount ∧ t'.checksum = t.checksum

theorem keepsSlots_refl (state : Option InboundState) : KeepsSlots state state :=
  fun t' h => ⟨t', h, rfl, rfl, rfl, rfl⟩

theorem keepsSlots_none (before : Option InboundState) : KeepsSlots before none :=
  fun _ h => by cases h

theorem keepsSlots_delivered (before : Option InboundState) (tombstone : DeliveredTombstone) :
    KeepsSlots before (some (.delivered tombstone)) :=
  fun _ h => by cases h

theorem KeepsSlots.trans {a b c : Option InboundState} (hab : KeepsSlots a b)
    (hbc : KeepsSlots b c) : KeepsSlots a c := by
  intro t'' hc
  obtain ⟨t', hb, h₁, h₂, h₃, h₄⟩ := hbc t'' hc
  obtain ⟨t, ha, h₁', h₂', h₃', h₄'⟩ := hab t' hb
  exact ⟨t, ha, h₁.trans h₁', h₂.trans h₂', h₃.trans h₃', h₄.trans h₄'⟩

/-- What `accept_payload` leaves in its entry and emits, by the transfer's update. -/
def Applied (key : ReceiverTransferKey S) (source : S) (update : InboundUpdate)
    (t' : InboundTransfer) (m' : ReceiverMachine S) (actions : List (ReceiverAction S)) : Prop :=
  match update with
  | .pending => m'.transfers.lookup key = some (.pending t') ∧ actions = []
  | .deliver payload messageId partCount checksum =>
    (∃ tombstone, m'.transfers.lookup key = some (.delivered tombstone)) ∧
      actions = [.deliver source payload, .sendAck source (ackFrame messageId partCount checksum)]
  | .purged reason => m'.transfers.lookup key = none ∧ actions = [.purged key reason]

section Accept

variable (crc32c : List UInt8 → UInt32)
variable {m m' : ReceiverMachine S} {source : S} {frame : PayloadFrame} {now : ℕ}
  {actions : List (ReceiverAction S)}

omit [DecidableEq S] in
theorem deliverActions_eq_some {config : ReceiverConfig} {payload : List UInt8} {messageId : UInt32}
    {partCount : PartCount} {checksum : UInt32} {state : InboundState}
    (h : deliverActions config source payload messageId partCount checksum now = some (state, actions)) :
    ∃ tombstone, state = .delivered tombstone ∧
      actions = [.deliver source payload, .sendAck source (ackFrame messageId partCount checksum)] := by
  obtain ⟨expiresAt, -, h⟩ := Option.map_eq_some_iff.1 h
  cases h
  exact ⟨_, rfl, rfl⟩

theorem applyPendingUpdate_eq_some {config : ReceiverConfig} {key : ReceiverTransferKey S}
    {transfers transfers' : Transfers S} {transfer : InboundTransfer} {update : InboundUpdate}
    (h : applyPendingUpdate config source key transfers transfer update now = some (transfers', actions)) :
    Applied key source update transfer ⟨m.config, transfers'⟩ actions ∧
      ∀ k, k ≠ key → transfers'.lookup k = transfers.lookup k := by
  cases update with
  | pending =>
    cases h
    exact ⟨⟨AList.lookup_insert _, rfl⟩, fun k hk => AList.lookup_insert_ne hk⟩
  | deliver payload messageId partCount checksum =>
    obtain ⟨⟨state, acts⟩, hdeliver, h⟩ := Option.map_eq_some_iff.1 h
    obtain ⟨tombstone, rfl, rfl⟩ := deliverActions_eq_some hdeliver
    cases h
    exact ⟨⟨⟨tombstone, AList.lookup_insert _⟩, rfl⟩, fun k hk => AList.lookup_insert_ne hk⟩
  | purged reason =>
    cases h
    exact ⟨⟨AList.lookup_erase _ _, rfl⟩, fun k hk => AList.lookup_erase_ne hk⟩

theorem applyNewTransferUpdate_eq_some {config : ReceiverConfig} {key : ReceiverTransferKey S}
    {transfers transfers' : Transfers S} (hkey : transfers.lookup key = none)
    {transfer : InboundTransfer} {update : InboundUpdate}
    (h : applyNewTransferUpdate config source key transfers transfer update now =
      some (transfers', actions)) :
    Applied key source update transfer ⟨m.config, transfers'⟩ actions ∧
      ∀ k, k ≠ key → transfers'.lookup k = transfers.lookup k := by
  cases update with
  | pending =>
    cases h
    exact ⟨⟨AList.lookup_insert _, rfl⟩, fun k hk => AList.lookup_insert_ne hk⟩
  | deliver payload messageId partCount checksum =>
    obtain ⟨⟨state, acts⟩, hdeliver, h⟩ := Option.map_eq_some_iff.1 h
    obtain ⟨tombstone, rfl, rfl⟩ := deliverActions_eq_some hdeliver
    cases h
    exact ⟨⟨⟨tombstone, AList.lookup_insert _⟩, rfl⟩, fun k hk => AList.lookup_insert_ne hk⟩
  | purged reason =>
    cases h
    exact ⟨⟨hkey, rfl⟩, fun _ _ => rfl⟩

/-- `accept_payload` on the entry of its key: a pending transfer takes the frame, a
new transfer starts from the frame in an empty entry or over the tombstone of
another message, or a tombstone stays and nothing is delivered. Every other entry
is left alone. -/
theorem acceptPayload_eq_some (h : m.acceptPayload crc32c source frame now = some (m', actions)) :
    let key : ReceiverTransferKey S := ⟨source, frame.header.messageId⟩
    (∀ k, k ≠ key → m'.transfers.lookup k = m.transfers.lookup k) ∧
    ((∃ t update t', m.transfers.lookup key = some (.pending t) ∧
        t.acceptPayload crc32c frame now m.config = some (update, t') ∧
        Applied key source update t' m' actions) ∨
      (∃ t₀ update t', (m.transfers.lookup key = none ∨
          ∃ tombstone, m.transfers.lookup key = some (.delivered tombstone)) ∧
        InboundTransfer.new frame.header.partCount frame.header.checksum now m.config = some t₀ ∧
        t₀.acceptPayload crc32c frame now m.config = some (update, t') ∧
        Applied key source update t' m' actions) ∨
      (∃ tombstone, m.transfers.lookup key = some (.delivered tombstone) ∧
        m'.transfers.lookup key = some (.delivered tombstone) ∧
        ∀ source' payload, .deliver source' payload ∉ actions)) := by
  dsimp only
  dsimp only [acceptPayload] at h
  split at h
  · -- a delivered tombstone for the key
    rename_i tombstone hlookup
    obtain ⟨⟨next, acts⟩, hdelivered, h⟩ := Option.map_eq_some_iff.1 h
    unfold acceptDeliveredPayload at hdelivered
    split_ifs at hdelivered with hmatch hretransmit
    · cases hdelivered
      cases h
      refine ⟨fun k hk => AList.lookup_insert_ne hk, .inr (.inr ⟨tombstone, hlookup, ?_, ?_⟩)⟩
      · exact AList.lookup_insert _
      · simp
    · cases hdelivered
      cases h
      refine ⟨fun k hk => AList.lookup_insert_ne hk, .inr (.inr ⟨tombstone, hlookup, ?_, ?_⟩)⟩
      · exact AList.lookup_insert _
      · simp
    · -- a new transfer under the reused id
      simp only [Option.bind_eq_bind, Option.bind_eq_some_iff] at hdelivered
      obtain ⟨t₀, hnew, ⟨update, t'⟩, haccept, hnext⟩ := hdelivered
      have happlied : Applied ⟨source, frame.header.messageId⟩ source update t' m' actions ∧
          ∀ k, k ≠ ⟨source, frame.header.messageId⟩ → m'.transfers.lookup k = m.transfers.lookup k := by
        cases update with
        | pending =>
          cases hnext
          cases h
          exact ⟨⟨AList.lookup_insert _, rfl⟩, fun k hk => AList.lookup_insert_ne hk⟩
        | deliver payload messageId partCount checksum =>
          obtain ⟨⟨state, acts'⟩, hdeliver, hnext⟩ := Option.map_eq_some_iff.1 hnext
          obtain ⟨tombstone', rfl, rfl⟩ := deliverActions_eq_some hdeliver
          cases hnext
          cases h
          exact ⟨⟨⟨tombstone', AList.lookup_insert _⟩, rfl⟩, fun k hk => AList.lookup_insert_ne hk⟩
        | purged reason =>
          cases hnext
          cases h
          exact ⟨⟨AList.lookup_erase _ _, rfl⟩, fun k hk => AList.lookup_erase_ne hk⟩
      exact ⟨happlied.2, .inr (.inl ⟨t₀, update, t', .inr ⟨tombstone, hlookup⟩, hnew, haccept, happlied.1⟩)⟩
  · -- a pending transfer for the key
    rename_i t hlookup
    simp only [Option.bind_eq_bind, Option.bind_eq_some_iff] at h
    obtain ⟨⟨update, t'⟩, haccept, ⟨transfers', acts⟩, happly, h⟩ := h
    cases h
    obtain ⟨happlied, hframe⟩ := applyPendingUpdate_eq_some happly
    exact ⟨hframe, .inl ⟨t, update, t', hlookup, haccept, happlied⟩⟩
  · -- no entry for the key
    rename_i hlookup
    simp only [Option.bind_eq_bind, Option.bind_eq_some_iff] at h
    obtain ⟨t₀, hnew, ⟨update, t'⟩, haccept, ⟨transfers', acts⟩, happly, h⟩ := h
    cases h
    obtain ⟨happlied, hframe⟩ := applyNewTransferUpdate_eq_some hlookup happly
    exact ⟨hframe, .inr (.inl ⟨t₀, update, t', .inl hlookup, hnew, haccept, happlied⟩)⟩

end Accept

section Control

variable {m : ReceiverMachine S}

theorem acceptNoLongerAvailable_keepsSlots (source : S) (frame : NoLongerAvailableFrame)
    (key : ReceiverTransferKey S) :
    KeepsSlots (m.transfers.lookup key)
      ((m.acceptNoLongerAvailable source frame).1.transfers.lookup key) := by
  dsimp only [acceptNoLongerAvailable]
  split
  · split_ifs
    · exact keepsSlots_refl _
    · by_cases hk : key = ⟨source, frame.messageId⟩
      · subst hk
        simp only [AList.lookup_erase]
        exact keepsSlots_none _
      · simp only [AList.lookup_erase_ne hk]
        exact keepsSlots_refl _
  · exact keepsSlots_refl _

theorem acceptNoLongerAvailable_not_deliver (source source' : S) (frame : NoLongerAvailableFrame)
    (payload : List UInt8) :
    (m.acceptNoLongerAvailable source frame).2 ≠ some (.deliver source' payload) := by
  dsimp only [acceptNoLongerAvailable]
  split
  · split_ifs <;> simp
  · simp

variable (fitOneNeedPartsFrame : UInt32 → PartCount → UInt32 → Finset ℕ → Option ℕ → ℕ →
  Except CodecError (Option NeedPartsFrame))

theorem nextNeedPartsFrame_eq_some {t t' : InboundTransfer} {messageId : UInt32} {len : ℕ}
    {r : Except ReceiverError (Option NeedPartsFrame)}
    (h : t.nextNeedPartsFrame fitOneNeedPartsFrame messageId len = some (r, t')) :
    ∃ watermark, t' = { t with repairWatermark := watermark } := by
  unfold InboundTransfer.nextNeedPartsFrame at h
  split_ifs at h
  · cases h
    exact ⟨t.repairWatermark, rfl⟩
  · dsimp only at h
    split at h
    · cases h
      exact ⟨t.repairWatermark, rfl⟩
    · cases h
      exact ⟨_, rfl⟩
    · split at h
      · cases h
        exact ⟨t.repairWatermark, rfl⟩
      · cases h
        exact ⟨_, rfl⟩
      · cases h

/-- The `unreachable!` of `poll_timeouts` is taken only for a transfer with no
missing part. -/
theorem nextNeedPartsFrame_ok_none {t t' : InboundTransfer} {messageId : UInt32} {len : ℕ}
    (h : t.nextNeedPartsFrame fitOneNeedPartsFrame messageId len = some (.ok none, t')) :
    t.missingParts = ∅ := by
  unfold InboundTransfer.nextNeedPartsFrame at h
  split_ifs at h with hempty
  · exact hempty
  · dsimp only at h
    split at h
    · cases h
    · cases h
    · split at h <;> cases h

theorem pollKey_keepsSlots {config : ReceiverConfig} {now : ℕ} {key : ReceiverTransferKey S}
    {transfers transfers' : Transfers S} {r : Except ReceiverError (List (ReceiverAction S))}
    (h : pollKey fitOneNeedPartsFrame config now key transfers = some (transfers', r))
    (k : ReceiverTransferKey S) :
    KeepsSlots (transfers.lookup k) (transfers'.lookup k) := by
  unfold pollKey at h
  by_cases hk : k = key
  · subst hk
    split at h
    · cases h
      exact keepsSlots_refl _
    · rename_i t hlookup
      split_ifs at h
      · cases h
        simp only [AList.lookup_erase]
        exact keepsSlots_none _
      · split at h
        · cases h
        · cases h
          exact keepsSlots_refl _
        · cases h
        · rename_i frame t₁ hnext
          obtain ⟨repairDeadline, -, h⟩ := Option.map_eq_some_iff.1 h
          cases h
          obtain ⟨watermark, rfl⟩ := nextNeedPartsFrame_eq_some fitOneNeedPartsFrame hnext
          rw [AList.lookup_insert, hlookup]
          exact fun t' ht' => by
            cases ht'
            exact ⟨t, rfl, rfl, rfl, rfl, rfl⟩
      · cases h
        exact keepsSlots_refl _
    · split_ifs at h
      · cases h
        simp only [AList.lookup_erase]
        exact keepsSlots_none _
      · cases h
        exact keepsSlots_refl _
  · split at h
    · cases h
      exact keepsSlots_refl _
    · split_ifs at h
      · cases h
        rw [AList.lookup_erase_ne hk]
        exact keepsSlots_refl _
      · split at h
        · cases h
        · cases h
          exact keepsSlots_refl _
        · cases h
        · obtain ⟨repairDeadline, -, h⟩ := Option.map_eq_some_iff.1 h
          cases h
          rw [AList.lookup_insert_ne hk]
          exact keepsSlots_refl _
      · cases h
        exact keepsSlots_refl _
    · split_ifs at h
      · cases h
        rw [AList.lookup_erase_ne hk]
        exact keepsSlots_refl _
      · cases h
        exact keepsSlots_refl _

theorem pollKey_not_deliver {config : ReceiverConfig} {now : ℕ} {key : ReceiverTransferKey S}
    {transfers transfers' : Transfers S} {actions : List (ReceiverAction S)}
    (h : pollKey fitOneNeedPartsFrame config now key transfers = some (transfers', .ok actions))
    (source : S) (payload : List UInt8) : .deliver source payload ∉ actions := by
  unfold pollKey at h
  split at h
  · cases h
    simp
  · split_ifs at h
    · cases h
      simp
    · split at h
      · cases h
      · cases h
      · cases h
      · obtain ⟨repairDeadline, -, h⟩ := Option.map_eq_some_iff.1 h
        cases h
        simp
    · cases h
      simp
  · split_ifs at h <;> cases h <;> simp

/-- The whole `poll_timeouts` loop keeps or drops each transfer's slots and delivers
nothing. -/
theorem pollKeys_keepsSlots {config : ReceiverConfig} {now : ℕ} :
    ∀ {keys : List (ReceiverTransferKey S)} {transfers transfers' : Transfers S}
      {r : Except ReceiverError (List (ReceiverAction S))},
      pollKeys fitOneNeedPartsFrame config now keys transfers = some (transfers', r) →
      (∀ k, KeepsSlots (transfers.lookup k) (transfers'.lookup k)) ∧
      ∀ actions source payload, r = .ok actions → .deliver source payload ∉ actions
  | [], transfers, transfers', r, h => by
    cases h
    exact ⟨fun k => keepsSlots_refl _, fun actions _ _ hr => by cases hr; simp⟩
  | key :: rest, transfers, transfers', r, h => by
    unfold pollKeys at h
    split at h
    · cases h
    · rename_i transfers₁ e hkey
      cases h
      exact ⟨fun k => pollKey_keepsSlots fitOneNeedPartsFrame hkey k, fun _ _ _ hr => by cases hr⟩
    · rename_i transfers₁ acts hkey
      obtain ⟨⟨transfers₂, r₂⟩, hrest, h⟩ := Option.map_eq_some_iff.1 h
      cases h
      obtain ⟨hslots, hdeliver⟩ := pollKeys_keepsSlots hrest
      refine ⟨fun k => (pollKey_keepsSlots fitOneNeedPartsFrame hkey k).trans (hslots k), ?_⟩
      intro actions source payload hr hmem
      cases r₂ with
      | error e => cases hr
      | ok acts₂ =>
        cases hr
        rcases List.mem_append.1 hmem with hmem | hmem
        · exact pollKey_not_deliver fitOneNeedPartsFrame hkey source payload hmem
        · exact hdeliver acts₂ source payload rfl hmem

end Control

theorem acceptPayload_single_part (crc32c : List UInt8 → UInt32) {m : ReceiverMachine S}
    {source : S} {frame : PayloadFrame} {now : ℕ} (hfits : m.config.Fits now)
    (hlookup : m.transfers.lookup ⟨source, frame.header.messageId⟩ = none)
    (hcount : frame.header.partCount.val = 1) (hnumber : frame.header.partNumber = 0)
    (hchecksum : crc32c frame.payload = frame.header.checksum) :
    m.acceptPayload crc32c source frame now = some
      ({ m with transfers := (m.transfers.insert ⟨source, frame.header.messageId⟩
          (.delivered ⟨frame.header.partCount, frame.header.checksum,
            now + m.config.deliveredTombstoneTimeout⟩)) },
        [.deliver source frame.payload, .sendAck source
          (ackFrame frame.header.messageId frame.header.partCount frame.header.checksum)]) := by
  have hlast : frame.header.partCount.lastPartNumber = 0 := by
    unfold PartCount.lastPartNumber
    omega
  obtain ⟨hg, hr, ht⟩ := hfits
  simp [acceptPayload, hlookup, InboundTransfer.acceptPayload, InboundTransfer.new, hlast, hnumber,
    InboundTransfer.storePart, InboundTransfer.finishPayload, InboundTransfer.assemblePayload,
    hcount, applyNewTransferUpdate, deliverActions, hchecksum, addDuration_of_le hg,
    addDuration_of_le hr, addDuration_of_le ht]

section Run

variable (crc32c : List UInt8 → UInt32)
  (fitOneNeedPartsFrame : UInt32 → PartCount → UInt32 → Finset ℕ → Option ℕ → ℕ →
    Except CodecError (Option NeedPartsFrame))

/-- One call; a failed poll keeps its changes and emits nothing. -/
def handle (m : ReceiverMachine S) : ReceiverEvent S → Option (ReceiverMachine S × List (ReceiverAction S))
  | .payload source frame now => m.acceptPayload crc32c source frame now
  | .noLongerAvailable source frame =>
    let (m, action) := m.acceptNoLongerAvailable source frame
    some (m, action.toList)
  | .pollTimeouts now keys =>
    (m.pollTimeouts fitOneNeedPartsFrame now keys).map fun (m, r) =>
      (m, match r with
        | .ok actions => actions
        | .error _ => [])

def run (m : ReceiverMachine S) : List (ReceiverEvent S) → Option (ReceiverMachine S)
  | [] => some m
  | event :: rest => (m.handle crc32c fitOneNeedPartsFrame event).bind fun r =>
    r.1.run rest

theorem run_append (m : ReceiverMachine S) (events : List (ReceiverEvent S)) (event : ReceiverEvent S) :
    m.run crc32c fitOneNeedPartsFrame (events ++ [event]) =
      (m.run crc32c fitOneNeedPartsFrame events).bind fun m' =>
        (m'.handle crc32c fitOneNeedPartsFrame event).map Prod.fst := by
  induction events generalizing m with
  | nil =>
    simp only [List.nil_append, run, Option.bind_some]
    cases m.handle crc32c fitOneNeedPartsFrame event <;> rfl
  | cons e rest ih =>
    simp only [List.cons_append, run]
    cases m.handle crc32c fitOneNeedPartsFrame e with
    | none => rfl
    | some r => exact ih r.1

theorem acceptPayload_config {m m' : ReceiverMachine S} {source : S} {frame : PayloadFrame} {now : ℕ}
    {actions : List (ReceiverAction S)} (h : m.acceptPayload crc32c source frame now = some (m', actions)) :
    m'.config = m.config := by
  dsimp only [acceptPayload] at h
  split at h
  · obtain ⟨⟨next, acts⟩, -, h⟩ := Option.map_eq_some_iff.1 h
    split at h <;> cases h <;> rfl
  · simp only [Option.bind_eq_bind, Option.bind_eq_some_iff] at h
    obtain ⟨_, -, _, -, h⟩ := h
    cases h
    rfl
  · simp only [Option.bind_eq_bind, Option.bind_eq_some_iff] at h
    obtain ⟨_, -, _, -, _, -, h⟩ := h
    cases h
    rfl

theorem handle_config {m m' : ReceiverMachine S} {event : ReceiverEvent S}
    {actions : List (ReceiverAction S)}
    (h : m.handle crc32c fitOneNeedPartsFrame event = some (m', actions)) : m'.config = m.config := by
  cases event with
  | payload source frame now => exact acceptPayload_config crc32c h
  | noLongerAvailable source frame =>
    simp only [handle, Option.some.injEq, Prod.mk.injEq] at h
    obtain ⟨rfl, -⟩ := h
    dsimp only [acceptNoLongerAvailable]
    split
    · split_ifs <;> rfl
    · rfl
  | pollTimeouts now keys =>
    obtain ⟨⟨m₁, r⟩, hpoll, h⟩ := Option.map_eq_some_iff.1 h
    cases h
    obtain ⟨⟨transfers, r'⟩, -, hm⟩ := Option.map_eq_some_iff.1 hpoll
    cases hm
    rfl

theorem run_config {m : ReceiverMachine S} :
    ∀ {events : List (ReceiverEvent S)} {m' : ReceiverMachine S},
      m.run crc32c fitOneNeedPartsFrame events = some m' → m'.config = m.config := by
  intro events
  induction events generalizing m with
  | nil =>
    intro m' h
    cases h
    rfl
  | cons event rest ih =>
    intro m' h
    obtain ⟨⟨m₁, actions⟩, hstep, hrest⟩ := Option.bind_eq_some_iff.1 h
    exact (ih hrest).trans (handle_config crc32c fitOneNeedPartsFrame hstep)

end Run

end ReceiverMachine

end Flotsync.Udpour
