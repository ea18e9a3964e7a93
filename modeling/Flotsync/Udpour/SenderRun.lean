import Flotsync.Udpour.SenderFrames

/-!
The sender over whole runs of its public calls. `SenderMachine.Inv` is kept by each
call: the live ids and the cooldown are disjoint, the cooldown's set and heap agree
with one entry per id, and every live message is sliced at the sender's part size.
From it no call panics, and every `start_transfer` hands out an id that is neither
live nor cooling down, reporting exhaustion only when no such id is left.
-/

set_option autoImplicit false

namespace Flotsync.Udpour

theorem partCountForPayload_ne_exhausted (payloadLen maxPartPayloadLen : ℕ) :
    partCountForPayload payloadLen maxPartPayloadLen ≠ .error .messageIdExhausted := by
  dsimp only [partCountForPayload]
  split_ifs
  · split <;> simp
  · simp

/-- The calls of the sender's public interface. -/
inductive SenderEvent where
  | startTransfer (payload : List UInt8) (now : ℕ)
  | markInitialSendComplete (messageId : UInt32) (now : ℕ)
  | handleAck (ack : AckFrame) (now : ℕ)
  | handleNeedParts (needParts : NeedPartsFrame)
  | pollTimeouts (now : ℕ)
  | abortTransfer (messageId : UInt32) (now : ℕ)

/-- A call whose clock reading leaves room for the timeout it may add. -/
def SenderEvent.Fits (config : SenderConfig) : SenderEvent → Prop
  | .startTransfer .. | .handleNeedParts _ => True
  | .markInitialSendComplete _ now => now + config.retentionTimeout ≤ instantMax
  | .handleAck _ now | .pollTimeouts now | .abortTransfer _ now =>
    now + config.idReuseCooldown ≤ instantMax

namespace SenderMachine

variable (crc32c : List UInt8 → UInt32)

/-- The sender after one call; `none` when the call panics. -/
def handle (s : SenderMachine) : SenderEvent → Option SenderMachine
  | .startTransfer payload now => (s.startTransfer crc32c payload now).map Prod.fst
  | .markInitialSendComplete messageId now => s.markInitialSendComplete messageId now
  | .handleAck ack now => (s.handleAck ack now).map Prod.fst
  | .handleNeedParts needParts => (s.handleNeedParts needParts).map fun _ => s
  | .pollTimeouts now => (s.pollTimeouts now).map Prod.fst
  | .abortTransfer messageId now => (s.abortTransfer messageId now).map Prod.fst

def run (s : SenderMachine) : List SenderEvent → Option SenderMachine
  | [] => some s
  | event :: events => (s.handle crc32c event).bind fun s => s.run events

structure Inv (s : SenderMachine) : Prop where
  cooldown : s.cooldown.Inv
  disjoint : ∀ messageId, (s.live.lookup messageId).isSome → messageId ∉ s.cooldown.ids
  sliced : ∀ messageId live, s.live.lookup messageId = some live →
    live.Sliced crc32c s.config.maxPartPayloadLen

variable {crc32c}

theorem inv_withInitialMessageId (config : SenderConfig) (nextMessageId : UInt32) :
    (withInitialMessageId config nextMessageId).Inv crc32c where
  cooldown := CooldownIds.inv_new
  disjoint messageId := by simp [withInitialMessageId]
  sliced messageId live := by simp [withInitialMessageId]

theorem startTransfer_cases {s s' : SenderMachine} {payload : List UInt8} {now : ℕ}
    {result : Except SenderError SenderAction}
    (h : s.startTransfer crc32c payload now = some (s', result)) :
    (∃ e, (s.allocateMessageId now).2 = .error e ∧ result = .error e ∧
      s' = (s.allocateMessageId now).1) ∨
    ∃ messageId, (s.allocateMessageId now).2 = .ok messageId ∧
      ((∃ e, result = .error e ∧ e ≠ .messageIdExhausted ∧ s' = (s.allocateMessageId now).1) ∨
        ∃ live frames, live.Sliced crc32c s.config.maxPartPayloadLen ∧
          result = .ok (.sendPayloads messageId frames) ∧
          s' = { (s.allocateMessageId now).1 with
            live := s.live.insert messageId live }) := by
  dsimp only [startTransfer] at h
  split at h
  · rename_i e he
    cases h
    exact .inl ⟨e, he, rfl, rfl⟩
  · rename_i messageId hok
    refine .inr ⟨messageId, hok, ?_⟩
    split at h
    · rename_i e he
      cases h
      exact .inl ⟨e, rfl, fun hex => partCountForPayload_ne_exhausted _ _ (hex ▸ he), rfl⟩
    · rename_i partCount hcount
      obtain ⟨frames, -, h⟩ := Option.map_eq_some_iff.1 h
      cases h
      refine .inr ⟨⟨payload, crc32c payload, partCount, none⟩, frames,
        ⟨s.config.maxPartPayloadLen_pos, ?_, rfl⟩, rfl, ?_⟩
      · simpa using hcount
      · simp

theorem startTransfer_config {s s' : SenderMachine} {payload : List UInt8} {now : ℕ}
    {result : Except SenderError SenderAction}
    (hstart : s.startTransfer crc32c payload now = some (s', result)) : s'.config = s.config := by
  rcases startTransfer_cases hstart with ⟨e, -, -, rfl⟩ | ⟨messageId, -, ⟨e, -, -, rfl⟩ | hstore⟩
  · exact allocateMessageId_config s now
  · exact allocateMessageId_config s now
  · obtain ⟨live, frames, -, -, rfl⟩ := hstore
    exact allocateMessageId_config s now

theorem ne_of_lookup_erase_isSome {live : AList fun _ : UInt32 => LiveMessage}
    {messageId messageId' : UInt32} (h : ((live.erase messageId).lookup messageId').isSome) :
    messageId' ≠ messageId := by
  rintro rfl
  simp [AList.lookup_erase] at h

namespace Inv

variable {s : SenderMachine}

theorem insertLive (h : s.Inv crc32c) {messageId : UInt32} (hfresh : messageId ∉ s.cooldown.ids)
    {live : LiveMessage} (hsliced : live.Sliced crc32c s.config.maxPartPayloadLen) :
    { s with live := s.live.insert messageId live }.Inv crc32c where
  cooldown := h.cooldown
  disjoint messageId' hlive := by
    by_cases hid : messageId' = messageId
    · exact hid ▸ hfresh
    · rw [AList.lookup_insert_ne hid] at hlive
      exact h.disjoint messageId' hlive
  sliced messageId' live' hlive := by
    by_cases hid : messageId' = messageId
    · rw [hid, AList.lookup_insert] at hlive
      cases hlive
      exact hsliced
    · rw [AList.lookup_insert_ne hid] at hlive
      exact h.sliced messageId' live' hlive

theorem gcCooldown (h : s.Inv crc32c) (now : ℕ) :
    { s with cooldown := s.cooldown.gcExpired now }.Inv crc32c where
  cooldown := h.cooldown.gcExpired now
  disjoint messageId hlive hmem := h.disjoint messageId hlive (CooldownIds.mem_of_mem_gcExpired hmem)
  sliced := h.sliced

theorem allocateMessageId (h : s.Inv crc32c) (now : ℕ) :
    (s.allocateMessageId now).1.Inv crc32c := by
  -- the allocation also moves the counter, which the invariant does not read
  have hgc := h.gcCooldown now
  rw [(allocateMessageId_spec s now).1]
  exact ⟨hgc.cooldown, hgc.disjoint, hgc.sliced⟩

theorem startTransfer (h : s.Inv crc32c) {payload : List UInt8} {now : ℕ} {s' : SenderMachine}
    {result : Except SenderError SenderAction}
    (hstart : s.startTransfer crc32c payload now = some (s', result)) : s'.Inv crc32c := by
  have halloc := h.allocateMessageId now
  rcases startTransfer_cases hstart with ⟨e, -, -, rfl⟩ | ⟨messageId, hok, ⟨e, -, -, rfl⟩ | hstore⟩
  · exact halloc
  · exact halloc
  · obtain ⟨live, frames, hsliced, -, rfl⟩ := hstore
    have hfresh := ((allocateMessageId_spec s now).2.1 messageId hok).2
    rw [← allocateMessageId_live s now]
    refine halloc.insertLive ?_ ?_
    · rwa [allocateMessageId_cooldown]
    · rwa [allocateMessageId_config]

theorem markInitialSendComplete (h : s.Inv crc32c) (messageId : UInt32) {now : ℕ}
    (hnow : now + s.config.retentionTimeout ≤ instantMax) :
    ∃ s', s.markInitialSendComplete messageId now = some s' ∧ s'.Inv crc32c ∧ s'.config = s.config := by
  unfold SenderMachine.markInitialSendComplete
  split
  · exact ⟨_, rfl, h, rfl⟩
  · rename_i live hlive
    rw [addDuration_of_le hnow, Option.map_some]
    -- the deadline is not part of the slicing
    have hsliced := h.sliced messageId live hlive
    exact ⟨_, rfl, h.insertLive (h.disjoint messageId (by simp [hlive]))
      ⟨hsliced.pos, hsliced.partCount, hsliced.checksum⟩, rfl⟩

/-- `purge_message` never hits the cooldown's assertion: a live id is not cooling down. -/
theorem purgeMessage (h : s.Inv crc32c) (messageId : UInt32) {now : ℕ}
    (hnow : now + s.config.idReuseCooldown ≤ instantMax) (reason : SenderPurgeReason) :
    ∃ r, s.purgeMessage messageId now reason = some r ∧ r.1.Inv crc32c ∧ r.1.config = s.config := by
  unfold SenderMachine.purgeMessage
  split
  · exact ⟨_, rfl, h, rfl⟩
  · rename_i live hlive
    have hfresh := h.disjoint messageId (by simp [hlive])
    simp only [addDuration_of_le hnow, CooldownIds.insert_eq hfresh, Option.bind_eq_bind,
      Option.bind_some]
    refine ⟨_, rfl, ⟨h.cooldown.insert hfresh _, fun messageId' hlive' => ?_,
      fun messageId' live' hlive' => ?_⟩, rfl⟩
    · -- the purged id left the live set
      have hid := ne_of_lookup_erase_isSome hlive'
      rw [AList.lookup_erase_ne hid] at hlive'
      rw [Finset.mem_insert, not_or]
      exact ⟨hid, h.disjoint messageId' hlive'⟩
    · have hid := ne_of_lookup_erase_isSome (Option.isSome_of_eq_some hlive')
      rw [AList.lookup_erase_ne hid] at hlive'
      exact h.sliced messageId' live' hlive'

variable {now : ℕ}

section Cooldown

variable (hnow : now + s.config.idReuseCooldown ≤ instantMax)
include hnow

theorem handleAck (h : s.Inv crc32c) (ack : AckFrame) :
    ∃ r, s.handleAck ack now = some r ∧ r.1.Inv crc32c ∧ r.1.config = s.config := by
  unfold SenderMachine.handleAck
  split
  · exact ⟨_, rfl, h, rfl⟩
  · split_ifs
    · exact ⟨_, rfl, h, rfl⟩
    · exact h.purgeMessage _ hnow .acked
    · exact ⟨_, rfl, h, rfl⟩

theorem purgeAll (reason : SenderPurgeReason) (messageIds : List UInt32) (h : s.Inv crc32c) :
    ∃ r, SenderMachine.purgeAll now reason s messageIds = some r ∧ r.1.Inv crc32c ∧
      r.1.config = s.config := by
  -- each purge keeps the configuration, so the clock reading keeps fitting
  induction messageIds generalizing s with
  | nil => exact ⟨_, rfl, h, rfl⟩
  | cons messageId rest ih =>
    obtain ⟨⟨s₁, action⟩, h₁, hinv₁, hconfig₁⟩ := h.purgeMessage messageId hnow reason
    obtain ⟨⟨s₂, actions⟩, h₂, hinv₂, hconfig₂⟩ := ih (hconfig₁ ▸ hnow) hinv₁
    exact ⟨(s₂, action.toList ++ actions), by simp [SenderMachine.purgeAll, h₁, h₂], hinv₂,
      hconfig₂.trans hconfig₁⟩

theorem pollTimeouts (h : s.Inv crc32c) :
    ∃ r, s.pollTimeouts now = some r ∧ r.1.Inv crc32c ∧ r.1.config = s.config :=
  purgeAll (s := { s with cooldown := s.cooldown.gcExpired now }) hnow .retentionExpired _
    (h.gcCooldown now)

theorem abortTransfer (h : s.Inv crc32c) (messageId : UInt32) :
    ∃ r, s.abortTransfer messageId now = some r ∧ r.1.Inv crc32c ∧ r.1.config = s.config :=
  h.purgeMessage messageId hnow .aborted

end Cooldown

/-- Every call whose clock reading fits succeeds, keeps the invariant and the
configuration. -/
theorem handle (h : s.Inv crc32c) (event : SenderEvent) (hfits : event.Fits s.config) :
    ∃ s', s.handle crc32c event = some s' ∧ s'.Inv crc32c ∧ s'.config = s.config := by
  cases event with
  | startTransfer payload now =>
    obtain ⟨⟨s', result⟩, hstart⟩ := Option.isSome_iff_exists.1 (startTransfer_isSome s payload now)
    exact ⟨s', by simp [SenderMachine.handle, hstart], h.startTransfer hstart,
      startTransfer_config hstart⟩
  | markInitialSendComplete messageId now => exact h.markInitialSendComplete messageId hfits
  | handleAck ack now =>
    obtain ⟨r, hr, hinv, hconfig⟩ := h.handleAck hfits ack
    exact ⟨r.1, by simp [SenderMachine.handle, hr], hinv, hconfig⟩
  | handleNeedParts needParts =>
    obtain ⟨r, hr⟩ := Option.isSome_iff_exists.1 (handleNeedParts_isSome h.sliced needParts)
    exact ⟨s, by simp [SenderMachine.handle, hr], h, rfl⟩
  | pollTimeouts now =>
    obtain ⟨r, hr, hinv, hconfig⟩ := h.pollTimeouts hfits
    exact ⟨r.1, by simp [SenderMachine.handle, hr], hinv, hconfig⟩
  | abortTransfer messageId now =>
    obtain ⟨r, hr, hinv, hconfig⟩ := h.abortTransfer hfits messageId
    exact ⟨r.1, by simp [SenderMachine.handle, hr], hinv, hconfig⟩

theorem run (events : List SenderEvent) :
    s.Inv crc32c → (∀ event ∈ events, event.Fits s.config) →
      ∃ s', s.run crc32c events = some s' ∧ s'.Inv crc32c := by
  induction events generalizing s with
  | nil => exact fun h _ => ⟨s, rfl, h⟩
  | cons event events ih =>
    intro h htimes
    obtain ⟨s₁, h₁, hinv₁, hconfig₁⟩ := h.handle event (htimes event List.mem_cons_self)
    obtain ⟨s₂, h₂, hinv₂⟩ := ih hinv₁ fun e he => hconfig₁ ▸ htimes e (List.mem_cons_of_mem _ he)
    exact ⟨s₂, by simp [SenderMachine.run, h₁, h₂], hinv₂⟩

end Inv

variable {s s' : SenderMachine} {payload : List UInt8} {now : ℕ}

theorem startTransfer_fresh (h : s.Inv crc32c) {messageId : UInt32} {frames : List PayloadFrame}
    (hstart : s.startTransfer crc32c payload now = some (s', .ok (.sendPayloads messageId frames))) :
    s.live.lookup messageId = none ∧
      ∀ expiresAt, (expiresAt, messageId) ∈ s.cooldown.expirations → expiresAt ≤ now := by
  rcases startTransfer_cases hstart with ⟨e, -, he, -⟩ | ⟨messageId', hok, ⟨e, he, -, -⟩ | hstore⟩
  · cases he
  · cases he
  · obtain ⟨live, frames', -, hresult, -⟩ := hstore
    cases hresult
    obtain ⟨hnotLive, hnotCooling⟩ := (allocateMessageId_spec s now).2.1 messageId hok
    refine ⟨hnotLive, fun expiresAt hmem => ?_⟩
    by_contra hlt
    exact hnotCooling ((h.cooldown.mem_gcExpired_ids now messageId).2 ⟨expiresAt, hmem, by omega⟩)

theorem startTransfer_exhausted (h : s.Inv crc32c)
    (hstart : s.startTransfer crc32c payload now = some (s', .error .messageIdExhausted)) :
    ∀ messageId : UInt32, (s.live.lookup messageId).isSome ∨
      ∃ expiresAt, (expiresAt, messageId) ∈ s.cooldown.expirations ∧ now < expiresAt := by
  have herr : (s.allocateMessageId now).2 = .error .messageIdExhausted := by
    rcases startTransfer_cases hstart with ⟨e, he, hresult, -⟩ | ⟨_, -, ⟨e, hresult, hne, -⟩ | hstore⟩
    · cases hresult
      exact he
    · cases hresult
      exact absurd rfl hne
    · obtain ⟨_, _, -, hresult, -⟩ := hstore
      cases hresult
  intro messageId
  rw [← h.cooldown.mem_gcExpired_ids now messageId]
  exact ((allocateMessageId_spec s now).2.2 _ herr).2 messageId

theorem sender_message_ids_stay_unique (crc32c : List UInt8 → UInt32) (config : SenderConfig)
    (nextMessageId : UInt32) (events : List SenderEvent)
    (htimes : ∀ event ∈ events, event.Fits config) :
    ∃ s, (withInitialMessageId config nextMessageId).run crc32c events = some s ∧
      (∀ messageId, (s.live.lookup messageId).isSome → messageId ∉ s.cooldown.ids) ∧
      s.cooldown.ids = (s.cooldown.expirations.map Prod.snd).toFinset ∧
      (s.cooldown.expirations.map Prod.snd).Nodup ∧
      ∀ payload now, ∃ s' result, s.startTransfer crc32c payload now = some (s', result) ∧
        (∀ messageId frames, result = .ok (.sendPayloads messageId frames) →
          s.live.lookup messageId = none ∧
            ∀ expiresAt, (expiresAt, messageId) ∈ s.cooldown.expirations → expiresAt ≤ now) ∧
        (result = .error .messageIdExhausted → ∀ messageId : UInt32,
          (s.live.lookup messageId).isSome ∨
            ∃ expiresAt, (expiresAt, messageId) ∈ s.cooldown.expirations ∧ now < expiresAt) := by
  obtain ⟨s, hrun, h⟩ := (inv_withInitialMessageId config nextMessageId).run events htimes
  refine ⟨s, hrun, h.disjoint, h.cooldown.ids_eq, h.cooldown.nodup, fun payload now => ?_⟩
  obtain ⟨⟨s', result⟩, hstart⟩ := Option.isSome_iff_exists.1 (startTransfer_isSome s payload now)
  refine ⟨s', result, hstart, fun messageId frames hok => ?_, fun hex => ?_⟩
  · subst hok
    exact startTransfer_fresh h hstart
  · subst hex
    exact startTransfer_exhausted h hstart

/-- A message started, sent and aborted at small clock readings. -/
theorem sender_message_ids_stay_unique_after_abort :
    let config : SenderConfig := ⟨2, by decide, 10, 10, false⟩
    let events := [SenderEvent.startTransfer [1, 2, 3] 0, .markInitialSendComplete 0 1, .abortTransfer 0 2]
    (∀ event ∈ events, event.Fits config) ∧
      ∃ s, (withInitialMessageId config 0).run (fun _ => 0) events = some s ∧
        ∀ messageId, (s.live.lookup messageId).isSome → messageId ∉ s.cooldown.ids := by
  intro config events
  have htimes : ∀ event ∈ events, event.Fits config := by
    simp only [events, config, List.mem_cons, List.not_mem_nil, or_false, forall_eq_or_imp,
      forall_eq, SenderEvent.Fits]
    decide
  obtain ⟨s, hrun, hdisjoint, -⟩ := sender_message_ids_stay_unique (fun _ => 0) config 0 events htimes
  exact ⟨htimes, s, hrun, hdisjoint⟩

end SenderMachine

end Flotsync.Udpour
