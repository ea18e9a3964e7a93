import Flotsync.Udpour.ReceiverSteps

/-!
Receiver safety over any sequence of calls with any frames from any sources. The
invariant `Tracks` says of every pending transfer that its slots and its missing set
agree, that some part is still missing, and that each slot holds the first copy of
its part among the calls since the transfer was created (`HoldsFirst`). From it a
delivery is the in-order concatenation of those first copies and passes the
checksum, and a repair poll never finds a pending transfer with nothing missing.
-/

set_option autoImplicit false

namespace Flotsync.Udpour

variable {S : Type} [DecidableEq S]

/-- The bytes of the first payload frame among `events` for `key` with the metadata
`(partCount, checksum)` and the part number `partNumber`. -/
def firstAccepted (events : List (ReceiverEvent S)) (key : ReceiverTransferKey S)
    (partCount : PartCount) (checksum : UInt32) (partNumber : ℕ) : Option (List UInt8) :=
  events.findSome? fun
    | .payload source frame _ =>
      if (⟨source, frame.header.messageId⟩ : ReceiverTransferKey S) = key ∧
          frame.header.partCount = partCount ∧ frame.header.checksum = checksum ∧
          frame.header.partNumber = partNumber then some frame.payload
      else none
    | _ => none

theorem firstAccepted_append (events : List (ReceiverEvent S)) (event : ReceiverEvent S)
    (key : ReceiverTransferKey S) (partCount : PartCount) (checksum : UInt32) (i : ℕ) :
    firstAccepted (events ++ [event]) key partCount checksum i =
      (firstAccepted events key partCount checksum i).or
        (firstAccepted [event] key partCount checksum i) := by
  simp only [firstAccepted, List.findSome?_append]

namespace InboundTransfer

/-- Each slot of `t` holds the first copy of its part among `recent`. -/
def HoldsFirst (t : InboundTransfer) (recent : List (ReceiverEvent S)) (key : ReceiverTransferKey S) :
    Prop :=
  ∀ i < t.partCount.val, t.parts[i]? = some (firstAccepted recent key t.partCount t.checksum i)

theorem holdsFirst_new {partCount : PartCount} {checksum : UInt32} {now : ℕ} {config : ReceiverConfig}
    {t : InboundTransfer} (h : InboundTransfer.new partCount checksum now config = some t)
    (key : ReceiverTransferKey S) : t.HoldsFirst [] key := by
  obtain ⟨giveUpDeadline, repairDeadline, rfl⟩ := InboundTransfer.new_eq_some h
  intro i hi
  have hi' : i < partCount.val := hi
  simp [hi', firstAccepted]

theorem HoldsFirst.congr {t t' : InboundTransfer} {recent : List (ReceiverEvent S)}
    {key : ReceiverTransferKey S} (h : t.HoldsFirst recent key) (hparts : t'.parts = t.parts)
    (hcount : t'.partCount = t.partCount) (hchecksum : t'.checksum = t.checksum) :
    t'.HoldsFirst recent key := by
  intro i hi
  rw [hparts, hcount, hchecksum]
  exact h i (hcount ▸ hi)

theorem HoldsFirst.extend {t : InboundTransfer} {recent : List (ReceiverEvent S)}
    {key : ReceiverTransferKey S} (h : t.HoldsFirst recent key) {event : ReceiverEvent S}
    (hevent : ∀ i, firstAccepted [event] key t.partCount t.checksum i = none) :
    t.HoldsFirst (recent ++ [event]) key := by
  intro i hi
  rw [firstAccepted_append, hevent i, Option.or_none]
  exact h i hi

variable (crc32c : List UInt8 → UInt32)

theorem HoldsFirst.accept {t t' : InboundTransfer} {recent : List (ReceiverEvent S)}
    {source : S} {frame : PayloadFrame} {now : ℕ} {config : ReceiverConfig} {update : InboundUpdate}
    (h : t.HoldsFirst recent ⟨source, frame.header.messageId⟩) (hslots : t.Slots)
    (haccept : t.acceptPayload crc32c frame now config = some (update, t'))
    (hconfused : update ≠ .purged .confused) :
    t'.HoldsFirst (recent ++ [.payload source frame now]) ⟨source, frame.header.messageId⟩ := by
  obtain ⟨hcount, hchecksum, hlt, t₁, hparts, hmissing, hcount₁, hchecksum₁, hstore⟩ :=
    InboundTransfer.acceptPayload_eq_some crc32c haccept hconfused
  obtain ⟨hparts', hslot, -, hcount', hchecksum', -⟩ :=
    (hslots.congr hparts hmissing hcount₁).storePart crc32c hstore hconfused
  intro j hj
  rw [hcount', hcount₁] at hj
  have hevent : firstAccepted [.payload source frame now] ⟨source, frame.header.messageId⟩
      t.partCount t.checksum j = if frame.header.partNumber = j then some frame.payload else none := by
    simp [firstAccepted, hcount, hchecksum]
  rw [hparts', hparts, hcount', hchecksum', hcount₁, hchecksum₁, firstAccepted_append, hevent,
    List.getElem?_set]
  have hfirst := h j hj
  rw [hparts] at hslot
  by_cases hij : frame.header.partNumber = j
  · -- the frame's own slot: empty before, or holding an equal copy
    subst hij
    have hlen : frame.header.partNumber < t.parts.length := by rw [hslots.length]; exact hlt
    rw [if_pos rfl, if_pos hlen, if_pos rfl]
    rcases hslot with hslot | hslot <;> rw [hslot, Option.some.injEq] at hfirst <;> rw [← hfirst] <;>
      rfl
  · rw [if_neg hij, if_neg hij, Option.or_none]
    exact hfirst

theorem HoldsFirst.assemblePayload_eq {t : InboundTransfer} {recent : List (ReceiverEvent S)}
    {key : ReceiverTransferKey S} (h : t.HoldsFirst recent key) (hslots : t.Slots)
    (hempty : t.missingParts = ∅) {payload : List UInt8} (hpayload : t.assemblePayload = some payload) :
    (∀ i < t.partCount.val, (firstAccepted recent key t.partCount t.checksum i).isSome) ∧
    payload = ((List.range t.partCount.val).map fun i =>
      (firstAccepted recent key t.partCount t.checksum i).getD []).flatten := by
  obtain ⟨bs, hbs, hassemble⟩ := hslots.assemblePayload_eq hempty
  rw [hassemble, Option.some.injEq] at hpayload
  subst hpayload
  set first := fun i => firstAccepted recent key t.partCount t.checksum i
  have hparts : t.parts = (List.range t.partCount.val).map first := by
    apply List.ext_getElem?
    intro i
    by_cases hi : i < t.partCount.val
    · rw [h i hi]
      simp [hi, first]
    · have hlen : t.parts.length ≤ i := by rw [hslots.length]; omega
      rw [List.getElem?_eq_none hlen]
      simp [hi]
  rw [hbs] at hparts
  constructor
  · intro i hi
    have hmem : first i ∈ bs.map some := by
      rw [hparts]
      exact List.mem_map.2 ⟨i, List.mem_range.2 hi, rfl⟩
    obtain ⟨b, -, hb⟩ := List.mem_map.1 hmem
    show (first i).isSome
    rw [← hb]
    rfl
  · have hmap : bs = (bs.map some).map fun slot => slot.getD [] := by simp
    rw [hmap, hparts, List.map_map]
    rfl

theorem HoldsFirst.deliver {t t' : InboundTransfer} {recent : List (ReceiverEvent S)}
    {source : S} {frame : PayloadFrame} {now : ℕ} {config : ReceiverConfig}
    {payload : List UInt8} {messageId : UInt32} {partCount : PartCount} {checksum : UInt32}
    (h : t.HoldsFirst recent ⟨source, frame.header.messageId⟩) (hslots : t.Slots)
    (haccept : t.acceptPayload crc32c frame now config =
      some (.deliver payload messageId partCount checksum, t')) :
    let first := fun i => firstAccepted (recent ++ [.payload source frame now])
      ⟨source, frame.header.messageId⟩ frame.header.partCount frame.header.checksum i
    (∀ i < frame.header.partCount.val, (first i).isSome) ∧
      payload = ((List.range frame.header.partCount.val).map fun i => (first i).getD []).flatten ∧
      crc32c payload = frame.header.checksum := by
  intro first
  obtain ⟨hcount, hchecksum, -, t₁, hparts, hmissing, hcount₁, hchecksum₁, hstore⟩ :=
    InboundTransfer.acceptPayload_eq_some crc32c haccept (by simp)
  obtain ⟨-, -, hslots', hcount', hchecksum', -, hdone⟩ :=
    (hslots.congr hparts hmissing hcount₁).storePart crc32c hstore (by simp)
  have hfirst := h.accept crc32c hslots haccept (by simp)
  rcases hdone with ⟨-, hu⟩ | ⟨hempty, payload', hpayload, ⟨-, hu⟩ | ⟨hcrc, hu⟩⟩
  · cases hu
  · cases hu
  · rw [InboundUpdate.deliver.injEq] at hu
    obtain ⟨rfl, -, -, -⟩ := hu
    obtain ⟨hsome, hflat⟩ := hfirst.assemblePayload_eq hslots' hempty hpayload
    rw [hcount', hchecksum', hcount₁, hchecksum₁, ← hcount, ← hchecksum] at hsome hflat
    rw [hchecksum₁, ← hchecksum] at hcrc
    exact ⟨hsome, hflat, hcrc⟩

theorem Slots.acceptPayload_pending {t t' : InboundTransfer} {frame : PayloadFrame} {now : ℕ}
    {config : ReceiverConfig} (hslots : t.Slots)
    (haccept : t.acceptPayload crc32c frame now config = some (.pending, t')) :
    t'.Slots ∧ t'.missingParts.Nonempty := by
  obtain ⟨-, -, -, t₂, hparts, hmissing, hcount, -, hstore⟩ :=
    InboundTransfer.acceptPayload_eq_some crc32c haccept (by simp)
  obtain ⟨-, -, hslots', -, -, -, hdone⟩ :=
    (hslots.congr hparts hmissing hcount).storePart crc32c hstore (by simp)
  refine ⟨hslots', ?_⟩
  rcases hdone with ⟨hne, -⟩ | ⟨-, _, -, ⟨-, hu⟩ | ⟨-, hu⟩⟩
  · exact Finset.nonempty_iff_ne_empty.2 hne
  · cases hu
  · cases hu

end InboundTransfer

namespace ReceiverMachine

variable (crc32c : List UInt8 → UInt32)
  (fitOneNeedPartsFrame : UInt32 → PartCount → UInt32 → Finset ℕ → Option ℕ → ℕ →
    Except CodecError (Option NeedPartsFrame))

def IsPending (m : ReceiverMachine S) (key : ReceiverTransferKey S) : Prop :=
  ∃ t, m.transfers.lookup key = some (.pending t)

/-- The transfer of `key` was started by the first call of `recent`, made after
`older`, and was pending after each call of `recent`. -/
def CreatedBy (m₀ : ReceiverMachine S) (older recent : List (ReceiverEvent S))
    (key : ReceiverTransferKey S) : Prop :=
  (∃ m, m₀.run crc32c fitOneNeedPartsFrame older = some m ∧ ¬ m.IsPending key) ∧
  ∀ k, 0 < k → k ≤ recent.length →
    ∃ m, m₀.run crc32c fitOneNeedPartsFrame (older ++ recent.take k) = some m ∧ m.IsPending key

/-- The receiver's invariant over the run `events` from `m₀`. -/
def Tracks (m₀ : ReceiverMachine S) (events : List (ReceiverEvent S)) (m : ReceiverMachine S) :
    Prop :=
  ∀ key t, m.transfers.lookup key = some (.pending t) →
    t.Slots ∧ t.missingParts.Nonempty ∧
    ∃ older recent, events = older ++ recent ∧
      CreatedBy crc32c fitOneNeedPartsFrame m₀ older recent key ∧ t.HoldsFirst recent key

variable {crc32c fitOneNeedPartsFrame}

theorem CreatedBy.extend {m₀ : ReceiverMachine S} {older recent : List (ReceiverEvent S)}
    {key : ReceiverTransferKey S} (h : CreatedBy crc32c fitOneNeedPartsFrame m₀ older recent key)
    {event : ReceiverEvent S} {m' : ReceiverMachine S}
    (hrun : m₀.run crc32c fitOneNeedPartsFrame (older ++ recent ++ [event]) = some m')
    (hpending : m'.IsPending key) :
    CreatedBy crc32c fitOneNeedPartsFrame m₀ older (recent ++ [event]) key := by
  refine ⟨h.1, fun k hk hle => ?_⟩
  rw [List.length_append, List.length_singleton] at hle
  rcases Nat.lt_or_ge k (recent.length + 1) with hlt | hge
  · rw [List.take_append_of_le_length (by omega)]
    exact h.2 k hk (by omega)
  · rw [show k = (recent ++ [event]).length by simp; omega, List.take_length, ← List.append_assoc]
    exact ⟨m', hrun, hpending⟩

theorem createdBy_fresh {m₀ m m' : ReceiverMachine S} {events : List (ReceiverEvent S)}
    {key : ReceiverTransferKey S} (hrun : m₀.run crc32c fitOneNeedPartsFrame events = some m)
    (hnot : ¬ m.IsPending key) {event : ReceiverEvent S}
    (hrun' : m₀.run crc32c fitOneNeedPartsFrame (events ++ [event]) = some m')
    (hpending : m'.IsPending key) :
    CreatedBy crc32c fitOneNeedPartsFrame m₀ events [event] key := by
  refine ⟨⟨m, hrun, hnot⟩, fun k hk hle => ?_⟩
  rw [List.length_singleton] at hle
  obtain rfl : k = 1 := by omega
  exact ⟨m', hrun', hpending⟩

theorem tracks_new (config : ReceiverConfig) :
    Tracks crc32c fitOneNeedPartsFrame (new config) [] (new config : ReceiverMachine S) := by
  intro key t h
  simp [new] at h

theorem Tracks.keep {m₀ m m' : ReceiverMachine S} {events : List (ReceiverEvent S)}
    (hinv : Tracks crc32c fitOneNeedPartsFrame m₀ events m) {event : ReceiverEvent S}
    (hrun' : m₀.run crc32c fitOneNeedPartsFrame (events ++ [event]) = some m')
    (hkeep : ∀ k, KeepsSlots (m.transfers.lookup k) (m'.transfers.lookup k))
    (hevent : ∀ key partCount checksum i, firstAccepted [event] key partCount checksum i = none) :
    Tracks crc32c fitOneNeedPartsFrame m₀ (events ++ [event]) m' := by
  intro key t' ht'
  obtain ⟨t, ht, hparts, hmissing, hcount, hchecksum⟩ := hkeep key t' ht'
  obtain ⟨hslots, hnonempty, older, recent, rfl, hcreated, hfirst⟩ := hinv key t ht
  refine ⟨hslots.congr hparts hmissing hcount, hmissing ▸ hnonempty, older, recent ++ [event],
    by rw [List.append_assoc], hcreated.extend hrun' ⟨t', ht'⟩, ?_⟩
  exact (hfirst.congr hparts hcount hchecksum).extend fun i => hevent _ _ _ i

theorem Tracks.payload {m₀ m m' : ReceiverMachine S} {events : List (ReceiverEvent S)}
    (hrun : m₀.run crc32c fitOneNeedPartsFrame events = some m)
    (hinv : Tracks crc32c fitOneNeedPartsFrame m₀ events m) {source : S} {frame : PayloadFrame}
    {now : ℕ} {actions : List (ReceiverAction S)}
    (h : m.acceptPayload crc32c source frame now = some (m', actions)) :
    Tracks crc32c fitOneNeedPartsFrame m₀ (events ++ [.payload source frame now]) m' := by
  have hrun' : m₀.run crc32c fitOneNeedPartsFrame (events ++ [.payload source frame now]) = some m' := by
    rw [run_append, hrun]
    simp [handle, h]
  obtain ⟨hother, hkey⟩ := acceptPayload_eq_some crc32c h
  intro key t' ht'
  by_cases hk : key = ⟨source, frame.header.messageId⟩
  · subst hk
    rcases hkey with ⟨t, update, t₁, hlookup, haccept, happlied⟩ |
      ⟨t₀, update, t₁, hprior, hnew, haccept, happlied⟩ | ⟨tombstone, -, hstays, -⟩
    · -- the pending transfer took the frame
      cases update with
      | pending =>
        obtain ⟨hlookup', -⟩ := happlied
        rw [hlookup', Option.some.injEq, InboundState.pending.injEq] at ht'
        subst ht'
        obtain ⟨hslots, -, older, recent, rfl, hcreated, hfirst⟩ := hinv _ t hlookup
        obtain ⟨hslots', hnonempty⟩ := hslots.acceptPayload_pending crc32c haccept
        exact ⟨hslots', hnonempty, older, recent ++ [.payload source frame now], by rw [List.append_assoc],
          hcreated.extend hrun' ⟨_, hlookup'⟩,
          hfirst.accept crc32c hslots haccept (by simp)⟩
      | deliver => obtain ⟨⟨_, h⟩, -⟩ := happlied; rw [h] at ht'; cases ht'
      | purged => obtain ⟨h, -⟩ := happlied; rw [h] at ht'; cases ht'
    · -- a new transfer took the frame
      cases update with
      | pending =>
        obtain ⟨hlookup', -⟩ := happlied
        rw [hlookup', Option.some.injEq, InboundState.pending.injEq] at ht'
        subst ht'
        have hslots := InboundTransfer.slots_new hnew
        obtain ⟨hslots', hnonempty⟩ := hslots.acceptPayload_pending crc32c haccept
        have hnot : ¬ m.IsPending ⟨source, frame.header.messageId⟩ := by
          rintro ⟨t, ht⟩
          rcases hprior with h | ⟨_, h⟩ <;> rw [h] at ht <;> cases ht
        exact ⟨hslots', hnonempty, events, [.payload source frame now], rfl,
          createdBy_fresh hrun hnot hrun' ⟨_, hlookup'⟩,
          (InboundTransfer.holdsFirst_new hnew _).accept crc32c hslots haccept (by simp)⟩
      | deliver => obtain ⟨⟨_, h⟩, -⟩ := happlied; rw [h] at ht'; cases ht'
      | purged => obtain ⟨h, -⟩ := happlied; rw [h] at ht'; cases ht'
    · rw [hstays] at ht'
      cases ht'
  · -- another key's entry is untouched
    rw [hother key hk] at ht'
    obtain ⟨hslots, hnonempty, older, recent, rfl, hcreated, hfirst⟩ := hinv key t' ht'
    refine ⟨hslots, hnonempty, older, recent ++ [.payload source frame now],
      by rw [List.append_assoc], hcreated.extend hrun'
        ⟨t', by rw [hother key hk]; exact ht'⟩, hfirst.extend fun i => ?_⟩
    simp [firstAccepted, Ne.symm hk]

theorem Tracks.step {m₀ m m' : ReceiverMachine S} {events : List (ReceiverEvent S)}
    (hrun : m₀.run crc32c fitOneNeedPartsFrame events = some m)
    (hinv : Tracks crc32c fitOneNeedPartsFrame m₀ events m) {event : ReceiverEvent S}
    {actions : List (ReceiverAction S)}
    (h : m.handle crc32c fitOneNeedPartsFrame event = some (m', actions)) :
    Tracks crc32c fitOneNeedPartsFrame m₀ (events ++ [event]) m' := by
  have hrun' : m₀.run crc32c fitOneNeedPartsFrame (events ++ [event]) = some m' := by
    rw [run_append, hrun]
    simp [h]
  cases event with
  | payload source frame now => exact hinv.payload hrun h
  | noLongerAvailable source frame =>
    simp only [handle, Option.some.injEq, Prod.mk.injEq] at h
    obtain ⟨rfl, -⟩ := h
    exact hinv.keep hrun' (acceptNoLongerAvailable_keepsSlots source frame)
      fun _ _ _ _ => rfl
  | pollTimeouts now keys =>
    simp only [handle] at h
    obtain ⟨⟨m₁, r⟩, hpoll, h⟩ := Option.map_eq_some_iff.1 h
    cases h
    obtain ⟨⟨transfers, r'⟩, hkeys, hpoll⟩ := Option.map_eq_some_iff.1 hpoll
    cases hpoll
    exact hinv.keep hrun' (pollKeys_keepsSlots fitOneNeedPartsFrame hkeys).1 fun _ _ _ _ => rfl

theorem Tracks.run {m₀ : ReceiverMachine S} (h₀ : Tracks crc32c fitOneNeedPartsFrame m₀ [] m₀) :
    ∀ (events : List (ReceiverEvent S)) (m : ReceiverMachine S),
      m₀.run crc32c fitOneNeedPartsFrame events = some m →
        Tracks crc32c fitOneNeedPartsFrame m₀ events m := by
  intro events
  -- induction on the run from its end, one call at a time
  induction events using List.reverseRecOn with
  | nil =>
    intro m h
    cases h
    exact h₀
  | append_singleton events event ih =>
    intro m' h
    rw [run_append] at h
    obtain ⟨m, hrun, h⟩ := Option.bind_eq_some_iff.1 h
    obtain ⟨⟨m₁, actions⟩, hstep, rfl⟩ := Option.map_eq_some_iff.1 h
    exact (ih m hrun).step hrun hstep

theorem Tracks.pending {m₀ m : ReceiverMachine S} {events : List (ReceiverEvent S)}
    (hinv : Tracks crc32c fitOneNeedPartsFrame m₀ events m) {key : ReceiverTransferKey S}
    {t : InboundTransfer} (ht : m.transfers.lookup key = some (.pending t)) :
    (∀ i, i ∈ t.missingParts ↔ t.parts[i]? = some none) ∧ t.missingParts.Nonempty ∧
      ∀ len r t', t.nextNeedPartsFrame fitOneNeedPartsFrame key.messageId len = some (r, t') →
        r ≠ .ok none := by
  obtain ⟨hslots, hnonempty, -⟩ := hinv key t ht
  refine ⟨hslots.missing, hnonempty, fun len r t' hnext hr => ?_⟩
  subst hr
  exact hnonempty.ne_empty (nextNeedPartsFrame_ok_none fitOneNeedPartsFrame hnext)

/-- Every delivery comes from a payload frame that completed a transfer created by
some call and pending since; its payload is the concatenation of the first copies of
the parts among the calls since then, and passes the checksum. -/
theorem Tracks.deliver {m₀ m m' : ReceiverMachine S} {events : List (ReceiverEvent S)}
    (hrun : m₀.run crc32c fitOneNeedPartsFrame events = some m)
    (hinv : Tracks crc32c fitOneNeedPartsFrame m₀ events m) {event : ReceiverEvent S}
    {actions : List (ReceiverAction S)}
    (h : m.handle crc32c fitOneNeedPartsFrame event = some (m', actions)) {source : S}
    {payload : List UInt8} (hdeliver : .deliver source payload ∈ actions) :
    ∃ frame now, event = .payload source frame now ∧
      let key : ReceiverTransferKey S := ⟨source, frame.header.messageId⟩
      ∃ older recent, events ++ [event] = older ++ recent ∧
        (∃ m₁, m₀.run crc32c fitOneNeedPartsFrame older = some m₁ ∧ ¬ m₁.IsPending key) ∧
        (∀ k, 0 < k → k < recent.length → ∃ m₁,
          m₀.run crc32c fitOneNeedPartsFrame (older ++ recent.take k) = some m₁ ∧ m₁.IsPending key) ∧
        (∀ i < frame.header.partCount.val,
          (firstAccepted recent key frame.header.partCount frame.header.checksum i).isSome) ∧
        payload = ((List.range frame.header.partCount.val).map fun i =>
          (firstAccepted recent key frame.header.partCount frame.header.checksum i).getD []).flatten ∧
        crc32c payload = frame.header.checksum := by
  cases event with
  | noLongerAvailable source' frame =>
    simp only [handle, Option.some.injEq, Prod.mk.injEq] at h
    obtain ⟨-, rfl⟩ := h
    obtain ⟨action, haction, rfl⟩ : ∃ action, (m.acceptNoLongerAvailable source' frame).2 = some action ∧
        action = .deliver source payload := by
      cases ha : (m.acceptNoLongerAvailable source' frame).2 <;> simp_all
    exact absurd haction (acceptNoLongerAvailable_not_deliver source' source frame payload)
  | pollTimeouts now keys =>
    simp only [handle] at h
    obtain ⟨⟨m₁, r⟩, hpoll, h⟩ := Option.map_eq_some_iff.1 h
    cases h
    obtain ⟨⟨transfers, r'⟩, hkeys, hpoll⟩ := Option.map_eq_some_iff.1 hpoll
    simp only [Prod.mk.injEq] at hpoll
    obtain ⟨-, rfl⟩ := hpoll
    cases r' with
    | error e => simp at hdeliver
    | ok acts =>
      exact absurd hdeliver ((pollKeys_keepsSlots fitOneNeedPartsFrame hkeys).2 acts source payload rfl)
  | payload source' frame now =>
    obtain ⟨-, hkey⟩ := acceptPayload_eq_some crc32c h
    -- the delivery names the frame's source and carries the transfer's update
    have hdelivered : ∀ update t', Applied ⟨source', frame.header.messageId⟩ source' update t' m' actions →
        source = source' ∧ ∃ messageId partCount checksum,
          update = .deliver payload messageId partCount checksum := by
      intro update t' happlied
      cases update with
      | pending => rw [happlied.2] at hdeliver; cases hdeliver
      | deliver payload' messageId partCount checksum =>
        rw [happlied.2] at hdeliver
        simp only [List.mem_cons, ReceiverAction.deliver.injEq, reduceCtorEq, List.not_mem_nil,
          or_false] at hdeliver
        obtain ⟨rfl, rfl⟩ := hdeliver
        exact ⟨rfl, messageId, partCount, checksum, rfl⟩
      | purged => rw [happlied.2] at hdeliver; simp at hdeliver
    rcases hkey with ⟨t, update, t', hlookup, haccept, happlied⟩ |
      ⟨t₀, update, t', hprior, hnew, haccept, happlied⟩ | ⟨_, -, -, hnone⟩
    · -- the pending transfer was completed
      obtain ⟨rfl, messageId, partCount, checksum, rfl⟩ := hdelivered update t' happlied
      obtain ⟨hslots, -, older, recent, rfl, hcreated, hfirst⟩ := hinv _ t hlookup
      refine ⟨frame, now, rfl, older, recent ++ [.payload source frame now], List.append_assoc _ _ _,
        hcreated.1, fun k hk hlt => ?_, hfirst.deliver crc32c hslots haccept⟩
      rw [List.length_append, List.length_singleton] at hlt
      rw [List.take_append_of_le_length (by omega)]
      exact hcreated.2 k hk (by omega)
    · -- a new transfer was completed by its first frame
      obtain ⟨rfl, messageId, partCount, checksum, rfl⟩ := hdelivered update t' happlied
      have hnot : ¬ m.IsPending ⟨source, frame.header.messageId⟩ := by
        rintro ⟨t, ht⟩
        rcases hprior with h | ⟨_, h⟩ <;> rw [h] at ht <;> cases ht
      refine ⟨frame, now, rfl, events, [] ++ [.payload source frame now], rfl, ⟨m, hrun, hnot⟩,
        fun k hk hlt => by simp at hlt; omega, ?_⟩
      exact (InboundTransfer.holdsFirst_new hnew _).deliver crc32c (InboundTransfer.slots_new hnew) haccept
    · exact absurd hdeliver (hnone source payload)

end ReceiverMachine

section Deliveries

variable {S : Type} [DecidableEq S]

open ReceiverMachine

/-- Receiver safety over every run of calls from a fresh receiver, with any frames
from any sources: each pending transfer's missing set is the set of its empty slots
and is not empty, so the repair poll's `unreachable!` is never reached; and each
delivery comes from a payload frame completing a transfer that a call created and
that stayed pending since, with a frame of the transfer's metadata received for
every part in between, and its payload is the in-order concatenation of the first
copies of the parts and passes the checksum. -/
theorem receiver_deliveries_are_checked_first_copies (crc32c : List UInt8 → UInt32)
    (fitOneNeedPartsFrame : UInt32 → PartCount → UInt32 → Finset ℕ → Option ℕ → ℕ →
      Except CodecError (Option NeedPartsFrame))
    (config : ReceiverConfig) (events : List (ReceiverEvent S)) (m : ReceiverMachine S)
    (hrun : (new config : ReceiverMachine S).run crc32c fitOneNeedPartsFrame events = some m) :
    (∀ key t, m.transfers.lookup key = some (.pending t) →
      (∀ i, i ∈ t.missingParts ↔ t.parts[i]? = some none) ∧ t.missingParts.Nonempty ∧
      ∀ len r t', t.nextNeedPartsFrame fitOneNeedPartsFrame key.messageId len = some (r, t') →
        r ≠ .ok none) ∧
    (∀ event m' actions source payload,
      m.handle crc32c fitOneNeedPartsFrame event = some (m', actions) →
      .deliver source payload ∈ actions →
      ∃ frame now, event = .payload source frame now ∧
        let key : ReceiverTransferKey S := ⟨source, frame.header.messageId⟩
        ∃ older recent, events ++ [event] = older ++ recent ∧
          (∃ m₁, (new config).run crc32c fitOneNeedPartsFrame older = some m₁ ∧
            ¬ m₁.IsPending key) ∧
          (∀ k, 0 < k → k < recent.length → ∃ m₁,
            (new config).run crc32c fitOneNeedPartsFrame (older ++ recent.take k) = some m₁ ∧
              m₁.IsPending key) ∧
          (∀ i < frame.header.partCount.val,
            (firstAccepted recent key frame.header.partCount frame.header.checksum i).isSome) ∧
          payload = ((List.range frame.header.partCount.val).map fun i =>
            (firstAccepted recent key frame.header.partCount frame.header.checksum i).getD []).flatten ∧
          crc32c payload = frame.header.checksum) := by
  have hinv := (tracks_new config).run events m hrun
  exact ⟨fun _ _ ht => hinv.pending ht, fun _ _ _ _ _ h hdeliver => hinv.deliver hrun h hdeliver⟩

/-- The statement at the fresh receiver before any call. -/
theorem receiver_deliveries_are_checked_first_copies_fresh :
    let config : ReceiverConfig := ⟨10, 100, 64, 1000⟩
    let crc32c : List UInt8 → UInt32 := fun _ => 0
    let fit : UInt32 → PartCount → UInt32 → Finset ℕ → Option ℕ → ℕ →
      Except CodecError (Option NeedPartsFrame) := fun _ _ _ _ _ _ => .ok none
    let m : ReceiverMachine ℕ := new config
    m.run crc32c fit [] = some m ∧
    (∀ key t, m.transfers.lookup key = some (.pending t) →
      (∀ i, i ∈ t.missingParts ↔ t.parts[i]? = some none) ∧ t.missingParts.Nonempty ∧
      ∀ len r t', t.nextNeedPartsFrame fit key.messageId len = some (r, t') → r ≠ .ok none) ∧
    (∀ event m' actions source payload, m.handle crc32c fit event = some (m', actions) →
      .deliver source payload ∈ actions →
      ∃ frame now, event = .payload source frame now ∧
        let key : ReceiverTransferKey ℕ := ⟨source, frame.header.messageId⟩
        ∃ older recent, [] ++ [event] = older ++ recent ∧
          (∃ m₁, m.run crc32c fit older = some m₁ ∧ ¬ m₁.IsPending key) ∧
          (∀ k, 0 < k → k < recent.length → ∃ m₁,
            m.run crc32c fit (older ++ recent.take k) = some m₁ ∧ m₁.IsPending key) ∧
          (∀ i < frame.header.partCount.val,
            (firstAccepted recent key frame.header.partCount frame.header.checksum i).isSome) ∧
          payload = ((List.range frame.header.partCount.val).map fun i =>
            (firstAccepted recent key frame.header.partCount frame.header.checksum i).getD []).flatten ∧
          crc32c payload = frame.header.checksum) :=
  ⟨rfl, receiver_deliveries_are_checked_first_copies _ _ _ [] _ rfl⟩

end Deliveries

end Flotsync.Udpour
