import Flotsync.Udpour.Sender

/-!
Message ids of the sender. The cooldown keeps its ids twice, as a set and as the
entries of its expiration heap: `CooldownIds.Inv` says the two agree and no id has
two entries, which the assertion of `insert` relies on and `gc_expired` keeps. The
allocation loop visits consecutive ids, wrapping around, and returns the first one
that is neither live nor cooling down; it fails only after every one of the `2^32`
ids was found taken.
-/

set_option autoImplicit false

namespace Flotsync.Udpour

namespace CooldownIds

structure Inv (c : CooldownIds) : Prop where
  nodup : (c.expirations.map Prod.snd).Nodup
  ids_eq : c.ids = (c.expirations.map Prod.snd).toFinset

theorem inv_new : new.Inv := ⟨List.nodup_nil, rfl⟩

variable {c : CooldownIds}

theorem Inv.gcExpired (h : c.Inv) (now : ℕ) : (c.gcExpired now).Inv where
  nodup := h.nodup.sublist (List.filter_sublist.map Prod.snd)
  ids_eq := by
    ext messageId
    simp only [CooldownIds.gcExpired, h.ids_eq, Finset.mem_sdiff, List.mem_toFinset, List.mem_map,
      List.mem_filter, decide_eq_true_eq, Prod.exists]
    constructor
    · rintro ⟨⟨e, x, hmem, rfl⟩, hnot⟩
      exact ⟨e, x, ⟨hmem, lt_of_not_ge fun hle => hnot ⟨e, x, ⟨hmem, hle⟩, rfl⟩⟩, rfl⟩
    · rintro ⟨e, x, ⟨hmem, hlt⟩, rfl⟩
      refine ⟨⟨e, x, hmem, rfl⟩, ?_⟩
      rintro ⟨e', x', ⟨hmem', hle⟩, hx⟩
      -- an id has a single entry, and this one has not expired
      have hsame := List.inj_on_of_nodup_map h.nodup hmem' hmem hx
      simp only [Prod.mk.injEq] at hsame
      omega

theorem mem_of_mem_gcExpired {now : ℕ} {messageId : UInt32}
    (hmem : messageId ∈ (c.gcExpired now).ids) : messageId ∈ c.ids :=
  (Finset.mem_sdiff.1 hmem).1

theorem Inv.mem_gcExpired_ids (h : c.Inv) (now : ℕ) (messageId : UInt32) :
    messageId ∈ (c.gcExpired now).ids ↔ ∃ expiresAt, (expiresAt, messageId) ∈ c.expirations ∧
      now < expiresAt := by
  rw [(h.gcExpired now).ids_eq]
  simp [CooldownIds.gcExpired]

theorem insert_eq {messageId : UInt32} (hfresh : messageId ∉ c.ids) (expiresAt : ℕ) :
    c.insert messageId expiresAt =
      some ⟨Insert.insert messageId c.ids, c.expirations ++ [(expiresAt, messageId)]⟩ := by
  simp [insert, hfresh]

theorem Inv.insert (h : c.Inv) {messageId : UInt32} (hfresh : messageId ∉ c.ids) (expiresAt : ℕ) :
    (⟨Insert.insert messageId c.ids, c.expirations ++ [(expiresAt, messageId)]⟩ : CooldownIds).Inv where
  nodup := by
    rw [List.map_append, List.nodup_append]
    refine ⟨h.nodup, List.nodup_singleton _, ?_⟩
    intro x hx y hy hxy
    simp only [List.map_cons, List.map_nil, List.mem_singleton] at hy
    subst hy hxy
    exact hfresh (h.ids_eq ▸ List.mem_toFinset.2 hx)
  ids_eq := by
    rw [h.ids_eq]
    ext x
    simp

end CooldownIds

namespace SenderMachine

theorem allocateLoop_spec : ∀ (fuel : ℕ) (s : SenderMachine),
    (s.allocateLoop fuel).1 = { s with nextMessageId := (s.allocateLoop fuel).1.nextMessageId } ∧
    (∀ messageId, (s.allocateLoop fuel).2 = some messageId →
      s.live.lookup messageId = none ∧ messageId ∉ s.cooldown.ids) ∧
    ((s.allocateLoop fuel).2 = none → ∀ k < fuel,
      (s.live.lookup (s.nextMessageId + UInt32.ofNat k)).isSome ∨
        s.nextMessageId + UInt32.ofNat k ∈ s.cooldown.ids)
  | 0, s => ⟨rfl, by simp [allocateLoop], by simp⟩
  | fuel + 1, s => by
    obtain ⟨hframe, hfound, hexhausted⟩ :=
      allocateLoop_spec fuel { s with nextMessageId := s.nextMessageId + 1 }
    -- the ids after the first candidate are the ones the rest of the loop visits
    have hnext : ∀ k, s.nextMessageId + 1 + UInt32.ofNat k = s.nextMessageId + UInt32.ofNat (k + 1) :=
      fun k => by
        rw [UInt32.ofNat_add]
        grind
    have hrest : (allocateLoop { s with nextMessageId := s.nextMessageId + 1 } fuel).2 = none →
        ∀ k < fuel + 1, 0 < k → (s.live.lookup (s.nextMessageId + UInt32.ofNat k)).isSome ∨
          s.nextMessageId + UInt32.ofNat k ∈ s.cooldown.ids := by
      intro hnone k hk hpos
      obtain ⟨j, rfl⟩ := Nat.exists_eq_add_one_of_ne_zero hpos.ne'
      have hvisited := hexhausted hnone j (by omega)
      rwa [hnext] at hvisited
    have hfirst : s.nextMessageId + UInt32.ofNat 0 = s.nextMessageId := by simp
    dsimp only [allocateLoop]
    split_ifs with hlive hcooling
    · refine ⟨hframe, hfound, fun hnone k hk => ?_⟩
      rcases Nat.eq_zero_or_pos k with rfl | hpos
      · left
        rw [hfirst]
        simpa using hlive
      · exact hrest hnone k hk hpos
    · refine ⟨hframe, hfound, fun hnone k hk => ?_⟩
      rcases Nat.eq_zero_or_pos k with rfl | hpos
      · right
        rw [hfirst]
        simpa [CooldownIds.contains] using hcooling
      · exact hrest hnone k hk hpos
    · refine ⟨rfl, fun messageId hsome => ?_, by simp⟩
      cases hsome
      simp only [Option.isSome_iff_ne_none, ne_eq, not_not] at hlive
      simp only [CooldownIds.contains, decide_eq_true_eq] at hcooling
      exact ⟨hlive, hcooling⟩

theorem exists_offset (start messageId : UInt32) :
    ∃ k < 2 ^ 32, messageId = start + UInt32.ofNat k :=
  ⟨(messageId - start).toNat, (messageId - start).toNat_lt, by
    rw [UInt32.ofNat_toNat, add_sub_cancel]⟩

/-- `allocate_message_id` collects the expired cooldowns and moves the counter on. The
id it returns is neither live nor still cooling down, and it reports exhaustion only
when every id is one or the other. -/
theorem allocateMessageId_spec (s : SenderMachine) (now : ℕ) :
    (s.allocateMessageId now).1 = { s with
      nextMessageId := (s.allocateMessageId now).1.nextMessageId
      cooldown := s.cooldown.gcExpired now } ∧
    (∀ messageId, (s.allocateMessageId now).2 = .ok messageId →
      s.live.lookup messageId = none ∧ messageId ∉ (s.cooldown.gcExpired now).ids) ∧
    (∀ e, (s.allocateMessageId now).2 = .error e → e = .messageIdExhausted ∧
      ∀ messageId : UInt32, (s.live.lookup messageId).isSome ∨
        messageId ∈ (s.cooldown.gcExpired now).ids) := by
  obtain ⟨hframe, hfound, hexhausted⟩ :=
    allocateLoop_spec (2 ^ 32) { s with cooldown := s.cooldown.gcExpired now }
  dsimp only [allocateMessageId]
  split
  · rename_i messageId hsome
    refine ⟨hframe, fun messageId' hok => ?_, fun e herr => by cases herr⟩
    cases hok
    exact hfound messageId hsome
  · rename_i hnone
    refine ⟨hframe, fun messageId' hok => (by cases hok), fun e herr => ?_⟩
    cases herr
    refine ⟨rfl, fun messageId => ?_⟩
    obtain ⟨k, hk, rfl⟩ := exists_offset s.nextMessageId messageId
    exact hexhausted hnone k hk

@[simp] theorem allocateMessageId_config (s : SenderMachine) (now : ℕ) :
    (s.allocateMessageId now).1.config = s.config :=
  by rw [(allocateMessageId_spec s now).1]

@[simp] theorem allocateMessageId_live (s : SenderMachine) (now : ℕ) :
    (s.allocateMessageId now).1.live = s.live :=
  by rw [(allocateMessageId_spec s now).1]

@[simp] theorem allocateMessageId_cooldown (s : SenderMachine) (now : ℕ) :
    (s.allocateMessageId now).1.cooldown = s.cooldown.gcExpired now :=
  by rw [(allocateMessageId_spec s now).1]

end SenderMachine

end Flotsync.Udpour
