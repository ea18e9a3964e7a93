import Flotsync.Versions.Update
import Flotsync.Lib.Checked

/-!
The protobuf codecs of version vectors in the replication messages. The compact
form carries one of three bodies and takes the member count from its context;
the self-describing form carries the member count as a `u32` beside it. The
decoder checks each body on its own: a `Full` body must be non-empty, in bounds
and of the member count, an `Override` body in bounds, at a position inside the
group and increasing, a `Synced` body in bounds. It does not check that an
`Override` has two members, so an `Override` of one member is accepted from the
wire although no operation of the crate builds one and `hb_cmp` panics on it.
-/

set_option autoImplicit false

namespace Flotsync.Replication

open Flotsync.Versions Checked

/-- `MAX_VERSION_VALUE`: `u64::MAX - 1`. -/
def maxVersionValue : ℕ := maxVersion - 1

/-- `versions_proto::compact_version_vector::Versions`. -/
inductive VersionsBody where
  | full (entries : List ℕ)
  | override (groupVersion : ℕ) (overridePosition : UInt32) (overrideVersion : ℕ)
  | synced (groupVersion : ℕ)
  deriving DecidableEq, Repr

/-- `versions_proto::CompactVersionVector`. -/
structure CompactVersionVectorProto where
  versions : Option VersionsBody
  deriving DecidableEq, Repr

/-- `versions_proto::VersionVector`, the self-describing form. -/
structure VersionVectorProto where
  numMembers : UInt32
  compact : Option CompactVersionVectorProto
  deriving DecidableEq, Repr

inductive VersionVectorCodecError where
  | missingVersionsBody
  | invalidMemberCount
  | emptyFullVector
  | memberCountMismatch (expectedMembers actualMembers : ℕ)
  | invalidOverridePosition (numMembers : ℕ) (overridePosition : UInt32)
  | invalidOverride (groupVersion : ℕ) (overridePosition : UInt32) (overrideVersion : ℕ)
  | versionBoundTooLarge (field : String) (version : ℕ)
  deriving DecidableEq, Repr

def ensureVersionVectorBound (field : String) (version : ℕ) : Except VersionVectorCodecError Unit :=
  if version ≤ maxVersionValue then .ok () else .error (.versionBoundTooLarge field version)

def decodeFullVersionVector (entries : List ℕ) (numMembers : ℕ+) :
    Except VersionVectorCodecError VersionVector :=
  if hne : entries = [] then .error .emptyFullVector
  else do
    entries.forM (ensureVersionVectorBound "full.entries")
    if entries.length ≠ numMembers then
      throw (.memberCountMismatch numMembers entries.length)
    return .full ⟨entries,hne⟩

def decodeOverrideVersionVector (groupVersion : ℕ) (overridePosition : UInt32)
    (overrideVersion : ℕ) (numMembers : ℕ+) : Except VersionVectorCodecError VersionVector := do
  ensureVersionVectorBound "override.group_version" groupVersion
  ensureVersionVectorBound "override.override_version" overrideVersion
  let overridePositionIndex := overridePosition.toNat
  if ¬ overridePositionIndex < numMembers then
    throw (.invalidOverridePosition numMembers overridePosition)
  match OverrideVersion.newOpt groupVersion overridePositionIndex overrideVersion with
  | none => throw (.invalidOverride groupVersion overridePosition overrideVersion)
  | some version => return .override numMembers version

def decodeSyncedVersionVector (groupVersion : ℕ) (numMembers : ℕ+) :
    Except VersionVectorCodecError VersionVector := do
  ensureVersionVectorBound "synced.group_version" groupVersion
  return .synced numMembers groupVersion

/-- `decode_version_vector_body`; the borrowed-view decoder has the same body over
a copy of the entries. -/
def decodeVersionVectorBody (versions : VersionsBody) (numMembers : ℕ+) :
    Except VersionVectorCodecError VersionVector :=
  match versions with
  | .full entries => decodeFullVersionVector entries numMembers
  | .override groupVersion overridePosition overrideVersion =>
    decodeOverrideVersionVector groupVersion overridePosition overrideVersion numMembers
  | .synced groupVersion => decodeSyncedVersionVector groupVersion numMembers

/-- `encode_compact_version_vector`; the position is narrowed to `u32` with
`expect`. -/
def encodeCompactVersionVector (versionVector : VersionVector) :
    Option CompactVersionVectorProto :=
  match versionVector with
  | .full vector => some ⟨some (.full vector.entries)⟩
  | .override _ version =>
    if h : version.overridePosition < 2 ^ 32 then
      some ⟨some (.override version.groupVersion (UInt32.ofNatLT version.overridePosition h)
        version.overrideVersion)⟩
    else none
  | .synced _ version => some ⟨some (.synced version)⟩

namespace CompactVersionVectorProtoCodec

def fromProtoWith (proto : CompactVersionVectorProto) (memberCount : ℕ+) :
    Except VersionVectorCodecError VersionVector :=
  match proto.versions with
  | none => .error .missingVersionsBody
  | some versions => decodeVersionVectorBody versions memberCount

end CompactVersionVectorProtoCodec

namespace VersionVectorProtoCodec

def encodeProto (versionVector : VersionVector) : Option VersionVectorProto := do
  let numMembers ← if h : (versionVector.numMembers : ℕ) < 2 ^ 32 then
      some (UInt32.ofNatLT versionVector.numMembers h)
    else none
  let compact ← encodeCompactVersionVector versionVector
  return ⟨numMembers,some compact⟩

def decodeProto (proto : VersionVectorProto) : Except VersionVectorCodecError VersionVector :=
  if h : proto.numMembers.toNat = 0 then .error .invalidMemberCount
  else
    match proto.compact with
    | none => .error .missingVersionsBody
    | some compact =>
      CompactVersionVectorProtoCodec.fromProtoWith compact ⟨proto.numMembers.toNat,by omega⟩

end VersionVectorProtoCodec

/-! ## What the decoder accepts -/

/-- Every version the vector stores is at most `MAX_VERSION_VALUE`. -/
def VersionsWithinBound : VersionVector → Prop
  | .full vector => ∀ x ∈ vector.entries, x ≤ maxVersionValue
  | .override _ version =>
    version.groupVersion ≤ maxVersionValue ∧ version.overrideVersion ≤ maxVersionValue
  | .synced _ version => version ≤ maxVersionValue

theorem forM_ensureVersionVectorBound_eq_ok {field : String} {entries : List ℕ} :
    entries.forM (ensureVersionVectorBound field) = .ok () ↔ ∀ x ∈ entries, x ≤ maxVersionValue := by
  induction entries with
  | nil => simp; rfl
  | cons x xs ih =>
    simp only [List.forM]
    by_cases hx : x ≤ maxVersionValue
    · simpa [ensureVersionVectorBound,hx] using ih
    · simp [ensureVersionVectorBound,hx]

theorem decodeFullVersionVector_eq_ok {entries : List ℕ} {n : ℕ+} {v : VersionVector}
    (h : decodeFullVersionVector entries n = .ok v) :
    ∃ hne, (∀ x ∈ entries, x ≤ maxVersionValue) ∧ entries.length = n ∧ v = .full ⟨entries,hne⟩ := by
  unfold decodeFullVersionVector at h
  split at h
  · cases h
  · rename_i hne
    obtain ⟨u,hu,h⟩ := bind_eq_ok h
    have hb := forM_ensureVersionVectorBound_eq_ok.1 hu
    by_cases hl : entries.length = n
    · simp only [hl,ne_eq,not_true_eq_false,if_false] at h
      exact ⟨hne,hb,hl,(Except.ok.inj h).symm⟩
    · simp [hl] at h

theorem decodeOverrideVersionVector_eq_ok {g o : ℕ} {p : UInt32} {n : ℕ+} {v : VersionVector}
    (h : decodeOverrideVersionVector g p o n = .ok v) :
    g ≤ maxVersionValue ∧ o ≤ maxVersionValue ∧ p.toNat < n ∧
      ∃ hgo : g < o, v = .override n ⟨g,p.toNat,o,hgo⟩ := by
  unfold decodeOverrideVersionVector ensureVersionVectorBound at h
  by_cases hg : g ≤ maxVersionValue
  · by_cases ho : o ≤ maxVersionValue
    · by_cases hp : p.toNat < n
      · by_cases hgo : g < o
        · simp [hg,ho,hp,hgo,OverrideVersion.newOpt,OverrideVersion.new] at h
          exact ⟨hg,ho,hp,hgo,h.symm⟩
        · simp [hg,ho,hp,hgo,OverrideVersion.newOpt] at h
      · simp [hg,ho,hp] at h
    · simp [hg,ho] at h
  · simp [hg] at h

theorem decodeSyncedVersionVector_eq_ok {g : ℕ} {n : ℕ+} {v : VersionVector}
    (h : decodeSyncedVersionVector g n = .ok v) : g ≤ maxVersionValue ∧ v = .synced n g := by
  unfold decodeSyncedVersionVector ensureVersionVectorBound at h
  by_cases hg : g ≤ maxVersionValue
  · simp [hg] at h
    exact ⟨hg,h.symm⟩
  · simp [hg] at h

/-- What a body decodes to encodes back to that body, has the member count of
the context and keeps the version bound; it satisfies the representation
invariant unless it is an `Override` of one member. -/
theorem decodeVersionVectorBody_eq_ok {b : VersionsBody} {n : ℕ+} {v : VersionVector}
    (h : decodeVersionVectorBody b n = .ok v) :
    encodeCompactVersionVector v = some ⟨some b⟩ ∧ v.numMembers = n ∧ VersionsWithinBound v ∧
      (v.WellFormed ∨ ∃ o, v = .override 1 o) := by
  cases b with
  | full entries =>
    obtain ⟨hne,hb,hl,rfl⟩ := decodeFullVersionVector_eq_ok h
    exact ⟨rfl,PNat.eq hl,hb,.inl trivial⟩
  | override g p o =>
    obtain ⟨hg,ho,hp,hgo,rfl⟩ := decodeOverrideVersionVector_eq_ok h
    refine ⟨by simp [encodeCompactVersionVector,p.toNat_lt],rfl,⟨hg,ho⟩,?_⟩
    -- the one case the decoder lets through: a single member
    rcases Nat.lt_or_ge (n : ℕ) 2 with hn | hn
    · have hn1 : n = 1 := PNat.coe_eq_one_iff.1 (by have := n.pos; omega)
      exact .inr ⟨_,by rw [hn1]⟩
    · exact .inl ⟨hn,hp⟩
  | synced g =>
    obtain ⟨hg,rfl⟩ := decodeSyncedVersionVector_eq_ok h
    exact ⟨rfl,rfl,hg,.inl trivial⟩

/-- In a group of at least two members every decoded vector keeps the
invariant, so `hb_cmp` on decoded vectors is the pointwise comparison. -/
theorem decodeVersionVectorBody_wellFormed {b : VersionsBody} {n : ℕ+} {v : VersionVector}
    (h : decodeVersionVectorBody b n = .ok v) (hn : 2 ≤ (n : ℕ)) : v.WellFormed := by
  obtain ⟨-,hv,-,hw⟩ := decodeVersionVectorBody_eq_ok h
  rcases hw with hw | ⟨o,rfl⟩
  · exact hw
  · rw [← hv] at hn
    simp [VersionVector.numMembers] at hn

/-- Every vector that keeps the invariant and the bound decodes from its own
encoding. -/
theorem fromProtoWith_encodeCompactVersionVector {v : VersionVector} (hv : v.WellFormed)
    (hb : VersionsWithinBound v) {c : CompactVersionVectorProto}
    (hc : encodeCompactVersionVector v = some c) :
    CompactVersionVectorProtoCodec.fromProtoWith c v.numMembers = .ok v := by
  cases v with
  | full f =>
    simp only [encodeCompactVersionVector,Option.some.injEq] at hc
    subst hc
    have hl : f.entries.length = (VersionVector.full f).numMembers := rfl
    simp [CompactVersionVectorProtoCodec.fromProtoWith,decodeVersionVectorBody,
      decodeFullVersionVector,f.nonempty,forM_ensureVersionVectorBound_eq_ok.2 hb,hl]
  | override n o =>
    simp only [encodeCompactVersionVector] at hc
    split at hc
    · rename_i hp32
      simp only [Option.some.injEq] at hc
      subst hc
      obtain ⟨hg,ho⟩ := hb
      simp [CompactVersionVectorProtoCodec.fromProtoWith,decodeVersionVectorBody,
        decodeOverrideVersionVector,ensureVersionVectorBound,hg,ho,hv.2,OverrideVersion.newOpt,
        OverrideVersion.new,o.valid,VersionVector.numMembers]
    · cases hc
  | synced n g =>
    simp only [encodeCompactVersionVector,Option.some.injEq] at hc
    subst hc
    have hg : g ≤ maxVersionValue := hb
    simp [CompactVersionVectorProtoCodec.fromProtoWith,decodeVersionVectorBody,
      decodeSyncedVersionVector,ensureVersionVectorBound,hg,VersionVector.numMembers]

namespace VersionVectorProtoCodec

/-- The self-describing form decodes every valid vector from its encoding. -/
theorem decodeProto_encodeProto {v : VersionVector} (hv : v.WellFormed)
    (hb : VersionsWithinBound v) {p : VersionVectorProto} (hp : encodeProto v = some p) :
    decodeProto p = .ok v := by
  simp only [encodeProto,Option.bind_eq_bind,Option.pure_def] at hp
  split at hp
  · rename_i hn
    cases hc : encodeCompactVersionVector v with
    | none => simp [hc] at hp
    | some c =>
      simp only [hc,Option.bind_some,Option.some.injEq] at hp
      subst hp
      have hn0 : (UInt32.ofNatLT (v.numMembers : ℕ) hn).toNat ≠ 0 := by simp
      simp only [decodeProto,dif_neg hn0]
      rw [← fromProtoWith_encodeCompactVersionVector hv hb hc]
      congr 1
  · cases hp

/-- What the self-describing form decodes to encodes back to the message and
keeps the bound; it satisfies the representation invariant unless it is an
`Override` of one member. -/
theorem decodeProto_eq_ok {p : VersionVectorProto} {v : VersionVector} (h : decodeProto p = .ok v) :
    encodeProto v = some p ∧ VersionsWithinBound v ∧ (v.WellFormed ∨ ∃ o, v = .override 1 o) := by
  rcases p with ⟨numMembers,_ | ⟨_ | body⟩⟩
  · unfold decodeProto at h
    split at h <;> cases h
  · unfold decodeProto at h
    split at h
    · cases h
    · cases h
  · by_cases hn : numMembers.toNat = 0
    · simp [decodeProto,hn] at h
    · simp only [decodeProto,dif_neg hn,CompactVersionVectorProtoCodec.fromProtoWith] at h
      obtain ⟨he,hn',hb,hw⟩ := decodeVersionVectorBody_eq_ok h
      have hcount : (v.numMembers : ℕ) = numMembers.toNat := congrArg PNat.val hn'
      have hlt : (v.numMembers : ℕ) < 2 ^ 32 := hcount ▸ numMembers.toNat_lt
      refine ⟨?_,hb,hw⟩
      simp only [encodeProto,dif_pos hlt,he,Option.bind_eq_bind,Option.bind_some,Option.pure_def,
        Option.some.injEq,VersionVectorProto.mk.injEq,and_true]
      exact UInt32.toNat_inj.1 (by simp [hcount])

end VersionVectorProtoCodec

/-- Both decoders accept an `Override` body of one member, which no operation
of the crate builds; what they return breaks the representation invariant, and
`hb_cmp` on it panics. -/
theorem decoders_accept_single_member_override :
    decodeVersionVectorBody (.override 0 0 1) 1 = .ok (.override 1 ⟨0,0,1,Nat.zero_lt_one⟩) ∧
      VersionVectorProtoCodec.decodeProto ⟨1,some ⟨some (.override 0 0 1)⟩⟩ =
        .ok (.override 1 ⟨0,0,1,Nat.zero_lt_one⟩) ∧
      ¬ (VersionVector.override 1 ⟨0,0,1,Nat.zero_lt_one⟩).WellFormed ∧
      (VersionVector.override 1 ⟨0,0,1,Nat.zero_lt_one⟩).hbCmp
        (.override 1 ⟨0,0,1,Nat.zero_lt_one⟩) = none :=
  ⟨rfl,rfl,by decide,rfl⟩

end Flotsync.Replication
