import Flotsync.Lib.PrefixCode

/-!
`flotsync_security`: the byte strings the crate authenticates as AEAD data,
hashes into nonces and signatures, and gives HPKE as context. Each appends
fields to a buffer, or to a digest's input, which grows the same way: fixed-width
ids as they are, byte strings after their length as a big-endian `u64`, and a
member identity as its segment count in one byte followed by its length-prefixed
segments. The digests themselves are not modelled; what is proved is about the
bytes they are given.

A length that does not fit a `u64` or a member with more than 255 segments
panics: `none`.
-/

set_option autoImplicit false

namespace Flotsync.Security

open PrefixCode

/-- `[u8; n]`. -/
structure FixedBytes (n : ℕ) where
  bytes : List UInt8
  length_bytes : bytes.length = n
  deriving DecidableEq

/-- `Uuid`, by `as_bytes`. -/
abbrev Uuid := FixedBytes 16

theorem FixedBytes.bytes_injective {n : ℕ} : Function.Injective (FixedBytes.bytes (n := n)) := by
  rintro ⟨a,ha⟩ ⟨b,hb⟩ rfl
  rfl

/-- `str::as_bytes`: the UTF-8 encoding. -/
def utf8 (s : String) : List UInt8 := s.toUTF8.data.toList

theorem utf8_injective : Function.Injective utf8 := by
  intro s t h
  apply String.toByteArray_inj.1
  cases hs : s.toUTF8
  cases ht : t.toUTF8
  simp_all [utf8]

/-- `MemberIdentity`, by its segments. -/
structure MemberIdentity where
  segments : List String
  deriving DecidableEq

/-- `segment_count_u8`: panics above 255 segments. -/
def MemberIdentity.segmentCountU8 (member : MemberIdentity) : Option UInt8 :=
  if member.segments.length < 256 then some (UInt8.ofNat member.segments.length) else none

/-- `len_u64`: panics when the length does not fit. -/
def lenU64 (length : ℕ) : Option ℕ := if length < 2 ^ 64 then some length else none

def appendLenPrefixed (output value : List UInt8) : Option (List UInt8) :=
  (lenU64 value.length).map fun length => output ++ BigEndian.bytes 8 length ++ value

def appendMemberIdentity (output : List UInt8) (member : MemberIdentity) : Option (List UInt8) :=
  member.segmentCountU8.bind fun count =>
    member.segments.foldlM (fun output segment => appendLenPrefixed output (utf8 segment))
      (output ++ [count])

/-- `hash_len_prefixed`: a digest's input grows as a buffer does. -/
def hashLenPrefixed (preimage value : List UInt8) : Option (List UInt8) :=
  appendLenPrefixed preimage value

/-- `hash_member_identity`. -/
def hashMemberIdentity (preimage : List UInt8) (member : MemberIdentity) : Option (List UInt8) :=
  appendMemberIdentity preimage member

def domainGroupAad : String := "flotsync/security/group-aad/v1"
def domainGroupNonce : String := "flotsync/security/group-nonce/v1"
def domainHpkeInfo : String := "flotsync/security/hpke-info/v1"
def domainHpkeAad : String := "flotsync/security/hpke-aad/v1"
def purposeReliablePayload : String := "reliable-payload"
def scopeDirectMessage : String := "direct-message"
def scopeGroup : String := "group"
def domainReliablePayloadHeader : String := "flotsync/security/reliable-payload-header/v1"
def domainSignature : String := "flotsync/security/signature/v1"
def domainDiscoveryClaimPayloadSignature : String :=
  "flotsync/security/discovery-claim-payload-signature/v1"

/-! ### Group messages -/

structure GroupMessageContext where
  groupId : Uuid
  frameKind : String
  sender : MemberIdentity
  messageId : Uuid
  deriving DecidableEq

/-- What `group_nonce` feeds SHA-256. -/
def groupNoncePreimage (context : GroupMessageContext) : Option (List UInt8) := do
  let preimage := utf8 domainGroupNonce ++ context.groupId.bytes
  let preimage ← hashLenPrefixed preimage (utf8 context.frameKind)
  let preimage ← hashMemberIdentity preimage context.sender
  pure (preimage ++ context.messageId.bytes)

/-- `group_nonce`: the first twelve bytes of the digest. -/
def groupNonce (sha256 : List UInt8 → List UInt8) (context : GroupMessageContext) :
    Option (List UInt8) :=
  (groupNoncePreimage context).map fun preimage => (sha256 preimage).take 12

def groupAad (context : GroupMessageContext) (publicHeader : List UInt8) : Option (List UInt8) := do
  let aad ← appendLenPrefixed [] (utf8 domainGroupAad)
  let aad := aad ++ context.groupId.bytes
  let aad ← appendLenPrefixed aad (utf8 context.frameKind)
  let aad ← appendMemberIdentity aad context.sender
  let aad := aad ++ context.messageId.bytes
  appendLenPrefixed aad publicHeader

/-! ### Signatures -/

structure SignedFrameParts where
  frameKind : String
  publicHeader : List UInt8
  ciphertext : List UInt8
  deriving DecidableEq

/-- What `signature_transcript` feeds SHA-512. -/
def signatureTranscript (parts : SignedFrameParts) : Option (List UInt8) := do
  let transcript ← hashLenPrefixed [] (utf8 domainSignature)
  let transcript ← hashLenPrefixed transcript (utf8 parts.frameKind)
  let transcript ← hashLenPrefixed transcript parts.publicHeader
  hashLenPrefixed transcript parts.ciphertext

/-- What `discovery_payload_transcript` feeds SHA-512. -/
def discoveryPayloadTranscript (payload : List UInt8) : Option (List UInt8) := do
  let transcript ← hashLenPrefixed [] (utf8 domainDiscoveryClaimPayloadSignature)
  hashLenPrefixed transcript payload

/-! ### HPKE contexts -/

inductive HpkeEnvelopePurpose where
  | reliablePayload
  deriving DecidableEq

def HpkeEnvelopePurpose.asBytes : HpkeEnvelopePurpose → String
  | .reliablePayload => purposeReliablePayload

inductive HpkeEnvelopeScope where
  | directMessage
  | group (groupId : Uuid)
  deriving DecidableEq

def HpkeEnvelopeScope.appendTo (scope : HpkeEnvelopeScope) (output : List UInt8) :
    Option (List UInt8) :=
  match scope with
  | .directMessage => appendLenPrefixed output (utf8 scopeDirectMessage)
  | .group groupId => (appendLenPrefixed output (utf8 scopeGroup)).map (· ++ groupId.bytes)

structure HpkeContext where
  purpose : HpkeEnvelopePurpose
  sender : MemberIdentity
  recipient : MemberIdentity
  scope : HpkeEnvelopeScope
  deliveryMessageId : Uuid
  authenticatedPublicMetadata : List UInt8

namespace HpkeContext

def transcriptBytes (self : HpkeContext) (domain : List UInt8)
    (authenticatedPublicMetadata : Option (List UInt8)) : Option (List UInt8) := do
  let output ← appendLenPrefixed [] domain
  let output ← appendLenPrefixed output (utf8 self.purpose.asBytes)
  let output ← self.scope.appendTo output
  let output ← appendMemberIdentity output self.sender
  let output ← appendMemberIdentity output self.recipient
  let output := output ++ self.deliveryMessageId.bytes
  match authenticatedPublicMetadata with
  | some authenticatedPublicMetadata => appendLenPrefixed output authenticatedPublicMetadata
  | none => pure output

def infoBytes (self : HpkeContext) : Option (List UInt8) :=
  self.transcriptBytes (utf8 domainHpkeInfo) none

def aadBytes (self : HpkeContext) : Option (List UInt8) :=
  self.transcriptBytes (utf8 domainHpkeAad) (some self.authenticatedPublicMetadata)

end HpkeContext

/-! ### Reliable payloads -/

structure ReliablePayloadContext where
  frameKind : String
  sender : MemberIdentity
  recipient : MemberIdentity
  scope : HpkeEnvelopeScope
  messageId : Uuid
  deriving DecidableEq

def reliablePayloadPublicHeader (context : ReliablePayloadContext) : Option (List UInt8) := do
  let output ← appendLenPrefixed [] (utf8 domainReliablePayloadHeader)
  let output ← appendLenPrefixed output (utf8 context.frameKind)
  let output ← context.scope.appendTo output
  let output ← appendMemberIdentity output context.sender
  let output ← appendMemberIdentity output context.recipient
  pure (output ++ context.messageId.bytes)

/-- The body the sender signs: the 32-byte encapsulated key, then the ciphertext. -/
def reliablePayloadSignedBody (encapsulatedKey : FixedBytes 32) (ciphertext : List UInt8) :
    Option (List UInt8) :=
  appendLenPrefixed encapsulatedKey.bytes ciphertext

/-! ### Every field a prefix code -/

/-- A byte string after its length as a big-endian `u64`. -/
def lenPrefixed : List UInt8 → Option (List UInt8) := lengthPrefixed (bigEndian 8)

def strCode (s : String) : Option (List UInt8) := lenPrefixed (utf8 s)

def fixedCode {n : ℕ} (value : FixedBytes n) : Option (List UInt8) := some value.bytes

def memberCode (member : MemberIdentity) : Option (List UInt8) :=
  counted (bigEndian 1) strCode member.segments

def scopeCode (scope : HpkeEnvelopeScope) : Option (List UInt8) := scope.appendTo []

def purposeCode (purpose : HpkeEnvelopePurpose) : Option (List UInt8) := strCode purpose.asBytes

theorem appendLenPrefixed_eq (output value : List UInt8) :
    appendLenPrefixed output value = (lenPrefixed value).map (output ++ ·) := by
  have h : (256 : ℕ) ^ 8 = 2 ^ 64 := by norm_num
  simp [appendLenPrefixed,lenPrefixed,lengthPrefixed,bigEndian,lenU64,h]

theorem foldlM_appendLenPrefixed (segments : List String) (output : List UInt8) :
    segments.foldlM (fun output segment => appendLenPrefixed output (utf8 segment)) output =
      (segments.mapM strCode).map fun xs => output ++ xs.flatten := by
  induction segments generalizing output with
  | nil => simp
  | cons segment segments ih =>
    rw [List.foldlM_cons,List.mapM_cons,appendLenPrefixed_eq]
    cases h : lenPrefixed (utf8 segment) <;> cases h' : segments.mapM strCode <;> simp [strCode,h,h',ih]

theorem appendMemberIdentity_eq (output : List UInt8) (member : MemberIdentity) :
    appendMemberIdentity output member = (memberCode member).map (output ++ ·) := by
  unfold appendMemberIdentity memberCode counted MemberIdentity.segmentCountU8 bigEndian
  by_cases h : member.segments.length < 256
  · simp [h,foldlM_appendLenPrefixed,BigEndian.bytes,Function.comp_def]
  · simp [h]

theorem appendTo_eq (scope : HpkeEnvelopeScope) (output : List UInt8) :
    scope.appendTo output = (scopeCode scope).map (output ++ ·) := by
  cases scope <;> simp [HpkeEnvelopeScope.appendTo,scopeCode,appendLenPrefixed_eq,Function.comp_def]

theorem prefixFree_lenPrefixed : PrefixFree lenPrefixed := (prefixFree_bigEndian 8).lengthPrefixed

theorem prefixFree_strCode : PrefixFree strCode := prefixFree_lenPrefixed.comp utf8_injective

theorem prefixFree_fixedCode {n : ℕ} : PrefixFree (fixedCode (n := n)) :=
  prefixFree_fixed FixedBytes.bytes_injective FixedBytes.length_bytes

theorem prefixFree_memberCode : PrefixFree memberCode :=
  ((prefixFree_bigEndian 1).counted prefixFree_strCode).comp fun a b h => by
    cases a
    cases b
    cases h
    rfl

theorem prefixFree_purposeCode : PrefixFree purposeCode :=
  prefixFree_strCode.comp fun a b _ => by
    cases a
    cases b
    rfl

theorem scopeCode_eq (scope : HpkeEnvelopeScope) :
    scopeCode scope = match scope with
      | .directMessage => strCode scopeDirectMessage
      | .group groupId => seq strCode fixedCode (scopeGroup,groupId) := by
  cases scope with
  | directMessage => simp [scopeCode,HpkeEnvelopeScope.appendTo,appendLenPrefixed_eq,strCode]
  | group groupId =>
    simp only [scopeCode,HpkeEnvelopeScope.appendTo,appendLenPrefixed_eq,strCode,seq,fixedCode]
    cases lenPrefixed (utf8 scopeGroup) <;> simp

theorem prefixFree_scopeCode : PrefixFree scopeCode := by
  have hne : scopeDirectMessage ≠ scopeGroup := by decide
  rintro (_|g₁) (_|g₂) x y hx hy r s hrs <;> rw [scopeCode_eq] at hx hy
  · exact ⟨rfl,(prefixFree_strCode hx hy hrs).2⟩
  · obtain ⟨y₁,y₂,hy₁,-,rfl⟩ := seq_eq_some.1 hy
    rw [List.append_assoc] at hrs
    exact absurd (prefixFree_strCode hx hy₁ hrs).1 hne
  · obtain ⟨x₁,x₂,hx₁,-,rfl⟩ := seq_eq_some.1 hx
    rw [List.append_assoc] at hrs
    exact absurd (prefixFree_strCode hx₁ hy hrs).1 hne.symm
  · obtain ⟨hg,hrs⟩ := (prefixFree_strCode.seq prefixFree_fixedCode) hx hy hrs
    exact ⟨by simpa using hg,hrs⟩

/-! ### Each transcript as one code -/

theorem groupNoncePreimage_eq (context : GroupMessageContext) :
    groupNoncePreimage context =
      (seq fixedCode (seq strCode (seq memberCode fixedCode))
        (context.groupId,context.frameKind,context.sender,context.messageId)).map
          (utf8 domainGroupNonce ++ ·) := by
  simp only [groupNoncePreimage,hashLenPrefixed,hashMemberIdentity,appendLenPrefixed_eq,
    appendMemberIdentity_eq,seq,strCode,fixedCode]
  cases lenPrefixed (utf8 context.frameKind) <;> cases memberCode context.sender <;> simp

theorem groupAad_eq (context : GroupMessageContext) (publicHeader : List UInt8) :
    groupAad context publicHeader =
      seq strCode (seq fixedCode (seq strCode (seq memberCode (seq fixedCode lenPrefixed))))
        (domainGroupAad,context.groupId,context.frameKind,context.sender,context.messageId,
          publicHeader) := by
  simp only [groupAad,appendLenPrefixed_eq,appendMemberIdentity_eq,seq,strCode,fixedCode]
  cases lenPrefixed (utf8 domainGroupAad) <;> cases lenPrefixed (utf8 context.frameKind) <;>
    cases memberCode context.sender <;> cases lenPrefixed publicHeader <;> simp

theorem signatureTranscript_eq (parts : SignedFrameParts) :
    signatureTranscript parts =
      seq strCode (seq strCode (seq lenPrefixed lenPrefixed))
        (domainSignature,parts.frameKind,parts.publicHeader,parts.ciphertext) := by
  simp only [signatureTranscript,hashLenPrefixed,appendLenPrefixed_eq,seq,strCode]
  cases lenPrefixed (utf8 domainSignature) <;> cases lenPrefixed (utf8 parts.frameKind) <;>
    cases lenPrefixed parts.publicHeader <;> cases lenPrefixed parts.ciphertext <;> simp

theorem discoveryPayloadTranscript_eq (payload : List UInt8) :
    discoveryPayloadTranscript payload =
      seq strCode lenPrefixed (domainDiscoveryClaimPayloadSignature,payload) := by
  simp only [discoveryPayloadTranscript,hashLenPrefixed,appendLenPrefixed_eq,seq,strCode]
  cases lenPrefixed (utf8 domainDiscoveryClaimPayloadSignature) <;> cases lenPrefixed payload <;> simp

/-- The fields of an HPKE transcript up to the optional metadata. -/
def hpkeFieldsCode : List UInt8 × HpkeEnvelopePurpose × HpkeEnvelopeScope × MemberIdentity ×
    MemberIdentity × Uuid → Option (List UInt8) :=
  seq lenPrefixed (seq purposeCode (seq scopeCode (seq memberCode (seq memberCode fixedCode))))

theorem transcriptBytes_eq (self : HpkeContext) (domain : List UInt8)
    (authenticatedPublicMetadata : Option (List UInt8)) :
    self.transcriptBytes domain authenticatedPublicMetadata =
      seq hpkeFieldsCode (orEmpty lenPrefixed)
        ((domain,self.purpose,self.scope,self.sender,self.recipient,self.deliveryMessageId),
          authenticatedPublicMetadata) := by
  simp only [HpkeContext.transcriptBytes,appendLenPrefixed_eq,appendMemberIdentity_eq,appendTo_eq,
    hpkeFieldsCode,seq,purposeCode,strCode,fixedCode]
  cases lenPrefixed domain <;> cases lenPrefixed (utf8 self.purpose.asBytes) <;>
    cases scopeCode self.scope <;> cases memberCode self.sender <;>
    cases memberCode self.recipient <;> cases authenticatedPublicMetadata <;> simp [orEmpty]

theorem reliablePayloadPublicHeader_eq (context : ReliablePayloadContext) :
    reliablePayloadPublicHeader context =
      seq strCode (seq strCode (seq scopeCode (seq memberCode (seq memberCode fixedCode))))
        (domainReliablePayloadHeader,context.frameKind,context.scope,context.sender,
          context.recipient,context.messageId) := by
  simp only [reliablePayloadPublicHeader,appendLenPrefixed_eq,appendMemberIdentity_eq,appendTo_eq,
    seq,strCode,fixedCode]
  cases lenPrefixed (utf8 domainReliablePayloadHeader) <;>
    cases lenPrefixed (utf8 context.frameKind) <;> cases scopeCode context.scope <;>
    cases memberCode context.sender <;> cases memberCode context.recipient <;> simp

theorem reliablePayloadSignedBody_eq (encapsulatedKey : FixedBytes 32) (ciphertext : List UInt8) :
    reliablePayloadSignedBody encapsulatedKey ciphertext =
      seq fixedCode lenPrefixed (encapsulatedKey,ciphertext) := by
  simp only [reliablePayloadSignedBody,appendLenPrefixed_eq,seq,fixedCode,Option.bind_some]

/-! ### What each transcript determines -/

section Determines

variable {t : List UInt8}

theorem groupAad_injective {c₁ c₂ : GroupMessageContext} {h₁ h₂ : List UInt8}
    (e₁ : groupAad c₁ h₁ = some t) (e₂ : groupAad c₂ h₂ = some t) : c₁ = c₂ ∧ h₁ = h₂ := by
  rw [groupAad_eq] at e₁ e₂
  have h := (prefixFree_strCode.seq (prefixFree_fixedCode.seq (prefixFree_strCode.seq
    (prefixFree_memberCode.seq (prefixFree_fixedCode.seq prefixFree_lenPrefixed))))).injective e₁ e₂
  simp only [Prod.mk.injEq] at h
  obtain ⟨-,hg,hf,hs,hm,hh⟩ := h
  exact ⟨by cases c₁; cases c₂; simp_all,hh⟩

theorem groupNoncePreimage_injective {c₁ c₂ : GroupMessageContext}
    (e₁ : groupNoncePreimage c₁ = some t) (e₂ : groupNoncePreimage c₂ = some t) : c₁ = c₂ := by
  rw [groupNoncePreimage_eq] at e₁ e₂
  obtain ⟨x₁,hx₁,rfl⟩ := Option.map_eq_some_iff.1 e₁
  obtain ⟨x₂,hx₂,heq⟩ := Option.map_eq_some_iff.1 e₂
  -- the domain constant is the same for both, and what follows is one code
  rw [List.append_cancel_left heq] at hx₂
  have h := (prefixFree_fixedCode.seq (prefixFree_strCode.seq
    (prefixFree_memberCode.seq prefixFree_fixedCode))).injective hx₁ hx₂
  simp only [Prod.mk.injEq] at h
  cases c₁
  cases c₂
  simp_all

theorem signatureTranscript_injective {p₁ p₂ : SignedFrameParts}
    (e₁ : signatureTranscript p₁ = some t) (e₂ : signatureTranscript p₂ = some t) : p₁ = p₂ := by
  rw [signatureTranscript_eq] at e₁ e₂
  have h := (prefixFree_strCode.seq (prefixFree_strCode.seq
    (prefixFree_lenPrefixed.seq prefixFree_lenPrefixed))).injective e₁ e₂
  simp only [Prod.mk.injEq] at h
  cases p₁
  cases p₂
  simp_all

theorem reliablePayloadPublicHeader_injective {c₁ c₂ : ReliablePayloadContext}
    (e₁ : reliablePayloadPublicHeader c₁ = some t) (e₂ : reliablePayloadPublicHeader c₂ = some t) :
    c₁ = c₂ := by
  rw [reliablePayloadPublicHeader_eq] at e₁ e₂
  have h := (prefixFree_strCode.seq (prefixFree_strCode.seq (prefixFree_scopeCode.seq
    (prefixFree_memberCode.seq (prefixFree_memberCode.seq prefixFree_fixedCode))))).injective e₁ e₂
  simp only [Prod.mk.injEq] at h
  cases c₁
  cases c₂
  simp_all

/-- Everything but the metadata is one prefix code; the metadata, when present,
takes at least its eight length bytes, so its absence is seen too. -/
theorem transcriptBytes_injective {c₁ c₂ : HpkeContext} {d₁ d₂ : List UInt8}
    {m₁ m₂ : Option (List UInt8)} (e₁ : c₁.transcriptBytes d₁ m₁ = some t)
    (e₂ : c₂.transcriptBytes d₂ m₂ = some t) :
    d₁ = d₂ ∧ c₁.purpose = c₂.purpose ∧ c₁.scope = c₂.scope ∧ c₁.sender = c₂.sender ∧
      c₁.recipient = c₂.recipient ∧ c₁.deliveryMessageId = c₂.deliveryMessageId ∧ m₁ = m₂ := by
  rw [transcriptBytes_eq] at e₁ e₂
  obtain ⟨x₁,y₁,hx₁,hy₁,rfl⟩ := seq_eq_some.1 e₁
  obtain ⟨x₂,y₂,hx₂,hy₂,heq⟩ := seq_eq_some.1 e₂
  have hfields : PrefixFree hpkeFieldsCode := prefixFree_lenPrefixed.seq (prefixFree_purposeCode.seq
    (prefixFree_scopeCode.seq (prefixFree_memberCode.seq (prefixFree_memberCode.seq prefixFree_fixedCode))))
  obtain ⟨h,rfl⟩ := hfields hx₁ hx₂ heq
  have hne : ∀ value x, lenPrefixed value = some x → x ≠ [] := by
    intro value x hx
    obtain ⟨c,hc,rfl⟩ := Option.map_eq_some_iff.1 hx
    obtain ⟨-,rfl⟩ := bigEndian_eq_some.1 hc
    intro hnil
    have := congrArg List.length hnil
    simp at this
  have hm := prefixFree_lenPrefixed.orEmpty_injective hne hy₁ hy₂
  dsimp only at h
  injection h with hd h
  injection h with hp h
  injection h with hsc h
  injection h with hs h
  injection h with hr hid
  exact ⟨hd,hp,hsc,hs,hr,hid,hm⟩

theorem reliablePayloadSignedBody_injective {k₁ k₂ : FixedBytes 32} {b₁ b₂ : List UInt8}
    (e₁ : reliablePayloadSignedBody k₁ b₁ = some t) (e₂ : reliablePayloadSignedBody k₂ b₂ = some t) :
    k₁ = k₂ ∧ b₁ = b₂ := by
  rw [reliablePayloadSignedBody_eq] at e₁ e₂
  simpa using (prefixFree_fixedCode.seq prefixFree_lenPrefixed).injective e₁ e₂

end Determines

/-! ### Domain separation -/

/-- The byte strings that begin with a length-prefixed domain constant. -/
inductive DomainTranscript where
  | groupAad
  | reliablePayloadHeader
  | hpkeInfo
  | hpkeAad
  | signature
  | discoveryClaim
  deriving DecidableEq

namespace DomainTranscript

def domain : DomainTranscript → String
  | .groupAad => domainGroupAad
  | .reliablePayloadHeader => domainReliablePayloadHeader
  | .hpkeInfo => domainHpkeInfo
  | .hpkeAad => domainHpkeAad
  | .signature => domainSignature
  | .discoveryClaim => domainDiscoveryClaimPayloadSignature

/-- `t` is built as this kind of byte string, from some context. -/
def Builds : DomainTranscript → List UInt8 → Prop
  | .groupAad, t => ∃ context publicHeader, Security.groupAad context publicHeader = some t
  | .reliablePayloadHeader, t => ∃ context, reliablePayloadPublicHeader context = some t
  | .hpkeInfo, t => ∃ context : HpkeContext, context.infoBytes = some t
  | .hpkeAad, t => ∃ context : HpkeContext, context.aadBytes = some t
  | .signature, t => ∃ parts, signatureTranscript parts = some t
  | .discoveryClaim, t => ∃ payload, discoveryPayloadTranscript payload = some t

theorem domain_injective : Function.Injective domain := by
  intro a b
  cases a <;> cases b <;> decide

theorem exists_append_of_transcriptBytes {context : HpkeContext} {domain : String}
    {authenticatedPublicMetadata : Option (List UInt8)} {t : List UInt8}
    (h : context.transcriptBytes (utf8 domain) authenticatedPublicMetadata = some t) :
    ∃ x rest, strCode domain = some x ∧ t = x ++ rest := by
  rw [transcriptBytes_eq] at h
  obtain ⟨x,y,hx,-,rfl⟩ := seq_eq_some.1 h
  obtain ⟨x₁,x₂,hx₁,-,rfl⟩ := seq_eq_some.1 hx
  exact ⟨x₁,x₂ ++ y,hx₁,List.append_assoc _ _ _⟩

theorem Builds.exists_append {k : DomainTranscript} {t : List UInt8} (h : k.Builds t) :
    ∃ x rest, strCode k.domain = some x ∧ t = x ++ rest := by
  cases k with
  | groupAad =>
    obtain ⟨context,publicHeader,h⟩ := h
    rw [groupAad_eq] at h
    obtain ⟨x,y,hx,-,rfl⟩ := seq_eq_some.1 h
    exact ⟨x,y,hx,rfl⟩
  | reliablePayloadHeader =>
    obtain ⟨context,h⟩ := h
    rw [reliablePayloadPublicHeader_eq] at h
    obtain ⟨x,y,hx,-,rfl⟩ := seq_eq_some.1 h
    exact ⟨x,y,hx,rfl⟩
  | hpkeInfo =>
    obtain ⟨context,h⟩ := h
    exact exists_append_of_transcriptBytes h
  | hpkeAad =>
    obtain ⟨context,h⟩ := h
    exact exists_append_of_transcriptBytes h
  | signature =>
    obtain ⟨parts,h⟩ := h
    rw [signatureTranscript_eq] at h
    obtain ⟨x,y,hx,-,rfl⟩ := seq_eq_some.1 h
    exact ⟨x,y,hx,rfl⟩
  | discoveryClaim =>
    obtain ⟨payload,h⟩ := h
    rw [discoveryPayloadTranscript_eq] at h
    obtain ⟨x,y,hx,-,rfl⟩ := seq_eq_some.1 h
    exact ⟨x,y,hx,rfl⟩

theorem Builds.eq {k₁ k₂ : DomainTranscript} {t : List UInt8} (h₁ : k₁.Builds t) (h₂ : k₂.Builds t) :
    k₁ = k₂ := by
  obtain ⟨x₁,r₁,hx₁,rfl⟩ := h₁.exists_append
  obtain ⟨x₂,r₂,hx₂,heq⟩ := h₂.exists_append
  exact domain_injective (prefixFree_strCode hx₁ hx₂ heq).1

end DomainTranscript

/-! ### When a transcript panics -/

/-- At most 255 segments, each shorter than `2^64` bytes. -/
def MemberIdentity.Encodable (member : MemberIdentity) : Prop :=
  member.segments.length ≤ 255 ∧ ∀ segment ∈ member.segments, (utf8 segment).length < 2 ^ 64

theorem length_utf8 (s : String) : (utf8 s).length = s.toUTF8.size := by
  simp [utf8]

theorem isSome_lenPrefixed {value : List UInt8} : (lenPrefixed value).isSome ↔ value.length < 2 ^ 64 := by
  have h : (256 : ℕ) ^ 8 = 2 ^ 64 := by norm_num
  simp [lenPrefixed,lengthPrefixed,bigEndian,h]

theorem isSome_memberCode {member : MemberIdentity} : (memberCode member).isSome ↔ member.Encodable := by
  rw [memberCode,isSome_counted]
  simp [bigEndian,strCode,isSome_lenPrefixed,MemberIdentity.Encodable,Nat.lt_succ_iff]

theorem DomainTranscript.length_utf8_domain (k : DomainTranscript) : (utf8 k.domain).length < 2 ^ 64 := by
  rw [length_utf8]
  cases k <;> decide

theorem isSome_groupAad {context : GroupMessageContext} {publicHeader : List UInt8} :
    (groupAad context publicHeader).isSome ↔ (utf8 context.frameKind).length < 2 ^ 64 ∧
      context.sender.Encodable ∧ publicHeader.length < 2 ^ 64 := by
  have hd := DomainTranscript.length_utf8_domain .groupAad
  simp only [DomainTranscript.domain,Nat.reducePow] at hd
  simp [groupAad_eq,isSome_seq,strCode,fixedCode,isSome_lenPrefixed,isSome_memberCode,hd]

theorem isSome_groupNoncePreimage {context : GroupMessageContext} :
    (groupNoncePreimage context).isSome ↔ (utf8 context.frameKind).length < 2 ^ 64 ∧
      context.sender.Encodable := by
  simp [groupNoncePreimage_eq,isSome_seq,strCode,fixedCode,isSome_lenPrefixed,isSome_memberCode]

theorem isSome_signatureTranscript {parts : SignedFrameParts} :
    (signatureTranscript parts).isSome ↔ (utf8 parts.frameKind).length < 2 ^ 64 ∧
      parts.publicHeader.length < 2 ^ 64 ∧ parts.ciphertext.length < 2 ^ 64 := by
  have hd := DomainTranscript.length_utf8_domain .signature
  simp only [DomainTranscript.domain,Nat.reducePow] at hd
  simp [signatureTranscript_eq,isSome_seq,strCode,isSome_lenPrefixed,hd]

theorem isSome_scopeCode (scope : HpkeEnvelopeScope) : (scopeCode scope).isSome := by
  cases scope <;> simp [scopeCode_eq,isSome_seq,strCode,fixedCode,isSome_lenPrefixed,length_utf8] <;>
    decide

theorem isSome_purposeCode (purpose : HpkeEnvelopePurpose) : (purposeCode purpose).isSome := by
  cases purpose
  simp only [purposeCode,strCode,isSome_lenPrefixed,length_utf8]
  decide

theorem isSome_reliablePayloadPublicHeader {context : ReliablePayloadContext} :
    (reliablePayloadPublicHeader context).isSome ↔ (utf8 context.frameKind).length < 2 ^ 64 ∧
      context.sender.Encodable ∧ context.recipient.Encodable := by
  have hd := DomainTranscript.length_utf8_domain .reliablePayloadHeader
  simp only [DomainTranscript.domain,Nat.reducePow] at hd
  simp [reliablePayloadPublicHeader_eq,isSome_seq,strCode,fixedCode,isSome_lenPrefixed,
    isSome_memberCode,hd,isSome_scopeCode]

theorem isSome_discoveryPayloadTranscript {payload : List UInt8} :
    (discoveryPayloadTranscript payload).isSome ↔ payload.length < 2 ^ 64 := by
  have hd := DomainTranscript.length_utf8_domain .discoveryClaim
  simp only [DomainTranscript.domain,Nat.reducePow] at hd
  simp [discoveryPayloadTranscript_eq,isSome_seq,strCode,isSome_lenPrefixed,hd]

namespace HpkeContext

variable {self : HpkeContext}

theorem isSome_transcriptBytes {domain : List UInt8} {authenticatedPublicMetadata : Option (List UInt8)} :
    (self.transcriptBytes domain authenticatedPublicMetadata).isSome ↔ domain.length < 2 ^ 64 ∧
      self.sender.Encodable ∧ self.recipient.Encodable ∧
      ∀ metadata ∈ authenticatedPublicMetadata, metadata.length < 2 ^ 64 := by
  cases authenticatedPublicMetadata <;>
    simp [transcriptBytes_eq,hpkeFieldsCode,isSome_seq,fixedCode,orEmpty,isSome_lenPrefixed,
      isSome_memberCode,isSome_scopeCode,isSome_purposeCode,and_assoc]

theorem isSome_infoBytes : self.infoBytes.isSome ↔ self.sender.Encodable ∧ self.recipient.Encodable := by
  have hd := DomainTranscript.length_utf8_domain .hpkeInfo
  simp only [DomainTranscript.domain,Nat.reducePow] at hd
  simp [infoBytes,isSome_transcriptBytes,hd]

theorem isSome_aadBytes : self.aadBytes.isSome ↔ self.sender.Encodable ∧ self.recipient.Encodable ∧
    self.authenticatedPublicMetadata.length < 2 ^ 64 := by
  have hd := DomainTranscript.length_utf8_domain .hpkeAad
  simp only [DomainTranscript.domain,Nat.reducePow] at hd
  simp [aadBytes,isSome_transcriptBytes,hd]

end HpkeContext

theorem transcripts_determine_their_inputs :
    (∀ {c₁ c₂ : GroupMessageContext} {h₁ h₂ t : List UInt8},
        groupAad c₁ h₁ = some t → groupAad c₂ h₂ = some t → c₁ = c₂ ∧ h₁ = h₂) ∧
      (∀ {c₁ c₂ : GroupMessageContext} {t : List UInt8},
        groupNoncePreimage c₁ = some t → groupNoncePreimage c₂ = some t → c₁ = c₂) ∧
      (∀ {p₁ p₂ : SignedFrameParts} {t : List UInt8},
        signatureTranscript p₁ = some t → signatureTranscript p₂ = some t → p₁ = p₂) ∧
      (∀ {c₁ c₂ : ReliablePayloadContext} {t : List UInt8},
        reliablePayloadPublicHeader c₁ = some t → reliablePayloadPublicHeader c₂ = some t → c₁ = c₂) ∧
      (∀ {c₁ c₂ : HpkeContext} {d₁ d₂ : List UInt8} {m₁ m₂ : Option (List UInt8)} {t : List UInt8},
        c₁.transcriptBytes d₁ m₁ = some t → c₂.transcriptBytes d₂ m₂ = some t →
          d₁ = d₂ ∧ c₁.purpose = c₂.purpose ∧ c₁.scope = c₂.scope ∧ c₁.sender = c₂.sender ∧
            c₁.recipient = c₂.recipient ∧ c₁.deliveryMessageId = c₂.deliveryMessageId ∧ m₁ = m₂) ∧
      (∀ {k₁ k₂ : FixedBytes 32} {b₁ b₂ t : List UInt8},
        reliablePayloadSignedBody k₁ b₁ = some t → reliablePayloadSignedBody k₂ b₂ = some t →
          k₁ = k₂ ∧ b₁ = b₂) ∧
      (∀ {k₁ k₂ : DomainTranscript} {t : List UInt8}, k₁.Builds t → k₂.Builds t → k₁ = k₂) :=
  ⟨groupAad_injective,groupNoncePreimage_injective,signatureTranscript_injective,
    reliablePayloadPublicHeader_injective,transcriptBytes_injective,
    reliablePayloadSignedBody_injective,DomainTranscript.Builds.eq⟩

theorem isSome_reliablePayloadSignedBody {encapsulatedKey : FixedBytes 32} {ciphertext : List UInt8} :
    (reliablePayloadSignedBody encapsulatedKey ciphertext).isSome ↔ ciphertext.length < 2 ^ 64 := by
  simp [reliablePayloadSignedBody_eq,isSome_seq,fixedCode,isSome_lenPrefixed]

end Flotsync.Security
