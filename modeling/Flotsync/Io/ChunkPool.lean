import Mathlib

/-!
The chunk allocator under the ingress and egress pools of `flotsync_io` (`pool/mod.rs`):
`IoPoolConfig` with its validation, and `ChunkPoolState`, a FIFO queue of free chunks with a
count of every chunk alive. A chunk is its bytes; its length is its capacity.

`Accounts s held` says that the pool's count is its free chunks plus `held` chunks out in
handles, within `max_chunk_count`. Each operation moves chunks between the queue and the
handles and keeps that account; `reservableChunkCount` is then `max_chunk_count - held`.
-/

set_option autoImplicit false

namespace Flotsync.Io

abbrev PooledChunk := List UInt8

structure IoPoolConfig where
  chunkSize : ℕ
  initialChunkCount : ℕ
  maxChunkCount : ℕ
  encodeBufMinFreeSpace : ℕ
  deriving DecidableEq, Repr

structure IoBufferConfig where
  ingress : IoPoolConfig
  egress : IoPoolConfig
  deriving DecidableEq, Repr

/-- The variants of `errors::Error` that the pools return. -/
inductive Error where
  | invalidIoPoolConfig (details : String)
  | invalidIngressCommitLength (writtenBytes chunkCapacity : ℕ)
  | invalidEgressReservationSize (requestedBytes : ℕ)
  | egressReservationTooLarge (requestedBytes maxBytes : ℕ)
  | egressLiveChunkAdoptionExhausted (chunkCount maxChunkCount : ℕ)
  | sharedIoPayloadOwnership
  | emptyIoLease
  | egressReservationOverflow (reservedBytes attemptedBytes : ℕ)
  deriving DecidableEq, Repr

namespace IoPoolConfig

def validate (self : IoPoolConfig) : Except Error Unit :=
  let chunkSize := self.chunkSize
  let initialChunkCount := self.initialChunkCount
  let maxChunkCount := self.maxChunkCount
  let encodeBufMinFreeSpace := self.encodeBufMinFreeSpace
  if initialChunkCount > maxChunkCount then
    .error (.invalidIoPoolConfig
      s!"initial_chunk_count ({initialChunkCount}) may not exceed max_chunk_count ({maxChunkCount})")
  else if chunkSize ≤ encodeBufMinFreeSpace then
    .error (.invalidIoPoolConfig
      s!"chunk_size ({chunkSize}) must be greater than encode_buf_min_free_space ({encodeBufMinFreeSpace})")
  else if chunkSize < 128 then
    .error (.invalidIoPoolConfig s!"chunk_size ({chunkSize}) must be at least 128")
  else if maxChunkCount < 2 then
    .error (.invalidIoPoolConfig s!"max_chunk_count ({maxChunkCount}) must be at least 2")
  else .ok ()

def totalCapacityBytes (self : IoPoolConfig) : ℕ := self.chunkSize * self.maxChunkCount

/-- What `validate` accepts. -/
structure Valid (config : IoPoolConfig) : Prop where
  initial_le : config.initialChunkCount ≤ config.maxChunkCount
  free_space_lt : config.encodeBufMinFreeSpace < config.chunkSize
  chunk_size_ge : 128 ≤ config.chunkSize
  max_ge : 2 ≤ config.maxChunkCount

theorem validate_eq_ok {self : IoPoolConfig} : self.validate = .ok () ↔ self.Valid := by
  simp only [validate]
  constructor
  · intro h
    split_ifs at h with h₁ h₂ h₃ h₄
    exact ⟨by omega,by omega,by omega,by omega⟩
  · rintro ⟨h₁,h₂,h₃,h₄⟩
    rw [if_neg (by omega),if_neg (by omega),if_neg (by omega),if_neg (by omega)]

end IoPoolConfig

def IoBufferConfig.validate (self : IoBufferConfig) : Except Error Unit := do
  self.ingress.validate
  self.egress.validate

theorem IoBufferConfig.validate_eq_ok {self : IoBufferConfig} :
    self.validate = .ok () ↔ self.ingress.Valid ∧ self.egress.Valid := by
  rw [← IoPoolConfig.validate_eq_ok,← IoPoolConfig.validate_eq_ok]
  simp only [validate]
  cases self.ingress.validate <;> cases self.egress.validate <;> simp [bind,Except.bind]

def newChunk (size : ℕ) : PooledChunk := List.replicate size 0

/-- `usize::div_ceil`; its panic at a zero chunk size is excluded by `validate`. -/
def chunksForBytes (requestedBytes chunkSize : ℕ) : ℕ := (requestedBytes + chunkSize - 1) / chunkSize

structure ChunkPoolState where
  config : IoPoolConfig
  available : List PooledChunk
  allocated : ℕ
  deriving DecidableEq, Repr

namespace ChunkPoolState

def new (config : IoPoolConfig) : ChunkPoolState :=
  ⟨config,List.replicate config.initialChunkCount (newChunk config.chunkSize),config.initialChunkCount⟩

def reserveOne (self : ChunkPoolState) : Option PooledChunk × ChunkPoolState :=
  match self.available with
  | chunk :: rest => (some chunk,{ self with available := rest })
  | [] =>
    if self.allocated < self.config.maxChunkCount then
      (some (newChunk self.config.chunkSize),{ self with allocated := self.allocated + 1 })
    else (none,self)

/-- Free chunks plus the chunks that may still be allocated. The subtraction does not
underflow on an accounted pool (`Accounts.allocated_le`). -/
def reservableChunkCount (self : ChunkPoolState) : ℕ :=
  self.available.length + (self.config.maxChunkCount - self.allocated)

def canReserveChunks (self : ChunkPoolState) (chunkCount : ℕ) : Bool :=
  chunkCount ≤ self.reservableChunkCount

/-- The loop of `reserve_chunks`: one `reserve_one` per chunk, returning early with `None`. -/
def reserveChunksLoop : ℕ → List PooledChunk → ChunkPoolState → Option (List PooledChunk) × ChunkPoolState
  | 0, chunks, self => (some chunks,self)
  | n + 1, chunks, self =>
    match self.reserveOne with
    | (none,self) => (none,self)
    | (some chunk,self) => reserveChunksLoop n (chunks ++ [chunk]) self

def reserveChunks (self : ChunkPoolState) (chunkCount : ℕ) : Option (List PooledChunk) × ChunkPoolState :=
  if !self.canReserveChunks chunkCount then (none,self) else reserveChunksLoop chunkCount [] self

def returnChunks (self : ChunkPoolState) (chunks : List PooledChunk) : ChunkPoolState :=
  { self with available := self.available ++ chunks }

def canImportLiveChunks (self : ChunkPoolState) (chunkCount : ℕ) : Bool :=
  self.allocated + chunkCount ≤ self.config.maxChunkCount

def importLiveChunks (self : ChunkPoolState) (chunkCount : ℕ) : Bool × ChunkPoolState :=
  if !self.canImportLiveChunks chunkCount then (false,self)
  else (true,{ self with allocated := self.allocated + chunkCount })

/-- `none` is the panic of the assertion that the released chunks are live. -/
def releaseLiveChunks (self : ChunkPoolState) (chunkCount : ℕ) : Option ChunkPoolState :=
  let liveChunks := self.allocated - self.available.length
  if chunkCount ≤ liveChunks then some { self with allocated := self.allocated - chunkCount } else none

@[simp] theorem config_returnChunks (self : ChunkPoolState) (chunks : List PooledChunk) :
    (self.returnChunks chunks).config = self.config := rfl

@[simp] theorem available_returnChunks (self : ChunkPoolState) (chunks : List PooledChunk) :
    (self.returnChunks chunks).available = self.available ++ chunks := rfl

@[simp] theorem allocated_returnChunks (self : ChunkPoolState) (chunks : List PooledChunk) :
    (self.returnChunks chunks).allocated = self.allocated := rfl

theorem config_reserveOne (self : ChunkPoolState) : self.reserveOne.2.config = self.config := by
  unfold reserveOne
  split
  · rfl
  · split_ifs <;> rfl

theorem config_reserveChunksLoop (n : ℕ) (chunks : List PooledChunk) (self : ChunkPoolState) :
    (reserveChunksLoop n chunks self).2.config = self.config := by
  induction n generalizing chunks self with
  | zero => rfl
  | succ n ih =>
    have := config_reserveOne self
    unfold reserveChunksLoop
    split <;> simp_all

@[simp] theorem config_reserveChunks (self : ChunkPoolState) (n : ℕ) :
    (self.reserveChunks n).2.config = self.config := by
  unfold reserveChunks
  split_ifs
  · rfl
  · exact config_reserveChunksLoop _ _ _

@[simp] theorem config_importLiveChunks (self : ChunkPoolState) (n : ℕ) :
    (self.importLiveChunks n).2.config = self.config := by
  unfold importLiveChunks
  split_ifs <;> rfl

theorem config_releaseLiveChunks {self s' : ChunkPoolState} {n : ℕ}
    (h : self.releaseLiveChunks n = some s') : s'.config = self.config := by
  simp only [releaseLiveChunks] at h
  split_ifs at h
  cases h
  rfl

/-! ### The account of chunks -/

/-- `allocated` counts the free chunks and `held` chunks out in handles, within the bound. -/
structure Accounts (pool : ChunkPoolState) (held : ℕ) : Prop where
  allocated_eq : pool.allocated = pool.available.length + held
  allocated_le : pool.allocated ≤ pool.config.maxChunkCount

variable {s s' : ChunkPoolState} {held n : ℕ}

theorem accounts_new {config : IoPoolConfig} (h : config.initialChunkCount ≤ config.maxChunkCount) :
    (new config).Accounts 0 :=
  ⟨by simp [new],h⟩

theorem Accounts.reservableChunkCount_add (h : s.Accounts held) :
    s.reservableChunkCount + held = s.config.maxChunkCount := by
  have := h.allocated_eq
  have := h.allocated_le
  simp only [reservableChunkCount]
  omega

/-- With nothing out in handles, everything is reservable again. -/
theorem Accounts.reservableChunkCount_eq (h : s.Accounts 0) :
    s.reservableChunkCount = s.config.maxChunkCount :=
  h.reservableChunkCount_add

/-- `reserve_one` hands out one chunk exactly when one is reservable. -/
theorem Accounts.reserveOne (h : s.Accounts held) :
    (0 < s.reservableChunkCount → ∃ chunk, s.reserveOne.1 = some chunk ∧
      s.reserveOne.2.Accounts (held + 1) ∧ s.reserveOne.2.reservableChunkCount + 1 = s.reservableChunkCount) ∧
    (s.reservableChunkCount = 0 → s.reserveOne = (none,s)) := by
  obtain ⟨heq,hle⟩ := h
  rcases s with ⟨config,_ | ⟨chunk,rest⟩,allocated⟩
  · -- an empty queue: a fresh chunk while the count is below the bound
    simp only [ChunkPoolState.reserveOne,reservableChunkCount,List.length_nil] at heq hle ⊢
    split_ifs with hlt
    · exact ⟨fun _ => ⟨_,rfl,⟨by simp only [List.length_nil]; omega,hlt⟩,by simp only [List.length_nil]; omega⟩,
        by omega⟩
    · exact ⟨by omega,fun _ => rfl⟩
  · simp only [ChunkPoolState.reserveOne,reservableChunkCount,List.length_cons] at heq hle ⊢
    exact ⟨fun _ => ⟨_,rfl,⟨by simp only; omega,hle⟩,by omega⟩,by omega⟩

/-- The loop hands out `n` chunks when `n` are reservable. -/
theorem Accounts.reserveChunksLoop (h : s.Accounts held) (chunks : List PooledChunk)
    (hn : n ≤ s.reservableChunkCount) :
    ∃ more s', ChunkPoolState.reserveChunksLoop n chunks s = (some (chunks ++ more),s') ∧
      more.length = n ∧ s'.Accounts (held + n) ∧ s'.config = s.config := by
  induction n generalizing s held chunks with
  | zero => exact ⟨[],s,by simp [ChunkPoolState.reserveChunksLoop],rfl,h,rfl⟩
  | succ n ih =>
    obtain ⟨chunk,hc,ha,hr⟩ := h.reserveOne.1 (by omega)
    obtain ⟨more,s',hloop,hlen,ha',hcfg⟩ := ih ha (chunks ++ [chunk]) (by omega)
    refine ⟨chunk :: more,s',?_,by simp [hlen],by rwa [Nat.add_right_comm held 1 n] at ha',
      hcfg.trans (config_reserveOne s)⟩
    rw [ChunkPoolState.reserveChunksLoop]
    rcases hs : s.reserveOne with ⟨_ | c,s₁⟩
    · simp [hs] at hc
    · simp only [hs,Option.some.injEq] at hc hloop
      subst hc
      simpa using hloop

/-- `reserve_chunks` grants exactly when enough chunks are reservable, and its `expect` on
each `reserve_one` never fails. -/
theorem Accounts.reserveChunks (h : s.Accounts held) :
    (n ≤ s.reservableChunkCount → ∃ chunks s', s.reserveChunks n = (some chunks,s') ∧
      chunks.length = n ∧ s'.Accounts (held + n)) ∧
    (s.reservableChunkCount < n → s.reserveChunks n = (none,s)) := by
  constructor
  · intro hn
    obtain ⟨more,s',hloop,hlen,ha,-⟩ := h.reserveChunksLoop [] hn
    refine ⟨more,s',?_,hlen,ha⟩
    simpa [ChunkPoolState.reserveChunks,canReserveChunks,hn] using hloop
  · intro hn
    simp [ChunkPoolState.reserveChunks,canReserveChunks,hn]

theorem Accounts.returnChunks {chunks : List PooledChunk} (h : s.Accounts (held + chunks.length)) :
    (s.returnChunks chunks).Accounts held :=
  ⟨by simp [h.allocated_eq]; omega,h.allocated_le⟩

theorem Accounts.importLiveChunks (h : s.Accounts held) :
    (s.allocated + n ≤ s.config.maxChunkCount →
      s.importLiveChunks n = (true,{ s with allocated := s.allocated + n }) ∧
        ({ s with allocated := s.allocated + n } : ChunkPoolState).Accounts (held + n)) ∧
    (s.config.maxChunkCount < s.allocated + n → s.importLiveChunks n = (false,s)) := by
  constructor
  · intro hn
    exact ⟨by simp [ChunkPoolState.importLiveChunks,canImportLiveChunks,hn],
      ⟨by simp [h.allocated_eq]; omega,hn⟩⟩
  · intro hn
    simp [ChunkPoolState.importLiveChunks,canImportLiveChunks,not_le.2 hn]

/-- Releasing chunks that handles hold never trips the assertion. -/
theorem Accounts.releaseLiveChunks (h : s.Accounts (held + n)) :
    ∃ s', s.releaseLiveChunks n = some s' ∧ s'.Accounts held ∧ s'.config = s.config ∧
      s'.available = s.available := by
  have heq := h.allocated_eq
  have hle := h.allocated_le
  refine ⟨{ s with allocated := s.allocated - n },?_,⟨?_,?_⟩,rfl,rfl⟩
  · rw [ChunkPoolState.releaseLiveChunks,if_pos (by omega)]
  all_goals simp only; omega

end ChunkPoolState

end Flotsync.Io
