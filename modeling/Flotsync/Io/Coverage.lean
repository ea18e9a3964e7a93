import Flotsync.Io.Pools

/-!
Chunk lengths. An exact egress reservation of `n` bytes takes `⌈n / chunk_size⌉` chunks, counted
with the egress chunk size, and holds its bytes when none of them is shorter. Adopted ingress
chunks join the egress pool, so that bound on every chunk in the pools and in the handles holds
over every run when the ingress chunk size is at least the egress one. Then no call panics, even
with debug assertions, and `copy_bytes` never cuts the bytes short.
-/

set_option autoImplicit false

namespace Flotsync.Io

open List

/-- No chunk is shorter than `m` bytes. -/
def AtLeast (m : ℕ) (chunks : List PooledChunk) : Prop := ∀ chunk ∈ chunks, m ≤ chunk.length

section AtLeast

variable {m : ℕ} {chunks chunks' : List PooledChunk}

@[simp] theorem atLeast_nil : AtLeast m [] := fun _ h => absurd h not_mem_nil

@[simp] theorem atLeast_cons {chunk : PooledChunk} :
    AtLeast m (chunk :: chunks) ↔ m ≤ chunk.length ∧ AtLeast m chunks :=
  forall_mem_cons

@[simp] theorem atLeast_append : AtLeast m (chunks ++ chunks') ↔ AtLeast m chunks ∧ AtLeast m chunks' :=
  forall_mem_append

/-- The bound passes to chunks of the same lengths. -/
theorem AtLeast.of_map_length (h : AtLeast m chunks) (hl : chunks'.map List.length = chunks.map List.length) :
    AtLeast m chunks' := by
  intro chunk hc
  obtain ⟨c,hc',heq⟩ := mem_map.1 (hl ▸ mem_map_of_mem hc)
  exact heq ▸ h c hc'

theorem AtLeast.set (h : AtLeast m chunks) {i : ℕ} {chunk : PooledChunk} (hc : m ≤ chunk.length) :
    AtLeast m (chunks.set i chunk) := by
  intro c hc'
  rcases mem_or_eq_of_mem_set hc' with hc' | rfl
  · exact h c hc'
  · exact hc

theorem AtLeast.eraseIdx (h : AtLeast m chunks) (i : ℕ) : AtLeast m (chunks.eraseIdx i) :=
  fun c hc => h c (mem_of_mem_eraseIdx hc)

/-- Chunks of at least `m` bytes each hold `m` bytes per chunk. -/
theorem AtLeast.length_mul_le (h : AtLeast m chunks) : chunks.length * m ≤ capacity chunks := by
  induction chunks with
  | nil => simp
  | cons chunk chunks ih =>
    obtain ⟨hc,hrest⟩ := atLeast_cons.1 h
    have := ih hrest
    rw [length_cons,capacity_cons,Nat.succ_mul]
    omega

end AtLeast

/-- `div_ceil` rounds up: the chunks cover the bytes. -/
theorem le_chunksForBytes_mul {requestedBytes chunkSize : ℕ} (hc : 0 < chunkSize) :
    requestedBytes ≤ chunksForBytes requestedBytes chunkSize * chunkSize := by
  have h₁ := Nat.div_add_mod (requestedBytes + chunkSize - 1) chunkSize
  have h₂ := Nat.mod_lt (requestedBytes + chunkSize - 1) hc
  simp only [chunksForBytes]
  rw [Nat.mul_comm]
  omega

/-! ### One pool -/

namespace ChunkPoolState

/-- The pool allocates chunks of at least `m` bytes and holds no shorter free one. -/
structure Sized (pool : ChunkPoolState) (m : ℕ) : Prop where
  le_chunkSize : m ≤ pool.config.chunkSize
  available : AtLeast m pool.available

variable {s s' : ChunkPoolState} {m : ℕ}

theorem sized_new {config : IoPoolConfig} (h : m ≤ config.chunkSize) : (new config).Sized m := by
  refine ⟨h,fun chunk hc => ?_⟩
  simp only [new] at hc
  rw [eq_of_mem_replicate hc,newChunk,length_replicate]
  exact h

theorem Sized.reserveOne (h : s.Sized m) :
    (∀ chunk, s.reserveOne.1 = some chunk → m ≤ chunk.length) ∧ s.reserveOne.2.Sized m := by
  unfold ChunkPoolState.reserveOne
  split
  · rename_i chunk rest hav
    have ha := h.available
    rw [hav,atLeast_cons] at ha
    exact ⟨fun c hc => Option.some.inj hc ▸ ha.1,⟨h.le_chunkSize,ha.2⟩⟩
  · split_ifs
    · -- a new chunk has the pool's chunk size
      refine ⟨fun c hc => ?_,⟨h.le_chunkSize,h.available⟩⟩
      rw [← Option.some.inj hc,newChunk,length_replicate]
      exact h.le_chunkSize
    · exact ⟨fun c hc => by simp at hc,h⟩

/-- The reserved chunks, appended to `chunks`, are as long, and `n` more of them. -/
theorem Sized.reserveChunksLoop (n : ℕ) {chunks : List PooledChunk} (h : s.Sized m) (hc : AtLeast m chunks) :
    (∀ cs, (reserveChunksLoop n chunks s).1 = some cs → AtLeast m cs ∧ cs.length = chunks.length + n) ∧
      (reserveChunksLoop n chunks s).2.Sized m := by
  induction n generalizing chunks s with
  | zero => exact ⟨fun cs hcs => by cases hcs; exact ⟨hc,rfl⟩,h⟩
  | succ n ih =>
    obtain ⟨hone,hs⟩ := h.reserveOne
    unfold ChunkPoolState.reserveChunksLoop
    split
    · rename_i s₁ hr
      rw [hr] at hs
      exact ⟨fun cs hcs => by simp at hcs,hs⟩
    · rename_i chunk s₁ hr
      rw [hr] at hone hs
      obtain ⟨hl,hs'⟩ := ih hs (atLeast_append.2 ⟨hc,atLeast_cons.2 ⟨hone chunk rfl,atLeast_nil⟩⟩)
      refine ⟨fun cs hcs => ?_,hs'⟩
      obtain ⟨ha,hlen⟩ := hl cs hcs
      exact ⟨ha,by rw [hlen,length_append,length_singleton]; omega⟩

theorem Sized.reserveChunks (h : s.Sized m) (n : ℕ) :
    (∀ cs, (s.reserveChunks n).1 = some cs → AtLeast m cs ∧ cs.length = n) ∧ (s.reserveChunks n).2.Sized m := by
  unfold ChunkPoolState.reserveChunks
  split_ifs
  · exact ⟨fun cs hcs => by simp at hcs,h⟩
  · obtain ⟨hl,hs⟩ := h.reserveChunksLoop n atLeast_nil
    exact ⟨fun cs hcs => by simpa using hl cs hcs,hs⟩

theorem Sized.returnChunks (h : s.Sized m) {chunks : List PooledChunk} (hc : AtLeast m chunks) :
    (s.returnChunks chunks).Sized m :=
  ⟨h.le_chunkSize,atLeast_append.2 ⟨h.available,hc⟩⟩

theorem Sized.importLiveChunks (h : s.Sized m) (n : ℕ) : (s.importLiveChunks n).2.Sized m := by
  unfold ChunkPoolState.importLiveChunks
  split_ifs
  · exact h
  · exact ⟨h.le_chunkSize,h.available⟩

theorem Sized.releaseLiveChunks (h : s.Sized m) {n : ℕ} (hr : s.releaseLiveChunks n = some s') : s'.Sized m := by
  simp only [ChunkPoolState.releaseLiveChunks] at hr
  split_ifs at hr
  cases hr
  exact ⟨h.le_chunkSize,h.available⟩

end ChunkPoolState

/-! ### Reservations -/

namespace EgressReservation

/-- The reservation's chunks are at least `m` bytes long and hold the bytes it was made for. -/
structure Covered (r : EgressReservation) (m : ℕ) : Prop where
  chunks : AtLeast m r.chunks
  reserved_le : r.reservedBytes ≤ capacity r.chunks

variable {debugAssertions : Bool} {self : EgressReservation} {bytes : List UInt8} {m : ℕ}

/-- On a covered reservation the debug assertion of `copy_bytes` never fires: both builds copy
alike. -/
theorem Covered.copyBytes_eq (h : self.Covered m) :
    self.copyBytes debugAssertions bytes = self.copyBytes false bytes := by
  unfold copyBytes
  by_cases hempty : bytes.isEmpty
  · simp only [hempty,if_true]
  by_cases hover : bytes.length > self.reservedBytes
  · simp only [hempty,hover,Bool.false_eq_true,if_true,if_false]
  -- within the reservation nothing is left over
  have hleft : (copyBytesIntoChunks self.chunks bytes).2 = [] := by
    rw [(copyBytesIntoChunks_spec self.chunks bytes).2.1]
    exact drop_of_length_le ((not_lt.1 hover).trans h.reserved_le)
  simp [hempty,hover,hleft]

/-- A covered reservation takes any bytes up to its size whole, in both builds. -/
theorem Covered.copyBytes_eq_ok (h : self.Covered m) (hm : 0 < m) (hne : bytes ≠ [])
    (hle : bytes.length ≤ self.reservedBytes) :
    ∃ lease unused, self.copyBytes debugAssertions bytes = some (.ok lease,unused) ∧ lease.Valid ∧
      lease.toVec = some bytes := by
  have hcap := hle.trans h.reserved_le
  obtain ⟨lease,unused,hc,hv,hvec⟩ := @EgressReservation.copyBytes_eq_ok debugAssertions _ _ hne hle
    (fun chunk hc => lt_of_lt_of_le hm (h.chunks chunk hc)) (.inr hcap)
  exact ⟨lease,unused,hc,hv,by rw [hvec,take_of_length_le hcap]⟩

/-- The chunks of the lease and those handed back are the reservation's, with their lengths. -/
theorem copyBytes_atLeast (h : AtLeast m self.chunks) {result : Except Error IoLease} {back : List PooledChunk}
    (hc : self.copyBytes debugAssertions bytes = some (result,back)) :
    AtLeast m back ∧ ∀ lease, result = .ok lease → AtLeast m (lease.payload.segments.map (·.chunk)) := by
  simp only [copyBytes] at hc
  split_ifs at hc
  · simp only [Option.some.injEq,Prod.mk.injEq] at hc
    obtain ⟨rfl,rfl⟩ := hc
    exact ⟨h,fun lease hl => by cases hl⟩
  · simp only [Option.some.injEq,Prod.mk.injEq] at hc
    obtain ⟨rfl,rfl⟩ := hc
    exact ⟨h,fun lease hl => by cases hl⟩
  · simp only [Option.some.injEq,Prod.mk.injEq] at hc
    obtain ⟨rfl,rfl⟩ := hc
    -- the copy keeps the chunks' lengths, and the split cuts it in two
    have hcopy : AtLeast m (copyBytesIntoChunks self.chunks bytes).1 :=
      h.of_map_length (copyBytesIntoChunks_spec self.chunks bytes).1
    rw [← (splitChunksByWrittenPrefix_spec (copyBytesIntoChunks self.chunks bytes).1 bytes.length).1,
      atLeast_append] at hcopy
    exact ⟨hcopy.2,fun lease hl => by cases hl; exact hcopy.1⟩

end EgressReservation

/-! ### Dispatch -/

namespace EgressPoolState

variable {chunks chunks' : ChunkPoolState} {m n : ℕ}

/-- A served waiter's bytes fit in its `n` chunks of the pool's chunk size. -/
theorem reservedBytes_le {kind : EgressWaiterKind} (hpos : 0 < chunks.config.chunkSize)
    (hk : waiterChunkCount chunks kind = some n) (hcfg : chunks'.config = chunks.config) :
    reservedBytes chunks' n kind ≤ n * chunks.config.chunkSize := by
  cases kind with
  | exact requestedBytes =>
    simp only [waiterChunkCount] at hk
    cases hc : chunks.canReserveChunks (chunksForBytes requestedBytes chunks.config.chunkSize) <;>
      simp only [hc,Bool.not_true,Bool.not_false,Bool.false_eq_true,if_false,if_true,reduceCtorEq,
        Option.some.injEq] at hk
    subst hk
    exact le_chunksForBytes_mul hpos
  | upTo preferredBytes => simp only [reservedBytes,hcfg,le_refl]

/-- On a pool whose chunks are at least its chunk size `m`, dispatch hands out covered
reservations and keeps the pool so. -/
theorem dispatchLoop_covered {waiters waiters' : List EgressWaiter} {ready : List (ℕ × EgressReservation)}
    (h : chunks.Sized m) (hm : chunks.config.chunkSize = m) (hpos : 0 < m)
    (hd : dispatchLoop chunks waiters = some (ready,waiters',chunks')) :
    (∀ x ∈ ready, x.2.Covered m) ∧ chunks'.Sized m ∧ chunks'.config = chunks.config := by
  induction waiters generalizing chunks ready with
  | nil =>
    simp only [dispatchLoop,Option.some.injEq,Prod.mk.injEq] at hd
    obtain ⟨rfl,-,rfl⟩ := hd
    exact ⟨by simp,h,rfl⟩
  | cons waiter waiters ih =>
    simp only [dispatchLoop] at hd
    split at hd
    · simp only [Option.some.injEq,Prod.mk.injEq] at hd
      obtain ⟨rfl,-,rfl⟩ := hd
      exact ⟨by simp,h,rfl⟩
    · rename_i n hk
      obtain ⟨hres,hs⟩ := h.reserveChunks n
      have hcfg := ChunkPoolState.config_reserveChunks chunks n
      split at hd
      · cases hd
      · rename_i reserved chunks₁ hr
        rw [hr] at hres hs hcfg
        dsimp only at hres hs hcfg
        obtain ⟨hat,hlen⟩ := hres reserved rfl
        obtain ⟨⟨r,w,c⟩,hrest,heq⟩ := Option.map_eq_some_iff.1 hd
        simp only [Prod.mk.injEq] at heq
        obtain ⟨rfl,rfl,rfl⟩ := heq
        obtain ⟨hready,hs',hcfg'⟩ := ih hs (hcfg.symm ▸ hm) hrest
        refine ⟨?_,hs',hcfg'.trans hcfg⟩
        -- the head reservation's `n` chunks of at least `m` bytes hold its bytes
        have hbytes := reservedBytes_le (hm ▸ hpos) hk hcfg
        have hcap := hat.length_mul_le
        rw [hlen,← hm] at hcap
        simp only [mem_cons,forall_eq_or_imp]
        exact ⟨⟨hat,hbytes.trans hcap⟩,hready⟩

theorem dispatchWaiters_covered {self egress : EgressPoolState} {ready : List (ℕ × EgressReservation)}
    (h : self.chunks.Sized m) (hm : self.chunks.config.chunkSize = m) (hpos : 0 < m)
    (hd : self.dispatchWaiters = some (ready,egress)) :
    (∀ x ∈ ready, x.2.Covered m) ∧ egress.chunks.Sized m ∧ egress.chunks.config = self.chunks.config := by
  obtain ⟨⟨r,w,c⟩,hloop,heq⟩ := Option.map_eq_some_iff.1 hd
  simp only [Prod.mk.injEq] at heq
  obtain ⟨rfl,rfl⟩ := heq
  exact dispatchLoop_covered h hm hpos hloop

end EgressPoolState

/-! ### The pools -/

namespace IoPools

/-- No chunk in the pools or in a handle is shorter than `m`, the egress chunk size, and every
reservation, sent or received, holds the bytes it was made for. -/
structure Covered (pools : IoPools) (m : ℕ) : Prop where
  pos : 0 < m
  egress_chunkSize : pools.egress.chunks.config.chunkSize = m
  ingress : pools.ingress.chunks.Sized m
  egress : pools.egress.chunks.Sized m
  buffers : AtLeast m pools.buffers
  requests : ∀ request ∈ pools.requests, ∀ r, request.reply = .ready r → r.Covered m
  reservations : ∀ r ∈ pools.reservations, r.Covered m
  payloads : ∀ shared ∈ pools.payloads, AtLeast m (shared.payload.segments.map (·.chunk))

variable {s s' : IoPools} {m : ℕ}

theorem Covered.sendReply (h : s.Covered m) {replyTx : ℕ} {r : EgressReservation} (hr : r.Covered m)
    (hs : s.sendReply replyTx r = some s') : s'.Covered m := by
  unfold IoPools.sendReply at hs
  split at hs
  · cases hs
  · cases hs
    refine { h with requests := fun request hq r' hr' => ?_ }
    rcases mem_or_eq_of_mem_set hq with hq | rfl
    · exact h.requests request hq r' hr'
    · cases hr'
      exact hr

/-- Delivery sends covered reservations, or drops them and serves the waiters from their
chunks. -/
theorem Covered.deliverReady (ready : List (ℕ × EgressReservation)) (h : s.Covered m)
    (hr : ∀ x ∈ ready, x.2.Covered m) : ∀ s', s.deliverReady ready = some s' → s'.Covered m := by
  fun_induction IoPools.deliverReady s ready with
  | case1 s =>
    intro s' hd
    cases hd
    exact h
  | case2 s replyTx reservation rest s₁ hsend ih =>
    exact ih (h.sendReply (hr _ mem_cons_self) hsend) fun x hx => hr x (mem_cons_of_mem _ hx)
  | case3 s replyTx reservation rest hsend returned hd =>
    intro s' hd'
    cases hd'
  | case4 s replyTx reservation rest hsend returned ready egress hd ih =>
    -- the dropped reservation's chunks go back, and dispatch serves waiters from them
    have hret : (s.egress.chunks.returnChunks reservation.chunks).Sized m :=
      h.egress.returnChunks (hr _ mem_cons_self).chunks
    obtain ⟨hready,hsized,hcfg⟩ := @EgressPoolState.dispatchWaiters_covered m
      ⟨s.egress.chunks.returnChunks reservation.chunks,s.egress.waiters⟩ _ _ hret h.egress_chunkSize h.pos hd
    have hsize : egress.chunks.config.chunkSize = m := by
      rw [hcfg]
      exact h.egress_chunkSize
    refine ih { h with egress_chunkSize := hsize, egress := hsized } ?_
    intro x hx
    rcases mem_append.1 hx with hx | hx
    · exact hready x hx
    · exact hr x (mem_cons_of_mem _ hx)

theorem Covered.dispatchAndDeliver (h : s.Covered m) (hd : s.dispatchAndDeliver = some s') : s'.Covered m := by
  unfold IoPools.dispatchAndDeliver at hd
  split at hd
  · cases hd
  · rename_i ready egress hw
    obtain ⟨hready,hsized,hcfg⟩ := EgressPoolState.dispatchWaiters_covered h.egress h.egress_chunkSize h.pos hw
    have hsize : egress.chunks.config.chunkSize = m := by
      rw [hcfg]
      exact h.egress_chunkSize
    refine Covered.deliverReady ready ?_ hready s' hd
    exact { h with egress_chunkSize := hsize, egress := hsized }

theorem Covered.returnEgressChunks (h : s.Covered m) {chunks : List PooledChunk} (hc : AtLeast m chunks)
    (hd : s.returnEgressChunks chunks = some s') : s'.Covered m := by
  refine Covered.dispatchAndDeliver ?_ hd
  exact { h with egress := h.egress.returnChunks hc }

theorem Covered.returnIngressChunks (h : s.Covered m) {chunks : List PooledChunk} (hc : AtLeast m chunks) :
    (s.returnIngressChunks chunks).Covered m :=
  { h with ingress := h.ingress.returnChunks hc }

theorem Covered.recycle (h : s.Covered m) {payload : PooledPayload} (hc : AtLeast m (payload.segments.map (·.chunk)))
    (hd : s.recycle payload = some s') : s'.Covered m := by
  unfold IoPools.recycle at hd
  split at hd
  · cases hd
    exact h.returnIngressChunks hc
  · exact h.returnEgressChunks hc hd

/-- Replacing a payload by one over the same segments keeps every chunk. -/
theorem Covered.setPayload (h : s.Covered m) {p : ℕ} {shared shared' : SharedPayload}
    (hp : s.payloads[p]? = some shared) (hseg : shared'.payload.segments = shared.payload.segments) :
    IoPools.Covered { s with payloads := s.payloads.set p shared' } m := by
  refine { h with payloads := fun x hx => ?_ }
  rcases mem_or_eq_of_mem_set hx with hx | rfl
  · exact h.payloads x hx
  · rw [hseg]
    exact h.payloads shared (mem_of_getElem? hp)

/-! #### The calls -/

theorem Covered.ingressTryAcquire (h : s.Covered m) : s.ingressTryAcquire.Covered m := by
  obtain ⟨hone,hs⟩ := h.ingress.reserveOne
  unfold IoPools.ingressTryAcquire
  split
  · rename_i chunk chunks hr
    rw [hr] at hone hs
    exact { h with ingress := hs, buffers := atLeast_append.2 ⟨h.buffers,atLeast_cons.2 ⟨hone chunk rfl,atLeast_nil⟩⟩ }
  · rename_i chunks hr
    rw [hr] at hs
    exact { h with ingress := hs }

theorem Covered.ingressWrite (h : s.Covered m) (buffer : ℕ) (bytes : List UInt8) :
    (s.ingressWrite buffer bytes).Covered m := by
  unfold IoPools.ingressWrite
  split
  · exact h
  · rename_i chunk hb
    -- the write keeps the chunk's length
    have hlen : (bytes.take chunk.length ++ chunk.drop bytes.length).length = chunk.length := by
      simp only [length_append,length_take,length_drop]
      omega
    have hc : m ≤ (bytes.take chunk.length ++ chunk.drop bytes.length).length := by
      rw [hlen]
      exact h.buffers chunk (mem_of_getElem? hb)
    exact { h with buffers := h.buffers.set hc }

theorem Covered.ingressCommit (h : s.Covered m) (buffer writtenBytes : ℕ) :
    (s.ingressCommit buffer writtenBytes).Covered m := by
  unfold IoPools.ingressCommit
  split
  · exact h
  · rename_i chunk hb
    have hc : m ≤ chunk.length := h.buffers chunk (mem_of_getElem? hb)
    have h' : IoPools.Covered { s with buffers := s.buffers.eraseIdx buffer } m :=
      { h with buffers := h.buffers.eraseIdx buffer }
    split_ifs
    · exact h'.returnIngressChunks (atLeast_cons.2 ⟨hc,atLeast_nil⟩)
    · -- the chunk becomes the one segment of the new payload
      refine { h' with payloads := fun shared hs => ?_ }
      rcases mem_append.1 hs with hs | hs
      · exact h.payloads shared hs
      · rw [mem_singleton.1 hs]
        simpa [IoLease.fromPooled,PooledPayload.new] using hc

theorem Covered.ingressDrop (h : s.Covered m) (buffer : ℕ) : (s.ingressDrop buffer).Covered m := by
  unfold IoPools.ingressDrop
  split
  · exact h
  · rename_i chunk hb
    have h' : IoPools.Covered { s with buffers := s.buffers.eraseIdx buffer } m :=
      { h with buffers := h.buffers.eraseIdx buffer }
    exact h'.returnIngressChunks (atLeast_cons.2 ⟨h.buffers chunk (mem_of_getElem? hb),atLeast_nil⟩)

theorem Covered.egressReserve (h : s.Covered m) (requestedBytes : ℕ)
    (hd : s.egressReserve requestedBytes = some s') : s'.Covered m := by
  unfold IoPools.egressReserve at hd
  split_ifs at hd
  · cases hd
    exact h
  · cases hd
    exact h
  · -- the new request holds nothing yet
    refine Covered.dispatchAndDeliver ?_ hd
    refine { h with requests := fun request hq r hr => ?_ }
    rcases mem_append.1 hq with hq | hq
    · exact h.requests request hq r hr
    · rw [mem_singleton.1 hq] at hr
      cases hr

theorem Covered.requestReceive (h : s.Covered m) (request : ℕ) : (s.requestReceive request).Covered m := by
  unfold IoPools.requestReceive
  split
  · rename_i id reservation hr
    have hcov : reservation.Covered m := h.requests _ (mem_of_getElem? hr) reservation rfl
    refine { h with requests := fun q hq r hr' => ?_, reservations := fun r hr' => ?_ }
    · rcases mem_or_eq_of_mem_set hq with hq | rfl
      · exact h.requests q hq r hr'
      · cases hr'
    · rcases mem_append.1 hr' with hr' | hr'
      · exact h.reservations r hr'
      · rw [mem_singleton.1 hr']
        exact hcov
  · exact h

theorem Covered.requestDrop (h : s.Covered m) (request : ℕ) (hd : s.requestDrop request = some s') :
    s'.Covered m := by
  unfold IoPools.requestDrop at hd
  split at hd
  · cases hd
    exact h
  · rename_i id reply hr
    have h' : IoPools.Covered { s with requests := s.requests.eraseIdx request } m :=
      { h with requests := fun q hq => h.requests q (mem_of_mem_eraseIdx hq) }
    split at hd
    · rename_i reservation
      exact h'.returnEgressChunks (h.requests _ (mem_of_getElem? hr) reservation rfl).chunks hd
    · cases hd
      exact h'

theorem Covered.reservationCopyBytes (h : s.Covered m) (debugAssertions : Bool) (reservation : ℕ)
    (bytes : List UInt8) (hd : s.reservationCopyBytes debugAssertions reservation bytes = some s') :
    s'.Covered m := by
  unfold IoPools.reservationCopyBytes at hd
  split at hd
  · cases hd
    exact h
  · rename_i r hr
    have hcov : r.Covered m := h.reservations r (mem_of_getElem? hr)
    have h' : IoPools.Covered { s with reservations := s.reservations.eraseIdx reservation } m :=
      { h with reservations := fun r' hr' => h.reservations r' (mem_of_mem_eraseIdx hr') }
    split at hd
    · cases hd
    · rename_i lease unused hc
      -- the lease's chunks join the payloads, the unused ones go back
      obtain ⟨hback,hlease⟩ := EgressReservation.copyBytes_atLeast hcov.chunks hc
      refine Covered.returnEgressChunks ?_ hback hd
      refine { h' with payloads := fun shared hs => ?_ }
      rcases mem_append.1 hs with hs | hs
      · exact h.payloads shared hs
      · rw [mem_singleton.1 hs]
        exact hlease lease rfl
    · rename_i e chunks hc
      exact h'.returnEgressChunks (EgressReservation.copyBytes_atLeast hcov.chunks hc).1 hd

theorem Covered.reservationDrop (h : s.Covered m) (reservation : ℕ) (hd : s.reservationDrop reservation = some s') :
    s'.Covered m := by
  unfold IoPools.reservationDrop at hd
  split at hd
  · cases hd
    exact h
  · rename_i r hr
    have h' : IoPools.Covered { s with reservations := s.reservations.eraseIdx reservation } m :=
      { h with reservations := fun r' hr' => h.reservations r' (mem_of_mem_eraseIdx hr') }
    exact h'.returnEgressChunks (h.reservations r (mem_of_getElem? hr)).chunks hd

theorem Covered.leaseDrop (h : s.Covered m) (p k : ℕ) (hd : s.leaseDrop p k = some s') : s'.Covered m := by
  unfold IoPools.leaseDrop at hd
  split at hd
  · cases hd
    exact h
  · rename_i shared hp
    split_ifs at hd
    · have h' : IoPools.Covered { s with payloads := s.payloads.eraseIdx p } m :=
        { h with payloads := fun x hx => h.payloads x (mem_of_mem_eraseIdx hx) }
      exact h'.recycle (h.payloads shared (mem_of_getElem? hp)) hd
    · cases hd
      exact h.setPayload hp rfl
    · cases hd
      exact h

theorem Covered.leaseClone (h : s.Covered m) (p k : ℕ) : (s.leaseClone p k).Covered m := by
  unfold IoPools.leaseClone
  split
  · exact h
  · rename_i shared hp
    split
    · exact h
    · exact h.setPayload hp rfl

theorem Covered.leaseTrySlice (h : s.Covered m) (p k rangeStart rangeEnd : ℕ)
    (hd : s.leaseTrySlice p k rangeStart rangeEnd = some s') : s'.Covered m := by
  unfold IoPools.leaseTrySlice at hd
  split at hd
  · cases hd
    exact h
  · rename_i shared hp
    split at hd
    · cases hd
      exact h
    · split at hd
      · cases hd
        exact h.setPayload hp rfl
      · exact h.leaseDrop p k hd

/-- Adoption moves a payload's count between the pools and keeps its chunks. -/
theorem Covered.adoptLease (h : s.Covered m) (p k : ℕ) (hd : s.adoptLease p k = some s') : s'.Covered m := by
  unfold IoPools.adoptLease at hd
  split at hd
  · cases hd
    exact h
  · rename_i shared hp
    split_ifs at hd
    · cases hd
      exact h
    · exact h.leaseDrop p k hd
    · dsimp only at hd
      split at hd
      · exact h.leaseDrop p k hd
      · rename_i egressChunks himp
        obtain ⟨released,hrel,rfl⟩ := Option.map_eq_some_iff.1 hd
        obtain ⟨ingress',hrel',rfl⟩ := Option.map_eq_some_iff.1 hrel
        have hcfg := ChunkPoolState.config_importLiveChunks s.egress.chunks shared.payload.segmentCount
        have hsized := h.egress.importLiveChunks shared.payload.segmentCount
        rw [himp] at hcfg hsized
        have hsize : egressChunks.config.chunkSize = m := by
          rw [hcfg]
          exact h.egress_chunkSize
        have hset : IoPools.Covered { s with payloads := (s.payloads.set p
            { shared with payload := { shared.payload with recycler := .egress } }) } m :=
          h.setPayload hp rfl
        exact { hset with
          egress_chunkSize := hsize
          ingress := h.ingress.releaseLiveChunks hrel'
          egress := hsized }
    · cases hd
      exact h

/-! #### Runs -/

theorem Covered.step (h : s.Covered m) (debugAssertions : Bool) (call : PoolCall)
    (hd : s.step debugAssertions call = some s') : s'.Covered m := by
  cases call with
  | ingressTryAcquire =>
    cases hd
    exact h.ingressTryAcquire
  | ingressWrite buffer bytes =>
    cases hd
    exact h.ingressWrite buffer bytes
  | ingressCommit buffer writtenBytes =>
    cases hd
    exact h.ingressCommit buffer writtenBytes
  | ingressDrop buffer =>
    cases hd
    exact h.ingressDrop buffer
  | egressReserve requestedBytes => exact h.egressReserve requestedBytes hd
  | requestReceive request =>
    cases hd
    exact h.requestReceive request
  | requestDrop request => exact h.requestDrop request hd
  | reservationCopyBytes reservation bytes => exact h.reservationCopyBytes debugAssertions reservation bytes hd
  | reservationDrop reservation => exact h.reservationDrop reservation hd
  | adoptLease p k => exact h.adoptLease p k hd
  | leaseClone p k =>
    cases hd
    exact h.leaseClone p k
  | leaseTrySlice p k rangeStart rangeEnd => exact h.leaseTrySlice p k rangeStart rangeEnd hd
  | leaseDrop p k => exact h.leaseDrop p k hd

/-- With every reservation covered, debug assertions change no call. -/
theorem Covered.step_eq (h : s.Covered m) (debugAssertions : Bool) (call : PoolCall) :
    s.step debugAssertions call = s.step false call := by
  cases call with
  | reservationCopyBytes reservation bytes =>
    simp only [IoPools.step,IoPools.reservationCopyBytes]
    split
    · rfl
    · rename_i r hr
      rw [(h.reservations r (mem_of_getElem? hr)).copyBytes_eq]
  | _ => rfl

/-- From an accounted state with every chunk long enough, no run panics, and every state it
reaches is accounted and covered. -/
theorem Covered.run (hi : s.Invariant) (h : s.Covered m) (debugAssertions : Bool) (calls : List PoolCall) :
    ∃ s', s.run debugAssertions calls = some s' ∧ s'.Invariant ∧ s'.Covered m := by
  induction calls generalizing s with
  | nil => exact ⟨s,rfl,hi,h⟩
  | cons call calls ih =>
    -- the step is the one of a build without debug assertions, which does not panic
    obtain ⟨hpanic,hstep⟩ := hi.step false call
    rcases hs : s.step false call with _ | s₁
    · exact absurd (hpanic hs) Bool.false_ne_true
    have hs' : s.step debugAssertions call = some s₁ := (h.step_eq debugAssertions call).trans hs
    obtain ⟨s',hrun,hi',h'⟩ := ih (hstep s₁ hs) (h.step debugAssertions call hs')
    refine ⟨s',?_,hi',h'⟩
    simp only [IoPools.run,foldlM_cons] at hrun ⊢
    simpa [hs'] using hrun

theorem covered_new {config : IoBufferConfig} {pools : IoPools} (h : IoPools.new config = .ok pools)
    (hsize : config.egress.chunkSize ≤ config.ingress.chunkSize) : pools.Covered config.egress.chunkSize := by
  cases hv : config.validate with
  | error e => simp [IoPools.new,hv] at h
  | ok u =>
    simp only [IoPools.new,hv,bind,Except.bind,pure,Except.pure,Except.ok.injEq] at h
    subst h
    have he := (IoBufferConfig.validate_eq_ok.1 hv).2.chunk_size_ge
    exact ⟨by omega,rfl,ChunkPoolState.sized_new hsize,ChunkPoolState.sized_new le_rfl,atLeast_nil,
      by simp,by simp,by simp⟩

end IoPools

/-- With ingress chunks no shorter than egress chunks, no run of calls panics, even with debug
assertions, and every reservation a caller holds takes any bytes up to its size whole. -/
theorem copyBytes_never_truncates {config : IoBufferConfig} {pools : IoPools} (hnew : IoPools.new config = .ok pools)
    (hsize : config.egress.chunkSize ≤ config.ingress.chunkSize) (debugAssertions : Bool) (calls : List PoolCall) :
    ∃ s', pools.run debugAssertions calls = some s' ∧ ∀ r ∈ s'.reservations, ∀ bytes : List UInt8, bytes ≠ [] →
      bytes.length ≤ r.reservedBytes → ∃ lease unused,
        r.copyBytes debugAssertions bytes = some (.ok lease,unused) ∧ lease.toVec = some bytes := by
  obtain ⟨s',hrun,-,hc⟩ := (IoPools.covered_new hnew hsize).run (IoPools.invariant_new hnew) debugAssertions calls
  refine ⟨s',hrun,fun r hr bytes hne hle => ?_⟩
  obtain ⟨lease,unused,hcopy,-,hvec⟩ := (hc.reservations r hr).copyBytes_eq_ok hc.pos hne hle
  exact ⟨lease,unused,hcopy,hvec⟩

/-- Pools with 256-byte ingress and 128-byte egress chunks: an ingress lease adopted into the
egress pool and dropped, then a 200-byte reservation that its caller receives. -/
theorem copyBytes_never_truncates_after_reserve :
    ∃ pools, IoPools.new ⟨⟨256,1,2,8⟩,⟨128,0,2,8⟩⟩ = .ok pools ∧
      ∃ s', pools.run true [.ingressTryAcquire,.ingressCommit 0 4,.adoptLease 0 0,.leaseDrop 0 0,
          .egressReserve 200,.requestReceive 0] = some s' ∧ s'.reservations.length = 1 ∧
        ∀ r ∈ s'.reservations, ∀ bytes : List UInt8, bytes ≠ [] → bytes.length ≤ r.reservedBytes →
          ∃ lease unused, r.copyBytes true bytes = some (.ok lease,unused) ∧ lease.toVec = some bytes := by
  obtain ⟨pools,hnew⟩ : ∃ pools, IoPools.new ⟨⟨256,1,2,8⟩,⟨128,0,2,8⟩⟩ = .ok pools := ⟨_,rfl⟩
  obtain ⟨s',hrun,hcopy⟩ := copyBytes_never_truncates hnew (by decide) true
    [.ingressTryAcquire,.ingressCommit 0 4,.adoptLease 0 0,.leaseDrop 0 0,.egressReserve 200,.requestReceive 0]
  have hlen : ((IoPools.new ⟨⟨256,1,2,8⟩,⟨128,0,2,8⟩⟩).toOption.bind fun pools =>
      pools.run true [.ingressTryAcquire,.ingressCommit 0 4,.adoptLease 0 0,.leaseDrop 0 0,
        .egressReserve 200,.requestReceive 0]).map (fun s => s.reservations.length) = some 1 := by
    decide +kernel
  rw [hnew] at hlen
  simp only [Except.toOption, Option.bind_some, hrun, Option.map_some, Option.some.injEq] at hlen
  exact ⟨pools,hnew,s',hrun,hlen,hcopy⟩

/-- The truncating run with the chunk sizes swapped: the adopted 256-byte ingress chunk and a new
128-byte one take all 200 bytes, with debug assertions on. -/
example : ((IoPools.new ⟨⟨256,1,2,8⟩,⟨128,0,2,8⟩⟩).toOption.bind fun pools =>
    pools.run true [.ingressTryAcquire,.ingressCommit 0 4,.adoptLease 0 0,.leaseDrop 0 0,
      .egressReserve 200,.requestReceive 0,.reservationCopyBytes 0 (replicate 200 7)]).map
      (fun s => s.payloads.map fun shared => shared.payload.len) = some [200] := by
  decide +kernel

end Flotsync.Io
