import Flotsync.Io.Lease

/-!
The ingress and egress pools of one `IoBufferPools` together with every handle callers hold
(`pool/ingress.rs`, `pool/egress.rs`): ingress buffers, pending and answered reservation
requests, reservations, and leases over shared payloads. A call is a step of this system; a
panic is `none`. Weak pool references always upgrade, since the pools outlive the handles, and
locks are never poisoned.

The egress pool serves its FIFO of waiters in `dispatch_waiters` and answers them in
`deliver_ready`; a reservation whose request is gone is dropped, which returns its chunks and
dispatches again. Adopting an ingress lease moves its chunks' count from the ingress pool to the
egress pool and retargets its recycler, so the chunks later enter the egress free queue.

`Invariant` says that each pool's count is its free chunks plus the chunks the handles that
return to it hold, within its bound; every call keeps it, so every run from a valid
configuration does (`run_invariant`).
-/

set_option autoImplicit false

namespace Flotsync.Io

open List

/-! ### Counting over a table of handles -/

section Tally

variable {α : Type*} (f : α → ℕ) {l : List α} {i : ℕ} {x : α}

theorem sum_map_eq_add_eraseIdx (h : l[i]? = some x) :
    (l.map f).sum = f x + ((l.eraseIdx i).map f).sum := by
  obtain ⟨hi,rfl⟩ := List.getElem?_eq_some_iff.1 h
  rw [← ((getElem_cons_eraseIdx_perm hi).map f).sum_eq,map_cons,sum_cons]

theorem sum_map_set_add (h : l[i]? = some x) (a : α) :
    ((l.set i a).map f).sum + f x = (l.map f).sum + f a := by
  obtain ⟨hi,rfl⟩ := List.getElem?_eq_some_iff.1 h
  rw [((set_perm_cons_eraseIdx hi a).map f).sum_eq,sum_map_eq_add_eraseIdx f h,map_cons,sum_cons]
  omega

end Tally

/-! ### The pools -/

structure IngressPoolState where
  chunks : ChunkPoolState
  deriving DecidableEq, Repr

namespace IngressPoolState

def hasAvailableChunk (self : IngressPoolState) : Bool := self.chunks.canReserveChunks 1

/-- Returns the chunks, and whether the pool went from exhausted to available. -/
def returnChunks (self : IngressPoolState) (chunks : List PooledChunk) : Bool × IngressPoolState :=
  let hadAvailableCapacity := self.hasAvailableChunk
  let self := ⟨self.chunks.returnChunks chunks⟩
  (!hadAvailableCapacity && self.hasAvailableChunk,self)

def releaseLiveChunks (self : IngressPoolState) (chunkCount : ℕ) : Option (Bool × IngressPoolState) :=
  let hadAvailableCapacity := self.hasAvailableChunk
  (self.chunks.releaseLiveChunks chunkCount).map fun chunks =>
    (!hadAvailableCapacity && IngressPoolState.hasAvailableChunk ⟨chunks⟩,⟨chunks⟩)

end IngressPoolState

inductive EgressWaiterKind where
  | exact (requestedBytes : ℕ)
  | upTo (preferredBytes : ℕ)
  deriving DecidableEq, Repr

/-- A queued reservation; `replyTx` is the request whose channel it answers. -/
structure EgressWaiter where
  kind : EgressWaiterKind
  replyTx : ℕ
  deriving DecidableEq, Repr

structure EgressPoolState where
  chunks : ChunkPoolState
  waiters : List EgressWaiter
  deriving DecidableEq, Repr

namespace EgressPoolState

/-- The chunks a waiter gets now, or `none` when it cannot be served and dispatch stops. -/
def waiterChunkCount (chunks : ChunkPoolState) : EgressWaiterKind → Option ℕ
  | .exact requestedBytes =>
    let chunkCount := chunksForBytes requestedBytes chunks.config.chunkSize
    if !chunks.canReserveChunks chunkCount then none else some chunkCount
  | .upTo preferredBytes =>
    let preferredChunkCount := chunksForBytes preferredBytes chunks.config.chunkSize
    let chunkCount := min chunks.reservableChunkCount preferredChunkCount
    if chunkCount = 0 then none else some chunkCount

def reservedBytes (chunks : ChunkPoolState) (chunkCount : ℕ) : EgressWaiterKind → ℕ
  | .exact requestedBytes => requestedBytes
  | .upTo _ => chunkCount * chunks.config.chunkSize

/-- The `'waiters` loop of `dispatch_waiters`; `none` is the panic of its `expect` on
`reserve_chunks`. -/
def dispatchLoop : ChunkPoolState → List EgressWaiter →
    Option (List (ℕ × EgressReservation) × List EgressWaiter × ChunkPoolState)
  | chunks, [] => some ([],[],chunks)
  | chunks, waiter :: waiters =>
    match waiterChunkCount chunks waiter.kind with
    | none => some ([],waiter :: waiters,chunks)
    | some chunkCount =>
      match chunks.reserveChunks chunkCount with
      | (none,_) => none
      | (some reserved,chunks) =>
        (dispatchLoop chunks waiters).map fun rest =>
          ((waiter.replyTx,⟨reservedBytes chunks chunkCount waiter.kind,reserved⟩) :: rest.1,rest.2)

def dispatchWaiters (self : EgressPoolState) : Option (List (ℕ × EgressReservation) × EgressPoolState) :=
  (dispatchLoop self.chunks self.waiters).map fun r => (r.1,⟨r.2.2,r.2.1⟩)

/-- The chunks of the reservations ready to be sent. -/
def readyChunks (ready : List (ℕ × EgressReservation)) : ℕ := (ready.map (·.2.chunks.length)).sum

@[simp] theorem readyChunks_nil : readyChunks [] = 0 := rfl

@[simp] theorem readyChunks_cons (r : ℕ × EgressReservation) (ready : List (ℕ × EgressReservation)) :
    readyChunks (r :: ready) = r.2.chunks.length + readyChunks ready := rfl

@[simp] theorem readyChunks_append (ready ready' : List (ℕ × EgressReservation)) :
    readyChunks (ready ++ ready') = readyChunks ready + readyChunks ready' := by
  simp [readyChunks]

/-- The reservations a waiter gets are what `reserve_chunks` grants, and it grants them. -/
theorem waiterChunkCount_le {chunks : ChunkPoolState} {kind : EgressWaiterKind} {n : ℕ}
    (h : waiterChunkCount chunks kind = some n) : n ≤ chunks.reservableChunkCount := by
  cases kind with
  | exact requestedBytes =>
    simp only [waiterChunkCount] at h
    cases hc : chunks.canReserveChunks (chunksForBytes requestedBytes chunks.config.chunkSize) <;>
      simp only [hc,Bool.not_true,Bool.not_false,Bool.false_eq_true,if_false,if_true,reduceCtorEq,
        Option.some.injEq] at h
    subst h
    simpa [ChunkPoolState.canReserveChunks] using hc
  | upTo preferredBytes =>
    simp only [waiterChunkCount] at h
    split_ifs at h
    cases h
    exact min_le_left _ _

/-- Each served waiter leaves the queue with its reservation. -/
theorem length_dispatchLoop {chunks chunks' : ChunkPoolState} {waiters waiters' : List EgressWaiter}
    {ready : List (ℕ × EgressReservation)} (h : dispatchLoop chunks waiters = some (ready,waiters',chunks')) :
    ready.length + waiters'.length = waiters.length := by
  induction waiters generalizing chunks ready with
  | nil =>
    simp only [dispatchLoop,Option.some.injEq,Prod.mk.injEq] at h
    obtain ⟨rfl,rfl,-⟩ := h
    rfl
  | cons waiter waiters ih =>
    simp only [dispatchLoop] at h
    split at h
    · simp only [Option.some.injEq,Prod.mk.injEq] at h
      obtain ⟨rfl,rfl,-⟩ := h
      simp
    · split at h
      · cases h
      · obtain ⟨⟨r,w,c⟩,hrest,hr⟩ := Option.map_eq_some_iff.1 h
        simp only [Prod.mk.injEq] at hr
        obtain ⟨rfl,rfl,rfl⟩ := hr
        have := ih hrest
        simp only [length_cons]
        omega

theorem length_dispatchWaiters {self egress : EgressPoolState} {ready : List (ℕ × EgressReservation)}
    (h : self.dispatchWaiters = some (ready,egress)) : ready.length + egress.waiters.length = self.waiters.length := by
  obtain ⟨r,hr,he⟩ := Option.map_eq_some_iff.1 h
  simp only [Prod.mk.injEq] at he
  obtain ⟨rfl,rfl⟩ := he
  exact length_dispatchLoop hr

/-- Dispatch hands out chunks to the served waiters and never panics on an accounted pool. -/
theorem dispatchLoop_spec {chunks : ChunkPoolState} {held : ℕ} (h : chunks.Accounts held)
    (waiters : List EgressWaiter) :
    ∃ ready waiters' chunks', dispatchLoop chunks waiters = some (ready,waiters',chunks') ∧
      chunks'.Accounts (held + readyChunks ready) ∧ chunks'.config = chunks.config := by
  induction waiters generalizing chunks held with
  | nil => exact ⟨[],[],chunks,rfl,by simpa using h,rfl⟩
  | cons waiter waiters ih =>
    rcases hk : waiterChunkCount chunks waiter.kind with _ | n
    · exact ⟨[],waiter :: waiters,chunks,by simp [dispatchLoop,hk],by simpa using h,rfl⟩
    · obtain ⟨reserved,chunks₁,hres,hlen,ha⟩ := (h.reserveChunks (n := n)).1 (waiterChunkCount_le hk)
      have hcfg : chunks₁.config = chunks.config := by
        simpa [hres] using ChunkPoolState.config_reserveChunks chunks n
      obtain ⟨ready,waiters',chunks',hloop,ha',hcfg'⟩ := ih ha
      refine ⟨(waiter.replyTx,⟨reservedBytes chunks₁ n waiter.kind,reserved⟩) :: ready,waiters',chunks',
        by simp [dispatchLoop,hk,hres,hloop],?_,hcfg'.trans hcfg⟩
      rw [readyChunks_cons,hlen]
      rwa [Nat.add_assoc] at ha'

theorem dispatchWaiters_spec {self : EgressPoolState} {held : ℕ} (h : self.chunks.Accounts held) :
    ∃ ready egress, self.dispatchWaiters = some (ready,egress) ∧
      egress.chunks.Accounts (held + readyChunks ready) ∧ egress.chunks.config = self.chunks.config := by
  obtain ⟨ready,waiters',chunks',hloop,ha,hcfg⟩ := dispatchLoop_spec h self.waiters
  exact ⟨ready,⟨chunks',waiters'⟩,by simp [dispatchWaiters,hloop],ha,hcfg⟩

end EgressPoolState

/-! ### The handles and the calls -/

/-- The oneshot channel of a reservation request: nothing sent yet, a reservation waiting to be
received, or received. -/
inductive ReplyState where
  | pending
  | ready (reservation : EgressReservation)
  | taken
  deriving DecidableEq, Repr

def ReplyState.isPending : ReplyState → Bool
  | .pending => true
  | _ => false

/-- A live `PoolRequest` handle: the receiving end of channel `id`. -/
structure PoolRequest where
  id : ℕ
  reply : ReplyState
  deriving DecidableEq, Repr

/-- An `Arc<PooledPayload>` and the window `(offset, len)` of every `IoLease` over it. -/
structure SharedPayload where
  payload : PooledPayload
  leases : List (ℕ × ℕ)
  deriving DecidableEq, Repr

def SharedPayload.lease (self : SharedPayload) (k : ℕ) : Option IoLease :=
  self.leases[k]?.map fun window => ⟨self.payload,window.1,window.2⟩

/-- The pools of one `IoBufferPools` and the handles callers hold: live ingress buffers with
their chunks, requests, reservations and shared payloads. -/
structure IoPools where
  config : IoBufferConfig
  ingress : IngressPoolState
  egress : EgressPoolState
  buffers : List PooledChunk
  requests : List PoolRequest
  reservations : List EgressReservation
  payloads : List SharedPayload
  nextRequest : ℕ
  deriving DecidableEq, Repr

namespace IoPools

/-- `IoBufferPools::new`, with no handle out yet. -/
def new (config : IoBufferConfig) : Except Error IoPools := do
  config.validate
  pure ⟨config,⟨ChunkPoolState.new config.ingress⟩,⟨ChunkPoolState.new config.egress,[]⟩,[],[],[],[],0⟩

/-- `IngressPoolState::return_chunks_from_weak`; the availability notification goes to a
callback outside the model. -/
def returnIngressChunks (self : IoPools) (chunks : List PooledChunk) : IoPools :=
  { self with ingress := (self.ingress.returnChunks chunks).2 }

/-- `reply_tx.send`: it fails when the request handle is gone. -/
def sendReply (self : IoPools) (replyTx : ℕ) (reservation : EgressReservation) : Option IoPools :=
  match self.requests.findIdx? fun request => request.id == replyTx && request.reply.isPending with
  | none => none
  | some i => some { self with requests := self.requests.set i ⟨replyTx,.ready reservation⟩ }

theorem egress_of_sendReply {self s' : IoPools} {replyTx : ℕ} {reservation : EgressReservation}
    (h : self.sendReply replyTx reservation = some s') : s'.egress = self.egress := by
  unfold sendReply at h
  split at h
  · cases h
  · cases h
    rfl

/-- `deliver_ready`. A reservation whose request is gone is dropped on the spot: its chunks go
back to the egress pool, which dispatches its waiters again and delivers those first. -/
def deliverReady (self : IoPools) : List (ℕ × EgressReservation) → Option IoPools
  | [] => some self
  | (replyTx,reservation) :: rest =>
    match _hsend : self.sendReply replyTx reservation with
    | some s' => deliverReady s' rest
    | none =>
      let returned : EgressPoolState :=
        ⟨self.egress.chunks.returnChunks reservation.chunks,self.egress.waiters⟩
      match _hd : returned.dispatchWaiters with
      | none => none
      | some (ready,egress) => deliverReady { self with egress := egress } (ready ++ rest)
termination_by ready => self.egress.waiters.length + ready.length
decreasing_by
  · rw [egress_of_sendReply _hsend]
    simp
  · have := EgressPoolState.length_dispatchWaiters _hd
    have hw : returned.waiters = self.egress.waiters := rfl
    simp only [length_append,length_cons,hw] at this ⊢
    omega

def dispatchAndDeliver (self : IoPools) : Option IoPools :=
  match self.egress.dispatchWaiters with
  | none => none
  | some (ready,egress) => deliverReady { self with egress := egress } ready

/-- `EgressPoolState::return_chunks_from_weak`: return, dispatch, deliver. -/
def returnEgressChunks (self : IoPools) (chunks : List PooledChunk) : Option IoPools :=
  dispatchAndDeliver { self with egress := { self.egress with chunks := self.egress.chunks.returnChunks chunks } }

/-- The drop of a `PooledPayload`: its chunks go to the pool its recycler names. -/
def recycle (self : IoPools) (payload : PooledPayload) : Option IoPools :=
  let chunks := payload.segments.map (·.chunk)
  match payload.recycler with
  | .ingress => some (self.returnIngressChunks chunks)
  | .egress => self.returnEgressChunks chunks

/-! #### Ingress -/

/-- `IngressPool::try_acquire`: a buffer over one chunk, or `Ok(None)`. -/
def ingressTryAcquire (self : IoPools) : IoPools :=
  match self.ingress.chunks.reserveOne with
  | (some chunk,chunks) => { self with ingress := ⟨chunks⟩, buffers := self.buffers ++ [chunk] }
  | (none,chunks) => { self with ingress := ⟨chunks⟩ }

/-- Writing through `IngressBuffer::writable` into the front of the chunk. -/
def ingressWrite (self : IoPools) (buffer : ℕ) (bytes : List UInt8) : IoPools :=
  match self.buffers[buffer]? with
  | none => self
  | some chunk => { self with buffers := self.buffers.set buffer (bytes.take chunk.length ++ chunk.drop bytes.length) }

/-- `IngressBuffer::commit`: a lease over the written bytes, or `InvalidIngressCommitLength`
with the chunk returned. -/
def ingressCommit (self : IoPools) (buffer writtenBytes : ℕ) : IoPools :=
  match self.buffers[buffer]? with
  | none => self
  | some chunk =>
    let self := { self with buffers := self.buffers.eraseIdx buffer }
    if writtenBytes = 0 || writtenBytes > chunk.length then self.returnIngressChunks [chunk]
    else
      let lease := IoLease.fromPooled [⟨chunk,writtenBytes⟩] .ingress
      { self with payloads := self.payloads ++ [⟨lease.payload,[(lease.offset,lease.len)]⟩] }

/-- The drop of an `IngressBuffer`. -/
def ingressDrop (self : IoPools) (buffer : ℕ) : IoPools :=
  match self.buffers[buffer]? with
  | none => self
  | some chunk => IoPools.returnIngressChunks { self with buffers := self.buffers.eraseIdx buffer } [chunk]

/-! #### Egress reservations -/

/-- `EgressPool::reserve`: a zero or too large request is an error; otherwise an exact waiter
joins the queue with a new request handle, and the queue is dispatched. -/
def egressReserve (self : IoPools) (requestedBytes : ℕ) : Option IoPools :=
  if requestedBytes = 0 then some self
  else if requestedBytes > self.config.egress.totalCapacityBytes then some self
  else
    dispatchAndDeliver { self with
      requests := self.requests ++ [⟨self.nextRequest,.pending⟩]
      nextRequest := self.nextRequest + 1
      egress := { self.egress with waiters := self.egress.waiters ++ [⟨.exact requestedBytes,self.nextRequest⟩] } }

/-- Awaiting (or `try_receive` on) a request: a delivered reservation passes to the caller. -/
def requestReceive (self : IoPools) (request : ℕ) : IoPools :=
  match self.requests[request]? with
  | some ⟨id,.ready reservation⟩ =>
    { self with requests := self.requests.set request ⟨id,.taken⟩, reservations := self.reservations ++ [reservation] }
  | _ => self

/-- The drop of a `PoolRequest`: a reservation waiting in its channel is dropped with it; a
pending waiter stays queued, and its reply will fail. -/
def requestDrop (self : IoPools) (request : ℕ) : Option IoPools :=
  match self.requests[request]? with
  | none => some self
  | some ⟨_,reply⟩ =>
    let self := { self with requests := self.requests.eraseIdx request }
    match reply with
    | .ready reservation => self.returnEgressChunks reservation.chunks
    | _ => some self

/-- `EgressReservation::copy_bytes`: the lease joins the payloads, and the chunks handed back
return to the egress pool. -/
def reservationCopyBytes (debugAssertions : Bool) (self : IoPools) (reservation : ℕ) (bytes : List UInt8) :
    Option IoPools :=
  match self.reservations[reservation]? with
  | none => some self
  | some r =>
    let self := { self with reservations := self.reservations.eraseIdx reservation }
    match r.copyBytes debugAssertions bytes with
    | none => none
    | some (.ok lease,unused) =>
      IoPools.returnEgressChunks { self with payloads := self.payloads ++ [⟨lease.payload,[(lease.offset,lease.len)]⟩] } unused
    | some (.error _,chunks) => self.returnEgressChunks chunks

/-- The drop of an `EgressReservation`. -/
def reservationDrop (self : IoPools) (reservation : ℕ) : Option IoPools :=
  match self.reservations[reservation]? with
  | none => some self
  | some r => IoPools.returnEgressChunks { self with reservations := self.reservations.eraseIdx reservation } r.chunks

/-! #### Leases -/

/-- The drop of lease `k` of payload `p`; the last lease drops the payload. -/
def leaseDrop (self : IoPools) (p k : ℕ) : Option IoPools :=
  match self.payloads[p]? with
  | none => some self
  | some shared =>
    if k < shared.leases.length then
      if shared.leases.eraseIdx k = [] then IoPools.recycle { self with payloads := self.payloads.eraseIdx p } shared.payload
      else some { self with payloads := self.payloads.set p { shared with leases := shared.leases.eraseIdx k } }
    else some self

def leaseClone (self : IoPools) (p k : ℕ) : IoPools :=
  match self.payloads[p]? with
  | none => self
  | some shared =>
    match shared.leases[k]? with
    | none => self
    | some window => { self with payloads := self.payloads.set p { shared with leases := shared.leases ++ [window] } }

/-- `IoLease::try_slice`, which consumes the lease: `None` drops it. -/
def leaseTrySlice (self : IoPools) (p k rangeStart rangeEnd : ℕ) : Option IoPools :=
  match self.payloads[p]? with
  | none => some self
  | some shared =>
    match shared.lease k with
    | none => some self
    | some lease =>
      match lease.trySlice rangeStart rangeEnd with
      | some sliced =>
        some { self with payloads := self.payloads.set p { shared with leases := shared.leases.set k (sliced.offset,sliced.len) } }
      | none => self.leaseDrop p k

/-- `EgressPool::adopt_lease`. A lease already recycled to the egress pool is kept. A shared
payload cannot be adopted, and a full egress pool refuses it: both are errors, and the lease,
taken by value, is dropped. Otherwise the egress pool imports the chunk count, the ingress pool
releases it, and the recycler becomes the egress pool. -/
def adoptLease (self : IoPools) (p k : ℕ) : Option IoPools :=
  match self.payloads[p]? with
  | none => some self
  | some shared =>
    if k < shared.leases.length then
      if shared.payload.recycler = .egress then some self
      else if shared.leases.length ≠ 1 then self.leaseDrop p k
      else
        let chunkCount := shared.payload.segmentCount
        match self.egress.chunks.importLiveChunks chunkCount with
        | (false,_) => self.leaseDrop p k
        | (true,egressChunks) =>
          (self.ingress.releaseLiveChunks chunkCount).map fun released =>
            { self with
              ingress := released.2
              egress := { self.egress with chunks := egressChunks }
              payloads := self.payloads.set p { shared with payload := { shared.payload with recycler := .egress } } }
    else some self

end IoPools

inductive PoolCall where
  | ingressTryAcquire
  | ingressWrite (buffer : ℕ) (bytes : List UInt8)
  | ingressCommit (buffer writtenBytes : ℕ)
  | ingressDrop (buffer : ℕ)
  | egressReserve (requestedBytes : ℕ)
  | requestReceive (request : ℕ)
  | requestDrop (request : ℕ)
  | reservationCopyBytes (reservation : ℕ) (bytes : List UInt8)
  | reservationDrop (reservation : ℕ)
  | adoptLease (p k : ℕ)
  | leaseClone (p k : ℕ)
  | leaseTrySlice (p k rangeStart rangeEnd : ℕ)
  | leaseDrop (p k : ℕ)
  deriving DecidableEq, Repr

namespace IoPools

def step (debugAssertions : Bool) (self : IoPools) : PoolCall → Option IoPools
  | .ingressTryAcquire => some self.ingressTryAcquire
  | .ingressWrite buffer bytes => some (self.ingressWrite buffer bytes)
  | .ingressCommit buffer writtenBytes => some (self.ingressCommit buffer writtenBytes)
  | .ingressDrop buffer => some (self.ingressDrop buffer)
  | .egressReserve requestedBytes => self.egressReserve requestedBytes
  | .requestReceive request => some (self.requestReceive request)
  | .requestDrop request => self.requestDrop request
  | .reservationCopyBytes reservation bytes => self.reservationCopyBytes debugAssertions reservation bytes
  | .reservationDrop reservation => self.reservationDrop reservation
  | .adoptLease p k => self.adoptLease p k
  | .leaseClone p k => some (self.leaseClone p k)
  | .leaseTrySlice p k rangeStart rangeEnd => self.leaseTrySlice p k rangeStart rangeEnd
  | .leaseDrop p k => self.leaseDrop p k

/-- Calls one after another; `none` when one panics. -/
def run (debugAssertions : Bool) (self : IoPools) (calls : List PoolCall) : Option IoPools :=
  calls.foldlM (step debugAssertions) self

end IoPools

/-! ### The account of chunks -/

def PoolRequest.chunkCount (self : PoolRequest) : ℕ :=
  match self.reply with
  | .ready reservation => reservation.chunks.length
  | _ => 0

/-- The chunks of a payload, counted for the pool its recycler names. -/
def SharedPayload.chunksFor (recycler : LeaseRecycler) (self : SharedPayload) : ℕ :=
  if self.payload.recycler = recycler then self.payload.segmentCount else 0

namespace IoPools

/-- The chunks out in handles that return to the ingress pool. -/
def ingressHeld (self : IoPools) : ℕ :=
  self.buffers.length + (self.payloads.map (SharedPayload.chunksFor .ingress)).sum

/-- The chunks out in handles that return to the egress pool. -/
def egressHeld (self : IoPools) : ℕ :=
  (self.reservations.map (·.chunks.length)).sum + (self.requests.map PoolRequest.chunkCount).sum +
    (self.payloads.map (SharedPayload.chunksFor .egress)).sum

/-- Both pools account for the chunks out in handles and for `ingressOut` and `egressOut` chunks
on their way back to them (or to a request); and the pools keep their configuration. -/
structure Accounted (pools : IoPools) (ingressOut egressOut : ℕ) : Prop where
  ingress : pools.ingress.chunks.Accounts (pools.ingressHeld + ingressOut)
  egress : pools.egress.chunks.Accounts (pools.egressHeld + egressOut)
  ingress_config : pools.ingress.chunks.config = pools.config.ingress
  egress_config : pools.egress.chunks.config = pools.config.egress

variable {s s' : IoPools}

/-- A call that only moves chunks between handles, or out of them on their way back, keeps the
account: the pools are unchanged, and the handles' counts add up. -/
theorem Accounted.of_held {t : IoPools} {ingressOut egressOut ingressOut' egressOut' : ℕ}
    (h : s.Accounted ingressOut egressOut) (hi : t.ingressHeld + ingressOut' = s.ingressHeld + ingressOut)
    (he : t.egressHeld + egressOut' = s.egressHeld + egressOut) (hin : t.ingress = s.ingress)
    (heg : t.egress = s.egress) (hc : t.config = s.config) : t.Accounted ingressOut' egressOut' :=
  ⟨by rw [hin,hi]; exact h.ingress,by rw [heg,he]; exact h.egress,by rw [hin,hc]; exact h.ingress_config,
    by rw [heg,hc]; exact h.egress_config⟩

theorem sendReply_spec {replyTx : ℕ} {reservation : EgressReservation} (h : s.sendReply replyTx reservation = some s') :
    ∃ requests, s' = { s with requests := requests } ∧
      (requests.map PoolRequest.chunkCount).sum = (s.requests.map PoolRequest.chunkCount).sum + reservation.chunks.length := by
  unfold sendReply at h
  split at h
  · cases h
  · rename_i i hi
    cases h
    obtain ⟨hlt,hp,-⟩ := List.findIdx?_eq_some_iff_getElem.1 hi
    refine ⟨_,rfl,?_⟩
    have hpend : (s.requests[i]).chunkCount = 0 := by
      simp only [Bool.and_eq_true,beq_iff_eq] at hp
      simp only [PoolRequest.chunkCount]
      split <;> simp_all [ReplyState.isPending]
    have := sum_map_set_add PoolRequest.chunkCount (List.getElem?_eq_getElem hlt) ⟨replyTx,.ready reservation⟩
    have hnew : PoolRequest.chunkCount ⟨replyTx,.ready reservation⟩ = reservation.chunks.length := rfl
    rw [hpend,hnew] at this
    omega

/-- Delivering the ready reservations changes only the requests and the egress pool, and
leaves every chunk accounted for: sent ones in their requests, dropped ones back in the pool. -/
theorem deliverReady_spec (ready : List (ℕ × EgressReservation))
    (h : s.Accounted 0 (EgressPoolState.readyChunks ready)) :
    ∃ requests egress, s.deliverReady ready = some { s with requests := requests, egress := egress } ∧
      IoPools.Accounted { s with requests := requests, egress := egress } 0 0 := by
  fun_induction IoPools.deliverReady s ready with
  | case1 s => exact ⟨s.requests,s.egress,rfl,by simpa using h⟩
  | case2 s replyTx reservation rest s₁ hsend ih =>
    obtain ⟨requests,rfl,hsum⟩ := sendReply_spec hsend
    have heq : IoPools.egressHeld { s with requests := requests } + EgressPoolState.readyChunks rest =
        s.egressHeld + EgressPoolState.readyChunks ((replyTx,reservation) :: rest) := by
      simp only [egressHeld,EgressPoolState.readyChunks_cons,hsum]
      omega
    have h₁ : IoPools.Accounted { s with requests := requests } 0 (EgressPoolState.readyChunks rest) :=
      ⟨h.ingress,by rw [heq]; exact h.egress,h.ingress_config,h.egress_config⟩
    obtain ⟨requests',egress',hd,ha⟩ := ih h₁
    exact ⟨requests',egress',hd,ha⟩
  | case3 s replyTx reservation rest hsend returned hd =>
    have ha := h.egress
    rw [EgressPoolState.readyChunks_cons,← Nat.add_assoc,Nat.add_right_comm] at ha
    obtain ⟨ready,egress,hd',-⟩ := @EgressPoolState.dispatchWaiters_spec
      ⟨s.egress.chunks.returnChunks reservation.chunks,s.egress.waiters⟩ _ ha.returnChunks
    rw [hd] at hd'
    cases hd'
  | case4 s replyTx reservation rest hsend returned ready egress hd ih =>
    have ha := h.egress
    rw [EgressPoolState.readyChunks_cons,← Nat.add_assoc,Nat.add_right_comm] at ha
    obtain ⟨ready',egress',hd',ha',hcfg⟩ := @EgressPoolState.dispatchWaiters_spec
      ⟨s.egress.chunks.returnChunks reservation.chunks,s.egress.waiters⟩ _ ha.returnChunks
    rw [hd,Option.some.injEq,Prod.mk.injEq] at hd'
    obtain ⟨rfl,rfl⟩ := hd'
    have h₁ : IoPools.Accounted { s with egress := egress } 0 (EgressPoolState.readyChunks (ready ++ rest)) :=
      ⟨h.ingress,by simpa [egressHeld,Nat.add_assoc,Nat.add_comm (EgressPoolState.readyChunks rest)] using ha',
        h.ingress_config,hcfg.trans h.egress_config⟩
    exact ih h₁

theorem dispatchAndDeliver_spec (h : s.Accounted 0 0) :
    ∃ requests egress, s.dispatchAndDeliver = some { s with requests := requests, egress := egress } ∧
      IoPools.Accounted { s with requests := requests, egress := egress } 0 0 := by
  obtain ⟨ready,egress,hd,ha,hcfg⟩ := EgressPoolState.dispatchWaiters_spec h.egress
  have h₁ : IoPools.Accounted { s with egress := egress } 0 (EgressPoolState.readyChunks ready) :=
    ⟨h.ingress,by simpa [egressHeld] using ha,h.ingress_config,hcfg.trans h.egress_config⟩
  obtain ⟨requests,egress',hdl,ha'⟩ := deliverReady_spec ready h₁
  exact ⟨requests,egress',by rw [dispatchAndDeliver,hd]; exact hdl,ha'⟩

/-- Chunks on their way back to the egress pool arrive there, whatever the dispatch then does. -/
theorem returnEgressChunks_spec {chunks : List PooledChunk} (h : s.Accounted 0 chunks.length) :
    ∃ requests egress, s.returnEgressChunks chunks = some { s with requests := requests, egress := egress } ∧
      IoPools.Accounted { s with requests := requests, egress := egress } 0 0 := by
  have h₁ : IoPools.Accounted { s with egress := { s.egress with chunks := s.egress.chunks.returnChunks chunks } } 0 0 :=
    ⟨h.ingress,by simpa [egressHeld] using h.egress.returnChunks,h.ingress_config,h.egress_config⟩
  obtain ⟨requests,egress,hd,ha⟩ := dispatchAndDeliver_spec h₁
  exact ⟨requests,egress,hd,ha⟩

theorem returnIngressChunks_accounted {chunks : List PooledChunk} {egressOut : ℕ}
    (h : s.Accounted chunks.length egressOut) : (s.returnIngressChunks chunks).Accounted 0 egressOut :=
  ⟨by simpa [returnIngressChunks,IngressPoolState.returnChunks,ingressHeld] using h.ingress.returnChunks,
    h.egress,h.ingress_config,h.egress_config⟩

/-- Taking a buffer out of the handles puts its chunk on its way back to the ingress pool. -/
theorem Accounted.eraseBuffer (h : s.Accounted 0 0) {buffer : ℕ} {chunk : PooledChunk}
    (hb : s.buffers[buffer]? = some chunk) :
    IoPools.Accounted { s with buffers := s.buffers.eraseIdx buffer } [chunk].length 0 := by
  have hlen := length_eraseIdx_add_one (List.getElem?_eq_some_iff.1 hb).1
  refine h.of_held ?_ rfl rfl rfl rfl
  simp only [ingressHeld,length_singleton]
  omega

/-- Taking a reservation out of the handles puts its chunks on their way back to the egress
pool. -/
theorem Accounted.eraseReservation (h : s.Accounted 0 0) {i : ℕ} {r : EgressReservation}
    (hr : s.reservations[i]? = some r) :
    IoPools.Accounted { s with reservations := s.reservations.eraseIdx i } 0 r.chunks.length := by
  have hsum := sum_map_eq_add_eraseIdx (·.chunks.length) hr
  refine h.of_held rfl ?_ rfl rfl rfl
  simp only [egressHeld]
  omega

/-- Handing an ingress payload to the egress pool moves its chunks from the ingress handles'
count to the egress handles'. -/
theorem held_retarget {p : ℕ} {shared : SharedPayload} (hp : s.payloads[p]? = some shared)
    (hing : shared.payload.recycler = .ingress) :
    IoPools.ingressHeld { s with payloads := (s.payloads.set p
        { shared with payload := { shared.payload with recycler := .egress } }) } + shared.payload.segmentCount =
        s.ingressHeld ∧
      IoPools.egressHeld { s with payloads := (s.payloads.set p
        { shared with payload := { shared.payload with recycler := .egress } }) } =
        s.egressHeld + shared.payload.segmentCount := by
  have hi := sum_map_set_add (SharedPayload.chunksFor .ingress) hp
    { shared with payload := { shared.payload with recycler := .egress } }
  have he := sum_map_set_add (SharedPayload.chunksFor .egress) hp
    { shared with payload := { shared.payload with recycler := .egress } }
  simp only [SharedPayload.chunksFor,hing,PooledPayload.segmentCount,if_true,reduceCtorEq,if_false] at hi he
  simp only [ingressHeld,egressHeld,PooledPayload.segmentCount]
  omega

/-- A dropped payload's chunks return to the pool its recycler names. -/
theorem recycle_spec {payload : PooledPayload}
    (h : s.Accounted (if payload.recycler = .ingress then payload.segmentCount else 0)
      (if payload.recycler = .egress then payload.segmentCount else 0)) :
    ∃ ingress requests egress, s.recycle payload =
        some { s with ingress := ingress, requests := requests, egress := egress } ∧
      IoPools.Accounted { s with ingress := ingress, requests := requests, egress := egress } 0 0 := by
  have hlen : (payload.segments.map (·.chunk)).length = payload.segmentCount := length_map _
  rcases hr : payload.recycler with _ | _
  · simp only [hr,if_true,reduceCtorEq,if_false] at h
    have h' : s.Accounted (payload.segments.map (·.chunk)).length 0 := by rwa [hlen]
    exact ⟨_,s.requests,s.egress,by simp [recycle,hr]; rfl,returnIngressChunks_accounted h'⟩
  · simp only [hr,if_true,reduceCtorEq,if_false] at h
    have h' : s.Accounted 0 (payload.segments.map (·.chunk)).length := by rwa [hlen]
    obtain ⟨requests,egress,hd,ha⟩ := returnEgressChunks_spec h'
    exact ⟨s.ingress,requests,egress,by simp only [recycle,hr]; exact hd,ha⟩

/-- What every call keeps: the account of both pools, and a live lease over every shared
payload. -/
structure Invariant (pools : IoPools) : Prop where
  accounted : pools.Accounted 0 0
  leases_ne_nil : ∀ shared ∈ pools.payloads, shared.leases ≠ []

/-- Replacing the requests and the egress pool, as delivery does, keeps the payloads. -/
theorem Invariant.of_frame {requests : List PoolRequest} {egress : EgressPoolState} (h : s.Invariant)
    (ha : IoPools.Accounted { s with requests := requests, egress := egress } 0 0) :
    IoPools.Invariant { s with requests := requests, egress := egress } :=
  ⟨ha,h.leases_ne_nil⟩

/-- Chunks returned to the egress pool keep the invariant, whatever the dispatch then does. -/
theorem invariant_returnEgressChunks {t : IoPools} {chunks : List PooledChunk} (ha : t.Accounted 0 chunks.length)
    (hl : ∀ shared ∈ t.payloads, shared.leases ≠ []) :
    ∃ s', t.returnEgressChunks chunks = some s' ∧ s'.Invariant := by
  obtain ⟨requests,egress,hd,ha'⟩ := returnEgressChunks_spec ha
  exact ⟨_,hd,ha',hl⟩

/-- A call that returns a state keeping the invariant does not panic. -/
theorem Invariant.of_exists {r : Option IoPools} {debugAssertions : Bool} (h : ∃ s', r = some s' ∧ s'.Invariant) :
    (r = none → debugAssertions = true) ∧ ∀ s', r = some s' → s'.Invariant := by
  obtain ⟨s',rfl,hs'⟩ := h
  exact ⟨fun hn => (by cases hn),fun s'' he => by cases he; exact hs'⟩

end IoPools

namespace IoPools

variable {s s' : IoPools}

theorem Invariant.ingressTryAcquire (h : s.Invariant) : s.ingressTryAcquire.Invariant := by
  have ha := h.accounted
  rcases Nat.eq_zero_or_pos s.ingress.chunks.reservableChunkCount with h0 | hpos
  · rw [IoPools.ingressTryAcquire,ha.ingress.reserveOne.2 h0]
    exact h
  · obtain ⟨chunk,hc,ha',-⟩ := ha.ingress.reserveOne.1 hpos
    have hr : s.ingress.chunks.reserveOne = (some chunk,s.ingress.chunks.reserveOne.2) := Prod.ext hc rfl
    rw [IoPools.ingressTryAcquire,hr]
    refine ⟨⟨?_,ha.egress,(ChunkPoolState.config_reserveOne _).trans ha.ingress_config,ha.egress_config⟩,
      h.leases_ne_nil⟩
    simpa [ingressHeld,Nat.add_right_comm] using ha'

theorem Invariant.ingressWrite (h : s.Invariant) (buffer : ℕ) (bytes : List UInt8) :
    (s.ingressWrite buffer bytes).Invariant := by
  unfold IoPools.ingressWrite
  split
  · exact h
  · exact ⟨⟨by simpa [ingressHeld] using h.accounted.ingress,h.accounted.egress,h.accounted.ingress_config,
      h.accounted.egress_config⟩,h.leases_ne_nil⟩

theorem Invariant.ingressCommit (h : s.Invariant) (buffer writtenBytes : ℕ) :
    (s.ingressCommit buffer writtenBytes).Invariant := by
  unfold IoPools.ingressCommit
  split
  · exact h
  · rename_i chunk hb
    have hout := h.accounted.eraseBuffer hb
    split_ifs
    · exact ⟨returnIngressChunks_accounted hout,h.leases_ne_nil⟩
    · -- the buffer's chunk becomes the one segment of an ingress payload
      refine ⟨⟨?_,?_,h.accounted.ingress_config,h.accounted.egress_config⟩,?_⟩
      · simpa [ingressHeld,SharedPayload.chunksFor,IoLease.fromPooled,PooledPayload.new,
          PooledPayload.segmentCount,Nat.add_assoc,Nat.add_comm 1] using hout.ingress
      · simpa [egressHeld,SharedPayload.chunksFor,IoLease.fromPooled,PooledPayload.new] using hout.egress
      · exact forall_mem_append.2 ⟨h.leases_ne_nil,by simp⟩

theorem Invariant.ingressDrop (h : s.Invariant) (buffer : ℕ) : (s.ingressDrop buffer).Invariant := by
  unfold IoPools.ingressDrop
  split
  · exact h
  · rename_i chunk hb
    exact ⟨returnIngressChunks_accounted (h.accounted.eraseBuffer hb),h.leases_ne_nil⟩

end IoPools


namespace IoPools

variable {s s' : IoPools}

theorem Invariant.egressReserve (h : s.Invariant) (requestedBytes : ℕ) :
    ∃ s', s.egressReserve requestedBytes = some s' ∧ s'.Invariant := by
  unfold IoPools.egressReserve
  split_ifs
  · exact ⟨s,rfl,h⟩
  · exact ⟨s,rfl,h⟩
  · -- the new request holds nothing until the waiter is served
    have ha : IoPools.Accounted { s with
        requests := s.requests ++ [⟨s.nextRequest,.pending⟩]
        nextRequest := s.nextRequest + 1
        egress := { s.egress with waiters := s.egress.waiters ++ [⟨.exact requestedBytes,s.nextRequest⟩] } } 0 0 :=
      ⟨by simpa [ingressHeld] using h.accounted.ingress,
        by simpa [egressHeld,PoolRequest.chunkCount] using h.accounted.egress,
        h.accounted.ingress_config,h.accounted.egress_config⟩
    obtain ⟨requests,egress,hd,ha'⟩ := dispatchAndDeliver_spec ha
    exact ⟨_,hd,ha',h.leases_ne_nil⟩

theorem Invariant.requestReceive (h : s.Invariant) (request : ℕ) : (s.requestReceive request).Invariant := by
  unfold IoPools.requestReceive
  split
  · rename_i id reservation hr
    -- the reservation moves from the channel to the caller
    have hsum := sum_map_set_add PoolRequest.chunkCount hr ⟨id,.taken⟩
    simp only [PoolRequest.chunkCount,add_zero] at hsum
    refine ⟨h.accounted.of_held ?_ ?_ rfl rfl rfl,h.leases_ne_nil⟩
    · simp [ingressHeld]
    · simp only [egressHeld,map_append,sum_append,map_cons,map_nil,sum_cons,sum_nil,add_zero]
      omega
  · exact h

theorem Invariant.requestDrop (h : s.Invariant) (request : ℕ) :
    ∃ s', s.requestDrop request = some s' ∧ s'.Invariant := by
  unfold IoPools.requestDrop
  split
  · exact ⟨s,rfl,h⟩
  · rename_i id reply hr
    have hsum := sum_map_eq_add_eraseIdx PoolRequest.chunkCount hr
    have hout : IoPools.Accounted { s with requests := s.requests.eraseIdx request } 0
        (PoolRequest.chunkCount ⟨id,reply⟩) := by
      refine h.accounted.of_held ?_ ?_ rfl rfl rfl
      · simp [ingressHeld]
      · simp only [egressHeld]
        omega
    split
    · -- a reservation waiting in the channel is dropped with it
      exact invariant_returnEgressChunks hout h.leases_ne_nil
    · rename_i hnot
      have hzero : PoolRequest.chunkCount ⟨id,reply⟩ = 0 := by
        cases reply with
        | ready r => exact absurd rfl (hnot r)
        | _ => rfl
      rw [hzero] at hout
      exact ⟨_,rfl,hout,h.leases_ne_nil⟩

theorem Invariant.reservationDrop (h : s.Invariant) (reservation : ℕ) :
    ∃ s', s.reservationDrop reservation = some s' ∧ s'.Invariant := by
  unfold IoPools.reservationDrop
  split
  · exact ⟨s,rfl,h⟩
  · rename_i r hr
    exact invariant_returnEgressChunks (h.accounted.eraseReservation hr) h.leases_ne_nil

/-- `copy_bytes` panics only on its debug assertion, and otherwise keeps the account: the chunks
of the reservation are in the new lease or back in the pool. -/
theorem Invariant.reservationCopyBytes (h : s.Invariant) (debugAssertions : Bool) (reservation : ℕ)
    (bytes : List UInt8) :
    (s.reservationCopyBytes debugAssertions reservation bytes = none → debugAssertions = true) ∧
      ∀ s', s.reservationCopyBytes debugAssertions reservation bytes = some s' → s'.Invariant := by
  unfold IoPools.reservationCopyBytes
  split
  · exact ⟨by simp,fun s' hs => by cases hs; exact h⟩
  · rename_i r hr
    have hsum := sum_map_eq_add_eraseIdx (·.chunks.length) hr
    split
    · rename_i hc
      exact ⟨fun _ => EgressReservation.debugAssertions_of_copyBytes_eq_none hc,fun s' hs => by cases hs⟩
    · rename_i lease unused hc
      obtain ⟨e,he,-⟩ | ⟨lease',hl,hrec,-,-,hcount⟩ := EgressReservation.copyBytes_eq_some hc
      · cases he
      cases hl
      -- the used chunks stay in the new egress lease, the unused ones go back
      have hout : IoPools.Accounted { s with
          reservations := s.reservations.eraseIdx reservation
          payloads := s.payloads ++ [⟨lease.payload,[(lease.offset,lease.len)]⟩] } 0 unused.length := by
        refine h.accounted.of_held ?_ ?_ rfl rfl rfl
        · simp [ingressHeld,SharedPayload.chunksFor,hrec]
        · simp only [egressHeld,map_append,sum_append,map_cons,map_nil,sum_cons,sum_nil,SharedPayload.chunksFor,
            hrec,if_true]
          omega
      exact Invariant.of_exists (invariant_returnEgressChunks hout (forall_mem_append.2 ⟨h.leases_ne_nil,by simp⟩))
    · rename_i e chunks hc
      obtain ⟨e',-,rfl⟩ | ⟨lease',hl,-⟩ := EgressReservation.copyBytes_eq_some hc
      · -- a refused copy returns the whole reservation
        exact Invariant.of_exists (invariant_returnEgressChunks (h.accounted.eraseReservation hr) h.leases_ne_nil)
      · cases hl

/-- Replacing the leases over a payload by other live ones changes no count. -/
theorem Invariant.setLeases (h : s.Invariant) {p : ℕ} {shared : SharedPayload} (hp : s.payloads[p]? = some shared)
    {leases : List (ℕ × ℕ)} (hne : leases ≠ []) :
    IoPools.Invariant { s with payloads := s.payloads.set p { shared with leases := leases } } := by
  have hi := sum_map_set_add (SharedPayload.chunksFor .ingress) hp { shared with leases := leases }
  have he := sum_map_set_add (SharedPayload.chunksFor .egress) hp { shared with leases := leases }
  simp only [SharedPayload.chunksFor] at hi he
  refine ⟨h.accounted.of_held ?_ ?_ rfl rfl rfl,fun x hx => ?_⟩
  · simp only [ingressHeld]
    omega
  · simp only [egressHeld]
    omega
  · obtain ⟨hlt,-⟩ := List.getElem?_eq_some_iff.1 hp
    rcases mem_or_eq_of_mem_set hx with hx | rfl
    · exact h.leases_ne_nil x hx
    · exact hne

/-- Dropping a lease: the last one over a payload returns the payload's chunks to its pool. -/
theorem Invariant.leaseDrop (h : s.Invariant) (p k : ℕ) : ∃ s', s.leaseDrop p k = some s' ∧ s'.Invariant := by
  unfold IoPools.leaseDrop
  split
  · exact ⟨s,rfl,h⟩
  · rename_i shared hp
    split_ifs with hk hnil
    · have hi := sum_map_eq_add_eraseIdx (SharedPayload.chunksFor .ingress) hp
      have he := sum_map_eq_add_eraseIdx (SharedPayload.chunksFor .egress) hp
      have hout : IoPools.Accounted { s with payloads := s.payloads.eraseIdx p }
          (if shared.payload.recycler = .ingress then shared.payload.segmentCount else 0)
          (if shared.payload.recycler = .egress then shared.payload.segmentCount else 0) := by
        refine h.accounted.of_held ?_ ?_ rfl rfl rfl
        · simp only [ingressHeld,SharedPayload.chunksFor] at hi ⊢
          omega
        · simp only [egressHeld,SharedPayload.chunksFor] at he ⊢
          omega
      obtain ⟨ingress,requests,egress,hd,ha⟩ := recycle_spec hout
      exact ⟨_,hd,ha,fun x hx => h.leases_ne_nil x (mem_of_mem_eraseIdx hx)⟩
    · exact ⟨_,rfl,h.setLeases hp hnil⟩
    · exact ⟨s,rfl,h⟩

theorem Invariant.leaseClone (h : s.Invariant) (p k : ℕ) : (s.leaseClone p k).Invariant := by
  unfold IoPools.leaseClone
  split
  · exact h
  · rename_i shared hp
    split
    · exact h
    · exact h.setLeases hp (by simp)

theorem Invariant.leaseTrySlice (h : s.Invariant) (p k rangeStart rangeEnd : ℕ) :
    ∃ s', s.leaseTrySlice p k rangeStart rangeEnd = some s' ∧ s'.Invariant := by
  unfold IoPools.leaseTrySlice
  split
  · exact ⟨s,rfl,h⟩
  · rename_i shared hp
    split
    · exact ⟨s,rfl,h⟩
    · rename_i lease hl
      split
      · -- the sliced lease stays over the same payload
        have hne : shared.leases ≠ [] := h.leases_ne_nil shared (mem_of_getElem? hp)
        exact ⟨_,rfl,h.setLeases hp (by simpa using hne)⟩
      · exact h.leaseDrop p k

/-- Adopting the only lease over an ingress payload moves its chunks' count from the ingress
pool to the egress pool; every other case keeps the lease or drops it. -/
theorem Invariant.adoptLease (h : s.Invariant) (p k : ℕ) : ∃ s', s.adoptLease p k = some s' ∧ s'.Invariant := by
  unfold IoPools.adoptLease
  split
  · exact ⟨s,rfl,h⟩
  · rename_i shared hp
    split_ifs with hk hrec hshared
    · exact ⟨s,rfl,h⟩
    · exact h.leaseDrop p k
    · have hing : shared.payload.recycler = .ingress := by
        cases hr : shared.payload.recycler
        · rfl
        · exact absurd hr hrec
      set n := shared.payload.segmentCount
      dsimp only
      by_cases hle : s.egress.chunks.allocated + n ≤ s.egress.chunks.config.maxChunkCount
      swap
      · -- the egress pool refuses the import, and the lease is dropped
        rw [(h.accounted.egress.importLiveChunks (n := n)).2 (not_le.1 hle)]
        exact h.leaseDrop p k
      obtain ⟨himp,hegress⟩ := (h.accounted.egress.importLiveChunks (n := n)).1 hle
      rw [himp]
      -- the payload's chunks now count for the egress handles, no longer for the ingress ones
      obtain ⟨hi,he⟩ := held_retarget hp hing
      have hrel : s.ingress.chunks.Accounts (IoPools.ingressHeld { s with payloads := (s.payloads.set p
          { shared with payload := { shared.payload with recycler := .egress } }) } + n) := by
        rw [hi]
        simpa using h.accounted.ingress
      obtain ⟨ingress',hr,ha,hcfg,-⟩ := hrel.releaseLiveChunks
      simp only [IngressPoolState.releaseLiveChunks,hr,Option.map_some]
      refine ⟨_,rfl,⟨⟨?_,?_,hcfg.trans h.accounted.ingress_config,h.accounted.egress_config⟩,?_⟩⟩
      · simpa [ingressHeld] using ha
      · show ChunkPoolState.Accounts _ (IoPools.egressHeld { s with payloads := (s.payloads.set p
          { shared with payload := { shared.payload with recycler := .egress } }) } + 0)
        rw [he]
        simpa using hegress
      · intro x hx
        rcases mem_or_eq_of_mem_set hx with hx | rfl
        · exact h.leases_ne_nil x hx
        · exact h.leases_ne_nil shared (mem_of_getElem? hp)
    · exact ⟨s,rfl,h⟩

theorem invariant_new {config : IoBufferConfig} {pools : IoPools} (h : IoPools.new config = .ok pools) :
    pools.Invariant := by
  cases hv : config.validate with
  | error e => simp [IoPools.new,hv] at h
  | ok u =>
    simp only [IoPools.new,hv,bind,Except.bind,pure,Except.pure,Except.ok.injEq] at h
    subst h
    obtain ⟨hi,he⟩ := IoBufferConfig.validate_eq_ok.1 hv
    exact ⟨⟨by simpa [ingressHeld] using ChunkPoolState.accounts_new hi.initial_le,
      by simpa [egressHeld] using ChunkPoolState.accounts_new he.initial_le,rfl,rfl⟩,by simp⟩

/-- Every call keeps the invariant, and only `copy_bytes` panics, on its debug assertion. -/
theorem Invariant.step (h : s.Invariant) (debugAssertions : Bool) (call : PoolCall) :
    (s.step debugAssertions call = none → debugAssertions = true) ∧
      ∀ s', s.step debugAssertions call = some s' → s'.Invariant := by
  -- every call but `copy_bytes` returns a state
  cases call with
  | ingressTryAcquire => exact Invariant.of_exists ⟨_,rfl,h.ingressTryAcquire⟩
  | ingressWrite buffer bytes => exact Invariant.of_exists ⟨_,rfl,h.ingressWrite buffer bytes⟩
  | ingressCommit buffer writtenBytes => exact Invariant.of_exists ⟨_,rfl,h.ingressCommit buffer writtenBytes⟩
  | ingressDrop buffer => exact Invariant.of_exists ⟨_,rfl,h.ingressDrop buffer⟩
  | egressReserve requestedBytes => exact Invariant.of_exists (h.egressReserve requestedBytes)
  | requestReceive request => exact Invariant.of_exists ⟨_,rfl,h.requestReceive request⟩
  | requestDrop request => exact Invariant.of_exists (h.requestDrop request)
  | reservationCopyBytes reservation bytes => exact h.reservationCopyBytes debugAssertions reservation bytes
  | reservationDrop reservation => exact Invariant.of_exists (h.reservationDrop reservation)
  | adoptLease p k => exact Invariant.of_exists (h.adoptLease p k)
  | leaseClone p k => exact Invariant.of_exists ⟨_,rfl,h.leaseClone p k⟩
  | leaseTrySlice p k rangeStart rangeEnd => exact Invariant.of_exists (h.leaseTrySlice p k rangeStart rangeEnd)
  | leaseDrop p k => exact Invariant.of_exists (h.leaseDrop p k)

/-- Over any run of calls the invariant holds; in a build without debug assertions no call
panics. -/
theorem Invariant.run (h : s.Invariant) (debugAssertions : Bool) (calls : List PoolCall) :
    (s.run debugAssertions calls = none → debugAssertions = true) ∧
      ∀ s', s.run debugAssertions calls = some s' → s'.Invariant := by
  induction calls generalizing s with
  | nil => exact ⟨fun hn => (by cases hn),fun s' he => by cases he; exact h⟩
  | cons call calls ih =>
    obtain ⟨hpanic,hstep⟩ := h.step debugAssertions call
    simp only [IoPools.run,foldlM_cons] at ih ⊢
    rcases hs : s.step debugAssertions call with _ | s₁
    · exact ⟨fun _ => hpanic hs,fun s' he => by simp at he⟩
    · simpa [hs] using ih (hstep s₁ hs)

/-- Once no handle is left, each pool can again reserve up to its maximum. -/
theorem Invariant.reservableChunkCount_eq_max (h : s.Invariant) (hb : s.buffers = []) (hq : s.requests = [])
    (hr : s.reservations = []) (hp : s.payloads = []) :
    s.ingress.chunks.reservableChunkCount = s.config.ingress.maxChunkCount ∧
      s.egress.chunks.reservableChunkCount = s.config.egress.maxChunkCount := by
  have hi : s.ingressHeld = 0 := by simp [ingressHeld,hb,hp]
  have he : s.egressHeld = 0 := by simp [egressHeld,hq,hr,hp]
  have ai := h.accounted.ingress
  have ae := h.accounted.egress
  rw [hi] at ai
  rw [he] at ae
  exact ⟨(ai.reservableChunkCount_eq).trans (by rw [h.accounted.ingress_config]),
    (ae.reservableChunkCount_eq).trans (by rw [h.accounted.egress_config])⟩

end IoPools

/-- Pools whose chunk sizes differ, both valid: ingress chunks of 128 bytes, egress chunks of
256. An ingress lease of 4 bytes is adopted by the egress pool and dropped, so its 128-byte
chunk enters the egress free queue; an exact reservation of 200 bytes needs one egress chunk and
gets that one. `copy_bytes` of 200 bytes then returns a lease of only the first 128; with debug
assertions it panics. -/
theorem copy_bytes_after_adopting_ingress_lease_truncates :
    (⟨⟨128,1,2,8⟩,⟨256,0,2,8⟩⟩ : IoBufferConfig).validate = .ok () ∧
      ((IoPools.new ⟨⟨128,1,2,8⟩,⟨256,0,2,8⟩⟩).toOption.bind fun pools =>
        pools.run false [.ingressTryAcquire,.ingressCommit 0 4,.adoptLease 0 0,.leaseDrop 0 0,
          .egressReserve 200,.requestReceive 0]).map (·.reservations) = some [⟨200,[newChunk 128]⟩] ∧
      (∃ lease unused, EgressReservation.copyBytes false ⟨200,[newChunk 128]⟩ (replicate 200 7) =
          some (.ok lease,unused) ∧ lease.toVec = some (replicate 128 7)) ∧
      EgressReservation.copyBytes true ⟨200,[newChunk 128]⟩ (replicate 200 7) = none := by
  have hcap : capacity [newChunk 128] = 128 := by simp [capacity,newChunk]
  have hne : replicate 200 (7 : UInt8) ≠ [] := ne_nil_of_length_pos (by rw [length_replicate]; decide)
  have hle : (replicate 200 (7 : UInt8)).length ≤ EgressReservation.reservedBytes ⟨200,[newChunk 128]⟩ :=
    length_replicate.le
  refine ⟨IoBufferConfig.validate_eq_ok.2 ⟨⟨by decide,by decide,by decide,by decide⟩,
    ⟨by decide,by decide,by decide,by decide⟩⟩,by decide +kernel,?_,?_⟩
  · obtain ⟨lease,unused,hc,-,hv⟩ := @EgressReservation.copyBytes_eq_ok false _ _ hne hle
      (fun c hc => by rw [mem_singleton.1 hc,newChunk,length_replicate]; decide) (.inl rfl)
    refine ⟨lease,unused,hc,?_⟩
    rw [hv,hcap,take_replicate]
    rfl
  · exact EgressReservation.copyBytes_eq_none hne hle (by rw [hcap,length_replicate]; decide)





end Flotsync.Io
