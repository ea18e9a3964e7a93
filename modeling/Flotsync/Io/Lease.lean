import Flotsync.Io.ChunkPool

/-!
Leases over pooled chunks (`pool/mod.rs`, `pool/egress.rs`): a `PooledPayload` is a list of
segments, each a chunk and the number of bytes written into it; an `IoLease` is a window
`offset, len` over one. Reading goes through `PooledCursor`, which walks the segments by index
and offset, and `IoCursor`, which caps it at the lease's length; `to_vec` loops over the
cursor's chunks. Egress leases are made by `copy_bytes_into_chunks` and
`split_chunks_by_written_prefix`.

The readable bytes of a payload are the written prefixes of its segments in order. On a
well-formed payload the cursor's unread bytes are always a suffix of them, so `to_vec` returns
the lease's window (`IoLease.toVec_eq`). Copying into chunks keeps as many bytes as the chunks
hold, so a lease made by `copy_bytes` reads back its bytes cut to the chunks' capacity
(`EgressReservation.copyBytes_eq_ok`).
-/

set_option autoImplicit false

namespace Flotsync.Io

open List

structure LeaseSegment where
  chunk : PooledChunk
  writtenLen : ℕ
  deriving DecidableEq, Repr

/-- Which pool the chunks of a payload go back to. -/
inductive LeaseRecycler where
  | ingress
  | egress
  deriving DecidableEq, Repr

structure PooledPayload where
  segments : List LeaseSegment
  len : ℕ
  recycler : LeaseRecycler
  deriving DecidableEq, Repr

def PooledPayload.new (segments : List LeaseSegment) (recycler : LeaseRecycler) : PooledPayload :=
  ⟨segments,(segments.map (·.writtenLen)).sum,recycler⟩

def PooledPayload.segmentCount (self : PooledPayload) : ℕ := self.segments.length

structure IoLease where
  payload : PooledPayload
  offset : ℕ
  len : ℕ
  deriving DecidableEq, Repr

namespace IoLease

def fromPooled (segments : List LeaseSegment) (recycler : LeaseRecycler) : IoLease :=
  let payload := PooledPayload.new segments recycler
  ⟨payload,0,payload.len⟩

def isEmpty (self : IoLease) : Bool := self.len == 0

def trySlice (self : IoLease) (rangeStart rangeEnd : ℕ) : Option IoLease :=
  if rangeStart > rangeEnd || rangeEnd > self.len then none
  else some ⟨self.payload,self.offset + rangeStart,rangeEnd - rangeStart⟩

end IoLease

structure PooledCursor where
  payload : PooledPayload
  segmentIndex : ℕ
  segmentOffset : ℕ
  remaining : ℕ
  deriving DecidableEq, Repr

namespace PooledCursor

def new (payload : PooledPayload) : PooledCursor := ⟨payload,0,0,payload.len⟩

/-- `none` is a panic: the segment index out of bounds, or the slice
`chunk[segment_offset..written_len]` out of range. -/
def chunk (self : PooledCursor) : Option (List UInt8) :=
  if self.remaining = 0 then some []
  else match self.payload.segments[self.segmentIndex]? with
    | none => none
    | some segment =>
      if self.segmentOffset ≤ segment.writtenLen ∧ segment.writtenLen ≤ segment.chunk.length then
        some ((segment.chunk.take segment.writtenLen).drop self.segmentOffset)
      else none

/-- The `while cnt > 0` loop of `advance`. Each round either consumes bytes or passes a
segment, and an index past the last segment panics. -/
def advanceLoop (self : PooledCursor) (cnt : ℕ) : Option PooledCursor :=
  if cnt = 0 then some self
  else match _h : self.payload.segments[self.segmentIndex]? with
    | none => none
    | some segment =>
      -- `available` is `segment.written_len - self.segment_offset`
      if cnt < segment.writtenLen - self.segmentOffset then
        some { self with segmentOffset := self.segmentOffset + cnt, remaining := self.remaining - cnt }
      else
        advanceLoop ⟨self.payload,self.segmentIndex + 1,0,self.remaining - (segment.writtenLen - self.segmentOffset)⟩
          (cnt - (segment.writtenLen - self.segmentOffset))
termination_by cnt + (self.payload.segments.length - self.segmentIndex)
decreasing_by
  have := (List.getElem?_eq_some_iff.1 _h).1
  omega

def advance (self : PooledCursor) (cnt : ℕ) : Option PooledCursor :=
  if cnt ≤ self.remaining then self.advanceLoop cnt else none

end PooledCursor

structure IoCursor where
  inner : PooledCursor
  remaining : ℕ
  deriving DecidableEq, Repr

namespace IoCursor

def chunk (self : IoCursor) : Option (List UInt8) :=
  if self.remaining = 0 then some []
  else self.inner.chunk.map fun chunk => chunk.take (min self.remaining chunk.length)

def advance (self : IoCursor) (cnt : ℕ) : Option IoCursor :=
  if cnt ≤ self.remaining then (self.inner.advance cnt).map fun inner => ⟨inner,self.remaining - cnt⟩
  else none

theorem remaining_of_advance {self next : IoCursor} {cnt : ℕ} (h : self.advance cnt = some next) :
    next.remaining = self.remaining - cnt := by
  unfold advance at h
  split_ifs at h
  obtain ⟨inner,-,rfl⟩ := Option.map_eq_some_iff.1 h
  rfl

/-- The loop of `to_vec`. An empty chunk while bytes remain fails its `debug_assert!`; a
release build would spin there. Neither happens on a well-formed payload. -/
def toVecLoop (cursor : IoCursor) (bytes : List UInt8) : Option (List UInt8) :=
  if cursor.remaining = 0 then some bytes
  else match cursor.chunk with
    | none => none
    | some chunk =>
      if chunk.length = 0 then none
      else match _h : cursor.advance chunk.length with
        | none => none
        | some next => toVecLoop next (bytes ++ chunk)
termination_by cursor.remaining
decreasing_by
  rw [remaining_of_advance _h]
  omega

end IoCursor

namespace IoLease

def cursor (self : IoLease) : Option IoCursor :=
  let cursor := PooledCursor.new self.payload
  (if self.offset > 0 then cursor.advance self.offset else some cursor).map fun inner => ⟨inner,self.len⟩

def toVec (self : IoLease) : Option (List UInt8) :=
  if self.isEmpty then some [] else self.cursor.bind fun cursor => cursor.toVecLoop []

end IoLease

/-! ### Reading a well-formed payload -/

def LeaseSegment.bytes (self : LeaseSegment) : List UInt8 := self.chunk.take self.writtenLen

namespace PooledPayload

/-- The payload's bytes: the written prefix of each segment, in order. -/
def readable (self : PooledPayload) : List UInt8 := (self.segments.map LeaseSegment.bytes).flatten

/-- What every payload the pools build satisfies: `len` is the sum of the written lengths, and
every segment has written bytes, within its chunk. -/
structure WellFormed (payload : PooledPayload) : Prop where
  len_eq : payload.len = (payload.segments.map (·.writtenLen)).sum
  written_pos : ∀ segment ∈ payload.segments, 0 < segment.writtenLen
  written_le : ∀ segment ∈ payload.segments, segment.writtenLen ≤ segment.chunk.length

theorem length_bytes {segment : LeaseSegment} (h : segment.writtenLen ≤ segment.chunk.length) :
    segment.bytes.length = segment.writtenLen := by
  simp [LeaseSegment.bytes,h]

theorem length_flatten_bytes {segments : List LeaseSegment}
    (h : ∀ segment ∈ segments, segment.writtenLen ≤ segment.chunk.length) :
    ((segments.map LeaseSegment.bytes).flatten).length = (segments.map (·.writtenLen)).sum := by
  induction segments with
  | nil => rfl
  | cons segment segments ih =>
    simp only [map_cons,flatten_cons,length_append,sum_cons]
    rw [length_bytes (h _ mem_cons_self),ih fun s hs => h s (mem_cons_of_mem _ hs)]

theorem WellFormed.length_readable {self : PooledPayload} (h : self.WellFormed) :
    self.readable.length = self.len := by
  rw [readable,length_flatten_bytes h.written_le,h.len_eq]

theorem wellFormed_new {segments : List LeaseSegment} {recycler : LeaseRecycler}
    (hpos : ∀ segment ∈ segments, 0 < segment.writtenLen)
    (hle : ∀ segment ∈ segments, segment.writtenLen ≤ segment.chunk.length) :
    (new segments recycler).WellFormed :=
  ⟨rfl,hpos,hle⟩

end PooledPayload

namespace PooledCursor

/-- The bytes this cursor has still to read: the segments from its index on, less the bytes
of the current segment before its offset. -/
def unread (self : PooledCursor) : List UInt8 :=
  ((self.payload.segments.drop self.segmentIndex).map LeaseSegment.bytes).flatten.drop self.segmentOffset

/-- The cursor stands inside its segment, and `remaining` counts what it has to read. -/
structure Valid (cursor : PooledCursor) : Prop where
  wellFormed : cursor.payload.WellFormed
  offset_lt : ∀ segment, cursor.payload.segments[cursor.segmentIndex]? = some segment →
    cursor.segmentOffset < segment.writtenLen
  remaining_eq : cursor.remaining = cursor.unread.length

theorem valid_new {payload : PooledPayload} (h : payload.WellFormed) : (new payload).Valid := by
  refine ⟨h,fun segment hs => ?_,?_⟩
  · exact h.written_pos _ (mem_of_getElem? hs)
  · simp [new,unread,← h.length_readable,PooledPayload.readable]

theorem unread_new (payload : PooledPayload) : (new payload).unread = payload.readable := by
  simp [new,unread,PooledPayload.readable]

variable {c : PooledCursor} {segment : LeaseSegment}

/-- At a segment, the unread bytes are the rest of it and then the segments after it. -/
theorem unread_eq_of_getElem? (h : c.payload.segments[c.segmentIndex]? = some segment)
    (hle : c.segmentOffset ≤ segment.bytes.length) :
    c.unread = segment.bytes.drop c.segmentOffset ++
      ((c.payload.segments.drop (c.segmentIndex + 1)).map LeaseSegment.bytes).flatten := by
  obtain ⟨hi,hs⟩ := List.getElem?_eq_some_iff.1 h
  have hd : c.payload.segments.drop c.segmentIndex = segment :: c.payload.segments.drop (c.segmentIndex + 1) := by
    rw [List.drop_eq_getElem_cons hi,hs]
  rw [unread,hd,map_cons,flatten_cons,drop_append_of_le_length hle]

theorem unread_eq_nil_of_getElem? (h : c.payload.segments[c.segmentIndex]? = none) : c.unread = [] := by
  rw [getElem?_eq_none_iff] at h
  simp [unread,drop_eq_nil_of_le h]

theorem Valid.segment_written_le (hc : c.Valid) (h : c.payload.segments[c.segmentIndex]? = some segment) :
    segment.writtenLen ≤ segment.chunk.length :=
  hc.wellFormed.written_le _ (mem_of_getElem? h)

/-- A cursor with bytes left returns the rest of its segment, which is not empty. -/
theorem Valid.chunk_eq (hc : c.Valid) (hr : c.remaining ≠ 0) :
    ∃ segment, c.payload.segments[c.segmentIndex]? = some segment ∧
      c.chunk = some (segment.bytes.drop c.segmentOffset) ∧ c.segmentOffset < segment.bytes.length := by
  rcases h : c.payload.segments[c.segmentIndex]? with _ | segment
  · exact absurd (by rw [hc.remaining_eq,unread_eq_nil_of_getElem? h]; rfl) hr
  · have hle := hc.segment_written_le h
    have hlt := hc.offset_lt segment h
    refine ⟨segment,rfl,?_,by rw [PooledPayload.length_bytes hle]; exact hlt⟩
    simp only [chunk,if_neg hr,h,if_pos (And.intro hlt.le hle),LeaseSegment.bytes]

/-- The advance loop reads `cnt` bytes off the unread ones and keeps the cursor valid. -/
theorem Valid.advanceLoop (hc : c.Valid) {cnt : ℕ} (hcnt : cnt ≤ c.remaining) :
    ∃ c', c.advanceLoop cnt = some c' ∧ c'.Valid ∧ c'.unread = c.unread.drop cnt ∧
      c'.payload = c.payload := by
  fun_induction PooledCursor.advanceLoop c cnt with
  | case1 c => exact ⟨c,rfl,hc,rfl,rfl⟩
  | case2 c cnt hcnt0 h =>
    -- past the last segment nothing is left to read
    rw [hc.remaining_eq,unread_eq_nil_of_getElem? h,length_nil] at hcnt
    omega
  | case3 c cnt hcnt0 segment h hlt =>
    have hoff := hc.offset_lt segment h
    refine ⟨_,rfl,⟨hc.wellFormed,fun s hs => ?_,?_⟩,?_,rfl⟩
    · dsimp only at hs ⊢
      rw [h,Option.some.injEq] at hs
      subst hs
      omega
    · show c.remaining - cnt =
        (((c.payload.segments.drop c.segmentIndex).map LeaseSegment.bytes).flatten.drop (c.segmentOffset + cnt)).length
      rw [← drop_drop,length_drop,← unread,← hc.remaining_eq]
    · exact (drop_drop ..).symm
  | case4 c cnt hcnt0 segment h hge ih =>
    have hle := hc.segment_written_le h
    have hoff := hc.offset_lt segment h
    have hlen := PooledPayload.length_bytes hle
    have hunread := unread_eq_of_getElem? h (by omega)
    have hrest : (segment.bytes.drop c.segmentOffset).length = segment.writtenLen - c.segmentOffset := by
      rw [length_drop,hlen]
    -- the next segment starts at offset zero: its bytes and those after are left
    have hnext : PooledCursor.Valid ⟨c.payload,c.segmentIndex + 1,0,
        c.remaining - (segment.writtenLen - c.segmentOffset)⟩ := by
      refine ⟨hc.wellFormed,fun s hs => hc.wellFormed.written_pos _ (mem_of_getElem? hs),?_⟩
      simp only [unread,drop_zero]
      rw [hc.remaining_eq,hunread,length_append,hrest]
      omega
    obtain ⟨c',hloop,hv,hu,hp⟩ := ih hnext (by simp only; omega)
    refine ⟨c',hloop,hv,?_,hp⟩
    have hnil : (segment.bytes.drop c.segmentOffset).drop cnt = [] := drop_eq_nil_of_le (by omega)
    rw [hu,hunread,drop_append,hnil,nil_append,hrest]
    simp only [unread,drop_zero]

theorem Valid.advance (hc : c.Valid) {cnt : ℕ} (hcnt : cnt ≤ c.remaining) :
    ∃ c', c.advance cnt = some c' ∧ c'.Valid ∧ c'.unread = c.unread.drop cnt ∧ c'.payload = c.payload := by
  rw [PooledCursor.advance,if_pos hcnt]
  exact hc.advanceLoop hcnt

end PooledCursor

namespace IoCursor

/-- The cursor of a lease: a valid inner cursor that sees at least the lease's bytes. -/
structure Valid (cursor : IoCursor) : Prop where
  inner_valid : cursor.inner.Valid
  remaining_le : cursor.remaining ≤ cursor.inner.remaining

def unread (self : IoCursor) : List UInt8 := self.inner.unread.take self.remaining

variable {c : IoCursor}

theorem Valid.length_unread (hc : c.Valid) : c.unread.length = c.remaining := by
  have := hc.inner_valid.remaining_eq
  have := hc.remaining_le
  simp only [unread,length_take]
  omega

/-- `to_vec` appends the cursor's unread bytes. -/
theorem Valid.toVecLoop (hc : c.Valid) (bytes : List UInt8) : c.toVecLoop bytes = some (bytes ++ c.unread) := by
  fun_induction IoCursor.toVecLoop c bytes with
  | case1 c bytes hr => simp [unread,hr]
  | case2 c bytes hr hchunk =>
    obtain ⟨segment,-,hin,-⟩ := hc.inner_valid.chunk_eq (by have := hc.remaining_le; omega)
    simp [IoCursor.chunk,hr,hin] at hchunk
  | case3 c bytes hr chunk hchunk hzero =>
    obtain ⟨segment,-,hin,hlt⟩ := hc.inner_valid.chunk_eq (by have := hc.remaining_le; omega)
    simp only [IoCursor.chunk,if_neg hr,hin,Option.map_some,Option.some.injEq] at hchunk
    subst hchunk
    simp only [length_take,length_drop] at hzero
    omega
  | case4 c bytes hr chunk hchunk hzero hadv =>
    obtain ⟨segment,-,hin,hlt⟩ := hc.inner_valid.chunk_eq (by have := hc.remaining_le; omega)
    have hk : chunk.length ≤ c.remaining := by
      simp only [IoCursor.chunk,if_neg hr,hin,Option.map_some,Option.some.injEq] at hchunk
      subst hchunk
      simp only [length_take]
      omega
    have hk' := hk.trans hc.remaining_le
    obtain ⟨inner,hinner,-⟩ := hc.inner_valid.advance hk'
    simp [IoCursor.advance,hk,hinner] at hadv
  | case5 c bytes hr chunk hchunk hzero next hadv ih =>
    obtain ⟨segment,hseg,hin,hlt⟩ := hc.inner_valid.chunk_eq (by have := hc.remaining_le; omega)
    simp only [IoCursor.chunk,if_neg hr,hin,Option.map_some,Option.some.injEq] at hchunk
    -- the chunk is the front of what the inner cursor has unread
    have hfront : c.inner.unread.take chunk.length = chunk := by
      rw [PooledCursor.unread_eq_of_getElem? hseg hlt.le,take_append_of_le_length (by rw [← hchunk]; simp),
        ← hchunk]
      simp
    have hk : chunk.length ≤ c.remaining := by rw [← hchunk]; simp only [length_take]; omega
    obtain ⟨inner,hinner,hv,hu,-⟩ := hc.inner_valid.advance (hk.trans hc.remaining_le)
    simp only [IoCursor.advance,if_pos hk,hinner,Option.map_some,Option.some.injEq] at hadv
    subst hadv
    have hnext : IoCursor.Valid ⟨inner,c.remaining - chunk.length⟩ := by
      have := hc.remaining_le
      refine ⟨hv,?_⟩
      show c.remaining - chunk.length ≤ inner.remaining
      rw [hv.remaining_eq,hu,length_drop,← hc.inner_valid.remaining_eq]
      omega
    have hsplit : c.inner.unread.take c.remaining =
        chunk ++ (c.inner.unread.drop chunk.length).take (c.remaining - chunk.length) :=
      calc c.inner.unread.take c.remaining
          = c.inner.unread.take (chunk.length + (c.remaining - chunk.length)) := by
            rw [Nat.add_sub_cancel' hk]
        _ = _ := by rw [take_add,hfront]
    rw [ih hnext,append_assoc]
    simp only [unread,hu,hsplit]

end IoCursor

namespace IoLease

/-- A window inside a well-formed payload. -/
structure Valid (lease : IoLease) : Prop where
  wellFormed : lease.payload.WellFormed
  window_le : lease.offset + lease.len ≤ lease.payload.len

/-- The lease's bytes: its window of the payload's readable bytes. -/
def bytes (self : IoLease) : List UInt8 := (self.payload.readable.drop self.offset).take self.len

variable {l l' : IoLease}

theorem Valid.cursor (h : l.Valid) : ∃ c, l.cursor = some c ∧ c.Valid ∧ c.unread = l.bytes := by
  have hw := h.window_le
  have hnew := PooledCursor.valid_new h.wellFormed
  -- the pooled cursor first skips the lease's offset
  obtain ⟨inner,hinner,hv,hu⟩ : ∃ inner, (if l.offset > 0 then (PooledCursor.new l.payload).advance l.offset
      else some (PooledCursor.new l.payload)) = some inner ∧ inner.Valid ∧ inner.unread = l.payload.readable.drop l.offset := by
    split_ifs with hpos
    · have hoff : l.offset ≤ (PooledCursor.new l.payload).remaining := by
        simp only [PooledCursor.new]
        omega
      obtain ⟨inner,hadv,hv,hu,-⟩ := hnew.advance hoff
      exact ⟨inner,hadv,hv,by rw [hu,PooledCursor.unread_new]⟩
    · exact ⟨_,rfl,hnew,by rw [PooledCursor.unread_new,show l.offset = 0 by omega,drop_zero]⟩
  refine ⟨⟨inner,l.len⟩,by simp only [IoLease.cursor,hinner,Option.map_some],⟨hv,?_⟩,by rw [IoCursor.unread,hu,bytes]⟩
  show l.len ≤ inner.remaining
  rw [hv.remaining_eq,hu,length_drop,h.wellFormed.length_readable]
  omega

/-- `to_vec` returns the lease's bytes. -/
theorem Valid.toVec_eq (h : l.Valid) : l.toVec = some l.bytes := by
  rw [toVec]
  split_ifs with he
  · simp [isEmpty] at he
    simp [bytes,he]
  · obtain ⟨c,hc,hv,hu⟩ := h.cursor
    rw [hc,Option.bind_some,hv.toVecLoop,nil_append,hu]

theorem length_bytes (h : l.Valid) : l.bytes.length = l.len := by
  have := h.window_le
  rw [bytes,length_take,length_drop,h.wellFormed.length_readable]
  omega

/-- `try_slice` gives the slice of the bytes, over the same payload. -/
theorem Valid.trySlice (h : l.Valid) {rangeStart rangeEnd : ℕ} (hs : l.trySlice rangeStart rangeEnd = some l') :
    l'.Valid ∧ l'.payload = l.payload ∧ l'.bytes = (l.bytes.drop rangeStart).take (rangeEnd - rangeStart) := by
  unfold IoLease.trySlice at hs
  split_ifs at hs with hr
  cases hs
  simp only [Bool.or_eq_true,decide_eq_true_eq,not_or,not_lt] at hr
  have := h.window_le
  refine ⟨⟨h.wellFormed,by simp only; omega⟩,rfl,?_⟩
  simp only [bytes,drop_take,drop_drop,take_take]
  congr 1
  omega

end IoLease

/-! ### Leases made by `copy_bytes` -/

/-- `copy_bytes_into_chunks`, returning the chunks and the bytes left over; the caller checks
its `debug_assert!` that none are left. -/
def copyBytesIntoChunks : List PooledChunk → List UInt8 → List PooledChunk × List UInt8
  | [], bytes => ([],bytes)
  | chunk :: chunks, bytes =>
    if bytes.isEmpty then (chunk :: chunks,bytes)
    else
      let toCopy := min bytes.length chunk.length
      let rest := copyBytesIntoChunks chunks (bytes.drop toCopy)
      ((bytes.take toCopy ++ chunk.drop toCopy) :: rest.1,rest.2)

def splitChunksByWrittenPrefix : List PooledChunk → ℕ → List LeaseSegment × List PooledChunk
  | [], _ => ([],[])
  | chunk :: chunks, remaining =>
    if remaining = 0 then
      let rest := splitChunksByWrittenPrefix chunks remaining
      (rest.1,chunk :: rest.2)
    else
      let writtenInChunk := min remaining chunk.length
      let rest := splitChunksByWrittenPrefix chunks (remaining - writtenInChunk)
      (⟨chunk,writtenInChunk⟩ :: rest.1,rest.2)

/-- The bytes a list of chunks holds. -/
def capacity (chunks : List PooledChunk) : ℕ := (chunks.map List.length).sum

@[simp] theorem capacity_nil : capacity [] = 0 := rfl

@[simp] theorem capacity_cons (chunk : PooledChunk) (chunks : List PooledChunk) :
    capacity (chunk :: chunks) = chunk.length + capacity chunks := rfl

theorem length_flatten_chunks (chunks : List PooledChunk) : chunks.flatten.length = capacity chunks := by
  simp [capacity,length_flatten]

/-- Copying overwrites the front of the chunks' bytes, as far as they reach, and keeps their
lengths. -/
theorem copyBytesIntoChunks_spec (chunks : List PooledChunk) (bytes : List UInt8) :
    (copyBytesIntoChunks chunks bytes).1.map List.length = chunks.map List.length ∧
      (copyBytesIntoChunks chunks bytes).2 = bytes.drop (capacity chunks) ∧
      (copyBytesIntoChunks chunks bytes).1.flatten =
        bytes.take (capacity chunks) ++ chunks.flatten.drop bytes.length := by
  induction chunks generalizing bytes with
  | nil => simp [copyBytesIntoChunks]
  | cons chunk chunks ih =>
    by_cases hb : bytes = []
    · subst hb
      simp [copyBytesIntoChunks]
    have hne : bytes.isEmpty = false := by simpa using hb
    rcases le_total bytes.length chunk.length with hle | hle
    · -- the bytes end in this chunk
      obtain ⟨ihl,ihr,ihf⟩ := ih []
      simp only [copyBytesIntoChunks,hne,Bool.false_eq_true,if_false,min_eq_left hle,drop_length,map_cons,
        ihl,ihr,flatten_cons,ihf,capacity_cons]
      refine ⟨?_,?_,?_⟩
      · simp only [length_append,length_take,length_drop,min_self]
        congr 1
        omega
      · rw [drop_nil,drop_eq_nil_of_le (by omega)]
      · simp only [take_length,take_nil,length_nil,drop_zero,nil_append,
          take_of_length_le (show bytes.length ≤ chunk.length + capacity chunks by omega),
          drop_append_of_le_length hle,append_assoc]
    · -- the chunk is filled and the rest goes on
      obtain ⟨ihl,ihr,ihf⟩ := ih (bytes.drop chunk.length)
      simp only [copyBytesIntoChunks,hne,Bool.false_eq_true,if_false,min_eq_right hle,map_cons,ihl,ihr,
        flatten_cons,ihf,capacity_cons,drop_drop]
      refine ⟨?_,trivial,?_⟩
      · rw [drop_length,append_nil,length_take,min_eq_left hle]
      · rw [drop_length,append_nil,length_drop,take_add,drop_append,drop_of_length_le hle,nil_append,
          append_assoc]

theorem splitChunksByWrittenPrefix_zero (chunks : List PooledChunk) :
    splitChunksByWrittenPrefix chunks 0 = ([],chunks) := by
  induction chunks with
  | nil => rfl
  | cons chunk chunks ih => simp [splitChunksByWrittenPrefix,ih]

/-- The used segments are the first chunks, holding the first `written_bytes` of their bytes. -/
theorem splitChunksByWrittenPrefix_spec (chunks : List PooledChunk) (writtenBytes : ℕ) :
    (splitChunksByWrittenPrefix chunks writtenBytes).1.map (·.chunk) ++
        (splitChunksByWrittenPrefix chunks writtenBytes).2 = chunks ∧
      ((splitChunksByWrittenPrefix chunks writtenBytes).1.map LeaseSegment.bytes).flatten =
        chunks.flatten.take writtenBytes ∧
      ∀ segment ∈ (splitChunksByWrittenPrefix chunks writtenBytes).1,
        segment.writtenLen ≤ segment.chunk.length ∧ (0 < segment.chunk.length → 0 < segment.writtenLen) := by
  induction chunks generalizing writtenBytes with
  | nil => simp [splitChunksByWrittenPrefix]
  | cons chunk chunks ih =>
    by_cases h0 : writtenBytes = 0
    · subst h0
      simp [splitChunksByWrittenPrefix_zero]
    obtain ⟨ihc,ihb,ihs⟩ := ih (writtenBytes - min writtenBytes chunk.length)
    simp only [splitChunksByWrittenPrefix,if_neg h0]
    refine ⟨by simp only [map_cons,cons_append,ihc],?_,?_⟩
    · have htake : chunk.take (min writtenBytes chunk.length) = chunk.take writtenBytes := by
        rcases le_total writtenBytes chunk.length with hle | hle
        · rw [min_eq_left hle]
        · rw [min_eq_right hle,take_length,take_of_length_le hle]
      rw [map_cons,flatten_cons,ihb,LeaseSegment.bytes,htake,flatten_cons,take_append]
      congr 2
      omega
    · simp only [mem_cons,forall_eq_or_imp]
      exact ⟨⟨min_le_right _ _,fun hpos => by omega⟩,ihs⟩

theorem sum_writtenLen_splitChunksByWrittenPrefix {chunks : List PooledChunk} {writtenBytes : ℕ} :
    ((splitChunksByWrittenPrefix chunks writtenBytes).1.map (·.writtenLen)).sum =
      min writtenBytes (capacity chunks) := by
  obtain ⟨-,hb,hs⟩ := splitChunksByWrittenPrefix_spec chunks writtenBytes
  have := congrArg List.length hb
  rw [PooledPayload.length_flatten_bytes fun s hs' => (hs s hs').1,length_take,length_flatten_chunks] at this
  exact this

structure EgressReservation where
  reservedBytes : ℕ
  chunks : List PooledChunk
  deriving DecidableEq, Repr

/-- `copy_bytes`: the lease or the error, and the chunks that go back to the egress pool: all of
them when the reservation is dropped on an error, the unused ones otherwise. `none` is the
panic of the `debug_assert!` in `copy_bytes_into_chunks`. -/
def EgressReservation.copyBytes (debugAssertions : Bool) (self : EgressReservation) (bytes : List UInt8) :
    Option (Except Error IoLease × List PooledChunk) :=
  if bytes.isEmpty then some (.error .emptyIoLease,self.chunks)
  else if bytes.length > self.reservedBytes then
    some (.error (.egressReservationOverflow self.reservedBytes bytes.length),self.chunks)
  else
    let copied := copyBytesIntoChunks self.chunks bytes
    if debugAssertions && !copied.2.isEmpty then none
    else
      let split := splitChunksByWrittenPrefix copied.1 bytes.length
      some (.ok (IoLease.fromPooled split.1 .egress),split.2)

namespace EgressReservation

variable {debugAssertions : Bool} {self : EgressReservation} {bytes : List UInt8}

/-- The bytes that land in the lease: the front of the copy, as far as the chunks reach. -/
theorem take_flatten_copyBytesIntoChunks (chunks : List PooledChunk) (bytes : List UInt8) :
    (copyBytesIntoChunks chunks bytes).1.flatten.take bytes.length = bytes.take (capacity chunks) := by
  rw [(copyBytesIntoChunks_spec chunks bytes).2.2,take_append,length_take,
    take_of_length_le (by rw [length_take]; omega)]
  rcases le_total bytes.length (capacity chunks) with hle | hle
  · rw [min_eq_right hle,Nat.sub_self,take_zero,append_nil]
  · rw [drop_of_length_le (by rw [length_flatten_chunks]; exact hle),take_nil,append_nil]

/-- Within the reservation, `copy_bytes` returns a lease of the bytes cut to what the chunks
hold, and hands the chunks it does not use back. With debug assertions on, bytes that do not
fit panic instead. -/
theorem copyBytes_eq_ok (hne : bytes ≠ []) (hle : bytes.length ≤ self.reservedBytes)
    (hpos : ∀ chunk ∈ self.chunks, 0 < chunk.length)
    (hfit : debugAssertions = false ∨ bytes.length ≤ capacity self.chunks) :
    ∃ lease unused, self.copyBytes debugAssertions bytes = some (.ok lease,unused) ∧ lease.Valid ∧
      lease.toVec = some (bytes.take (capacity self.chunks)) := by
  obtain ⟨hlen,hleft,-⟩ := copyBytesIntoChunks_spec self.chunks bytes
  obtain ⟨hsplit,hbytes,hseg⟩ := splitChunksByWrittenPrefix_spec (copyBytesIntoChunks self.chunks bytes).1 bytes.length
  -- the debug assertion holds when it is checked
  have hassert : (debugAssertions && !(copyBytesIntoChunks self.chunks bytes).2.isEmpty) = false := by
    rcases hfit with rfl | hfit
    · rfl
    · rw [hleft,drop_of_length_le hfit]
      simp
  have hcopied : ∀ chunk ∈ (copyBytesIntoChunks self.chunks bytes).1, 0 < chunk.length := by
    intro chunk hc
    obtain ⟨c,hc',heq⟩ := mem_map.1 (hlen ▸ mem_map_of_mem (f := List.length) hc)
    exact heq ▸ hpos c hc'
  have hwf : (PooledPayload.new (splitChunksByWrittenPrefix (copyBytesIntoChunks self.chunks bytes).1
      bytes.length).1 .egress).WellFormed :=
    PooledPayload.wellFormed_new (fun s hs => (hseg s hs).2 (hcopied _ (by
      rw [← hsplit]; exact mem_append_left _ (mem_map_of_mem hs))))
      fun s hs => (hseg s hs).1
  have hvalid : (IoLease.fromPooled (splitChunksByWrittenPrefix (copyBytesIntoChunks self.chunks bytes).1
      bytes.length).1 .egress).Valid := ⟨hwf,by simp [IoLease.fromPooled]⟩
  refine ⟨_,(splitChunksByWrittenPrefix (copyBytesIntoChunks self.chunks bytes).1 bytes.length).2,?_,hvalid,?_⟩
  · simp only [copyBytes,List.isEmpty_iff,hne,if_false,gt_iff_lt,not_lt.2 hle,hassert,Bool.false_eq_true]
  · rw [hvalid.toVec_eq,IoLease.bytes]
    simp only [IoLease.fromPooled,drop_zero]
    rw [← hwf.length_readable,take_length,PooledPayload.readable,PooledPayload.new,hbytes,
      take_flatten_copyBytesIntoChunks]

/-- Whatever `copy_bytes` returns, each chunk of the reservation is in the lease or handed back:
on an error all are handed back, and an egress lease over the whole payload holds the rest. -/
theorem copyBytes_eq_some {result : Except Error IoLease} {back : List PooledChunk}
    (h : self.copyBytes debugAssertions bytes = some (result,back)) :
    (∃ e, result = .error e ∧ back = self.chunks) ∨
      ∃ lease, result = .ok lease ∧ lease.payload.recycler = .egress ∧ lease.offset = 0 ∧
        lease.len = lease.payload.len ∧ lease.payload.segmentCount + back.length = self.chunks.length := by
  simp only [copyBytes] at h
  split_ifs at h
  · simp only [Option.some.injEq,Prod.mk.injEq] at h
    exact .inl ⟨_,h.1.symm,h.2.symm⟩
  · simp only [Option.some.injEq,Prod.mk.injEq] at h
    exact .inl ⟨_,h.1.symm,h.2.symm⟩
  · simp only [Option.some.injEq,Prod.mk.injEq] at h
    obtain ⟨rfl,rfl⟩ := h
    refine .inr ⟨_,rfl,rfl,rfl,rfl,?_⟩
    have hsplit := congrArg List.length (splitChunksByWrittenPrefix_spec
      (copyBytesIntoChunks self.chunks bytes).1 bytes.length).1
    have hl := congrArg List.length (copyBytesIntoChunks_spec self.chunks bytes).1
    simp only [length_append,length_map] at hsplit hl
    simp only [IoLease.fromPooled,PooledPayload.segmentCount,PooledPayload.new]
    omega

/-- Only the debug assertion panics. -/
theorem debugAssertions_of_copyBytes_eq_none (h : self.copyBytes debugAssertions bytes = none) :
    debugAssertions = true := by
  simp only [copyBytes] at h
  split_ifs at h with h₁ h₂ h₃
  exact (Bool.and_eq_true_iff.1 h₃).1

/-- With debug assertions, bytes beyond the chunks' capacity panic in `copy_bytes_into_chunks`. -/
theorem copyBytes_eq_none (hne : bytes ≠ []) (hle : bytes.length ≤ self.reservedBytes)
    (hcap : capacity self.chunks < bytes.length) : self.copyBytes true bytes = none := by
  have hleft : (copyBytesIntoChunks self.chunks bytes).2 ≠ [] := by
    rw [(copyBytesIntoChunks_spec self.chunks bytes).2.1]
    simpa using hcap
  simp [copyBytes,hne,not_lt.2 hle,hleft]

end EgressReservation

end Flotsync.Io
