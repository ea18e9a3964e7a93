import Flotsync.Lib.SortedMap
import Flotsync.Lib.MinQueue
import Flotsync.Lib.Simulation

/-!
The retry scheduler of reliable delivery. It keeps each key's due time in a map and every
due time ever scheduled in a min-heap of `(due time, key)`. Cancelled and superseded
entries stay in the heap; they are dropped only once they reach the top and no longer
match the map.

Against it stands the schedule the queue is for: a finite map from keys to due times,
where taking the ready keys removes and returns those due by `now` in the order of
`(due time, key)`. Every live map entry has its pair in the heap, so the top of the heap,
once it matches the map, is the least live entry, and every sequence of calls gets the
same answers from both.
-/

set_option autoImplicit false

namespace Flotsync.Replication

open List

/-- `MessageId`, a UUID; its derived order is that of the 128-bit value. -/
structure MessageId where
  uuid : Fin (2 ^ 128)
  deriving DecidableEq, Repr

inductive RetryKey
  | sender (id : MessageId)
  | inboundAck (id : MessageId)
  deriving DecidableEq, Repr

namespace RetryKey

/-- The derived `Ord`: variants in declaration order, then the message id. -/
def lexKey : RetryKey → ℕ ×ₗ ℕ
  | sender id => toLex (0,id.uuid.val)
  | inboundAck id => toLex (1,id.uuid.val)

theorem lexKey_injective : Function.Injective lexKey := by
  rintro (⟨⟨a⟩⟩ | ⟨⟨a⟩⟩) (⟨⟨b⟩⟩ | ⟨⟨b⟩⟩) h <;> simp_all [lexKey,Fin.ext_iff]

instance : LinearOrder RetryKey := LinearOrder.lift' lexKey lexKey_injective

end RetryKey

/-- `Instant`, as a count of clock ticks. -/
abbrev Instant := ℕ

/-- `due_by_key` is a map that is never iterated, kept as a key-ordered list; `due_heap` holds
`Reverse((due_at, key))`, a min-heap in the order of the pair. -/
structure RetryQueue where
  dueByKey : List (RetryKey × Instant)
  dueHeap : MinQueue (Instant ×ₗ RetryKey)

namespace RetryQueue

def new : RetryQueue := ⟨[],.empty⟩

def schedule (self : RetryQueue) (key : RetryKey) (dueAt : Instant) : RetryQueue :=
  ⟨SortedMap.insert key dueAt self.dueByKey,self.dueHeap.push (toLex (dueAt,key))⟩

def cancel (self : RetryQueue) (key : RetryKey) : RetryQueue :=
  { self with dueByKey := SortedMap.erase key self.dueByKey }

/-- The queue after `due_heap.pop()`. -/
def popHeap (self : RetryQueue) : RetryQueue :=
  { self with dueHeap := self.dueHeap.pop }

def removeStaleEntries (self : RetryQueue) : RetryQueue :=
  match _h : self.dueHeap.peek with
  | none => self
  | some top =>
    match SortedMap.get (ofLex top).2 self.dueByKey with
    | none => removeStaleEntries self.popHeap
    | some currentDueAt =>
      if currentDueAt ≠ (ofLex top).1 then removeStaleEntries self.popHeap else self
termination_by self.dueHeap.size
decreasing_by all_goals exact MinQueue.size_pop_lt _h

def nextDueAt (self : RetryQueue) : Option Instant × RetryQueue :=
  match _h : self.dueHeap.peek with
  | none => (none,self)
  | some top =>
    match SortedMap.get (ofLex top).2 self.dueByKey with
    | some currentDueAt =>
      if currentDueAt = (ofLex top).1 then (some (ofLex top).1,self) else nextDueAt self.popHeap
    | none => nextDueAt self.popHeap
termination_by self.dueHeap.size
decreasing_by all_goals exact MinQueue.size_pop_lt _h

/-- The loop of `take_ready`, after the keys `ready` taken so far. -/
def takeReadyLoop (self : RetryQueue) (now : Instant) (ready : List RetryKey) :
    List RetryKey × RetryQueue :=
  match _h : self.dueHeap.peek with
  | none => (ready,self)
  | some top =>
    match SortedMap.get (ofLex top).2 self.dueByKey with
    | none => takeReadyLoop self.popHeap now ready
    | some currentDueAt =>
      if currentDueAt ≠ (ofLex top).1 then takeReadyLoop self.popHeap now ready
      else if (ofLex top).1 > now then (ready,self)
      else takeReadyLoop (self.popHeap.cancel (ofLex top).2) now (ready ++ [(ofLex top).2])
termination_by self.dueHeap.size
decreasing_by all_goals exact MinQueue.size_pop_lt _h

def takeReady (self : RetryQueue) (now : Instant) : List RetryKey × RetryQueue :=
  self.takeReadyLoop now []

@[simp] theorem dueByKey_popHeap (self : RetryQueue) : self.popHeap.dueByKey = self.dueByKey := rfl

@[simp] theorem dueByKey_cancel (self : RetryQueue) (key : RetryKey) :
    (self.cancel key).dueByKey = SortedMap.erase key self.dueByKey := rfl

@[simp] theorem dueHeap_cancel (self : RetryQueue) (key : RetryKey) :
    (self.cancel key).dueHeap = self.dueHeap := rfl

end RetryQueue

inductive RetryCall
  | schedule (key : RetryKey) (dueAt : Instant)
  | cancel (key : RetryKey)
  | removeStaleEntries
  | nextDueAt
  | takeReady (now : Instant)
  deriving DecidableEq, Repr

/-- What a call returns: nothing, the next due time, or the ready keys. -/
inductive RetryAnswer
  | unit
  | nextDueAt (dueAt : Option Instant)
  | takeReady (ready : List RetryKey)
  deriving DecidableEq, Repr

def RetryQueue.call (self : RetryQueue) : RetryCall → RetryQueue × RetryAnswer
  | .schedule key dueAt => (self.schedule key dueAt,.unit)
  | .cancel key => (self.cancel key,.unit)
  | .removeStaleEntries => (self.removeStaleEntries,.unit)
  | .nextDueAt => ((self.nextDueAt).2,.nextDueAt (self.nextDueAt).1)
  | .takeReady now => ((self.takeReady now).2,.takeReady (self.takeReady now).1)

/-! ### The schedule -/

/-- Each scheduled key's due time, as a finite map. -/
structure RetrySchedule where
  due : List (RetryKey × Instant)
  sorted : SortedMap.Sorted due

namespace RetrySchedule

def empty : RetrySchedule := ⟨[],SortedMap.sorted_nil⟩

def schedule (m : RetrySchedule) (key : RetryKey) (dueAt : Instant) : RetrySchedule :=
  ⟨SortedMap.insert key dueAt m.due,m.sorted.insert⟩

def cancel (m : RetrySchedule) (key : RetryKey) : RetrySchedule :=
  ⟨SortedMap.erase key m.due,m.sorted.erase⟩

/-- The keys due by `now`, in the order of `(due time, key)`. -/
def readyKeys (due : List (RetryKey × Instant)) (now : Instant) : List RetryKey :=
  (((due.filter (·.2 ≤ now)).map fun e => toLex (e.2,e.1)).insertionSort (· ≤ ·)).map fun x => (ofLex x).2

def takeReady (m : RetrySchedule) (now : Instant) : List RetryKey × RetrySchedule :=
  (readyKeys m.due now,⟨m.due.filter (now < ·.2),m.sorted.filter _⟩)

def nextDueAt (m : RetrySchedule) : Option Instant := (m.due.map (·.2)).min?

def call (m : RetrySchedule) : RetryCall → RetrySchedule × RetryAnswer
  | .schedule key dueAt => (m.schedule key dueAt,.unit)
  | .cancel key => (m.cancel key,.unit)
  | .removeStaleEntries => (m,.unit)
  | .nextDueAt => (m,.nextDueAt m.nextDueAt)
  | .takeReady now => ((m.takeReady now).2,.takeReady (m.takeReady now).1)

variable {due : List (RetryKey × Instant)} {now : Instant}

/-- Exactly the keys due by `now` are ready. -/
theorem mem_readyKeys {key : RetryKey} : key ∈ readyKeys due now ↔ ∃ t, (key,t) ∈ due ∧ t ≤ now := by
  simp only [readyKeys,mem_map,(perm_insertionSort _ _).mem_iff,mem_filter,decide_eq_true_eq]
  constructor
  · rintro ⟨_,⟨⟨k,t⟩,⟨he,ht⟩,rfl⟩,rfl⟩
    exact ⟨t,he,ht⟩
  · rintro ⟨t,he,ht⟩
    exact ⟨toLex (t,key),⟨(key,t),⟨he,ht⟩,rfl⟩,rfl⟩

/-- Each ready key is returned once. -/
theorem nodup_readyKeys (hm : SortedMap.Sorted due) : (readyKeys due now).Nodup := by
  have hnd : ((due.filter (·.2 ≤ now)).map (·.1)).Nodup := (hm.filter _).keys_nodup
  rw [readyKeys]
  refine ((perm_insertionSort _ _).map _).nodup_iff.2 ?_
  simpa [map_map,Function.comp_def] using hnd

/-- The least entry of the map, when due, is returned first. -/
theorem readyKeys_eq_cons (hm : SortedMap.Sorted due) {key : RetryKey} {dueAt : Instant}
    (hmem : (key,dueAt) ∈ due) (hdue : dueAt ≤ now)
    (hleast : ∀ e ∈ due, toLex (dueAt,key) ≤ toLex (e.2,e.1)) :
    readyKeys due now = key :: readyKeys (SortedMap.erase key due) now := by
  have hperm := ((SortedMap.perm_cons_erase hm hmem).filter (·.2 ≤ now)).map fun e => toLex (e.2,e.1)
  rw [readyKeys,MinQueue.insertionSort_eq_of_perm hperm]
  simp only [filter_cons,hdue,decide_true,if_true,map_cons]
  rw [MinQueue.insertionSort_cons_of_le]
  · rfl
  · simp only [mem_map,mem_filter]
    rintro _ ⟨e,⟨he,-⟩,rfl⟩
    exact hleast e (SortedMap.mem_erase.1 he).1

/-- Taking out a key that is due leaves the entries that are not. -/
theorem filter_erase_of_le (hm : SortedMap.Sorted due) {key : RetryKey} {dueAt : Instant}
    (hmem : (key,dueAt) ∈ due) (hdue : dueAt ≤ now) :
    (SortedMap.erase key due).filter (now < ·.2) = due.filter (now < ·.2) := by
  rw [SortedMap.erase,filter_filter]
  refine filter_congr fun e he => ?_
  by_cases hk : e.1 = key
  · -- the only entry under the key is the one that is due
    have : e = (key,dueAt) := inj_on_of_nodup_map hm.keys_nodup he hmem hk
    subst this
    simp [hdue]
  · simp [hk]

end RetrySchedule

/-! ### The heap holds every live entry -/

namespace RetryQueue

structure Invariant (q : RetryQueue) : Prop where
  sorted : SortedMap.Sorted q.dueByKey
  scheduled : ∀ key dueAt, (key,dueAt) ∈ q.dueByKey → toLex (dueAt,key) ∈ q.dueHeap.items

variable {q : RetryQueue} {top : Instant ×ₗ RetryKey}

theorem invariant_new : new.Invariant :=
  ⟨SortedMap.sorted_nil,by simp [new]⟩

theorem Invariant.schedule (hq : q.Invariant) (key : RetryKey) (dueAt : Instant) :
    (q.schedule key dueAt).Invariant := by
  refine ⟨hq.sorted.insert,fun k t he => ?_⟩
  simp only [RetryQueue.schedule,MinQueue.mem_push] at he ⊢
  rcases (SortedMap.mem_insert hq.sorted).1 he with h | ⟨he,-⟩
  · simp_all
  · exact Or.inr (hq.scheduled k t he)

theorem Invariant.cancel (hq : q.Invariant) (key : RetryKey) : (q.cancel key).Invariant :=
  ⟨hq.sorted.erase,fun k t he => hq.scheduled k t (SortedMap.mem_erase.1 he).1⟩

/-- Popping a top that no longer matches the map loses no live entry. -/
theorem Invariant.popHeap (hq : q.Invariant) (htop : q.dueHeap.peek = some top)
    (hstale : ((ofLex top).2,(ofLex top).1) ∉ q.dueByKey) : q.popHeap.Invariant := by
  refine ⟨hq.sorted,fun k t he => MinQueue.mem_pop htop (hq.scheduled k t he) ?_⟩
  rintro rfl
  exact hstale he

/-- Taking the top's key out of the map leaves the other entries in the rest of the heap. -/
theorem Invariant.take (hq : q.Invariant) (htop : q.dueHeap.peek = some top) :
    (q.popHeap.cancel (ofLex top).2).Invariant := by
  refine ⟨hq.sorted.erase,fun k t he => ?_⟩
  obtain ⟨he,hk⟩ := SortedMap.mem_erase.1 he
  refine MinQueue.mem_pop htop (hq.scheduled k t he) ?_
  rintro rfl
  exact hk rfl

/-- The top of the heap is at most every live entry. -/
theorem Invariant.top_le (hq : q.Invariant) (htop : q.dueHeap.peek = some top) {e : RetryKey × Instant}
    (he : e ∈ q.dueByKey) : top ≤ toLex (e.2,e.1) :=
  MinQueue.peek_le htop (hq.scheduled e.1 e.2 he)

theorem Invariant.dueByKey_eq_nil (hq : q.Invariant) (htop : q.dueHeap.peek = none) : q.dueByKey = [] := by
  refine eq_nil_iff_forall_not_mem.2 fun e he => ?_
  have := hq.scheduled e.1 e.2 he
  simp [MinQueue.peek_eq_none.1 htop] at this

/-- A top whose key maps to another time, or to none, is stale: popping it loses no live
entry. -/
theorem Invariant.popStale (hq : q.Invariant) (htop : q.dueHeap.peek = some top) {c : Option Instant}
    (hget : SortedMap.get (ofLex top).2 q.dueByKey = c) (hne : c ≠ some (ofLex top).1) : q.popHeap.Invariant :=
  hq.popHeap htop fun he => hne (hget ▸ (SortedMap.get_eq_some hq.sorted).2 he)

theorem Invariant.top_fst_le (hq : q.Invariant) (htop : q.dueHeap.peek = some top)
    {e : RetryKey × Instant} (he : e ∈ q.dueByKey) : (ofLex top).1 ≤ e.2 :=
  Prod.Lex.monotone_fst _ _ (hq.top_le htop he)

/-! ### The three loops -/

theorem removeStaleEntries_spec (hq : q.Invariant) :
    q.removeStaleEntries.Invariant ∧ q.removeStaleEntries.dueByKey = q.dueByKey := by
  fun_induction removeStaleEntries q with
  | case1 => exact ⟨hq,rfl⟩
  | case2 q top htop hget ih => exact ih (hq.popStale htop hget (by simp))
  | case3 q top htop c hget hne ih =>
    exact ih (hq.popStale htop hget (by simpa using hne))
  | case4 => exact ⟨hq,rfl⟩

theorem nextDueAt_spec (hq : q.Invariant) :
    q.nextDueAt.2.Invariant ∧ q.nextDueAt.2.dueByKey = q.dueByKey ∧
      q.nextDueAt.1 = (q.dueByKey.map (·.2)).min? := by
  fun_induction nextDueAt q with
  | case1 q htop => simp [hq,hq.dueByKey_eq_nil htop]
  | case2 q top htop hget =>
    -- a top that matches the map is the least live entry
    refine ⟨hq,rfl,(List.min?_eq_some_iff.2 ⟨?_,?_⟩).symm⟩
    · exact mem_map.2 ⟨_,(SortedMap.get_eq_some hq.sorted).1 hget,rfl⟩
    · intro b hb
      obtain ⟨e,he,rfl⟩ := mem_map.1 hb
      exact hq.top_fst_le htop he
  | case3 q top htop c hget hne ih =>
    exact ih (hq.popStale htop hget (by simpa using hne))
  | case4 q top htop hget ih => exact ih (hq.popStale htop hget (by simp))

theorem takeReadyLoop_spec (hq : q.Invariant) (now : Instant) (ready : List RetryKey) :
    (q.takeReadyLoop now ready).1 = ready ++ RetrySchedule.readyKeys q.dueByKey now ∧
      (q.takeReadyLoop now ready).2.dueByKey = q.dueByKey.filter (now < ·.2) ∧
      (q.takeReadyLoop now ready).2.Invariant := by
  fun_induction takeReadyLoop q now ready with
  | case1 q ready htop => simp [hq,hq.dueByKey_eq_nil htop,RetrySchedule.readyKeys]
  | case2 q ready top htop hget ih => exact ih (hq.popStale htop hget (by simp))
  | case3 q ready top htop c hget hne ih =>
    exact ih (hq.popStale htop hget (by simpa using hne))
  | case4 q ready top htop c hget hc hgt =>
    -- the least live entry is not due yet, so none is
    have hall : ∀ e ∈ q.dueByKey, now < e.2 := fun e he => lt_of_lt_of_le hgt (hq.top_fst_le htop he)
    refine ⟨?_,(filter_eq_self.2 fun e he => by simpa using hall e he).symm,hq⟩
    have : q.dueByKey.filter (·.2 ≤ now) = [] := filter_eq_nil_iff.2 fun e he => by simpa using hall e he
    simp [RetrySchedule.readyKeys,this]
  | case5 q ready top htop c hget hc hle ih =>
    obtain rfl : c = (ofLex top).1 := not_not.1 hc
    have hmem := (SortedMap.get_eq_some hq.sorted).1 hget
    have hdue : (ofLex top).1 ≤ now := not_lt.1 hle
    obtain ⟨hready,hrest,hinv⟩ := ih (hq.take htop)
    refine ⟨?_,?_,hinv⟩
    · rw [hready,RetrySchedule.readyKeys_eq_cons hq.sorted hmem hdue fun e he => by
        simpa using hq.top_le htop he]
      simp
    · rw [hrest,dueByKey_cancel,dueByKey_popHeap,RetrySchedule.filter_erase_of_le hq.sorted hmem hdue]

/-! ### Refinement -/

/-- The queue stands for the schedule of its map and keeps every live entry in its heap. -/
def Refines (q : RetryQueue) (m : RetrySchedule) : Prop := q.Invariant ∧ q.dueByKey = m.due

theorem lockstep_refines : Simulation.Lockstep RetryQueue.call RetrySchedule.call Refines := by
  rintro q m call ⟨hq,hdue⟩
  cases call with
  | schedule key dueAt =>
    exact ⟨⟨hq.schedule key dueAt,by simp [RetryQueue.call,RetryQueue.schedule,RetrySchedule.call,
      RetrySchedule.schedule,hdue]⟩,rfl⟩
  | cancel key =>
    exact ⟨⟨hq.cancel key,by simp [RetryQueue.call,RetrySchedule.call,RetrySchedule.cancel,hdue]⟩,rfl⟩
  | removeStaleEntries =>
    obtain ⟨hinv,hkeep⟩ := removeStaleEntries_spec hq
    exact ⟨⟨hinv,hkeep.trans hdue⟩,rfl⟩
  | nextDueAt =>
    obtain ⟨hinv,hkeep,hnext⟩ := nextDueAt_spec hq
    exact ⟨⟨hinv,hkeep.trans hdue⟩,by simp [RetryQueue.call,RetrySchedule.call,RetrySchedule.nextDueAt,hnext,hdue]⟩
  | takeReady now =>
    obtain ⟨hready,hrest,hinv⟩ := takeReadyLoop_spec hq now []
    refine ⟨⟨hinv,?_⟩,?_⟩
    · simp [RetryQueue.call,RetryQueue.takeReady,RetrySchedule.call,RetrySchedule.takeReady,hrest,hdue]
    · simp [RetryQueue.call,RetryQueue.takeReady,RetrySchedule.call,RetrySchedule.takeReady,hready,hdue]

theorem retry_queue_answers_as_schedule (calls : List RetryCall) :
    (Simulation.run RetryQueue.call RetryQueue.new calls).2 =
      (Simulation.run RetrySchedule.call RetrySchedule.empty calls).2 :=
  (Simulation.run_lockstep lockstep_refines calls ⟨invariant_new,rfl⟩).2

/-- A due time superseded by a later one does not fire; its heap entry is dropped as stale. -/
example : (Simulation.run RetryQueue.call RetryQueue.new
    [.schedule (.sender ⟨0⟩) 5,.schedule (.sender ⟨0⟩) 9,.takeReady 6,.takeReady 9]).2 =
    [.unit,.unit,.takeReady [],.takeReady [.sender ⟨0⟩]] := by decide +kernel

end RetryQueue

end Flotsync.Replication
