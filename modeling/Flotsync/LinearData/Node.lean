import Mathlib

/-!
The data of the linear (sequence) CRDT: element ids, the operation a node records
and the nodes themselves, with the queries `VecCoalescedLinearData` makes of a
node. A composite value (a list chunk, a grapheme string) is the list of its
elements. Indices are the source's `u32`, natural numbers here, checked against
`u32::MAX` where the source checks them.
-/

set_option autoImplicit false

namespace Flotsync.LinearData

/-- `u32::MAX`, the largest element index. -/
def maxIndex : ℕ := 2 ^ 32 - 1

structure IdWithIndex (Id : Type*) where
  id : Id
  index : ℕ
deriving DecidableEq, Repr

namespace IdWithIndex

variable {Id : Type*}

def zero (id : Id) : IdWithIndex Id := ⟨id, 0⟩

def increment (x : IdWithIndex Id) : IdWithIndex Id := ⟨x.id, x.index + 1⟩

def decrement (x : IdWithIndex Id) : IdWithIndex Id := ⟨x.id, x.index - 1⟩

/-- Whether indices `x.index, …, x.index + numElements - 1` all fit in a `u32`. -/
def canAddress (x : IdWithIndex Id) (numElements : ℕ) : Bool :=
  numElements == 0 || decide (x.index + (numElements - 1) ≤ maxIndex)

def checkedNextAfter (x : IdWithIndex Id) (numElements : ℕ) : Option (IdWithIndex Id) :=
  if x.index + numElements ≤ maxIndex then some ⟨x.id, x.index + numElements⟩ else none

/-- `x + rhs`, which panics past `u32::MAX`. -/
def addOffset (x : IdWithIndex Id) (rhs : ℕ) : Option (IdWithIndex Id) :=
  if x.index + rhs ≤ maxIndex then some ⟨x.id, x.index + rhs⟩ else none

variable [DecidableEq Id]

/-- `y` is what `x.increment()` returns. -/
def isFollowedBy (x y : IdWithIndex Id) : Bool :=
  x.id == y.id && (decide (x.index + 1 ≤ maxIndex) && x.index + 1 == y.index)

@[simp] theorem isFollowedBy_self (x : IdWithIndex Id) : x.isFollowedBy x = false := by
  simp [isFollowedBy]

/-- The offset of `x` from `other`; the source asserts both share a base id and
that the offset is not negative. -/
def indexDiff (x other : IdWithIndex Id) : Option ℕ :=
  if x.id = other.id ∧ other.index ≤ x.index then some (x.index - other.index) else none

/-- The derived order: by base id, then by index. -/
instance [LinearOrder Id] : LinearOrder (IdWithIndex Id) :=
  LinearOrder.lift' (fun x => toLex (x.id, x.index)) fun a b h => by
    cases a
    cases b
    simpa using h

end IdWithIndex

inductive Operation (V : Type*) where
  | insert (value : V)
  | delete (value : V)
  | beginning
  | «end»
deriving DecidableEq, Repr

namespace Operation

variable {V : Type*}

def isInsert : Operation V → Bool
  | .insert _ => true
  | _ => false

/-- `Operation::delete`: turn an insert into a tombstone; the source asserts the
node is an insert. -/
def applyDelete : Operation V → Option (Operation V)
  | .insert value => some (.delete value)
  | _ => none

end Operation

/-- `Composite::split_at`: both implementations assert that the index is in range. -/
def Composite.splitAt {E : Type*} (value : List E) (index : ℕ) : Option (List E × List E) :=
  if index < value.length then some (value.take index, value.drop index) else none

/-- `Operation::split_off`: the operation keeps the elements before `at`, the
returned one of the same kind holds the rest. Boundaries cannot be split. -/
def Operation.splitOff {E : Type*} : Operation (List E) → ℕ →
    Option (Operation (List E) × Operation (List E))
  | .insert value, i => (Composite.splitAt value i).map fun p => (.insert p.1, .insert p.2)
  | .delete value, i => (Composite.splitAt value i).map fun p => (.delete p.1, .delete p.2)
  | .beginning, _ => none
  | .end, _ => none

structure Node (Id V : Type*) where
  id : Id
  leftOrigin : Option Id
  rightOrigin : Option Id
  operation : Operation V
deriving DecidableEq, Repr

namespace Node

variable {Id V : Type*}

def getCurrentValue (n : Node Id V) : Option V :=
  match n.operation with
  | .insert value => some value
  | _ => none

def isDeleted (n : Node Id V) : Bool :=
  match n.operation with
  | .delete _ => true
  | _ => false

/-- A node between the boundaries as a snapshot carries it: with both origins, an
insert or a tombstone. -/
inductive Inner : Node Id V → Prop
  | insert (id left right : Id) (value : V) : Inner ⟨id, some left, some right, .insert value⟩
  | delete (id left right : Id) (value : V) : Inner ⟨id, some left, some right, .delete value⟩

theorem Inner.of_origins {n : Node Id V} {left right : Id} {value : V}
    (hl : n.leftOrigin = some left) (hr : n.rightOrigin = some right)
    (hop : n.operation = .insert value ∨ n.operation = .delete value) : n.Inner := by
  obtain ⟨id, l, r, op⟩ := n
  dsimp only at hl hr hop
  subst hl hr
  rcases hop with rfl | rfl
  · exact .insert id left right value
  · exact .delete id left right value

theorem Inner.origins {n : Node Id V} (h : n.Inner) :
    ∃ left right value, n.leftOrigin = some left ∧ n.rightOrigin = some right ∧
      (n.operation = .insert value ∨ n.operation = .delete value) := by
  cases h with
  | insert id left right value => exact ⟨left, right, value, rfl, rfl, .inl rfl⟩
  | delete id left right value => exact ⟨left, right, value, rfl, rfl, .inr rfl⟩

section Coalesced

variable {E : Type*}

def nodeLen (n : Node (IdWithIndex Id) (List E)) : ℕ :=
  match n.operation with
  | .insert value | .delete value => value.length
  | .beginning | .end => 0

def getLen (n : Node (IdWithIndex Id) (List E)) : Option ℕ :=
  n.getCurrentValue.map List.length

def lastIndex (n : Node (IdWithIndex Id) (List E)) : ℕ :=
  if n.nodeLen = 0 ∨ n.nodeLen = 1 then n.id.index else n.id.index + (n.nodeLen - 1)

def lastId (n : Node (IdWithIndex Id) (List E)) : IdWithIndex Id := ⟨n.id.id, n.lastIndex⟩

/-- The element ids the node holds, from its id to its last id. -/
def ids (n : Node (IdWithIndex Id) (List E)) : List (IdWithIndex Id) :=
  (List.range' n.id.index (n.lastIndex + 1 - n.id.index)).map fun index => ⟨n.id.id, index⟩

variable [DecidableEq Id]

def contains (n : Node (IdWithIndex Id) (List E)) (x : IdWithIndex Id) : Bool :=
  n.id.id == x.id &&
    match n.operation with
    | .insert _ | .delete _ => decide (n.id.index ≤ x.index ∧ x.index ≤ n.lastIndex)
    | .beginning | .end => n.id.index == x.index

omit [DecidableEq Id] in
theorem lastIndex_eq (n : Node (IdWithIndex Id) (List E)) :
    n.lastIndex = n.id.index + (n.nodeLen - 1) := by
  unfold lastIndex
  split <;> omega

/-- A node holds the ids from its own to its last one; a boundary holds its own. -/
theorem contains_iff (n : Node (IdWithIndex Id) (List E)) (x : IdWithIndex Id) :
    n.contains x = true ↔ n.id.id = x.id ∧ n.id.index ≤ x.index ∧ x.index ≤ n.lastIndex := by
  cases h : n.operation with
  | insert value => simp [contains, h]
  | delete value => simp [contains, h]
  | beginning =>
    have hl : n.lastIndex = n.id.index := by simp [lastIndex, nodeLen, h]
    simp only [contains, h, hl, Bool.and_eq_true, beq_iff_eq]
    exact and_congr_right fun _ => by omega
  | «end» =>
    have hl : n.lastIndex = n.id.index := by simp [lastIndex, nodeLen, h]
    simp only [contains, h, hl, Bool.and_eq_true, beq_iff_eq]
    exact and_congr_right fun _ => by omega

theorem mem_ids_iff (n : Node (IdWithIndex Id) (List E)) (x : IdWithIndex Id) :
    x ∈ n.ids ↔ n.contains x = true := by
  rw [contains_iff]
  obtain ⟨⟨b, i⟩, l, r, op⟩ := n
  obtain ⟨b', i'⟩ := x
  simp only [ids, List.mem_map, List.mem_range'_1, IdWithIndex.mk.injEq]
  constructor
  · rintro ⟨k, ⟨hk₁, hk₂⟩, rfl, rfl⟩
    exact ⟨rfl, hk₁, by omega⟩
  · rintro ⟨rfl, h₁, h₂⟩
    exact ⟨i', ⟨h₁, by omega⟩, rfl, rfl⟩

end Coalesced

end Node

end Flotsync.LinearData
