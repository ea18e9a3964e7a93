import Flotsync.LinearData.Coalesced

/-!
From positions in the visible sequence to ids: the queries a replica makes of its
`VecCoalescedLinearData` to build the operations it sends (`ids_at_pos`,
`ids_after_head`, `ids_before_end`, `ids_in_range`).
-/

set_option autoImplicit false

namespace Flotsync.LinearData

/-- The ids `id:startIndex ..= id:endIndex`. -/
structure IdWithIndexRange (Id : Type) where
  id : Id
  startIndex : ℕ
  endIndex : ℕ
deriving DecidableEq, Repr

namespace IdWithIndexRange

variable {Id : Type}

def withEnd (id : IdWithIndex Id) (endIndex : ℕ) : IdWithIndexRange Id := ⟨id.id, id.index, endIndex⟩

def first (r : IdWithIndexRange Id) : IdWithIndex Id := ⟨r.id, r.startIndex⟩

def last (r : IdWithIndexRange Id) : IdWithIndex Id := ⟨r.id, r.endIndex⟩

end IdWithIndexRange

structure NodeIdRange (Id : Type) where
  predecessor : IdWithIndex Id
  contained : List (IdWithIndexRange Id)
  successor : IdWithIndex Id
deriving DecidableEq, Repr

/-- One range delete per contained run. -/
def NodeIdRange.deleteOperations {Id T : Type} (r : NodeIdRange Id) :
    List (DataOperation (IdWithIndex Id) T) :=
  r.contained.map fun range => .delete range.first (some range.last)

structure NodePosition where
  nodeIndex : ℕ
  nodeStartPosition : ℕ
deriving DecidableEq, Repr

/-- A bound of a range of positions. -/
inductive Bound where
  | included (position : ℕ)
  | excluded (position : ℕ)
  | unbounded
deriving DecidableEq, Repr

/-- A range of positions given by its two bounds, as `RangeBounds<usize>`. -/
structure PositionRange where
  startBound : Bound
  endBound : Bound
deriving DecidableEq, Repr

def PositionRange.contains (r : PositionRange) (p : ℕ) : Bool :=
  (match r.startBound with
    | .included s => decide (s ≤ p)
    | .excluded s => decide (s < p)
    | .unbounded => true) &&
  (match r.endBound with
    | .included e => decide (p ≤ e)
    | .excluded e => decide (p < e)
    | .unbounded => true)

namespace VecCoalescedLinearData

variable {Id E : Type}

/-- The insert nodes from index `startIndex` on, with their indices. -/
def iterInsertsFrom (s : VecCoalescedLinearData Id E) (startIndex : ℕ) : List (ℕ × Node' Id E) :=
  ((s.base.nodes.zipIdx.drop startIndex).filter fun p => p.1.operation.isInsert).map
    fun p => (p.2, p.1)

def idsAfterHead (s : VecCoalescedLinearData Id E) : Option (LinkIds (IdWithIndex Id)) := do
  let some head := s.base.nodes[0]? | none
  let some next := s.base.nodes[1]? | none
  return ⟨head.id, next.id⟩

def idsBeforeEnd (s : VecCoalescedLinearData Id E) : Option (LinkIds (IdWithIndex Id)) := do
  let some lastIndex := Checked.sub s.base.nodes.length 2 | none
  let some last := s.base.nodes[lastIndex]? | none
  let some endNode := s.base.nodes[lastIndex + 1]? | none
  return ⟨last.lastId, endNode.id⟩

/-- The loop of `node_at_position` over the insert nodes, with the position
where the current one starts; the source asserts positions only grow. -/
def nodeAtPositionFrom (position : ℕ) : ℕ → List (ℕ × Node' Id E) → Option (Option NodePosition)
  | _, [] => some none
  | start, (nodeIndex, node) :: rest =>
    let nodeValueLen := node.nodeLen
    if position < start + nodeValueLen then some (some ⟨nodeIndex, start⟩)
    else if ¬ start < position then none
    else nodeAtPositionFrom position (start + nodeValueLen) rest

def nodeAtPosition (s : VecCoalescedLinearData Id E) (position : ℕ) :
    Option (Option NodePosition) :=
  nodeAtPositionFrom position 0 (s.iterInsertsFrom 0)

variable [DecidableEq Id]

def predecessorId (s : VecCoalescedLinearData Id E) (id : IdWithIndex Id) (nodeIndex : ℕ) :
    Option (IdWithIndex Id) := do
  let some node := s.base.nodes[nodeIndex]? | none
  let some idOffset := id.indexDiff node.id | none
  if 0 < idOffset then return id.decrement
  let some previous := Checked.sub nodeIndex 1 | none
  let some predecessorNode := s.base.nodes[previous]? | none
  return predecessorNode.lastId

def successorId (s : VecCoalescedLinearData Id E) (id : IdWithIndex Id) (nodeIndex : ℕ) :
    Option (IdWithIndex Id) := do
  let some node := s.base.nodes[nodeIndex]? | none
  let some idOffset := id.indexDiff node.id | none
  if idOffset + 1 < node.nodeLen then return id.increment
  let some successorNode := s.base.nodes[nodeIndex + 1]? | none
  return successorNode.id

/-- The ids at, before and after the visible element at `position`; `none` inside
for a position past the end. -/
def idsAtPos (s : VecCoalescedLinearData Id E) (position : ℕ) :
    Option (Option (NodeIds (IdWithIndex Id))) := do
  if ¬ position < s.len then return none
  let some (some ⟨nodeIndex, nodeStartPosition⟩) := s.nodeAtPosition position | none
  let some currentNode := s.base.nodes[nodeIndex]? | none
  let current ← currentNode.id.addOffset (position - nodeStartPosition)
  let predecessor ← s.predecessorId current nodeIndex
  let successor ← s.successorId current nodeIndex
  return some ⟨predecessor, current, successor⟩

/-- The state of the loop of `ids_in_range` that walks the positions of the range. -/
structure RangeWalk (Id E : Type) where
  currentNodeStartId : IdWithIndex Id
  currentNodeIndex : ℕ
  currentNode : Node' Id E
  currentNodeStartPosition : ℕ
  currentNodeEndPosition : ℕ
  insertNodes : List (ℕ × Node' Id E)
  nodeIdsInRange : List (IdWithIndexRange Id)
  nextPosition : ℕ
  reachedTheEnd : Bool

/-- The walk over the positions of `range`; each round moves one position on, so
rounds beyond the elements and nodes left cannot occur. Inside, `none` is the
source's early return of `None`. -/
def walkRange (range : PositionRange) : ℕ → RangeWalk Id E → Option (Option (RangeWalk Id E))
  | 0, _ => none
  | fuel + 1, w =>
    if !range.contains w.nextPosition then some (some w)
    else if w.currentNodeEndPosition ≤ w.nextPosition then
      match w.insertNodes with
      | (newNodeIndex, newNode) :: rest =>
        walkRange range fuel { w with
          nodeIdsInRange := w.nodeIdsInRange ++
            [IdWithIndexRange.withEnd w.currentNodeStartId w.currentNode.lastIndex]
          currentNodeStartId := newNode.id
          currentNodeIndex := newNodeIndex
          currentNode := newNode
          currentNodeStartPosition := w.nextPosition
          currentNodeEndPosition := w.nextPosition + newNode.nodeLen
          insertNodes := rest
          nextPosition := w.nextPosition + 1 }
      | [] =>
        let w := { w with reachedTheEnd := true }
        match range.endBound with
        | .included _ => some none
        | .excluded position => if position = w.nextPosition then some (some w) else some none
        | .unbounded => some (some w)
    else walkRange range fuel { w with nextPosition := w.nextPosition + 1 }

/-- Where the range starts: the node position, the first id and the first
position; `none` inside when the start is not in the sequence. -/
def rangeStart (s : VecCoalescedLinearData Id E) :
    Bound → Option (Option (NodePosition × IdWithIndex Id × ℕ))
  | .included position => do
    let some pos := s.nodeAtPosition position | none
    match pos with
    | none => return none
    | some pos =>
      let some node := s.base.nodes[pos.nodeIndex]? | none
      let id ← node.id.addOffset (position - pos.nodeStartPosition)
      return some (pos, id, position)
  | .excluded position => do
    let some pos := s.nodeAtPosition position | none
    match pos with
    | none => return none
    | some nodeAtPosition =>
      let includedPositionOffset := position - nodeAtPosition.nodeStartPosition + 1
      let some node := s.base.nodes[nodeAtPosition.nodeIndex]? | none
      if includedPositionOffset < node.nodeLen then
        let id ← node.id.addOffset includedPositionOffset
        return some (nodeAtPosition, id, position + 1)
      else
        match s.iterInsertsFrom (nodeAtPosition.nodeIndex + 1) with
        | [] => return none
        | (nodeIndex, next) :: _ =>
          let nodeEndPosition := nodeAtPosition.nodeStartPosition + next.nodeLen
          return some (⟨nodeIndex, nodeEndPosition + 1⟩, next.id, position + 1)
  | .unbounded =>
    match s.iterInsertsFrom 0 with
    | [] => some none
    | (nodeIndex, node) :: _ => some (some (⟨nodeIndex, 0⟩, node.id, 0))

/-- `ids_in_range`: the runs of ids of the visible elements at the positions of
`range`, one run per insert node, with the ids just outside them. -/
def idsInRange (s : VecCoalescedLinearData Id E) (range : PositionRange) :
    Option (Option (NodeIdRange Id)) := do
  let some start := s.rangeStart range.startBound | none
  match start with
  | none => return none
  | some (startNode, startId, nextPosition) =>
    let some currentNode := s.base.nodes[startNode.nodeIndex]? | none
    let w : RangeWalk Id E := ⟨startId, startNode.nodeIndex, currentNode,
      startNode.nodeStartPosition, startNode.nodeStartPosition + currentNode.nodeLen,
      s.iterInsertsFrom (startNode.nodeIndex + 1), [], nextPosition, false⟩
    let some walked := walkRange range (visibleLen s.base.nodes + s.base.nodes.length + 1) w
      | none
    match walked with
    | none => return none
    | some w =>
      let endIndex ← if w.reachedTheEnd then some w.currentNode.lastIndex else do
        let endOffset ← match range.endBound with
          | .included position => Checked.sub position w.currentNodeStartPosition
          | .excluded position => Checked.sub position (w.currentNodeStartPosition + 1)
          | .unbounded => none
        let id ← w.currentNode.id.addOffset endOffset
        some id.index
      let lastIdRange := IdWithIndexRange.withEnd w.currentNodeStartId endIndex
      let predecessor ← s.predecessorId startId startNode.nodeIndex
      let successor ← s.successorId lastIdRange.last w.currentNodeIndex
      return some ⟨predecessor, w.nodeIdsInRange ++ [lastIdRange], successor⟩

end VecCoalescedLinearData

open VecCoalescedLinearData in
/-- A one-element run and an element inserted after it by another replica. The range
after the first element up to the second is in the sequence; `ids_in_range` with the
start included returns the second element's id, and with the start excluded it takes
the second node's start position from its own length plus one and panics. -/
theorem ids_in_range_after_excluded_start_panics :
    ∃ s₀ s₁ : VecCoalescedLinearData ℕ ℕ,
      withValue 0 [0] = some s₀ ∧
      s₀.applyOperation (.insert ⟨1, 0⟩ ⟨0, 1⟩ ⟨0, 2⟩ [1]) = some (.ok s₁) ∧
      s₁.iterValues = some [0, 1] ∧
      s₁.idsInRange ⟨.included 1, .included 1⟩ = some (some ⟨⟨0, 1⟩, [⟨1, 0, 0⟩], ⟨0, 2⟩⟩) ∧
      s₁.idsInRange ⟨.excluded 0, .included 1⟩ = none :=
  ⟨_, _, rfl, rfl, by decide, by decide, by decide⟩

end Flotsync.LinearData
