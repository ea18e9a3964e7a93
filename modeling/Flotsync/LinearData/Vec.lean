import Flotsync.Lib.Checked
import Flotsync.Lib.Search
import Flotsync.LinearData.Node

/-!
`VecLinearData`: the nodes of the sequence CRDT in a vector, one node per value,
with the insert placement shared by both implementations. Placement between two
anchors that already have nodes between them follows right origins
(`RightTreeTraversalMemo`) and orders concurrent siblings by key.
-/

set_option autoImplicit false

namespace Flotsync.LinearData

inductive DataOperation (Id V : Type*) where
  | insert (id pred succ : Id) (value : V)
  | delete (start : Id) («end» : Option Id)
deriving DecidableEq, Repr

/-- A position between two nodes, by the ids on either side. -/
structure LinkIds (Id : Type*) where
  predecessor : Id
  successor : Id
deriving DecidableEq, Repr

def LinkIds.insertOperation {Id V : Type*} (l : LinkIds Id) (id : Id) (value : V) :
    DataOperation Id V :=
  .insert id l.predecessor l.successor value

/-- A node's position, by its own id and those of its neighbours. -/
structure NodeIds (Id : Type*) where
  predecessor : Id
  current : Id
  successor : Id
deriving DecidableEq, Repr

def NodeIds.before {Id : Type*} (n : NodeIds Id) : LinkIds Id := ⟨n.predecessor, n.current⟩

def NodeIds.after {Id : Type*} (n : NodeIds Id) : LinkIds Id := ⟨n.current, n.successor⟩

def Operation.isBeginning {V : Type*} : Operation V → Bool
  | .beginning => true
  | _ => false

def Operation.isEnd {V : Type*} : Operation V → Bool
  | .end => true
  | _ => false

inductive IntegrityError where
  | missingBeginningBoundary
  | missingEndBoundary
  | visibleLengthMismatch (expected actual : ℕ)
  | duplicateId (leftIndex rightIndex : ℕ)
deriving DecidableEq, Repr

structure VecLinearData (Id V : Type*) where
  /-- The number of insert nodes. -/
  len : ℕ
  nodes : List (Node Id V)
deriving DecidableEq, Repr

namespace RightTreeTraversalMemo

variable {Id V : Type*} [DecidableEq Id]

/-- The index of the node with id `id` to the right of `current`; the source panics
when there is none there. -/
def resolveIndex (nodes : List (Node Id V)) (current : ℕ) (id : Id) : Option ℕ :=
  (Search.findFrom (fun n => n.id == id) nodes (current + 1)).map Prod.fst

/-- Follow right origins from `current`: `true` once the node with id `boundary` is
reached, `false` at a node without a right origin. The indices strictly increase,
so `fuel` of the number of nodes suffices. -/
def reachesBoundaryFrom (nodes : List (Node Id V)) (boundary : Id) : ℕ → ℕ → Option Bool
  | 0, _ => none
  | fuel + 1, current => do
    let some node := nodes[current]? | none
    if node.id = boundary then return true
    match node.rightOrigin with
    | none => return false
    | some nextId =>
      let next ← resolveIndex nodes current nextId
      reachesBoundaryFrom nodes boundary fuel next

/-- `reaches_boundary`: whether the node at `start` lies in the right subtree of
`boundary`. The source memoises these walks; the results are those of the walks. -/
def reachesBoundary (nodes : List (Node Id V)) (boundary : Id) (start : ℕ) : Option Bool :=
  reachesBoundaryFrom nodes boundary nodes.length start

/-- The first index in `[lo, lo + count)` whose node reaches `boundary`, asking in
order and stopping at the first. -/
def firstReaching (nodes : List (Node Id V)) (boundary : Id) (lo : ℕ) :
    ℕ → Option (Option ℕ)
  | 0 => some none
  | count + 1 => do
    if ← reachesBoundary nodes boundary lo then return some lo
    firstReaching nodes boundary (lo + 1) count

end RightTreeTraversalMemo

open RightTreeTraversalMemo in
/-- Where an insert between `pred` at `predIndex` and `succ` at `succIndex` goes when
nodes already stand between them. Nodes anchored at the same pair conflict and are
ordered by `key`; the insert goes before the subtree of the first conflicting node
whose key is above `idKey`. `error` reports an insert whose key already conflicts. -/
def conflictPosition {Id V K : Type*} [DecidableEq Id] [LinearOrder K]
    (key : Node Id V → K) (nodes : List (Node Id V)) (idKey : K) (pred succ : Id)
    (predIndex succIndex : ℕ) : Option (Except Unit ℕ) := do
  let conflictingNodes := (List.range' (predIndex + 1) (succIndex - (predIndex + 1))).filterMap
    fun i => (nodes[i]?).bind fun n =>
      if n.leftOrigin = some pred ∧ n.rightOrigin = some succ then some (key n, i) else none
  let rightSubtreeStart ← firstReaching nodes succ (predIndex + 1) (succIndex - (predIndex + 1))
  let rightSubtreeStartIndex := rightSubtreeStart.getD succIndex
  if conflictingNodes.isEmpty then return .ok rightSubtreeStartIndex
  -- the source's debug assertion that the conflict set is ordered already
  if ¬ (conflictingNodes.map Prod.fst).Pairwise (· ≤ ·) then none
  match Search.binarySearch (conflictingNodes.map Prod.fst) idKey with
  | .ok _ => return .error ()
  | .error insertIndex =>
    if insertIndex = 0 then return .ok (predIndex + 1)
    else if h : insertIndex < conflictingNodes.length then
      let targetConflictPos := conflictingNodes[insertIndex].2
      let some targetNode := nodes[targetConflictPos]? | none
      let subtreeStart ← firstReaching nodes targetNode.id (predIndex + 1)
        (targetConflictPos - (predIndex + 1))
      return .ok (subtreeStart.getD targetConflictPos)
    else return .ok succIndex

namespace VecLinearData

variable {Id V : Type*}

def new (beginId endId : Id) : VecLinearData Id V :=
  ⟨0, [⟨beginId, none, some endId, .beginning⟩, ⟨endId, some beginId, none, .end⟩]⟩

def withValue (initialValue : V) (beginId valueId endId : Id) : VecLinearData Id V :=
  ⟨1, [⟨beginId, none, some valueId, .beginning⟩,
    ⟨valueId, some beginId, some endId, .insert initialValue⟩,
    ⟨endId, some valueId, none, .end⟩]⟩

def isEmpty (s : VecLinearData Id V) : Bool := s.len == 0

/-- Insert before the end node; the source asserts the last node is the end. -/
def append (s : VecLinearData Id V) (id : Id) (value : V) : Option (VecLinearData Id V) := do
  let some endIndex := Checked.sub s.nodes.length 1 | none
  let some endNode := s.nodes[endIndex]? | none
  if !endNode.operation.isEnd then none
  let some lastIndex := Checked.sub endIndex 1 | none
  let some lastNode := s.nodes[lastIndex]? | none
  let nodes ← Checked.insert s.nodes endIndex ⟨id, some lastNode.id, some endNode.id, .insert value⟩
  return ⟨s.len + 1, nodes⟩

/-- Insert after the beginning node; the source asserts the first node is the beginning. -/
def prepend (s : VecLinearData Id V) (id : Id) (value : V) : Option (VecLinearData Id V) := do
  let some beginNode := s.nodes[0]? | none
  if !beginNode.operation.isBeginning then none
  let some firstNode := s.nodes[1]? | none
  let nodes ← Checked.insert s.nodes 1 ⟨id, some beginNode.id, some firstNode.id, .insert value⟩
  return ⟨s.len + 1, nodes⟩

def validateIntegrity (s : VecLinearData Id V) : Except IntegrityError Unit := do
  match s.nodes.head? with
  | none => throw .missingBeginningBoundary
  | some first => if !first.operation.isBeginning then throw .missingBeginningBoundary
  match s.nodes.getLast? with
  | none => throw .missingEndBoundary
  | some last => if !last.operation.isEnd then throw .missingEndBoundary
  let actualLen := s.nodes.countP (·.operation.isInsert)
  if s.len ≠ actualLen then throw (.visibleLengthMismatch s.len actualLen)

def iterValues (s : VecLinearData Id V) : List V := s.nodes.filterMap (·.getCurrentValue)

def idsAfterHead (s : VecLinearData Id V) : Option (LinkIds Id) := do
  let some head := s.nodes[0]? | none
  let some next := s.nodes[1]? | none
  return ⟨head.id, next.id⟩

section Delete

variable [DecidableEq Id]

/-- Tombstone the node with id `id` and return its value; a tombstone returns its
value again, a boundary or a missing node `none`. -/
def delete (s : VecLinearData Id V) (id : Id) : Option (Option (V × VecLinearData Id V)) :=
  match Search.findFrom (fun n => n.id == id) s.nodes 0 with
  | none => some none
  | some (index, node) =>
    match node.operation with
    | .insert value => do
      let nodes ← Checked.set s.nodes index { node with operation := .delete value }
      let some len := Checked.sub s.len 1 | none
      return some (value, ⟨len, nodes⟩)
    | .delete value => some (some (value, s))
    | .beginning | .end => some none

end Delete

variable [LinearOrder Id]

def applyOperation (s : VecLinearData Id V) (op : DataOperation Id V) :
    Option (Except (DataOperation Id V) (VecLinearData Id V)) :=
  match op with
  | .insert id pred succ value =>
    match Search.findFrom (fun n => n.id == pred) s.nodes 0 with
    | none => some (.error op)
    | some (predIndex, _) =>
      match Search.findFrom (fun n => n.id == succ) s.nodes predIndex with
      | none => some (.error op)
      | some (succIndex, _) =>
        let node : Node Id V := ⟨id, some pred, some succ, .insert value⟩
        if predIndex + 1 = succIndex then do
          let nodes ← Checked.insert s.nodes succIndex node
          return .ok ⟨s.len + 1, nodes⟩
        else if predIndex < succIndex then
          match conflictPosition Node.id s.nodes id pred succ predIndex succIndex with
          | none => none
          | some (.error ()) => some (.error op)
          | some (.ok position) => do
            let nodes ← Checked.insert s.nodes position node
            return .ok ⟨s.len + 1, nodes⟩
        -- a successor before its predecessor
        else some (.error op)
  | .delete start «end» =>
    -- ranges are not supported by this implementation
    if «end».isSome then some (.error op)
    else (s.delete start).map fun r => match r with
      | some (_, s') => Except.ok s'
      | none => Except.error op

end VecLinearData

end Flotsync.LinearData
