import Flotsync.LinearData.Vec

/-!
`VecCoalescedLinearData`: the sequence CRDT whose nodes hold runs of elements
with consecutive indices of one base id. A run is split on demand, when an insert
or a delete addresses the inside of it (`split_node`); the cached count `len` of
visible elements and the count `base.len` of visible nodes are kept by hand on
every path.
-/

set_option autoImplicit false

namespace Flotsync.LinearData

structure VecCoalescedLinearData (Id E : Type) where
  /-- The number of elements in insert nodes. -/
  len : ℕ
  base : VecLinearData (IdWithIndex Id) (List E)
deriving DecidableEq, Repr

inductive SplitMode where
  /-- The new node starts with the target id. -/
  | before
  /-- The new node ends with the target id. -/
  | after
  /-- The new node holds only the target id. -/
  | beforeAndAfter
deriving DecidableEq, Repr

inductive DeleteMode where
  | suffix (nodeIndex : ℕ)
  | subrange (nodeIndex : ℕ)
  | full (nodeIndex : ℕ)
  | prefixPart (nodeIndex : ℕ)
  | skip (nodeIndex : ℕ)
deriving DecidableEq, Repr

inductive DeleteError where
  | invalidRange
  | notFound
deriving DecidableEq, Repr

/-- The mode `split_node` goes on with, after its assertions: a split before the
head or after the end of a node is refused, and a three-way split at either end
becomes a two-way one. -/
def SplitMode.resolve (splitAtHead splitAtEnd : Bool) : SplitMode → Option SplitMode
  | .before => if splitAtHead then none else some .before
  | .after => if splitAtEnd then none else some .after
  | .beforeAndAfter =>
    if splitAtHead && splitAtEnd then none
    else if splitAtHead then some .after
    else if splitAtEnd then some .before
    else some .beforeAndAfter

namespace VecCoalescedLinearData

variable {Id E : Type}

abbrev Node' (Id E : Type) := Node (IdWithIndex Id) (List E)

def new (initialId : Id) : VecCoalescedLinearData Id E :=
  let beginId := IdWithIndex.zero initialId
  let endId := beginId.increment
  ⟨0, ⟨0, [⟨beginId, none, some endId, .beginning⟩, ⟨endId, some beginId, none, .end⟩]⟩⟩

def withValue (initialId : Id) (initialValue : List E) : Option (VecCoalescedLinearData Id E) :=
  if initialValue.isEmpty then some (new initialId) else
  let valueLen := initialValue.length
  let beginId := IdWithIndex.zero initialId
  let valueId := beginId.increment
  if !valueId.canAddress valueLen then none else
  match valueId.checkedNextAfter valueLen with
  | none => none
  | some endId =>
    let valueNode : Node' Id E := ⟨valueId, some beginId, some endId, .insert initialValue⟩
    some ⟨valueLen, ⟨1, [⟨beginId, none, some valueId, .beginning⟩, valueNode,
      ⟨endId, some valueNode.lastId, none, .end⟩]⟩⟩

def isEmpty (s : VecCoalescedLinearData Id E) : Bool := s.len == 0

/-- The source asserts that `id` can address every element of `value`. -/
def append (s : VecCoalescedLinearData Id E) (id : IdWithIndex Id) (value : List E) :
    Option (VecCoalescedLinearData Id E) :=
  if !id.canAddress value.length then none else
  (s.base.append id value).map fun base => ⟨s.len + value.length, base⟩

def prepend (s : VecCoalescedLinearData Id E) (id : IdWithIndex Id) (value : List E) :
    Option (VecCoalescedLinearData Id E) :=
  if !id.canAddress value.length then none else
  (s.base.prepend id value).map fun base => ⟨s.len + value.length, base⟩

/-- The first node and the one or two nodes that follow it, which replace a node
split in `mode` at `splitIndex`, `splitOffset` elements into it. Every piece keeps
the origins of the node, so all of them conflict with later inserts alike. -/
def splitPieces (target : Node' Id E) (splitIndex splitOffset : ℕ) :
    SplitMode → Option (Node' Id E × Node' Id E × Option (Node' Id E))
  | .before => do
    let (firstOp, secondOp) ← target.operation.splitOff splitOffset
    return ({ target with operation := firstOp },
      ⟨⟨target.id.id, splitIndex⟩, target.leftOrigin, target.rightOrigin, secondOp⟩, none)
  | .after => do
    let (firstOp, secondOp) ← target.operation.splitOff (splitOffset + 1)
    return ({ target with operation := firstOp },
      ⟨⟨target.id.id, splitIndex + 1⟩, target.leftOrigin, target.rightOrigin, secondOp⟩, none)
  | .beforeAndAfter => do
    let (firstOp, restOp) ← target.operation.splitOff splitOffset
    let (secondOp, thirdOp) ← restOp.splitOff 1
    let second : Node' Id E :=
      ⟨⟨target.id.id, splitIndex⟩, target.leftOrigin, target.rightOrigin, secondOp⟩
    return ({ target with operation := firstOp }, second,
      some ⟨second.id.increment, target.leftOrigin, target.rightOrigin, thirdOp⟩)

/-- `split_node`: split the node at `nodeIndex` around `splitIndex` and return the
index of the piece whose id is `splitIndex` (the piece that ends with it, for
`after`). -/
def splitNode (s : VecCoalescedLinearData Id E) (nodeIndex splitIndex : ℕ) (mode : SplitMode) :
    Option (VecCoalescedLinearData Id E × ℕ) := do
  let some target := s.base.nodes[nodeIndex]? | none
  if ¬ splitIndex ≤ target.lastIndex then none
  let some splitOffset := Checked.sub splitIndex target.id.index | none
  let mode ← mode.resolve (splitOffset == 0) (splitIndex == target.lastIndex)
  let (first, second, thirdOpt) ← splitPieces target splitIndex splitOffset mode
  let nodes := (s.base.nodes.set nodeIndex first).insertIdx (nodeIndex + 1) second
  let nodes := match thirdOpt with
    | some third => nodes.insertIdx (nodeIndex + 2) third
    | none => nodes
  -- a tombstone that is split adds no visible node
  let added := if target.isDeleted then 0 else
    match mode with
    | .before | .after => 1
    | .beforeAndAfter => 2
  let index := match mode with
    | .before | .beforeAndAfter => nodeIndex + 1
    | .after => nodeIndex
  return (⟨s.len, ⟨s.base.len + added, nodes⟩⟩, index)

variable [DecidableEq Id]

/-- Delete the one element `id`: its node is split down to that element first.
A tombstone returns its element again; a boundary or a missing id `none`. -/
def delete (s : VecCoalescedLinearData Id E) (id : IdWithIndex Id) :
    Option (Option (E × VecCoalescedLinearData Id E)) :=
  match Search.findFrom (·.contains id) s.base.nodes 0 with
  | none => some none
  | some (nodeIndex, node) => do
    let mustSplit := match node.operation with
      | .insert value => decide (1 < value.length)
      | _ => false
    let (s, nodeIndex) ← if mustSplit then s.splitNode nodeIndex id.index .beforeAndAfter
      else some (s, nodeIndex)
    let some node := s.base.nodes[nodeIndex]? | none
    match node.operation with
    | .insert value =>
      -- the source's debug assertion that the node now holds the one element
      if value.length ≠ 1 then none
      let some nodes := Checked.set s.base.nodes nodeIndex { node with operation := .delete value }
        | none
      let some len := Checked.sub s.len 1 | none
      let some baseLen := Checked.sub s.base.len 1 | none
      return (value[0]?).map fun e => (e, ⟨len, ⟨baseLen, nodes⟩⟩)
    | .delete value => return (value[id.index - node.id.index]?).map fun e => (e, s)
    | .beginning | .end => return none

/-- Tombstone the node at `nodeIndex` and take its elements off both counts: the
end of every range-delete arm. -/
def deleteNodeAt (s : VecCoalescedLinearData Id E) (nodeIndex : ℕ) :
    Option (VecCoalescedLinearData Id E) := do
  let some node := s.base.nodes[nodeIndex]? | none
  let op ← node.operation.applyDelete
  let node := { node with operation := op }
  let some nodes := Checked.set s.base.nodes nodeIndex node | none
  let some len := Checked.sub s.len node.nodeLen | none
  let some baseLen := Checked.sub s.base.len 1 | none
  return ⟨len, ⟨baseLen, nodes⟩⟩

/-- How `delete_range` treats one node of the range, from whether the node holds
the range's start and its end. -/
def itemFromNode (start «end» : IdWithIndex Id) (nodeIndex : ℕ) (node : Node' Id E)
    (containsStart containsEnd : Bool) : DeleteMode :=
  let startAtNodeStart := containsStart && node.id == start
  let endAtNodeEnd := containsEnd && node.lastIndex == «end».index
  if node.isDeleted then .skip nodeIndex
  else if (!containsStart && !containsEnd) || (startAtNodeStart && endAtNodeEnd) then
    .full nodeIndex
  else if startAtNodeStart then .prefixPart nodeIndex
  else if endAtNodeEnd then .suffix nodeIndex
  else .subrange nodeIndex

/-- The work items of the nodes after the start node, up to the one holding
`end`, among the nodes with the range's base id; `none` when no node holds it. -/
def collectWorkItems (start «end» : IdWithIndex Id) : ℕ → List (Node' Id E) →
    Option (List DeleteMode)
  | _, [] => none
  | nodeIndex, node :: rest =>
    if node.id.id = «end».id then
      let foundEnd := node.contains «end»
      let item := itemFromNode start «end» nodeIndex node false foundEnd
      if foundEnd then some [item]
      else (collectWorkItems start «end» (nodeIndex + 1) rest).map (item :: ·)
    else collectWorkItems start «end» (nodeIndex + 1) rest

/-- Carry out one work item. Its node index was computed before any split. -/
def applyDeleteMode (start «end» : IdWithIndex Id) (s : VecCoalescedLinearData Id E) :
    DeleteMode → Option (VecCoalescedLinearData Id E)
  | .skip _ => some s
  | .suffix nodeIndex => do
    let (s, newNodeIndex) ← s.splitNode nodeIndex start.index .before
    s.deleteNodeAt newNodeIndex
  | .subrange nodeIndex => do
    let (s, afterStartSplit) ← s.splitNode nodeIndex start.index .before
    let (s, afterEndSplit) ← s.splitNode afterStartSplit «end».index .after
    s.deleteNodeAt afterEndSplit
  | .full nodeIndex => s.deleteNodeAt nodeIndex
  | .prefixPart nodeIndex => do
    let (s, newNodeIndex) ← s.splitNode nodeIndex «end».index .after
    s.deleteNodeAt newNodeIndex

/-- `delete_range`: delete the elements `start ..= end` of one base id. -/
def deleteRange (s : VecCoalescedLinearData Id E) (start «end» : IdWithIndex Id) :
    Option (Except DeleteError (VecCoalescedLinearData Id E)) :=
  if start = «end» then
    (s.delete start).map fun r => match r with
      | some (_, s') => .ok s'
      | none => .error .notFound
  else if start.id ≠ «end».id then some (.error .invalidRange)
  else if ¬ start.index ≤ «end».index then some (.error .invalidRange)
  else
    match Search.findFrom (·.contains start) s.base.nodes 0 with
    | none => some (.error .notFound)
    | some (startNodeIndex, startNode) =>
      let foundEnd := startNode.contains «end»
      let startItem := itemFromNode start «end» startNodeIndex startNode true foundEnd
      let rest := if foundEnd then some []
        else collectWorkItems start «end» (startNodeIndex + 1) (s.base.nodes.drop (startNodeIndex + 1))
      match rest with
      | none => some (.error .notFound)
      | some workItems =>
        ((startItem :: workItems).foldlM (applyDeleteMode start «end») s).map .ok

/-- Put a new insert node at `position` and count its elements. -/
def insertNodeAt (s : VecCoalescedLinearData Id E) (position : ℕ) (node : Node' Id E)
    (value : List E) : Option (VecCoalescedLinearData Id E) :=
  (Checked.insert s.base.nodes position node).map fun nodes =>
    ⟨s.len + value.length, ⟨s.base.len + 1, nodes⟩⟩

section Apply

variable {Id : Type} [LinearOrder Id]

def applyOperation (s : VecCoalescedLinearData Id E) (op : DataOperation (IdWithIndex Id) (List E)) :
    Option (Except (DataOperation (IdWithIndex Id) (List E)) (VecCoalescedLinearData Id E)) :=
  match op with
  | .insert id pred succ value =>
    if !id.canAddress value.length then some (.error op) else
    match Search.findFrom (·.contains pred) s.base.nodes 0 with
    | none => some (.error op)
    | some (predIndex, predNode) =>
      let succOpt := if predNode.contains succ then some (predIndex, predNode)
        else Search.findFrom (·.contains succ) s.base.nodes predIndex
      match succOpt with
      | none => some (.error op)
      | some (succIndex, succNode) =>
        let node : Node' Id E := ⟨id, some pred, some succ, .insert value⟩
        if predIndex = succIndex then
          -- both anchors in one run: split it between them and insert there
          if pred.isFollowedBy succ then do
            let (s, newSuccIndex) ← s.splitNode predIndex succ.index .before
            let s ← s.insertNodeAt newSuccIndex node value
            return .ok s
          else none
        else if predIndex + 1 = succIndex then
          if predNode.lastId = pred ∧ succNode.id = succ then
            (s.insertNodeAt succIndex node value).map .ok
          else none
        else
          match conflictPosition (·.id.id) s.base.nodes id.id pred succ predIndex succIndex with
          | none => none
          | some (.error ()) => some (.error op)
          | some (.ok position) => (s.insertNodeAt position node value).map .ok
  | .delete start «end» =>
    match «end» with
    | some «end» => (s.deleteRange start «end»).map fun r => match r with
      | .ok s' => .ok s'
      | .error _ => .error op
    | none => (s.delete start).map fun r => match r with
      | some (_, s') => .ok s'
      | none => .error op

/-- Apply operations one after another, as a replica does with the ones it
receives; the first failure ends the run. -/
def applyOperations (s : VecCoalescedLinearData Id E) :
    List (DataOperation (IdWithIndex Id) (List E)) →
      Option (Except (DataOperation (IdWithIndex Id) (List E)) (VecCoalescedLinearData Id E))
  | [] => some (.ok s)
  | op :: ops =>
    match s.applyOperation op with
    | some (.ok s') => s'.applyOperations ops
    | r => r

end Apply

/-- The visible elements in order, as iterating yields them; the iterator asserts
that no insert node is empty. -/
def collectValues : List (Node' Id E) → Option (List E)
  | [] => some []
  | node :: rest =>
    match node.getCurrentValue with
    | none => collectValues rest
    | some [] => none
    | some value => (collectValues rest).map (value ++ ·)

def iterValues (s : VecCoalescedLinearData Id E) : Option (List E) := collectValues s.base.nodes

/-- The first pair of nodes, left before right, that hold a common id. -/
def duplicateId (nodes : List (Node' Id E)) : Option (ℕ × ℕ) :=
  (List.range nodes.length).findSome? fun leftIndex =>
    (List.range' (leftIndex + 1) (nodes.length - (leftIndex + 1))).findSome? fun rightIndex =>
      match nodes[leftIndex]?, nodes[rightIndex]? with
      | some left, some right => if left.ids.any right.contains then some (leftIndex, rightIndex)
        else none
      | _, _ => none

/-- The visible elements the insert nodes hold. -/
def visibleLen (nodes : List (Node' Id E)) : ℕ :=
  (nodes.filterMap fun n => match n.operation with
    | .insert value => some value.length
    | _ => none).sum

def validateIntegrity (s : VecCoalescedLinearData Id E) : Except IntegrityError Unit := do
  s.base.validateIntegrity
  let actualLen := visibleLen s.base.nodes
  if s.len ≠ actualLen then throw (.visibleLengthMismatch s.len actualLen)
  match duplicateId s.base.nodes with
  | some (leftIndex, rightIndex) => throw (.duplicateId leftIndex rightIndex)
  | none => pure ()

end VecCoalescedLinearData

end Flotsync.LinearData
