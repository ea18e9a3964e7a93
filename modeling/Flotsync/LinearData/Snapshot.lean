import Flotsync.LinearData.Integrity

/-!
Snapshots of the sequence CRDT. `encode_snapshot` streams every node to a sink, the
boundaries without a value or a deletion mark; `from_snapshot_nodes` reads such a
stream back one node behind, since the node it holds is an inner one as soon as
another follows it. The node lists a snapshot can carry are the `Frame`s: the
beginning, inner nodes with both origins, the end. Every reachable state is one, its
stream reads back to it, and every stream the reader accepts is the stream of what it
returns.
-/

set_option autoImplicit false

namespace Flotsync.LinearData

structure SnapshotHeader where
  nodeCount : ℕ
deriving DecidableEq, Repr

/-- `SnapshotNode`; the borrowed `SnapshotNodeRef` a sink receives has the same fields. -/
structure SnapshotNode (Id V : Type*) where
  id : Id
  left : Option Id
  right : Option Id
  deleted : Bool
  value : Option V
deriving DecidableEq, Repr

inductive SnapshotReadError (E : Type*) where
  | source (source : E)
  | missingBoundaryNodes
  | boundaryNodeHasLeft (index : ℕ)
  | boundaryNodeHasRight (index : ℕ)
  | boundaryNodeHasValue (index : ℕ)
  | boundaryNodeMarkedDeleted (index : ℕ)
  | nonBoundaryNodeMissingLeft (index : ℕ)
  | nonBoundaryNodeMissingRight (index : ℕ)
  | nonBoundaryNodeMissingValue (index : ℕ)
  | noVisibleValues
deriving DecidableEq, Repr

/-- `SnapshotSink`: it receives the stream, with a state and errors of its own. -/
structure SnapshotSink (σ Err Id W : Type*) where
  begin : σ → SnapshotHeader → Except Err σ
  node : σ → ℕ → SnapshotNode Id W → Except Err σ
  «end» : σ → Except Err σ

/-- The sink that keeps the nodes it receives, in order. -/
def SnapshotSink.collect {Id W : Type*} : SnapshotSink (List (SnapshotNode Id W)) Empty Id W :=
  ⟨fun _ _ => .ok [], fun nodes _ node => .ok (nodes ++ [node]), .ok⟩

namespace VecLinearData

variable {Id V W σ Err E : Type}

/-- The node a sink receives: a boundary carries no value and no deletion mark, any
other node its value; the source panics on a boundary operation inside. -/
def snapshotNode (mapValue : V → W) (isBoundary : Bool) (node : Node Id V) :
    Option (SnapshotNode Id W) := do
  let ((deleted, value) : Bool × Option W) ← if isBoundary then some (false, none) else
    match node.operation with
    | .insert value => some (false, some (mapValue value))
    | .delete value => some (true, some (mapValue value))
    | .beginning | .end => none
  return ⟨node.id, node.leftOrigin, node.rightOrigin, deleted, value⟩

/-- The loop of `encode_snapshot` from `index` on; a sink error ends it. -/
def encodeNodes (sink : SnapshotSink σ Err Id W) (mapValue : V → W) (lastIndex : ℕ) :
    ℕ → List (Node Id V) → σ → Option (Except Err σ)
  | _, [], state => some (.ok state)
  | index, node :: nodes, state => do
    let nodeRef ← snapshotNode mapValue (index == 0 || index == lastIndex) node
    match sink.node state index nodeRef with
    | .error e => some (.error e)
    | .ok state => encodeNodes sink mapValue lastIndex (index + 1) nodes state

def encodeSnapshot (s : VecLinearData Id V) (sink : SnapshotSink σ Err Id W) (state : σ)
    (mapValue : V → W) : Option (Except Err σ) :=
  match sink.begin state ⟨s.nodes.length⟩ with
  | .error e => some (.error e)
  | .ok state =>
    (encodeNodes sink mapValue (s.nodes.length - 1) 0 s.nodes state).map fun r => r.bind sink.«end»

/-- The node read before the current entry, which is an inner one now that another
follows it. -/
def innerNode (pending : SnapshotNode Id V) (pendingIndex : ℕ) :
    Except (SnapshotReadError E) (Node Id V) := do
  let some left := pending.left | throw (.nonBoundaryNodeMissingLeft pendingIndex)
  let some right := pending.right | throw (.nonBoundaryNodeMissingRight pendingIndex)
  let some value := pending.value | throw (.nonBoundaryNodeMissingValue pendingIndex)
  return ⟨pending.id, some left, some right, if pending.deleted then .delete value else .insert value⟩

/-- The loop of `from_snapshot_nodes` over the entries after the second. -/
def readNodes : List (Except E (SnapshotNode Id V)) → ℕ → List (Node Id V) →
    SnapshotNode Id V → ℕ →
    Except (SnapshotReadError E) (ℕ × List (Node Id V) × SnapshotNode Id V × ℕ)
  | [], len, nodes, pending, pendingIndex => .ok (len, nodes, pending, pendingIndex)
  | entry :: entries, len, nodes, pending, pendingIndex => do
    let next ← entry.mapError .source
    let node ← innerNode pending pendingIndex
    let len := if pending.deleted then len else len + 1
    readNodes entries len (nodes ++ [node]) next (pendingIndex + 1)

def fromSnapshotNodes : List (Except E (SnapshotNode Id V)) →
    Except (SnapshotReadError E) (VecLinearData Id V)
  | [] => throw .missingBoundaryNodes
  | first :: entries => do
    let first ← first.mapError .source
    if first.left.isSome then throw (.boundaryNodeHasLeft 0)
    if first.value.isSome then throw (.boundaryNodeHasValue 0)
    if first.deleted then throw (.boundaryNodeMarkedDeleted 0)
    match entries with
    | [] => throw .missingBoundaryNodes
    | second :: entries =>
      let pending ← second.mapError .source
      let (len, nodes, last, lastIndex) ←
        readNodes entries 0 [⟨first.id, first.left, first.right, .beginning⟩] pending 1
      if last.right.isSome then throw (.boundaryNodeHasRight lastIndex)
      if last.value.isSome then throw (.boundaryNodeHasValue lastIndex)
      if last.deleted then throw (.boundaryNodeMarkedDeleted lastIndex)
      return ⟨len, nodes ++ [⟨last.id, last.left, last.right, .end⟩]⟩

end VecLinearData

namespace VecCoalescedLinearData

variable {Id E W σ Err : Type}

def encodeSnapshot (s : VecCoalescedLinearData Id E)
    (sink : SnapshotSink σ Err (IdWithIndex Id) W) (state : σ) (mapValue : List E → W) :
    Option (Except Err σ) :=
  s.base.encodeSnapshot sink state mapValue

/-- The element count is not in the stream: it is summed over the visible runs. -/
def fromBaseSnapshot (base : VecLinearData (IdWithIndex Id) (List E)) :
    VecCoalescedLinearData Id E :=
  ⟨(base.iterValues.map List.length).sum, base⟩

/-- `from_snapshot_nodes` of `LinearList` and `LinearString`, whose chunks are the runs
of elements here. -/
def fromSnapshotNodes (entries : List (Except Err (SnapshotNode (IdWithIndex Id) (List E)))) :
    Except (SnapshotReadError Err) (VecCoalescedLinearData Id E) := do
  let base ← VecLinearData.fromSnapshotNodes entries
  return fromBaseSnapshot base

end VecCoalescedLinearData

/-- The stream entry of a node: its value and deletion mark, none for a boundary. -/
def Node.snapshot {Id V W : Type} (mapValue : V → W) (n : Node Id V) : SnapshotNode Id W :=
  match n.operation with
  | .insert value => ⟨n.id, n.leftOrigin, n.rightOrigin, false, some (mapValue value)⟩
  | .delete value => ⟨n.id, n.leftOrigin, n.rightOrigin, true, some (mapValue value)⟩
  | .beginning | .end => ⟨n.id, n.leftOrigin, n.rightOrigin, false, none⟩

/-- The node lists a snapshot carries: the beginning without a left origin, inner
nodes, the end without a right origin. -/
structure Frame (Id V : Type) where
  first : Node Id V
  inner : List (Node Id V)
  last : Node Id V
  first_beginning : first.operation = .beginning
  first_left : first.leftOrigin = none
  last_end : last.operation = .end
  last_right : last.rightOrigin = none
  inner_inner : ∀ n ∈ inner, n.Inner

namespace Frame

variable {Id V W E : Type}

def nodes (f : Frame Id V) : List (Node Id V) := f.first :: (f.inner ++ [f.last])

@[simp] theorem length_nodes (f : Frame Id V) : f.nodes.length = f.inner.length + 2 := by
  simp [nodes]

theorem countP_nodes (f : Frame Id V) :
    f.nodes.countP (·.operation.isInsert) = f.inner.countP (·.operation.isInsert) := by
  simp [nodes, f.first_beginning, f.last_end, Operation.isInsert]

/-- Where a node of a frame stands: first, last, or among the inner ones. -/
theorem getElem?_nodes {f : Frame Id V} {k : ℕ} {n : Node Id V} (h : f.nodes[k]? = some n) :
    (k = 0 ∧ n = f.first) ∨ (k = f.inner.length + 1 ∧ n = f.last) ∨
      (0 < k ∧ k ≤ f.inner.length ∧ n ∈ f.inner) := by
  cases k with
  | zero =>
    simp only [nodes, List.getElem?_cons_zero, Option.some.injEq] at h
    exact .inl ⟨rfl, h.symm⟩
  | succ k =>
    simp only [nodes, List.getElem?_cons_succ] at h
    rcases Nat.lt_or_ge k f.inner.length with hk | hk
    · rw [List.getElem?_append_left hk] at h
      exact .inr (.inr ⟨Nat.succ_pos k, hk, List.mem_of_getElem? h⟩)
    · rw [List.getElem?_append_right hk] at h
      obtain ⟨hk', rfl⟩ : k - f.inner.length = 0 ∧ f.last = n := by
        simpa [List.getElem?_cons, List.getElem?_eq_none_iff] using h
      exact .inr (.inl ⟨by omega, rfl⟩)

theorem snapshotNode_first (f : Frame Id V) (mapValue : V → W) :
    VecLinearData.snapshotNode mapValue true f.first = some (f.first.snapshot mapValue) := by
  simp [VecLinearData.snapshotNode, Node.snapshot, f.first_beginning]

theorem snapshotNode_last (f : Frame Id V) (mapValue : V → W) :
    VecLinearData.snapshotNode mapValue true f.last = some (f.last.snapshot mapValue) := by
  simp [VecLinearData.snapshotNode, Node.snapshot, f.last_end]

theorem snapshotNode_inner {n : Node Id V} (h : n.Inner) (mapValue : V → W) :
    VecLinearData.snapshotNode mapValue false n = some (n.snapshot mapValue) := by
  cases h <;> rfl

/-- Each node of a frame reaches the sink as its stream entry: the loop's test for a
boundary picks out the first and the last one. -/
theorem snapshotNode_getElem? (f : Frame Id V) (mapValue : V → W) {k : ℕ} {n : Node Id V}
    (h : f.nodes[k]? = some n) :
    VecLinearData.snapshotNode mapValue (k == 0 || k == f.nodes.length - 1) n =
      some (n.snapshot mapValue) := by
  rcases getElem?_nodes h with ⟨rfl, rfl⟩ | ⟨rfl, rfl⟩ | ⟨hpos, hle, hn⟩
  · exact snapshotNode_first f mapValue
  · simpa using snapshotNode_last f mapValue
  · have hboundary : (k == 0 || k == f.nodes.length - 1) = false := by
      simp only [length_nodes, Bool.or_eq_false_iff, beq_eq_false_iff_ne]
      omega
    rw [hboundary]
    exact snapshotNode_inner (f.inner_inner n hn) mapValue

end Frame

/-- With the collecting sink, the loop hands on each node's stream entry. The
induction is on the nodes still to stream, with `index` counting those done. -/
theorem encodeNodes_collect {Id V W : Type} (mapValue : V → W) (lastIndex : ℕ) :
    ∀ (nodes : List (Node Id V)) (index : ℕ) (acc : List (SnapshotNode Id W)),
      (∀ k n, nodes[k]? = some n → VecLinearData.snapshotNode mapValue
        (index + k == 0 || index + k == lastIndex) n = some (n.snapshot mapValue)) →
      VecLinearData.encodeNodes SnapshotSink.collect mapValue lastIndex index nodes acc =
        some (.ok (acc ++ nodes.map (·.snapshot mapValue)))
  | [], _, acc, _ => by simp [VecLinearData.encodeNodes]
  | n :: nodes, index, acc, h => by
    have hn := h 0 n rfl
    have hrest := encodeNodes_collect mapValue lastIndex nodes (index + 1) (acc ++ [n.snapshot mapValue])
      fun k n' hk => by simpa [Nat.add_assoc, Nat.add_comm 1 k] using h (k + 1) n' hk
    simp only [Nat.add_zero] at hn
    simp only [VecLinearData.encodeNodes, hn, Option.bind_eq_bind, Option.bind_some]
    refine hrest.trans ?_
    simp

namespace Frame

variable {Id V W E : Type}

/-- A frame streams to the collecting sink as its nodes' entries. -/
theorem encodeSnapshot_collect (f : Frame Id V) (len : ℕ) (mapValue : V → W) :
    (⟨len, f.nodes⟩ : VecLinearData Id V).encodeSnapshot SnapshotSink.collect [] mapValue =
      some (.ok (f.nodes.map (·.snapshot mapValue))) := by
  have hnodes := encodeNodes_collect mapValue (f.nodes.length - 1) f.nodes 0 []
    fun k n hk => by simpa using snapshotNode_getElem? f mapValue hk
  simp only [VecLinearData.encodeSnapshot, SnapshotSink.collect] at hnodes ⊢
  rw [hnodes]
  rfl

theorem innerNode_snapshot {n : Node Id V} (h : n.Inner) (index : ℕ) :
    (VecLinearData.innerNode (n.snapshot id) index : Except (SnapshotReadError E) (Node Id V)) =
      .ok n := by
  cases h <;> rfl

theorem len_snapshot {n : Node Id V} (h : n.Inner) (len : ℕ) :
    (if (n.snapshot (W := V) id).deleted then len else len + 1) =
      len + [n].countP (·.operation.isInsert) := by
  cases h <;> simp [Node.snapshot, Operation.isInsert]

/-- Reading inner entries one behind: each node is rebuilt when the next entry
arrives, and the last entry is left pending. -/
theorem readNodes_snapshot (last : Node Id V) :
    ∀ (inner : List (Node Id V)) (pending : Node Id V) (len index : ℕ) (acc : List (Node Id V)),
      pending.Inner → (∀ n ∈ inner, n.Inner) →
      (VecLinearData.readNodes ((inner ++ [last]).map fun n => .ok (n.snapshot id)) len acc
          (pending.snapshot id) index : Except (SnapshotReadError E) _) =
        .ok (len + (pending :: inner).countP (·.operation.isInsert), acc ++ pending :: inner,
          last.snapshot id, index + inner.length + 1)
  | [], pending, len, index, acc, hp, _ => by
    simp only [List.nil_append, List.map_cons, List.map_nil, VecLinearData.readNodes,
      Checked.mapError_ok, Checked.ok_bind, innerNode_snapshot hp, len_snapshot hp]
    simp
  | n :: inner, pending, len, index, acc, hp, hinner => by
    have hrest := readNodes_snapshot last inner n (len + [pending].countP (·.operation.isInsert))
      (index + 1) (acc ++ [pending]) (hinner n List.mem_cons_self)
      fun m hm => hinner m (List.mem_cons_of_mem _ hm)
    simp only [List.cons_append, List.map_cons, VecLinearData.readNodes, Checked.mapError_ok,
      Checked.ok_bind, innerNode_snapshot hp, len_snapshot hp, hrest]
    simp only [List.countP_cons, List.countP_nil, List.length_cons, List.append_assoc,
      List.singleton_append]
    congr 2
    · split_ifs <;> omega
    · rw [Nat.add_right_comm index 1, Nat.add_assoc index]

/-- A frame's stream reads back to the frame, with its visible nodes counted. -/
theorem fromSnapshotNodes_snapshot (f : Frame Id V) :
    (VecLinearData.fromSnapshotNodes (f.nodes.map fun n => .ok (n.snapshot id)) :
      Except (SnapshotReadError E) _) = .ok ⟨f.nodes.countP (·.operation.isInsert), f.nodes⟩ := by
  obtain ⟨first, inner, last, hb, hl, he, hr, hinner⟩ := f
  have hfirst : first.snapshot id = ⟨first.id, none, first.rightOrigin, false, none⟩ := by
    simp [Node.snapshot, hb, hl]
  have hlast : last.snapshot id = ⟨last.id, last.leftOrigin, none, false, none⟩ := by
    simp [Node.snapshot, he, hr]
  have hB : (⟨first.id, none, first.rightOrigin, .beginning⟩ : Node Id V) = first := by
    obtain ⟨_, _, _, _⟩ := first
    simp_all
  have hE : (⟨last.id, last.leftOrigin, none, .end⟩ : Node Id V) = last := by
    obtain ⟨_, _, _, _⟩ := last
    simp_all
  -- the reader is left holding the last entry, after rebuilding the inner nodes
  have hread : ∀ pending rest, (pending :: rest = (inner ++ [last]).map fun n => .ok (n.snapshot id)) →
      ∃ second, pending = .ok second ∧
        (VecLinearData.readNodes rest 0 [first] second 1 : Except (SnapshotReadError E) _) =
          .ok (inner.countP (·.operation.isInsert), first :: inner, last.snapshot id,
            inner.length + 1) := by
    intro pending rest hsplit
    cases inner with
    | nil =>
      simp only [List.nil_append, List.map_cons, List.map_nil, List.cons.injEq] at hsplit
      obtain ⟨rfl, rfl⟩ := hsplit
      exact ⟨_, rfl, rfl⟩
    | cons p inner =>
      simp only [List.cons_append, List.map_cons, List.cons.injEq] at hsplit
      obtain ⟨rfl, rfl⟩ := hsplit
      refine ⟨_, rfl, ?_⟩
      rw [readNodes_snapshot last inner p 0 1 [first] (hinner p List.mem_cons_self)
        fun m hm => hinner m (List.mem_cons_of_mem _ hm)]
      simp [Nat.add_comm]
  obtain ⟨pending, rest, hsplit⟩ := List.exists_cons_of_ne_nil (by simp :
    ((inner ++ [last]).map fun n => (Except.ok (n.snapshot id) : Except E (SnapshotNode Id V))) ≠ [])
  obtain ⟨second, rfl, hsecond⟩ := hread _ rest hsplit.symm
  have hcount : (first :: (inner ++ [last])).countP (·.operation.isInsert) =
      inner.countP (·.operation.isInsert) := by
    simp [hb, he, Operation.isInsert]
  simp only [nodes, List.map_cons, hsplit, VecLinearData.fromSnapshotNodes, Checked.mapError_ok,
    Checked.ok_bind, hfirst, hB, hsecond, hlast, hE, hcount]
  simp
  rfl

theorem eq_of_innerNode {p : SnapshotNode Id V} {index : ℕ} {n : Node Id V}
    (h : (VecLinearData.innerNode p index : Except (SnapshotReadError E) _) = .ok n) :
    n.Inner ∧ p = n.snapshot id := by
  obtain ⟨i, left, right, deleted, value⟩ := p
  cases left with
  | none => cases h
  | some l =>
    cases right with
    | none => cases h
    | some r =>
      cases value with
      | none => cases h
      | some v =>
        cases deleted with
        | false =>
          cases h
          exact ⟨.insert i l r v, rfl⟩
        | true =>
          cases h
          exact ⟨.delete i l r v, rfl⟩

/-- What the reader's loop accepts: the entries of inner nodes, then one it leaves
pending. The induction is on the entries, the pending one moving along. -/
theorem eq_of_readNodes :
    ∀ (entries : List (SnapshotNode Id V)) (len index : ℕ) (acc : List (Node Id V))
      (pending : SnapshotNode Id V) {r : ℕ × List (Node Id V) × SnapshotNode Id V × ℕ},
      (VecLinearData.readNodes (entries.map .ok) len acc pending index :
        Except (SnapshotReadError E) _) = .ok r →
      ∃ inner last, (∀ n ∈ inner, n.Inner) ∧
        pending :: entries = inner.map (·.snapshot id) ++ [last] ∧
        r = (len + inner.countP (·.operation.isInsert), acc ++ inner, last, index + inner.length)
  | [], len, index, acc, pending, r, h => by
    cases h
    exact ⟨[], pending, by simp, by simp, by simp⟩
  | e :: entries, len, index, acc, pending, r, h => by
    simp only [List.map_cons, VecLinearData.readNodes, Checked.mapError_ok, Checked.ok_bind] at h
    obtain ⟨n, hn, h⟩ := Checked.bind_eq_ok h
    obtain ⟨hinner, rfl⟩ := eq_of_innerNode hn
    obtain ⟨inner, last, hall, hsplit, rfl⟩ := eq_of_readNodes entries _ (index + 1) (acc ++ [n]) e h
    refine ⟨n :: inner, last, ?_, ?_, ?_⟩
    · intro m hm
      rcases List.mem_cons.1 hm with rfl | hm
      · exact hinner
      · exact hall m hm
    · rw [hsplit]
      rfl
    · rw [len_snapshot hinner]
      simp only [List.countP_cons, List.countP_nil, List.append_assoc, List.singleton_append,
        List.length_cons, Prod.mk.injEq, true_and]
      omega

/-- A stream the reader accepts is the stream of a frame, and the reader returns that
frame. -/
theorem eq_of_fromSnapshotNodes {ns : List (SnapshotNode Id V)} {d : VecLinearData Id V}
    (h : (VecLinearData.fromSnapshotNodes (ns.map .ok) : Except (SnapshotReadError E) _) = .ok d) :
    ∃ f : Frame Id V, d = ⟨f.nodes.countP (·.operation.isInsert), f.nodes⟩ ∧
      ns = f.nodes.map (·.snapshot id) := by
  cases ns with
  | nil => cases h
  | cons first entries =>
    simp only [List.map_cons, VecLinearData.fromSnapshotNodes, Checked.mapError_ok,
      Checked.ok_bind] at h
    -- each check on the first entry would have thrown
    have hl : first.left = none := by
      cases hfl : first.left with
      | none => rfl
      | some _ => simp [hfl] at h
    have hv : first.value = none := by
      cases hfv : first.value with
      | none => rfl
      | some _ => simp [hl, hfv] at h
    have hd : first.deleted = false := by
      cases hfd : first.deleted with
      | false => rfl
      | true => simp [hl, hv, hfd] at h
    simp only [hl, hv, hd, Option.isSome_none, Bool.false_eq_true, if_false] at h
    cases entries with
    | nil => cases h
    | cons second entries =>
      simp only [List.map_cons, Checked.mapError_ok, Checked.ok_bind] at h
      obtain ⟨r, hread, h⟩ := Checked.bind_eq_ok h
      obtain ⟨inner, last, hinner, hsplit, rfl⟩ := eq_of_readNodes entries 0 1 _ second hread
      -- and each check on the entry left pending
      have hr : last.right = none := by
        cases hlr : last.right with
        | none => rfl
        | some _ => simp [hlr] at h
      have hv' : last.value = none := by
        cases hlv : last.value with
        | none => rfl
        | some _ => simp [hr, hlv] at h
      have hd' : last.deleted = false := by
        cases hld : last.deleted with
        | false => rfl
        | true => simp [hr, hv', hld] at h
      simp only [hr, hv', hd', Option.isSome_none, Bool.false_eq_true, if_false] at h
      cases h
      let f : Frame Id V := ⟨⟨first.id, none, first.right, .beginning⟩, inner,
        ⟨last.id, last.left, none, .end⟩, rfl, rfl, rfl, rfl, hinner⟩
      refine ⟨f, ?_, ?_⟩
      · rw [countP_nodes]
        simp [f, nodes]
      · obtain ⟨_, _, _, _, _⟩ := first
        obtain ⟨_, _, _, _, _⟩ := last
        simp_all [f, nodes, Node.snapshot]

/-- Replacing a stretch strictly inside a frame's nodes by inner nodes gives a frame. -/
theorem replace (f : Frame Id V) {pre mid mid' post : List (Node Id V)}
    (h : f.nodes = pre ++ mid ++ post) (hpre : pre ≠ []) (hpost : post ≠ [])
    (hmid : ∀ n ∈ mid', n.Inner) : ∃ f' : Frame Id V, f'.nodes = pre ++ mid' ++ post := by
  obtain ⟨b, pre, rfl⟩ := List.exists_cons_of_ne_nil hpre
  obtain ⟨post, e, rfl⟩ : ∃ post' e, post = post' ++ [e] :=
    ⟨_, _, (List.dropLast_append_getLast hpost).symm⟩
  -- the first node and the last one stay; the inner nodes are `pre ++ mid ++ post`
  simp only [nodes, List.cons_append, List.cons.injEq] at h
  obtain ⟨rfl, h⟩ := h
  have h' : f.inner ++ [f.last] = (pre ++ mid ++ post) ++ [e] := by
    simpa only [List.append_assoc] using h
  obtain ⟨hinner, he⟩ := List.append_inj' h' rfl
  obtain rfl : f.last = e := List.singleton_inj.1 he
  refine ⟨⟨f.first, pre ++ mid' ++ post, f.last, f.first_beginning, f.first_left, f.last_end,
    f.last_right, fun n hn => ?_⟩, by simp [nodes]⟩
  rw [List.mem_append, List.mem_append] at hn
  rcases hn with (hn | hn) | hn
  · exact f.inner_inner n (by rw [hinner]; simp [hn])
  · exact hmid n hn
  · exact f.inner_inner n (by rw [hinner]; simp [hn])

end Frame

/-- The nodes are those of a frame. -/
def Framed {Id V : Type} (nodes : List (Node Id V)) : Prop := ∃ f : Frame Id V, f.nodes = nodes

namespace Framed

variable {Id V : Type} {nodes : List (Node Id V)}

theorem replace (h : Framed nodes) {pre mid mid' post : List (Node Id V)}
    (hsplit : nodes = pre ++ mid ++ post) (hpre : pre ≠ []) (hpost : post ≠ [])
    (hmid : ∀ n ∈ mid', n.Inner) : Framed (pre ++ mid' ++ post) := by
  obtain ⟨f, rfl⟩ := h
  exact f.replace hsplit hpre hpost hmid

/-- A node that holds a value stands strictly inside a frame, and is inner. -/
theorem inner_of_getElem? (h : Framed nodes) {i : ℕ} {n : Node Id V} {v : V}
    (hi : nodes[i]? = some n) (hop : n.operation = .insert v ∨ n.operation = .delete v) :
    n.Inner ∧ 0 < i ∧ i + 1 < nodes.length := by
  obtain ⟨f, rfl⟩ := h
  rcases Frame.getElem?_nodes hi with ⟨rfl, rfl⟩ | ⟨rfl, rfl⟩ | ⟨hpos, hle, hn⟩
  · rcases hop with hop | hop <;> simp [f.first_beginning] at hop
  · rcases hop with hop | hop <;> simp [f.last_end] at hop
  · exact ⟨f.inner_inner n hn, hpos, by simp; omega⟩

theorem insertIdx (h : Framed nodes) {p : ℕ} (hp : 0 < p) (hlt : p < nodes.length)
    {node : Node Id V} (hn : node.Inner) : Framed (nodes.insertIdx p node) := by
  have htake : nodes.take p ≠ [] := by
    rw [Ne, List.take_eq_nil_iff]
    rintro (h | h)
    · omega
    · simp [h] at hlt
  have hdrop : nodes.drop p ≠ [] := by
    rw [Ne, List.drop_eq_nil_iff]
    omega
  rw [Checked.insertIdx_eq_take_drop hlt.le, ← List.singleton_append, ← List.append_assoc]
  exact h.replace (by simp : nodes = nodes.take p ++ [] ++ nodes.drop p) htake hdrop
    (by simpa using hn)

/-- Replacing a node that holds a value by pieces that are inner when it is. -/
theorem replaceAt (h : Framed nodes) {i : ℕ} {n : Node Id V} {v : V} (hi : nodes[i]? = some n)
    (hop : n.operation = .insert v ∨ n.operation = .delete v) {pieces : List (Node Id V)}
    (hpieces : n.Inner → ∀ p ∈ pieces, p.Inner) :
    Framed (nodes.take i ++ pieces ++ nodes.drop (i + 1)) := by
  obtain ⟨hn, hpos, hlt⟩ := h.inner_of_getElem? hi hop
  have hsplit : nodes = nodes.take i ++ [n] ++ nodes.drop (i + 1) := by
    simpa using Checked.eq_take_cons_drop hi
  refine h.replace hsplit ?_ ?_ (hpieces hn)
  · rw [Ne, List.take_eq_nil_iff]
    rintro (h | h)
    · omega
    · simp [h] at hlt
  · rw [Ne, List.drop_eq_nil_iff]
    omega

/-- Turning an insert node into its tombstone. -/
theorem tombstone (h : Framed nodes) {i : ℕ} {n : Node Id V} {v : V} (hi : nodes[i]? = some n)
    (hop : n.operation = .insert v) : Framed (nodes.set i { n with operation := .delete v }) := by
  obtain ⟨hn, -, -⟩ := h.inner_of_getElem? hi (.inl hop)
  obtain ⟨left, right, -, hl, hr, -⟩ := hn.origins
  have hlt := (List.getElem?_eq_some_iff.1 hi).1
  rw [List.set_eq_take_append_cons_drop, if_pos hlt, ← List.singleton_append, ← List.append_assoc]
  refine h.replaceAt hi (.inl hop) fun _ p hp => ?_
  rw [List.mem_singleton] at hp
  subst hp
  exact .of_origins hl hr (.inr rfl)

end Framed

namespace VecLinearData

variable {Id V : Type} {s s' : VecLinearData Id V}

theorem Framed.append (h : Framed s.nodes) {id : Id} {value : V}
    (happ : s.append id value = some s') : Framed s'.nodes := by
  obtain ⟨p, node, hp, hlt, -, -, hn, rfl⟩ := append_eq_some happ
  exact h.insertIdx hp hlt hn

theorem Framed.prepend (h : Framed s.nodes) {id : Id} {value : V}
    (happ : s.prepend id value = some s') : Framed s'.nodes := by
  obtain ⟨p, node, hp, hlt, -, -, hn, rfl⟩ := prepend_eq_some happ
  exact h.insertIdx hp hlt hn

theorem Framed.delete [DecidableEq Id] (h : Framed s.nodes) {id : Id} {value : V}
    (hdel : s.delete id = some (some (value, s'))) : Framed s'.nodes := by
  rcases delete_eq_some hdel with rfl | ⟨i, n, hi, hop, -, rfl⟩
  · exact h
  · exact h.tombstone hi hop

theorem Framed.applyOperation [LinearOrder Id] (h : Framed s.nodes) {op : DataOperation Id V}
    (happ : s.applyOperation op = some (.ok s')) : Framed s'.nodes := by
  rcases applyOperation_eq_ok happ with ⟨-, -, -, -, p, -, hp, hlt, -, rfl⟩ | ⟨_, _, -, hdel⟩
  · exact h.insertIdx hp hlt (.insert _ _ _ _)
  · exact Framed.delete h hdel

theorem framed_new (beginId endId : Id) : Framed (new beginId endId : VecLinearData Id V).nodes :=
  ⟨⟨⟨beginId, none, some endId, .beginning⟩, [], ⟨endId, some beginId, none, .end⟩,
    rfl, rfl, rfl, rfl, by simp⟩, rfl⟩

theorem framed_withValue (initialValue : V) (beginId valueId endId : Id) :
    Framed (withValue initialValue beginId valueId endId).nodes :=
  ⟨⟨⟨beginId, none, some valueId, .beginning⟩, [⟨valueId, some beginId, some endId, .insert initialValue⟩],
    ⟨endId, some valueId, none, .end⟩, rfl, rfl, rfl, rfl, by simpa using .insert _ _ _ _⟩, rfl⟩

/-- Every reachable state is a frame, so it has a snapshot. -/
theorem Reachable.framed [LinearOrder Id] (h : Reachable s) : Framed s.nodes := by
  induction h with
  | new beginId endId => exact framed_new beginId endId
  | withValue initialValue beginId valueId endId =>
    exact framed_withValue initialValue beginId valueId endId
  | step _ hstep ih =>
    cases hstep with
    | append happ => exact Framed.append ih happ
    | prepend happ => exact Framed.prepend ih happ
    | delete hdel => exact Framed.delete ih hdel
    | applyOperation happ => exact Framed.applyOperation ih happ

/-- The stream of a state whose nodes are a frame, as the collecting sink keeps it,
reads back to the state, its count of visible nodes included. -/
theorem fromSnapshotNodes_encodeSnapshot {E : Type} (hf : Framed s.nodes)
    (hlen : s.len = s.nodes.countP (·.operation.isInsert)) :
    ∃ ns, s.encodeSnapshot SnapshotSink.collect [] id = some (.ok ns) ∧
      (fromSnapshotNodes (ns.map .ok) : Except (SnapshotReadError E) _) = .ok s := by
  obtain ⟨f, hf⟩ := hf
  obtain ⟨len, nodes⟩ := s
  dsimp only at hf hlen
  subst hf hlen
  refine ⟨_, f.encodeSnapshot_collect _ id, ?_⟩
  rw [List.map_map]
  exact Frame.fromSnapshotNodes_snapshot f

/-- What the reader refuses: fewer than two entries; a first entry with a left link, a
value or a deletion mark; a last one with a right link, a value or a deletion mark;
an entry in between without a left link, a right link or a value. -/
def MalformedSnapshot (ns : List (SnapshotNode Id V)) : Prop :=
  ns.length < 2 ∨
    (∃ first ∈ ns.head?, first.left.isSome ∨ first.value.isSome ∨ first.deleted) ∨
    (∃ last ∈ ns.getLast?, last.right.isSome ∨ last.value.isSome ∨ last.deleted) ∨
    ∃ i n, 0 < i ∧ i + 1 < ns.length ∧ ns[i]? = some n ∧
      (n.left = none ∨ n.right = none ∨ n.value = none)

/-- The stream of a frame is well formed. -/
theorem not_malformedSnapshot (f : Frame Id V) :
    ¬ MalformedSnapshot (f.nodes.map (·.snapshot id)) := by
  rintro (hlen | ⟨first, hfirst, hbad⟩ | ⟨last, hlast, hbad⟩ | ⟨i, n, hpos, hlt, hi, hbad⟩)
  · simp at hlen
  · simp only [Frame.nodes, List.map_cons, List.head?_cons, Option.mem_def,
      Option.some.injEq] at hfirst
    subst hfirst
    simp [Node.snapshot, f.first_beginning, f.first_left] at hbad
  · simp only [Frame.nodes, List.map_cons, List.getLast?_map, Option.mem_def,
      List.getLast?_cons, List.getLast?_concat] at hlast
    obtain ⟨_, rfl, rfl⟩ := hlast
    simp [Node.snapshot, f.last_end, f.last_right] at hbad
  · -- an entry in between is the stream entry of an inner node
    rw [List.getElem?_map, Option.map_eq_some_iff] at hi
    obtain ⟨m, hm, rfl⟩ := hi
    rcases Frame.getElem?_nodes hm with ⟨rfl, -⟩ | ⟨rfl, -⟩ | ⟨-, -, hmem⟩
    · omega
    · simp at hlt
    · cases f.inner_inner m hmem <;> simp [Node.snapshot] at hbad

theorem fromSnapshotNodes_eq_error {E : Type} {ns : List (SnapshotNode Id V)}
    (hbad : MalformedSnapshot ns) :
    ∃ err, (fromSnapshotNodes (ns.map .ok) : Except (SnapshotReadError E) _) = .error err := by
  cases hdec : (fromSnapshotNodes (ns.map .ok) : Except (SnapshotReadError E) _) with
  | error err => exact ⟨err, rfl⟩
  | ok d =>
    obtain ⟨f, -, rfl⟩ := Frame.eq_of_fromSnapshotNodes hdec
    exact absurd hbad (not_malformedSnapshot f)

end VecLinearData

namespace VecCoalescedLinearData

variable {Id E : Type} {s s' : VecCoalescedLinearData Id E}

theorem Framed.insertNodeAt (h : Framed s.base.nodes) {p : ℕ} {node : Node' Id E}
    {value : List E} (hins : s.insertNodeAt p node value = some s') (hp : 0 < p)
    (hlt : p < s.base.nodes.length) (hn : node.Inner) : Framed s'.base.nodes := by
  obtain ⟨-, rfl⟩ := insertNodeAt_eq_some hins
  exact h.insertIdx hp hlt hn

theorem Framed.append (h : Framed s.base.nodes) {id : IdWithIndex Id} {value : List E}
    (happ : s.append id value = some s') : Framed s'.base.nodes := by
  unfold VecCoalescedLinearData.append at happ
  split at happ
  · cases happ
  obtain ⟨base, hb, rfl⟩ := Option.map_eq_some_iff.1 happ
  exact VecLinearData.Framed.append h hb

theorem Framed.prepend (h : Framed s.base.nodes) {id : IdWithIndex Id} {value : List E}
    (happ : s.prepend id value = some s') : Framed s'.base.nodes := by
  unfold VecCoalescedLinearData.prepend at happ
  split at happ
  · cases happ
  obtain ⟨base, hb, rfl⟩ := Option.map_eq_some_iff.1 happ
  exact VecLinearData.Framed.prepend h hb

theorem framed_new (initialId : Id) : Framed (new initialId : VecCoalescedLinearData Id E).base.nodes :=
  ⟨⟨_, [], _, rfl, rfl, rfl, rfl, by simp⟩, rfl⟩

theorem framed_withValue {initialId : Id} {initialValue : List E}
    (h : withValue initialId initialValue = some s) : Framed s.base.nodes := by
  unfold withValue at h
  split at h
  · cases h
    exact framed_new initialId
  dsimp only at h
  split at h
  · cases h
  split at h
  · cases h
  cases h
  exact ⟨⟨_, [_], _, rfl, rfl, rfl, rfl, by simpa using .insert _ _ _ _⟩, rfl⟩

theorem sum_length_iterValues (base : VecLinearData (IdWithIndex Id) (List E)) :
    (base.iterValues.map List.length).sum = (base.nodes.map Node.visible).sum := by
  obtain ⟨len, nodes⟩ := base
  simp only [VecLinearData.iterValues]
  induction nodes with
  | nil => rfl
  | cons n nodes ih =>
    have hvis : n.visible = (n.getCurrentValue.map List.length).getD 0 := by
      cases h : n.operation <;> simp [Node.visible, Node.getCurrentValue, h]
    cases hc : n.getCurrentValue <;> simp [hc, hvis, ih]

theorem fromSnapshotNodes_eq_error {Err : Type}
    {ns : List (SnapshotNode (IdWithIndex Id) (List E))}
    (hbad : VecLinearData.MalformedSnapshot ns) :
    ∃ err, (fromSnapshotNodes (ns.map .ok) : Except (SnapshotReadError Err) _) = .error err := by
  obtain ⟨err, herr⟩ := VecLinearData.fromSnapshotNodes_eq_error (E := Err) hbad
  exact ⟨err, by rw [fromSnapshotNodes, herr]; rfl⟩

section Split

variable [DecidableEq Id]

/-- A split replaces a run by pieces with its origins. -/
theorem Framed.splitNode (h : Framed s.base.nodes) {i k j : ℕ} {m : SplitMode}
    (hsplit : s.splitNode i k m = some (s', j)) : Framed s'.base.nodes := by
  obtain ⟨target, pieces, hi, -, ⟨mk, v, hmk, hop⟩, -, -, -, -, -, hnodes, -, hinner⟩ :=
    splitNode_eq_some hsplit
  rw [hnodes]
  rcases hmk with rfl | rfl
  · exact h.replaceAt hi (.inl hop) hinner
  · exact h.replaceAt hi (.inr hop) hinner

omit [DecidableEq Id] in
theorem Framed.deleteNodeAt (h : Framed s.base.nodes) {i : ℕ} (hdel : s.deleteNodeAt i = some s') :
    Framed s'.base.nodes := by
  obtain ⟨n, v, hi, hop, -, -, rfl⟩ := deleteNodeAt_eq_some hdel
  exact h.tombstone hi hop

theorem Framed.delete (h : Framed s.base.nodes) {id : IdWithIndex Id} {e : E}
    (hdel : s.delete id = some (some (e, s'))) : Framed s'.base.nodes := by
  obtain ⟨s₁, j, h₁, h₂⟩ := delete_eq_some hdel
  have hs₁ : Framed s₁.base.nodes := by
    rcases h₁ with rfl | ⟨i, hsplit⟩
    · exact h
    · exact Framed.splitNode h hsplit
  rcases h₂ with rfl | ⟨n, v, hn, hop, -, -, -, rfl⟩
  · exact hs₁
  · exact hs₁.tombstone hn hop

theorem Framed.applyDeleteMode (h : Framed s.base.nodes) {start «end» : IdWithIndex Id}
    {mode : DeleteMode} (hmode : applyDeleteMode start «end» s mode = some s') :
    Framed s'.base.nodes := by
  cases mode with
  | skip =>
    cases hmode
    exact h
  | suffix i =>
    obtain ⟨⟨s₁, j⟩, h₁, h₂⟩ := Option.bind_eq_some_iff.1 hmode
    exact Framed.deleteNodeAt (Framed.splitNode h h₁) h₂
  | subrange i =>
    obtain ⟨⟨s₁, j⟩, h₁, h₂⟩ := Option.bind_eq_some_iff.1 hmode
    obtain ⟨⟨s₂, k⟩, h₂, h₃⟩ := Option.bind_eq_some_iff.1 h₂
    exact Framed.deleteNodeAt (Framed.splitNode (Framed.splitNode h h₁) h₂) h₃
  | full i => exact Framed.deleteNodeAt h hmode
  | prefixPart i =>
    obtain ⟨⟨s₁, j⟩, h₁, h₂⟩ := Option.bind_eq_some_iff.1 hmode
    exact Framed.deleteNodeAt (Framed.splitNode h h₁) h₂

theorem Framed.deleteRange (h : Framed s.base.nodes) {start «end» : IdWithIndex Id}
    (hdel : s.deleteRange start «end» = some (.ok s')) : Framed s'.base.nodes := by
  unfold VecCoalescedLinearData.deleteRange at hdel
  split_ifs at hdel
  · obtain ⟨r, hr, hdel⟩ := Option.map_eq_some_iff.1 hdel
    rcases r with _ | ⟨e, s₂⟩
    · cases hdel
    · cases hdel
      exact Framed.delete h hr
  · cases hdel
  · split at hdel
    · cases hdel
    dsimp only at hdel
    split at hdel
    · cases hdel
    obtain ⟨s₂, hfold, hdel⟩ := Option.map_eq_some_iff.1 hdel
    cases hdel
    exact Checked.foldlM_induction (fun s : VecCoalescedLinearData Id E => Framed s.base.nodes)
      (fun _ _ _ hb hf => Framed.applyDeleteMode hb hf) _ hfold h
  · cases hdel

end Split

end VecCoalescedLinearData

end Flotsync.LinearData
