import Flotsync.LinearData.Snapshot

/-!
The public mutators of `VecCoalescedLinearData` check no id for freshness: `append` takes
an id a node already holds (`append_reused_id_fails_validate_integrity`). What every run
keeps whatever ids it is given is the frame and both cached counts (`Counted`), the part
of `validate_integrity` that distinct ids play no part in; the frame and the counts are
what the snapshot reader rebuilds, so every such state reads back from its snapshot.
-/

set_option autoImplicit false

namespace Flotsync.LinearData

namespace VecCoalescedLinearData

variable {Id E : Type}

section Counts

variable {s s' : VecCoalescedLinearData Id E}

/-- The boundaries of the frame, and both cached counts. -/
structure Counted (s : VecCoalescedLinearData Id E) : Prop where
  base : s.base.Inv
  len : s.len = (s.base.nodes.map Node.visible).sum

theorem Counted.replace (hs : Counted s) {pre mid mid' post : List (Node' Id E)}
    (hn : s.base.nodes = pre ++ mid ++ post) (hn' : s'.base.nodes = pre ++ mid' ++ post)
    (hpre : pre ≠ []) (hpost : post ≠ [])
    (hcount : s'.base.len + mid.countP (·.operation.isInsert) =
      s.base.len + mid'.countP (·.operation.isInsert))
    (hvis : s'.len + (mid.map Node.visible).sum = s.len + (mid'.map Node.visible).sum) :
    Counted s' := by
  refine ⟨hs.base.replace hn hn' hpre hpost hcount, ?_⟩
  have h₁ := hs.len
  rw [hn] at h₁
  rw [hn']
  simp only [List.map_append, List.sum_append] at h₁ ⊢
  omega

theorem Counted.replaceAt (hs : Counted s) {i : ℕ} {n : Node' Id E} {pieces : List (Node' Id E)}
    (hi : s.base.nodes[i]? = some n) (hb : n.operation.isBeginning = false)
    (he : n.operation.isEnd = false)
    (hn' : s'.base.nodes = s.base.nodes.take i ++ pieces ++ s.base.nodes.drop (i + 1))
    (hcount : s'.base.len + (if n.operation.isInsert then 1 else 0) =
      s.base.len + pieces.countP (·.operation.isInsert))
    (hvis : s'.len + n.visible = s.len + (pieces.map Node.visible).sum) : Counted s' := by
  obtain ⟨hpre, hpost⟩ := hs.base.around_ne_nil hi hb he
  have hn : s.base.nodes = s.base.nodes.take i ++ [n] ++ s.base.nodes.drop (i + 1) := by
    simpa using Checked.eq_take_cons_drop hi
  exact hs.replace hn hn' hpre hpost (by simpa [List.countP_singleton] using hcount)
    (by simpa using hvis)

theorem Counted.insertAt (hs : Counted s) {p : ℕ} (hp : 0 < p) (hlt : p < s.base.nodes.length)
    {node : Node' Id E} {value : List E} (hop : node.operation = .insert value) :
    Counted ⟨s.len + value.length, ⟨s.base.len + 1, s.base.nodes.insertIdx p node⟩⟩ := by
  refine ⟨hs.base.insertIdx hp hlt (by simp [hop, Operation.isInsert]), ?_⟩
  have hn' : s.base.nodes.insertIdx p node = s.base.nodes.take p ++ [node] ++ s.base.nodes.drop p := by
    simp [Checked.insertIdx_eq_take_drop (Nat.le_of_lt hlt)]
  have h₁ := hs.len
  conv at h₁ => rw [← List.take_append_drop p s.base.nodes]
  rw [hn']
  simp only [List.map_append, List.sum_append, List.map_cons, List.map_nil, List.sum_cons,
    List.sum_nil, hop, Node.visible] at h₁ ⊢
  omega

theorem Counted.tombstone (hs : Counted s) {i : ℕ} {n : Node' Id E} {v : List E}
    (hi : s.base.nodes[i]? = some n) (hop : n.operation = .insert v) (hlen : v.length ≤ s.len)
    (hbase : 1 ≤ s.base.len) :
    Counted ⟨s.len - v.length, ⟨s.base.len - 1, s.base.nodes.set i { n with operation := .delete v }⟩⟩ := by
  have hlt := (List.getElem?_eq_some_iff.1 hi).1
  have hn' : s.base.nodes.set i { n with operation := .delete v } =
      s.base.nodes.take i ++ [{ n with operation := .delete v }] ++ s.base.nodes.drop (i + 1) := by
    simp [List.set_eq_take_append_cons_drop, hlt]
  refine hs.replaceAt hi (by simp [hop, Operation.isBeginning]) (by simp [hop, Operation.isEnd])
    hn' ?_ ?_
  · have hcount : [{ n with operation := .delete v }].countP (·.operation.isInsert) = 0 := by
      simp [Operation.isInsert]
    rw [hcount]
    simp only [hop, Operation.isInsert, ↓reduceIte]
    omega
  · simp only [hop, Node.visible, List.map_cons, List.map_nil, List.sum_cons, List.sum_nil]
    omega

theorem Counted.deleteNodeAt (hs : Counted s) {i : ℕ} (h : s.deleteNodeAt i = some s') :
    Counted s' := by
  obtain ⟨n, v, hi, hop, h₁, h₂, rfl⟩ := deleteNodeAt_eq_some h
  exact hs.tombstone hi hop h₁ h₂

theorem Counted.insertNodeAt (hs : Counted s) {p : ℕ} {node : Node' Id E} {value : List E}
    (h : s.insertNodeAt p node value = some s') (hp : 0 < p) (hlt : p < s.base.nodes.length)
    (hop : node.operation = .insert value) : Counted s' := by
  obtain ⟨-, rfl⟩ := insertNodeAt_eq_some h
  exact hs.insertAt hp hlt hop

theorem Counted.append (hs : Counted s) {id : IdWithIndex Id} {value : List E}
    (h : s.append id value = some s') : Counted s' := by
  unfold VecCoalescedLinearData.append at h
  split at h
  · cases h
  obtain ⟨base, hb, rfl⟩ := Option.map_eq_some_iff.1 h
  obtain ⟨p, node, hp, hlt, -, hop, -, rfl⟩ := VecLinearData.append_eq_some hb
  exact hs.insertAt hp hlt hop

theorem Counted.prepend (hs : Counted s) {id : IdWithIndex Id} {value : List E}
    (h : s.prepend id value = some s') : Counted s' := by
  unfold VecCoalescedLinearData.prepend at h
  split at h
  · cases h
  obtain ⟨base, hb, rfl⟩ := Option.map_eq_some_iff.1 h
  obtain ⟨p, node, hp, hlt, -, hop, -, rfl⟩ := VecLinearData.prepend_eq_some hb
  exact hs.insertAt hp hlt hop

variable [DecidableEq Id]

theorem Inv.counted (hs : Inv s) : Counted s := ⟨hs.base, hs.len⟩

theorem Counted.splitNode (hs : Counted s) {i k j : ℕ} {m : SplitMode}
    (h : s.splitNode i k m = some (s', j)) : Counted s' := by
  obtain ⟨target, pieces, hi, hsplit, ⟨mk, v, hmk, hop⟩, hlen, -, -, hslen, hbase, hnodes, -⟩ :=
    splitNode_eq_some h
  refine hs.replaceAt hi ?_ ?_ hnodes ?_ (by rw [hslen, hsplit.visible])
  · rcases hmk with rfl | rfl <;> simp [hop, Operation.isBeginning]
  · rcases hmk with rfl | rfl <;> simp [hop, Operation.isEnd]
  · rw [hbase, hsplit.inserts]
    rcases hmk with rfl | rfl
    · simp only [hop, Node.isDeleted, Operation.isInsert, Bool.false_eq_true, ↓reduceIte]
      omega
    · simp [hop, Node.isDeleted, Operation.isInsert]

theorem Counted.splitNode_index (hs : Counted s) {i k j : ℕ} {m : SplitMode}
    (h : s.splitNode i k m = some (s', j)) : 0 < j ∧ j < s'.base.nodes.length := by
  obtain ⟨target, pieces, hi, -, ⟨mk, v, hmk, hop⟩, hlen, -, -, -, -, hnodes, hj, -⟩ :=
    splitNode_eq_some h
  have hpos := hs.base.pos_of_not_beginning hi
    (by rcases hmk with rfl | rfl <;> simp [hop, Operation.isBeginning])
  have hlt := (List.getElem?_eq_some_iff.1 hi).1
  have hlen' : s'.base.nodes.length = s.base.nodes.length - 1 + pieces.length := by
    rw [hnodes]
    simp only [List.length_append, List.length_take, List.length_drop]
    omega
  omega

theorem Counted.delete (hs : Counted s) {id : IdWithIndex Id} {e : E}
    (h : s.delete id = some (some (e, s'))) : Counted s' := by
  obtain ⟨s₁, j, h₁, h₂⟩ := delete_eq_some h
  have hs₁ : Counted s₁ := by
    rcases h₁ with rfl | ⟨i, hsplit⟩
    · exact hs
    · exact hs.splitNode hsplit
  rcases h₂ with rfl | ⟨n, v, hn, hop, hv, hlen, hbase, rfl⟩
  · exact hs₁
  · exact hs₁.tombstone hn hop (by omega) hbase

theorem Counted.applyDeleteMode (hs : Counted s) {start «end» : IdWithIndex Id} {mode : DeleteMode}
    (h : applyDeleteMode start «end» s mode = some s') : Counted s' := by
  cases mode with
  | skip =>
    cases h
    exact hs
  | suffix i =>
    obtain ⟨⟨s₁, j⟩, h₁, h₂⟩ := Option.bind_eq_some_iff.1 h
    exact (hs.splitNode h₁).deleteNodeAt h₂
  | subrange i =>
    obtain ⟨⟨s₁, j⟩, h₁, h₂⟩ := Option.bind_eq_some_iff.1 h
    obtain ⟨⟨s₂, k⟩, h₂, h₃⟩ := Option.bind_eq_some_iff.1 h₂
    exact ((hs.splitNode h₁).splitNode h₂).deleteNodeAt h₃
  | full i => exact hs.deleteNodeAt h
  | prefixPart i =>
    obtain ⟨⟨s₁, j⟩, h₁, h₂⟩ := Option.bind_eq_some_iff.1 h
    exact (hs.splitNode h₁).deleteNodeAt h₂

theorem Counted.deleteRange (hs : Counted s) {start «end» : IdWithIndex Id}
    (h : s.deleteRange start «end» = some (.ok s')) : Counted s' := by
  unfold VecCoalescedLinearData.deleteRange at h
  split_ifs at h
  · obtain ⟨r, hr, h⟩ := Option.map_eq_some_iff.1 h
    rcases r with _ | ⟨e, s₂⟩
    · cases h
    · cases h
      exact hs.delete hr
  · cases h
  · split at h
    · cases h
    dsimp only at h
    split at h
    · cases h
    obtain ⟨s₂, hfold, h⟩ := Option.map_eq_some_iff.1 h
    cases h
    exact Checked.foldlM_induction Counted (fun _ _ _ hb hf => hb.applyDeleteMode hf) _ hfold hs
  · cases h

end Counts

section Apply

variable [LinearOrder Id] {s s' : VecCoalescedLinearData Id E}

theorem Counted.applyOperation (hs : Counted s) {op : DataOperation (IdWithIndex Id) (List E)}
    (h : s.applyOperation op = some (.ok s')) : Counted s' := by
  rcases applyOperation_eq_ok h with
    ⟨id, pred, succ, value, rfl, ⟨i, s₁, j, hsplit, hins⟩ | ⟨p, hp, hlt, hins⟩⟩ |
      ⟨start, «end», rfl, hdel⟩ | ⟨start, e, rfl, hdel⟩
  · obtain ⟨hj, hjlt⟩ := hs.splitNode_index hsplit
    exact (hs.splitNode hsplit).insertNodeAt hins hj hjlt rfl
  · exact hs.insertNodeAt hins hp hlt rfl
  · exact hs.deleteRange hdel
  · exact hs.delete hdel

/-- One call of a mutator that returns normally, with whatever ids it is given. -/
inductive AnyIdStep : VecCoalescedLinearData Id E → VecCoalescedLinearData Id E → Prop
  | append {s s' : VecCoalescedLinearData Id E} {id : IdWithIndex Id} {value : List E} :
    s.append id value = some s' → AnyIdStep s s'
  | prepend {s s' : VecCoalescedLinearData Id E} {id : IdWithIndex Id} {value : List E} :
    s.prepend id value = some s' → AnyIdStep s s'
  | delete {s s' : VecCoalescedLinearData Id E} {id : IdWithIndex Id} {e : E} :
    s.delete id = some (some (e, s')) → AnyIdStep s s'
  | deleteRange {s s' : VecCoalescedLinearData Id E} {start «end» : IdWithIndex Id} :
    s.deleteRange start «end» = some (.ok s') → AnyIdStep s s'
  | applyOperation {s s' : VecCoalescedLinearData Id E}
    {op : DataOperation (IdWithIndex Id) (List E)} :
    s.applyOperation op = some (.ok s') → AnyIdStep s s'

/-- The states reached from a constructor by any run of mutator calls, whatever ids the
calls are given. -/
inductive AnyIdReachable : VecCoalescedLinearData Id E → Prop
  | new (initialId : Id) : AnyIdReachable (VecCoalescedLinearData.new initialId)
  | withValue {s : VecCoalescedLinearData Id E} {initialId : Id} {initialValue : List E} :
    VecCoalescedLinearData.withValue initialId initialValue = some s → AnyIdReachable s
  | step {s s' : VecCoalescedLinearData Id E} : AnyIdReachable s → AnyIdStep s s' →
    AnyIdReachable s'

theorem Step.anyId (h : Step s s') : AnyIdStep s s' := by
  cases h with
  | append _ h => exact .append h
  | prepend _ h => exact .prepend h
  | delete h => exact .delete h
  | deleteRange h => exact .deleteRange h
  | applyOperation _ h => exact .applyOperation h

theorem Reachable.anyId (h : Reachable s) : AnyIdReachable s := by
  induction h with
  | new initialId => exact .new initialId
  | withValue h => exact .withValue h
  | step _ hstep ih => exact .step ih hstep.anyId

theorem Counted.anyIdStep (hs : Counted s) (h : AnyIdStep s s') : Counted s' := by
  cases h with
  | append h => exact hs.append h
  | prepend h => exact hs.prepend h
  | delete h => exact hs.delete h
  | deleteRange h => exact hs.deleteRange h
  | applyOperation h => exact hs.applyOperation h

theorem AnyIdReachable.counted (h : AnyIdReachable s) : Counted s := by
  induction h with
  | new initialId => exact (inv_new initialId).counted
  | withValue h => exact (inv_withValue h).counted
  | step _ hstep ih => exact ih.anyIdStep hstep

theorem Framed.applyOperation (hs : Counted s) (h : Framed s.base.nodes)
    {op : DataOperation (IdWithIndex Id) (List E)} (happ : s.applyOperation op = some (.ok s')) :
    Framed s'.base.nodes := by
  rcases applyOperation_eq_ok happ with
    ⟨_, _, _, _, -, ⟨i, s₁, j, hsplit, hins⟩ | ⟨p, hp, hlt, hins⟩⟩ | ⟨_, _, -, hdel⟩ | ⟨_, _, -, hdel⟩
  · obtain ⟨hj, hjlt⟩ := hs.splitNode_index hsplit
    exact Framed.insertNodeAt (Framed.splitNode h hsplit) hins hj hjlt (.insert _ _ _ _)
  · exact Framed.insertNodeAt h hins hp hlt (.insert _ _ _ _)
  · exact Framed.deleteRange h hdel
  · exact Framed.delete h hdel

theorem Framed.anyIdStep (hs : Counted s) (hf : Framed s.base.nodes) (h : AnyIdStep s s') :
    Framed s'.base.nodes := by
  cases h with
  | append h => exact Framed.append hf h
  | prepend h => exact Framed.prepend hf h
  | delete h => exact Framed.delete hf h
  | deleteRange h => exact Framed.deleteRange hf h
  | applyOperation h => exact Framed.applyOperation hs hf h

theorem AnyIdReachable.framed (h : AnyIdReachable s) : Framed s.base.nodes := by
  induction h with
  | new initialId => exact framed_new initialId
  | withValue h => exact framed_withValue h
  | step hreach hstep ih => exact Framed.anyIdStep hreach.counted ih hstep

/-- The stream of a state any run reaches reads back to that state, both counts
included. -/
theorem AnyIdReachable.fromSnapshotNodes_encodeSnapshot {Err : Type} (h : AnyIdReachable s) :
    ∃ ns, s.encodeSnapshot SnapshotSink.collect [] id = some (.ok ns) ∧
      (fromSnapshotNodes (ns.map .ok) : Except (SnapshotReadError Err) _) = .ok s := by
  have hs := h.counted
  obtain ⟨ns, henc, hdec⟩ :=
    VecLinearData.fromSnapshotNodes_encodeSnapshot (E := Err) h.framed hs.base.len
  refine ⟨ns, henc, ?_⟩
  rw [fromSnapshotNodes, hdec, Checked.ok_bind, fromBaseSnapshot, sum_length_iterValues, ← hs.len]
  rfl

end Apply

end VecCoalescedLinearData

end Flotsync.LinearData
