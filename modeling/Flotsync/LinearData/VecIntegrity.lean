import Flotsync.LinearData.Vec

/-!
The invariant `VecLinearData::validate_integrity` checks, over every run of the
mutators: the boundaries stay at both ends and `len` counts the insert nodes.
Every mutator puts its node strictly between the two boundaries; for an insert
between anchors with nodes between them, that is where `conflictPosition` places it.
-/

set_option autoImplicit false

namespace Flotsync.LinearData

namespace RightTreeTraversalMemo

variable {Id V : Type*} [DecidableEq Id]

theorem firstReaching_bounds {nodes : List (Node Id V)} {boundary : Id} {lo count p : ℕ}
    (h : firstReaching nodes boundary lo count = some (some p)) : lo ≤ p ∧ p < lo + count := by
  induction count generalizing lo with
  | zero => simp [firstReaching] at h
  | succ count ih =>
    cases hr : reachesBoundary nodes boundary lo with
    | none => simp [firstReaching, hr] at h
    | some reached =>
      cases reached with
      | true =>
        simp [firstReaching, hr] at h
        omega
      | false =>
        simp [firstReaching, hr] at h
        have := ih h
        omega

/-- The subtree start found below `limit` falls back to `limit`, so it stays
between the lower end and `limit`. -/
theorem firstReaching_getD_bounds {nodes : List (Node Id V)} {boundary : Id} {lo limit : ℕ}
    {r : Option ℕ} (h : firstReaching nodes boundary lo (limit - lo) = some r) (hlo : lo ≤ limit) :
    lo ≤ r.getD limit ∧ r.getD limit ≤ limit := by
  cases r with
  | none => simpa using hlo
  | some p =>
    have := firstReaching_bounds h
    simp only [Option.getD_some]
    omega

end RightTreeTraversalMemo

open RightTreeTraversalMemo in
/-- `conflictPosition` puts an insert after its predecessor and at the latest at its
successor. -/
theorem conflictPosition_bounds {Id V K : Type*} [DecidableEq Id] [LinearOrder K]
    {key : Node Id V → K} {nodes : List (Node Id V)} {idKey : K} {pred succ : Id}
    {predIndex succIndex p : ℕ}
    (h : conflictPosition key nodes idKey pred succ predIndex succIndex = some (.ok p))
    (hlt : predIndex < succIndex) : predIndex < p ∧ p ≤ succIndex := by
  unfold conflictPosition at h
  set conflicting := (List.range' (predIndex + 1) (succIndex - (predIndex + 1))).filterMap
    fun i => (nodes[i]?).bind fun n =>
      if n.leftOrigin = some pred ∧ n.rightOrigin = some succ then some (key n, i) else none
    with hc
  -- every conflicting node stands strictly between the anchors
  have hmem : ∀ q ∈ conflicting, predIndex < q.2 ∧ q.2 < succIndex := by
    intro q hq
    rw [hc, List.mem_filterMap] at hq
    obtain ⟨i, hi, hq⟩ := hq
    rw [List.mem_range'_1] at hi
    cases hn : nodes[i]? with
    | none => simp [hn] at hq
    | some n =>
      simp only [hn, Option.bind_some] at hq
      split at hq
      · cases hq
        omega
      · cases hq
  cases hr : firstReaching nodes succ (predIndex + 1) (succIndex - (predIndex + 1)) with
  | none => simp [hr] at h
  | some r =>
    have hr' := firstReaching_getD_bounds hr hlt
    simp only [hr, Option.bind_eq_bind, Option.bind_some] at h
    split at h
    · -- no conflicting node: before the subtree of the successor
      obtain rfl : r.getD succIndex = p := by simpa using h
      omega
    split at h
    · simp at h
    split at h
    · simp at h
    rename_i insertIndex _
    split at h
    · obtain rfl : predIndex + 1 = p := by simpa using h
      omega
    split at h
    · -- before the subtree of the first conflicting node with a larger key
      rename_i hlen
      have hq := hmem _ (List.getElem_mem hlen)
      split at h
      · rename_i targetNode _
        obtain ⟨start, hstart, hp⟩ := Option.bind_eq_some_iff.1 h
        have hb := firstReaching_getD_bounds hstart (by omega)
        obtain rfl : start.getD conflicting[insertIndex].snd = p := by simpa using hp
        omega
      · simp at h
    · obtain rfl : succIndex = p := by simpa using h
      omega

namespace VecLinearData

variable {Id V : Type*}

/-- What `validate_integrity` checks of a `VecLinearData`. -/
structure Inv (s : VecLinearData Id V) : Prop where
  first : ∃ n, s.nodes.head? = some n ∧ n.operation.isBeginning = true
  last : ∃ n, s.nodes.getLast? = some n ∧ n.operation.isEnd = true
  len : s.len = s.nodes.countP (·.operation.isInsert)

theorem Inv.validateIntegrity_eq_ok {s : VecLinearData Id V} (hs : Inv s) :
    s.validateIntegrity = .ok () := by
  obtain ⟨b, hb, hbb⟩ := hs.first
  obtain ⟨e, he, hee⟩ := hs.last
  simp [validateIntegrity, hb, hbb, he, hee, hs.len]
  rfl

/-- Replacing a stretch `mid` strictly inside the nodes by `mid'` keeps the
invariant when `len` follows the change of insert nodes. -/
theorem Inv.replace {s s' : VecLinearData Id V} (hs : Inv s) {pre mid mid' post : List (Node Id V)}
    (hn : s.nodes = pre ++ mid ++ post) (hn' : s'.nodes = pre ++ mid' ++ post) (hpre : pre ≠ [])
    (hpost : post ≠ [])
    (hcount : s'.len + mid.countP (·.operation.isInsert) = s.len + mid'.countP (·.operation.isInsert)) :
    Inv s' := by
  refine ⟨?_, ?_, ?_⟩
  · obtain ⟨b, hb, hbb⟩ := hs.first
    refine ⟨b, ?_, hbb⟩
    rw [hn, List.append_assoc, List.head?_append_of_ne_nil _ hpre] at hb
    rw [hn', List.append_assoc, List.head?_append_of_ne_nil _ hpre]
    exact hb
  · obtain ⟨e, he, hee⟩ := hs.last
    refine ⟨e, ?_, hee⟩
    rw [hn, List.getLast?_append_of_ne_nil _ hpost] at he
    rw [hn', List.getLast?_append_of_ne_nil _ hpost]
    exact he
  · have h₁ := hs.len
    rw [hn] at h₁
    rw [hn']
    simp only [List.countP_append] at h₁ ⊢
    omega

/-- A node that is not the beginning one stands after the first node. -/
theorem Inv.pos_of_not_beginning {s : VecLinearData Id V} (hs : Inv s) {i : ℕ} {n : Node Id V}
    (hi : s.nodes[i]? = some n) (hn : n.operation.isBeginning = false) : 0 < i := by
  obtain ⟨b, hb, hbb⟩ := hs.first
  rcases Nat.eq_zero_or_pos i with rfl | hpos
  · rw [List.head?_eq_getElem?, hi] at hb
    cases hb
    simp [hbb] at hn
  · exact hpos

/-- A node that is not the end one stands before the last node. -/
theorem Inv.lt_of_not_end {s : VecLinearData Id V} (hs : Inv s) {i : ℕ} {n : Node Id V}
    (hi : s.nodes[i]? = some n) (hn : n.operation.isEnd = false) : i + 1 < s.nodes.length := by
  obtain ⟨e, he, hee⟩ := hs.last
  have hlt := (List.getElem?_eq_some_iff.1 hi).1
  by_contra hge
  have hlast : i = s.nodes.length - 1 := by omega
  rw [List.getLast?_eq_getElem?, ← hlast, hi] at he
  cases he
  simp [hee] at hn

/-- The nodes around one that is no boundary: some stand on either side. -/
theorem Inv.around_ne_nil {s : VecLinearData Id V} (hs : Inv s) {i : ℕ} {n : Node Id V}
    (hi : s.nodes[i]? = some n) (hb : n.operation.isBeginning = false)
    (he : n.operation.isEnd = false) : s.nodes.take i ≠ [] ∧ s.nodes.drop (i + 1) ≠ [] := by
  have h₁ := hs.pos_of_not_beginning hi hb
  have h₂ := hs.lt_of_not_end hi he
  constructor
  · rw [Ne, List.take_eq_nil_iff]
    rintro (h | h)
    · omega
    · simp [h] at h₂
  · rw [Ne, List.drop_eq_nil_iff]
    omega

/-- Putting an insert node strictly between the boundaries keeps the invariant. -/
theorem Inv.insertIdx {s : VecLinearData Id V} (hs : Inv s) {p : ℕ} (hp : 0 < p)
    (hlt : p < s.nodes.length) {node : Node Id V} (hnode : node.operation.isInsert = true) :
    Inv ⟨s.len + 1, s.nodes.insertIdx p node⟩ := by
  have htake : s.nodes.take p ≠ [] := by
    rw [Ne, List.take_eq_nil_iff]
    rintro (h | h)
    · omega
    · simp [h] at hlt
  have hdrop : s.nodes.drop p ≠ [] := by
    rw [Ne, List.drop_eq_nil_iff]
    omega
  have hn : s.nodes = s.nodes.take p ++ [] ++ s.nodes.drop p := by simp
  have hn' : s.nodes.insertIdx p node = s.nodes.take p ++ [node] ++ s.nodes.drop p := by
    simp [Checked.insertIdx_eq_take_drop (Nat.le_of_lt hlt)]
  exact hs.replace hn hn' htake hdrop (by simp [hnode])

/-- Turning a node that is no boundary into `node'` keeps the invariant when `len`
follows whether each is an insert. -/
theorem Inv.setAt {s s' : VecLinearData Id V} (hs : Inv s) {i : ℕ} {n n' : Node Id V}
    (hi : s.nodes[i]? = some n) (hb : n.operation.isBeginning = false)
    (he : n.operation.isEnd = false) (hn' : s'.nodes = s.nodes.set i n')
    (hcount : s'.len + (if n.operation.isInsert then 1 else 0) =
      s.len + (if n'.operation.isInsert then 1 else 0)) : Inv s' := by
  obtain ⟨hpre, hpost⟩ := hs.around_ne_nil hi hb he
  have hlt := (List.getElem?_eq_some_iff.1 hi).1
  have hsplit : s.nodes = s.nodes.take i ++ [n] ++ s.nodes.drop (i + 1) := by
    simpa using Checked.eq_take_cons_drop hi
  have hsplit' : s'.nodes = s.nodes.take i ++ [n'] ++ s.nodes.drop (i + 1) := by
    simp [hn', List.set_eq_take_append_cons_drop, hlt]
  exact hs.replace hsplit hsplit' hpre hpost (by simpa [List.countP_singleton] using hcount)

theorem append_eq_some {s s' : VecLinearData Id V} {id : Id} {value : V}
    (h : s.append id value = some s') :
    ∃ p node, 0 < p ∧ p < s.nodes.length ∧ node.id = id ∧ node.operation = .insert value ∧
      node.Inner ∧ s' = ⟨s.len + 1, s.nodes.insertIdx p node⟩ := by
  unfold append at h
  split at h
  · rename_i endIndex hend
    split at h
    · rename_i endNode hendNode
      dsimp only at h
      split at h
      · simp at h
      split at h
      · rename_i lastIndex hlast
        split at h
        · obtain ⟨nodes, hins, hs'⟩ := Option.bind_eq_some_iff.1 h
          obtain ⟨-, rfl⟩ := Checked.insert_eq_some_iff.1 hins
          obtain ⟨h₁, rfl⟩ := Checked.sub_eq_some_iff.1 hend
          obtain ⟨h₂, -⟩ := Checked.sub_eq_some_iff.1 hlast
          exact ⟨_, _, h₂, by omega, rfl, rfl, .insert _ _ _ _, (Option.some.inj hs').symm⟩
        · simp at h
      · simp at h
    · simp at h
  · simp at h

theorem prepend_eq_some {s s' : VecLinearData Id V} {id : Id} {value : V}
    (h : s.prepend id value = some s') :
    ∃ p node, 0 < p ∧ p < s.nodes.length ∧ node.id = id ∧ node.operation = .insert value ∧
      node.Inner ∧ s' = ⟨s.len + 1, s.nodes.insertIdx p node⟩ := by
  unfold prepend at h
  split at h
  · dsimp only at h
    split at h
    · simp at h
    split at h
    · rename_i firstNode hfirst
      obtain ⟨nodes, hins, hs'⟩ := Option.bind_eq_some_iff.1 h
      obtain ⟨-, rfl⟩ := Checked.insert_eq_some_iff.1 hins
      have h₁ := (List.getElem?_eq_some_iff.1 hfirst).1
      exact ⟨1, _, Nat.one_pos, h₁, rfl, rfl, .insert _ _ _ _, (Option.some.inj hs').symm⟩
    · simp at h
  · simp at h

section Delete

variable [DecidableEq Id]

theorem delete_eq_some {s s' : VecLinearData Id V} {id : Id} {value : V}
    (h : s.delete id = some (some (value, s'))) :
    s' = s ∨ ∃ i n, s.nodes[i]? = some n ∧ n.operation = .insert value ∧ 1 ≤ s.len ∧
      s' = ⟨s.len - 1, s.nodes.set i { n with operation := .delete value }⟩ := by
  unfold delete at h
  split at h
  · simp at h
  · rename_i i n hfind
    have hi := (Search.findFrom_spec hfind).2.1
    split at h
    · rename_i v hop
      obtain ⟨nodes, hset, h⟩ := Option.bind_eq_some_iff.1 h
      obtain ⟨-, rfl⟩ := Checked.set_eq_some_iff.1 hset
      split at h
      · rename_i len hlen
        obtain ⟨h₁, rfl⟩ := Checked.sub_eq_some_iff.1 hlen
        simp only [pure, Option.some.injEq, Prod.mk.injEq] at h
        obtain ⟨rfl, rfl⟩ := h
        exact .inr ⟨i, n, hi, hop, h₁, rfl⟩
      · simp at h
    · simp only [Option.some.injEq, Prod.mk.injEq] at h
      exact .inl h.2.symm
    · simp at h
    · simp at h

theorem Inv.delete {s s' : VecLinearData Id V} (hs : Inv s) {id : Id} {value : V}
    (h : s.delete id = some (some (value, s'))) : Inv s' := by
  rcases delete_eq_some h with rfl | ⟨i, n, hi, hop, h₁, rfl⟩
  · exact hs
  · refine hs.setAt hi (by simp [hop, Operation.isBeginning]) (by simp [hop, Operation.isEnd]) rfl ?_
    simp [hop, Operation.isInsert]
    omega

end Delete

theorem Inv.append {s s' : VecLinearData Id V} (hs : Inv s) {id : Id} {value : V}
    (h : s.append id value = some s') : Inv s' := by
  obtain ⟨p, node, hp, hlt, -, hop, -, rfl⟩ := append_eq_some h
  exact hs.insertIdx hp hlt (by simp [hop, Operation.isInsert])

theorem Inv.prepend {s s' : VecLinearData Id V} (hs : Inv s) {id : Id} {value : V}
    (h : s.prepend id value = some s') : Inv s' := by
  obtain ⟨p, node, hp, hlt, -, hop, -, rfl⟩ := prepend_eq_some h
  exact hs.insertIdx hp hlt (by simp [hop, Operation.isInsert])

section Apply

variable [LinearOrder Id]

/-- What a successful `apply_operation` does: an insert puts its node strictly
between the boundaries, a delete of one id is `delete`. -/
theorem applyOperation_eq_ok {s s' : VecLinearData Id V} {op : DataOperation Id V}
    (h : s.applyOperation op = some (.ok s')) :
    (∃ id pred succ value p, op = .insert id pred succ value ∧ 0 < p ∧ p < s.nodes.length ∧
      (∃ succIndex succNode, p ≤ succIndex ∧ s.nodes[succIndex]? = some succNode ∧
        succNode.id = succ) ∧
      s' = ⟨s.len + 1, s.nodes.insertIdx p ⟨id, some pred, some succ, .insert value⟩⟩) ∨
    (∃ start value, op = .delete start none ∧ s.delete start = some (some (value, s'))) := by
  cases op with
  | insert id pred succ value =>
    simp only [applyOperation] at h
    split at h
    · simp at h
    rename_i predIndex _ _
    split at h
    · simp at h
    rename_i succIndex succNode hsucc
    obtain ⟨hle, hsuccNode, hsuccId⟩ := Search.findFrom_spec hsucc
    have hlt := (List.getElem?_eq_some_iff.1 hsuccNode).1
    have hsuccId : succNode.id = succ := by simpa using hsuccId
    split_ifs at h with hadj hbefore
    · -- adjacent anchors: right before the successor
      obtain ⟨nodes, hins, hs'⟩ := Option.bind_eq_some_iff.1 h
      obtain ⟨-, rfl⟩ := Checked.insert_eq_some_iff.1 hins
      exact .inl ⟨id, pred, succ, value, succIndex, rfl, by omega, hlt,
        ⟨succIndex, succNode, le_rfl, hsuccNode, hsuccId⟩,
        (Except.ok.inj (Option.some.inj hs')).symm⟩
    · split at h
      · simp at h
      · simp at h
      · rename_i position hpos
        have hb := conflictPosition_bounds hpos hbefore
        obtain ⟨nodes, hins, hs'⟩ := Option.bind_eq_some_iff.1 h
        obtain ⟨-, rfl⟩ := Checked.insert_eq_some_iff.1 hins
        exact .inl ⟨id, pred, succ, value, position, rfl, by omega, by omega,
          ⟨succIndex, succNode, hb.2, hsuccNode, hsuccId⟩, (Except.ok.inj (Option.some.inj hs')).symm⟩
    · simp at h
  | delete start «end» =>
    simp only [applyOperation] at h
    split at h
    · simp at h
    · rename_i hend
      cases hdel : s.delete start with
      | none => simp [hdel] at h
      | some r =>
        rcases r with _ | ⟨value, s''⟩
        · simp [hdel] at h
        · simp only [hdel, Option.map_some, Option.some.injEq, Except.ok.injEq] at h
          subst h
          exact .inr ⟨start, value, by simpa using hend, hdel⟩

theorem Inv.applyOperation {s s' : VecLinearData Id V} (hs : Inv s) {op : DataOperation Id V}
    (h : s.applyOperation op = some (.ok s')) : Inv s' := by
  rcases applyOperation_eq_ok h with ⟨-, -, -, -, p, -, hp, hlt, -, rfl⟩ | ⟨_, _, -, hdel⟩
  · exact hs.insertIdx hp hlt rfl
  · exact hs.delete hdel

/-- One call of a mutator that returns normally. -/
inductive Step : VecLinearData Id V → VecLinearData Id V → Prop
  | append {s s' : VecLinearData Id V} {id : Id} {value : V} :
    s.append id value = some s' → Step s s'
  | prepend {s s' : VecLinearData Id V} {id : Id} {value : V} :
    s.prepend id value = some s' → Step s s'
  | delete {s s' : VecLinearData Id V} {id : Id} {value : V} :
    s.delete id = some (some (value, s')) → Step s s'
  | applyOperation {s s' : VecLinearData Id V} {op : DataOperation Id V} :
    s.applyOperation op = some (.ok s') → Step s s'

/-- The states reached from a constructor by any run of mutator calls. -/
inductive Reachable : VecLinearData Id V → Prop
  | new (beginId endId : Id) : Reachable (VecLinearData.new beginId endId)
  | withValue (initialValue : V) (beginId valueId endId : Id) :
    Reachable (VecLinearData.withValue initialValue beginId valueId endId)
  | step {s s' : VecLinearData Id V} : Reachable s → Step s s' → Reachable s'

theorem Inv.step {s s' : VecLinearData Id V} (hs : Inv s) (h : Step s s') : Inv s' := by
  cases h with
  | append h => exact hs.append h
  | prepend h => exact hs.prepend h
  | delete h => exact hs.delete h
  | applyOperation h => exact hs.applyOperation h

theorem Reachable.inv {s : VecLinearData Id V} (h : Reachable s) : Inv s := by
  induction h with
  | new => exact ⟨⟨_, rfl, rfl⟩, ⟨_, rfl, rfl⟩, rfl⟩
  | withValue => exact ⟨⟨_, rfl, rfl⟩, ⟨_, rfl, rfl⟩, rfl⟩
  | step _ hstep ih => exact ih.step hstep

end Apply

end VecLinearData

end Flotsync.LinearData
