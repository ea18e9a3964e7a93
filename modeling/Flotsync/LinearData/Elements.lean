import Flotsync.LinearData.Integrity
import Flotsync.LinearData.Positions

/-!
The visible elements of a `VecCoalescedLinearData`: what iterating yields is the
concatenation of what each node shows (an insert its run, a tombstone or a boundary
nothing), and a position counts the elements shown before it. The queries from a
position to ids (`node_at_position`, `ids_at_pos`) are characterised here over that
sequence, for states whose nodes hold pairwise disjoint ids that fit in a `u32`.
-/

set_option autoImplicit false

namespace Flotsync.LinearData

namespace Node

variable {Id E : Type}

/-- The elements a node shows to an iterator. -/
def shown (n : VecCoalescedLinearData.Node' Id E) : List E :=
  match n.operation with
  | .insert value => value
  | _ => []

theorem shown_of_insert {n : VecCoalescedLinearData.Node' Id E} {value : List E}
    (h : n.operation = .insert value) : n.shown = value := by
  simp [shown, h]

theorem shown_of_not_insert {n : VecCoalescedLinearData.Node' Id E}
    (h : n.operation.isInsert = false) : n.shown = [] := by
  unfold shown
  split
  · simp_all [Operation.isInsert]
  · rfl

theorem length_shown (n : VecCoalescedLinearData.Node' Id E) : n.shown.length = n.visible := by
  cases h : n.operation <;> simp [shown, visible, h]

variable [DecidableEq Id]

theorem contains_id (n : VecCoalescedLinearData.Node' Id E) : n.contains n.id = true := by
  simp [contains_iff, lastIndex_eq]

theorem contains_lastId (n : VecCoalescedLinearData.Node' Id E) : n.contains n.lastId = true := by
  rw [contains_iff, lastIndex_eq]
  simp [lastId, lastIndex_eq]

/-- The ids a run holds are its own id moved on by less than its length. -/
theorem contains_run {n : VecCoalescedLinearData.Node' Id E} {x : IdWithIndex Id}
    (h : n.contains x = true) :
    ∃ k < max n.nodeLen 1, x = ⟨n.id.id, n.id.index + k⟩ := by
  rw [contains_iff, lastIndex_eq] at h
  obtain ⟨h₁, h₂, h₃⟩ := h
  refine ⟨x.index - n.id.index, by omega, ?_⟩
  obtain ⟨b, i⟩ := x
  simp only at h₁ h₂ ⊢
  rw [h₁]
  congr
  omega

theorem contains_offset {n : VecCoalescedLinearData.Node' Id E} {o : ℕ} (h : o < n.nodeLen) :
    n.contains ⟨n.id.id, n.id.index + o⟩ = true := by
  rw [contains_iff, lastIndex_eq]
  simp only [true_and]
  omega

end Node

namespace VecCoalescedLinearData

variable {Id E : Type}

open Node

/-- No insert node holds an empty run: the iterator asserts this of every node. -/
def Shows (nodes : List (Node' Id E)) : Prop := ∀ n ∈ nodes, n.getCurrentValue ≠ some []

theorem collectValues_eq_some_iff {nodes : List (Node' Id E)} {xs : List E} :
    collectValues nodes = some xs ↔ Shows nodes ∧ xs = nodes.flatMap shown := by
  induction nodes generalizing xs with
  | nil => simp [collectValues, Shows, eq_comm]
  | cons n rest ih =>
    simp only [Shows, List.mem_cons, forall_eq_or_imp, List.flatMap_cons] at ih ⊢
    unfold collectValues
    cases hn : n.getCurrentValue with
    | none =>
      have hs : n.shown = [] := by
        unfold getCurrentValue at hn
        unfold shown
        split at hn <;> simp_all
      simp [ih, hs]
    | some value =>
      have hs : n.shown = value := by
        unfold getCurrentValue at hn
        unfold shown
        split at hn <;> simp_all
      cases value with
      | nil => simp
      | cons e value =>
        simp only [Option.map_eq_some_iff, ih, ne_eq, Option.some.injEq, reduceCtorEq,
          not_false_eq_true, true_and, hs]
        constructor
        · rintro ⟨ys, ⟨hshows, rfl⟩, rfl⟩
          exact ⟨hshows, rfl⟩
        · rintro ⟨hshows, rfl⟩
          exact ⟨_, ⟨hshows, rfl⟩, rfl⟩

/-- A node put in at `j` shows its elements after those of the nodes before `j`. -/
theorem flatMap_shown_insertIdx {nodes : List (Node' Id E)} {j : ℕ} (hj : j ≤ nodes.length)
    (n : Node' Id E) :
    (nodes.insertIdx j n).flatMap shown =
      (nodes.take j).flatMap shown ++ n.shown ++ (nodes.drop j).flatMap shown := by
  rw [Checked.insertIdx_eq_take_drop hj]
  simp

theorem Shows.insertIdx {nodes : List (Node' Id E)} (h : Shows nodes) {j : ℕ} (hj : j ≤ nodes.length)
    {n : Node' Id E} (hn : n.getCurrentValue ≠ some []) : Shows (nodes.insertIdx j n) := by
  intro m hm
  rcases (List.mem_insertIdx hj).1 hm with rfl | hm
  · exact hn
  · exact h m hm

theorem visible_sum_eq_length (nodes : List (Node' Id E)) :
    (nodes.map visible).sum = (nodes.flatMap shown).length := by
  induction nodes with
  | nil => rfl
  | cons n rest ih =>
    simp only [List.map_cons, List.sum_cons, List.flatMap_cons, List.length_append, ih,
      length_shown]

section Held

variable [DecidableEq Id]

/-- Every id that a node holds has the property `P`. -/
def HeldIds (P : IdWithIndex Id → Prop) (s : VecCoalescedLinearData Id E) : Prop :=
  ∀ n ∈ s.base.nodes, ∀ x, n.contains x = true → P x

variable {P : IdWithIndex Id → Prop} {s s' : VecCoalescedLinearData Id E}

theorem HeldIds.mono {Q : IdWithIndex Id → Prop} (h : HeldIds P s) (hPQ : ∀ x, P x → Q x) :
    HeldIds Q s :=
  fun n hn x hx => hPQ x (h n hn x hx)

theorem HeldIds.splitNode (h : HeldIds P s) {i k j : ℕ} {m : SplitMode}
    (hsplit : s.splitNode i k m = some (s', j)) : HeldIds P s' := by
  intro n' hn' x hx
  obtain ⟨n, hn, hnx⟩ := splitNode_contains hsplit n' hn' x hx
  exact h n hn x hnx

/-- A tombstone holds the ids of the insert it replaces. -/
theorem HeldIds.set_delete (h : HeldIds P s) {i : ℕ} {n : Node' Id E} {v : List E}
    (hi : s.base.nodes[i]? = some n) (hop : n.operation = .insert v) {len baseLen : ℕ} :
    HeldIds P ⟨len, ⟨baseLen, s.base.nodes.set i { n with operation := .delete v }⟩⟩ := by
  intro n' hn' x hx
  rcases List.mem_or_eq_of_mem_set hn' with hn' | rfl
  · exact h n' hn' x hx
  · refine h n (List.mem_of_getElem? hi) x ?_
    rw [contains_iff, lastIndex_eq] at hx ⊢
    simpa [nodeLen, hop] using hx

theorem HeldIds.deleteNodeAt (h : HeldIds P s) {i : ℕ} (hdel : s.deleteNodeAt i = some s') :
    HeldIds P s' := by
  obtain ⟨n, v, hi, hop, -, -, rfl⟩ := deleteNodeAt_eq_some hdel
  exact h.set_delete hi hop

theorem HeldIds.insertNodeAt (h : HeldIds P s) {p : ℕ} {node : Node' Id E} {value : List E}
    (hins : s.insertNodeAt p node value = some s')
    (hnode : ∀ k < max node.nodeLen 1, P ⟨node.id.id, node.id.index + k⟩) : HeldIds P s' := by
  obtain ⟨hp, rfl⟩ := insertNodeAt_eq_some hins
  intro n hn x hx
  rcases (List.mem_insertIdx hp).1 hn with rfl | hn
  · obtain ⟨k, hk, rfl⟩ := contains_run hx
    exact hnode k hk
  · exact h n hn x hx

theorem HeldIds.delete (h : HeldIds P s) {id : IdWithIndex Id} {e : E}
    (hdel : s.delete id = some (some (e, s'))) : HeldIds P s' := by
  obtain ⟨s₁, j, hs₁, hs'⟩ := delete_eq_some hdel
  have h₁ : HeldIds P s₁ := by
    rcases hs₁ with rfl | ⟨i, hsplit⟩
    · exact h
    · exact h.splitNode hsplit
  rcases hs' with rfl | ⟨n, v, hj, hop, -, -, -, rfl⟩
  · exact h₁
  · exact h₁.set_delete hj hop

/-- What the queries and the edits rest on: the integrity invariant, and every id a
node holds fits in a `u32`, the source's index type. -/
structure Sound (s : VecCoalescedLinearData Id E) : Prop where
  inv : Inv s
  addressable : HeldIds (·.index ≤ maxIndex) s

theorem Inv.len_eq_length (hs : Inv s) : s.len = (s.base.nodes.flatMap shown).length := by
  rw [hs.len, visible_sum_eq_length]

/-- In nodes holding disjoint ids, the search for an id finds the one node that holds it. -/
theorem findFrom_contains {nodes : List (Node' Id E)} (hd : nodes.Pairwise Node.Disjoint)
    {k : ℕ} {n : Node' Id E} (hk : nodes[k]? = some n) {x : IdWithIndex Id}
    (hx : n.contains x = true) {j : ℕ} (hj : j ≤ k) :
    Search.findFrom (·.contains x) nodes j = some (k, n) := by
  refine Search.findFrom_eq_some_of_first hj hk hx fun i b _ hik hb => ?_
  cases hbx : b.contains x
  · rfl
  · obtain ⟨hi, rfl⟩ := List.getElem?_eq_some_iff.1 hb
    obtain ⟨hkl, rfl⟩ := List.getElem?_eq_some_iff.1 hk
    have hdisj := List.pairwise_iff_getElem.1 hd i k hi hkl hik
    rw [hdisj x hbx] at hx
    cases hx

end Held

section Positions

/-- The insert node that a position falls in, found by walking the inserts from `start`:
its index and the position where it starts. -/
theorem nodeAtPositionFrom_eq (nodes : List (Node' Id E)) (hshows : Shows nodes) (b start : ℕ)
    {p : ℕ} (hle : start ≤ p) (hlt : p < start + (nodes.flatMap shown).length) :
    ∃ k node value, nodes[k]? = some node ∧ node.operation = .insert value ∧
      start + ((nodes.take k).flatMap shown).length ≤ p ∧
      p < start + ((nodes.take k).flatMap shown).length + value.length ∧
      nodeAtPositionFrom p start (((nodes.zipIdx b).filter fun q => q.1.operation.isInsert).map
        fun q => (q.2, q.1)) = some (some ⟨b + k, start + ((nodes.take k).flatMap shown).length⟩) := by
  induction nodes generalizing b start with
  | nil => simp at hlt; omega
  | cons n rest ih =>
    have hrest : Shows rest := fun m hm => hshows m (List.mem_cons_of_mem _ hm)
    by_cases hins : n.operation.isInsert = true
    · obtain ⟨value, hop⟩ : ∃ value, n.operation = .insert value := by
        cases hop : n.operation <;> simp_all [Operation.isInsert]
      have hne : value ≠ [] := by simpa [getCurrentValue, hop] using hshows n List.mem_cons_self
      have hlen : n.nodeLen = value.length := by simp [nodeLen, hop]
      by_cases hin : p < start + value.length
      · -- the position falls in this node
        refine ⟨0, n, value, rfl, hop, by simpa using hle, by simpa using hin, ?_⟩
        simp [List.zipIdx_cons, hins, nodeAtPositionFrom, hlen, hin]
      · -- past this node, which is not empty, so the walk goes on
        have hpos : 0 < value.length := List.length_pos_of_ne_nil hne
        rw [List.flatMap_cons, shown_of_insert hop, List.length_append] at hlt
        obtain ⟨k, node, v, hk, hv, h₁, h₂, hfrom⟩ :=
          ih hrest (b + 1) (start + value.length) (by omega) (by omega)
        refine ⟨k + 1, node, v, by simpa using hk, hv, ?_, ?_, ?_⟩
        · simp only [List.take_succ_cons, List.flatMap_cons, shown_of_insert hop,
            List.length_append]
          omega
        · simp only [List.take_succ_cons, List.flatMap_cons, shown_of_insert hop,
            List.length_append]
          omega
        · have hstart : start < p := by omega
          simp only [List.zipIdx_cons, List.filter_cons, hins, if_true, List.map_cons,
            nodeAtPositionFrom, hlen, hin, if_false, hstart, not_true_eq_false, hfrom,
            List.take_succ_cons, List.flatMap_cons, shown_of_insert hop, List.length_append]
          congr 3 <;> omega
    · -- a tombstone or a boundary: no position falls in it
      have hshown := shown_of_not_insert (by simpa using hins)
      rw [List.flatMap_cons, hshown, List.nil_append] at hlt
      obtain ⟨k, node, v, hk, hv, h₁, h₂, hfrom⟩ := ih hrest (b + 1) start hle hlt
      refine ⟨k + 1, node, v, by simpa using hk, hv, ?_, ?_, ?_⟩
      · simpa [hshown] using h₁
      · simpa [hshown] using h₂
      · simp only [List.zipIdx_cons, List.filter_cons, hins, Bool.false_eq_true, if_false, hfrom,
          List.take_succ_cons, List.flatMap_cons, hshown, List.nil_append]
        congr 3
        omega

variable [DecidableEq Id] {s : VecCoalescedLinearData Id E}

/-- The predecessor of the element `o` into an insert node: the element before it in the
run, or the last id of the node before the run. -/
theorem Inv.predecessorId_eq (hs : Inv s) {k : ℕ} {node : Node' Id E} {value : List E}
    (hk : s.base.nodes[k]? = some node) (hop : node.operation = .insert value) (o : ℕ) :
    ∃ predecessor, s.predecessorId ⟨node.id.id, node.id.index + o⟩ k = some predecessor ∧
      (0 < o → predecessor = ⟨node.id.id, node.id.index + o - 1⟩) ∧
      (o = 0 → ∃ left, s.base.nodes[k - 1]? = some left ∧ predecessor = left.lastId ∧ 0 < k) := by
  rcases Nat.eq_zero_or_pos o with rfl | ho
  · have hk0 : 0 < k := hs.base.pos_of_not_beginning hk (by simp [hop, Operation.isBeginning])
    have hlt := (List.getElem?_eq_some_iff.1 hk).1
    obtain ⟨left, hleft⟩ : ∃ left, s.base.nodes[k - 1]? = some left :=
      ⟨_, List.getElem?_eq_getElem (by omega)⟩
    refine ⟨left.lastId, ?_, by omega, fun _ => ⟨left, hleft, rfl, hk0⟩⟩
    simp [predecessorId, hk, IdWithIndex.indexDiff, Checked.sub_of_le hk0, hleft]
  · refine ⟨⟨node.id.id, node.id.index + o - 1⟩, ?_, fun _ => rfl, by omega⟩
    simp [predecessorId, hk, IdWithIndex.indexDiff, ho, IdWithIndex.decrement]

theorem Inv.successorId_isSome (hs : Inv s) {k : ℕ} {node : Node' Id E} {value : List E}
    (hk : s.base.nodes[k]? = some node) (hop : node.operation = .insert value) (o : ℕ) :
    (s.successorId ⟨node.id.id, node.id.index + o⟩ k).isSome := by
  have hnext := hs.base.lt_of_not_end hk (by simp [hop, Operation.isEnd])
  simp only [successorId, hk, IdWithIndex.indexDiff, le_add_iff_nonneg_right, zero_le, and_self,
    if_true, add_tsub_cancel_left]
  split
  · rfl
  · simp [List.getElem?_eq_getElem hnext]

/-- A position before the end falls `o` elements into an insert node `k`, and `ids_at_pos`
gives the id there with its predecessor. -/
theorem Sound.idsAtPos_of_lt (hs : Sound s) (hshows : Shows s.base.nodes) {p : ℕ}
    (hp : p < (s.base.nodes.flatMap shown).length) :
    ∃ k node value o, s.base.nodes[k]? = some node ∧ node.operation = .insert value ∧
      o < value.length ∧ p = ((s.base.nodes.take k).flatMap shown).length + o ∧
      ∃ predecessor successor, s.idsAtPos p =
        some (some ⟨predecessor, ⟨node.id.id, node.id.index + o⟩, successor⟩) ∧
        s.predecessorId ⟨node.id.id, node.id.index + o⟩ k = some predecessor := by
  obtain ⟨k, node, value, hk, hop, h₁, h₂, hat⟩ :=
    nodeAtPositionFrom_eq s.base.nodes hshows 0 0 (Nat.zero_le p) (by simpa using hp)
  simp only [zero_add] at h₁ h₂ hat
  set o := p - ((s.base.nodes.take k).flatMap shown).length with ho
  have hnode : s.nodeAtPosition p = some (some ⟨k, p - o⟩) := by
    rw [show p - o = ((s.base.nodes.take k).flatMap shown).length by omega]
    exact hat
  have hlen : o < node.nodeLen := by simp [nodeLen, hop]; omega
  have haddr : node.id.index + o ≤ maxIndex :=
    hs.addressable node (List.mem_of_getElem? hk) _ (contains_offset hlen)
  obtain ⟨predecessor, hpred, -⟩ := hs.inv.predecessorId_eq hk hop o
  obtain ⟨successor, hsucc⟩ := Option.isSome_iff_exists.1 (hs.inv.successorId_isSome hk hop o)
  refine ⟨k, node, value, o, hk, hop, by omega, by omega, predecessor, successor, ?_, hpred⟩
  have hpos : p < s.len := by rw [hs.inv.len_eq_length]; exact hp
  simp only [idsAtPos, hpos, not_true_eq_false, if_false, hnode, hk, Nat.sub_sub_self (by omega : o ≤ p),
    IdWithIndex.addOffset, haddr, if_true]
  simp [hpred, hsucc]

theorem Inv.idsAtPos_of_le (hs : Inv s) {p : ℕ} (hp : (s.base.nodes.flatMap shown).length ≤ p) :
    s.idsAtPos p = some none := by
  have hpos : ¬ p < s.len := by rw [hs.len_eq_length]; omega
  simp [idsAtPos, hpos]

end Positions

end VecCoalescedLinearData

end Flotsync.LinearData
