import Mathlib
import Flotsync.LinearData.Split
import Flotsync.LinearData.Positions

/-!
`delete_range` over a range that several nodes hold. The start node is classified
as if it also held the end of the range: a visible start node becomes a prefix or
a subrange to cut at the range's end, which lies beyond it, and `split_node`'s
assertion stops the program. A concurrent insert that splits a run is enough to
make a replica receive such a range.
-/

set_option autoImplicit false

namespace Flotsync.LinearData

namespace VecCoalescedLinearData

variable {Id E : Type} [DecidableEq Id]

omit [DecidableEq Id] in
theorem splitNode_eq_none_of_lastIndex_lt {s : VecCoalescedLinearData Id E} {i k : ℕ}
    {target : Node' Id E} (ht : s.base.nodes[i]? = some target) (hk : target.lastIndex < k)
    (m : SplitMode) : s.splitNode i k m = none := by
  have hnk : ¬ k ≤ target.lastIndex := by omega
  simp [splitNode, ht, hnk]

/-- The node a split returns is one of the pieces: it holds only ids of the node
that was split. -/
theorem splitNode_returns_piece {s s' : VecCoalescedLinearData Id E} {i k j : ℕ} {m : SplitMode}
    (h : s.splitNode i k m = some (s', j)) {target : Node' Id E}
    (ht : s.base.nodes[i]? = some target) :
    ∃ n, s'.base.nodes[j]? = some n ∧ ∀ x, n.contains x = true → target.contains x = true := by
  obtain ⟨t, pieces, ht', hsplit, -, hlen, -, -, -, -, hnodes, hj, -⟩ := splitNode_eq_some h
  obtain rfl : t = target := Option.some.inj (ht'.symm.trans ht)
  have hi : i < s.base.nodes.length := (List.getElem?_eq_some_iff.1 ht).1
  have hoff : j - i < pieces.length := by omega
  refine ⟨pieces[j - i], ?_, fun x hx => (hsplit.holds x).1 ⟨_, List.getElem_mem hoff, hx⟩⟩
  have htake : (s.base.nodes.take i).length = i := by simp; omega
  rw [hnodes, List.append_assoc, List.getElem?_append_right (by omega), htake,
    List.getElem?_append_left hoff, List.getElem?_eq_getElem hoff]

theorem lastIndex_le_of_contains_imp {n target : Node' Id E}
    (h : ∀ x, n.contains x = true → target.contains x = true) : n.lastIndex ≤ target.lastIndex := by
  have hlast : n.contains n.lastId = true := by
    rw [Node.contains_iff]
    refine ⟨rfl, ?_, le_rfl⟩
    show n.id.index ≤ n.lastIndex
    rw [Node.lastIndex_eq]
    omega
  exact ((Node.contains_iff _ _).1 (h _ hlast)).2.2

/-- A node later in the list holds `end`, so the scan for it succeeds. -/
theorem collectWorkItems_isSome (start «end» : IdWithIndex Id) :
    ∀ (k : ℕ) (l : List (Node' Id E)) (n : Node' Id E), n ∈ l → n.contains «end» = true →
      (collectWorkItems start «end» k l).isSome
  | _, [], _, hn, _ => by simp at hn
  | k, m :: rest, n, hn, hend => by
    have hid : n.id.id = «end».id := ((Node.contains_iff _ _).1 hend).1
    by_cases hm : m.id.id = «end».id
    · by_cases hc : m.contains «end» = true
      · simp [collectWorkItems, hm, hc]
      · have hnm : n ≠ m := by
          rintro rfl
          exact hc hend
        have hc' : m.contains «end» = false := by simpa using hc
        simp only [collectWorkItems, hm, hc', if_true, Bool.false_eq_true, if_false,
          Option.isSome_map]
        exact collectWorkItems_isSome start «end» (k + 1) rest n
          (List.mem_of_ne_of_mem hnm hn) hend
    · have hnm : n ≠ m := by
        rintro rfl
        exact hm hid
      simp only [collectWorkItems, hm, if_false]
      exact collectWorkItems_isSome start «end» (k + 1) rest n (List.mem_of_ne_of_mem hnm hn) hend

/-- A range whose first node is visible but does not reach the range's end makes
`delete_range` panic: the first node is cut at the range's end, past its last id. -/
theorem deleteRange_eq_none_of_visible_start_node {s : VecCoalescedLinearData Id E}
    {start «end» : IdWithIndex Id} (hne : start ≠ «end») (hid : start.id = «end».id)
    (hle : start.index ≤ «end».index) {i : ℕ} {node : Node' Id E}
    (hstart : Search.findFrom (·.contains start) s.base.nodes 0 = some (i, node))
    (hvis : node.operation.isInsert = true) (hnot : node.contains «end» = false)
    {j : ℕ} {n : Node' Id E} (hij : i < j) (hj : s.base.nodes[j]? = some n)
    (hn : n.contains «end» = true) : s.deleteRange start «end» = none := by
  obtain ⟨-, hi, hcs⟩ := Search.findFrom_spec hstart
  -- the end lies past the last id of the start node
  have hpast : node.lastIndex < «end».index := by
    rw [Node.contains_iff] at hcs
    have hne' : ¬ (node.id.id = «end».id ∧ node.id.index ≤ «end».index ∧
        «end».index ≤ node.lastIndex) := by
      rw [← Node.contains_iff, hnot]
      exact Bool.false_ne_true
    simp only [hcs.1.trans hid, true_and, not_and, not_le] at hne'
    exact hne' (by omega)
  have hdel : node.isDeleted = false := by
    cases h : node.operation <;> simp_all [Node.isDeleted, Operation.isInsert]
  obtain ⟨items, hitems⟩ := Option.isSome_iff_exists.1 (collectWorkItems_isSome start «end»
    (i + 1) (s.base.nodes.drop (i + 1)) n (by
      rw [List.mem_iff_getElem?]
      exact ⟨j - (i + 1), by rw [List.getElem?_drop]; convert hj using 2; omega⟩) hn)
  have hfirst : applyDeleteMode start «end» s
      (itemFromNode start «end» i node true false) = none := by
    by_cases hs : node.id = start
    · simp only [itemFromNode, hdel, hs, beq_self_eq_true, Bool.and_true, Bool.and_false,
        Bool.not_true, Bool.false_and, Bool.or_false, Bool.false_eq_true, if_false, if_true,
        applyDeleteMode]
      rw [splitNode_eq_none_of_lastIndex_lt hi hpast]
      rfl
    · have hs' : (node.id == start) = false := by simpa using hs
      simp only [itemFromNode, hdel, hs', Bool.and_false, Bool.not_true,
        Bool.false_and, Bool.or_false, Bool.false_eq_true, if_false, applyDeleteMode]
      cases hsplit : s.splitNode i start.index .before with
      | none => rfl
      | some r =>
        obtain ⟨s₁, k⟩ := r
        obtain ⟨m, hm, hmn⟩ := splitNode_returns_piece hsplit hi
        have hlt : m.lastIndex < «end».index := by
          have := lastIndex_le_of_contains_imp hmn
          omega
        simp [splitNode_eq_none_of_lastIndex_lt hm hlt]
  unfold deleteRange
  simp only [hne, if_false, hid, ne_eq, not_true_eq_false, hle, hstart, hnot,
    Bool.false_eq_true, hitems, List.foldlM_cons, hfirst, Option.bind_eq_bind,
    Option.bind_none, Option.map_none]

end VecCoalescedLinearData

open VecCoalescedLinearData

/-- A run of ten elements, split by an insert between its fifth and sixth element:
every id of the run is still held by an insert node, and deleting the run panics. -/
theorem delete_range_across_split_run_panics :
    ∃ s₀ s₁ : VecCoalescedLinearData ℕ ℕ,
      withValue 0 (List.range 10) = some s₀ ∧
      s₀.applyOperation (.insert ⟨1, 0⟩ ⟨0, 5⟩ ⟨0, 6⟩ [10]) = some (.ok s₁) ∧
      (∀ i ∈ List.range' 1 10, ∃ n ∈ s₁.base.nodes, n.operation.isInsert ∧ n.contains ⟨0, i⟩) ∧
      s₁.deleteRange ⟨0, 1⟩ ⟨0, 10⟩ = none :=
  ⟨_, _, rfl, rfl, by decide, by decide⟩

/-- Two replicas of one run: one inserts inside it (`ids_at_pos`), the other deletes
all of it (`ids_in_range`). Applied in one order the operations panic, in the
other they leave the inserted element. -/
theorem concurrent_insert_and_range_delete_diverge :
    ∃ s₀ : VecCoalescedLinearData ℕ ℕ, withValue 0 (List.range 10) = some s₀ ∧
      (s₀.idsAtPos 5).map (Option.map fun ids =>
        (ids.before.insertOperation ⟨1, 0⟩ [10] : DataOperation (IdWithIndex ℕ) (List ℕ))) =
        some (some (.insert ⟨1, 0⟩ ⟨0, 5⟩ ⟨0, 6⟩ [10])) ∧
      (s₀.idsInRange ⟨.unbounded, .unbounded⟩).map (Option.map fun r =>
        (r.deleteOperations : List (DataOperation (IdWithIndex ℕ) (List ℕ)))) =
        some (some [.delete ⟨0, 1⟩ (some ⟨0, 10⟩)]) ∧
      s₀.applyOperations [.insert ⟨1, 0⟩ ⟨0, 5⟩ ⟨0, 6⟩ [10], .delete ⟨0, 1⟩ (some ⟨0, 10⟩)] =
        none ∧
      ∃ s₂, s₀.applyOperations [.delete ⟨0, 1⟩ (some ⟨0, 10⟩), .insert ⟨1, 0⟩ ⟨0, 5⟩ ⟨0, 6⟩ [10]] =
        some (.ok s₂) ∧ s₂.iterValues = some [10] :=
  ⟨_, rfl, by decide, by decide, by decide, _, rfl, by decide⟩

end Flotsync.LinearData
