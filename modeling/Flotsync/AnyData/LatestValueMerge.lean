import Flotsync.AnyData.LatestValue
import Flotsync.LinearData.RightTree

/-!
Concurrent updates of a `LinearLatestValueWins` register. Updates made from one
state all insert between the beginning node `b` and the register's first node `x`,
so they form one conflict set. Applied in any order, they stand between `b` and `x`
in ascending id order (`versions`), each placed by the binary search over the set;
the lowest id is then the content, and a second delivery of any of them is refused.
-/

set_option autoImplicit false

namespace Flotsync.AnyData

open LinearData RightTreeTraversalMemo

variable {Id T : Type}

namespace LinearLatestValueWins

/-- The node an update between `pred` and `succ` puts into the register. -/
def versionNode (pred succ : Id) (w : Id × T) : Node Id T := ⟨w.1, some pred, some succ, .insert w.2⟩

/-- The register's nodes after the updates `C` went between its beginning `b` and its
first node `x`. -/
def versions (b x : Node Id T) (rest : List (Node Id T)) (C : List (Id × T)) : List (Node Id T) :=
  b :: (C.map (versionNode b.id x.id) ++ x :: rest)

section Versions

variable {b x : Node Id T} {rest : List (Node Id T)} {C : List (Id × T)}

@[simp] theorem length_versions : (versions b x rest C).length = C.length + rest.length + 2 := by
  simp [versions]
  omega

theorem getElem?_versions_version {k : ℕ} (hk : k < C.length) :
    (versions b x rest C)[k + 1]? = some (versionNode b.id x.id C[k]) := by
  simp [versions, List.getElem?_append_left (by simpa using hk : k < (C.map _).length), hk]

theorem getElem?_versions_tail (j : ℕ) :
    (versions b x rest C)[C.length + 1 + j]? = (x :: rest)[j]? := by
  rw [versions, show C.length + 1 + j = (C.map (versionNode b.id x.id)).length + j + 1 by simp; omega,
    List.getElem?_cons_succ, List.getElem?_append_right (by simp)]
  simp

/-- Inserting an update's node after `C₁` is inserting the update into the list. -/
theorem insertIdx_versions (C₁ C₂ : List (Id × T)) (w : Id × T) :
    (versions b x rest (C₁ ++ C₂)).insertIdx (C₁.length + 1) (versionNode b.id x.id w) =
      versions b x rest (C₁ ++ w :: C₂) := by
  rw [versions, List.insertIdx_succ_cons, Checked.insertIdx_eq_take_drop (by simp)]
  simp [versions]

/-- The updates made in a state all insert between its first two nodes. -/
theorem updateOperation_eq {r : LinearLatestValueWins Id T} (h : r.data.nodes = b :: x :: rest)
    (id : Id) (v : T) : r.updateOperation id v = some ⟨id, b.id, x.id, v⟩ := by
  simp [updateOperation, VecLinearData.idsAfterHead, h, LinkIds.insertOperation,
    UpdateOperation.ofDataOperation]

variable [DecidableEq Id]

/-- The conflict set of the updates, as the walk over the nodes between `b` and `x`
collects it. -/
theorem filterMap_versions (pre post : List (Node Id T)) (pred succ : Id) :
    ∀ C : List (Id × T), (List.range' pre.length C.length).filterMap (fun i =>
      ((pre ++ (C.map (versionNode pred succ) ++ post))[i]?).bind fun n =>
        if n.leftOrigin = some pred ∧ n.rightOrigin = some succ then some (n.id, i) else none) =
      (C.map Prod.fst).zip (List.range' pre.length C.length) := by
  intro C
  induction C generalizing pre with
  | nil => rfl
  | cons w C ih =>
    have hrest := ih (pre ++ [versionNode pred succ w])
    simp only [List.length_append, List.length_singleton, List.append_assoc,
      List.cons_append] at hrest
    simp only [List.length_cons, List.range'_succ, List.filterMap_cons, List.map_cons,
      List.cons_append, List.zip_cons_cons, ← hrest]
    simp [versionNode]

/-- The conflict set of updates between `b` and `x`, with their indices. -/
theorem conflicting_versions :
    (List.range' 1 C.length).filterMap (fun i => ((versions b x rest C)[i]?).bind fun n =>
      if n.leftOrigin = some b.id ∧ n.rightOrigin = some x.id then some (n.id, i) else none) =
      (C.map Prod.fst).zip (List.range' 1 C.length) :=
  filterMap_versions [b] (x :: rest) b.id x.id C

theorem resolveIndex_versions (hfresh : ∀ c ∈ C, c.1 ≠ x.id) {k : ℕ} (hk : k < C.length) :
    resolveIndex (versions b x rest C) (k + 1) x.id = some (C.length + 1) := by
  have hx : (versions b x rest C)[C.length + 1]? = some x := getElem?_versions_tail 0
  refine resolveIndex_eq (by omega) hx rfl fun k' n hk' hk'C hn => ?_
  obtain ⟨k'', rfl⟩ : ∃ k'', k' = k'' + 1 := ⟨k' - 1, by omega⟩
  rw [getElem?_versions_version (by omega), Option.some.injEq] at hn
  subst hn
  exact hfresh _ (List.getElem_mem _)

/-- From an update, the walk to the register's first node takes one step. -/
theorem reachesBoundary_versions_first (hfresh : ∀ c ∈ C, c.1 ≠ x.id) {k : ℕ}
    (hk : k < C.length) : reachesBoundary (versions b x rest C) x.id (k + 1) = some true := by
  rw [reachesBoundary, length_versions,
    show C.length + rest.length + 2 = C.length + rest.length + 1 + 1 by omega,
    reachesBoundaryFrom_succ (getElem?_versions_version hk) (hfresh _ (List.getElem_mem hk)) rfl
      (resolveIndex_versions hfresh hk),
    reachesBoundaryFrom_boundary (getElem?_versions_tail 0) rfl]

/-- The first update is the first node whose walk reaches `x`. -/
theorem firstReaching_versions_first (hfresh : ∀ c ∈ C, c.1 ≠ x.id) (hne : C ≠ []) :
    firstReaching (versions b x rest C) x.id 1 C.length = some (some 1) := by
  obtain ⟨m, hm⟩ : ∃ m, C.length = m + 1 :=
    ⟨C.length - 1, by have := List.length_pos_iff.2 hne; omega⟩
  rw [hm]
  exact firstReaching_of_true (reachesBoundary_versions_first hfresh (by omega)) m

/-- A walk from an update to a boundary that is neither that update nor a node from
`x` on answers `false`: it goes to `x` and on to the right from there. -/
theorem reachesBoundary_versions_eq_false (hwalk : RightOriginsAhead (versions b x rest C))
    (hfresh : ∀ c ∈ C, c.1 ≠ x.id) {boundary : Id} (hout : ∀ n ∈ x :: rest, n.id ≠ boundary)
    {k : ℕ} (hk : k < C.length) (hne : C[k].1 ≠ boundary) :
    reachesBoundary (versions b x rest C) boundary (k + 1) = some false := by
  rw [reachesBoundary, length_versions,
    show C.length + rest.length + 2 = C.length + rest.length + 1 + 1 by omega,
    reachesBoundaryFrom_succ (getElem?_versions_version hk) hne rfl
      (resolveIndex_versions hfresh hk)]
  refine reachesBoundaryFrom_eq_false hwalk _ _ (by simp) (by simp; omega) fun j m hj hm => ?_
  obtain ⟨j', rfl⟩ : ∃ j', j = C.length + 1 + j' := ⟨j - (C.length + 1), by omega⟩
  rw [getElem?_versions_tail] at hm
  exact hout m (List.mem_of_getElem? hm)

end Versions

section Order

variable [LinearOrder Id] {b x : Node Id T} {rest : List (Node Id T)} {C : List (Id × T)}

/-- Updates that stand as `versions`: their ids ascend, and none is the id of `x` or
of a node after it. -/
structure Ascending (x : Node Id T) (rest : List (Node Id T)) (C : List (Id × T)) : Prop where
  sorted : (C.map Prod.fst).Pairwise (· < ·)
  fresh : ∀ c ∈ C, ∀ n ∈ x :: rest, n.id ≠ c.1

/-- In ascending order the updates below `w` are a prefix, so the binary search's count
of them is that prefix's length. -/
theorem countP_lt_eq_length_takeWhile {C : List (Id × T)} (hsorted : (C.map Prod.fst).Pairwise (· < ·))
    (w : Id) : (C.map Prod.fst).countP (· < w) = (C.takeWhile (·.1 < w)).length := by
  induction C with
  | nil => rfl
  | cons c C ih =>
    rw [List.map_cons, List.pairwise_cons] at hsorted
    by_cases hc : c.1 < w
    · simp [hc, ih hsorted.2]
    · -- everything after `c` is above it, so above `w` too
      have hnone : (C.map Prod.fst).countP (· < w) = 0 := by
        rw [List.countP_eq_zero]
        intro a ha hlt
        exact hc (lt_trans (hsorted.1 a ha) (by simpa using hlt))
      simp [hc, hnone]

/-- Before the conflicting update at index `k`, no update lies in its subtree. -/
theorem firstReaching_versions_eq_none (hasc : Ascending x rest C)
    (hwalk : RightOriginsAhead (versions b x rest C)) {k : ℕ} (hk : k < C.length) :
    firstReaching (versions b x rest C) C[k].1 1 k = some none := by
  have hfresh : ∀ c ∈ C, c.1 ≠ x.id := fun c hc => (hasc.fresh c hc x List.mem_cons_self).symm
  refine firstReaching_eq_none k 1 fun j hj hjk => ?_
  obtain ⟨j', rfl⟩ : ∃ j', j = j' + 1 := ⟨j - 1, by omega⟩
  -- ids ascend, so the update at `j'` has a smaller id than the one at `k`
  have hlt : C[j'].1 < C[k].1 := by
    have := List.pairwise_iff_getElem.1 hasc.sorted j' k (by simp; omega) (by simpa using hk)
      (by omega)
    simpa using this
  exact reachesBoundary_versions_eq_false hwalk hfresh
    (hasc.fresh _ (List.getElem_mem hk)) (by omega) hlt.ne

/-- Among updates in ascending order, a new id goes right after those below it. -/
theorem conflictPosition_versions (hasc : Ascending x rest C)
    (hwalk : RightOriginsAhead (versions b x rest C)) (hne : C ≠ []) {w : Id}
    (hw : w ∉ C.map Prod.fst) :
    conflictPosition Node.id (versions b x rest C) w b.id x.id 0 (C.length + 1) =
      some (.ok ((C.takeWhile (·.1 < w)).length + 1)) := by
  have hfresh : ∀ c ∈ C, c.1 ≠ x.id := fun c hc => (hasc.fresh c hc x List.mem_cons_self).symm
  have hkeys : ((C.map Prod.fst).zip (List.range' 1 C.length)).map Prod.fst = C.map Prod.fst :=
    List.map_fst_zip (by simp)
  have hnonempty : ((C.map Prod.fst).zip (List.range' 1 C.length)).isEmpty = false := by
    simpa [List.isEmpty_iff] using hne
  unfold conflictPosition
  simp only [Nat.zero_add, Nat.add_sub_cancel, conflicting_versions,
    firstReaching_versions_first hfresh hne, hnonempty, hkeys,
    Search.binarySearch_of_not_mem hw, countP_lt_eq_length_takeWhile hasc.sorted w,
    Option.bind_eq_bind, Option.bind_some, Bool.false_eq_true, if_false,
    hasc.sorted.imp le_of_lt, not_true_eq_false]
  have hle : (C.takeWhile (·.1 < w)).length ≤ C.length := (List.takeWhile_sublist _).length_le
  generalize (C.takeWhile (·.1 < w)).length = k at hle ⊢
  split_ifs with hzero hlt
  · subst hzero
    rfl
  · -- before the subtree of the first update above `w`, which is that update itself
    have hk : k < C.length := by simpa using hlt
    have htarget : ((C.map Prod.fst).zip (List.range' 1 C.length))[k].2 = k + 1 := by
      simp only [List.getElem_zip, List.getElem_range']
      omega
    simp only [htarget, getElem?_versions_version hk, versionNode, Nat.add_sub_cancel,
      firstReaching_versions_eq_none hasc hwalk hk]
    rfl
  · -- after every update
    have hk : k = C.length := by
      simp at hlt
      omega
    subst hk
    rfl

/-- The binary search over the conflict set finds an id that is already there. -/
theorem conflictPosition_versions_of_mem (hasc : Ascending x rest C) {w : Id}
    (hw : w ∈ C.map Prod.fst) :
    conflictPosition Node.id (versions b x rest C) w b.id x.id 0 (C.length + 1) =
      some (.error ()) := by
  have hfresh : ∀ c ∈ C, c.1 ≠ x.id := fun c hc => (hasc.fresh c hc x List.mem_cons_self).symm
  have hne : C ≠ [] := by
    rintro rfl
    simp at hw
  have hkeys : ((C.map Prod.fst).zip (List.range' 1 C.length)).map Prod.fst = C.map Prod.fst :=
    List.map_fst_zip (by simp)
  have hnonempty : ((C.map Prod.fst).zip (List.range' 1 C.length)).isEmpty = false := by
    simpa [List.isEmpty_iff] using hne
  obtain ⟨i, hi⟩ := Search.binarySearch_of_mem hw
  unfold conflictPosition
  simp only [Nat.zero_add, Nat.add_sub_cancel, conflicting_versions,
    firstReaching_versions_first hfresh hne, hnonempty, hkeys, hi,
    Option.bind_eq_bind, Option.bind_some, Bool.false_eq_true, if_false,
    hasc.sorted.imp le_of_lt, not_true_eq_false]
  rfl

theorem Ascending.insert (hasc : Ascending x rest C) {w : Id × T} (hw : w.1 ∉ C.map Prod.fst)
    (hwx : ∀ n ∈ x :: rest, n.id ≠ w.1) :
    Ascending x rest (C.takeWhile (·.1 < w.1) ++ w :: C.dropWhile (·.1 < w.1)) := by
  have hsplit := hasc.sorted
  rw [← List.takeWhile_append_dropWhile (p := fun c : Id × T => decide (c.1 < w.1)) (l := C),
    List.map_append, List.pairwise_append] at hsplit
  obtain ⟨hbelow, habove, hcross⟩ := hsplit
  -- `w` is below every update of the rest, whose first is not below `w`
  have hw_lt : ∀ d ∈ C.dropWhile (·.1 < w.1), w.1 < d.1 := by
    intro d hd
    have hne : C.dropWhile (·.1 < w.1) ≠ [] := List.ne_nil_of_mem hd
    have hhead := List.head_dropWhile_not (fun c : Id × T => decide (c.1 < w.1)) hne
    have hdC : d ∈ C := (List.dropWhile_sublist _).subset hd
    obtain ⟨d₀, D, hD⟩ := List.exists_cons_of_ne_nil hne
    simp only [hD, List.head_cons, decide_eq_false_iff_not, not_lt] at hhead
    rw [hD, List.map_cons, List.pairwise_cons] at habove
    have hd₀ : w.1 ≤ d.1 := by
      rw [hD, List.mem_cons] at hd
      rcases hd with rfl | hd
      · exact hhead
      · exact hhead.trans (habove.1 d.1 (List.mem_map_of_mem hd)).le
    exact lt_of_le_of_ne hd₀ fun heq => hw (heq ▸ List.mem_map_of_mem hdC)
  refine ⟨?_, ?_⟩
  · rw [List.map_append, List.map_cons, List.pairwise_append, List.pairwise_cons]
    refine ⟨hbelow, ⟨fun a ha => ?_, habove⟩, fun a ha b hb => ?_⟩
    · obtain ⟨d, hd, rfl⟩ := List.mem_map.1 ha
      exact hw_lt d hd
    · rw [List.mem_cons] at hb
      rcases hb with rfl | hb
      · obtain ⟨c, hc, rfl⟩ := List.mem_map.1 ha
        simpa using List.mem_takeWhile_imp hc
      · exact hcross a ha b hb
  · intro c hc n hn
    rw [List.mem_append, List.mem_cons] at hc
    rcases hc with hc | rfl | hc
    · exact hasc.fresh c ((List.takeWhile_sublist _).subset hc) n hn
    · exact hwx n hn
    · exact hasc.fresh c ((List.dropWhile_sublist _).subset hc) n hn

theorem findFrom_versions_pred :
    Search.findFrom (fun n => n.id == b.id) (versions b x rest C) 0 = some (0, b) := by
  simp [versions, Search.findFrom]

theorem findFrom_versions_succ (hbx : b.id ≠ x.id) (hfresh : ∀ c ∈ C, c.1 ≠ x.id) :
    Search.findFrom (fun n => n.id == x.id) (versions b x rest C) 0 = some (C.length + 1, x) := by
  refine Search.findFrom_eq_some_of_first (Nat.zero_le _) (getElem?_versions_tail 0) (by simp)
    fun j n _ hj hn => ?_
  cases j with
  | zero =>
    cases hn
    simpa using hbx
  | succ j =>
    rw [getElem?_versions_version (by omega), Option.some.injEq] at hn
    subst hn
    simpa [versionNode] using hfresh _ (List.getElem_mem (by omega))

/-- An update from the register's state goes into the ascending updates after those
with smaller ids. -/
theorem applyOperation_insert_versions (len : ℕ) (hasc : Ascending x rest C) (hbx : b.id ≠ x.id)
    (hwalk : RightOriginsAhead (versions b x rest C)) {w : Id × T} (hw : w.1 ∉ C.map Prod.fst) :
    (⟨len, versions b x rest C⟩ : VecLinearData Id T).applyOperation (.insert w.1 b.id x.id w.2) =
      some (.ok ⟨len + 1, versions b x rest (C.takeWhile (·.1 < w.1) ++ w :: C.dropWhile (·.1 < w.1))⟩) := by
  have hfresh : ∀ c ∈ C, c.1 ≠ x.id := fun c hc => (hasc.fresh c hc x List.mem_cons_self).symm
  have hinsert := @insertIdx_versions Id T b x rest
    (C.takeWhile (·.1 < w.1)) (C.dropWhile (·.1 < w.1)) w
  rw [List.takeWhile_append_dropWhile] at hinsert
  simp only [versionNode] at hinsert
  have hlen : (C.takeWhile (·.1 < w.1)).length + 1 ≤ (versions b x rest C).length := by
    have := (List.takeWhile_sublist (fun c : Id × T => decide (c.1 < w.1)) (l := C)).length_le
    simp
    omega
  simp only [VecLinearData.applyOperation, findFrom_versions_pred, findFrom_versions_succ hbx hfresh]
  by_cases hC : C = []
  · -- the first update goes right after the beginning
    subst hC
    simp only [List.length_nil, Nat.zero_add, if_true]
    rw [Checked.insert_of_le _ (by simp)]
    rfl
  · rw [if_neg (by simpa using hC), if_pos (by omega),
      conflictPosition_versions hasc hwalk hC hw]
    dsimp only
    rw [Checked.insert_of_le _ hlen, hinsert]
    rfl

/-- A second delivery of an update is refused. -/
theorem applyOperation_insert_versions_of_mem {len : ℕ} (hasc : Ascending x rest C)
    (hbx : b.id ≠ x.id) {w : Id × T} (hw : w.1 ∈ C.map Prod.fst) :
    (⟨len, versions b x rest C⟩ : VecLinearData Id T).applyOperation (.insert w.1 b.id x.id w.2) =
      some (.error (.insert w.1 b.id x.id w.2)) := by
  have hfresh : ∀ c ∈ C, c.1 ≠ x.id := fun c hc => (hasc.fresh c hc x List.mem_cons_self).symm
  have hne : C ≠ [] := by
    rintro rfl
    simp at hw
  simp only [VecLinearData.applyOperation, findFrom_versions_pred, findFrom_versions_succ hbx hfresh]
  rw [if_neg (by simpa using hne), if_pos (by omega), conflictPosition_versions_of_mem hasc hw]

/-- Ascending updates are fixed by the set they hold. -/
theorem Ascending.eq_of_perm {C₁ C₂ : List (Id × T)} (h₁ : Ascending x rest C₁)
    (h₂ : Ascending x rest C₂) (hperm : C₁.Perm C₂) : C₁ = C₂ :=
  hperm.eq_of_pairwise (fun _ _ _ _ hab hba => absurd hab (lt_asymm hba))
    (List.pairwise_map.1 h₁.sorted) (List.pairwise_map.1 h₂.sorted)

theorem ascending_nil : Ascending x rest ([] : List (Id × T)) :=
  ⟨List.Pairwise.nil, fun _ hc => absurd hc List.not_mem_nil⟩

theorem perm_takeWhile_cons_dropWhile (C : List (Id × T)) (w : Id × T) :
    (C.takeWhile (·.1 < w.1) ++ w :: C.dropWhile (·.1 < w.1)).Perm (w :: C) := by
  refine List.perm_middle.trans ?_
  rw [List.takeWhile_append_dropWhile]

end Order

section Register

variable {b x : Node Id T} {rest : List (Node Id T)} {C : List (Id × T)}

/-- A register that passes its check starts with its beginning node and one more. -/
theorem Inv.nodes_eq {r : LinearLatestValueWins Id T} (hr : Inv r) :
    ∃ b x rest, r.data.nodes = b :: x :: rest ∧ b.getCurrentValue = none := by
  obtain ⟨n, hhead, hn⟩ := hr.data.first
  obtain ⟨e, hlast, he⟩ := hr.data.last
  rcases hnodes : r.data.nodes with _ | ⟨n', _ | ⟨x, rest⟩⟩
  · simp [hnodes] at hhead
  · -- a single node cannot be both boundaries
    simp only [hnodes, List.head?_cons, List.getLast?_singleton, Option.some.injEq] at hhead hlast
    subst hhead hlast
    cases hop : n'.operation <;> simp_all [Operation.isBeginning, Operation.isEnd]
  · simp only [hnodes, List.head?_cons, Option.some.injEq] at hhead
    subst hhead
    refine ⟨n', x, rest, rfl, ?_⟩
    cases hop : n'.operation <;> simp_all [Node.getCurrentValue, Operation.isBeginning]

theorem rightOriginsAhead_withValue (v : T) (beginId valueId endId : Id) :
    RightOriginsAhead (VecLinearData.withValue v beginId valueId endId).nodes := by
  intro i n r hi hr
  rcases i with _ | _ | _ | i <;>
    simp only [VecLinearData.withValue, List.getElem?_cons_zero, List.getElem?_cons_succ,
      List.getElem?_nil, Option.some.injEq, reduceCtorEq] at hi <;> subst hi <;>
    simp only [Option.some.injEq, reduceCtorEq] at hr
  · exact ⟨1, _, Nat.one_pos, rfl, hr⟩
  · exact ⟨2, _, by omega, rfl, hr⟩

/-- The values of the register: the updates', then those from `x` on. -/
theorem allValues_versions (hb : b.getCurrentValue = none) (len len' : ℕ) :
    (⟨⟨len, versions b x rest C⟩⟩ : LinearLatestValueWins Id T).allValues =
      C.map Prod.snd ++ (⟨⟨len', versions b x rest []⟩⟩ : LinearLatestValueWins Id T).allValues := by
  have hupdates : (C.map (versionNode b.id x.id)).filterMap (·.getCurrentValue) = C.map Prod.snd := by
    simp [List.filterMap_map, Function.comp_def, versionNode, Node.getCurrentValue]
  simp only [allValues, VecLinearData.iterValues, versions, List.filterMap_cons, hb,
    List.filterMap_append, hupdates, List.map_nil, List.nil_append]

theorem content_versions (hb : b.getCurrentValue = none) {len : ℕ} {c : Id × T} :
    (⟨⟨len, versions b x rest (c :: C)⟩⟩ : LinearLatestValueWins Id T).content = some c.2 := by
  show (allValues _).head? = _
  rw [allValues_versions hb len 0]
  rfl

/-- Delivered updates are a reordering of those made between `pred` and `succ`. -/
theorem exists_perm_of_perm_map {ws : List (Id × T)} {ops : List (UpdateOperation Id T)}
    {pred succ : Id} (h : ops.Perm (ws.map fun w => ⟨w.1, pred, succ, w.2⟩)) :
    ∃ ws' : List (Id × T), ws'.Perm ws ∧ ops = ws'.map fun w => ⟨w.1, pred, succ, w.2⟩ := by
  refine ⟨ops.map fun op => (op.id, op.value), ?_, ?_⟩
  · simpa [List.map_map, Function.comp_def] using h.map fun op => (op.id, op.value)
  · conv_lhs => rw [← List.map_id ops]
    rw [List.map_map]
    refine List.map_congr_left fun op hop => ?_
    obtain ⟨w, -, rfl⟩ := List.mem_map.1 (h.subset hop)
    rfl

variable [LinearOrder Id]

/-- Deliver updates one after the other, as a replica receives them; the run stops at
the first one that does not apply. -/
def applyOperations (r : LinearLatestValueWins Id T) :
    List (UpdateOperation Id T) → Option (LinearLatestValueWins Id T)
  | [] => some r
  | op :: ops =>
    match r.applyOperation op with
    | some (.ok r') => r'.applyOperations ops
    | _ => none

/-- Inserts keep right origins ahead, in every register the mutators reach. -/
theorem Reachable.rightOriginsAhead {r : LinearLatestValueWins Id T} (h : Reachable r) :
    RightOriginsAhead r.data.nodes := by
  induction h with
  | new initialValue beginId valueId endId =>
    exact rightOriginsAhead_withValue initialValue beginId valueId endId
  | step _ hstep ih =>
    cases hstep with
    | update h =>
      obtain ⟨op, -, happly⟩ := applyOperation_of_update h
      exact VecLinearData.RightOriginsAhead.applyOperation ih (applyOperation_eq_ok happly)
    | applyOperation h =>
      exact VecLinearData.RightOriginsAhead.applyOperation ih (applyOperation_eq_ok h)

theorem applyOperation_versions {len : ℕ} (hasc : Ascending x rest C) (hbx : b.id ≠ x.id)
    (hwalk : RightOriginsAhead (versions b x rest C)) {w : Id × T} (hw : w.1 ∉ C.map Prod.fst) :
    (⟨⟨len, versions b x rest C⟩⟩ : LinearLatestValueWins Id T).applyOperation ⟨w.1, b.id, x.id, w.2⟩ =
      some (.ok ⟨⟨len + 1, versions b x rest (C.takeWhile (·.1 < w.1) ++ w :: C.dropWhile (·.1 < w.1))⟩⟩) := by
  simp only [applyOperation, UpdateOperation.toDataOperation,
    applyOperation_insert_versions len hasc hbx hwalk hw]

theorem applyOperation_versions_of_mem {len : ℕ} (hasc : Ascending x rest C) (hbx : b.id ≠ x.id)
    {w : Id × T} (hw : w.1 ∈ C.map Prod.fst) :
    (⟨⟨len, versions b x rest C⟩⟩ : LinearLatestValueWins Id T).applyOperation ⟨w.1, b.id, x.id, w.2⟩ =
      some (.error ⟨w.1, b.id, x.id, w.2⟩) := by
  simp only [applyOperation, UpdateOperation.toDataOperation,
    applyOperation_insert_versions_of_mem hasc hbx hw]
  rfl

/-- Updates made between `b` and `x`, delivered in the order of `ws`, end up among the
ascending updates. The induction is on the deliveries; `Ascending` and the walk
invariant carry it. -/
theorem applyOperations_versions (hbx : b.id ≠ x.id) :
    ∀ (ws : List (Id × T)) (len : ℕ) (C : List (Id × T)), Ascending x rest C →
      RightOriginsAhead (versions b x rest C) → (ws.map Prod.fst ++ C.map Prod.fst).Nodup →
      (∀ w ∈ ws, ∀ n ∈ x :: rest, n.id ≠ w.1) →
      ∃ C', (⟨⟨len, versions b x rest C⟩⟩ : LinearLatestValueWins Id T).applyOperations
          (ws.map fun w => ⟨w.1, b.id, x.id, w.2⟩) =
          some ⟨⟨len + ws.length, versions b x rest C'⟩⟩ ∧
        Ascending x rest C' ∧ RightOriginsAhead (versions b x rest C') ∧ C'.Perm (ws ++ C)
  | [], len, C, hasc, hwalk, _, _ => ⟨C, rfl, hasc, hwalk, List.Perm.refl _⟩
  | w :: ws, len, C, hasc, hwalk, hnodup, hfresh => by
    rw [List.map_cons, List.cons_append, List.nodup_cons, List.mem_append, not_or] at hnodup
    obtain ⟨⟨hws, hw⟩, hnodup⟩ := hnodup
    have hperm := perm_takeWhile_cons_dropWhile C w
    -- the ids still to come stay apart from those now in place
    have hnodup' : (ws.map Prod.fst ++
        (C.takeWhile (·.1 < w.1) ++ w :: C.dropWhile (·.1 < w.1)).map Prod.fst).Nodup := by
      refine (((hperm.map Prod.fst).append_left _).trans List.perm_middle).nodup_iff.2 ?_
      exact List.nodup_cons.2 ⟨by simp only [List.mem_append, not_or]; exact ⟨hws, hw⟩, hnodup⟩
    obtain ⟨C', hrun, hasc', hwalk', hperm'⟩ := applyOperations_versions hbx ws (len + 1) _
      (hasc.insert hw (hfresh w List.mem_cons_self))
      (VecLinearData.RightOriginsAhead.applyOperation hwalk
        (applyOperation_insert_versions len hasc hbx hwalk hw))
      hnodup' fun w' hw' => hfresh w' (List.mem_cons_of_mem _ hw')
    refine ⟨C', ?_, hasc', hwalk', ?_⟩
    · rw [List.map_cons, applyOperations, applyOperation_versions hasc hbx hwalk hw, List.length_cons,
        show len + (ws.length + 1) = len + 1 + ws.length by omega]
      exact hrun
    · exact hperm'.trans (((hperm.append_left ws)).trans List.perm_middle)

theorem update_versions_nil {len : ℕ} (hbx : b.id ≠ x.id)
    (hwalk : RightOriginsAhead (versions b x rest [])) (id : Id) (v : T) :
    (⟨⟨len, versions b x rest []⟩⟩ : LinearLatestValueWins Id T).update id v =
      some ⟨⟨len + 1, versions b x rest [(id, v)]⟩⟩ := by
  have happly : (⟨⟨len, versions b x rest []⟩⟩ : LinearLatestValueWins Id T).applyOperation
      ⟨id, b.id, x.id, v⟩ = some (.ok ⟨⟨len + 1, versions b x rest [(id, v)]⟩⟩) :=
    applyOperation_versions ascending_nil hbx hwalk (w := (id, v)) (by simp)
  have hop : (⟨⟨len, versions b x rest []⟩⟩ : LinearLatestValueWins Id T).updateOperation id v =
      some ⟨id, b.id, x.id, v⟩ := updateOperation_eq rfl id v
  simp only [update, hop, happly, Option.bind_eq_bind, Option.bind_some]

/-- In ascending order, an update whose id is at most the first one's is the first. -/
theorem eq_head_of_le {c w : Id × T} {C : List (Id × T)}
    (hsorted : ((c :: C).map Prod.fst).Pairwise (· < ·)) (hw : w ∈ c :: C) (hle : w.1 ≤ c.1) :
    w = c := by
  rw [List.map_cons, List.pairwise_cons] at hsorted
  rcases List.mem_cons.1 hw with rfl | hw
  · rfl
  · exact absurd hle (not_le.2 (hsorted.1 w.1 (List.mem_map_of_mem hw)))

theorem latest_value_wins_lowest_update_id (r : LinearLatestValueWins Id T) (hr : r.Reachable)
    (hids : (r.data.nodes.map Node.id).Nodup) (ws : List (Id × T)) (hws : (ws.map Prod.fst).Nodup)
    (hunused : ∀ w ∈ ws, ∀ n ∈ r.data.nodes, n.id ≠ w.1) :
    ∃ ops r', ws.mapM (fun w => r.updateOperation w.1 w.2) = some ops ∧
      (∀ ops', ops'.Perm ops → r.applyOperations ops' = some r') ∧
      (∃ sorted : List (Id × T), sorted.Perm ws ∧ (sorted.map Prod.fst).Pairwise (· < ·) ∧
        r'.allValues = sorted.map Prod.snd ++ r.allValues) ∧
      (∀ w ∈ ws, (∀ w' ∈ ws, w.1 ≤ w'.1) → r'.content = some w.2) ∧
      (∀ op ∈ ops, r'.applyOperation op = some (.error op)) ∧
      ∀ id v, ∃ r'', r.update id v = some r'' ∧ r''.content = some v := by
  obtain ⟨b, x, rest, hnodes, hb⟩ := hr.inv.nodes_eq
  have hwalk := hr.rightOriginsAhead
  rw [hnodes] at hids hwalk hunused
  have hbx : b.id ≠ x.id := by
    simp only [List.map_cons, List.nodup_cons, List.mem_cons, not_or] at hids
    exact hids.1.1
  have hfresh : ∀ w ∈ ws, ∀ n ∈ x :: rest, n.id ≠ w.1 :=
    fun w hw n hn => hunused w hw n (List.mem_cons_of_mem _ hn)
  -- the register is `versions` with no updates yet
  obtain ⟨⟨len, nodes⟩⟩ := r
  dsimp only at hnodes
  subst hnodes
  change RightOriginsAhead (versions b x rest []) at hwalk
  -- every delivery order ends in ascending updates
  have hrun : ∀ ws' : List (Id × T), ws'.Perm ws → ∃ C,
      (⟨⟨len, b :: x :: rest⟩⟩ : LinearLatestValueWins Id T).applyOperations
        (ws'.map fun w => ⟨w.1, b.id, x.id, w.2⟩) = some ⟨⟨len + ws.length, versions b x rest C⟩⟩ ∧
      Ascending x rest C ∧ C.Perm ws := by
    intro ws' hperm
    obtain ⟨C, hrunC, hasc, -, hpermC⟩ := applyOperations_versions hbx ws' len [] ascending_nil hwalk
      (by simpa using (hperm.map Prod.fst).nodup_iff.2 hws) fun w hw => hfresh w (hperm.subset hw)
    rw [hperm.length_eq] at hrunC
    rw [List.append_nil] at hpermC
    exact ⟨C, hrunC, hasc, hpermC.trans hperm⟩
  obtain ⟨C, hrunC, hasc, hperm⟩ := hrun ws (List.Perm.refl _)
  refine ⟨ws.map fun w => ⟨w.1, b.id, x.id, w.2⟩, ⟨⟨len + ws.length, versions b x rest C⟩⟩,
    ?_, ?_, ⟨C, hperm, hasc.sorted, allValues_versions hb _ _⟩, ?_, ?_, ?_⟩
  · have hop : ∀ id v, (⟨⟨len, b :: x :: rest⟩⟩ : LinearLatestValueWins Id T).updateOperation id v =
        some ⟨id, b.id, x.id, v⟩ := updateOperation_eq rfl
    simp only [hop]
    exact List.mapM_pure
  · -- all orders give the same ascending updates
    intro ops' hops'
    obtain ⟨ws', hws', rfl⟩ := exists_perm_of_perm_map hops'
    obtain ⟨C', hrunC', hasc', hperm'⟩ := hrun ws' hws'
    rw [hrunC', hasc'.eq_of_perm hasc (hperm'.trans hperm.symm)]
  · -- the lowest id is the first of the ascending updates
    intro w hw hmin
    have hwC : w ∈ C := hperm.symm.subset hw
    obtain ⟨c, C₀, rfl⟩ := List.exists_cons_of_ne_nil (List.ne_nil_of_mem hwC)
    rw [eq_head_of_le hasc.sorted hwC (hmin c (hperm.subset List.mem_cons_self))]
    exact content_versions hb
  · intro op hop
    obtain ⟨w, hw, rfl⟩ := List.mem_map.1 hop
    exact applyOperation_versions_of_mem hasc hbx (List.mem_map_of_mem (hperm.symm.subset hw))
  · intro id v
    exact ⟨_, update_versions_nil hbx hwalk id v, content_versions hb⟩

theorem latest_value_wins_lowest_update_id_two_updates :
    let r := LinearLatestValueWins.new (10 : ℕ) (0 : ℕ) 1 2
    let ws : List (ℕ × ℕ) := [(4, 40), (3, 30)]
    r.Reachable ∧ (r.data.nodes.map Node.id).Nodup ∧ (ws.map Prod.fst).Nodup ∧
      (∀ w ∈ ws, ∀ n ∈ r.data.nodes, n.id ≠ w.1) ∧
      ∃ ops r', ws.mapM (fun w => r.updateOperation w.1 w.2) = some ops ∧
        (∀ ops', ops'.Perm ops → r.applyOperations ops' = some r') ∧
        (∃ sorted : List (ℕ × ℕ), sorted.Perm ws ∧ (sorted.map Prod.fst).Pairwise (· < ·) ∧
          r'.allValues = sorted.map Prod.snd ++ r.allValues) ∧
        (∀ w ∈ ws, (∀ w' ∈ ws, w.1 ≤ w'.1) → r'.content = some w.2) ∧
        (∀ op ∈ ops, r'.applyOperation op = some (.error op)) ∧
        ∀ id v, ∃ r'', r.update id v = some r'' ∧ r''.content = some v :=
  ⟨.new 10 0 1 2, by decide, by decide, by decide,
    latest_value_wins_lowest_update_id _ (.new 10 0 1 2) (by decide) _ (by decide) (by decide)⟩

/-- An update whose id is the beginning's is accepted; the register then has two nodes
with that id at its front, and a local update there is refused, which the source's
assertion turns into a panic. -/
theorem update_fails_after_beginning_id_reused :
    ∃ r : LinearLatestValueWins ℕ ℕ,
      (LinearLatestValueWins.new 0 0 1 2).applyOperation ⟨0, 0, 1, 9⟩ = some (.ok r) ∧
        r.Reachable ∧ r.updateOperation 3 5 = some ⟨3, 0, 0, 5⟩ ∧
        r.applyOperation ⟨3, 0, 0, 5⟩ = some (.error ⟨3, 0, 0, 5⟩) ∧ r.update 3 5 = none := by
  have h : (LinearLatestValueWins.new (0 : ℕ) (0 : ℕ) 1 2).applyOperation ⟨0, 0, 1, 9⟩ =
      some (.ok ⟨⟨2, [⟨0, none, some 1, .beginning⟩, ⟨0, some 0, some 1, .insert 9⟩,
        ⟨1, some 0, some 2, .insert 0⟩, ⟨2, some 1, none, .end⟩]⟩⟩) := rfl
  exact ⟨_, h, .step (.new 0 0 1 2) (.applyOperation h), rfl, rfl, rfl⟩

end Register

end LinearLatestValueWins

end Flotsync.AnyData
