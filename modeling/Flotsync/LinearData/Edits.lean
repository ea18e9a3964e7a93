import Flotsync.LinearData.Elements

/-!
What the edits a position leads to do to the visible elements: a split in place
(`split_node` in each of the modes `delete` and `apply_operation` reach it in), a delete of
one element of a run, and an insert between two nodes or between two elements of one
run. Each lemma computes the resulting nodes from the source's functions; the edits of
`LinearList` are then read off them.
-/

set_option autoImplicit false

namespace Flotsync.LinearData

namespace VecCoalescedLinearData

variable {Id E : Type} {s : VecCoalescedLinearData Id E}

open Node

/-- What a split leaves of an insert run before its element `d`. -/
def beforePart (node : Node' Id E) (value : List E) (d : ℕ) : List (Node' Id E) :=
  if 0 < d then [{ node with operation := .insert (value.take d) }] else []

/-- The part of an insert run from its element `c` on, as a split leaves it. -/
def pieceFrom (node : Node' Id E) (value : List E) (c : ℕ) : Node' Id E :=
  ⟨⟨node.id.id, node.id.index + c⟩, node.leftOrigin, node.rightOrigin, .insert (value.drop c)⟩

/-- What a split leaves of an insert run from its element `e` on. -/
def afterPart (node : Node' Id E) (value : List E) (e : ℕ) : List (Node' Id E) :=
  if e < value.length then [pieceFrom node value e] else []

/-- What deleting the elements `d ..= d + k - 1` of an insert run leaves of it: the rest
before them, their tombstone, and the rest after them. -/
def deletedPieces (node : Node' Id E) (value : List E) (d k : ℕ) : List (Node' Id E) :=
  beforePart node value d ++ ⟨⟨node.id.id, node.id.index + d⟩, node.leftOrigin,
    node.rightOrigin, .delete ((value.drop d).take k)⟩ :: afterPart node value (d + k)

theorem flatMap_shown_beforePart (node : Node' Id E) {value : List E} {d : ℕ}
    (hd : d ≤ value.length) : (beforePart node value d).flatMap shown = value.take d := by
  rcases Nat.eq_zero_or_pos d with rfl | h
  · simp [beforePart]
  · simp [beforePart, h, shown]

theorem flatMap_shown_afterPart (node : Node' Id E) (value : List E) (e : ℕ) :
    (afterPart node value e).flatMap shown = value.drop e := by
  by_cases h : e < value.length
  · simp [afterPart, h, shown, pieceFrom]
  · simp [afterPart, h, List.drop_of_length_le (Nat.le_of_not_lt h)]

theorem flatMap_shown_deletedPieces (node : Node' Id E) {value : List E} {d : ℕ}
    (hd : d ≤ value.length) (k : ℕ) :
    (deletedPieces node value d k).flatMap shown = value.take d ++ value.drop (d + k) := by
  simp [deletedPieces, flatMap_shown_beforePart node hd, flatMap_shown_afterPart, shown]

theorem shows_beforePart (node : Node' Id E) {value : List E} {d : ℕ} (hd : d ≤ value.length) :
    Shows (beforePart node value d) := by
  intro n hn
  by_cases h : 0 < d
  · simp only [beforePart, h, if_true, List.mem_singleton] at hn
    subst hn
    simp [getCurrentValue, ← List.length_eq_zero_iff]
    omega
  · simp [beforePart, h] at hn

theorem shows_afterPart (node : Node' Id E) (value : List E) (e : ℕ) :
    Shows (afterPart node value e) := by
  intro n hn
  by_cases h : e < value.length
  · simp only [afterPart, h, if_true, List.mem_singleton] at hn
    subst hn
    simp [getCurrentValue, pieceFrom, ← List.length_eq_zero_iff]
    omega
  · simp [afterPart, h] at hn

theorem shows_deletedPieces (node : Node' Id E) {value : List E} {d : ℕ}
    (hd : d ≤ value.length) (k : ℕ) : Shows (deletedPieces node value d k) := by
  intro n hn
  simp only [deletedPieces, List.mem_append, List.mem_cons] at hn
  rcases hn with hn | rfl | hn
  · exact shows_beforePart node hd n hn
  · simp [getCurrentValue]
  · exact shows_afterPart node value _ n hn

theorem splitNode_before_eq {k : ℕ} {node : Node' Id E} {value : List E}
    (hk : s.base.nodes[k]? = some node) (hop : node.operation = .insert value) {o : ℕ}
    (h0 : 0 < o) (ho : o < value.length) {m : SplitMode}
    (hm : m.resolve false (node.id.index + o == node.lastIndex) = some .before) :
    s.splitNode k (node.id.index + o) m = some (⟨s.len, ⟨s.base.len + 1, s.base.nodes.take k ++
      { node with operation := .insert (value.take o) } ::
        ⟨⟨node.id.id, node.id.index + o⟩, node.leftOrigin, node.rightOrigin, .insert (value.drop o)⟩ ::
          s.base.nodes.drop (k + 1)⟩⟩, k + 1) := by
  have hlt := (List.getElem?_eq_some_iff.1 hk).1
  have hlast : node.lastIndex = node.id.index + (value.length - 1) := by
    rw [lastIndex_eq]; simp [nodeLen, hop]
  have hzero : (o == 0) = false := by simp; omega
  have hle : ¬ ¬ node.id.index + o ≤ node.lastIndex := by rw [hlast]; omega
  have hpieces : splitPieces node (node.id.index + o) o .before =
      some ({ node with operation := .insert (value.take o) },
        ⟨⟨node.id.id, node.id.index + o⟩, node.leftOrigin, node.rightOrigin, .insert (value.drop o)⟩,
        none) := by
    simp [splitPieces, hop, Operation.splitOff, Composite.splitAt, ho]
  simp only [splitNode, hk, hle, if_false, Checked.sub_of_le (Nat.le_add_right _ _),
    Nat.add_sub_cancel_left, hzero, hm, Option.bind_eq_bind, Option.bind_some, hpieces,
    Option.pure_def, isDeleted, hop, Checked.set_insertIdx_eq hlt]
  simp

theorem splitNode_after_eq {k : ℕ} {node : Node' Id E} {value : List E}
    (hk : s.base.nodes[k]? = some node) (hop : node.operation = .insert value)
    (h1 : 1 < value.length) {m : SplitMode}
    (hm : m.resolve true (node.id.index == node.lastIndex) = some .after) :
    s.splitNode k node.id.index m = some (⟨s.len, ⟨s.base.len + 1, s.base.nodes.take k ++
      { node with operation := .insert (value.take 1) } ::
        ⟨⟨node.id.id, node.id.index + 1⟩, node.leftOrigin, node.rightOrigin, .insert (value.drop 1)⟩ ::
          s.base.nodes.drop (k + 1)⟩⟩, k) := by
  have hlt := (List.getElem?_eq_some_iff.1 hk).1
  have hlast : node.lastIndex = node.id.index + (value.length - 1) := by
    rw [lastIndex_eq]; simp [nodeLen, hop]
  have hle : ¬ ¬ node.id.index ≤ node.lastIndex := by rw [hlast]; omega
  have hpieces : splitPieces node node.id.index 0 .after =
      some ({ node with operation := .insert (value.take 1) },
        ⟨⟨node.id.id, node.id.index + 1⟩, node.leftOrigin, node.rightOrigin, .insert (value.drop 1)⟩,
        none) := by
    simp [splitPieces, hop, Operation.splitOff, Composite.splitAt, h1]
  simp only [splitNode, hk, hle, if_false, Checked.sub_of_le (Nat.le_refl _), Nat.sub_self,
    beq_self_eq_true, hm, Option.bind_eq_bind, Option.bind_some, hpieces, Option.pure_def,
    isDeleted, hop, Checked.set_insertIdx_eq hlt]
  simp

theorem splitNode_beforeAndAfter_eq {k : ℕ} {node : Node' Id E} {value : List E}
    (hk : s.base.nodes[k]? = some node) (hop : node.operation = .insert value) {o : ℕ}
    (h0 : 0 < o) (ho : o + 1 < value.length) :
    s.splitNode k (node.id.index + o) .beforeAndAfter = some (⟨s.len, ⟨s.base.len + 2,
      s.base.nodes.take k ++ { node with operation := .insert (value.take o) } ::
        ⟨⟨node.id.id, node.id.index + o⟩, node.leftOrigin, node.rightOrigin, .insert [value[o]]⟩ ::
          ⟨⟨node.id.id, node.id.index + o + 1⟩, node.leftOrigin, node.rightOrigin,
            .insert (value.drop (o + 1))⟩ :: s.base.nodes.drop (k + 1)⟩⟩, k + 1) := by
  have hlt := (List.getElem?_eq_some_iff.1 hk).1
  have hlast : node.lastIndex = node.id.index + (value.length - 1) := by
    rw [lastIndex_eq]; simp [nodeLen, hop]
  have hle : ¬ ¬ node.id.index + o ≤ node.lastIndex := by rw [hlast]; omega
  have hzero : (o == 0) = false := by simp; omega
  have hend : (node.id.index + o == node.lastIndex) = false := by simp [hlast]; omega
  have hpieces : splitPieces node (node.id.index + o) o .beforeAndAfter =
      some ({ node with operation := .insert (value.take o) },
        ⟨⟨node.id.id, node.id.index + o⟩, node.leftOrigin, node.rightOrigin, .insert [value[o]]⟩,
        some ⟨⟨node.id.id, node.id.index + o + 1⟩, node.leftOrigin, node.rightOrigin,
          .insert (value.drop (o + 1))⟩) := by
    have ho' : o < value.length := by omega
    have hrest : 1 < value.length - o := by omega
    have htake : (value.drop o).take 1 = [value[o]] := by
      rw [List.drop_eq_getElem_cons ho']
      rfl
    simp [splitPieces, hop, Operation.splitOff, Composite.splitAt, ho', hrest, htake,
      IdWithIndex.increment]
  simp only [splitNode, hk, hle, if_false, Checked.sub_of_le (Nat.le_add_right _ _),
    Nat.add_sub_cancel_left, hzero, hend, SplitMode.resolve, Bool.false_eq_true, Bool.and_false,
    if_false, Option.bind_eq_bind, Option.bind_some, hpieces, Option.pure_def, isDeleted, hop,
    Checked.set_insertIdx_eq hlt, Checked.insertIdx_take_pair_drop hlt]

/-- Splitting a run of more than one element around its element `o` leaves that element
alone in a node of its own, between what is left of the run before and after it. -/
theorem splitNode_isolate {k : ℕ} {node : Node' Id E} {value : List E}
    (hk : s.base.nodes[k]? = some node) (hop : node.operation = .insert value)
    (h1 : 1 < value.length) {o : ℕ} (ho : o < value.length) :
    s.splitNode k (node.id.index + o) .beforeAndAfter =
      some (⟨s.len, ⟨s.base.len + ((beforePart node value o).length +
          (afterPart node value (o + 1)).length),
        s.base.nodes.take k ++ beforePart node value o ++
          ⟨⟨node.id.id, node.id.index + o⟩, node.leftOrigin, node.rightOrigin, .insert [value[o]]⟩ ::
            afterPart node value (o + 1) ++ s.base.nodes.drop (k + 1)⟩⟩,
        k + (beforePart node value o).length) := by
  have hlast : node.lastIndex = node.id.index + (value.length - 1) := by
    rw [lastIndex_eq]; simp [nodeLen, hop]
  rcases Nat.eq_zero_or_pos o with rfl | h0
  · -- the first element: the run is cut after it
    have hm : SplitMode.beforeAndAfter.resolve true (node.id.index == node.lastIndex) =
        some .after := by
      have hend : (node.id.index == node.lastIndex) = false := by simp [hlast]; omega
      simp [hend, SplitMode.resolve]
    have hfirst : value.take 1 = [value[0]] := by
      rw [List.take_one, List.head?_eq_getElem?, List.getElem?_eq_getElem ho]
      rfl
    rw [Nat.add_zero, splitNode_after_eq hk hop h1 hm]
    simp [beforePart, afterPart, h1, pieceFrom, hfirst]
  · by_cases hend : o + 1 < value.length
    · -- inside the run: three pieces
      rw [splitNode_beforeAndAfter_eq hk hop h0 hend]
      simp [beforePart, afterPart, h0, hend, pieceFrom, Nat.add_assoc]
    · -- the last element: the run is cut before it
      have hlasto : o = value.length - 1 := by omega
      have hm : SplitMode.beforeAndAfter.resolve false (node.id.index + o == node.lastIndex) =
          some .before := by
        simp [hlast, hlasto, SplitMode.resolve]
      have hdrop : value.drop o = [value[o]] := by
        rw [List.drop_eq_getElem_cons ho, List.drop_of_length_le (by omega)]
      rw [splitNode_before_eq hk hop h0 ho hm, hdrop]
      simp [beforePart, afterPart, h0, hend]

/-- Splicing `vs` into the visible values where the nodes before `j` end. -/
theorem splice_flatMap_shown (nodes : List (Node' Id E)) (j : ℕ) (vs : List E) :
    (nodes.flatMap shown).take ((nodes.take j).flatMap shown).length ++ vs ++
        (nodes.flatMap shown).drop ((nodes.take j).flatMap shown).length =
      (nodes.take j).flatMap shown ++ vs ++ (nodes.drop j).flatMap shown := by
  have hsplit : nodes.flatMap shown = (nodes.take j).flatMap shown ++ (nodes.drop j).flatMap shown := by
    rw [← List.flatMap_append, List.take_append_drop]
  rw [hsplit, List.take_left' rfl, List.drop_left' rfl]

variable [DecidableEq Id]

omit [DecidableEq Id] in
theorem getElem?_take_append_cons {k : ℕ} (hk : k < s.base.nodes.length)
    (pre post : List (Node' Id E)) (mid : Node' Id E) :
    (s.base.nodes.take k ++ pre ++ mid :: post ++ s.base.nodes.drop (k + 1))[k + pre.length]? =
      some mid := by
  have hl : (s.base.nodes.take k ++ pre).length = k + pre.length := by simp; omega
  rw [List.getElem?_append_left (by simp; omega), ← hl, List.getElem?_append_right (le_refl _)]
  simp

/-- Deleting the element `o` of an insert run: `delete` finds the run, isolates the
element and tombstones it. -/
theorem Inv.delete_eq (hs : Inv s) {k : ℕ} {node : Node' Id E} {value : List E}
    (hk : s.base.nodes[k]? = some node) (hop : node.operation = .insert value) {o : ℕ}
    (ho : o < value.length) :
    ∃ s', s.delete ⟨node.id.id, node.id.index + o⟩ = some (some (value[o], s')) ∧
      s'.base.nodes = s.base.nodes.take k ++ deletedPieces node value o 1 ++
        s.base.nodes.drop (k + 1) := by
  have hlt := (List.getElem?_eq_some_iff.1 hk).1
  have hfind := findFrom_contains hs.disjoint hk
    (contains_offset (by simp [nodeLen, hop]; exact ho)) (Nat.zero_le k)
  -- the counts hold the element: the run is visible and is an insert node
  have hsplitk := Checked.eq_take_cons_drop hk
  have hcount : value.length ≤ s.len ∧ 1 ≤ s.base.len := by
    rw [hs.len_eq_length, hs.base.len, hsplitk]
    simp [List.countP_append, shown_of_insert hop, hop, Operation.isInsert]
    omega
  have htake : (value.drop o).take 1 = [value[o]] := by
    rw [List.drop_eq_getElem_cons ho]
    rfl
  by_cases h1 : 1 < value.length
  · have hj := getElem?_take_append_cons hlt (beforePart node value o)
      (afterPart node value (o + 1))
      ⟨⟨node.id.id, node.id.index + o⟩, node.leftOrigin, node.rightOrigin, .insert [value[o]]⟩
    have hjlt := (List.getElem?_eq_some_iff.1 hj).1
    refine ⟨⟨s.len - 1, ⟨s.base.len + ((beforePart node value o).length +
        (afterPart node value (o + 1)).length) - 1,
      (s.base.nodes.take k ++ beforePart node value o ++
        ⟨⟨node.id.id, node.id.index + o⟩, node.leftOrigin, node.rightOrigin, .insert [value[o]]⟩ ::
          afterPart node value (o + 1) ++ s.base.nodes.drop (k + 1)).set
        (k + (beforePart node value o).length)
        ⟨⟨node.id.id, node.id.index + o⟩, node.leftOrigin, node.rightOrigin, .delete [value[o]]⟩⟩⟩,
      ?_, ?_⟩
    · simp only [VecCoalescedLinearData.delete, hfind, hop, decide_eq_true h1, if_true,
        Option.bind_eq_bind, splitNode_isolate hk hop h1 ho, Option.bind_some, hj,
        List.length_singleton, ne_eq, not_true_eq_false, if_false, Checked.set_of_lt _ hjlt,
        Checked.sub_of_le (by omega : 1 ≤ s.len),
        Checked.sub_of_le (by omega : 1 ≤ s.base.len + ((beforePart node value o).length +
          (afterPart node value (o + 1)).length))]
      rfl
    · have hl : (s.base.nodes.take k ++ beforePart node value o).length =
          k + (beforePart node value o).length := by simp; omega
      rw [← hl]
      simp [List.set_append_right, deletedPieces, htake]
  · -- a run of one element becomes its tombstone
    obtain ⟨e, rfl⟩ : ∃ e, value = [e] := List.length_eq_one_iff.1 (by omega)
    obtain rfl : o = 0 := by simpa using ho
    refine ⟨⟨s.len - 1, ⟨s.base.len - 1, s.base.nodes.set k { node with operation := .delete [e] }⟩⟩,
      ?_, ?_⟩
    · simp only [VecCoalescedLinearData.delete, hfind, hop, Option.bind_eq_bind, hk,
        Option.bind_some, List.length_singleton, ne_eq, not_true_eq_false, if_false,
        Checked.set_of_lt _ hlt, Checked.sub_of_le (by simpa using hcount.1),
        Checked.sub_of_le hcount.2]
      rfl
    · simp [List.set_eq_take_append_cons_drop, hlt, deletedPieces, beforePart, afterPart]

theorem Sound.delete (hs : Sound s) {id : IdWithIndex Id} {e : E} {s' : VecCoalescedLinearData Id E}
    (hdel : s.delete id = some (some (e, s'))) : Sound s' :=
  ⟨hs.inv.delete hdel, hs.addressable.delete hdel⟩

/-- A state holds both boundaries, so at least two nodes. -/
theorem Inv.two_le_length (hs : Inv s) : 2 ≤ s.base.nodes.length := by
  obtain ⟨b, hb, hbb⟩ := hs.base.first
  obtain ⟨e, he, hee⟩ := hs.base.last
  rcases hn : s.base.nodes with _ | ⟨n, _ | ⟨m, rest⟩⟩
  · simp [hn] at hb
  · -- one node would be both the beginning and the end
    simp only [hn, List.head?_cons, Option.some.injEq, List.getLast?_singleton] at hb he
    subst hb he
    cases hop : n.operation <;> simp_all [Operation.isBeginning, Operation.isEnd]
  · simp

omit [DecidableEq Id] in
/-- A boundary holds only its own id. -/
theorem lastId_of_not_run {n : Node' Id E} (h : n.nodeLen = 0) : n.lastId = n.id := by
  simp [lastId, lastIndex, h]

/-- `ids_after_head`: the beginning node, which shows nothing, and the node after it. -/
theorem Inv.idsAfterHead_eq (hs : Inv s) :
    ∃ head next, s.base.nodes[1 - 1]? = some head ∧ s.base.nodes[1]? = some next ∧
      head.shown = [] ∧ s.idsAfterHead = some ⟨head.lastId, next.id⟩ := by
  obtain ⟨b, hb, hbb⟩ := hs.base.first
  have h2 := hs.two_le_length
  have h0 : s.base.nodes[0]? = some b := by rwa [List.head?_eq_getElem?] at hb
  have hop : b.operation = .beginning := by
    cases hop : b.operation <;> simp_all [Operation.isBeginning]
  obtain ⟨next, hnext⟩ : ∃ next, s.base.nodes[1]? = some next :=
    ⟨_, List.getElem?_eq_getElem (by omega)⟩
  refine ⟨b, next, h0, hnext, by simp [shown, hop], ?_⟩
  rw [lastId_of_not_run (by simp [nodeLen, hop])]
  simp [idsAfterHead, h0, hnext]

/-- `ids_before_end`: the node before the end and the end node, which shows nothing. -/
theorem Inv.idsBeforeEnd_eq (hs : Inv s) :
    ∃ last endNode, s.base.nodes[s.base.nodes.length - 1 - 1]? = some last ∧
      s.base.nodes[s.base.nodes.length - 1]? = some endNode ∧ endNode.shown = [] ∧
      s.idsBeforeEnd = some ⟨last.lastId, endNode.id⟩ := by
  obtain ⟨e, he, hee⟩ := hs.base.last
  have h2 := hs.two_le_length
  have hend : s.base.nodes[s.base.nodes.length - 1]? = some e := by
    rwa [List.getLast?_eq_getElem?] at he
  obtain ⟨last, hlast⟩ : ∃ last, s.base.nodes[s.base.nodes.length - 1 - 1]? = some last :=
    ⟨_, List.getElem?_eq_getElem (by omega)⟩
  refine ⟨last, e, hlast, hend, shown_of_not_insert ?_, ?_⟩
  · cases hop : e.operation <;> simp_all [Operation.isEnd, Operation.isInsert]
  · have hsub : Checked.sub s.base.nodes.length 2 = some (s.base.nodes.length - 1 - 1) := by
      rw [Checked.sub_of_le h2]
      congr 1
    have hend' : s.base.nodes[s.base.nodes.length - 1 - 1 + 1]? = some e := by
      rwa [show s.base.nodes.length - 1 - 1 + 1 = s.base.nodes.length - 1 by omega]
    simp [idsBeforeEnd, hsub, hlast, hend']

theorem heldIds_of_runs {P : IdWithIndex Id → Prop}
    (h : ∀ n ∈ s.base.nodes, ∀ k < max n.nodeLen 1, P ⟨n.id.id, n.id.index + k⟩) : HeldIds P s := by
  intro n hn x hx
  obtain ⟨k, hk, rfl⟩ := contains_run hx
  exact h n hn k hk

/-- Ids on a base id that no node's ids are on are fresh. -/
theorem HeldIds.fresh {U : List Id} (h : HeldIds (·.id ∈ U) s) {id : IdWithIndex Id}
    (hid : id.id ∉ U) (count : ℕ) : s.Fresh id count := by
  intro n hn k _
  cases hc : n.contains ⟨id.id, id.index + k⟩
  · rfl
  · exact absurd (h n hn _ hc) hid

/-- A constructor gives a sound state whose nodes hold only ids of the initial id and
that shows the initial values. -/
theorem withValue_spec {initialId : Id} {initialValue : List E}
    (h : withValue initialId initialValue = some s) :
    s.Sound ∧ HeldIds (·.id = initialId) s ∧ s.iterValues = some initialValue := by
  have hinv := inv_withValue h
  unfold withValue at h
  split at h
  · -- no values: the two boundaries
    rename_i hempty
    cases h
    obtain rfl : initialValue = [] := List.isEmpty_iff.1 hempty
    refine ⟨⟨hinv, heldIds_of_runs ?_⟩, heldIds_of_runs ?_, rfl⟩ <;>
      simp [new, nodeLen, IdWithIndex.zero, IdWithIndex.increment, maxIndex]
  · dsimp only at h
    split at h
    · cases h
    split at h
    · cases h
    rename_i hempty _ _ endId hend
    cases h
    have hpos : 0 < initialValue.length := by
      cases initialValue with
      | nil => simp at hempty
      | cons => simp
    unfold IdWithIndex.checkedNextAfter at hend
    split at hend
    · rename_i hfit
      cases hend
      -- the beginning at index 0, the values from 1, and the end just after them
      refine ⟨⟨hinv, heldIds_of_runs ?_⟩, heldIds_of_runs ?_, ?_⟩
      · simp only [List.mem_cons, List.not_mem_nil, or_false]
        rintro n (rfl | rfl | rfl) k hk
        · simp_all [nodeLen, IdWithIndex.zero]
        · simp_all [nodeLen, IdWithIndex.zero, IdWithIndex.increment]
          omega
        · simp_all [nodeLen]
      · simp only [List.mem_cons, List.not_mem_nil, or_false]
        rintro n (rfl | rfl | rfl) k hk <;> rfl
      · refine collectValues_eq_some_iff.2 ⟨?_, by simp [shown]⟩
        simp [Shows, getCurrentValue, List.ne_nil_of_length_pos hpos]
    · cases hend

/-- Deleting the element `o` of a run removes its position from the visible values. -/
theorem Inv.delete_values (hs : Inv s) (hshows : Shows s.base.nodes) {k : ℕ} {node : Node' Id E}
    {value : List E} (hk : s.base.nodes[k]? = some node) (hop : node.operation = .insert value)
    {o : ℕ} (ho : o < value.length) :
    ∃ s', s.delete ⟨node.id.id, node.id.index + o⟩ = some (some (value[o], s')) ∧
      s'.iterValues = some ((s.base.nodes.flatMap shown).eraseIdx
        (((s.base.nodes.take k).flatMap shown).length + o)) ∧
      (s.base.nodes.flatMap shown)[((s.base.nodes.take k).flatMap shown).length + o]? =
        some value[o] := by
  obtain ⟨s', hdel, hnodes'⟩ := hs.delete_eq hk hop ho
  have hpieces : (deletedPieces node value o 1).flatMap shown = value.eraseIdx o := by
    rw [flatMap_shown_deletedPieces node ho.le, List.eraseIdx_eq_take_drop_succ]
  have hnodes := Checked.eq_take_cons_drop hk
  have hxs : s.base.nodes.flatMap shown = (s.base.nodes.take k).flatMap shown ++
      (value ++ (s.base.nodes.drop (k + 1)).flatMap shown) := by
    conv_lhs => rw [hnodes]
    simp [shown_of_insert hop]
  refine ⟨s', hdel, ?_, ?_⟩
  · rw [hxs, List.eraseIdx_append_of_length_le (by omega), Nat.add_sub_cancel_left,
      List.eraseIdx_append_of_lt_length ho]
    refine collectValues_eq_some_iff.2 ⟨?_, by simp [hnodes', hpieces]⟩
    intro n hn
    rw [hnodes'] at hn
    simp only [List.mem_append] at hn
    rcases hn with (hn | hn) | hn
    · exact hshows n (List.mem_of_mem_take hn)
    · exact shows_deletedPieces node ho.le 1 n hn
    · exact hshows n (List.mem_of_mem_drop hn)
  · rw [hxs, List.getElem?_append_right (by omega), Nat.add_sub_cancel_left,
      List.getElem?_append_left ho]
    exact List.getElem?_eq_getElem ho

section Apply

variable {Id : Type} [LinearOrder Id] {s : VecCoalescedLinearData Id E}

/-- An insert anchored at the last id of a node and the id of the node after it goes in
between the two. -/
theorem Inv.applyOperation_insert_between (hs : Inv s) {k : ℕ} {left right : Node' Id E}
    (hl : s.base.nodes[k]? = some left) (hr : s.base.nodes[k + 1]? = some right)
    {id : IdWithIndex Id} {vs : List E} (hid : id.canAddress vs.length = true) :
    s.applyOperation (.insert id left.lastId right.id vs) =
      some (.ok ⟨s.len + vs.length, ⟨s.base.len + 1, s.base.nodes.insertIdx (k + 1)
        ⟨id, some left.lastId, some right.id, .insert vs⟩⟩⟩) := by
  have hrlt := (List.getElem?_eq_some_iff.1 hr).1
  have hpred := findFrom_contains hs.disjoint hl (contains_lastId left) (Nat.zero_le k)
  have hsucc := findFrom_contains hs.disjoint hr (contains_id right) (Nat.le_succ k)
  -- the two nodes hold no id in common, so the left one does not hold the right one's id
  have hnot : left.contains right.id = false := by
    obtain ⟨hklt, rfl⟩ := List.getElem?_eq_some_iff.1 hl
    obtain ⟨-, rfl⟩ := List.getElem?_eq_some_iff.1 hr
    have hdisj := List.pairwise_iff_getElem.1 hs.disjoint k (k + 1) hklt hrlt (Nat.lt_succ_self k)
    cases hc : s.base.nodes[k].contains s.base.nodes[k + 1].id
    · rfl
    · have := hdisj _ hc
      rw [contains_id] at this
      cases this
  simp [VecCoalescedLinearData.applyOperation, hid, hpred, hnot, hsucc,
    VecCoalescedLinearData.insertNodeAt, Checked.insert_of_le _ hrlt.le]

/-- An insert anchored at two neighbouring elements of one run splits the run between
them and puts the new node in the gap. -/
theorem Sound.applyOperation_insert_inside (hs : Sound s) {k : ℕ} {node : Node' Id E}
    {value : List E} (hk : s.base.nodes[k]? = some node) (hop : node.operation = .insert value)
    {o : ℕ} (h0 : 0 < o) (ho : o < value.length) {id : IdWithIndex Id} {vs : List E}
    (hid : id.canAddress vs.length = true) :
    s.applyOperation
        (.insert id ⟨node.id.id, node.id.index + o - 1⟩ ⟨node.id.id, node.id.index + o⟩ vs) =
      some (.ok ⟨s.len + vs.length, ⟨s.base.len + 1 + 1, s.base.nodes.take k ++
        { node with operation := .insert (value.take o) } ::
          ⟨id, some ⟨node.id.id, node.id.index + o - 1⟩, some ⟨node.id.id, node.id.index + o⟩,
            .insert vs⟩ ::
          ⟨⟨node.id.id, node.id.index + o⟩, node.leftOrigin, node.rightOrigin,
            .insert (value.drop o)⟩ :: s.base.nodes.drop (k + 1)⟩⟩) := by
  have hlt := (List.getElem?_eq_some_iff.1 hk).1
  have hlen : node.nodeLen = value.length := by simp [nodeLen, hop]
  have hpredEq : (⟨node.id.id, node.id.index + o - 1⟩ : IdWithIndex Id) =
      ⟨node.id.id, node.id.index + (o - 1)⟩ := by
    congr 1
    omega
  have hpredIn : node.contains ⟨node.id.id, node.id.index + o - 1⟩ = true := by
    rw [hpredEq]
    exact contains_offset (by omega)
  have hsuccIn : node.contains ⟨node.id.id, node.id.index + o⟩ = true := contains_offset (by omega)
  have hpred := findFrom_contains hs.inv.disjoint hk hpredIn (Nat.zero_le k)
  -- the successor's index fits in a u32, so the predecessor is followed by it
  have haddr : node.id.index + o ≤ maxIndex :=
    hs.addressable node (List.mem_of_getElem? hk) _ hsuccIn
  have hfollow : IdWithIndex.isFollowedBy ⟨node.id.id, node.id.index + o - 1⟩
      ⟨node.id.id, node.id.index + o⟩ = true := by
    simp [IdWithIndex.isFollowedBy]
    omega
  have hsplit := splitNode_before_eq (s := s) hk hop h0 ho (m := .before) rfl
  have hl : (s.base.nodes.take k ++ [{ node with operation := .insert (value.take o) }]).length =
      k + 1 := by
    simp only [List.length_append, List.length_take, List.length_singleton]
    omega
  have hins := Checked.insertIdx_append_length
    (s.base.nodes.take k ++ [{ node with operation := .insert (value.take o) }])
    (⟨⟨node.id.id, node.id.index + o⟩, node.leftOrigin, node.rightOrigin, .insert (value.drop o)⟩ ::
      s.base.nodes.drop (k + 1))
    (⟨id, some ⟨node.id.id, node.id.index + o - 1⟩, some ⟨node.id.id, node.id.index + o⟩,
      .insert vs⟩ : Node' Id E)
  rw [hl] at hins
  simp only [List.append_assoc, List.singleton_append] at hins
  have hle : k + 1 ≤ (s.base.nodes.take k ++ { node with operation := .insert (value.take o) } ::
      (⟨⟨node.id.id, node.id.index + o⟩, node.leftOrigin, node.rightOrigin,
        .insert (value.drop o)⟩ : Node' Id E) :: s.base.nodes.drop (k + 1)).length := by
    simp
    omega
  simp [VecCoalescedLinearData.applyOperation, hid, hpred, hsuccIn, hfollow, hsplit,
    VecCoalescedLinearData.insertNodeAt, Checked.insert_of_le _ hle, hins]

theorem HeldIds.applyOperation_insert {P : IdWithIndex Id → Prop}
    {s' : VecCoalescedLinearData Id E} (h : HeldIds P s) {id pred succ : IdWithIndex Id}
    {vs : List E} (happ : s.applyOperation (.insert id pred succ vs) = some (.ok s'))
    (hnew : ∀ k < max vs.length 1, P ⟨id.id, id.index + k⟩) : HeldIds P s' := by
  have hnode : ∀ k < max (⟨id, some pred, some succ, .insert vs⟩ : Node' Id E).nodeLen 1,
      P ⟨id.id, id.index + k⟩ := by
    simpa [nodeLen] using hnew
  rcases applyOperation_eq_ok happ with ⟨id', pred', succ', value', hop, hcases⟩ |
    ⟨start, «end», hop, -⟩ | ⟨start, e, hop, -⟩
  · simp only [DataOperation.insert.injEq] at hop
    obtain ⟨rfl, rfl, rfl, rfl⟩ := hop
    rcases hcases with ⟨i, s₁, j, hsplit, hins⟩ | ⟨p, -, -, hins⟩
    · exact (h.splitNode hsplit).insertNodeAt hins hnode
    · exact h.insertNodeAt hins hnode
  · cases hop
  · cases hop

/-- An insert of a non-empty run on fresh ids that fit in a `u32` keeps a state sound. -/
theorem Sound.applyOperation_insert (hs : Sound s) {s' : VecCoalescedLinearData Id E}
    {id pred succ : IdWithIndex Id} {vs : List E} (hfresh : s.Fresh id vs.length)
    (hid : id.canAddress vs.length = true) (hne : vs ≠ [])
    (happ : s.applyOperation (.insert id pred succ vs) = some (.ok s')) : Sound s' := by
  have hf : s.FreshOperation (.insert id pred succ vs) := hfresh
  refine ⟨hs.inv.applyOperation hf happ, hs.addressable.applyOperation_insert happ ?_⟩
  intro k hk
  have hpos := List.length_pos_of_ne_nil hne
  rw [Nat.max_eq_left hpos] at hk
  simp only [IdWithIndex.canAddress, Bool.or_eq_true, beq_iff_eq, decide_eq_true_eq] at hid
  show id.index + k ≤ maxIndex
  omega

/-- An insert between the nodes `j - 1` and `j` splices a non-empty chunk into the visible
values where the nodes before `j` end. -/
theorem Inv.applyOperation_insert_before (hs : Inv s) (hshows : Shows s.base.nodes) {j : ℕ}
    {left right : Node' Id E} (hl : s.base.nodes[j - 1]? = some left)
    (hr : s.base.nodes[j]? = some right) (hj : 0 < j) {id : IdWithIndex Id} {vs : List E}
    (hid : id.canAddress vs.length = true) (hne : vs ≠ []) :
    ∃ s', s.applyOperation (.insert id left.lastId right.id vs) = some (.ok s') ∧
      s'.iterValues = some ((s.base.nodes.flatMap shown).take
          ((s.base.nodes.take j).flatMap shown).length ++ vs ++
        (s.base.nodes.flatMap shown).drop ((s.base.nodes.take j).flatMap shown).length) := by
  have hr' : s.base.nodes[j - 1 + 1]? = some right := by rwa [Nat.sub_add_cancel hj]
  have hjle : j ≤ s.base.nodes.length := (List.getElem?_eq_some_iff.1 hr).1.le
  have hnew : (⟨id, some left.lastId, some right.id, .insert vs⟩ : Node' Id E).getCurrentValue ≠
      some [] := by
    simpa [getCurrentValue] using hne
  refine ⟨_, hs.applyOperation_insert_between hl hr' hid, ?_⟩
  rw [Nat.sub_add_cancel hj, splice_flatMap_shown]
  refine collectValues_eq_some_iff.2 ⟨hshows.insertIdx hjle hnew, ?_⟩
  rw [flatMap_shown_insertIdx hjle]
  simp [shown]

/-- An insert between two neighbouring elements of a run splices a chunk into the visible
values between them. -/
theorem Sound.applyOperation_insert_inside_values (hs : Sound s) (hshows : Shows s.base.nodes)
    {k : ℕ} {node : Node' Id E} {value : List E} (hk : s.base.nodes[k]? = some node)
    (hop : node.operation = .insert value) {o : ℕ} (h0 : 0 < o) (ho : o < value.length)
    {id : IdWithIndex Id} {vs : List E} (hid : id.canAddress vs.length = true) (hne : vs ≠ []) :
    ∃ s', s.applyOperation
        (.insert id ⟨node.id.id, node.id.index + o - 1⟩ ⟨node.id.id, node.id.index + o⟩ vs) =
        some (.ok s') ∧
      s'.iterValues = some ((s.base.nodes.flatMap shown).take
          (((s.base.nodes.take k).flatMap shown).length + o) ++ vs ++
        (s.base.nodes.flatMap shown).drop (((s.base.nodes.take k).flatMap shown).length + o)) := by
  refine ⟨_, hs.applyOperation_insert_inside hk hop h0 ho hid, ?_⟩
  have hnodes := Checked.eq_take_cons_drop hk
  have hxs : s.base.nodes.flatMap shown = (s.base.nodes.take k).flatMap shown ++
      (value ++ (s.base.nodes.drop (k + 1)).flatMap shown) := by
    conv_lhs => rw [hnodes]
    simp [shown_of_insert hop]
  rw [hxs, List.take_length_add_append, List.drop_length_add_append,
    List.take_append_of_le_length ho.le, List.drop_append_of_le_length ho.le]
  refine collectValues_eq_some_iff.2 ⟨?_, by simp [shown]⟩
  intro n hn
  simp only [List.mem_append, List.mem_cons] at hn
  rcases hn with hn | rfl | rfl | rfl | hn
  · exact hshows n (List.mem_of_mem_take hn)
  · simp [getCurrentValue, ← List.length_eq_zero_iff]
    omega
  · simpa [getCurrentValue] using hne
  · simp [getCurrentValue, ← List.length_eq_zero_iff]
    omega
  · exact hshows n (List.mem_of_mem_drop hn)

end Apply

end VecCoalescedLinearData

end Flotsync.LinearData
