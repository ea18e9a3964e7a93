import Flotsync.LinearData.Split
import Flotsync.LinearData.VecIntegrity

/-!
What `validate_integrity` checks, as an invariant of `VecCoalescedLinearData`: that
of the base vector, the cached count of visible elements, and no element id held
by two nodes. Every mutator replaces one node by the pieces of a split or by its
tombstone, or puts a new node strictly between the boundaries, and one frame lemma
(`Inv.replace`) carries the invariant over each of them. A new node must take ids
that no node holds (`Fresh`): nothing in the code checks this, the replicas' id
generators provide it.
-/

set_option autoImplicit false

namespace Flotsync.LinearData

namespace Node

variable {Id E : Type} [DecidableEq Id]

/-- A node that holds only ids of `t` holds none of the ids of a node disjoint from `t`. -/
theorem Disjoint.mono_right {a t b : VecCoalescedLinearData.Node' Id E} (h : Disjoint a t)
    (hb : ∀ x, b.contains x = true → t.contains x = true) : Disjoint a b := by
  intro x hax
  cases hbx : b.contains x
  · rfl
  · have hx := h x hax
    rw [hb x hbx] at hx
    cases hx

/-- The nodes around `t` in a list of pairwise disjoint nodes are disjoint from it. -/
theorem disjoint_of_mem_around {pre post : List (VecCoalescedLinearData.Node' Id E)}
    {t a : VecCoalescedLinearData.Node' Id E} (h : (pre ++ t :: post).Pairwise Disjoint)
    (ha : a ∈ pre ++ post) : Disjoint a t := by
  rw [List.pairwise_append, List.pairwise_cons] at h
  rcases List.mem_append.1 ha with ha | ha
  · exact h.2.2 a ha t List.mem_cons_self
  · exact (h.2.1.1 a ha).symm

end Node

namespace VecCoalescedLinearData

variable {Id E : Type}

theorem visibleLen_eq_sum (nodes : List (Node' Id E)) :
    visibleLen nodes = (nodes.map Node.visible).sum := by
  induction nodes with
  | nil => rfl
  | cons n nodes ih =>
    unfold visibleLen at ih ⊢
    cases h : n.operation <;> simp [h, ih, Node.visible]

section Invariant

variable [DecidableEq Id]

structure Inv (s : VecCoalescedLinearData Id E) : Prop where
  base : s.base.Inv
  len : s.len = (s.base.nodes.map Node.visible).sum
  disjoint : s.base.nodes.Pairwise Node.Disjoint

theorem duplicateId_eq_none {nodes : List (Node' Id E)} (h : nodes.Pairwise Node.Disjoint) :
    duplicateId nodes = none := by
  unfold duplicateId
  simp only [List.findSome?_eq_none_iff, List.mem_range, List.mem_range'_1]
  intro l hl r hr
  have hlt : l < r := hr.1
  have hrl : r < nodes.length := by omega
  simp only [List.getElem?_eq_getElem hl, List.getElem?_eq_getElem hrl]
  have hd := List.pairwise_iff_getElem.1 h l r hl hrl hlt
  have hany : (nodes[l].ids.any fun x => nodes[r].contains x) = false := by
    rw [List.any_eq_false]
    intro x hx
    rw [Node.mem_ids_iff] at hx
    simp [hd x hx]
  simp [hany]

theorem Inv.validateIntegrity_eq_ok {s : VecCoalescedLinearData Id E} (hs : Inv s) :
    s.validateIntegrity = .ok () := by
  simp [VecCoalescedLinearData.validateIntegrity, hs.base.validateIntegrity_eq_ok,
    visibleLen_eq_sum, hs.len, duplicateId_eq_none hs.disjoint]

/-- Replacing a stretch `mid` strictly inside the nodes by `mid'` keeps the
invariant when both counts follow the change and the new nodes hold no id that
another node holds. -/
theorem Inv.replace {s s' : VecCoalescedLinearData Id E} (hs : Inv s)
    {pre mid mid' post : List (Node' Id E)} (hn : s.base.nodes = pre ++ mid ++ post)
    (hn' : s'.base.nodes = pre ++ mid' ++ post) (hpre : pre ≠ []) (hpost : post ≠ [])
    (hcount : s'.base.len + mid.countP (·.operation.isInsert) =
      s.base.len + mid'.countP (·.operation.isInsert))
    (hvis : s'.len + (mid.map Node.visible).sum = s.len + (mid'.map Node.visible).sum)
    (hdisj : mid'.Pairwise Node.Disjoint)
    (hcross : ∀ a ∈ pre ++ post, ∀ b ∈ mid', Node.Disjoint a b) : Inv s' := by
  have hd := hs.disjoint
  rw [hn, List.append_assoc, List.pairwise_append, List.pairwise_append] at hd
  obtain ⟨hdpre, ⟨-, hdpost, -⟩, hdcross⟩ := hd
  refine ⟨hs.base.replace hn hn' hpre hpost hcount, ?_, ?_⟩
  · have h₁ := hs.len
    rw [hn] at h₁
    rw [hn']
    simp only [List.map_append, List.sum_append] at h₁ ⊢
    omega
  · rw [hn', List.append_assoc, List.pairwise_append, List.pairwise_append]
    refine ⟨hdpre, ⟨hdisj, hdpost, fun a ha b hb =>
      (hcross b (List.mem_append_right _ hb) a ha).symm⟩, fun a ha b hb => ?_⟩
    rcases List.mem_append.1 hb with hb | hb
    · exact hcross a (List.mem_append_left _ ha) b hb
    · exact hdcross a ha b (List.mem_append_right _ hb)

/-- Replacing a node that is no boundary by pieces that hold only its ids. -/
theorem Inv.replaceAt {s s' : VecCoalescedLinearData Id E} (hs : Inv s) {i : ℕ}
    {n : Node' Id E} {pieces : List (Node' Id E)} (hi : s.base.nodes[i]? = some n)
    (hb : n.operation.isBeginning = false) (he : n.operation.isEnd = false)
    (hn' : s'.base.nodes = s.base.nodes.take i ++ pieces ++ s.base.nodes.drop (i + 1))
    (hcount : s'.base.len + (if n.operation.isInsert then 1 else 0) =
      s.base.len + pieces.countP (·.operation.isInsert))
    (hvis : s'.len + n.visible = s.len + (pieces.map Node.visible).sum)
    (hdisj : pieces.Pairwise Node.Disjoint)
    (hholds : ∀ p ∈ pieces, ∀ x, p.contains x = true → n.contains x = true) : Inv s' := by
  obtain ⟨hpre, hpost⟩ := hs.base.around_ne_nil hi hb he
  have hsplit := Checked.eq_take_cons_drop hi
  have hn : s.base.nodes = s.base.nodes.take i ++ [n] ++ s.base.nodes.drop (i + 1) := by
    simpa using hsplit
  refine hs.replace hn hn' hpre hpost (by simpa [List.countP_singleton] using hcount)
    (by simpa using hvis) hdisj fun a ha b hb => ?_
  have hd := hs.disjoint
  rw [hsplit] at hd
  exact (Node.disjoint_of_mem_around hd ha).mono_right (hholds b hb)

/-- Putting a new insert node strictly between the boundaries, where it holds no id
of another node. -/
theorem Inv.insertAt {s : VecCoalescedLinearData Id E} (hs : Inv s) {p : ℕ} (hp : 0 < p)
    (hlt : p < s.base.nodes.length) {node : Node' Id E} {value : List E}
    (hop : node.operation = .insert value) (hfresh : ∀ n ∈ s.base.nodes, Node.Disjoint node n) :
    Inv ⟨s.len + value.length, ⟨s.base.len + 1, s.base.nodes.insertIdx p node⟩⟩ := by
  have htake : s.base.nodes.take p ≠ [] := by
    rw [Ne, List.take_eq_nil_iff]
    rintro (h | h)
    · omega
    · simp [h] at hlt
  have hdrop : s.base.nodes.drop p ≠ [] := by
    rw [Ne, List.drop_eq_nil_iff]
    omega
  have hn : s.base.nodes = s.base.nodes.take p ++ [] ++ s.base.nodes.drop p := by simp
  have hn' : s.base.nodes.insertIdx p node = s.base.nodes.take p ++ [node] ++ s.base.nodes.drop p := by
    simp [Checked.insertIdx_eq_take_drop (Nat.le_of_lt hlt)]
  refine hs.replace hn hn' htake hdrop (by simp [hop, Operation.isInsert])
    (by simp [hop, Node.visible]) (List.pairwise_singleton _ _) fun a ha b hb => ?_
  rw [List.mem_singleton] at hb
  subst hb
  have ha' : a ∈ s.base.nodes := by
    rw [hn]
    simpa using ha
  exact (hfresh a ha').symm

/-- No node holds one of the ids that a run of `count` elements from `id` takes
(the id itself for an empty run). -/
def Fresh (s : VecCoalescedLinearData Id E) (id : IdWithIndex Id) (count : ℕ) : Prop :=
  ∀ n ∈ s.base.nodes, ∀ k < max count 1, n.contains ⟨id.id, id.index + k⟩ = false

/-- A new insert node on fresh ids is disjoint from every node. -/
theorem Fresh.disjoint {s : VecCoalescedLinearData Id E} {id : IdWithIndex Id} {value : List E}
    (h : s.Fresh id value.length) {node : Node' Id E} (hid : node.id = id)
    (hop : node.operation = .insert value) : ∀ n ∈ s.base.nodes, Node.Disjoint node n := by
  intro n hn x hx
  subst hid
  have hlen : node.nodeLen = value.length := by simp [Node.nodeLen, hop]
  rw [Node.contains_iff, Node.lastIndex_eq, hlen] at hx
  obtain ⟨h₁, h₂, h₃⟩ := hx
  have hx : x = ⟨node.id.id, node.id.index + (x.index - node.id.index)⟩ := by
    obtain ⟨b, k⟩ := x
    simp only at h₁ h₂ ⊢
    rw [h₁]
    congr
    omega
  rw [hx]
  exact h n hn _ (by omega)

/-- Every node after a split holds only ids that a node held before. -/
theorem splitNode_contains {s s' : VecCoalescedLinearData Id E} {i k j : ℕ} {m : SplitMode}
    (h : s.splitNode i k m = some (s', j)) :
    ∀ n' ∈ s'.base.nodes, ∀ x, n'.contains x = true → ∃ n ∈ s.base.nodes, n.contains x = true := by
  obtain ⟨target, pieces, hi, hsplit, -, -, -, -, -, -, hnodes, -⟩ := splitNode_eq_some h
  intro n' hn' x hx
  rw [hnodes, List.mem_append, List.mem_append] at hn'
  rcases hn' with (hn' | hn') | hn'
  · exact ⟨n', List.mem_of_mem_take hn', hx⟩
  · exact ⟨target, List.mem_of_getElem? hi, (hsplit.holds x).1 ⟨n', hn', hx⟩⟩
  · exact ⟨n', List.mem_of_mem_drop hn', hx⟩

theorem Fresh.splitNode {s s' : VecCoalescedLinearData Id E} {id : IdWithIndex Id} {count : ℕ}
    (hf : s.Fresh id count) {i k j : ℕ} {m : SplitMode} (h : s.splitNode i k m = some (s', j)) :
    s'.Fresh id count := by
  intro n' hn' o ho
  cases hx : n'.contains ⟨id.id, id.index + o⟩
  · rfl
  · obtain ⟨n, hn, hnx⟩ := splitNode_contains h n' hn' _ hx
    rw [hf n hn o ho] at hnx
    cases hnx

theorem Inv.splitNode {s s' : VecCoalescedLinearData Id E} (hs : Inv s) {i k j : ℕ}
    {m : SplitMode} (h : s.splitNode i k m = some (s', j)) : Inv s' := by
  obtain ⟨target, pieces, hi, hsplit, ⟨mk, v, hmk, hop⟩, hlen, -, -, hslen, hbase, hnodes, -⟩ :=
    splitNode_eq_some h
  refine hs.replaceAt hi ?_ ?_ hnodes ?_ (by rw [hslen, hsplit.visible]) hsplit.disjoint
    fun p hp x hx => (hsplit.holds x).1 ⟨p, hp, hx⟩
  · rcases hmk with rfl | rfl <;> simp [hop, Operation.isBeginning]
  · rcases hmk with rfl | rfl <;> simp [hop, Operation.isEnd]
  · rw [hbase, hsplit.inserts]
    rcases hmk with rfl | rfl
    · simp only [hop, Node.isDeleted, Operation.isInsert, Bool.false_eq_true, ↓reduceIte]
      omega
    · simp [hop, Node.isDeleted, Operation.isInsert]

omit [DecidableEq Id] in
/-- What a successful `deleteNodeAt` did: the insert node at `nodeIndex` became
its tombstone, and both counts dropped by what it held. -/
theorem deleteNodeAt_eq_some {s s' : VecCoalescedLinearData Id E} {i : ℕ}
    (h : s.deleteNodeAt i = some s') :
    ∃ n v, s.base.nodes[i]? = some n ∧ n.operation = .insert v ∧ v.length ≤ s.len ∧
      1 ≤ s.base.len ∧ s' = ⟨s.len - v.length,
        ⟨s.base.len - 1, s.base.nodes.set i { n with operation := .delete v }⟩⟩ := by
  unfold deleteNodeAt at h
  split at h
  · rename_i n hi
    cases hop : n.operation with
    | insert v =>
      simp only [hop, Operation.applyDelete, Option.bind_eq_bind, Option.bind_some] at h
      have hlt := (List.getElem?_eq_some_iff.1 hi).1
      rw [Checked.set_of_lt _ hlt] at h
      have hlen : ({ n with operation := Operation.delete v } : Node' Id E).nodeLen = v.length := by
        simp [Node.nodeLen]
      simp only [hlen] at h
      split at h
      · rename_i len hl
        split at h
        · rename_i baseLen hb
          obtain ⟨h₁, rfl⟩ := Checked.sub_eq_some_iff.1 hl
          obtain ⟨h₂, rfl⟩ := Checked.sub_eq_some_iff.1 hb
          exact ⟨n, v, hi, hop, h₁, h₂, (Option.some.inj h).symm⟩
        · simp at h
      · simp at h
    | delete v => simp [hop, Operation.applyDelete] at h
    | beginning => simp [hop, Operation.applyDelete] at h
    | «end» => simp [hop, Operation.applyDelete] at h
  · simp at h

/-- Turning an insert node into its tombstone and taking its elements off both
counts keeps the invariant. -/
theorem Inv.tombstone {s : VecCoalescedLinearData Id E} (hs : Inv s) {i : ℕ} {n : Node' Id E}
    {v : List E} (hi : s.base.nodes[i]? = some n) (hop : n.operation = .insert v)
    (hlen : v.length ≤ s.len) (hbase : 1 ≤ s.base.len) :
    Inv ⟨s.len - v.length, ⟨s.base.len - 1, s.base.nodes.set i { n with operation := .delete v }⟩⟩ := by
  have hlt := (List.getElem?_eq_some_iff.1 hi).1
  have hn' : s.base.nodes.set i { n with operation := .delete v } =
      s.base.nodes.take i ++ [{ n with operation := .delete v }] ++ s.base.nodes.drop (i + 1) := by
    simp [List.set_eq_take_append_cons_drop, hlt]
  refine hs.replaceAt hi (by simp [hop, Operation.isBeginning]) (by simp [hop, Operation.isEnd])
    hn' ?_ ?_ (List.pairwise_singleton _ _) ?_
  · have hcount : [{ n with operation := .delete v }].countP (·.operation.isInsert) = 0 := by
      simp [Operation.isInsert]
    rw [hcount]
    simp only [hop, Operation.isInsert, ↓reduceIte]
    omega
  · simp only [hop, Node.visible, List.map_cons, List.map_nil, List.sum_cons, List.sum_nil]
    omega
  · intro p hp x hx
    rw [List.mem_singleton] at hp
    subst hp
    rw [Node.contains_iff] at hx ⊢
    simpa [Node.lastIndex, Node.nodeLen, hop] using hx

theorem Inv.deleteNodeAt {s s' : VecCoalescedLinearData Id E} (hs : Inv s) {i : ℕ}
    (h : s.deleteNodeAt i = some s') : Inv s' := by
  obtain ⟨n, v, hi, hop, h₁, h₂, rfl⟩ := deleteNodeAt_eq_some h
  exact hs.tombstone hi hop h₁ h₂

/-- What a successful `delete` did: split the node down to the element if it held
more than it, then tombstoned that one-element node, or returned a tombstone's
element with nothing changed. -/
theorem delete_eq_some {s s' : VecCoalescedLinearData Id E} {id : IdWithIndex Id} {e : E}
    (h : s.delete id = some (some (e, s'))) :
    ∃ s₁ j, (s₁ = s ∨ ∃ i, s.splitNode i id.index .beforeAndAfter = some (s₁, j)) ∧
      (s' = s₁ ∨ ∃ n v, s₁.base.nodes[j]? = some n ∧ n.operation = .insert v ∧ v.length = 1 ∧
        1 ≤ s₁.len ∧ 1 ≤ s₁.base.len ∧ s' = ⟨s₁.len - v.length,
          ⟨s₁.base.len - 1, s₁.base.nodes.set j { n with operation := .delete v }⟩⟩) := by
  unfold delete at h
  split at h
  · simp at h
  rename_i nodeIndex node _
  dsimp only at h
  rw [Checked.ite_bind] at h
  obtain ⟨⟨s₁, j⟩, hsplit, h⟩ := Option.bind_eq_some_iff.1 h
  have h₁ : s₁ = s ∨ ∃ i, s.splitNode i id.index .beforeAndAfter = some (s₁, j) := by
    split_ifs at hsplit
    · exact .inr ⟨_, hsplit⟩
    · cases hsplit
      exact .inl rfl
  refine ⟨s₁, j, h₁, ?_⟩
  split at h
  · rename_i n hn
    split at h
    · -- the one element of an insert node becomes a tombstone
      rename_i v hop
      split at h
      · simp at h
      rename_i hv
      rw [not_not] at hv
      split at h
      · rename_i nodes hset
        obtain ⟨-, rfl⟩ := Checked.set_eq_some_iff.1 hset
        split at h
        · rename_i len hl
          split at h
          · rename_i baseLen hb
            obtain ⟨hl₁, rfl⟩ := Checked.sub_eq_some_iff.1 hl
            obtain ⟨hb₁, rfl⟩ := Checked.sub_eq_some_iff.1 hb
            obtain ⟨e', -, he'⟩ := Option.map_eq_some_iff.1 (Option.some.inj h)
            simp only [Prod.mk.injEq] at he'
            exact .inr ⟨n, v, hn, hop, hv, hl₁, hb₁, by rw [hv, ← he'.2]⟩
          · simp at h
        · simp at h
      · simp at h
    · -- a tombstone's element is returned again
      obtain ⟨e', -, he'⟩ := Option.map_eq_some_iff.1 (Option.some.inj h)
      simp only [Prod.mk.injEq] at he'
      exact .inl he'.2.symm
    · simp at h
    · simp at h
  · simp at h

theorem Inv.delete {s s' : VecCoalescedLinearData Id E} (hs : Inv s) {id : IdWithIndex Id} {e : E}
    (h : s.delete id = some (some (e, s'))) : Inv s' := by
  obtain ⟨s₁, j, h₁, h₂⟩ := delete_eq_some h
  have hs₁ : Inv s₁ := by
    rcases h₁ with rfl | ⟨i, hsplit⟩
    · exact hs
    · exact hs.splitNode hsplit
  rcases h₂ with rfl | ⟨n, v, hn, hop, hv, hlen, hbase, rfl⟩
  · exact hs₁
  · exact hs₁.tombstone hn hop (by omega) hbase

/-- Every arm of `delete_range` is made of splits and tombstoning. -/
theorem Inv.applyDeleteMode {s s' : VecCoalescedLinearData Id E} (hs : Inv s)
    {start «end» : IdWithIndex Id} {mode : DeleteMode}
    (h : applyDeleteMode start «end» s mode = some s') : Inv s' := by
  cases mode with
  | skip =>
    cases h
    exact hs
  | suffix i =>
    obtain ⟨⟨s₁, j⟩, h₁, h₂⟩ := Option.bind_eq_some_iff.1 h
    exact (hs.splitNode h₁).deleteNodeAt h₂
  | subrange i =>
    obtain ⟨⟨s₁, j⟩, h₁, h₂⟩ := Option.bind_eq_some_iff.1 h
    obtain ⟨⟨s₂, k⟩, h₂, h₃⟩ := Option.bind_eq_some_iff.1 h₂
    exact ((hs.splitNode h₁).splitNode h₂).deleteNodeAt h₃
  | full i => exact hs.deleteNodeAt h
  | prefixPart i =>
    obtain ⟨⟨s₁, j⟩, h₁, h₂⟩ := Option.bind_eq_some_iff.1 h
    exact (hs.splitNode h₁).deleteNodeAt h₂

theorem Inv.deleteRange {s s' : VecCoalescedLinearData Id E} (hs : Inv s)
    {start «end» : IdWithIndex Id} (h : s.deleteRange start «end» = some (.ok s')) : Inv s' := by
  unfold VecCoalescedLinearData.deleteRange at h
  split_ifs at h
  · -- a range of one id is a delete of that id
    obtain ⟨r, hr, h⟩ := Option.map_eq_some_iff.1 h
    rcases r with _ | ⟨e, s₂⟩
    · cases h
    · cases h
      exact hs.delete hr
  · cases h
  · -- the work items of the nodes from the start to the end
    split at h
    · cases h
    dsimp only at h
    split at h
    · cases h
    obtain ⟨s₂, hfold, h⟩ := Option.map_eq_some_iff.1 h
    cases h
    exact Checked.foldlM_induction Inv (fun _ _ _ hb hf => hb.applyDeleteMode hf) _ hfold hs
  · cases h

omit [DecidableEq Id] in
theorem insertNodeAt_eq_some {s s' : VecCoalescedLinearData Id E} {p : ℕ} {node : Node' Id E}
    {value : List E} (h : s.insertNodeAt p node value = some s') :
    p ≤ s.base.nodes.length ∧
      s' = ⟨s.len + value.length, ⟨s.base.len + 1, s.base.nodes.insertIdx p node⟩⟩ := by
  obtain ⟨nodes, hins, rfl⟩ := Option.map_eq_some_iff.1 h
  obtain ⟨hp, rfl⟩ := Checked.insert_eq_some_iff.1 hins
  exact ⟨hp, rfl⟩

theorem Inv.insertNodeAt {s s' : VecCoalescedLinearData Id E} (hs : Inv s) {p : ℕ}
    {node : Node' Id E} {value : List E} (h : s.insertNodeAt p node value = some s') (hp : 0 < p)
    (hlt : p < s.base.nodes.length) (hop : node.operation = .insert value)
    (hfresh : ∀ n ∈ s.base.nodes, Node.Disjoint node n) : Inv s' := by
  obtain ⟨-, rfl⟩ := insertNodeAt_eq_some h
  exact hs.insertAt hp hlt hop hfresh

theorem Inv.append {s s' : VecCoalescedLinearData Id E} (hs : Inv s) {id : IdWithIndex Id}
    {value : List E} (hf : s.Fresh id value.length) (h : s.append id value = some s') : Inv s' := by
  unfold VecCoalescedLinearData.append at h
  split at h
  · cases h
  obtain ⟨base, hb, rfl⟩ := Option.map_eq_some_iff.1 h
  obtain ⟨p, node, hp, hlt, hid, hop, -, rfl⟩ := VecLinearData.append_eq_some hb
  exact hs.insertAt hp hlt hop (hf.disjoint hid hop)

theorem Inv.prepend {s s' : VecCoalescedLinearData Id E} (hs : Inv s) {id : IdWithIndex Id}
    {value : List E} (hf : s.Fresh id value.length) (h : s.prepend id value = some s') : Inv s' := by
  unfold VecCoalescedLinearData.prepend at h
  split at h
  · cases h
  obtain ⟨base, hb, rfl⟩ := Option.map_eq_some_iff.1 h
  obtain ⟨p, node, hp, hlt, hid, hop, -, rfl⟩ := VecLinearData.prepend_eq_some hb
  exact hs.insertAt hp hlt hop (hf.disjoint hid hop)

/-- The piece a split returns stands strictly between the boundaries. -/
theorem Inv.splitNode_index {s s' : VecCoalescedLinearData Id E} (hs : Inv s) {i k j : ℕ}
    {m : SplitMode} (h : s.splitNode i k m = some (s', j)) :
    0 < j ∧ j < s'.base.nodes.length := by
  obtain ⟨target, pieces, hi, -, ⟨mk, v, hmk, hop⟩, hlen, -, -, -, -, hnodes, hj, -⟩ :=
    splitNode_eq_some h
  have hpos := hs.base.pos_of_not_beginning hi (by rcases hmk with rfl | rfl <;> simp [hop, Operation.isBeginning])
  have hlt := (List.getElem?_eq_some_iff.1 hi).1
  have hlen' : s'.base.nodes.length = s.base.nodes.length - 1 + pieces.length := by
    rw [hnodes]
    simp only [List.length_append, List.length_take, List.length_drop]
    omega
  omega

theorem inv_new (initialId : Id) : Inv (new initialId : VecCoalescedLinearData Id E) := by
  refine ⟨⟨⟨_, rfl, rfl⟩, ⟨_, rfl, rfl⟩, rfl⟩, rfl, ?_⟩
  simp [new, Node.Disjoint, ← Bool.not_eq_true, Node.contains_iff, Node.lastIndex_eq,
    Node.nodeLen, IdWithIndex.zero, IdWithIndex.increment]
  intro x _ h₀ _ h₁
  omega

theorem inv_withValue {s : VecCoalescedLinearData Id E} {initialId : Id} {initialValue : List E}
    (h : withValue initialId initialValue = some s) : Inv s := by
  unfold withValue at h
  split at h
  · cases h
    exact inv_new initialId
  dsimp only at h
  split at h
  · cases h
  split at h
  · cases h
  rename_i hempty _ _ endId hend
  cases h
  have hpos : 0 < initialValue.length := by
    cases initialValue with
    | nil => simp at hempty
    | cons => simp
  unfold IdWithIndex.checkedNextAfter at hend
  split at hend
  · cases hend
    refine ⟨⟨⟨_, rfl, rfl⟩, ⟨_, rfl, rfl⟩, by simp [Operation.isInsert]⟩,
      by simp [Node.visible], ?_⟩
    simp [Node.Disjoint, ← Bool.not_eq_true, Node.contains_iff, Node.lastIndex_eq, Node.nodeLen,
      Node.lastId, IdWithIndex.zero, IdWithIndex.increment]
    -- the three runs: index 0, indices 1 to the length, and the one after
    exact ⟨⟨fun x _ h₀ _ h₁ => by omega, fun x _ h₀ _ h₁ => by omega⟩,
      fun x _ h₁ h₂ _ h₃ => by omega⟩
  · cases hend

end Invariant

section Apply

variable {Id : Type} [LinearOrder Id]

/-- What a successful `apply_operation` did: an insert inside a run splits it and
puts the node after the first piece, any other insert puts it strictly between the
boundaries; a delete is `delete_range` or `delete`. -/
theorem applyOperation_eq_ok {s s' : VecCoalescedLinearData Id E}
    {op : DataOperation (IdWithIndex Id) (List E)} (h : s.applyOperation op = some (.ok s')) :
    (∃ id pred succ value, op = .insert id pred succ value ∧
      ((∃ i s₁ j, s.splitNode i succ.index .before = some (s₁, j) ∧
          s₁.insertNodeAt j ⟨id, some pred, some succ, .insert value⟩ value = some s') ∨
        (∃ p, 0 < p ∧ p < s.base.nodes.length ∧
          s.insertNodeAt p ⟨id, some pred, some succ, .insert value⟩ value = some s'))) ∨
    (∃ start «end», op = .delete start (some «end») ∧ s.deleteRange start «end» = some (.ok s')) ∨
    (∃ start e, op = .delete start none ∧ s.delete start = some (some (e, s'))) := by
  cases op with
  | insert id pred succ value =>
    refine .inl ⟨id, pred, succ, value, rfl, ?_⟩
    simp only [VecCoalescedLinearData.applyOperation] at h
    split at h
    · cases h
    split at h
    · cases h
    rename_i predIndex predNode _
    split at h
    · cases h
    rename_i succIndex succNode hsucc
    -- the successor is in the predecessor's run, or found after it
    have hsucc' : succIndex = predIndex ∨ predIndex ≤ succIndex ∧ succIndex < s.base.nodes.length := by
      split at hsucc
      · cases hsucc
        exact .inl rfl
      · obtain ⟨hle, hn, -⟩ := Search.findFrom_spec hsucc
        exact .inr ⟨hle, (List.getElem?_eq_some_iff.1 hn).1⟩
    split_ifs at h with hsame hfollow hadj hids
    · obtain ⟨⟨s₁, j⟩, hsplit, h⟩ := Option.bind_eq_some_iff.1 h
      obtain ⟨s₂, hins, h⟩ := Option.bind_eq_some_iff.1 h
      cases h
      exact .inl ⟨predIndex, s₁, j, hsplit, hins⟩
    · obtain ⟨s₂, hins, h⟩ := Option.map_eq_some_iff.1 h
      cases h
      exact .inr ⟨succIndex, by omega, by omega, hins⟩
    · split at h
      · cases h
      · cases h
      rename_i position hpos
      have hb := conflictPosition_bounds hpos (by omega)
      obtain ⟨s₂, hins, h⟩ := Option.map_eq_some_iff.1 h
      cases h
      exact .inr ⟨position, by omega, by omega, hins⟩
  | delete start «end» =>
    refine .inr ?_
    cases «end» with
    | some «end» =>
      obtain ⟨r, hr, h⟩ := Option.map_eq_some_iff.1 h
      cases r with
      | ok s₂ =>
        cases h
        exact .inl ⟨start, «end», rfl, hr⟩
      | error => cases h
    | none =>
      obtain ⟨r, hr, h⟩ := Option.map_eq_some_iff.1 h
      rcases r with _ | ⟨e, s₂⟩
      · cases h
      · cases h
        exact .inr ⟨start, e, rfl, hr⟩

/-- The ids an operation takes are fresh: those of an insert's elements. -/
def FreshOperation (s : VecCoalescedLinearData Id E) :
    DataOperation (IdWithIndex Id) (List E) → Prop
  | .insert id _ _ value => s.Fresh id value.length
  | .delete _ _ => True

theorem Inv.applyOperation {s s' : VecCoalescedLinearData Id E} (hs : Inv s)
    {op : DataOperation (IdWithIndex Id) (List E)} (hf : s.FreshOperation op)
    (h : s.applyOperation op = some (.ok s')) : Inv s' := by
  rcases applyOperation_eq_ok h with
    ⟨id, pred, succ, value, rfl, ⟨i, s₁, j, hsplit, hins⟩ | ⟨p, hp, hlt, hins⟩⟩ |
      ⟨start, «end», rfl, hdel⟩ | ⟨start, e, rfl, hdel⟩
  · have hf : s.Fresh id value.length := hf
    obtain ⟨hj, hjlt⟩ := hs.splitNode_index hsplit
    exact (hs.splitNode hsplit).insertNodeAt hins hj hjlt rfl ((hf.splitNode hsplit).disjoint rfl rfl)
  · have hf : s.Fresh id value.length := hf
    exact hs.insertNodeAt hins hp hlt rfl (hf.disjoint rfl rfl)
  · exact hs.deleteRange hdel
  · exact hs.delete hdel

/-- One call of a mutator that returns normally; the ids a new node takes are
fresh. -/
inductive Step : VecCoalescedLinearData Id E → VecCoalescedLinearData Id E → Prop
  | append {s s' : VecCoalescedLinearData Id E} {id : IdWithIndex Id} {value : List E} :
    s.Fresh id value.length → s.append id value = some s' → Step s s'
  | prepend {s s' : VecCoalescedLinearData Id E} {id : IdWithIndex Id} {value : List E} :
    s.Fresh id value.length → s.prepend id value = some s' → Step s s'
  | delete {s s' : VecCoalescedLinearData Id E} {id : IdWithIndex Id} {e : E} :
    s.delete id = some (some (e, s')) → Step s s'
  | deleteRange {s s' : VecCoalescedLinearData Id E} {start «end» : IdWithIndex Id} :
    s.deleteRange start «end» = some (.ok s') → Step s s'
  | applyOperation {s s' : VecCoalescedLinearData Id E}
    {op : DataOperation (IdWithIndex Id) (List E)} :
    s.FreshOperation op → s.applyOperation op = some (.ok s') → Step s s'

/-- The states reached from a constructor by any run of mutator calls. -/
inductive Reachable : VecCoalescedLinearData Id E → Prop
  | new (initialId : Id) : Reachable (VecCoalescedLinearData.new initialId)
  | withValue {s : VecCoalescedLinearData Id E} {initialId : Id} {initialValue : List E} :
    VecCoalescedLinearData.withValue initialId initialValue = some s → Reachable s
  | step {s s' : VecCoalescedLinearData Id E} : Reachable s → Step s s' → Reachable s'

theorem Inv.step {s s' : VecCoalescedLinearData Id E} (hs : Inv s) (h : Step s s') : Inv s' := by
  cases h with
  | append hf h => exact hs.append hf h
  | prepend hf h => exact hs.prepend hf h
  | delete h => exact hs.delete h
  | deleteRange h => exact hs.deleteRange h
  | applyOperation hf h => exact hs.applyOperation hf h

theorem Reachable.inv {s : VecCoalescedLinearData Id E} (h : Reachable s) : Inv s := by
  induction h with
  | new initialId => exact inv_new initialId
  | withValue h => exact inv_withValue h
  | step _ hstep ih => exact ih.step hstep

/-- A refused operation comes back as it was received. -/
theorem applyOperation_error {s : VecCoalescedLinearData Id E}
    {op op' : DataOperation (IdWithIndex Id) (List E)}
    (h : s.applyOperation op = some (.error op')) : op' = op := by
  cases op with
  | insert id pred succ value =>
    -- every branch that refuses an insert returns it; the others succeed or panic
    simp only [applyOperation] at h
    repeat' split at h
    all_goals simp_all [Option.bind_eq_some_iff]
  | delete start «end» =>
    simp only [applyOperation] at h
    split at h
    all_goals
      obtain ⟨r, -, hr⟩ := Option.map_eq_some_iff.1 h
      split at hr <;> cases hr
      rfl

/-- An insert whose two anchors are one id that a node holds finds both in that node,
and the predecessor is not followed by the successor: the source's arm for anchors
apart in one node, which it marks unreachable. -/
theorem apply_operation_panics_on_self_anchored_insert (s : VecCoalescedLinearData Id E)
    (id pred : IdWithIndex Id) (value : List E) (hid : id.canAddress value.length = true)
    (hpred : ∃ n ∈ s.base.nodes, n.contains pred = true) :
    s.applyOperation (.insert id pred pred value) = none := by
  obtain ⟨n, hn, hcontains⟩ := hpred
  obtain ⟨j, hj⟩ := List.mem_iff_getElem?.1 hn
  obtain ⟨⟨i, predNode⟩, hfind⟩ :=
    Option.isSome_iff_exists.1
      (Search.findFrom_isSome (p := (·.contains pred)) (Nat.zero_le j) hj hcontains)
  have hpredNode : predNode.contains pred = true := (Search.findFrom_spec hfind).2.2
  simp [applyOperation, hid, hfind, hpredNode]

theorem apply_operation_panics_on_self_anchored_insert_at_beginning :
    (new 0 : VecCoalescedLinearData ℕ ℕ).Reachable ∧
      (⟨1, 0⟩ : IdWithIndex ℕ).canAddress [7].length = true ∧
      (∃ n ∈ (new 0 : VecCoalescedLinearData ℕ ℕ).base.nodes, n.contains ⟨0, 0⟩ = true) ∧
      (new 0 : VecCoalescedLinearData ℕ ℕ).applyOperation (.insert ⟨1, 0⟩ ⟨0, 0⟩ ⟨0, 0⟩ [7]) = none :=
  ⟨.new 0, rfl, ⟨_, List.mem_cons_self, rfl⟩,
    apply_operation_panics_on_self_anchored_insert _ _ _ _ rfl ⟨_, List.mem_cons_self, rfl⟩⟩

-- anchors in adjacent nodes whose predecessor is not the last id of its node
example : ((withValue 0 [5, 6] : Option (VecCoalescedLinearData ℕ ℕ)).map fun s =>
    s.applyOperation (.insert ⟨1, 0⟩ ⟨0, 1⟩ ⟨0, 3⟩ [7])) = some none := by decide

end Apply

/-- Without fresh ids the invariant fails: `append` does not check that its id is
unused, and two appends at one id leave two nodes holding it. -/
theorem append_reused_id_fails_validate_integrity :
    ∃ s₁ s₂ : VecCoalescedLinearData ℕ ℕ, (new 0).append ⟨7, 0⟩ [1] = some s₁ ∧
      s₁.append ⟨7, 0⟩ [2] = some s₂ ∧ s₂.validateIntegrity = .error (.duplicateId 1 2) :=
  ⟨_, _, rfl, rfl, rfl⟩

end VecCoalescedLinearData

end Flotsync.LinearData
