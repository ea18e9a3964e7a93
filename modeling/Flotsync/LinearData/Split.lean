import Flotsync.LinearData.Coalesced

/-!
What `split_node` does to the nodes: the node is replaced, in place, by two or
three runs of the same kind that hold exactly its ids and its elements. Every
later proof about a path that splits goes through `splitNode_eq_some` and the
facts about the pieces below.
-/

set_option autoImplicit false

namespace Flotsync.LinearData

variable {Id E : Type}

namespace Operation

/-- The constructors of a node that holds a run of elements. -/
def IsRun (mk : List E → Operation (List E)) : Prop := mk = .insert ∨ mk = .delete

theorem splitOff_eq_some {op : Operation (List E)} {o : ℕ} {a b : Operation (List E)}
    (h : op.splitOff o = some (a, b)) :
    ∃ mk v, IsRun mk ∧ op = mk v ∧ o < v.length ∧ a = mk (v.take o) ∧ b = mk (v.drop o) := by
  cases op with
  | insert v =>
    simp only [splitOff, Composite.splitAt, Option.map_eq_some_iff] at h
    obtain ⟨p, hp, hab⟩ := h
    split at hp
    · simp only [Option.some.injEq] at hp
      subst hp
      simp only [Prod.mk.injEq] at hab
      exact ⟨.insert, v, .inl rfl, rfl, by assumption, hab.1.symm, hab.2.symm⟩
    · simp at hp
  | delete v =>
    simp only [splitOff, Composite.splitAt, Option.map_eq_some_iff] at h
    obtain ⟨p, hp, hab⟩ := h
    split at hp
    · simp only [Option.some.injEq] at hp
      subst hp
      simp only [Prod.mk.injEq] at hab
      exact ⟨.delete, v, .inr rfl, rfl, by assumption, hab.1.symm, hab.2.symm⟩
    · simp at hp
  | beginning => simp [splitOff] at h
  | «end» => simp [splitOff] at h

end Operation

namespace Node

/-- The number of visible elements a node holds. -/
def visible (n : VecCoalescedLinearData.Node' Id E) : ℕ :=
  match n.operation with
  | .insert value => value.length
  | _ => 0

variable {mk : List E → Operation (List E)}

theorem nodeLen_of_run (hmk : Operation.IsRun mk) {n : VecCoalescedLinearData.Node' Id E}
    {v : List E} (h : n.operation = mk v) : n.nodeLen = v.length := by
  rcases hmk with rfl | rfl <;> simp [nodeLen, h]

theorem isInsert_of_isRun (hmk : Operation.IsRun mk) (v w : List E) :
    (mk v).isInsert = (mk w).isInsert := by
  rcases hmk with rfl | rfl <;> rfl

theorem visible_of_run (hmk : Operation.IsRun mk) {n : VecCoalescedLinearData.Node' Id E}
    {v : List E} (h : n.operation = mk v) :
    n.visible = if (mk v).isInsert then v.length else 0 := by
  rcases hmk with rfl | rfl <;> simp [visible, h, Operation.isInsert]

/-- A run with the origins of an inner node is inner too. -/
theorem Inner.of_run {n m : VecCoalescedLinearData.Node' Id E} (hn : n.Inner)
    (hl : m.leftOrigin = n.leftOrigin) (hr : m.rightOrigin = n.rightOrigin)
    (hmk : Operation.IsRun mk) {w : List E} (hop : m.operation = mk w) : m.Inner := by
  obtain ⟨left, right, -, hl', hr', -⟩ := hn.origins
  rcases hmk with rfl | rfl
  · exact .of_origins (hl.trans hl') (hr.trans hr') (.inl hop)
  · exact .of_origins (hl.trans hl') (hr.trans hr') (.inr hop)

variable [DecidableEq Id]

/-- A run of positive length holds the ids from its own up to before its length. -/
theorem contains_iff_of_pos {n : VecCoalescedLinearData.Node' Id E} (h : 0 < n.nodeLen)
    (x : IdWithIndex Id) : n.contains x = true ↔
      n.id.id = x.id ∧ n.id.index ≤ x.index ∧ x.index < n.id.index + n.nodeLen := by
  rw [contains_iff, lastIndex_eq]
  exact and_congr_right fun _ => and_congr_right fun _ => by omega

/-- Two nodes hold no id in common. -/
def Disjoint (a b : VecCoalescedLinearData.Node' Id E) : Prop :=
  ∀ x, a.contains x = true → b.contains x = false

theorem Disjoint.symm {a b : VecCoalescedLinearData.Node' Id E} (h : Disjoint a b) :
    Disjoint b a := by
  intro x hb
  cases ha : a.contains x
  · rfl
  · simp [h x ha] at hb

end Node

open VecCoalescedLinearData

/-- `pieces` hold exactly the ids of `target`, each in one piece, as runs of the
kind of `target` that share out its elements. -/
structure IsSplit [DecidableEq Id] (target : Node' Id E) (pieces : List (Node' Id E)) : Prop where
  holds : ∀ x, (∃ p ∈ pieces, p.contains x = true) ↔ target.contains x = true
  disjoint : pieces.Pairwise Node.Disjoint
  inserts : pieces.countP (·.operation.isInsert) =
    if target.operation.isInsert then pieces.length else 0
  visible : (pieces.map Node.visible).sum = target.visible

theorem splitPieces_third_none {target first second : Node' Id E} {third : Option (Node' Id E)}
    {k o : ℕ} {mode : SplitMode} (h : splitPieces target k o mode = some (first, second, third))
    (hm : mode ≠ .beforeAndAfter) : third = none := by
  cases mode with
  | beforeAndAfter => exact absurd rfl hm
  | before =>
    cases hs : target.operation.splitOff o with
    | none => simp [splitPieces, hs] at h
    | some ab => simp [splitPieces, hs] at h; exact h.2.2.symm
  | after =>
    cases hs : target.operation.splitOff (o + 1) with
    | none => simp [splitPieces, hs] at h
    | some ab => simp [splitPieces, hs] at h; exact h.2.2.symm

theorem splitPieces_third_some {target first second : Node' Id E} {third : Option (Node' Id E)}
    {k o : ℕ} (h : splitPieces target k o .beforeAndAfter = some (first, second, third)) :
    ∃ t, third = some t := by
  cases hs : target.operation.splitOff o with
  | none => simp [splitPieces, hs] at h
  | some ab =>
    obtain ⟨a, rest⟩ := ab
    cases hr : rest.splitOff 1 with
    | none => simp [splitPieces, hs, hr] at h
    | some cd =>
      simp only [splitPieces, hs, hr, Option.bind_eq_bind, Option.bind_some, Option.pure_def,
        Option.some.injEq, Prod.mk.injEq] at h
      exact ⟨_, h.2.2.symm⟩

/-- The pieces of an inner node keep its origins and its kind, so they are inner. -/
theorem splitPieces_inner {target first second : Node' Id E} {third : Option (Node' Id E)}
    {k o : ℕ} {mode : SplitMode} (h : splitPieces target k o mode = some (first, second, third))
    (ht : target.Inner) : ∀ p ∈ first :: second :: third.toList, p.Inner := by
  cases mode with
  | before =>
    cases hs : target.operation.splitOff o with
    | none => simp [splitPieces, hs] at h
    | some ab =>
      obtain ⟨a, b⟩ := ab
      simp only [splitPieces, hs, Option.bind_eq_bind, Option.bind_some, Option.pure_def,
        Option.some.injEq, Prod.mk.injEq] at h
      obtain ⟨rfl, rfl, rfl⟩ := h
      obtain ⟨mk, v, hmk, -, -, rfl, rfl⟩ := Operation.splitOff_eq_some hs
      simp only [Option.toList_none, List.mem_cons, List.not_mem_nil, or_false]
      rintro p (rfl | rfl)
      · exact ht.of_run rfl rfl hmk rfl
      · exact ht.of_run rfl rfl hmk rfl
  | after =>
    cases hs : target.operation.splitOff (o + 1) with
    | none => simp [splitPieces, hs] at h
    | some ab =>
      obtain ⟨a, b⟩ := ab
      simp only [splitPieces, hs, Option.bind_eq_bind, Option.bind_some, Option.pure_def,
        Option.some.injEq, Prod.mk.injEq] at h
      obtain ⟨rfl, rfl, rfl⟩ := h
      obtain ⟨mk, v, hmk, -, -, rfl, rfl⟩ := Operation.splitOff_eq_some hs
      simp only [Option.toList_none, List.mem_cons, List.not_mem_nil, or_false]
      rintro p (rfl | rfl)
      · exact ht.of_run rfl rfl hmk rfl
      · exact ht.of_run rfl rfl hmk rfl
  | beforeAndAfter =>
    cases hs : target.operation.splitOff o with
    | none => simp [splitPieces, hs] at h
    | some ab =>
      obtain ⟨a, rest⟩ := ab
      obtain ⟨mk, v, hmk, -, -, rfl, rfl⟩ := Operation.splitOff_eq_some hs
      cases hr : (mk (v.drop o)).splitOff 1 with
      | none => simp [splitPieces, hs, hr] at h
      | some cd =>
        obtain ⟨c, d⟩ := cd
        simp only [splitPieces, hs, hr, Option.bind_eq_bind, Option.bind_some, Option.pure_def,
          Option.some.injEq, Prod.mk.injEq] at h
        obtain ⟨rfl, rfl, rfl⟩ := h
        obtain ⟨mk', w, hmk', -, -, rfl, rfl⟩ := Operation.splitOff_eq_some hr
        simp only [Option.toList_some, List.mem_cons, List.not_mem_nil, or_false]
        rintro p (rfl | rfl | rfl)
        · exact ht.of_run rfl rfl hmk rfl
        · exact ht.of_run rfl rfl hmk' rfl
        · exact ht.of_run rfl rfl hmk' rfl

section Pieces

variable [DecidableEq Id]

theorem contains_iff_run {n : Node' Id E} {b : Id} {i L : ℕ} (hn : n.id = ⟨b, i⟩)
    (hl : n.nodeLen = L) (hL : 0 < L) (x : IdWithIndex Id) :
    n.contains x = true ↔ b = x.id ∧ i ≤ x.index ∧ x.index < i + L := by
  have hpos : 0 < n.nodeLen := by omega
  rw [Node.contains_iff_of_pos hpos, hn, hl]

/-- Two runs that follow each other, `o` and `L - o` long, split a run `L` long. -/
theorem isSplit_pair {n p q : Node' Id E} {b : Id} {i L o : ℕ} (hn : n.id = ⟨b, i⟩)
    (hnl : n.nodeLen = L) (hp : p.id = ⟨b, i⟩) (hpl : p.nodeLen = o)
    (hq : q.id = ⟨b, i + o⟩) (hql : q.nodeLen = L - o) (h0 : 0 < o) (hlt : o < L)
    (hpi : p.operation.isInsert = n.operation.isInsert)
    (hqi : q.operation.isInsert = n.operation.isInsert)
    (hvis : p.visible + q.visible = n.visible) : IsSplit n [p, q] := by
  have hN := contains_iff_run hn hnl (by omega)
  have hP := contains_iff_run hp hpl h0
  have hQ := contains_iff_run hq hql (by omega)
  refine ⟨fun x => ?_, ?_, ?_, ?_⟩
  · simp only [List.mem_cons, List.not_mem_nil, or_false, exists_eq_or_imp, exists_eq_left]
    rw [hP, hQ, hN]
    by_cases hx : b = x.id
    · simp only [hx, true_and]
      omega
    · simp [hx]
  · refine List.pairwise_pair.2 fun x hxp => ?_
    rw [hP] at hxp
    cases hxq : q.contains x
    · rfl
    · rw [hQ] at hxq
      omega
  · cases h : n.operation.isInsert <;> simp [hpi, hqi, h]
  · simpa using hvis

/-- Splitting the last piece of a split further gives a split. -/
theorem IsSplit.trans_last {n p q : Node' Id E} {qs : List (Node' Id E)} (h : IsSplit n [p, q])
    (hq : IsSplit q qs) : IsSplit n (p :: qs) := by
  have hins := h.inserts
  have hqins := hq.inserts
  have hpi : p.operation.isInsert = n.operation.isInsert ∧
      q.operation.isInsert = n.operation.isInsert := by
    cases hp : p.operation.isInsert <;> cases hq' : q.operation.isInsert <;>
      cases hn : n.operation.isInsert <;> simp_all
  refine ⟨fun x => ?_, ?_, ?_, ?_⟩
  · rw [← h.holds x]
    simp only [List.mem_cons, exists_eq_or_imp, List.not_mem_nil, or_false, exists_eq_left]
    rw [hq.holds x]
  · refine List.pairwise_cons.2 ⟨fun r hr x hxp => ?_, hq.disjoint⟩
    have hpq := List.pairwise_cons.1 h.disjoint
    cases hxr : r.contains x
    · rfl
    · have hxq : q.contains x = true := (hq.holds x).1 ⟨r, hr, hxr⟩
      simp [hpq.1 q (by simp) x hxp] at hxq
  · rw [List.countP_cons, hqins, hpi.1, hpi.2]
    cases n.operation.isInsert <;> simp [Nat.add_comm]
  · have hv := h.visible
    simp only [List.map_cons, List.map_nil, List.sum_cons, List.sum_nil, Nat.add_zero] at hv
    simp only [List.map_cons, List.sum_cons, hq.visible]
    exact hv

variable {mk : List E → Operation (List E)}

/-- Cutting a run `o` elements in gives a split of it into two runs. -/
theorem isSplit_cut (hmk : Operation.IsRun mk) {n : Node' Id E} {v : List E}
    (hop : n.operation = mk v) {o : ℕ} (h0 : 0 < o) (hlt : o < v.length) :
    IsSplit n [{ n with operation := mk (v.take o) },
      ⟨⟨n.id.id, n.id.index + o⟩, n.leftOrigin, n.rightOrigin, mk (v.drop o)⟩] := by
  have hp : ({ n with operation := mk (v.take o) } : Node' Id E).operation = mk (v.take o) := rfl
  have hq : (⟨⟨n.id.id, n.id.index + o⟩, n.leftOrigin, n.rightOrigin, mk (v.drop o)⟩ :
      Node' Id E).operation = mk (v.drop o) := rfl
  refine isSplit_pair rfl (Node.nodeLen_of_run hmk hop) rfl ?_ rfl ?_ h0 hlt ?_ ?_ ?_
  · rw [Node.nodeLen_of_run hmk hp]
    simp only [List.length_take]
    omega
  · rw [Node.nodeLen_of_run hmk hq, List.length_drop]
  · rw [hp, hop, Node.isInsert_of_isRun hmk]
  · rw [hq, hop, Node.isInsert_of_isRun hmk]
  · rw [Node.visible_of_run hmk hp, Node.visible_of_run hmk hq, Node.visible_of_run hmk hop,
      Node.isInsert_of_isRun hmk (v.take o) v, Node.isInsert_of_isRun hmk (v.drop o) v]
    split
    · simp only [List.length_take, List.length_drop]
      omega
    · rfl

theorem splitPieces_isSplit {target first second : Node' Id E} {third : Option (Node' Id E)}
    {o : ℕ} {mode : SplitMode} (hhead : mode ≠ .after → 0 < o)
    (h : splitPieces target (target.id.index + o) o mode = some (first, second, third)) :
    IsSplit target (first :: second :: third.toList) ∧
      ∃ mk v, Operation.IsRun mk ∧ target.operation = mk v := by
  cases mode with
  | before =>
    cases hs : target.operation.splitOff o with
    | none => simp [splitPieces, hs] at h
    | some ab =>
      obtain ⟨a, b⟩ := ab
      simp only [splitPieces, hs, Option.bind_eq_bind, Option.bind_some, Option.pure_def,
        Option.some.injEq, Prod.mk.injEq] at h
      obtain ⟨rfl, rfl, rfl⟩ := h
      obtain ⟨mk, v, hmk, hop, hlt, rfl, rfl⟩ := Operation.splitOff_eq_some hs
      exact ⟨isSplit_cut hmk hop (hhead (by decide)) hlt, mk, v, hmk, hop⟩
  | after =>
    cases hs : target.operation.splitOff (o + 1) with
    | none => simp [splitPieces, hs] at h
    | some ab =>
      obtain ⟨a, b⟩ := ab
      simp only [splitPieces, hs, Option.bind_eq_bind, Option.bind_some, Option.pure_def,
        Option.some.injEq, Prod.mk.injEq] at h
      obtain ⟨rfl, rfl, rfl⟩ := h
      obtain ⟨mk, v, hmk, hop, hlt, rfl, rfl⟩ := Operation.splitOff_eq_some hs
      exact ⟨isSplit_cut hmk hop (Nat.succ_pos o) hlt, mk, v, hmk, hop⟩
  | beforeAndAfter =>
    cases hs : target.operation.splitOff o with
    | none => simp [splitPieces, hs] at h
    | some ab =>
      obtain ⟨a, rest⟩ := ab
      obtain ⟨mk, v, hmk, hop, hlt, rfl, rfl⟩ := Operation.splitOff_eq_some hs
      cases hr : (mk (v.drop o)).splitOff 1 with
      | none => simp [splitPieces, hs, hr] at h
      | some cd =>
        obtain ⟨c, d⟩ := cd
        simp only [splitPieces, hs, hr, Option.bind_eq_bind, Option.bind_some, Option.pure_def,
          Option.some.injEq, Prod.mk.injEq] at h
        obtain ⟨rfl, rfl, rfl⟩ := h
        obtain ⟨mk', w, hmk', hw, hlt', rfl, rfl⟩ := Operation.splitOff_eq_some hr
        -- the rest keeps the kind of the node, so the second cut is of the same kind
        obtain ⟨rfl, rfl⟩ : mk = mk' ∧ v.drop o = w := by
          rcases hmk with rfl | rfl <;> rcases hmk' with rfl | rfl <;>
            simp_all [Operation.insert.injEq, Operation.delete.injEq]
        have hfirst := isSplit_cut hmk hop (hhead (by decide)) hlt
        have hmid := isSplit_cut hmk
          (show (⟨⟨target.id.id, target.id.index + o⟩, target.leftOrigin, target.rightOrigin,
            mk (v.drop o)⟩ : Node' Id E).operation = mk (v.drop o) from rfl) Nat.one_pos hlt'
        exact ⟨hfirst.trans_last hmid, mk, v, hmk, hop⟩

end Pieces

theorem SplitMode.resolve_head {head atEnd : Bool} {m mode : SplitMode}
    (h : m.resolve head atEnd = some mode) (hm : mode ≠ .after) : head = false := by
  cases m <;> cases head <;> cases atEnd <;> simp_all [SplitMode.resolve]

namespace VecCoalescedLinearData

variable [DecidableEq Id]

/-- What a successful `split_node` did: the node at `nodeIndex` is replaced in place
by a split of it into two or three runs, and the count of visible nodes grows by
the pieces added unless the node was a tombstone. -/
theorem splitNode_eq_some {s s' : VecCoalescedLinearData Id E} {i k j : ℕ} {m : SplitMode}
    (h : s.splitNode i k m = some (s', j)) :
    ∃ target pieces, s.base.nodes[i]? = some target ∧ IsSplit target pieces ∧
      (∃ mk v, Operation.IsRun mk ∧ target.operation = mk v) ∧ 2 ≤ pieces.length ∧
      target.id.index ≤ k ∧ k ≤ target.lastIndex ∧ s'.len = s.len ∧
      s'.base.len = s.base.len + (if target.isDeleted then 0 else pieces.length - 1) ∧
      s'.base.nodes = s.base.nodes.take i ++ pieces ++ s.base.nodes.drop (i + 1) ∧
      (j = i ∨ j = i + 1) ∧ (target.Inner → ∀ p ∈ pieces, p.Inner) := by
  unfold splitNode at h
  cases ht : s.base.nodes[i]? with
  | none => simp [ht] at h
  | some target =>
    simp only [ht] at h
    split at h
    · simp at h
    · rename_i hk
      cases ho : Checked.sub k target.id.index with
      | none => simp [ho] at h
      | some o =>
        obtain ⟨hle, ho'⟩ := Checked.sub_eq_some_iff.1 ho
        obtain rfl : k = target.id.index + o := by omega
        simp only [ho] at h
        cases hm : m.resolve (o == 0) (target.id.index + o == target.lastIndex) with
        | none => simp [hm] at h
        | some mode =>
          cases hp : splitPieces target (target.id.index + o) o mode with
          | none => simp [hm, hp] at h
          | some p =>
            obtain ⟨first, second, third⟩ := p
            simp only [hm, hp, Option.bind_eq_bind, Option.bind_some, Option.pure_def,
              Option.some.injEq, Prod.mk.injEq] at h
            obtain ⟨rfl, rfl⟩ := h
            have hhead : mode ≠ .after → 0 < o := fun hne => by
              have := SplitMode.resolve_head hm hne
              simp only [beq_eq_false_iff_ne] at this
              omega
            obtain ⟨hsplit, hrun⟩ := splitPieces_isSplit hhead hp
            have hi : i < s.base.nodes.length := (List.getElem?_eq_some_iff.1 ht).1
            refine ⟨target, first :: second :: third.toList, rfl, hsplit, hrun, by simp, hle,
              not_not.1 hk, rfl, ?_, ?_, ?_, splitPieces_inner hp⟩
            · cases mode with
              | before =>
                obtain rfl := splitPieces_third_none hp (by decide)
                simp
              | after =>
                obtain rfl := splitPieces_third_none hp (by decide)
                simp
              | beforeAndAfter =>
                obtain ⟨t, rfl⟩ := splitPieces_third_some hp
                simp
            · cases third with
              | none =>
                show (s.base.nodes.set i first).insertIdx (i + 1) second = _
                rw [Checked.set_insertIdx_eq hi]
                simp
              | some t =>
                show ((s.base.nodes.set i first).insertIdx (i + 1) second).insertIdx (i + 2) t = _
                rw [Checked.set_insertIdx_eq hi]
                have hl : (s.base.nodes.take i ++ [first, second]).length = i + 2 := by
                  simp only [List.length_append, List.length_take, List.length_cons,
                    List.length_nil]
                  omega
                have hins := Checked.insertIdx_append_length (s.base.nodes.take i ++ [first, second])
                  (s.base.nodes.drop (i + 1)) t
                rw [hl] at hins
                simpa using hins
            · cases mode <;> simp

end VecCoalescedLinearData

end Flotsync.LinearData
