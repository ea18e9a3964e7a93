import Flotsync.LinearData.VecIntegrity

/-!
The walks of `RightTreeTraversalMemo` along right origins. An insert puts its node
before its successor, so in the states inserts reach every right origin names a node
further right (`RightOriginsAhead`). A walk then only moves right: it needs no more
rounds than there are nodes, and it answers `false` for a boundary that no node to
its right carries.
-/

set_option autoImplicit false

namespace Flotsync.LinearData

variable {Id V : Type*}

/-- Each right origin is the id of a node further right. -/
def RightOriginsAhead (nodes : List (Node Id V)) : Prop :=
  ∀ (i : ℕ) (n : Node Id V) (r : Id), nodes[i]? = some n → n.rightOrigin = some r →
    ∃ (j : ℕ) (m : Node Id V), i < j ∧ nodes[j]? = some m ∧ m.id = r

/-- Where entry `j` of a list is after inserting at `p`. -/
theorem getElem?_insertIdx_shift {α : Type*} {l : List α} {p : ℕ} (x : α) (j : ℕ) :
    (l.insertIdx p x)[if j < p then j else j + 1]? = l[j]? := by
  split_ifs with hj
  · exact List.getElem?_insertIdx_of_lt hj
  · rw [List.getElem?_insertIdx, if_neg (by omega), if_neg (by omega)]
    rfl

/-- An insert at `p` whose right origin is the id of a node at or after `p` keeps
right origins ahead. -/
theorem RightOriginsAhead.insertIdx {nodes : List (Node Id V)} (h : RightOriginsAhead nodes)
    {p succIndex : ℕ} {succNode node : Node Id V} (hp : p ≤ succIndex)
    (hsucc : nodes[succIndex]? = some succNode) (horigin : node.rightOrigin = some succNode.id) :
    RightOriginsAhead (nodes.insertIdx p node) := by
  have hlen : p ≤ nodes.length := by
    have := (List.getElem?_eq_some_iff.1 hsucc).1
    omega
  -- an old node keeps its target, shifted with it when at or after `p`
  have hold : ∀ (i : ℕ) (n : Node Id V) (r : Id), nodes[i]? = some n → n.rightOrigin = some r →
      ∃ (j : ℕ) (m : Node Id V), i < j ∧ (nodes.insertIdx p node)[if j < p then j else j + 1]? = some m ∧ m.id = r := by
    intro i n r hi hr
    obtain ⟨j, m, hij, hj, hm⟩ := h i n r hi hr
    exact ⟨j, m, hij, by rw [getElem?_insertIdx_shift, hj], hm⟩
  intro i n r hi hr
  rw [List.getElem?_insertIdx] at hi
  split_ifs at hi with hlt heq
  · obtain ⟨j, m, hij, hj, hm⟩ := hold i n r hi hr
    exact ⟨_, m, by split_ifs <;> omega, hj, hm⟩
  · -- the new node: its successor moved one place on
    simp only [Option.some.injEq] at hi
    subst hi heq
    rw [horigin, Option.some.injEq] at hr
    subst hr
    have hshift := getElem?_insertIdx_shift (l := nodes) (p := i) node succIndex
    rw [if_neg (by omega), hsucc] at hshift
    exact ⟨succIndex + 1, succNode, by omega, hshift, rfl⟩
  · obtain ⟨j, m, hij, hj, hm⟩ := hold (i - 1) n r hi hr
    exact ⟨_, m, by split_ifs <;> omega, hj, hm⟩

namespace VecLinearData

variable [LinearOrder Id]

/-- A successful insert keeps right origins ahead. -/
theorem RightOriginsAhead.applyOperation {s s' : VecLinearData Id V}
    (h : RightOriginsAhead s.nodes) {id pred succ : Id} {value : V}
    (happly : s.applyOperation (.insert id pred succ value) = some (.ok s')) :
    RightOriginsAhead s'.nodes := by
  rcases applyOperation_eq_ok happly with
    ⟨_, _, _, _, p, hop, -, -, ⟨succIndex, succNode, hp, hsucc, hsuccId⟩, rfl⟩ | ⟨_, _, hop, -⟩
  · cases hop
    exact h.insertIdx hp hsucc (by rw [hsuccId])
  · cases hop

end VecLinearData

namespace RightTreeTraversalMemo

variable [DecidableEq Id] {nodes : List (Node Id V)} {boundary : Id}

/-- The node a right origin resolves to is the first one after `current` with that id. -/
theorem resolveIndex_eq {current j : ℕ} {id : Id} {m : Node Id V} (hlt : current < j)
    (hm : nodes[j]? = some m) (hid : m.id = id)
    (hbefore : ∀ k n, current < k → k < j → nodes[k]? = some n → n.id ≠ id) :
    resolveIndex nodes current id = some j := by
  rw [resolveIndex, Search.findFrom_eq_some_of_first hlt hm (by simpa using hid)
    fun k n hk hkj hn => by simpa using hbefore k n hk hkj hn]
  rfl

/-- A walk that is not at the boundary goes on at the node of its right origin. -/
theorem reachesBoundaryFrom_succ {fuel i k : ℕ} {n : Node Id V} (hi : nodes[i]? = some n)
    (hid : n.id ≠ boundary) {r : Id} (hr : n.rightOrigin = some r)
    (hk : resolveIndex nodes i r = some k) :
    reachesBoundaryFrom nodes boundary (fuel + 1) i = reachesBoundaryFrom nodes boundary fuel k := by
  simp [reachesBoundaryFrom, hi, hid, hr, hk]

theorem reachesBoundaryFrom_boundary {fuel i : ℕ} {n : Node Id V} (hi : nodes[i]? = some n)
    (hid : n.id = boundary) : reachesBoundaryFrom nodes boundary (fuel + 1) i = some true := by
  simp [reachesBoundaryFrom, hi, hid]

/-- With right origins ahead, a walk from `i` meets only nodes from `i` on, and ends
at a node without a right origin before its rounds run out. -/
theorem reachesBoundaryFrom_eq_false (h : RightOriginsAhead nodes) :
    ∀ fuel i, i < nodes.length → nodes.length ≤ i + fuel →
      (∀ j m, i ≤ j → nodes[j]? = some m → m.id ≠ boundary) →
      reachesBoundaryFrom nodes boundary fuel i = some false
  | 0, i, hi, hfuel, _ => by omega
  | fuel + 1, i, hi, hfuel, hnot => by
    obtain ⟨n, hn⟩ : ∃ n, nodes[i]? = some n := ⟨_, List.getElem?_eq_getElem hi⟩
    have hid := hnot i n le_rfl hn
    cases hr : n.rightOrigin with
    | none => simp [reachesBoundaryFrom, hn, hid, hr]
    | some r =>
      -- the walk moves on to the first node to the right that carries `r`
      obtain ⟨j, m, hij, hm, hmid⟩ := h i n r hn hr
      obtain ⟨⟨k, m'⟩, hfind⟩ := Option.isSome_iff_exists.1
        (Search.findFrom_isSome (p := fun n => n.id == r) (Nat.succ_le_of_lt hij) hm
          (by simpa using hmid))
      obtain ⟨hik, hk, -⟩ := Search.findFrom_spec hfind
      have hklt := (List.getElem?_eq_some_iff.1 hk).1
      rw [reachesBoundaryFrom_succ (k := k) hn hid hr (by simp [resolveIndex, hfind])]
      exact reachesBoundaryFrom_eq_false h fuel k hklt (by omega)
        fun j m hkj hm => hnot j m (by omega) hm

theorem firstReaching_of_true {lo : ℕ} (h : reachesBoundary nodes boundary lo = some true)
    (count : ℕ) : firstReaching nodes boundary lo (count + 1) = some (some lo) := by
  simp [firstReaching, h]

theorem firstReaching_eq_none :
    ∀ count lo, (∀ j, lo ≤ j → j < lo + count → reachesBoundary nodes boundary j = some false) →
      firstReaching nodes boundary lo count = some none
  | 0, _, _ => rfl
  | count + 1, lo, h => by
    have hrest := firstReaching_eq_none count (lo + 1) fun j hlo hj => h j (by omega) (by omega)
    simp [firstReaching, h lo le_rfl (by omega), hrest]

end RightTreeTraversalMemo

end Flotsync.LinearData
