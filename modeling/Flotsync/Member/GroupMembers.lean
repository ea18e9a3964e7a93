import Flotsync.Member.TrieEntries

/-!
`GroupMembers`: the members of one replication group, a `TrieMap` from member
identity to its fixed canonical index. `from_ordered_members` builds it from
the bootstrap order; the order itself is not stored, and `ordered_members`
rebuilds it by sorting the traversal's entries by index.
-/

set_option autoImplicit false

namespace Flotsync.Member

universe u

/-- `MemberIndex(u32)`. -/
abbrev MemberIndex := UInt32

/-- `MemberIndex::try_from(usize)`, through `u32::try_from`. -/
def MemberIndex.tryFrom (value : ℕ) : Option MemberIndex :=
  if h : value < UInt32.size then some (UInt32.ofNatLT value h) else none

theorem MemberIndex.tryFrom_of_lt {value : ℕ} (h : value < UInt32.size) :
    MemberIndex.tryFrom value = some (UInt32.ofNat value) := by
  rw [tryFrom,dif_pos h,UInt32.ofNatLT_eq_ofNat]

theorem MemberIndex.toNat_ofNat_of_lt {i : ℕ} (h : i < UInt32.size) : (UInt32.ofNat i).toNat = i := by
  rw [UInt32.toNat_ofNat']
  exact Nat.mod_eq_of_lt h

/-- `GroupMembersError`. -/
inductive GroupMembersError (S : Type u) where
  | duplicateMember (member : List S)
  | tooManyMembers (memberCount : ℕ)
  deriving DecidableEq, Repr

/-- `GroupMembers`. -/
structure GroupMembers (S : Type u) [DecidableEq S] where
  memberIndices : TrieMap S MemberIndex

namespace GroupMembers

section Traversal

variable {S : Type u}

/-- The loop of `member_at_index`: the first entry of the traversal with that index. -/
def findMember (index : MemberIndex) (e : TrieEntries S MemberIndex) : Option (List S) :=
  match _h : e.next with
  | none => none
  | some ((member,memberIndex),e') => if memberIndex = index then some member else findMember index e'
termination_by e.measure
decreasing_by exact TrieEntries.measure_next _h

/-- `member_at_index` is `find?` over the traversal. -/
theorem findMember_eq (index : MemberIndex) (e : TrieEntries S MemberIndex) :
    findMember index e = (e.toList.find? (·.2 = index)).map (·.1) := by
  induction hm : e.measure using Nat.strong_induction_on generalizing e with
  | _ n ih =>
    subst hm
    rw [findMember]
    split
    · rename_i hn
      rw [TrieEntries.toList_of_next_none hn]
      rfl
    · rename_i member memberIndex e' hn
      rw [TrieEntries.toList_of_next_some hn,List.find?_cons]
      by_cases hi : memberIndex = index
      · simp [hi]
      · simp [hi,ih _ (TrieEntries.measure_next hn) e' rfl]

/-- The members with their positions as `u32` indices, in order. -/
def indexed (members : List (List S)) : List (MemberIndex × List S) :=
  members.mapIdx fun i member => (UInt32.ofNat i,member)

theorem map_snd_indexed (members : List (List S)) : (indexed members).map (·.2) = members := by
  refine List.ext_getElem (by simp [indexed]) fun i h₁ h₂ => ?_
  simp [indexed,List.getElem_mapIdx]

/-- Two positions of a list within the `u32` range never share an index. -/
theorem index_inj {xs : List (List S)} (hlen : xs.length ≤ UInt32.size - 1) {i j : ℕ}
    (hi : i < xs.length) (hj : j < xs.length) (h : UInt32.ofNat i = UInt32.ofNat j) : i = j := by
  have := congrArg UInt32.toNat h
  rwa [MemberIndex.toNat_ofNat_of_lt (by omega),MemberIndex.toNat_ofNat_of_lt (by omega)] at this

theorem indexed_pairwise {xs : List (List S)} (hlen : xs.length ≤ UInt32.size - 1) :
    (indexed xs).Pairwise fun a b => a.1 ≤ b.1 := by
  refine List.pairwise_iff_getElem.2 fun i j hi hj hij => ?_
  simp only [indexed,List.length_mapIdx] at hi hj
  simp only [indexed,List.getElem_mapIdx,UInt32.le_iff_toNat_le]
  rw [MemberIndex.toNat_ofNat_of_lt (by omega),MemberIndex.toNat_ofNat_of_lt (by omega)]
  exact hij.le

/-- Sorting by index with `sort_by_key`. -/
theorem pairwise_sortByIndex (l : List (MemberIndex × List S)) :
    (l.mergeSort fun a b => a.1 ≤ b.1).Pairwise fun a b => a.1 ≤ b.1 := by
  have h := @List.pairwise_mergeSort _ (fun a b => decide (a.1 ≤ b.1))
    (fun a b c hab hbc => by
      simp only [decide_eq_true_eq] at hab hbc ⊢
      exact UInt32.le_trans hab hbc)
    (fun a b => by
      simp only [Bool.or_eq_true,decide_eq_true_eq]
      exact UInt32.le_total a.1 b.1) l
  simpa using h

end Traversal

variable {S : Type u} [DecidableEq S]

/-- The loop of `from_ordered_members` from position `index` on: insert each
member under its index and fail at the first one already present; `none`
where the index conversion's `expect` panics. -/
def insertOrdered (memberIndices : TrieMap S MemberIndex) (index : ℕ) :
    List (List S) → Option (Except (GroupMembersError S) (TrieMap S MemberIndex))
  | [] => some (.ok memberIndices)
  | member :: rest =>
    (MemberIndex.tryFrom index).bind fun memberIndex =>
      if (memberIndices.insert member memberIndex).2.isSome then
        some (.error (.duplicateMember member))
      else insertOrdered (memberIndices.insert member memberIndex).1 (index + 1) rest

/-- `GroupMembers::from_ordered_members`. -/
def fromOrderedMembers (orderedMembers : List (List S)) :
    Option (Except (GroupMembersError S) (GroupMembers S)) :=
  if orderedMembers.length > UInt32.size - 1 then
    some (.error (.tooManyMembers orderedMembers.length))
  else (insertOrdered TrieMap.new 0 orderedMembers).map (Except.map GroupMembers.mk)

def contains (g : GroupMembers S) (member : List S) : Bool :=
  (g.memberIndices.get member).isSome

def memberIndex (g : GroupMembers S) (member : List S) : Option MemberIndex :=
  g.memberIndices.get member

def memberAtIndex (g : GroupMembers S) (index : MemberIndex) : Option (List S) :=
  findMember index g.memberIndices.entries

/-- `ordered_members`: the traversal's entries as (index, member), stably sorted by index. -/
def orderedMembers (g : GroupMembers S) : List (List S) :=
  ((g.memberIndices.entries.toList.map fun entry => (entry.2,entry.1)).mergeSort
    fun a b => a.1 ≤ b.1).map (·.2)

def isEmpty (g : GroupMembers S) : Bool := g.memberIndices.isEmpty

def len (g : GroupMembers S) : ℕ := g.memberIndices.len

/-! ### The construction loop -/

/-- The trie binds exactly `members`, each to its position. -/
def IndexesMembers (memberIndices : TrieMap S MemberIndex) (members : List (List S)) : Prop :=
  ∀ k, memberIndices.get k = if k ∈ members then some (UInt32.ofNat (members.idxOf k)) else none

theorem indexesMembers_new : IndexesMembers (TrieMap.new : TrieMap S MemberIndex) [] := by
  intro k
  simp

theorem IndexesMembers.insert {m : TrieMap S MemberIndex} {p : List (List S)} {x : List S}
    (hm : IndexesMembers m p) (hx : x ∉ p) :
    IndexesMembers (m.insert x (UInt32.ofNat p.length)).1 (p ++ [x]) := by
  intro k
  rw [TrieMap.get_insert,hm k]
  by_cases hk : k = x
  · subst hk
    simp [List.idxOf_append_of_notMem hx]
  · by_cases hp : k ∈ p
    · simp [hk,hp,List.idxOf_append_of_mem hp]
    · simp [hk,hp]

/-- A member already bound stops the loop with `DuplicateMember`. -/
theorem insertOrdered_cons_of_mem {m : TrieMap S MemberIndex} {p : List (List S)} {x : List S}
    (rest : List (List S)) (hm : IndexesMembers m p) (hx : x ∈ p) (hidx : p.length < UInt32.size) :
    insertOrdered m p.length (x :: rest) = some (.error (.duplicateMember x)) := by
  simp [insertOrdered,MemberIndex.tryFrom_of_lt hidx,TrieMap.insert_snd,hm x,hx]

/-- A new member is bound to its position and the loop goes on. -/
theorem insertOrdered_cons_of_not_mem {m : TrieMap S MemberIndex} {p : List (List S)} {x : List S}
    (rest : List (List S)) (hm : IndexesMembers m p) (hx : x ∉ p) (hidx : p.length < UInt32.size) :
    insertOrdered m p.length (x :: rest) =
      insertOrdered (m.insert x (UInt32.ofNat p.length)).1 (p ++ [x]).length rest := by
  simp [insertOrdered,MemberIndex.tryFrom_of_lt hidx,TrieMap.insert_snd,hm x,hx]

theorem insertOrdered_ok {m : TrieMap S MemberIndex} {p : List (List S)} (rest : List (List S))
    (hm : IndexesMembers m p) (hnd : (p ++ rest).Nodup) (hlen : (p ++ rest).length ≤ UInt32.size - 1) :
    ∃ m', insertOrdered m p.length rest = some (.ok m') ∧ IndexesMembers m' (p ++ rest) := by
  induction rest generalizing m p with
  | nil => exact ⟨m,rfl,by simpa using hm⟩
  | cons x rest ih =>
    have hx : x ∉ p := fun hx => (List.nodup_append.1 hnd).2.2 x hx x List.mem_cons_self rfl
    have hidx : p.length < UInt32.size := by simp [UInt32.size] at hlen ⊢; omega
    rw [insertOrdered_cons_of_not_mem rest hm hx hidx]
    simpa using ih (hm.insert hx) (by simpa using hnd) (by simpa using hlen)

theorem insertOrdered_duplicate {m : TrieMap S MemberIndex} {p : List (List S)} (rest : List (List S))
    (hm : IndexesMembers m p) (hp : p.Nodup) (hnd : ¬(p ++ rest).Nodup)
    (hlen : (p ++ rest).length ≤ UInt32.size - 1) :
    ∃ member, insertOrdered m p.length rest = some (.error (.duplicateMember member)) := by
  induction rest generalizing m p with
  | nil => exact absurd (by simpa using hp) hnd
  | cons x rest ih =>
    have hidx : p.length < UInt32.size := by simp [UInt32.size] at hlen ⊢; omega
    by_cases hx : x ∈ p
    · exact ⟨x,insertOrdered_cons_of_mem rest hm hx hidx⟩
    · rw [insertOrdered_cons_of_not_mem rest hm hx hidx]
      -- the repetition is further on
      have hp' : (p ++ [x]).Nodup := List.nodup_append.2 ⟨hp,List.nodup_singleton x,
        fun a ha b hb hab => hx (by rw [← List.mem_singleton.1 hb,← hab]; exact ha)⟩
      exact ih (hm.insert hx) hp' (by simpa using hnd) (by simpa using hlen)

section Build

variable {xs : List (List S)} (hlen : xs.length ≤ UInt32.size - 1)
include hlen

theorem fromOrderedMembers_eq_ok (hnd : xs.Nodup) :
    ∃ m, fromOrderedMembers xs = some (.ok ⟨m⟩) ∧ IndexesMembers m xs := by
  obtain ⟨m,hrun,hm⟩ := insertOrdered_ok (p := []) xs indexesMembers_new hnd hlen
  refine ⟨m,?_,hm⟩
  rw [fromOrderedMembers,if_neg (by omega),← List.length_nil,hrun]
  rfl

theorem fromOrderedMembers_eq_duplicate (hnd : ¬xs.Nodup) :
    ∃ member, fromOrderedMembers xs = some (.error (.duplicateMember member)) := by
  obtain ⟨member,hrun⟩ := insertOrdered_duplicate (p := []) xs indexesMembers_new List.nodup_nil hnd hlen
  refine ⟨member,?_⟩
  rw [fromOrderedMembers,if_neg (by omega),← List.length_nil,hrun]
  rfl

end Build

/-! ### Reading the members back -/

section Indexed

variable {m : TrieMap S MemberIndex} {xs : List (List S)}

theorem mem_indexed_iff (hnd : xs.Nodup) {a : MemberIndex} {k : List S} :
    (a,k) ∈ indexed xs ↔ k ∈ xs ∧ a = UInt32.ofNat (xs.idxOf k) := by
  simp only [indexed,List.mem_mapIdx,Prod.mk.injEq]
  constructor
  · rintro ⟨i,hi,rfl,rfl⟩
    exact ⟨List.getElem_mem hi,by rw [hnd.idxOf_getElem]⟩
  · rintro ⟨hk,rfl⟩
    exact ⟨xs.idxOf k,List.idxOf_lt_length_iff.2 hk,rfl,List.getElem_idxOf _⟩

/-- Within the `u32` range an index names one member. -/
theorem indexed_ext (hnd : xs.Nodup) (hlen : xs.length ≤ UInt32.size - 1) {a b : MemberIndex × List S}
    (ha : a ∈ indexed xs) (hb : b ∈ indexed xs) (h : a.1 = b.1) : a = b := by
  obtain ⟨hka,ha1⟩ := (mem_indexed_iff hnd).1 ha
  obtain ⟨hkb,hb1⟩ := (mem_indexed_iff hnd).1 hb
  have hka' := List.idxOf_lt_length_iff.2 hka
  have hkb' := List.idxOf_lt_length_iff.2 hkb
  have hpos : xs.idxOf a.2 = xs.idxOf b.2 := index_inj hlen hka' hkb' (by rw [← ha1,← hb1,h])
  have hk : a.2 = b.2 := by
    rw [← List.getElem_idxOf hka',← List.getElem_idxOf hkb']
    simp only [hpos]
  exact Prod.ext h hk

theorem mem_entries_iff (hm : IndexesMembers m xs) {k : List S} {a : MemberIndex} :
    (k,a) ∈ m.entries.toList ↔ k ∈ xs ∧ a = UInt32.ofNat (xs.idxOf k) := by
  rw [TrieMap.mem_entries_toList,hm k]
  by_cases hk : k ∈ xs <;> simp [hk,eq_comm]

/-- The traversal's entries, turned into (index, member), are the indexed members in some order. -/
theorem entries_perm_indexed (hm : IndexesMembers m xs) (hnd : xs.Nodup) :
    (m.entries.toList.map fun entry => (entry.2,entry.1)).Perm (indexed xs) := by
  have hentries : (m.entries.toList.map fun entry => (entry.2,entry.1)).Nodup :=
    (List.Nodup.of_map _ (TrieMap.entries_toList_keys_nodup m)).map fun a b h => by
      simpa [Prod.ext_iff,and_comm] using h
  have hindexed : (indexed xs).Nodup := List.Nodup.of_map (·.2) (by rwa [map_snd_indexed])
  refine (List.perm_ext_iff_of_nodup hentries hindexed).2 fun ⟨a,k⟩ => ?_
  rw [mem_indexed_iff hnd,← mem_entries_iff hm]
  simp

/-- Sorting the traversal by index gives back the members in their order. -/
theorem orderedMembers_eq (hm : IndexesMembers m xs) (hnd : xs.Nodup) (hlen : xs.length ≤ UInt32.size - 1) :
    (⟨m⟩ : GroupMembers S).orderedMembers = xs := by
  have hperm := (List.mergeSort_perm (m.entries.toList.map fun entry => (entry.2,entry.1))
    fun a b => decide (a.1 ≤ b.1)).trans (entries_perm_indexed hm hnd)
  have heq := hperm.eq_of_pairwise
    (fun a b ha hb hab hba => indexed_ext hnd hlen (hperm.subset ha) hb (UInt32.le_antisymm hab hba))
    (pairwise_sortByIndex _) (indexed_pairwise hlen)
  rw [orderedMembers,heq,map_snd_indexed]

/-- The first entry with the index of position `i` is the member at `i`. -/
theorem memberAtIndex_eq (hm : IndexesMembers m xs) (hnd : xs.Nodup) (hlen : xs.length ≤ UInt32.size - 1)
    {i : ℕ} (hi : i < xs.length) : (⟨m⟩ : GroupMembers S).memberAtIndex (UInt32.ofNat i) = some xs[i] := by
  rw [memberAtIndex,findMember_eq]
  have hmem : (xs[i],UInt32.ofNat i) ∈ m.entries.toList :=
    (mem_entries_iff hm).2 ⟨List.getElem_mem hi,by rw [hnd.idxOf_getElem]⟩
  have hsome : (m.entries.toList.find? (·.2 = UInt32.ofNat i)).isSome :=
    List.find?_isSome.2 ⟨_,hmem,by simp⟩
  obtain ⟨r,hr⟩ := Option.isSome_iff_exists.1 hsome
  have hri : r.2 = UInt32.ofNat i := by simpa using List.find?_some hr
  obtain ⟨hkr,hr2⟩ := (mem_entries_iff hm).1 (List.mem_of_find?_eq_some hr)
  have hpos : xs.idxOf r.1 = i := index_inj hlen (List.idxOf_lt_length_iff.2 hkr) hi (hr2 ▸ hri)
  rw [hr,Option.map_some]
  subst hpos
  exact congrArg some (List.getElem_idxOf _).symm

theorem len_eq (hm : IndexesMembers m xs) (hnd : xs.Nodup) : (⟨m⟩ : GroupMembers S).len = xs.length := by
  rw [len,TrieMap.len_eq_length_entries,← List.length_map (fun entry => (entry.2,entry.1)),
    (entries_perm_indexed hm hnd).length_eq,indexed,List.length_mapIdx]

end Indexed

/-- `from_ordered_members` on a list within the `u32` range: it never panics,
fails with `DuplicateMember` exactly when a member repeats, and otherwise
builds a trie that gives back each member's position, the whole order, and
the member count. -/
theorem from_ordered_members_indexes_members (xs : List (List S))
    (hlen : xs.length ≤ UInt32.size - 1) :
    ((∃ member, fromOrderedMembers xs = some (.error (.duplicateMember member))) ↔ ¬xs.Nodup) ∧
      ((∃ g, fromOrderedMembers xs = some (.ok g)) ↔ xs.Nodup) ∧
      ∀ g, fromOrderedMembers xs = some (.ok g) →
        g.orderedMembers = xs ∧
        (∀ i (hi : i < xs.length), g.memberIndex xs[i] = some (UInt32.ofNat i) ∧
          g.memberAtIndex (UInt32.ofNat i) = some xs[i]) ∧
        (∀ member, member ∉ xs → g.memberIndex member = none) ∧ g.len = xs.length := by
  -- the two outcomes exclude each other
  have hnd_of_ok : ∀ g, fromOrderedMembers xs = some (.ok g) → xs.Nodup := by
    intro g h
    by_contra hnd
    obtain ⟨member,hdup⟩ := fromOrderedMembers_eq_duplicate hlen hnd
    simp [hdup] at h
  refine ⟨⟨fun ⟨member,h⟩ hnd => ?_,fromOrderedMembers_eq_duplicate hlen⟩,
    ⟨fun ⟨g,h⟩ => hnd_of_ok g h,fun hnd => ?_⟩,fun g h => ?_⟩
  · obtain ⟨m,hok,-⟩ := fromOrderedMembers_eq_ok hlen hnd
    simp [hok] at h
  · obtain ⟨m,hok,-⟩ := fromOrderedMembers_eq_ok hlen hnd
    exact ⟨_,hok⟩
  · have hnd := hnd_of_ok g h
    obtain ⟨m,hok,hm⟩ := fromOrderedMembers_eq_ok hlen hnd
    obtain rfl : g = ⟨m⟩ := by simpa [hok] using h.symm
    refine ⟨orderedMembers_eq hm hnd hlen,fun i hi => ⟨?_,memberAtIndex_eq hm hnd hlen hi⟩,
      fun member hmem => ?_,len_eq hm hnd⟩
    · rw [memberIndex,hm,if_pos (List.getElem_mem hi),hnd.idxOf_getElem]
    · rw [memberIndex,hm,if_neg hmem]

end GroupMembers

/-- The source's nested identities, where one member is a prefix of the others. -/
theorem from_ordered_members_nested_identities :
    let xs : List (List String) := [["bob","phone"],["bob","tablet"],["bob"]]
    xs.length ≤ UInt32.size - 1 ∧
      (((∃ member, GroupMembers.fromOrderedMembers xs = some (.error (.duplicateMember member))) ↔
          ¬xs.Nodup) ∧
        ((∃ g, GroupMembers.fromOrderedMembers xs = some (.ok g)) ↔ xs.Nodup) ∧
        ∀ g, GroupMembers.fromOrderedMembers xs = some (.ok g) →
          g.orderedMembers = xs ∧
          (∀ i (hi : i < xs.length), g.memberIndex xs[i] = some (UInt32.ofNat i) ∧
            g.memberAtIndex (UInt32.ofNat i) = some xs[i]) ∧
          (∀ member, member ∉ xs → g.memberIndex member = none) ∧ g.len = xs.length) :=
  ⟨by decide,GroupMembers.from_ordered_members_indexes_members _ (by decide)⟩

end Flotsync.Member
