import Mathlib

/-!
`TrieMap`: the map from identifiers to values behind group membership, a trie
over identifier segments. Each node holds the value stored at its path and its
children by next segment; `remove` prunes the branches it empties.

Identifiers are lists of segments over any segment type with decidable
equality. The children `AHashMap` is a list of entries in the map's iteration
order, which the traversal follows; a new child goes last. That its segments
are distinct, which the hash map gives for free, is the invariant `Distinct`
that every `TrieMap` carries.
-/

set_option autoImplicit false

namespace Flotsync.Member

universe u v

/-- `TrieNode`. -/
inductive TrieNode (S : Type u) (V : Type v) where
  | mk (value : Option V) (children : List (S × TrieNode S V))

namespace TrieNode

variable {S : Type u} {V : Type v}

def value : TrieNode S V → Option V
  | mk value _ => value

def children : TrieNode S V → List (S × TrieNode S V)
  | mk _ children => children

@[simp] theorem value_mk (value : Option V) (children : List (S × TrieNode S V)) :
    (mk value children).value = value := rfl

@[simp] theorem children_mk (value : Option V) (children : List (S × TrieNode S V)) :
    (mk value children).children = children := rfl

/-- A node with neither a value nor children, as `or_insert_with` creates it. -/
def empty : TrieNode S V := mk none []

/-- Induction over a node with the hypothesis for each of its children, the
shape of every recursion over a whole subtree below. -/
@[induction_eliminator]
theorem rec_mem {motive : TrieNode S V → Prop}
    (mk : ∀ value children, (∀ entry ∈ children, motive entry.2) → motive (mk value children)) :
    ∀ t, motive t :=
  @TrieNode.rec S V motive (fun children => ∀ entry ∈ children, motive entry.2)
    (fun entry => motive entry.2) mk (by simp)
    (fun head tail hhead htail => List.forall_mem_cons.2 ⟨hhead,htail⟩) (fun _ _ h => h)

section Children

variable [DecidableEq S]

/-- `children.get(segment)`. -/
def childAt (children : List (S × TrieNode S V)) (segment : S) : Option (TrieNode S V) :=
  (children.find? (·.1 = segment)).map (·.2)

/-- Storing a child: in place when the segment is present, as a new entry otherwise. -/
def setChild (children : List (S × TrieNode S V)) (segment : S) (child : TrieNode S V) :
    List (S × TrieNode S V) :=
  if children.any (·.1 = segment) then
    children.map fun entry => if entry.1 = segment then (segment,child) else entry
  else children ++ [(segment,child)]

/-- `children.remove(segment)`. -/
def removeChild (children : List (S × TrieNode S V)) (segment : S) : List (S × TrieNode S V) :=
  children.filter (·.1 ≠ segment)

/-- The descent of `TrieMap::insert`: `entry(segment).or_insert_with(..)` at each
segment, then `value.replace(value)`, which gives back the previous value. -/
def insert : TrieNode S V → List S → V → TrieNode S V × Option V
  | mk value children, [], newValue => (mk (some newValue) children,value)
  | mk value children, segment :: rest, newValue =>
    let (child,previous) := ((childAt children segment).getD empty).insert rest newValue
    (mk value (setChild children segment child),previous)

/-- The descent of `TrieMap::get`. -/
def get : TrieNode S V → List S → Option V
  | mk value _, [] => value
  | mk _ children, segment :: rest => (childAt children segment).bind (·.get rest)

/-- `TrieMap::remove_from_node`: take the value at the end of the path and drop
every child on the way back that is left with neither a value nor children. -/
def removeFromNode : TrieNode S V → List S → TrieNode S V × Option V
  | mk value children, [] => (mk none children,value)
  | mk value children, segment :: path =>
    match childAt children segment with
    | none => (mk value children,none)
    | some child =>
      let (child,removed) := child.removeFromNode path
      if child.value.isNone ∧ child.children.isEmpty then
        (mk value (removeChild children segment),removed)
      else (mk value (setChild children segment child),removed)

/-- The node at the end of a path, found the way `get` walks. -/
def nodeAt : TrieNode S V → List S → Option (TrieNode S V)
  | t, [] => some t
  | mk _ children, segment :: rest => (childAt children segment).bind (·.nodeAt rest)

/-- Every node's children have pairwise distinct segments, as an `AHashMap`'s keys do. -/
def Distinct (t : TrieNode S V) : Prop :=
  ∀ path n, t.nodeAt path = some n → (n.children.map (·.1)).Nodup

/-- No node below this one is left with neither a value nor children. -/
def Pruned (t : TrieNode S V) : Prop :=
  ∀ path n, path ≠ [] → t.nodeAt path = some n → n.value.isSome ∨ n.children ≠ []

end Children

mutual
/-- `TrieNode::count`. -/
def count : TrieNode S V → ℕ
  | mk value children => (if value.isSome then 1 else 0) + countChildren children
def countChildren : List (S × TrieNode S V) → ℕ
  | [] => 0
  | (_,child) :: rest => child.count + countChildren rest
end

mutual
/-- The number of nodes of a subtree, which bounds the traversal. -/
def size : TrieNode S V → ℕ
  | mk _ children => 1 + sizeChildren children
def sizeChildren : List (S × TrieNode S V) → ℕ
  | [] => 0
  | (_,child) :: rest => child.size + sizeChildren rest
end

theorem size_eq (t : TrieNode S V) : t.size = 1 + sizeChildren t.children := by
  cases t
  rfl

mutual
/-- The entries below a node in depth-first order: its own value, then each
child's entries in turn, keys relative to the node. -/
def entryList : TrieNode S V → List (List S × V)
  | mk value children => value.toList.map (([] : List S),·) ++ entryListChildren children
def entryListChildren : List (S × TrieNode S V) → List (List S × V)
  | [] => []
  | (segment,child) :: rest =>
    child.entryList.map (fun entry => (segment :: entry.1,entry.2)) ++ entryListChildren rest
end

/-! ### Children -/

section Children

variable [DecidableEq S] {children : List (S × TrieNode S V)} {segment s : S} {child c : TrieNode S V}

@[simp] theorem childAt_nil (s : S) : childAt ([] : List (S × TrieNode S V)) s = none := rfl

theorem childAt_cons (entry : S × TrieNode S V) (rest : List (S × TrieNode S V)) (s : S) :
    childAt (entry :: rest) s = if entry.1 = s then some entry.2 else childAt rest s := by
  by_cases h : entry.1 = s <;> simp [childAt,h]

theorem childAt_eq_some_iff (hnd : (children.map (·.1)).Nodup) :
    childAt children s = some c ↔ (s,c) ∈ children := by
  induction children with
  | nil => simp
  | cons entry rest ih =>
    obtain ⟨s',c'⟩ := entry
    simp only [List.map_cons,List.nodup_cons] at hnd
    rw [childAt_cons,List.mem_cons]
    by_cases hs : s' = s
    · subst hs
      have hnot : (s',c) ∉ rest := fun h => hnd.1 (List.mem_map_of_mem h)
      simp [hnot,eq_comm]
    · simp [hs,Ne.symm hs,ih hnd.2]

theorem childAt_eq_none_iff : childAt children s = none ↔ s ∉ children.map (·.1) := by
  induction children with
  | nil => simp
  | cons entry rest ih =>
    rw [childAt_cons]
    by_cases h : entry.1 = s
    · simp [h]
    · simp [h,Ne.symm h,ih]

theorem childAt_eq_none_iff_any : childAt children s = none ↔ children.any (·.1 = s) = false := by
  induction children with
  | nil => simp
  | cons entry rest ih =>
    rw [childAt_cons]
    by_cases h : entry.1 = s <;> simp [h,ih]

theorem childAt_append (front back : List (S × TrieNode S V)) (s : S) :
    childAt (front ++ back) s = (childAt front s).or (childAt back s) := by
  induction front with
  | nil => simp
  | cons entry rest ih =>
    rw [List.cons_append,childAt_cons,childAt_cons]
    by_cases h : entry.1 = s <;> simp [h,ih]

/-- Replacing the child of one segment in place. -/
theorem childAt_map_replace :
    childAt (children.map fun entry => if entry.1 = segment then (segment,child) else entry) s =
      if s = segment then (childAt children s).map fun _ => child else childAt children s := by
  induction children with
  | nil => simp
  | cons entry rest ih =>
    simp only [List.map_cons,childAt_cons,ih]
    by_cases hs : s = segment
    · subst hs
      by_cases he : entry.1 = s <;> simp [he]
    · by_cases he : entry.1 = segment
      · simp [he,hs,Ne.symm hs]
      · simp [he,hs]

theorem childAt_setChild :
    childAt (setChild children segment child) s = if s = segment then some child else childAt children s := by
  unfold setChild
  split
  · rename_i hany
    rw [childAt_map_replace]
    split
    · subst s
      have hsome : childAt children segment ≠ none := by
        rw [Ne,childAt_eq_none_iff_any,hany]
        decide
      obtain ⟨c,hc⟩ := Option.ne_none_iff_exists'.1 hsome
      simp [hc]
    · rfl
  · rename_i hany
    have hnone : childAt children segment = none :=
      childAt_eq_none_iff_any.2 (Bool.eq_false_iff.2 hany)
    rw [childAt_append]
    by_cases hs : s = segment
    · subst s
      simp [hnone,childAt_cons]
    · simp [childAt_cons,hs,Ne.symm hs]

theorem childAt_removeChild :
    childAt (removeChild children segment) s = if s = segment then none else childAt children s := by
  induction children with
  | nil => simp [removeChild]
  | cons entry rest ih =>
    have hfilter : removeChild (entry :: rest) segment =
        if entry.1 = segment then removeChild rest segment else entry :: removeChild rest segment := by
      by_cases he : entry.1 = segment <;> simp [removeChild,he]
    rw [hfilter]
    by_cases he : entry.1 = segment
    · rw [if_pos he,ih,childAt_cons]
      by_cases hs : s = segment
      · simp [hs]
      · simp [hs,he,Ne.symm hs]
    · rw [if_neg he,childAt_cons,ih,childAt_cons]
      by_cases hs : s = segment
      · subst hs
        simp [he]
      · simp [hs]

theorem setChild_keys_nodup (hnd : (children.map (·.1)).Nodup) :
    ((setChild children segment child).map (·.1)).Nodup := by
  unfold setChild
  split
  · have hkeys : (children.map fun entry => if entry.1 = segment then (segment,child) else entry).map (·.1) =
        children.map (·.1) := by
      simp only [List.map_map]
      refine List.map_congr_left fun entry _ => ?_
      by_cases h : entry.1 = segment <;> simp [h]
    rwa [hkeys]
  · rename_i hany
    have hnot : segment ∉ children.map (·.1) :=
      childAt_eq_none_iff.1 (childAt_eq_none_iff_any.2 (Bool.eq_false_iff.2 hany))
    simp only [List.map_append,List.map_cons,List.map_nil]
    refine List.nodup_append.2 ⟨hnd,List.nodup_singleton _,?_⟩
    intro a ha b hb
    rw [List.mem_singleton] at hb
    rintro rfl
    exact hnot (hb ▸ ha)

theorem removeChild_keys_nodup (hnd : (children.map (·.1)).Nodup) :
    ((removeChild children segment).map (·.1)).Nodup := by
  have hsub : List.Sublist (removeChild children segment) children := List.filter_sublist
  exact (hsub.map _).nodup hnd

theorem setChild_ne_nil : setChild children segment child ≠ [] := by
  unfold setChild
  split
  · rename_i hany
    rintro h
    simp_all
  · simp

end Children

/-! ### Get, insert and remove at a key -/

section Ops

variable [DecidableEq S]

@[simp] theorem get_nil (t : TrieNode S V) : t.get [] = t.value := by
  cases t
  rfl

theorem get_cons (value : Option V) (children : List (S × TrieNode S V)) (segment : S) (rest : List S) :
    (mk value children).get (segment :: rest) = (childAt children segment).bind (·.get rest) := rfl

theorem get_of_isNone {t : TrieNode S V} (hv : t.value.isNone) (hc : t.children.isEmpty) (k : List S) :
    t.get k = none := by
  obtain ⟨value,children⟩ := t
  cases k with
  | nil => simpa using hv
  | cons segment rest => simp_all [get_cons]

@[simp] theorem get_empty (k : List S) : (empty : TrieNode S V).get k = none :=
  get_of_isNone rfl rfl k

theorem getD_empty_get (child : Option (TrieNode S V)) (k : List S) :
    (child.getD empty).get k = child.bind (·.get k) := by
  cases child <;> simp

theorem insert_nil (value : Option V) (children : List (S × TrieNode S V)) (newValue : V) :
    (mk value children).insert [] newValue = (mk (some newValue) children,value) := rfl

theorem insert_cons (value : Option V) (children : List (S × TrieNode S V)) (segment : S)
    (rest : List S) (newValue : V) :
    (mk value children).insert (segment :: rest) newValue =
      (mk value (setChild children segment
          (((childAt children segment).getD empty).insert rest newValue).1),
        (((childAt children segment).getD empty).insert rest newValue).2) := rfl

/-- After `insert`, the key reads back the new value and every other key is unchanged. -/
theorem get_insert (t : TrieNode S V) (key : List S) (newValue : V) (k : List S) :
    (t.insert key newValue).1.get k = if k = key then some newValue else t.get k := by
  induction key generalizing t k with
  | nil =>
    obtain ⟨value,children⟩ := t
    cases k <;> simp [insert_nil,get_cons]
  | cons segment rest ih =>
    obtain ⟨value,children⟩ := t
    cases k with
    | nil => simp [insert_cons]
    | cons s r =>
      simp only [insert_cons,get_cons,childAt_setChild,List.cons.injEq]
      by_cases hs : s = segment
      · subst hs
        simp [ih,getD_empty_get]
      · simp [hs]

/-- `insert` returns the value the key held before. -/
theorem insert_snd (t : TrieNode S V) (key : List S) (newValue : V) :
    (t.insert key newValue).2 = t.get key := by
  induction key generalizing t with
  | nil =>
    obtain ⟨value,children⟩ := t
    rfl
  | cons segment rest ih =>
    obtain ⟨value,children⟩ := t
    rw [insert_cons,ih,getD_empty_get,get_cons]

theorem removeFromNode_nil (value : Option V) (children : List (S × TrieNode S V)) :
    (mk value children).removeFromNode [] = (mk none children,value) := rfl

/-- One level of `remove_from_node` below a present child: the child is
dropped when the removal leaves it with neither a value nor children. -/
theorem removeFromNode_cons_of_some {value : Option V} {children : List (S × TrieNode S V)}
    {segment : S} {child : TrieNode S V} (path : List S) (hc : childAt children segment = some child) :
    (mk value children).removeFromNode (segment :: path) =
      (mk value (if (child.removeFromNode path).1.value.isNone ∧
            (child.removeFromNode path).1.children.isEmpty then removeChild children segment
          else setChild children segment (child.removeFromNode path).1),
        (child.removeFromNode path).2) := by
  simp only [removeFromNode,hc]
  split <;> rfl

theorem removeFromNode_cons_of_none {value : Option V} {children : List (S × TrieNode S V)}
    {segment : S} (path : List S) (hc : childAt children segment = none) :
    (mk value children).removeFromNode (segment :: path) = (mk value children,none) := by
  simp only [removeFromNode,hc]

/-- After `remove_from_node`, the key reads nothing and every other key is unchanged. -/
theorem get_removeFromNode (t : TrieNode S V) (key k : List S) :
    (t.removeFromNode key).1.get k = if k = key then none else t.get k := by
  induction key generalizing t k with
  | nil =>
    obtain ⟨value,children⟩ := t
    cases k <;> simp [removeFromNode_nil,get_cons]
  | cons segment path ih =>
    obtain ⟨value,children⟩ := t
    cases hc : childAt children segment with
    | none =>
      rw [removeFromNode_cons_of_none path hc]
      cases k with
      | nil => simp
      | cons s r =>
        by_cases hk : s :: r = segment :: path
        · obtain ⟨rfl,rfl⟩ := List.cons.inj hk
          simp [get_cons,hc]
        · simp [hk]
    | some child =>
      rw [removeFromNode_cons_of_some path hc]
      cases k with
      | nil => simp
      | cons s r =>
        simp only [get_cons,List.cons.injEq]
        by_cases hs : s = segment
        · subst hs
          split
          · rename_i hempty
            -- the emptied child reads nothing anywhere, so dropping it changes no key
            have hnone := get_of_isNone hempty.1 hempty.2 r
            rw [ih] at hnone
            simp only [childAt_removeChild,if_true,Option.bind_none,hc,Option.bind_some,true_and]
            split
            · rfl
            · simpa [*] using hnone.symm
          · simp [childAt_setChild,hc,ih]
        · split <;> simp [childAt_removeChild,childAt_setChild,hs]

/-- `remove_from_node` returns the value the key held. -/
theorem removeFromNode_snd (t : TrieNode S V) (key : List S) :
    (t.removeFromNode key).2 = t.get key := by
  induction key generalizing t with
  | nil =>
    obtain ⟨value,children⟩ := t
    rfl
  | cons segment path ih =>
    obtain ⟨value,children⟩ := t
    cases hc : childAt children segment with
    | none => simp [removeFromNode_cons_of_none path hc,get_cons,hc]
    | some child => simp [removeFromNode_cons_of_some path hc,get_cons,hc,ih]

end Ops

/-! ### The invariants -/

section Invariants

variable [DecidableEq S] {value : Option V} {children : List (S × TrieNode S V)}

@[simp] theorem nodeAt_nil (t : TrieNode S V) : t.nodeAt [] = some t := by
  cases t
  rfl

theorem nodeAt_cons (segment : S) (rest : List S) :
    (mk value children).nodeAt (segment :: rest) = (childAt children segment).bind (·.nodeAt rest) :=
  rfl

theorem distinct_mk_iff :
    (mk value children).Distinct ↔
      (children.map (·.1)).Nodup ∧ ∀ s c, childAt children s = some c → c.Distinct := by
  constructor
  · intro h
    refine ⟨h [] _ (nodeAt_nil _),fun s c hc path n hn => h (s :: path) n ?_⟩
    rw [nodeAt_cons,hc,Option.bind_some,hn]
  · rintro ⟨hnd,hchildren⟩ path n hn
    cases path with
    | nil =>
      obtain rfl := Option.some.inj ((nodeAt_nil _).symm.trans hn)
      exact hnd
    | cons s path =>
      rw [nodeAt_cons] at hn
      obtain ⟨c,hc,hn⟩ := Option.bind_eq_some_iff.1 hn
      exact hchildren s c hc path n hn

theorem pruned_mk_iff :
    (mk value children).Pruned ↔
      ∀ s c, childAt children s = some c → (c.value.isSome ∨ c.children ≠ []) ∧ c.Pruned := by
  constructor
  · intro h s c hc
    refine ⟨h [s] c (List.cons_ne_nil _ _) (by simp [nodeAt_cons,hc]),
      fun path n hp hn => h (s :: path) n (List.cons_ne_nil _ _) ?_⟩
    rw [nodeAt_cons,hc,Option.bind_some,hn]
  · rintro hchildren path n hp hn
    cases path with
    | nil => exact absurd rfl hp
    | cons s path =>
      rw [nodeAt_cons] at hn
      obtain ⟨c,hc,hn⟩ := Option.bind_eq_some_iff.1 hn
      obtain ⟨hne,hpruned⟩ := hchildren s c hc
      -- the child itself, or a node strictly below it
      cases path with
      | nil =>
        obtain rfl := Option.some.inj ((nodeAt_nil _).symm.trans hn)
        exact hne
      | cons s' path => exact hpruned (s' :: path) n (List.cons_ne_nil _ _) hn

theorem distinct_empty : (empty : TrieNode S V).Distinct :=
  distinct_mk_iff.2 ⟨List.nodup_nil,by simp⟩

theorem pruned_empty : (empty : TrieNode S V).Pruned :=
  pruned_mk_iff.2 (by simp)

theorem Distinct.of_mem (ht : (mk value children).Distinct) {entry : S × TrieNode S V}
    (he : entry ∈ children) : entry.2.Distinct :=
  (distinct_mk_iff.1 ht).2 entry.1 entry.2 ((childAt_eq_some_iff (distinct_mk_iff.1 ht).1).2 he)

/-- Storing a distinct child keeps the children distinct. -/
theorem distinct_mk_setChild {segment : S} {child : TrieNode S V} (hnd : (children.map (·.1)).Nodup)
    (hchildren : ∀ s c, childAt children s = some c → c.Distinct) (hchild : child.Distinct) :
    (mk value (setChild children segment child)).Distinct := by
  refine distinct_mk_iff.2 ⟨setChild_keys_nodup hnd,fun s c hc => ?_⟩
  rw [childAt_setChild] at hc
  split at hc
  · exact Option.some.inj hc ▸ hchild
  · exact hchildren s c hc

/-- Storing a non-empty pruned child keeps the node pruned. -/
theorem pruned_mk_setChild {segment : S} {child : TrieNode S V}
    (hchildren : ∀ s c, childAt children s = some c → (c.value.isSome ∨ c.children ≠ []) ∧ c.Pruned)
    (hne : child.value.isSome ∨ child.children ≠ []) (hchild : child.Pruned) :
    (mk value (setChild children segment child)).Pruned := by
  refine pruned_mk_iff.2 fun s c hc => ?_
  rw [childAt_setChild] at hc
  split at hc
  · exact Option.some.inj hc ▸ ⟨hne,hchild⟩
  · exact hchildren s c hc

theorem Distinct.insert {t : TrieNode S V} (ht : t.Distinct) (key : List S) (newValue : V) :
    (t.insert key newValue).1.Distinct := by
  induction key generalizing t with
  | nil =>
    obtain ⟨value,children⟩ := t
    exact distinct_mk_iff.2 (distinct_mk_iff.1 ht)
  | cons segment rest ih =>
    obtain ⟨value,children⟩ := t
    obtain ⟨hnd,hchildren⟩ := distinct_mk_iff.1 ht
    have hchild : ((childAt children segment).getD empty).Distinct := by
      cases hc : childAt children segment with
      | none => exact distinct_empty
      | some c => exact hchildren segment c hc
    rw [insert_cons]
    exact distinct_mk_setChild hnd hchildren (ih hchild)

/-- The node `insert` ends at holds the new value, so no node it passes is left empty. -/
theorem insert_fst_nonempty (t : TrieNode S V) (key : List S) (newValue : V) :
    (t.insert key newValue).1.value.isSome ∨ (t.insert key newValue).1.children ≠ [] := by
  obtain ⟨value,children⟩ := t
  cases key with
  | nil => simp [insert_nil]
  | cons segment rest =>
    rw [insert_cons]
    exact .inr setChild_ne_nil

theorem Pruned.insert {t : TrieNode S V} (ht : t.Pruned) (key : List S) (newValue : V) :
    (t.insert key newValue).1.Pruned := by
  induction key generalizing t with
  | nil =>
    obtain ⟨value,children⟩ := t
    exact pruned_mk_iff.2 (pruned_mk_iff.1 ht)
  | cons segment rest ih =>
    obtain ⟨value,children⟩ := t
    have hchildren := pruned_mk_iff.1 ht
    have hchild : ((childAt children segment).getD empty).Pruned := by
      cases hc : childAt children segment with
      | none => exact pruned_empty
      | some c => exact (hchildren segment c hc).2
    rw [insert_cons]
    exact pruned_mk_setChild hchildren (insert_fst_nonempty _ _ _) (ih hchild)

theorem Distinct.removeFromNode {t : TrieNode S V} (ht : t.Distinct) (key : List S) :
    (t.removeFromNode key).1.Distinct := by
  induction key generalizing t with
  | nil =>
    obtain ⟨value,children⟩ := t
    exact distinct_mk_iff.2 (distinct_mk_iff.1 ht)
  | cons segment path ih =>
    obtain ⟨value,children⟩ := t
    obtain ⟨hnd,hchildren⟩ := distinct_mk_iff.1 ht
    cases hc : childAt children segment with
    | none => rwa [removeFromNode_cons_of_none path hc]
    | some child =>
      rw [removeFromNode_cons_of_some path hc]
      split
      · refine distinct_mk_iff.2 ⟨removeChild_keys_nodup hnd,fun s c hc' => ?_⟩
        rw [childAt_removeChild] at hc'
        split at hc'
        · cases hc'
        · exact hchildren s c hc'
      · exact distinct_mk_setChild hnd hchildren (ih (hchildren segment child hc))

/-- `remove_from_node` keeps every node below the one it is called on non-empty:
the child it empties is dropped, any other is stored back. -/
theorem Pruned.removeFromNode {t : TrieNode S V} (ht : t.Pruned) (key : List S) :
    (t.removeFromNode key).1.Pruned := by
  induction key generalizing t with
  | nil =>
    obtain ⟨value,children⟩ := t
    exact pruned_mk_iff.2 (pruned_mk_iff.1 ht)
  | cons segment path ih =>
    obtain ⟨value,children⟩ := t
    have hchildren := pruned_mk_iff.1 ht
    cases hc : childAt children segment with
    | none => rwa [removeFromNode_cons_of_none path hc]
    | some child =>
      rw [removeFromNode_cons_of_some path hc]
      split
      · refine pruned_mk_iff.2 fun s c hc' => ?_
        rw [childAt_removeChild] at hc'
        split at hc'
        · cases hc'
        · exact hchildren s c hc'
      · rename_i hkeep
        have hne : (child.removeFromNode path).1.value.isSome ∨
            (child.removeFromNode path).1.children ≠ [] := by
          by_cases hv : (child.removeFromNode path).1.value.isSome
          · exact .inl hv
          · refine .inr fun hnil => hkeep ⟨?_,by simp [hnil]⟩
            simpa using hv
        exact pruned_mk_setChild hchildren hne (ih (hchildren segment child hc).2)

end Invariants

/-! ### The entries below a node -/

section Entries

theorem count_eq_length (t : TrieNode S V) : t.count = t.entryList.length := by
  induction t with
  | mk value children ih =>
    have hchildren : countChildren children = (entryListChildren children).length := by
      induction children with
      | nil => rfl
      | cons entry rest ihr =>
        obtain ⟨segment,child⟩ := entry
        simp only [countChildren,entryListChildren,List.length_append,List.length_map]
        rw [ih _ List.mem_cons_self,ihr fun e he => ih e (List.mem_cons_of_mem _ he)]
    cases value <;> simp [count,entryList,hchildren,Nat.add_comm]

theorem entryList_eq (t : TrieNode S V) :
    t.entryList = t.value.toList.map (([] : List S),·) ++ entryListChildren t.children := by
  cases t
  rfl

theorem mem_entryListChildren {children : List (S × TrieNode S V)} {k : List S} {v : V} :
    (k,v) ∈ entryListChildren children ↔
      ∃ s r c, k = s :: r ∧ (s,c) ∈ children ∧ (r,v) ∈ c.entryList := by
  induction children with
  | nil => simp [entryListChildren]
  | cons entry rest ih =>
    obtain ⟨segment,child⟩ := entry
    simp only [entryListChildren,List.mem_append,List.mem_map,ih,List.mem_cons,Prod.mk.injEq]
    constructor
    · rintro (⟨⟨r,v'⟩,hr,rfl,rfl⟩ | ⟨s,r,c,rfl,hc,hr⟩)
      · exact ⟨segment,r,child,rfl,.inl ⟨rfl,rfl⟩,hr⟩
      · exact ⟨s,r,c,rfl,.inr hc,hr⟩
    · rintro ⟨s,r,c,rfl,(⟨rfl,rfl⟩ | hc),hr⟩
      · exact .inl ⟨(r,v),hr,rfl,rfl⟩
      · exact .inr ⟨s,r,c,rfl,hc,hr⟩

theorem entryListChildren_keys_nodup {children : List (S × TrieNode S V)}
    (hnd : (children.map (·.1)).Nodup) (hkeys : ∀ e ∈ children, (e.2.entryList.map (·.1)).Nodup) :
    ((entryListChildren children).map (·.1)).Nodup := by
  induction children with
  | nil => simp [entryListChildren]
  | cons entry rest ih =>
    obtain ⟨segment,child⟩ := entry
    simp only [List.map_cons,List.nodup_cons] at hnd
    simp only [entryListChildren,List.map_append]
    refine List.nodup_append.2 ⟨?_,ih hnd.2 fun e he => hkeys e (List.mem_cons_of_mem _ he),?_⟩
    · -- one child's keys, all behind the same segment
      have hmap := (hkeys _ List.mem_cons_self).map (List.cons_injective (a := segment))
      simpa [List.map_map,Function.comp_def] using hmap
    · -- a later child's keys start with another segment
      intro a ha b hb hab
      simp only [List.map_map,Function.comp_def] at ha
      obtain ⟨⟨r,v⟩,-,rfl⟩ := List.mem_map.1 ha
      obtain ⟨⟨k,v'⟩,hk,rfl⟩ := List.mem_map.1 hb
      obtain ⟨s,r',c,rfl,hc,-⟩ := mem_entryListChildren.1 hk
      obtain ⟨rfl,-⟩ : segment = s ∧ r = r' := by simpa using hab
      exact hnd.1 (List.mem_map_of_mem hc)

variable [DecidableEq S]

/-- Under `Distinct`, the entries below a node are exactly its bindings. -/
theorem mem_entryList {t : TrieNode S V} (ht : t.Distinct) {k : List S} {v : V} :
    (k,v) ∈ t.entryList ↔ t.get k = some v := by
  induction t generalizing k with
  | mk value children ih =>
    obtain ⟨hnd,hchildren⟩ := distinct_mk_iff.1 ht
    simp only [entryList,List.mem_append,mem_entryListChildren]
    cases k with
    | nil => cases value <;> simp [eq_comm]
    | cons s r =>
      rw [get_cons]
      constructor
      · rintro (h | ⟨s',r',c,heq,hc,hr⟩)
        · simp at h
        · obtain ⟨rfl,rfl⟩ := List.cons.inj heq
          rw [(childAt_eq_some_iff hnd).2 hc,Option.bind_some]
          exact (ih _ hc (ht.of_mem hc)).1 hr
      · intro h
        obtain ⟨c,hcs,hr⟩ := Option.bind_eq_some_iff.1 h
        have hc := (childAt_eq_some_iff hnd).1 hcs
        exact .inr ⟨s,r,c,rfl,hc,(ih _ hc (ht.of_mem hc)).2 hr⟩

/-- Under `Distinct`, no key appears twice among the entries below a node. -/
theorem entryList_keys_nodup {t : TrieNode S V} (ht : t.Distinct) : (t.entryList.map (·.1)).Nodup := by
  induction t with
  | mk value children ih =>
    have hchildren := entryListChildren_keys_nodup (distinct_mk_iff.1 ht).1
      fun e he => ih e he (ht.of_mem he)
    simp only [entryList,List.map_append,List.map_map]
    refine List.nodup_append.2 ⟨?_,hchildren,?_⟩
    · cases value <;> simp
    · -- the node's own key is empty, every child's key is not
      intro a ha b hb hab
      obtain ⟨⟨k,v⟩,hk,rfl⟩ := List.mem_map.1 hb
      obtain ⟨s,r,c,rfl,-,-⟩ := mem_entryListChildren.1 hk
      cases value <;> simp_all

/-- A pruned node that holds a value or a child holds at least one binding. -/
theorem count_pos {t : TrieNode S V} (hne : t.value.isSome ∨ t.children ≠ []) (hp : t.Pruned) :
    0 < t.count := by
  induction t with
  | mk value children ih =>
    cases value with
    | some v => simp [count]
    | none =>
      obtain ⟨⟨segment,child⟩,rest,rfl⟩ := List.exists_cons_of_ne_nil (hne.resolve_left (by simp))
      have hfirst := (pruned_mk_iff.1 hp) segment child (by simp [childAt_cons])
      have hchild : 0 < child.count := ih _ List.mem_cons_self hfirst.1 hfirst.2
      simp only [count,countChildren]
      omega

end Entries

section Ops

variable [DecidableEq S]

theorem removeFromNode_value (t : TrieNode S V) (key : List S) :
    (t.removeFromNode key).1.value = if key = [] then none else t.value := by
  have h := get_removeFromNode t key []
  simp only [get_nil] at h
  rw [h]
  by_cases hk : key = []
  · simp [hk]
  · simp [hk,Ne.symm hk]

end Ops

end TrieNode

/-- `TrieMap`, with the invariant its children maps give. -/
structure TrieMap (S : Type u) (V : Type v) [DecidableEq S] where
  root : TrieNode S V
  distinct : root.Distinct

namespace TrieMap

variable {S : Type u} {V : Type v} [DecidableEq S]

def new : TrieMap S V := ⟨.empty,TrieNode.distinct_empty⟩

/-- `TrieMap::is_empty`: only the root's children are looked at. -/
def isEmpty (m : TrieMap S V) : Bool := m.root.children.isEmpty

def len (m : TrieMap S V) : ℕ := m.root.count

def insert (m : TrieMap S V) (key : List S) (value : V) : TrieMap S V × Option V :=
  (⟨(m.root.insert key value).1,m.distinct.insert key value⟩,(m.root.insert key value).2)

def get (m : TrieMap S V) (key : List S) : Option V := m.root.get key

/-- `TrieMap::remove`; its `debug_assert!` that the root stays valueless panics
only in a build with debug assertions. -/
def remove (debugAssertions : Bool) (m : TrieMap S V) (key : List S) :
    Option (TrieMap S V × Option V) :=
  if debugAssertions ∧ (m.root.removeFromNode key).1.value.isSome then none
  else some (⟨(m.root.removeFromNode key).1,m.distinct.removeFromNode key⟩,(m.root.removeFromNode key).2)

@[simp] theorem get_new (key : List S) : (new : TrieMap S V).get key = none :=
  TrieNode.get_empty key

theorem get_insert (m : TrieMap S V) (key : List S) (value : V) (k : List S) :
    (m.insert key value).1.get k = if k = key then some value else m.get k :=
  TrieNode.get_insert m.root key value k

/-- `insert` returns the previous binding. -/
theorem insert_snd (m : TrieMap S V) (key : List S) (value : V) :
    (m.insert key value).2 = m.get key :=
  TrieNode.insert_snd m.root key value

/-- `remove` panics exactly when debug assertions are on, the removed key is
not the empty identifier, and the empty identifier is bound: the root then
keeps its value. -/
theorem remove_eq_none_iff (debugAssertions : Bool) (m : TrieMap S V) (key : List S) :
    m.remove debugAssertions key = none ↔ debugAssertions = true ∧ key ≠ [] ∧ (m.get []).isSome := by
  simp only [remove,TrieNode.removeFromNode_value,get,TrieNode.get_nil]
  by_cases hk : key = [] <;> simp [hk,Option.ne_none_iff_isSome]

/-- When `remove` returns, the key is unbound, every other key is unchanged,
and the previous binding comes back. -/
theorem remove_spec {debugAssertions : Bool} {m m' : TrieMap S V} {key : List S} {removed : Option V}
    (h : m.remove debugAssertions key = some (m',removed)) :
    (∀ k, m'.get k = if k = key then none else m.get k) ∧ removed = m.get key ∧
      m'.root = (m.root.removeFromNode key).1 := by
  simp only [remove] at h
  split at h
  · cases h
  · obtain ⟨rfl,rfl⟩ := Prod.mk.inj (Option.some.inj h)
    exact ⟨TrieNode.get_removeFromNode m.root key,TrieNode.removeFromNode_snd m.root key,rfl⟩

theorem remove_false (m : TrieMap S V) (key : List S) :
    ∃ m', m.remove false key = some (m',m.get key) := by
  simp [remove,get,TrieNode.removeFromNode_snd]

theorem len_eq_length (m : TrieMap S V) : m.len = m.root.entryList.length :=
  TrieNode.count_eq_length m.root

/-- On a pruned trie, `len() == 0` holds iff `is_empty()` does and the empty
identifier is unbound: `is_empty` misses a value stored at the root. -/
theorem len_eq_zero_iff {m : TrieMap S V} (hp : m.root.Pruned) :
    m.len = 0 ↔ m.isEmpty = true ∧ m.get [] = none := by
  obtain ⟨⟨value,children⟩,hd⟩ := m
  simp only [len,isEmpty,get,TrieNode.get_nil,TrieNode.value_mk,TrieNode.children_mk,List.isEmpty_iff]
  constructor
  · intro h0
    by_contra hne
    have hpos := TrieNode.count_pos (t := TrieNode.mk value children) (by
      rcases value with _ | v
      · exact .inr fun hc => hne ⟨hc,rfl⟩
      · exact .inl rfl) hp
    omega
  · rintro ⟨rfl,rfl⟩
    rfl

theorem pruned_new : (new : TrieMap S V).root.Pruned :=
  TrieNode.pruned_empty

end TrieMap

/-- A value stored under the empty identifier sits at the root, which
`is_empty` does not look at: the map holds one binding and calls itself empty,
and with debug assertions removing any other identifier panics. -/
theorem is_empty_misses_value_at_empty_identifier :
    ((TrieMap.new : TrieMap String ℕ).insert [] 0).1.len = 1 ∧
      ((TrieMap.new : TrieMap String ℕ).insert [] 0).1.isEmpty = true ∧
      ((TrieMap.new : TrieMap String ℕ).insert [] 0).1.get [] = some 0 ∧
      ((TrieMap.new : TrieMap String ℕ).insert [] 0).1.remove true ["alice"] = none :=
  ⟨rfl,rfl,rfl,rfl⟩

end Flotsync.Member
