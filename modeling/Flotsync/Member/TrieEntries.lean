import Flotsync.Member.Trie

/-!
The traversal `TrieMap::entries`: a depth-first iterator with an explicit stack
of nodes and the children they have still to visit, and a path buffer pushed
and popped beside the stack. Its run from `entries()` yields the trie's
entries in depth-first order, each once, under its full key; `toFinmap` reads
the trie as a finite map through it.
-/

set_option autoImplicit false

namespace Flotsync.Member

universe u v

/-- `TrieEntries`: the stack of nodes with the children they have still to visit,
top first; the path buffer, the path of the top node; whether `current` is
still to be yielded; and `current`. -/
structure TrieEntries (S : Type u) (V : Type v) where
  stack : List (TrieNode S V × List (S × TrieNode S V))
  path : List S
  yieldSelf : Bool
  current : Option (TrieNode S V)

def TrieMap.entries {S : Type u} {V : Type v} [DecidableEq S] (m : TrieMap S V) : TrieEntries S V :=
  ⟨[(m.root,m.root.children)],[],true,some m.root⟩

/-- What one pass of the loop in `TrieEntries::next` does: yield an entry, end
the traversal, or go round again. -/
inductive Pass (S : Type u) (V : Type v) where
  | yield (key : List S) (value : V) (next : TrieEntries S V)
  | done
  | more (next : TrieEntries S V)

namespace TrieEntries

variable {S : Type u} {V : Type v}

/-- The second half of the loop body: pop the top of the stack and descend into
its next child, or drop it with the last segment of the path when it has none
left. -/
def descend (e : TrieEntries S V) : Pass S V :=
  match e.stack with
  | [] => .done
  | (node,children) :: stack =>
    match children with
    | (segment,child) :: rest =>
      -- the remaining children go back first, then the child on top
      .more ⟨(child,child.children) :: (node,rest) :: stack,e.path ++ [segment],true,some child⟩
    | [] => .more ⟨stack,e.path.dropLast,e.yieldSelf,e.current⟩

/-- One pass of the loop in `TrieEntries::next`. -/
def pass (e : TrieEntries S V) : Pass S V :=
  if e.yieldSelf then
    match e.current.bind TrieNode.value with
    | some value => .yield e.path value ⟨e.stack,e.path,false,e.current⟩
    | none => descend ⟨e.stack,e.path,false,e.current⟩
  else descend e

/-- Each pass lowers this: one for a pending `current`, and for each stack entry
one for the entry and three for each node below its remaining children. -/
def measure (e : TrieEntries S V) : ℕ :=
  (if e.yieldSelf then 1 else 0) +
    (e.stack.map fun entry => 1 + 3 * TrieNode.sizeChildren entry.2).sum

/-! ### Termination -/

theorem descend_ne_yield (e : TrieEntries S V) (key : List S) (value : V) (e' : TrieEntries S V) :
    e.descend ≠ .yield key value e' := by
  obtain ⟨stack,path,yieldSelf,current⟩ := e
  rcases stack with _ | ⟨⟨node,children⟩,stack⟩
  · simp [descend]
  · rcases children with _ | ⟨⟨segment,child⟩,rest⟩ <;> simp [descend]

theorem measure_descend {e e' : TrieEntries S V} (h : e.descend = .more e') : e'.measure < e.measure := by
  obtain ⟨stack,path,yieldSelf,current⟩ := e
  rcases stack with _ | ⟨⟨node,children⟩,stack⟩
  · simp [descend] at h
  · rcases children with _ | ⟨⟨segment,child⟩,rest⟩
    · simp only [descend,Pass.more.injEq] at h
      subst h
      simp [measure]
    · simp only [descend,Pass.more.injEq] at h
      subst h
      simp [measure,TrieNode.sizeChildren,TrieNode.size_eq child]
      omega

theorem measure_clear_le (e : TrieEntries S V) :
    (⟨e.stack,e.path,false,e.current⟩ : TrieEntries S V).measure ≤ e.measure := by
  simp [measure]

theorem measure_pass_more {e e' : TrieEntries S V} (h : e.pass = .more e') : e'.measure < e.measure := by
  unfold pass at h
  split at h
  · split at h
    · cases h
    · exact (measure_descend h).trans_le (measure_clear_le e)
  · exact measure_descend h

theorem measure_pass_yield {e e' : TrieEntries S V} {key : List S} {value : V}
    (h : e.pass = .yield key value e') : e'.measure < e.measure := by
  unfold pass at h
  split at h
  · rename_i hy
    split at h
    · cases h
      simp [measure,hy]
    · exact absurd h (descend_ne_yield _ _ _ _)
  · exact absurd h (descend_ne_yield _ _ _ _)

/-- `TrieEntries::next`: loop over `pass` until it yields an entry or the stack is empty. -/
def next (e : TrieEntries S V) : Option ((List S × V) × TrieEntries S V) :=
  match _h : e.pass with
  | .yield key value e' => some ((key,value),e')
  | .done => none
  | .more e' => next e'
termination_by e.measure
decreasing_by exact measure_pass_more _h

theorem next_of_yield {e e' : TrieEntries S V} {key : List S} {value : V}
    (h : e.pass = .yield key value e') : e.next = some ((key,value),e') := by
  rw [next]
  split <;> simp_all

theorem next_of_done {e : TrieEntries S V} (h : e.pass = .done) : e.next = none := by
  rw [next]
  split <;> simp_all

theorem next_of_more {e e' : TrieEntries S V} (h : e.pass = .more e') : e.next = e'.next := by
  rw [next]
  split <;> simp_all

theorem measure_next {e e' : TrieEntries S V} {entry : List S × V} (h : e.next = some (entry,e')) :
    e'.measure < e.measure := by
  induction hm : e.measure using Nat.strong_induction_on generalizing e with
  | _ n ih =>
    subst hm
    cases hp : e.pass with
    | yield key value e'' =>
      rw [next_of_yield hp] at h
      cases h
      exact measure_pass_yield hp
    | done => simp [next_of_done hp] at h
    | more e'' =>
      rw [next_of_more hp] at h
      exact (ih _ (measure_pass_more hp) h rfl).trans (measure_pass_more hp)

/-- The loop of `owned_entries().collect()`: call `next` until it returns `None`. -/
def toList (e : TrieEntries S V) : List (List S × V) :=
  match _h : e.next with
  | none => []
  | some (entry,e') => entry :: toList e'
termination_by e.measure
decreasing_by exact measure_next _h

theorem toList_of_next_none {e : TrieEntries S V} (h : e.next = none) : e.toList = [] := by
  rw [toList]
  split <;> simp_all

theorem toList_of_next_some {e e' : TrieEntries S V} {entry : List S × V}
    (h : e.next = some (entry,e')) : e.toList = entry :: e'.toList := by
  rw [toList]
  split <;> simp_all

/-! ### What is left to yield -/

/-- The entries still to come from a stack whose top node sits at `path`: the
remaining children of each entry, keyed below that entry's path. -/
def pendingStack : List (TrieNode S V × List (S × TrieNode S V)) → List S → List (List S × V)
  | [], _ => []
  | (_,children) :: stack, path =>
    (TrieNode.entryListChildren children).map (fun entry => (path ++ entry.1,entry.2)) ++
      pendingStack stack path.dropLast

/-- The entries the traversal has still to yield, in order. -/
def pending (e : TrieEntries S V) : List (List S × V) :=
  (if e.yieldSelf then (e.current.bind TrieNode.value).toList.map (e.path,·) else []) ++
    pendingStack e.stack e.path

theorem pending_descend {e e' : TrieEntries S V} (hy : e.yieldSelf = false) (h : e.descend = .more e') :
    e'.pending = e.pending := by
  obtain ⟨stack,path,yieldSelf,current⟩ := e
  subst hy
  rcases stack with _ | ⟨⟨node,children⟩,stack⟩
  · simp [descend] at h
  · rcases children with _ | ⟨⟨segment,child⟩,rest⟩
    · simp only [descend,Pass.more.injEq] at h
      subst h
      simp [pending,pendingStack,TrieNode.entryListChildren]
    · simp only [descend,Pass.more.injEq] at h
      subst h
      -- the child's own value, then its children, keyed below `path ++ [segment]`
      simp [pending,pendingStack,TrieNode.entryListChildren,TrieNode.entryList_eq child,
        Function.comp_def]

theorem pending_descend_done {e : TrieEntries S V} (h : e.descend = .done) :
    pendingStack e.stack e.path = [] := by
  obtain ⟨stack,path,yieldSelf,current⟩ := e
  rcases stack with _ | ⟨⟨node,children⟩,stack⟩
  · rfl
  · rcases children with _ | ⟨⟨segment,child⟩,rest⟩ <;> simp [descend] at h

theorem pending_pass_yield {e e' : TrieEntries S V} {key : List S} {value : V}
    (h : e.pass = .yield key value e') : e.pending = (key,value) :: e'.pending := by
  unfold pass at h
  split at h
  · rename_i hy
    split at h
    · rename_i hv
      cases h
      simp [pending,hy,hv]
    · exact absurd h (descend_ne_yield _ _ _ _)
  · exact absurd h (descend_ne_yield _ _ _ _)

theorem pending_pass_more {e e' : TrieEntries S V} (h : e.pass = .more e') : e.pending = e'.pending := by
  unfold pass at h
  split at h
  · rename_i hy
    split at h
    · cases h
    · rename_i hv
      rw [pending_descend rfl h]
      simp [pending,hy,hv]
  · rename_i hy
    exact (pending_descend (by simpa using hy) h).symm

theorem pending_pass_done {e : TrieEntries S V} (h : e.pass = .done) : e.pending = [] := by
  unfold pass at h
  split at h
  · rename_i hy
    split at h
    · cases h
    · rename_i hv
      simpa [pending,hy,hv] using pending_descend_done h
  · rename_i hy
    simpa [pending,hy] using pending_descend_done h

/-- `next` yields the first pending entry and leaves the rest pending. -/
theorem pending_next (e : TrieEntries S V) :
    e.pending = match e.next with
      | none => []
      | some (entry,e') => entry :: e'.pending := by
  induction hm : e.measure using Nat.strong_induction_on generalizing e with
  | _ n ih =>
    subst hm
    cases hp : e.pass with
    | yield key value e' => rw [next_of_yield hp,pending_pass_yield hp]
    | done => rw [next_of_done hp,pending_pass_done hp]
    | more e' => rw [next_of_more hp,pending_pass_more hp,ih _ (measure_pass_more hp) e' rfl]

/-- The whole run of the loop yields exactly what is pending. -/
theorem toList_eq_pending (e : TrieEntries S V) : e.toList = e.pending := by
  induction hm : e.measure using Nat.strong_induction_on generalizing e with
  | _ n ih =>
    subst hm
    cases hn : e.next with
    | none => rw [toList_of_next_none hn,pending_next e,hn]
    | some result =>
      obtain ⟨entry,e'⟩ := result
      rw [toList_of_next_some hn,pending_next e,hn,ih _ (measure_next hn) e' rfl]

end TrieEntries

namespace TrieMap

variable {S : Type u} {V : Type v} [DecidableEq S]

/-- The traversal from `entries()` yields the root's entries in depth-first
order, each under its full key. -/
theorem entries_toList (m : TrieMap S V) : m.entries.toList = m.root.entryList := by
  rw [TrieEntries.toList_eq_pending,m.root.entryList_eq]
  simp [entries,TrieEntries.pending,TrieEntries.pendingStack]

/-- Every bound pair is yielded, and only those. -/
theorem mem_entries_toList {m : TrieMap S V} {k : List S} {v : V} :
    (k,v) ∈ m.entries.toList ↔ m.get k = some v := by
  rw [entries_toList]
  exact TrieNode.mem_entryList m.distinct

/-- No key is yielded twice. -/
theorem entries_toList_keys_nodup (m : TrieMap S V) : (m.entries.toList.map (·.1)).Nodup := by
  rw [entries_toList]
  exact TrieNode.entryList_keys_nodup m.distinct

/-- `len()` counts the entries the traversal yields. -/
theorem len_eq_length_entries (m : TrieMap S V) : m.len = m.entries.toList.length := by
  rw [entries_toList]
  exact len_eq_length m

/-! ### The finite map a trie stands for -/

theorem entries_nodupKeys (m : TrieMap S V) :
    (m.entries.toList.map fun entry => (⟨entry.1,entry.2⟩ : Σ _ : List S, V)).NodupKeys := by
  simpa [List.NodupKeys,List.keys,Function.comp_def] using entries_toList_keys_nodup m

/-- The finite map from identifiers to values, read off the traversal. -/
def toFinmap (m : TrieMap S V) : Finmap fun _ : List S => V :=
  AList.toFinmap ⟨m.entries.toList.map fun entry => ⟨entry.1,entry.2⟩,entries_nodupKeys m⟩

theorem lookup_toFinmap (m : TrieMap S V) (k : List S) : m.toFinmap.lookup k = m.get k := by
  rw [toFinmap,Finmap.lookup_toFinmap]
  refine Option.ext fun v => ?_
  rw [AList.lookup,← Option.mem_def,List.mem_dlookup_iff (entries_nodupKeys m),← mem_entries_toList]
  simp

/-- `len()` is the number of bound identifiers. -/
theorem len_eq_card (m : TrieMap S V) : m.len = m.toFinmap.keys.card := by
  rw [toFinmap,Finset.card_def,Finmap.keys_val,Multiset.coe_card,len_eq_length_entries]
  simp [AList.keys,List.keys]

theorem toFinmap_new : (new : TrieMap S V).toFinmap = ∅ :=
  Finmap.ext_lookup fun k => by rw [lookup_toFinmap,get_new,Finmap.lookup_empty]

/-- `insert` is `Finmap.insert`. -/
theorem toFinmap_insert (m : TrieMap S V) (key : List S) (value : V) :
    (m.insert key value).1.toFinmap = m.toFinmap.insert key value := by
  refine Finmap.ext_lookup fun k => ?_
  rw [lookup_toFinmap,get_insert]
  by_cases hk : k = key
  · subst hk
    rw [if_pos rfl,Finmap.lookup_insert]
  · rw [if_neg hk,Finmap.lookup_insert_of_ne _ hk,lookup_toFinmap]

/-- A `remove` that returns is `Finmap.erase`, and gives back the binding it erased. -/
theorem toFinmap_remove {debugAssertions : Bool} {m m' : TrieMap S V} {key : List S}
    {removed : Option V} (h : m.remove debugAssertions key = some (m',removed)) :
    m'.toFinmap = m.toFinmap.erase key ∧ removed = m.toFinmap.lookup key := by
  obtain ⟨hget,hremoved,-⟩ := remove_spec h
  refine ⟨Finmap.ext_lookup fun k => ?_,by rw [hremoved,lookup_toFinmap]⟩
  rw [lookup_toFinmap,hget]
  by_cases hk : k = key
  · subst hk
    rw [if_pos rfl,Finmap.lookup_erase]
  · rw [if_neg hk,Finmap.lookup_erase_ne hk,lookup_toFinmap]

end TrieMap

/-! ### Runs of calls -/

/-- A call on the map: `insert(key, value)` or `remove(key)`. -/
inductive TrieOp (S : Type u) (V : Type v) where
  | insert (key : List S) (value : V)
  | remove (key : List S)

namespace TrieOp

variable {S : Type u} {V : Type v} [DecidableEq S]

/-- What a call means on a finite map: the map after it and the binding it returns. -/
def applySpec (f : Finmap fun _ : List S => V) : TrieOp S V → (Finmap fun _ : List S => V) × Option V
  | insert key value => (f.insert key value,f.lookup key)
  | remove key => (f.erase key,f.lookup key)

def runSpec (f : Finmap fun _ : List S => V) : List (TrieOp S V) → (Finmap fun _ : List S => V) × List (Option V)
  | [] => (f,[])
  | op :: ops => ((runSpec (applySpec f op).1 ops).1,(applySpec f op).2 :: (runSpec (applySpec f op).1 ops).2)

end TrieOp

namespace TrieMap

variable {S : Type u} {V : Type v} [DecidableEq S]

def apply (debugAssertions : Bool) (m : TrieMap S V) : TrieOp S V → Option (TrieMap S V × Option V)
  | .insert key value => some (m.insert key value)
  | .remove key => m.remove debugAssertions key

/-- A sequence of calls, with the value each returns; `none` if one panics. -/
def run (debugAssertions : Bool) (m : TrieMap S V) : List (TrieOp S V) → Option (TrieMap S V × List (Option V))
  | [] => some (m,[])
  | op :: ops => (m.apply debugAssertions op).bind fun step =>
    (step.1.run debugAssertions ops).map fun rest => (rest.1,step.2 :: rest.2)

/-- One call is its finite-map meaning, and keeps the trie pruned. -/
theorem apply_spec {debugAssertions : Bool} {m m' : TrieMap S V} {op : TrieOp S V} {r : Option V}
    (h : m.apply debugAssertions op = some (m',r)) :
    (m'.toFinmap,r) = TrieOp.applySpec m.toFinmap op ∧ (m.root.Pruned → m'.root.Pruned) := by
  cases op with
  | insert key value =>
    have h' : m.insert key value = (m',r) := Option.some.inj h
    obtain ⟨rfl,rfl⟩ := Prod.ext_iff.1 h'
    exact ⟨by rw [toFinmap_insert,insert_snd,← lookup_toFinmap]; rfl,fun hp => hp.insert key value⟩
  | remove key =>
    obtain ⟨hmap,hr⟩ := toFinmap_remove h
    refine ⟨by rw [hmap,hr]; rfl,fun hp => ?_⟩
    rw [(remove_spec h).2.2]
    exact hp.removeFromNode key

/-- A run that returns is the finite map's run, and keeps the trie pruned. -/
theorem run_spec {debugAssertions : Bool} {ops : List (TrieOp S V)} {m m' : TrieMap S V}
    {rs : List (Option V)} (h : m.run debugAssertions ops = some (m',rs)) :
    (m'.toFinmap,rs) = TrieOp.runSpec m.toFinmap ops ∧ (m.root.Pruned → m'.root.Pruned) := by
  induction ops generalizing m m' rs with
  | nil =>
    obtain ⟨rfl,rfl⟩ := Prod.mk.inj (Option.some.inj h)
    exact ⟨rfl,id⟩
  | cons op ops ih =>
    obtain ⟨⟨m₁,r⟩,h₁,hrest⟩ := Option.bind_eq_some_iff.1 h
    obtain ⟨⟨m₂,rs'⟩,h₂,heq⟩ := Option.map_eq_some_iff.1 hrest
    obtain ⟨rfl,rfl⟩ := Prod.mk.inj heq
    dsimp only at h₂ ⊢
    obtain ⟨hstep,hp₁⟩ := apply_spec h₁
    obtain ⟨hrun,hp₂⟩ := ih h₂
    refine ⟨?_,hp₂ ∘ hp₁⟩
    rw [TrieOp.runSpec,← hstep]
    dsimp only
    rw [← hrun]

/-- Without debug assertions every run returns. -/
theorem run_false_isSome (m : TrieMap S V) (ops : List (TrieOp S V)) : (m.run false ops).isSome := by
  induction ops generalizing m with
  | nil => rfl
  | cons op ops ih =>
    obtain ⟨m₁,r,h₁⟩ : ∃ m₁ r, m.apply false op = some (m₁,r) := by
      cases op with
      | insert key value => exact ⟨_,_,rfl⟩
      | remove key =>
        obtain ⟨m₁,h₁⟩ := remove_false m key
        exact ⟨m₁,_,h₁⟩
    obtain ⟨⟨m₂,rs⟩,h₂⟩ := Option.isSome_iff_exists.1 (ih m₁)
    simp [run,h₁,h₂]

/-- From `new`, in a build without debug assertions, every sequence of calls
runs as the same calls on an empty finite map: each `get` reads the last
insert not followed by a remove, each call returns the previous binding, and
no node below the root is left empty. -/
theorem run_new_refines (ops : List (TrieOp S V)) :
    ∃ m', (new : TrieMap S V).run false ops = some (m',(TrieOp.runSpec ∅ ops).2) ∧
      m'.toFinmap = (TrieOp.runSpec ∅ ops).1 ∧ m'.root.Pruned := by
  obtain ⟨⟨m',rs⟩,h⟩ := Option.isSome_iff_exists.1 (run_false_isSome new ops)
  obtain ⟨hrun,hp⟩ := run_spec h
  rw [toFinmap_new] at hrun
  obtain ⟨hm,hrs⟩ := Prod.mk.inj hrun
  exact ⟨m',by rw [h,← hrs],hm,hp pruned_new⟩

end TrieMap

end Flotsync.Member
