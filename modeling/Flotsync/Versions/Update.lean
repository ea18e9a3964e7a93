import Flotsync.Versions.Lattice

/-!
Writing one entry of a version vector: `with_version_at`, which keeps the most
compact representation it can, `increment_at`, which advances one member, and
`missing_version_ranges_to`.

Versions are `u64`. `increment_at` adds with `checked_add` in its `Full` and
`Override` arms and with `+=` in the single-member `Synced` arm; `+=` panics in a
build with overflow checks (a debug build) and wraps in one without (a release
build: the workspace enables no `overflow-checks`), so `incrementAt` takes the
build as its first argument.
-/

set_option autoImplicit false

namespace Flotsync.Versions

open List

/-- `u64::MAX`. -/
def maxVersion : ℕ := 2 ^ 64 - 1

/-- `checked_add(1).expect("Max version reached")`. -/
def checkedIncrement (version : ℕ) : Option ℕ :=
  if version < maxVersion then some (version + 1) else none

/-- `version += 1` on a `u64`, with or without overflow checks. -/
def plainIncrement (overflowChecks : Bool) (version : ℕ) : Option ℕ :=
  if version < maxVersion then some (version + 1)
  else if overflowChecks then none else some ((version + 1) % 2 ^ 64)

namespace PureVersionVector

/-- `v.0[position] = version`, which panics past the end. -/
def set (v : PureVersionVector) (position version : ℕ) : Option PureVersionVector :=
  if position < v.entries.length then
    some ⟨v.entries.set position version,by simpa using v.nonempty⟩
  else none

def incrementAt (v : PureVersionVector) (position : ℕ) : Option PureVersionVector := do
  let version ← v.entries[position]?
  let next ← checkedIncrement version
  v.set position next

/-- `PureVersionVector::with_version_at` recompacts through `from_versions`. -/
def withVersionAt (v : PureVersionVector) (position version : ℕ) : Option VersionVector :=
  (Checked.set v.entries position version).bind VersionVector.fromVersions

end PureVersionVector

namespace OverrideVersion

def withNextVersion (groupVersion overridePosition : ℕ) : Option OverrideVersion :=
  if groupVersion < maxVersion then
    some ⟨groupVersion,overridePosition,groupVersion + 1,Nat.lt_succ_self _⟩
  else none

/-- The fallback of `with_version_at`: expand, write the one entry, and keep the
result `Full` without recompacting it. -/
def fullWithVersionAt (o : OverrideVersion) (numMembers : ℕ+) (position version : ℕ) :
    Option VersionVector :=
  (o.toVector numMembers).bind fun versions => (versions.set position version).map .full

def withVersionAt (o : OverrideVersion) (numMembers : ℕ+) (position version : ℕ) :
    Option VersionVector :=
  if position = o.overridePosition then
    if h : o.groupVersion ≤ version then
      compactGroupOverride numMembers o.overridePosition o.groupVersion version
    else if (numMembers : ℕ) = 2 then
      -- the two members swap roles: the other one is now ahead
      (Checked.sub 1 o.overridePosition).map fun otherPosition =>
        .override numMembers (new version otherPosition o.groupVersion (by omega))
    else o.fullWithVersionAt numMembers position version
  else if version = o.groupVersion then some (.override numMembers o)
  else if (numMembers : ℕ) = 2 then
    if hv : version = o.overrideVersion then some (.synced numMembers version)
    else if h : version < o.overrideVersion then
      some (.override numMembers (new version o.overridePosition o.overrideVersion h))
    else some (.override numMembers (new o.overrideVersion position version (by omega)))
  else o.fullWithVersionAt numMembers position version

end OverrideVersion

/-- `synced_with_version_at`: a lower entry expands the vector to `Full`. -/
def syncedWithVersionAt (numMembers : ℕ+) (groupVersion position version : ℕ) :
    Option VersionVector :=
  if (numMembers : ℕ) = 1 ∨ version = groupVersion then some (.synced numMembers version)
  else if h : groupVersion < version then
    some (.override numMembers (OverrideVersion.new groupVersion position version h))
  else
    (Checked.set (replicate numMembers groupVersion) position version).bind fun versions =>
      (PureVersionVector.from versions).map .full

namespace VersionVector

/-- `version_at`, through `iter().nth`. -/
def versionAt (v : VersionVector) (position : ℕ) : Option ℕ := v.iter[position]?

def withVersionAt (v : VersionVector) (position version : ℕ) : Option VersionVector :=
  if position < v.numMembers then
    match v with
    | .full vector => vector.withVersionAt position version
    | .override numMembers o => o.withVersionAt numMembers position version
    | .synced numMembers groupVersion =>
      syncedWithVersionAt numMembers groupVersion position version
  else none

def incrementAt (overflowChecks : Bool) (v : VersionVector) (position : ℕ) :
    Option VersionVector :=
  if position < v.numMembers then
    match v with
    | .full f => (f.incrementAt position).map .full
    | .override numMembers o =>
      if position = o.overridePosition then
        -- `checked_add(1)` on the override version
        if o.overrideVersion < maxVersion then
          some (.override numMembers
            ⟨o.groupVersion,o.overridePosition,o.overrideVersion + 1,by have := o.valid; omega⟩)
        else none
      else (o.toVector numMembers).bind fun full => (full.incrementAt position).map .full
    | .synced numMembers version =>
      if (numMembers : ℕ) = 1 then (plainIncrement overflowChecks version).map (.synced numMembers)
      else (OverrideVersion.withNextVersion version position).map (.override numMembers)
  else none

end VersionVector

structure VersionVectorGap where
  memberIndex : ℕ
  startVersion : ℕ
  endVersion : ℕ
deriving DecidableEq, Repr

namespace VersionVector

/-- `missing_version_ranges_to`: one gap for each member that `other` has seen
further than `self`. -/
def missingVersionRangesTo (self other : VersionVector) : Option (List VersionVectorGap) := do
  assertSameMemberCount self other
  return (self.iter.zip other.iter).zipIdx.filterMap fun ((localVersion,remoteVersion),i) =>
    if remoteVersion > localVersion then some ⟨i,localVersion + 1,remoteVersion⟩ else none

end VersionVector

/-! ## The most compact representation of an entry list -/

inductive Representation where
  | full
  | override
  | synced
deriving DecidableEq, Repr

def VersionVector.representation : VersionVector → Representation
  | .full _ => .full
  | .override _ _ => .override
  | .synced _ _ => .synced

def AllEqual (xs : List ℕ) : Prop := ∀ a ∈ xs, ∀ b ∈ xs, a = b

/-- Exactly one entry is strictly greater than all the others, which are equal. -/
def OneAhead (xs : List ℕ) : Prop :=
  ∃ p g o : ℕ, p < xs.length ∧ g < o ∧ xs = (range xs.length).map fun i => if i = p then o else g

/-- `Synced` exactly when all entries are equal, `Override` exactly when otherwise
one entry is ahead of the others, `Full` else. -/
def MostCompact (xs : List ℕ) (r : Representation) : Prop :=
  (r = .synced ↔ AllEqual xs) ∧ (r = .override ↔ ¬ AllEqual xs ∧ OneAhead xs)

section Compact

variable {xs : List ℕ}

theorem mostCompact_synced (h : AllEqual xs) : MostCompact xs .synced := by
  simp [MostCompact,h]

theorem mostCompact_override (h₁ : ¬ AllEqual xs) (h₂ : OneAhead xs) : MostCompact xs .override := by
  simp [MostCompact,h₁,h₂]

theorem mostCompact_full (h₁ : ¬ AllEqual xs) (h₂ : ¬ OneAhead xs) : MostCompact xs .full := by
  simp [MostCompact,h₁,h₂]

theorem allEqual_replicate (n g : ℕ) : AllEqual (replicate n g) := by
  intro a ha b hb
  rw [eq_of_mem_replicate ha,eq_of_mem_replicate hb]

theorem not_allEqual {i j a b : ℕ} (hi : xs[i]? = some a) (hj : xs[j]? = some b) (hab : a ≠ b) :
    ¬ AllEqual xs :=
  fun h => hab (h a (mem_of_getElem? hi) b (mem_of_getElem? hj))

/-- The entries of a one-ahead list, read back by position. -/
theorem OneAhead.getElem? (h : OneAhead xs) :
    ∃ p g o : ℕ, g < o ∧ ∀ i x, xs[i]? = some x → x = if i = p then o else g := by
  obtain ⟨p,g,o,-,hgo,hxs⟩ := h
  refine ⟨p,g,o,hgo,fun i x hx => ?_⟩
  rw [hxs,getElem?_map,Option.map_eq_some_iff] at hx
  obtain ⟨k,hk,rfl⟩ := hx
  obtain ⟨_,hik⟩ := List.getElem?_eq_some_iff.1 hk
  rw [getElem_range] at hik
  rw [hik]

/-- Two equal entries above a third: none of the three is alone ahead. -/
theorem not_oneAhead_of_pair_above {i j k m x : ℕ} (hij : i ≠ j) (hi : xs[i]? = some m)
    (hj : xs[j]? = some m) (hk : xs[k]? = some x) (hx : x < m) : ¬ OneAhead xs := by
  intro h
  obtain ⟨p,g,o,hgo,hget⟩ := OneAhead.getElem? h
  have hi' := hget i m hi
  have hj' := hget j m hj
  have hk' := hget k x hk
  split_ifs at hi' hj' hk' <;> omega

/-- A one-ahead list holds two values only. -/
theorem not_oneAhead_of_three_values {i j k a b c : ℕ} (hi : xs[i]? = some a)
    (hj : xs[j]? = some b) (hk : xs[k]? = some c) (hab : a ≠ b) (hbc : b ≠ c) (hac : a ≠ c) :
    ¬ OneAhead xs := by
  intro h
  obtain ⟨p,g,o,-,hget⟩ := OneAhead.getElem? h
  have hi' := hget i a hi
  have hj' := hget j b hj
  have hk' := hget k c hk
  split_ifs at hi' hj' hk' <;> omega

theorem getElem?_map_range {n i : ℕ} (f : ℕ → ℕ) (hi : i < n) :
    ((range n).map f)[i]? = some (f i) := by
  simp [hi]

/-- The entries of a group version with one exception at `p`. -/
theorem getElem?_exception {n p i o g : ℕ} (hi : i < n) :
    ((range n).map fun k => if k = p then o else g)[i]? = some (if i = p then o else g) :=
  getElem?_map_range _ hi

theorem exists_third {n : ℕ} (hn : 3 ≤ n) (a b : ℕ) : ∃ q < n, q ≠ a ∧ q ≠ b :=
  ⟨if a ≠ 0 ∧ b ≠ 0 then 0 else if a ≠ 1 ∧ b ≠ 1 then 1 else 2,
    by split_ifs <;> omega,by split_ifs <;> omega,by split_ifs <;> omega⟩

theorem oneAhead_exception {n p o g : ℕ} (hp : p < n) (hgo : g < o) :
    OneAhead ((range n).map fun k => if k = p then o else g) :=
  ⟨p,g,o,by simpa using hp,hgo,by simp⟩

theorem not_allEqual_exception {n p o g : ℕ} (hn : 2 ≤ n) (hp : p < n) (hgo : g ≠ o) :
    ¬ AllEqual ((range n).map fun k => if k = p then o else g) := by
  -- a second position holds the group version
  obtain ⟨q,hq,hqp⟩ : ∃ q < n, q ≠ p := ⟨if p = 0 then 1 else 0,by split <;> omega,by split <;> omega⟩
  refine not_allEqual (getElem?_exception hp) (getElem?_exception hq) ?_
  simp [hqp,Ne.symm hgo]

/-- The group version `g` everywhere but one entry `o` ahead of it at `p`, in `n ≥ 2` members:
a well-formed `Override`, the most compact form of its entries. -/
theorem override_new_spec {n : ℕ+} {g p o : ℕ} (hgo : g < o) (hn : 2 ≤ (n : ℕ)) (hp : p < n) :
    (VersionVector.override n (OverrideVersion.new g p o hgo)).iter =
        (range n).map (fun i => if i = p then o else g) ∧
      (VersionVector.override n (OverrideVersion.new g p o hgo)).WellFormed ∧
      MostCompact (VersionVector.override n (OverrideVersion.new g p o hgo)).iter
        (VersionVector.override n (OverrideVersion.new g p o hgo)).representation := by
  have hiter : (VersionVector.override n (OverrideVersion.new g p o hgo)).iter =
      (range n).map (fun i => if i = p then o else g) := rfl
  refine ⟨hiter,⟨hn,hp⟩,?_⟩
  rw [hiter]
  exact mostCompact_override (not_allEqual_exception hn hp (Nat.ne_of_lt hgo)) (oneAhead_exception hp hgo)

/-- A group version with one lower exception, in three or more members: two
members stay above it. -/
theorem not_oneAhead_lower_exception {n p x g : ℕ} (hn : 3 ≤ n) (hp : p < n) (hx : x < g) :
    ¬ OneAhead ((range n).map fun k => if k = p then x else g) := by
  obtain ⟨q,r,hq,hr,hqp,hrp,hqr⟩ : ∃ q r, q < n ∧ r < n ∧ q ≠ p ∧ r ≠ p ∧ q ≠ r := by
    rcases Nat.lt_or_ge p 2 with hp2 | hp2
    · exact ⟨2,1 - p,by omega,by omega,by omega,by omega,by omega⟩
    · exact ⟨0,1,by omega,by omega,by omega,by omega,by omega⟩
  have hq' : ((range n).map fun k => if k = p then x else g)[q]? = some g := by
    rw [getElem?_exception hq,if_neg hqp]
  have hr' : ((range n).map fun k => if k = p then x else g)[r]? = some g := by
    rw [getElem?_exception hr,if_neg hrp]
  have hp' : ((range n).map fun k => if k = p then x else g)[p]? = some x := by
    rw [getElem?_exception hp,if_pos rfl]
  exact not_oneAhead_of_pair_above hqr hq' hr' hp' hx

end Compact

/-! ## `from_versions` picks the most compact representation -/

theorem exception_eq_replicate_append {m q o g : ℕ} (hq : q < m) :
    ((range m).map fun i => if i = q then o else g) =
      replicate q g ++ o :: replicate (m - (q + 1)) g := by
  induction q generalizing m with
  | zero =>
    obtain ⟨m,rfl⟩ : ∃ m', m = m' + 1 := ⟨m - 1,by omega⟩
    rw [range_succ_eq_map,map_cons,map_map]
    simp [Function.comp_def]
  | succ q ih =>
    obtain ⟨m,rfl⟩ : ∃ m', m = m' + 1 := ⟨m - 1,by omega⟩
    rw [range_succ_eq_map,map_cons,map_map,if_neg (by omega)]
    have hshift : ((fun i => if i = q + 1 then o else g) ∘ Nat.succ) =
        fun i => if i = q then o else g := by
      funext i
      simp
    rw [hshift,ih (by omega)]
    simp [replicate_succ]

namespace OverrideVersion.Scan

theorem step_group (s : Scan) (k : ℕ) : s.step k s.groupCandidateVersion = some s := by
  simp [step]

theorem run_replicate (s : Scan) (k m : ℕ) :
    s.run k (replicate m s.groupCandidateVersion) = some s := by
  induction m generalizing k with
  | zero => rfl
  | succ m ih => simp only [replicate_succ,run,step_group,Option.bind_some,ih]

theorem run_append (s : Scan) (k : ℕ) (l₁ l₂ : List ℕ) :
    s.run k (l₁ ++ l₂) = (s.run k l₁).bind fun s' => s'.run (k + l₁.length) l₂ := by
  induction l₁ generalizing s k with
  | nil => simp [run]
  | cons x l₁ ih =>
    simp only [cons_append,run,length_cons]
    cases s.step k x with
    | none => rfl
    | some s₁ =>
      simp only [Option.bind_some,ih]
      rw [Nat.add_assoc,Nat.add_comm 1]

end OverrideVersion.Scan

/-- Every one-ahead list is recognised by the scan, wherever the entry ahead is. -/
theorem OverrideVersion.tryFromVersions_of_oneAhead {first : ℕ} {rest : List ℕ}
    (h : OneAhead (first :: rest)) (hne : ¬ AllEqual (first :: rest)) :
    ∃ o, tryFromVersions first rest = some o := by
  obtain ⟨p,g,o,hp,hgo,hxs⟩ := h
  rw [length_cons,range_succ_eq_map,map_cons,map_map,cons.injEq,Function.comp_def] at hxs
  obtain ⟨rfl,hrest⟩ := hxs
  have hrest' : rest = (range rest.length).map fun i => if i + 1 = p then o else g := hrest
  rcases Nat.eq_zero_or_pos p with rfl | hp0
  · -- the first entry is ahead: the second one reveals it
    rw [if_pos rfl]
    have hrep : rest = replicate rest.length g := by
      conv_lhs => rw [hrest']
      simp
    cases hlen : rest.length with
    | zero =>
      rw [hlen] at hrep
      subst hrep
      exact (hne fun a ha b hb => by rw [mem_singleton.1 ha,mem_singleton.1 hb]).elim
    | succ m =>
      rw [hlen,replicate_succ] at hrep
      have hstep : Scan.step ⟨o,none,0⟩ 1 g = some ⟨g,some 0,o⟩ := by
        simp [Scan.step,Nat.ne_of_lt hgo,not_lt_of_gt hgo]
      have hrun : (⟨g,some 0,o⟩ : Scan).run (1 + 1) (replicate m g) = some ⟨g,some 0,o⟩ :=
        Scan.run_replicate _ _ m
      rw [hrep]
      simp only [tryFromVersions,Scan.run,hstep,Option.bind_some,hrun]
      simp [newOpt,hgo]
  · -- a later entry is ahead: the scan meets it after a run of group versions
    rw [if_neg (by omega)]
    have hsplit : rest = replicate (p - 1) g ++ o :: replicate (rest.length - p) g := by
      have hp' : p - 1 < rest.length := by simp at hp; omega
      have hshift : (fun i => if i + 1 = p then o else g) = fun i => if i = p - 1 then o else g := by
        funext i
        simp only [show (i + 1 = p ↔ i = p - 1) by omega]
      conv_lhs => rw [hrest',hshift,exception_eq_replicate_append hp']
      congr 3
      omega
    have hstep : Scan.step ⟨g,none,0⟩ p o = some ⟨g,some p,o⟩ := by
      simp [Scan.step,Nat.ne_of_gt hgo,hgo]
    have hrun₁ : (⟨g,none,0⟩ : Scan).run 1 (replicate (p - 1) g) = some ⟨g,none,0⟩ :=
      Scan.run_replicate _ _ _
    have hrun₂ : (⟨g,some p,o⟩ : Scan).run (p + 1) (replicate (rest.length - p) g) =
        some ⟨g,some p,o⟩ :=
      Scan.run_replicate _ _ _
    simp only [tryFromVersions]
    rw [hsplit,Scan.run_append,hrun₁,Option.bind_some,length_replicate,
      show 1 + (p - 1) = p by omega,Scan.run,hstep,Option.bind_some,hrun₂]
    simp [newOpt,hgo]

theorem all_beq_iff_allEqual (first : ℕ) (rest : List ℕ) :
    (first :: rest).all (· == first) = true ↔ AllEqual (first :: rest) := by
  simp only [all_eq_true,beq_iff_eq]
  constructor
  · intro h a ha b hb
    rw [h a ha,h b hb]
  · intro h a ha
    exact h a ha first mem_cons_self

namespace VersionVector

theorem fromVersions_representation {versions : List ℕ} {v : VersionVector}
    (h : fromVersions versions = some v) : MostCompact versions v.representation := by
  cases versions with
  | nil => cases h
  | cons first rest =>
    simp only [fromVersions] at h
    split at h
    · rename_i hall
      cases h
      exact mostCompact_synced ((all_beq_iff_allEqual first rest).1 hall)
    · rename_i hall
      have hne : ¬ AllEqual (first :: rest) := fun h => hall ((all_beq_iff_allEqual first rest).2 h)
      split at h
      · rename_i o ho
        cases h
        obtain ⟨hmap,hp⟩ := OverrideVersion.tryFromVersions_spec ho
        refine mostCompact_override hne ⟨o.overridePosition,o.groupVersion,o.overrideVersion,
          by simpa using hp,o.valid,?_⟩
        rw [← hmap]
        simp [OverrideVersion.entry]
      · rename_i hnone
        cases h
        refine mostCompact_full hne fun hone => ?_
        obtain ⟨o,ho⟩ := OverrideVersion.tryFromVersions_of_oneAhead hone hne
        rw [hnone] at ho
        cases ho

/-- `from_versions` keeps the entries in their most compact representation. -/
theorem fromVersions_mostCompact {versions : List ℕ} (h : versions ≠ []) :
    ∃ v, fromVersions versions = some v ∧ v.iter = versions ∧ v.WellFormed ∧
      MostCompact versions v.representation := by
  obtain ⟨v,hv,hiter,hwf⟩ := fromVersions_spec h
  exact ⟨v,hv,hiter,hwf,fromVersions_representation hv⟩

end VersionVector

/-! ## `with_version_at` -/

theorem map_range_set (n p x : ℕ) (f : ℕ → ℕ) :
    ((range n).map f).set p x = (range n).map fun i => if i = p then x else f i := by
  apply ext_getElem
  · simp
  · intro i h₁ h₂
    simp only [getElem_set,getElem_map,getElem_range]
    by_cases hi : i = p
    · simp [hi]
    · simp [hi,Ne.symm hi]

theorem PureVersionVector.set_eq {v : PureVersionVector} {p : ℕ} (x : ℕ) (hp : p < v.entries.length) :
    ∃ w, v.set p x = some w ∧ w.entries = v.entries.set p x := by
  simp [PureVersionVector.set,hp]

theorem OverrideVersion.toVector_eq {o : OverrideVersion} {n : ℕ+} (hop : o.overridePosition < n) :
    ∃ f, o.toVector n = some f ∧ f.entries = (range n).map o.entry := by
  have hlen : o.overridePosition < (replicate n o.groupVersion).length := by simpa using hop
  have hne : (replicate n o.groupVersion).set o.overridePosition o.overrideVersion ≠ [] := by
    simp [n.ne_zero]
  simp only [toVector,Checked.set_of_lt _ hlen,Option.bind_some,PureVersionVector.from_eq_some hne]
  refine ⟨_,rfl,?_⟩
  show (replicate n o.groupVersion).set o.overridePosition o.overrideVersion = _
  rw [Checked.replicate_set_eq_map_range]
  rfl

/-- The group version with one entry at or above it is `Synced` or `Override`. -/
theorem compactGroupOverride_mostCompact {n : ℕ+} {p g o : ℕ} (hn : 2 ≤ (n : ℕ)) (hp : p < n)
    (hgo : g ≤ o) :
    ∃ v, compactGroupOverride n p g o = some v ∧
      v.iter = (range n).map (fun i => if i = p then o else g) ∧ v.WellFormed ∧
      MostCompact v.iter v.representation := by
  unfold compactGroupOverride
  split
  · rename_i hg
    subst hg
    refine ⟨_,rfl,by simp [VersionVector.iter],trivial,mostCompact_synced (allEqual_replicate _ _)⟩
  · rename_i hg
    rw [dif_pos (by omega)]
    obtain ⟨hiter,hwf,hc⟩ := override_new_spec (show g < o by omega) hn hp
    exact ⟨_,rfl,hiter,hwf,hc⟩

theorem syncedWithVersionAt_spec {n : ℕ+} {g p x : ℕ} (hp : p < n) :
    ∃ v, syncedWithVersionAt n g p x = some v ∧ v.iter = (replicate n g).set p x ∧
      v.WellFormed ∧ (MostCompact v.iter v.representation ∨ (n : ℕ) = 2 ∧ x < g) := by
  unfold syncedWithVersionAt
  split
  · -- one member, or the group version written again
    rename_i h
    refine ⟨_,rfl,?_,trivial,.inl (mostCompact_synced (allEqual_replicate _ _))⟩
    rcases h with h | rfl
    · obtain rfl : p = 0 := by omega
      simp [VersionVector.iter,h]
    · simp [VersionVector.iter]
  · rename_i h
    have hn : 2 ≤ (n : ℕ) := by have := n.pos; omega
    have hxg : x ≠ g := fun hx => h (.inr hx)
    split
    · rename_i hgx
      obtain ⟨hiter,hwf,hc⟩ := override_new_spec hgx hn hp
      exact ⟨_,rfl,by rw [hiter,Checked.replicate_set_eq_map_range],hwf,.inl hc⟩
    · -- a lower entry: the vector is expanded
      rename_i hgx
      have hlen : p < (replicate n g).length := by simpa using hp
      have hne : (replicate n g).set p x ≠ [] := by simp [n.ne_zero]
      simp only [Checked.set_of_lt _ hlen,Option.bind_some,PureVersionVector.from_eq_some hne,
        Option.map_some]
      refine ⟨_,rfl,rfl,trivial,?_⟩
      rcases Nat.lt_or_ge (n : ℕ) 3 with h3 | h3
      · exact .inr ⟨by omega,by omega⟩
      · refine .inl (mostCompact_full ?_ ?_) <;>
          simp only [VersionVector.iter,Checked.replicate_set_eq_map_range]
        · obtain ⟨q,hq,hqp⟩ : ∃ q < (n : ℕ), q ≠ p :=
            ⟨if p = 0 then 1 else 0,by split <;> omega,by split <;> omega⟩
          refine not_allEqual (getElem?_exception hp) (getElem?_exception hq) ?_
          simp [hqp,hxg]
        · exact not_oneAhead_lower_exception h3 hp (by omega)

namespace OverrideVersion

theorem fullWithVersionAt_eq {o : OverrideVersion} {n : ℕ+} {p : ℕ} (x : ℕ)
    (hop : o.overridePosition < n) (hp : p < n) :
    ∃ w, o.fullWithVersionAt n p x = some (.full w) ∧
      w.entries = (range n).map fun i => if i = p then x else o.entry i := by
  obtain ⟨f,hf,hfe⟩ := toVector_eq hop
  obtain ⟨w,hw,hwe⟩ := PureVersionVector.set_eq x (show p < f.entries.length by simpa [hfe] using hp)
  refine ⟨w,by simp [fullWithVersionAt,hf,hw],?_⟩
  rw [hwe,hfe,map_range_set]

/-- Every arm of `OverrideVersion::with_version_at` writes the one entry and keeps
the most compact representation. -/
theorem withVersionAt_spec {o : OverrideVersion} {n : ℕ+} {p x : ℕ} (hn : 2 ≤ (n : ℕ))
    (hop : o.overridePosition < n) (hp : p < n) :
    ∃ v, o.withVersionAt n p x = some v ∧
      v.iter = (range n).map (fun i => if i = p then x else o.entry i) ∧ v.WellFormed ∧
      MostCompact v.iter v.representation := by
  have hgo := o.valid
  unfold withVersionAt
  split
  · -- the member ahead is written
    rename_i hpo
    subst hpo
    split
    · rename_i hgx
      obtain ⟨v,hv,hiter,hwf,hc⟩ := compactGroupOverride_mostCompact hn hop hgx
      refine ⟨v,hv,?_,hwf,hc⟩
      rw [hiter]
      apply map_congr_left
      intro i _
      by_cases hi : i = o.overridePosition <;> simp [hi,entry]
    · rename_i hgx
      split
      · -- two members: the other one is now ahead
        rename_i h2
        rw [Checked.sub_of_le (show o.overridePosition ≤ 1 by omega),Option.map_some]
        have hq : 1 - o.overridePosition < n := by omega
        obtain ⟨hiter,hwf,hc⟩ := override_new_spec (show x < o.groupVersion by omega) hn hq
        refine ⟨_,rfl,?_,hwf,hc⟩
        rw [hiter]
        apply map_congr_left
        intro i hi
        simp only [mem_range] at hi
        by_cases hip : i = o.overridePosition
        · simp [hip,show o.overridePosition ≠ 1 - o.overridePosition by omega]
        · obtain rfl : i = 1 - o.overridePosition := by omega
          simp [hip,entry]
      · -- three or more members: a lower entry expands the vector
        rename_i h2
        obtain ⟨w,hw,hwe⟩ := fullWithVersionAt_eq x hop hop
        have hlist : ((range n).map fun i => if i = o.overridePosition then x else o.entry i) =
            (range n).map fun i => if i = o.overridePosition then x else o.groupVersion := by
          apply map_congr_left
          intro i _
          by_cases hi : i = o.overridePosition <;> simp [hi,entry]
        refine ⟨_,hw,hwe,trivial,mostCompact_full ?_ ?_⟩ <;>
          simp only [VersionVector.iter,hwe,hlist]
        · obtain ⟨q,hq,hqp⟩ : ∃ q < (n : ℕ), q ≠ o.overridePosition :=
            ⟨if o.overridePosition = 0 then 1 else 0,by split <;> omega,by split <;> omega⟩
          refine not_allEqual (getElem?_exception hop) (getElem?_exception hq) ?_
          simp [hqp]
          omega
        · exact not_oneAhead_lower_exception (by omega) hop (by omega)
  · rename_i hpo
    have hentry : ∀ i, i ≠ o.overridePosition → o.entry i = o.groupVersion := fun i hi => by
      simp [entry,hi]
    split
    · -- the group version written again changes nothing
      rename_i hxg
      subst hxg
      refine ⟨_,rfl,?_,⟨hn,hop⟩,?_⟩
      · show (range n).map o.entry = _
        apply map_congr_left
        intro i _
        by_cases hi : i = p
        · simp [hi,hentry p hpo]
        · simp [hi]
      · exact (override_new_spec hgo hn hop).2.2
    · rename_i hxg
      split
      · -- two members: the written one and the one ahead
        rename_i h2
        have hboth : ∀ i < (n : ℕ), i = p ∨ i = o.overridePosition := fun i hi => by omega
        split
        · rename_i hxo
          subst hxo
          refine ⟨_,rfl,?_,trivial,mostCompact_synced (allEqual_replicate _ _)⟩
          rw [VersionVector.iter,replicate_eq_map_range]
          apply map_congr_left
          intro i hi
          rcases hboth i (by simpa using hi) with rfl | rfl
          · simp
          · simp [entry]
        · split
          · rename_i hxo hlt
            obtain ⟨hiter,hwf,hc⟩ := override_new_spec hlt hn hop
            refine ⟨_,rfl,?_,hwf,hc⟩
            rw [hiter]
            apply map_congr_left
            intro i hi
            rcases hboth i (by simpa using hi) with rfl | rfl
            · simp [hpo]
            · simp [entry,Ne.symm hpo]
          · rename_i hxo hlt
            obtain ⟨hiter,hwf,hc⟩ := override_new_spec (show o.overrideVersion < x by omega) hn hp
            refine ⟨_,rfl,?_,hwf,hc⟩
            rw [hiter]
            apply map_congr_left
            intro i hi
            rcases hboth i (by simpa using hi) with rfl | rfl
            · simp
            · simp [entry,Ne.symm hpo]
      · -- three or more members: two exceptions to the group version
        rename_i h2
        obtain ⟨w,hw,hwe⟩ := fullWithVersionAt_eq x hop hp
        obtain ⟨q,hq,hqp,hqo⟩ := exists_third (show 3 ≤ (n : ℕ) by omega) p o.overridePosition
        set xs := (range n).map fun i => if i = p then x else o.entry i
        have hxp : xs[p]? = some x := by simp [xs,getElem?_map_range _ hp]
        have hxop : xs[o.overridePosition]? = some o.overrideVersion := by
          simp [xs,getElem?_map_range _ hop,Ne.symm hpo,entry]
        have hxq : xs[q]? = some o.groupVersion := by
          simp [xs,getElem?_map_range _ hq,hqp,hentry q hqo]
        refine ⟨_,hw,hwe,trivial,mostCompact_full ?_ ?_⟩ <;> simp only [VersionVector.iter,hwe]
        · exact not_allEqual hxop hxq (by omega)
        · by_cases hxo : x = o.overrideVersion
          · subst hxo
            exact not_oneAhead_of_pair_above hpo hxp hxop hxq hgo
          · exact not_oneAhead_of_three_values hxop hxp hxq (Ne.symm hxo) hxg (by omega)

end OverrideVersion

theorem PureVersionVector.withVersionAt_spec {v : PureVersionVector} {p : ℕ} (x : ℕ)
    (hp : p < v.entries.length) :
    ∃ w, v.withVersionAt p x = some w ∧ w.iter = v.entries.set p x ∧ w.WellFormed ∧
      MostCompact w.iter w.representation := by
  have hne : v.entries.set p x ≠ [] := by simpa using v.nonempty
  obtain ⟨w,hw,hiter,hwf,hc⟩ := VersionVector.fromVersions_mostCompact hne
  refine ⟨w,by rw [withVersionAt,Checked.set_of_lt x hp,Option.bind_some,hw],hiter,hwf,?_⟩
  rw [hiter]
  exact hc

namespace VersionVector

/-- `with_version_at` writes the one entry into a well-formed vector, in its most
compact representation except for a lower write into a two-member `Synced`
vector. -/
theorem withVersionAt_spec {v : VersionVector} {p : ℕ} (x : ℕ) (hv : v.WellFormed)
    (hp : p < v.numMembers) :
    ∃ w, v.withVersionAt p x = some w ∧ w.iter = v.iter.set p x ∧ w.WellFormed ∧
      (MostCompact w.iter w.representation ∨ ∃ g, v = .synced 2 g ∧ x < g) := by
  simp only [withVersionAt,if_pos hp]
  cases v with
  | full f =>
    obtain ⟨w,hw,hiter,hwf,hc⟩ := f.withVersionAt_spec x (by simpa [numMembers] using hp)
    exact ⟨w,hw,hiter,hwf,.inl hc⟩
  | override n o =>
    obtain ⟨hn,hop⟩ := hv
    obtain ⟨w,hw,hiter,hwf,hc⟩ := o.withVersionAt_spec hn hop (show p < n from hp)
    refine ⟨w,hw,?_,hwf,.inl hc⟩
    rw [hiter,iter,map_range_set]
  | synced n g =>
    obtain ⟨w,hw,hiter,hwf,hc⟩ := syncedWithVersionAt_spec (g := g) (x := x) (show p < n from hp)
    refine ⟨w,hw,hiter,hwf,?_⟩
    rcases hc with hc | ⟨h2,hx⟩
    · exact .inl hc
    · exact .inr ⟨g,by rw [show n = 2 from PNat.eq h2],hx⟩

end VersionVector

/-- Writing a lower version at one member of a two-member `Synced` vector gives a
`Full` vector, although one member is then strictly ahead of the other and an
`Override` represents it. -/
theorem with_version_at_two_member_synced_lower_write_stays_full {g p x : ℕ} (hp : p < 2)
    (hx : x < g) :
    ∃ w, (VersionVector.synced 2 g).withVersionAt p x = some w ∧
      w.iter = (replicate 2 g).set p x ∧ w.representation = .full ∧ OneAhead w.iter ∧
      ¬ MostCompact w.iter w.representation := by
  have hlen : p < (replicate 2 g).length := by simpa using hp
  have hne : (replicate 2 g).set p x ≠ [] := by simp
  have hw : (VersionVector.synced 2 g).withVersionAt p x =
      some (.full ⟨(replicate 2 g).set p x,hne⟩) := by
    simp only [VersionVector.withVersionAt,VersionVector.numMembers,PNat.val_ofNat,if_pos hp,
      syncedWithVersionAt,dif_neg (show ¬ g < x by omega),Checked.set_of_lt x hlen,
      Option.bind_some,PureVersionVector.from_eq_some hne,Option.map_some]
    rw [if_neg (by omega)]
  -- the other member is the one ahead
  have hone : OneAhead ((replicate 2 g).set p x) := by
    refine ⟨1 - p,x,g,by simp,hx,?_⟩
    rw [Checked.replicate_set_eq_map_range,length_map,length_range]
    apply map_congr_left
    intro i hi
    simp only [mem_range] at hi
    by_cases hip : i = p
    · simp [hip,show p ≠ 1 - p by omega]
    · obtain rfl : i = 1 - p := by omega
      simp [hip]
  have hall : ¬ AllEqual ((replicate 2 g).set p x) := by
    rw [Checked.replicate_set_eq_map_range]
    exact not_allEqual_exception le_rfl hp (by omega)
  refine ⟨_,hw,rfl,rfl,hone,fun hc => ?_⟩
  have h := hc.2.2 ⟨hall,hone⟩
  simp [VersionVector.representation] at h

theorem with_version_at_synced_five_write_three :
    (0 : ℕ) < 2 ∧ (3 : ℕ) < 5 ∧
      ∃ w, (VersionVector.synced 2 5).withVersionAt 0 3 = some w ∧
        w.iter = (replicate 2 5).set 0 3 ∧ w.representation = .full ∧ OneAhead w.iter ∧
        ¬ MostCompact w.iter w.representation :=
  ⟨by decide,by decide,with_version_at_two_member_synced_lower_write_stays_full (by decide) (by decide)⟩

/-! ## `increment_at` -/

/-- Raising one entry makes a list strictly later in the reference comparison. -/
theorem pointwiseHbCmp_set_of_lt {α : Type*} [LinearOrder α] {l : List α} {p : ℕ} {x y : α}
    (hx : l[p]? = some x) (hxy : x < y) : pointwiseHbCmp l (l.set p y) = .before := by
  have hp : p < l.length := (List.getElem?_eq_some_iff.1 hx).1
  have hne : l ≠ l.set p y := fun h => by
    have hxy' := congrArg (·[p]?) h
    simp only [getElem?_set_self hp,hx,Option.some.injEq] at hxy'
    exact hxy.ne hxy'
  rcases pointwiseHbCmp_before_or_equal_iff.2 (Pointwise.forall₂_le_set hx hxy.le) with h | h
  · exact h
  · exact absurd (pointwiseHbCmp_eq_equal_iff.1 h) hne

namespace PureVersionVector

theorem incrementAt_eq {v : PureVersionVector} {p x : ℕ} (hx : v.entries[p]? = some x)
    (hmax : x < maxVersion) :
    ∃ w, v.incrementAt p = some w ∧ w.entries = v.entries.set p (x + 1) := by
  have hp : p < v.entries.length := (List.getElem?_eq_some_iff.1 hx).1
  simp only [incrementAt,hx,checkedIncrement,if_pos hmax,Option.bind_eq_bind,Option.bind_some]
  exact set_eq _ hp

theorem incrementAt_eq_none {v : PureVersionVector} {p : ℕ} (hx : v.entries[p]? = some maxVersion) :
    v.incrementAt p = none := by
  simp [incrementAt,hx,checkedIncrement]

end PureVersionVector

namespace VersionVector

variable (overflowChecks : Bool) {v : VersionVector} {p x : ℕ}

/-- Below `u64::MAX`, `increment_at` raises exactly the one entry and keeps the
representation invariant. -/
theorem incrementAt_spec (hv : v.WellFormed) (hx : v.iter[p]? = some x) (hmax : x < maxVersion) :
    ∃ w, v.incrementAt overflowChecks p = some w ∧ w.iter = v.iter.set p (x + 1) ∧
      w.WellFormed := by
  have hp : p < v.numMembers := by simpa using (List.getElem?_eq_some_iff.1 hx).1
  cases v with
  | full f =>
    obtain ⟨w,hw,hwe⟩ := PureVersionVector.incrementAt_eq hx hmax
    exact ⟨.full w,by simp only [incrementAt,if_pos hp,hw,Option.map_some],hwe,trivial⟩
  | override n o =>
    simp only [incrementAt,if_pos hp]
    obtain ⟨hn,hop⟩ := hv
    have hx' : o.entry p = x := by
      simpa [iter,getElem?_map_range _ (show p < n from hp)] using hx
    split
    · -- the override entry: its `checked_add`
      rename_i hpo
      subst hpo
      obtain rfl : o.overrideVersion = x := by simpa [OverrideVersion.entry] using hx'
      rw [if_pos hmax]
      refine ⟨_,rfl,?_,⟨hn,hop⟩⟩
      simp only [iter,map_range_set]
      apply map_congr_left
      intro i _
      by_cases hi : i = o.overridePosition <;> simp [OverrideVersion.entry,hi]
    · -- another entry: the vector is expanded first
      obtain ⟨f,hf,hfe⟩ := OverrideVersion.toVector_eq hop
      obtain ⟨w,hw,hwe⟩ := PureVersionVector.incrementAt_eq (v := f) (by rw [hfe]; exact hx) hmax
      refine ⟨.full w,by simp [hf,hw],?_,trivial⟩
      show w.entries = _
      rw [hwe,hfe]
      rfl
  | synced n g =>
    have hp' : p < n := hp
    simp only [incrementAt,if_pos hp]
    obtain rfl : g = x := by
      rw [iter,getElem?_replicate,if_pos hp'] at hx
      exact Option.some.inj hx
    split
    · -- one member: the plain `+=`
      rename_i h1
      obtain rfl : p = 0 := by omega
      refine ⟨.synced n (g + 1),by simp [plainIncrement,hmax],?_,trivial⟩
      simp [iter,h1]
    · rename_i h1
      have hn : 2 ≤ (n : ℕ) := by have := n.pos; omega
      refine ⟨.override n (OverrideVersion.new g p (g + 1) (Nat.lt_succ_self g)),
        by simp [OverrideVersion.withNextVersion,OverrideVersion.new,hmax],?_,⟨hn,hp'⟩⟩
      show _ = (replicate n g).set p (g + 1)
      rw [Checked.replicate_set_eq_map_range]
      rfl

/-- The incremented vector happened strictly after the original. -/
theorem incrementAt_hbCmp {w : VersionVector} (hv : v.WellFormed) (hx : v.iter[p]? = some x)
    (hw : w.iter = v.iter.set p (x + 1)) (hwf : w.WellFormed) : v.hbCmp w = some .before := by
  rw [hbCmp_eq_pointwise hv hwf,hw,pointwiseHbCmp_set_of_lt hx (Nat.lt_succ_self x)]

/-- At `u64::MAX` every `checked_add` arm panics, and so does `+=` in a build
with overflow checks. -/
theorem incrementAt_eq_none (hv : v.WellFormed) (hx : v.iter[p]? = some maxVersion)
    (hwrap : overflowChecks = true ∨ ∀ g, v ≠ .synced 1 g) :
    v.incrementAt overflowChecks p = none := by
  have hp : p < v.numMembers := by simpa using (List.getElem?_eq_some_iff.1 hx).1
  cases v with
  | full f => simp [incrementAt,hp,PureVersionVector.incrementAt_eq_none hx]
  | override n o =>
    simp only [incrementAt,if_pos hp]
    obtain ⟨hn,hop⟩ := hv
    have hx' : o.entry p = maxVersion := by
      simpa [iter,getElem?_map_range _ (show p < n from hp)] using hx
    split
    · rename_i hpo
      subst hpo
      simp [OverrideVersion.entry] at hx'
      simp [hx']
    · obtain ⟨f,hf,hfe⟩ := OverrideVersion.toVector_eq hop
      simp [hf,PureVersionVector.incrementAt_eq_none (v := f) (by rw [hfe]; exact hx)]
  | synced n g =>
    have hp' : p < n := hp
    simp only [incrementAt,if_pos hp]
    obtain rfl : g = maxVersion := by
      rw [iter,getElem?_replicate,if_pos hp'] at hx
      exact Option.some.inj hx
    split
    · rename_i h1
      obtain rfl : n = 1 := PNat.eq h1
      have hb : overflowChecks = true := hwrap.resolve_right fun h => h _ rfl
      simp [plainIncrement,hb]
    · simp [OverrideVersion.withNextVersion]

end VersionVector

/-- In a build without overflow checks, the single-member `Synced` arm's `+=`
wraps `u64::MAX` to zero, and the result happened before the original; the
same call panics with overflow checks, as the `checked_add` arms always do. -/
theorem increment_at_single_member_synced_wraps_without_overflow_checks :
    VersionVector.incrementAt false (.synced 1 maxVersion) 0 = some (.synced 1 0) ∧
      (VersionVector.synced 1 maxVersion).hbCmp (.synced 1 0) = some .after ∧
      VersionVector.incrementAt true (.synced 1 maxVersion) 0 = none := by
  refine ⟨?_,?_,?_⟩
  · simp [VersionVector.incrementAt,VersionVector.numMembers,plainIncrement,maxVersion]
  · decide
  · simp [VersionVector.incrementAt,VersionVector.numMembers,plainIncrement,maxVersion]

end Flotsync.Versions
