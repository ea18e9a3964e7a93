import Flotsync.Versions.Update
import Flotsync.Lib.PositionMap

/-!
`GroupVersionVector`: a version vector aligned with the members of a group, and
`missing_to`, which says for each member of another vector which versions the
first one still lacks. Besides a pointwise loop for `Full` vectors, `missing_to`
has a hand-written arm for each pair of compact representations; each arm is
shown here to compute the pointwise map. Its `debug_assert!`s run only in a
build with debug assertions, the first argument of `missingTo`.
-/

set_option autoImplicit false

namespace Flotsync.Versions

open List PositionMap

/-- `BTreeMap<&Identifier, Vec<u64>>`, compared as a map. -/
abbrev MissingMap (M : Type*) := Finmap fun _ : M => List ℕ

/-- `missing_versions_between`: `(current..=updated).skip(1)`. -/
def missingVersionsBetween (current updated : ℕ) : List ℕ :=
  range' (current + 1) (updated - current)

/-- `GroupVersionVector`: it is built by `new_checked`, so the members and the
versions have one length. -/
structure GroupVersionVector (M : Type*) where
  groupMembers : List M
  versions : VersionVector
  sizes : groupMembers.length = versions.numMembers

section Model

variable {M : Type*} [DecidableEq M]

/-- `members.iter().map(|id| (id, missing.clone())).collect()`. -/
def collectMissing (members : List M) (missing : List ℕ) : MissingMap M :=
  members.foldl (fun result id => result.insert id missing) ∅

/-- The body of the pointwise loop over `self.versions.iter().zip(other.iter())`. -/
def missingStep (result : MissingMap M) : ℕ × M × ℕ → MissingMap M
  | (selfVersion,otherId,otherVersion) =>
    if selfVersion < otherVersion then
      result.insert otherId (missingVersionsBetween selfVersion otherVersion)
    else result

/-- The arms of `missing_to` by the representations of the two vectors; an
out-of-range `group_members[position]` panics. -/
def missingToArms (debugAssertions : Bool) (selfVersions : VersionVector) (otherMembers : List M)
    (otherVersions : VersionVector) : Option (MissingMap M) :=
  match selfVersions, otherVersions with
  | .full _, _ | _, .full _ =>
    some ((selfVersions.iter.zip (otherMembers.zip otherVersions.iter)).foldl missingStep ∅)
  | .override _ selfVersion, .override _ otherVersion => do
    -- the group level first, then the overrides
    let result := if selfVersion.groupVersion < otherVersion.groupVersion then
        collectMissing otherMembers
          (missingVersionsBetween selfVersion.groupVersion otherVersion.groupVersion)
      else ∅
    if selfVersion.overridePosition = otherVersion.overridePosition then
      let id ← otherMembers[otherVersion.overridePosition]?
      return if selfVersion.overrideVersion < otherVersion.overrideVersion then
          result.insert id
            (missingVersionsBetween selfVersion.overrideVersion otherVersion.overrideVersion)
        else result.erase id
    else
      let selfId ← otherMembers[selfVersion.overridePosition]?
      let result := if selfVersion.overrideVersion < otherVersion.groupVersion then
          result.insert selfId
            (missingVersionsBetween selfVersion.overrideVersion otherVersion.groupVersion)
        else result.erase selfId
      if selfVersion.groupVersion < otherVersion.overrideVersion then
        let otherId ← otherMembers[otherVersion.overridePosition]?
        return result.insert otherId
          (missingVersionsBetween selfVersion.groupVersion otherVersion.overrideVersion)
      -- `debug_assert!(result.is_empty())`
      else if debugAssertions ∧ result ≠ ∅ then none
      else return result
  | .override _ selfVersion, .synced _ otherVersion =>
    if selfVersion.groupVersion < otherVersion then do
      let result := collectMissing otherMembers
        (missingVersionsBetween selfVersion.groupVersion otherVersion)
      let id ← otherMembers[selfVersion.overridePosition]?
      return if selfVersion.overrideVersion < otherVersion then
          result.insert id (missingVersionsBetween selfVersion.overrideVersion otherVersion)
        else result.erase id
    else some ∅
  | .synced _ selfVersion, .override _ otherVersion => do
    let result := if selfVersion < otherVersion.groupVersion then
        collectMissing otherMembers (missingVersionsBetween selfVersion otherVersion.groupVersion)
      else ∅
    if selfVersion < otherVersion.overrideVersion then
      let id ← otherMembers[otherVersion.overridePosition]?
      return result.insert id (missingVersionsBetween selfVersion otherVersion.overrideVersion)
    else return result
  | .synced _ selfVersion, .synced _ otherVersion =>
    some (if selfVersion < otherVersion then
        collectMissing otherMembers (missingVersionsBetween selfVersion otherVersion)
      else ∅)

namespace GroupVersionVector

def newChecked (groupMembers : List M) (versions : VersionVector) :
    Except (List M × VersionVector) (GroupVersionVector M) :=
  if h : groupMembers.length = versions.numMembers then .ok ⟨groupMembers,versions,h⟩
  else .error (groupMembers,versions)

def len (v : GroupVersionVector M) : ℕ+ := v.versions.numMembers

def missingTo (debugAssertions : Bool) (self other : GroupVersionVector M) :
    Option (MissingMap M) :=
  if self.len ≠ other.len then none
  else if debugAssertions then
    -- `debug_assert!(hb_cmp != After)`, which also panics where `hb_cmp` does
    (self.versions.hbCmp other.versions).bind fun ordering =>
      if ordering = .after then none
      else missingToArms true self.versions other.groupMembers other.versions
  else missingToArms false self.versions other.groupMembers other.versions

end GroupVersionVector

end Model

/-! ## The pointwise map -/

/-- What a member lacks to get from `current` to `updated`, if anything. -/
def catchUp (current updated : ℕ) : Option (List ℕ) :=
  if current < updated then some (missingVersionsBetween current updated) else none

/-- What the member at position `i` lacks, from the local entries `xs` to the
remote entries `ys`. -/
def missingAt (xs ys : List ℕ) (i : ℕ) : Option (List ℕ) :=
  match xs[i]?, ys[i]? with
  | some x, some y => catchUp x y
  | _, _ => none

/-- The map the pointwise reading gives: each member whose remote entry is ahead
of its local one is sent to the versions in between. -/
def missingSpec {M : Type*} [DecidableEq M] (members : List M) (xs ys : List ℕ) : MissingMap M :=
  ofPositions members (missingAt xs ys)

theorem catchUp_eq_none {x y : ℕ} (h : y ≤ x) : catchUp x y = none := by
  simp [catchUp,not_lt.2 h]

theorem missingAt_map_range {n₁ n₂ j : ℕ} (f g : ℕ → ℕ) (hj₁ : j < n₁) (hj₂ : j < n₂) :
    missingAt ((range n₁).map f) ((range n₂).map g) j = catchUp (f j) (g j) := by
  rw [missingAt,getElem?_map_range f hj₁,getElem?_map_range g hj₂]

theorem missingAt_iter {a b : VersionVector} {j : ℕ} (hj : j < b.numMembers)
    (hab : a.numMembers = b.numMembers) :
    ∃ x y, a.iter[j]? = some x ∧ b.iter[j]? = some y ∧ missingAt a.iter b.iter j = catchUp x y := by
  obtain ⟨x,hx⟩ : ∃ x, a.iter[j]? = some x := ⟨_,getElem?_eq_getElem (by simp [hab,hj])⟩
  obtain ⟨y,hy⟩ : ∃ y, b.iter[j]? = some y := ⟨_,getElem?_eq_getElem (by simp [hj])⟩
  exact ⟨x,y,hx,hy,by rw [missingAt,hx,hy]⟩

@[simp] theorem OverrideVersion.entry_self (o : OverrideVersion) :
    o.entry o.overridePosition = o.overrideVersion := if_pos rfl

@[simp] theorem OverrideVersion.entry_of_ne (o : OverrideVersion) {j : ℕ} (h : j ≠ o.overridePosition) :
    o.entry j = o.groupVersion := if_neg h

theorem OverrideVersion.entry_le_overrideVersion (o : OverrideVersion) (j : ℕ) :
    o.entry j ≤ o.overrideVersion := by
  unfold OverrideVersion.entry
  split
  · exact le_rfl
  · exact o.valid.le

theorem OverrideVersion.groupVersion_le_entry (o : OverrideVersion) (j : ℕ) :
    o.groupVersion ≤ o.entry j := by
  unfold OverrideVersion.entry
  split
  · exact o.valid.le
  · exact le_rfl

theorem VersionVector.iter_override (n : ℕ+) (o : OverrideVersion) :
    (VersionVector.override n o).iter = (range n).map o.entry := rfl

theorem VersionVector.iter_synced (n : ℕ+) (v : ℕ) :
    (VersionVector.synced n v).iter = (range n).map fun _ => v := by
  simp [VersionVector.iter]

section Arms

variable {M : Type*} [DecidableEq M] {members : List M}

theorem missingStep_eq (r : MissingMap M) (e : ℕ × M × ℕ) :
    missingStep r e = insertOpt r e.2.1 (catchUp e.1 e.2.2) := by
  obtain ⟨x,m,y⟩ := e
  by_cases h : x < y <;> simp [missingStep,catchUp,insertOpt,h]

/-- The group level: everyone lacks the same versions, or nobody lacks any. -/
theorem represents_collectOrEmpty (hnd : members.Nodup) (x y : ℕ) :
    Represents members (fun _ => catchUp x y)
      (if x < y then collectMissing members (missingVersionsBetween x y) else ∅) := by
  by_cases h : x < y
  · rw [if_pos h]
    exact (represents_foldl_insert hnd _).congr fun _ _ => by simp [catchUp,h]
  · rw [if_neg h]
    exact (represents_empty members).congr fun _ _ => (catchUp_eq_none (not_lt.1 h)).symm

/-- Writing one member's versions, or removing it when it lacks none. -/
theorem represents_insertOrErase (hnd : members.Nodup) {f : ℕ → Option (List ℕ)}
    {r : MissingMap M} (h : Represents members f r) {p : ℕ} (hp : p < members.length) (x y : ℕ) :
    Represents members (Function.update f p (catchUp x y))
      (if x < y then r.insert members[p] (missingVersionsBetween x y) else r.erase members[p]) := by
  by_cases hxy : x < y
  · rw [if_pos hxy,show catchUp x y = some _ from if_pos hxy]
    exact h.insert hnd hp _
  · rw [if_neg hxy,catchUp_eq_none (not_lt.1 hxy)]
    exact h.erase hnd hp

/-- The `Full` arm's loop stores each member's catch-up in turn. -/
theorem represents_missingLoop (hnd : members.Nodup) {xs ys : List ℕ}
    (hx : xs.length = members.length) (hy : ys.length = members.length) :
    Represents members (missingAt xs ys) ((xs.zip (members.zip ys)).foldl missingStep ∅) := by
  set l := (xs.zip (members.zip ys)).map fun e => (e.2.1,catchUp e.1 e.2.2)
  have hkeys : l.map Prod.fst = members := by
    apply ext_getElem <;> simp [l,hx,hy]
  have hloop : (xs.zip (members.zip ys)).foldl missingStep ∅ = insertAll ∅ l := by
    simp only [l,insertAll,foldl_map]
    congr 1
    funext r e
    exact missingStep_eq r e
  have h := represents_insertAll (l := l) (by rw [hkeys]; exact hnd)
  rw [hkeys,← hloop] at h
  refine h.congr fun j hj => ?_
  have hjx : j < xs.length := by omega
  have hjy : j < ys.length := by omega
  have hjl : j < (xs.zip (members.zip ys)).length := by simp; omega
  simp [l,missingAt,getElem?_eq_getElem hjl,getElem?_eq_getElem hjx,getElem?_eq_getElem hjy]

theorem missingToArms_override_override (d : Bool) (hnd : members.Nodup) {n₁ n₂ : ℕ+}
    {s o : OverrideVersion} (hs : s.overridePosition < members.length)
    (ho : o.overridePosition < members.length) :
    ∃ r, missingToArms d (.override n₁ s) members (.override n₂ o) = some r ∧
      Represents members (fun j => catchUp (s.entry j) (o.entry j)) r := by
  have h₀ := represents_collectOrEmpty hnd s.groupVersion o.groupVersion
  simp only [missingToArms,getElem?_eq_getElem hs,getElem?_eq_getElem ho,Option.bind_eq_bind,
    Option.bind_some,Option.pure_def]
  split
  · -- one member is overridden on both sides
    rename_i hp
    refine ⟨_,rfl,(represents_insertOrErase hnd h₀ ho _ _).congr fun j _ => ?_⟩
    by_cases hj : j = o.overridePosition
    · have hself : s.entry o.overridePosition = s.overrideVersion := hp ▸ s.entry_self
      simp [hj,hself]
    · rw [Function.update_of_ne hj,s.entry_of_ne (hp ▸ hj),o.entry_of_ne hj]
  · rename_i hp
    have h₁ := represents_insertOrErase hnd h₀ hs s.overrideVersion o.groupVersion
    split
    · -- the other side's override is ahead of this side's group
      rename_i hgo
      refine ⟨_,rfl,(h₁.insert hnd ho _).congr fun j _ => ?_⟩
      by_cases hjo : j = o.overridePosition
      · subst hjo
        simp [s.entry_of_ne (Ne.symm hp),catchUp,hgo]
      · rw [Function.update_of_ne hjo,o.entry_of_ne hjo]
        by_cases hjs : j = s.overridePosition
        · subst hjs
          simp
        · rw [Function.update_of_ne hjs,s.entry_of_ne hjs]
    · -- otherwise nobody lacks anything: the `debug_assert!` holds
      rename_i hgo
      have hv₁ := s.valid
      have hv₂ := o.valid
      have hempty := h₁.eq_empty fun j _ => by
        by_cases hjs : j = s.overridePosition
        · rw [hjs,Function.update_self]
          exact catchUp_eq_none (by omega)
        · rw [Function.update_of_ne hjs]
          exact catchUp_eq_none (by omega)
      rw [hempty]
      refine ⟨∅,by simp,(represents_empty members).congr fun j _ => ?_⟩
      exact (catchUp_eq_none (le_trans (o.entry_le_overrideVersion j)
        (le_trans (not_lt.1 hgo) (s.groupVersion_le_entry j)))).symm

theorem missingToArms_override_synced (d : Bool) (hnd : members.Nodup) {n₁ n₂ : ℕ+}
    {s : OverrideVersion} {v : ℕ} (hs : s.overridePosition < members.length) :
    ∃ r, missingToArms d (.override n₁ s) members (.synced n₂ v) = some r ∧
      Represents members (fun j => catchUp (s.entry j) v) r := by
  simp only [missingToArms,getElem?_eq_getElem hs,Option.bind_eq_bind,Option.bind_some,
    Option.pure_def]
  split
  · rename_i hgv
    have h₀ := represents_collectOrEmpty hnd s.groupVersion v
    rw [if_pos hgv] at h₀
    refine ⟨_,rfl,(represents_insertOrErase hnd h₀ hs _ _).congr fun j _ => ?_⟩
    by_cases hjs : j = s.overridePosition
    · subst hjs
      simp
    · rw [Function.update_of_ne hjs,s.entry_of_ne hjs]
  · rename_i hgv
    refine ⟨_,rfl,(represents_empty members).congr fun j _ => ?_⟩
    exact (catchUp_eq_none (le_trans (not_lt.1 hgv) (s.groupVersion_le_entry j))).symm

theorem missingToArms_synced_override (d : Bool) (hnd : members.Nodup) {n₁ n₂ : ℕ+} {v : ℕ}
    {o : OverrideVersion} (ho : o.overridePosition < members.length) :
    ∃ r, missingToArms d (.synced n₁ v) members (.override n₂ o) = some r ∧
      Represents members (fun j => catchUp v (o.entry j)) r := by
  have h₀ := represents_collectOrEmpty hnd v o.groupVersion
  simp only [missingToArms,getElem?_eq_getElem ho,Option.bind_eq_bind,Option.bind_some,
    Option.pure_def]
  split
  · rename_i hvo
    refine ⟨_,rfl,(h₀.insert hnd ho _).congr fun j _ => ?_⟩
    by_cases hjo : j = o.overridePosition
    · subst hjo
      simp [catchUp,hvo]
    · rw [Function.update_of_ne hjo,o.entry_of_ne hjo]
  · rename_i hvo
    refine ⟨_,rfl,h₀.congr fun j _ => ?_⟩
    have := o.valid
    rw [catchUp_eq_none (by omega),
      catchUp_eq_none (le_trans (o.entry_le_overrideVersion j) (not_lt.1 hvo))]

/-- Every arm of `missing_to` computes the pointwise map. -/
theorem missingToArms_eq (d : Bool) {a b : VersionVector} (hnd : members.Nodup)
    (ha : a.WellFormed) (hb : b.WellFormed) (hab : a.numMembers = b.numMembers)
    (hm : members.length = b.numMembers) :
    missingToArms d a members b = some (missingSpec members a.iter b.iter) := by
  suffices h : ∃ r, missingToArms d a members b = some r ∧
      Represents members (missingAt a.iter b.iter) r by
    obtain ⟨r,hr,hrep⟩ := h
    rw [hr,hrep.unique (represents_ofPositions hnd _)]
    rfl
  have hx : a.iter.length = members.length := by simp [hab,hm]
  have hy : b.iter.length = members.length := by simp [hm]
  have hn₁ : members.length = a.numMembers := by rw [hm,hab]
  -- a `Full` side takes the loop; the compact arms give the entries by position
  cases a with
  | full f => exact ⟨_,rfl,represents_missingLoop hnd hx hy⟩
  | override n₁ s =>
    have hs : s.overridePosition < members.length := by rw [hn₁]; exact ha.2
    cases b with
    | full f => exact ⟨_,rfl,represents_missingLoop hnd hx hy⟩
    | override n₂ o =>
      obtain ⟨r,hr,hrep⟩ := missingToArms_override_override d hnd hs (by rw [hm]; exact hb.2)
      refine ⟨r,hr,hrep.congr fun j hj => ?_⟩
      rw [VersionVector.iter_override,VersionVector.iter_override,
        missingAt_map_range _ _ (show j < (n₁ : ℕ) from hj.trans_eq hn₁)
          (show j < (n₂ : ℕ) from hj.trans_eq hm)]
    | synced n₂ v =>
      obtain ⟨r,hr,hrep⟩ : ∃ r, missingToArms d (.override n₁ s) members (.synced n₂ v) = some r ∧
          Represents members (fun j => catchUp (s.entry j) v) r :=
        missingToArms_override_synced d hnd hs
      refine ⟨r,hr,hrep.congr fun j hj => ?_⟩
      rw [VersionVector.iter_override,VersionVector.iter_synced,
        missingAt_map_range _ _ (show j < (n₁ : ℕ) from hj.trans_eq hn₁)
          (show j < (n₂ : ℕ) from hj.trans_eq hm)]
  | synced n₁ v =>
    cases b with
    | full f => exact ⟨_,rfl,represents_missingLoop hnd hx hy⟩
    | override n₂ o =>
      obtain ⟨r,hr,hrep⟩ : ∃ r, missingToArms d (.synced n₁ v) members (.override n₂ o) = some r ∧
          Represents members (fun j => catchUp v (o.entry j)) r :=
        missingToArms_synced_override d hnd (by rw [hm]; exact hb.2)
      refine ⟨r,hr,hrep.congr fun j hj => ?_⟩
      rw [VersionVector.iter_synced,VersionVector.iter_override,
        missingAt_map_range _ _ (show j < (n₁ : ℕ) from hj.trans_eq hn₁)
          (show j < (n₂ : ℕ) from hj.trans_eq hm)]
    | synced n₂ w =>
      refine ⟨_,rfl,(represents_collectOrEmpty hnd v w).congr fun j hj => ?_⟩
      rw [VersionVector.iter_synced,VersionVector.iter_synced,
        missingAt_map_range _ _ (show j < (n₁ : ℕ) from hj.trans_eq hn₁)
          (show j < (n₂ : ℕ) from hj.trans_eq hm)]

end Arms

namespace GroupVersionVector

variable {M : Type*} [DecidableEq M]

/-- With one length on both sides and, in a build with debug assertions, `self`
not after `other`, `missing_to` never panics and returns the pointwise map. -/
theorem missingTo_eq (d : Bool) {a b : GroupVersionVector M} (ha : a.versions.WellFormed)
    (hb : b.versions.WellFormed) (hlen : a.len = b.len) (hnd : b.groupMembers.Nodup)
    (hd : d = false ∨ a.versions.hbCmp b.versions ≠ some .after) :
    a.missingTo d b = some (missingSpec b.groupMembers a.versions.iter b.versions.iter) := by
  have harms := fun d => missingToArms_eq d hnd ha hb hlen b.sizes
  unfold missingTo
  rw [if_neg (not_not.2 hlen)]
  cases d with
  | false => exact harms false
  | true =>
    have hne : pointwiseHbCmp a.versions.iter b.versions.iter ≠ .after := fun h =>
      hd.resolve_left (by decide) (by rw [VersionVector.hbCmp_eq_pointwise ha hb,h])
    rw [if_pos rfl,VersionVector.hbCmp_eq_pointwise ha hb,Option.bind_some,if_neg hne]
    exact harms true

/-- The `debug_assert!` on the order: a debug build panics when `self` is after `other`. -/
theorem missingTo_eq_none_of_after {a b : GroupVersionVector M} (hlen : a.len = b.len)
    (h : a.versions.hbCmp b.versions = some .after) : a.missingTo true b = none := by
  simp [missingTo,hlen,h]

end GroupVersionVector

/-! ## `missing_version_ranges_to` -/

/-- The versions a gap spans, `start_version..=end_version`. -/
def VersionVectorGap.versions (g : VersionVectorGap) : List ℕ :=
  range' g.startVersion (g.endVersion + 1 - g.startVersion)

theorem pairwise_zipIdx_lt {α : Type*} (l : List α) (k : ℕ) :
    (l.zipIdx k).Pairwise fun a b => a.2 < b.2 := by
  induction l generalizing k with
  | nil => exact .nil
  | cons a l ih =>
    rw [zipIdx_cons,pairwise_cons]
    exact ⟨fun b hb => Nat.lt_of_lt_of_le (Nat.lt_succ_self k) (le_snd_of_mem_zipIdx hb),ih (k + 1)⟩

/-- Finding the result for index `i` among the results of an enumerated list
that keep their index. -/
theorem find?_filterMap_zipIdx {α β : Type*} (G : α × ℕ → Option β) (idx : β → ℕ)
    (hG : ∀ e b, G e = some b → idx b = e.2) (l : List α) (k i : ℕ) :
    ((l.zipIdx k).filterMap G).find? (fun b => idx b = i) =
      if k ≤ i then l[i - k]?.bind fun a => G (a,i) else none := by
  induction l generalizing k with
  | nil => simp
  | cons a l ih =>
    rw [zipIdx_cons,filterMap_cons]
    rcases Nat.lt_trichotomy k i with hki | rfl | hki
    · -- the head is an earlier position
      have hrest : (a :: l)[i - k]? = l[i - (k + 1)]? := by
        rw [getElem?_cons,if_neg (by omega),Nat.sub_sub]
      cases hGa : G (a,k) with
      | none => simp [ih,hrest,show k ≤ i by omega,show k + 1 ≤ i by omega]
      | some b =>
        have hb : idx b ≠ i := by rw [hG _ _ hGa]; omega
        simp [hb,ih,hrest,show k ≤ i by omega,show k + 1 ≤ i by omega]
    · -- the head is position `i`
      cases hGa : G (a,k) with
      | none => simp [ih,hGa]
      | some b => simp [hG _ _ hGa,hGa]
    · -- every position is past `i`
      cases hGa : G (a,k) with
      | none => simp [ih,show ¬ k ≤ i by omega,show ¬ k + 1 ≤ i by omega]
      | some b =>
        have hb : idx b ≠ i := by rw [hG _ _ hGa]; omega
        simp [hb,ih,show ¬ k ≤ i by omega,show ¬ k + 1 ≤ i by omega]

/-- `missing_version_ranges_to` gives one gap per member that lacks versions, in
the order of the members, spanning exactly what that member lacks. -/
theorem VersionVector.missingVersionRangesTo_spec {a b : VersionVector}
    (h : a.numMembers = b.numMembers) :
    ∃ gaps, a.missingVersionRangesTo b = some gaps ∧
      gaps.Pairwise (fun g₁ g₂ => g₁.memberIndex < g₂.memberIndex) ∧
      ∀ i, (gaps.find? (·.memberIndex = i)).map VersionVectorGap.versions = missingAt a.iter b.iter i := by
  simp only [missingVersionRangesTo,assertSameMemberCount,if_pos h,Option.bind_eq_bind,
    Option.bind_some,Option.pure_def]
  refine ⟨_,rfl,?_,fun i => ?_⟩
  · refine (pairwise_zipIdx_lt _ 0).filterMap _ ?_
    rintro ⟨⟨x,y⟩,j⟩ ⟨⟨x',y'⟩,j'⟩ hlt g hg g' hg'
    simp only at hg hg'
    split_ifs at hg hg'
    cases hg
    cases hg'
    exact hlt
  · rw [find?_filterMap_zipIdx _ VersionVectorGap.memberIndex ?_ _ 0 i,if_pos (Nat.zero_le i),
      Nat.sub_zero]
    · unfold missingAt
      cases hx : a.iter[i]? with
      | none =>
        have hz : (a.iter.zip b.iter)[i]? = none := getElem?_eq_none_iff.2 (by
          rw [length_zip]
          exact min_le_of_left_le (getElem?_eq_none_iff.1 hx))
        simp [hz]
      | some x =>
        cases hy : b.iter[i]? with
        | none =>
          have hz : (a.iter.zip b.iter)[i]? = none := getElem?_eq_none_iff.2 (by
            rw [length_zip]
            exact min_le_of_right_le (getElem?_eq_none_iff.1 hy))
          simp [hz]
        | some y =>
          rw [(getElem?_zip_eq_some (z := (x,y))).2 ⟨hx,hy⟩,Option.bind_some]
          by_cases hxy : x < y
          · simp [hxy,catchUp,VersionVectorGap.versions,missingVersionsBetween]
          · simp [hxy,catchUp]
    · rintro ⟨⟨x,y⟩,j⟩ g hg
      simp only at hg
      split_ifs at hg
      cases hg
      rfl

/-- Whatever the representations, `missing_to` returns the map that sends the
`i`-th member of `b` to the versions `a_i + 1, ..., b_i` exactly where `a_i < b_i`
(and nothing else), unless a debug build panics because `a` is after `b`; and
`missing_version_ranges_to` gives, in member order, one gap per such member
spanning the same versions. -/
theorem missing_to_is_the_pointwise_catch_up {M : Type*} [DecidableEq M] (debugAssertions : Bool)
    {a b : GroupVersionVector M} (ha : a.versions.WellFormed) (hb : b.versions.WellFormed)
    (hlen : a.len = b.len) (hnd : b.groupMembers.Nodup)
    (hd : debugAssertions = false ∨ a.versions.hbCmp b.versions ≠ some .after) :
    a.missingTo debugAssertions b = some (missingSpec b.groupMembers a.versions.iter b.versions.iter) ∧
      (∀ i (hi : i < b.groupMembers.length),
        (missingSpec b.groupMembers a.versions.iter b.versions.iter).lookup b.groupMembers[i] =
          missingAt a.versions.iter b.versions.iter i) ∧
      (∀ m ∉ b.groupMembers,
        (missingSpec b.groupMembers a.versions.iter b.versions.iter).lookup m = none) ∧
      ∃ gaps, a.versions.missingVersionRangesTo b.versions = some gaps ∧
        gaps.Pairwise (fun g₁ g₂ => g₁.memberIndex < g₂.memberIndex) ∧
        ∀ i (hi : i < b.groupMembers.length),
          (missingSpec b.groupMembers a.versions.iter b.versions.iter).lookup b.groupMembers[i] =
            (gaps.find? (·.memberIndex = i)).map VersionVectorGap.versions := by
  have hspec := represents_ofPositions (f := missingAt a.versions.iter b.versions.iter) hnd
  obtain ⟨gaps,hgaps,hsorted,hfind⟩ := VersionVector.missingVersionRangesTo_spec hlen
  refine ⟨GroupVersionVector.missingTo_eq debugAssertions ha hb hlen hnd hd,hspec.1,hspec.2,
    gaps,hgaps,hsorted,fun i hi => ?_⟩
  exact (hspec.1 i hi).trans (hfind i).symm

theorem missing_to_synced_against_override :
    let a : GroupVersionVector ℕ := ⟨[0,1,2],.synced 3 1,rfl⟩
    let b : GroupVersionVector ℕ := ⟨[0,1,2],.override 3 ⟨1,2,4,by decide⟩,rfl⟩
    (a.versions.WellFormed ∧ b.versions.WellFormed ∧ a.len = b.len ∧ b.groupMembers.Nodup ∧
      (true = false ∨ a.versions.hbCmp b.versions ≠ some .after)) ∧
    (a.missingTo true b = some (missingSpec b.groupMembers a.versions.iter b.versions.iter) ∧
      (∀ i (hi : i < b.groupMembers.length),
        (missingSpec b.groupMembers a.versions.iter b.versions.iter).lookup b.groupMembers[i] =
          missingAt a.versions.iter b.versions.iter i) ∧
      (∀ m ∉ b.groupMembers,
        (missingSpec b.groupMembers a.versions.iter b.versions.iter).lookup m = none) ∧
      ∃ gaps, a.versions.missingVersionRangesTo b.versions = some gaps ∧
        gaps.Pairwise (fun g₁ g₂ => g₁.memberIndex < g₂.memberIndex) ∧
        ∀ i (hi : i < b.groupMembers.length),
          (missingSpec b.groupMembers a.versions.iter b.versions.iter).lookup b.groupMembers[i] =
            (gaps.find? (·.memberIndex = i)).map VersionVectorGap.versions) :=
  ⟨⟨trivial,by decide,rfl,by decide,.inr (by decide)⟩,
    missing_to_is_the_pointwise_catch_up true trivial (by decide) rfl (by decide) (.inr (by decide))⟩

/-- In a debug build `missing_to` panics when `self` is after `other`, where the
map the pointwise reading gives is empty. -/
theorem missing_to_panics_in_debug_build_when_ahead :
    let a : GroupVersionVector ℕ := ⟨[0,1],.synced 2 5,rfl⟩
    let b : GroupVersionVector ℕ := ⟨[0,1],.synced 2 3,rfl⟩
    a.versions.hbCmp b.versions = some .after ∧ a.missingTo true b = none ∧
      a.missingTo false b = some ∅ :=
  ⟨rfl,rfl,rfl⟩

end Flotsync.Versions
