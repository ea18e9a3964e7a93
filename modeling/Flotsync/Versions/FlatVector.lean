import Mathlib
import Flotsync.Lib.Checked

/-!
Version vectors of `flotsync_core::versions`: the reference `Full` form, the
compact forms `Override` and `Synced`, the expanded entry list (`iter`), the
happened-before comparison `hb_cmp` with its per-representation helpers, and
the pointwise combination behind `least_upper_bound` and
`greatest_lower_bound`.

Versions are `u64` in the source and natural numbers here: no operation of this
file adds to a version, so nothing depends on the difference. A panic of the
source (a failed `assert!`, an `expect`, an `unreachable!`, an index out of
range) is `none`.
-/

set_option autoImplicit false

namespace Flotsync.Versions

/-- The happened-before order between two versions: a partial order with an
explicit `Concurrent` case and `Incomparable` for vectors of different sizes. -/
inductive HappenedBeforeOrdering where
  | before
  | equal
  | after
  | concurrent
  | incomparable
  deriving DecidableEq, Repr

namespace HappenedBeforeOrdering

def reverse : HappenedBeforeOrdering → HappenedBeforeOrdering
  | .before => .after
  | .after => .before
  | o => o

/-- `From<cmp::Ordering>`. -/
def ofOrdering : Ordering → HappenedBeforeOrdering
  | .lt => .before
  | .eq => .equal
  | .gt => .after

/-- `From<HappenedBeforeOrdering> for Option<cmp::Ordering>`, the `partial_cmp` result. -/
def toOrdering : HappenedBeforeOrdering → Option Ordering
  | .before => some .lt
  | .equal => some .eq
  | .after => some .gt
  | .concurrent | .incomparable => none

@[simp] theorem reverse_reverse (o : HappenedBeforeOrdering) : o.reverse.reverse = o := by
  cases o <;> rfl

end HappenedBeforeOrdering

/-- The reference representation, one entry per member. Every constructor of
the crate (`From<Vec<u64>>`, `From<[u64; N]>`) rejects an empty vector. -/
structure PureVersionVector where
  entries : List ℕ
  nonempty : entries ≠ []

namespace PureVersionVector

/-- `From<Vec<u64>>`, which asserts that the vector is not empty. -/
def «from» (entries : List ℕ) : Option PureVersionVector :=
  if h : entries = [] then none else some ⟨entries,h⟩

def len (v : PureVersionVector) : ℕ+ :=
  ⟨v.entries.length,List.length_pos_iff.2 v.nonempty⟩

@[simp] theorem len_coe (v : PureVersionVector) : (v.len : ℕ) = v.entries.length := rfl

theorem from_eq_some {entries : List ℕ} (h : entries ≠ []) :
    PureVersionVector.from entries = some ⟨entries,h⟩ := dif_neg h

end PureVersionVector

/-- A mostly synced vector in which a single member is ahead. The fields are
private in the source and every constructor keeps `group_version <
override_version`, so the invariant is a field here. -/
structure OverrideVersion where
  groupVersion : ℕ
  overridePosition : ℕ
  overrideVersion : ℕ
  valid : groupVersion < overrideVersion

namespace OverrideVersion

/-- `OverrideVersion::new`; its `assert!` is the hypothesis `h`. -/
def new (groupVersion overridePosition overrideVersion : ℕ)
    (h : groupVersion < overrideVersion) : OverrideVersion :=
  ⟨groupVersion,overridePosition,overrideVersion,h⟩

def newOpt (groupVersion overridePosition overrideVersion : ℕ) : Option OverrideVersion :=
  if h : groupVersion < overrideVersion then
    some (new groupVersion overridePosition overrideVersion h)
  else none

/-- The version of the member at `position`, as `OverrideIter` yields it. -/
def entry (o : OverrideVersion) (position : ℕ) : ℕ :=
  if position = o.overridePosition then o.overrideVersion else o.groupVersion

def toVector (o : OverrideVersion) (numMembers : ℕ+) : Option PureVersionVector :=
  (Checked.set (List.replicate numMembers o.groupVersion) o.overridePosition
    o.overrideVersion).bind PureVersionVector.from

/-- State of the scan in `try_from_versions`: the common version seen so far
and at most one higher (or, at position zero, displaced) candidate. -/
structure Scan where
  groupCandidateVersion : ℕ
  overrideCandidatePosition : Option ℕ
  overrideCandidateVersion : ℕ

/-- One iteration of the scan at `position ≥ 1`; `none` is its early `return None`. -/
def Scan.step (s : Scan) (position version : ℕ) : Option Scan :=
  if version = s.groupCandidateVersion then some s
  else if s.overrideCandidatePosition.isSome then none
  else if version > s.groupCandidateVersion then
    some { s with overrideCandidatePosition := some position, overrideCandidateVersion := version }
  else if position = 1 then
    -- A lower second entry: position zero may be the override after all.
    some { groupCandidateVersion := version, overrideCandidatePosition := some 0,
           overrideCandidateVersion := s.groupCandidateVersion }
  else none

def Scan.run (s : Scan) (position : ℕ) : List ℕ → Option Scan
  | [] => some s
  | version :: versions => (s.step position version).bind fun s => s.run (position+1) versions

/-- `try_from_versions` on the slice `first :: rest` (the source indexes
`versions[0]`, so it is never called on an empty slice). -/
def tryFromVersions (first : ℕ) (rest : List ℕ) : Option OverrideVersion := do
  let s ← Scan.run ⟨first,none,0⟩ 1 rest
  let overridePosition ← s.overrideCandidatePosition
  newOpt s.groupCandidateVersion overridePosition s.overrideCandidateVersion

/-- `OverrideVersion::hb_cmp`, which the source proves case by case in its comments. -/
def hbCmp (self other : OverrideVersion) : HappenedBeforeOrdering :=
  if self.overridePosition = other.overridePosition then
    match compare self.groupVersion other.groupVersion with
    | .lt =>
      match compare self.overrideVersion other.overrideVersion with
      | .lt | .eq => .before
      | .gt => .concurrent
    | .eq => .ofOrdering (compare self.overrideVersion other.overrideVersion)
    | .gt =>
      match compare self.overrideVersion other.overrideVersion with
      | .lt => .concurrent
      | .eq | .gt => .after
  else
    -- The override version of one side is part of the other side's group version.
    match compare self.overrideVersion other.groupVersion with
    | .lt | .eq => .before
    | .gt =>
      match compare other.overrideVersion self.groupVersion with
      | .lt | .eq => .after
      | .gt => .concurrent

end OverrideVersion

/-- `flat_vector::VersionVector`. -/
inductive VersionVector where
  | full (vector : PureVersionVector)
  | override (numMembers : ℕ+) (version : OverrideVersion)
  | synced (numMembers : ℕ+) (version : ℕ)

namespace VersionVector

def numMembers : VersionVector → ℕ+
  | .full v => v.len
  | .override numMembers _ | .synced numMembers _ => numMembers

/-- The expanded entry list, `VersionVector::iter`. -/
def iter : VersionVector → List ℕ
  | .full v => v.entries
  | .override numMembers version => (List.range numMembers).map version.entry
  | .synced numMembers version => List.replicate numMembers version

@[simp] theorem iter_length (v : VersionVector) : v.iter.length = v.numMembers := by
  cases v <;> simp [iter,numMembers]

/-- The representation invariant kept by every operation of the crate: an
`Override` has at least two members and overrides one of them. -/
def WellFormed : VersionVector → Prop
  | .full _ => True
  | .override numMembers version => 2 ≤ (numMembers : ℕ) ∧ version.overridePosition < numMembers
  | .synced _ _ => True

instance (v : VersionVector) : Decidable v.WellFormed := by
  cases v <;> unfold WellFormed <;> infer_instance

end VersionVector

/-! ## The happened-before comparison -/

/-- The set of orderings seen so far, `EncounteredOrderings`. -/
structure EncounteredOrderings where
  hasEqual : Bool
  hasLess : Bool
  hasGreater : Bool

namespace EncounteredOrderings

def none : EncounteredOrderings := ⟨false,false,false⟩

def update (e : EncounteredOrderings) : Ordering → EncounteredOrderings
  | .lt => { e with hasLess := true }
  | .eq => { e with hasEqual := true }
  | .gt => { e with hasGreater := true }

def hasLessAndGreater (e : EncounteredOrderings) : Bool := e.hasLess && e.hasGreater

/-- The final verdict after a loop that did not stop early; the last branch is
the source's `unreachable!`. -/
def toHbAssumeLoopCheck (e : EncounteredOrderings) : Option HappenedBeforeOrdering :=
  if e.hasEqual && !(e.hasLess || e.hasGreater) then some .equal
  else if e.hasLess && !e.hasGreater then some .before
  else if e.hasGreater && !e.hasLess then some .after
  else Option.none

end EncounteredOrderings

/-- The loop shared by the entry-by-entry comparisons: record each ordering and
return `Concurrent` as soon as both a smaller and a greater entry were seen. -/
def compareEntries (orderings : EncounteredOrderings) :
    List Ordering → Option HappenedBeforeOrdering
  | [] => orderings.toHbAssumeLoopCheck
  | result :: results =>
    let orderings := orderings.update result
    if orderings.hasLessAndGreater then some .concurrent else compareEntries orderings results

/-- `HappenedBeforeOrd for PureVersionVector`. -/
def PureVersionVector.hbCmp (self other : PureVersionVector) : Option HappenedBeforeOrdering :=
  if self.entries.length = other.entries.length then
    if self.entries.isEmpty then some .equal
    else compareEntries .none (List.zipWith compare self.entries other.entries)
  else some .incomparable

def hbCompareFullOverride (f : PureVersionVector) (o : OverrideVersion) :
    Option HappenedBeforeOrdering :=
  compareEntries .none (f.entries.mapIdx fun pos value =>
    if pos = o.overridePosition then compare value o.overrideVersion
    else compare value o.groupVersion)

def hbCompareFullSynced (f : PureVersionVector) (syncedVersion : ℕ) :
    Option HappenedBeforeOrdering :=
  compareEntries .none (f.entries.map fun value => compare value syncedVersion)

def hbCompareOverrideSynced (o : OverrideVersion) (syncedVersion : ℕ) : HappenedBeforeOrdering :=
  match compare o.groupVersion syncedVersion with
  | .lt =>
    match compare o.overrideVersion syncedVersion with
    | .lt | .eq => .before
    | .gt => .concurrent
  | .eq | .gt => .after

namespace VersionVector

/-- `HappenedBeforeOrd for VersionVector`: a member-count check, then one arm
per pair of representations; every arm with an `Override` asserts that it has
more than one member. -/
def hbCmp (self other : VersionVector) : Option HappenedBeforeOrdering :=
  if self.numMembers ≠ other.numMembers then some .incomparable
  else
    match self, other with
    | .full v₁, .full v₂ => v₁.hbCmp v₂
    | .full v₁, .override numMembers v₂ =>
      if 1 < (numMembers : ℕ) then hbCompareFullOverride v₁ v₂ else Option.none
    | .full v₁, .synced _ v₂ => hbCompareFullSynced v₁ v₂
    | .override numMembers v₁, .full v₂ =>
      if 1 < (numMembers : ℕ) then (hbCompareFullOverride v₂ v₁).map .reverse else Option.none
    | .override n₁ v₁, .override n₂ v₂ =>
      if 1 < (n₁ : ℕ) then
        if 1 < (n₂ : ℕ) then some (v₁.hbCmp v₂) else Option.none
      else Option.none
    | .override numMembers v₁, .synced _ v₂ =>
      if 1 < (numMembers : ℕ) then some (hbCompareOverrideSynced v₁ v₂) else Option.none
    | .synced _ v₁, .full v₂ => (hbCompareFullSynced v₂ v₁).map .reverse
    | .synced _ v₁, .override numMembers v₂ =>
      if 1 < (numMembers : ℕ) then some (hbCompareOverrideSynced v₂ v₁).reverse else Option.none
    | .synced _ v₁, .synced _ v₂ => some (.ofOrdering (compare v₁ v₂))

/-- `PartialEq for VersionVector`: equal in the happened-before order. -/
def eq (self other : VersionVector) : Option Bool :=
  (self.hbCmp other).map (· == .equal)

/-- `PartialOrd for VersionVector`. -/
def partialCmp (self other : VersionVector) : Option (Option Ordering) :=
  (self.hbCmp other).map HappenedBeforeOrdering.toOrdering

/-- `PartialOrd::le` as provided by default: `partial_cmp` is `Less` or `Equal`. -/
def le (self other : VersionVector) : Option Bool :=
  (self.partialCmp other).map fun o => o == some .lt || o == some .eq

/-- `PartialOrd::ge` as provided by default: `partial_cmp` is `Greater` or `Equal`. -/
def ge (self other : VersionVector) : Option Bool :=
  (self.partialCmp other).map fun o => o == some .gt || o == some .eq

end VersionVector

/-! ## Pointwise combination -/

/-- Build the compact form of a common group version with one exception; the
exception stays an `Override` only while it is ahead of the group. -/
def compactGroupOverride (numMembers : ℕ+) (overridePosition groupVersion overrideVersion : ℕ) :
    Option VersionVector :=
  if groupVersion = overrideVersion then some (.synced numMembers groupVersion)
  else if h : groupVersion < overrideVersion then
    some (.override numMembers (OverrideVersion.new groupVersion overridePosition overrideVersion h))
  else
    (Checked.set (List.replicate numMembers groupVersion) overridePosition overrideVersion).bind
      fun versions => (PureVersionVector.from versions).map .full

namespace VersionVector

/-- `from_versions`: the most compact representation of explicit member
versions; the source's `expect` on an empty vector is the `[]` case. -/
def fromVersions : List ℕ → Option VersionVector
  | [] => Option.none
  | first :: rest =>
    let numMembers : ℕ+ := ⟨rest.length+1,Nat.succ_pos _⟩
    if (first :: rest).all (· == first) then some (.synced numMembers first)
    else
      match OverrideVersion.tryFromVersions first rest with
      | some version => some (.override numMembers version)
      | Option.none => some (.full ⟨first :: rest,List.cons_ne_nil _ _⟩)

def pointwiseCombineToVec (left right : VersionVector) (combine : ℕ → ℕ → ℕ) : List ℕ :=
  List.zipWith combine left.iter right.iter

/-- `pointwise_combine`: specialised arms keep `Synced` and `Override` without
expanding; everything else expands, combines and recompacts. The mixed arm
combines the synced version first whichever side it comes from. -/
def pointwiseCombine (self other : VersionVector) (combine : ℕ → ℕ → ℕ) : Option VersionVector :=
  match self, other with
  | .synced numMembers left, .synced _ right => some (.synced numMembers (combine left right))
  | .synced numMembers syncedVersion, .override _ overrideVersion
  | .override numMembers overrideVersion, .synced _ syncedVersion =>
    compactGroupOverride numMembers overrideVersion.overridePosition
      (combine syncedVersion overrideVersion.groupVersion)
      (combine syncedVersion overrideVersion.overrideVersion)
  | .override numMembers left, .override _ right =>
    if left.overridePosition = right.overridePosition then
      compactGroupOverride numMembers left.overridePosition
        (combine left.groupVersion right.groupVersion)
        (combine left.overrideVersion right.overrideVersion)
    else fromVersions (pointwiseCombineToVec self other combine)
  | .full _, _ | .synced _ _, .full _ | .override _ _, .full _ =>
    fromVersions (pointwiseCombineToVec self other combine)

/-- `assert_same_member_count`. -/
def assertSameMemberCount (left right : VersionVector) : Option Unit :=
  if left.numMembers = right.numMembers then some () else Option.none

/-- The causal union: what either side has seen. -/
def leastUpperBound (self other : VersionVector) : Option VersionVector := do
  assertSameMemberCount self other
  self.pointwiseCombine other max

/-- The causal intersection: what both sides have definitely seen. -/
def greatestLowerBound (self other : VersionVector) : Option VersionVector := do
  assertSameMemberCount self other
  self.pointwiseCombine other min

end VersionVector

end Flotsync.Versions
