import Flotsync.Versions.FlatVector
import Flotsync.Lib.Pointwise

/-!
`hb_cmp` against the reference it is meant to implement: the plain pointwise
comparison of the expanded entry lists. The loop used by the `Full` arms is
shown to compute the reference through the orderings it has seen; the compact
arms are shown to agree with it by reading off the entries of an `Override`
and of a `Synced` vector.
-/

set_option autoImplicit false

namespace Flotsync.Versions

open List Pointwise

/-- The reference happened-before comparison of two entry lists. -/
def pointwiseHbCmp {α : Type*} [LinearOrder α] (l₁ l₂ : List α) : HappenedBeforeOrdering :=
  if l₁.length ≠ l₂.length then .incomparable
  else if l₁ = l₂ then .equal
  else if Forall₂ (· ≤ ·) l₁ l₂ then .before
  else if Forall₂ (· ≤ ·) l₂ l₁ then .after
  else .concurrent

section Reference

variable {α : Type*} [LinearOrder α]

theorem pointwiseHbCmp_swap (l₁ l₂ : List α) :
    pointwiseHbCmp l₂ l₁ = (pointwiseHbCmp l₁ l₂).reverse := by
  unfold pointwiseHbCmp
  by_cases hl : l₁.length = l₂.length
  · by_cases he : l₁ = l₂
    · subst he
      simp [HappenedBeforeOrdering.reverse]
    · have h₂ : l₂ ≠ l₁ := fun h => he h.symm
      by_cases h₁₂ : Forall₂ (· ≤ ·) l₁ l₂
      · have h₂₁ : ¬ Forall₂ (· ≤ ·) l₂ l₁ := fun h => he (forall₂_le_antisymm h₁₂ h)
        simp [hl,he,h₂,h₁₂,h₂₁,HappenedBeforeOrdering.reverse]
      · by_cases h₂₁ : Forall₂ (· ≤ ·) l₂ l₁
        · simp [hl,he,h₂,h₁₂,h₂₁,HappenedBeforeOrdering.reverse]
        · simp [hl,he,h₂,h₁₂,h₂₁,HappenedBeforeOrdering.reverse]
  · have hl' : l₂.length ≠ l₁.length := fun h => hl h.symm
    simp [hl,hl',HappenedBeforeOrdering.reverse]

/-- On lists of one length, the reference only depends on which of `lt` and
`gt` occur among the entry comparisons. -/
theorem pointwiseHbCmp_of_length_eq {l₁ l₂ : List α} (h : l₁.length = l₂.length) :
    pointwiseHbCmp l₁ l₂ =
      if Ordering.lt ∉ zipWith compare l₁ l₂ ∧ Ordering.gt ∉ zipWith compare l₁ l₂ then .equal
      else if Ordering.gt ∉ zipWith compare l₁ l₂ then .before
      else if Ordering.lt ∉ zipWith compare l₁ l₂ then .after
      else .concurrent := by
  simp only [pointwiseHbCmp,h,ne_eq,not_true_eq_false,if_false,eq_iff_lt_gt_not_mem h,
    forall₂_le_iff_gt_not_mem h,forall₂_ge_iff_lt_not_mem h]

theorem pointwiseHbCmp_map_range (n : ℕ) (f g : ℕ → α) :
    pointwiseHbCmp ((range n).map f) ((range n).map g) =
      if ∀ i < n, f i = g i then .equal
      else if ∀ i < n, f i ≤ g i then .before
      else if ∀ i < n, g i ≤ f i then .after
      else .concurrent := by
  simp only [pointwiseHbCmp,length_map,length_range,ne_eq,not_true_eq_false,if_false,
    map_range_eq_iff,forall₂_map_range_iff]

theorem pointwiseHbCmp_eq_equal_iff {l₁ l₂ : List α} :
    pointwiseHbCmp l₁ l₂ = .equal ↔ l₁ = l₂ := by
  unfold pointwiseHbCmp
  by_cases he : l₁ = l₂
  · simp [he]
  · split_ifs <;> simp_all

/-- `Before` or `Equal` in the reference is exactly the pointwise order. -/
theorem pointwiseHbCmp_before_or_equal_iff {l₁ l₂ : List α} :
    pointwiseHbCmp l₁ l₂ = .before ∨ pointwiseHbCmp l₁ l₂ = .equal ↔ Forall₂ (· ≤ ·) l₁ l₂ := by
  unfold pointwiseHbCmp
  by_cases hle : Forall₂ (· ≤ ·) l₁ l₂
  · have hl := hle.length_eq
    by_cases he : l₁ = l₂ <;> simp [hl,he,hle]
  · have hne : l₁ ≠ l₂ := fun h => hle (h ▸ forall₂_le_refl l₁)
    split_ifs <;> simp_all

end Reference

theorem replicate_eq_map_range (n v : ℕ) : replicate n v = (range n).map fun _ => v := by
  simp

/-! ## The comparison loop -/

namespace EncounteredOrderings

def finish (e : EncounteredOrderings) : Option HappenedBeforeOrdering :=
  if e.hasLessAndGreater then some .concurrent else e.toHbAssumeLoopCheck

@[simp] theorem foldl_update_hasLess (e : EncounteredOrderings) (os : List Ordering) :
    (os.foldl update e).hasLess = (e.hasLess || decide (Ordering.lt ∈ os)) := by
  induction os generalizing e with
  | nil => simp
  | cons o os ih => cases o <;> simp [update,ih]

@[simp] theorem foldl_update_hasEqual (e : EncounteredOrderings) (os : List Ordering) :
    (os.foldl update e).hasEqual = (e.hasEqual || decide (Ordering.eq ∈ os)) := by
  induction os generalizing e with
  | nil => simp
  | cons o os ih => cases o <;> simp [update,ih]

@[simp] theorem foldl_update_hasGreater (e : EncounteredOrderings) (os : List Ordering) :
    (os.foldl update e).hasGreater = (e.hasGreater || decide (Ordering.gt ∈ os)) := by
  induction os generalizing e with
  | nil => simp
  | cons o os ih => cases o <;> simp [update,ih]

end EncounteredOrderings

/-- The early exit of the loop does not change its verdict: it is the verdict
on every ordering of the list. -/
theorem compareEntries_eq_finish (e : EncounteredOrderings) (os : List Ordering)
    (h : e.hasLessAndGreater = false) :
    compareEntries e os = (os.foldl EncounteredOrderings.update e).finish := by
  induction os generalizing e with
  | nil => simp [compareEntries,EncounteredOrderings.finish,h]
  | cons o os ih =>
    simp only [compareEntries,foldl_cons]
    split
    · rename_i hlg
      have hall : (os.foldl EncounteredOrderings.update (e.update o)).hasLessAndGreater = true := by
        simp only [EncounteredOrderings.hasLessAndGreater,Bool.and_eq_true] at hlg ⊢
        simp [hlg.1,hlg.2]
      simp [EncounteredOrderings.finish,hall]
    · rename_i hlg
      exact ih _ (by simpa using hlg)

/-- The loop over the entry comparisons of two non-empty lists of one length
computes the reference comparison. -/
theorem compareEntries_zipWith {l₁ l₂ : List ℕ} (h : l₁.length = l₂.length) (hne : l₁ ≠ []) :
    compareEntries .none (zipWith compare l₁ l₂) = some (pointwiseHbCmp l₁ l₂) := by
  rw [compareEntries_eq_finish _ _ rfl,pointwiseHbCmp_of_length_eq h]
  have hsome := mem_zipWith_compare_of_ne_nil h hne
  by_cases hlt : Ordering.lt ∈ zipWith compare l₁ l₂ <;>
    by_cases hgt : Ordering.gt ∈ zipWith compare l₁ l₂ <;>
    simp_all [EncounteredOrderings.finish,EncounteredOrderings.hasLessAndGreater,
      EncounteredOrderings.toHbAssumeLoopCheck,EncounteredOrderings.none]

theorem pointwiseHbCmp_of_length_ne {l₁ l₂ : List ℕ} (h : l₁.length ≠ l₂.length) :
    pointwiseHbCmp l₁ l₂ = .incomparable := if_pos h

/-! ## Entries of the compact forms -/

namespace OverrideVersion

variable {n : ℕ} {o o₁ o₂ : OverrideVersion}

theorem exists_other_position (hn : 2 ≤ n) (p : ℕ) : ∃ q < n, q ≠ p :=
  ⟨if p = 0 then 1 else 0,by split <;> omega,by split <;> omega⟩

/-- A property of every entry of an `Override` vector is a property of its two versions. -/
theorem forall_entry_iff (P : ℕ → Prop) (hn : 2 ≤ n) (hp : o.overridePosition < n) :
    (∀ i < n, P (o.entry i)) ↔ P o.overrideVersion ∧ P o.groupVersion := by
  constructor
  · intro h
    obtain ⟨q,hq,hqp⟩ := exists_other_position hn o.overridePosition
    have hover := h _ hp
    have hgroup := h _ hq
    simp only [entry,if_true] at hover
    simp only [entry,hqp,if_false] at hgroup
    exact ⟨hover,hgroup⟩
  · rintro ⟨hover,hgroup⟩ i -
    unfold entry
    split
    · exact hover
    · exact hgroup

/-- Two `Override` vectors at one position relate entrywise exactly when their
override versions and their group versions do. -/
theorem forall_entry_same_iff (R : ℕ → ℕ → Prop) (hn : 2 ≤ n) (hp : o₁.overridePosition < n)
    (hpos : o₁.overridePosition = o₂.overridePosition) :
    (∀ i < n, R (o₁.entry i) (o₂.entry i)) ↔
      R o₁.overrideVersion o₂.overrideVersion ∧ R o₁.groupVersion o₂.groupVersion := by
  constructor
  · intro h
    obtain ⟨q,hq,hqp⟩ := exists_other_position hn o₁.overridePosition
    have hover := h _ hp
    have hgroup := h _ hq
    simp only [entry,← hpos,if_true] at hover
    simp only [entry,← hpos,hqp,if_false] at hgroup
    exact ⟨hover,hgroup⟩
  · rintro ⟨hover,hgroup⟩ i -
    unfold entry
    rw [← hpos]
    split
    · exact hover
    · exact hgroup

/-- At different positions, each override version meets the other side's group
version, and the two group versions meet wherever a third member exists. -/
theorem forall_entry_ne_iff (R : ℕ → ℕ → Prop) (hp₁ : o₁.overridePosition < n)
    (hp₂ : o₂.overridePosition < n) (hpos : o₁.overridePosition ≠ o₂.overridePosition) :
    (∀ i < n, R (o₁.entry i) (o₂.entry i)) ↔
      R o₁.overrideVersion o₂.groupVersion ∧ R o₁.groupVersion o₂.overrideVersion ∧
        (3 ≤ n → R o₁.groupVersion o₂.groupVersion) := by
  constructor
  · intro h
    have h₁ := h _ hp₁
    have h₂ := h _ hp₂
    simp only [entry,hpos,Ne.symm hpos,if_true,if_false] at h₁ h₂
    refine ⟨h₁,h₂,fun hn => ?_⟩
    -- some member is neither of the two override positions
    let q := if o₁.overridePosition ≠ 0 ∧ o₂.overridePosition ≠ 0 then 0
      else if o₁.overridePosition ≠ 1 ∧ o₂.overridePosition ≠ 1 then 1 else 2
    have hq : q < n ∧ q ≠ o₁.overridePosition ∧ q ≠ o₂.overridePosition := by
      simp only [q]
      split_ifs <;> omega
    have h₃ := h q hq.1
    simpa [entry,hq.2.1,hq.2.2] using h₃
  · rintro ⟨h₁,h₂,h₃⟩ i hi
    unfold entry
    by_cases hi₁ : i = o₁.overridePosition
    · simpa [hi₁,hpos] using h₁
    · by_cases hi₂ : i = o₂.overridePosition
      · simpa [hi₂,Ne.symm hpos] using h₂
      · simpa [hi₁,hi₂] using h₃ (by omega)

end OverrideVersion

/-! ## One lemma per arm of `hb_cmp` -/

theorem PureVersionVector.hbCmp_eq_pointwise (v₁ v₂ : PureVersionVector) :
    v₁.hbCmp v₂ = some (pointwiseHbCmp v₁.entries v₂.entries) := by
  unfold PureVersionVector.hbCmp
  split
  · rename_i hl
    rw [if_neg (by simp [v₁.nonempty])]
    exact compareEntries_zipWith hl v₁.nonempty
  · rename_i hl
    rw [pointwiseHbCmp_of_length_ne hl]

theorem mapIdx_compare_entry (f : PureVersionVector) (o : OverrideVersion) :
    f.entries.mapIdx (fun pos value =>
        if pos = o.overridePosition then compare value o.overrideVersion
        else compare value o.groupVersion) =
      zipWith compare f.entries ((range f.entries.length).map o.entry) := by
  apply ext_getElem
  · simp
  · intro i h₁ h₂
    simp only [getElem_mapIdx,getElem_zipWith,getElem_map,getElem_range,OverrideVersion.entry]
    split <;> rfl

theorem hbCompareFullOverride_eq (f : PureVersionVector) (o : OverrideVersion) :
    hbCompareFullOverride f o =
      some (pointwiseHbCmp f.entries ((range f.entries.length).map o.entry)) := by
  unfold hbCompareFullOverride
  rw [mapIdx_compare_entry]
  exact compareEntries_zipWith (by simp) f.nonempty

theorem hbCompareFullSynced_eq (f : PureVersionVector) (s : ℕ) :
    hbCompareFullSynced f s = some (pointwiseHbCmp f.entries (replicate f.entries.length s)) := by
  unfold hbCompareFullSynced
  have hmap : f.entries.map (fun value => compare value s) =
      zipWith compare f.entries (replicate f.entries.length s) := by
    apply ext_getElem <;> simp
  rw [hmap]
  exact compareEntries_zipWith (by simp) f.nonempty

theorem hbCompareOverrideSynced_eq {n : ℕ} (o : OverrideVersion) (s : ℕ) (hn : 2 ≤ n)
    (hp : o.overridePosition < n) :
    hbCompareOverrideSynced o s = pointwiseHbCmp ((range n).map o.entry) (replicate n s) := by
  have heq := OverrideVersion.forall_entry_iff (· = s) hn hp
  have hle := OverrideVersion.forall_entry_iff (· ≤ s) hn hp
  have hge := OverrideVersion.forall_entry_iff (s ≤ ·) hn hp
  rw [replicate_eq_map_range,pointwiseHbCmp_map_range]
  simp only [heq,hle,hge]
  have hv := o.valid
  unfold hbCompareOverrideSynced
  cases hg : compare o.groupVersion s with
  | lt =>
    have hg' := compare_lt_iff_lt.1 hg
    cases ho : compare o.overrideVersion s with
    | lt => have := compare_lt_iff_lt.1 ho; split_ifs <;> first | rfl | omega
    | eq => have := compare_eq_iff_eq.1 ho; split_ifs <;> first | rfl | omega
    | gt => have := compare_gt_iff_gt.1 ho; split_ifs <;> first | rfl | omega
  | eq => have := compare_eq_iff_eq.1 hg; split_ifs <;> first | rfl | omega
  | gt => have := compare_gt_iff_gt.1 hg; split_ifs <;> first | rfl | omega

theorem OverrideVersion.hbCmp_eq_pointwise {n : ℕ} (o₁ o₂ : OverrideVersion) (hn : 2 ≤ n)
    (hp₁ : o₁.overridePosition < n) (hp₂ : o₂.overridePosition < n) :
    o₁.hbCmp o₂ = pointwiseHbCmp ((range n).map o₁.entry) ((range n).map o₂.entry) := by
  have hv₁ := o₁.valid
  have hv₂ := o₂.valid
  rw [pointwiseHbCmp_map_range]
  unfold hbCmp
  split
  · -- one override position: the two versions at it and the two group versions decide
    rename_i hpos
    have heq := forall_entry_same_iff (· = ·) hn hp₁ hpos
    have hle := forall_entry_same_iff (· ≤ ·) hn hp₁ hpos
    have hge := forall_entry_same_iff (fun a b => b ≤ a) hn hp₁ hpos
    beta_reduce at heq hle hge
    simp only [heq,hle,hge]
    cases hg : compare o₁.groupVersion o₂.groupVersion with
    | lt =>
      have hg' := compare_lt_iff_lt.1 hg
      cases ho : compare o₁.overrideVersion o₂.overrideVersion with
      | lt => have := compare_lt_iff_lt.1 ho; split_ifs <;> first | rfl | omega
      | eq => have := compare_eq_iff_eq.1 ho; split_ifs <;> first | rfl | omega
      | gt => have := compare_gt_iff_gt.1 ho; split_ifs <;> first | rfl | omega
    | eq =>
      have hg' := compare_eq_iff_eq.1 hg
      cases ho : compare o₁.overrideVersion o₂.overrideVersion with
      | lt => have := compare_lt_iff_lt.1 ho; split_ifs <;> first | rfl | omega
      | eq => have := compare_eq_iff_eq.1 ho; split_ifs <;> first | rfl | omega
      | gt => have := compare_gt_iff_gt.1 ho; split_ifs <;> first | rfl | omega
    | gt =>
      have hg' := compare_gt_iff_gt.1 hg
      cases ho : compare o₁.overrideVersion o₂.overrideVersion with
      | lt => have := compare_lt_iff_lt.1 ho; split_ifs <;> first | rfl | omega
      | eq => have := compare_eq_iff_eq.1 ho; split_ifs <;> first | rfl | omega
      | gt => have := compare_gt_iff_gt.1 ho; split_ifs <;> first | rfl | omega
  · -- different positions: each override version meets the other group version
    rename_i hpos
    have heq := forall_entry_ne_iff (· = ·) hp₁ hp₂ hpos
    have hle := forall_entry_ne_iff (· ≤ ·) hp₁ hp₂ hpos
    have hge := forall_entry_ne_iff (fun a b => b ≤ a) hp₁ hp₂ hpos
    beta_reduce at heq hle hge
    simp only [heq,hle,hge]
    cases h₁ : compare o₁.overrideVersion o₂.groupVersion with
    | lt => have := compare_lt_iff_lt.1 h₁; split_ifs <;> first | rfl | omega
    | eq => have := compare_eq_iff_eq.1 h₁; split_ifs <;> first | rfl | omega
    | gt =>
      have h₁' := compare_gt_iff_gt.1 h₁
      cases h₂ : compare o₂.overrideVersion o₁.groupVersion with
      | lt => have := compare_lt_iff_lt.1 h₂; split_ifs <;> first | rfl | omega
      | eq => have := compare_eq_iff_eq.1 h₂; split_ifs <;> first | rfl | omega
      | gt => have := compare_gt_iff_gt.1 h₂; split_ifs <;> first | rfl | omega

namespace VersionVector

theorem numMembers_eq_iff {v₁ v₂ : VersionVector} :
    v₁.numMembers = v₂.numMembers ↔ v₁.iter.length = v₂.iter.length := by
  simp [PNat.coe_inj]

/-- On well-formed vectors `hb_cmp` never panics and computes the reference
comparison of the expanded entries. -/
theorem hbCmp_eq_pointwise {v₁ v₂ : VersionVector} (h₁ : v₁.WellFormed) (h₂ : v₂.WellFormed) :
    v₁.hbCmp v₂ = some (pointwiseHbCmp v₁.iter v₂.iter) := by
  by_cases hn : v₁.numMembers = v₂.numMembers
  · have hl := numMembers_eq_iff.1 hn
    cases v₁ with
    | full f₁ =>
      cases v₂ with
      | full f₂ =>
        simp only [hbCmp,hn,ne_eq,not_true_eq_false,if_false]
        exact f₁.hbCmp_eq_pointwise f₂
      | override n o =>
        simp only [hbCmp,hn,ne_eq,not_true_eq_false,if_false]
        obtain ⟨hn₂,-⟩ := h₂
        simp only [iter,length_map,length_range] at hl
        rw [if_pos (by omega),hbCompareFullOverride_eq,hl]
        rfl
      | synced n s =>
        simp only [hbCmp,hn,ne_eq,not_true_eq_false,if_false]
        simp only [iter,length_replicate] at hl
        rw [hbCompareFullSynced_eq,hl]
        rfl
    | override n o =>
      obtain ⟨hn₁,hp₁⟩ := h₁
      cases v₂ with
      | full f₂ =>
        simp only [hbCmp,hn,ne_eq,not_true_eq_false,if_false]
        simp only [iter,length_map,length_range] at hl
        rw [if_pos (by omega),hbCompareFullOverride_eq,← hl,Option.map_some,
          pointwiseHbCmp_swap,HappenedBeforeOrdering.reverse_reverse]
        rfl
      | override n₂ o₂ =>
        simp only [hbCmp,hn,ne_eq,not_true_eq_false,if_false]
        obtain ⟨hn₂,hp₂⟩ := h₂
        simp only [iter,length_map,length_range] at hl
        rw [if_pos (by omega),if_pos (by omega),OverrideVersion.hbCmp_eq_pointwise o o₂ hn₁ hp₁
          (by omega)]
        simp [iter,hl]
      | synced n₂ s =>
        simp only [hbCmp,hn,ne_eq,not_true_eq_false,if_false]
        rw [if_pos (by omega),hbCompareOverrideSynced_eq o s hn₁ hp₁]
        simp only [iter,length_map,length_range,length_replicate] at hl
        simp [iter,hl]
    | synced n s =>
      cases v₂ with
      | full f₂ =>
        simp only [hbCmp,hn,ne_eq,not_true_eq_false,if_false]
        simp only [iter,length_replicate] at hl
        rw [hbCompareFullSynced_eq,← hl,Option.map_some,pointwiseHbCmp_swap,
          HappenedBeforeOrdering.reverse_reverse]
        rfl
      | override n₂ o₂ =>
        simp only [hbCmp,hn,ne_eq,not_true_eq_false,if_false]
        obtain ⟨hn₂,hp₂⟩ := h₂
        simp only [iter,length_map,length_range,length_replicate] at hl
        rw [if_pos (by omega),hbCompareOverrideSynced_eq o₂ s hn₂ hp₂,pointwiseHbCmp_swap,
          HappenedBeforeOrdering.reverse_reverse]
        simp [iter,hl]
      | synced n₂ s₂ =>
        simp only [hbCmp,hn,ne_eq,not_true_eq_false,if_false]
        simp only [iter,length_replicate] at hl
        have hconst : ∀ P : Prop, (∀ i < (n₂ : ℕ), P) ↔ P := fun P =>
          ⟨fun h => h 0 n₂.pos,fun h _ _ => h⟩
        simp only [iter]
        rw [replicate_eq_map_range,replicate_eq_map_range,hl,pointwiseHbCmp_map_range]
        simp only [hconst]
        cases hc : compare s s₂ with
        | lt => have := compare_lt_iff_lt.1 hc; split_ifs <;> first | rfl | omega
        | eq =>
          have := compare_eq_iff_eq.1 hc
          simp [this,HappenedBeforeOrdering.ofOrdering]
        | gt => have := compare_gt_iff_gt.1 hc; split_ifs <;> first | rfl | omega
  · have hl : v₁.iter.length ≠ v₂.iter.length := fun h => hn (numMembers_eq_iff.2 h)
    simp [hbCmp,hn,pointwiseHbCmp_of_length_ne hl]

theorem toOrdering_lt_or_eq (o : HappenedBeforeOrdering) :
    (o.toOrdering == some .lt || o.toOrdering == some .eq) = decide (o = .before ∨ o = .equal) := by
  cases o <;> rfl

theorem toOrdering_gt_or_eq (o : HappenedBeforeOrdering) :
    (o.toOrdering == some .gt || o.toOrdering == some .eq) = decide (o.reverse = .before ∨ o.reverse = .equal) := by
  cases o <;> rfl

theorem eq_eq_pointwise {v₁ v₂ : VersionVector} (h₁ : v₁.WellFormed) (h₂ : v₂.WellFormed) :
    v₁.eq v₂ = some (decide (v₁.iter = v₂.iter)) := by
  rw [eq,hbCmp_eq_pointwise h₁ h₂,Option.map_some]
  congr 1
  apply Bool.eq_iff_iff.2
  simp only [beq_iff_eq,decide_eq_true_eq,pointwiseHbCmp_eq_equal_iff]

theorem le_eq_pointwise {v₁ v₂ : VersionVector} (h₁ : v₁.WellFormed) (h₂ : v₂.WellFormed) :
    v₁.le v₂ = some (decide (Forall₂ (· ≤ ·) v₁.iter v₂.iter)) := by
  rw [le,partialCmp,hbCmp_eq_pointwise h₁ h₂,Option.map_some,Option.map_some,
    toOrdering_lt_or_eq]
  congr 1
  apply Bool.eq_iff_iff.2
  simp only [decide_eq_true_eq,pointwiseHbCmp_before_or_equal_iff]

theorem ge_eq_pointwise {v₁ v₂ : VersionVector} (h₁ : v₁.WellFormed) (h₂ : v₂.WellFormed) :
    v₁.ge v₂ = some (decide (Forall₂ (· ≤ ·) v₂.iter v₁.iter)) := by
  rw [ge,partialCmp,hbCmp_eq_pointwise h₁ h₂,Option.map_some,Option.map_some,
    toOrdering_gt_or_eq,← pointwiseHbCmp_swap]
  congr 1
  apply Bool.eq_iff_iff.2
  simp only [decide_eq_true_eq,pointwiseHbCmp_before_or_equal_iff]

end VersionVector

/-- `hb_cmp` is the pointwise comparison of the entry lists, for every pair of
representations; so `PartialEq` is equality of the entry lists and
`PartialOrd::le` is the pointwise product order. -/
theorem hb_cmp_is_pointwise_comparison {v₁ v₂ : VersionVector} (h₁ : v₁.WellFormed)
    (h₂ : v₂.WellFormed) :
    v₁.hbCmp v₂ = some (pointwiseHbCmp v₁.iter v₂.iter) ∧
      v₁.eq v₂ = some (decide (v₁.iter = v₂.iter)) ∧
      v₁.le v₂ = some (decide (Forall₂ (· ≤ ·) v₁.iter v₂.iter)) :=
  ⟨VersionVector.hbCmp_eq_pointwise h₁ h₂,VersionVector.eq_eq_pointwise h₁ h₂,
    VersionVector.le_eq_pointwise h₁ h₂⟩

theorem hb_cmp_is_pointwise_comparison_override_full :
    (VersionVector.override 3 (OverrideVersion.new 5 1 7 (by decide))).WellFormed ∧
      (VersionVector.full ⟨[5,7,5],by decide⟩).WellFormed ∧
      ((VersionVector.override 3 (OverrideVersion.new 5 1 7 (by decide))).hbCmp
          (.full ⟨[5,7,5],by decide⟩) =
        some (pointwiseHbCmp (VersionVector.override 3 (OverrideVersion.new 5 1 7 (by decide))).iter
          (VersionVector.full ⟨[5,7,5],by decide⟩).iter) ∧
      (VersionVector.override 3 (OverrideVersion.new 5 1 7 (by decide))).eq
          (.full ⟨[5,7,5],by decide⟩) =
        some (decide ((VersionVector.override 3 (OverrideVersion.new 5 1 7 (by decide))).iter =
          (VersionVector.full ⟨[5,7,5],by decide⟩).iter)) ∧
      (VersionVector.override 3 (OverrideVersion.new 5 1 7 (by decide))).le
          (.full ⟨[5,7,5],by decide⟩) =
        some (decide (Forall₂ (· ≤ ·)
          (VersionVector.override 3 (OverrideVersion.new 5 1 7 (by decide))).iter
          (VersionVector.full ⟨[5,7,5],by decide⟩).iter))) :=
  ⟨by decide,trivial,hb_cmp_is_pointwise_comparison (by decide) trivial⟩

end Flotsync.Versions
