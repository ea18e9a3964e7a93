import Flotsync.Versions.Compare

/-!
`least_upper_bound` and `greatest_lower_bound`. Every arm of
`pointwise_combine` (the compact fast paths through `compact_group_override`
and the generic expand-and-recompact path through `from_versions`) yields a
well-formed vector whose entries are the pointwise combination. Through
`hb_cmp` these are then the join and the meet of the pointwise order.
-/

set_option autoImplicit false

namespace Flotsync.Versions

open List Pointwise

/-! ## `try_from_versions` and `from_versions` -/

namespace OverrideVersion.Scan

/-- The entry the scan state stands for at `position`. -/
def entry (s : Scan) (position : ℕ) : ℕ :=
  match s.overrideCandidatePosition with
  | some p => if position = p then s.overrideCandidateVersion else s.groupCandidateVersion
  | none => s.groupCandidateVersion

/-- The scanned prefix is exactly the entries the state stands for. -/
def Inv (s : Scan) (pre : List ℕ) : Prop :=
  pre = (range pre.length).map s.entry ∧ ∀ p, s.overrideCandidatePosition = some p → p < pre.length

theorem inv_init (first : ℕ) : Inv ⟨first,none,0⟩ [first] := by
  simp [Inv,entry]

theorem step_inv {s s' : Scan} {pre : List ℕ} {k version : ℕ} (hk : pre.length = k)
    (hpos : 1 ≤ k) (h : s.step k version = some s') (hi : s.Inv pre) :
    s'.Inv (pre ++ [version]) := by
  obtain ⟨hpre,hp⟩ := hi
  rw [hk] at hpre hp
  have hlen : (pre ++ [version]).length = k+1 := by simp [hk]
  unfold step at h
  split at h
  · -- the version repeats the group candidate
    rename_i hv
    cases h
    refine ⟨?_,fun p hsp => by have := hp p hsp; omega⟩
    rw [hlen,range_succ,map_append,← hpre]
    simp only [map_cons,map_nil,append_cancel_left_eq,cons.injEq,and_true]
    unfold entry
    split
    · rename_i p hsp
      have := hp p hsp
      rw [if_neg (by omega),hv]
    · exact hv
  · split at h
    · cases h
    · rename_i hnone
      have hs : s.overrideCandidatePosition = none := by simpa using hnone
      split at h
      · -- a higher version: the new override candidate
        cases h
        refine ⟨?_,fun p hsp => by simp at hsp; omega⟩
        rw [hlen,range_succ,map_append]
        congr 1
        · rw [hpre]
          apply map_congr_left
          intro i hi
          simp only [mem_range] at hi
          simp [entry,hs]
          omega
        · simp [entry]
      · split at h
        · -- a lower second version: position zero becomes the override candidate
          rename_i hone
          cases h
          refine ⟨?_,fun p hsp => by simp at hsp; omega⟩
          subst hone
          rw [hlen,hpre]
          simp [entry,hs,range_succ]
        · cases h

theorem run_inv {s s' : Scan} {pre rest : List ℕ} {k : ℕ} (hk : pre.length = k) (hpos : 1 ≤ k)
    (h : s.run k rest = some s') (hi : s.Inv pre) : s'.Inv (pre ++ rest) := by
  induction rest generalizing s pre k with
  | nil =>
    cases h
    simpa using hi
  | cons version rest ih =>
    simp only [run] at h
    cases hs : s.step k version with
    | none => simp [hs] at h
    | some s₁ =>
      rw [hs,Option.bind_some] at h
      have hi₁ := step_inv hk hpos hs hi
      have := ih (by simp [hk]) (by omega) h hi₁
      simpa using this

end OverrideVersion.Scan

/-- A recognised override has exactly the scanned versions as its entries. -/
theorem OverrideVersion.tryFromVersions_spec {first : ℕ} {rest : List ℕ} {o : OverrideVersion}
    (h : tryFromVersions first rest = some o) :
    (range (rest.length+1)).map o.entry = first :: rest ∧ o.overridePosition < rest.length+1 := by
  unfold tryFromVersions at h
  cases hrun : Scan.run ⟨first,none,0⟩ 1 rest with
  | none => simp [hrun] at h
  | some s =>
    obtain ⟨hpre,hp⟩ := Scan.run_inv (by simp) le_rfl hrun (Scan.inv_init first)
    cases hpos : s.overrideCandidatePosition with
    | none => simp [hrun,hpos] at h
    | some p =>
      simp only [hrun,hpos,Option.bind_some,Option.bind_eq_bind,newOpt] at h
      split at h
      · cases h
        simp only [singleton_append,length_cons] at hpre hp
        refine ⟨?_,hp p hpos⟩
        rw [hpre]
        apply map_congr_left
        intro i _
        by_cases hi : i = p <;> simp [Scan.entry,hpos,entry,new,hi]
      · cases h

namespace VersionVector

/-- `from_versions` keeps the entries and builds a well-formed vector. -/
theorem fromVersions_spec {versions : List ℕ} (h : versions ≠ []) :
    ∃ v, fromVersions versions = some v ∧ v.iter = versions ∧ v.WellFormed := by
  obtain ⟨first,rest,rfl⟩ := exists_cons_of_ne_nil h
  simp only [fromVersions]
  split
  · -- every entry repeats the first one
    rename_i hall
    refine ⟨_,rfl,?_,trivial⟩
    simp only [all_eq_true,beq_iff_eq] at hall
    simp only [iter,PNat.mk_coe]
    exact (eq_replicate_iff.2 ⟨by simp,hall⟩).symm
  · rename_i hall
    split
    · rename_i o ho
      obtain ⟨hmap,hp⟩ := OverrideVersion.tryFromVersions_spec ho
      refine ⟨_,rfl,hmap,?_,hp⟩
      -- not every entry is equal, so there are at least two members
      cases rest with
      | nil => simp at hall
      | cons _ _ => simp
    · exact ⟨_,rfl,rfl,trivial⟩

/-- `compact_group_override` writes exactly the group version with one exception. -/
theorem compactGroupOverride_spec {n : ℕ+} {p g o : ℕ} (hn : 2 ≤ (n : ℕ)) (hp : p < n) :
    ∃ v, compactGroupOverride n p g o = some v ∧
      v.iter = (range n).map (fun i => if i = p then o else g) ∧ v.WellFormed := by
  unfold compactGroupOverride
  split
  · rename_i hgo
    subst hgo
    refine ⟨_,rfl,?_,trivial⟩
    simp [iter]
  · split
    · exact ⟨_,rfl,rfl,hn,hp⟩
    · have hlen : p < (replicate n g).length := by simpa using hp
      have hne : (replicate n g).set p o ≠ [] := by simp [n.ne_zero]
      rw [Checked.set_of_lt o hlen,Option.bind_some,PureVersionVector.from_eq_some hne]
      refine ⟨_,rfl,?_,trivial⟩
      simp [iter,Checked.replicate_set_eq_map_range]

theorem iter_ne_nil (v : VersionVector) : v.iter ≠ [] := by
  rw [← length_pos_iff,iter_length]
  exact v.numMembers.pos

theorem fromVersions_combine_spec (a b : VersionVector) (combine : ℕ → ℕ → ℕ) :
    ∃ v, fromVersions (pointwiseCombineToVec a b combine) = some v ∧
      v.iter = zipWith combine a.iter b.iter ∧ v.WellFormed := by
  apply fromVersions_spec
  rw [← length_pos_iff,pointwiseCombineToVec,length_zipWith,iter_length,iter_length]
  exact lt_min a.numMembers.pos b.numMembers.pos

/-- Every arm of `pointwise_combine` yields the pointwise combination and a
well-formed vector, for a commutative `combine`. -/
theorem pointwiseCombine_spec {a b : VersionVector} {combine : ℕ → ℕ → ℕ}
    (hc : ∀ x y, combine x y = combine y x) (ha : a.WellFormed) (hb : b.WellFormed)
    (hn : a.numMembers = b.numMembers) :
    ∃ v, a.pointwiseCombine b combine = some v ∧
      v.iter = zipWith combine a.iter b.iter ∧ v.WellFormed := by
  cases a with
  | full f => cases b <;> exact fromVersions_combine_spec _ _ combine
  | override n o =>
    obtain ⟨hn₁,hp₁⟩ := ha
    cases b with
    | full f => exact fromVersions_combine_spec _ _ combine
    | override n₂ o₂ =>
      simp only [pointwiseCombine]
      split
      · rename_i hpos
        obtain ⟨v,hv,hiter,hwf⟩ := @compactGroupOverride_spec n o.overridePosition
          (combine o.groupVersion o₂.groupVersion) (combine o.overrideVersion o₂.overrideVersion)
          hn₁ hp₁
        refine ⟨v,hv,?_,hwf⟩
        simp only [numMembers] at hn
        rw [hiter,iter,iter,← hn,zipWith_map_range]
        apply map_congr_left
        intro i _
        by_cases hi : i = o.overridePosition <;> simp [OverrideVersion.entry,hi,← hpos]
      · exact fromVersions_combine_spec _ _ combine
    | synced n₂ s =>
      simp only [pointwiseCombine]
      obtain ⟨v,hv,hiter,hwf⟩ := @compactGroupOverride_spec n o.overridePosition
        (combine s o.groupVersion) (combine s o.overrideVersion) hn₁ hp₁
      refine ⟨v,hv,?_,hwf⟩
      simp only [numMembers] at hn
      rw [hiter,iter,iter,← hn,replicate_eq_map_range,zipWith_map_range]
      apply map_congr_left
      intro i _
      by_cases hi : i = o.overridePosition <;> simp [OverrideVersion.entry,hi,hc s]
  | synced n s =>
    cases b with
    | full f => exact fromVersions_combine_spec _ _ combine
    | override n₂ o =>
      obtain ⟨hn₂,hp₂⟩ := hb
      simp only [numMembers] at hn
      subst hn
      simp only [pointwiseCombine]
      obtain ⟨v,hv,hiter,hwf⟩ := @compactGroupOverride_spec n o.overridePosition
        (combine s o.groupVersion) (combine s o.overrideVersion) hn₂ hp₂
      refine ⟨v,hv,?_,hwf⟩
      rw [hiter,iter,iter,replicate_eq_map_range,zipWith_map_range]
      apply map_congr_left
      intro i _
      by_cases hi : i = o.overridePosition <;> simp [OverrideVersion.entry,hi]
    | synced n₂ s₂ =>
      refine ⟨_,rfl,?_,trivial⟩
      simp only [numMembers] at hn
      simp [iter,hn]

theorem leastUpperBound_spec {a b : VersionVector} (ha : a.WellFormed) (hb : b.WellFormed)
    (hn : a.numMembers = b.numMembers) :
    ∃ l, a.leastUpperBound b = some l ∧ l.iter = zipWith max a.iter b.iter ∧ l.WellFormed := by
  have h := pointwiseCombine_spec max_comm ha hb hn
  simpa [leastUpperBound,assertSameMemberCount,hn] using h

theorem greatestLowerBound_spec {a b : VersionVector} (ha : a.WellFormed) (hb : b.WellFormed)
    (hn : a.numMembers = b.numMembers) :
    ∃ g, a.greatestLowerBound b = some g ∧ g.iter = zipWith min a.iter b.iter ∧ g.WellFormed := by
  have h := pointwiseCombine_spec min_comm ha hb hn
  simpa [greatestLowerBound,assertSameMemberCount,hn] using h

theorem le_iff_forall₂ {x y : VersionVector} (hx : x.WellFormed) (hy : y.WellFormed) :
    x.le y = some true ↔ Forall₂ (· ≤ ·) x.iter y.iter := by
  rw [le_eq_pointwise hx hy]
  simp

theorem eq_of_iter_eq {x y : VersionVector} (hx : x.WellFormed) (hy : y.WellFormed)
    (h : x.iter = y.iter) : x.eq y = some true := by
  rw [eq_eq_pointwise hx hy]
  simp [h]

theorem numMembers_eq_of_le {x y : VersionVector} (hx : x.WellFormed) (hy : y.WellFormed)
    (h : x.le y = some true) : x.iter.length = y.iter.length :=
  ((le_iff_forall₂ hx hy).1 h).length_eq

end VersionVector

open VersionVector in
/-- `least_upper_bound` and `greatest_lower_bound` are the pointwise maximum and
minimum of the entries and keep the representation invariant; so they are the
join and the meet of the happened-before order, and commutative, idempotent
and associative up to `VersionVector` equality. -/
theorem least_upper_bound_and_greatest_lower_bound_are_pointwise {a b : VersionVector}
    (ha : a.WellFormed) (hb : b.WellFormed) (hn : a.numMembers = b.numMembers) :
    ∃ l g, a.leastUpperBound b = some l ∧ a.greatestLowerBound b = some g ∧
      l.iter = zipWith max a.iter b.iter ∧ g.iter = zipWith min a.iter b.iter ∧
      l.WellFormed ∧ g.WellFormed ∧
      a.le l = some true ∧ b.le l = some true ∧
      (∀ c : VersionVector, c.WellFormed → a.le c = some true → b.le c = some true → l.le c = some true) ∧
      g.le a = some true ∧ g.le b = some true ∧
      (∀ c : VersionVector, c.WellFormed → c.le a = some true → c.le b = some true → c.le g = some true) ∧
      (∃ l', b.leastUpperBound a = some l' ∧ l.eq l' = some true) ∧
      (∃ g', b.greatestLowerBound a = some g' ∧ g.eq g' = some true) ∧
      (∃ l', a.leastUpperBound a = some l' ∧ l'.eq a = some true) ∧
      (∃ g', a.greatestLowerBound a = some g' ∧ g'.eq a = some true) ∧
      (∀ c : VersionVector, c.WellFormed → c.numMembers = b.numMembers →
        ∃ bc lc abc, b.leastUpperBound c = some bc ∧ l.leastUpperBound c = some lc ∧
          a.leastUpperBound bc = some abc ∧ lc.eq abc = some true) ∧
      (∀ c : VersionVector, c.WellFormed → c.numMembers = b.numMembers →
        ∃ bc gc abc, b.greatestLowerBound c = some bc ∧ g.greatestLowerBound c = some gc ∧
          a.greatestLowerBound bc = some abc ∧ gc.eq abc = some true) := by
  have hlen : a.iter.length = b.iter.length := numMembers_eq_iff.1 hn
  obtain ⟨l,hl,hli,hlw⟩ := leastUpperBound_spec ha hb hn
  obtain ⟨g,hg,hgi,hgw⟩ := greatestLowerBound_spec ha hb hn
  have hln : l.numMembers = b.numMembers := numMembers_eq_iff.2 (by simp [hli,hlen])
  have hgn : g.numMembers = b.numMembers := numMembers_eq_iff.2 (by simp [hgi,hlen])
  refine ⟨l,g,hl,hg,hli,hgi,hlw,hgw,?_,?_,?_,?_,?_,?_,?_,?_,?_,?_,?_,?_⟩
  · -- the join is above both sides
    rw [le_iff_forall₂ ha hlw,hli]
    exact le_zipWith_max_left hlen
  · rw [le_iff_forall₂ hb hlw,hli]
    exact le_zipWith_max_right hlen
  · intro c hc hac hbc
    rw [le_iff_forall₂ hlw hc,hli]
    exact zipWith_max_le ((le_iff_forall₂ ha hc).1 hac) ((le_iff_forall₂ hb hc).1 hbc)
  · -- the meet is below both sides
    rw [le_iff_forall₂ hgw ha,hgi]
    exact zipWith_min_le_left hlen
  · rw [le_iff_forall₂ hgw hb,hgi]
    exact zipWith_min_le_right hlen
  · intro c hc hca hcb
    rw [le_iff_forall₂ hc hgw,hgi]
    exact le_zipWith_min ((le_iff_forall₂ hc ha).1 hca) ((le_iff_forall₂ hc hb).1 hcb)
  · -- commutativity
    obtain ⟨l',hl',hli',hlw'⟩ := leastUpperBound_spec hb ha hn.symm
    refine ⟨l',hl',eq_of_iter_eq hlw hlw' ?_⟩
    rw [hli,hli',zipWith_comm_of_comm max_comm]
  · obtain ⟨g',hg',hgi',hgw'⟩ := greatestLowerBound_spec hb ha hn.symm
    refine ⟨g',hg',eq_of_iter_eq hgw hgw' ?_⟩
    rw [hgi,hgi',zipWith_comm_of_comm min_comm]
  · -- idempotence
    obtain ⟨l',hl',hli',hlw'⟩ := leastUpperBound_spec ha ha rfl
    refine ⟨l',hl',eq_of_iter_eq hlw' ha ?_⟩
    rw [hli',zipWith_idem max_self]
  · obtain ⟨g',hg',hgi',hgw'⟩ := greatestLowerBound_spec ha ha rfl
    refine ⟨g',hg',eq_of_iter_eq hgw' ha ?_⟩
    rw [hgi',zipWith_idem min_self]
  · -- associativity
    intro c hc hcn
    obtain ⟨bc,hbc,hbci,hbcw⟩ := leastUpperBound_spec hb hc hcn.symm
    obtain ⟨lc,hlc,hlci,hlcw⟩ := leastUpperBound_spec hlw hc (hln.trans hcn.symm)
    have hbcn : a.numMembers = bc.numMembers :=
      numMembers_eq_iff.2 (by simp [hbci,hlen,numMembers_eq_iff.1 hcn])
    obtain ⟨abc,habc,habci,habcw⟩ := leastUpperBound_spec ha hbcw hbcn
    refine ⟨bc,lc,abc,hbc,hlc,habc,eq_of_iter_eq hlcw habcw ?_⟩
    rw [hlci,hli,habci,hbci,zipWith_assoc max_assoc]
  · intro c hc hcn
    obtain ⟨bc,hbc,hbci,hbcw⟩ := greatestLowerBound_spec hb hc hcn.symm
    obtain ⟨gc,hgc,hgci,hgcw⟩ := greatestLowerBound_spec hgw hc (hgn.trans hcn.symm)
    have hbcn : a.numMembers = bc.numMembers :=
      numMembers_eq_iff.2 (by simp [hbci,hlen,numMembers_eq_iff.1 hcn])
    obtain ⟨abc,habc,habci,habcw⟩ := greatestLowerBound_spec ha hbcw hbcn
    refine ⟨bc,gc,abc,hbc,hgc,habc,eq_of_iter_eq hgcw habcw ?_⟩
    rw [hgci,hgi,habci,hbci,zipWith_assoc min_assoc]

theorem least_upper_bound_and_greatest_lower_bound_override_synced :
    (VersionVector.override 3 (OverrideVersion.new 5 1 7 (by decide))).WellFormed ∧
      (VersionVector.synced 3 6).WellFormed ∧
      (VersionVector.override 3 (OverrideVersion.new 5 1 7 (by decide))).numMembers =
        (VersionVector.synced 3 6).numMembers ∧
      ∃ l g, (VersionVector.override 3 (OverrideVersion.new 5 1 7 (by decide))).leastUpperBound
          (.synced 3 6) = some l ∧
        (VersionVector.override 3 (OverrideVersion.new 5 1 7 (by decide))).greatestLowerBound
          (.synced 3 6) = some g ∧
        l.iter = [6,7,6] ∧ g.iter = [5,6,5] := by
  have h := @least_upper_bound_and_greatest_lower_bound_are_pointwise
    (.override 3 (OverrideVersion.new 5 1 7 (by decide))) (.synced 3 6) (by decide) trivial rfl
  obtain ⟨l,g,hl,hg,hli,hgi,-⟩ := h
  exact ⟨by decide,trivial,rfl,l,g,hl,hg,hli,hgi⟩

end Flotsync.Versions
