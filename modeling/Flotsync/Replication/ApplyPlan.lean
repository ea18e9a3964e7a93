import Flotsync.Versions.Compare
import Flotsync.Versions.Update
import Flotsync.Replication.VersionCodec
import Flotsync.Lib.CausalChain
import Flotsync.Lib.SortedMap

/-!
`flotsync_replication::runtime::in_memory`: which persisted updates of a group
apply. `plan_apply_chain` drops the pending updates the group's version vector
already covers, picks one that is causally ready, applies it to a simulated copy
of the vector and looks again, until nothing is ready; what is left is blocked.

The pending set is a `BTreeMap` keyed by update id, a `SortedMap` here. A panic
(an `expect`, an overflowing `checked_add`, `hb_cmp` on a malformed vector) is
`none`.
-/

set_option autoImplicit false

namespace Flotsync.Replication

open Flotsync.Versions CausalChain List

/-- `UpdateId`: a producer's version and its index in the group. -/
@[ext] structure UpdateId where
  version : ℕ
  nodeIndex : ℕ
  deriving DecidableEq, Repr

namespace UpdateId

/-- The derived `Ord` compares versions first and then node indices. -/
def lexKey (id : UpdateId) : ℕ ×ₗ ℕ := toLex (id.version,id.nodeIndex)

theorem lexKey_injective : Function.Injective lexKey := by
  rintro ⟨v₁,n₁⟩ ⟨v₂,n₂⟩ h
  simpa [lexKey] using h

instance : LinearOrder UpdateId := LinearOrder.lift' lexKey lexKey_injective

end UpdateId

/-- `ReplicationUpdateRecord`, with the fields planning reads. -/
structure ReplicationUpdateRecord where
  updateId : UpdateId
  readVersions : VersionVector

/-- An update applies as an event of its producer at its version, after what it read. -/
instance : Event ReplicationUpdateRecord where
  node update := update.updateId.nodeIndex
  version update := update.updateId.version
  reads update := update.readVersions.iter

@[simp] theorem event_node (u : ReplicationUpdateRecord) : Event.node u = u.updateId.nodeIndex := rfl

@[simp] theorem event_version (u : ReplicationUpdateRecord) : Event.version u = u.updateId.version := rfl

@[simp] theorem event_reads (u : ReplicationUpdateRecord) : Event.reads u = u.readVersions.iter := rfl

/-- `LoadedGroupMeta`, with the durable version vector planning reads. -/
structure LoadedGroupMeta where
  versionVector : VersionVector

namespace LoadedGroupMeta

def appliedVersion (group : LoadedGroupMeta) (memberIndex : ℕ) : Option ℕ :=
  group.versionVector.versionAt memberIndex

def expectedNextVersion (group : LoadedGroupMeta) (memberIndex : ℕ) : Option ℕ :=
  (group.appliedVersion memberIndex).bind checkedIncrement

def hasApplied (group : LoadedGroupMeta) (updateId : UpdateId) : Option Bool :=
  (group.appliedVersion updateId.nodeIndex).map fun applied => decide (updateId.version ≤ applied)

/-- `can_apply`: the `&&` asks for the producer's next version only once the
vector covers the read versions. -/
def canApply (group : LoadedGroupMeta) (update : ReplicationUpdateRecord) : Option Bool :=
  (group.versionVector.ge update.readVersions).bind fun covered =>
    if covered then
      (group.expectedNextVersion update.updateId.nodeIndex).map (· == update.updateId.version)
    else some false

def markApplied (overflowChecks : Bool) (group : LoadedGroupMeta) (updateId : UpdateId) :
    Option LoadedGroupMeta :=
  (group.versionVector.incrementAt overflowChecks updateId.nodeIndex).map LoadedGroupMeta.mk

end LoadedGroupMeta

/-- `PendingUpdateSet`: the pending records by update id, in id order. -/
structure PendingUpdateSet where
  updates : List (UpdateId × ReplicationUpdateRecord)

/-- `PendingApplyPlan`. -/
structure PendingApplyPlan where
  alreadyApplied : List UpdateId
  readyChain : List ReplicationUpdateRecord
  blockedUpdates : List ReplicationUpdateRecord

namespace PendingUpdateSet

def fromUpdates (updates : List ReplicationUpdateRecord) : PendingUpdateSet :=
  ⟨SortedMap.ofList (updates.map fun update => (update.updateId,update))⟩

def removeAppliedAndFindReady (pending : PendingUpdateSet) (group : LoadedGroupMeta)
    (alreadyApplied : List UpdateId) : Option (PendingUpdateSet × List UpdateId × Option UpdateId) := do
  let staleIds ← Checked.filter group.hasApplied (pending.updates.map (·.1))
  let updates := staleIds.foldl (fun updates updateId => SortedMap.erase updateId updates) pending.updates
  let ready ← Checked.find (fun entry => group.canApply entry.2) updates
  pure (⟨updates⟩,alreadyApplied ++ staleIds,ready.map (·.1))

/-- The stale filter and the removals only shrink the set. -/
theorem length_removeAppliedAndFindReady_le {pending remaining : PendingUpdateSet} {group : LoadedGroupMeta}
    {alreadyApplied alreadyApplied' : List UpdateId} {ready : Option UpdateId}
    (h : pending.removeAppliedAndFindReady group alreadyApplied = some (remaining,alreadyApplied',ready)) :
    remaining.updates.length ≤ pending.updates.length := by
  simp only [removeAppliedAndFindReady,Option.bind_eq_bind,Option.bind_eq_some_iff,Option.pure_def,
    Option.some.injEq,Prod.mk.injEq] at h
  obtain ⟨staleIds,-,-,-,rfl,-⟩ := h
  rw [SortedMap.foldl_erase]
  exact length_filter_le _ _

/-- The `while let` loop of `plan_apply_chain`, from the simulated group and the
outputs so far. -/
def planLoop (overflowChecks : Bool) (pending : PendingUpdateSet) (simulatedGroup : LoadedGroupMeta)
    (alreadyApplied : List UpdateId) (readyChain : List ReplicationUpdateRecord) :
    Option PendingApplyPlan :=
  match _h : pending.removeAppliedAndFindReady simulatedGroup alreadyApplied with
  | none => none
  | some (remaining,applied,none) => some ⟨applied,readyChain,remaining.updates.map (·.2)⟩
  | some (remaining,applied,some readyUpdateId) =>
    match _h' : SortedMap.take readyUpdateId remaining.updates with
    | none => none
    | some (readyUpdate,updates) =>
      match simulatedGroup.markApplied overflowChecks readyUpdateId with
      | none => none
      | some simulatedGroup' =>
        planLoop overflowChecks ⟨updates⟩ simulatedGroup' applied (readyChain ++ [readyUpdate])
termination_by pending.updates.length
decreasing_by
  exact (SortedMap.length_take_lt _h').trans_le (length_removeAppliedAndFindReady_le _h)

def planApplyChain (overflowChecks : Bool) (pending : PendingUpdateSet) (group : LoadedGroupMeta) :
    Option PendingApplyPlan :=
  planLoop overflowChecks pending group [] []

variable {overflowChecks : Bool} {pending remaining : PendingUpdateSet} {group group' : LoadedGroupMeta}
  {alreadyApplied alreadyApplied' : List UpdateId} {readyChain : List ReplicationUpdateRecord}

theorem planLoop_of_none
    (h : pending.removeAppliedAndFindReady group alreadyApplied = some (remaining,alreadyApplied',none)) :
    planLoop overflowChecks pending group alreadyApplied readyChain =
      some ⟨alreadyApplied',readyChain,remaining.updates.map (·.2)⟩ := by
  rw [planLoop]
  split <;> simp_all

theorem planLoop_of_some {readyUpdateId : UpdateId} {readyUpdate : ReplicationUpdateRecord}
    {updates : List (UpdateId × ReplicationUpdateRecord)}
    (h : pending.removeAppliedAndFindReady group alreadyApplied =
      some (remaining,alreadyApplied',some readyUpdateId))
    (h' : SortedMap.take readyUpdateId remaining.updates = some (readyUpdate,updates))
    (h'' : group.markApplied overflowChecks readyUpdateId = some group') :
    planLoop overflowChecks pending group alreadyApplied readyChain =
      planLoop overflowChecks ⟨updates⟩ group' alreadyApplied' (readyChain ++ [readyUpdate]) := by
  rw [planLoop]
  split
  · simp_all
  · simp_all
  · rename_i heq
    simp only [h,Option.some.injEq,Prod.mk.injEq] at heq
    obtain ⟨rfl,rfl,rfl⟩ := heq
    split
    · simp_all
    · rename_i heq
      simp only [h',Option.some.injEq,Prod.mk.injEq] at heq
      obtain ⟨rfl,rfl⟩ := heq
      simp [h'']

end PendingUpdateSet

/-! ### What one call reads of the group -/

namespace LoadedGroupMeta

variable {group : LoadedGroupMeta} {u : ReplicationUpdateRecord}

theorem hasApplied_eq (h : u.updateId.nodeIndex < group.versionVector.iter.length) :
    group.hasApplied u.updateId = some (decide (Stale group.versionVector.iter u)) := by
  simp [hasApplied,appliedVersion,VersionVector.versionAt,Stale,getElem?_eq_getElem h]

/-- On a well-formed vector below the version limit `can_apply` decides readiness. -/
theorem canApply_eq (hg : group.versionVector.WellFormed)
    (hbound : ∀ x ∈ group.versionVector.iter, x < maxVersion) (hu : u.readVersions.WellFormed)
    (h : u.updateId.nodeIndex < group.versionVector.iter.length) :
    group.canApply u = some (decide (Ready group.versionVector.iter u)) := by
  have hmax := hbound _ (getElem_mem h)
  rw [canApply,VersionVector.ge_eq_pointwise hg hu,Option.bind_some]
  by_cases hread : Forall₂ (· ≤ ·) u.readVersions.iter group.versionVector.iter
  · simp [hread,Ready,expectedNextVersion,appliedVersion,VersionVector.versionAt,
      getElem?_eq_getElem h,checkedIncrement,hmax,Bool.beq_eq_decide_eq]
  · simp [hread,Ready]

theorem markApplied_eq (overflowChecks : Bool) (hg : group.versionVector.WellFormed)
    (hbound : ∀ x ∈ group.versionVector.iter, x < maxVersion) (hr : Ready group.versionVector.iter u) :
    ∃ group', group.markApplied overflowChecks u.updateId = some group' ∧
      group'.versionVector.iter = advance group.versionVector.iter u ∧ group'.versionVector.WellFormed := by
  obtain ⟨x,hx,hv⟩ := hr.getElem?
  simp only [event_node,event_version] at hx hv
  obtain ⟨w,hw,hiter,hwf⟩ := VersionVector.incrementAt_spec overflowChecks hg hx (hbound x (mem_of_getElem? hx))
  refine ⟨⟨w⟩,by simp [markApplied,hw],?_,hwf⟩
  rw [hiter,advance,event_node,event_version,hv]

end LoadedGroupMeta

/-! ### One pass of the loop -/

namespace PendingUpdateSet

/-- The entries the group's vector does not cover yet: what the stale filter keeps. -/
def fresh (pending : PendingUpdateSet) (group : LoadedGroupMeta) : List (UpdateId × ReplicationUpdateRecord) :=
  pending.updates.filter fun entry => !decide (Stale group.versionVector.iter entry.2)

/-- The ids of the entries the group's vector covers. -/
def coveredIds (pending : PendingUpdateSet) (group : LoadedGroupMeta) : List UpdateId :=
  (pending.updates.filter fun entry => decide (Stale group.versionVector.iter entry.2)).map (·.1)

/-- The first fresh entry that is ready at the group's vector. -/
def readyEntry (pending : PendingUpdateSet) (group : LoadedGroupMeta) :
    Option (UpdateId × ReplicationUpdateRecord) :=
  (pending.fresh group).find? fun entry => decide (Ready group.versionVector.iter entry.2)

variable {pending : PendingUpdateSet} {group : LoadedGroupMeta}

@[simp] theorem mem_fresh {a : UpdateId × ReplicationUpdateRecord} :
    a ∈ pending.fresh group ↔ a ∈ pending.updates ∧ ¬Stale group.versionVector.iter a.2 := by
  simp [fresh]

@[simp] theorem mem_coveredIds {id : UpdateId} :
    id ∈ pending.coveredIds group ↔
      ∃ a ∈ pending.updates, Stale group.versionVector.iter a.2 ∧ a.1 = id := by
  simp [coveredIds]

/-- The stale ids and the fresh entries split the pending set. -/
theorem keys_perm_coveredIds_fresh :
    (pending.updates.map (·.1)).Perm (pending.coveredIds group ++ (pending.fresh group).map (·.1)) := by
  rw [coveredIds,fresh,← map_append]
  exact ((filter_append_perm _ _).map _).symm

end PendingUpdateSet

/-! ### The loop's invariant -/

/-- What planning assumes of the group `G` and the pending updates `P`. -/
structure PlanAssumptions (G : LoadedGroupMeta) (P : List ReplicationUpdateRecord) : Prop where
  wellFormed : G.versionVector.WellFormed
  bounded : ∀ x ∈ G.versionVector.iter, x < maxVersion
  ids_nodup : (P.map (·.updateId)).Nodup
  node_lt : ∀ u ∈ P, u.updateId.nodeIndex < G.versionVector.numMembers
  reads_wellFormed : ∀ u ∈ P, u.readVersions.WellFormed
  version_lt : ∀ u ∈ P, u.updateId.version < maxVersion

/-- What `plan_apply_chain` promises for `P` at `G`: the outputs partition `P`, the
first is exactly what `G` covers, the chain applies causally from `G`, nothing
blocked is ready after it, and it holds every update that any causal sequence
over `P` from `G` applies. -/
structure PlanSpec (G : LoadedGroupMeta) (P : List ReplicationUpdateRecord) (plan : PendingApplyPlan) :
    Prop where
  partition : (plan.alreadyApplied ++ plan.readyChain.map (·.updateId) ++
    plan.blockedUpdates.map (·.updateId)).Perm (P.map (·.updateId))
  alreadyApplied_iff : ∀ id, id ∈ plan.alreadyApplied ↔
    ∃ u ∈ P, u.updateId = id ∧ Stale G.versionVector.iter u
  causal : Causal G.versionVector.iter plan.readyChain
  blocked : ∀ u ∈ plan.blockedUpdates, ¬Ready (clockAfter G.versionVector.iter plan.readyChain) u
  largest : ∀ ws : List ReplicationUpdateRecord, (∀ w ∈ ws, w ∈ P) → Causal G.versionVector.iter ws →
    ∀ w ∈ ws, w.updateId ∈ plan.readyChain.map (·.updateId)

/-- The state of `plan_apply_chain`'s loop over `P` from `G`: the pending set, the
simulated group, and the outputs so far. -/
structure PlanInvariant (G : LoadedGroupMeta) (P : List ReplicationUpdateRecord) (pending : PendingUpdateSet)
    (simulatedGroup : LoadedGroupMeta) (alreadyApplied : List UpdateId)
    (readyChain : List ReplicationUpdateRecord) : Prop where
  sorted : SortedMap.Sorted pending.updates
  keyed : ∀ e ∈ pending.updates, e.1 = e.2.updateId ∧ e.2 ∈ P
  partition : (alreadyApplied ++ readyChain.map (·.updateId) ++ pending.updates.map (·.1)).Perm
    (P.map (·.updateId))
  applied_stale : ∀ id ∈ alreadyApplied, ∃ u ∈ P, u.updateId = id ∧ Stale G.versionVector.iter u
  causal : Causal G.versionVector.iter readyChain
  chain_mem : ∀ u ∈ readyChain, u ∈ P
  clock : simulatedGroup.versionVector.iter = clockAfter G.versionVector.iter readyChain
  wellFormed : simulatedGroup.versionVector.WellFormed
  bounded : ∀ x ∈ simulatedGroup.versionVector.iter, x < maxVersion
  -- what is still pending was not covered at the start, or is not covered now
  fresh_stale : ∀ e ∈ pending.updates, Stale simulatedGroup.versionVector.iter e.2 →
    Stale G.versionVector.iter e.2

section Plan

variable {G W : LoadedGroupMeta} {P : List ReplicationUpdateRecord} {pending : PendingUpdateSet}
  {A : List UpdateId} {C : List ReplicationUpdateRecord}

open PendingUpdateSet

theorem PlanAssumptions.inj (hP : PlanAssumptions G P) {a b : ReplicationUpdateRecord} (ha : a ∈ P)
    (hb : b ∈ P) (h : a.updateId = b.updateId) : a = b :=
  inj_on_of_nodup_map hP.ids_nodup ha hb h

theorem PlanAssumptions.init (hP : PlanAssumptions G P) : PlanInvariant G P (fromUpdates P) G [] [] := by
  have hkeys : ((P.map fun u => (u.updateId,u)).map (·.1)).Nodup := by
    simpa [Function.comp_def] using hP.ids_nodup
  have hmem := fun e => SortedMap.mem_ofList (e := e) hkeys
  have hsorted := SortedMap.sorted_ofList (P.map fun u => (u.updateId,u))
  have hperm : (SortedMap.ofList (P.map fun u => (u.updateId,u))).Perm (P.map fun u => (u.updateId,u)) :=
    (perm_ext_iff_of_nodup (hsorted.keys_nodup.of_map _) (hkeys.of_map _)).2 hmem
  refine ⟨hsorted,fun e he => ?_,?_,by simp,trivial,by simp,rfl,hP.wellFormed,hP.bounded,
    fun _ _ h => h⟩
  · obtain ⟨u,hu,rfl⟩ := mem_map.1 ((hmem e).1 he)
    exact ⟨rfl,hu⟩
  · simpa [fromUpdates,Function.comp_def] using hperm.map (·.1)

section Pass

variable (hinv : PlanInvariant G P pending W A C)
include hinv

/-- Under the invariant one call of `remove_applied_and_find_ready` does not panic:
it drops the covered entries, records their ids, and names the first ready one. -/
theorem PlanInvariant.removeAppliedAndFindReady_eq (hP : PlanAssumptions G P) :
    pending.removeAppliedAndFindReady W A =
      some (⟨pending.fresh W⟩,A ++ pending.coveredIds W,(pending.readyEntry W).map (·.1)) := by
  have hlen : W.versionVector.iter.length = G.versionVector.numMembers := by
    rw [hinv.clock,length_clockAfter,VersionVector.iter_length]
  have hnode : ∀ e ∈ pending.updates, e.2.updateId.nodeIndex < W.versionVector.iter.length :=
    fun e he => hlen ▸ hP.node_lt _ (hinv.keyed e he).2
  have hfilter : Checked.filter W.hasApplied (pending.updates.map (·.1)) = some (pending.coveredIds W) := by
    rw [Checked.filter_map,Checked.filter_eq_some_filter (q := fun e => decide (Stale W.versionVector.iter e.2))]
    · rfl
    · intro e he
      rw [Function.comp_apply,(hinv.keyed e he).1]
      exact LoadedGroupMeta.hasApplied_eq (hnode e he)
  have hfresh : (pending.coveredIds W).foldl (fun updates updateId => SortedMap.erase updateId updates)
      pending.updates = pending.fresh W := by
    rw [SortedMap.foldl_erase,fresh]
    refine filter_congr fun e he => ?_
    -- an id is covered exactly when its own entry is stale: keys are unique
    have hcov : e.1 ∈ pending.coveredIds W ↔ Stale W.versionVector.iter e.2 := by
      rw [mem_coveredIds]
      constructor
      · rintro ⟨a,ha,hstale,hae⟩
        rwa [← inj_on_of_nodup_map hinv.sorted.keys_nodup ha he hae]
      · exact fun hstale => ⟨e,he,hstale,rfl⟩
    simp [hcov]
  have hfind : Checked.find (fun entry => W.canApply entry.2) (pending.fresh W) =
      some (pending.readyEntry W) := by
    refine Checked.find_eq_some_find? fun e he => ?_
    have he := (mem_fresh.1 he).1
    exact LoadedGroupMeta.canApply_eq hinv.wellFormed hinv.bounded
      (hP.reads_wellFormed _ (hinv.keyed e he).2) (hnode e he)
  simp only [removeAppliedAndFindReady,hfilter,Option.bind_eq_bind,Option.bind_some,hfresh,hfind]
  rfl

theorem PlanInvariant.partition_split :
    (A ++ pending.coveredIds W ++ C.map (·.updateId) ++ (pending.fresh W).map (·.1)).Perm
      (P.map (·.updateId)) :=
  calc (A ++ pending.coveredIds W ++ C.map (·.updateId) ++ (pending.fresh W).map (·.1)).Perm
        (A ++ C.map (·.updateId) ++ (pending.coveredIds W ++ (pending.fresh W).map (·.1))) := by
        simpa only [append_assoc] using (perm_append_comm_assoc _ _ _).append_left A
    _ ~ A ++ C.map (·.updateId) ++ pending.updates.map (·.1) :=
        keys_perm_coveredIds_fresh.symm.append_left _
    _ ~ P.map (·.updateId) := hinv.partition

theorem PlanInvariant.covered_stale :
    ∀ id ∈ A ++ pending.coveredIds W, ∃ u ∈ P, u.updateId = id ∧ Stale G.versionVector.iter u := by
  intro id hid
  rcases mem_append.1 hid with hid | hid
  · exact hinv.applied_stale id hid
  · obtain ⟨a,ha,hstale,rfl⟩ := mem_coveredIds.1 hid
    obtain ⟨hkey,haP⟩ := hinv.keyed a ha
    exact ⟨a.2,haP,hkey.symm,hinv.fresh_stale a ha hstale⟩

/-- Every pending update is covered, in the chain, or still fresh. -/
theorem PlanInvariant.mem_cases (hP : PlanAssumptions G P) {u : ReplicationUpdateRecord} (hu : u ∈ P) :
    u.updateId ∈ A ++ pending.coveredIds W ∨ u ∈ C ∨ ∃ a ∈ pending.fresh W, a.2 = u := by
  have h := hinv.partition_split.mem_iff.2 (mem_map_of_mem hu)
  rw [mem_append,mem_append] at h
  rcases h with (h | h) | h
  · exact .inl h
  · obtain ⟨c,hc,hcu⟩ := mem_map.1 h
    exact .inr (.inl (hP.inj (hinv.chain_mem c hc) hu hcu ▸ hc))
  · obtain ⟨a,ha,hau⟩ := mem_map.1 h
    obtain ⟨hkey,haP⟩ := hinv.keyed a (mem_fresh.1 ha).1
    exact .inr (.inr ⟨a,ha,hP.inj haP hu (hkey ▸ hau)⟩)

/-- A fresh update that is not ready at the final clock stays blocked. -/
theorem PlanInvariant.not_ready_of_none (hnone : pending.readyEntry W = none) :
    ∀ a ∈ pending.fresh W, ¬Ready (clockAfter G.versionVector.iter C) a.2 := by
  intro a ha hready
  rw [readyEntry,find?_eq_none] at hnone
  exact hnone a ha (by simpa [hinv.clock] using hready)

/-- Applying the ready entry keeps the invariant, with the entry moved from the
pending set to the chain. -/
theorem PlanInvariant.step (hP : PlanAssumptions G P) (overflowChecks : Bool)
    {e : UpdateId × ReplicationUpdateRecord} (he : pending.readyEntry W = some e) :
    ∃ W', W.markApplied overflowChecks e.1 = some W' ∧
      SortedMap.take e.1 (pending.fresh W) = some (e.2,SortedMap.erase e.1 (pending.fresh W)) ∧
      PlanInvariant G P ⟨SortedMap.erase e.1 (pending.fresh W)⟩ W' (A ++ pending.coveredIds W)
        (C ++ [e.2]) := by
  have hefresh : e ∈ pending.fresh W := mem_of_find?_eq_some he
  have hready : Ready W.versionVector.iter e.2 := by simpa using find?_some he
  obtain ⟨hemem,hestale⟩ := mem_fresh.1 hefresh
  obtain ⟨hkey,heP⟩ := hinv.keyed e hemem
  have hsorted : SortedMap.Sorted (pending.fresh W) := hinv.sorted.filter _
  obtain ⟨W',hW',hiter,hwf⟩ := W.markApplied_eq overflowChecks hinv.wellFormed hinv.bounded hready
  refine ⟨W',hkey ▸ hW',SortedMap.take_eq hsorted hefresh,hsorted.erase,fun a ha => ?_,?_,
    hinv.covered_stale,?_,?_,?_,hwf,?_,?_⟩
  · exact hinv.keyed a (mem_fresh.1 (SortedMap.mem_erase.1 ha).1).1
  · -- the chain gains the entry's id, the pending keys lose it
    have hperm := (SortedMap.perm_cons_erase hsorted hefresh).map (·.1)
    calc (A ++ pending.coveredIds W ++ (C ++ [e.2]).map (·.updateId) ++
          (SortedMap.erase e.1 (pending.fresh W)).map (·.1)).Perm
          (A ++ pending.coveredIds W ++ C.map (·.updateId) ++
            (e.1 :: (SortedMap.erase e.1 (pending.fresh W)).map (·.1))) := .of_eq (by simp [hkey])
      _ ~ A ++ pending.coveredIds W ++ C.map (·.updateId) ++ (pending.fresh W).map (·.1) :=
          hperm.symm.append_left _
      _ ~ P.map (·.updateId) := hinv.partition_split
  · exact causal_append.2 ⟨hinv.causal,hinv.clock ▸ hready⟩
  · intro u hu
    rcases mem_append.1 hu with hu | hu
    · exact hinv.chain_mem u hu
    · exact (mem_singleton.1 hu) ▸ heP
  · rw [hiter,hinv.clock,clockAfter_append]
  · intro x hx
    rw [hiter,advance] at hx
    rcases mem_or_eq_of_mem_set hx with hx | rfl
    · exact hinv.bounded x hx
    · exact hP.version_lt _ heP
  · -- nothing left pending shares the applied update's id, so none became stale
    intro a ha hstale
    obtain ⟨hafresh,hane⟩ := SortedMap.mem_erase.1 ha
    obtain ⟨hamem,hastale⟩ := mem_fresh.1 hafresh
    refine absurd (hiter ▸ hstale) (not_stale_advance hready hastale fun hn hv => hane ?_)
    rw [(hinv.keyed a hamem).1,hkey]
    exact UpdateId.ext hv hn

/-- When nothing is ready the plan meets its promise. -/
theorem PlanInvariant.finish (hP : PlanAssumptions G P) (hnone : pending.readyEntry W = none) :
    PlanSpec G P ⟨A ++ pending.coveredIds W,C,(pending.fresh W).map (·.2)⟩ where
  partition := by
    have hkeys : ((pending.fresh W).map (·.2)).map (·.updateId) = (pending.fresh W).map (·.1) := by
      rw [map_map]
      exact map_congr_left fun a ha => (hinv.keyed a (mem_fresh.1 ha).1).1.symm
    rw [hkeys]
    exact hinv.partition_split
  alreadyApplied_iff id := by
    refine ⟨hinv.covered_stale id,?_⟩
    rintro ⟨u,hu,rfl,hstale⟩
    rcases hinv.mem_cases hP hu with h | hc | ⟨a,ha,rfl⟩
    · exact h
    · exact absurd hstale (hinv.causal.not_stale hc)
    · -- a fresh entry is not covered now, and the clock only grew
      exact absurd (hstale.mono (hinv.clock ▸ hinv.causal.le_clockAfter)) (mem_fresh.1 ha).2
  causal := hinv.causal
  blocked u hu := by
    obtain ⟨a,ha,rfl⟩ := mem_map.1 hu
    exact hinv.not_ready_of_none hnone a ha
  largest ws hws hcausal w hw := by
    have hid : ∀ a ∈ P, ∀ b ∈ P, Event.node a = Event.node b → Event.version a = Event.version b → a = b :=
      fun a ha b hb hn hv => hP.inj ha hb (UpdateId.ext hv hn)
    have hmax : ∀ e ∈ P, e ∉ C → ¬Stale G.versionVector.iter e →
        ¬Ready (clockAfter G.versionVector.iter C) e := by
      intro e he hnotin hnew
      rcases hinv.mem_cases hP he with h | hc | ⟨a,ha,rfl⟩
      · obtain ⟨u,hu,hue,hstale⟩ := hinv.covered_stale _ h
        exact absurd (hP.inj hu he hue ▸ hstale) hnew
      · exact absurd hc hnotin
      · exact hinv.not_ready_of_none hnone a ha
    exact mem_map_of_mem (hinv.causal.subset_of_maximal hid hinv.chain_mem hmax hcausal hws w hw)

end Pass

/-- From any state of the invariant the loop ends without panicking, with a plan
that meets its promise: by induction on the number of pending entries, which
every applied entry lowers. -/
theorem planLoop_spec (hP : PlanAssumptions G P) (overflowChecks : Bool) (pending : PendingUpdateSet)
    (W : LoadedGroupMeta) (A : List UpdateId) (C : List ReplicationUpdateRecord)
    (hinv : PlanInvariant G P pending W A C) :
    ∃ plan, planLoop overflowChecks pending W A C = some plan ∧ PlanSpec G P plan := by
  induction hm : pending.updates.length using Nat.strong_induction_on generalizing pending W A C with
  | _ n ih =>
    have hpass := hinv.removeAppliedAndFindReady_eq hP
    cases he : pending.readyEntry W with
    | none =>
      rw [he] at hpass
      exact ⟨_,planLoop_of_none hpass,hinv.finish hP he⟩
    | some e =>
      rw [he] at hpass
      obtain ⟨W',hW',htake,hinv'⟩ := hinv.step hP overflowChecks he
      have hlt : (SortedMap.erase e.1 (pending.fresh W)).length < n :=
        hm ▸ (SortedMap.length_erase_lt (mem_of_find?_eq_some he)).trans_le (length_filter_le _ _)
      obtain ⟨plan,hplan,hspec⟩ := ih _ hlt _ _ _ _ hinv' rfl
      exact ⟨plan,(planLoop_of_some hpass htake hW').trans hplan,hspec⟩

end Plan

theorem plan_apply_chain_is_largest_causal_chain (overflowChecks : Bool) (G : LoadedGroupMeta)
    (P : List ReplicationUpdateRecord) (hP : PlanAssumptions G P) :
    ∃ plan, (PendingUpdateSet.fromUpdates P).planApplyChain overflowChecks G = some plan ∧
      PlanSpec G P plan :=
  planLoop_spec hP overflowChecks _ G [] [] hP.init

theorem plan_apply_chain_two_members :
    let G : LoadedGroupMeta := ⟨.synced 2 0⟩
    let P : List ReplicationUpdateRecord :=
      [⟨⟨1,0⟩,.synced 2 0⟩,⟨⟨1,1⟩,.synced 2 0⟩,⟨⟨3,0⟩,.synced 2 0⟩]
    PlanAssumptions G P ∧
      ∃ plan, (PendingUpdateSet.fromUpdates P).planApplyChain false G = some plan ∧ PlanSpec G P plan :=
  have hP : PlanAssumptions ⟨.synced 2 0⟩
      [⟨⟨1,0⟩,.synced 2 0⟩,⟨⟨1,1⟩,.synced 2 0⟩,⟨⟨3,0⟩,.synced 2 0⟩] :=
    ⟨trivial,by decide,by decide,by decide,by decide,by decide⟩
  ⟨hP,plan_apply_chain_is_largest_causal_chain false _ _ hP⟩

end Flotsync.Replication
