import Flotsync.LinearData.Runs

/-!
`LinearLatestValueWins`: a register whose writes are version nodes of one
`VecLinearData`, placed by the sequence CRDT's insert rule; its value is the first
visible node. Its operations only insert, so once the register holds a value it
keeps one, and `content` never fails.
-/

set_option autoImplicit false

namespace Flotsync.AnyData

open LinearData

/-- An insert between two ids, the only operation of the register. -/
structure UpdateOperation (Id T : Type) where
  id : Id
  pred : Id
  succ : Id
  value : T
deriving DecidableEq, Repr

namespace UpdateOperation

variable {Id T : Type}

def toDataOperation (op : UpdateOperation Id T) : DataOperation Id T :=
  .insert op.id op.pred op.succ op.value

/-- `TryFrom<DataOperation>`: a delete is no update. -/
def ofDataOperation : DataOperation Id T → Option (UpdateOperation Id T)
  | .insert id pred succ value => some ⟨id, pred, succ, value⟩
  | .delete _ _ => none

theorem ofDataOperation_toDataOperation (op : UpdateOperation Id T) :
    ofDataOperation op.toDataOperation = some op := rfl

end UpdateOperation

structure LinearLatestValueWins (Id T : Type) where
  data : VecLinearData Id T

namespace LinearLatestValueWins

variable {Id T : Type}

def new (initialValue : T) (beginId valueId endId : Id) : LinearLatestValueWins Id T :=
  ⟨VecLinearData.withValue initialValue beginId valueId endId⟩

/-- The first visible value; the source panics on a register without one. -/
def content (r : LinearLatestValueWins Id T) : Option T := r.data.iterValues.head?

def allValues (r : LinearLatestValueWins Id T) : List T := r.data.iterValues

/-- An insert right after the beginning node; the source asserts that the insert
converts back into an update. -/
def updateOperation (r : LinearLatestValueWins Id T) (id : Id) (newValue : T) :
    Option (UpdateOperation Id T) := do
  let ids ← r.data.idsAfterHead
  UpdateOperation.ofDataOperation (ids.insertOperation id newValue)

section Snapshot

variable {σ Err : Type}

def encodeSnapshot (r : LinearLatestValueWins Id T) (sink : SnapshotSink σ Err Id T) (state : σ) :
    Option (Except Err σ) :=
  r.data.encodeSnapshot sink state id

/-- A register holds a value, so a stream without a visible one is refused. -/
def fromSnapshotNodes (entries : List (Except Err (SnapshotNode Id T))) :
    Except (SnapshotReadError Err) (LinearLatestValueWins Id T) := do
  let data ← VecLinearData.fromSnapshotNodes entries
  if data.isEmpty then throw .noVisibleValues
  return ⟨data⟩

theorem fromSnapshotNodes_eq_error {ns : List (SnapshotNode Id T)}
    (hbad : VecLinearData.MalformedSnapshot ns) :
    ∃ err, (fromSnapshotNodes (ns.map .ok) : Except (SnapshotReadError Err) _) = .error err := by
  obtain ⟨err, herr⟩ := VecLinearData.fromSnapshotNodes_eq_error (E := Err) hbad
  exact ⟨err, by rw [fromSnapshotNodes, herr]; rfl⟩

end Snapshot

/-- The register's data passes its integrity check and holds a visible value. -/
structure Inv (r : LinearLatestValueWins Id T) : Prop where
  data : r.data.Inv
  visible : 0 < r.data.len

/-- With a visible node, the values are not empty. -/
theorem Inv.content_isSome {r : LinearLatestValueWins Id T} (hr : Inv r) :
    ∃ v, r.content = some v := by
  have hpos := hr.visible
  rw [hr.data.len, List.countP_pos_iff] at hpos
  obtain ⟨n, hn, hins⟩ := hpos
  cases hop : n.operation with
  | insert v =>
    have hne : r.data.iterValues ≠ [] := by
      rw [Ne, VecLinearData.iterValues, List.filterMap_eq_nil_iff]
      intro hall
      have hnone := hall n hn
      simp [Node.getCurrentValue, hop] at hnone
    cases hv : r.data.iterValues with
    | nil => exact absurd hv hne
    | cons w ws => exact ⟨w, by simp [content, hv]⟩
  | delete v => simp [hop, Operation.isInsert] at hins
  | beginning => simp [hop, Operation.isInsert] at hins
  | «end» => simp [hop, Operation.isInsert] at hins

variable [LinearOrder Id]

/-- A rejected update comes back as the update; the source asserts it converts. -/
def applyOperation (r : LinearLatestValueWins Id T) (op : UpdateOperation Id T) :
    Option (Except (UpdateOperation Id T) (LinearLatestValueWins Id T)) :=
  match r.data.applyOperation op.toDataOperation with
  | none => none
  | some (.ok data) => some (.ok ⟨data⟩)
  | some (.error op') => (UpdateOperation.ofDataOperation op').map .error

/-- The source asserts that a local update applies. -/
def update (r : LinearLatestValueWins Id T) (id : Id) (newValue : T) :
    Option (LinearLatestValueWins Id T) := do
  let op ← r.updateOperation id newValue
  match ← r.applyOperation op with
  | .ok r' => some r'
  | .error _ => none

/-- One call of a mutator that returns normally. -/
inductive Step : LinearLatestValueWins Id T → LinearLatestValueWins Id T → Prop
  | update {r r' : LinearLatestValueWins Id T} {id : Id} {newValue : T} :
    r.update id newValue = some r' → Step r r'
  | applyOperation {r r' : LinearLatestValueWins Id T} {op : UpdateOperation Id T} :
    r.applyOperation op = some (.ok r') → Step r r'

inductive Reachable : LinearLatestValueWins Id T → Prop
  | new (initialValue : T) (beginId valueId endId : Id) :
    Reachable (LinearLatestValueWins.new initialValue beginId valueId endId)
  | step {r r' : LinearLatestValueWins Id T} : Reachable r → Step r r' → Reachable r'

theorem applyOperation_eq_ok {r r' : LinearLatestValueWins Id T} {op : UpdateOperation Id T}
    (h : r.applyOperation op = some (.ok r')) :
    r.data.applyOperation op.toDataOperation = some (.ok r'.data) := by
  unfold LinearLatestValueWins.applyOperation at h
  split at h
  · cases h
  · rename_i hdata
    cases h
    exact hdata
  · obtain ⟨_, -, h⟩ := Option.map_eq_some_iff.1 h
    cases h

/-- An update inserts a version node, so the register keeps a visible value. -/
theorem Inv.applyOperation {r r' : LinearLatestValueWins Id T} (hr : Inv r)
    {op : UpdateOperation Id T} (h : r.applyOperation op = some (.ok r')) : Inv r' := by
  have hdata := applyOperation_eq_ok h
  refine ⟨hr.data.applyOperation hdata, ?_⟩
  rcases VecLinearData.applyOperation_eq_ok hdata with ⟨_, _, _, _, p, -, -, -, -, hr'⟩ | ⟨_, _, hop, -⟩
  · rw [hr']
    exact Nat.succ_pos _
  · cases hop

/-- A local update is the application of the update it makes. -/
theorem applyOperation_of_update {r r' : LinearLatestValueWins Id T} {id : Id} {newValue : T}
    (h : r.update id newValue = some r') :
    ∃ op, r.updateOperation id newValue = some op ∧ r.applyOperation op = some (.ok r') := by
  obtain ⟨op, hop, h⟩ := Option.bind_eq_some_iff.1 h
  obtain ⟨result, happly, h⟩ := Option.bind_eq_some_iff.1 h
  cases result with
  | ok r₁ =>
    cases h
    exact ⟨op, hop, happly⟩
  | error => cases h

theorem Inv.update {r r' : LinearLatestValueWins Id T} (hr : Inv r) {id : Id} {newValue : T}
    (h : r.update id newValue = some r') : Inv r' := by
  obtain ⟨op, -, happly⟩ := applyOperation_of_update h
  exact hr.applyOperation happly

theorem Inv.step {r r' : LinearLatestValueWins Id T} (hr : Inv r) (h : Step r r') : Inv r' := by
  cases h with
  | update h => exact hr.update h
  | applyOperation h => exact hr.applyOperation h

theorem Reachable.inv {r : LinearLatestValueWins Id T} (h : Reachable r) : Inv r := by
  induction h with
  | new => exact ⟨VecLinearData.Reachable.inv (.withValue _ _ _ _), Nat.one_pos⟩
  | step _ hstep ih => exact ih.step hstep

/-- A run of the register is a run of its sequence: every step applies an insert. -/
theorem Reachable.data {r : LinearLatestValueWins Id T} (h : Reachable r) :
    VecLinearData.Reachable r.data := by
  induction h with
  | new initialValue beginId valueId endId => exact .withValue initialValue beginId valueId endId
  | step _ hstep ih =>
    cases hstep with
    | update h =>
      obtain ⟨op, -, happly⟩ := applyOperation_of_update h
      exact .step ih (.applyOperation (applyOperation_eq_ok happly))
    | applyOperation h => exact .step ih (.applyOperation (applyOperation_eq_ok h))

theorem fromSnapshotNodes_encodeSnapshot {Err : Type} {r : LinearLatestValueWins Id T}
    (h : Reachable r) :
    ∃ ns, r.encodeSnapshot SnapshotSink.collect [] = some (.ok ns) ∧
      (fromSnapshotNodes (ns.map .ok) : Except (SnapshotReadError Err) _) = .ok r := by
  have hr := h.inv
  obtain ⟨ns, henc, hdec⟩ :=
    VecLinearData.fromSnapshotNodes_encodeSnapshot (E := Err) h.data.framed hr.data.len
  -- the visible node of a reachable register passes the reader's emptiness check
  have hne : r.data.isEmpty = false := by
    simp [VecLinearData.isEmpty, hr.visible.ne']
  refine ⟨ns, henc, ?_⟩
  rw [fromSnapshotNodes, hdec, Checked.ok_bind, hne]
  rfl

end LinearLatestValueWins

/-- Every state a run of successful mutator calls reaches from a constructor passes
`validate_integrity`, for `VecCoalescedLinearData` when new nodes take fresh ids and
for `VecLinearData` always; and a register reached by updates always has content. -/
theorem reachable_states_pass_integrity_checks {Id E T : Type} [LinearOrder Id] :
    (∀ s : VecCoalescedLinearData Id E, VecCoalescedLinearData.Reachable s →
      s.validateIntegrity = .ok ()) ∧
    (∀ s : VecLinearData Id T, VecLinearData.Reachable s → s.validateIntegrity = .ok ()) ∧
    (∀ r : LinearLatestValueWins Id T, LinearLatestValueWins.Reachable r →
      ∃ v, r.content = some v) :=
  ⟨fun _ h => h.inv.validateIntegrity_eq_ok, fun _ h => h.inv.validateIntegrity_eq_ok,
    fun _ h => h.inv.content_isSome⟩

/-- The stream `encode_snapshot` gives of a reachable state reads back to that state,
its cached counts included: for the sequence, for the run-coalesced sequence that
`LinearList` and `LinearString` wrap, and for the register. Each reader refuses a
stream with fewer than two entries, a boundary entry with an outward link, a value or
a deletion mark, or an inner entry without both links and a value. -/
theorem snapshots_read_back_to_reachable_states {Id E T Err : Type} :
    (∀ [LinearOrder Id] (s : VecLinearData Id T), s.Reachable →
      ∃ ns, s.encodeSnapshot SnapshotSink.collect [] id = some (.ok ns) ∧
        (VecLinearData.fromSnapshotNodes (ns.map .ok) : Except (SnapshotReadError Err) _) =
          .ok s) ∧
    (∀ [LinearOrder Id] (s : VecCoalescedLinearData Id E), s.AnyIdReachable →
      ∃ ns, s.encodeSnapshot SnapshotSink.collect [] id = some (.ok ns) ∧
        (VecCoalescedLinearData.fromSnapshotNodes (ns.map .ok) :
          Except (SnapshotReadError Err) _) = .ok s) ∧
    (∀ [LinearOrder Id] (r : LinearLatestValueWins Id T), r.Reachable →
      ∃ ns, r.encodeSnapshot SnapshotSink.collect [] = some (.ok ns) ∧
        (LinearLatestValueWins.fromSnapshotNodes (ns.map .ok) :
          Except (SnapshotReadError Err) _) = .ok r) ∧
    (∀ ns : List (SnapshotNode Id T), VecLinearData.MalformedSnapshot ns →
      ∃ err, (VecLinearData.fromSnapshotNodes (ns.map .ok) :
        Except (SnapshotReadError Err) (VecLinearData Id T)) = .error err) ∧
    (∀ ns : List (SnapshotNode (IdWithIndex Id) (List E)), VecLinearData.MalformedSnapshot ns →
      ∃ err, (VecCoalescedLinearData.fromSnapshotNodes (ns.map .ok) :
        Except (SnapshotReadError Err) _) = .error err) ∧
    (∀ ns : List (SnapshotNode Id T), VecLinearData.MalformedSnapshot ns →
      ∃ err, (LinearLatestValueWins.fromSnapshotNodes (ns.map .ok) :
        Except (SnapshotReadError Err) _) = .error err) := by
  refine ⟨fun s h => ?_, fun _ h => h.fromSnapshotNodes_encodeSnapshot,
    fun _ h => LinearLatestValueWins.fromSnapshotNodes_encodeSnapshot h,
    fun _ hbad => VecLinearData.fromSnapshotNodes_eq_error hbad,
    fun _ hbad => VecCoalescedLinearData.fromSnapshotNodes_eq_error hbad,
    fun _ hbad => LinearLatestValueWins.fromSnapshotNodes_eq_error hbad⟩
  -- the sequence's own invariant supplies the visible count the reader recomputes
  exact VecLinearData.fromSnapshotNodes_encodeSnapshot h.framed h.inv.len

end Flotsync.AnyData
