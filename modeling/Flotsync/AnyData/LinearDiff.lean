import Flotsync.AnyData.LinearList
import Flotsync.LinearData.Edits
import Flotsync.Lib.EditScript

/-!
`linear_diff`: the operations that turn a `LinearList` into one showing a changed list of
values. The hunks of a slice diff of the visible values (the `similar` crate's Myers diff,
a parameter here) become range deletes of the base's ids and inserts linked to the base's
ids, all inserts on one operation id with consecutive indices from an
`IdGeneratorWithIndex`.
-/

set_option autoImplicit false

namespace Flotsync

namespace LinearData

/-- `IdGeneratorWithIndex`: the ids of one base id by increasing index, moving to the next
base id of `underlying` once the `u32` indices are used up. -/
structure IdGeneratorWithIndex (Id : Type) where
  underlying : List Id
  currentId : Option Id
  exhausted : Bool
  nextIndex : ℕ
deriving DecidableEq, Repr

namespace IdGeneratorWithIndex

variable {Id : Type}

def new (iter : List Id) : IdGeneratorWithIndex Id := ⟨iter, none, false, 0⟩

def loadNextMajorId (g : IdGeneratorWithIndex Id) : Option Unit × IdGeneratorWithIndex Id :=
  match g.underlying with
  | [] => (none, { g with currentId := none, exhausted := true })
  | id :: rest => (some (), { g with underlying := rest, currentId := some id })

def advanceToNextMajorId (g : IdGeneratorWithIndex Id) : Option Unit × IdGeneratorWithIndex Id :=
  loadNextMajorId { g with nextIndex := 0 }

def advanceToAvailableIndex (g : IdGeneratorWithIndex Id) : Option Unit × IdGeneratorWithIndex Id :=
  if g.exhausted then (none, g)
  else match g.currentId with
    | none => g.loadNextMajorId
    | some _ => if maxIndex < g.nextIndex then g.advanceToNextMajorId else (some (), g)

/-- `Iterator::next`; `none` outside where the conversion of the index to a `u32` panics. -/
def next (g : IdGeneratorWithIndex Id) : Option (Option (IdWithIndex Id) × IdGeneratorWithIndex Id) :=
  match g.advanceToAvailableIndex with
  | (none, g) => some (none, g)
  | (some (), g) =>
    if maxIndex < g.nextIndex then none
    else some (g.currentId.map fun id => ⟨id, g.nextIndex⟩, { g with nextIndex := g.nextIndex + 1 })

/-- `Iterator::nth`: skip `n` ids within the current base id if it has that many left, and
go to the next base id otherwise. -/
def nth (g : IdGeneratorWithIndex Id) (n : ℕ) :
    Option (Option (IdWithIndex Id) × IdGeneratorWithIndex Id) :=
  if 0 < n then
    match g.advanceToAvailableIndex with
    | (none, g) => some (none, g)
    | (some (), g) =>
      let remainingIndicesForId := maxIndex + 1 - g.nextIndex
      if n < remainingIndicesForId then next { g with nextIndex := g.nextIndex + n }
      else match g.advanceToNextMajorId with
        | (none, g) => some (none, g)
        | (some (), g) => next g
  else next g

/-- The generator over the one base id `opid` gives `⟨opid, m⟩` to the next reservation: it
is new, or it gave an id to an insert whose other `k` ids are still to be skipped. -/
def Reserves (opid : Id) (g : IdGeneratorWithIndex Id) (pending : Option ℕ) (m : ℕ) : Prop :=
  (g = new [opid] ∧ pending = none ∧ m = 0) ∨
    ∃ k, g = ⟨[], some opid, false, m - k⟩ ∧ pending = some k ∧ k < m

theorem reserves_new (opid : Id) : Reserves opid (new [opid]) none 0 := .inl ⟨rfl, rfl, rfl⟩

/-- After an insert of `count` values from index `m`, the generator stands at `m + 1` with the
other `count - 1` ids of the insert still to skip. -/
theorem reserves_after_insert {opid : Id} {m count : ℕ} (hcount : 0 < count) :
    Reserves opid ⟨[], some opid, false, m + 1⟩ (some (count - 1)) (m + count) :=
  .inr ⟨count - 1, by congr 1; omega, rfl, by omega⟩

section Single

variable {opid : Id} {i : ℕ} {id : IdWithIndex Id} {g' : IdGeneratorWithIndex Id}

/-- With `opid` the last base id, an id the generator gives is its next index of `opid`. -/
theorem next_eq_some
    (h : next (⟨[], some opid, false, i⟩ : IdGeneratorWithIndex Id) = some (some id, g')) :
    id = ⟨opid, i⟩ ∧ g' = ⟨[], some opid, false, i + 1⟩ := by
  by_cases hi : maxIndex < i
  · -- past the last index it loads the next base id, and there is none
    simp [next, advanceToAvailableIndex, advanceToNextMajorId, loadNextMajorId, hi] at h
  · simp [next, advanceToAvailableIndex, hi] at h
    exact ⟨h.1.symm, h.2.symm⟩

/-- Skipping `k` ids with `opid` the last base id: an id it gives is `k` indices on. -/
theorem nth_eq_some {k : ℕ}
    (h : nth (⟨[], some opid, false, i⟩ : IdGeneratorWithIndex Id) k = some (some id, g')) :
    id = ⟨opid, i + k⟩ ∧ g' = ⟨[], some opid, false, i + k + 1⟩ := by
  rcases Nat.eq_zero_or_pos k with rfl | hk
  · exact next_eq_some (by simpa [nth] using h)
  by_cases hi : maxIndex < i
  · simp [nth, hk, advanceToAvailableIndex, advanceToNextMajorId, loadNextMajorId, hi] at h
  by_cases hrem : k < maxIndex + 1 - i
  · -- the skip stays within the indices of `opid`
    simp [nth, hk, advanceToAvailableIndex, hi, hrem] at h
    exact next_eq_some h
  · simp [nth, hk, advanceToAvailableIndex, advanceToNextMajorId, loadNextMajorId, hi, hrem] at h

end Single

end IdGeneratorWithIndex

end LinearData

namespace AnyData

open LinearData EditScript

/-- `DiffError`: the insert ids of the one operation id ran out, or a query of the base
failed (an internal error, with its context). -/
inductive DiffError where
  | indexExhausted
  | internal (context : String)
deriving DecidableEq, Repr

/-- A set of list changes that can be applied to a `LinearList`. -/
structure LinearListDiff (Id T : Type) where
  operations : List (DataOperation (IdWithIndex Id) (List T))
deriving DecidableEq, Repr

variable {Id T : Type}

/-- `changed[start..end]`; `none` where the slice panics. -/
def slice (changed : List T) (start «end» : ℕ) : Option (List T) :=
  if start ≤ «end» ∧ «end» ≤ changed.length then some ((changed.take «end»).drop start) else none

/-- The id of the next insert: the generator's next id, or, after an insert of `k + 1`
values, the id `k` further on, so that that insert's values keep their own ids. -/
def reserveInsertId (idGenerator : IdGeneratorWithIndex Id) (pendingReservedIndices : Option ℕ)
    (valueCount : ℕ) :
    Option (Except DiffError (IdWithIndex Id × IdGeneratorWithIndex Id × Option ℕ)) := do
  let (insertId, idGenerator) ← match pendingReservedIndices with
    | some skip => idGenerator.nth skip
    | none => idGenerator.next
  match insertId with
  | none => return .error .indexExhausted
  | some insertId =>
    if !insertId.canAddress valueCount then return .error .indexExhausted
    return .ok (insertId, idGenerator, some (valueCount - 1))

section Reserve

open IdGeneratorWithIndex

variable {opid : Id} {g : IdGeneratorWithIndex Id} {pending : Option ℕ} {m : ℕ}

/-- A reservation that succeeds, in range or not, took the next `count` indices of `opid`. -/
theorem reserveInsertId_eq_ok (h : Reserves opid g pending m) {count : ℕ} (hcount : 0 < count)
    {id : IdWithIndex Id} {g' : IdGeneratorWithIndex Id} {pending' : Option ℕ}
    (hok : reserveInsertId g pending count = some (.ok (id, g', pending'))) :
    id = ⟨opid, m⟩ ∧ Reserves opid g' pending' (m + count) := by
  rcases h with ⟨rfl, rfl, rfl⟩ | ⟨k, rfl, rfl, hk⟩
  · simp [reserveInsertId, next, advanceToAvailableIndex, loadNextMajorId, new] at hok
    -- the reservation succeeds only where the id can address all `count` values
    split at hok
    · simp at hok
    simp at hok
    obtain ⟨rfl, rfl, rfl⟩ := hok
    exact ⟨rfl, reserves_after_insert hcount⟩
  · -- a later insert skips the ids the last one holds; whatever id comes out is the next
    cases hn : nth (⟨[], some opid, false, m - k⟩ : IdGeneratorWithIndex Id) k with
    | none => simp [reserveInsertId, hn] at hok
    | some r =>
      obtain ⟨id₀ | id₀, g₀⟩ := r
      · simp [reserveInsertId, hn] at hok
      obtain ⟨rfl, rfl⟩ := nth_eq_some hn
      have hm : m - k + k = m := Nat.sub_add_cancel hk.le
      simp [reserveInsertId, hn, hm] at hok
      split at hok
      · simp at hok
      simp at hok
      obtain ⟨rfl, rfl, rfl⟩ := hok
      exact ⟨rfl, reserves_after_insert hcount⟩

end Reserve

/-! ### The ids of the inserts

Every value a diff inserts gets an id of its own: the inserts take runs of indices of the
operation id one after the other from index 0. The generator's `Reserves` state carries this
through the loop. -/

section Runs

open IdGeneratorWithIndex

/-- The id and number of values of each insert among `operations`, in order. -/
def insertRuns : List (DataOperation (IdWithIndex Id) (List T)) → List (IdWithIndex Id × ℕ)
  | [] => []
  | .insert id _ _ values :: rest => (id, values.length) :: insertRuns rest
  | .delete .. :: rest => insertRuns rest

/-- Non-empty runs of indices of `opid`, one right after the other from index `m`. -/
def Consecutive (opid : Id) : ℕ → List (IdWithIndex Id × ℕ) → Prop
  | _, [] => True
  | m, (id, count) :: rest => id = ⟨opid, m⟩ ∧ 0 < count ∧ Consecutive opid (m + count) rest

@[simp]
theorem insertRuns_append (xs ys : List (DataOperation (IdWithIndex Id) (List T))) :
    insertRuns (xs ++ ys) = insertRuns xs ++ insertRuns ys := by
  induction xs with
  | nil => rfl
  | cons op xs ih => cases op <;> simp [insertRuns, ih]

@[simp]
theorem insertRuns_deleteOperations (r : NodeIdRange Id) :
    insertRuns (r.deleteOperations : List (DataOperation (IdWithIndex Id) (List T))) = [] := by
  simp only [NodeIdRange.deleteOperations]
  induction r.contained with
  | nil => rfl
  | cons x xs ih => simpa [insertRuns] using ih

/-- A run appended right after the last one keeps the runs consecutive. -/
theorem Consecutive.append_run {opid : Id} {m : ℕ} {xs : List (IdWithIndex Id × ℕ)}
    (hxs : Consecutive opid m xs) {count : ℕ} (hcount : 0 < count) :
    Consecutive opid m (xs ++ [(⟨opid, m + (xs.map Prod.snd).sum⟩, count)]) := by
  induction xs generalizing m with
  | nil => simp [Consecutive, hcount]
  | cons x xs ih =>
    obtain ⟨id, c⟩ := x
    obtain ⟨hid, hc, hrest⟩ := hxs
    refine ⟨hid, hc, ?_⟩
    simpa [Nat.add_assoc] using ih hrest

/-- The loop's state: the inserts so far hold consecutive runs of `opid` from index 0, and
the generator gives the index after the last of them. -/
def ReservedRuns (opid : Id) (g : IdGeneratorWithIndex Id) (pending : Option ℕ)
    (operations : List (DataOperation (IdWithIndex Id) (List T))) : Prop :=
  Consecutive opid 0 (insertRuns operations) ∧
    Reserves opid g pending ((insertRuns operations).map Prod.snd).sum

theorem reservedRuns_new (opid : Id) :
    ReservedRuns opid (new [opid]) none ([] : List (DataOperation (IdWithIndex Id) (List T))) :=
  ⟨trivial, reserves_new opid⟩

end Runs

variable [LinearOrder Id]

/-- The ids an insert at a position of the base goes between. -/
def resolveInsertLinkIds (base : LinearList Id T) (position : ℕ) :
    Option (Except DiffError (LinkIds (IdWithIndex Id))) := do
  if base.isEmpty then
    if position ≠ 0 then
      return .error (.internal ("When base list is empty inserts must be at position 0, but was " ++
        toString position ++ "."))
    return .ok (← base.data.idsAfterHead)
  match ← base.data.idsAtPos position with
  | some nodeIds => return .ok nodeIds.before
  | none =>
    if position = base.len then return .ok (← base.data.idsBeforeEnd)
    return .error (.internal ("Insert position " ++ toString position ++
      " did not exist in base list."))

/-- One range delete for each run of ids of the base at the positions
`oldIndex ..< oldIndex + oldLen`. -/
def appendDeleteOperations (base : LinearList Id T) (oldIndex oldLen : ℕ)
    (operations : List (DataOperation (IdWithIndex Id) (List T))) :
    Option (Except DiffError (List (DataOperation (IdWithIndex Id) (List T)))) := do
  if oldLen = 0 then return .ok operations
  let rangeEnd := oldIndex + oldLen
  match ← base.data.idsInRange ⟨.included oldIndex, .excluded rangeEnd⟩ with
  | none => return .error (.internal ("Delete range [" ++ toString oldIndex ++ ", " ++
      toString rangeEnd ++ ") did not exist in base list."))
  | some rangeIds => return .ok (operations ++ rangeIds.deleteOperations)

/-- The insert of `values` at a position of the base, on the next reserved id. -/
def appendInsertOperation (base : LinearList Id T) (position : ℕ) (values : List T)
    (idGenerator : IdGeneratorWithIndex Id) (pendingReservedIndices : Option ℕ)
    (operations : List (DataOperation (IdWithIndex Id) (List T))) :
    Option (Except DiffError
      (IdGeneratorWithIndex Id × Option ℕ × List (DataOperation (IdWithIndex Id) (List T)))) := do
  if values.isEmpty then return .ok (idGenerator, pendingReservedIndices, operations)
  match ← reserveInsertId idGenerator pendingReservedIndices values.length with
  | .error e => return .error e
  | .ok (insertId, idGenerator, pendingReservedIndices) =>
    match ← resolveInsertLinkIds base position with
    | .error e => return .error e
    | .ok linkIds =>
      return .ok (idGenerator, pendingReservedIndices,
        operations ++ [linkIds.insertOperation insertId values])

/-- The loop of `linear_diff` over the hunks. -/
def linearDiffLoop (base : LinearList Id T) (changed : List T) :
    List DiffOp → IdGeneratorWithIndex Id → Option ℕ →
      List (DataOperation (IdWithIndex Id) (List T)) →
      Option (Except DiffError (List (DataOperation (IdWithIndex Id) (List T))))
  | [], _, _, operations => some (.ok operations)
  | .equal .. :: rest, idGenerator, pending, operations =>
    linearDiffLoop base changed rest idGenerator pending operations
  | .delete oldIndex oldLen _ :: rest, idGenerator, pending, operations => do
    match ← appendDeleteOperations base oldIndex oldLen operations with
    | .error e => return .error e
    | .ok operations => linearDiffLoop base changed rest idGenerator pending operations
  | .insert oldIndex newIndex newLen :: rest, idGenerator, pending, operations => do
    let insertValues ← slice changed newIndex (newIndex + newLen)
    match ← appendInsertOperation base oldIndex insertValues idGenerator pending operations with
    | .error e => return .error e
    | .ok (idGenerator, pending, operations) =>
      linearDiffLoop base changed rest idGenerator pending operations
  | .replace oldIndex oldLen newIndex newLen :: rest, idGenerator, pending, operations => do
    match ← appendDeleteOperations base oldIndex oldLen operations with
    | .error e => return .error e
    | .ok operations =>
      let insertValues ← slice changed newIndex (newIndex + newLen)
      match ← appendInsertOperation base (oldIndex + oldLen) insertValues idGenerator pending
          operations with
      | .error e => return .error e
      | .ok (idGenerator, pending, operations) =>
        linearDiffLoop base changed rest idGenerator pending operations

/-- `linear_diff`, with the slice diff the source takes from the `similar` crate as the
parameter `diff`; all inserts are on `operationId`. -/
def linearDiff (diff : List T → List T → List DiffOp) (base : LinearList Id T) (changed : List T)
    (operationId : Id) : Option (Except DiffError (LinearListDiff Id T)) := do
  let currentValues ← base.iter
  let basicDiff := diff currentValues changed
  match ← linearDiffLoop base changed basicDiff (IdGeneratorWithIndex.new [operationId]) none [] with
  | .error e => return .error e
  | .ok operations => return .ok ⟨operations⟩

section InsertIds

open IdGeneratorWithIndex

variable {base : LinearList Id T} {opid : Id} {g : IdGeneratorWithIndex Id} {pending : Option ℕ}
  {operations operations' : List (DataOperation (IdWithIndex Id) (List T))}

/-- Deletes add no insert. -/
theorem appendDeleteOperations_insertRuns {oldIndex oldLen : ℕ}
    (h : appendDeleteOperations base oldIndex oldLen operations = some (.ok operations')) :
    insertRuns operations' = insertRuns operations := by
  unfold appendDeleteOperations at h
  split_ifs at h with hl
  · simp only [pure, Option.some.injEq, Except.ok.injEq] at h
    rw [h]
  cases hr : base.data.idsInRange ⟨.included oldIndex, .excluded (oldIndex + oldLen)⟩ with
  | none => simp [hr] at h
  | some r =>
    cases r with
    | none => simp [hr] at h
    | some r =>
      simp [hr] at h
      simp [← h]

theorem ReservedRuns.appendDeleteOperations {oldIndex oldLen : ℕ}
    (hr : ReservedRuns opid g pending operations)
    (h : appendDeleteOperations base oldIndex oldLen operations = some (.ok operations')) :
    ReservedRuns opid g pending operations' := by
  rw [ReservedRuns, appendDeleteOperations_insertRuns h]
  exact hr

/-- An insert takes the run of indices right after the last insert's. -/
theorem ReservedRuns.appendInsertOperation {position : ℕ} {values : List T}
    {g' : IdGeneratorWithIndex Id} {pending' : Option ℕ}
    (hr : ReservedRuns opid g pending operations)
    (h : appendInsertOperation base position values g pending operations =
      some (.ok (g', pending', operations'))) :
    ReservedRuns opid g' pending' operations' := by
  unfold AnyData.appendInsertOperation at h
  by_cases hv : values.isEmpty
  · simp [hv] at h
    obtain ⟨rfl, rfl, rfl⟩ := h
    exact hr
  have hcount : 0 < values.length := by
    simpa [List.length_pos_iff] using hv
  cases hres : reserveInsertId g pending values.length with
  | none => simp [hv, hres] at h
  | some e =>
    obtain e | ⟨id, g₁, p₁⟩ := e
    · simp [hv, hres] at h
    obtain ⟨rfl, hres'⟩ := reserveInsertId_eq_ok hr.2 hcount hres
    cases hl : resolveInsertLinkIds base position with
    | none => simp [hv, hres, hl] at h
    | some e =>
      obtain e | link := e
      · simp [hv, hres, hl] at h
      simp [hv, hres, hl] at h
      obtain ⟨rfl, rfl, rfl⟩ := h
      refine ⟨?_, ?_⟩
      · simpa [insertRuns, LinkIds.insertOperation] using hr.1.append_run hcount
      · simpa [insertRuns, LinkIds.insertOperation] using hres'

/-- Over a whole run of the loop, hunk by hunk, the inserts keep consecutive runs. -/
theorem ReservedRuns.linearDiffLoop {changed : List T} {hunks : List DiffOp}
    (hr : ReservedRuns opid g pending operations)
    (h : AnyData.linearDiffLoop base changed hunks g pending operations = some (.ok operations')) :
    Consecutive opid 0 (insertRuns operations') := by
  induction hunks generalizing g pending operations with
  | nil =>
    simp only [AnyData.linearDiffLoop, Option.some.injEq, Except.ok.injEq] at h
    exact h ▸ hr.1
  | cons hunk rest ih =>
    cases hunk with
    | equal => exact ih hr h
    | delete oldIndex oldLen =>
      simp only [AnyData.linearDiffLoop] at h
      cases hd : AnyData.appendDeleteOperations base oldIndex oldLen operations with
      | none => simp [hd] at h
      | some e =>
        obtain e | ops := e
        · simp [hd] at h
        simp [hd] at h
        exact ih (hr.appendDeleteOperations hd) h
    | insert oldIndex newIndex newLen =>
      simp only [AnyData.linearDiffLoop] at h
      cases hs : slice changed newIndex (newIndex + newLen) with
      | none => simp [hs] at h
      | some vs =>
        cases hi : AnyData.appendInsertOperation base oldIndex vs g pending operations with
        | none => simp [hs, hi] at h
        | some e =>
          obtain e | ⟨g₁, p₁, ops⟩ := e
          · simp [hs, hi] at h
          simp [hs, hi] at h
          exact ih (hr.appendInsertOperation hi) h
    | replace oldIndex oldLen newIndex newLen =>
      -- the deletes of the old values, then the insert of the new ones after them
      simp only [AnyData.linearDiffLoop] at h
      cases hd : AnyData.appendDeleteOperations base oldIndex oldLen operations with
      | none => simp [hd] at h
      | some e =>
        obtain e | ops := e
        · simp [hd] at h
        have hr₁ := hr.appendDeleteOperations hd
        cases hs : slice changed newIndex (newIndex + newLen) with
        | none => simp [hd, hs] at h
        | some vs =>
          cases hi : AnyData.appendInsertOperation base (oldIndex + oldLen) vs g pending ops with
          | none => simp [hd, hs, hi] at h
          | some e =>
            obtain e | ⟨g₁, p₁, ops₁⟩ := e
            · simp [hd, hs, hi] at h
            simp [hd, hs, hi] at h
            exact ih (hr₁.appendInsertOperation hi) h

/-- Every value a diff inserts gets an id of its own: the inserts are all on `operationId`,
in non-empty runs of indices one right after the other from index 0. -/
theorem linearDiff_insert_ids_consecutive {diff : List T → List T → List DiffOp}
    {changed : List T} {operationId : Id} {d : LinearListDiff Id T}
    (h : linearDiff diff base changed operationId = some (.ok d)) :
    Consecutive operationId 0 (insertRuns d.operations) := by
  unfold linearDiff at h
  cases hv : base.iter with
  | none => simp [hv] at h
  | some vs =>
    cases hl : AnyData.linearDiffLoop base changed (diff vs changed) (new [operationId]) none [] with
    | none => simp [hv, hl] at h
    | some e =>
      obtain e | ops := e
      · simp [hv, hl] at h
      simp [hv, hl] at h
      subst h
      exact (reservedRuns_new operationId).linearDiffLoop hl

/-- Two inserts into an empty list: one value on index 0 of the operation id, then two on
indices 1 and 2. -/
theorem linearDiff_insert_ids_two_inserts :
    linearDiff (fun _ _ => [DiffOp.insert 0 0 1, DiffOp.insert 0 1 2])
        (LinearList.new 0 : LinearList ℕ ℕ) [5, 6, 7] 1 =
      some (.ok ⟨[.insert ⟨1, 0⟩ ⟨0, 0⟩ ⟨0, 1⟩ [5], .insert ⟨1, 1⟩ ⟨0, 0⟩ ⟨0, 1⟩ [6, 7]]⟩) ∧
    Consecutive 1 0 (insertRuns ([.insert ⟨1, 0⟩ ⟨0, 0⟩ ⟨0, 1⟩ [5],
      .insert ⟨1, 1⟩ ⟨0, 0⟩ ⟨0, 1⟩ [6, 7]] : List (DataOperation (IdWithIndex ℕ) (List ℕ)))) :=
  by
  have h : linearDiff (fun _ _ => [DiffOp.insert 0 0 1, DiffOp.insert 0 1 2])
      (LinearList.new 0 : LinearList ℕ ℕ) [5, 6, 7] 1 =
        some (.ok ⟨[.insert ⟨1, 0⟩ ⟨0, 0⟩ ⟨0, 1⟩ [5], .insert ⟨1, 1⟩ ⟨0, 0⟩ ⟨0, 1⟩ [6, 7]]⟩) := by
    decide
  exact ⟨h, linearDiff_insert_ids_consecutive h⟩

end InsertIds

end AnyData

end Flotsync
