import Flotsync.Schema.InMemory

/-!
The local operations of a replica on its `InMemoryStateData`: `insert_row`,
`modify_row` and `delete_row` change the dataset and return the `SchemaOperation`
that the other replicas apply. `modify_row` takes desired values and turns each
into the CRDT operation that reaches it from the current field state.
-/

set_option autoImplicit false

namespace Flotsync.Schema

open LinearData AnyData

/-- The linear diffs of the text and list modules, which `modify_row` uses for
string and list fields: the operations that turn the current sequence into the
target, `none` for a diff error. They are not part of this model. -/
structure LinearDiffs (O P G : Type) where
  string : VecCoalescedLinearData O G → List G → O →
    Option (List (DataOperation (IdWithIndex O) (List G)))
  list : VecCoalescedLinearData O P → List P → O →
    Option (List (DataOperation (IdWithIndex O) (List P)))

/-- `build_counter_operation`: the increment that reaches `target`; a counter never
decreases. -/
def buildCounterOperation (fieldName : String) (current target : CounterValue) :
    Except OperationError (Option CounterValue) :=
  let decrease (current target : ℕ) : OperationError :=
    .unsupportedOperationVariant ("Field \x27" ++ fieldName ++
      "\x27 is monotonic and cannot decrease from " ++ toString current ++ " to " ++
      toString target ++ ".")
  match current, target with
  | .byte current, .byte target =>
    if target < current then .error (decrease current target)
    else if target = current then .ok none
    else .ok (some (.byte (target - current)))
  | .uint current, .uint target =>
    if target < current then .error (decrease current target)
    else if target = current then .ok none
    else .ok (some (.uint (target - current)))
  | _, _ => .error (.internalOperation ("Field \x27" ++ fieldName ++
      "\x27 had mismatched counter representations."))

section Build

variable {O V P G : Type} [LinearOrder O]

/-- `build_lww_operation`: an insert after the head with id `operationId:0`, unless
the register already shows `target`. -/
def buildLwwOperation [DecidableEq V] (current : LinearLatestValueWins (IdWithIndex O) V)
    (target : V) (operationId : O) : Option (Option (UpdateOperation (IdWithIndex O) V)) := do
  let content ← current.content
  if content = target then return none
  let operation ← current.updateOperation (IdWithIndex.zero operationId) target
  return some operation

/-- `build_field_operation`: the operation that takes the field to `target`, `none`
inside when it is there already. -/
def buildFieldOperation [DecidableEq V] [DecidableEq P] [DecidableEq G]
    (diffs : LinearDiffs O P G) (fieldName : String) :
    InMemoryFieldState O V P G → FieldTargetValue V P G → O →
      Option (Except OperationError (Option (OperationValue O V P G)))
  | .latestValueWins current, .nullableBasic target, operationId =>
    (buildLwwOperation current target operationId).map fun r => .ok (r.map .latestValueWins)
  | .linearString current, .string target, operationId =>
    match current.iterValues with
    | none => none
    | some values =>
      if values = target then some (.ok none) else
      match diffs.string current target operationId with
      | none => some (.error .linearStringDiff)
      | some [] => some (.ok none)
      | some operations => some (.ok (some (.linearString operations)))
  | .linearList current, .primitiveArray target, operationId =>
    match diffs.list current target operationId with
    | none => some (.error .linearListDiff)
    | some [] => some (.ok none)
    | some operations => some (.ok (some (.linearList operations)))
  | .monotonicCounter current, .counter target, _ =>
    some ((buildCounterOperation fieldName current target).map (·.map .monotonicCounterIncrement))
  | .totalOrderRegister current, .primitive target, _ =>
    if current = target then some (.ok none) else some (.ok (some (.totalOrderRegisterSet target)))
  | .totalOrderFiniteStateRegister current, .nullablePrimitive target, _ =>
    if current = target then some (.ok none)
    else some (.ok (some (.totalOrderFiniteStateRegisterSet target)))
  | _, _, _ => some (.error (.internalOperation ("Field \x27" ++ fieldName ++
      "\x27 had an unexpected target value for its in-memory type.")))

end Build

namespace InMemoryStateData

variable {R O V P G : Type}

/-- Record `value` for `fieldName`, replacing an earlier one, as a map insert does. -/
def insertTarget (fieldName : String) (value : FieldTargetValue V P G)
    (collected : List (String × FieldTargetValue V P G)) : List (String × FieldTargetValue V P G) :=
  (fieldName, value) :: collected.filter (·.1 != fieldName)

/-- `collect_pending_updates`: the desired values by field; the checks of their
value types are not part of the model. -/
def collectPendingUpdates (s : InMemoryStateData R O V P G) :
    List (String × FieldTargetValue V P G) → List (String × FieldTargetValue V P G) →
      Except OperationError (List (String × FieldTargetValue V P G))
  | collected, [] => .ok collected
  | collected, (fieldName, value) :: rest =>
    match schemaField s.schema fieldName with
    | none => .error (.unknownField fieldName)
    | some _ => s.collectPendingUpdates (insertTarget fieldName value collected) rest

/-- `collect_initial_values`: the given values, then the schema's defaults for the
fields without one. -/
def collectInitialValues (s : InMemoryStateData R O V P G)
    (initialValues : List (String × FieldTargetValue V P G)) :
    Except OperationError (List (String × FieldTargetValue V P G)) := do
  let collected ← s.collectPendingUpdates [] initialValues
  return s.schema.foldl (fun collected field =>
    if (collected.lookup field.name).isSome then collected else
    match field.defaultValue with
    | none => collected
    | some defaultValue => insertTarget field.name defaultValue collected) collected

/-- The initial state of each field, in field order. -/
def buildFields (s : InMemoryStateData R O V P G) (operationId : O)
    (collected : List (String × FieldTargetValue V P G)) :
    List String → Option (Except OperationError (List (InMemoryFieldState O V P G)))
  | [] => some (.ok [])
  | fieldName :: rest =>
    match schemaField s.schema fieldName with
    | none => none
    | some field =>
      match collected.lookup fieldName with
      | none => some (.error (.missingField fieldName))
      | some target =>
        match buildInitialFieldValue fieldName field.dataType target operationId with
        | none => none
        | some (.error e) => some (.error e)
        | some (.ok value) =>
          (s.buildFields operationId collected rest).map (·.map (value :: ·))

variable [DecidableEq R]

/-- `insert_row`: a new row from the given values and the defaults; the operation
carries the row's snapshot. -/
def insertRow (s : InMemoryStateData R O V P G) (operationId : O) (rowId : R)
    (initialValues : List (String × FieldTargetValue V P G)) :
    Option (Except OperationError (InMemoryStateData R O V P G × SchemaOperation R O V P G)) :=
  if (s.rowIdMap.lookup rowId).isSome then some (.error .duplicateRowId) else
  match s.collectInitialValues initialValues with
  | .error e => some (.error e)
  | .ok collected =>
    match s.buildFields operationId collected s.fieldNames with
    | none => none
    | some (.error e) => some (.error e)
    | some (.ok fields) =>
      let row : InMemoryStateRow O V P G := ⟨false, fields⟩
      let s' := { s with rows := s.rows ++ [row], rowIdMap := (rowId, s.rows.length) :: s.rowIdMap }
      some (.ok (s', ⟨operationId, .insert rowId (s.fieldNames.zip fields)⟩))

/-- `delete_row`: tombstone a live row. -/
def deleteRow (s : InMemoryStateData R O V P G) (operationId : O) (rowId : R) :
    Option (Except OperationError (InMemoryStateData R O V P G × SchemaOperation R O V P G)) :=
  match s.rowIdMap.lookup rowId with
  | none => some (.error .unknownRowId)
  | some rowIndex =>
    match s.rows[rowIndex]? with
    | none => none
    | some row =>
      if row.deleted then some (.error .unknownRowId)
      else some (.ok ({ s with rows := s.rows.set rowIndex { row with deleted := true } },
        ⟨operationId, .delete rowId⟩))

variable [LinearOrder O] [DecidableEq V] [DecidableEq P] [DecidableEq G]

/-- The loop of `modify_row` over the desired values: build each field's operation
and apply it at once. It returns the fields as far as it got, since the source
changes the row in place, and the operations built. -/
def modifyFields (s : InMemoryStateData R O V P G) (diffs : LinearDiffs O P G) (operationId : O)
    (fields : List (InMemoryFieldState O V P G)) (built : List (String × OperationValue O V P G)) :
    List (String × FieldTargetValue V P G) →
      Option (List (InMemoryFieldState O V P G) ×
        Except OperationError (List (String × OperationValue O V P G)))
  | [] => some (fields, .ok built)
  | (fieldName, target) :: rest =>
    match s.fieldIndex fieldName with
    | none => none
    | some fieldIndex =>
      match fields[fieldIndex]? with
      | none => none
      | some current =>
        match buildFieldOperation diffs fieldName current target operationId with
        | none => none
        | some (.error e) => some (fields, .error e)
        | some (.ok none) => s.modifyFields diffs operationId fields built rest
        | some (.ok (some operationValue)) =>
          match current.applyOperationValue operationValue with
          | none => none
          | some (.error e) => some (fields, .error e)
          | some (.ok field) =>
            s.modifyFields diffs operationId (fields.set fieldIndex field)
              (built ++ [(fieldName, operationValue)]) rest

/-- `modify_row`: the dataset after the call, which keeps the fields changed before
an error, and the operation or the error. -/
def modifyRow (s : InMemoryStateData R O V P G) (diffs : LinearDiffs O P G) (operationId : O)
    (rowId : R) (changedValues : List (String × FieldTargetValue V P G)) :
    Option (InMemoryStateData R O V P G ×
      Except OperationError (OperationOutcome (SchemaOperation R O V P G))) :=
  match s.rowIdMap.lookup rowId with
  | none => some (s, .error .unknownRowId)
  | some rowIndex =>
    match s.rows[rowIndex]? with
    | none => none
    | some row =>
      if row.deleted then some (s, .error .modifyDeletedRow) else
      match s.collectPendingUpdates [] changedValues with
      | .error e => some (s, .error e)
      | .ok changed =>
        match s.modifyFields diffs operationId row.fields [] changed with
        | none => none
        | some (fields, result) =>
          let s' := { s with rows := s.rows.set rowIndex { row with fields } }
          match result with
          | .error e => some (s', .error e)
          | .ok [] => some (s', .ok .noChanges)
          | .ok built => some (s', .ok (.applied ⟨operationId, .update rowId built⟩))

end InMemoryStateData

/-- A counter and a register; the fields are numbered in name order. -/
def counterLevelSchema : List (Field ℕ ℕ Char) :=
  [⟨"count", .monotonicCounter true, none⟩, ⟨"level", .totalOrderRegister .ascending, none⟩]

/-- `modify_row` raises the register, then finds that the counter would have to
decrease: it returns the error with the register already raised, and no operation
carries that change to the other replicas. -/
theorem modify_row_error_keeps_earlier_field_change (diffs : LinearDiffs ℕ ℕ Char) :
    ∃ (s₀ s₁ : InMemoryStateData ℕ ℕ ℕ ℕ Char) (opInsert : SchemaOperation ℕ ℕ ℕ ℕ Char)
      (e : OperationError),
      (InMemoryStateData.new counterLevelSchema).insertRow 0 7
          [("count", .counter (.byte 5)), ("level", .primitive 0)] = some (.ok (s₀, opInsert)) ∧
      s₀.modifyRow diffs 1 7 [("count", .counter (.byte 2)), ("level", .primitive 5)] =
        some (s₁, .error e) ∧
      s₀.getValue 7 "level" = some (some (.primitive 0)) ∧
      s₁.getValue 7 "level" = some (some (.primitive 5)) :=
  ⟨_, _, _, _, by exact rfl, by exact rfl, by exact rfl, by exact rfl⟩

end Flotsync.Schema
