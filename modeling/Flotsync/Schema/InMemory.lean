import Mathlib
import Flotsync.AnyData.LatestValue

/-!
`InMemoryStateData`: the in-memory dataset of one schema. A row holds one CRDT
state per field; a replica builds `SchemaOperation`s with `insert_row`,
`modify_row` and `delete_row`, and applies those of the others with
`apply_schema_operation`. The value domains are parameters: `V` the values of
latest-value registers, `P` the primitive values of lists and total-order
registers, `G` the graphemes of strings.
-/

set_option autoImplicit false

namespace Flotsync.Schema

open LinearData AnyData

inductive Direction where
  | ascending
  | descending
deriving DecidableEq, Repr

inductive ReplicatedDataType (P : Type) where
  | latestValueWins
  | linearString
  | linearList
  | monotonicCounter (smallRange : Bool)
  | totalOrderRegister (direction : Direction)
  | totalOrderFiniteStateRegister (states : List (Option P))
deriving DecidableEq, Repr

inductive CounterValue where
  | byte (value : Fin (2 ^ 8))
  | uint (value : Fin (2 ^ 64))
deriving DecidableEq, Repr

/-- A field value as the application gives it to `insert_row` and `modify_row`. -/
inductive FieldTargetValue (V P G : Type) where
  | nullableBasic (value : V)
  | string (value : List G)
  | primitiveArray (value : List P)
  | counter (value : CounterValue)
  | primitive (value : P)
  | nullablePrimitive (value : Option P)
deriving DecidableEq, Repr

structure Field (V P G : Type) where
  name : String
  dataType : ReplicatedDataType P
  defaultValue : Option (FieldTargetValue V P G)
deriving DecidableEq, Repr

inductive InMemoryFieldState (O V P G : Type) where
  | latestValueWins (current : LinearLatestValueWins (IdWithIndex O) V)
  | linearString (current : VecCoalescedLinearData O G)
  | linearList (current : VecCoalescedLinearData O P)
  | monotonicCounter (current : CounterValue)
  | totalOrderRegister (current : P)
  | totalOrderFiniteStateRegister (current : Option P)

inductive OperationValue (O V P G : Type) where
  | latestValueWins (operation : UpdateOperation (IdWithIndex O) V)
  | linearString (operations : List (DataOperation (IdWithIndex O) (List G)))
  | linearList (operations : List (DataOperation (IdWithIndex O) (List P)))
  | monotonicCounterIncrement (delta : CounterValue)
  | totalOrderRegisterSet (value : P)
  | totalOrderFiniteStateRegisterSet (value : Option P)
deriving DecidableEq, Repr

/-- What a field shows the application. -/
inductive ProjectedFieldValue (V P G : Type) where
  | latestValue (value : V)
  | string (value : List G)
  | list (values : List P)
  | counter (value : CounterValue)
  | primitive (value : P)
  | nullablePrimitive (value : Option P)
deriving DecidableEq, Repr

inductive OperationError where
  | duplicateRowId
  | unknownRowId
  | modifyDeletedRow
  | unknownField (fieldName : String)
  | duplicateField (fieldName : String)
  | missingField (fieldName : String)
  | unknownRow (rowIndex : ℕ)
  | linearStringDiff
  | linearListDiff
  | unsupportedOperationVariant (explanation : String)
  | internalOperation (context : String)
deriving DecidableEq, Repr

structure InMemoryStateRow (O V P G : Type) where
  deleted : Bool
  fields : List (InMemoryFieldState O V P G)

inductive RowOperation (R O V P G : Type) where
  | insert (rowId : R) (snapshot : List (String × InMemoryFieldState O V P G))
  | update (rowId : R) (fields : List (String × OperationValue O V P G))
  | delete (rowId : R)

structure SchemaOperation (R O V P G : Type) where
  changeId : O
  operation : RowOperation R O V P G

inductive OperationOutcome (α : Type) where
  | applied (value : α)
  | noChanges

/-- The dataset: the rows in insertion order, and where each row id's row is. -/
structure InMemoryStateData (R O V P G : Type) where
  schema : List (Field V P G)
  fieldNames : List String
  rowIdMap : List (R × ℕ)
  rows : List (InMemoryStateRow O V P G)

namespace InMemoryFieldState

variable {O V P G : Type}

def projectValue : InMemoryFieldState O V P G → Option (ProjectedFieldValue V P G)
  | .latestValueWins current => current.content.map .latestValue
  | .linearString current => current.iterValues.map .string
  | .linearList current => current.iterValues.map .list
  | .monotonicCounter current => some (.counter current)
  | .totalOrderRegister current => some (.primitive current)
  | .totalOrderFiniteStateRegister current => some (.nullablePrimitive current)

variable [LinearOrder O]

/-- Apply the operations of a string or list field one after another; a rejected one
is an internal error that names the field kind in `context`. -/
def applyLinearOperations {E : Type} (context : String) (current : VecCoalescedLinearData O E) :
    List (DataOperation (IdWithIndex O) (List E)) →
      Option (Except OperationError (VecCoalescedLinearData O E))
  | [] => some (.ok current)
  | operation :: rest =>
    match current.applyOperation operation with
    | none => none
    | some (.error _) => some (.error (.internalOperation context))
    | some (.ok next) => applyLinearOperations context next rest

/-- `apply_operation_value`. A register set overwrites the register. -/
def applyOperationValue : InMemoryFieldState O V P G → OperationValue O V P G →
    Option (Except OperationError (InMemoryFieldState O V P G))
  | .latestValueWins current, .latestValueWins operation =>
    match current.applyOperation operation with
    | none => none
    | some (.ok next) => some (.ok (.latestValueWins next))
    | some (.error _) => some (.error (.internalOperation
        "Applying a generated LatestValueWins operation failed."))
  | .linearString current, .linearString operations =>
    (applyLinearOperations "Applying a generated LinearString operation failed." current
      operations).map (·.map .linearString)
  | .linearList current, .linearList operations =>
    (applyLinearOperations "Applying a generated LinearList operation failed." current
      operations).map (·.map .linearList)
  | .monotonicCounter (.byte current), .monotonicCounterIncrement (.byte delta) =>
    some (.ok (.monotonicCounter (.byte (Checked.saturatingAdd current delta))))
  | .monotonicCounter (.uint current), .monotonicCounterIncrement (.uint delta) =>
    some (.ok (.monotonicCounter (.uint (Checked.saturatingAdd current delta))))
  | .monotonicCounter _, .monotonicCounterIncrement _ => some (.error (.internalOperation
      "Applying a generated monotonic-counter increment failed due to a type mismatch."))
  | .totalOrderRegister _, .totalOrderRegisterSet value => some (.ok (.totalOrderRegister value))
  | .totalOrderFiniteStateRegister _, .totalOrderFiniteStateRegisterSet value =>
    some (.ok (.totalOrderFiniteStateRegister value))
  | _, _ => some (.error (.internalOperation
      "Applying a generated field operation failed due to a type mismatch."))

end InMemoryFieldState

/-- The field of `schema` named `fieldName`. -/
def schemaField {V P G : Type} (schema : List (Field V P G)) (fieldName : String) :
    Option (Field V P G) :=
  schema.find? (·.name == fieldName)

/-- `build_initial_field_value`: a field's first state, from the value given for it.
A latest-value register gets the ids `id:0`, `id:1` and `id:2`. -/
def buildInitialFieldValue {O V P G : Type} (fieldName : String) (dataType : ReplicatedDataType P)
    (target : FieldTargetValue V P G) (operationId : O) :
    Option (Except OperationError (InMemoryFieldState O V P G)) :=
  match dataType, target with
  | .latestValueWins, .nullableBasic value =>
    let beginId := IdWithIndex.zero operationId
    let valueId := beginId.increment
    some (.ok (.latestValueWins (LinearLatestValueWins.new value beginId valueId valueId.increment)))
  | .linearString, .string value =>
    (VecCoalescedLinearData.withValue operationId value).map fun s => .ok (.linearString s)
  | .linearList, .primitiveArray value =>
    (VecCoalescedLinearData.withValue operationId value).map fun s => .ok (.linearList s)
  | .monotonicCounter _, .counter value => some (.ok (.monotonicCounter value))
  | .totalOrderRegister _, .primitive value => some (.ok (.totalOrderRegister value))
  | .totalOrderFiniteStateRegister _, .nullablePrimitive value =>
    some (.ok (.totalOrderFiniteStateRegister value))
  | _, _ => some (.error (.internalOperation ("Field \x27" ++ fieldName ++
      "\x27 had a builder value incompatible with its schema type.")))

namespace InMemoryStateData

variable {R O V P G : Type}

/-- An empty dataset; fields are numbered in the order of their sorted names. -/
def new (schema : List (Field V P G)) : InMemoryStateData R O V P G :=
  ⟨schema, (schema.map (·.name)).insertionSort (· ≤ ·), [], []⟩

def fieldIndex (s : InMemoryStateData R O V P G) (fieldName : String) : Option ℕ :=
  s.fieldNames.findIdx? (· == fieldName)

/-- Put the snapshot's fields into the slots of their indices. -/
def placeSnapshotFields (s : InMemoryStateData R O V P G) :
    List (Option (InMemoryFieldState O V P G)) → List (String × InMemoryFieldState O V P G) →
      Except OperationError (List (Option (InMemoryFieldState O V P G)))
  | slots, [] => .ok slots
  | slots, (fieldName, value) :: rest =>
    match s.fieldIndex fieldName with
    | none => .error (.unknownField fieldName)
    | some fieldIndex =>
      if (slots[fieldIndex]?.join).isSome then .error (.duplicateField fieldName)
      else s.placeSnapshotFields (slots.set fieldIndex (some value)) rest

/-- Fill the empty slots from the schema's defaults, in field order. -/
def resolveSlots (s : InMemoryStateData R O V P G) (changeId : O) :
    List (String × Option (InMemoryFieldState O V P G)) →
      Option (Except OperationError (List (InMemoryFieldState O V P G)))
  | [] => some (.ok [])
  | (_, some value) :: rest => (s.resolveSlots changeId rest).map (·.map (value :: ·))
  | (fieldName, none) :: rest =>
    match schemaField s.schema fieldName with
    | none => none
    | some field =>
      match field.defaultValue with
      | none => some (.error (.missingField fieldName))
      | some defaultValue =>
        match buildInitialFieldValue fieldName field.dataType defaultValue changeId with
        | none => none
        | some (.error e) => some (.error e)
        | some (.ok value) => (s.resolveSlots changeId rest).map (·.map (value :: ·))

def rowFromSnapshotWithDefaults (s : InMemoryStateData R O V P G)
    (fields : List (String × InMemoryFieldState O V P G)) (changeId : O) :
    Option (Except OperationError (InMemoryStateRow O V P G)) :=
  match s.placeSnapshotFields (List.replicate s.fieldNames.length none) fields with
  | .error e => some (.error e)
  | .ok slots => (s.resolveSlots changeId (s.fieldNames.zip slots)).map (·.map fun fields => ⟨false, fields⟩)

/-- The field indices of an update's fields. -/
def indexFields (s : InMemoryStateData R O V P G) (fields : List (String × OperationValue O V P G)) :
    Except OperationError (List (ℕ × OperationValue O V P G)) :=
  fields.mapM fun (fieldName, value) =>
    match s.fieldIndex fieldName with
    | none => .error (.unknownField fieldName)
    | some fieldIndex => .ok (fieldIndex, value)

variable [LinearOrder O]

/-- Apply an update's field operations in order to the fields of one row. -/
def applyFieldOperations (fields : List (InMemoryFieldState O V P G)) :
    List (ℕ × OperationValue O V P G) →
      Option (Except OperationError (List (InMemoryFieldState O V P G)))
  | [] => some (.ok fields)
  | (fieldIndex, operationValue) :: rest =>
    match fields[fieldIndex]? with
    | none => none
    | some field =>
      match field.applyOperationValue operationValue with
      | none => none
      | some (.error e) => some (.error e)
      | some (.ok field) => applyFieldOperations (fields.set fieldIndex field) rest

variable [DecidableEq R]

/-- `apply_schema_operation`; the checks against the schema's value types are not
part of the model. -/
def applySchemaOperation (s : InMemoryStateData R O V P G)
    (operation : SchemaOperation R O V P G) :
    Option (Except OperationError (InMemoryStateData R O V P G)) :=
  match operation.operation with
  | .insert rowId snapshot =>
    if (s.rowIdMap.lookup rowId).isSome then some (.error .duplicateRowId) else
    match s.rowFromSnapshotWithDefaults snapshot operation.changeId with
    | none => none
    | some (.error e) => some (.error e)
    | some (.ok row) =>
      some (.ok { s with rows := s.rows ++ [row], rowIdMap := (rowId, s.rows.length) :: s.rowIdMap })
  | .update rowId fields =>
    match s.rowIdMap.lookup rowId with
    | none => some (.error .unknownRowId)
    | some rowIndex =>
      match s.indexFields fields with
      | .error e => some (.error e)
      | .ok indexedFields =>
        match s.rows[rowIndex]? with
        | none => some (.error (.unknownRow rowIndex))
        | some row =>
          match applyFieldOperations row.fields indexedFields with
          | none => none
          | some (.error e) => some (.error e)
          | some (.ok fields) => some (.ok { s with rows := s.rows.set rowIndex { row with fields } })
  | .delete rowId =>
    match s.rowIdMap.lookup rowId with
    | none => some (.error .unknownRowId)
    | some rowIndex =>
      match s.rows[rowIndex]? with
      | none => none
      | some row => some (.ok { s with rows := s.rows.set rowIndex { row with deleted := true } })

/-- Apply operations one after another, as a replica does with those it receives;
the first failure ends the run. -/
def applySchemaOperations (s : InMemoryStateData R O V P G) :
    List (SchemaOperation R O V P G) → Option (Except OperationError (InMemoryStateData R O V P G))
  | [] => some (.ok s)
  | operation :: rest =>
    match s.applySchemaOperation operation with
    | some (.ok s') => s'.applySchemaOperations rest
    | r => r

/-- `get_value` on the row of `rowId`; outside `none` where projecting panics. -/
def getValue (s : InMemoryStateData R O V P G) (rowId : R) (fieldName : String) :
    Option (Option (ProjectedFieldValue V P G)) :=
  match s.rowIdMap.lookup rowId with
  | none => some none
  | some rowIndex =>
    match s.rows[rowIndex]? with
    | none => none
    | some row =>
      match s.fieldIndex fieldName with
      | none => some none
      | some fieldIndex =>
        match row.fields[fieldIndex]? with
        | none => some none
        | some field => field.projectValue.map some

def isDeleted (s : InMemoryStateData R O V P G) (rowId : R) : Option Bool :=
  (s.rowIdMap.lookup rowId).bind fun rowIndex => (s.rows[rowIndex]?).map (·.deleted)

end InMemoryStateData

end Flotsync.Schema
