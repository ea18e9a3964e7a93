import Flotsync.Schema.Operations

/-!
Whether replicas that apply the same operations in different orders agree. The
schema documents a total-order register as a join: of the values set concurrently,
the largest in the field's direction wins, so any order of the sets gives one value.
`apply_operation_value` instead overwrites the register with each set it applies,
and a run of sets ends on the last one: two replicas that receive two concurrent
sets in opposite orders keep different values. Counter increments, by contrast,
commute.
-/

set_option autoImplicit false

namespace Flotsync.Schema

open LinearData AnyData

/-- The documented resolution of two values of a total-order register. -/
def Direction.resolve {P : Type} [LinearOrder P] : Direction → P → P → P
  | .ascending => max
  | .descending => min

section Resolve

variable {P : Type} [LinearOrder P]

theorem Direction.resolve_right_comm (d : Direction) (a b c : P) :
    d.resolve (d.resolve a b) c = d.resolve (d.resolve a c) b := by
  cases d with
  | ascending =>
    show max (max a b) c = max (max a c) b
    rw [max_assoc, max_comm b c, ← max_assoc]
  | descending =>
    show min (min a b) c = min (min a c) b
    rw [min_assoc, min_comm b c, ← min_assoc]

/-- Under the documented semantics the value after a set of writes does not depend
on the order in which a replica receives them. -/
theorem Direction.foldl_resolve_perm (d : Direction) {l₁ l₂ : List P} (hp : l₁.Perm l₂)
    (init : P) : l₁.foldl d.resolve init = l₂.foldl d.resolve init :=
  hp.foldl_eq' (fun x _ y _ z => d.resolve_right_comm z x y) init

end Resolve

namespace InMemoryStateData

variable {R O V P G : Type} [DecidableEq R]

/-- The update of the one field `fieldName` of row `rowId`, as `modify_row` sends it
for one changed value. -/
def fieldUpdate (rowId : R) (fieldName : String) (update : O × OperationValue O V P G) :
    SchemaOperation R O V P G :=
  ⟨update.1, .update rowId [(fieldName, update.2)]⟩

/-- The field `fieldName` of the row `rowId` holds `field`. -/
def FieldAt (s : InMemoryStateData R O V P G) (rowId : R) (fieldName : String)
    (field : InMemoryFieldState O V P G) : Prop :=
  ∃ rowIndex row fieldIndex, s.rowIdMap.lookup rowId = some rowIndex ∧
    s.rows[rowIndex]? = some row ∧ s.fieldIndex fieldName = some fieldIndex ∧
    row.fields[fieldIndex]? = some field

theorem FieldAt.getValue {s : InMemoryStateData R O V P G} {rowId : R} {fieldName : String}
    {field : InMemoryFieldState O V P G} (h : s.FieldAt rowId fieldName field) :
    s.getValue rowId fieldName = field.projectValue.map some := by
  obtain ⟨rowIndex, row, fieldIndex, hrow, hr, hf, hfield⟩ := h
  simp [InMemoryStateData.getValue, hrow, hr, hf, hfield]

variable [LinearOrder O]

/-- One update of one field: the row's field is replaced by what
`apply_operation_value` makes of it. -/
theorem applySchemaOperation_update_one {s : InMemoryStateData R O V P G} {rowId : R}
    {rowIndex : ℕ} {row : InMemoryStateRow O V P G} {fieldName : String} {fieldIndex : ℕ}
    {field field' : InMemoryFieldState O V P G} {operationValue : OperationValue O V P G}
    (hrow : s.rowIdMap.lookup rowId = some rowIndex) (hr : s.rows[rowIndex]? = some row)
    (hf : s.fieldIndex fieldName = some fieldIndex) (hfield : row.fields[fieldIndex]? = some field)
    (happly : field.applyOperationValue operationValue = some (.ok field')) (changeId : O) :
    s.applySchemaOperation ⟨changeId, .update rowId [(fieldName, operationValue)]⟩ =
      some (.ok { s with
        rows := s.rows.set rowIndex ⟨row.deleted, row.fields.set fieldIndex field'⟩ }) := by
  simp [InMemoryStateData.applySchemaOperation, hrow, InMemoryStateData.indexFields, hf, hr,
    InMemoryStateData.applyFieldOperations, hfield, happly]

theorem FieldAt.applySchemaOperation_fieldUpdate {s : InMemoryStateData R O V P G} {rowId : R}
    {fieldName : String} {field field' : InMemoryFieldState O V P G}
    (h : s.FieldAt rowId fieldName field) (update : O × OperationValue O V P G)
    (happly : field.applyOperationValue update.2 = some (.ok field')) :
    ∃ s', s.applySchemaOperation (fieldUpdate rowId fieldName update) = some (.ok s') ∧
      s'.FieldAt rowId fieldName field' := by
  obtain ⟨rowIndex, row, fieldIndex, hrow, hr, hf, hfield⟩ := h
  refine ⟨_, applySchemaOperation_update_one hrow hr hf hfield happly update.1, ?_⟩
  have hrlt : rowIndex < s.rows.length := (List.getElem?_eq_some_iff.1 hr).1
  have hflt : fieldIndex < row.fields.length := (List.getElem?_eq_some_iff.1 hfield).1
  exact ⟨rowIndex, ⟨row.deleted, row.fields.set fieldIndex field'⟩, fieldIndex, hrow,
    by simp [hrlt], hf, by simp [hflt]⟩

section Register

variable {s : InMemoryStateData R O V P G} {rowId : R} {fieldName : String}

/-- The update that sets a total-order register. -/
def registerSet (rowId : R) (fieldName : String) (set : O × P) : SchemaOperation R O V P G :=
  fieldUpdate rowId fieldName (set.1, .totalOrderRegisterSet set.2)

/-- A run of register sets ends on the last value set: the code resolves the
register by the order of arrival, where the schema documents the order of the
values (compare `Direction.foldl_resolve_perm`). -/
theorem FieldAt.applySchemaOperations_registerSets {current : P}
    (h : s.FieldAt rowId fieldName (.totalOrderRegister current)) (sets : List (O × P)) :
    ∃ s', s.applySchemaOperations (sets.map (registerSet rowId fieldName)) = some (.ok s') ∧
      s'.FieldAt rowId fieldName (.totalOrderRegister (sets.foldl (fun _ set => set.2) current)) := by
  -- induction on the sets, with the register's value as the invariant
  induction sets generalizing s current with
  | nil => exact ⟨s, rfl, h⟩
  | cons set rest ih =>
    obtain ⟨s₁, happly, h₁⟩ := h.applySchemaOperation_fieldUpdate (set.1, .totalOrderRegisterSet set.2) rfl
    obtain ⟨s', hrun, h'⟩ := ih h₁
    refine ⟨s', ?_, h'⟩
    simp only [List.map_cons, InMemoryStateData.applySchemaOperations, registerSet, happly]
    exact hrun

/-- Two sets of different values, applied in the two orders, leave two replicas with
different values; the documented register gives one. -/
theorem FieldAt.registerSets_diverge {current : P}
    (h : s.FieldAt rowId fieldName (.totalOrderRegister current)) (a b : O × P) :
    ∃ s₁ s₂, s.applySchemaOperations [registerSet rowId fieldName a, registerSet rowId fieldName b] =
        some (.ok s₁) ∧
      s.applySchemaOperations [registerSet rowId fieldName b, registerSet rowId fieldName a] =
        some (.ok s₂) ∧
      s₁.getValue rowId fieldName = some (some (.primitive b.2)) ∧
      s₂.getValue rowId fieldName = some (some (.primitive a.2)) := by
  obtain ⟨s₁, h₁, hr₁⟩ := h.applySchemaOperations_registerSets [a, b]
  obtain ⟨s₂, h₂, hr₂⟩ := h.applySchemaOperations_registerSets [b, a]
  refine ⟨s₁, s₂, h₁, h₂, ?_, ?_⟩
  · simp [hr₁.getValue, InMemoryFieldState.projectValue]
  · simp [hr₂.getValue, InMemoryFieldState.projectValue]

/-- `modify_row` with a new value for a register of a live row sets the register
locally and sends the register set. -/
theorem FieldAt.modifyRow_registerSet [DecidableEq V] [DecidableEq P] [DecidableEq G]
    {current target : P} (h : s.FieldAt rowId fieldName (.totalOrderRegister current))
    (hlive : s.isDeleted rowId = some false) (hschema : (schemaField s.schema fieldName).isSome)
    (diffs : LinearDiffs O P G) (operationId : O) (hne : current ≠ target) :
    ∃ s', s.modifyRow diffs operationId rowId [(fieldName, .primitive target)] =
        some (s', .ok (.applied (registerSet rowId fieldName (operationId, target)))) ∧
      s'.FieldAt rowId fieldName (.totalOrderRegister target) := by
  obtain ⟨rowIndex, row, fieldIndex, hrow, hr, hf, hfield⟩ := h
  obtain ⟨schemaEntry, hentry⟩ := Option.isSome_iff_exists.1 hschema
  have hdel : row.deleted = false := by
    simpa [InMemoryStateData.isDeleted, hrow, hr] using hlive
  have hrlt : rowIndex < s.rows.length := (List.getElem?_eq_some_iff.1 hr).1
  have hflt : fieldIndex < row.fields.length := (List.getElem?_eq_some_iff.1 hfield).1
  let row' : InMemoryStateRow O V P G :=
    ⟨row.deleted, row.fields.set fieldIndex (.totalOrderRegister target)⟩
  refine ⟨{ s with rows := s.rows.set rowIndex row' }, ?_,
    rowIndex, row', fieldIndex, hrow, by simp [row', hrlt], hf, by simp [row', hflt]⟩
  simp [InMemoryStateData.modifyRow, hrow, hr, hdel, InMemoryStateData.collectPendingUpdates,
    hentry, InMemoryStateData.insertTarget, InMemoryStateData.modifyFields, hf, hfield,
    buildFieldOperation, hne, InMemoryFieldState.applyOperationValue, registerSet, fieldUpdate, row']

/-- Two replicas that each modify a live register to a new value send sets that
leave them, once each has applied both, with different values: the one applied
last wins on each. -/
theorem FieldAt.concurrent_modifyRows_diverge [DecidableEq V] [DecidableEq P] [DecidableEq G]
    {current a b : P} (h : s.FieldAt rowId fieldName (.totalOrderRegister current))
    (hlive : s.isDeleted rowId = some false) (hschema : (schemaField s.schema fieldName).isSome)
    (diffs : LinearDiffs O P G) (idA idB : O) (ha : current ≠ a) (hb : current ≠ b) :
    ∃ sA sB s₁ s₂,
      s.modifyRow diffs idA rowId [(fieldName, .primitive a)] =
        some (sA, .ok (.applied (registerSet rowId fieldName (idA, a)))) ∧
      s.modifyRow diffs idB rowId [(fieldName, .primitive b)] =
        some (sB, .ok (.applied (registerSet rowId fieldName (idB, b)))) ∧
      sA.applySchemaOperation (registerSet rowId fieldName (idB, b)) = some (.ok s₁) ∧
      sB.applySchemaOperation (registerSet rowId fieldName (idA, a)) = some (.ok s₂) ∧
      s₁.getValue rowId fieldName = some (some (.primitive b)) ∧
      s₂.getValue rowId fieldName = some (some (.primitive a)) := by
  obtain ⟨sA, hA, hrA⟩ := h.modifyRow_registerSet hlive hschema diffs idA ha
  obtain ⟨sB, hB, hrB⟩ := h.modifyRow_registerSet hlive hschema diffs idB hb
  obtain ⟨s₁, h₁, hr₁⟩ := hrA.applySchemaOperation_fieldUpdate (idB, .totalOrderRegisterSet b) rfl
  obtain ⟨s₂, h₂, hr₂⟩ := hrB.applySchemaOperation_fieldUpdate (idA, .totalOrderRegisterSet a) rfl
  refine ⟨sA, sB, s₁, s₂, hA, hB, h₁, h₂, ?_, ?_⟩
  · simp [hr₁.getValue, InMemoryFieldState.projectValue]
  · simp [hr₂.getValue, InMemoryFieldState.projectValue]

end Register

section Counter

variable {s : InMemoryStateData R O V P G} {rowId : R} {fieldName : String}

/-- The increments of a counter of width `w`, `u8` or `u64` in the source. -/
def counterIncrements {w : ℕ} (mk : Fin (2 ^ w) → CounterValue) (rowId : R) (fieldName : String)
    (increments : List (O × Fin (2 ^ w))) : List (SchemaOperation R O V P G) :=
  increments.map fun increment =>
    fieldUpdate rowId fieldName (increment.1, .monotonicCounterIncrement (mk increment.2))

section Width

variable {w : ℕ} (mk : Fin (2 ^ w) → CounterValue)
  (hmk : ∀ c d, InMemoryFieldState.applyOperationValue
    (.monotonicCounter (mk c) : InMemoryFieldState O V P G) (.monotonicCounterIncrement (mk d)) =
      some (.ok (.monotonicCounter (mk (Checked.saturatingAdd c d)))))
include hmk

/-- A run of increments ends on the saturating additions of all of them. -/
theorem FieldAt.applySchemaOperations_counterIncrements {current : Fin (2 ^ w)}
    (h : s.FieldAt rowId fieldName (.monotonicCounter (mk current)))
    (increments : List (O × Fin (2 ^ w))) :
    ∃ s', s.applySchemaOperations (counterIncrements mk rowId fieldName increments) = some (.ok s') ∧
      s'.FieldAt rowId fieldName
        (.monotonicCounter (mk ((increments.map Prod.snd).foldl Checked.saturatingAdd current))) := by
  -- induction on the increments, with the counter's value as the invariant
  induction increments generalizing s current with
  | nil => exact ⟨s, rfl, h⟩
  | cons increment rest ih =>
    obtain ⟨s₁, happly, h₁⟩ :=
      h.applySchemaOperation_fieldUpdate (increment.1, .monotonicCounterIncrement (mk increment.2))
        (hmk current increment.2)
    obtain ⟨s', hrun, h'⟩ := ih h₁
    refine ⟨s', ?_, h'⟩
    simp only [counterIncrements, List.map_cons, InMemoryStateData.applySchemaOperations, happly]
    exact hrun

/-- A counter ends at its value plus all increments, saturated at the type's maximum,
whatever the order in which a replica applies them. -/
theorem FieldAt.counterIncrements_saturate {current : Fin (2 ^ w)}
    (h : s.FieldAt rowId fieldName (.monotonicCounter (mk current)))
    (increments : List (O × Fin (2 ^ w))) :
    ∃ (s' : InMemoryStateData R O V P G) (total : Fin (2 ^ w)),
      s.applySchemaOperations (counterIncrements mk rowId fieldName increments) = some (.ok s') ∧
      s'.getValue rowId fieldName = some (some (.counter (mk total))) ∧
      total.val = min (current.val + (increments.map fun i => i.2.val).sum) (2 ^ w - 1) := by
  obtain ⟨s', hrun, h'⟩ := h.applySchemaOperations_counterIncrements mk hmk increments
  refine ⟨s', (increments.map Prod.snd).foldl Checked.saturatingAdd current, hrun,
    by simp [h'.getValue, InMemoryFieldState.projectValue], ?_⟩
  rw [Checked.foldl_saturatingAdd_val, List.map_map]
  rfl

/-- Two replicas that apply the same increments in two orders agree on the counter. -/
theorem FieldAt.counterIncrements_converge {current : Fin (2 ^ w)}
    (h : s.FieldAt rowId fieldName (.monotonicCounter (mk current)))
    {increments₁ increments₂ : List (O × Fin (2 ^ w))} (hp : increments₁.Perm increments₂) :
    ∃ s₁ s₂,
      s.applySchemaOperations (counterIncrements mk rowId fieldName increments₁) = some (.ok s₁) ∧
      s.applySchemaOperations (counterIncrements mk rowId fieldName increments₂) = some (.ok s₂) ∧
      s₁.getValue rowId fieldName = s₂.getValue rowId fieldName := by
  obtain ⟨s₁, h₁, hr₁⟩ := h.applySchemaOperations_counterIncrements mk hmk increments₁
  obtain ⟨s₂, h₂, hr₂⟩ := h.applySchemaOperations_counterIncrements mk hmk increments₂
  have hfold : (increments₁.map Prod.snd).foldl Checked.saturatingAdd current =
      (increments₂.map Prod.snd).foldl Checked.saturatingAdd current :=
    (hp.map Prod.snd).foldl_eq'
      (fun x _ y _ z => Checked.saturatingAdd_right_comm z x y) current
  refine ⟨s₁, s₂, h₁, h₂, ?_⟩
  rw [hr₁.getValue, hr₂.getValue, hfold]

end Width

end Counter

end InMemoryStateData

/-- One ascending total-order register, without a default. -/
def levelSchema : List (Field ℕ ℕ Char) := [⟨"level", .totalOrderRegister .ascending, none⟩]

/-- A row inserted with level 0, and two replicas that raise it concurrently to 5
and to 3: applied after the insert in the two orders, the sets end on 3 and on 5,
where the documented register ends on 5 in both. -/
theorem concurrent_register_sets_diverge (diffs : LinearDiffs ℕ ℕ Char) :
    ∃ (s₀ sA sB s₁ s₂ : InMemoryStateData ℕ ℕ ℕ ℕ Char) (opInsert opA opB : SchemaOperation ℕ ℕ ℕ ℕ Char),
      (InMemoryStateData.new levelSchema).insertRow 0 7 [("level", .primitive 0)] =
        some (.ok (s₀, opInsert)) ∧
      s₀.modifyRow diffs 1 7 [("level", .primitive 5)] = some (sA, .ok (.applied opA)) ∧
      s₀.modifyRow diffs 2 7 [("level", .primitive 3)] = some (sB, .ok (.applied opB)) ∧
      (InMemoryStateData.new levelSchema).applySchemaOperations [opInsert, opA, opB] =
        some (.ok s₁) ∧
      (InMemoryStateData.new levelSchema).applySchemaOperations [opInsert, opB, opA] =
        some (.ok s₂) ∧
      s₁.getValue 7 "level" = some (some (.primitive 3)) ∧
      s₂.getValue 7 "level" = some (some (.primitive 5)) :=
  ⟨_, _, _, _, _, _, _, _, by exact rfl, by exact rfl, by exact rfl, by exact rfl, by exact rfl,
    by exact rfl, by exact rfl⟩

end Flotsync.Schema
