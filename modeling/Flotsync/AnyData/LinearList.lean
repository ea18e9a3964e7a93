import Flotsync.LinearData.Edits
import Flotsync.Lib.Simulation

/-!
`LinearList`: a list of values over `VecCoalescedLinearData`, whose nodes hold chunks of
the list. Its positional calls (`insert_at`, `delete_at`) and the operations it builds
for replication (`insert_operation_at`, `append_operation`, `prepend_operation`,
`delete_operation_at`, applied by `apply_operation`) are meant to edit the list of
visible values as a `Vec` is edited; that is proved here of every sound state.
-/

set_option autoImplicit false

namespace Flotsync

namespace LinearData

variable {Id E : Type}

section Insert

variable [LinearOrder Id]

/-- `LinearData::insert` of the coalesced data: the insert operation, which on failure
gives back the value of the refused operation. -/
def VecCoalescedLinearData.insert (s : VecCoalescedLinearData Id E) (id pred succ : IdWithIndex Id)
    (value : List E) : Option (Except (List E) (VecCoalescedLinearData Id E)) :=
  match s.applyOperation (.insert id pred succ value) with
  | none => none
  | some (.ok s') => some (.ok s')
  | some (.error (.insert _ _ _ value)) => some (.error value)
  -- `apply_operation` gives back the operation it was given: marked unreachable
  | some (.error (.delete _ _)) => none

/-- `LinkIds::insert`: insert `id ↦ value` between the two ids of the link. -/
def LinkIds.insert (ids : LinkIds (IdWithIndex Id)) (data : VecCoalescedLinearData Id E)
    (id : IdWithIndex Id) (value : List E) : Option (Except (List E) (VecCoalescedLinearData Id E)) :=
  data.insert id ids.predecessor ids.successor value

end Insert

end LinearData

namespace AnyData

open LinearData

structure LinearList (Id T : Type) where
  data : VecCoalescedLinearData Id T
deriving DecidableEq, Repr

/-- An operation of a list for replication: its values are the chunks of the list. -/
structure ListOperation (Id T : Type) where
  op : DataOperation (IdWithIndex Id) (List T)
deriving DecidableEq, Repr

namespace LinearList

variable {Id T : Type}

def new (initialId : Id) : LinearList Id T := ⟨VecCoalescedLinearData.new initialId⟩

def withValues (initialValues : List T) (initialId : Id) : Option (LinearList Id T) :=
  (VecCoalescedLinearData.withValue initialId initialValues).map LinearList.mk

def len (l : LinearList Id T) : ℕ := l.data.len

def isEmpty (l : LinearList Id T) : Bool := l.data.isEmpty

/-- The visible values in order; `none` where the iterator would panic. -/
def iter (l : LinearList Id T) : Option (List T) := l.data.iterValues

variable [LinearOrder Id]

/-- The link an insert at `position` goes to, as `insert_at` and `insert_operation_at` both
choose it: before the end node for the position after the last value, before the value
at the position otherwise, and none past the end. -/
def linkIdsAt (l : LinearList Id T) (position : ℕ) : Option (Option (LinkIds (IdWithIndex Id))) :=
  if position = l.len then l.data.idsBeforeEnd.map some
  else (l.data.idsAtPos position).map (Option.map NodeIds.before)

/-- `insert_at`: an empty chunk is no change, and a position past the end gives the
chunk back. -/
def insertAt (l : LinearList Id T) (position : ℕ) (id : IdWithIndex Id) (values : List T) :
    Option (Except (List T) (LinearList Id T)) := do
  if values.isEmpty then return .ok l
  if !id.canAddress values.length then none
  match ← l.linkIdsAt position with
  | none => return .error values
  | some ids => (ids.insert l.data id values).map (Except.map LinearList.mk)

def insertItemAt (l : LinearList Id T) (position : ℕ) (id : IdWithIndex Id) (value : T) :
    Option (Except T (LinearList Id T)) := do
  match ← l.insertAt position id [value] with
  | .ok l' => return .ok l'
  | .error values =>
    match values.head? with
    | some value => return .error value
    | none => none

/-- `delete_at`: the value removed, or none for a position past the end. -/
def deleteAt (l : LinearList Id T) (position : ℕ) : Option (Option (T × LinearList Id T)) := do
  match ← l.data.idsAtPos position with
  | none => return none
  | some nodeIds =>
    let removed ← l.data.delete nodeIds.current
    return removed.map fun r => (r.1, ⟨r.2⟩)

def appendOperation (l : LinearList Id T) (id : IdWithIndex Id) (values : List T) :
    Option (Option (ListOperation Id T)) := do
  if values.isEmpty then return none
  if !id.canAddress values.length then none
  let ids ← l.data.idsBeforeEnd
  return some ⟨ids.insertOperation id values⟩

def prependOperation (l : LinearList Id T) (id : IdWithIndex Id) (values : List T) :
    Option (Option (ListOperation Id T)) := do
  if values.isEmpty then return none
  if !id.canAddress values.length then none
  let ids ← l.data.idsAfterHead
  return some ⟨ids.insertOperation id values⟩

def insertOperationAt (l : LinearList Id T) (position : ℕ) (id : IdWithIndex Id) (values : List T) :
    Option (Except (List T) (Option (ListOperation Id T))) := do
  if values.isEmpty then return .ok none
  if !id.canAddress values.length then none
  match ← l.linkIdsAt position with
  | none => return .error values
  | some ids => return .ok (some ⟨ids.insertOperation id values⟩)

def deleteOperationAt (l : LinearList Id T) (position : ℕ) : Option (Option (ListOperation Id T)) := do
  match ← l.data.idsAtPos position with
  | none => return none
  | some nodeIds => return some ⟨.delete nodeIds.current none⟩

def applyOperation (l : LinearList Id T) (operation : ListOperation Id T) :
    Option (Except (ListOperation Id T) (LinearList Id T)) :=
  (l.data.applyOperation operation.op).map fun r => (r.mapError ListOperation.mk).map LinearList.mk

section Refinement

open VecCoalescedLinearData Node

variable {l : LinearList Id T} {xs : List T}

omit [LinearOrder Id] in
theorem iter_eq_some_iff :
    l.iter = some xs ↔ Shows l.data.base.nodes ∧ xs = l.data.base.nodes.flatMap shown :=
  collectValues_eq_some_iff

/-- At every position up to the end, applying an insert at the link `insert_at` chooses
splices the chunk into the visible values at that position. -/
theorem applyOperation_linkIdsAt (hs : l.data.Sound) (hxs : l.iter = some xs) {p : ℕ}
    (hp : p ≤ xs.length) {id : IdWithIndex Id} {vs : List T}
    (hid : id.canAddress vs.length = true) (hne : vs ≠ []) :
    ∃ ids data, l.linkIdsAt p = some (some ids) ∧
      l.data.applyOperation (.insert id ids.predecessor ids.successor vs) = some (.ok data) ∧
      data.iterValues = some (xs.take p ++ vs ++ xs.drop p) := by
  obtain ⟨hshows, rfl⟩ := iter_eq_some_iff.1 hxs
  have hlen : l.len = (l.data.base.nodes.flatMap shown).length := hs.inv.len_eq_length
  rcases Nat.lt_or_eq_of_le hp with hlt | rfl
  · -- a value at the position: the link before it
    obtain ⟨k, node, value, o, hk, hop, ho, rfl, pred, succ, hids, hpred⟩ :=
      hs.idsAtPos_of_lt hshows hlt
    have hlink : l.linkIdsAt (((l.data.base.nodes.take k).flatMap shown).length + o) =
        some (some ⟨pred, ⟨node.id.id, node.id.index + o⟩⟩) := by
      rw [linkIdsAt, if_neg (by rw [hlen]; exact hlt.ne), hids]
      rfl
    obtain ⟨pred', hpred', hpos, hzero⟩ := hs.inv.predecessorId_eq hk hop o
    obtain rfl : pred = pred' := Option.some.inj (hpred.symm.trans hpred')
    rcases Nat.eq_zero_or_pos o with rfl | h0
    · -- the first value of a run: between the node before it and the run
      obtain ⟨left, hleft, rfl, hk0⟩ := hzero rfl
      obtain ⟨data, happ, hiter⟩ :=
        hs.inv.applyOperation_insert_before hshows hleft hk hk0 hid hne
      exact ⟨_, data, hlink, happ, by simpa using hiter⟩
    · -- inside a run: between two of its values
      obtain rfl := hpos h0
      obtain ⟨data, happ, hiter⟩ :=
        hs.applyOperation_insert_inside_values hshows hk hop h0 ho hid hne
      exact ⟨_, data, hlink, happ, hiter⟩
  · -- the end: before the end node, which shows nothing
    obtain ⟨last, endNode, hlast, hend, hshown, hids⟩ := hs.inv.idsBeforeEnd_eq
    have h2 := hs.inv.two_le_length
    have hlink : l.linkIdsAt (l.data.base.nodes.flatMap shown).length =
        some (some ⟨last.lastId, endNode.id⟩) := by
      simp [linkIdsAt, hlen, hids]
    have hall : (l.data.base.nodes.take (l.data.base.nodes.length - 1)).flatMap shown =
        l.data.base.nodes.flatMap shown := by
      conv_rhs => rw [Checked.eq_take_cons_drop hend]
      rw [List.drop_of_length_le (by omega)]
      simp [hshown]
    obtain ⟨data, happ, hiter⟩ :=
      hs.inv.applyOperation_insert_before hshows hlast hend (by omega) hid hne
    rw [hall] at hiter
    exact ⟨_, data, hlink, happ, hiter⟩

/-- `insert_at` splices a non-empty chunk on fresh ids into the visible values at any
position up to the end, and applying the operation `insert_operation_at` builds does the
same; past the end both give the chunk back. The list stays sound. -/
theorem insert_at_splices_chunk_into_values (hs : l.data.Sound) (hxs : l.iter = some xs)
    {id : IdWithIndex Id} {vs : List T} (hfresh : l.data.Fresh id vs.length)
    (hid : id.canAddress vs.length = true) (hne : vs ≠ []) (p : ℕ) :
    (p ≤ xs.length → ∃ l' op, l.insertAt p id vs = some (.ok l') ∧
        l.insertOperationAt p id vs = some (.ok (some op)) ∧
        l.applyOperation op = some (.ok l') ∧
        l'.iter = some (xs.take p ++ vs ++ xs.drop p) ∧ l'.data.Sound) ∧
      (xs.length < p → l.insertAt p id vs = some (.error vs) ∧
        l.insertOperationAt p id vs = some (.error vs)) := by
  have hempty : vs.isEmpty = false := by simpa using hne
  constructor
  · intro hp
    obtain ⟨ids, data, hlink, happ, hiter⟩ := applyOperation_linkIdsAt hs hxs hp hid hne
    refine ⟨⟨data⟩, ⟨ids.insertOperation id vs⟩, ?_, ?_, ?_, hiter,
      hs.applyOperation_insert hfresh hid hne happ⟩
    · simp [insertAt, hempty, hid, hlink, LinkIds.insert, VecCoalescedLinearData.insert, happ,
        Except.map]
    · simp [insertOperationAt, hempty, hid, hlink]
    · simp [LinearList.applyOperation, LinkIds.insertOperation, happ, Except.map]
  · intro hp
    obtain ⟨-, rfl⟩ := iter_eq_some_iff.1 hxs
    have hlink : l.linkIdsAt p = some none := by
      rw [linkIdsAt, if_neg (by rw [len, hs.inv.len_eq_length]; omega),
        hs.inv.idsAtPos_of_le hp.le]
      rfl
    exact ⟨by simp [insertAt, hempty, hid, hlink], by simp [insertOperationAt, hempty, hid, hlink]⟩

/-- Two values put in after the first of three. -/
theorem insert_at_after_the_first_of_three :
    ∃ l : LinearList ℕ ℕ, withValues [1, 2, 3] 0 = some l ∧
      ∃ l' op, l.insertAt 1 ⟨1, 0⟩ [7, 8] = some (.ok l') ∧
        l.insertOperationAt 1 ⟨1, 0⟩ [7, 8] = some (.ok (some op)) ∧
        l.applyOperation op = some (.ok l') ∧ l'.iter = some [1, 7, 8, 2, 3] ∧ l'.data.Sound := by
  obtain ⟨data, hdata⟩ : ∃ data, VecCoalescedLinearData.withValue 0 [1, 2, 3] = some data :=
    ⟨_, rfl⟩
  obtain ⟨hs, hU, hxs⟩ := withValue_spec hdata
  have hfresh : data.Fresh ⟨1, 0⟩ [7, 8].length :=
    (hU.mono fun x hx => List.mem_singleton.2 hx).fresh (by decide) 2
  obtain ⟨hin, -⟩ := insert_at_splices_chunk_into_values (l := ⟨data⟩) hs hxs hfresh (by decide)
    (by simp) 1
  exact ⟨⟨data⟩, by simp [withValues, hdata], hin (by decide)⟩

/-- `delete_at` removes the visible value at any position before the end and returns it,
and applying the operation `delete_operation_at` builds does the same; past the end both
give nothing and change nothing. The list stays sound. -/
theorem delete_at_removes_value (hs : l.data.Sound) (hxs : l.iter = some xs) (p : ℕ) :
    (∀ x, xs[p]? = some x → ∃ l' op, l.deleteAt p = some (some (x, l')) ∧
        l.deleteOperationAt p = some (some op) ∧ l.applyOperation op = some (.ok l') ∧
        l'.iter = some (xs.eraseIdx p) ∧ l'.data.Sound) ∧
      (xs.length ≤ p → l.deleteAt p = some none ∧ l.deleteOperationAt p = some none) := by
  obtain ⟨hshows, rfl⟩ := iter_eq_some_iff.1 hxs
  constructor
  · intro x hx
    obtain ⟨k, node, value, o, hk, hop, ho, rfl, pred, succ, hids, -⟩ :=
      hs.idsAtPos_of_lt hshows (List.getElem?_eq_some_iff.1 hx).1
    obtain ⟨data, hdel, hiter, hget⟩ := hs.inv.delete_values hshows hk hop ho
    obtain rfl : x = value[o] := Option.some.inj (hx.symm.trans hget)
    refine ⟨⟨data⟩, ⟨.delete ⟨node.id.id, node.id.index + o⟩ none⟩, ?_, ?_, ?_, hiter,
      hs.delete hdel⟩
    · simp only [deleteAt, hids]
      simp [hdel]
    · simp only [deleteOperationAt, hids]
      rfl
    · simp [LinearList.applyOperation, VecCoalescedLinearData.applyOperation, hdel, Except.map]
  · intro hp
    have hids := hs.inv.idsAtPos_of_le hp
    exact ⟨by simp [deleteAt, hids], by simp [deleteOperationAt, hids]⟩

/-- The middle one of three values removed. -/
theorem delete_at_the_middle_of_three :
    ∃ l : LinearList ℕ ℕ, withValues [1, 2, 3] 0 = some l ∧
      ∃ l' op, l.deleteAt 1 = some (some (2, l')) ∧ l.deleteOperationAt 1 = some (some op) ∧
        l.applyOperation op = some (.ok l') ∧ l'.iter = some [1, 3] ∧ l'.data.Sound := by
  obtain ⟨data, hdata⟩ : ∃ data, VecCoalescedLinearData.withValue 0 [1, 2, 3] = some data :=
    ⟨_, rfl⟩
  obtain ⟨hs, -, hxs⟩ := withValue_spec hdata
  obtain ⟨hin, -⟩ := delete_at_removes_value (l := ⟨data⟩) hs hxs 1
  exact ⟨⟨data⟩, by simp [withValues, hdata], hin 2 rfl⟩

/-- Applying the operation `append_operation` builds adds a non-empty chunk after the
visible values, and the one `prepend_operation` builds adds it before them. -/
theorem append_and_prepend_operations_add_at_the_ends (hs : l.data.Sound)
    (hxs : l.iter = some xs) {id : IdWithIndex Id} {vs : List T}
    (hid : id.canAddress vs.length = true) (hne : vs ≠ []) :
    (∃ op l', l.appendOperation id vs = some (some op) ∧ l.applyOperation op = some (.ok l') ∧
        l'.iter = some (xs ++ vs)) ∧
      (∃ op l', l.prependOperation id vs = some (some op) ∧ l.applyOperation op = some (.ok l') ∧
        l'.iter = some (vs ++ xs)) := by
  have hempty : vs.isEmpty = false := by simpa using hne
  constructor
  · -- the link before the end, which `insert_at` takes at the length
    obtain ⟨ids, data, hlink, happ, hiter⟩ := applyOperation_linkIdsAt hs hxs le_rfl hid hne
    have hlen : xs.length = l.len := by
      obtain ⟨-, rfl⟩ := iter_eq_some_iff.1 hxs
      exact hs.inv.len_eq_length.symm
    have hend : l.data.idsBeforeEnd = some ids := by
      rw [linkIdsAt, if_pos hlen] at hlink
      exact Option.map_injective (Option.some_injective _) (hlink.trans (Option.map_some ..).symm)
    refine ⟨⟨ids.insertOperation id vs⟩, ⟨data⟩, ?_, ?_, by simpa [iter] using hiter⟩
    · simp [appendOperation, hempty, hid, hend]
    · simp [LinearList.applyOperation, LinkIds.insertOperation, happ, Except.map]
  · -- the link after the beginning node, which shows nothing
    obtain ⟨hshows, rfl⟩ := iter_eq_some_iff.1 hxs
    obtain ⟨head, next, hhead, hnext, hshown, hids⟩ := hs.inv.idsAfterHead_eq
    obtain ⟨data, happ, hiter⟩ :=
      hs.inv.applyOperation_insert_before hshows hhead hnext Nat.one_pos hid hne
    have hzero : ((l.data.base.nodes.take 1).flatMap shown).length = 0 := by
      rw [List.take_one, List.head?_eq_getElem?, hhead]
      simp [hshown]
    rw [hzero] at hiter
    refine ⟨⟨LinkIds.insertOperation ⟨head.lastId, next.id⟩ id vs⟩, ⟨data⟩, ?_, ?_, by simpa [iter] using hiter⟩
    · simp [prependOperation, hempty, hid, hids]
    · simp [LinearList.applyOperation, LinkIds.insertOperation, happ, Except.map]

/-- A value put in after three and before them. -/
theorem append_and_prepend_operations_on_three_values :
    ∃ l : LinearList ℕ ℕ, withValues [1, 2, 3] 0 = some l ∧
      (∃ op l', l.appendOperation ⟨1, 0⟩ [7] = some (some op) ∧
          l.applyOperation op = some (.ok l') ∧ l'.iter = some [1, 2, 3, 7]) ∧
        (∃ op l', l.prependOperation ⟨1, 0⟩ [7] = some (some op) ∧
          l.applyOperation op = some (.ok l') ∧ l'.iter = some [7, 1, 2, 3]) := by
  obtain ⟨data, hdata⟩ : ∃ data, VecCoalescedLinearData.withValue 0 [1, 2, 3] = some data :=
    ⟨_, rfl⟩
  obtain ⟨hs, -, hxs⟩ := withValue_spec hdata
  exact ⟨⟨data⟩, by simp [withValues, hdata],
    append_and_prepend_operations_add_at_the_ends (l := ⟨data⟩) hs hxs (by decide) (by simp)⟩

/-- A successful `insert_at` changed nothing or applied an insert of its chunk. -/
theorem insertAt_eq_ok {l l' : LinearList Id T} {p : ℕ} {id : IdWithIndex Id} {vs : List T}
    (h : l.insertAt p id vs = some (.ok l')) :
    l' = l ∨ ∃ pred succ, l.data.applyOperation (.insert id pred succ vs) = some (.ok l'.data) := by
  simp only [insertAt] at h
  split at h
  · simp at h
    exact .inl h.symm
  split at h
  · cases h
  obtain ⟨ids, hlink, h⟩ := Option.bind_eq_some_iff.1 h
  cases ids with
  | none => cases h
  | some ids =>
    obtain ⟨r, hr, h⟩ := Option.map_eq_some_iff.1 h
    simp only [LinkIds.insert, VecCoalescedLinearData.insert] at hr
    split at hr
    · cases hr
    · cases hr
      cases h
      exact .inr ⟨ids.predecessor, ids.successor, by assumption⟩
    · cases hr
      cases h
    · cases hr

/-- A `delete_at` that removed a value deleted one id of the data. -/
theorem deleteAt_eq_some {l l' : LinearList Id T} {p : ℕ} {x : T}
    (h : l.deleteAt p = some (some (x, l'))) :
    ∃ id, l.data.delete id = some (some (x, l'.data)) := by
  simp only [deleteAt] at h
  obtain ⟨ids, hids, h⟩ := Option.bind_eq_some_iff.1 h
  cases ids with
  | none => cases h
  | some nodeIds =>
    obtain ⟨removed, hdel, h⟩ := Option.bind_eq_some_iff.1 h
    cases removed with
    | none => cases h
    | some r =>
      cases h
      exact ⟨nodeIds.current, hdel⟩

end Refinement

/-- A call of the positional API of a list. -/
inductive Edit (Id T : Type) where
  | insertAt (position : ℕ) (id : IdWithIndex Id) (values : List T)
  | deleteAt (position : ℕ)
deriving DecidableEq, Repr

/-- What a call answers: `insert_at`'s result, or the value `delete_at` removed. -/
inductive Answer (T : Type) where
  | inserted (result : Except (List T) Unit)
  | deleted (value : Option T)
deriving DecidableEq, Repr

namespace Edit

/-- The base id of the values an insert adds. -/
def baseId : Edit Id T → Option Id
  | .insertAt _ id _ => some id.id
  | .deleteAt _ => none

/-- Whether an insert's id can address its values, which `insert_at` asserts. -/
def addressable : Edit Id T → Bool
  | .insertAt _ id values => id.canAddress values.length
  | .deleteAt _ => true

/-- What a `Vec` does with the call: the list that the positional API stands for. -/
def onVec : Edit Id T → List T → List T × Answer T
  | .insertAt position _ values, xs =>
    if position ≤ xs.length then (xs.take position ++ values ++ xs.drop position, .inserted (.ok ()))
    else if values.isEmpty then (xs, .inserted (.ok ()))
    else (xs, .inserted (.error values))
  | .deleteAt position, xs => (xs.eraseIdx position, .deleted xs[position]?)

end Edit

/-- One call on the list; a call that fails leaves it as it is. -/
def edit (l : LinearList Id T) : Edit Id T → Option (LinearList Id T × Answer T)
  | .insertAt position id values => (l.insertAt position id values).map fun r =>
    match r with
    | .ok l' => (l', .inserted (.ok ()))
    | .error values => (l, .inserted (.error values))
  | .deleteAt position => (l.deleteAt position).map fun r =>
    match r with
    | some (value, l') => (l', .deleted (some value))
    | none => (l, .deleted none)

/-- Calls one after another, with their answers. -/
def runEdits (l : LinearList Id T) : List (Edit Id T) → Option (LinearList Id T × List (Answer T))
  | [] => some (l, [])
  | e :: edits => do
    let r ← l.edit e
    let rest ← r.1.runEdits edits
    return (rest.1, r.2 :: rest.2)

section Runs

open VecCoalescedLinearData

variable {l : LinearList Id T} {xs : List T}

/-- One call on a sound list with fresh ids answers as a `Vec` does and leaves the list
that the `Vec` holds; the ids the call adds are on its own base id. -/
theorem edit_tracks_vec {U : List Id} (hs : l.data.Sound) (hU : HeldIds (·.id ∈ U) l.data)
    (hxs : l.iter = some xs) {e : Edit Id T} (hfresh : ∀ b, e.baseId = some b → b ∉ U)
    (haddr : e.addressable = true) :
    ∃ l', l.edit e = some (l', (e.onVec xs).2) ∧ l'.data.Sound ∧
      HeldIds (·.id ∈ e.baseId.toList ++ U) l'.data ∧ l'.iter = some (e.onVec xs).1 := by
  cases e with
  | insertAt p id vs =>
    have hU' : HeldIds (·.id ∈ id.id :: U) l.data := hU.mono fun x hx => List.mem_cons_of_mem _ hx
    by_cases hvs : vs = []
    · -- an empty chunk changes nothing, at any position
      subst hvs
      refine ⟨l, ?_, hs, hU', ?_⟩
      · by_cases hp : p ≤ xs.length <;> simp [edit, insertAt, Edit.onVec, hp]
      · by_cases hp : p ≤ xs.length <;> simp [Edit.onVec, hp, hxs]
    · have hfr : l.data.Fresh id vs.length := hU.fresh (hfresh id.id rfl) vs.length
      obtain ⟨hin, hout⟩ := insert_at_splices_chunk_into_values hs hxs hfr haddr hvs p
      by_cases hp : p ≤ xs.length
      · obtain ⟨l', -, hins, -, -, hiter, hs'⟩ := hin hp
        -- the inserted node holds ids of the call's base id
        have hU'' : HeldIds (·.id ∈ id.id :: U) l'.data := by
          rcases insertAt_eq_ok hins with rfl | ⟨pred, succ, happ⟩
          · exact hU'
          · exact hU'.applyOperation_insert happ fun k _ => List.mem_cons_self
        exact ⟨l', by simp [edit, hins, Edit.onVec, hp], hs', hU'', by simpa [Edit.onVec, hp] using hiter⟩
      · obtain ⟨hins, -⟩ := hout (by omega)
        have hne : vs.isEmpty = false := by simpa using hvs
        exact ⟨l, by simp [edit, hins, Edit.onVec, hp, hne], hs, hU',
          by simpa [Edit.onVec, hp, hne] using hxs⟩
  | deleteAt p =>
    obtain ⟨hin, hout⟩ := delete_at_removes_value hs hxs p
    cases hx : xs[p]? with
    | none =>
      have hp : xs.length ≤ p := List.getElem?_eq_none_iff.1 hx
      obtain ⟨hdel, -⟩ := hout hp
      exact ⟨l, by simp [edit, hdel, Edit.onVec, hx], hs, by simpa [Edit.baseId] using hU,
        by simpa [Edit.onVec, List.eraseIdx_of_length_le hp] using hxs⟩
    | some x =>
      obtain ⟨l', -, hdel, -, -, hiter, hs'⟩ := hin x hx
      obtain ⟨id, hdel'⟩ := deleteAt_eq_some hdel
      exact ⟨l', by simp [edit, hdel, Edit.onVec, hx], hs', by simpa [Edit.baseId] using hU.delete hdel',
        by simpa [Edit.onVec] using hiter⟩

/-- A run of calls on fresh base ids answers, call by call, as a `Vec` does and ends on the
list the `Vec` ends on. -/
theorem runEdits_tracks_vec {U : List Id} (edits : List (Edit Id T)) (hs : l.data.Sound)
    (hU : HeldIds (·.id ∈ U) l.data) (hxs : l.iter = some xs)
    (hnodup : (edits.filterMap Edit.baseId).Nodup)
    (hfresh : ∀ b ∈ edits.filterMap Edit.baseId, b ∉ U)
    (haddr : ∀ e ∈ edits, e.addressable = true) :
    ∃ l', l.runEdits edits = some (l', (Simulation.run (fun xs e => e.onVec xs) xs edits).2) ∧
      l'.iter = some (Simulation.run (fun xs e => e.onVec xs) xs edits).1 := by
  induction edits generalizing l xs U with
  | nil => exact ⟨l, rfl, hxs⟩
  | cons e edits ih =>
    have hfe : ∀ b, e.baseId = some b → b ∉ U := fun b hb =>
      hfresh b (List.mem_filterMap.2 ⟨e, List.mem_cons_self, hb⟩)
    obtain ⟨l', hedit, hs', hU', hxs'⟩ := edit_tracks_vec hs hU hxs hfe (haddr e List.mem_cons_self)
    -- the rest of the run: its base ids differ from this call's and from the earlier ones
    have hnodup' : (edits.filterMap Edit.baseId).Nodup := by
      cases hc : e.baseId with
      | none => rwa [List.filterMap_cons_none hc] at hnodup
      | some b => exact (List.nodup_cons.1 (by rwa [List.filterMap_cons_some hc] at hnodup)).2
    have hfresh' : ∀ b ∈ edits.filterMap Edit.baseId, b ∉ e.baseId.toList ++ U := by
      intro b hb hmem
      rcases List.mem_append.1 hmem with hb' | hb'
      · -- this call's base id again
        have hc : e.baseId = some b := by simpa using hb'
        rw [List.filterMap_cons_some hc] at hnodup
        exact (List.nodup_cons.1 hnodup).1 hb
      · obtain ⟨e', he', hbe⟩ := List.mem_filterMap.1 hb
        exact hfresh b (List.mem_filterMap.2 ⟨e', List.mem_cons_of_mem _ he', hbe⟩) hb'
    obtain ⟨l'', hrun, hiter⟩ :=
      ih hs' hU' hxs' hnodup' hfresh' fun e' he' => haddr e' (List.mem_cons_of_mem _ he')
    exact ⟨l'', by simp [runEdits, hedit, hrun, Simulation.run], hiter⟩

/-- From `with_values`, every run of `insert_at` and `delete_at` calls whose inserts take
distinct base ids, none of them the initial one, answers call by call as a `Vec` does and
ends on the `Vec`'s list: the positional API refines a `Vec`. -/
theorem positional_edits_track_a_vec {initialValues : List T} {initialId : Id}
    {l : LinearList Id T} (hl : withValues initialValues initialId = some l)
    (edits : List (Edit Id T)) (hids : (initialId :: edits.filterMap Edit.baseId).Nodup)
    (haddr : ∀ e ∈ edits, e.addressable = true) :
    ∃ l', l.runEdits edits =
        some (l', (Simulation.run (fun xs e => e.onVec xs) initialValues edits).2) ∧
      l'.iter = some (Simulation.run (fun xs e => e.onVec xs) initialValues edits).1 := by
  obtain ⟨data, hdata, rfl⟩ := Option.map_eq_some_iff.1 hl
  obtain ⟨hs, hU, hxs⟩ := withValue_spec hdata
  obtain ⟨hinit, hnodup⟩ := List.nodup_cons.1 hids
  refine runEdits_tracks_vec edits hs (hU.mono fun x hx => List.mem_singleton.2 hx) hxs hnodup
    (fun b hb hmem => hinit ?_) haddr
  rwa [← List.mem_singleton.1 hmem]

/-- Two values put in after the first of three, the first removed, and an insert past the
end given back. -/
theorem positional_edits_on_three_values :
    ∃ l : LinearList ℕ ℕ, withValues [1, 2, 3] 0 = some l ∧
      ∃ l', l.runEdits [.insertAt 1 ⟨1, 0⟩ [7, 8], .deleteAt 0, .insertAt 9 ⟨2, 0⟩ [5]] =
          some (l', [.inserted (.ok ()), .deleted (some 1), .inserted (.error [5])]) ∧
        l'.iter = some [7, 8, 2, 3] := by
  obtain ⟨l, hl⟩ : ∃ l : LinearList ℕ ℕ, withValues [1, 2, 3] 0 = some l := ⟨_, rfl⟩
  obtain ⟨l', hrun, hiter⟩ := positional_edits_track_a_vec hl
    [.insertAt 1 ⟨1, 0⟩ [7, 8], .deleteAt 0, .insertAt 9 ⟨2, 0⟩ [5]] (by decide) (by decide)
  exact ⟨l, hl, l', hrun, hiter⟩

end Runs

end LinearList

end AnyData

end Flotsync
