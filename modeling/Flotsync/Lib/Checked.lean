import Mathlib

/-!
Indexed writes and inserts into a list that fail, instead of doing nothing,
when the index is out of range: the behaviour of a bounds-checked vector, whose
failure is a panic. A model returns `none` where the checked operation would
panic.
-/

set_option autoImplicit false

namespace Checked

variable {α : Type*}

/-- Overwrite the entry at `i`; fails when `i` is not below the length. -/
def set (l : List α) (i : ℕ) (a : α) : Option (List α) :=
  if i < l.length then some (l.set i a) else none

/-- Insert `a` so that it ends up at index `i`; fails when `i` is past the end. -/
def insert (l : List α) (i : ℕ) (a : α) : Option (List α) :=
  if i ≤ l.length then some (l.insertIdx i a) else none

@[simp] theorem set_of_lt {l : List α} {i : ℕ} (a : α) (h : i < l.length) :
    set l i a = some (l.set i a) := if_pos h

@[simp] theorem insert_of_le {l : List α} {i : ℕ} (a : α) (h : i ≤ l.length) :
    insert l i a = some (l.insertIdx i a) := if_pos h

/-- Subtract `b` from `a`; fails when the result would be negative, as an unsigned
subtraction with overflow checks does. -/
def sub (a b : ℕ) : Option ℕ :=
  if b ≤ a then some (a - b) else none

@[simp] theorem sub_of_le {a b : ℕ} (h : b ≤ a) : sub a b = some (a - b) := if_pos h

theorem sub_eq_some_iff {a b c : ℕ} : sub a b = some c ↔ b ≤ a ∧ c = a - b := by
  unfold sub
  split
  · simp_all [eq_comm]
  · simp only [reduceCtorEq, false_iff, not_and]
    omega

theorem set_eq_some_iff {l l' : List α} {i : ℕ} {a : α} :
    set l i a = some l' ↔ i < l.length ∧ l' = l.set i a := by
  unfold set
  split
  · simp_all [eq_comm]
  · simp only [reduceCtorEq, false_iff, not_and]
    omega

theorem insert_eq_some_iff {l l' : List α} {i : ℕ} {a : α} :
    insert l i a = some l' ↔ i ≤ l.length ∧ l' = l.insertIdx i a := by
  unfold insert
  split
  · simp_all [eq_comm]
  · simp only [reduceCtorEq, false_iff, not_and]
    omega

/-- Both arms of a conditional that continue alike: the continuation after the
conditional. -/
theorem ite_bind {β γ : Type} (c : Prop) [Decidable c] (x y : Option β) (f : β → Option γ) :
    (if c then x >>= f else y >>= f) = (if c then x else y) >>= f := by
  split <;> rfl

/-- A property that every step of a fallible fold keeps holds at its end. -/
theorem foldlM_induction {β γ : Type} {f : β → γ → Option β} (P : β → Prop)
    (hf : ∀ b c b', P b → f b c = some b' → P b') :
    ∀ (l : List γ) {b b' : β}, l.foldlM f b = some b' → P b → P b' := by
  intro l
  induction l with
  | nil =>
    intro b b' h hb
    cases h
    exact hb
  | cons c l ih =>
    intro b b' h hb
    rw [List.foldlM_cons] at h
    obtain ⟨b₁, h₁, h₂⟩ := Option.bind_eq_some_iff.1 h
    exact ih h₂ (hf b c b₁ hb h₁)

/-- `saturating_add` of `w`-bit unsigned integers: the sum, or the largest value
when the sum does not fit. -/
def saturatingAdd {w : ℕ} (a b : Fin (2 ^ w)) : Fin (2 ^ w) :=
  ⟨min (a.val + b.val) (2 ^ w - 1), by have := Nat.two_pow_pos w; omega⟩

@[simp] theorem saturatingAdd_val {w : ℕ} (a b : Fin (2 ^ w)) :
    (saturatingAdd a b).val = min (a.val + b.val) (2 ^ w - 1) := rfl

/-- Saturating additions to one value commute. -/
theorem saturatingAdd_right_comm {w : ℕ} (a b c : Fin (2 ^ w)) :
    saturatingAdd (saturatingAdd a b) c = saturatingAdd (saturatingAdd a c) b := by
  apply Fin.ext
  simp only [saturatingAdd_val]
  omega

/-- A run of saturating additions saturates the whole sum once. -/
theorem foldl_saturatingAdd_val {w : ℕ} (l : List (Fin (2 ^ w))) (a : Fin (2 ^ w)) :
    (l.foldl saturatingAdd a).val = min (a.val + (l.map Fin.val).sum) (2 ^ w - 1) := by
  induction l generalizing a with
  | nil =>
    have := a.isLt
    simp only [List.foldl_nil, List.map_nil, List.sum_nil]
    omega
  | cons b l ih =>
    rw [List.foldl_cons, ih, saturatingAdd_val, List.map_cons, List.sum_cons]
    omega

theorem set_eq_none_iff {l : List α} {i : ℕ} {a : α} : set l i a = none ↔ l.length ≤ i := by
  unfold set
  split <;> simp_all

theorem insert_eq_none_iff {l : List α} {i : ℕ} {a : α} :
    insert l i a = none ↔ l.length < i := by
  unfold insert
  split <;> simp_all

theorem replicate_set_eq_map_range (n p : ℕ) (g o : α) :
    (List.replicate n g).set p o = (List.range n).map (fun i => if i = p then o else g) := by
  apply List.ext_getElem
  · simp
  · intro i h₁ h₂
    simp only [List.getElem_set,List.getElem_replicate,List.getElem_map,List.getElem_range]
    by_cases hi : i = p
    · simp [hi]
    · simp [hi,Ne.symm hi]

/-- Overwriting the entry at `i` and inserting right after it changes the entries
as a multiset by exchanging the old entry for the two new ones. -/
theorem set_insertIdx_perm {l : List α} {i : ℕ} (h : i < l.length) (a b : α) :
    List.Perm ((l.set i a).insertIdx (i + 1) b) (b :: a :: l.eraseIdx i) := by
  have hl : i + 1 ≤ (l.set i a).length := by
    rw [List.length_set]
    exact h
  exact (List.perm_insertIdx b _ hl).trans (.cons b (List.set_perm_cons_eraseIdx h a))

theorem insertIdx_eq_take_drop {l : List α} {i : ℕ} (h : i ≤ l.length) (a : α) :
    l.insertIdx i a = l.take i ++ a :: l.drop i := by
  induction l generalizing i with
  | nil =>
    obtain rfl : i = 0 := by simpa using h
    simp
  | cons b l ih =>
    cases i with
    | zero => simp
    | succ i => simp [List.insertIdx_succ_cons, ih (by simpa using h)]

theorem insertIdx_append_length (l₁ l₂ : List α) (a : α) :
    (l₁ ++ l₂).insertIdx l₁.length a = l₁ ++ a :: l₂ := by
  rw [insertIdx_eq_take_drop (by simp)]
  simp

/-- Overwriting the entry at `i` and inserting right after it replaces that entry
by the two new ones. -/
theorem set_insertIdx_eq {l : List α} {i : ℕ} (h : i < l.length) (a b : α) :
    (l.set i a).insertIdx (i + 1) b = l.take i ++ a :: b :: l.drop (i + 1) := by
  have hl : i + 1 ≤ (l.set i a).length := by
    rw [List.length_set]
    exact h
  have hm : min i l.length = i := Nat.min_eq_left (Nat.le_of_lt h)
  rw [insertIdx_eq_take_drop hl, List.set_eq_take_append_cons_drop, if_pos h]
  have htake : (l.take i).take (i + 1) = l.take i := List.take_of_length_le (by rw [List.length_take]; omega)
  have hdrop : (l.take i).drop (i + 1) = [] := List.drop_of_length_le (by rw [List.length_take]; omega)
  simp [List.take_append, List.drop_append, hm, htake, hdrop]

/-- Inserting right after two entries that replaced the `i`-th puts three in its place. -/
theorem insertIdx_take_pair_drop {l : List α} {i : ℕ} (h : i < l.length) (a b c : α) :
    (l.take i ++ a :: b :: l.drop (i + 1)).insertIdx (i + 2) c =
      l.take i ++ a :: b :: c :: l.drop (i + 1) := by
  have hl : (l.take i ++ [a, b]).length = i + 2 := by
    simp only [List.length_append, List.length_take, List.length_cons, List.length_nil]
    omega
  have hins := insertIdx_append_length (l.take i ++ [a, b]) (l.drop (i + 1)) c
  rw [hl] at hins
  simpa using hins

theorem eq_take_cons_drop {l : List α} {i : ℕ} {a : α} (h : l[i]? = some a) :
    l = l.take i ++ a :: l.drop (i + 1) := by
  obtain ⟨hi, rfl⟩ := List.getElem?_eq_some_iff.1 h
  simp

/-- A map by a function that may fail succeeds when the function succeeds on every
entry. -/
theorem mapM_eq_some_map {β : Type*} {f : α → Option β} {g : α → β} :
    ∀ {l : List α}, (∀ a ∈ l, f a = some (g a)) → l.mapM f = some (l.map g)
  | [], _ => rfl
  | a :: l, h => by
    have htail := mapM_eq_some_map fun b hb => h b (List.mem_cons_of_mem a hb)
    rw [List.mapM_cons, h a List.mem_cons_self, htail]
    rfl

/-- Every result of a successful map comes from an entry. -/
theorem exists_mem_of_mapM_eq_some {β : Type*} {f : α → Option β} :
    ∀ {l : List α} {l' : List β}, l.mapM f = some l' → ∀ b ∈ l', ∃ a ∈ l, f a = some b
  | [], l', h, b, hb => by
    cases h
    simp at hb
  | a :: l, l', h, b, hb => by
    rw [List.mapM_cons] at h
    obtain ⟨c, hc, h⟩ := Option.bind_eq_some_iff.1 h
    obtain ⟨cs, hcs, h⟩ := Option.bind_eq_some_iff.1 h
    cases h
    rcases List.mem_cons.1 hb with rfl | hb
    · exact ⟨a, List.mem_cons_self, hc⟩
    · obtain ⟨a', ha', hfa'⟩ := exists_mem_of_mapM_eq_some hcs b hb
      exact ⟨a', List.mem_cons_of_mem a ha', hfa'⟩

/-- `filter` with a check that may fail: the entries it accepts, or a failure
when it fails on any entry. -/
def filter (p : α → Option Bool) : List α → Option (List α)
  | [] => some []
  | a :: l =>
    match p a with
    | none => none
    | some keep => (filter p l).map fun rest => if keep then a :: rest else rest

/-- `find` with a check that may fail: the first entry it accepts, or a failure
when it fails on an entry before that one. -/
def find (p : α → Option Bool) : List α → Option (Option α)
  | [] => some none
  | a :: l =>
    match p a with
    | none => none
    | some true => some (some a)
    | some false => find p l

theorem filter_eq_some_filter {p : α → Option Bool} {q : α → Bool} :
    ∀ {l : List α}, (∀ a ∈ l, p a = some (q a)) → filter p l = some (l.filter q)
  | [], _ => rfl
  | a :: l, h => by
    have htail := filter_eq_some_filter fun b hb => h b (List.mem_cons_of_mem a hb)
    rw [filter,h a List.mem_cons_self,htail,List.filter_cons]
    cases q a <;> rfl

theorem filter_map {β : Type*} (p : α → Option Bool) (f : β → α) :
    ∀ l : List β, filter p (l.map f) = (filter (p ∘ f) l).map (List.map f)
  | [] => rfl
  | b :: l => by
    rw [List.map_cons,filter,filter,Function.comp_apply]
    cases p (f b) with
    | none => rfl
    | some keep =>
      simp only [filter_map p f l,Option.map_map]
      cases keep <;> rfl

theorem find_eq_some_find? {p : α → Option Bool} {q : α → Bool} :
    ∀ {l : List α}, (∀ a ∈ l, p a = some (q a)) → find p l = some (l.find? q)
  | [], _ => rfl
  | a :: l, h => by
    have htail := find_eq_some_find? fun b hb => h b (List.mem_cons_of_mem a hb)
    rw [find,h a List.mem_cons_self,List.find?_cons]
    cases q a
    · exact htail
    · rfl

/-! A step in `Except` goes on with its value or stops with its error. -/

section Except

variable {ε ε' β γ : Type}

@[simp] theorem ok_bind (b : β) (f : β → Except ε γ) : ((Except.ok b : Except ε β) >>= f) = f b :=
  rfl

@[simp] theorem error_bind (e : ε) (f : β → Except ε γ) :
    ((Except.error e : Except ε β) >>= f) = .error e :=
  rfl

@[simp] theorem throw_eq (e : ε) : (throw e : Except ε β) = .error e := rfl

@[simp] theorem mapError_ok (b : β) (g : ε → ε') : (Except.ok b : Except ε β).mapError g = .ok b :=
  rfl

theorem bind_eq_ok {x : Except ε β} {f : β → Except ε γ} {c : γ} (h : (x >>= f) = .ok c) :
    ∃ b, x = .ok b ∧ f b = .ok c := by
  cases x with
  | error e => cases h
  | ok b => exact ⟨b, rfl, h⟩

theorem mapError_eq_ok {x : Except ε β} {g : ε → ε'} {b : β} (h : x.mapError g = .ok b) :
    x = .ok b := by
  cases x with
  | error e => cases h
  | ok b' => cases h; rfl

end Except

end Checked
