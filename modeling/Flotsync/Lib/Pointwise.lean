import Mathlib

/-!
The pointwise (product) order on lists of one length over a linear order, and
the pointwise maximum and minimum as its join and meet. Nothing here is specific
to one program: a vector of counters compared entry by entry is the intended use.
-/

set_option autoImplicit false

namespace Pointwise

open List

variable {α : Type*} [LinearOrder α]

theorem forall₂_le_refl (l : List α) : Forall₂ (· ≤ ·) l l :=
  forall₂_same.2 fun _ _ => le_rfl

theorem forall₂_le_antisymm : ∀ {l₁ l₂ : List α},
    Forall₂ (· ≤ ·) l₁ l₂ → Forall₂ (· ≤ ·) l₂ l₁ → l₁ = l₂
  | [], [], _, _ => rfl
  | _ :: _, _ :: _, .cons h hs, .cons h' hs' => by
    rw [le_antisymm h h',forall₂_le_antisymm hs hs']

theorem forall₂_le_trans : ∀ {l₁ l₂ l₃ : List α},
    Forall₂ (· ≤ ·) l₁ l₂ → Forall₂ (· ≤ ·) l₂ l₃ → Forall₂ (· ≤ ·) l₁ l₃
  | [], [], [], _, _ => .nil
  | _ :: _, _ :: _, _ :: _, .cons h hs, .cons h' hs' =>
    .cons (le_trans h h') (forall₂_le_trans hs hs')

theorem forall₂_swap_iff {β : Type*} {R : β → β → Prop} {l₁ l₂ : List β} :
    Forall₂ R l₂ l₁ ↔ Forall₂ (flip R) l₁ l₂ :=
  ⟨fun h => Forall₂.flip (R := flip R) h,fun h => Forall₂.flip h⟩

/-- Two lists of one length avoid the outcome `o` at every entry exactly when
`o` is not among their entry comparisons. -/
theorem forall₂_compare_ne_iff (o : Ordering) {l₁ l₂ : List α} (h : l₁.length = l₂.length) :
    Forall₂ (fun a b => compare a b ≠ o) l₁ l₂ ↔ o ∉ zipWith compare l₁ l₂ := by
  induction l₁ generalizing l₂ with
  | nil =>
    cases l₂ with
    | nil => simp
    | cons b l₂ => simp at h
  | cons a l₁ ih =>
    cases l₂ with
    | nil => simp at h
    | cons b l₂ =>
      have hl : l₁.length = l₂.length := by simpa using h
      simp only [forall₂_cons,zipWith_cons_cons,mem_cons,not_or,ih hl]
      constructor
      · rintro ⟨h₁,h₂⟩
        exact ⟨Ne.symm h₁,h₂⟩
      · rintro ⟨h₁,h₂⟩
        exact ⟨Ne.symm h₁,h₂⟩

/-- A list is below another exactly when no entry compares greater. -/
theorem forall₂_le_iff_gt_not_mem {l₁ l₂ : List α} (h : l₁.length = l₂.length) :
    Forall₂ (· ≤ ·) l₁ l₂ ↔ Ordering.gt ∉ zipWith compare l₁ l₂ := by
  rw [← forall₂_compare_ne_iff _ h]
  simp only [ne_eq,compare_gt_iff_gt,not_lt]

/-- A list is above another exactly when no entry compares smaller. -/
theorem forall₂_ge_iff_lt_not_mem {l₁ l₂ : List α} (h : l₁.length = l₂.length) :
    Forall₂ (· ≤ ·) l₂ l₁ ↔ Ordering.lt ∉ zipWith compare l₁ l₂ := by
  rw [forall₂_swap_iff,← forall₂_compare_ne_iff _ h]
  simp only [ne_eq,compare_lt_iff_lt,not_lt]
  rfl

theorem eq_iff_compare_eq (a b : α) :
    a = b ↔ Ordering.lt ≠ compare a b ∧ Ordering.gt ≠ compare a b := by
  rcases lt_trichotomy a b with hlt | heq | hgt
  · simp [hlt.ne,compare_lt_iff_lt.2 hlt]
  · simp [heq]
  · simp [hgt.ne',compare_gt_iff_gt.2 hgt]

theorem eq_iff_lt_gt_not_mem {l₁ l₂ : List α} (h : l₁.length = l₂.length) :
    l₁ = l₂ ↔ Ordering.lt ∉ zipWith compare l₁ l₂ ∧ Ordering.gt ∉ zipWith compare l₁ l₂ := by
  induction l₁ generalizing l₂ with
  | nil =>
    cases l₂ with
    | nil => simp
    | cons b l₂ => simp at h
  | cons a l₁ ih =>
    cases l₂ with
    | nil => simp at h
    | cons b l₂ =>
      have hl : l₁.length = l₂.length := by simpa using h
      simp only [cons.injEq,zipWith_cons_cons,mem_cons,not_or,ih hl,eq_iff_compare_eq a b]
      tauto

/-- Every comparison of two lists of one length is one of the three orderings. -/
theorem mem_zipWith_compare_of_ne_nil {l₁ l₂ : List α} (h : l₁.length = l₂.length)
    (hne : l₁ ≠ []) :
    Ordering.lt ∈ zipWith compare l₁ l₂ ∨ Ordering.eq ∈ zipWith compare l₁ l₂ ∨
      Ordering.gt ∈ zipWith compare l₁ l₂ := by
  obtain ⟨a,l₁,rfl⟩ := exists_cons_of_ne_nil hne
  obtain ⟨b,l₂,rfl⟩ := exists_cons_of_length_eq_add_one h.symm
  simp only [zipWith_cons_cons,mem_cons]
  cases compare a b <;> simp

theorem forall₂_map_range_iff {β : Type*} (R : β → β → Prop) (n : ℕ) (f g : ℕ → β) :
    Forall₂ R ((range n).map f) ((range n).map g) ↔ ∀ i < n, R (f i) (g i) := by
  rw [forall₂_iff_get]
  simp

theorem map_range_eq_iff {β : Type*} (n : ℕ) (f g : ℕ → β) :
    (range n).map f = (range n).map g ↔ ∀ i < n, f i = g i := by
  rw [← forall₂_eq_eq_eq,forall₂_map_range_iff]

/-- Raising one entry keeps a list pointwise below the result. -/
theorem forall₂_le_set : ∀ {l : List α} {p : ℕ} {x y : α}, l[p]? = some x → x ≤ y →
    Forall₂ (· ≤ ·) l (l.set p y)
  | [], _, _, _, hx, _ => by simp at hx
  | a :: l, 0, x, y, hx, hxy => by
    obtain rfl : a = x := by simpa using hx
    exact .cons hxy (forall₂_le_refl l)
  | a :: l, p + 1, _, _, hx, hxy => .cons le_rfl (forall₂_le_set (by simpa using hx) hxy)

/-- Lowering or keeping one entry of the smaller list keeps it below. -/
theorem forall₂_set_le : ∀ {l₁ l₂ : List α} {p : ℕ} {x y : α}, Forall₂ (· ≤ ·) l₁ l₂ →
    l₂[p]? = some y → x ≤ y → Forall₂ (· ≤ ·) (l₁.set p x) l₂
  | [], [], _, _, _, _, hy, _ => by simp at hy
  | _ :: _, b :: _, 0, _, y, .cons _ hs, hy, hxy => by
    obtain rfl : b = y := by simpa using hy
    exact .cons hxy hs
  | _ :: _, _ :: _, p + 1, _, _, .cons h hs, hy, hxy =>
    .cons h (forall₂_set_le hs (by simpa using hy) hxy)

/-- An entry of the left list has a related entry at its index in the right one. -/
theorem forall₂_exists_right {β : Type*} {R : β → β → Prop} : ∀ {l₁ l₂ : List β} {i : ℕ} {a : β},
    Forall₂ R l₁ l₂ → l₁[i]? = some a → ∃ b, l₂[i]? = some b ∧ R a b
  | [], [], _, _, _, ha => by simp at ha
  | _ :: _, b :: _, 0, _, .cons h _, ha => ⟨b,rfl,by simp only [getElem?_cons_zero,Option.some.injEq] at ha; exact ha ▸ h⟩
  | _ :: _, _ :: _, _ + 1, _, .cons _ hs, ha => by simpa using forall₂_exists_right hs (by simpa using ha)

/-- An entry of the right list has a related entry at its index in the left one. -/
theorem forall₂_exists_left {β : Type*} {R : β → β → Prop} {l₁ l₂ : List β} {i : ℕ} {b : β}
    (h : Forall₂ R l₁ l₂) (hb : l₂[i]? = some b) : ∃ a, l₁[i]? = some a ∧ R a b :=
  forall₂_exists_right (forall₂_swap_iff.1 h) hb

/-- Entries at one index of two related lists are related. -/
theorem forall₂_getElem? {β : Type*} {R : β → β → Prop} : ∀ {l₁ l₂ : List β} {i : ℕ} {a b : β},
    Forall₂ R l₁ l₂ → l₁[i]? = some a → l₂[i]? = some b → R a b
  | [], [], _, _, _, _, ha, _ => by simp at ha
  | _ :: _, _ :: _, 0, _, _, .cons h _, ha, hb => by
    simp only [getElem?_cons_zero,Option.some.injEq] at ha hb
    exact ha ▸ hb ▸ h
  | _ :: _, _ :: _, i + 1, _, _, .cons _ hs, ha, hb =>
    forall₂_getElem? hs (by simpa using ha) (by simpa using hb)

/-! ## Join and meet -/

theorem le_zipWith_max_left : ∀ {l₁ l₂ : List α}, l₁.length = l₂.length →
    Forall₂ (· ≤ ·) l₁ (zipWith max l₁ l₂)
  | [], [], _ => .nil
  | _ :: _, _ :: _, h => .cons (le_max_left _ _) (le_zipWith_max_left (by simpa using h))

theorem le_zipWith_max_right : ∀ {l₁ l₂ : List α}, l₁.length = l₂.length →
    Forall₂ (· ≤ ·) l₂ (zipWith max l₁ l₂)
  | [], [], _ => .nil
  | _ :: _, _ :: _, h => .cons (le_max_right _ _) (le_zipWith_max_right (by simpa using h))

theorem zipWith_max_le {l₁ l₂ l₃ : List α} (h₁ : Forall₂ (· ≤ ·) l₁ l₃)
    (h₂ : Forall₂ (· ≤ ·) l₂ l₃) : Forall₂ (· ≤ ·) (zipWith max l₁ l₂) l₃ := by
  induction h₁ generalizing l₂ with
  | nil =>
    cases h₂
    exact .nil
  | cons h _ ih =>
    cases h₂ with
    | cons h' hs' => exact .cons (max_le h h') (ih hs')

theorem zipWith_min_le_left : ∀ {l₁ l₂ : List α}, l₁.length = l₂.length →
    Forall₂ (· ≤ ·) (zipWith min l₁ l₂) l₁
  | [], [], _ => .nil
  | _ :: _, _ :: _, h => .cons (min_le_left _ _) (zipWith_min_le_left (by simpa using h))

theorem zipWith_min_le_right : ∀ {l₁ l₂ : List α}, l₁.length = l₂.length →
    Forall₂ (· ≤ ·) (zipWith min l₁ l₂) l₂
  | [], [], _ => .nil
  | _ :: _, _ :: _, h => .cons (min_le_right _ _) (zipWith_min_le_right (by simpa using h))

theorem le_zipWith_min {l₁ l₂ l₃ : List α} (h₁ : Forall₂ (· ≤ ·) l₃ l₁)
    (h₂ : Forall₂ (· ≤ ·) l₃ l₂) : Forall₂ (· ≤ ·) l₃ (zipWith min l₁ l₂) := by
  induction h₁ generalizing l₂ with
  | nil =>
    cases h₂
    exact .nil
  | cons h _ ih =>
    cases h₂ with
    | cons h' hs' => exact .cons (le_min h h') (ih hs')

theorem zipWith_assoc {β : Type*} {f : β → β → β}
    (hf : ∀ a b c, f (f a b) c = f a (f b c)) :
    ∀ l₁ l₂ l₃ : List β, zipWith f (zipWith f l₁ l₂) l₃ = zipWith f l₁ (zipWith f l₂ l₃)
  | [], _, _ => rfl
  | _ :: _, [], _ => rfl
  | _ :: _, _ :: _, [] => rfl
  | a :: l₁, b :: l₂, c :: l₃ => by
    simp only [zipWith_cons_cons,hf,zipWith_assoc hf l₁ l₂ l₃]

theorem zipWith_map_range {β γ : Type*} (f : β → β → γ) (n : ℕ) (g h : ℕ → β) :
    zipWith f ((range n).map g) ((range n).map h) = (range n).map fun i => f (g i) (h i) := by
  rw [zipWith_map,zipWith_self]

theorem zipWith_idem {β : Type*} {f : β → β → β} (hf : ∀ a, f a a = a) (l : List β) :
    zipWith f l l = l := by
  rw [zipWith_self]
  simp [hf]

end Pointwise
