import Mathlib

/-!
Searching a list for a sub-list. `windows` is the standard library's `slice::windows`: the
runs of `size` consecutive elements, in order, and none when the list is shorter. The
position of the first window equal to a needle is the first index where the needle
starts. From that characterisation: a search of a prefix, a search that skips indices
where the needle cannot start, and the shortest prefix that ends with the needle.
-/

set_option autoImplicit false

namespace Subslice

open List

variable {α : Type*}

/-- `slice::windows`. -/
def windows (size : ℕ) (l : List α) : List (List α) :=
  (range (l.length + 1 - size)).map fun i => (l.drop i).take size

/-- `needle` starts at index `i` of `l`. -/
def StartsAt (needle l : List α) (i : ℕ) : Prop := needle <+: l.drop i

/-- `p` is the shortest prefix of `l` that ends with `needle`. -/
def ShortestPrefixEndingWith (needle l p : List α) : Prop :=
  p <+: l ∧ needle <:+ p ∧ ∀ q, q <+: l → needle <:+ q → p.length ≤ q.length

variable {needle l : List α} {i : ℕ}

theorem StartsAt.add_length_le (hne : needle ≠ []) (h : StartsAt needle l i) :
    i + needle.length ≤ l.length := by
  have := h.length_le
  have := length_pos_of_ne_nil hne
  simp only [length_drop] at *
  omega

theorem infix_iff_exists_startsAt : needle <:+: l ↔ ∃ i, StartsAt needle l i := by
  rw [infix_iff_prefix_suffix]
  constructor
  · rintro ⟨t,hp,hs⟩
    exact ⟨_,suffix_iff_eq_drop.1 hs ▸ hp⟩
  · rintro ⟨i,h⟩
    exact ⟨_,h,drop_suffix _ _⟩

/-- A start in a prefix is a start that ends within it. -/
theorem startsAt_take_iff (hne : needle ≠ []) {m : ℕ} :
    StartsAt needle (l.take m) i ↔ StartsAt needle l i ∧ i + needle.length ≤ m := by
  have := length_pos_of_ne_nil hne
  rw [StartsAt,StartsAt,drop_take,prefix_take_iff]
  constructor <;> rintro ⟨h₁,h₂⟩ <;> exact ⟨h₁,by omega⟩

/-- The prefixes that end with the needle are those that end where it starts and ends. -/
theorem prefix_and_suffix_iff {q : List α} :
    q <+: l ∧ needle <:+ q ↔ ∃ i, StartsAt needle l i ∧ q = l.take (i + needle.length) := by
  constructor
  · rintro ⟨⟨r,rfl⟩,⟨u,rfl⟩⟩
    refine ⟨u.length,by simp [StartsAt],?_⟩
    rw [take_left' (by simp)]
  · rintro ⟨i,hs,rfl⟩
    refine ⟨⟨_,take_append_drop _ _⟩,?_⟩
    rw [take_add,← prefix_iff_eq_take.1 hs]
    exact suffix_append _ _

/-! ### The search -/

section Search

variable [DecidableEq α]

/-- The first window equal to the needle is at the first index where the needle starts. -/
theorem findIdx?_windows_eq_some (hne : needle ≠ []) :
    (windows needle.length l).findIdx? (· == needle) = some i ↔
      StartsAt needle l i ∧ ∀ j < i, ¬ StartsAt needle l j := by
  have hw : ∀ k (hk : k < (windows needle.length l).length),
      ((windows needle.length l)[k] == needle) = true ↔ StartsAt needle l k := by
    intro k hk
    simp only [windows,getElem_map,getElem_range,beq_iff_eq,StartsAt]
    exact ⟨fun h => prefix_iff_eq_take.2 h.symm,fun h => (prefix_iff_eq_take.1 h).symm⟩
  have hrange : ∀ k, StartsAt needle l k → k < (windows needle.length l).length := by
    intro k hk
    have := hk.add_length_le hne
    simp only [windows,length_map,length_range]
    omega
  rw [findIdx?_eq_some_iff_getElem]
  constructor
  · rintro ⟨hi,hp,hmin⟩
    exact ⟨(hw i hi).1 hp,fun j hj hs => hmin j hj ((hw j (by omega)).2 hs)⟩
  · rintro ⟨hs,hmin⟩
    exact ⟨hrange i hs,(hw i _).2 hs,fun j hj => mt (hw j _).1 (hmin j hj)⟩

theorem findIdx?_windows_eq_none (hne : needle ≠ []) :
    (windows needle.length l).findIdx? (· == needle) = none ↔ ∀ i, ¬ StartsAt needle l i := by
  classical
  constructor
  · intro h i hi
    -- the least start would be found
    have hex : ∃ i, StartsAt needle l i := ⟨i,hi⟩
    have := (findIdx?_windows_eq_some hne).2 ⟨Nat.find_spec hex,fun j hj => Nat.find_min hex hj⟩
    simp [h] at this
  · intro h
    cases hf : (windows needle.length l).findIdx? (· == needle) with
    | none => rfl
    | some i => exact absurd ((findIdx?_windows_eq_some hne).1 hf).1 (h i)

/-- Searching a prefix finds the first start exactly when it ends within the prefix. -/
theorem findIdx?_windows_take_eq_some (hne : needle ≠ []) {m : ℕ} :
    (windows needle.length (l.take m)).findIdx? (· == needle) = some i ↔
      (windows needle.length l).findIdx? (· == needle) = some i ∧ i + needle.length ≤ m := by
  simp only [findIdx?_windows_eq_some hne,startsAt_take_iff hne]
  constructor
  · rintro ⟨⟨hs,hm⟩,hmin⟩
    exact ⟨⟨hs,fun j hj hsj => hmin j hj ⟨hsj,by omega⟩⟩,hm⟩
  · rintro ⟨⟨hs,hmin⟩,hm⟩
    exact ⟨⟨hs,hm⟩,fun j hj hsj => hmin j hj hsj.1⟩

/-- A search may skip the indices where the needle does not start. -/
theorem findIdx?_windows_drop (hne : needle ≠ []) {start : ℕ}
    (h : ∀ j < start, ¬ StartsAt needle l j) :
    (windows needle.length (l.drop start)).findIdx? (· == needle) =
      ((windows needle.length l).findIdx? (· == needle)).map (· - start) := by
  have hdrop : ∀ k, StartsAt needle (l.drop start) k ↔ StartsAt needle l (start + k) := by
    intro k
    simp [StartsAt,drop_drop]
  cases hf : (windows needle.length l).findIdx? (· == needle) with
  | none =>
    rw [findIdx?_windows_eq_none hne] at hf
    rw [Option.map_none,findIdx?_windows_eq_none hne]
    exact fun k hk => hf _ ((hdrop k).1 hk)
  | some i =>
    simp only [Option.map_some]
    obtain ⟨hs,hmin⟩ := (findIdx?_windows_eq_some hne).1 hf
    have hle : start ≤ i := not_lt.1 fun hlt => h i hlt hs
    refine (findIdx?_windows_eq_some hne).2 ⟨(hdrop _).2 ?_,fun k hk hsk => hmin _ (by omega) ((hdrop k).1 hsk)⟩
    rwa [Nat.add_sub_cancel' hle]

/-- The shortest prefix that ends with the needle ends where the first window equal to the
needle does. -/
theorem shortestPrefixEndingWith_iff (hne : needle ≠ []) {p : List α} :
    ShortestPrefixEndingWith needle l p ↔
      ∃ i, (windows needle.length l).findIdx? (· == needle) = some i ∧ p = l.take (i + needle.length) := by
  simp only [findIdx?_windows_eq_some hne]
  constructor
  · rintro ⟨hp,hsuf,hmin⟩
    obtain ⟨i,hs,rfl⟩ := prefix_and_suffix_iff.1 ⟨hp,hsuf⟩
    refine ⟨i,⟨hs,fun j hj hsj => ?_⟩,rfl⟩
    -- an earlier start gives a shorter prefix ending with the needle
    obtain ⟨hq,hqs⟩ := prefix_and_suffix_iff.2 ⟨j,hsj,rfl⟩
    have hle := hmin _ hq hqs
    have := hs.add_length_le hne
    have := hsj.add_length_le hne
    simp only [length_take] at hle
    omega
  · rintro ⟨i,⟨hs,hmin⟩,rfl⟩
    obtain ⟨hp,hsuf⟩ := prefix_and_suffix_iff.2 ⟨i,hs,rfl⟩
    refine ⟨hp,hsuf,fun q hq hqs => ?_⟩
    obtain ⟨j,hsj,rfl⟩ := prefix_and_suffix_iff.1 ⟨hq,hqs⟩
    have := hs.add_length_le hne
    have := hsj.add_length_le hne
    have := not_lt.1 fun h => hmin j h hsj
    simp only [length_take]
    omega

end Search

end Subslice
