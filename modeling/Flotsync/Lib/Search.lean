import Mathlib

/-!
Searches over a list as iterator chains perform them: the first entry at or after
an index that passes a test, together with its index (an enumerate, skip and find
chain), and the outcome of a binary search in a sorted list.
-/

set_option autoImplicit false

namespace Search

variable {α : Type*}

/-- The first entry at index `k` or later that passes `p`, with its index. -/
def findFrom (p : α → Bool) : List α → ℕ → Option (ℕ × α)
  | [], _ => none
  | a :: l, 0 => if p a then some (0, a) else (findFrom p l 0).map fun r => (r.1 + 1, r.2)
  | _ :: l, k + 1 => (findFrom p l k).map fun r => (r.1 + 1, r.2)

theorem findFrom_spec {p : α → Bool} {l : List α} {k i : ℕ} {a : α}
    (h : findFrom p l k = some (i, a)) : k ≤ i ∧ l[i]? = some a ∧ p a = true := by
  induction l generalizing k i with
  | nil => simp [findFrom] at h
  | cons b l ih =>
    cases k with
    | zero =>
      simp only [findFrom] at h
      split at h
      · simp only [Option.some.injEq, Prod.mk.injEq] at h
        obtain ⟨rfl, rfl⟩ := h
        simp_all
      · obtain ⟨⟨j, c⟩, hj, hr⟩ := Option.map_eq_some_iff.1 h
        simp only [Prod.mk.injEq] at hr
        obtain ⟨rfl, rfl⟩ := hr
        have := ih hj
        simp_all
    | succ k =>
      simp only [findFrom] at h
      obtain ⟨⟨j, c⟩, hj, hr⟩ := Option.map_eq_some_iff.1 h
      simp only [Prod.mk.injEq] at hr
      obtain ⟨rfl, rfl⟩ := hr
      have := ih hj
      simp_all

/-- No entry between `k` and the one found passes the test. -/
theorem findFrom_first {p : α → Bool} {l : List α} {k i : ℕ} {a : α}
    (h : findFrom p l k = some (i, a)) {j : ℕ} (hkj : k ≤ j) (hji : j < i) {b : α}
    (hb : l[j]? = some b) : p b = false := by
  induction l generalizing k i j with
  | nil => simp at hb
  | cons c l ih =>
    cases k with
    | zero =>
      simp only [findFrom] at h
      split at h
      · simp at h
        omega
      · obtain ⟨⟨i', d⟩, hi', hr⟩ := Option.map_eq_some_iff.1 h
        simp only [Prod.mk.injEq] at hr
        obtain ⟨rfl, rfl⟩ := hr
        cases j with
        | zero => simp_all
        | succ j =>
          have hb' : l[j]? = some b := by simpa using hb
          exact ih hi' (Nat.zero_le j) (by omega) hb'
    | succ k =>
      simp only [findFrom] at h
      obtain ⟨⟨i', d⟩, hi', hr⟩ := Option.map_eq_some_iff.1 h
      simp only [Prod.mk.injEq] at hr
      obtain ⟨rfl, rfl⟩ := hr
      cases j with
      | zero => omega
      | succ j =>
        have hb' : l[j]? = some b := by simpa using hb
        exact ih hi' (by omega) (by omega) hb'

theorem findFrom_eq_none {p : α → Bool} {l : List α} {k : ℕ} (h : findFrom p l k = none)
    {j : ℕ} (hkj : k ≤ j) {b : α} (hb : l[j]? = some b) : p b = false := by
  induction l generalizing k j with
  | nil => simp at hb
  | cons c l ih =>
    cases k with
    | zero =>
      simp only [findFrom] at h
      split at h
      · simp at h
      · cases j with
        | zero => simp_all
        | succ j =>
          have hb' : l[j]? = some b := by simpa using hb
          exact ih (by simpa using h) (Nat.zero_le j) hb'
    | succ k =>
      simp only [findFrom, Option.map_eq_none_iff] at h
      cases j with
      | zero => omega
      | succ j =>
        have hb' : l[j]? = some b := by simpa using hb
        exact ih h (by omega) hb'

/-- An entry at or after `k` that passes the test is found. -/
theorem findFrom_isSome {p : α → Bool} {l : List α} {k j : ℕ} (hkj : k ≤ j) {b : α}
    (hb : l[j]? = some b) (hp : p b = true) : (findFrom p l k).isSome := by
  cases h : findFrom p l k with
  | some r => rfl
  | none => simp [findFrom_eq_none h hkj hb] at hp

/-- The first entry at or after `k` that passes the test is the one found. -/
theorem findFrom_eq_some_of_first {p : α → Bool} {l : List α} {k i : ℕ} {a : α} (hki : k ≤ i)
    (ha : l[i]? = some a) (hp : p a = true)
    (hbefore : ∀ j b, k ≤ j → j < i → l[j]? = some b → p b = false) :
    findFrom p l k = some (i, a) := by
  obtain ⟨⟨i', a'⟩, hfind⟩ := Option.isSome_iff_exists.1 (findFrom_isSome hki ha hp)
  obtain ⟨hki', ha', hp'⟩ := findFrom_spec hfind
  have hi : i' = i := by
    rcases lt_trichotomy i' i with hlt | heq | hgt
    · simp [hbefore i' a' hki' hlt ha'] at hp'
    · exact heq
    · simp [findFrom_first hfind hki hgt ha] at hp
  subst hi
  obtain rfl : a' = a := Option.some.inj (ha'.symm.trans ha)
  exact hfind

/-- The outcome of a binary search for `x` in a sorted list: `ok` with the index
of an equal entry, or `error` with the index where `x` would be inserted, the
number of entries below it. -/
def binarySearch [LinearOrder α] (l : List α) (x : α) : Except ℕ ℕ :=
  match l.findIdx? (· == x) with
  | some i => .ok i
  | none => .error (l.countP (· < x))

theorem binarySearch_error_le [LinearOrder α] {l : List α} {x : α} {i : ℕ}
    (h : binarySearch l x = .error i) : i ≤ l.length := by
  unfold binarySearch at h
  split at h
  · simp at h
  · simp only [Except.error.injEq] at h
    subst h
    exact List.countP_le_length

theorem binarySearch_of_not_mem [LinearOrder α] {l : List α} {x : α} (hx : x ∉ l) :
    binarySearch l x = .error (l.countP (· < x)) := by
  have hnone : l.findIdx? (· == x) = none := by
    rw [List.findIdx?_eq_none_iff]
    intro y hy
    simpa using fun hxy : y = x => hx (hxy ▸ hy)
  simp [binarySearch, hnone]

theorem binarySearch_of_mem [LinearOrder α] {l : List α} {x : α} (hx : x ∈ l) :
    ∃ i, binarySearch l x = .ok i := by
  unfold binarySearch
  split
  · exact ⟨_, rfl⟩
  · rename_i hnone
    rw [List.findIdx?_eq_none_iff] at hnone
    simp at hnone
    exact absurd rfl (hnone x hx)

end Search
