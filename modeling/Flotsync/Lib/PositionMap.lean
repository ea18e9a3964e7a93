import Mathlib.Data.Finmap

/-!
A finite map whose keys come from a list of distinct keys, read through the
positions of that list: `Represents keys f r` says that `r` holds `f j` at the
`j`-th key and nothing at any other key. Writing one position then acts on the
map by `insert` or `erase`, a loop that stores an optional value at each key in
turn builds the map of those values, and a map is determined by what it
represents.
-/

set_option autoImplicit false

namespace PositionMap

open List

variable {α β : Type*} [DecidableEq α]

/-- Store an optional value: `insert` for `some`, nothing for `none`. -/
def insertOpt (r : Finmap fun _ : α => β) (a : α) : Option β → Finmap fun _ : α => β
  | some b => r.insert a b
  | none => r

/-- Store each key's optional value, front to back. -/
def insertAll (r : Finmap fun _ : α => β) (l : List (α × Option β)) : Finmap fun _ : α => β :=
  l.foldl (fun r e => insertOpt r e.1 e.2) r

/-- The map holding `f j` at the `j`-th of `keys`. -/
def ofPositions (keys : List α) (f : ℕ → Option β) : Finmap fun _ : α => β :=
  insertAll ∅ (keys.mapIdx fun j a => (a,f j))

/-- `r` holds `f j` at the `j`-th key and nothing outside `keys`. -/
def Represents (keys : List α) (f : ℕ → Option β) (r : Finmap fun _ : α => β) : Prop :=
  (∀ j (hj : j < keys.length), r.lookup keys[j] = f j) ∧ ∀ a ∉ keys, r.lookup a = none

theorem lookup_insertOpt_self (r : Finmap fun _ : α => β) (a : α) (v : Option β) :
    (insertOpt r a v).lookup a = v.or (r.lookup a) := by
  cases v <;> simp [insertOpt]

theorem lookup_insertOpt_of_ne (r : Finmap fun _ : α => β) {a a' : α} (v : Option β)
    (h : a' ≠ a) : (insertOpt r a v).lookup a' = r.lookup a' := by
  cases v <;> simp [insertOpt,Finmap.lookup_insert_of_ne _ h]

theorem lookup_insertAll_of_not_mem (r : Finmap fun _ : α => β) {l : List (α × Option β)} {a : α}
    (ha : a ∉ l.map Prod.fst) : (insertAll r l).lookup a = r.lookup a := by
  induction l generalizing r with
  | nil => rfl
  | cons e l ih =>
    simp only [map_cons,mem_cons,not_or] at ha
    rw [insertAll,foldl_cons,← insertAll,ih _ ha.2,lookup_insertOpt_of_ne _ _ ha.1]

/-- With distinct keys, the last write to a key is its only one. -/
theorem lookup_insertAll (r : Finmap fun _ : α => β) {l : List (α × Option β)}
    (hnd : (l.map Prod.fst).Nodup) {j : ℕ} (hj : j < l.length) :
    (insertAll r l).lookup l[j].1 = l[j].2.or (r.lookup l[j].1) := by
  induction l generalizing r j with
  | nil => simp at hj
  | cons e l ih =>
    simp only [map_cons,nodup_cons] at hnd
    rw [insertAll,foldl_cons,← insertAll]
    cases j with
    | zero =>
      rw [getElem_cons_zero,lookup_insertAll_of_not_mem _ hnd.1,lookup_insertOpt_self]
    | succ j =>
      have hj' : j < l.length := by simpa using hj
      have hne : l[j].1 ≠ e.1 := fun he => hnd.1 (he ▸ mem_map_of_mem (getElem_mem hj'))
      rw [getElem_cons_succ,ih _ hnd.2 hj',lookup_insertOpt_of_ne _ _ hne]

theorem represents_insertAll {l : List (α × Option β)} (hnd : (l.map Prod.fst).Nodup) :
    Represents (l.map Prod.fst) (fun j => l[j]?.bind Prod.snd) (insertAll ∅ l) := by
  refine ⟨fun j hj => ?_,fun a ha => ?_⟩
  · have hj' : j < l.length := by simpa using hj
    rw [getElem_map,lookup_insertAll ∅ hnd hj',Finmap.lookup_empty,Option.or_none]
    simp only [getElem?_eq_getElem hj',Option.bind_some]
  · rw [lookup_insertAll_of_not_mem ∅ ha,Finmap.lookup_empty]

section Represents

variable {keys : List α} {f g : ℕ → Option β} {r r' : Finmap fun _ : α => β}

theorem Represents.congr (h : Represents keys f r) (hfg : ∀ j < keys.length, f j = g j) :
    Represents keys g r :=
  ⟨fun j hj => (h.1 j hj).trans (hfg j hj),h.2⟩

/-- A map is determined by what it represents. -/
theorem Represents.unique (h : Represents keys f r) (h' : Represents keys f r') : r = r' := by
  apply Finmap.ext_lookup
  intro a
  by_cases ha : a ∈ keys
  · obtain ⟨j,hj,rfl⟩ := getElem_of_mem ha
    rw [h.1 j hj,h'.1 j hj]
  · rw [h.2 a ha,h'.2 a ha]

theorem represents_empty (keys : List α) :
    Represents keys (fun _ => none) (∅ : Finmap fun _ : α => β) :=
  ⟨fun _ _ => Finmap.lookup_empty _,fun _ _ => Finmap.lookup_empty _⟩

theorem Represents.eq_empty (h : Represents keys f r) (hf : ∀ j < keys.length, f j = none) :
    r = ∅ :=
  (h.congr hf).unique (represents_empty keys)

theorem represents_ofPositions (hnd : keys.Nodup) (f : ℕ → Option β) :
    Represents keys f (ofPositions keys f) := by
  have hkeys : (keys.mapIdx fun j a => (a,f j)).map Prod.fst = keys := by
    apply ext_getElem <;> simp
  have h := represents_insertAll (l := keys.mapIdx fun j a => (a,f j)) (by rw [hkeys]; exact hnd)
  rw [hkeys] at h
  refine h.congr fun j hj => ?_
  simp [hj]

/-- Inserting one value at every key, front to back. -/
theorem represents_foldl_insert (hnd : keys.Nodup) (b : β) :
    Represents keys (fun _ => some b) (keys.foldl (fun r a => r.insert a b) ∅) := by
  have hkeys : (keys.map fun a => (a,some b)).map Prod.fst = keys := by simp [Function.comp_def]
  have h := represents_insertAll (l := keys.map fun a => (a,some b)) (by rw [hkeys]; exact hnd)
  rw [hkeys,insertAll,foldl_map] at h
  refine h.congr fun j hj => ?_
  simp [hj]

theorem Represents.insert (hnd : keys.Nodup) (h : Represents keys f r) {p : ℕ}
    (hp : p < keys.length) (b : β) :
    Represents keys (Function.update f p (some b)) (r.insert keys[p] b) := by
  refine ⟨fun j hj => ?_,fun a ha => ?_⟩
  · by_cases hjp : j = p
    · subst hjp
      simp
    · have hne : keys[j] ≠ keys[p] := fun he => hjp ((hnd.getElem_inj_iff).1 he)
      rw [Finmap.lookup_insert_of_ne _ hne,Function.update_of_ne hjp,h.1 j hj]
  · have hne : a ≠ keys[p] := fun he => ha (he ▸ getElem_mem hp)
    rw [Finmap.lookup_insert_of_ne _ hne,h.2 a ha]

theorem Represents.erase (hnd : keys.Nodup) (h : Represents keys f r) {p : ℕ}
    (hp : p < keys.length) : Represents keys (Function.update f p none) (r.erase keys[p]) := by
  refine ⟨fun j hj => ?_,fun a ha => ?_⟩
  · by_cases hjp : j = p
    · subst hjp
      simp [Finmap.lookup_erase]
    · have hne : keys[j] ≠ keys[p] := fun he => hjp ((hnd.getElem_inj_iff).1 he)
      rw [Finmap.lookup_erase_ne hne,Function.update_of_ne hjp,h.1 j hj]
  · have hne : a ≠ keys[p] := fun he => ha (he ▸ getElem_mem hp)
    rw [Finmap.lookup_erase_ne hne,h.2 a ha]

end Represents

end PositionMap
