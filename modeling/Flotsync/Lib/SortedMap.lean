import Mathlib

/-!
An ordered map kept as the list of its entries in increasing key order, the
order in which a search-tree map iterates them: insertion in place that
replaces a present key's value, removal of a key, and the map collected from a
list of entries.
-/

set_option autoImplicit false

namespace SortedMap

open List

variable {κ β : Type*} [LinearOrder κ]

/-- Keys strictly increase along the entries. -/
def Sorted (m : List (κ × β)) : Prop := m.Pairwise fun a b => a.1 < b.1

def insert (key : κ) (value : β) : List (κ × β) → List (κ × β)
  | [] => [(key,value)]
  | entry :: rest =>
    if key < entry.1 then (key,value) :: entry :: rest
    else if key = entry.1 then (key,value) :: rest
    else entry :: insert key value rest

def erase (key : κ) (m : List (κ × β)) : List (κ × β) := m.filter (·.1 ≠ key)

/-- Remove `key`, returning its value and the rest; `none` when it is absent. -/
def take (key : κ) (m : List (κ × β)) : Option (β × List (κ × β)) :=
  (m.find? (·.1 = key)).map fun entry => (entry.2,erase key m)

/-- The value stored under `key`. -/
def get (key : κ) (m : List (κ × β)) : Option β :=
  (m.find? (·.1 = key)).map (·.2)

/-- Collect entries into a map; a later entry for a key replaces an earlier one. -/
def ofList (l : List (κ × β)) : List (κ × β) :=
  l.foldl (fun m entry => insert entry.1 entry.2 m) []

variable {m : List (κ × β)} {key : κ} {value : β} {e : κ × β}

theorem sorted_nil : Sorted ([] : List (κ × β)) := Pairwise.nil

theorem Sorted.keys_nodup (hm : Sorted m) : (m.map (·.1)).Nodup :=
  pairwise_map.2 (hm.imp ne_of_lt)

theorem mem_insert_of_mem (h : e ∈ insert key value m) : e = (key,value) ∨ e ∈ m := by
  induction m with
  | nil => simpa [insert] using h
  | cons entry rest ih =>
    rw [insert] at h
    split_ifs at h <;> grind

theorem Sorted.insert (hm : Sorted m) : Sorted (insert key value m) := by
  induction m with
  | nil => simp [SortedMap.insert,Sorted]
  | cons entry rest ih =>
    have hrest : ∀ e ∈ rest, entry.1 < e.1 := fun _ h => rel_of_pairwise_cons hm h
    rw [SortedMap.insert]
    split_ifs with hlt heq
    · exact hm.cons fun a ha => (mem_cons.1 ha).elim (fun h => h ▸ hlt)
        fun h => hlt.trans (hrest a h)
    · exact hm.of_cons.cons fun a ha => heq ▸ hrest a ha
    · have hgt : entry.1 < key := lt_of_le_of_ne (not_lt.1 hlt) (Ne.symm heq)
      exact (ih hm.of_cons).cons fun a ha => (mem_insert_of_mem ha).elim (fun h => h ▸ hgt)
        (hrest a)

theorem mem_insert (hm : Sorted m) :
    e ∈ insert key value m ↔ e = (key,value) ∨ (e ∈ m ∧ e.1 ≠ key) := by
  induction m with
  | nil => simp [insert]
  | cons entry rest ih =>
    have hrest : ∀ e ∈ rest, entry.1 < e.1 := fun _ h => rel_of_pairwise_cons hm h
    have ih := ih hm.of_cons
    rw [insert]
    split_ifs with hlt heq
    -- the new key sorts first: no present entry has it
    · have : ∀ a ∈ entry :: rest, a.1 ≠ key := fun a ha =>
        ((mem_cons.1 ha).elim (fun h => h ▸ hlt) fun h => hlt.trans (hrest a h)).ne'
      grind
    -- the head has the key and is replaced; the rest sort after it
    · have : ∀ a ∈ rest, a.1 ≠ key := fun a ha => heq ▸ (hrest a ha).ne'
      grind
    · grind

theorem mem_erase : e ∈ erase key m ↔ e ∈ m ∧ e.1 ≠ key := by
  simp [erase]

theorem Sorted.erase (hm : Sorted m) : Sorted (erase key m) :=
  hm.sublist filter_sublist

theorem Sorted.filter (hm : Sorted m) (p : κ × β → Bool) : Sorted (m.filter p) :=
  hm.sublist filter_sublist

theorem foldl_erase (ids : List κ) (m : List (κ × β)) :
    ids.foldl (fun m id => erase id m) m = m.filter fun e => e.1 ∉ ids := by
  induction ids generalizing m with
  | nil => simp
  | cons id ids ih =>
    rw [foldl_cons,ih,erase,filter_filter]
    congr 1
    funext e
    simp [Bool.and_comm]

/-- The search for a present key finds its entry. -/
theorem find?_key_eq (hm : Sorted m) (h : (key,value) ∈ m) : m.find? (·.1 = key) = some (key,value) := by
  obtain ⟨a,ha⟩ := Option.isSome_iff_exists.1
    (find?_isSome.2 ⟨(key,value),h,by simp⟩ : (m.find? (·.1 = key)).isSome)
  have hak : a.1 = key := by simpa using find?_some ha
  have hmem : a ∈ m := mem_of_find?_eq_some ha
  have : a = (key,value) := inj_on_of_nodup_map hm.keys_nodup hmem h hak
  rwa [this] at ha

theorem take_eq (hm : Sorted m) (h : (key,value) ∈ m) : take key m = some (value,erase key m) := by
  simp [take,find?_key_eq hm h]

theorem get_eq_some (hm : Sorted m) : get key m = some value ↔ (key,value) ∈ m := by
  constructor
  · intro h
    obtain ⟨a,ha,rfl⟩ := Option.map_eq_some_iff.1 h
    have hak : a.1 = key := by simpa using find?_some ha
    exact hak ▸ mem_of_find?_eq_some ha
  · intro h
    simp [get,find?_key_eq hm h]

theorem get_eq_none : get key m = none ↔ ∀ value, (key,value) ∉ m := by
  simp only [get,Option.map_eq_none_iff,find?_eq_none,decide_eq_true_eq]
  constructor
  · exact fun h value hmem => h _ hmem rfl
  · rintro h ⟨k,v⟩ hmem rfl
    exact h v hmem

theorem take_eq_some {rest : List (κ × β)} (h : take key m = some (value,rest)) :
    (key,value) ∈ m ∧ rest = erase key m := by
  obtain ⟨a,ha,hpair⟩ := Option.map_eq_some_iff.1 h
  have hak : a.1 = key := by simpa using find?_some ha
  obtain ⟨rfl,rfl⟩ := Prod.ext_iff.1 hpair
  exact ⟨hak ▸ mem_of_find?_eq_some ha,rfl⟩

theorem take_eq_some_iff (hm : Sorted m) {rest : List (κ × β)} :
    take key m = some (value,rest) ↔ (key,value) ∈ m ∧ rest = erase key m := by
  constructor
  · exact take_eq_some
  · rintro ⟨h,rfl⟩
    exact take_eq hm h

theorem length_erase_lt (h : e ∈ m) : (erase e.1 m).length < m.length :=
  length_filter_lt_length_iff_exists.2 ⟨e,h,by simp⟩

theorem length_take_lt {rest : List (κ × β)} (h : take key m = some (value,rest)) :
    rest.length < m.length := by
  obtain ⟨hmem,rfl⟩ := take_eq_some h
  exact length_erase_lt hmem

/-- Taking a present entry out leaves the others. -/
theorem perm_cons_erase (hm : Sorted m) (h : (key,value) ∈ m) : m.Perm ((key,value) :: erase key m) := by
  have hnd : m.Nodup := hm.keys_nodup.of_map _
  have hnd' : ((key,value) :: erase key m).Nodup :=
    nodup_cons.2 ⟨fun h' => (mem_erase.1 h').2 rfl,hnd.filter _⟩
  rw [perm_ext_iff_of_nodup hnd hnd']
  intro a
  rw [mem_cons,mem_erase]
  by_cases hak : a.1 = key
  · have : a ∈ m → a = (key,value) := fun ha => inj_on_of_nodup_map hm.keys_nodup ha h hak
    grind
  · grind

theorem sorted_ofList (l : List (κ × β)) : Sorted (ofList l) := by
  suffices ∀ acc : List (κ × β), Sorted acc →
      Sorted (l.foldl (fun m entry => insert entry.1 entry.2 m) acc) from this [] sorted_nil
  induction l with
  | nil => exact fun _ h => h
  | cons entry l ih => exact fun acc h => ih _ h.insert

/-- With distinct keys nothing is replaced: the map holds exactly the entries. -/
theorem mem_ofList {l : List (κ × β)} (hnd : (l.map (·.1)).Nodup) : e ∈ ofList l ↔ e ∈ l := by
  -- the accumulator holds the entries so far, none of whose keys comes later
  suffices ∀ acc : List (κ × β), Sorted acc → (∀ a ∈ acc, ∀ b ∈ l, a.1 ≠ b.1) →
      (e ∈ l.foldl (fun m entry => insert entry.1 entry.2 m) acc ↔ e ∈ acc ∨ e ∈ l) by
    simpa [ofList] using this [] sorted_nil (by simp)
  induction l with
  | nil => simp
  | cons entry l ih =>
    intro acc hacc hdisj
    obtain ⟨hnew,hnd⟩ := nodup_cons.1 hnd
    have hnew : ∀ b ∈ l, entry.1 ≠ b.1 := fun b hb h => hnew (mem_map.2 ⟨b,hb,h.symm⟩)
    rw [foldl_cons,ih hnd _ hacc.insert]
    · rw [mem_insert hacc]
      have : ∀ a ∈ acc, a.1 ≠ entry.1 := fun a ha => hdisj a ha entry mem_cons_self
      grind
    · intro a ha b hb
      rcases mem_insert_of_mem ha with rfl | ha
      · exact hnew b hb
      · exact hdisj a ha b (mem_cons_of_mem _ hb)

end SortedMap
