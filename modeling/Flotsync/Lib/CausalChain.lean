import Flotsync.Lib.Pointwise

/-!
Events applied in causal order against a vector clock. Each event belongs to
one node, carries that node's version and the clock it read; it is ready once
it is its node's next version and the clock has seen all it read, and applying
it moves its node's entry to its version. A causal chain from a clock after
which no remaining event is ready contains every sequence that can be applied
causally from that clock over the same events: the greedy chain is the largest.
-/

set_option autoImplicit false

namespace CausalChain

open List

/-- What applying an event in causal order looks at. -/
class Event (E : Type*) where
  node : E → ℕ
  version : E → ℕ
  reads : E → List ℕ

open Event

variable {E : Type*} [Event E]

/-- `e` can apply at clock `clock`. -/
def Ready (clock : List ℕ) (e : E) : Prop :=
  Forall₂ (· ≤ ·) (reads e) clock ∧ clock[node e]?.map (· + 1) = some (version e)

/-- The clock after `e`: its node's entry becomes its version, the entry plus
one for a ready event. -/
def advance (clock : List ℕ) (e : E) : List ℕ := clock.set (node e) (version e)

/-- The events applied one after another from `clock`, each ready when it comes. -/
def Causal : List ℕ → List E → Prop
  | _, [] => True
  | clock, e :: es => Ready clock e ∧ Causal (advance clock e) es

def clockAfter (clock : List ℕ) (es : List E) : List ℕ := es.foldl advance clock

/-- Already covered by the clock. -/
def Stale (clock : List ℕ) (e : E) : Prop := ∃ x, clock[node e]? = some x ∧ version e ≤ x

instance (clock : List ℕ) (e : E) : Decidable (Ready clock e) := inferInstanceAs (Decidable (_ ∧ _))

instance (clock : List ℕ) (e : E) : Decidable (Stale clock e) :=
  decidable_of_iff (∃ x ∈ clock[node e]?, version e ≤ x) (by simp [Stale])

variable {clock : List ℕ} {e : E} {es : List E}

@[simp] theorem causal_nil (clock : List ℕ) : Causal clock ([] : List E) := trivial

@[simp] theorem causal_cons : Causal clock (e :: es) ↔ Ready clock e ∧ Causal (advance clock e) es := Iff.rfl

@[simp] theorem clockAfter_nil (clock : List ℕ) : clockAfter clock ([] : List E) = clock := rfl

@[simp] theorem clockAfter_cons : clockAfter clock (e :: es) = clockAfter (advance clock e) es := rfl

theorem clockAfter_append (es : List E) (e : E) :
    clockAfter clock (es ++ [e]) = advance (clockAfter clock es) e := by
  simp [clockAfter]

theorem causal_append : Causal clock (es ++ [e]) ↔ Causal clock es ∧ Ready (clockAfter clock es) e := by
  induction es generalizing clock with
  | nil => simp
  | cons e' es ih => simp [ih,and_assoc]

@[simp] theorem length_advance : (advance clock e).length = clock.length := length_set ..

theorem length_clockAfter (clock : List ℕ) (es : List E) : (clockAfter clock es).length = clock.length := by
  induction es generalizing clock with
  | nil => rfl
  | cons e es ih => rw [clockAfter_cons,ih,length_advance]

theorem getElem?_advance_self (h : node e < clock.length) : (advance clock e)[node e]? = some (version e) :=
  getElem?_set_self h

theorem getElem?_advance_of_ne {i : ℕ} (h : node e ≠ i) : (advance clock e)[i]? = clock[i]? :=
  getElem?_set_ne h

theorem Ready.getElem? (h : Ready clock e) : ∃ x, clock[node e]? = some x ∧ version e = x + 1 := by
  obtain ⟨-,h⟩ := h
  cases hx : clock[node e]? with
  | none => simp [hx] at h
  | some x => exact ⟨x,rfl,by simpa [hx,eq_comm] using h⟩

theorem Ready.node_lt (h : Ready clock e) : node e < clock.length := by
  obtain ⟨x,hx,-⟩ := h.getElem?
  exact (List.getElem?_eq_some_iff.1 hx).1

theorem Ready.le_advance (h : Ready clock e) : Forall₂ (· ≤ ·) clock (advance clock e) := by
  obtain ⟨x,hx,hv⟩ := h.getElem?
  exact Pointwise.forall₂_le_set hx (by omega)

theorem Causal.le_clockAfter (h : Causal clock es) : Forall₂ (· ≤ ·) clock (clockAfter clock es) := by
  induction es generalizing clock with
  | nil => exact Pointwise.forall₂_le_refl clock
  | cons e es ih => exact Pointwise.forall₂_le_trans h.1.le_advance (ih h.2)

/-- Every event of a causal sequence lies above its node's entry before the
sequence and at most at the entry after it. -/
theorem Causal.between (h : Causal clock es) (he : e ∈ es) :
    ∃ x y, clock[node e]? = some x ∧ (clockAfter clock es)[node e]? = some y ∧ x < version e ∧ version e ≤ y := by
  induction es generalizing clock with
  | nil => simp at he
  | cons e' es ih =>
    obtain ⟨hr,hrest⟩ := h
    rcases mem_cons.1 he with rfl | he
    · -- the head sets its node's entry to its version, which only grows after
      obtain ⟨x,hx,hv⟩ := hr.getElem?
      obtain ⟨y,hy,hvy⟩ := Pointwise.forall₂_exists_right hrest.le_clockAfter (getElem?_advance_self hr.node_lt)
      exact ⟨x,y,hx,hy,by omega,hvy⟩
    · obtain ⟨x,y,hx,hy,hxv,hvy⟩ := ih hrest he
      obtain ⟨x₀,hx₀,hle⟩ := Pointwise.forall₂_exists_left hr.le_advance hx
      exact ⟨x₀,y,hx₀,hy,by omega,hvy⟩

theorem Causal.not_stale (h : Causal clock es) (he : e ∈ es) : ¬Stale clock e := by
  rintro ⟨x',hx',hle⟩
  obtain ⟨x,y,hx,-,hxv,-⟩ := h.between he
  rw [hx] at hx'
  cases hx'
  omega

/-- Every version above a node's entry before a causal sequence and up to its
entry after it was taken by an event of the sequence. -/
theorem Causal.exists_of_between {i x y v : ℕ} (h : Causal clock es) (hx : clock[i]? = some x)
    (hy : (clockAfter clock es)[i]? = some y) (hxv : x < v) (hvy : v ≤ y) :
    ∃ e ∈ es, node e = i ∧ version e = v := by
  induction es generalizing clock x with
  | nil =>
    rw [clockAfter_nil,hx] at hy
    cases hy
    omega
  | cons e es ih =>
    obtain ⟨hr,hrest⟩ := h
    obtain ⟨x',hx',hv'⟩ := hr.getElem?
    by_cases hi : node e = i
    · subst hi
      rw [hx] at hx'
      cases hx'
      -- the head takes the next version, the rest of the sequence the others
      by_cases hvx : v = x + 1
      · exact ⟨e,mem_cons_self,rfl,hv'.trans hvx.symm⟩
      · obtain ⟨e',he',hn,hv⟩ := ih hrest (getElem?_advance_self hr.node_lt) hy (by omega)
        exact ⟨e',mem_cons_of_mem _ he',hn,hv⟩
    · obtain ⟨e',he',hn,hv⟩ := ih hrest (by rw [getElem?_advance_of_ne hi]; exact hx) hy hxv
      exact ⟨e',mem_cons_of_mem _ he',hn,hv⟩

theorem Stale.mono {clock' : List ℕ} (h : Stale clock e) (hc : Forall₂ (· ≤ ·) clock clock') : Stale clock' e := by
  obtain ⟨x,hx,hle⟩ := h
  obtain ⟨y,hy,hxy⟩ := Pointwise.forall₂_exists_right hc hx
  exact ⟨y,hy,hle.trans hxy⟩

/-- Applying a ready event makes no other event stale unless it has the same
node and version. -/
theorem not_stale_advance {u : E} (hr : Ready clock e) (hu : ¬Stale clock u)
    (hne : node u = node e → version u ≠ version e) : ¬Stale (advance clock e) u := by
  rintro ⟨y,hy,hle⟩
  by_cases hn : node e = node u
  · obtain ⟨x,hx,hv⟩ := hr.getElem?
    rw [← hn,getElem?_advance_self hr.node_lt] at hy
    cases hy
    refine hne hn.symm (le_antisymm hle ?_)
    -- `u` was above `x` at `clock`, and `e`'s version is `x + 1`
    by_contra hlt
    exact hu ⟨x,hn ▸ hx,by omega⟩
  · rw [getElem?_advance_of_ne hn] at hy
    exact hu ⟨y,hy,hle⟩

/-! ### The greedy chain is the largest -/

section Maximal

variable {P ch : List E}

/-- With a chain from `clock` after which no event of `P` that is neither in it nor
stale at `clock` is ready, an event of `P` ready at a clock between `clock` and the
chain's final clock is already in the chain. -/
theorem Causal.mem_of_ready (hid : ∀ a ∈ P, ∀ b ∈ P, node a = node b → version a = version b → a = b)
    (hch : Causal clock ch) (hsub : ∀ e ∈ ch, e ∈ P)
    (hmax : ∀ e ∈ P, e ∉ ch → ¬Stale clock e → ¬Ready (clockAfter clock ch) e)
    {W : List ℕ} {w : E} (hcW : Forall₂ (· ≤ ·) clock W) (hWV : Forall₂ (· ≤ ·) W (clockAfter clock ch))
    (hr : Ready W w) (hw : w ∈ P) : w ∈ ch := by
  obtain ⟨x,hx,hv⟩ := hr.getElem?
  obtain ⟨x₀,hx₀,hx₀x⟩ := Pointwise.forall₂_exists_left hcW hx
  obtain ⟨y,hy,hxy⟩ := Pointwise.forall₂_exists_right hWV hx
  by_contra hnot
  rcases Nat.lt_or_eq_of_le hxy with hlt | rfl
  · -- its version lies in the chain's range for its node, so the chain has an
    -- event with its node and version, which is `w` itself
    obtain ⟨e,he,hn,hve⟩ := hch.exists_of_between hx₀ hy (show x₀ < version w by omega)
      (show version w ≤ y by omega)
    exact hnot (hid w hw e (hsub e he) hn.symm hve.symm ▸ he)
  · -- otherwise it is ready at the chain's final clock
    have hfresh : ¬Stale clock w := by
      rintro ⟨x',hx',hle⟩
      rw [hx₀] at hx'
      cases hx'
      omega
    exact hmax w hw hnot hfresh ⟨Pointwise.forall₂_le_trans hr.1 hWV,by simp [hy,hv]⟩

/-- The walk behind `subset_of_maximal`: a causal sequence from any clock
between `clock` and the chain's final clock stays within the chain. -/
theorem Causal.subset_of_maximal_from
    (hid : ∀ a ∈ P, ∀ b ∈ P, node a = node b → version a = version b → a = b)
    (hch : Causal clock ch) (hsub : ∀ e ∈ ch, e ∈ P)
    (hmax : ∀ e ∈ P, e ∉ ch → ¬Stale clock e → ¬Ready (clockAfter clock ch) e) :
    ∀ {ws : List E} {W : List ℕ}, Forall₂ (· ≤ ·) clock W → Forall₂ (· ≤ ·) W (clockAfter clock ch) →
      Causal W ws → (∀ w ∈ ws, w ∈ P) → ∀ w ∈ ws, w ∈ ch
  | [], _, _, _, _, _ => by simp
  | w :: ws, W, hcW, hWV, hcausal, hwsub => by
    obtain ⟨hr,hrest⟩ := hcausal
    have hw := hch.mem_of_ready hid hsub hmax hcW hWV hr (hwsub w mem_cons_self)
    -- after `w` the clock is still below the chain's final clock, which has `w`
    obtain ⟨x,y,-,hy,-,hvy⟩ := hch.between hw
    have hWV' : Forall₂ (· ≤ ·) (advance W w) (clockAfter clock ch) :=
      Pointwise.forall₂_set_le hWV hy hvy
    have hrest' := subset_of_maximal_from hid hch hsub hmax
      (Pointwise.forall₂_le_trans hcW hr.le_advance) hWV' hrest fun u hu => hwsub u (mem_cons_of_mem _ hu)
    intro u hu
    rcases mem_cons.1 hu with rfl | hu
    · exact hw
    · exact hrest' u hu

/-- Every causal sequence from `clock` over `P` lies within a chain that stops
only when nothing is ready: the chain's events are the largest set of `P` that
can apply causally from `clock`, whatever order picked them. -/
theorem Causal.subset_of_maximal
    (hid : ∀ a ∈ P, ∀ b ∈ P, node a = node b → version a = version b → a = b)
    (hch : Causal clock ch) (hsub : ∀ e ∈ ch, e ∈ P)
    (hmax : ∀ e ∈ P, e ∉ ch → ¬Stale clock e → ¬Ready (clockAfter clock ch) e)
    {ws : List E} (hws : Causal clock ws) (hwsub : ∀ w ∈ ws, w ∈ P) : ∀ w ∈ ws, w ∈ ch :=
  hch.subset_of_maximal_from hid hsub hmax (Pointwise.forall₂_le_refl clock) hch.le_clockAfter hws hwsub

end Maximal

end CausalChain
