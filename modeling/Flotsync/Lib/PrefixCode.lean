import Flotsync.Lib.BigEndian

/-!
Prefix codes: encoders, which may fail, whose output determines the encoded
value even when more output follows it. Fixed-width fields, fields after the
code of their length, and lists after the code of their count are such codes, and
so is one code followed by another. What a byte string built by appending such
fields determines then follows field by field.
-/

set_option autoImplicit false

namespace PrefixCode

open List

variable {α γ β : Type*}

/-- The successful outputs of `enc` determine the value and whatever follows. -/
def PrefixFree (enc : α → Option (List β)) : Prop :=
  ∀ ⦃a b : α⦄ ⦃x y : List β⦄, enc a = some x → enc b = some y →
    ∀ ⦃r s : List β⦄, x ++ r = y ++ s → a = b ∧ r = s

variable {enc : α → Option (List β)}

theorem PrefixFree.injective (h : PrefixFree enc) {a b : α} {x : List β} (ha : enc a = some x)
    (hb : enc b = some x) : a = b :=
  (h ha hb (rfl : x ++ [] = x ++ [])).1

/-- Values written by an injective writer in `n` symbols each. -/
theorem prefixFree_fixed {n : ℕ} {f : α → List β} (hf : Function.Injective f)
    (hlen : ∀ a, (f a).length = n) : PrefixFree fun a => some (f a) := by
  intro a b x y ha hb r s hrs
  cases ha
  cases hb
  obtain ⟨hab,hrs⟩ := append_inj hrs ((hlen a).trans (hlen b).symm)
  exact ⟨hf hab,hrs⟩

theorem PrefixFree.comp (h : PrefixFree enc) {g : γ → α} (hg : Function.Injective g) :
    PrefixFree fun c => enc (g c) := by
  intro a b x y ha hb r s hrs
  obtain ⟨hab,hrs⟩ := h ha hb hrs
  exact ⟨hg hab,hrs⟩

/-! ### One code after another -/

/-- A pair as the first component's code followed by the second's. -/
def seq (e₁ : α → Option (List β)) (e₂ : γ → Option (List β)) (p : α × γ) : Option (List β) :=
  (e₁ p.1).bind fun x => (e₂ p.2).map (x ++ ·)

theorem seq_eq_some {e₁ : α → Option (List β)} {e₂ : γ → Option (List β)} {p : α × γ} {z : List β} :
    seq e₁ e₂ p = some z ↔ ∃ x y, e₁ p.1 = some x ∧ e₂ p.2 = some y ∧ z = x ++ y := by
  simp only [seq,Option.bind_eq_some_iff,Option.map_eq_some_iff]
  constructor
  · rintro ⟨x,hx,y,hy,rfl⟩
    exact ⟨x,y,hx,hy,rfl⟩
  · rintro ⟨x,y,hx,hy,rfl⟩
    exact ⟨x,hx,y,hy,rfl⟩

theorem PrefixFree.seq {e₁ : α → Option (List β)} {e₂ : γ → Option (List β)} (h₁ : PrefixFree e₁)
    (h₂ : PrefixFree e₂) : PrefixFree (seq e₁ e₂) := by
  rintro ⟨a₁,a₂⟩ ⟨b₁,b₂⟩ x y hx hy r s hrs
  obtain ⟨x₁,x₂,hx₁,hx₂,rfl⟩ := seq_eq_some.1 hx
  obtain ⟨y₁,y₂,hy₁,hy₂,rfl⟩ := seq_eq_some.1 hy
  simp only [append_assoc] at hrs
  obtain ⟨rfl,hrs⟩ := h₁ hx₁ hy₁ hrs
  obtain ⟨rfl,hrs⟩ := h₂ hx₂ hy₂ hrs
  exact ⟨rfl,hrs⟩

theorem isSome_seq {e₁ : α → Option (List β)} {e₂ : γ → Option (List β)} {p : α × γ} :
    (seq e₁ e₂ p).isSome ↔ (e₁ p.1).isSome ∧ (e₂ p.2).isSome := by
  cases h₁ : e₁ p.1 <;> cases h₂ : e₂ p.2 <;> simp [seq,h₁,h₂]

/-- Two codes that begin with the same prefix code begin with the same value,
whatever follows. -/
theorem PrefixFree.seq_fst {e₁ : α → Option (List β)} {e₂ e₂' : γ → Option (List β)}
    (h₁ : PrefixFree e₁) {p q : α × γ} {t : List β} (hp : PrefixCode.seq e₁ e₂ p = some t)
    (hq : PrefixCode.seq e₁ e₂' q = some t) : p.1 = q.1 := by
  obtain ⟨x₁,x₂,hx₁,-,rfl⟩ := seq_eq_some.1 hp
  obtain ⟨y₁,y₂,hy₁,-,heq⟩ := seq_eq_some.1 hq
  exact (h₁ hx₁ hy₁ heq).1

/-! ### Lengths and counts -/

/-- `value` after the code of its length. -/
def lengthPrefixed (lenCode : ℕ → Option (List β)) (value : List β) : Option (List β) :=
  (lenCode value.length).map (· ++ value)

theorem PrefixFree.lengthPrefixed {lenCode : ℕ → Option (List β)} (h : PrefixFree lenCode) :
    PrefixFree (lengthPrefixed lenCode) := by
  intro a b x y ha hb r s hrs
  obtain ⟨c₁,hc₁,rfl⟩ := Option.map_eq_some_iff.1 ha
  obtain ⟨c₂,hc₂,rfl⟩ := Option.map_eq_some_iff.1 hb
  simp only [append_assoc] at hrs
  obtain ⟨hlen,hrs⟩ := h hc₁ hc₂ hrs
  exact append_inj hrs hlen

/-- A list as the code of its count followed by its elements' codes. -/
def counted (countCode : ℕ → Option (List β)) (e : α → Option (List β)) (l : List α) :
    Option (List β) :=
  (countCode l.length).bind fun c => (l.mapM e).map fun xs => c ++ xs.flatten

/-- Lists of one length whose codes agree up to what follows are equal. -/
theorem PrefixFree.mapM {e : α → Option (List β)} (h : PrefixFree e) :
    ∀ {l₁ l₂ : List α} {xs₁ xs₂ : List (List β)}, l₁.length = l₂.length → l₁.mapM e = some xs₁ →
      l₂.mapM e = some xs₂ → ∀ {r s : List β}, xs₁.flatten ++ r = xs₂.flatten ++ s → l₁ = l₂ ∧ r = s
  | [], [], _, _, _, h₁, h₂, _, _, hrs => by
    simp only [mapM_nil,Option.pure_def,Option.some.injEq] at h₁ h₂
    subst h₁ h₂
    exact ⟨rfl,by simpa using hrs⟩
  | a :: l₁, b :: l₂, _, _, hlen, h₁, h₂, r, s, hrs => by
    simp only [mapM_cons,Option.bind_eq_bind,Option.bind_eq_some_iff,Option.pure_def,
      Option.some.injEq] at h₁ h₂
    obtain ⟨x,hx,xs₁,hxs₁,rfl⟩ := h₁
    obtain ⟨y,hy,xs₂,hxs₂,rfl⟩ := h₂
    simp only [flatten_cons,append_assoc] at hrs
    obtain ⟨rfl,hrs⟩ := h hx hy hrs
    obtain ⟨rfl,hrs⟩ := h.mapM (by simpa using hlen) hxs₁ hxs₂ hrs
    exact ⟨rfl,hrs⟩

theorem isSome_mapM {e : α → Option (List β)} :
    ∀ {l : List α}, (l.mapM e).isSome ↔ ∀ a ∈ l, (e a).isSome
  | [] => by simp
  | a :: l => by
    rw [forall_mem_cons,← isSome_mapM (l := l)]
    cases h : e a <;> cases h' : l.mapM e <;> simp [mapM_cons,h,h']

theorem isSome_counted {countCode : ℕ → Option (List β)} {e : α → Option (List β)} {l : List α} :
    (counted countCode e l).isSome ↔ (countCode l.length).isSome ∧ ∀ a ∈ l, (e a).isSome := by
  rw [← isSome_mapM]
  cases hc : countCode l.length <;> cases hm : l.mapM e <;> simp [counted,hc,hm]

theorem PrefixFree.counted {countCode : ℕ → Option (List β)} {e : α → Option (List β)}
    (hc : PrefixFree countCode) (he : PrefixFree e) : PrefixFree (counted countCode e) := by
  intro a b x y ha hb r s hrs
  simp only [PrefixCode.counted,Option.bind_eq_some_iff,Option.map_eq_some_iff] at ha hb
  obtain ⟨c₁,hc₁,xs₁,hxs₁,rfl⟩ := ha
  obtain ⟨c₂,hc₂,xs₂,hxs₂,rfl⟩ := hb
  simp only [append_assoc] at hrs
  obtain ⟨hlen,hrs⟩ := hc hc₁ hc₂ hrs
  exact he.mapM hlen hxs₁ hxs₂ hrs

/-! ### A value that may be absent, last -/

/-- Nothing, or a value's code. -/
def orEmpty (e : α → Option (List β)) : Option α → Option (List β)
  | none => some []
  | some a => e a

/-- Absent and present values differ when no code is empty; nothing may follow. -/
theorem PrefixFree.orEmpty_injective {e : α → Option (List β)} (h : PrefixFree e)
    (hne : ∀ a x, e a = some x → x ≠ []) {o₁ o₂ : Option α} {x : List β}
    (h₁ : orEmpty e o₁ = some x) (h₂ : orEmpty e o₂ = some x) : o₁ = o₂ := by
  cases o₁ with
  | none =>
    cases o₂ with
    | none => rfl
    | some b => exact absurd (Option.some.inj h₁).symm (hne b x h₂)
  | some a =>
    cases o₂ with
    | none => exact absurd (Option.some.inj h₂).symm (hne a x h₁)
    | some b => exact congrArg some (h.injective h₁ h₂)

/-! ### Big-endian numbers -/

/-- `n` in `width` big-endian bytes, where it fits. -/
def bigEndian (width n : ℕ) : Option (List UInt8) :=
  if n < 256 ^ width then some (BigEndian.bytes width n) else none

theorem bigEndian_eq_some {width n : ℕ} {x : List UInt8} :
    bigEndian width n = some x ↔ n < 256 ^ width ∧ x = BigEndian.bytes width n := by
  unfold bigEndian
  split <;> simp_all [eq_comm]

theorem prefixFree_bigEndian (width : ℕ) : PrefixFree (bigEndian width) := by
  intro a b x y ha hb r s hrs
  obtain ⟨ha',rfl⟩ := bigEndian_eq_some.1 ha
  obtain ⟨hb',rfl⟩ := bigEndian_eq_some.1 hb
  obtain ⟨hab,hrs⟩ := append_inj hrs (by simp)
  -- the bytes spell the number back
  have := congrArg BigEndian.value hab
  rw [BigEndian.value_bytes width a ha',BigEndian.value_bytes width b hb'] at this
  exact ⟨this,hrs⟩

end PrefixCode
