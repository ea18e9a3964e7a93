import Mathlib

/-!
Fixed-width big-endian integers in a byte stream, as a buffer writes and reads them:
a writer appends the `width` low bytes of a number, most significant first, and a
reader takes them from the front of the stream and leaves the rest. Reading back what
was written gives the number and the rest; conversely every successful read took a
written number off the front.
-/

set_option autoImplicit false

namespace BigEndian

/-- The `width` low bytes of `n`, most significant first. -/
def bytes : ℕ → ℕ → List UInt8
  | 0, _ => []
  | width + 1, n => bytes width (n / 256) ++ [UInt8.ofNat n]

/-- The number the bytes spell, most significant first. -/
def value (bs : List UInt8) : ℕ := bs.foldl (fun acc b => acc * 256 + b.toNat) 0

@[simp] theorem length_bytes : ∀ width n, (bytes width n).length = width
  | 0, _ => rfl
  | width + 1, n => by simp [bytes, length_bytes width]

theorem value_append_singleton (bs : List UInt8) (b : UInt8) :
    value (bs ++ [b]) = value bs * 256 + b.toNat := by
  simp [value, List.foldl_append]

theorem value_lt (bs : List UInt8) : value bs < 256 ^ bs.length := by
  induction bs using List.reverseRecOn with
  | nil => simp [value]
  | append_singleton bs b ih =>
    have hb := b.toNat_lt
    rw [value_append_singleton, List.length_append, List.length_singleton, pow_succ]
    nlinarith

theorem value_bytes : ∀ (width n : ℕ), n < 256 ^ width → value (bytes width n) = n
  | 0, n, h => by simp_all [value, bytes]
  | width + 1, n, h => by
    have hdiv : n / 256 < 256 ^ width := by
      rw [pow_succ] at h
      omega
    have hbyte : (UInt8.ofNat n).toNat = n % 256 := by simp
    rw [bytes, value_append_singleton, value_bytes width (n / 256) hdiv, hbyte]
    omega

theorem bytes_value (bs : List UInt8) : bytes bs.length (value bs) = bs := by
  induction bs using List.reverseRecOn with
  | nil => rfl
  | append_singleton bs b ih =>
    have hb := b.toNat_lt
    have hdiv : (value bs * 256 + b.toNat) / 256 = value bs := by omega
    rw [value_append_singleton, List.length_append, List.length_singleton, bytes, hdiv, ih]
    congr
    apply UInt8.toNat_inj.1
    have hbyte : (UInt8.ofNat (value bs * 256 + b.toNat)).toNat = (value bs * 256 + b.toNat) % 256 := by
      simp
    rw [hbyte]
    omega

/-- Read `width` bytes off the front; `none` when the stream is shorter. -/
def read (width : ℕ) (bs : List UInt8) : Option (ℕ × List UInt8) :=
  if width ≤ bs.length then some (value (bs.take width), bs.drop width) else none

theorem read_bytes_append {width n : ℕ} (h : n < 256 ^ width) (rest : List UInt8) :
    read width (bytes width n ++ rest) = some (n, rest) := by
  simp [read, List.take_left', List.drop_left', value_bytes width n h]

theorem eq_of_read {width n : ℕ} {bs rest : List UInt8} (h : read width bs = some (n, rest)) :
    bs = bytes width n ++ rest ∧ n < 256 ^ width := by
  unfold read at h
  split_ifs at h with hlen
  simp only [Option.some.injEq, Prod.mk.injEq] at h
  obtain ⟨rfl, rfl⟩ := h
  have hlength : (bs.take width).length = width := List.length_take_of_le hlen
  have hlt := value_lt (bs.take width)
  rw [hlength] at hlt
  refine ⟨?_, hlt⟩
  conv_lhs => rw [← List.take_append_drop width bs, ← bytes_value (bs.take width)]
  rw [hlength]

/-! The reads and writes of one byte and of a `u32`. -/

def putU32 (x : UInt32) : List UInt8 := bytes 4 x.toNat

def getU8 : List UInt8 → Option (UInt8 × List UInt8)
  | [] => none
  | b :: rest => some (b, rest)

def getU32 (bs : List UInt8) : Option (UInt32 × List UInt8) :=
  (read 4 bs).map fun r => (UInt32.ofNat r.1, r.2)

@[simp] theorem length_putU32 (x : UInt32) : (putU32 x).length = 4 := length_bytes 4 _

@[simp] theorem getU8_cons (b : UInt8) (rest : List UInt8) : getU8 (b :: rest) = some (b, rest) := rfl

@[simp] theorem getU32_putU32_append (x : UInt32) (rest : List UInt8) :
    getU32 (putU32 x ++ rest) = some (x, rest) := by
  have hlt : x.toNat < 256 ^ 4 := lt_of_lt_of_eq x.toNat_lt (by norm_num)
  simp [getU32, putU32, read_bytes_append hlt]

theorem eq_of_getU8 {bs rest : List UInt8} {b : UInt8} (h : getU8 bs = some (b, rest)) :
    bs = b :: rest := by
  cases bs with
  | nil => cases h
  | cons b' rest' =>
    simp only [getU8_cons, Option.some.injEq, Prod.mk.injEq] at h
    rw [h.1, h.2]

theorem eq_of_getU32 {bs rest : List UInt8} {x : UInt32} (h : getU32 bs = some (x, rest)) :
    bs = putU32 x ++ rest := by
  obtain ⟨⟨n, rest'⟩, hread, hx⟩ := Option.map_eq_some_iff.1 h
  simp only [Prod.mk.injEq] at hx
  obtain ⟨rfl, rfl⟩ := hx
  obtain ⟨rfl, hlt⟩ := eq_of_read hread
  rw [putU32, UInt32.toNat_ofNat_of_lt' (lt_of_lt_of_eq hlt (by norm_num))]

theorem getU8_isSome {bs : List UInt8} (h : 1 ≤ bs.length) : (getU8 bs).isSome := by
  cases bs with
  | nil => simp at h
  | cons b rest => rfl

theorem getU32_isSome {bs : List UInt8} (h : 4 ≤ bs.length) : (getU32 bs).isSome := by
  simp [getU32, read, h]

/-- Four bytes at the front of a stream are some `u32`. -/
theorem exists_putU32_append (bs : List UInt8) (h : 4 ≤ bs.length) :
    ∃ x rest, bs = putU32 x ++ rest ∧ rest.length + 4 = bs.length := by
  obtain ⟨⟨x, rest⟩, hget⟩ := Option.isSome_iff_exists.1 (getU32_isSome h)
  have hbs := eq_of_getU32 hget
  refine ⟨x, rest, hbs, ?_⟩
  rw [hbs, List.length_append, length_putU32]
  omega

end BigEndian
