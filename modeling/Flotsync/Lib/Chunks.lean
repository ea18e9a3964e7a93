import Mathlib

/-!
Cutting a list into consecutive pieces of one width, all full but the last, and
joining the pieces again: how a payload is sliced into parts and reassembled.
-/

set_option autoImplicit false

namespace Chunks

variable {α : Type*}

/-- The piece of width `m` that starts at entry `i * m`; it is shorter at the end. -/
def piece (l : List α) (m i : ℕ) : List α := (l.drop (i * m)).take m

theorem flatten_pieces (l : List α) (m : ℕ) :
    ∀ n, ((List.range n).map (piece l m)).flatten = l.take (n * m)
  | 0 => by simp
  | n + 1 => by
    rw [List.range_succ, List.map_append, List.flatten_append, flatten_pieces l m n,
      Nat.succ_mul, List.take_add]
    simp [piece]

/-- Full pieces up to the `n`-th, followed by everything from there on, give the list. -/
theorem flatten_pieces_append_drop (l : List α) (m n : ℕ) :
    ((List.range n).map (piece l m)).flatten ++ l.drop (n * m) = l := by
  rw [flatten_pieces, List.take_append_drop]

theorem length_piece {l : List α} {m i : ℕ} (h : (i + 1) * m ≤ l.length) :
    (piece l m i).length = m := by
  rw [Nat.succ_mul] at h
  simp only [piece, List.length_take, List.length_drop]
  omega

/-- With `n` pieces of width `m > 0` covering a list, `n = ⌈length / m⌉` and at least
one piece: the last piece starts inside the list, or at its start when it is empty. -/
theorem ceil_bounds {a m : ℕ} (hm : 0 < m) (ha : 0 < a) :
    ((a + m - 1) / m - 1) * m < a ∧ a ≤ (a + m - 1) / m * m := by
  have hdiv := Nat.div_add_mod (a + m - 1) m
  have hmod := Nat.mod_lt (a + m - 1) hm
  set n := (a + m - 1) / m
  have hn : 0 < n := Nat.div_pos (by omega) hm
  have hsub : (n - 1) * m = n * m - m := Nat.sub_one_mul n m
  rw [Nat.mul_comm] at hdiv
  constructor <;> omega

end Chunks
