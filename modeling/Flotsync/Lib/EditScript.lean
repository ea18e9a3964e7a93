import Mathlib

/-!
The hunks of an edit script as the `similar` crate returns them: each walks the old and
the new sequence from the front, keeping a stretch of both (`equal`), dropping one of the
old (`delete`), taking one of the new (`insert`), or both at once (`replace`).
-/

set_option autoImplicit false

namespace EditScript

/-- A hunk, with the indices where it starts in the old and the new sequence. -/
inductive DiffOp where
  | equal (oldIndex newIndex len : ℕ)
  | delete (oldIndex oldLen newIndex : ℕ)
  | insert (oldIndex newIndex newLen : ℕ)
  | replace (oldIndex oldLen newIndex newLen : ℕ)
deriving DecidableEq, Repr

end EditScript
