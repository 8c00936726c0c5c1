import Mathlib.Data.List.DropRight

/-!
# Characters

The classes of `include/ctype.h` that programs use to take text apart.
-/

namespace Osix.Ctype

def isspace (c : Char) : Bool :=
  c = ' ' ∨ c = '\t' ∨ c = '\n' ∨ c = '\x0b' ∨ c = '\x0c' ∨ c = '\r'

def isdigit (c : Char) : Bool := '0' ≤ c ∧ c ≤ '9'

theorem not_isspace_of_isdigit {c : Char} (digit : isdigit c = true) : isspace c = false := by
  by_contra space
  rw [Bool.not_eq_false, isspace, decide_eq_true_eq] at space
  rcases space with rfl | rfl | rfl | rfl | rfl | rfl <;> revert digit <;> decide

/-- Leading characters of a class are skipped up to one that is not in it. -/
theorem dropWhile_of_not {p : Char → Bool} {c : Char} (notIn : p c = false) (rest : List Char) :
    (c :: rest).dropWhile p = c :: rest :=
  List.dropWhile_cons_of_neg (by simp [notIn])

end Osix.Ctype
