import Mathlib.Data.Nat.Basic

/-!
# The stack of a process

A process has one page for its stack, which does not grow. A function that calls itself needs room
for its arguments and for the return address of every call that has not returned yet; the programs
are built without optimisations, so no call is turned into a jump. How much room is left and how
many bytes the compiler takes for a call are parameters.
-/

namespace Osix

/-- `STACK_SIZE`. -/
def stackSize : ℕ := 4096

/-- What is left of the stack for the calls of a function with so many arguments. -/
structure UserStack (args : ℕ) where
  room : ℕ
  frame : ℕ
  onePage : room ≤ stackSize
  holdsArgs : 4 * (args + 1) ≤ frame

namespace UserStack

variable {args : ℕ}

/-- The number of calls within each other that the stack has room for. -/
def calls (stack : UserStack args) : ℕ := stack.room / stack.frame

theorem calls_le (stack : UserStack args) : stack.calls ≤ stackSize / (4 * (args + 1)) := by
  have positive : 0 < 4 * (args + 1) := Nat.mul_pos (by decide) (Nat.succ_pos args)
  exact Nat.le_trans (Nat.div_le_div_left stack.holdsArgs positive)
    (Nat.div_le_div_right stack.onePage)

/-- The whole page, with nothing in it but arguments and return addresses. -/
def page (args : ℕ) : UserStack args where
  room := stackSize
  frame := 4 * (args + 1)
  onePage := Nat.le_refl _
  holdsArgs := Nat.le_refl _

end UserStack

end Osix
