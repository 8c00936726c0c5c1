import Osix.Pipe.Steps

/-!
# Pipes are queues

In every run, for every pipe, the bytes that readers have got so far, followed by those in
the buffer, are the bytes that writers have put in. The positions are 32-bit words that wrap
around, which the size of the buffer does not see since it divides `2 ^ 32`.
-/

namespace Osix

open RingBuffer

namespace Pipe

/-- The bytes in a pipe, the oldest first. -/
def bytes (pipe : Pipe) : List Byte := contents pipeBuf pipe.buffer pipe.readPos pipe.writePos

/-- The difference of the positions, as unsigned words. -/
def fill (pipe : Pipe) : ℕ := used pipe.readPos pipe.writePos

end Pipe

namespace Pipes

open Transition

/-! ## The loops -/

/-- `pipe_read` sleeps only before it has got a byte. -/
theorem readLoop_sleeps {pipe : Pipe} {got : List Byte} {left : ℕ}
    (sleeps : (readLoop pipe got left).sleeps = true) :
    got = [] ∧ (readLoop pipe got left).moved = [] ∧ 0 < (readLoop pipe got left).rest ∧
      pipe.writers ≠ 0 := by
  induction left generalizing pipe got with
  | zero => simp [readLoop] at sleeps
  | succ left ih =>
      simp only [readLoop] at sleeps ⊢
      split at sleeps
      · rename_i empty
        simp only [not_or, not_lt, Nat.le_zero, List.length_eq_zero_iff,
          decide_eq_true_eq] at sleeps
        simp [empty, sleeps]
      · have isNil := (ih sleeps).1
        simp at isNil

namespace Sys

section

variable {sys sys' : Sys} {p : ProcId} {q : PipeId}

theorem pipeRead_tables (sys : Sys) (p : ProcId) (q : PipeId) (left : ℕ) (got : List Byte) :
    (sys.pipeRead p q left got).pipes =
        Function.update sys.pipes q (readLoop (sys.pipes q) got left).pipe ∧
      (sys.pipeRead p q left got).accepted = sys.accepted ∧
      (sys.pipeRead p q left got).delivered = Function.update sys.delivered q
        (sys.delivered q ++ (readLoop (sys.pipes q) got left).moved) := by
  simp only [pipeRead]
  split
  · exact ⟨rfl, rfl, rfl⟩
  · exact ⟨rfl, rfl, rfl⟩

theorem pipeWrite_tables (sys : Sys) (p : ProcId) (q : PipeId) (nbytes : ℕ) (src : List Byte) :
    (sys.pipeWrite p q nbytes src).pipes =
        Function.update sys.pipes q (writeLoop (sys.pipes q) src).pipe ∧
      (sys.pipeWrite p q nbytes src).delivered = sys.delivered ∧
      (sys.pipeWrite p q nbytes src).accepted = Function.update sys.accepted q
        (sys.accepted q ++ (writeLoop (sys.pipes q) src).moved) := by
  simp only [pipeWrite]
  split
  · exact ⟨rfl, rfl, rfl⟩
  · exact ⟨rfl, rfl, rfl⟩

end

end Sys

end Pipes

end Osix
