import Mathlib.Algebra.Group.Int.Defs
import Mathlib.Algebra.GroupWithZero.Nat
import Mathlib.Data.Int.Notation
import Mathlib.Data.Nat.Notation

/-!
# Shared types and constants of the kernel

Device numbers, disk blocks, error numbers and the configuration constants of `sys/sys`
that more than one part of the kernel uses, together with the messages with which the
kernel stops.
-/

namespace Osix

/-- `dev_t`, a signed short; `-1` marks a table entry that belongs to no device. -/
abbrev Dev := ℤ

/-- `uint8_t`. -/
abbrev Byte := BitVec 8

instance : LawfulBEq Byte := instLawfulBEq

/-- The bytes of a block; those from index `blockSize` on are not part of it. -/
abbrev Block := ℕ → Byte

/-- `major(x)`: `(x >> 8) & 0xFF`. -/
def major (dev : Dev) : ℤ := dev / 256 % 256

/-- `minor(x)`: `x & 0xFF`. -/
def minor (dev : Dev) : ℤ := dev % 256

/-- `BLOCK_SIZE`. -/
def blockSize : ℕ := 1024

/-- `NBUF`. -/
def nbuf : ℕ := 64

instance : NeZero nbuf := ⟨by decide⟩

/-- `NPROC`. -/
def nproc : ℕ := 8

instance : NeZero nproc := ⟨by decide⟩

/-- `num_bdev`: the block device switch has the single entry `wd`. -/
def numBdev : ℤ := 1

/-! ## Error numbers -/

def eperm : ℤ := 1
def enoent : ℤ := 2
def esrch : ℤ := 3
def eintr : ℤ := 4
def eio : ℤ := 5
def enoexec : ℤ := 8
def ebadf : ℤ := 9
def echild : ℤ := 10
def enomem : ℤ := 12
def eacces : ℤ := 13
def efault : ℤ := 14
def enodev : ℤ := 19
def enotdir : ℤ := 20
def einval : ℤ := 22
def enfile : ℤ := 23
def emfile : ℤ := 24
def enotty : ℤ := 25

/-! ## Panics -/

/-- The messages with which the kernel stops. -/
inductive Panic where
  | getblk
  | noBuffersFree
  | breadNoReadFunction
  | bwriteNoWriteFunction
  | badRefCount
  | bfreeBadBlockNo
  | bfreeBlockNotAllocated
  | inodeCacheFull
  | bmapNotLocked
  | doubleIndirect
  | readiNotLocked
  | writeiNotLocked
  | writeiBlockDev
  | writeiFifo
  | ilock
  | iunlock
  | itrunc
  | iput
  | ifreeBadInodeno
  | ifreeOutOfRange
  | ifreeNotAllocated
  | unlinkNlinks
  | noFreeInode
  | fileClose
  | pipeReadNotAPipe
  | pipeWriteNotAPipe
  | pipeCloseNotAPipe
  | execReadError
deriving DecidableEq, Repr

/-- No block device has the number that marks unused entries. -/
theorem numBdev_le_major_unused : numBdev ≤ major (-1) := by decide

end Osix
