import Osix.Fs.Machine
import Osix.Fs.Footprint
import Osix.Bio.Processes
import Osix.Lib.Pool

/-!
# Several processes on the buffer cache

The machine that runs the system calls of all processes: the in-core tables, the buffer
cache below them and, for every process, what it holds. Control passes from one process
to another only where an operation waits. `bread` waits twice, for a busy buffer and for
the disk; a process whose read is under way may be woken at any time, by the interrupt
for its own read or by that for another one.

`bufs`, `locks` and `uses` record which buffers the code of a process has got, which
inodes it has locked and which ones its current system call works with; `unlinking` is
the number of the inode whose entry it has just removed. The code does not look at them.
-/

namespace Osix

open Program

/-- The shared state of the processes. -/
structure Kernel where
  core : Core
  bio : BioSys ProcId
  napping : ProcId → Bool
  bufs : ProcId → List BufId
  locks : ProcId → List InodeId
  uses : ProcId → List InodeId
  unlinking : ProcId → Option ℕ

/-- What happens outside of the processes. -/
inductive Interrupt where
  | readIntr (buf : BufId)
  | writeIntr (buf : BufId)
  | ttyInput (t : TtyId) (char : Byte)
  | signal (p : ProcId) (signals : ℕ)
  | tick

abbrev KOutcome (Reply : Type) := Outcome Reply Kernel Stop

namespace Kernel

def addBuf (kernel : Kernel) (pid : ProcId) (buf : BufId) : Kernel :=
  { kernel with bufs := Function.update kernel.bufs pid (buf :: kernel.bufs pid) }

def dropBuf (kernel : Kernel) (pid : ProcId) (buf : BufId) : Kernel :=
  { kernel with bufs := Function.update kernel.bufs pid ((kernel.bufs pid).erase buf) }

def addLock (kernel : Kernel) (pid : ProcId) (i : InodeId) : Kernel :=
  { kernel with locks := Function.update kernel.locks pid (i :: kernel.locks pid) }

def dropLock (kernel : Kernel) (pid : ProcId) (i : InodeId) : Kernel :=
  { kernel with locks := Function.update kernel.locks pid ((kernel.locks pid).erase i) }

def addUse (kernel : Kernel) (pid : ProcId) (i : InodeId) : Kernel :=
  { kernel with uses := Function.update kernel.uses pid (i :: kernel.uses pid) }

def dropUse (kernel : Kernel) (pid : ProcId) (i : InodeId) : Kernel :=
  { kernel with uses := Function.update kernel.uses pid ((kernel.uses pid).erase i) }

def setUnlinking (kernel : Kernel) (pid : ProcId) (inodeno : Option ℕ) : Kernel :=
  { kernel with unlinking := Function.update kernel.unlinking pid inodeno }

/-- The record of what `pid` holds after one of its operations on the tables. -/
def record (kernel : Kernel) (pid : ProcId) :
    (operation : FsOp BufId) → operation.Reply → Kernel
  | .ifind _ _, (i, cached) =>
      let kernel := (kernel.setUnlinking pid none).addUse pid i
      if cached then kernel else kernel.addLock pid i
  | .ilock i, _ => kernel.addLock pid i
  | .iunlock i, _ => kernel.dropLock pid i
  | .idup i, _ => kernel.addUse pid i
  | .mark (.uses i), _ => kernel.addUse pid i
  | .mark (.drops i), _ => kernel.dropUse pid i
  | .mark (.unlinks _ inodeno), _ => kernel.setUnlinking pid (some inodeno)
  | _, _ => kernel

/-- `bread` once `getblk` has returned `buf`. -/
def breadFound (kernel : Kernel) (pid : ProcId) (dev : Dev) (buf : BufId) (bio : Bio) :
    KOutcome BufId :=
  let sys := { kernel.bio with holds := (pid, buf) :: kernel.bio.holds }
  match bio.breadFound dev buf with
  | .error message => .stop (.panic message)
  | .ok (.returned, bio) =>
      .done buf
        ({ kernel with bio := { sys with bio := bio }.setPhase pid .idle }.addBuf pid buf)
  | .ok (.asleep, bio) =>
      .wait { kernel with bio := { sys with bio := bio }.setPhase pid (.reading buf) }

def bread (kernel : Kernel) (pid : ProcId) (dev : Dev) (blockNo : ℕ) : KOutcome BufId :=
  match kernel.bio.phase pid with
  | .reading buf =>
      .done buf ({ kernel with bio := kernel.bio.setPhase pid .idle }.addBuf pid buf)
  | _ =>
      match kernel.bio.bio.getblk dev blockNo with
      | .error message => .stop (.panic message)
      | .ok (.sleep _ bio) =>
          .wait { kernel with
            bio := { kernel.bio with bio := bio }.setPhase pid (.waiting dev blockNo true) }
      | .ok (.found buf bio) => kernel.breadFound pid dev buf bio

/-- Replaces the cache below the processes. -/
def withBio (kernel : Kernel) (bio : Bio) : Kernel :=
  { kernel with bio := { kernel.bio with bio := bio } }

def bwrite (kernel : Kernel) (buf : BufId) : KOutcome Unit :=
  match kernel.bio.bio.bwrite buf with
  | .error message => .stop (.panic message)
  | .ok bio => .done () (kernel.withBio bio)

def brelse (kernel : Kernel) (pid : ProcId) (buf : BufId) : KOutcome Unit :=
  match kernel.bio.bio.brelse buf with
  | .error message => .stop (.panic message)
  | .ok bio =>
      .done () ({ kernel with
        bio := { kernel.bio with
          bio := bio, holds := kernel.bio.holds.erase (pid, buf) } }.dropBuf pid buf)

/-- A sleep ends with the first wake-up, whoever sent it. -/
def sleep (kernel : Kernel) (pid : ProcId) : KOutcome Unit :=
  if kernel.napping pid then
    .done () { kernel with napping := Function.update kernel.napping pid false }
  else
    .wait { kernel with napping := Function.update kernel.napping pid true }

/-- An operation on the tables, with its record. -/
def table (kernel : Kernel) (pid : ProcId) (operation : FsOp BufId) :
    KOutcome operation.Reply :=
  match kernel.core.perform operation with
  | .done reply core => .done reply ({ kernel with core := core }.record pid operation reply)
  | .wait core => .wait { kernel with core := core }
  | .stop why => .stop why

def handler (pid : ProcId) : (operation : FsOp BufId) → Kernel → KOutcome operation.Reply
  | .bread dev blockNo, kernel => kernel.bread pid dev blockNo
  | .bdata buf, kernel => .done (kernel.bio.bio.bcache buf).data kernel
  | .bstore buf change, kernel =>
      .done () (kernel.withBio (kernel.bio.bio.setBuf buf fun old =>
        { old with data := change old.data }))
  | .bdirty buf, kernel =>
      .done () (kernel.withBio (kernel.bio.bio.setFlags buf fun flags =>
        { flags with dirty := true }))
  | .bwrite buf, kernel => kernel.bwrite buf
  | .brelse buf, kernel => kernel.brelse pid buf
  | .sleep _, kernel => kernel.sleep pid
  | operation, kernel => kernel.table pid operation

theorem handler_eq_table {operation : FsOp BufId} (notBuffer : operation.kind ≠ .buffer)
    (notSleep : operation.kind ≠ .sleep) (pid : ProcId) (kernel : Kernel) :
    handler pid operation kernel = kernel.table pid operation := by
  cases operation <;> first
    | rfl
    | exact absurd rfl notBuffer
    | exact absurd rfl notSleep

theorem record_core (kernel : Kernel) (pid : ProcId) (operation : FsOp BufId)
    (reply : operation.Reply) : (kernel.record pid operation reply).core = kernel.core := by
  unfold record
  split <;> try rfl
  split <;> rfl

/-- The tables and the record of locks and uses are the same. -/
structure SameTables (kernel kernel' : Kernel) : Prop where
  core : kernel'.core = kernel.core
  locks : kernel'.locks = kernel.locks
  uses : kernel'.uses = kernel.uses
  unlinking : kernel'.unlinking = kernel.unlinking

theorem breadFound_tables {kernel kernel' : Kernel} {pid : ProcId} {dev : Dev} {buf : BufId}
    {bio : Bio} (happened : (kernel.breadFound pid dev buf bio).after = some kernel') :
    kernel.SameTables kernel' := by
  unfold breadFound at happened
  dsimp only at happened
  split at happened <;> cases happened
  · exact ⟨rfl, rfl, rfl, rfl⟩
  · exact ⟨rfl, rfl, rfl, rfl⟩

theorem bread_tables {kernel kernel' : Kernel} {pid : ProcId} {dev : Dev} {blockNo : ℕ}
    (happened : (kernel.bread pid dev blockNo).after = some kernel') :
    kernel.SameTables kernel' := by
  unfold bread at happened
  split at happened
  · cases happened
    exact ⟨rfl, rfl, rfl, rfl⟩
  split at happened
  · cases happened
  · cases happened
    exact ⟨rfl, rfl, rfl, rfl⟩
  · exact breadFound_tables happened

/-- The machine changes the tables by the operations on the tables only. -/
theorem handler_tables {kernel kernel' : Kernel} {pid : ProcId} {operation : FsOp BufId}
    (happened : (handler pid operation kernel).after = some kernel') :
    kernel.SameTables kernel' ∧ operation.kind ≠ .holding ∨
      handler pid operation kernel = kernel.table pid operation := by
  by_cases isTable : operation.kind ≠ .buffer ∧ operation.kind ≠ .sleep
  · exact Or.inr (handler_eq_table isTable.1 isTable.2 pid kernel)
  refine Or.inl ⟨?_, fun isHolding => isTable (by simp [isHolding])⟩
  cases operation with
  | bread dev blockNo => exact bread_tables happened
  | bdata buf =>
      cases happened
      exact ⟨rfl, rfl, rfl, rfl⟩
  | bstore buf change =>
      cases happened
      exact ⟨rfl, rfl, rfl, rfl⟩
  | bdirty buf =>
      cases happened
      exact ⟨rfl, rfl, rfl, rfl⟩
  | bwrite buf =>
      change (kernel.bwrite buf).after = _ at happened
      unfold bwrite at happened
      split at happened <;> cases happened
      exact ⟨rfl, rfl, rfl, rfl⟩
  | brelse buf =>
      change (kernel.brelse pid buf).after = _ at happened
      unfold brelse at happened
      split at happened <;> cases happened
      exact ⟨rfl, rfl, rfl, rfl⟩
  | sleep chan =>
      change (kernel.sleep pid).after = _ at happened
      unfold sleep at happened
      split at happened <;> cases happened
      · exact ⟨rfl, rfl, rfl, rfl⟩
      · exact ⟨rfl, rfl, rfl, rfl⟩
  | mark event => cases event <;> exact absurd ⟨nofun, nofun⟩ isTable
  | stop why => cases happened
  | _ => exact absurd ⟨nofun, nofun⟩ isTable

theorem handler_core {kernel kernel' : Kernel} {pid : ProcId} {operation : FsOp BufId}
    (happened : (handler pid operation kernel).after = some kernel') :
    kernel'.core = kernel.core ∨ (kernel.core.perform operation).after = some kernel'.core := by
  rcases handler_tables happened with ⟨same, -⟩ | isTable
  · exact Or.inl same.core
  rw [isTable] at happened
  unfold table at happened
  split at happened <;> cases happened
  · rename_i performed
    rw [performed, record_core]
    exact Or.inr rfl
  · rename_i performed
    rw [performed]
    exact Or.inr rfl

def interrupt (event : Interrupt) (kernel : Kernel) : Kernel :=
  match event with
  | .readIntr buf => kernel.withBio (kernel.bio.bio.readIntr buf)
  | .writeIntr buf => kernel.withBio (kernel.bio.bio.iodone buf)
  | .ttyInput t char => { kernel with core := kernel.core.ttyInput t char }
  | .signal p signals =>
      { kernel with core := kernel.core.setProc p fun old =>
          { old with sigPending := old.sigPending ||| signals } }
  | .tick => { kernel with core := { kernel.core with pitTime := kernel.core.pitTime + 1 } }

theorem interrupt_inodes (event : Interrupt) (kernel : Kernel) :
    (interrupt event kernel).core.inodes = kernel.core.inodes := by
  cases event with
  | ttyInput t char =>
      simp only [interrupt, Core.ttyInput]
      split
      · split <;> rfl
      · rfl
  | _ => rfl

/-- The kernel as a system of processes that make system calls. -/
def system : System ProcId (FsOp BufId) FsOp.Reply Answer Kernel Stop Call Interrupt where
  handler := handler
  code := sysent
  ready kernel pid := (kernel.core.procs pid).live
  ends pid kernel := { kernel with uses := Function.update kernel.uses pid [] }
  env := interrupt

end Kernel

abbrev KernelPool := Pool ProcId (FsOp BufId) FsOp.Reply Answer Kernel Stop

abbrev KernelAct := PoolAct ProcId Call Interrupt

/-- One step of the kernel. -/
def KernelPool.step : KernelPool → KernelAct → Option KernelPool := Pool.step Kernel.system

/-- After `buf_init` and `mount`: given tables and an empty buffer cache. -/
def Kernel.boot (core : Core) (disk : Dev → ℕ → Block) (online : Dev → Bool) : Kernel where
  core := core
  bio := .boot disk online
  napping := fun _ => false
  bufs := fun _ => []
  locks := fun _ => []
  uses := fun _ => []
  unlinking := fun _ => none

/-! ## A small file system -/

/-- One block each of inode map, zone map and inodes; the data zones start with block 5. -/
def smallSuper : Super := ⟨100, 1, 1, 5⟩

/-- The inode of a file with one block, or of an empty one. -/
def smallInode (mode size zone : ℕ) : InodeData where
  mode := mode
  nlinks := 1
  uid := 0
  gid := 0
  time := 0
  size := size
  direct := fun index => if index = 0 then zone else 0
  indirect := 0
  dblindirect := 0

/-- The root directory with its entries `.`, `..`, `a` and `b`. -/
def smallRoot : InodeData := smallInode 0x41ff 128 5

/-- `a` is a file with one byte, `b` an empty file. -/
def smallDisk (_ : Dev) (blockNo : ℕ) : Block :=
  let empty : Block := fun _ => 0
  if blockNo = 2 ∨ blockNo = 3 then empty.copy 0 [7]
  else if blockNo = 4 then
    empty.copy 0 (smallRoot.toDisk ++ (smallInode 0x81ff 1 6).toDisk ++
      (smallInode 0x81ff 0 0).toDisk)
  else if blockNo = 5 then
    empty.copy 0 (Fs.dirent 1 [46] ++ Fs.dirent 1 [46, 46] ++ Fs.dirent 2 [97] ++
      Fs.dirent 3 [98])
  else empty

/-- After `mount`, with two processes whose current directory is the root. -/
def smallCore : Core :=
  { Core.init smallSuper with
    inodes := fun i =>
      if i = 0 then
        { Inode.unused with
          toInodeData := smallRoot, dev := rootDev, inodeno := rootInodeno, refcount := 3 }
      else .unused
    procs := fun p =>
      if p < 2 then { Proc.zero with state := .running, pid := p + 1, cwd := some 0 } else .zero
    rootInode := some 0
    nextpid := 3
    patience := 10 }

def Kernel.small : Kernel := .boot smallCore smallDisk fun _ => true

end Osix
