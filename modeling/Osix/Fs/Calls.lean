import Osix.Fs.File

/-!
# System calls

The process part of the kernel as far as it touches the tables of the file system
(`kern_exec.c`, `kern_fork.c`, `kern_exit.c`, `wait` of `proc.c`, and `setuid` and `setgid` of
`kern_prot.c`, which `access` goes by), `sys_pipe`, and the
dispatch of `sysent.c` to the system calls that work on files. Memory management is left
out: `sys_exec` reads the program, and nothing is said about where to.
-/

namespace Osix

open Program

variable {H : Type}

/-- `STATE_NULL` and `STATE_ZOMBIE` entries of the process table run no code. -/
def Proc.live (proc : Proc) : Bool := proc.state = .running

namespace Fs

/-- `sys_exec`. -/
def sysExec (p : ProcId) (pathname : List Byte) : FsM H ℤ := do
  let found ← nameiname p pathname .own
  let i := found.inode
  if found.error ≠ 0 then
    return found.error
  else
    ilock i
    let (nread, magic) ← readi p i 0 2
    iunlock i
    if nread ≠ 2 ∨ magic ≠ [0xb8, 0x0b] then
      iput i
      return -enoexec
    else
      ilock i
      let size := (← getInode i).size
      let (ret, _) ← readi p i 0 (toUint size)
      if ret ≠ (← getInode i).size then
        panic .execReadError
      else
        iunlockput i
        return 0

/-- `proc_alloc`. -/
def procAlloc : FsM H (Option ProcId) := do
  let core ← getCore
  match (List.finRange nproc).find? fun p => (core.procs p).state = .null with
  | none => return none
  | some child =>
      setProc child fun _ => .zero
      if core.nextpid = 0x7fff then
        return none
      else
        let pid ← .perform FsOp.takePid
        setProc child fun old => { old with state := .idle, pid := pid }
        return some child

/-- The loop of `fork` that inherits the open files. -/
def forkFiles (p child : ProcId) : List (Fin nfile) → FsM H Unit
  | [] => return ()
  | fd :: rest => do
      let proc ← getProc p
      Prog.whenSome (proc.ofile fd) fun f => do
        fileDup f
        setProc child fun old => { old with ofile := Function.update old.ofile fd (some f) }
      forkFiles p child rest

def fork (p : ProcId) : FsM H ℤ := do
  match ← procAlloc with
  | none => return -1
  | some child =>
      let parent ← getProc p
      setProc child fun old =>
        { old with
          parent := some p
          pgrp := if parent.pgrp = 0 then old.pid else parent.pgrp
          uid := parent.uid
          gid := parent.gid
          sigMask := parent.sigMask }
      match parent.cwd with
      | none => fault
      | some cwd =>
          idup cwd
          setProc child fun old => { old with cwd := some cwd }
          forkFiles p child (List.finRange nfile)
          setProc child fun old => { old with state := .running }
          return (← getProc child).pid

/-- The loop of `proc_exit` over the process table. -/
def exitOrphans (p : ProcId) : List ProcId → FsM H Unit
  | [] => return ()
  | child :: rest => do
      let proc ← getProc child
      Prog.when (proc.parent = some p) do
        setProc child fun old => { old with parent := some 0 }
      exitOrphans p rest

/-- The loop of `proc_exit` over the open files. -/
def exitFiles (p : ProcId) : List (Fin nfile) → FsM H Unit
  | [] => return ()
  | fd :: rest => do
      let proc ← getProc p
      Prog.whenSome (proc.ofile fd) fileClose
      exitFiles p rest

/-- `proc_exit`; without a parent `pmap_activate` follows a `NULL` pointer. -/
def exit (p : ProcId) (status : ℤ) : FsM H Unit := do
  exitOrphans p (List.finRange nproc)
  exitFiles p (List.finRange nfile)
  let proc ← getProc p
  if proc.parent = none then
    fault
  else
    iputPtr proc.cwd
    setProc p fun old => { old with cwd := none, exitStatus := status, state := .zombie }

/-- The loop of `wait`. -/
def waitLoop (p : ProcId) : ℕ → FsM H ℤ
  | 0 => stop .outOfPatience
  | rounds + 1 => do
      let core ← getCore
      let child := fun other : ProcId =>
        (core.procs other).state ≠ .null ∧ (core.procs other).parent = some p
      match (List.finRange nproc).find? fun other =>
          child other ∧ (core.procs other).state = .zombie with
      | some other =>
          setProc other fun old => { old with state := .null }
          return (core.procs other).pid
      | none =>
          if ∃ other, child other then
            if (core.procs p).signalPending then
              return -eintr
            else
              sleep (.proc p)
              waitLoop p rounds
          else
            return -echild

def wait (p : ProcId) : FsM H ℤ := do
  waitLoop p (← getCore).patience

/-- `setuid` and `setgid`: only a process of `root` may have its ids changed. -/
def setId (p : ProcId) (change : Proc → Proc) : FsM H ℤ := do
  let proc ← getProc p
  if proc.uid ≠ 0 then
    return -eperm
  else
    setProc p change
    return 0

def setuid (p : ProcId) (uid : ℕ) : FsM H ℤ := setId p fun old => { old with uid := uid }

def setgid (p : ProcId) (gid : ℕ) : FsM H ℤ := setId p fun old => { old with gid := gid }

/-- `sys_pipe` once it has both files and the pipe. -/
def pipeOpen (p : ProcId) (readEnd writeEnd : FileId) (pipe : PipeId) : FsM H ℤ := do
  setFile readEnd fun old => { old with type := .pipe, pipe := some pipe }
  setPipe pipe fun old => { old with readers := old.readers + 1 }
  setFile writeEnd fun old => { old with type := .pipe, pipe := some pipe }
  setPipe pipe fun old => { old with writers := old.writers + 1 }
  let readFd ← fileFdAlloc p readEnd
  let writeFd ← fileFdAlloc p writeEnd
  if readFd < 0 ∨ writeFd < 0 then
    setProc p fun old =>
      { old with ofile := fun fd =>
          if (fd : ℤ) = readFd ∨ (fd : ℤ) = writeFd then none else old.ofile fd }
    fileClose readEnd
    fileClose writeEnd
    setPipe pipe fun _ => .zero
    return -emfile
  else
    return 0

/-- `sys_pipe` with a valid user address. -/
def pipeFiles (p : ProcId) : FsM H ℤ := do
  let readEnd ← fileAlloc
  let writeEnd ← fileAlloc
  match readEnd, writeEnd with
  | some readEnd, some writeEnd =>
      setFile readEnd fun old => { old with flags := oRdonly }
      setFile writeEnd fun old => { old with flags := oWronly }
      let core ← getCore
      match (List.finRange npipes).find? fun pipe =>
          (core.pipes pipe).readers = 0 ∧ (core.pipes pipe).writers = 0 with
      | none =>
          fileClose readEnd
          fileClose writeEnd
          return -enfile
      | some pipe => pipeOpen p readEnd writeEnd pipe
  | some readEnd, none =>
      fileClose readEnd
      return -enfile
  | none, some writeEnd =>
      fileClose writeEnd
      return -enfile
  | none, none => return -enfile

/-- `USER_TEXT`. -/
def userText : ℤ := 0x100000

/-- `USER_USTACK + STACK_SIZE`. -/
def userEnd : ℤ := 0x200000

/-- `sys_pipe` for the address `fd`, which the source takes as a `long`. -/
def sysPipe (p : ProcId) (fd : ℤ) : FsM H ℤ :=
  if fd < userText ∨ userEnd ≤ fd then return -efault else pipeFiles p

end Fs

/-- The system calls on files and processes, with their arguments. -/
inductive Call where
  | read (fd : ℤ) (nbytes : ℕ)
  | write (fd : ℤ) (src : List Byte)
  | open (filename : List Byte) (flags mode : ℕ)
  | creat (filename : List Byte) (mode : ℕ)
  | close (fd : ℤ)
  | dup (fd : ℤ)
  | dup2 (oldFd newFd : ℤ)
  | pipe (fd : ℤ)
  | lseek (fd offset whence : ℤ)
  | chdir (path : Option (List Byte))
  | stat (path : List Byte)
  | fstat (fd : ℤ)
  | ioctl (fd op : ℤ) (termios : Option ℕ)
  | utime (filename : List Byte) (times : Option ℤ)
  | unlink (filepath : List Byte)
  | mkdir (pathname : List Byte) (mode : ℕ)
  | exec (pathname : List Byte)
  | fork
  | exit (status : ℤ)
  | wait
  | setuid (uid : ℕ)
  | setgid (gid : ℕ)

/-- What a system call hands back: its value, and the data it stores for the caller. -/
structure Answer where
  value : ℤ
  bytes : List Byte
  stat : Option Stat

def Answer.ofValue (value : ℤ) : Answer := ⟨value, [], none⟩

/-- `sysent`: the code of a system call of process `p`; `uid_t` and `gid_t` have 16 bits. -/
def sysent (p : ProcId) : Call → FsM H Answer
  | .read fd nbytes => do
      let result ← Fs.read p fd nbytes
      return ⟨result.1, result.2, none⟩
  | .write fd src => Answer.ofValue <$> Fs.write p fd src
  | .open filename flags mode => Answer.ofValue <$> Fs.sysOpen p filename flags mode
  | .creat filename mode => Answer.ofValue <$> Fs.sysCreat p filename mode
  | .close fd => Answer.ofValue <$> Fs.close p fd
  | .dup fd => Answer.ofValue <$> Fs.dup p fd
  | .dup2 oldFd newFd => Answer.ofValue <$> Fs.dup2 p oldFd newFd
  | .pipe fd => Answer.ofValue <$> Fs.sysPipe p fd
  | .lseek fd offset whence => Answer.ofValue <$> Fs.lseek p fd offset whence
  | .chdir path => Answer.ofValue <$> Fs.chdir p path
  | .stat path => do
      let result ← Fs.stat p path
      return ⟨result.1, [], result.2⟩
  | .fstat fd => do
      let result ← Fs.fstat p fd
      return ⟨result.1, [], result.2⟩
  | .ioctl fd op termios => do
      let result ← Fs.ioctl p fd op termios
      return ⟨result.1, result.2, none⟩
  | .utime filename times => Answer.ofValue <$> Fs.sysUtime p filename times
  | .unlink filepath => Answer.ofValue <$> Fs.sysUnlink p filepath
  | .mkdir pathname mode => Answer.ofValue <$> Fs.sysMkdir p pathname mode
  | .exec pathname => Answer.ofValue <$> Fs.sysExec p pathname
  | .fork => Answer.ofValue <$> Fs.fork p
  | .exit status => do
      Fs.exit p status
      return .ofValue 0
  | .wait => Answer.ofValue <$> Fs.wait p
  | .setuid uid => Answer.ofValue <$> Fs.setuid p (uid % 2 ^ 16)
  | .setgid gid => Answer.ofValue <$> Fs.setgid p (gid % 2 ^ 16)

end Osix
