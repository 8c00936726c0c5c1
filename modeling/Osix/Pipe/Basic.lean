import Osix.Fs.Basic
import Osix.Lib.RingBuffer
import Osix.Lib.Transition

/-!
# Pipes between processes

`sys/kern/pipe.c` with the file and descriptor functions of `file.c`, `kern_fork.c` and
`kern_exit.c` that share and close the ends of pipes. Unlike the machine of `Fs.Kernel`,
which lets a sleep end at any time, this one has the sleeping processes and the wake-ups
of the source: `wakeup` makes the processes asleep on a pipe runnable. A process that
sleeps may also be resumed without a wake-up, since the scheduler runs a sleeping process
that has a signal pending; the loops of `pipe_read` and `pipe_write` then test their
conditions again.

All open files here are ends of pipes: an entry of type `FT_INODE` is one that `file_alloc`
has just cleared, without an inode.
-/

namespace Osix.Pipes

/--
Where a process is: outside of the kernel, or in the loop of `pipe_read` with the number
of bytes still to read and the bytes read so far, or in the loop of `pipe_write` with the
length of its data and the bytes still to write.
-/
inductive Place where
  | free
  | user
  | reading (q : PipeId) (left : ℕ) (got : List Byte)
  | writing (q : PipeId) (nbytes : ℕ) (src : List Byte)
  | zombie
deriving DecidableEq

/-- The pipe in whose loop a process is. -/
def Place.pipe : Place → Option PipeId
  | .reading q _ _ => some q
  | .writing q _ _ => some q
  | _ => none

/-- The process is neither free nor a zombie. -/
def Place.live : Place → Bool
  | .free => false
  | .zombie => false
  | _ => true

@[simp]
theorem Place.live_free : Place.free.live = false := rfl

@[simp]
theorem Place.live_zombie : Place.zombie.live = false := rfl

@[simp]
theorem Place.live_user : Place.user.live = true := rfl

@[simp]
theorem Place.live_reading (q : PipeId) (left : ℕ) (got : List Byte) :
    (Place.reading q left got).live = true := rfl

@[simp]
theorem Place.live_writing (q : PipeId) (nbytes : ℕ) (src : List Byte) :
    (Place.writing q nbytes src).live = true := rfl

/-- The fields of `struct proc` that these calls use; `ret` is the value last returned. -/
structure Proc where
  place : Place
  asleep : Bool
  ofile : Fin nfile → Option FileId
  uid : ℕ
  gid : ℕ
  ret : ℤ

/--
The tables. `accepted` and `delivered` record the bytes that `pipe_write` has put into a
pipe and that `pipe_read` has taken out of it since it was created.
-/
structure Sys where
  files : FileId → File
  pipes : PipeId → Pipe
  procs : ProcId → Proc
  nextpid : ℕ
  accepted : PipeId → List Byte
  delivered : PipeId → List Byte

namespace Sys

def setFile (sys : Sys) (f : FileId) (change : File → File) : Sys :=
  { sys with files := Function.update sys.files f (change (sys.files f)) }

def setPipe (sys : Sys) (q : PipeId) (change : Pipe → Pipe) : Sys :=
  { sys with pipes := Function.update sys.pipes q (change (sys.pipes q)) }

def setProc (sys : Sys) (p : ProcId) (change : Proc → Proc) : Sys :=
  { sys with procs := Function.update sys.procs p (change (sys.procs p)) }

def setOfile (sys : Sys) (p : ProcId) (fd : Fin nfile) (file : Option FileId) : Sys :=
  sys.setProc p fun old => { old with ofile := Function.update old.ofile fd file }

/-! ## Reading and writing -/

/-- What the loops of `pipe_read` and `pipe_write` come to. -/
structure Turn (α : Type) where
  pipe : Pipe
  rest : α
  moved : List Byte
  sleeps : Bool

end Sys

/-- The loop of `pipe_read` until it returns or sleeps; `rest` is what is left to read. -/
def readLoop (pipe : Pipe) (got : List Byte) : ℕ → Sys.Turn ℕ
  | 0 => ⟨pipe, 0, [], false⟩
  | left + 1 =>
      if pipe.readPos = pipe.writePos then
        ⟨pipe, left + 1, [], ¬(pipe.writers = 0 ∨ 0 < got.length)⟩
      else
        let byte := pipe.buffer (pipe.readPos.toNat % pipeBuf)
        let turn := readLoop { pipe with readPos := pipe.readPos + 1 } (got ++ [byte]) left
        { turn with moved := byte :: turn.moved }

/-- The loop of `pipe_write` until it returns or sleeps; `rest` is what is left to write. -/
def writeLoop (pipe : Pipe) : List Byte → Sys.Turn (List Byte)
  | [] => ⟨pipe, [], [], false⟩
  | byte :: src =>
      if (pipe.writePos - pipe.readPos).toNat = pipeBuf then
        ⟨pipe, byte :: src, [], true⟩
      else
        let turn := writeLoop
          { pipe with
            buffer := Function.update pipe.buffer (pipe.writePos.toNat % pipeBuf) byte
            writePos := pipe.writePos + 1 } src
        { turn with moved := byte :: turn.moved }

namespace Sys

def wakeup (sys : Sys) (q : PipeId) : Sys :=
  { sys with
    procs := fun p =>
      if (sys.procs p).place.pipe = some q then { sys.procs p with asleep := false }
      else sys.procs p }

/-- A system call returns a value. -/
def returns (sys : Sys) (p : ProcId) (value : ℤ) : Sys :=
  sys.setProc p fun old => { old with place := .user, asleep := false, ret := value }

/-- `pipe_read` from its start, or from a sleep, to its end or to the next sleep. -/
def pipeRead (sys : Sys) (p : ProcId) (q : PipeId) (left : ℕ) (got : List Byte) : Sys :=
  let turn := readLoop (sys.pipes q) got left
  let moved :=
    { sys.setPipe q fun _ => turn.pipe with
      delivered := Function.update sys.delivered q (sys.delivered q ++ turn.moved) }
  if turn.sleeps then
    moved.setProc p fun old =>
      { old with place := .reading q turn.rest (got ++ turn.moved), asleep := true }
  else
    (moved.wakeup q).returns p (toLong (got ++ turn.moved).length)

/-- `pipe_write` from its start, or from a sleep, to its end or to the next sleep. -/
def pipeWrite (sys : Sys) (p : ProcId) (q : PipeId) (nbytes : ℕ) (src : List Byte) : Sys :=
  let turn := writeLoop (sys.pipes q) src
  let moved :=
    { sys.setPipe q fun _ => turn.pipe with
      accepted := Function.update sys.accepted q (sys.accepted q ++ turn.moved) }
  if turn.sleeps then
    (moved.wakeup q).setProc p fun old =>
      { old with place := .writing q nbytes turn.rest, asleep := true }
  else
    (moved.wakeup q).returns p (toLong nbytes)

/-! ## Files and descriptors -/

/-- `pipe_create`. -/
def pipeCreate (sys : Sys) : Option PipeId :=
  (List.finRange npipes).find? fun q =>
    decide ((sys.pipes q).readers = 0 ∧ (sys.pipes q).writers = 0)

/-- `pipe_destroy`. -/
def pipeDestroy (sys : Sys) (q : PipeId) : Sys := sys.setPipe q fun _ => .zero

/-- The end counts after the last `close` of a file with these flags. -/
def closeEnd (flags : ℕ) (pipe : Pipe) : Pipe :=
  { pipe with
    readers := if flags &&& oRdonly ≠ 0 then pipe.readers - 1 else pipe.readers
    writers := if flags &&& oWronly ≠ 0 then pipe.writers - 1 else pipe.writers }

/-- `pipe_close`. -/
def pipeClose (sys : Sys) (f : FileId) : Option Sys :=
  let file := sys.files f
  match file.type, file.pipe with
  | .pipe, some q =>
      let dropped := sys.setFile f fun old => { old with refCount := old.refCount - 1 }
      let closed :=
        if file.refCount - 1 = 0 then dropped.setPipe q (closeEnd file.flags) else dropped
      if (closed.pipes q).readers = 0 ∧ (closed.pipes q).writers = 0 then
        some (closed.pipeDestroy q)
      else
        some closed
  | _, _ => none

/-- `file_close` of a pointer that is not `NULL`. -/
def fileClose (sys : Sys) (f : FileId) : Option Sys :=
  match (sys.files f).type with
  | .pipe => sys.pipeClose f
  | .inode =>
      if (sys.files f).refCount ≤ 0 then none
      else some (sys.setFile f fun old => { old with refCount := old.refCount - 1 })

/-- `file_alloc`. -/
def fileAlloc (sys : Sys) : Option FileId :=
  (List.finRange nfile).find? fun f => decide ((sys.files f).refCount = 0)

/-- The entry that `file_alloc` returns is cleared and has one reference. -/
def fileTake (sys : Sys) (f : FileId) : Sys := sys.setFile f fun _ => { File.zero with refCount := 1 }

/-- `file_fd_alloc`: the descriptor that it stores the file in. -/
def fileFdAlloc (sys : Sys) (p : ProcId) : Option (Fin nfile) :=
  (List.finRange nfile).find? fun fd => decide ((sys.procs p).ofile fd = none)

/-- `file_dup`. -/
def fileDup (sys : Sys) (f : FileId) : Sys :=
  sys.setFile f fun old => { old with refCount := old.refCount + 1 }

/-- `ofile[fd]` for a descriptor in range. -/
def descriptor (sys : Sys) (p : ProcId) (fd : ℤ) : Option (Fin nfile × FileId) :=
  if inRange : fd.toNat < nfile then
    if 0 ≤ fd then ((sys.procs p).ofile ⟨fd.toNat, inRange⟩).map fun f => (⟨fd.toNat, inRange⟩, f)
    else none
  else none

/-! ## System calls -/

/-- Two files are closed one after the other. -/
def closeBoth (sys : Sys) (first second : FileId) : Option Sys :=
  (sys.fileClose first).bind (·.fileClose second)

/-- The new pipe of `sys_pipe` with its two files. -/
def pipeOpen (sys : Sys) (readEnd writeEnd : FileId) (q : PipeId) : Sys :=
  { ((((sys.setFile readEnd fun old => { old with type := .pipe, pipe := some q }).setPipe q
      fun old => { old with readers := old.readers + 1 }).setFile writeEnd
      fun old => { old with type := .pipe, pipe := some q }).setPipe q
      fun old => { old with writers := old.writers + 1 }) with
    accepted := Function.update sys.accepted q []
    delivered := Function.update sys.delivered q [] }

/-- `sys_pipe` once it has both files and the pipe. -/
def pipeDescriptors (sys : Sys) (p : ProcId) (readEnd writeEnd : FileId) (q : PipeId) :
    Option (Sys × ℤ) :=
  match sys.fileFdAlloc p with
  | none => (sys.closeBoth readEnd writeEnd).map fun closed => (closed.pipeDestroy q, -emfile)
  | some readFd =>
      let stored := sys.setOfile p readFd (some readEnd)
      match stored.fileFdAlloc p with
      | none =>
          ((stored.setOfile p readFd none).closeBoth readEnd writeEnd).map
            fun closed => (closed.pipeDestroy q, -emfile)
      | some writeFd => some (stored.setOfile p writeFd (some writeEnd), 0)

/-- `sys_pipe` with a valid user address. -/
def sysPipe (sys : Sys) (p : ProcId) : Option (Sys × ℤ) :=
  match sys.fileAlloc with
  | none => some (sys, -enfile)
  | some readEnd =>
      let first := sys.fileTake readEnd
      match first.fileAlloc with
      | none => (first.fileClose readEnd).map fun closed => (closed, -enfile)
      | some writeEnd =>
          let both :=
            ((first.fileTake writeEnd).setFile readEnd
              fun old => { old with flags := oRdonly }).setFile writeEnd
              fun old => { old with flags := oWronly }
          match both.pipeCreate with
          | none => (both.closeBoth readEnd writeEnd).map fun closed => (closed, -enfile)
          | some q => (both.pipeOpen readEnd writeEnd q).pipeDescriptors p readEnd writeEnd q

def close (sys : Sys) (p : ProcId) (fd : ℤ) : Option (Sys × ℤ) :=
  match sys.descriptor p fd with
  | none => some (sys, -ebadf)
  | some (slot, f) => (sys.fileClose f).map fun closed => (closed.setOfile p slot none, 0)

/--
`ofile[NFILE]`, which `dup` and `dup2` accept, is the memory of `uid` and `gid`: `NULL` for
root, and no pointer to a file for others.
-/
def outside (sys : Sys) (p : ProcId) : Option (Sys × ℤ) :=
  if (sys.procs p).uid = 0 ∧ (sys.procs p).gid = 0 then some (sys, -ebadf) else none

def dup (sys : Sys) (p : ProcId) (fd : ℤ) : Option (Sys × ℤ) :=
  if fd = nfile then
    sys.outside p
  else
    match sys.descriptor p fd with
    | none => some (sys, -ebadf)
    | some (_, f) =>
        match sys.fileFdAlloc p with
        | none => some (sys, -emfile)
        | some newFd => some ((sys.setOfile p newFd (some f)).fileDup f, newFd)

/-- `dup2`; with `new_fd` equal to `NFILE` it stores outside of `ofile`. -/
def dup2 (sys : Sys) (p : ProcId) (oldFd newFd : ℤ) : Option (Sys × ℤ) :=
  if oldFd = nfile then
    sys.outside p
  else
    match sys.descriptor p oldFd with
    | none => some (sys, -ebadf)
    | some (_, f) =>
        if newFd < 0 ∨ nfile < newFd then
          some (sys, -ebadf)
        else if inRange : newFd.toNat < nfile then
          let closed :=
            match (sys.procs p).ofile ⟨newFd.toNat, inRange⟩ with
            | none => some sys
            | some old => sys.fileClose old
          closed.map fun closed =>
            ((closed.fileDup f).setOfile p ⟨newFd.toNat, inRange⟩ (some f), newFd)
        else
          none

/-- The loop of `fork` that inherits the open files. -/
def forkFiles (p child : ProcId) : List (Fin nfile) → Sys → Sys
  | [], sys => sys
  | fd :: rest, sys =>
      match (sys.procs p).ofile fd with
      | none => forkFiles p child rest sys
      | some f => forkFiles p child rest ((sys.fileDup f).setOfile child fd (some f))

/-- `fork` without its memory. -/
def fork (sys : Sys) (p : ProcId) : Sys × ℤ :=
  match (List.finRange nproc).find? fun child => (sys.procs child).place = .free with
  | none => (sys, -1)
  | some child =>
      if sys.nextpid = 0x7fff then
        (sys, -1)
      else
        let parent := sys.procs p
        let allocated :=
          { sys.setProc child fun _ => ⟨.user, false, fun _ => none, parent.uid, parent.gid, 0⟩ with
            nextpid := sys.nextpid + 1 }
        (forkFiles p child (List.finRange nfile) allocated, sys.nextpid)

/-- The loop of `proc_exit` over the open files; it leaves the descriptors in place. -/
def exitFiles (p : ProcId) : List (Fin nfile) → Sys → Option Sys
  | [], sys => some sys
  | fd :: rest, sys =>
      match (sys.procs p).ofile fd with
      | none => exitFiles p rest sys
      | some f => (sys.fileClose f).bind (exitFiles p rest)

/-- `proc_exit` without its memory. -/
def exit (sys : Sys) (p : ProcId) : Option Sys :=
  (exitFiles p (List.finRange nfile) sys).map fun closed =>
    closed.setProc p fun old => { old with place := .zombie }

/-! ## Runs -/

/-- The system calls on pipes, with their arguments. -/
inductive Call where
  | pipe
  | read (fd : ℤ) (nbytes : ℕ)
  | write (fd : ℤ) (src : List Byte)
  | close (fd : ℤ)
  | dup (fd : ℤ)
  | dup2 (oldFd newFd : ℤ)
  | fork
  | exit

/-- `resume` goes on after a sleep; `reap` is the end of a zombie by its parent's `wait`. -/
inductive Act where
  | call (p : ProcId) (call : Call)
  | resume (p : ProcId)
  | reap (p : ProcId)

/-- The pipe of an open file. -/
def pipeOf (sys : Sys) (f : FileId) : Option PipeId :=
  if (sys.files f).type = .pipe then (sys.files f).pipe else none

/-- A call stores its value in the caller's registers. -/
def finish (p : ProcId) (result : Option (Sys × ℤ)) : Option Sys :=
  result.map fun result => result.1.returns p result.2

def sysent (sys : Sys) (p : ProcId) : Call → Option Sys
  | .pipe => finish p (sys.sysPipe p)
  | .read fd nbytes =>
      match sys.descriptor p fd with
      | none => some (sys.returns p (-ebadf))
      | some (_, f) => (sys.pipeOf f).map fun q => sys.pipeRead p q nbytes []
  | .write fd src =>
      match sys.descriptor p fd with
      | none => some (sys.returns p (-ebadf))
      | some (_, f) => (sys.pipeOf f).map fun q => sys.pipeWrite p q src.length src
  | .close fd => finish p (sys.close p fd)
  | .dup fd => finish p (sys.dup p fd)
  | .dup2 oldFd newFd => finish p (sys.dup2 p oldFd newFd)
  | .fork => finish p (some (sys.fork p))
  | .exit => sys.exit p

def step (sys : Sys) : Act → Option Sys
  | .call p call => if (sys.procs p).place = .user then sys.sysent p call else none
  | .resume p =>
      match (sys.procs p).place with
      | .reading q left got => some (sys.pipeRead p q left got)
      | .writing q nbytes src => some (sys.pipeWrite p q nbytes src)
      | _ => none
  | .reap p =>
      if (sys.procs p).place = .zombie then
        some (sys.setProc p fun old => { old with place := .free })
      else
        none

/-- The tables at the start: one process, no open file. -/
def boot : Sys where
  files := fun _ => .zero
  pipes := fun _ => .zero
  procs := fun p => ⟨if p = 0 then .user else .free, false, fun _ => none, 0, 0, 0⟩
  nextpid := 2
  accepted := fun _ => []
  delivered := fun _ => []

end Sys

end Osix.Pipes
