import Osix.Vm.Pmap

/-!
# The memory of processes

The parts of `proc.c`, `kern_fork.c`, `kern_exec.c` and `kern_exit.c` that allocate, map and
free pages, as the steps of a system of processes. `sys_exec` and `proc_exit` are several steps,
since other processes may run in between: at `ilock`, between the blocks of a program file and
while files are closed.
-/

namespace Osix.Vm

/-- The pages of `USER_TEXT` and `USER_USTACK`. -/
def userText : ℕ := 0x100
def userStack : ℕ := 0x1ff

/-- The blocks that `readi` can read: `bmap` panics at a double indirect block. -/
def maxFileBlocks : ℕ := 7 + 512

/-- The largest size that `readi` can read. -/
def maxFileSize : ℕ := maxFileBlocks * 1024

theorem maxFileSize_eq : maxFileSize = 531456 := rfl

namespace Machine

/-! ## The break -/

/-- The page of a break: at least `USER_TEXT`, rounded up to a page. -/
def breakPage (brk : Word) : ℕ :=
  let atLeast := if brk.toNat < userText * 4096 then BitVec.ofNat 32 (userText * 4096) else brk
  (atLeast + 4095#32).toNat / 4096

/-- The loop of `proc_break` that increases the size, for so many pages. -/
def grow (pmap : PmapId) : ℕ → ℕ → Machine → Option Machine
  | 0, _, m => some m
  | count + 1, vpage, m => do
      let (page, allocated) ← m.allocPage
      let zeroed ← allocated.zeroPage page
      let entered ← zeroed.enter pmap vpage page true
      grow pmap count (vpage + 1) entered

/-- The loop of `proc_break` that decreases the size, for so many pages. -/
def shrink (pmap : PmapId) : ℕ → ℕ → Machine → Option Machine
  | 0, _, m => some m
  | count + 1, vpage, m => do
      let page ← m.extract pmap vpage
      let removed ← m.remove pmap vpage
      let freed ← removed.freePage page
      shrink pmap count (vpage + 1) freed

/-- `proc_break` of a process with break `old`: the new break as a page. -/
def procBreak (m : Machine) (pmap : PmapId) (old : ℕ) (brk : Word) : Option (Machine × ℕ) :=
  if brk = 0 then
    some (m, old)
  else
    let new := breakPage brk
    if old < new then
      (m.grow pmap (new - old) old).map fun grown => (grown, new)
    else
      (m.shrink pmap (old - new) new).map fun shrunk => (shrunk, new)

/-! ## Stacks and copies -/

/-- The loops that unmap the user stack from `vpage` downwards; they never get below page 0. -/
def unmapStack (pmap : PmapId) : ℕ → Machine → Option Machine
  | 0, m => do
      let page ← m.extract pmap 0
      if page = 0 then some m else none
  | vpage + 1, m => do
      let page ← m.extract pmap (vpage + 1)
      if page = 0 then
        some m
      else
        (m.remove pmap (vpage + 1)).bind (unmapStack pmap vpage)

/-- `copy_page`. -/
def copyUser (m : Machine) (src dst : PmapId) (vpage : ℕ) : Option Machine :=
  if userPages ≤ vpage then
    none
  else do
    let source ← m.extract src vpage
    let dest ← m.extract dst vpage
    m.copyPage source dest

/-- The loop of `fork` that copies the pages below the break. -/
def copyUsers (src dst : PmapId) : ℕ → ℕ → Machine → Option Machine
  | 0, _, m => some m
  | count + 1, vpage, m => (m.copyUser src dst vpage).bind (copyUsers src dst count (vpage + 1))

/-- The memory of `fork`. -/
def forkMemory (m : Machine) (parent child : PmapId) (brk : ℕ) : Option (Machine × ℕ) := do
  let created ← m.create child
  let (ustack, allocated) ← created.allocPage
  let entered ← allocated.enter child userStack ustack true
  let copied ← entered.copyUser parent child userStack
  let (grown, childBrk) ← copied.procBreak child userText (BitVec.ofNat 32 (brk * 4096))
  let done ← copyUsers parent child (childBrk - userText) userText grown
  return (done.activate parent, childBrk)

/-- The memory of `sys_exec` before it locks the inode: the new stack is not yet mapped. -/
def execStart (m : Machine) (pmap : PmapId) (brk : ℕ) (stack : ℕ → Word) :
    Option (Machine × ℕ × ℕ) := do
  let (ustack, allocated) ← m.allocPage
  let prepared ← allocated.fillTmp ustack stack
  let (emptied, low) ← prepared.procBreak pmap brk (BitVec.ofNat 32 (userText * 4096))
  return (emptied, low, ustack)

/-- The memory of `sys_exec` when it has the inode locked and knows its size. -/
def execSize (m : Machine) (pmap : PmapId) (brk : ℕ) (size : Word) : Option (Machine × ℕ) :=
  m.procBreak pmap brk (BitVec.ofNat 32 (userText * 4096) + size)

/-- The pages that `readi` fills with a program. -/
def readProgram (image : ℕ → ℕ → Word) : ℕ → ℕ → Machine → Option Machine
  | 0, _, m => some m
  | count + 1, vpage, m =>
      (m.fill vpage (image vpage)).bind (readProgram image count (vpage + 1))

/-- The pages of a program of this size. -/
def programPages (size : Word) : ℕ := (size.toNat + 4095) / 4096

/-- `readi` of a whole program file into user memory. -/
def readFile (m : Machine) (size : Word) (image : ℕ → ℕ → Word) : Option Machine :=
  if maxFileSize < size.toNat then none
  else readProgram image (programPages size) userText m

/-- The blocks of a program of this size. -/
def programBlocks (size : Word) : ℕ := (size.toNat + 1023) / 1024

/--
`readi` copies a block of a program file into user memory, all of it or the last bytes of
the file. Of four blocks in a page each has its own words.
-/
def readBlock (m : Machine) (size : Word) (block : ℕ) (image : ℕ → Word) : Option Machine :=
  let first := block % 4 * 256
  let count := (min 1024 (size.toNat - block * 1024) + 3) / 4
  (m.walk (userText + block / 4)).map fun page =>
    m.fillPage page fun index =>
      if first ≤ index ∧ index < first + count then image index else m.mem page index

/-- The memory of `sys_exec` after the program is read: the stacks change. -/
def execFinish (m : Machine) (pmap : PmapId) (ustack : ℕ) : Option Machine := do
  let removed ← unmapStack pmap userStack m
  removed.enter pmap userStack ustack true

/-- The memory of `proc_create`. -/
def createMemory (m : Machine) (pmap : PmapId) (size : Word) (stack : ℕ → Word)
    (image : ℕ → ℕ → Word) : Option (Machine × ℕ) := do
  let created ← m.create pmap
  let (ustack, allocated) ← (created.activate pmap).allocPage
  let zeroed ← allocated.zeroPage ustack
  let prepared ← zeroed.fillTmp ustack stack
  let entered ← prepared.enter pmap userStack ustack true
  let (grown, brk) ←
    entered.procBreak pmap userText (BitVec.ofNat 32 (userText * 4096) + size)
  let loaded ← grown.readFile size image
  return (loaded, brk)

/-- The status of a child for `wait`, whose argument may be `NULL`. -/
def storeStatus (m : Machine) (status value : Word) : Option Machine :=
  if status ≠ 0 then m.storeInt status value else some m

/-- The memory of `proc_exit` before it closes the files. -/
def exitStart (m : Machine) (pmap : PmapId) (brk : ℕ) : Option (Machine × ℕ) := do
  let (emptied, low) ← m.procBreak pmap brk (BitVec.ofNat 32 (userText * 4096))
  let removed ← unmapStack pmap userStack emptied
  return (removed, low)

end Machine

/-! ## Processes -/

/--
Where a process is: it may make calls, or it is in `sys_exec` with the page of its new
stack, before it has the inode or when it has read so many blocks of the program, or it is
in `proc_exit` before or after it has destroyed its page directory.
-/
inductive Place where
  | free
  | running
  | emptied (ustack : ℕ)
  | loading (ustack : ℕ) (size : Word) (read : ℕ)
  | exiting
  | ending
  | zombie
deriving DecidableEq

/-- The process has a page directory. -/
def Place.mapped : Place → Bool
  | .running => true
  | .emptied _ => true
  | .loading _ _ _ => true
  | .exiting => true
  | _ => false

structure Proc where
  place : Place
  parent : Option ProcId
  brk : ℕ
  exitStatus : Word

structure Sys where
  machine : Machine
  procs : ProcId → Proc
  nextpid : ℕ

namespace Sys

def setProc (sys : Sys) (p : ProcId) (proc : Proc) : Sys :=
  { sys with procs := Function.update sys.procs p proc }

/-- `proc_alloc`. -/
def procAlloc (sys : Sys) : Option ProcId :=
  ((List.finRange nproc).find? fun p => decide ((sys.procs p).place = .free)).filter
    fun _ => decide (sys.nextpid ≠ 0x7fff)

/-- `proc_create` of a program. The kernel calls it once, before it runs any process. -/
def create (sys : Sys) (size : Word) (stack : ℕ → Word) (image : ℕ → ℕ → Word) : Option Sys := do
  let p ← sys.procAlloc
  let (machine, brk) ← sys.machine.createMemory (.proc p) size stack image
  return { machine := machine
           procs := Function.update sys.procs p ⟨.running, none, brk, 0⟩
           nextpid := sys.nextpid + 1 }

/-- `fork`, which fails if there is no free entry or no more pid. -/
def fork (sys : Sys) (p : ProcId) : Option Sys :=
  match sys.procAlloc with
  | none => some sys
  | some child =>
      (sys.machine.forkMemory (.proc p) (.proc child) (sys.procs p).brk).map fun result =>
        { machine := result.1
          procs := Function.update sys.procs child ⟨.running, some p, result.2, 0⟩
          nextpid := sys.nextpid + 1 }

/-- `sys_exec` until `ilock`. -/
def execStart (sys : Sys) (p : ProcId) (stack : ℕ → Word) : Option Sys :=
  (sys.machine.execStart (.proc p) (sys.procs p).brk stack).map fun result =>
    { sys with
      machine := result.1
      procs := Function.update sys.procs p
        { sys.procs p with place := .emptied result.2.2, brk := result.2.1 } }

/-- `sys_exec` makes room for a program of this size. -/
def execSize (sys : Sys) (p : ProcId) (ustack : ℕ) (size : Word) : Option Sys :=
  (sys.machine.execSize (.proc p) (sys.procs p).brk size).map fun result =>
    { sys with
      machine := result.1
      procs := Function.update sys.procs p
        { sys.procs p with place := .loading ustack size 0, brk := result.2 } }

/-- `readi` in `sys_exec` reads the next block, which `bmap` must find. -/
def execRead (sys : Sys) (p : ProcId) (ustack : ℕ) (size : Word) (read : ℕ)
    (image : ℕ → Word) : Option Sys :=
  if read < Machine.programBlocks size ∧ read < maxFileBlocks then
    (sys.machine.readBlock size read image).map fun machine =>
      { sys with
        machine := machine
        procs := Function.update sys.procs p
          { sys.procs p with place := .loading ustack size (read + 1) } }
  else
    none

/-- The end of `sys_exec`, when all blocks are read. -/
def execFinish (sys : Sys) (p : ProcId) (ustack : ℕ) (size : Word) (read : ℕ) : Option Sys :=
  if read = Machine.programBlocks size then
    (sys.machine.execFinish (.proc p) ustack).map fun machine =>
      { sys with
        machine := machine
        procs := Function.update sys.procs p { sys.procs p with place := .running } }
  else
    none

/-- `proc_break` as the system call `brk`. -/
def brk (sys : Sys) (p : ProcId) (brk : Word) : Option Sys :=
  (sys.machine.procBreak (.proc p) (sys.procs p).brk brk).map fun result =>
    { sys with
      machine := result.1
      procs := Function.update sys.procs p { sys.procs p with brk := result.2 } }

/-- The children of `p` are adopted by the first process. -/
def adopt (procs : ProcId → Proc) (p : ProcId) (child : ProcId) : Proc :=
  if (procs child).parent = some p then { procs child with parent := some 0 } else procs child

/-- `proc_exit` until it closes the files. -/
def exitStart (sys : Sys) (p : ProcId) : Option Sys :=
  (sys.machine.exitStart (.proc p) (sys.procs p).brk).map fun result =>
    { sys with
      machine := result.1
      procs := Function.update (adopt sys.procs p) p
        { adopt sys.procs p p with place := .exiting, brk := result.2 } }

/-- `proc_exit` destroys the page directory; it needs that of the parent. -/
def exitDestroy (sys : Sys) (p : ProcId) : Option Sys := do
  let parent ← (sys.procs p).parent
  let machine ← (sys.machine.activate (.proc parent)).destroy (.proc p)
  return { sys with
           machine := machine
           procs := Function.update sys.procs p { sys.procs p with place := .ending } }

/-- `proc_exit` stores the status for the parent. -/
def exitEnd (sys : Sys) (p : ProcId) (status : Word) : Sys :=
  sys.setProc p { sys.procs p with place := .zombie, exitStatus := status }

/-- The first child that is a zombie. -/
def zombieOf (sys : Sys) (p : ProcId) : Option ProcId :=
  (List.finRange nproc).find? fun child =>
    decide ((sys.procs child).parent = some p ∧ (sys.procs child).place = .zombie)

/--
`wait` frees a child that is a zombie. The status is stored at the address that the process
gives unless that is `NULL`; nothing checks where the address is.
-/
def wait (sys : Sys) (p : ProcId) (status : Word) : Option Sys :=
  match sys.zombieOf p with
  | none => some sys
  | some child =>
      (sys.machine.storeStatus status (sys.procs child).exitStatus).map fun machine =>
        { sys with machine := machine }.setProc child { sys.procs child with place := .free }

/-- The steps. `touch` is a process that writes to a page. -/
inductive Act where
  | create (size : Word) (stack : ℕ → Word) (image : ℕ → ℕ → Word)
  | fork (p : ProcId)
  | execStart (p : ProcId) (stack : ℕ → Word)
  | execSize (p : ProcId) (size : Word)
  | execRead (p : ProcId) (image : ℕ → Word)
  | execFinish (p : ProcId)
  | brk (p : ProcId) (brk : Word)
  | exitStart (p : ProcId)
  | exitDestroy (p : ProcId)
  | exitEnd (p : ProcId) (status : Word)
  | wait (p : ProcId) (status : Word)
  | touch (p : ProcId) (vpage : ℕ) (words : ℕ → Word)

/-- The scheduler switches to a process. -/
def switch (sys : Sys) (p : ProcId) : Sys :=
  { sys with machine := sys.machine.activate (.proc p) }

/-- The page directory in use exists: that of the kernel, as at boot, or of a process. -/
def onDirectory (sys : Sys) : Bool :=
  match sys.machine.cur with
  | .kernel => true
  | .proc p => (sys.procs p).place.mapped

def step (sys : Sys) : Act → Option Sys
  | .create size stack image =>
      if sys.onDirectory = true then sys.create size stack image else none
  | .fork p => if (sys.procs p).place = .running then (sys.switch p).fork p else none
  | .execStart p stack =>
      if (sys.procs p).place = .running then (sys.switch p).execStart p stack else none
  | .execSize p size =>
      match (sys.procs p).place with
      | .emptied ustack => (sys.switch p).execSize p ustack size
      | _ => none
  | .execRead p image =>
      match (sys.procs p).place with
      | .loading ustack size read => (sys.switch p).execRead p ustack size read image
      | _ => none
  | .execFinish p =>
      match (sys.procs p).place with
      | .loading ustack size read => (sys.switch p).execFinish p ustack size read
      | _ => none
  | .brk p brk => if (sys.procs p).place = .running then (sys.switch p).brk p brk else none
  | .exitStart p => if (sys.procs p).place = .running then (sys.switch p).exitStart p else none
  | .exitDestroy p =>
      if (sys.procs p).place = .exiting then (sys.switch p).exitDestroy p else none
  | .exitEnd p status =>
      if (sys.procs p).place = .ending then some (sys.exitEnd p status) else none
  | .wait p status =>
      if (sys.procs p).place = .running then (sys.switch p).wait p status else none
  | .touch p vpage words =>
      if (sys.procs p).place = .running ∧ vpage < tableLen * tableLen then
        ((sys.switch p).machine.touch vpage words).map fun machine =>
          { sys with machine := machine }
      else
        none

end Sys

end Osix.Vm
