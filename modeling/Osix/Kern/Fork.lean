import Osix.Fs.Basic
import Osix.Kern.Basic
import Osix.Vm.Window

/-!
# All of `fork`

`fork` of `kern_fork.c` on whole entries of the process table: registers and signals, memory,
credentials, the working directory and open files, with the reference counts of what the two
processes share. Its memory is that of the system of address spaces, so that what holds of all
page tables after any calls can be used here.
-/

namespace Osix.Fork

open Kern Vm Transition

/-- `NGROUPS`. -/
def ngroupsMax : ℕ := 4

/--
`struct proc`. The place of a process in its system call is not in the table; it says which
processes have an address space.
-/
structure Process extends Kern.Proc where
  place : Vm.Place
  brk : ℕ
  cwd : Option InodeId
  ofile : Fin nfile → Option FileId
  uid : ℕ
  gid : ℕ
  ngroups : ℤ
  groups : Fin ngroupsMax → ℕ

/-- A cleared `struct proc`. -/
def Process.zero : Process :=
  { Kern.Proc.zero with
    place := .free
    brk := 0
    cwd := none
    ofile := fun _ => none
    uid := 0
    gid := 0
    ngroups := 0
    groups := fun _ => 0 }

/-- The entry that `proc_alloc` returns. -/
def Process.allocated (pid : ℤ) : Process :=
  { Process.zero with
    toProc := Kern.Proc.allocated pid
    brk := userText }

/-- What `fork` copies before it makes the address space, and the state that it sets last. -/
def Process.inherit (parent : Process) (p : Kern.Slot) (child : Process) : Process :=
  { child with
    toProc := Kern.Proc.inherit parent.toProc p child.toProc
    place := .running
    uid := parent.uid
    gid := parent.gid
    ngroups := parent.ngroups
    groups := parent.groups }

/-- The process table, memory, and the reference counts of files and inodes. -/
structure Kernel where
  machine : Machine
  proc : Kern.Slot → Process
  nextpid : ℕ
  refCount : FileId → ℤ
  iRefcount : InodeId → ℤ

namespace Kernel

def set (kernel : Kernel) (p : Kern.Slot) (change : Process → Process) : Kernel :=
  { kernel with proc := Function.update kernel.proc p (change (kernel.proc p)) }

/-- `proc_alloc`. -/
def procAlloc (kernel : Kernel) : Kernel × Option Kern.Slot :=
  match (List.finRange nproc).find? fun q => (kernel.proc q).state = .null with
  | none => (kernel, none)
  | some child =>
      if kernel.nextpid = 0x7fff then
        (kernel.set child fun _ => .zero, none)
      else
        ({ kernel.set child fun _ => .allocated kernel.nextpid with
            nextpid := kernel.nextpid + 1 }, some child)

/-- `idup`. -/
def idup (kernel : Kernel) (i : InodeId) : Kernel :=
  { kernel with iRefcount := Function.update kernel.iRefcount i (kernel.iRefcount i + 1) }

/-- `file_dup`. -/
def fileDup (kernel : Kernel) (f : FileId) : Kernel :=
  { kernel with refCount := Function.update kernel.refCount f (kernel.refCount f + 1) }

/-- The child gets one of the open files. -/
def inheritFile (p child : Kern.Slot) (kernel : Kernel) (fd : Fin nfile) : Kernel :=
  match (kernel.proc p).ofile fd with
  | none => kernel
  | some f =>
      (kernel.fileDup f).set child fun old =>
        { old with ofile := Function.update old.ofile fd (some f) }

/-- `fork`; a panic or a page fault in it is `none`. -/
def fork (kernel : Kernel) (p : Kern.Slot) : Option (Kernel × ℤ) :=
  match kernel.procAlloc with
  | (kernel, none) => some (kernel, -1)
  | (kernel, some child) => do
      let kernel := kernel.set child (Process.inherit (kernel.proc p) p)
      let (machine, brk) ←
        kernel.machine.forkMemory (.proc p) (.proc child) (kernel.proc p).brk
      let kernel := { kernel with machine := machine }.set child fun old => { old with brk := brk }
      let cwd ← (kernel.proc p).cwd
      let kernel := (kernel.idup cwd).set child fun old => { old with cwd := some cwd }
      let kernel := (List.finRange nfile).foldl (inheritFile p child) kernel
      return (kernel, (kernel.proc child).pid)

/-- What the address spaces see of the kernel. -/
def memory (kernel : Kernel) : Vm.Sys where
  machine := kernel.machine
  procs p :=
    { place := (kernel.proc p).place
      parent := (kernel.proc p).parent
      brk := (kernel.proc p).brk
      exitStatus := BitVec.ofInt 32 (kernel.proc p).exitStatus }
  nextpid := kernel.nextpid

/-- An entry is free if and only if its state says so. -/
def Placed (kernel : Kernel) : Prop :=
  ∀ p, (kernel.proc p).place = .free ↔ (kernel.proc p).state = .null

end Kernel

/-- How many descriptors of a process name a file. -/
def descriptors (proc : Process) (f : FileId) : ℕ :=
  (List.finRange nfile).countP fun fd => proc.ofile fd = some f

/-- The child is a copy of the parent, apart from the reference counts of files. -/
structure Copied (before : Kernel) (p child : Kern.Slot) (after : Kernel) : Prop where
  fresh : (before.proc child).state = .null
  parent : after.proc p = before.proc p
  memory : Machine.Forked p child before.machine after.machine
  brk : (after.proc child).brk = (before.proc p).brk
  context : (after.proc child).context = { (before.proc p).context with eax := 0 }
  uid : (after.proc child).uid = (before.proc p).uid
  gid : (after.proc child).gid = (before.proc p).gid
  ngroups : (after.proc child).ngroups = (before.proc p).ngroups
  groups : (after.proc child).groups = (before.proc p).groups
  sigMask : (after.proc child).sigMask = (before.proc p).sigMask
  handlers : (after.proc child).sigact.handlers = (before.proc p).sigact.handlers
  sigPending : (after.proc child).sigPending = 0
  cwd : (after.proc child).cwd = (before.proc p).cwd
  iRefcount : ∀ i, after.iRefcount i =
    before.iRefcount i + if (before.proc p).cwd = some i then 1 else 0
  ofile : (after.proc child).ofile = (before.proc p).ofile

section

variable {kernel kernel' : Kernel} {p child : Kern.Slot}

/-! ## Open files -/

/-- An open file of the parent, if the descriptor has one. -/
theorem inheritFile_eq (kernel : Kernel) (fd : Fin nfile) :
    Kernel.inheritFile p child kernel fd =
      { kernel with
        refCount := fun f =>
          kernel.refCount f + if (kernel.proc p).ofile fd = some f then 1 else 0
        proc := Function.update kernel.proc child
          { kernel.proc child with
            ofile := Function.update (kernel.proc child).ofile fd
              (((kernel.proc p).ofile fd).or ((kernel.proc child).ofile fd)) } } := by
  unfold Kernel.inheritFile
  cases isOpen : (kernel.proc p).ofile fd with
  | none => simp
  | some f =>
      simp only [Kernel.fileDup, Kernel.set, Option.some.injEq, Option.some_or, Kernel.mk.injEq,
        true_and, and_true]
      funext other
      rcases eq_or_ne other f with rfl | notSame
      · simp
      · simp [notSame, notSame.symm]

/-- The loop over the descriptors. -/
theorem foldl_inheritFile (different : p ≠ child) (fds : List (Fin nfile)) (kernel : Kernel) :
    fds.foldl (Kernel.inheritFile p child) kernel =
      { kernel with
        refCount := fun f => kernel.refCount f +
          (fds.countP fun fd => (kernel.proc p).ofile fd = some f : ℕ)
        proc := Function.update kernel.proc child
          { kernel.proc child with
            ofile := fun fd =>
              if fd ∈ fds then ((kernel.proc p).ofile fd).or ((kernel.proc child).ofile fd)
              else (kernel.proc child).ofile fd } } := by
  induction fds generalizing kernel with
  | nil => simp
  | cons fd rest ih =>
      rw [List.foldl_cons, ih, inheritFile_eq]
      simp only [Function.update_of_ne different, Function.update_self, Function.update_idem,
        Kernel.mk.injEq, true_and, and_true]
      constructor
      · congr 2
        funext other
        rcases eq_or_ne other fd with rfl | notSame
        · cases (kernel.proc p).ofile other <;> simp
        · simp [notSame]
      · funext f
        rw [List.countP_cons]
        simp only [decide_eq_true_eq]
        split <;> omega

/-! ## The child -/

theorem procAlloc_some {allocated : Kernel} (found : kernel.procAlloc = (allocated, some child)) :
    (kernel.proc child).state = .null ∧
      allocated = { kernel.set child fun _ => .allocated kernel.nextpid with
        nextpid := kernel.nextpid + 1 } := by
  unfold Kernel.procAlloc at found
  split at found
  · cases found
  · rename_i other isFound
    split at found
    · cases found
    · cases found
      have isNull := List.find?_some isFound
      exact ⟨of_decide_eq_true isNull, rfl⟩

/-- The entry of the child when `fork` returns. -/
def childOf (parent : Process) (p : Kern.Slot) (pid : ℤ) (brk : ℕ) : Process :=
  { Process.inherit parent p (.allocated pid) with
    brk := brk
    cwd := parent.cwd
    ofile := parent.ofile }

/-- `fork` makes no child, or it makes a copy of the parent in a free entry. -/
theorem fork_cases {pid : ℤ} (running : (kernel.proc p).state ≠ .null)
    (forked : kernel.fork p = some (kernel', pid)) :
    pid = -1 ∨ ∃ child cwd machine brk, (kernel.proc child).state = .null ∧
      pid = kernel.nextpid ∧ (kernel.proc p).cwd = some cwd ∧
      kernel.machine.forkMemory (.proc p) (.proc child) (kernel.proc p).brk =
        some (machine, brk) ∧
      kernel' =
        { machine := machine
          proc := Function.update kernel.proc child
            (childOf (kernel.proc p) p kernel.nextpid brk)
          nextpid := kernel.nextpid + 1
          refCount := fun f => kernel.refCount f + descriptors (kernel.proc p) f
          iRefcount := Function.update kernel.iRefcount cwd (kernel.iRefcount cwd + 1) } := by
  unfold Kernel.fork at forked
  split at forked
  · cases forked
    exact Or.inl rfl
  rename_i allocated child found
  right
  rcases procAlloc_some found with ⟨isNull, rfl⟩
  have different : p ≠ child := by
    rintro rfl
    exact running isNull
  simp only [Option.bind_eq_bind, Option.bind_eq_some_iff, Option.pure_def, Option.some.injEq,
    Prod.mk.injEq] at forked
  rcases forked with ⟨⟨machine, brk⟩, isForked, cwd, isCwd, isKernel, isPid⟩
  rw [foldl_inheritFile different] at isKernel isPid
  simp only [Kernel.set, Kernel.idup, Function.update_of_ne different, Function.update_self,
    Function.update_idem] at isForked isCwd isKernel isPid
  refine ⟨child, cwd, machine, brk, isNull, isPid.symm, isCwd, isForked, ?_⟩
  rw [← isKernel]
  congr 2
  simp only [childOf, Process.inherit, Process.allocated, Process.zero, List.mem_finRange,
    if_true, Option.or_none, isCwd]

/-- `fork` makes a child if there is an entry and its memory can be made. -/
theorem fork_exists (running : (kernel.proc p).state ≠ .null)
    {allocated : Kernel} (found : kernel.procAlloc = (allocated, some child)) {machine : Machine}
    {brk : ℕ} (isForked : kernel.machine.forkMemory (.proc p) (.proc child) (kernel.proc p).brk =
      some (machine, brk)) {cwd : InodeId} (isCwd : (kernel.proc p).cwd = some cwd) :
    ∃ kernel', kernel.fork p = some (kernel', (kernel.nextpid : ℤ)) := by
  rcases procAlloc_some found with ⟨isNull, rfl⟩
  have different : p ≠ child := by
    rintro rfl
    exact running isNull
  simp only [Kernel.fork, found, foldl_inheritFile different]
  simp only [Kernel.set, Kernel.idup, Function.update_of_ne different, Function.update_self,
    isForked, isCwd, Option.bind_eq_bind, Option.bind_some, Option.pure_def, Option.some.injEq,
    Prod.mk.injEq]
  exact ⟨_, rfl, rfl⟩

/-- `fork` copies a process, after any calls of processes that write to user pages. -/
theorem fork_copies (boot : Boot) {sys : Vm.Sys}
    (reach : Reach Vm.Sys.step Vm.Sys.Own (Vm.Sys.start boot) sys) {kernel kernel' : Kernel}
    {p : Kern.Slot}
    (isMemory : kernel.memory = sys.switch p) (placed : kernel.Placed)
    (running : (kernel.proc p).place = .running)
    (image : Machine.Image kernel.machine p (kernel.proc p).brk)
    (below : (kernel.proc p).brk ≤ userStack) {pid : ℤ}
    (forked : kernel.fork p = some (kernel', pid)) (made : pid ≠ -1) :
    ∃ child, (kernel'.proc child).pid = pid ∧ Copied kernel p child kernel' ∧
      ∀ f, kernel'.refCount f = kernel.refCount f + descriptors (kernel.proc p) f := by
  have notNull : (kernel.proc p).state ≠ .null := by
    rw [ne_eq, ← placed p, running]
    decide
  have isRunning : (kernel.memory.procs p).place = .running := running
  have inv : Vm.Sys.Inv kernel.memory := by
    rw [isMemory]
    exact Vm.Sys.inv_switch (Vm.Sys.inv_of_reach reach) p
  have isCur : kernel.machine.cur = .proc p := by
    rw [show kernel.machine = kernel.memory.machine from rfl, isMemory]
    rfl
  have alive := Vm.Sys.alive_of_running isRunning
  rcases (fork_cases notNull forked).resolve_left made with
    ⟨child, cwd, machine, brk, isNull, rfl, isCwd, isForked, rfl⟩
  have different : p ≠ child := by
    rintro rfl
    exact notNull isNull
  have dead : kernel.memory.view.alive child = false := by
    have isFree : (kernel.proc child).place = .free := (placed child).mpr isNull
    change (kernel.proc child).place.mapped = false
    rw [isFree]
    rfl
  have valid : kernel.memory.view.valid kernel.machine.cur = true := by
    rw [isCur]
    exact alive
  rcases Machine.forkMemory_forked inv.fine.sound valid alive dead image below isForked with
    ⟨rfl, isCopy⟩
  have atChild := Function.update_self child
    (childOf (kernel.proc p) p kernel.nextpid (kernel.proc p).brk) kernel.proc
  refine ⟨child, ?_, ?_, fun f => rfl⟩
  · dsimp only
    rw [atChild]
    rfl
  · constructor
    case fresh => exact isNull
    case parent => exact Function.update_of_ne different _ _
    case memory => exact isCopy
    case iRefcount =>
      intro i
      dsimp only
      rw [isCwd]
      rcases eq_or_ne i cwd with rfl | other
      · simp
      · simp [other, other.symm]
    all_goals
      dsimp only
      rw [atChild]
      rfl

end

/-! ## A small kernel -/

/-- The first process, with the same file at its descriptors 0 and 1. -/
def firstProcess : Process :=
  { Process.zero with
    toProc := { Kern.Proc.allocated 1 with state := .running }
    place := .running
    brk := userText
    cwd := some 0
    ofile := fun fd => if fd.val < 2 then some 0 else none }

/-- The kernel when the first process runs. -/
def smallKernel (init : Vm.Sys) : Kernel where
  machine := init.machine.activate (.proc 0)
  proc := Function.update (fun _ => .zero) 0 firstProcess
  nextpid := init.nextpid
  refCount := Function.update 0 0 2
  iRefcount := Function.update 0 0 1

section

variable {init : Vm.Sys}

theorem memory_smallKernel (isProcs : init.procs =
      Function.update (fun _ => ⟨.free, none, 0, 0⟩) 0 ⟨.running, none, userText, 0⟩) :
    (smallKernel init).memory = init.switch 0 := by
  simp only [Kernel.memory, Vm.Sys.switch, smallKernel, isProcs, Vm.Sys.mk.injEq, true_and,
    and_true]
  funext q
  rcases eq_or_ne q 0 with rfl | other
  · simp only [Function.update_self]
    rfl
  · simp only [Function.update_of_ne other]
    rfl

theorem proc_smallKernel (init : Vm.Sys) : (smallKernel init).proc 0 = firstProcess := rfl

theorem placed_smallKernel (init : Vm.Sys) : (smallKernel init).Placed := by
  intro q
  rcases eq_or_ne q 0 with rfl | other
  · refine iff_of_false ?_ ?_
    · simp [smallKernel, firstProcess]
    · simp [smallKernel, firstProcess]
  · simp [smallKernel, other, Process.zero, Kern.Proc.zero]

theorem procAlloc_smallKernel (isNext : init.nextpid = 2) :
    (smallKernel init).procAlloc =
      ({ (smallKernel init).set 1 fun _ => .allocated 2 with nextpid := 3 }, some 1) := by
  have found : ((List.finRange nproc).find? fun q =>
      ((smallKernel init).proc q).state = .null) = some 1 := rfl
  have isNextpid : (smallKernel init).nextpid = 2 := isNext
  simp only [Kernel.procAlloc, found, isNextpid]
  rfl

end

/-- The first process is created and forks. -/
theorem exists_fork (boot : Boot) (enough : 6 ≤ boot.machine.vmm.freePages) :
    ∃ init kernel', Reach Vm.Sys.step Vm.Sys.Own (Vm.Sys.start boot) init ∧
    (smallKernel init).memory = init.switch 0 ∧
    Machine.Image (smallKernel init).machine 0 userText ∧
    (smallKernel init).fork 0 = some (kernel', 2) := by
  rcases Vm.Sys.create_first boot (by omega) with
    ⟨init, created, isProcs, isNext, ⟨ustack, isStack⟩, less⟩
  have reach : Reach Vm.Sys.step Vm.Sys.Own (Vm.Sys.start boot) init := by
    refine .next .start ?_ created
    exact trivial
  have isMemory := memory_smallKernel isProcs
  have inv : Vm.Sys.Inv (smallKernel init).memory := by
    rw [isMemory]
    exact Vm.Sys.inv_switch (Vm.Sys.inv_of_reach reach) 0
  have alive : (smallKernel init).memory.view.alive 0 = true := rfl
  have dead : (smallKernel init).memory.view.alive 1 = false := rfl
  have heap := inv.fine.heap 0 alive
  have isBreak : (smallKernel init).memory.breaks 0 = userText := rfl
  rw [isBreak] at heap
  have isStackNow : (smallKernel init).machine.pageOf 0 userStack = some ustack := isStack
  have three : 3 ≤ (smallKernel init).machine.vmm.freePages := by
    change 3 ≤ init.machine.vmm.freePages
    omega
  have holdsStack := Machine.holds_page.mpr ⟨alive, isStackNow⟩
  rcases Machine.forkMemory_exists inv.fine.sound alive alive dead holdsStack three with
    ⟨forkedMachine, isForked, _⟩
  have notNull : ((smallKernel init).proc 0).state ≠ .null := by
    rw [proc_smallKernel]
    decide
  have isCwd : ((smallKernel init).proc 0).cwd = some 0 := rfl
  rcases fork_exists notNull (procAlloc_smallKernel isNext) isForked isCwd with
    ⟨kernel', isFork⟩
  have isNextpid : ((smallKernel init).nextpid : ℤ) = 2 := congrArg Nat.cast isNext
  rw [isNextpid] at isFork
  refine ⟨init, kernel', reach, isMemory, ⟨le_rfl, fun v => ⟨?_, ?_⟩⟩, isFork⟩
  · rintro ⟨frame, isFrame⟩
    exact heap.only v frame (Machine.holds_page.mpr ⟨alive, isFrame⟩)
  · rintro (⟨atLeast, high⟩ | rfl)
    · exact absurd high (Nat.not_lt.mpr atLeast)
    · exact ⟨ustack, isStackNow⟩

/-- The first process forks. -/
theorem fork_copies_first : ∃ init kernel' child, (smallKernel init).fork 0 = some (kernel', 2) ∧
    Copied (smallKernel init) 0 child kernel' ∧
    kernel'.refCount 0 = 4 := by
  rcases exists_fork Vm.Sys.smallBoot (by have enough := Vm.Sys.freePages_smallBoot; omega) with
    ⟨init, kernel', reach, isMemory, image, forked⟩
  rcases fork_copies Vm.Sys.smallBoot reach isMemory (placed_smallKernel init) rfl image
    (show userText ≤ userStack by decide) forked (by decide) with ⟨child, _, copied, refCount⟩
  exact ⟨init, kernel', child, forked, copied, refCount 0⟩

/-- A file that two descriptors of the parent name gains two references. -/
theorem fork_shares_twice : ¬∀ (boot : Boot) (sys : Vm.Sys),
    Reach Vm.Sys.step Vm.Sys.Own (Vm.Sys.start boot) sys →
    ∀ (kernel kernel' : Kernel) (p : Kern.Slot),
    kernel.memory = sys.switch p → kernel.Placed → (kernel.proc p).place = .running →
    Machine.Image kernel.machine p (kernel.proc p).brk → (kernel.proc p).brk ≤ userStack →
    ∀ pid : ℤ, kernel.fork p = some (kernel', pid) → pid ≠ -1 →
    ∃ child, (kernel'.proc child).pid = pid ∧ Copied kernel p child kernel' ∧
      ∀ f, kernel'.refCount f =
        kernel.refCount f + if 0 < descriptors (kernel.proc p) f then 1 else 0 := by
  intro always
  rcases exists_fork Vm.Sys.smallBoot (by have enough := Vm.Sys.freePages_smallBoot; omega) with
    ⟨init, kernel', reach, isMemory, image, forked⟩
  rcases always Vm.Sys.smallBoot init reach _ kernel' 0 isMemory (placed_smallKernel init) rfl
    image (show userText ≤ userStack by decide) 2 forked (by decide) with ⟨_, _, _, refCount⟩
  have notNull : ((smallKernel init).proc 0).state ≠ .null := by
    rw [proc_smallKernel]
    decide
  rcases (fork_cases notNull forked).resolve_left (by decide) with
    ⟨_, _, _, _, _, _, _, _, rfl⟩
  have atFile := refCount 0
  have both : descriptors ((smallKernel init).proc 0) 0 = 2 := by
    rw [proc_smallKernel]
    decide
  have before : (smallKernel init).refCount 0 = 2 := rfl
  simp only [both, before] at atFile
  exact absurd atFile (by decide)

end Osix.Fork
