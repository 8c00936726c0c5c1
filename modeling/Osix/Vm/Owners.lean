import Osix.Vm.Frames
import Osix.Vm.Progress

/-!
# Runs of processes

From the machine as it boots, through the creation of the first process, every step keeps
the frames of all processes apart, as long as processes write to user pages only. A step of a
run is a system call, or the part of one between two points where other processes can run.

The kernel does not see to that: a process can reach its page tables in the window at
`PTE_MAP`, and `wait` stores the exit status of a child at any address.
-/

namespace Osix.Vm

open Ownership Transition Machine

/-- The machine before the first process: the kernel's frames are in place. -/
structure Boot where
  machine : Machine
  cur : machine.cur = .kernel
  kernel : target (machine.mem (machine.dirs .kernel) sysIndex) = some machine.sysTable
  self : target (machine.mem (machine.dirs .kernel) pteMapIndex) = some (machine.dirs .kernel)
  dirNotTable : machine.dirs .kernel ≠ machine.sysTable
  dirNotZero : machine.dirs .kernel ≠ 0
  tableNotZero : machine.sysTable ≠ 0
  zeroAllocated : machine.vmm.Allocated 0
  dirAllocated : machine.vmm.Allocated (machine.dirs .kernel)
  tableAllocated : machine.vmm.Allocated machine.sysTable

/-- The stack that is not yet mapped. -/
def Place.pending : Place → Option ℕ
  | .emptied ustack => some ustack
  | .loading ustack _ _ => some ustack
  | _ => none

namespace Sys

/-- No process yet. -/
def start (boot : Boot) : Sys where
  machine := boot.machine
  procs := fun _ => ⟨.free, none, 0, 0⟩
  nextpid := 1

def view (sys : Sys) : View where
  alive p := (sys.procs p).place.mapped
  pending p := (sys.procs p).place.pending

def breaks (sys : Sys) (p : ProcId) : ℕ := (sys.procs p).brk

/-- What holds between two steps. -/
structure Inv (sys : Sys) : Prop where
  fine : Fine sys.view sys.machine sys.breaks
  loading : ∀ p ustack size read, (sys.procs p).place = .loading ustack size read →
    read ≤ maxFileBlocks ∧ (size.toNat ≤ maxFileSize → (sys.procs p).brk < userStack)

/-! ## The view after a change of one process -/

section

variable {sys sys' : Sys} {p : ProcId} {proc : Proc}

theorem view_update (procs : sys'.procs = Function.update sys.procs p proc) :
    sys'.view = (sys.view.setAlive p proc.place.mapped).setPending p proc.place.pending := by
  apply View.ext
  · funext q
    rcases eq_or_ne q p with rfl | different
    · simp [view, procs, View.setPending, View.setAlive]
    · simp [view, procs, View.setPending, View.setAlive, different]
  · funext q
    rcases eq_or_ne q p with rfl | different
    · simp [view, procs, View.setPending, View.setAlive]
    · simp [view, procs, View.setPending, View.setAlive, different]

theorem setAlive_self (view : View) (p : ProcId) : view.setAlive p (view.alive p) = view := by
  simp [View.setAlive]

theorem setPending_self (view : View) (p : ProcId) :
    view.setPending p (view.pending p) = view := by
  simp [View.setPending]

theorem breaks_update (procs : sys'.procs = Function.update sys.procs p proc) :
    sys'.breaks = Function.update sys.breaks p proc.brk := by
  funext q
  rcases eq_or_ne q p with rfl | different
  · simp [breaks, procs]
  · simp [breaks, procs, different]

/-- The process keeps its address space. -/
theorem view_of_alive (procs : sys'.procs = Function.update sys.procs p proc)
    (mapped : (sys.procs p).place.mapped = proc.place.mapped) :
    sys'.view = sys.view.setPending p proc.place.pending := by
  rw [view_update procs, ← mapped]
  exact congrArg (View.setPending · p _) (setAlive_self sys.view p)

/-- No stack appears or goes. -/
theorem view_of_pending (procs : sys'.procs = Function.update sys.procs p proc)
    (pending : (sys.procs p).place.pending = proc.place.pending) :
    sys'.view = sys.view.setAlive p proc.place.mapped := by
  rw [view_update procs, ← pending]
  exact setPending_self (sys.view.setAlive p proc.place.mapped) p

theorem view_of_same (procs : sys'.procs = Function.update sys.procs p proc)
    (mapped : (sys.procs p).place.mapped = proc.place.mapped)
    (pending : (sys.procs p).place.pending = proc.place.pending) : sys'.view = sys.view := by
  rw [view_of_alive procs mapped, ← pending]
  exact setPending_self sys.view p

theorem loading_update (inv : Inv sys) (procs : sys'.procs = Function.update sys.procs p proc)
    (new : ∀ ustack size read, proc.place = .loading ustack size read →
      read ≤ maxFileBlocks ∧ (size.toNat ≤ maxFileSize → proc.brk < userStack)) :
    ∀ q ustack size read, (sys'.procs q).place = .loading ustack size read →
      read ≤ maxFileBlocks ∧ (size.toNat ≤ maxFileSize → (sys'.procs q).brk < userStack) := by
  intro q ustack size read atLoading
  rw [procs] at atLoading ⊢
  rcases eq_or_ne q p with rfl | different
  · rw [Function.update_self] at atLoading ⊢
    exact new ustack size read atLoading
  · rw [Function.update_of_ne different] at atLoading ⊢
    exact inv.loading q ustack size read atLoading

end

/-! ## Steps -/

section

variable {sys sys' : Sys} {p : ProcId}

theorem inv_switch (inv : Inv sys) (p : ProcId) : Inv (sys.switch p) :=
  ⟨fine_activate inv.fine (.proc p), inv.loading⟩

/-- A step after which the machine holds the same, for other processes. -/
theorem inv_of {sys' : Sys} {proc : Proc} (inv : Inv sys)
    (procs : sys'.procs = Function.update sys.procs p proc)
    (notPending : proc.place.pending = none)
    (fine : Fine sys'.view sys'.machine sys'.breaks) : Inv sys' := by
  refine ⟨fine, loading_update inv procs ?_⟩
  intro ustack size read atLoading
  rw [atLoading, Place.pending] at notPending
  cases notPending

/-- A step that only writes to memory that the kernel does not walk. -/
theorem inv_keeps (inv : Inv sys) {machine : Machine}
    (keeps : Keeps sys.view sys.machine machine) : Inv { sys with machine := machine } :=
  ⟨fine_keeps inv.fine keeps, inv.loading⟩

theorem alive_of_running (running : (sys.procs p).place = .running) : sys.view.alive p = true := by
  simp [view, running, Place.mapped]

theorem procAlloc_free (found : sys.procAlloc = some p) : (sys.procs p).place = .free := by
  rw [procAlloc, Option.filter_eq_some_iff] at found
  simpa using List.find?_some found.1

theorem inv_fork (inv : Inv sys) (running : (sys.procs p).place = .running)
    (isCur : sys.machine.cur = .proc p) (forked : sys.fork p = some sys') : Inv sys' := by
  rw [fork] at forked
  cases found : sys.procAlloc with
  | none =>
      rw [found] at forked
      cases forked
      exact inv
  | some child =>
      rw [found, Option.map_eq_some_iff] at forked
      rcases forked with ⟨⟨machine, brk⟩, isForked, rfl⟩
      have isFree := procAlloc_free found
      have dead : sys.view.alive child = false := by simp [view, isFree, Place.mapped]
      have valid : sys.view.valid sys.machine.cur = true := by
        rw [isCur]
        exact alive_of_running running
      have isView := @view_of_pending sys
        ⟨machine, Function.update sys.procs child ⟨.running, some p, brk, 0⟩, sys.nextpid + 1⟩
        child ⟨.running, some p, brk, 0⟩ rfl (by rw [isFree]; rfl)
      have isBreaks := @breaks_update sys
        ⟨machine, Function.update sys.procs child ⟨.running, some p, brk, 0⟩, sys.nextpid + 1⟩
        child ⟨.running, some p, brk, 0⟩ rfl
      apply inv_of inv rfl rfl
      rw [isView, isBreaks]
      exact forkMemory_spec inv.fine valid dead isForked

theorem inv_execStart (inv : Inv sys) (running : (sys.procs p).place = .running)
    (isCur : sys.machine.cur = .proc p) {stack : ℕ → Word}
    (started : sys.execStart p stack = some sys') : Inv sys' := by
  rw [execStart, Option.map_eq_some_iff] at started
  rcases started with ⟨⟨machine, new, ustack⟩, isStarted, rfl⟩
  have fine := execStart_spec inv.fine isCur (alive_of_running running) isStarted
  let proc : Proc := { sys.procs p with place := .emptied ustack, brk := new }
  have isView := @view_of_alive sys
    { sys with machine := machine, procs := Function.update sys.procs p proc } p proc rfl
    (by rw [running]; rfl)
  have isBreaks := @breaks_update sys
    { sys with machine := machine, procs := Function.update sys.procs p proc } p proc rfl
  refine ⟨?_, loading_update inv rfl ?_⟩
  · rw [isView, isBreaks]
    exact fine
  · intro ustack' size read atLoading
    cases atLoading

theorem inv_execSize (inv : Inv sys) {ustack : ℕ}
    (emptied : (sys.procs p).place = .emptied ustack) (isCur : sys.machine.cur = .proc p)
    {size : Word} (sized : sys.execSize p ustack size = some sys') : Inv sys' := by
  rw [execSize, Option.map_eq_some_iff] at sized
  rcases sized with ⟨⟨machine, new⟩, isSized, rfl⟩
  have alive : sys.view.alive p = true := by simp [view, emptied, Place.mapped]
  rcases execSize_spec inv.fine isCur alive isSized with ⟨fine, below⟩
  let proc : Proc := { sys.procs p with place := .loading ustack size 0, brk := new }
  have isView := @view_of_same sys
    { sys with machine := machine, procs := Function.update sys.procs p proc } p proc rfl
    (by rw [emptied]; rfl) (by rw [emptied]; rfl)
  have isBreaks := @breaks_update sys
    { sys with machine := machine, procs := Function.update sys.procs p proc } p proc rfl
  refine ⟨?_, loading_update inv rfl ?_⟩
  · rw [isView, isBreaks]
    exact fine
  · rintro ustack' size' read isLoading
    simp only [Place.loading.injEq] at isLoading
    rcases isLoading with ⟨rfl, rfl, rfl⟩
    exact ⟨Nat.zero_le _, below⟩

theorem inv_execRead (inv : Inv sys) {ustack : ℕ} {size : Word} {read : ℕ}
    (loading : (sys.procs p).place = .loading ustack size read)
    (isCur : sys.machine.cur = .proc p) {image : ℕ → Word}
    (isRead : sys.execRead p ustack size read image = some sys') : Inv sys' := by
  rw [execRead, Option.ite_none_right_eq_some, Option.map_eq_some_iff] at isRead
  rcases isRead with ⟨⟨_, inFile⟩, machine, isBlock, rfl⟩
  have alive : sys.view.alive p = true := by simp [view, loading, Place.mapped]
  have kept := inv_keeps inv (readBlock_keeps inv.fine.sound alive isCur inFile isBlock)
  let proc : Proc := { sys.procs p with place := .loading ustack size (read + 1) }
  have isView := @view_of_same { sys with machine := machine }
    { sys with machine := machine, procs := Function.update sys.procs p proc } p proc rfl
    (by rw [loading]; rfl) (by rw [loading]; rfl)
  have isBreaks := @breaks_update { sys with machine := machine }
    { sys with machine := machine, procs := Function.update sys.procs p proc } p proc rfl
  have sameBreaks : Function.update (breaks { sys with machine := machine }) p proc.brk =
      breaks { sys with machine := machine } := Function.update_eq_self p sys.breaks
  refine ⟨?_, loading_update inv rfl ?_⟩
  · rw [isView, isBreaks, sameBreaks]
    exact kept.fine
  · rintro ustack' size' read' isLoading
    simp only [Place.loading.injEq] at isLoading
    rcases isLoading with ⟨rfl, rfl, rfl⟩
    exact ⟨inFile, (inv.loading p ustack size read loading).2⟩

/-- All blocks of the program are read, so it was one that `readi` can read. -/
theorem inv_execFinish (inv : Inv sys) {ustack : ℕ} {size : Word} {read : ℕ}
    (loading : (sys.procs p).place = .loading ustack size read)
    (finished : sys.execFinish p ustack size read = some sys') : Inv sys' := by
  rw [execFinish, Option.ite_none_right_eq_some, Option.map_eq_some_iff] at finished
  rcases finished with ⟨allRead, machine, isFinished, rfl⟩
  have alive : sys.view.alive p = true := by simp [view, loading, Place.mapped]
  have pending : sys.view.pending p = some ustack := by simp [view, loading, Place.pending]
  rcases inv.loading p ustack size read loading with ⟨inFile, below⟩
  have fits : size.toNat ≤ maxFileSize := by
    have isMax : maxFileBlocks = 519 := rfl
    rw [allRead, programBlocks, isMax] at inFile
    rw [maxFileSize_eq]
    omega
  have fine := execFinish_spec inv.fine alive pending (below fits) isFinished
  let proc : Proc := { sys.procs p with place := .running }
  have isView := @view_of_alive sys
    { sys with machine := machine, procs := Function.update sys.procs p proc } p proc rfl
    (by rw [loading]; rfl)
  have isBreaks := @breaks_update sys
    { sys with machine := machine, procs := Function.update sys.procs p proc } p proc rfl
  have sameBreaks : Function.update sys.breaks p proc.brk = sys.breaks :=
    Function.update_eq_self p sys.breaks
  apply inv_of inv rfl rfl
  rw [isView, isBreaks, sameBreaks]
  exact fine

theorem inv_brk (inv : Inv sys) (running : (sys.procs p).place = .running)
    (isCur : sys.machine.cur = .proc p) {arg : Word} (broke : sys.brk p arg = some sys') :
    Inv sys' := by
  rw [brk, Option.map_eq_some_iff] at broke
  rcases broke with ⟨⟨machine, new⟩, isBroken, rfl⟩
  have alive := alive_of_running running
  have fine := (fine_break inv.fine (by rw [isCur]; exact alive) alive isBroken).1
  let proc : Proc := { sys.procs p with brk := new }
  have isView := @view_of_same sys
    { sys with machine := machine, procs := Function.update sys.procs p proc } p proc rfl rfl rfl
  have isBreaks := @breaks_update sys
    { sys with machine := machine, procs := Function.update sys.procs p proc } p proc rfl
  have notPending : proc.place.pending = none := by
    show (sys.procs p).place.pending = none
    rw [running]
    rfl
  apply inv_of inv rfl notPending
  rw [isView, isBreaks]
  exact fine

theorem place_adopt (procs : ProcId → Proc) (p q : ProcId) :
    (adopt procs p q).place = (procs q).place := by
  rw [adopt]
  split
  · rfl
  · rfl

theorem brk_adopt (procs : ProcId → Proc) (p q : ProcId) :
    (adopt procs p q).brk = (procs q).brk := by
  rw [adopt]
  split
  · rfl
  · rfl

/-- Who the parent of a process is does not matter for its memory. -/
theorem inv_adopt (inv : Inv sys) (p : ProcId) : Inv { sys with procs := adopt sys.procs p } := by
  have isView : view { sys with procs := adopt sys.procs p } = sys.view := by
    simp [view, place_adopt]
  have isBreaks : breaks { sys with procs := adopt sys.procs p } = sys.breaks := by
    funext q
    exact brk_adopt sys.procs p q
  refine ⟨?_, ?_⟩
  · rw [isView, isBreaks]
    exact inv.fine
  · intro q ustack size read atLoading
    rw [place_adopt] at atLoading
    rw [brk_adopt]
    exact inv.loading q ustack size read atLoading

theorem inv_exitStart (inv : Inv sys) (running : (sys.procs p).place = .running)
    (isCur : sys.machine.cur = .proc p) (started : sys.exitStart p = some sys') : Inv sys' := by
  rw [exitStart, Option.map_eq_some_iff] at started
  rcases started with ⟨⟨machine, new⟩, isStarted, rfl⟩
  have adopted := inv_adopt inv p
  have running' : (adopt sys.procs p p).place = .running := by rw [place_adopt, running]
  have isStarted' : sys.machine.exitStart (.proc p) (adopt sys.procs p p).brk =
      some (machine, new) := by rw [brk_adopt]; exact isStarted
  have fine := exitStart_spec adopted.fine isCur (alive_of_running running') isStarted'
  let proc : Proc := { adopt sys.procs p p with place := .exiting, brk := new }
  have isView := @view_of_same { sys with procs := adopt sys.procs p }
    { sys with machine := machine, procs := Function.update (adopt sys.procs p) p proc } p proc
    rfl (by rw [running']; rfl) (by rw [running']; rfl)
  have isBreaks := @breaks_update { sys with procs := adopt sys.procs p }
    { sys with machine := machine, procs := Function.update (adopt sys.procs p) p proc } p proc rfl
  apply inv_of adopted rfl rfl
  rw [isView, isBreaks]
  exact fine

theorem inv_exitDestroy (inv : Inv sys) (exiting : (sys.procs p).place = .exiting)
    (destroyed : sys.exitDestroy p = some sys') : Inv sys' := by
  simp only [exitDestroy, Option.bind_eq_bind, Option.bind_eq_some_iff, Option.pure_def,
    Option.some.injEq] at destroyed
  rcases destroyed with ⟨parent, _, machine, isDestroyed, rfl⟩
  have alive : sys.view.alive p = true := by simp [view, exiting, Place.mapped]
  have fine := exitDestroy_spec (fine_activate inv.fine (.proc parent)) alive isDestroyed
  let proc : Proc := { sys.procs p with place := .ending }
  have isView := @view_of_pending sys
    { sys with machine := machine, procs := Function.update sys.procs p proc } p proc rfl
    (by rw [exiting]; rfl)
  have isBreaks := @breaks_update sys
    { sys with machine := machine, procs := Function.update sys.procs p proc } p proc rfl
  have sameBreaks : Function.update sys.breaks p proc.brk = sys.breaks :=
    Function.update_eq_self p sys.breaks
  apply inv_of inv rfl rfl
  rw [isView, isBreaks, sameBreaks]
  exact fine

/-- A process without an address space goes on to another place without one. -/
theorem inv_setProc (inv : Inv sys) (p : ProcId) {proc : Proc} (brk : proc.brk = (sys.procs p).brk)
    (mapped : (sys.procs p).place.mapped = proc.place.mapped)
    (pending : (sys.procs p).place.pending = proc.place.pending)
    (notPending : proc.place.pending = none) : Inv (sys.setProc p proc) := by
  have isView : (sys.setProc p proc).view = sys.view := view_of_same rfl mapped pending
  have isBreaks : (sys.setProc p proc).breaks = sys.breaks := by
    rw [breaks_update rfl, brk]
    exact Function.update_eq_self p sys.breaks
  apply inv_of inv rfl notPending
  rw [isView, isBreaks]
  exact inv.fine

/-- The status is stored in the memory of the parent if its address is a user address. -/
theorem inv_wait (inv : Inv sys) (running : (sys.procs p).place = .running)
    (isCur : sys.machine.cur = .proc p) {status : Word}
    (own : status = 0 ∨ status.toNat + 3 < userPages * 4096)
    (waited : sys.wait p status = some sys') : Inv sys' := by
  rw [wait] at waited
  split at waited
  · cases waited
    exact inv
  · rename_i child found
    rw [Option.map_eq_some_iff] at waited
    rcases waited with ⟨machine, isStored, rfl⟩
    have isZombie : (sys.procs child).place = .zombie := by
      rw [zombieOf] at found
      have both := List.find?_some found
      rw [decide_eq_true_eq] at both
      exact both.2
    have stored : Inv { sys with machine := machine } := by
      rw [storeStatus] at isStored
      split at isStored
      · rename_i notNull
        exact inv_keeps inv (storeInt_keeps inv.fine.sound (alive_of_running running) isCur
          (own.resolve_left notNull) isStored)
      · cases isStored
        exact inv
    apply inv_setProc stored child
    · rfl
    · dsimp only
      rw [isZombie]
      rfl
    · dsimp only
      rw [isZombie]
      rfl
    · rfl

theorem inv_create (inv : Inv sys) (onDirectory : sys.onDirectory = true) {size : Word}
    {stack : ℕ → Word} {image : ℕ → ℕ → Word} (created : sys.create size stack image = some sys') :
    Inv sys' := by
  simp only [create, Option.bind_eq_bind, Option.bind_eq_some_iff, Option.pure_def,
    Option.some.injEq] at created
  rcases created with ⟨p, found, ⟨machine, brk⟩, isCreated, rfl⟩
  have isFree := procAlloc_free found
  have dead : sys.view.alive p = false := by simp [view, isFree, Place.mapped]
  have valid : sys.view.valid sys.machine.cur = true := by
    rw [Sys.onDirectory] at onDirectory
    cases isCur : sys.machine.cur with
    | kernel => rfl
    | proc q =>
        rw [isCur] at onDirectory
        exact onDirectory
  have fine := createMemory_spec inv.fine valid dead isCreated
  have isView := @view_of_pending sys
    ⟨machine, Function.update sys.procs p ⟨.running, none, brk, 0⟩, sys.nextpid + 1⟩
    p ⟨.running, none, brk, 0⟩ rfl (by rw [isFree]; rfl)
  have isBreaks := @breaks_update sys
    ⟨machine, Function.update sys.procs p ⟨.running, none, brk, 0⟩, sys.nextpid + 1⟩
    p ⟨.running, none, brk, 0⟩ rfl
  refine ⟨?_, ?_⟩
  · rw [isView, isBreaks]
    exact fine
  · apply loading_update inv rfl
    intro ustack size read atLoading
    cases atLoading

/--
A process writes to user pages: with `wait` it gives no address or that of an `int` below
`SYS_VADDR`, and it does not write at or above `SYS_VADDR` itself.
-/
def Own (_ : Sys) : Act → Prop
  | .wait _ status => status = 0 ∨ status.toNat + 3 < userPages * 4096
  | .touch _ vpage _ => vpage < userPages
  | _ => True

theorem step_inv (inv : Inv sys) {act : Act} (own : Own sys act)
    (stepped : sys.step act = some sys') : Inv sys' := by
  cases act with
  | create size stack image =>
      rw [step, Option.ite_none_right_eq_some] at stepped
      exact inv_create inv stepped.1 stepped.2
  | fork p =>
      rw [step, Option.ite_none_right_eq_some] at stepped
      exact inv_fork (inv_switch inv p) stepped.1 rfl stepped.2
  | execStart p stack =>
      rw [step, Option.ite_none_right_eq_some] at stepped
      exact inv_execStart (inv_switch inv p) stepped.1 rfl stepped.2
  | execSize p size =>
      simp only [step] at stepped
      split at stepped
      · rename_i ustack emptied
        exact inv_execSize (inv_switch inv p) emptied rfl stepped
      · cases stepped
  | execRead p image =>
      simp only [step] at stepped
      split at stepped
      · rename_i ustack size read loading
        exact inv_execRead (inv_switch inv p) loading rfl stepped
      · cases stepped
  | execFinish p =>
      simp only [step] at stepped
      split at stepped
      · rename_i ustack size read loading
        exact inv_execFinish (inv_switch inv p) loading stepped
      · cases stepped
  | brk p arg =>
      rw [step, Option.ite_none_right_eq_some] at stepped
      exact inv_brk (inv_switch inv p) stepped.1 rfl stepped.2
  | exitStart p =>
      rw [step, Option.ite_none_right_eq_some] at stepped
      exact inv_exitStart (inv_switch inv p) stepped.1 rfl stepped.2
  | exitDestroy p =>
      rw [step, Option.ite_none_right_eq_some] at stepped
      exact inv_exitDestroy (inv_switch inv p) stepped.1 stepped.2
  | exitEnd p status =>
      rw [step, Option.ite_none_right_eq_some, Option.some.injEq] at stepped
      rcases stepped with ⟨ending, rfl⟩
      apply inv_setProc inv p
      · rfl
      · rw [ending]
        rfl
      · rw [ending]
        rfl
      · rfl
  | wait p status =>
      rw [step, Option.ite_none_right_eq_some] at stepped
      exact inv_wait (inv_switch inv p) stepped.1 rfl own stepped.2
  | touch p vpage words =>
      rw [step, Option.ite_none_right_eq_some, Option.map_eq_some_iff] at stepped
      rcases stepped with ⟨⟨running, _⟩, machine, touched, rfl⟩
      have switched := inv_switch inv p
      exact inv_keeps switched
        (touch_keeps switched.fine.sound (alive_of_running running) rfl own touched)

end

/-! ## Runs -/

section

variable {boot : Boot} {sys : Sys}

theorem view_start (boot : Boot) :
    (start boot).view = ⟨fun _ => false, fun _ => none⟩ := rfl

theorem holds_start {holder : Holder} {frame : ℕ}
    (held : boot.machine.holds (start boot).view holder = some frame) :
    holder = .zero ∧ frame = 0 ∨ holder = .sysDir ∧ frame = boot.machine.dirs .kernel ∨
      holder = .sysTable ∧ frame = boot.machine.sysTable := by
  cases holder <;> simp_all [holds, view_start]

theorem sound_start (boot : Boot) : Sound (start boot).view boot.machine := by
  refine ⟨?_, ?_, ?_, ?_⟩
  · intro a b frame heldA heldB
    have := boot.dirNotTable
    have := boot.dirNotZero
    have := boot.tableNotZero
    rcases holds_start heldA with ⟨rfl, isA⟩ | ⟨rfl, isA⟩ | ⟨rfl, isA⟩ <;>
      rcases holds_start heldB with ⟨rfl, isB⟩ | ⟨rfl, isB⟩ | ⟨rfl, isB⟩ <;> simp_all
  · intro holder frame held
    rcases holds_start held with ⟨_, rfl⟩ | ⟨_, rfl⟩ | ⟨_, rfl⟩
    · exact boot.zeroAllocated
    · exact boot.dirAllocated
    · exact boot.tableAllocated
  · intro pmap valid
    cases pmap with
    | kernel => exact boot.kernel
    | proc p => cases valid
  · intro pmap valid
    cases pmap with
    | kernel => exact boot.self
    | proc p => cases valid

theorem inv_start (boot : Boot) : Inv (start boot) := by
  refine ⟨⟨sound_start boot, ?_, ?_⟩, ?_⟩
  · intro p alive
    cases alive
  · intro p alive
    cases alive
  · intro p ustack size read loading
    cases loading

theorem inv_of_reach (reach : Reach step Own (start boot) sys) : Inv sys :=
  reach.invariant (inv_start boot) fun inv own stepped => step_inv inv own stepped

end

end Sys

end Osix.Vm
