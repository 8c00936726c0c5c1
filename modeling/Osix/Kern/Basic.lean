import Osix.Basic
import Osix.Lib.Transition
import Mathlib.Data.Fintype.Basic
import Mathlib.Data.List.FinRange
import Mathlib.Logic.Function.Basic

/-!
# Processes and signals

The process table of `sys/kern/proc.c` with the calls that create, end and collect
processes (`kern_fork.c`, `kern_exit.c`, `wait`) and the signal code of `kern_signal.c`.
Memory, open files and the working directory belong to other parts of the development:
of `fork` and `proc_exit` these modules keep what they do to the process table, to the
saved registers and to the signal state.

A pointer into the process table is a slot. A process is interrupted only in user mode
and switched away from only in `sleep`, so that a system call runs without interruption
from its trap, or from the wake-up in its middle, to the next sleep or to the end of its
case in `sysent`. The check for signals at the end of `sysent` is a step of its own, in
order to make the registers visible between the two.
-/

namespace Osix.Kern

/-- A register, `uint32_t`. -/
abbrev Word := BitVec 32

/-- `struct interrupt_frame`. -/
structure Frame where
  ds : Word
  edi : Word
  esi : Word
  ebp : Word
  esp : Word
  ebx : Word
  edx : Word
  ecx : Word
  eax : Word
  intNo : Word
  errCode : Word
  eip : Word
  cs : Word
  eflags : Word
  userEsp : Word
  ss : Word
deriving DecidableEq

/-- A cleared frame. -/
def Frame.zero : Frame := ⟨0, 0, 0, 0, 0, 0, 0, 0, 0, 0, 0, 0, 0, 0, 0, 0⟩

/-- `NSIG`. -/
def nsig : ℕ := 16

def sighup : ℕ := 1
def sigint : ℕ := 2
def sigkill : ℕ := 9
def sigterm : ℕ := 15

/-- `SIG_DFL`. -/
def sigDfl : Word := 0

/-- `SIG_IGN`. -/
def sigIgn : Word := 1

/-- `struct sigacts`; the entries of `handlers` from `nsig` on are not part of the array. -/
structure SigActs where
  handlers : ℕ → Word
  context : Frame
  dispatcher : Word

/-- `enum procstate`. -/
inductive State where
  | null
  | idle
  | running
  | sleep
  | zombie
deriving DecidableEq

/-- A pointer to an entry of the process table. -/
abbrev Slot := Fin nproc

/--
The fields of `struct proc` that these calls use. `context` is what the pointer points to;
the only addresses that these calls sleep on are those of entries of the process table.
-/
structure Proc where
  state : State
  pid : ℤ
  pgrp : ℤ
  parent : Option Slot
  context : Frame
  exitStatus : ℤ
  wchan : Option Slot
  sigact : SigActs
  sigPending : Word
  sigMask : Word

/-- A cleared `struct proc`. -/
def Proc.zero : Proc :=
  ⟨.null, 0, 0, none, .zero, 0, none, ⟨fun _ => 0, .zero, 0⟩, 0, 0⟩

/-! ## Signals -/

/-- `1 << (sig - 1)`; the processor takes the shift count modulo 32. -/
def sigBit (sig : ℤ) : Word := 1#32 <<< ((sig - 1) % 32).toNat

/-- The action that `postsig` takes for a signal. -/
inductive Posted where
  | ignored
  | sigexit
  | handled
deriving DecidableEq

namespace Proc

/-- `killproc` on an entry of the table. -/
def killproc (p : Proc) (sig : ℤ) : Proc := { p with sigPending := p.sigPending ||| sigBit sig }

/-- `proc[p].state != STATE_NULL && proc[p].state != STATE_ZOMBIE`. -/
def Live (p : Proc) : Prop := p.state ≠ .null ∧ p.state ≠ .zombie

instance (p : Proc) : Decidable p.Live := inferInstanceAs (Decidable (_ ∧ _))

def signalPending (p : Proc) : Bool := p.sigPending &&& ~~~p.sigMask ≠ 0

/-- `postsig`; the call of `sigexit` is left to the caller. -/
def postsig (p : Proc) (sig : ℕ) : Proc × Posted :=
  if p.sigact.handlers (sig - 1) = sigIgn then
    (p, .ignored)
  else if p.sigact.handlers (sig - 1) = sigDfl then
    (p, .sigexit)
  else
    ({ p with
        sigact := { p.sigact with context := p.context }
        context :=
          { p.context with
            eip := p.sigact.dispatcher
            ecx := BitVec.ofNat 32 sig
            edx := p.sigact.handlers (sig - 1) }
        sigMask := p.sigMask ||| sigBit sig
        sigPending := p.sigPending &&& ~~~sigBit sig
        state := .running }, .handled)

/-- The test in the loop of `issignal`. -/
def deliverable (p : Proc) (sig : ℕ) : Bool := (p.sigPending &&& ~~~p.sigMask) &&& sigBit sig ≠ 0

/-- `issignal`, with the signal that it posted and the action taken for it. -/
def issignal (p : Proc) : Proc × Option (ℕ × Posted) :=
  match (List.range' 1 (nsig - 1)).find? p.deliverable with
  | none => (p, none)
  | some sig => ((p.postsig sig).1, some (sig, (p.postsig sig).2))

/-- `kern_signal`. -/
def kernSignal (p : Proc) (sig : ℤ) (handler sigDispatcher : Word) : Proc × Word :=
  if sig = sigkill ∨ sig < sighup ∨ sig > sigterm then
    (p, BitVec.ofInt 32 (-einval))
  else
    ({ p with
        sigact :=
          { p.sigact with
            handlers := Function.update p.sigact.handlers (sig - 1).toNat handler
            dispatcher := sigDispatcher } }, p.sigact.handlers (sig - 1).toNat)

def sigreturn (p : Proc) (sig : ℤ) : Proc :=
  { p with sigMask := p.sigMask &&& ~~~sigBit sig, context := p.sigact.context }

/-! ## New processes -/

/-- The entry that `proc_alloc` returns. -/
def allocated (pid : ℤ) : Proc :=
  { Proc.zero with
    state := .idle
    pid := pid
    sigact := ⟨fun _ => sigDfl, .zero, 0⟩ }

/-- What `fork` sets in the entry that `proc_alloc` returned. -/
def inherit (parent : Proc) (p : Slot) (child : Proc) : Proc :=
  { child with
    parent := some p
    pgrp := if parent.pgrp = 0 then child.pid else parent.pgrp
    context := { parent.context with eax := 0 }
    sigMask := parent.sigMask
    sigact :=
      { child.sigact with
        dispatcher := parent.sigact.dispatcher
        handlers := parent.sigact.handlers }
    state := .running }

end Proc

/-! ## The process table -/

/-- A signal that was delivered to a handler, with the registers that it interrupted. -/
structure Delivery where
  sig : ℕ
  frame : Frame
deriving DecidableEq

/-- A call of `wait` that returned the pid of a child. -/
structure Reaped where
  caller : Slot
  pid : ℤ
  status : ℤ
deriving DecidableEq

/--
What happened so far, the latest first; the kernel keeps no such record. `born` are the
pids given out, `exits` the pids of the processes that exited with the statuses they
passed, `reaped` the children that calls of `wait` returned. For each process `delivered`
are the signals delivered to it since it was created, `running` those whose handlers run
and have not returned; a child is created inside the handlers in which its parent is.
-/
structure History where
  born : List ℤ
  exits : List (ℤ × ℤ)
  reaped : List Reaped
  delivered : Slot → List Delivery
  running : Slot → List Delivery

/--
The process table. `curProc` is the process whose system call is finished up to the check
for signals, if there is one; `inWait` marks the processes that are inside `wait`.
-/
structure Sys where
  proc : Slot → Proc
  nextpid : ℤ
  curProc : Option Slot
  inWait : Slot → Bool
  past : History

namespace Sys

def set (sys : Sys) (p : Slot) (change : Proc → Proc) : Sys :=
  { sys with proc := Function.update sys.proc p (change (sys.proc p)) }

def wakeup (sys : Sys) (wchan : Slot) : Sys :=
  { sys with
    proc := fun p =>
      if (sys.proc p).state = .sleep ∧ (sys.proc p).wchan = some wchan then
        { sys.proc p with state := .running, wchan := none }
      else sys.proc p }

/-- `sleep(cur_proc)` in `wait`. -/
def sleep (sys : Sys) (p : Slot) : Sys :=
  { sys.set p fun old => { old with wchan := some p, state := .sleep } with
    curProc := none
    inWait := Function.update sys.inWait p true }

/-- A system call returns a value to `sysent`. -/
def returns (sys : Sys) (p : Slot) (value : Word) : Sys :=
  { sys.set p fun old => { old with context := { old.context with eax := value } } with
    curProc := some p
    inWait := Function.update sys.inWait p false }

def killpgrp (sys : Sys) (pgrp sig : ℤ) : Sys × ℤ :=
  ({ sys with
      proc := fun p =>
        if (sys.proc p).Live ∧ (sys.proc p).pgrp = pgrp then (sys.proc p).killproc sig
        else sys.proc p },
    if ∃ p, (sys.proc p).Live ∧ (sys.proc p).pgrp = pgrp then 0 else -esrch)

def kill (sys : Sys) (pid sig : ℤ) : Sys × ℤ :=
  if sig < sighup ∨ sig > sigterm then
    (sys, -einval)
  else if pid < -1 then
    sys.killpgrp ((-pid).bmod (2 ^ 16)) sig
  else
    match (List.finRange nproc).find? fun p => (sys.proc p).Live ∧ (sys.proc p).pid = pid with
    | some p => (sys.set p (·.killproc sig), 0)
    | none => (sys, -esrch)

/-- `proc_alloc`. -/
def procAlloc (sys : Sys) : Sys × Option Slot :=
  match (List.finRange nproc).find? fun p => (sys.proc p).state = .null with
  | none => (sys, none)
  | some child =>
      if sys.nextpid = 0x7fff then
        (sys.set child fun _ => .zero, none)
      else
        ({ sys.set child fun _ => .allocated sys.nextpid with
            nextpid := sys.nextpid + 1
            past := { sys.past with born := sys.nextpid :: sys.past.born } }, some child)

def fork (sys : Sys) (p : Slot) : Sys × ℤ :=
  match sys.procAlloc with
  | (sys, none) => (sys, -1)
  | (sys, some child) =>
      ({ sys.set child (Proc.inherit (sys.proc p) p) with
          past :=
            { sys.past with
              delivered := Function.update sys.past.delivered child []
              running := Function.update sys.past.running child (sys.past.running p) } },
        (sys.proc child).pid)

/-- A call of `fork` finds no free entry, or has no pid left, or makes a child. -/
theorem fork_cases (sys : Sys) {p : Slot} (alive : (sys.proc p).state ≠ .null) :
    ((sys.fork p).1 = sys ∧ (sys.fork p).2 = -1) ∨
    (∃ child, (sys.proc child).state = .null ∧ (sys.fork p).1 = sys.set child (fun _ => .zero) ∧
      (sys.fork p).2 = -1) ∨
    ∃ child, (sys.proc child).state = .null ∧ sys.nextpid ≠ 0x7fff ∧
      (sys.fork p).1 =
        { sys with
          proc := Function.update sys.proc child
            (Proc.inherit (sys.proc p) p (.allocated sys.nextpid))
          nextpid := sys.nextpid + 1
          past :=
            { sys.past with
              born := sys.nextpid :: sys.past.born
              delivered := Function.update sys.past.delivered child []
              running := Function.update sys.past.running child (sys.past.running p) } } ∧
      (sys.fork p).2 = sys.nextpid := by
  rcases found : (List.finRange nproc).find? fun q => (sys.proc q).state = .null with _ | child
  · left
    simp [fork, procAlloc, found]
  · have free : (sys.proc child).state = .null := by simpa using List.find?_some found
    have different : p ≠ child := by
      rintro rfl
      exact alive free
    by_cases exhausted : sys.nextpid = 0x7fff
    · right
      left
      refine ⟨child, free, ?_⟩
      simp [fork, procAlloc, found, exhausted]
    · right
      right
      refine ⟨child, free, exhausted, ?_⟩
      simp [fork, procAlloc, found, exhausted, set, Function.update_of_ne different,
        Proc.allocated]

/-- The loop of `proc_exit` over the process table. -/
def exitOrphans (p : Slot) : List Slot → Sys → Sys
  | [], sys => sys
  | i :: rest, sys =>
      if (sys.proc i).parent = some p then
        let adopted := sys.set i fun old => { old with parent := some 0 }
        exitOrphans p rest
          (if (sys.proc i).state = .zombie then adopted.wakeup 0 else adopted)
      else
        exitOrphans p rest sys

/-- `proc_exit`; without a parent `pmap_activate` follows a `NULL` pointer. -/
def procExit (sys : Sys) (p : Slot) (status : ℤ) : Option Sys :=
  let orphaned := exitOrphans p (List.finRange nproc) sys
  match (orphaned.proc p).parent with
  | none => none
  | some parent =>
      some
        { (orphaned.wakeup parent).set p fun old =>
            { old with exitStatus := status, state := .zombie } with
          curProc := none
          inWait := Function.update sys.inWait p false
          past := { sys.past with exits := ((sys.proc p).pid, status) :: sys.past.exits } }

/-- One turn of the loop of `wait`. -/
def wait (sys : Sys) (p : Slot) : Sys :=
  match (List.finRange nproc).find? fun child =>
      (sys.proc child).state ≠ .null ∧ (sys.proc child).parent = some p ∧
        (sys.proc child).state = .zombie with
  | some child =>
      let reaped : Reaped := ⟨p, (sys.proc child).pid, (sys.proc child).exitStatus⟩
      { (sys.set child fun old => { old with state := .null }).returns p
          (BitVec.ofInt 32 (sys.proc child).pid) with
        past := { sys.past with reaped := reaped :: sys.past.reaped } }
  | none =>
      if ∃ child, (sys.proc child).state ≠ .null ∧ (sys.proc child).parent = some p then
        if (sys.proc p).signalPending then
          sys.returns p (BitVec.ofInt 32 (-eintr))
        else
          sys.sleep p
      else
        sys.returns p (BitVec.ofInt 32 (-echild))

/-- `sigreturn` as a system call; it returns no value. -/
def sigreturn (sys : Sys) (p : Slot) (sig : ℤ) : Sys :=
  { sys.set p (·.sigreturn sig) with
    curProc := some p
    past :=
      { sys.past with
        running := Function.update sys.past.running p
          ((sys.past.running p).filter fun delivery => (delivery.sig : ℤ) ≠ sig) } }

/-- The end of `sysent`: the check for signals. -/
def leave (sys : Sys) (p : Slot) : Option Sys :=
  let left := { sys with curProc := none }
  if (sys.proc p).signalPending then
    match (sys.proc p).issignal with
    | (_, some (sig, .sigexit)) => left.procExit p sig
    | (posted, some (sig, .handled)) =>
        let delivery : Delivery := ⟨sig, (sys.proc p).context⟩
        some
          { left.set p fun _ => posted with
            past :=
              { sys.past with
                delivered :=
                  Function.update sys.past.delivered p (delivery :: sys.past.delivered p)
                running := Function.update sys.past.running p (delivery :: sys.past.running p) } }
    | _ => some left
  else
    some left

/-! ## Runs -/

/-- The system calls on processes and signals, with their arguments. -/
inductive Call where
  | fork
  | exit (status : ℤ)
  | wait
  | kill (pid sig : ℤ)
  | signal (sig : ℤ) (handler sigDispatcher : Word)
  | sigreturn (sig : ℤ)

/--
`trap` enters the kernel from user mode with the given registers, `resume` goes on in
`wait` after a sleep, `leave` is the end of `sysent`, and `interrupt` is the signal that
a terminal sends.
-/
inductive Act where
  | trap (p : Slot) (frame : Frame) (call : Call)
  | resume (p : Slot)
  | leave
  | interrupt (pid sig : ℤ)

/-- The test of `sched`. -/
def Runnable (sys : Sys) (p : Slot) : Prop :=
  (sys.proc p).state = .running ∨
    (sys.proc p).state = .sleep ∧ (sys.proc p).signalPending = true

instance (sys : Sys) (p : Slot) : Decidable (sys.Runnable p) :=
  inferInstanceAs (Decidable (_ ∨ _))

/-- The cases of `sysent`. -/
def sysent (sys : Sys) (p : Slot) : Call → Option Sys
  | .fork =>
      let forked := sys.fork p
      some (forked.1.returns p (BitVec.ofInt 32 forked.2))
  | .exit status => sys.procExit p status
  | .wait => some (sys.wait p)
  | .kill pid sig =>
      let killed := sys.kill pid sig
      some (killed.1.returns p (BitVec.ofInt 32 killed.2))
  | .signal sig handler sigDispatcher =>
      let installed := (sys.proc p).kernSignal sig handler sigDispatcher
      some ((sys.set p fun _ => installed.1).returns p installed.2)
  | .sigreturn sig => some (sys.sigreturn p sig)

def step (sys : Sys) : Act → Option Sys
  | .trap p frame call =>
      if sys.curProc = none ∧ sys.inWait p = false ∧ sys.Runnable p then
        (sys.set p fun old => { old with context := frame }).sysent p call
      else
        none
  | .resume p =>
      if sys.curProc = none ∧ sys.inWait p = true ∧ sys.Runnable p then
        some (sys.wait p)
      else
        none
  | .leave =>
      match sys.curProc with
      | none => none
      | some p => sys.leave p
  | .interrupt pid sig =>
      if sys.curProc = none then
        some (sys.kill pid sig).1
      else
        none

/-- The registers of a process that starts, as `proc_init_user_context` sets them. -/
def userContext (userEsp : Word) : Frame :=
  { Frame.zero with
    cs := 0x1b
    ds := 0x23
    ss := 0x23
    eflags := 0x200
    eip := 0x100000
    userEsp := userEsp }

/-- The process table after `proc_create` has made init. -/
def boot (userEsp : Word) : Sys where
  proc := fun p =>
    if p = 0 then { Proc.zero with state := .running, pid := 1, context := userContext userEsp }
    else .zero
  nextpid := 2
  curProc := none
  inWait := fun _ => false
  past := ⟨[1], [], [], fun _ => [], fun _ => []⟩

end Sys

end Osix.Kern
