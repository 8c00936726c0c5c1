import Osix.Kern.Basic
import Osix.Lib.RoundRobin

/-!
# The scheduler

`sched` of `kern/sched.c` over the process table, the system calls and the signals. The process that
has the processor enters the kernel, goes on after a sleep, leaves the kernel or is interrupted; it
gives the processor up in `sleep`, in `proc_exit` and at the timer, all of which call `yield`. The
kernel itself is not interrupted, and after `hlt` the processor waits for an interrupt.

The calls that sleep on something else than a process, such as a terminal, a disk or the time, are
modelled as far as the scheduler sees them: they sleep on an address, an interrupt wakes that
address up, and in the end they return a value.
-/

namespace Osix.Kern

open Transition

/-- The process table; `blocked` is the address on which a process sleeps inside a call, or last
slept, if that is not a process. -/
structure Kernel where
  sys : Sys
  blocked : Slot → Option ℕ

/-- What happens on the processor. `signalled` is a signal from a terminal, `device` an interrupt
that wakes an address up, and `tick` the timer, which does so too. -/
inductive Event where
  | trap (frame : Frame) (call : Sys.Call)
  | resume
  | block (wchan : ℕ)
  | unblock (value : Word)
  | leave
  | signalled (pid sig : ℤ)
  | device (wchan : ℕ)
  | tick (wchan : ℕ)

namespace Kernel

/-- `wakeup` of an address that is not a process. -/
def wakeup (kernel : Kernel) (wchan : ℕ) : Kernel :=
  { kernel with
    sys :=
      { kernel.sys with
        proc := fun p =>
          if (kernel.sys.proc p).state = .sleep ∧ kernel.blocked p = some wchan then
            { kernel.sys.proc p with state := .running, wchan := none }
          else kernel.sys.proc p } }

/-- `sleep` on an address that is not a process. -/
def sleep (kernel : Kernel) (p : Slot) (wchan : ℕ) : Kernel where
  sys :=
    { kernel.sys.set p fun old => { old with wchan := none, state := .sleep } with
      curProc := none }
  blocked := Function.update kernel.blocked p (some wchan)

/-- The process has called `yield`: it sleeps in `wait`, or it has exited. -/
def yielded (sys : Sys) (p : Slot) : Bool := sys.inWait p || (sys.proc p).state == .zombie

/-- The process is in user mode, where it can be interrupted. -/
def InUser (kernel : Kernel) (p : Slot) : Prop :=
  kernel.sys.curProc = none ∧ kernel.sys.inWait p = false ∧ kernel.blocked p = none

instance (kernel : Kernel) (p : Slot) : Decidable (kernel.InUser p) :=
  inferInstanceAs (Decidable (_ ∧ _ ∧ _))

/-- What the process that has the processor does, and whether it yields. -/
def work (p : Slot) (kernel : Kernel) : Event → Option (Kernel × Bool)
  | .trap frame call =>
      if kernel.InUser p then
        ((kernel.sys.set p fun old => { old with context := frame }).sysent p call).map fun sys =>
          ({ kernel with sys := sys }, yielded sys p)
      else none
  | .resume =>
      if kernel.sys.curProc = none ∧ kernel.sys.inWait p = true then
        some ({ kernel with sys := kernel.sys.wait p }, yielded (kernel.sys.wait p) p)
      else none
  | .block wchan =>
      if kernel.sys.curProc = none ∧ kernel.sys.inWait p = false then
        some (kernel.sleep p wchan, true)
      else none
  | .unblock value =>
      if kernel.sys.curProc = none ∧ kernel.blocked p ≠ none then
        some (⟨kernel.sys.returns p value, Function.update kernel.blocked p none⟩, false)
      else none
  | .leave =>
      if kernel.sys.curProc = some p then
        (kernel.sys.leave p).map fun sys => ({ kernel with sys := sys }, yielded sys p)
      else none
  | .signalled pid sig =>
      if kernel.InUser p then some ({ kernel with sys := (kernel.sys.kill pid sig).1 }, false)
      else none
  | .device wchan => if kernel.InUser p then some (kernel.wakeup wchan, false) else none
  | .tick wchan => if kernel.InUser p then some (kernel.wakeup wchan, true) else none

/-- An interrupt while the processor is halted. -/
def interrupt (kernel : Kernel) : Event → Option Kernel
  | .signalled pid sig => some { kernel with sys := (kernel.sys.kill pid sig).1 }
  | .device wchan => some (kernel.wakeup wchan)
  | .tick wchan => some (kernel.wakeup wchan)
  | _ => none

/-- `sched` with the processes. -/
def sched : RoundRobin.Machine nproc Kernel Event where
  runnable kernel p := decide (kernel.sys.Runnable p)
  work := work
  interrupt := interrupt

end Kernel

namespace Sys

/-! ## Runnable processes stay runnable -/

variable {sys sys' : Sys} {p q : Slot}

/-- Whether a process is runnable depends on its state, its signals and its mask. -/
theorem runnable_congr (state : (sys'.proc q).state = (sys.proc q).state)
    (pending : (sys'.proc q).signalPending = (sys.proc q).signalPending) :
    sys'.Runnable q ↔ sys.Runnable q := by
  rw [Runnable, Runnable, state, pending]

/-- A step that leaves all other entries alone. -/
theorem runnable_elsewhere {entry : Proc} (different : q ≠ p)
    (same : sys'.proc = Function.update sys.proc p entry) : sys'.Runnable q ↔ sys.Runnable q := by
  have entries : sys'.proc q = sys.proc q := by rw [same, Function.update_of_ne different]
  exact runnable_congr (by rw [entries]) (by rw [entries])

theorem runnable_set {change : Proc → Proc} (different : q ≠ p) :
    (sys.set p change).Runnable q ↔ sys.Runnable q :=
  runnable_elsewhere different rfl

theorem runnable_returns {value : Word} (different : q ≠ p) :
    (sys.returns p value).Runnable q ↔ sys.Runnable q :=
  runnable_elsewhere different rfl

theorem runnable_wakeup (wchan : Slot) (can : sys.Runnable q) : (sys.wakeup wchan).Runnable q := by
  simp only [Runnable, wakeup]
  split_ifs
  · exact Or.inl rfl
  · exact can

theorem signalPending_killproc {proc : Proc} (sig : ℤ) (pending : proc.signalPending = true) :
    (proc.killproc sig).signalPending = true := by
  have some : proc.sigPending &&& ~~~proc.sigMask ≠ 0 := of_decide_eq_true pending
  refine decide_eq_true fun none => some ?_
  have none : (proc.sigPending ||| sigBit sig) &&& ~~~proc.sigMask = 0 := none
  have both : (proc.sigPending &&& ~~~proc.sigMask) ||| (sigBit sig &&& ~~~proc.sigMask) = 0 := by
    rw [← none]
    ext i
    simp only [BitVec.getElem_or, BitVec.getElem_and]
    grind
  exact (BitVec.or_eq_zero_iff.mp both).1

theorem runnable_killed {killed : Prop} [Decidable killed] (sig : ℤ) (can : sys.Runnable q)
    (entry : sys'.proc q = if killed then (sys.proc q).killproc sig else sys.proc q) :
    sys'.Runnable q := by
  rw [Runnable, entry]
  split_ifs
  · rcases can with running | ⟨asleep, pending⟩
    · exact Or.inl running
    · exact Or.inr ⟨asleep, signalPending_killproc sig pending⟩
  · exact can

theorem runnable_kill (pid sig : ℤ) (can : sys.Runnable q) : (sys.kill pid sig).1.Runnable q := by
  rw [kill]
  split_ifs
  · exact can
  · exact runnable_killed sig can rfl
  · cases found : (List.finRange nproc).find? fun p =>
        (sys.proc p).Live ∧ (sys.proc p).pid = pid with
    | none => exact can
    | some p =>
        have killed : (sys.set p (·.killproc sig)).Runnable q := by
          rcases eq_or_ne q p with rfl | different
          · have entry : (sys.set q (·.killproc sig)).proc q =
                if True then (sys.proc q).killproc sig else sys.proc q := by
              simp [set]
            exact runnable_killed sig can entry
          · exact (runnable_set different).mpr can
        exact killed

theorem runnable_exitOrphans (slots : List Slot) (can : sys.Runnable q) :
    (exitOrphans p slots sys).Runnable q := by
  induction slots generalizing sys with
  | nil => exact can
  | cons i rest ih =>
      have adopted : (sys.set i fun old => { old with parent := some 0 }).Runnable q := by
        refine (runnable_congr ?_ ?_).mpr can
        · rcases eq_or_ne q i with rfl | different
          · simp [set]
          · simp [set, Function.update_of_ne different]
        · rcases eq_or_ne q i with rfl | different
          · simp [set, Proc.signalPending]
          · simp [set, Function.update_of_ne different]
      rw [exitOrphans]
      split_ifs
      · exact ih (runnable_wakeup 0 adopted)
      · exact ih adopted
      · exact ih can

theorem runnable_procExit {status : ℤ} (different : q ≠ p) (can : sys.Runnable q)
    (exited : sys.procExit p status = some sys') : sys'.Runnable q := by
  simp only [procExit] at exited
  cases parent : ((exitOrphans p (List.finRange nproc) sys).proc p).parent with
  | none =>
      rw [parent] at exited
      cases exited
  | some up =>
      rw [parent, Option.some.injEq] at exited
      rw [← exited]
      have woken := runnable_wakeup up (runnable_exitOrphans (p := p) (List.finRange nproc) can)
      exact (runnable_elsewhere different rfl).mpr woken

theorem runnable_fork (can : sys.Runnable q) :
    (sys.fork p).1.Runnable q := by
  have notNull : (sys.proc q).state ≠ .null := by
    rcases can with running | ⟨asleep, _⟩
    · rw [running]
      simp
    · rw [asleep]
      simp
  rw [fork, procAlloc]
  cases found : (List.finRange nproc).find? fun p => (sys.proc p).state = .null with
  | none => exact can
  | some child =>
      have free : (sys.proc child).state = .null := by simpa using List.find?_some found
      have other : q ≠ child := by
        rintro rfl
        exact notNull free
      by_cases exhausted : sys.nextpid = 0x7fff
      · simp only [if_pos exhausted]
        exact (runnable_set other).mpr can
      · simp only [if_neg exhausted]
        have made : (sys.set child fun _ => .allocated sys.nextpid).Runnable q :=
          (runnable_set other).mpr can
        exact (runnable_elsewhere other rfl).mpr made

theorem runnable_wait (different : q ≠ p) (can : sys.Runnable q) : (sys.wait p).Runnable q := by
  rw [wait]
  cases found : (List.finRange nproc).find? fun child =>
      (sys.proc child).state ≠ .null ∧ (sys.proc child).parent = some p ∧
        (sys.proc child).state = .zombie with
  | none =>
      simp only
      split_ifs
      · exact (runnable_returns different).mpr can
      · exact (runnable_elsewhere different rfl).mpr can
      · exact (runnable_returns different).mpr can
  | some child =>
      have zombie : (sys.proc child).state = .zombie := by
        have held := List.find?_some found
        simp only [decide_eq_true_eq] at held
        exact held.2.2
      have other : q ≠ child := by
        rintro rfl
        rcases can with running | ⟨asleep, _⟩
        · rw [zombie] at running
          cases running
        · rw [zombie] at asleep
          cases asleep
      have collected : (sys.set child fun old => { old with state := .null }).Runnable q :=
        (runnable_set other).mpr can
      exact (runnable_returns different).mpr collected

theorem runnable_sysent {call : Call} (different : q ≠ p) (can : sys.Runnable q)
    (done : sys.sysent p call = some sys') : sys'.Runnable q := by
  cases call with
  | fork =>
      rw [sysent, Option.some.injEq] at done
      rw [← done]
      exact (runnable_returns different).mpr (runnable_fork can)
  | exit status => exact runnable_procExit different can done
  | wait =>
      rw [sysent, Option.some.injEq] at done
      rw [← done]
      exact runnable_wait different can
  | kill pid sig =>
      rw [sysent, Option.some.injEq] at done
      rw [← done]
      exact (runnable_returns different).mpr (runnable_kill pid sig can)
  | signal sig handler sigDispatcher =>
      rw [sysent, Option.some.injEq] at done
      rw [← done]
      exact (runnable_returns different).mpr ((runnable_set different).mpr can)
  | sigreturn sig =>
      rw [sysent, Option.some.injEq] at done
      rw [← done]
      exact (runnable_elsewhere different rfl).mpr can

theorem runnable_leave (different : q ≠ p) (can : sys.Runnable q)
    (done : sys.leave p = some sys') : sys'.Runnable q := by
  have left : ({ sys with curProc := none } : Sys).Runnable q := can
  simp only [leave] at done
  split at done
  · split at done
    · exact runnable_procExit different left done
    · rw [Option.some.injEq] at done
      rw [← done]
      exact (runnable_elsewhere different rfl).mpr left
    · rw [Option.some.injEq] at done
      rw [← done]
      exact left
  · rw [Option.some.injEq] at done
    rw [← done]
    exact left

end Sys

namespace Kernel

variable {kernel : Kernel} {p q : Slot}

theorem runnable_wakeup (wchan : ℕ) (can : kernel.sys.Runnable q) :
    (kernel.wakeup wchan).sys.Runnable q := by
  simp only [Sys.Runnable, wakeup]
  split_ifs
  · exact Or.inl rfl
  · exact can

/-- No process takes from another what it needs to run. -/
theorem sched_considerate : RoundRobin.Considerate sched := by
  intro p q kernel event r different done can
  have can : kernel.sys.Runnable q := of_decide_eq_true can
  refine decide_eq_true ?_
  cases event with
  | trap frame call =>
      simp only [sched, work, Option.ite_none_right_eq_some, Option.map_eq_some_iff] at done
      rcases done with ⟨_, sys, called, rfl⟩
      exact Sys.runnable_sysent different ((Sys.runnable_set different).mpr can) called
  | resume =>
      simp only [sched, work, Option.ite_none_right_eq_some, Option.some.injEq] at done
      rw [← done.2]
      exact Sys.runnable_wait different can
  | block wchan =>
      simp only [sched, work, Option.ite_none_right_eq_some, Option.some.injEq] at done
      rw [← done.2]
      exact (Sys.runnable_elsewhere different rfl).mpr can
  | unblock value =>
      simp only [sched, work, Option.ite_none_right_eq_some, Option.some.injEq] at done
      rw [← done.2]
      exact (Sys.runnable_returns different).mpr can
  | leave =>
      simp only [sched, work, Option.ite_none_right_eq_some, Option.map_eq_some_iff] at done
      rcases done with ⟨_, sys, left, rfl⟩
      exact Sys.runnable_leave different can left
  | signalled pid sig =>
      simp only [sched, work, Option.ite_none_right_eq_some, Option.some.injEq] at done
      rw [← done.2]
      exact Sys.runnable_kill pid sig can
  | device wchan =>
      simp only [sched, work, Option.ite_none_right_eq_some, Option.some.injEq] at done
      rw [← done.2]
      exact runnable_wakeup wchan can
  | tick wchan =>
      simp only [sched, work, Option.ite_none_right_eq_some, Option.some.injEq] at done
      rw [← done.2]
      exact runnable_wakeup wchan can

/-! ## Runs -/

/-- The processor when `main` calls `sched`. -/
def cpuBoot (userEsp : Word) : RoundRobin.Cpu nproc Kernel :=
  ⟨⟨Sys.boot userEsp, fun _ => none⟩, .scan 0 0, [], 0⟩

theorem starts_cpuBoot (userEsp : Word) : RoundRobin.Starts (cpuBoot userEsp) := rfl

variable {userEsp : Word} {cpu cpu' : RoundRobin.Cpu nproc Kernel}

/-- The processor halts only when no process can run. -/
theorem halts_idle (reach : Reach (RoundRobin.step sched) Always (cpuBoot userEsp) cpu)
    (halted : cpu.place = .halted) (p : Slot) : ¬cpu.state.sys.Runnable p := by
  have idle := RoundRobin.idle_of_reach (starts_cpuBoot userEsp) reach
  simp only [RoundRobin.Idle, halted] at idle
  exact of_decide_eq_false (idle p)

/-- Init waits for a terminal, and the scheduler looks at all entries once more. -/
def initAsleep : List (RoundRobin.Act Event) :=
  [.look, .work (.block 5)] ++ List.replicate (nproc + nproc + 1) .look

def isHalted (cpu : RoundRobin.Cpu nproc Kernel) : Bool :=
  match cpu.place with
  | .halted => true
  | _ => false

theorem isHalted_iff : isHalted cpu = true ↔ cpu.place = .halted := by
  rw [isHalted]
  split <;> simp_all

theorem halts_idle_init : ∃ cpu, Reach (RoundRobin.step sched) Always (cpuBoot 0) cpu ∧
    ∀ p, ¬cpu.state.sys.Runnable p := by
  have observed : (run (RoundRobin.step sched) (cpuBoot 0) initAsleep).any isHalted = true := rfl
  rcases reach_of_observed observed with ⟨cpu, reach, halted⟩
  exact ⟨cpu, reach, halts_idle reach (isHalted_iff.mp halted)⟩

/-- From when a process can run until it is given the processor, it stays able to run, no other
process is given the processor twice, and the scheduler looks at `NPROC` entries at most. -/
theorem served_in_turn (reach : Reach (RoundRobin.step sched) Always (cpuBoot userEsp) cpu)
    (can : cpu.state.sys.Runnable q) (waits : ∀ served, cpu.place ≠ .running q served)
    (later : Reach (RoundRobin.step sched) Always (RoundRobin.counted cpu) cpu')
    (notYet : q ∉ cpu'.given) :
    cpu'.state.sys.Runnable q ∧ cpu'.given.Nodup ∧ cpu'.looks ≤ nproc := by
  have served := RoundRobin.served sched_considerate (starts_cpuBoot userEsp) reach
    (decide_eq_true can) waits later notYet
  exact ⟨of_decide_eq_true served.1, served.2⟩

/-- Init makes two children. -/
def twoChildren : List (RoundRobin.Act Event) :=
  [.look, .work (.trap .zero .fork), .work .leave, .work (.trap .zero .fork), .work .leave]

/-- The first child is given the processor. -/
def firstChild : List (RoundRobin.Act Event) := [.work (.tick 1), .look, .work (.tick 2)]

theorem served_in_turn_second : ∃ cpu cpu',
    run (RoundRobin.step sched) (cpuBoot 0) twoChildren = some cpu ∧
    run (RoundRobin.step sched) (RoundRobin.counted cpu) firstChild = some cpu' ∧
    cpu'.state.sys.Runnable 2 ∧ cpu'.given.Nodup ∧ cpu'.looks ≤ nproc := by
  have ran : ∃ cpu, run (RoundRobin.step sched) (cpuBoot 0) twoChildren = some cpu ∧
      cpu.state.sys.Runnable 2 ∧ (∃ served, cpu.place = .running 0 served) ∧
      ∃ cpu', run (RoundRobin.step sched) (RoundRobin.counted cpu) firstChild = some cpu' ∧
        2 ∉ cpu'.given :=
    ⟨_, rfl, by decide, ⟨_, rfl⟩, _, rfl, by decide⟩
  rcases ran with ⟨cpu, ran, can, ⟨served, place⟩, cpu', ran', notYet⟩
  have waits : ∀ served, cpu.place ≠ .running 2 served := by
    intro served'
    rw [place]
    simp
  exact ⟨cpu, cpu', ran, ran',
    served_in_turn (reach_of_run .start ran) can waits (reach_of_run .start ran') notYet⟩

end Kernel

end Osix.Kern
