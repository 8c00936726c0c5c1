import Osix.Pipe.Tables

/-!
# What a step does to the contents of pipes

A step runs a loop of `pipe_read` or of `pipe_write`, or it calls `sys_pipe`, or it is
quiet: it moves no bytes and puts no process into a pipe.
-/

namespace Osix.Pipes.Sys

/-- No byte moves, and a process that is in a pipe was there before. -/
structure Quiet (sys sys' : Sys) : Prop where
  accepted : sys'.accepted = sys.accepted
  delivered : sys'.delivered = sys.delivered
  readPos : ∀ q, (sys'.pipes q).readPos = (sys.pipes q).readPos
  writePos : ∀ q, (sys'.pipes q).writePos = (sys.pipes q).writePos
  buffer : ∀ q, (sys'.pipes q).buffer = (sys.pipes q).buffer
  places : ∀ p q, (sys'.procs p).place.pipe = some q →
    (sys'.procs p).place = (sys.procs p).place ∧ (sys'.procs p).asleep = (sys.procs p).asleep

theorem Quiet.refl (sys : Sys) : Quiet sys sys :=
  ⟨rfl, rfl, fun _ => rfl, fun _ => rfl, fun _ => rfl, fun _ _ _ => ⟨rfl, rfl⟩⟩

theorem Quiet.trans {sys middle sys' : Sys} (first : Quiet sys middle)
    (second : Quiet middle sys') : Quiet sys sys' where
  accepted := second.accepted.trans first.accepted
  delivered := second.delivered.trans first.delivered
  readPos q := (second.readPos q).trans (first.readPos q)
  writePos q := (second.writePos q).trans (first.writePos q)
  buffer q := (second.buffer q).trans (first.buffer q)
  places p q inPipe := by
    rcases second.places p q inPipe with ⟨place, asleep⟩
    rw [place] at inPipe
    rcases first.places p q inPipe with ⟨place', asleep'⟩
    exact ⟨place.trans place', asleep.trans asleep'⟩

section

variable {sys sys' : Sys} {p : ProcId}

/-- A process that leaves the pipes is quiet. -/
theorem quiet_setProc (p : ProcId) {change : Proc → Proc}
    (outside : (change (sys.procs p)).place.pipe = none) : Quiet sys (sys.setProc p change) := by
  refine ⟨rfl, rfl, fun _ => rfl, fun _ => rfl, fun _ => rfl, ?_⟩
  intro other q inPipe
  rcases eq_or_ne other p with rfl | different
  · simp [setProc, outside] at inPipe
  · simp [setProc, different]

theorem quiet_returns (sys : Sys) (p : ProcId) (value : ℤ) : Quiet sys (sys.returns p value) :=
  quiet_setProc p rfl

theorem quiet_setOfile (sys : Sys) (p : ProcId) (fd : Fin nfile) (file : Option FileId) :
    Quiet sys (sys.setOfile p fd file) := by
  refine ⟨rfl, rfl, fun _ => rfl, fun _ => rfl, fun _ => rfl, ?_⟩
  intro other q _
  rcases eq_or_ne other p with rfl | different
  · simp [setOfile, setProc]
  · simp [setOfile, setProc, different]

theorem quiet_fileDup (sys : Sys) (f : FileId) : Quiet sys (sys.fileDup f) :=
  ⟨rfl, rfl, fun _ => rfl, fun _ => rfl, fun _ => rfl, fun _ _ _ => ⟨rfl, rfl⟩⟩

theorem quiet_dropRef (sys : Sys) (f : FileId) (q : PipeId) : Quiet sys (sys.dropRef f q) :=
  ⟨rfl, rfl, fun other => (sys.dropRef_pipes f q other).2.1,
    fun other => (sys.dropRef_pipes f q other).2.2.1,
    fun other => (sys.dropRef_pipes f q other).2.2.2, fun _ _ _ => ⟨rfl, rfl⟩⟩

/-- The loop of `proc_exit` drops one reference after the other, each of an open file. -/
theorem exitFiles_rule {table : ProcId × Fin nfile → Option FileId}
    {motive : List (Fin nfile) → Sys → Prop} {fds : List (Fin nfile)} (nodup : fds.Nodup)
    (base : BaseOn table sys) (own : ∀ fd ∈ fds, table (p, fd) = (sys.procs p).ofile fd)
    (skips : ∀ fd rest sys, motive (fd :: rest) sys → (sys.procs p).ofile fd = none →
      motive rest sys)
    (drops : ∀ fd rest sys f q, motive (fd :: rest) sys → (sys.procs p).ofile fd = some f →
      sys.Held f q → motive rest (sys.dropRef f q))
    (start : motive fds sys) (exited : exitFiles p fds sys = some sys') : motive [] sys' := by
  induction fds generalizing sys table with
  | nil =>
      cases exited
      exact start
  | cons fd rest ih =>
      rw [List.nodup_cons] at nodup
      simp only [exitFiles] at exited
      split at exited
      · rename_i noFile
        apply ih nodup.2 base _ (skips fd rest sys start noFile) exited
        intro other member
        exact own other (List.mem_cons_of_mem _ member)
      · rename_i f isFile
        have stored : table (p, fd) = some f := by rw [own fd List.mem_cons_self, isFile]
        rcases held_of_stored base stored with ⟨q, held, closes⟩
        rw [closes, Option.bind_some] at exited
        apply ih nodup.2 (baseOn_dropRef (q := q) base stored) _
          (drops fd rest sys f q start isFile held) exited
        intro other member
        have otherFd : other ≠ fd := by
          rintro rfl
          exact nodup.1 member
        rw [Function.update_of_ne (by simp [otherFd])]
        exact own other (List.mem_cons_of_mem _ member)

/-- `proc_exit` drops the references of all its descriptors and leaves a zombie. -/
theorem exit_rule {motive : List (Fin nfile) → Sys → Prop} (base : Base sys)
    (isLive : sys.live p = true)
    (skips : ∀ fd rest sys, motive (fd :: rest) sys → (sys.procs p).ofile fd = none →
      motive rest sys)
    (drops : ∀ fd rest sys f q, motive (fd :: rest) sys → (sys.procs p).ofile fd = some f →
      sys.Held f q → motive rest (sys.dropRef f q))
    (start : motive (List.finRange nfile) sys) (exited : sys.exit p = some sys') :
    ∃ closed, motive [] closed ∧ sys' = closed.setProc p fun old => { old with place := .zombie } := by
  rw [exit, Option.map_eq_some_iff] at exited
  rcases exited with ⟨closed, closes, rfl⟩
  refine ⟨closed, ?_, rfl⟩
  apply exitFiles_rule (List.nodup_finRange nfile) base _ skips drops start closes
  intro fd _
  simp [slots, isLive]

/-- The `pipe_read` that a step starts or goes on with. -/
def reads (sys : Sys) : Act → Option (ProcId × PipeId × ℕ × List Byte)
  | .call p (.read fd nbytes) =>
      (sys.descriptor p fd).bind fun found => (sys.pipeOf found.2).map fun q => (p, q, nbytes, [])
  | .resume p =>
      match (sys.procs p).place with
      | .reading q left got => some (p, q, left, got)
      | _ => none
  | _ => none

/-- The `pipe_write` that a step starts or goes on with. -/
def writes (sys : Sys) : Act → Option (ProcId × PipeId × ℕ × List Byte)
  | .call p (.write fd src) =>
      (sys.descriptor p fd).bind fun found =>
        (sys.pipeOf found.2).map fun q => (p, q, src.length, src)
  | .resume p =>
      match (sys.procs p).place with
      | .writing q nbytes src => some (p, q, nbytes, src)
      | _ => none
  | _ => none

end

end Osix.Pipes.Sys
