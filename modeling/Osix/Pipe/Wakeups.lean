import Osix.Pipe.Fifo

/-!
# Wake-ups on pipes

`pipe_close` does not call `wakeup`, and `pipe_write` sleeps on a full pipe even if nobody
can read it. So a reader may sleep on a pipe without writers and a writer on a pipe without
readers, but only after one of these two has happened: in all other runs every process that
sleeps on a pipe waits for somebody who can wake it.
-/

namespace Osix.Pipes

open Transition

/-- The pipe that a process is reading. -/
def Place.readsFrom : Place → Option PipeId
  | .reading q _ _ => some q
  | _ => none

/-- The pipe that a process is writing. -/
def Place.writesTo : Place → Option PipeId
  | .writing q _ _ => some q
  | _ => none

theorem Place.pipe_of_readsFrom {place : Place} {q : PipeId} (reads : place.readsFrom = some q) :
    place.pipe = some q := by
  cases place with
  | reading _ _ _ => exact reads
  | _ => cases reads

theorem Place.pipe_of_writesTo {place : Place} {q : PipeId} (writes : place.writesTo = some q) :
    place.pipe = some q := by
  cases place with
  | writing _ _ _ => exact writes
  | _ => cases writes

namespace Sys

/-- A process is asleep in `pipe_read`. -/
def SleepsReading (sys : Sys) (p : ProcId) (q : PipeId) : Prop :=
  (sys.procs p).asleep = true ∧ (sys.procs p).place.readsFrom = some q

/-- A process is asleep in `pipe_write`. -/
def SleepsWriting (sys : Sys) (p : ProcId) (q : PipeId) : Prop :=
  (sys.procs p).asleep = true ∧ (sys.procs p).place.writesTo = some q

/-- The file was created as an end of the pipe, with these flags. -/
def IsEnd (sys : Sys) (flags : ℕ) (f : FileId) (q : PipeId) : Prop :=
  (sys.files f).type = .pipe ∧ (sys.files f).pipe = some q ∧ (sys.files f).flags = flags

/-- A read end of the pipe is open. -/
def ReadOpen (sys : Sys) (q : PipeId) : Prop :=
  ∃ f, 0 < (sys.files f).refCount ∧ sys.IsEnd oRdonly f q

instance (sys : Sys) (p : ProcId) (q : PipeId) : Decidable (sys.SleepsReading p q) :=
  inferInstanceAs (Decidable (_ ∧ _))

instance (sys : Sys) (p : ProcId) (q : PipeId) : Decidable (sys.SleepsWriting p q) :=
  inferInstanceAs (Decidable (_ ∧ _))

instance (sys : Sys) (flags : ℕ) (f : FileId) (q : PipeId) : Decidable (sys.IsEnd flags f q) :=
  inferInstanceAs (Decidable (_ ∧ _ ∧ _))

instance (sys : Sys) (q : PipeId) : Decidable (sys.ReadOpen q) :=
  inferInstanceAs (Decidable (∃ _ : FileId, _))

/-- No process sleeps for ever: a reader has a writer, and a writer has a reader. -/
structure NoMissed (sys : Sys) : Prop where
  reading : ∀ p q, sys.SleepsReading p q → (sys.pipes q).writers ≠ 0
  writing : ∀ p q, sys.SleepsWriting p q → sys.ReadOpen q

/-- The number of references of a file that a step drops. -/
def drops (sys : Sys) : Act → FileId → ℕ
  | .call p (.close fd), f => if (sys.descriptor p fd).map Prod.snd = some f then 1 else 0
  | .call p (.dup2 oldFd newFd), f =>
      if (sys.descriptor p oldFd).isSome ∧ (sys.descriptor p newFd).map Prod.snd = some f then 1
      else 0
  | .call p .exit, f => (List.finRange nfile).countP fun fd => (sys.procs p).ofile fd = some f
  | _, _ => 0

/-- A step drops the last reference of a file. -/
def DropsLast (sys : Sys) (act : Act) (f : FileId) : Prop :=
  0 < (sys.files f).refCount ∧ (sys.files f).refCount ≤ sys.drops act f

/-- `dup2` takes a new reference of the file. -/
def Duplicates (sys : Sys) : Act → FileId → Prop
  | .call p (.dup2 oldFd _), f => (sys.descriptor p oldFd).map Prod.snd = some f
  | _, _ => False

instance (sys : Sys) (act : Act) (f : FileId) : Decidable (sys.DropsLast act f) :=
  inferInstanceAs (Decidable (_ ∧ _))

instance (sys : Sys) : (act : Act) → (f : FileId) → Decidable (sys.Duplicates act f)
  | .call _ (.dup2 _ _), _ => inferInstanceAs (Decidable (_ = _))
  | .call _ .pipe, _ => inferInstanceAs (Decidable False)
  | .call _ (.read _ _), _ => inferInstanceAs (Decidable False)
  | .call _ (.write _ _), _ => inferInstanceAs (Decidable False)
  | .call _ (.close _), _ => inferInstanceAs (Decidable False)
  | .call _ (.dup _), _ => inferInstanceAs (Decidable False)
  | .call _ .fork, _ => inferInstanceAs (Decidable False)
  | .call _ .exit, _ => inferInstanceAs (Decidable False)
  | .resume _, _ => inferInstanceAs (Decidable False)
  | .reap _, _ => inferInstanceAs (Decidable False)

/--
The condition on the steps: the last close of a write end finds no sleeping reader, that of
a read end no sleeping writer, and a `pipe_write` that nobody can read has room.
-/
structure Heeded (sys : Sys) (act : Act) : Prop where
  writeEnd : ∀ f q, sys.DropsLast act f → sys.IsEnd oWronly f q → ∀ p, ¬sys.SleepsReading p q
  readEnd : ∀ f q, sys.DropsLast act f → ¬sys.Duplicates act f → sys.IsEnd oRdonly f q →
    ∀ p, ¬sys.SleepsWriting p q
  room : ∀ write ∈ sys.writes act, ¬sys.ReadOpen write.2.1 →
    (sys.pipes write.2.1).fill + write.2.2.2.length ≤ pipeBuf

section

variable {sys sys' : Sys} {p : ProcId} {q : PipeId}

theorem quiet_sleepsReading (quiet : Quiet sys sys') (sleeps : sys'.SleepsReading p q) :
    sys.SleepsReading p q := by
  rcases quiet.places p q (Place.pipe_of_readsFrom sleeps.2) with ⟨place, asleep⟩
  exact ⟨asleep ▸ sleeps.1, place ▸ sleeps.2⟩

theorem quiet_sleepsWriting (quiet : Quiet sys sys') (sleeps : sys'.SleepsWriting p q) :
    sys.SleepsWriting p q := by
  rcases quiet.places p q (Place.pipe_of_writesTo sleeps.2) with ⟨place, asleep⟩
  exact ⟨asleep ▸ sleeps.1, place ▸ sleeps.2⟩

theorem noMissed_quiet (noMissed : NoMissed sys) (quiet : Quiet sys sys')
    (writers : ∀ p q, sys.SleepsReading p q → (sys'.pipes q).writers = (sys.pipes q).writers)
    (ends : ∀ p q, sys.SleepsWriting p q → sys.ReadOpen q → sys'.ReadOpen q) :
    NoMissed sys' where
  reading p q sleeps := by
    have slept := quiet_sleepsReading quiet sleeps
    rw [writers p q slept]
    exact noMissed.reading p q slept
  writing p q sleeps := by
    have slept := quiet_sleepsWriting quiet sleeps
    exact ends p q slept (noMissed.writing p q slept)

theorem noMissed_same (noMissed : NoMissed sys) (quiet : Quiet sys sys')
    (files : sys'.files = sys.files) (pipes : sys'.pipes = sys.pipes) : NoMissed sys' := by
  apply noMissed_quiet noMissed quiet
  · intro p q _
    rw [pipes]
  · rintro p q _ ⟨f, isOpen, isEnd⟩
    exact ⟨f, by rwa [files], by simpa only [IsEnd, files] using isEnd⟩

/-! ## Closing -/

/-- Only the last reference of a write end takes a writer away. -/
theorem dropRef_writers (sys : Sys) {f : FileId} {q other : PipeId}
    (same : other = q → ¬((sys.files f).refCount = 1 ∧ (sys.files f).flags &&& oWronly ≠ 0)) :
    ((sys.dropRef f q).pipes other).writers = (sys.pipes other).writers := by
  rcases eq_or_ne other q with rfl | different
  · simp [dropRef, setFile, setPipe, writersAfter, same rfl]
  · simp [dropRef, setFile, setPipe, different]

/-- A close that is not the last one of a write end leaves the sleeping readers their writer. -/
theorem writers_dropRef {f : FileId} (held : sys.Held f q)
    (writeEnd : (sys.files f).refCount = 1 → sys.IsEnd oWronly f q → ∀ p, ¬sys.SleepsReading p q)
    {p : ProcId} {other : PipeId} (sleeps : sys.SleepsReading p other) :
    ((sys.dropRef f q).pipes other).writers = (sys.pipes other).writers := by
  apply sys.dropRef_writers
  rintro rfl ⟨last, isWrite⟩
  rcases held.flags with flags | flags
  · simp [flags, oRdonly] at isWrite
  · exact writeEnd last ⟨held.isPipe, held.ofPipe, flags⟩ p sleeps

theorem isEnd_dropRef {f file : FileId} {flags : ℕ} {other : PipeId} :
    (sys.dropRef f q).IsEnd flags file other ↔ sys.IsEnd flags file other := by
  simp [IsEnd, dropRef_file]

theorem isEnd_fileDup {f file : FileId} {flags : ℕ} {other : PipeId} :
    (sys.fileDup f).IsEnd flags file other ↔ sys.IsEnd flags file other := by
  simp [IsEnd, fileDup_file]

theorem readOpen_dropRef {f : FileId} {other : PipeId} (isOpen : sys.ReadOpen other)
    (notLast : (sys.files f).refCount = 1 → ¬sys.IsEnd oRdonly f other) :
    (sys.dropRef f q).ReadOpen other := by
  rcases isOpen with ⟨file, positive, isEnd⟩
  refine ⟨file, ?_, isEnd_dropRef.mpr isEnd⟩
  rw [dropRef_file]
  split
  · rename_i same
    subst same
    have more : (sys.files file).refCount ≠ 1 := fun last => notLast last isEnd
    simp only
    omega
  · simpa using positive

theorem readOpen_fileDup (f : FileId) {other : PipeId} (isOpen : sys.ReadOpen other) :
    (sys.fileDup f).ReadOpen other := by
  rcases isOpen with ⟨file, positive, isEnd⟩
  refine ⟨file, ?_, isEnd_fileDup.mpr isEnd⟩
  rw [fileDup_file]
  split
  · simp only
    omega
  · simpa using positive

theorem noMissed_dropRef (noMissed : NoMissed sys) {f : FileId} (held : sys.Held f q)
    (writeEnd : (sys.files f).refCount = 1 → sys.IsEnd oWronly f q → ∀ p, ¬sys.SleepsReading p q)
    (readEnd : (sys.files f).refCount = 1 → sys.IsEnd oRdonly f q → ∀ p, ¬sys.SleepsWriting p q) :
    NoMissed (sys.dropRef f q) := by
  apply noMissed_quiet noMissed (quiet_dropRef sys f q)
  · intro p other sleeps
    exact writers_dropRef held writeEnd sleeps
  · intro p other sleeps isOpen
    apply readOpen_dropRef isOpen
    intro last isEnd
    have samePipe : q = other := by
      have ofPipe := isEnd.2.1
      rw [held.ofPipe] at ofPipe
      exact Option.some.inj ofPipe
    subst samePipe
    exact readEnd last isEnd p sleeps

theorem noMissed_fileDup (noMissed : NoMissed sys) (f : FileId) : NoMissed (sys.fileDup f) := by
  apply noMissed_quiet noMissed (quiet_fileDup sys f)
  · intro p other _
    rfl
  · intro p other _ isOpen
    exact readOpen_fileDup f isOpen

theorem noMissed_setOfile (noMissed : NoMissed sys) (p : ProcId) (fd : Fin nfile)
    (file : Option FileId) : NoMissed (sys.setOfile p fd file) :=
  noMissed_same noMissed (quiet_setOfile sys p fd file) rfl rfl

theorem noMissed_returns (noMissed : NoMissed sys) (p : ProcId) (value : ℤ) :
    NoMissed (sys.returns p value) :=
  noMissed_same noMissed (quiet_returns sys p value) rfl rfl

/-- The file of a descriptor that has only one reference. -/
theorem dropsLast_close {fd : ℤ} {slot : Fin nfile} {f : FileId}
    (found : sys.descriptor p fd = some (slot, f)) (last : (sys.files f).refCount = 1) :
    sys.DropsLast (.call p (.close fd)) f := by
  simp [DropsLast, drops, found, last]

theorem dropsLast_dup2 {oldFd newFd : ℤ} {slot slot' : Fin nfile} {f old : FileId}
    (found : sys.descriptor p oldFd = some (slot, f))
    (foundOld : sys.descriptor p newFd = some (slot', old))
    (last : (sys.files old).refCount = 1) : sys.DropsLast (.call p (.dup2 oldFd newFd)) old := by
  simp [DropsLast, drops, found, foundOld, last]

theorem noMissed_close (base : Base sys) (noMissed : NoMissed sys) (isLive : sys.live p = true)
    {fd value : ℤ} (heeded : Heeded sys (.call p (.close fd)))
    (called : sys.close p fd = some (sys', value)) : NoMissed sys' := by
  rcases close_cases base isLive called with rfl | ⟨slot, f, q, found, held, rfl⟩
  · exact noMissed
  · apply noMissed_setOfile
    apply noMissed_dropRef noMissed held
    · intro last isEnd
      exact heeded.writeEnd f q (dropsLast_close found last) isEnd
    · intro last isEnd
      exact heeded.readEnd f q (dropsLast_close found last) (by simp [Duplicates]) isEnd

theorem noMissed_dup (noMissed : NoMissed sys) (isLive : sys.live p = true) {fd value : ℤ}
    (called : sys.dup p fd = some (sys', value)) : NoMissed sys' := by
  rcases dup_cases isLive called with rfl | ⟨slot, newFd, f, _, _, rfl⟩
  · exact noMissed
  · apply noMissed_setOfile
    exact noMissed_fileDup noMissed f

theorem noMissed_dup2 (base : Base sys) (noMissed : NoMissed sys) (isLive : sys.live p = true)
    {oldFd newFd value : ℤ} (heeded : Heeded sys (.call p (.dup2 oldFd newFd)))
    (called : sys.dup2 p oldFd newFd = some (sys', value)) : NoMissed sys' := by
  rcases dup2_cases base isLive called with
    rfl | ⟨slot, slot', f, found, ⟨_, rfl⟩ | ⟨old, q, foundOld, held, rfl⟩⟩
  · exact noMissed
  · apply noMissed_setOfile
    exact noMissed_fileDup noMissed f
  · apply noMissed_setOfile
    apply noMissed_quiet noMissed ((quiet_dropRef sys old q).trans (quiet_fileDup _ f))
    · intro other pipe sleeps
      apply writers_dropRef held _ sleeps
      intro last isEnd
      exact heeded.writeEnd old q (dropsLast_dup2 found foundOld last) isEnd
    · intro other pipe sleeps isOpen
      by_cases same : f = old
      · -- The reference that was dropped is taken again.
        subst same
        rcases isOpen with ⟨file, positive, isEnd⟩
        refine ⟨file, ?_, isEnd_fileDup.mpr (isEnd_dropRef.mpr isEnd)⟩
        rw [fileDup_file, dropRef_file]
        simpa using positive
      · apply readOpen_fileDup
        apply readOpen_dropRef isOpen
        intro last isEnd
        apply heeded.readEnd old pipe (dropsLast_dup2 found foundOld last) _ isEnd other sleeps
        simp [Duplicates, found, same]

/-! ## Processes that come and go -/

theorem noMissed_forkFiles (noMissed : NoMissed sys) (p child : ProcId) (fds : List (Fin nfile)) :
    NoMissed (forkFiles p child fds sys) := by
  induction fds generalizing sys with
  | nil => exact noMissed
  | cons fd rest ih =>
      simp only [forkFiles]
      split
      · exact ih noMissed
      · rename_i f _
        apply ih
        apply noMissed_setOfile
        exact noMissed_fileDup noMissed f

theorem noMissed_fork (noMissed : NoMissed sys) (p : ProcId) : NoMissed (sys.fork p).1 := by
  rcases sys.fork_cases p with same | ⟨child, _, forked⟩
  · rw [same]
    exact noMissed
  · rw [forked]
    apply noMissed_forkFiles
    have allocated : Quiet sys (sys.setProc child fun _ =>
        ⟨.user, false, fun _ => none, (sys.procs p).uid, (sys.procs p).gid, 0⟩) :=
      quiet_setProc child rfl
    have kept := noMissed_same noMissed allocated rfl rfl
    exact ⟨kept.reading, kept.writing⟩

/-- What is left of the condition after some of the descriptors of `p` have been closed. -/
structure Closing (sys : Sys) (p : ProcId) (fds : List (Fin nfile)) : Prop where
  noMissed : NoMissed sys
  writeEnd : ∀ f q, 0 < (sys.files f).refCount →
    (sys.files f).refCount ≤ fds.countP (fun fd => (sys.procs p).ofile fd = some f) →
    sys.IsEnd oWronly f q → ∀ p, ¬sys.SleepsReading p q
  readEnd : ∀ f q, 0 < (sys.files f).refCount →
    (sys.files f).refCount ≤ fds.countP (fun fd => (sys.procs p).ofile fd = some f) →
    sys.IsEnd oRdonly f q → ∀ p, ¬sys.SleepsWriting p q

theorem closing_skips {fd : Fin nfile} {rest : List (Fin nfile)}
    (closing : Closing sys p (fd :: rest))
    (noFile : (sys.procs p).ofile fd = none) : Closing sys p rest := by
  have same : ∀ f, (fd :: rest).countP (fun fd => (sys.procs p).ofile fd = some f) =
      rest.countP (fun fd => (sys.procs p).ofile fd = some f) := by
    intro f
    rw [List.countP_cons_of_neg]
    simp [noFile]
  refine ⟨closing.noMissed, ?_, ?_⟩
  · intro f q positive atMost
    exact closing.writeEnd f q positive (by rwa [same])
  · intro f q positive atMost
    exact closing.readEnd f q positive (by rwa [same])

/-- A reference that is dropped counts as one descriptor less. -/
theorem refCount_of_dropRef {fd : Fin nfile} {rest : List (Fin nfile)} {f other : FileId}
    (isFile : (sys.procs p).ofile fd = some f)
    (positive : 0 < ((sys.dropRef f q).files other).refCount)
    (atMost : ((sys.dropRef f q).files other).refCount ≤
      rest.countP (fun fd => (sys.procs p).ofile fd = some other)) :
    0 < (sys.files other).refCount ∧ (sys.files other).refCount ≤
      (fd :: rest).countP (fun fd => (sys.procs p).ofile fd = some other) := by
  rw [dropRef_file] at positive atMost
  rcases eq_or_ne other f with rfl | different
  · rw [List.countP_cons_of_pos (by simp [isFile])]
    simp only [if_true] at positive atMost
    push_cast
    omega
  · rw [List.countP_cons_of_neg (by simp [isFile, different.symm])]
    simp only [different, if_false, Int.sub_zero] at positive atMost
    exact ⟨positive, atMost⟩

theorem closing_drops {fd : Fin nfile} {rest : List (Fin nfile)} {f : FileId}
    (closing : Closing sys p (fd :: rest)) (isFile : (sys.procs p).ofile fd = some f)
    (held : sys.Held f q) : Closing (sys.dropRef f q) p rest := by
  have once : 1 ≤ (fd :: rest).countP (fun fd => (sys.procs p).ofile fd = some f) := by
    rw [List.countP_cons_of_pos (by simp [isFile])]
    omega
  refine ⟨?_, ?_, ?_⟩
  · apply noMissed_dropRef closing.noMissed held
    · intro last isEnd
      exact closing.writeEnd f q held.positive (by omega) isEnd
    · intro last isEnd
      exact closing.readEnd f q held.positive (by omega) isEnd
  · intro other pipe positive atMost isEnd
    rcases refCount_of_dropRef isFile positive atMost with ⟨positive, atMost⟩
    exact closing.writeEnd other pipe positive atMost (isEnd_dropRef.mp isEnd)
  · intro other pipe positive atMost isEnd
    rcases refCount_of_dropRef isFile positive atMost with ⟨positive, atMost⟩
    exact closing.readEnd other pipe positive atMost (isEnd_dropRef.mp isEnd)

theorem noMissed_exit (base : Base sys) (noMissed : NoMissed sys) (isLive : sys.live p = true)
    (heeded : Heeded sys (.call p .exit)) (exited : sys.exit p = some sys') : NoMissed sys' := by
  have start : Closing sys p (List.finRange nfile) := by
    refine ⟨noMissed, ?_, ?_⟩
    · intro f q positive atMost isEnd
      exact heeded.writeEnd f q ⟨positive, atMost⟩ isEnd
    · intro f q positive atMost isEnd
      exact heeded.readEnd f q ⟨positive, atMost⟩ (by simp [Duplicates]) isEnd
  rcases exit_rule (motive := fun fds later => Closing later p fds) base isLive
    (fun fd rest later closing noFile => closing_skips closing noFile)
    (fun fd rest later f q closing isFile held => closing_drops closing isFile held)
    start exited with ⟨closed, closing, rfl⟩
  exact noMissed_same closing.noMissed (quiet_setProc p rfl) rfl rfl

/-! ## New pipes -/

theorem noMissed_pipeFails (base : Base sys) (noMissed : NoMissed sys)
    (fails : PipeFails sys sys') : NoMissed sys' := by
  refine ⟨?_, ?_⟩
  · intro p q sleeps
    have slept : sys.SleepsReading p q := by simpa only [SleepsReading, fails.procs] using sleeps
    rcases fails.pipes q with ⟨same, _⟩ | ⟨unused, _⟩
    · rw [same]
      exact noMissed.reading p q slept
    · have used := base.inside p q (Place.pipe_of_readsFrom slept.2)
      omega
  · intro p q sleeps
    have slept : sys.SleepsWriting p q := by simpa only [SleepsWriting, fails.procs] using sleeps
    rcases noMissed.writing p q slept with ⟨f, positive, isEnd⟩
    rcases fails.files f with same | ⟨free, _⟩
    · exact ⟨f, by rwa [same], by simpa only [IsEnd, same] using isEnd⟩
    · omega

theorem noMissed_pipeMade (base : Base sys) (noMissed : NoMissed sys) {ends : Ends}
    (made : PipeMade sys p ends sys') : NoMissed sys' := by
  have procs : ∀ other, (sys'.procs other).place = (sys.procs other).place ∧
      (sys'.procs other).asleep = (sys.procs other).asleep := by
    intro other
    rw [made.made]
    rcases eq_or_ne other p with rfl | different
    · simp [setOfile, setProc]
    · simp [setOfile, setProc, different]
  refine ⟨?_, ?_⟩
  · intro other q sleeps
    have slept : sys.SleepsReading other q := by
      simpa only [SleepsReading, (procs other).1, (procs other).2] using sleeps
    have used := base.inside other q (Place.pipe_of_readsFrom slept.2)
    have different : q ≠ ends.pipe := by
      rintro rfl
      rw [made.readers] at used
      omega
    rw [made.made]
    simpa [different] using noMissed.reading other q slept
  · intro other q sleeps
    have slept : sys.SleepsWriting other q := by
      simpa only [SleepsWriting, (procs other).1, (procs other).2] using sleeps
    rcases noMissed.writing other q slept with ⟨f, positive, isEnd⟩
    have notWrite : f ≠ ends.writeEnd := by
      rintro rfl
      rw [made.writeFree] at positive
      omega
    have notRead : f ≠ ends.readEnd := by
      rintro rfl
      rw [made.readFree] at positive
      omega
    rw [made.made]
    refine ⟨f, by simpa [notWrite, notRead] using positive, ?_⟩
    simpa [IsEnd, notWrite, notRead] using isEnd

/-! ## Reading and writing -/

/-- A process that sleeps after the wake-ups of a loop slept before, or is the caller. -/
theorem asleep_wakeup {other : ProcId} (asleep : ((sys.wakeup q).procs other).asleep = true) :
    (sys.procs other).asleep = true := by
  simp only [wakeup] at asleep
  split at asleep
  · cases asleep
  · exact asleep

theorem noMissed_turn (noMissed : NoMissed sys) (files : sys'.files = sys.files)
    (writers : ∀ q, (sys'.pipes q).writers = (sys.pipes q).writers)
    (others : ∀ other, other ≠ p → (sys'.procs other).place = (sys.procs other).place ∧
      ((sys'.procs other).asleep = true → (sys.procs other).asleep = true))
    (reading : ∀ q, sys'.SleepsReading p q → (sys.pipes q).writers ≠ 0)
    (writing : ∀ q, sys'.SleepsWriting p q → sys.ReadOpen q) : NoMissed sys' := by
  have ends : ∀ q, sys.ReadOpen q → sys'.ReadOpen q := by
    rintro q ⟨f, positive, isEnd⟩
    exact ⟨f, by rwa [files], by simpa only [IsEnd, files] using isEnd⟩
  refine ⟨?_, ?_⟩
  · intro other q sleeps
    rw [writers]
    rcases eq_or_ne other p with rfl | different
    · exact reading q sleeps
    · rcases others other different with ⟨place, asleep⟩
      exact noMissed.reading other q ⟨asleep sleeps.1, place ▸ sleeps.2⟩
  · intro other q sleeps
    apply ends
    rcases eq_or_ne other p with rfl | different
    · exact writing q sleeps
    · rcases others other different with ⟨place, asleep⟩
      exact noMissed.writing other q ⟨asleep sleeps.1, place ▸ sleeps.2⟩

theorem noMissed_pipeRead (noMissed : NoMissed sys) (p : ProcId) (q : PipeId) (left : ℕ)
    (got : List Byte) : NoMissed (sys.pipeRead p q left got) := by
  have writers : ∀ other, ((sys.pipeRead p q left got).pipes other).writers =
      (sys.pipes other).writers := by
    intro other
    rw [(sys.pipeRead_tables p q left got).1]
    rcases eq_or_ne other q with rfl | different
    · rw [Function.update_self, (readLoop_ends (sys.pipes other) got left).2]
    · rw [Function.update_of_ne different]
  simp only [pipeRead] at writers ⊢
  split
  · rename_i sleeps
    simp only [sleeps, if_true] at writers
    refine noMissed_turn (p := p) noMissed rfl writers ?_ ?_ ?_
    · intro other different
      simp [setProc, setPipe, different]
    · rintro pipe ⟨_, reads⟩
      simp only [setProc, Function.update_self, Place.readsFrom, Option.some.injEq] at reads
      subst reads
      exact (readLoop_sleeps sleeps).2.2.2
    · rintro pipe ⟨_, writes⟩
      simp [setProc, Place.writesTo] at writes
  · rename_i returned
    simp only [returned] at writers
    refine noMissed_turn (p := p) noMissed rfl writers ?_ ?_ ?_
    · intro other different
      refine ⟨by simp [returns, setProc, different, (wakeup_procs _ q other).1, setPipe], ?_⟩
      intro asleep
      simp only [returns, setProc, Function.update_of_ne different] at asleep
      exact asleep_wakeup asleep
    · rintro pipe ⟨asleep, _⟩
      simp [returns, setProc] at asleep
    · rintro pipe ⟨asleep, _⟩
      simp [returns, setProc] at asleep

/-- With room for all bytes `pipe_write` does not sleep. -/
theorem writeLoop_room {pipe : Pipe} {src : List Byte} (room : pipe.fill + src.length ≤ pipeBuf) :
    (writeLoop pipe src).sleeps = false := by
  induction src generalizing pipe with
  | nil => rfl
  | cons byte src ih =>
      rw [List.length_cons] at room
      have notFull : (pipe.writePos - pipe.readPos).toNat ≠ pipeBuf := by
        change pipe.fill ≠ pipeBuf
        omega
      simp only [writeLoop, if_neg notFull]
      apply ih
      have pushed : RingBuffer.used pipe.readPos (pipe.writePos + 1) = pipe.fill + 1 := by
        apply RingBuffer.used_push
        simp only [Pipe.fill, pipeBuf] at room
        omega
      simp only [Pipe.fill] at pushed room ⊢
      omega

theorem noMissed_pipeWrite (noMissed : NoMissed sys) (p : ProcId) (q : PipeId) (nbytes : ℕ)
    (src : List Byte) (room : ¬sys.ReadOpen q → (sys.pipes q).fill + src.length ≤ pipeBuf) :
    NoMissed (sys.pipeWrite p q nbytes src) := by
  have writers : ∀ other, ((sys.pipeWrite p q nbytes src).pipes other).writers =
      (sys.pipes other).writers := by
    intro other
    rw [(sys.pipeWrite_tables p q nbytes src).1]
    rcases eq_or_ne other q with rfl | different
    · rw [Function.update_self, (writeLoop_ends (sys.pipes other) src).2]
    · rw [Function.update_of_ne different]
  simp only [pipeWrite] at writers ⊢
  split
  · rename_i sleeps
    simp only [sleeps, if_true] at writers
    refine noMissed_turn (p := p) noMissed rfl writers ?_ ?_ ?_
    · intro other different
      refine ⟨by simp [setProc, setPipe, different, (wakeup_procs _ q other).1], ?_⟩
      intro asleep
      simp only [setProc, Function.update_of_ne different] at asleep
      exact asleep_wakeup asleep
    · rintro pipe ⟨_, reads⟩
      simp [setProc, Place.readsFrom] at reads
    · rintro pipe ⟨_, writes⟩
      simp only [setProc, Function.update_self, Place.writesTo, Option.some.injEq] at writes
      subst writes
      by_contra notOpen
      rw [writeLoop_room (room notOpen)] at sleeps
      cases sleeps
  · rename_i returned
    simp only [returned] at writers
    refine noMissed_turn (p := p) noMissed rfl writers ?_ ?_ ?_
    · intro other different
      refine ⟨by simp [returns, setProc, different, (wakeup_procs _ q other).1, setPipe], ?_⟩
      intro asleep
      simp only [returns, setProc, Function.update_of_ne different] at asleep
      exact asleep_wakeup asleep
    · rintro pipe ⟨asleep, _⟩
      simp [returns, setProc] at asleep
    · rintro pipe ⟨asleep, _⟩
      simp [returns, setProc] at asleep

/-! ## All runs -/

theorem noMissed_sysent (base : Base sys) (noMissed : NoMissed sys) (isLive : sys.live p = true)
    {call : Call} (heeded : Heeded sys (.call p call)) (called : sys.sysent p call = some sys') :
    NoMissed sys' := by
  cases call with
  | pipe =>
      rcases finish_cases called with ⟨middle, value, result, rfl⟩
      apply noMissed_returns
      rcases sysPipe_cases result with fails | ⟨ends, makes⟩
      · exact noMissed_pipeFails base noMissed fails
      · exact noMissed_pipeMade base noMissed makes
  | read fd nbytes =>
      simp only [sysent] at called
      split at called
      · cases called
        exact noMissed_returns noMissed p _
      · rw [Option.map_eq_some_iff] at called
        rcases called with ⟨q, _, rfl⟩
        exact noMissed_pipeRead noMissed p q nbytes []
  | write fd src =>
      simp only [sysent] at called
      split at called
      · cases called
        exact noMissed_returns noMissed p _
      · rename_i slot f found
        rw [Option.map_eq_some_iff] at called
        rcases called with ⟨q, isPipe, rfl⟩
        apply noMissed_pipeWrite noMissed
        exact heeded.room (p, q, src.length, src) (by simp [writes, found, isPipe])
  | close fd =>
      rcases finish_cases called with ⟨middle, value, result, rfl⟩
      apply noMissed_returns
      exact noMissed_close base noMissed isLive heeded result
  | dup fd =>
      rcases finish_cases called with ⟨middle, value, result, rfl⟩
      apply noMissed_returns
      exact noMissed_dup noMissed isLive result
  | dup2 oldFd newFd =>
      rcases finish_cases called with ⟨middle, value, result, rfl⟩
      apply noMissed_returns
      exact noMissed_dup2 base noMissed isLive heeded result
  | fork =>
      rcases finish_cases called with ⟨middle, value, result, rfl⟩
      have isMiddle : (sys.fork p).1 = middle := by rw [Option.some.inj result]
      apply noMissed_returns
      rw [← isMiddle]
      exact noMissed_fork noMissed p
  | exit => exact noMissed_exit base noMissed isLive heeded called

theorem noMissed_step (base : Base sys) (noMissed : NoMissed sys) {act : Act}
    (heeded : Heeded sys act) (stepped : sys.step act = some sys') : NoMissed sys' := by
  cases act with
  | call p call =>
      simp only [step] at stepped
      split at stepped
      · rename_i isUser
        exact noMissed_sysent base noMissed (by simp [live, isUser]) heeded stepped
      · cases stepped
  | resume p =>
      simp only [step] at stepped
      split at stepped
      · rename_i q left got isReading
        cases stepped
        exact noMissed_pipeRead noMissed p q left got
      · rename_i q nbytes src isWriting
        cases stepped
        apply noMissed_pipeWrite noMissed
        exact heeded.room (p, q, nbytes, src) (by simp [writes, isWriting])
      · cases stepped
  | reap p =>
      simp only [step] at stepped
      split at stepped
      · cases stepped
        exact noMissed_same noMissed (quiet_setProc p rfl) rfl rfl
      · cases stepped

theorem noMissed_boot : NoMissed boot := by
  refine ⟨?_, ?_⟩
  · rintro p q ⟨asleep, _⟩
    cases asleep
  · rintro p q ⟨asleep, _⟩
    cases asleep

/--
If no last close of an end leaves a process asleep and no `pipe_write` without a reader
fills the pipe, then no process ever sleeps on a pipe for nobody.
-/
theorem no_missed_wakeup (reach : Reach step Heeded boot sys) :
    (∀ p q, sys.SleepsReading p q → (sys.pipes q).writers ≠ 0) ∧
    ∀ p q, sys.SleepsWriting p q → sys.ReadOpen q := by
  have invariant : Base sys ∧ NoMissed sys := by
    apply reach.invariant
    · exact ⟨base_boot, noMissed_boot⟩
    · intro sys sys' act inv heeded stepped
      exact ⟨base_step inv.1 stepped, noMissed_step inv.1 inv.2 heeded stepped⟩
  exact ⟨invariant.2.reading, invariant.2.writing⟩

instance (sys : Sys) (act : Act) : Decidable (Heeded sys act) :=
  decidable_of_iff
    ((∀ f q, sys.DropsLast act f → sys.IsEnd oWronly f q → ∀ p, ¬sys.SleepsReading p q) ∧
      (∀ f q, sys.DropsLast act f → ¬sys.Duplicates act f → sys.IsEnd oRdonly f q →
        ∀ p, ¬sys.SleepsWriting p q) ∧
      ∀ write ∈ sys.writes act, ¬sys.ReadOpen write.2.1 →
        (sys.pipes write.2.1).fill + write.2.2.2.length ≤ pipeBuf)
    ⟨fun ⟨writeEnd, readEnd, room⟩ => ⟨writeEnd, readEnd, room⟩,
      fun heeded => ⟨heeded.writeEnd, heeded.readEnd, heeded.room⟩⟩

/-- A child that sleeps on a pipe has a writer, its parent. -/
theorem no_missed_wakeup_child : ∃ sys, Reach step Heeded boot sys ∧ sys.SleepsReading 1 0 ∧
    (sys.pipes 0).writers ≠ 0 := by
  have observed : (runChecked step (fun sys act => decide (Heeded sys act)) boot
      [.call 0 .pipe, .call 0 .fork, .call 1 (.close 1), .call 1 (.read 0 1)]).any
      (fun sys => decide (sys.SleepsReading 1 0)) = true := by decide
  have sound : ∀ sys act, decide (Heeded sys act) = true → Heeded sys act :=
    fun _ _ => of_decide_eq_true
  rcases reach_of_observedChecked sound observed with ⟨sys, reach, checked⟩
  rw [decide_eq_true_eq] at checked
  exact ⟨sys, reach, checked, (no_missed_wakeup reach).1 1 0 checked⟩

/-- The parent closes the last write end while its child sleeps in `pipe_read`. -/
theorem missed_wakeup : ∃ sys, Reach step Always boot sys ∧ sys.SleepsReading 1 0 ∧
    (sys.pipes 0).writers = 0 := by
  have observed : (run step boot [.call 0 .pipe, .call 0 .fork, .call 1 (.close 1),
      .call 1 (.read 0 1), .call 0 (.close 1)]).any
      (fun sys => decide (sys.SleepsReading 1 0 ∧ (sys.pipes 0).writers = 0)) = true := by
    decide
  rcases reach_of_observed observed with ⟨sys, reach, checked⟩
  rw [decide_eq_true_eq] at checked
  exact ⟨sys, reach, checked⟩

end

end Sys

end Osix.Pipes
