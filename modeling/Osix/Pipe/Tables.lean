import Osix.Pipe.Files

/-!
# The tables in every run

The reference count of a file is the number of descriptors of live processes that point
to it, and every such file is an end of a pipe that has a reader counted. A pipe that has
once been handed to a process keeps its reader: it is never cleared while a process is in
the middle of reading or writing it, and it is not handed out again.
-/

namespace Osix.Pipes.Sys

open Counting

/-- The tables, with `table` for the descriptors that have not been closed. -/
structure BaseOn (table : ProcId × Fin nfile → Option FileId) (sys : Sys) : Prop where
  counted : ∀ f, (sys.files f).refCount = count table f
  opened : ∀ slot f, table slot = some f → sys.Opened f
  flags : ∀ slot f, table slot = some f → sys.EndFlags f
  inside : ∀ p q, (sys.procs p).place.pipe = some q → 0 < (sys.pipes q).readers
  readers : ∀ q, 0 ≤ (sys.pipes q).readers
  empty : ∀ q, (sys.pipes q).readers = 0 → (sys.pipes q).readPos = (sys.pipes q).writePos

/-- What holds of the tables in every run. -/
def Base (sys : Sys) : Prop := BaseOn sys.slots sys

section

variable {sys sys' : Sys} {p : ProcId}

theorem BaseOn.of_same {table : ProcId × Fin nfile → Option FileId} (base : BaseOn table sys)
    (files : sys'.files = sys.files)
    (inside : ∀ p q, (sys'.procs p).place.pipe = some q → 0 < (sys.pipes q).readers)
    (readers : ∀ q, (sys'.pipes q).readers = (sys.pipes q).readers)
    (empty : ∀ q, (sys.pipes q).readers = 0 → sys'.pipes q = sys.pipes q) :
    BaseOn table sys' where
  counted f := by
    rw [files]
    exact base.counted f
  opened slot f stored := by
    rcases base.opened slot f stored with ⟨q, isPipe, ofPipe, used⟩
    exact ⟨q, by rw [files, isPipe], by rw [files, ofPipe], by rwa [readers]⟩
  flags slot f stored := by
    rw [EndFlags, files]
    exact base.flags slot f stored
  inside p q place := by
    rw [readers]
    exact inside p q place
  readers q := by
    rw [readers]
    exact base.readers q
  empty q none := by
    rw [readers] at none
    rw [empty q none]
    exact base.empty q none

theorem live_returns (isLive : sys.live p = true) (value : ℤ) (other : ProcId) :
    (sys.returns p value).live other = sys.live other := by
  rcases eq_or_ne other p with rfl | different
  · rw [isLive]
    simp [live, returns, setProc]
  · simp [live, returns, setProc, different]

theorem ofile_returns (sys : Sys) (p : ProcId) (value : ℤ) (other : ProcId) :
    ((sys.returns p value).procs other).ofile = (sys.procs other).ofile := by
  rcases eq_or_ne other p with rfl | different
  · simp [returns, setProc]
  · simp [returns, setProc, different]

theorem pipe_returns {value : ℤ} {other : ProcId} {q : PipeId}
    (place : ((sys.returns p value).procs other).place.pipe = some q) :
    (sys.procs other).place.pipe = some q := by
  rcases eq_or_ne other p with rfl | different
  · simp [returns, setProc, Place.pipe] at place
  · simpa [returns, setProc, different] using place

theorem slots_returns (isLive : sys.live p = true) (value : ℤ) :
    (sys.returns p value).slots = sys.slots :=
  slots_congr (live_returns isLive value) (ofile_returns sys p value)

theorem base_returns (base : Base sys) (isLive : sys.live p = true) (value : ℤ) :
    Base (sys.returns p value) := by
  rw [Base, slots_returns isLive value]
  exact base.of_same rfl (fun other q place => base.inside other q (pipe_returns place))
    (fun _ => rfl) (fun _ _ => rfl)

theorem wakeup_procs (sys : Sys) (q : PipeId) (other : ProcId) :
    ((sys.wakeup q).procs other).place = (sys.procs other).place ∧
      ((sys.wakeup q).procs other).ofile = (sys.procs other).ofile := by
  simp only [wakeup]
  split
  · exact ⟨rfl, rfl⟩
  · exact ⟨rfl, rfl⟩

theorem readLoop_ends (pipe : Pipe) (got : List Byte) (left : ℕ) :
    (readLoop pipe got left).pipe.readers = pipe.readers ∧
      (readLoop pipe got left).pipe.writers = pipe.writers := by
  induction left generalizing pipe got with
  | zero => exact ⟨rfl, rfl⟩
  | succ left ih =>
      simp only [readLoop]
      split
      · exact ⟨rfl, rfl⟩
      · exact ih _ _

theorem writeLoop_ends (pipe : Pipe) (src : List Byte) :
    (writeLoop pipe src).pipe.readers = pipe.readers ∧
      (writeLoop pipe src).pipe.writers = pipe.writers := by
  induction src generalizing pipe with
  | nil => exact ⟨rfl, rfl⟩
  | cons byte src ih =>
      simp only [writeLoop]
      split
      · exact ⟨rfl, rfl⟩
      · exact ih _

/-- A process that is in the kernel, with a pipe replaced by one with the same ends. -/
theorem base_turn (base : Base sys) (isLive : sys.live p = true) {q : PipeId} {pipe : Pipe}
    (used : 0 < (sys.pipes q).readers) (readers : pipe.readers = (sys.pipes q).readers)
    (files : sys'.files = sys.files) (pipes : sys'.pipes = Function.update sys.pipes q pipe)
    (others : ∀ other, other ≠ p → (sys'.procs other).place = (sys.procs other).place)
    (stays : sys'.live p = true)
    (place : ∀ other, (sys'.procs p).place.pipe = some other → other = q)
    (ofile : ∀ other, (sys'.procs other).ofile = (sys.procs other).ofile) : Base sys' := by
  have sameReaders : ∀ other, (sys'.pipes other).readers = (sys.pipes other).readers := by
    intro other
    rw [pipes]
    rcases eq_or_ne other q with rfl | different
    · simp [readers]
    · simp [different]
  have sameSlots : sys'.slots = sys.slots := by
    apply slots_congr _ ofile
    intro other
    rcases eq_or_ne other p with rfl | different
    · rw [stays, isLive]
    · simp [live, others other different]
  rw [Base, sameSlots]
  apply base.of_same files _ sameReaders
  · intro other none
    rw [pipes]
    have different : other ≠ q := by
      rintro rfl
      omega
    simp [different]
  · intro other inPipe isPlace
    rcases eq_or_ne other p with rfl | different
    · rw [place inPipe isPlace]
      exact used
    · rw [others other different] at isPlace
      exact base.inside other inPipe isPlace

theorem base_pipeRead (base : Base sys) (isLive : sys.live p = true) {q : PipeId}
    (used : 0 < (sys.pipes q).readers) (left : ℕ) (got : List Byte) :
    Base (sys.pipeRead p q left got) := by
  have ends := readLoop_ends (sys.pipes q) got left
  simp only [pipeRead]
  split
  · refine base_turn base isLive used ends.1 rfl rfl ?_ ?_ ?_ ?_
    · intro other different
      simp [setProc, setPipe, different]
    · simp [live, setProc]
    · intro other isPlace
      simpa [setProc, Place.pipe, eq_comm] using isPlace
    · intro other
      rcases eq_or_ne other p with rfl | different
      · simp [setProc, setPipe]
      · simp [setProc, setPipe, different]
  · refine base_turn base isLive used ends.1 rfl rfl ?_ ?_ ?_ ?_
    · intro other different
      simp [returns, setProc, different, (wakeup_procs _ q other).1, setPipe]
    · simp [live, returns, setProc]
    · intro other isPlace
      simp [returns, setProc, Place.pipe] at isPlace
    · intro other
      simp [ofile_returns, (wakeup_procs _ q other).2, setPipe]

theorem base_pipeWrite (base : Base sys) (isLive : sys.live p = true) {q : PipeId}
    (used : 0 < (sys.pipes q).readers) (nbytes : ℕ) (src : List Byte) :
    Base (sys.pipeWrite p q nbytes src) := by
  have ends := writeLoop_ends (sys.pipes q) src
  simp only [pipeWrite]
  split
  · refine base_turn base isLive used ends.1 rfl rfl ?_ ?_ ?_ ?_
    · intro other different
      simp [setProc, different, (wakeup_procs _ q other).1, setPipe]
    · simp [live, setProc]
    · intro other isPlace
      simpa [setProc, Place.pipe, eq_comm] using isPlace
    · intro other
      rcases eq_or_ne other p with rfl | different
      · simp [setProc, (wakeup_procs _ q other).2, setPipe]
      · simp [setProc, different, (wakeup_procs _ q other).2, setPipe]
  · refine base_turn base isLive used ends.1 rfl rfl ?_ ?_ ?_ ?_
    · intro other different
      simp [returns, setProc, different, (wakeup_procs _ q other).1, setPipe]
    · simp [live, returns, setProc]
    · intro other isPlace
      simp [returns, setProc, Place.pipe] at isPlace
    · intro other
      simp [ofile_returns, (wakeup_procs _ q other).2, setPipe]

/-! ## Closing and sharing descriptors -/

variable {table : ProcId × Fin nfile → Option FileId}

theorem baseOn_dropRef (base : BaseOn table sys) {slot : ProcId × Fin nfile} {f : FileId}
    {q : PipeId} (stored : table slot = some f) :
    BaseOn (Function.update table slot none) (sys.dropRef f q) where
  counted other := by
    rw [count_update, stored, share_none]
    rcases eq_or_ne other f with rfl | different
    · simp [dropRef, setFile, setPipe, base.counted]
    · simp [dropRef, setFile, setPipe, different, base.counted, share_of_ne different.symm]
  opened other file storedFile := by
    rcases eq_or_ne other slot with rfl | different
    · simp at storedFile
    · rw [Function.update_of_ne different] at storedFile
      rcases base.opened other file storedFile with ⟨pipe, isPipe, ofPipe, used⟩
      refine ⟨pipe, ?_, ?_, ?_⟩
      · rcases eq_or_ne file f with rfl | otherFile
        · simpa [dropRef, setFile, setPipe] using isPipe
        · simpa [dropRef, setFile, setPipe, otherFile] using isPipe
      · rcases eq_or_ne file f with rfl | otherFile
        · simpa [dropRef, setFile, setPipe] using ofPipe
        · simpa [dropRef, setFile, setPipe, otherFile] using ofPipe
      · rw [(sys.dropRef_pipes f q pipe).1]
        exact used
  flags other file storedFile := by
    rw [EndFlags, dropRef_file]
    rcases eq_or_ne other slot with rfl | different
    · simp at storedFile
    · rw [Function.update_of_ne different] at storedFile
      exact base.flags other file storedFile
  inside other pipe place := by
    rw [(sys.dropRef_pipes f q pipe).1]
    exact base.inside other pipe place
  readers pipe := by
    rw [(sys.dropRef_pipes f q pipe).1]
    exact base.readers pipe
  empty pipe none := by
    rcases sys.dropRef_pipes f q pipe with ⟨readers, readPos, writePos, _⟩
    rw [readers] at none
    rw [readPos, writePos]
    exact base.empty pipe none

theorem opened_dropRef {f file : FileId} {q : PipeId} (opened : sys.Opened file) :
    (sys.dropRef f q).Opened file := by
  rcases opened with ⟨pipe, isPipe, ofPipe, used⟩
  refine ⟨pipe, ?_, ?_, by rw [(sys.dropRef_pipes f q pipe).1]; exact used⟩
  · rcases eq_or_ne file f with rfl | different
    · simpa [dropRef, setFile, setPipe] using isPipe
    · simpa [dropRef, setFile, setPipe, different] using isPipe
  · rcases eq_or_ne file f with rfl | different
    · simpa [dropRef, setFile, setPipe] using ofPipe
    · simpa [dropRef, setFile, setPipe, different] using ofPipe

theorem opened_fileDup {f file : FileId} : (sys.fileDup f).Opened file ↔ sys.Opened file := by
  rcases eq_or_ne file f with rfl | different
  · simp [Opened, fileDup, setFile]
  · simp [Opened, fileDup, setFile, different]

theorem baseOn_fileDup (base : BaseOn table sys) {slot : ProcId × Fin nfile} {f : FileId}
    (free : table slot = none) (opened : sys.Opened f) (flags : sys.EndFlags f) :
    BaseOn (Function.update table slot (some f)) (sys.fileDup f) where
  counted other := by
    rw [count_update, free, share_none]
    rcases eq_or_ne other f with rfl | different
    · simp [fileDup, setFile, base.counted]
    · simp [fileDup, setFile, different, base.counted, share_of_ne different.symm]
  opened other file stored := by
    rw [opened_fileDup]
    rcases eq_or_ne other slot with rfl | different
    · simp only [Function.update_self, Option.some.injEq] at stored
      rwa [← stored]
    · rw [Function.update_of_ne different] at stored
      exact base.opened other file stored
  flags other file stored := by
    rw [EndFlags, fileDup_file]
    rcases eq_or_ne other slot with rfl | different
    · simp only [Function.update_self, Option.some.injEq] at stored
      subst stored
      exact flags
    · rw [Function.update_of_ne different] at stored
      exact base.flags other file stored
  inside := base.inside
  readers := base.readers
  empty := base.empty

/-- A change of descriptors changes nothing but the table of descriptors. -/
theorem baseOn_setOfile (base : BaseOn table sys) (p : ProcId) (fd : Fin nfile)
    (file : Option FileId) : BaseOn table (sys.setOfile p fd file) := by
  refine base.of_same rfl ?_ (fun _ => rfl) (fun _ _ => rfl)
  intro other q place
  rcases eq_or_ne other p with rfl | different
  · exact base.inside other q (by simpa [setOfile, setProc] using place)
  · exact base.inside other q (by simpa [setOfile, setProc, different] using place)

/-- The file is an open end of the pipe. -/
structure Held (sys : Sys) (f : FileId) (q : PipeId) : Prop where
  positive : 0 < (sys.files f).refCount
  isPipe : (sys.files f).type = .pipe
  ofPipe : (sys.files f).pipe = some q
  flags : sys.EndFlags f

/-- A file behind a descriptor is an open end of a pipe, and `file_close` drops a reference. -/
theorem held_of_stored (base : BaseOn table sys) {slot : ProcId × Fin nfile} {f : FileId}
    (stored : table slot = some f) :
    ∃ q, sys.Held f q ∧ sys.fileClose f = some (sys.dropRef f q) := by
  rcases base.opened slot f stored with ⟨q, isPipe, ofPipe, used⟩
  refine ⟨q, ⟨?_, isPipe, ofPipe, base.flags slot f stored⟩, fileClose_eq isPipe ofPipe used⟩
  rw [base.counted f]
  exact count_pos stored

/-- A `close` refuses the descriptor or drops one reference of an end of a pipe. -/
theorem close_cases (base : Base sys) (isLive : sys.live p = true) {fd value : ℤ}
    (called : sys.close p fd = some (sys', value)) :
    sys' = sys ∨
    ∃ slot f q, sys.descriptor p fd = some (slot, f) ∧ sys.Held f q ∧
      sys' = (sys.dropRef f q).setOfile p slot none := by
  simp only [close] at called
  split at called
  · cases called
    exact Or.inl rfl
  · rename_i slot f found
    rcases held_of_stored base (descriptor_slot isLive found).1 with ⟨q, held, closes⟩
    rw [closes] at called
    cases called
    exact Or.inr ⟨slot, f, q, found, held, rfl⟩

/-- A `dup` refuses or takes another reference of a file. -/
theorem dup_cases (isLive : sys.live p = true) {fd value : ℤ}
    (called : sys.dup p fd = some (sys', value)) :
    sys' = sys ∨
    ∃ slot newFd f, sys.slots (p, slot) = some f ∧ sys.slots (p, newFd) = none ∧
      sys' = (sys.fileDup f).setOfile p newFd (some f) := by
  simp only [dup] at called
  split at called
  · simp only [outside] at called
    split at called
    · cases called
      exact Or.inl rfl
    · cases called
  · split at called
    · cases called
      exact Or.inl rfl
    · rename_i slot f found
      split at called
      · cases called
        exact Or.inl rfl
      · rename_i newFd foundNew
        cases called
        refine Or.inr ⟨slot, newFd, f, (descriptor_slot isLive found).1, ?_, rfl⟩
        simp [slots, fileFdAlloc_some foundNew]

/-- A `dup2` refuses, or takes another reference of a file, or drops one reference first. -/
theorem dup2_cases (base : Base sys) (isLive : sys.live p = true) {oldFd newFd value : ℤ}
    (called : sys.dup2 p oldFd newFd = some (sys', value)) :
    sys' = sys ∨
    ∃ slot slot' f, sys.descriptor p oldFd = some (slot, f) ∧
      (sys.slots (p, slot') = none ∧ sys' = (sys.fileDup f).setOfile p slot' (some f) ∨
      ∃ old q, sys.descriptor p newFd = some (slot', old) ∧ sys.Held old q ∧
        sys' = ((sys.dropRef old q).fileDup f).setOfile p slot' (some f)) := by
  simp only [dup2] at called
  split at called
  · simp only [outside] at called
    split at called
    · cases called
      exact Or.inl rfl
    · cases called
  · split at called
    · cases called
      exact Or.inl rfl
    · rename_i slot f found
      split at called
      · cases called
        exact Or.inl rfl
      · rename_i possible
        push Not at possible
        split at called
        · rename_i inRange
          right
          refine ⟨slot, ⟨newFd.toNat, inRange⟩, f, found, ?_⟩
          split at called
          · rename_i noOld
            cases called
            exact Or.inl ⟨by simp [slots, noOld], rfl⟩
          · rename_i old isOld
            have foundOld : sys.descriptor p newFd = some (⟨newFd.toNat, inRange⟩, old) := by
              simp [descriptor, inRange, possible.1, isOld]
            rcases held_of_stored base (descriptor_slot isLive foundOld).1 with ⟨q, held, closes⟩
            rw [closes] at called
            cases called
            exact Or.inr ⟨old, q, foundOld, held, rfl⟩
        · cases called

theorem base_close (base : Base sys) (isLive : sys.live p = true) {fd value : ℤ}
    (called : sys.close p fd = some (sys', value)) : Base sys' ∧ sys'.live p = true := by
  rcases close_cases base isLive called with rfl | ⟨slot, f, q, found, _, rfl⟩
  · exact ⟨base, isLive⟩
  · have stored := (descriptor_slot isLive found).1
    have stillLive : (sys.dropRef f q).live p = true := isLive
    refine ⟨?_, by rwa [live_setOfile]⟩
    rw [Base, slots_setOfile stillLive]
    exact baseOn_setOfile (baseOn_dropRef base stored) p slot none

theorem base_dup (base : Base sys) (isLive : sys.live p = true) {fd value : ℤ}
    (called : sys.dup p fd = some (sys', value)) : Base sys' ∧ sys'.live p = true := by
  rcases dup_cases isLive called with rfl | ⟨slot, newFd, f, stored, free, rfl⟩
  · exact ⟨base, isLive⟩
  · have stillLive : (sys.fileDup f).live p = true := isLive
    have duplicated := baseOn_fileDup base free (base.opened _ _ stored) (base.flags _ _ stored)
    refine ⟨?_, by rwa [live_setOfile]⟩
    rw [Base, slots_setOfile stillLive]
    exact baseOn_setOfile duplicated p newFd (some f)

theorem base_dup2 (base : Base sys) (isLive : sys.live p = true) {oldFd newFd value : ℤ}
    (called : sys.dup2 p oldFd newFd = some (sys', value)) : Base sys' ∧ sys'.live p = true := by
  rcases dup2_cases base isLive called with
    rfl | ⟨slot, slot', f, found, ⟨free, rfl⟩ | ⟨old, q, foundOld, _, rfl⟩⟩
  · exact ⟨base, isLive⟩
  · have stored := (descriptor_slot isLive found).1
    have stillLive : (sys.fileDup f).live p = true := isLive
    have duplicated := baseOn_fileDup base free (base.opened _ _ stored) (base.flags _ _ stored)
    refine ⟨?_, by rwa [live_setOfile]⟩
    rw [Base, slots_setOfile stillLive]
    exact baseOn_setOfile duplicated p slot' (some f)
  · have stored := (descriptor_slot isLive found).1
    have stillLive : ((sys.dropRef old q).fileDup f).live p = true := isLive
    have dropped := baseOn_dropRef (q := q) base (descriptor_slot isLive foundOld).1
    have flags : (sys.dropRef old q).EndFlags f := by
      rw [EndFlags, dropRef_file]
      exact base.flags _ _ stored
    have duplicated := baseOn_fileDup dropped (Function.update_self _ _ _)
      (opened_dropRef (base.opened _ _ stored)) flags
    rw [Function.update_idem] at duplicated
    refine ⟨?_, by rwa [live_setOfile]⟩
    rw [Base, slots_setOfile stillLive]
    exact baseOn_setOfile duplicated p slot' (some f)

/-! ## Processes that come and go -/

theorem forkFiles_procs (p child : ProcId) (fds : List (Fin nfile)) (sys : Sys) (other : ProcId) :
    ((forkFiles p child fds sys).procs other).place = (sys.procs other).place ∧
      (other ≠ child → (forkFiles p child fds sys).procs other = sys.procs other) := by
  induction fds generalizing sys with
  | nil => exact ⟨rfl, fun _ => rfl⟩
  | cons fd rest ih =>
      simp only [forkFiles]
      split
      · exact ih sys
      · rename_i f _
        have later := ih ((sys.fileDup f).setOfile child fd (some f))
        rcases eq_or_ne other child with rfl | different
        · refine ⟨?_, fun notSame => absurd rfl notSame⟩
          rw [later.1]
          simp [setOfile, setProc, fileDup, setFile]
        · refine ⟨?_, fun _ => ?_⟩
          · rw [later.1]
            simp [setOfile, setProc, fileDup, setFile, different]
          · rw [later.2 different]
            simp [setOfile, setProc, fileDup, setFile, different]

theorem base_forkFiles {child : ProcId} (fds : List (Fin nfile))
    (nodup : fds.Nodup) (base : Base sys) (isLive : sys.live p = true)
    (childLive : sys.live child = true)
    (unset : ∀ fd ∈ fds, (sys.procs child).ofile fd = none) :
    Base (forkFiles p child fds sys) := by
  induction fds generalizing sys with
  | nil => exact base
  | cons fd rest ih =>
      rw [List.nodup_cons] at nodup
      simp only [forkFiles]
      split
      · exact ih nodup.2 base isLive childLive fun other member =>
          unset other (List.mem_cons_of_mem _ member)
      · rename_i f isFile
        have stored : sys.slots (p, fd) = some f := by simp [slots, isLive, isFile]
        have free : sys.slots (child, fd) = none := by
          simp [slots, unset fd List.mem_cons_self]
        have duplicated := baseOn_fileDup base free (base.opened _ _ stored) (base.flags _ _ stored)
        have stillLive : (sys.fileDup f).live child = true := childLive
        apply ih nodup.2
        · rw [Base, slots_setOfile stillLive]
          exact baseOn_setOfile duplicated child fd (some f)
        · rwa [live_setOfile]
        · rwa [live_setOfile]
        · intro other member
          have otherFd : other ≠ fd := by
            rintro rfl
            exact nodup.1 member
          simp only [setOfile, setProc, Function.update_self, Function.update_of_ne otherFd]
          exact unset other (List.mem_cons_of_mem _ member)

/-- `fork` finds no entry or no pid, or makes a child that shares all files. -/
theorem fork_cases (sys : Sys) (p : ProcId) :
    (sys.fork p).1 = sys ∨
    ∃ child, (sys.procs child).place = .free ∧
      (sys.fork p).1 = forkFiles p child (List.finRange nfile)
        { sys.setProc child fun _ =>
            ⟨.user, false, fun _ => none, (sys.procs p).uid, (sys.procs p).gid, 0⟩ with
          nextpid := sys.nextpid + 1 } := by
  simp only [fork]
  split
  · exact Or.inl rfl
  · rename_i child found
    have free : (sys.procs child).place = .free := by simpa using List.find?_some found
    split
    · exact Or.inl rfl
    · exact Or.inr ⟨child, free, rfl⟩

theorem base_fork (base : Base sys) (isLive : sys.live p = true) :
    Base (sys.fork p).1 ∧ (sys.fork p).1.live p = true := by
  rcases sys.fork_cases p with same | ⟨child, free, forked⟩
  · rw [same]
    exact ⟨base, isLive⟩
  · have different : p ≠ child := by
      rintro rfl
      simp [live, free] at isLive
    rw [forked]
    refine ⟨?_, ?_⟩
    · apply base_forkFiles _ (List.nodup_finRange nfile)
      · have sameSlots : ({ sys.setProc child fun _ =>
            ⟨.user, false, fun _ => none, (sys.procs p).uid, (sys.procs p).gid, 0⟩ with
            nextpid := sys.nextpid + 1 } : Sys).slots = sys.slots := by
          funext slot
          rcases slot with ⟨other, fd⟩
          rcases eq_or_ne other child with rfl | otherDifferent
          · simp [slots, live, setProc, free]
          · exact slot_congr (by simp [setProc, otherDifferent]) fd
        rw [Base, sameSlots]
        refine base.of_same rfl ?_ (fun _ => rfl) (fun _ _ => rfl)
        intro other q place
        rcases eq_or_ne other child with rfl | otherDifferent
        · simp [setProc, Place.pipe] at place
        · exact base.inside other q (by simpa [setProc, otherDifferent] using place)
      · simpa [live, setProc, different] using isLive
      · simp [live, setProc]
      · intro fd _
        simp [setProc]
    · have kept := (forkFiles_procs p child (List.finRange nfile)
        { sys.setProc child fun _ =>
            ⟨.user, false, fun _ => none, (sys.procs p).uid, (sys.procs p).gid, 0⟩ with
          nextpid := sys.nextpid + 1 } p).2 different
      rw [live, kept]
      simpa [live, setProc, different] using isLive

/-- The descriptors of all processes but those of `p` in `fds`. -/
def except (table : ProcId × Fin nfile → Option FileId) (p : ProcId) (fds : List (Fin nfile))
    (slot : ProcId × Fin nfile) : Option FileId :=
  if slot.1 = p ∧ slot.2 ∈ fds then none else table slot

theorem baseOn_exitFiles (fds : List (Fin nfile)) (nodup : fds.Nodup) (base : BaseOn table sys)
    (own : ∀ fd ∈ fds, table (p, fd) = (sys.procs p).ofile fd)
    (exited : exitFiles p fds sys = some sys') :
    BaseOn (except table p fds) sys' ∧ sys'.procs = sys.procs := by
  induction fds generalizing sys table with
  | nil =>
      cases exited
      refine ⟨?_, rfl⟩
      have same : except table p [] = table := by
        funext slot
        simp [except]
      rwa [same]
  | cons fd rest ih =>
      rw [List.nodup_cons] at nodup
      have isOwn := own fd List.mem_cons_self
      simp only [exitFiles] at exited
      split at exited
      · rename_i noFile
        rcases ih nodup.2 base (fun other member => own other (List.mem_cons_of_mem _ member))
          exited with ⟨later, procs⟩
        refine ⟨?_, procs⟩
        have same : except table p (fd :: rest) = except table p rest := by
          funext ⟨other, otherFd⟩
          simp only [except, List.mem_cons]
          by_cases isSlot : other = p ∧ otherFd = fd
          · rcases isSlot with ⟨rfl, rfl⟩
            simp [isOwn, noFile]
          · by_cases inRest : other = p ∧ otherFd ∈ rest
            · simp [inRest]
            · have notEither : ¬(other = p ∧ (otherFd = fd ∨ otherFd ∈ rest)) := by tauto
              simp [inRest, notEither]
        rwa [same]
      · rename_i f isFile
        have stored : table (p, fd) = some f := by rw [isOwn, isFile]
        rcases held_of_stored base stored with ⟨q, _, closes⟩
        rw [closes, Option.bind_some] at exited
        have dropped := baseOn_dropRef (q := q) base stored
        rcases ih nodup.2 dropped (by
          intro other member
          have otherFd : other ≠ fd := by
            rintro rfl
            exact nodup.1 member
          rw [Function.update_of_ne (by simp [otherFd])]
          exact own other (List.mem_cons_of_mem _ member)) exited with ⟨later, procs⟩
        refine ⟨?_, procs⟩
        have same : except (Function.update table (p, fd) none) p rest =
            except table p (fd :: rest) := by
          funext ⟨other, otherFd⟩
          simp only [except, List.mem_cons, Function.update_apply, Prod.mk.injEq]
          by_cases isSlot : other = p ∧ otherFd = fd
          · simp [isSlot]
          · by_cases inRest : other = p ∧ otherFd ∈ rest
            · simp [inRest]
            · have notEither : ¬(other = p ∧ (otherFd = fd ∨ otherFd ∈ rest)) := by tauto
              simp [isSlot, inRest, notEither]
        rwa [← same]

theorem base_exit (base : Base sys) (isLive : sys.live p = true)
    (exited : sys.exit p = some sys') : Base sys' := by
  rw [exit, Option.map_eq_some_iff] at exited
  rcases exited with ⟨closed, closes, rfl⟩
  rcases baseOn_exitFiles _ (List.nodup_finRange nfile) base
    (fun fd _ => by simp [slots, isLive]) closes with ⟨later, procs⟩
  have sameSlots : (closed.setProc p fun old => { old with place := .zombie }).slots =
      except sys.slots p (List.finRange nfile) := by
    funext slot
    rcases slot with ⟨other, fd⟩
    rcases eq_or_ne other p with rfl | different
    · simp [slots, live, setProc, except]
    · have same : (closed.setProc p fun old => { old with place := .zombie }).procs other =
          sys.procs other := by
        simp [setProc, different, procs]
      rw [slot_congr same]
      simp [except, different]
  rw [Base, sameSlots]
  refine later.of_same rfl ?_ (fun _ => rfl) (fun _ _ => rfl)
  intro other q place
  rcases eq_or_ne other p with rfl | different
  · simp [setProc, Place.pipe] at place
  · exact later.inside other q (by simpa [setProc, different] using place)

theorem base_reap (base : Base sys) (zombie : (sys.procs p).place = .zombie) :
    Base (sys.setProc p fun old => { old with place := .free }) := by
  have sameSlots : (sys.setProc p fun old => { old with place := .free }).slots = sys.slots := by
    funext slot
    rcases slot with ⟨other, fd⟩
    rcases eq_or_ne other p with rfl | different
    · simp [slots, live, setProc, zombie]
    · exact slot_congr (by simp [setProc, different]) fd
  rw [Base, sameSlots]
  refine base.of_same rfl ?_ (fun _ => rfl) (fun _ _ => rfl)
  intro other q place
  rcases eq_or_ne other p with rfl | different
  · simp [setProc, Place.pipe] at place
  · exact base.inside other q (by simpa [setProc, different] using place)

/-! ## All steps -/

theorem base_pipeFails (base : Base sys) (fails : PipeFails sys sys') : Base sys' := by
  have sameSlots : sys'.slots = sys.slots := by
    funext slot
    rcases slot with ⟨other, fd⟩
    exact slot_congr (by rw [fails.procs]) fd
  have readers : ∀ q, (sys'.pipes q).readers = (sys.pipes q).readers := by
    intro q
    rcases fails.pipes q with ⟨same, _⟩ | ⟨unused, _, zero, _⟩
    · rw [same]
    · rw [zero, unused]
      rfl
  rw [Base, sameSlots]
  refine ⟨?_, ?_, ?_, ?_, ?_, ?_⟩
  · intro f
    rw [← base.counted f]
    rcases fails.files f with same | ⟨before, after⟩
    · rw [same]
    · rw [before, after]
  · intro slot f stored
    have positive := count_pos stored
    rcases fails.files f with same | ⟨before, _⟩
    · rcases base.opened slot f stored with ⟨q, isPipe, ofPipe, used⟩
      exact ⟨q, by rw [same, isPipe], by rw [same, ofPipe], by rwa [readers]⟩
    · rw [base.counted f] at before
      omega
  · intro slot f stored
    have positive := count_pos stored
    rcases fails.files f with same | ⟨before, _⟩
    · rw [EndFlags, same]
      exact base.flags slot f stored
    · rw [base.counted f] at before
      omega
  · intro other q place
    rw [fails.procs] at place
    rw [readers]
    exact base.inside other q place
  · intro q
    rw [readers]
    exact base.readers q
  · intro q none
    rcases fails.pipes q with ⟨same, _⟩ | ⟨_, _, zero, _⟩
    · rw [same] at none ⊢
      exact base.empty q none
    · rw [zero]
      rfl

theorem base_pipeMade (base : Base sys) (isLive : sys.live p = true) {ends : Ends}
    (made : PipeMade sys p ends sys') : Base sys' ∧ sys'.live p = true := by
  have stillLive : (sys.setOfile p ends.readFd (some ends.readEnd)).live p = true := by
    rwa [live_setOfile]
  have sameSlots : sys'.slots = Function.update (Function.update sys.slots (p, ends.readFd)
      (some ends.readEnd)) (p, ends.writeFd) (some ends.writeEnd) := by
    rw [← slots_setOfile isLive, ← slots_setOfile stillLive, made.made]
    rfl
  have readSlot : sys.slots (p, ends.readFd) = none := by simp [slots, made.readFd]
  have writeSlot : Function.update sys.slots (p, ends.readFd) (some ends.readEnd)
      (p, ends.writeFd) = none := by
    rw [Function.update_of_ne (by simp [made.fds.symm])]
    simp [slots, made.writeFd]
  have unused : ∀ f, (sys.files f).refCount = 0 → ∀ slot, sys.slots slot ≠ some f := by
    intro f free slot stored
    have positive := count_pos stored
    rw [base.counted f] at free
    omega
  have readers : ∀ q, (sys.pipes q).readers ≤ (sys'.pipes q).readers := by
    intro q
    rw [made.made]
    rcases eq_or_ne q ends.pipe with rfl | different
    · simp [made.readers]
    · simp [different]
  have kinds : ∀ slot f, sys'.slots slot = some f → f = ends.writeEnd ∨ f = ends.readEnd ∨
      f ≠ ends.writeEnd ∧ f ≠ ends.readEnd ∧ sys.slots slot = some f := by
    intro slot f stored
    rw [sameSlots] at stored
    rcases eq_or_ne slot (p, ends.writeFd) with rfl | notWriteFd
    · simp only [Function.update_self, Option.some.injEq] at stored
      exact Or.inl stored.symm
    · rw [Function.update_of_ne notWriteFd] at stored
      rcases eq_or_ne slot (p, ends.readFd) with rfl | notReadFd
      · simp only [Function.update_self, Option.some.injEq] at stored
        exact Or.inr (Or.inl stored.symm)
      · rw [Function.update_of_ne notReadFd] at stored
        refine Or.inr (Or.inr ⟨?_, ?_, stored⟩)
        · rintro rfl
          exact unused _ made.writeFree slot stored
        · rintro rfl
          exact unused _ made.readFree slot stored
  refine ⟨⟨?_, ?_, ?_, ?_, ?_, ?_⟩, ?_⟩
  · intro f
    rw [sameSlots, count_update, count_update, readSlot, writeSlot, share_none, ← base.counted f,
      made.made]
    rcases eq_or_ne f ends.writeEnd with rfl | notWrite
    · simp [endFile, made.writeFree, share_of_ne made.distinct]
    · rcases eq_or_ne f ends.readEnd with rfl | notRead
      · simp [endFile, made.readFree, notWrite, share_of_ne notWrite.symm]
      · simp [notWrite, notRead, share_of_ne notWrite.symm, share_of_ne notRead.symm]
  · intro slot f stored
    rcases kinds slot f stored with rfl | rfl | ⟨notWrite, notRead, before⟩
    · rw [made.made]
      exact ⟨ends.pipe, by simp [endFile], by simp [endFile], by simp⟩
    · rw [made.made]
      exact ⟨ends.pipe, by simp [endFile, made.distinct], by simp [endFile, made.distinct],
        by simp⟩
    · rcases base.opened slot f before with ⟨q, isPipe, ofPipe, used⟩
      refine ⟨q, ?_, ?_, lt_of_lt_of_le used (readers q)⟩
      · rw [made.made]
        simpa [notWrite, notRead] using isPipe
      · rw [made.made]
        simpa [notWrite, notRead] using ofPipe
  · intro slot f stored
    rw [EndFlags, made.made]
    rcases kinds slot f stored with rfl | rfl | ⟨notWrite, notRead, before⟩
    · simp [endFile]
    · simp [endFile, made.distinct]
    · simpa [notWrite, notRead, EndFlags] using base.flags slot f before
  · intro other q place
    apply lt_of_lt_of_le _ (readers q)
    apply base.inside other q
    rw [made.made] at place
    rcases eq_or_ne other p with rfl | different
    · simpa [setOfile, setProc] using place
    · simpa [setOfile, setProc, different] using place
  · intro q
    exact (base.readers q).trans (readers q)
  · intro q none
    rw [made.made] at none ⊢
    rcases eq_or_ne q ends.pipe with rfl | different
    · simp at none
    · simp only [Function.update_of_ne different] at none ⊢
      exact base.empty q none
  · rw [made.made]
    simpa [live, setOfile, setProc] using isLive

theorem base_sysPipe (base : Base sys) (isLive : sys.live p = true) {value : ℤ}
    (called : sys.sysPipe p = some (sys', value)) : Base sys' ∧ sys'.live p = true := by
  rcases sysPipe_cases called with fails | ⟨ends, made⟩
  · refine ⟨base_pipeFails base fails, ?_⟩
    rw [live, fails.procs]
    exact isLive
  · exact base_pipeMade base isLive made

theorem finish_cases {result : Option (Sys × ℤ)} (finished : finish p result = some sys') :
    ∃ middle value, result = some (middle, value) ∧ sys' = middle.returns p value := by
  rw [finish, Option.map_eq_some_iff] at finished
  rcases finished with ⟨⟨middle, value⟩, isResult, rfl⟩
  exact ⟨middle, value, isResult, rfl⟩

theorem pipeOf_eq {f : FileId} {q : PipeId} (isPipe : sys.pipeOf f = some q) :
    (sys.files f).type = .pipe ∧ (sys.files f).pipe = some q := by
  simp only [pipeOf] at isPipe
  split at isPipe
  · rename_i type
    exact ⟨type, isPipe⟩
  · cases isPipe

/-- The pipe that `read` and `write` find through a descriptor has been handed out. -/
theorem readers_pos_of_descriptor (base : Base sys) (isLive : sys.live p = true) {fd : ℤ}
    {slot : Fin nfile} {f : FileId} {q : PipeId} (found : sys.descriptor p fd = some (slot, f))
    (isPipe : sys.pipeOf f = some q) : 0 < (sys.pipes q).readers := by
  rcases base.opened _ _ (descriptor_slot isLive found).1 with ⟨pipe, _, ofPipe, used⟩
  rw [(pipeOf_eq isPipe).2] at ofPipe
  cases ofPipe
  exact used

theorem base_sysent (base : Base sys) (isLive : sys.live p = true) {call : Call}
    (called : sys.sysent p call = some sys') : Base sys' := by
  cases call with
  | pipe =>
      rcases finish_cases called with ⟨middle, value, result, rfl⟩
      rcases base_sysPipe base isLive result with ⟨kept, stillLive⟩
      exact base_returns kept stillLive value
  | read fd nbytes =>
      simp only [sysent] at called
      split at called
      · cases called
        exact base_returns base isLive _
      · rename_i slot f found
        rw [Option.map_eq_some_iff] at called
        rcases called with ⟨q, isPipe, rfl⟩
        exact base_pipeRead base isLive (readers_pos_of_descriptor base isLive found isPipe) _ _
  | write fd src =>
      simp only [sysent] at called
      split at called
      · cases called
        exact base_returns base isLive _
      · rename_i slot f found
        rw [Option.map_eq_some_iff] at called
        rcases called with ⟨q, isPipe, rfl⟩
        exact base_pipeWrite base isLive (readers_pos_of_descriptor base isLive found isPipe) _ _
  | close fd =>
      rcases finish_cases called with ⟨middle, value, result, rfl⟩
      rcases base_close base isLive result with ⟨kept, stillLive⟩
      exact base_returns kept stillLive value
  | dup fd =>
      rcases finish_cases called with ⟨middle, value, result, rfl⟩
      rcases base_dup base isLive result with ⟨kept, stillLive⟩
      exact base_returns kept stillLive value
  | dup2 oldFd newFd =>
      rcases finish_cases called with ⟨middle, value, result, rfl⟩
      rcases base_dup2 base isLive result with ⟨kept, stillLive⟩
      exact base_returns kept stillLive value
  | fork =>
      rcases finish_cases called with ⟨middle, value, result, rfl⟩
      have isMiddle : (sys.fork p).1 = middle := by rw [Option.some.inj result]
      rcases base_fork base isLive with ⟨kept, stillLive⟩
      rw [isMiddle] at kept stillLive
      exact base_returns kept stillLive value
  | exit => exact base_exit base isLive called

theorem base_step (base : Base sys) {act : Act} (stepped : sys.step act = some sys') :
    Base sys' := by
  cases act with
  | call p call =>
      simp only [step] at stepped
      split at stepped
      · rename_i isUser
        exact base_sysent base (by simp [live, isUser]) stepped
      · cases stepped
  | resume p =>
      simp only [step] at stepped
      split at stepped
      · rename_i q left got isReading
        cases stepped
        have used := base.inside p q (by simp [isReading, Place.pipe])
        exact base_pipeRead base (by simp [live, isReading]) used left got
      · rename_i q nbytes src isWriting
        cases stepped
        have used := base.inside p q (by simp [isWriting, Place.pipe])
        exact base_pipeWrite base (by simp [live, isWriting]) used nbytes src
      · cases stepped
  | reap p =>
      simp only [step] at stepped
      split at stepped
      · rename_i isZombie
        cases stepped
        exact base_reap base isZombie
      · cases stepped

theorem base_boot : Base boot := by
  have noSlots : boot.slots = fun _ => none := by
    funext slot
    simp only [slots]
    split
    · rfl
    · rfl
  rw [Base, noSlots]
  refine ⟨?_, ?_, ?_, ?_, ?_, ?_⟩
  · intro f
    rw [count_empty]
    rfl
  · intro slot f isNone
    cases isNone
  · intro slot f isNone
    cases isNone
  · intro p q place
    by_cases isInit : p = 0
    · simp [boot, isInit, Place.pipe] at place
    · simp [boot, isInit, Place.pipe] at place
  · simp [boot, Pipe.zero]
  · simp [boot, Pipe.zero]

end

end Osix.Pipes.Sys
