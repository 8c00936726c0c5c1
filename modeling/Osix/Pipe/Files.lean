import Osix.Pipe.Basic
import Osix.Lib.Counting
import Mathlib.Data.Fintype.Prod

/-!
# The files of pipes

What `close` and `sys_pipe` do to the tables. Since `O_RDONLY` is 0, `pipe_close` never
takes a reader back, and a file whose pipe has a reader counted is closed without any
effect on the contents of the pipe. A `sys_pipe` that fails has only touched files and
pipes that nobody uses.
-/

namespace Osix.Pipes.Sys

open Counting

/-- The process is neither free nor a zombie. -/
def live (sys : Sys) (p : ProcId) : Bool := (sys.procs p).place.live

/-- The descriptors of the live processes. -/
def slots (sys : Sys) (slot : ProcId × Fin nfile) : Option FileId :=
  if sys.live slot.1 then (sys.procs slot.1).ofile slot.2 else none

/-- The file is an end of a pipe that has been handed out. -/
def Opened (sys : Sys) (f : FileId) : Prop :=
  ∃ q, (sys.files f).type = .pipe ∧ (sys.files f).pipe = some q ∧ 0 < (sys.pipes q).readers

/-- The flags that `sys_pipe` gives to a file. -/
def EndFlags (sys : Sys) (f : FileId) : Prop :=
  (sys.files f).flags = oRdonly ∨ (sys.files f).flags = oWronly

/-! ## Descriptors -/

theorem slots_congr {sys sys' : Sys} (live : ∀ p, sys'.live p = sys.live p)
    (ofile : ∀ p, (sys'.procs p).ofile = (sys.procs p).ofile) : sys'.slots = sys.slots := by
  funext slot
  simp [slots, live, ofile]

/-- A process that stays as it is keeps its descriptors. -/
theorem slot_congr {sys sys' : Sys} {other : ProcId} (same : sys'.procs other = sys.procs other)
    (fd : Fin nfile) : sys'.slots (other, fd) = sys.slots (other, fd) := by
  have sameLive : sys'.live other = sys.live other := by rw [live, live, same]
  simp only [slots, sameLive, same]

@[simp]
theorem live_setOfile (sys : Sys) (p other : ProcId) (fd : Fin nfile) (file : Option FileId) :
    (sys.setOfile p fd file).live other = sys.live other := by
  rcases eq_or_ne other p with rfl | different
  · simp [live, setOfile, setProc]
  · simp [live, setOfile, setProc, different]

theorem slots_setOfile {sys : Sys} {p : ProcId} (isLive : sys.live p = true) (fd : Fin nfile)
    (file : Option FileId) :
    (sys.setOfile p fd file).slots = Function.update sys.slots (p, fd) file := by
  funext ⟨q, other⟩
  simp only [slots, live_setOfile, Function.update_apply, Prod.mk.injEq]
  rcases eq_or_ne q p with rfl | different
  · by_cases same : other = fd
    · simp [isLive, same, setOfile, setProc]
    · simp [isLive, same, setOfile, setProc]
  · simp [different, setOfile, setProc]

theorem descriptor_slot {sys : Sys} {p : ProcId} {fd : ℤ} {slot : Fin nfile} {f : FileId}
    (isLive : sys.live p = true) (found : sys.descriptor p fd = some (slot, f)) :
    sys.slots (p, slot) = some f ∧ (slot : ℤ) = fd := by
  simp only [descriptor] at found
  split at found
  · split at found
    · rename_i nonneg
      rw [Option.map_eq_some_iff] at found
      rcases found with ⟨file, isFile, pair⟩
      cases pair
      refine ⟨by simp [slots, isLive, isFile], ?_⟩
      simp [nonneg]
    · cases found
  · cases found

/-! ## Closing a file -/

/-- The writers that are left after a `close` of the file. -/
def writersAfter (file : File) (pipe : Pipe) : ℤ :=
  if file.refCount = 1 ∧ file.flags &&& oWronly ≠ 0 then pipe.writers - 1 else pipe.writers

/-- A `close` of file `f`, an end of pipe `q`. -/
def dropRef (sys : Sys) (f : FileId) (q : PipeId) : Sys :=
  (sys.setFile f fun old => { old with refCount := old.refCount - 1 }).setPipe q
    fun old => { old with writers := writersAfter (sys.files f) old }

/-- The reader that is never taken back keeps `pipe_close` from destroying the pipe. -/
theorem fileClose_eq {sys : Sys} {f : FileId} {q : PipeId} (isPipe : (sys.files f).type = .pipe)
    (ofPipe : (sys.files f).pipe = some q) (used : 0 < (sys.pipes q).readers) :
    sys.fileClose f = some (sys.dropRef f q) := by
  have notZero : (sys.pipes q).readers ≠ 0 := by omega
  by_cases last : (sys.files f).refCount = 1
  · simp [fileClose, isPipe, pipeClose, ofPipe, last, setFile, setPipe, closeEnd, oRdonly, notZero,
      dropRef, writersAfter]
  · have notLast : (sys.files f).refCount - 1 ≠ 0 := by omega
    simp [fileClose, isPipe, pipeClose, ofPipe, last, notLast, setFile, setPipe, notZero, dropRef,
      writersAfter]

theorem dropRef_file (sys : Sys) (f : FileId) (q : PipeId) (other : FileId) :
    (sys.dropRef f q).files other = { sys.files other with
      refCount := (sys.files other).refCount - if other = f then 1 else 0 } := by
  rcases eq_or_ne other f with rfl | different
  · simp [dropRef, setFile, setPipe]
  · simp [dropRef, setFile, setPipe, different]

theorem fileDup_file (sys : Sys) (f other : FileId) :
    (sys.fileDup f).files other = { sys.files other with
      refCount := (sys.files other).refCount + if other = f then 1 else 0 } := by
  rcases eq_or_ne other f with rfl | different
  · simp [fileDup, setFile]
  · simp [fileDup, setFile, different]

theorem dropRef_pipes (sys : Sys) (f : FileId) (q other : PipeId) :
    ((sys.dropRef f q).pipes other).readers = (sys.pipes other).readers ∧
    ((sys.dropRef f q).pipes other).readPos = (sys.pipes other).readPos ∧
    ((sys.dropRef f q).pipes other).writePos = (sys.pipes other).writePos ∧
    ((sys.dropRef f q).pipes other).buffer = (sys.pipes other).buffer := by
  rcases eq_or_ne other q with rfl | different
  · simp [dropRef, setPipe, setFile]
  · simp [dropRef, setPipe, setFile, different]

/-! ## A new pipe -/

/-- A failed `sys_pipe` has only touched files and pipes that nobody uses. -/
structure PipeFails (sys sys' : Sys) : Prop where
  procs : sys'.procs = sys.procs
  nextpid : sys'.nextpid = sys.nextpid
  files : ∀ f, sys'.files f = sys.files f ∨
    (sys.files f).refCount = 0 ∧ (sys'.files f).refCount = 0
  pipes : ∀ q,
    sys'.pipes q = sys.pipes q ∧ sys'.accepted q = sys.accepted q ∧
      sys'.delivered q = sys.delivered q ∨
    (sys.pipes q).readers = 0 ∧ (sys.pipes q).writers = 0 ∧ sys'.pipes q = .zero ∧
      sys'.accepted q = [] ∧ sys'.delivered q = []

/-- The file of a new end. -/
def endFile (flags : ℕ) (q : PipeId) : File :=
  { File.zero with refCount := 1, flags := flags, type := .pipe, pipe := some q }

/-- What a successful `sys_pipe` has taken. -/
structure Ends where
  readEnd : FileId
  writeEnd : FileId
  pipe : PipeId
  readFd : Fin nfile
  writeFd : Fin nfile

/-- A successful `sys_pipe` has taken two free files, a free pipe and two descriptors. -/
structure PipeMade (sys : Sys) (p : ProcId) (ends : Ends) (sys' : Sys) : Prop where
  distinct : ends.readEnd ≠ ends.writeEnd
  readFree : (sys.files ends.readEnd).refCount = 0
  writeFree : (sys.files ends.writeEnd).refCount = 0
  readers : (sys.pipes ends.pipe).readers = 0
  writers : (sys.pipes ends.pipe).writers = 0
  readFd : (sys.procs p).ofile ends.readFd = none
  writeFd : (sys.procs p).ofile ends.writeFd = none
  fds : ends.readFd ≠ ends.writeFd
  made : sys' =
    { ((sys.setOfile p ends.readFd (some ends.readEnd)).setOfile p ends.writeFd
        (some ends.writeEnd)) with
      files := Function.update
        (Function.update sys.files ends.readEnd (endFile oRdonly ends.pipe)) ends.writeEnd
        (endFile oWronly ends.pipe)
      pipes := Function.update sys.pipes ends.pipe
        { sys.pipes ends.pipe with readers := 1, writers := 1 }
      accepted := Function.update sys.accepted ends.pipe []
      delivered := Function.update sys.delivered ends.pipe [] }

theorem fileAlloc_some {sys : Sys} {f : FileId} (found : sys.fileAlloc = some f) :
    (sys.files f).refCount = 0 := by
  simpa using List.find?_some found

theorem fileFdAlloc_some {sys : Sys} {p : ProcId} {fd : Fin nfile}
    (found : sys.fileFdAlloc p = some fd) : (sys.procs p).ofile fd = none := by
  simpa using List.find?_some found

theorem pipeCreate_some {sys : Sys} {q : PipeId} (found : sys.pipeCreate = some q) :
    (sys.pipes q).readers = 0 ∧ (sys.pipes q).writers = 0 := by
  simpa using List.find?_some found

/-- The two files of `sys_pipe` before it has a pipe. -/
def bothTaken (sys : Sys) (readEnd writeEnd : FileId) : Sys :=
  (((sys.fileTake readEnd).fileTake writeEnd).setFile readEnd
    fun old => { old with flags := oRdonly }).setFile writeEnd
    fun old => { old with flags := oWronly }

theorem bothTaken_files {sys : Sys} {readEnd writeEnd : FileId} (distinct : readEnd ≠ writeEnd) :
    (sys.bothTaken readEnd writeEnd).files =
      Function.update (Function.update sys.files readEnd
        { File.zero with refCount := 1, flags := oRdonly }) writeEnd
        { File.zero with refCount := 1, flags := oWronly } := by
  funext f
  rcases eq_or_ne f writeEnd with rfl | notWrite
  · simp [bothTaken, fileTake, setFile, distinct.symm]
  · rcases eq_or_ne f readEnd with rfl | notRead
    · simp [bothTaken, fileTake, setFile, notWrite]
    · simp [bothTaken, fileTake, setFile, notWrite, notRead]

/-- Without a pipe both files are given back. -/
theorem closeBoth_taken {sys closed : Sys} {readEnd writeEnd : FileId}
    (distinct : readEnd ≠ writeEnd) (readFree : (sys.files readEnd).refCount = 0)
    (writeFree : (sys.files writeEnd).refCount = 0)
    (closes : (sys.bothTaken readEnd writeEnd).closeBoth readEnd writeEnd = some closed) :
    PipeFails sys closed := by
  have atRead : ((sys.bothTaken readEnd writeEnd).files readEnd) =
      { File.zero with refCount := 1, flags := oRdonly } := by
    rw [bothTaken_files distinct]
    simp [distinct]
  have atWrite : ((sys.bothTaken readEnd writeEnd).files writeEnd) =
      { File.zero with refCount := 1, flags := oWronly } := by
    rw [bothTaken_files distinct]
    simp
  have first : (sys.bothTaken readEnd writeEnd).fileClose readEnd =
      some ((sys.bothTaken readEnd writeEnd).setFile readEnd
        fun old => { old with refCount := old.refCount - 1 }) := by
    simp [fileClose, atRead, File.zero]
  rw [closeBoth, first, Option.bind_some] at closes
  simp only [fileClose, setFile, Function.update_of_ne distinct.symm, atWrite, File.zero] at closes
  simp only [Int.reduceLE, if_false, Option.some.injEq] at closes
  subst closes
  refine ⟨rfl, rfl, ?_, fun q => Or.inl ⟨rfl, rfl, rfl⟩⟩
  intro f
  rcases eq_or_ne f writeEnd with rfl | notWrite
  · right
    simp [writeFree]
  · rcases eq_or_ne f readEnd with rfl | notRead
    · right
      simp [readFree, notWrite, atRead]
    · left
      simp [notWrite, notRead, bothTaken_files distinct]

/-- The two files of `sys_pipe` and their pipe. -/
def pipeTaken (sys : Sys) (readEnd writeEnd : FileId) (q : PipeId) : Sys :=
  { sys with
    files := Function.update (Function.update sys.files readEnd (endFile oRdonly q)) writeEnd
      (endFile oWronly q)
    pipes := Function.update sys.pipes q { sys.pipes q with readers := 1, writers := 1 }
    accepted := Function.update sys.accepted q []
    delivered := Function.update sys.delivered q [] }

theorem pipeOpen_bothTaken {sys : Sys} {readEnd writeEnd : FileId} {q : PipeId}
    (distinct : readEnd ≠ writeEnd) (readers : (sys.pipes q).readers = 0)
    (writers : (sys.pipes q).writers = 0) :
    (sys.bothTaken readEnd writeEnd).pipeOpen readEnd writeEnd q =
      sys.pipeTaken readEnd writeEnd q := by
  have sameFiles : ((sys.bothTaken readEnd writeEnd).pipeOpen readEnd writeEnd q).files =
      (sys.pipeTaken readEnd writeEnd q).files := by
    funext f
    simp only [pipeOpen, setFile, setPipe, bothTaken_files distinct, pipeTaken]
    rcases eq_or_ne f writeEnd with rfl | notWrite
    · simp [endFile, distinct.symm]
    · rcases eq_or_ne f readEnd with rfl | notRead
      · simp [endFile, notWrite]
      · simp [notWrite, notRead]
  have samePipes : ((sys.bothTaken readEnd writeEnd).pipeOpen readEnd writeEnd q).pipes =
      (sys.pipeTaken readEnd writeEnd q).pipes := by
    funext other
    rcases eq_or_ne other q with rfl | different
    · simp [pipeOpen, bothTaken, fileTake, setFile, setPipe, pipeTaken, readers, writers]
    · simp [pipeOpen, bothTaken, fileTake, setFile, setPipe, pipeTaken, different]
  simp only [pipeOpen, setFile, setPipe, pipeTaken] at sameFiles samePipes ⊢
  simp only [sameFiles, samePipes]
  simp [bothTaken, fileTake, setFile]

/-- Without descriptors both ends are closed and the pipe is cleared. -/
theorem closeBoth_pipeTaken {sys stored closed : Sys} {readEnd writeEnd : FileId} {q : PipeId}
    (distinct : readEnd ≠ writeEnd) (readFree : (sys.files readEnd).refCount = 0)
    (writeFree : (sys.files writeEnd).refCount = 0) (readers : (sys.pipes q).readers = 0)
    (writers : (sys.pipes q).writers = 0)
    (restored : stored = sys.pipeTaken readEnd writeEnd q)
    (closes : stored.closeBoth readEnd writeEnd = some closed) :
    PipeFails sys (closed.pipeDestroy q) := by
  subst restored
  have first : (sys.pipeTaken readEnd writeEnd q).fileClose readEnd =
      some ((sys.pipeTaken readEnd writeEnd q).dropRef readEnd q) := by
    apply fileClose_eq
    · simp [pipeTaken, distinct, endFile]
    · simp [pipeTaken, distinct, endFile]
    · simp [pipeTaken]
  have second : ((sys.pipeTaken readEnd writeEnd q).dropRef readEnd q).fileClose writeEnd =
      some (((sys.pipeTaken readEnd writeEnd q).dropRef readEnd q).dropRef writeEnd q) := by
    apply fileClose_eq
    · simp [pipeTaken, dropRef, setFile, setPipe, distinct.symm, endFile]
    · simp [pipeTaken, dropRef, setFile, setPipe, distinct.symm, endFile]
    · simp [pipeTaken, dropRef, setFile, setPipe]
  rw [closeBoth, first, Option.bind_some, second, Option.some.injEq] at closes
  subst closes
  refine ⟨rfl, rfl, ?_, ?_⟩
  · intro f
    rcases eq_or_ne f writeEnd with rfl | notWrite
    · right
      simp [pipeTaken, dropRef, setFile, setPipe, pipeDestroy, distinct.symm, endFile, writeFree]
    · rcases eq_or_ne f readEnd with rfl | notRead
      · right
        simp [pipeTaken, dropRef, setFile, setPipe, pipeDestroy, notWrite, endFile, readFree]
      · left
        simp [pipeTaken, dropRef, setFile, setPipe, pipeDestroy, notWrite, notRead]
  · intro other
    rcases eq_or_ne other q with rfl | different
    · right
      simp [pipeTaken, dropRef, setFile, setPipe, pipeDestroy, readers, writers]
    · left
      simp [pipeTaken, dropRef, setFile, setPipe, pipeDestroy, different]

theorem setOfile_restore {sys : Sys} {p : ProcId} {fd : Fin nfile} {file : Option FileId}
    (free : (sys.procs p).ofile fd = none) : (sys.setOfile p fd file).setOfile p fd none = sys := by
  have same : Function.update (sys.procs p).ofile fd none = (sys.procs p).ofile := by
    rw [← free, Function.update_eq_self]
  simp [setOfile, setProc, same]

/-- `sys_pipe` fails without a trace or makes a pipe. -/
theorem sysPipe_cases {sys sys' : Sys} {p : ProcId} {value : ℤ}
    (called : sys.sysPipe p = some (sys', value)) :
    PipeFails sys sys' ∨ ∃ ends, PipeMade sys p ends sys' := by
  simp only [sysPipe] at called
  split at called
  · cases called
    exact Or.inl ⟨rfl, rfl, fun f => Or.inl rfl, fun q => Or.inl ⟨rfl, rfl, rfl⟩⟩
  · rename_i readEnd foundRead
    have readFree := fileAlloc_some foundRead
    split at called
    · left
      rw [Option.map_eq_some_iff] at called
      rcases called with ⟨closed, closes, pair⟩
      cases pair
      simp only [fileClose, fileTake, setFile, Function.update_self, File.zero] at closes
      simp only [Int.reduceLE, if_false, Option.some.injEq] at closes
      subst closes
      refine ⟨rfl, rfl, ?_, fun q => Or.inl ⟨rfl, rfl, rfl⟩⟩
      intro f
      rcases eq_or_ne f readEnd with rfl | different
      · right
        simp [readFree]
      · left
        simp [different]
    · rename_i writeEnd foundWrite
      have taken := fileAlloc_some foundWrite
      have distinct : readEnd ≠ writeEnd := by
        rintro rfl
        simp [fileTake, setFile] at taken
      have writeFree : (sys.files writeEnd).refCount = 0 := by
        simpa [fileTake, setFile, distinct.symm] using taken
      rcases foundPipe : (sys.bothTaken readEnd writeEnd).pipeCreate with _ | q
      · left
        erw [foundPipe] at called
        rw [Option.map_eq_some_iff] at called
        rcases called with ⟨closed, closes, pair⟩
        cases pair
        exact closeBoth_taken distinct readFree writeFree closes
      · erw [foundPipe] at called
        change ((sys.bothTaken readEnd writeEnd).pipeOpen readEnd writeEnd q).pipeDescriptors
          p readEnd writeEnd q = _ at called
        have unused := pipeCreate_some foundPipe
        have readers : (sys.pipes q).readers = 0 := unused.1
        have writers : (sys.pipes q).writers = 0 := unused.2
        rw [pipeOpen_bothTaken distinct readers writers] at called
        simp only [pipeDescriptors] at called
        split at called
        · left
          rw [Option.map_eq_some_iff] at called
          rcases called with ⟨closed, closes, pair⟩
          cases pair
          exact closeBoth_pipeTaken distinct readFree writeFree readers writers rfl closes
        · rename_i readFd foundReadFd
          have readFdFree := fileFdAlloc_some foundReadFd
          split at called
          · left
            rw [Option.map_eq_some_iff] at called
            rcases called with ⟨closed, closes, pair⟩
            cases pair
            exact closeBoth_pipeTaken distinct readFree writeFree readers writers
              (setOfile_restore readFdFree) closes
          · rename_i writeFd foundWriteFd
            right
            have writeFdFree := fileFdAlloc_some foundWriteFd
            have fds : readFd ≠ writeFd := by
              rintro rfl
              simp [setOfile, setProc] at writeFdFree
            have writeFdWasFree : (sys.procs p).ofile writeFd = none := by
              simpa [setOfile, setProc, fds.symm, pipeTaken] using writeFdFree
            cases called
            exact ⟨⟨readEnd, writeEnd, q, readFd, writeFd⟩,
              ⟨distinct, readFree, writeFree, readers, writers, readFdFree, writeFdWasFree, fds,
                rfl⟩⟩

end Osix.Pipes.Sys
