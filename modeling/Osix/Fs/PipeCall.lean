import Osix.Fs.Descriptors
import Osix.Fs.Kernel

/-!
# Calls of `sys_pipe` that fail

`sys_pipe` takes two file entries, a pipe and two descriptors, and gives back what it has got
when one of them is not to be had. It ends with `pipe_destroy`, which clears the positions of
the pipe. They were clear before if a pipe without readers has never been read or written:
nothing takes a reader back, so that such a pipe belongs to no file.

A `dup2` of a descriptor to itself can leave a file that belongs to one (`writeToNoPipe`).
While it sleeps in the close of its only file entry, another process may take the entry for
the end of a pipe and fail.
-/

namespace Osix

open Program Transition Fs

variable {H : Type} {α β : Type}

/-! ## What the code does to pipes -/

/-- The changes of a pipe. -/
inductive PipeChange (pp : Pipe) : Pipe → Prop where
  | reader : PipeChange pp { pp with readers := pp.readers + 1 }
  | writers (count : ℤ) : PipeChange pp { pp with writers := count }
  | moves (buffer : ℕ → Byte) (readPos writePos : BitVec 32) :
      PipeChange pp { pp with buffer := buffer, readPos := readPos, writePos := writePos }
  | destroyed : PipeChange pp .zero

/-- An operation on a pipe makes one of these changes. -/
def ChangesPipe (operation : FsOp H) : Prop :=
  ∀ pipe change, operation = .setPipe pipe change → ∀ pp, PipeChange pp (change pp)

/-- All operations of the program on pipes make these changes. -/
abbrev ChangesPipes (prog : FsM H α) : Prop := Only ChangesPipe prog

namespace ChangesPipes

theorem of_other {operation : FsOp H} (other : operation.kind ≠ .pipes) :
    ChangesPipe operation := by
  rintro pipe change rfl
  exact absurd rfl other

theorem of_uses {kinds : List OpKind} {prog : FsM H α} (uses : Uses kinds prog)
    (beside : kinds.contains .pipes = false) : ChangesPipes prog := by
  apply uses.mono
  intro operation isKind
  apply of_other
  intro isPipes
  rw [isPipes, ← List.contains_iff_mem, beside] at isKind
  cases isKind

theorem setPipe {pipe : PipeId} {change : Pipe → Pipe}
    (known : ∀ pp, PipeChange pp (change pp)) :
    ChangesPipes (Fs.setPipe pipe change : FsM H Unit) := by
  apply Only.perform
  rintro pipe' change' same
  cases same
  exact known

theorem op {operation : FsOp H} (other : operation.kind ≠ .pipes) :
    ChangesPipes (.perform operation : FsM H operation.Reply) :=
  Only.perform (of_other other)

theorem stop (why : Stop) : ChangesPipes (Fs.stop why : FsM H α) := by
  refine Only.op ?_ fun empty => empty.elim
  rintro pipe change same
  cases same

theorem getCore : ChangesPipes (Fs.getCore : FsM H Core) := op nofun

theorem getFile (f : FileId) : ChangesPipes (Fs.getFile f : FsM H File) :=
  Only.bind getCore fun _ => Only.pure _

theorem getProc (p : ProcId) : ChangesPipes (Fs.getProc p : FsM H Proc) :=
  Only.bind getCore fun _ => Only.pure _

theorem pipeReadLoop (pipe : PipeId) (nbytes rounds : ℕ) (got : List Byte) :
    ChangesPipes (Fs.pipeReadLoop pipe nbytes rounds got : FsM H (ℤ × List Byte)) := by
  induction rounds generalizing got with
  | zero => exact stop _
  | succ rounds ih =>
      unfold Fs.pipeReadLoop
      split
      · exact Only.pure _
      refine Only.bind getCore fun core => ?_
      dsimp only
      split
      · split
        · exact Only.pure _
        · exact Only.bind (op (by rintro ⟨⟩)) fun _ => ih _
      · exact Only.bind (setPipe fun pp => .moves pp.buffer _ pp.writePos) fun _ => ih _

theorem pipeWriteLoop (pipe : PipeId) (rounds : ℕ) (src : List Byte) :
    ChangesPipes (Fs.pipeWriteLoop pipe rounds src : FsM H Unit) := by
  induction rounds generalizing src with
  | zero =>
      unfold Fs.pipeWriteLoop
      exact stop _
  | succ rounds ih =>
      cases src with
      | nil => exact Only.pure ()
      | cons byte src =>
          refine Only.bind getCore fun core => ?_
          dsimp only
          split
          · exact Only.bind (op (by rintro ⟨⟩)) fun _ => ih _
          · exact Only.bind (setPipe fun pp => .moves _ pp.readPos _) fun _ => ih _

theorem read (p : ProcId) (fd : ℤ) (nbytes : ℕ) :
    ChangesPipes (Fs.read p fd nbytes : FsM H (ℤ × List Byte)) := by
  refine Only.bind (of_uses (Uses.openFile p fd) rfl) fun found => ?_
  split
  · exact Only.pure _
  refine Only.bind (getFile _) fun file => ?_
  split
  · exact of_uses (Uses.fileRead p _ nbytes) rfl
  · refine Only.bind getCore fun core => ?_
    split
    · exact pipeReadLoop _ nbytes _ _
    · exact stop _

theorem write (p : ProcId) (fd : ℤ) (src : List Byte) :
    ChangesPipes (Fs.write p fd src : FsM H ℤ) := by
  refine Only.bind (of_uses (Uses.openFile p fd) rfl) fun found => ?_
  split
  · exact Only.pure _
  refine Only.bind (getFile _) fun file => ?_
  split
  · exact of_uses (Uses.fileWrite _ src) rfl
  · refine Only.bind getCore fun core => ?_
    split
    · exact Only.bind (pipeWriteLoop _ _ src) fun _ => Only.pure _
    · exact stop _

/-- `pipe_close` takes back no reader, as `O_RDONLY` is 0. -/
theorem fileClose (f : FileId) : ChangesPipes (Fs.fileClose f : FsM H Unit) := by
  refine Only.bind (getFile f) fun file => ?_
  split
  · refine Only.bind (getFile f) fun file => ?_
    split
    · refine Only.bind (op (by rintro ⟨⟩)) fun _ => ?_
      refine Only.bind (Only.when ?_) fun _ => ?_
      · have noReader : ¬(file.flags &&& oRdonly ≠ 0) := by simp [oRdonly]
        unfold Prog.when
        rw [if_neg noReader]
        refine Only.bind (Only.pure ()) fun _ => ?_
        split
        · exact setPipe fun pp => .writers _
        · exact Only.pure ()
      · exact Only.bind getCore fun core => Only.when (setPipe fun pp => .destroyed)
    · exact stop _
  · refine Only.bind (getFile f) fun file => ?_
    split
    · exact stop _
    refine Only.bind (op (by rintro ⟨⟩)) fun _ => ?_
    refine Only.when (Only.whenSome fun i => ?_)
    exact Only.bind (of_uses (Uses.iput i) rfl) fun _ => op (by rintro ⟨⟩)

theorem openInode (p : ProcId) (f : FileId) (flags : ℕ) :
    ChangesPipes (Fs.openInode p f flags : FsM H ℤ) := by
  refine Only.bind (getFile f) fun file => ?_
  split
  · exact Only.bind (fileClose f) fun _ => Only.pure _
  refine Only.bind (Only.bind getCore fun _ => Only.pure _) fun denied => ?_
  split
  · exact Only.bind (fileClose f) fun _ => Only.pure _
  · refine Only.bind (of_uses (Uses.openTrunc f _ flags) rfl) fun _ => ?_
    exact of_uses (Uses.fileFdAlloc p f) rfl

theorem sysOpen (p : ProcId) (filename : List Byte) (flags mode : ℕ) :
    ChangesPipes (Fs.sysOpen p filename flags mode : FsM H ℤ) := by
  unfold Fs.sysOpen
  split
  · exact Only.pure _
  refine Only.bind (of_uses Uses.fileAlloc rfl) fun allocated => ?_
  cases allocated with
  | none => exact Only.pure _
  | some f =>
      refine Only.bind (op nofun) fun _ => ?_
      have looksUp := Uses.of_into (H := H) (Uses.nameicoreInto p filename false false (.file f))
      refine Only.bind (of_uses looksUp rfl) fun found => ?_
      split
      · have creates := Uses.of_into (H := H)
          (Uses.fileCreatInto p filename (mode ||| sIfreg) (.file f))
        exact Only.bind (of_uses creates rfl) fun _ => openInode p f flags
      split
      · exact Only.bind (fileClose f) fun _ => Only.pure _
      · exact openInode p f flags

theorem close (p : ProcId) (fd : ℤ) : ChangesPipes (Fs.close p fd : FsM H ℤ) := by
  refine Only.bind (of_uses (Uses.openFile p fd) rfl) fun file => ?_
  split
  · exact Only.pure _
  · refine Only.bind (fileClose _) fun _ => ?_
    exact Only.bind (op nofun) fun _ => Only.pure _

theorem dup2 (p : ProcId) (oldFd newFd : ℤ) :
    ChangesPipes (Fs.dup2 p oldFd newFd : FsM H ℤ) := by
  refine Only.bind (of_uses (Uses.looseOpenFile p oldFd) rfl) fun slot => ?_
  split
  · exact Only.pure _
  · exact stop _
  split
  · exact Only.pure _
  refine Only.bind (op nofun) fun _ => ?_
  split
  · exact stop _
  refine Only.bind (getProc p) fun proc => ?_
  refine Only.bind (Only.whenSome fileClose) fun _ => ?_
  refine Only.bind (getProc p) fun proc => ?_
  split
  · exact stop _
  · refine Only.bind (op nofun) fun _ => ?_
    exact Only.bind (op nofun) fun _ => Only.pure _

theorem exit (p : ProcId) (status : ℤ) : ChangesPipes (Fs.exit p status : FsM H Unit) := by
  have files : ∀ fds, ChangesPipes (Fs.exitFiles p fds : FsM H Unit) := by
    intro fds
    induction fds with
    | nil => exact Only.pure ()
    | cons fd rest ih =>
        refine Only.bind (getProc p) fun proc => ?_
        exact Only.bind (Only.whenSome fileClose) fun _ => ih
  refine Only.bind (of_uses (Uses.exitOrphans p _) rfl) fun _ => ?_
  refine Only.bind (files _) fun _ => ?_
  refine Only.bind (getProc p) fun proc => ?_
  split
  · exact stop _
  · exact Only.bind (of_uses (Uses.iputPtr _) rfl) fun _ => op nofun

theorem sysPipe (p : ProcId) (fd : ℤ) : ChangesPipes (Fs.sysPipe p fd : FsM H ℤ) := by
  have opens : ∀ readEnd writeEnd pipe,
      ChangesPipes (Fs.pipeOpen p readEnd writeEnd pipe : FsM H ℤ) := by
    intro readEnd writeEnd pipe
    refine Only.bind (op nofun) fun _ => ?_
    refine Only.bind (setPipe fun pp => .reader) fun _ => ?_
    refine Only.bind (op nofun) fun _ => ?_
    refine Only.bind (setPipe fun pp => .writers _) fun _ => ?_
    refine Only.bind (of_uses (Uses.fileFdAlloc p readEnd) rfl) fun readFd => ?_
    refine Only.bind (of_uses (Uses.fileFdAlloc p writeEnd) rfl) fun writeFd => ?_
    split
    · refine Only.bind (op nofun) fun _ => ?_
      refine Only.bind (fileClose readEnd) fun _ => ?_
      refine Only.bind (fileClose writeEnd) fun _ => ?_
      exact Only.bind (setPipe fun pp => .destroyed) fun _ => Only.pure _
    · exact Only.pure _
  unfold Fs.sysPipe
  split
  · exact Only.pure _
  refine Only.bind (of_uses Uses.fileAlloc rfl) fun readEnd => ?_
  refine Only.bind (of_uses Uses.fileAlloc rfl) fun writeEnd => ?_
  split
  · refine Only.bind (op nofun) fun _ => ?_
    refine Only.bind (op nofun) fun _ => ?_
    refine Only.bind getCore fun core => ?_
    split
    · refine Only.bind (fileClose _) fun _ => ?_
      exact Only.bind (fileClose _) fun _ => Only.pure _
    · exact opens _ _ _
  · exact Only.bind (fileClose _) fun _ => Only.pure _
  · exact Only.bind (fileClose _) fun _ => Only.pure _
  · exact Only.pure _

theorem sysent (p : ProcId) (call : Call) : ChangesPipes (Osix.sysent p call : FsM H Answer) := by
  cases call with
  | read fd nbytes => exact Only.bind (read p fd nbytes) fun _ => Only.pure _
  | write fd src => exact (write p fd src).map _
  | «open» filename flags mode => exact (sysOpen p filename flags mode).map _
  | creat filename mode => exact (sysOpen p filename _ mode).map _
  | close fd => exact (close p fd).map _
  | dup fd => exact (of_uses (Uses.dup p fd) rfl).map _
  | dup2 oldFd newFd => exact (dup2 p oldFd newFd).map _
  | pipe fd => exact (sysPipe p fd).map _
  | lseek fd offset whence => exact (of_uses (Uses.lseek p fd offset whence) rfl).map _
  | chdir path => exact (of_uses (Uses.chdir p path) rfl).map _
  | stat path => exact Only.bind (of_uses (Uses.stat p path) rfl) fun _ => Only.pure _
  | fstat fd => exact Only.bind (of_uses (Uses.fstat p fd) rfl) fun _ => Only.pure _
  | ioctl fd request termios =>
      exact Only.bind (of_uses (Uses.ioctl p fd request termios) rfl) fun _ => Only.pure _
  | utime filename times => exact (of_uses (Uses.sysUtime p filename times) rfl).map _
  | unlink filepath => exact (of_uses (Uses.sysUnlink p filepath) rfl).map _
  | mkdir pathname mode => exact (of_uses (Uses.sysMkdir p pathname mode) rfl).map _
  | exec pathname => exact (of_uses (Uses.sysExec p pathname) rfl).map _
  | fork => exact (of_uses (Uses.fork p) rfl).map _
  | exit status => exact Only.bind (exit p status) fun _ => Only.pure _
  | wait => exact (of_uses (Uses.wait p) rfl).map _
  | setuid uid => exact (of_uses (Uses.setId p _) rfl).map _
  | setgid gid => exact (of_uses (Uses.setId p _) rfl).map _

end ChangesPipes

/-! ## Pipes without readers -/

/-- A pipe without readers has not been read or written. -/
def ClearPipes (core : Core) : Prop :=
  ∀ pipe, 0 ≤ (core.pipes pipe).readers ∧ ((core.pipes pipe).readers = 0 →
    (core.pipes pipe).readPos = 0 ∧ (core.pipes pipe).writePos = 0)

/-- Only an operation on pipes changes one. -/
theorem Core.perform_pipes {core core' : Core} {operation : FsOp H}
    (other : operation.kind ≠ .pipes) (happened : (core.perform operation).after = some core') :
    core'.pipes = core.pipes := by
  cases operation with
  | setPipe => exact absurd rfl other
  | ifind dev inodeno =>
      rcases core.ifind_cases dev inodeno with
        ⟨i, -, -, found⟩ | ⟨i, -, -, found⟩ | ⟨i, -, -, found⟩ | ⟨-, -, found⟩ <;>
        simp only [perform, found] at happened <;> cases happened <;> rfl
  | putchar dev char =>
      cases happened
      unfold putchar
      split <;> rfl
  | ilock | iunlock | iunref =>
      simp only [perform] at happened
      split at happened <;> cases happened
      rfl
  | _ =>
      cases happened
      try rfl

theorem Kernel.interrupt_pipes (event : Interrupt) (kernel : Kernel) :
    (interrupt event kernel).core.pipes = kernel.core.pipes := by
  cases event with
  | ttyInput t char =>
      simp only [interrupt, Core.ttyInput]
      split
      · split <;> rfl
      · rfl
  | _ => rfl

theorem ClearPipes.congr {core core' : Core} (clear : ClearPipes core)
    (same : core'.pipes = core.pipes) : ClearPipes core' := by
  unfold ClearPipes
  rw [same]
  exact clear

/-- The change is made to a pipe with readers, or it does not move the pipe's positions. -/
def ServedChange (pp pp' : Pipe) : Prop :=
  pp.readers = 0 → pp' = .zero ∨ pp'.readPos = pp.readPos ∧ pp'.writePos = pp.writePos

theorem ClearPipes.setPipe {core : Core} {pipe : PipeId} {change : Pipe → Pipe}
    (clear : ClearPipes core) (known : PipeChange (core.pipes pipe) (change (core.pipes pipe)))
    (served : ServedChange (core.pipes pipe) (change (core.pipes pipe))) :
    ClearPipes (core.setPipe pipe change) := by
  intro other
  rcases eq_or_ne other pipe with rfl | different
  · simp only [Core.setPipe, Function.update_self]
    unfold ServedChange at served
    rcases clear other with ⟨notNegative, unused⟩
    generalize core.pipes other = pp at known served notNegative unused
    generalize change pp = pp' at known served
    cases known with
    | reader =>
        refine ⟨by simp only; omega, fun noReaders => ?_⟩
        simp only at noReaders
        omega
    | writers count => exact ⟨notNegative, unused⟩
    | moves buffer readPos writePos =>
        refine ⟨notNegative, fun noReaders => ?_⟩
        rcases served noReaders with isZero | same
        · rw [isZero]
          exact ⟨rfl, rfl⟩
        · rw [same.1, same.2]
          exact unused noReaders
    | destroyed => exact ⟨le_refl 0, fun _ => ⟨rfl, rfl⟩⟩
  · simp only [Core.setPipe, Function.update_of_ne different]
    exact clear other

namespace KernelPool

/-- The running process moves the positions of a pipe only if the pipe has readers. -/
def Served (pool : KernelPool) : KernelAct → Prop
  | .go => ∀ pid pipe change, pool.next = some (pid, .setPipe pipe change) →
      ServedChange (pool.shared.core.pipes pipe) (change (pool.shared.core.pipes pipe))
  | _ => True

/-- The operations of a program on pipes, with nothing said about their replies. -/
def pipeSpec : Spec (FsOp BufId) FsOp.Reply Unit where
  before operation post own := ChangesPipe operation ∧ ∀ reply, post reply own
  mono weaker holds := ⟨holds.1, fun reply => weaker reply _ (holds.2 reply)⟩

theorem clear_after {pool : KernelPool} {pid : ProcId} {operation : FsOp BufId} {kernel : Kernel}
    (served : pool.Served .go) (isNext : pool.next = some (pid, operation))
    (clear : ClearPipes pool.shared.core) (known : ChangesPipe operation)
    (happened : (Kernel.handler pid operation pool.shared).after = some kernel) :
    ClearPipes kernel.core := by
  rcases Kernel.handler_core happened with same | performed
  · exact same ▸ clear
  by_cases isPipe : operation.kind = .pipes
  · cases operation with
    | setPipe pipe change =>
        have changed : pool.shared.core.setPipe pipe change = kernel.core :=
          Option.some.inj performed
        rw [← changed]
        exact clear.setPipe (known pipe change rfl _) (served pid pipe change isNext)
    | mark event => cases event <;> cases isPipe
    | stop why => cases performed
    | _ => cases isPipe
  · exact clear.congr (Core.perform_pipes isPipe performed)

/-- Each process changes pipes as the code does, and this keeps them clear. -/
def pipeRule : Rule Kernel.system Served where
  Local := Unit
  spec _ := pipeSpec
  outside := ()
  Final _ := True
  view _ _ := ()
  Inv kernel _ := ClearPipes kernel.core
  Allowed _ := True
  codes pid call := by
    apply (ChangesPipes.sysent pid call).wp (fun _ => True)
    · exact fun known _ kept => ⟨known, fun reply => kept reply _ trivial⟩
    · trivial
    · exact fun _ _ _ => trivial
  resume clear := clear
  finish _ clear := ⟨clear, rfl, fun _ _ => rfl⟩
  env clear := ⟨clear.congr (Kernel.interrupt_pipes _ _), fun _ => rfl⟩
  done served isNext clear follows happened :=
    ⟨follows.2 _, clear_after served isNext clear follows.1 (congrArg Outcome.after happened),
      fun _ _ => rfl⟩
  wait served isNext clear follows happened :=
    ⟨clear_after served isNext clear follows.1 (congrArg Outcome.after happened), fun _ => rfl⟩
  stop _ _ _ _ _ := trivial

end KernelPool

/-! ## Giving back what was taken -/

/-- The fields of a pipe beside its buffer. -/
def Pipe.counters (pp : Pipe) : ℤ × ℤ × BitVec 32 × BitVec 32 :=
  (pp.readers, pp.writers, pp.readPos, pp.writePos)

/-- The tables as far as a process can see them are the same. -/
structure Unchanged (before after : Core) : Prop where
  references : ∀ f, (after.files f).refCount = (before.files f).refCount
  files : ∀ f, (before.files f).refCount ≠ 0 → after.files f = before.files f
  descriptors : ∀ p, (after.procs p).ofile = (before.procs p).ofile
  pipes : ∀ pipe, (after.pipes pipe).counters = (before.pipes pipe).counters

/-- Of the files that were free, `taken` says how many references they have got. -/
def Borrows (before after : Core) (taken : FileId → ℤ) : Prop :=
  ∀ f, after.files f = before.files f ∧ taken f = 0 ∨
    (before.files f).refCount = 0 ∧ (after.files f).refCount = taken f

namespace Borrows

variable {before core core' : Core} {taken : FileId → ℤ} {f : FileId}

theorem refl (core : Core) : Borrows core core fun _ => 0 := fun _ => Or.inl ⟨rfl, rfl⟩

theorem congr (takes : Borrows before core taken) (same : core'.files = core.files) :
    Borrows before core' taken := by
  unfold Borrows
  rw [same]
  exact takes

theorem setFile (takes : Borrows before core taken) {change : File → File}
    (free : (before.files f).refCount = 0) {count : ℤ}
    (isCount : (change (core.files f)).refCount = count) :
    Borrows before (core.setFile f change) (Function.update taken f count) := by
  intro g
  rcases eq_or_ne g f with rfl | other
  · simp only [Core.setFile, Function.update_self]
    exact Or.inr ⟨free, isCount⟩
  · simp only [Core.setFile, Function.update_of_ne other]
    exact takes g

/-- A file that was taken was free before. -/
theorem free (takes : Borrows before core taken) (isTaken : taken f ≠ 0) :
    (before.files f).refCount = 0 := by
  rcases takes f with ⟨-, notTaken⟩ | ⟨free, -⟩
  · exact absurd notTaken isTaken
  · exact free

theorem count (takes : Borrows before core taken) (isTaken : taken f ≠ 0) :
    (core.files f).refCount = taken f := by
  rcases takes f with ⟨-, notTaken⟩ | ⟨-, isCount⟩
  · exact absurd notTaken isTaken
  · exact isCount

/-- A file that is free now was free before. -/
theorem alloc (takes : Borrows before core taken) (isFree : (core.files f).refCount = 0) :
    Borrows before (core.setFile f fun _ => { File.zero with refCount := 1 })
      (Function.update taken f 1) := by
  have wasFree : (before.files f).refCount = 0 := by
    rcases takes f with ⟨same, -⟩ | ⟨free, -⟩
    · rwa [← same]
    · exact free
  have isOne : ({ File.zero with refCount := 1 } : File).refCount = 1 := rfl
  exact takes.setFile wasFree isOne

/-- A change of a file that was taken, beside its references. -/
theorem keep (takes : Borrows before core taken) (isTaken : taken f = 1) {change : File → File}
    (keeps : ∀ file, (change file).refCount = file.refCount) :
    Borrows before (core.setFile f change) taken := by
  have notZero : taken f ≠ 0 := by omega
  have same : (change (core.files f)).refCount = taken f := by rw [keeps, takes.count notZero]
  have changed := takes.setFile (takes.free notZero) same
  rwa [Function.update_eq_self] at changed

theorem closed (takes : Borrows before core taken) (isTaken : taken f = 1)
    (closed : Closed core core' f) : Borrows before core' (Function.update taken f 0) := by
  have notZero : taken f ≠ 0 := by omega
  have gone : ((core.files f).closed).refCount = 0 := by
    simp only [File.closed, takes.count notZero]
    omega
  exact (takes.setFile (takes.free notZero) gone).congr closed.files

/-- With no reference left the files are as they were. -/
theorem unchanged (takes : Borrows before core taken) (none : ∀ f, taken f = 0)
    (descriptors : ∀ p, (core.procs p).ofile = (before.procs p).ofile)
    (pipes : ∀ pipe, (core.pipes pipe).counters = (before.pipes pipe).counters) :
    Unchanged before core where
  references f := by
    rcases takes f with ⟨same, -⟩ | ⟨free, isCount⟩
    · rw [same]
    · rw [isCount, none f, free]
  files f used := by
    rcases takes f with ⟨same, -⟩ | ⟨free, -⟩
    · exact same
    · exact absurd free used
  descriptors := descriptors
  pipes := pipes

end Borrows

/-- The process has taken the descriptors `fds`, which were free. -/
structure Occupies (before after : Core) (p : ProcId) (fds : ℤ → Prop) : Prop where
  others : ∀ q, q ≠ p → (after.procs q).ofile = (before.procs q).ofile
  free : ∀ fd : Fin nfile, fds (fd : ℕ) → (before.procs p).ofile fd = none
  rest : ∀ fd : Fin nfile, ¬fds (fd : ℕ) → (after.procs p).ofile fd = (before.procs p).ofile fd

theorem Occupies.refl (core : Core) (p : ProcId) : Occupies core core p fun _ => False :=
  ⟨fun _ _ => rfl, fun _ taken => taken.elim, fun _ _ => rfl⟩

section

variable {flat : Flat} {before : Core} {p : ProcId}

/-- The rules for what a call does if it returns. -/
abbrev returning : Spec (FsOp FlatBuf) FsOp.Reply Flat :=
  Flat.checks (fun _ _ => True) (fun _ _ => True) fun _ => True

theorem wp_fileFdAlloc {f : FileId} {fds : ℤ → Prop} {post : ℤ → Flat → Prop}
    (occupies : Occupies before flat.core p fds)
    (final : ∀ value flat', flat'.core.files = flat.core.files →
      flat'.core.pipes = flat.core.pipes →
      Occupies before flat'.core p (fun fd => fds fd ∨ fd = value) → post value flat') :
    wp returning (fileFdAlloc p f) post flat := by
  unfold fileFdAlloc
  simp only [wp_bind, Flat.wp_getProc]
  split
  · rename_i slot isFound
    have isFree := List.find?_some isFound
    simp only [decide_eq_true_eq] at isFree
    simp only [wp_bind, Flat.wp_setProc]
    refine final _ _ rfl rfl ⟨fun q other => ?_, fun fd taken => ?_, fun fd notTaken => ?_⟩
    · simp only [Flat.setProc, Core.setProc, Function.update_of_ne other]
      exact occupies.others q other
    · by_cases already : fds (fd : ℕ)
      · exact occupies.free fd already
      · have isSlot : fd = slot := by
          rcases taken with already' | same
          · exact absurd already' already
          · exact Fin.ext (Int.ofNat.inj same)
        rw [← occupies.rest fd already, isSlot]
        exact isFree
    · rw [not_or] at notTaken
      have notSlot : fd ≠ slot := fun same => notTaken.2 (by rw [same])
      simp only [Flat.setProc, Core.setProc, Function.update_self,
        Function.update_of_ne notSlot]
      exact occupies.rest fd notTaken.1
  · refine final _ _ rfl rfl ⟨occupies.others, fun fd taken => ?_, fun fd notTaken => ?_⟩
    · rcases taken with already | isError
      · exact occupies.free fd already
      · have negative : -emfile < 0 := by decide
        omega
    · exact occupies.rest fd fun already => notTaken (Or.inl already)

/-- Clearing the descriptors that were taken. -/
theorem Occupies.cleared {core : Core} {readFd writeFd : ℤ}
    (occupies : Occupies before core p fun fd => (False ∨ fd = readFd) ∨ fd = writeFd)
    (q : ProcId) :
    ((core.setProc p fun old => { old with ofile := fun fd =>
      if (fd : ℤ) = readFd ∨ (fd : ℤ) = writeFd then none else old.ofile fd }).procs q).ofile =
      (before.procs q).ofile := by
  rcases eq_or_ne q p with rfl | other
  · funext fd
    simp only [Core.setProc, Function.update_self]
    split
    · rename_i taken
      rw [occupies.free fd (by simpa using taken)]
    · rename_i notTaken
      exact occupies.rest fd (by simpa using notTaken)
  · simp only [Core.setProc, Function.update_of_ne other]
    exact occupies.others q other

omit before p flat in
/-- Once both files are given back there is no reference left. -/
theorem takenBack {taken : FileId → ℤ} {readEnd writeEnd : FileId}
    (different : readEnd ≠ writeEnd)
    (others : ∀ f, f ≠ readEnd → f ≠ writeEnd → taken f = 0) (f : FileId) :
    Function.update (Function.update taken readEnd 0) writeEnd 0 f = 0 := by
  rcases eq_or_ne f writeEnd with rfl | notWrite
  · rw [Function.update_self]
  rcases eq_or_ne f readEnd with rfl | notRead
  · rw [Function.update_of_ne notWrite, Function.update_self]
  · rw [Function.update_of_ne notWrite, Function.update_of_ne notRead]
    exact others f notRead notWrite

/-- `sys_pipe` on its way out: both ends are closed and the pipe is destroyed. -/
theorem wp_pipeUndo {taken : FileId → ℤ} {readEnd writeEnd : FileId} {pipe : PipeId}
    (takes : Borrows before flat.core taken) (different : readEnd ≠ writeEnd)
    (others : ∀ f, f ≠ readEnd → f ≠ writeEnd → taken f = 0) (readTaken : taken readEnd = 1)
    (writeTaken : taken writeEnd = 1)
    (ends : ∀ f, f = readEnd ∨ f = writeEnd →
      (flat.core.files f).type = .pipe ∧ (flat.core.files f).pipe = some pipe)
    (descriptors : ∀ q, (flat.core.procs q).ofile = (before.procs q).ofile)
    (samePipes : ∀ other, other ≠ pipe → flat.core.pipes other = before.pipes other)
    (noReaders : (before.pipes pipe).readers = 0) (noWriters : (before.pipes pipe).writers = 0)
    (clear : ClearPipes before) :
    wp returning (do
      fileClose readEnd
      fileClose writeEnd
      setPipe pipe fun _ => .zero
      return -emfile) (fun value flat' => value < 0 → Unchanged before flat'.core) flat := by
  simp only [wp_bind]
  refine Flat.wp_fileClose (fun _ _ _ => trivial) (fun _ _ _ => trivial) (fun _ _ => trivial)
    fun flat₁ closed₁ => ?_
  refine Flat.wp_fileClose (fun _ _ _ => trivial) (fun _ _ _ => trivial) (fun _ _ => trivial)
    fun flat₂ closed₂ => ?_
  simp only [Flat.wp_setPipe]
  intro _
  have takes₁ := takes.closed readTaken closed₁
  have takes₂ := takes₁.closed (by rwa [Function.update_of_ne different.symm]) closed₂
  have writeFile : flat₁.core.files writeEnd = flat.core.files writeEnd := by
    rw [closed₁.files, Function.update_of_ne different.symm]
  have beside : ∀ other, other ≠ pipe → flat₂.core.pipes other = before.pipes other := by
    intro other notPipe
    rcases closed₁.pipe (ends readEnd (Or.inl rfl)).1 with ⟨pipe₁, isPipe₁, pipes₁⟩
    rw [(ends readEnd (Or.inl rfl)).2] at isPipe₁
    cases isPipe₁
    have isType : (flat₁.core.files writeEnd).type = .pipe := by
      rw [writeFile, (ends writeEnd (Or.inr rfl)).1]
    rcases closed₂.pipe isType with ⟨pipe₂, isPipe₂, pipes₂⟩
    rw [writeFile, (ends writeEnd (Or.inr rfl)).2] at isPipe₂
    cases isPipe₂
    rw [pipes₂, Function.update_of_ne notPipe, pipes₁, Function.update_of_ne notPipe,
      samePipes other notPipe]
  have after : ∀ other, (flat₂.setPipe pipe fun _ => Pipe.zero).core.pipes other =
      if other = pipe then .zero else before.pipes other := by
    intro other
    by_cases isPipe : other = pipe
    · simp [Flat.setPipe, Core.setPipe, isPipe]
    · simp [Flat.setPipe, Core.setPipe, isPipe, beside other isPipe]
  have unused := (clear pipe).2 noReaders
  refine Borrows.unchanged (takes₂.congr rfl) (takenBack different others) (fun q => ?_)
    fun other => ?_
  · show (flat₂.core.procs q).ofile = _
    rw [closed₂.procs, closed₁.procs]
    exact descriptors q
  · rw [after]
    split
    · rename_i isPipe
      rw [isPipe, Pipe.counters, Pipe.counters, noReaders, noWriters, unused.1, unused.2]
      rfl
    · rfl

/-- `sys_pipe` on its way out without a pipe: both files are closed. -/
theorem wp_filesUndo {taken : FileId → ℤ} {readEnd writeEnd : FileId}
    (takes : Borrows before flat.core taken) (different : readEnd ≠ writeEnd)
    (others : ∀ f, f ≠ readEnd → f ≠ writeEnd → taken f = 0) (readTaken : taken readEnd = 1)
    (writeTaken : taken writeEnd = 1)
    (inodes : ∀ f, f = readEnd ∨ f = writeEnd → (flat.core.files f).type = .inode)
    (procs : flat.core.procs = before.procs) (pipes : flat.core.pipes = before.pipes) :
    wp returning (do
      fileClose readEnd
      fileClose writeEnd
      return -enfile) (fun value flat' => value < 0 → Unchanged before flat'.core) flat := by
  simp only [wp_bind]
  refine Flat.wp_fileClose (fun _ _ _ => trivial) (fun _ _ _ => trivial) (fun _ _ => trivial)
    fun flat₁ closed₁ => ?_
  refine Flat.wp_fileClose (fun _ _ _ => trivial) (fun _ _ _ => trivial) (fun _ _ => trivial)
    fun flat₂ closed₂ => ?_
  intro _
  have takes₁ := takes.closed readTaken closed₁
  have takes₂ := takes₁.closed (by rwa [Function.update_of_ne different.symm]) closed₂
  have isInode : (flat₁.core.files writeEnd).type = .inode := by
    rw [closed₁.files, Function.update_of_ne different.symm, inodes writeEnd (Or.inr rfl)]
  refine takes₂.unchanged (takenBack different others) (fun q => ?_) fun pipe => ?_
  · rw [closed₂.procs, closed₁.procs, procs]
  · rw [closed₂.inode isInode, closed₁.inode (inodes readEnd (Or.inl rfl)), pipes]

theorem wp_pipeOpen {taken : FileId → ℤ} {readEnd writeEnd : FileId} {pipe : PipeId}
    (takes : Borrows before flat.core taken) (different : readEnd ≠ writeEnd)
    (others : ∀ f, f ≠ readEnd → f ≠ writeEnd → taken f = 0) (readTaken : taken readEnd = 1)
    (writeTaken : taken writeEnd = 1) (procs : flat.core.procs = before.procs)
    (pipes : flat.core.pipes = before.pipes)
    (noReaders : (before.pipes pipe).readers = 0) (noWriters : (before.pipes pipe).writers = 0)
    (clear : ClearPipes before) :
    wp returning (pipeOpen p readEnd writeEnd pipe)
      (fun value flat' => value < 0 → Unchanged before flat'.core) flat := by
  unfold pipeOpen
  simp only [wp_bind, Flat.wp_setFile, Flat.wp_setPipe]
  -- the tables once both ends belong to the pipe
  generalize atEnds : ((((flat.setFile readEnd _).setPipe pipe _).setFile writeEnd _).setPipe
    pipe _ : Flat) = flat₁
  have takes₁ : Borrows before flat₁.core taken := by
    subst atEnds
    let change : File → File := fun old => { old with type := .pipe, pipe := some pipe }
    have keeps : ∀ file, (change file).refCount = file.refCount := fun _ => rfl
    exact ((takes.keep readTaken keeps).keep writeTaken keeps).congr rfl
  have ends₁ : ∀ f, f = readEnd ∨ f = writeEnd →
      (flat₁.core.files f).type = .pipe ∧ (flat₁.core.files f).pipe = some pipe := by
    subst atEnds
    rintro f (rfl | rfl)
    · simp [Flat.setPipe, Core.setPipe, Flat.setFile, Core.setFile, different]
    · simp [Flat.setPipe, Core.setPipe, Flat.setFile, Core.setFile]
  have pipes₁ : ∀ other, other ≠ pipe → flat₁.core.pipes other = before.pipes other := by
    intro other notPipe
    subst atEnds
    rw [← pipes]
    simp [Flat.setPipe, Core.setPipe, Flat.setFile, Core.setFile, notPipe]
  have occupies₁ : Occupies before flat₁.core p fun _ => False := by
    subst atEnds
    refine ⟨fun q _ => ?_, fun _ taken => taken.elim, fun fd _ => ?_⟩
    · simp [Flat.setPipe, Core.setPipe, Flat.setFile, Core.setFile, procs]
    · simp [Flat.setPipe, Core.setPipe, Flat.setFile, Core.setFile, procs]
  refine wp_fileFdAlloc occupies₁ fun readFd flat₂ files₂ pipes₂ occupies₂ => ?_
  refine wp_fileFdAlloc occupies₂ fun writeFd flat₃ files₃ pipes₃ occupies₃ => ?_
  split
  · rw [wp_bind, Flat.wp_setProc]
    have files := files₃.trans files₂
    refine wp_pipeUndo (takes₁.congr files) different others readTaken writeTaken ?_
      occupies₃.cleared ?_ noReaders noWriters clear
    · show ∀ f, _ → (flat₃.core.files f).type = .pipe ∧ (flat₃.core.files f).pipe = some pipe
      rwa [files]
    · show ∀ other, _ → flat₃.core.pipes other = before.pipes other
      rwa [pipes₃.trans pipes₂]
  · intro negative
    exact absurd negative (by decide)

theorem wp_pipeFiles (clear : ClearPipes flat.core) :
    wp returning (pipeFiles p) (fun value flat' => value < 0 → Unchanged flat.core flat'.core)
      flat := by
  let new : File := { File.zero with refCount := 1 }
  -- a file that was taken alone is given back
  have alone : ∀ f, (flat.core.files f).refCount = 0 →
      wp returning (do fileClose f; return -enfile)
        (fun value flat' => value < 0 → Unchanged flat.core flat'.core)
        (flat.setFile f fun _ => new) := by
    intro f isFree
    have takes : Borrows flat.core (flat.setFile f fun _ => new).core
        (Function.update (fun _ => 0) f 1) := (Borrows.refl flat.core).alloc isFree
    rw [wp_bind]
    refine Flat.wp_fileClose (fun _ _ _ => trivial) (fun _ _ _ => trivial) (fun _ _ => trivial)
      fun flat₁ closed => ?_
    intro _
    have isInode : ((flat.setFile f fun _ => new).core.files f).type = .inode := by
      simp [Flat.setFile, Core.setFile, new, File.zero]
    refine (takes.closed (Function.update_self f 1 _) closed).unchanged (fun g => ?_) ?_ ?_
    · rw [Function.update_idem]
      rcases eq_or_ne g f with rfl | other
      · rw [Function.update_self]
      · rw [Function.update_of_ne other]
    · intro q
      rw [closed.procs]
      rfl
    · intro pipe
      rw [closed.inode isInode]
      rfl
  unfold pipeFiles
  simp only [wp_bind]
  apply Flat.wp_fileAlloc
  · intro readEnd readFree
    apply Flat.wp_fileAlloc
    · intro writeEnd writeFree
      have takes : Borrows flat.core ((flat.setFile readEnd fun _ => new).setFile writeEnd
          fun _ => new).core (Function.update (Function.update (fun _ => 0) readEnd 1) writeEnd 1) :=
        ((Borrows.refl flat.core).alloc readFree).alloc writeFree
      have different : readEnd ≠ writeEnd := by
        rintro rfl
        simp [Flat.setFile, Core.setFile] at writeFree
      have readTaken : Function.update (Function.update (fun _ : FileId => (0 : ℤ)) readEnd 1)
          writeEnd 1 readEnd = 1 := by
        rw [Function.update_of_ne different, Function.update_self]
      have writeTaken : Function.update (Function.update (fun _ : FileId => (0 : ℤ)) readEnd 1)
          writeEnd 1 writeEnd = 1 := Function.update_self _ _ _
      have others : ∀ f, f ≠ readEnd → f ≠ writeEnd →
          Function.update (Function.update (fun _ : FileId => (0 : ℤ)) readEnd 1)
            writeEnd 1 f = 0 := by
        intro f notRead notWrite
        rw [Function.update_of_ne notWrite, Function.update_of_ne notRead]
      let flagged (flags : ℕ) : File → File := fun old => { old with flags := flags }
      have keeps : ∀ flags file, (flagged flags file).refCount = file.refCount := fun _ _ => rfl
      have takes' := (takes.keep readTaken (keeps oRdonly)).keep writeTaken (keeps oWronly)
      generalize Function.update (Function.update (fun _ : FileId => (0 : ℤ)) readEnd 1)
        writeEnd 1 = taken at takes' readTaken writeTaken others
      simp only [wp_bind, Flat.wp_setFile, Flat.wp_getCore]
      split
      · refine wp_filesUndo takes' different others readTaken writeTaken ?_ rfl rfl
        rintro f (rfl | rfl)
        · simp [Core.setFile, Flat.setFile, File.zero, different]
        · simp [Core.setFile, Flat.setFile, File.zero, different.symm]
      · rename_i pipe isFound
        have isFree := List.find?_some isFound
        have noEnds := of_decide_eq_true isFree
        exact wp_pipeOpen takes' different others readTaken writeTaken rfl rfl noEnds.1 noEnds.2
          clear
    · exact alone readEnd readFree
  · apply Flat.wp_fileAlloc
    · intro writeEnd writeFree
      exact alone writeEnd writeFree
    · intro _
      exact (Borrows.refl flat.core).unchanged (fun _ => rfl) (fun _ => rfl) fun _ => rfl

/-- A call of `sys_pipe` that fails changes nothing if unused pipes are clear. -/
theorem wp_sysPipe (clear : ClearPipes flat.core) (fd : ℤ) :
    wp returning (Fs.sysPipe p fd)
      (fun value flat' => value < 0 → Unchanged flat.core flat'.core) flat := by
  unfold Fs.sysPipe
  split
  · intro _
    exact (Borrows.refl flat.core).unchanged (fun _ => rfl) (fun _ => rfl) fun _ => rfl
  · exact wp_pipeFiles clear

end

/-- Every call of `sys_pipe` that returns an error has left the tables as they were. -/
def PipeAtomic (core : Core) : Prop :=
  ∀ (p : ProcId) (fd : ℤ) (disk : Dev → ℕ → Block) (value : ℤ) (flat' : Flat),
    exec Flat.handler (Fs.sysPipe p fd) ⟨core, disk⟩ = .returned value flat' → value < 0 →
      Unchanged core flat'.core

/--
In every interleaving of system calls in which no process moves the positions of a pipe
without readers, `sys_pipe` is atomic at any time.
-/
theorem pipe_atomic {core : Core} {disk : Dev → ℕ → Block} {online : Dev → Bool}
    {pool : KernelPool} (cleared : ∀ pipe, core.pipes pipe = .zero)
    (reached : Reach KernelPool.step KernelPool.Served (.idle (.boot core disk online)) pool)
    (notStopped : pool.stopped = none) : PipeAtomic pool.shared.core := by
  have start : KernelPool.pipeRule.Inv (.boot core disk online) none := by
    intro pipe
    rw [show (Kernel.boot core disk online).core.pipes pipe = .zero from cleared pipe]
    exact ⟨le_refl 0, fun _ => ⟨rfl, rfl⟩⟩
  have good := KernelPool.pipeRule.reach start (fun _ => rfl) reached
  unfold Rule.Good at good
  rw [notStopped] at good
  intro p fd disk value flat' returned failed
  have clear : ClearPipes pool.shared.core := good.1
  have ends := (exec_checked (@wp_sysPipe ⟨pool.shared.core, disk⟩ p clear fd)).2
  rw [returned] at ends
  exact ends failed

namespace KernelPool

/-- A computable form of `Served`. -/
def checkServed (pool : KernelPool) : KernelAct → Bool
  | .go =>
      match pool.next with
      | some (_, .setPipe pipe change) =>
          let pp := pool.shared.core.pipes pipe
          decide (pp.readers ≠ 0) ||
            decide ((change pp).readPos = pp.readPos ∧ (change pp).writePos = pp.writePos)
      | _ => true
  | _ => true

theorem served_of_check (pool : KernelPool) (act : KernelAct)
    (checked : pool.checkServed act = true) : pool.Served act := by
  cases act with
  | go =>
      intro pid pipe change isNext noReaders
      simp only [checkServed, isNext, Bool.or_eq_true, decide_eq_true_eq] at checked
      rcases checked with hasReaders | same
      · exact absurd noReaders hasReaders
      · exact Or.inr same
  | _ => trivial

/-- Process 0 makes a pipe and writes a byte to it. -/
def writeToPipe : List KernelAct := List.flatten
  [[.start 0 (.pipe userText)], List.replicate 16 .go, [.start 0 (.write 1 [65])],
    List.replicate 7 .go]

theorem pipe_atomic_writeToPipe :
    ∃ pool, Reach step Served (.idle .small) pool ∧ (pool.shared.core.pipes 0).writePos = 1 ∧
      PipeAtomic pool.shared.core := by
  have observed : (runChecked step checkServed (.idle .small) writeToPipe).any (fun pool =>
      pool.stopped.isNone && decide ((pool.shared.core.pipes 0).writePos = 1)) = true := by
    decide +kernel
  rcases reach_of_observedChecked served_of_check observed with ⟨pool, reached, seen⟩
  rw [Bool.and_eq_true, Option.isNone_iff_eq_none, decide_eq_true_eq] at seen
  exact ⟨pool, reached, seen.2, pipe_atomic (fun _ => rfl) reached seen.1⟩

/--
Process 0 opens `a`, process 1 fills its descriptors. Process 0 unlinks `a` and duplicates
its descriptor to itself, which puts it to sleep in the close of its file entry. Process 1
takes the entry for a pipe, fails and leaves it with a pipe that does not exist. Process 0
goes on with this entry and writes to it.
-/
def writeToNoPipe : List KernelAct := List.flatten
  [[.start 0 (.open [97] 0 0)], List.replicate 18 .go, [.env (.readIntr 0), .resume 0],
    List.replicate 11 .go, [.env (.readIntr 1), .resume 0], List.replicate 15 .go,
    [.start 1 (.open [46] 0 0)], List.replicate 36 .go,
    (List.replicate 31 (.start 1 (.dup 0) :: List.replicate 6 .go)).flatten,
    [.start 0 (.unlink [97])], List.replicate 86 .go,
    [.start 0 (.dup2 0 0)], List.replicate 15 .go,
    [.start 1 (.pipe userText)], List.replicate 25 .go, [.env (.readIntr 2), .resume 0],
    List.replicate 17 .go, [.env (.readIntr 1), .resume 0], List.replicate 10 .go,
    [.env (.readIntr 3), .resume 0], List.replicate 8 .go, [.env (.readIntr 1), .resume 0],
    List.replicate 14 .go, [.start 0 (.write 0 [65])], List.replicate 7 .go]

/-- A failed `sys_pipe` of process 1 moves the write position of pipe 0. -/
def pipeMoves (core : Core) : Bool :=
  match exec Flat.handler (Fs.sysPipe 1 userText) ⟨core, fun _ _ _ => 0⟩ with
  | .returned value flat' =>
      decide (value < 0) && decide ((flat'.core.pipes 0).writePos ≠ (core.pipes 0).writePos)
  | _ => false

theorem not_pipeAtomic_of_moves {core : Core} (moves : pipeMoves core = true) :
    ¬PipeAtomic core := by
  intro atomic
  unfold pipeMoves at moves
  split at moves
  · rename_i value flat' returned
    rw [Bool.and_eq_true, decide_eq_true_eq, decide_eq_true_eq] at moves
    have same := (atomic _ _ _ _ _ returned moves.1).pipes 0
    exact moves.2 (congrArg (fun counters => counters.2.2.2) same)
  · cases moves

theorem not_pipe_atomic :
    (∀ pipe, smallCore.pipes pipe = .zero) ∧ ∃ pool, Reach step Always (.idle .small) pool ∧
      pool.stopped = none ∧ ¬PipeAtomic pool.shared.core := by
  refine ⟨fun _ => rfl, ?_⟩
  have observed : (run step (.idle .small) writeToNoPipe).any (fun pool =>
      pool.stopped.isNone && pipeMoves pool.shared.core) = true := by
    decide +kernel
  rcases reach_of_observed observed with ⟨pool, reached, seen⟩
  rw [Bool.and_eq_true, Option.isNone_iff_eq_none] at seen
  exact ⟨pool, reached, seen.1, not_pipeAtomic_of_moves seen.2⟩

end KernelPool

end Osix
