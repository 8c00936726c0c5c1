import Osix.Fs.Flat
import Osix.Fs.Footprint
import Osix.Lib.Counting
import Mathlib.Data.Fintype.Prod

/-!
# Descriptors

What the calls that take a descriptor do to the tables of files, pipes and processes. Most
of the work below them leaves these tables alone (`Flat.wp_of_below`), so that a call is
described by the few operations on them.

`dup2` closes the file at the new descriptor before it duplicates the old one. When both
are the same entry and nothing else refers to it, the close ends the file that is to be
duplicated (`dup2_duplicates_iff`).
-/

namespace Osix

open Program Fs

namespace Flat

/-- The tables of files, pipes and processes are the same. -/
structure SameTables (flat flat' : Flat) : Prop where
  files : flat'.core.files = flat.core.files
  pipes : flat'.core.pipes = flat.core.pipes
  procs : flat'.core.procs = flat.core.procs

namespace SameTables

theorem refl (flat : Flat) : SameTables flat flat := ⟨rfl, rfl, rfl⟩

theorem trans {flat flat' flat'' : Flat} (first : SameTables flat flat')
    (second : SameTables flat' flat'') : SameTables flat flat'' where
  files := second.files.trans first.files
  pipes := second.pipes.trans first.pipes
  procs := second.procs.trans first.procs

end SameTables

/-- An operation of another kind leaves the tables alone. -/
theorem handler_sameTables {operation : FsOp FlatBuf} {flat flat' : Flat}
    (notFiles : operation.kind ≠ .files) (notPipes : operation.kind ≠ .pipes)
    (happened : (handler operation flat).after = some flat') : SameTables flat flat' := by
  cases operation with
  | setFile | setProc => exact absurd rfl notFiles
  | setPipe => exact absurd rfl notPipes
  | ifind dev inodeno =>
      rcases flat.core.ifind_cases dev inodeno with
        ⟨i, -, -, found⟩ | ⟨i, -, -, found⟩ | ⟨i, -, -, found⟩ | ⟨-, -, found⟩ <;>
        simp only [handler, lift, Core.perform, found, Outcome.after, Option.some.injEq,
          reduceCtorEq] at happened <;>
        subst happened <;> exact ⟨rfl, rfl, rfl⟩
  | putchar dev char =>
      simp only [handler, lift, Core.perform, Outcome.after, Option.some.injEq] at happened
      subst happened
      unfold Core.putchar
      split <;> exact ⟨rfl, rfl, rfl⟩
  | ilock | iunlock | iunref =>
      simp only [handler, Core.perform] at happened
      split at happened <;> cases happened
      exact ⟨rfl, rfl, rfl⟩
  | _ =>
      cases happened
      try exact ⟨rfl, rfl, rfl⟩

section

variable {must : Event → Flat → Prop} {allowed : Stop → Flat → Prop} {sleeps : Flat → Prop}
  {flat : Flat} {α : Type}

/-- A program that does not work on the tables leaves them alone, however it ends. -/
theorem wp_of_below {prog : FsM FlatBuf α} {post : α → Flat → Prop} (below : BelowTables prog)
    (marks : ∀ event flat', (FsOp.mark event : FsOp FlatBuf).kind ≠ .files → must event flat')
    (stops : ∀ why flat', SameTables flat flat' → allowed why flat')
    (waits : ∀ flat', SameTables flat flat' → sleeps flat')
    (final : ∀ value flat', SameTables flat flat' → post value flat') :
    wp (checks must allowed sleeps) prog post flat := by
  refine below.wp (SameTables flat) ?_ (SameTables.refl flat) final
  intro operation post' flat₁ isKind same kept
  have notFiles : operation.kind ≠ .files := by
    intro isFiles
    simp [isFiles] at isKind
  have notPipes : operation.kind ≠ .pipes := by
    intro isPipes
    simp [isPipes] at isKind
  refine ⟨?_, ?_⟩
  · intro event isMark
    subst isMark
    exact marks event flat₁ notFiles
  · cases happened : handler operation flat₁ with
    | done reply flat' =>
        refine kept reply flat' (same.trans (handler_sameTables notFiles notPipes ?_))
        rw [happened]
        rfl
    | wait flat' =>
        refine waits flat' (same.trans (handler_sameTables notFiles notPipes ?_))
        rw [happened]
        rfl
    | stop why => exact stops why flat₁ same

/-- A program that does not work on the tables leaves them alone when it returns. -/
theorem sameTables_of_returned {flat' : Flat} {prog : FsM FlatBuf α} {value : α}
    (below : BelowTables prog) (returned : exec handler prog flat = .returned value flat') :
    SameTables flat flat' := by
  have judged : wp (checks (fun _ _ => True) (fun _ _ => True) fun _ => True) prog
      (fun _ next => SameTables flat next) flat :=
    wp_of_below below (fun _ _ _ => trivial) (fun _ _ _ => trivial) (fun _ _ => trivial)
      fun _ _ same => same
  have ends := (exec_checked judged).2
  rw [returned] at ends
  exact ends

/-- The tables are the same but for the pointer `*inodep`. -/
structure SameBut (inodep : Inodep) (flat flat' : Flat) : Prop where
  others : ∀ f, inodep ≠ .file f → flat'.core.files f = flat.core.files f
  entry : ∀ f, flat'.core.files f =
    { flat.core.files f with inode := (flat'.core.files f).inode }
  pipes : flat'.core.pipes = flat.core.pipes
  procs : flat'.core.procs = flat.core.procs

namespace SameBut

variable {inodep : Inodep} {flat flat' flat'' : Flat}

theorem of_same (same : SameTables flat flat') : SameBut inodep flat flat' where
  others f _ := congrFun same.files f
  entry f := by rw [same.files]
  pipes := same.pipes
  procs := same.procs

theorem trans (first : SameBut inodep flat flat') (second : SameBut inodep flat' flat'') :
    SameBut inodep flat flat'' where
  others f other := (second.others f other).trans (first.others f other)
  entry f := by rw [second.entry f, first.entry f]
  pipes := second.pipes.trans first.pipes
  procs := second.procs.trans first.procs

theorem setFile (flat : Flat) (f : FileId) (i : InodeId) :
    SameBut (.file f) flat (flat.setFile f fun old => { old with inode := some i }) where
  others g other := by
    have different : g ≠ f := by
      rintro rfl
      exact other rfl
    exact Function.update_of_ne different ..
  entry g := by
    rcases eq_or_ne g f with rfl | different
    · simp [Flat.setFile, Core.setFile]
    · simp [Flat.setFile, Core.setFile, different]
  pipes := rfl
  procs := rfl

end SameBut

/-- A program that only stores `*inodep` leaves the rest of the tables alone when it returns. -/
theorem sameBut_of_returned {inodep : Inodep} {flat' : Flat} {prog : FsM FlatBuf α} {value : α}
    (into : Into inodep prog) (returned : exec handler prog flat = .returned value flat') :
    SameBut inodep flat flat' := by
  refine into.returned (SameBut inodep flat) ?_ (.of_same (.refl flat)) returned
  intro operation reply flat₁ flat₂ allowed same happened
  rcases allowed with isBelow | ⟨f, i, rfl, rfl⟩
  · refine same.trans (.of_same (handler_sameTables ?_ ?_ (by rw [happened]; rfl)))
    · intro isFiles
      simp [isFiles] at isBelow
    · intro isPipes
      simp [isPipes] at isBelow
  · cases happened
    exact same.trans (.setFile flat₁ f i)

end

section

variable {spec : Spec (FsOp FlatBuf) FsOp.Reply Flat} {allowed : Stop → Flat → Prop}
  [judges : Judges spec allowed] {flat : Flat}

include judges

theorem wp_fileAlloc {post : Option FileId → Flat → Prop}
    (found : ∀ f, (flat.core.files f).refCount = 0 →
      post (some f) (flat.setFile f fun _ => { File.zero with refCount := 1 }))
    (full : post none flat) : wp spec fileAlloc post flat := by
  unfold fileAlloc
  simp only [wp_bind, Flat.wp_getCore]
  split
  · rename_i f isFound
    have isFree := List.find?_some isFound
    simp only [wp_bind, Flat.wp_setFile]
    exact found f (by simpa using isFree)
  · exact full

end

end Flat

/-! ## Closing a file -/

/-- A pipe after `pipe_close` of one of its files, which was the last reference if `last`. -/
def Pipe.closeEnd (pp : Pipe) (last : Prop) [Decidable last] (flags : ℕ) : Pipe :=
  let left :=
    if last ∧ flags &&& oWronly ≠ 0 then { pp with writers := pp.writers - 1 } else pp
  if left.readers = 0 ∧ left.writers = 0 then .zero else left

/-- A file entry after `file_close`. -/
def File.closed (file : File) : File where
  flags := file.flags
  refCount := file.refCount - 1
  inode := if file.type = .inode ∧ file.refCount = 1 then none else file.inode
  pipe := file.pipe
  offset := file.offset
  type := file.type

/-- What `file_close` does to the tables. -/
structure Closed (before after : Core) (f : FileId) : Prop where
  procs : after.procs = before.procs
  files : after.files = Function.update before.files f (before.files f).closed
  inode : (before.files f).type = .inode → after.pipes = before.pipes
  pipe : (before.files f).type = .pipe → ∃ pipe, (before.files f).pipe = some pipe ∧
    after.pipes = Function.update before.pipes pipe
      ((before.pipes pipe).closeEnd ((before.files f).refCount = 1) (before.files f).flags)

namespace Flat

section

variable {must : Event → Flat → Prop} {allowed : Stop → Flat → Prop} {sleeps : Flat → Prop}
  {flat : Flat} {f : FileId} {post : Unit → Flat → Prop}

theorem wp_inodeFileClose (isInode : (flat.core.files f).type = .inode)
    (marks : ∀ event flat', (FsOp.mark event : FsOp FlatBuf).kind ≠ .files → must event flat')
    (stops : ∀ why flat', flat'.core.procs = flat.core.procs → allowed why flat')
    (waits : ∀ flat', flat'.core.procs = flat.core.procs → sleeps flat')
    (final : ∀ flat', Closed flat.core flat'.core f → post () flat') :
    wp (checks must allowed sleeps) (inodeFileClose f) post flat := by
  unfold inodeFileClose
  simp only [wp_bind, wp_getFile]
  split
  · simpa using stops _ flat rfl
  simp only [wp_bind, wp_setFile, wp_when]
  have closes : ∀ {flat' : Flat}, flat'.core.procs = flat.core.procs →
      flat'.core.pipes = flat.core.pipes →
      flat'.core.files = Function.update flat.core.files f (flat.core.files f).closed →
      post () flat' := by
    intro flat' procs pipes files
    refine final flat' ⟨procs, files, fun _ => pipes, fun isPipe => ?_⟩
    rw [isInode] at isPipe
    cases isPipe
  split
  · rename_i isLast
    have isOne : (flat.core.files f).refCount = 1 := by omega
    cases hasInode : (flat.core.files f).inode with
    | none =>
        refine closes rfl rfl (congrArg (Function.update flat.core.files f) ?_)
        simp [File.closed, isOne, hasInode]
    | some i =>
        simp only [wp_whenSome_some, wp_bind, wp_setFile]
        refine wp_of_below (Uses.iput i).below marks (fun why flat' same => ?_)
          (fun flat' same => ?_) fun _ flat' same => ?_
        · exact stops why flat' same.procs
        · exact waits flat' same.procs
        · refine closes same.procs same.pipes ?_
          simp only [setFile, Core.setFile, same.files, Function.update_idem,
            Function.update_self]
          exact congrArg (Function.update flat.core.files f) (by simp [File.closed, isInode, isOne])
  · rename_i notLast
    refine closes rfl rfl (congrArg (Function.update flat.core.files f) ?_)
    have notOne : (flat.core.files f).refCount ≠ 1 := by omega
    simp [File.closed, notOne]

theorem wp_pipeClose (isPipe : (flat.core.files f).type = .pipe)
    (stops : ∀ why flat', flat'.core.procs = flat.core.procs → allowed why flat')
    (final : ∀ flat', Closed flat.core flat'.core f → post () flat') :
    wp (checks must allowed sleeps) (pipeClose f) post flat := by
  unfold pipeClose
  simp only [wp_bind, wp_getFile, isPipe]
  split
  · rename_i pipe _ hasPipe
    simp only [wp_bind, wp_setFile, wp_when, wp_setPipe, wp_getCore, oRdonly, Nat.and_zero,
      ne_eq, not_true_eq_false, if_false]
    -- `left` is the pipe once the count of its ends has been taken down
    have settles : ∀ {flat₁ : Flat} (left : Pipe),
        left = (if (flat.core.files f).refCount = 1 ∧ (flat.core.files f).flags &&& oWronly ≠ 0
          then { flat.core.pipes pipe with writers := (flat.core.pipes pipe).writers - 1 }
          else flat.core.pipes pipe) →
        flat₁.core.procs = flat.core.procs →
        flat₁.core.files = Function.update flat.core.files f (flat.core.files f).closed →
        flat₁.core.pipes = Function.update flat.core.pipes pipe left →
        if (flat₁.core.pipes pipe).readers = 0 ∧ (flat₁.core.pipes pipe).writers = 0
          then post () (flat₁.setPipe pipe fun _ => .zero) else post () flat₁ := by
      intro flat₁ left isLeft procs files pipes
      have closes : ∀ flat', flat'.core.procs = flat.core.procs →
          flat'.core.files = Function.update flat.core.files f (flat.core.files f).closed →
          flat'.core.pipes = Function.update flat.core.pipes pipe
            (if left.readers = 0 ∧ left.writers = 0 then .zero else left) → post () flat' := by
        intro flat' procs files pipes
        refine final flat' ⟨procs, files, fun isInode => ?_, fun _ => ⟨pipe, hasPipe, ?_⟩⟩
        · rw [isPipe] at isInode
          cases isInode
        · rw [pipes, isLeft]
          rfl
      simp only [pipes, Function.update_self]
      split
      · rename_i noEnds
        refine closes _ procs files ?_
        simp only [setPipe, Core.setPipe, pipes, Function.update_idem, if_pos noEnds]
      · rename_i hasEnds
        refine closes _ procs files ?_
        rw [pipes, if_neg hasEnds]
    have isClosed : { flat.core.files f with refCount := (flat.core.files f).refCount - 1 } =
        (flat.core.files f).closed := by
      simp [File.closed, isPipe]
    have files := congrArg (Function.update flat.core.files f) isClosed
    split
    · rename_i isLast
      have isOne : (flat.core.files f).refCount = 1 := by omega
      split
      · rename_i isWriter
        refine settles _ ?_ rfl files rfl
        rw [if_pos ⟨isOne, isWriter⟩]
        rfl
      · rename_i notWriter
        refine settles _ ?_ rfl files (Function.update_eq_self _ _).symm
        exact (if_neg fun both => notWriter both.2).symm
    · rename_i notLast
      refine settles _ ?_ rfl files (Function.update_eq_self _ _).symm
      exact (if_neg fun both => notLast (by omega)).symm
  · simpa using stops _ flat rfl

theorem wp_fileClose
    (marks : ∀ event flat', (FsOp.mark event : FsOp FlatBuf).kind ≠ .files → must event flat')
    (stops : ∀ why flat', flat'.core.procs = flat.core.procs → allowed why flat')
    (waits : ∀ flat', flat'.core.procs = flat.core.procs → sleeps flat')
    (final : ∀ flat', Closed flat.core flat'.core f → post () flat') :
    wp (checks must allowed sleeps) (fileClose f) post flat := by
  unfold fileClose
  simp only [wp_bind, wp_getFile]
  cases isType : (flat.core.files f).type with
  | pipe => exact wp_pipeClose isType stops final
  | inode => exact wp_inodeFileClose isType marks stops waits final

end

end Flat

/-! ## Looking up a descriptor -/

@[simp]
theorem Proc.descriptor_natCast (proc : Proc) (fd : Fin nfile) :
    proc.descriptor (fd : ℕ) = proc.ofile fd := by
  simp [descriptor]

theorem Proc.exists_of_descriptor {proc : Proc} {fd : ℤ} {f : FileId}
    (isOpen : proc.descriptor fd = some f) :
    ∃ slot : Fin nfile, fd = (slot : ℕ) ∧ proc.ofile slot = some f := by
  unfold descriptor at isOpen
  split at isOpen
  · rename_i inRange
    split at isOpen
    · exact ⟨⟨fd.toNat, inRange⟩, by simp; omega, isOpen⟩
    · cases isOpen
  · cases isOpen

namespace Flat

section

variable {must : Event → Flat → Prop} {allowed : Stop → Flat → Prop} {sleeps : Flat → Prop}
  {flat : Flat} {p : ProcId}

theorem wp_looseOpenFile (fd : ℤ) (post : Slot → Flat → Prop) :
    wp (checks must allowed sleeps) (looseOpenFile p fd) post flat ↔
      if fd < 0 ∨ nfile < fd then post .null flat
      else must (.slot fd) flat ∧ post ((flat.core.procs p).looseDescriptor fd) flat := by
  unfold looseOpenFile
  split <;> simp

end

end Flat

/-! ## `dup2` -/

/-- The descriptors of all processes as one table. -/
def Core.ofiles (core : Core) : ProcId × Fin nfile → Option FileId :=
  fun (p, fd) => (core.procs p).ofile fd

/--
What `dup2(old_fd, new_fd)` is to do, `f` being the file entry at `old_fd`. The pipe of `f`
may change if another entry of it was at `new_fd`, as that entry is closed.
-/
structure Duplicates (before after : Core) (p : ProcId) (oldFd newFd : ℤ) (f : FileId) :
    Prop where
  source : (after.procs p).descriptor oldFd = some f
  target : (after.procs p).descriptor newFd = some f
  inode : (after.files f).inode = (before.files f).inode
  pipe : (after.files f).pipe = (before.files f).pipe
  offset : (after.files f).offset = (before.files f).offset
  samePipe : ∀ pipe, (before.files f).pipe = some pipe →
    (∀ g, (before.procs p).descriptor newFd = some g → g ≠ f →
      (before.files g).pipe ≠ some pipe) → after.pipes pipe = before.pipes pipe
  references : ∀ g, (after.files g).refCount = (before.files g).refCount -
    Counting.share ((before.procs p).descriptor newFd) g + Counting.share (some f) g
  counts : (before.files f).refCount = Counting.count before.ofiles f →
    (after.files f).refCount = Counting.count after.ofiles f
  others : ∀ (q : ProcId) (fd : Fin nfile), (q, ((fd : ℕ) : ℤ)) ≠ (p, newFd) →
    (after.procs q).ofile fd = (before.procs q).ofile fd

/-- Closing the file entry `f` once changes what it stands for. -/
def ClosingEnds (core : Core) (f : FileId) : Prop :=
  match (core.files f).type with
  | .inode => (core.files f).refCount = 1 ∧ (core.files f).inode ≠ none
  | .pipe => ∃ pipe, (core.files f).pipe = some pipe ∧
      ((core.files f).refCount = 1 ∧ (core.files f).flags &&& oWronly ≠ 0 ∨
        (core.pipes pipe).readers = 0 ∧ (core.pipes pipe).writers = 0 ∧
          core.pipes pipe ≠ .zero)

theorem Pipe.closeEnd_eq_self_iff (pp : Pipe) (last : Prop) [Decidable last] (flags : ℕ) :
    pp.closeEnd last flags = pp ↔
      ¬(last ∧ flags &&& oWronly ≠ 0 ∨ pp.readers = 0 ∧ pp.writers = 0 ∧ pp ≠ .zero) := by
  unfold closeEnd
  by_cases drops : last ∧ flags &&& oWronly ≠ 0
  · simp only [if_pos drops]
    refine iff_of_false ?_ fun kept => kept (Or.inl drops)
    split
    · rename_i noEnds
      intro isZero
      have isOne : pp.writers - 1 = 0 := noEnds.2
      rw [← isZero] at isOne
      simp [zero] at isOne
    · intro same
      have sameWriters := congrArg Pipe.writers same
      simp at sameWriters
  · simp only [if_neg drops]
    split
    · rename_i noEnds
      rw [eq_comm, not_or, and_iff_right drops]
      simp [noEnds]
    · rename_i hasEnds
      refine iff_of_true rfl ?_
      rintro (both | ⟨noReaders, noWriters, -⟩)
      · exact drops both
      · exact hasEnds ⟨noReaders, noWriters⟩

/-- The tables after `file_dup` and the store of `dup2`. -/
def Core.dupTo (core : Core) (p : ProcId) (f : FileId) (newFd : ℤ) : Core :=
  (core.setFile f fun old => { old with refCount := old.refCount + 1 }).setProc p fun old =>
    { old with ofile := fun fd => if (fd : ℤ) = newFd then some f else old.ofile fd }

section

variable {before middle : Core} {p : ProcId} {source target : Fin nfile} {f g : FileId}

theorem ofiles_dupTo (procs : middle.procs = before.procs) :
    (middle.dupTo p f (target : ℕ)).ofiles =
      Function.update before.ofiles (p, target) (some f) := by
  funext ⟨q, fd⟩
  simp only [Core.ofiles, Core.dupTo, Core.setProc, Core.setFile, procs]
  rcases eq_or_ne q p with rfl | otherProc
  · rcases eq_or_ne fd target with rfl | otherFd
    · simp
    · have otherNat : (fd : ℕ) ≠ target := fun same => otherFd (Fin.ext same)
      simp [otherFd, otherNat, Core.ofiles]
  · simp [otherProc, Core.ofiles]

theorem files_dupTo (h : FileId) :
    (middle.dupTo p f (target : ℕ)).files h = { middle.files h with
      refCount := (middle.files h).refCount + Counting.share (some f) h } := by
  simp only [Core.dupTo, Core.setProc, Core.setFile]
  rcases eq_or_ne h f with rfl | other
  · simp
  · simp [other, Counting.share_of_ne other.symm]

/-- The law of `dup2`, given what closing the file at the new descriptor came to. -/
theorem duplicates_dupTo_iff (isOpen : (before.procs p).ofile source = some f)
    (procs : middle.procs = before.procs)
    (references : ∀ h, (middle.files h).refCount = (before.files h).refCount -
      Counting.share ((before.procs p).ofile target) h) :
    Duplicates before (middle.dupTo p f (target : ℕ)) p (source : ℕ) (target : ℕ) f ↔
      (middle.files f).inode = (before.files f).inode ∧
      (middle.files f).pipe = (before.files f).pipe ∧
      (middle.files f).offset = (before.files f).offset ∧
      ∀ pipe, (before.files f).pipe = some pipe →
        (∀ g, (before.procs p).ofile target = some g → g ≠ f →
          (before.files g).pipe ≠ some pipe) → middle.pipes pipe = before.pipes pipe := by
  have entries : ∀ q fd, ((middle.dupTo p f (target : ℕ)).procs q).ofile fd =
      Function.update before.ofiles (p, target) (some f) (q, fd) := by
    intro q fd
    rw [← ofiles_dupTo procs]
    rfl
  constructor
  · intro law
    refine ⟨?_, ?_, ?_, ?_⟩
    · simpa [files_dupTo] using law.inode
    · simpa [files_dupTo] using law.pipe
    · simpa [files_dupTo] using law.offset
    · intro pipe isPipe apart
      exact law.samePipe pipe isPipe (by simpa using apart)
  · rintro ⟨inode, pipe, offset, samePipe⟩
    have counted : ∀ h, ((middle.dupTo p f (target : ℕ)).files h).refCount =
        (before.files h).refCount - Counting.share ((before.procs p).ofile target) h +
          Counting.share (some f) h := by
      intro h
      rw [files_dupTo, references]
    refine ⟨?_, ?_, ?_, ?_, ?_, ?_, ?_, ?_, ?_⟩
    · rw [Proc.descriptor_natCast, entries]
      rcases eq_or_ne source target with rfl | different
      · simp
      · rw [Function.update_of_ne (by simpa using different)]
        exact isOpen
    · rw [Proc.descriptor_natCast, entries, Function.update_self]
    · simpa [files_dupTo] using inode
    · simpa [files_dupTo] using pipe
    · simpa [files_dupTo] using offset
    · intro pipe isPipe apart
      exact samePipe pipe isPipe (by simpa using apart)
    · simpa using counted
    · intro before
      rw [counted, before, ofiles_dupTo procs, Counting.count_update]
      rfl
    · intro q fd other
      rw [entries, Function.update_of_ne]
      · rfl
      · rintro ⟨rfl, rfl⟩
        exact other rfl

theorem duplicates_of_free (isOpen : (before.procs p).ofile source = some f)
    (isFree : (before.procs p).ofile target = none) :
    Duplicates before (before.dupTo p f (target : ℕ)) p (source : ℕ) (target : ℕ) f := by
  refine (duplicates_dupTo_iff isOpen rfl fun h => ?_).mpr ⟨rfl, rfl, rfl, fun _ _ _ => rfl⟩
  rw [isFree, Counting.share_none, sub_zero]

theorem Closed.references (closed : Closed before middle g)
    (isTarget : (before.procs p).ofile target = some g) (h : FileId) :
    (middle.files h).refCount = (before.files h).refCount -
      Counting.share ((before.procs p).ofile target) h := by
  rw [isTarget, closed.files]
  rcases eq_or_ne h g with rfl | other
  · simp [File.closed]
  · simp [other, Counting.share_of_ne other.symm]

theorem duplicates_of_other (isOpen : (before.procs p).ofile source = some f)
    (isTarget : (before.procs p).ofile target = some g) (closed : Closed before middle g)
    (other : g ≠ f) :
    Duplicates before (middle.dupTo p f (target : ℕ)) p (source : ℕ) (target : ℕ) f := by
  refine (duplicates_dupTo_iff isOpen closed.procs (closed.references isTarget)).mpr ?_
  have sameFile : middle.files f = before.files f := by
    rw [closed.files, Function.update_of_ne other.symm]
  rw [sameFile]
  refine ⟨rfl, rfl, rfl, fun pipe _ apart => ?_⟩
  cases isType : (before.files g).type with
  | inode => rw [closed.inode isType]
  | pipe =>
      rcases closed.pipe isType with ⟨pipe', isPipe, pipes⟩
      have different : pipe ≠ pipe' := by
        rintro rfl
        exact apart g isTarget other isPipe
      rw [pipes, Function.update_of_ne different]

theorem duplicates_same_iff (isOpen : (before.procs p).ofile source = some f)
    (isTarget : (before.procs p).ofile target = some f) (closed : Closed before middle f) :
    Duplicates before (middle.dupTo p f (target : ℕ)) p (source : ℕ) (target : ℕ) f ↔
      ¬ClosingEnds before f := by
  rw [duplicates_dupTo_iff isOpen closed.procs (closed.references isTarget), closed.files,
    Function.update_self]
  have apart : ∀ pipe g, (before.procs p).ofile target = some g → g ≠ f →
      (before.files g).pipe ≠ some pipe := by
    intro pipe g isTarget' other
    rw [isTarget] at isTarget'
    exact absurd (Option.some.inj isTarget').symm other
  unfold ClosingEnds
  cases isType : (before.files f).type with
  | inode =>
      simp only [File.closed, isType, closed.inode isType, true_and, implies_true, and_true]
      split
      · rename_i isOne
        simp [isOne, eq_comm]
      · rename_i notOne
        simp [notOne]
  | pipe =>
      rcases closed.pipe isType with ⟨pipe, isPipe, pipes⟩
      have kept := (before.pipes pipe).closeEnd_eq_self_iff ((before.files f).refCount = 1)
        (before.files f).flags
      simp only [File.closed, isType, isPipe, reduceCtorEq, false_and, if_false, true_and,
        Option.some.injEq, forall_eq', exists_eq_left', pipes, Function.update_self]
      exact ⟨fun same => kept.mp (same (apart pipe)), fun notEnds _ => kept.mpr notEnds⟩

end

theorem wp_dup2 {flat : Flat} {p : ProcId} {source target : Fin nfile} {f : FileId}
    (isOpen : (flat.core.procs p).ofile source = some f) :
    wp (Flat.checks (fun _ _ => True) (fun _ _ => True) fun _ => True)
      (dup2 p (source : ℕ) (target : ℕ))
      (fun _ flat' => Duplicates flat.core flat'.core p (source : ℕ) (target : ℕ) f ↔
        ¬((flat.core.procs p).ofile target = some f ∧ ClosingEnds flat.core f)) flat := by
  have sourceInRange : ¬(((source : ℕ) : ℤ) < 0 ∨ (nfile : ℤ) < (source : ℕ)) := by omega
  have targetInRange : ¬(((target : ℕ) : ℤ) < 0 ∨ (nfile : ℤ) < (target : ℕ)) := by omega
  have isFile : (flat.core.procs p).looseDescriptor (source : ℕ) = .file f := by
    have notLast : ((source : ℕ) : ℤ) ≠ nfile := by omega
    simp [Proc.looseDescriptor, notLast, isOpen]
  have notLast : ((target : ℕ) : ℤ) ≠ nfile := by omega
  unfold dup2
  simp only [wp_bind, Flat.wp_looseOpenFile, if_neg sourceInRange, isFile, if_neg targetInRange,
    Flat.wp_mark_checks, if_neg notLast, true_and]
  unfold dup2Files
  simp only [wp_bind, Flat.wp_getProc, Proc.descriptor_natCast]
  cases isTarget : (flat.core.procs p).ofile target with
  | none =>
      simp only [wp_whenSome_none, isOpen, wp_pure, wp_bind, fileDup, Flat.wp_setFile,
        Flat.wp_setProc]
      exact iff_of_true (duplicates_of_free isOpen isTarget) (by simp)
  | some g =>
      rw [wp_whenSome_some]
      refine Flat.wp_fileClose (fun _ _ _ => trivial) (fun _ _ _ => trivial)
        (fun _ _ => trivial) fun middle closed => ?_
      simp only [closed.procs, isOpen, wp_bind, wp_pure, fileDup, Flat.wp_setFile,
        Flat.wp_setProc]
      rcases eq_or_ne g f with rfl | other
      · rw [and_iff_right rfl]
        exact duplicates_same_iff isOpen isTarget closed
      · exact iff_of_true (duplicates_of_other isOpen isTarget closed other) (by simp [other])

/--
A call of `dup2` that returns the new descriptor keeps the law exactly when it did not close
the file that it duplicates.
-/
theorem dup2_duplicates_iff {flat flat' : Flat} {p : ProcId} {oldFd newFd : ℤ} {f : FileId}
    (isOpen : (flat.core.procs p).descriptor oldFd = some f) (notNegative : 0 ≤ newFd)
    (inRange : newFd < nfile)
    (returned : exec Flat.handler (dup2 p oldFd newFd) flat = .returned newFd flat') :
    Duplicates flat.core flat'.core p oldFd newFd f ↔
      ¬((flat.core.procs p).descriptor newFd = some f ∧ ClosingEnds flat.core f) := by
  rcases Proc.exists_of_descriptor isOpen with ⟨source, rfl, isSource⟩
  have isTarget : newFd = ((⟨newFd.toNat, by omega⟩ : Fin nfile) : ℕ) := by
    simp only
    omega
  generalize (⟨newFd.toNat, by omega⟩ : Fin nfile) = target at isTarget
  subst isTarget
  have ends := (exec_checked (@wp_dup2 flat p source target f isSource)).2
  rw [returned] at ends
  rw [Proc.descriptor_natCast]
  exact ends

/-- Process 0 has one file open, at descriptor 0. -/
def oneFile : Flat where
  core :=
    { Core.init ⟨0, 1, 1, 0⟩ with
      inodes := fun i =>
        if i = 0 then { Inode.unused with dev := rootDev, inodeno := 1, refcount := 1, nlinks := 1 }
        else .unused
      files := fun f => if f = 0 then { File.zero with refCount := 1, inode := some 0 } else .zero
      procs := fun p =>
        if p = 0 then
          { Proc.zero with state := .running, ofile := fun fd => if fd = 0 then some 0 else none }
        else .zero }
  disk := fun _ _ _ => 0

theorem dup2_duplicates_oneFile :
    ∃ flat', exec Flat.handler (dup2 0 0 1) oneFile = .returned 1 flat' ∧
      Duplicates oneFile.core flat'.core 0 0 1 0 :=
  ⟨_, rfl, (dup2_duplicates_iff rfl (by decide) (by decide) rfl).mpr fun same =>
    absurd same.1 (by decide)⟩

/-- The only descriptor of a file, duplicated to itself, has lost its file. -/
theorem dup2_to_itself :
    ∃ flat', exec Flat.handler (dup2 0 0 0) oneFile = .returned 0 flat' ∧
      (oneFile.core.procs 0).descriptor 0 = some 0 ∧
      (oneFile.core.files 0).refCount = Counting.count oneFile.core.ofiles 0 ∧
      ¬Duplicates oneFile.core flat'.core 0 0 0 0 := by
  refine ⟨_, rfl, rfl, by decide, fun law => ?_⟩
  have lost : (none : Option InodeId) = some 0 := law.inode
  cases lost

end Osix
