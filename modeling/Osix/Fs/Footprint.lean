import Osix.Fs.Calls

/-!
# Which operations a function uses

The larger part of the file system code works on blocks and on the contents of inodes and
leaves alone who holds what: it neither locks nor references inodes, nor does it change
the tables of files, pipes and processes. `Uses kinds prog` records this once for each such function,
and each property that the operations of some kinds keep follows for all of them by
`Only.wp`.
-/

namespace Osix

open Program

variable {H : Type} {α β : Type}

/-- What an operation is about. -/
inductive OpKind where
  | data
  | buffer
  | files
  | pipes
  | holding
  | sleep
  | stack
deriving DecidableEq

/--
`holding` stands for all that concerns locks and references of inodes, `stack` for the arrays
of `nameicore`. The panics of the operations count with them.
-/
def FsOp.kind : FsOp H → OpKind
  | .bread _ _ | .bdata _ | .bstore _ _ | .bdirty _ | .bwrite _ | .brelse _ => .buffer
  | .setFile _ _ | .setProc _ _ => .files
  | .mark (.slot _) | .mark (.follows _) => .files
  | .setPipe _ _ => .pipes
  | .ifind _ _ | .ilock _ | .iunlock _ | .idup _ | .iunref _ => .holding
  | .mark (.uses _) | .mark (.drops _) | .mark (.unlinks _ _) | .mark (.newInode _) => .holding
  | .mark (.again _ _) => .holding
  | .stop (.panic .noBuffersFree) => .buffer
  | .stop (.panic .ilock) | .stop (.panic .iunlock) | .stop (.panic .iput) => .holding
  | .stop (.panic .inodeCacheFull) => .holding
  | .sleep _ => .sleep
  | .mark (.searches _) | .mark (.names _) | .stop .overrun => .stack
  | _ => .data

/-- The program only performs operations of the given kinds. -/
abbrev Uses (kinds : List OpKind) (prog : FsM H α) : Prop :=
  Only (fun operation => operation.kind ∈ kinds) prog

/-- The program works on blocks and on the contents of inodes only. -/
abbrev OnContents (prog : FsM H α) : Prop := Uses [.data, .buffer] prog

/-- The program works on inodes and looks up no path. -/
abbrev OnInodes (prog : FsM H α) : Prop := Uses [.data, .buffer, .holding, .sleep] prog

/-- The program leaves the tables of files, pipes and processes alone. -/
abbrev BelowTables (prog : FsM H α) : Prop :=
  Uses [.data, .buffer, .holding, .sleep, .stack] prog

/-- The program leaves the pipes alone. -/
abbrev BesidePipes (prog : FsM H α) : Prop :=
  Uses [.data, .buffer, .holding, .sleep, .stack, .files] prog

/-- The program stays below the tables, but for what it stores in `*inodep`. -/
abbrev Into (inodep : Inodep) (prog : FsM H α) : Prop :=
  Only (fun operation => operation.kind ∈ [.data, .buffer, .holding, .sleep, .stack] ∨
    ∃ f i, inodep = .file f ∧ operation = .setFile f fun old => { old with inode := some i }) prog

namespace Uses

variable {kinds : List OpKind}

theorem bind {prog : FsM H α} {next : α → FsM H β} (first : Uses kinds prog)
    (second : ∀ value, Uses kinds (next value)) : Uses kinds (prog >>= next) :=
  Only.bind first second

theorem pure (value : α) : Uses kinds (Pure.pure value : FsM H α) := Only.pure value

theorem op {operation : FsOp H} (isKind : kinds.contains operation.kind = true) :
    Uses kinds (.perform operation) :=
  Only.perform (List.contains_iff_mem.mp isKind)

theorem when {condition : Prop} [Decidable condition] {prog : FsM H Unit}
    (uses : Uses kinds prog) : Uses kinds (Prog.when condition prog) :=
  Only.when uses

theorem whenSome {value : Option β} {prog : β → FsM H Unit}
    (uses : ∀ present, Uses kinds (prog present)) : Uses kinds (Prog.whenSome value prog) :=
  Only.whenSome uses

theorem more {prog : FsM H α} (uses : Uses kinds prog) {kinds' : List OpKind}
    (subset : kinds ⊆ kinds') : Uses kinds' prog :=
  uses.mono fun _ isKind => subset isKind

theorem below {prog : FsM H α} (uses : OnInodes prog) : BelowTables prog := uses.more (by simp)

theorem into {inodep : Inodep} {prog : FsM H α} (uses : BelowTables prog) : Into inodep prog :=
  uses.mono fun _ isBelow => Or.inl isBelow

/-- What stores in a variable of its caller stays below the tables. -/
theorem of_own {prog : FsM H α} (into : Into .own prog) : BelowTables prog := by
  refine into.mono fun operation allowed => allowed.resolve_right ?_
  rintro ⟨f, i, isOwn, -⟩
  cases isOwn

theorem of_into {inodep : Inodep} {prog : FsM H α} (into : Into inodep prog) :
    BesidePipes prog := by
  refine into.mono fun operation allowed => ?_
  rcases allowed with isBelow | ⟨f, i, -, rfl⟩
  · exact List.mem_append_left [OpKind.files] isBelow
  · exact List.contains_iff_mem.mp rfl

theorem stop {why : Stop} (isKind : kinds.contains (FsOp.stop (H := H) why).kind = true) :
    Uses kinds (Fs.stop why : FsM H α) :=
  Only.op (List.contains_iff_mem.mp isKind) fun empty => empty.elim

theorem getInode (isKind : kinds.contains .data = true) (i : InodeId) :
    Uses kinds (Fs.getInode i : FsM H Inode) :=
  bind (op isKind) fun _ => pure _

theorem getFile (isKind : kinds.contains .data = true) (f : FileId) :
    Uses kinds (Fs.getFile f : FsM H File) :=
  bind (op isKind) fun _ => pure _

theorem getProc (isKind : kinds.contains .data = true) (p : ProcId) :
    Uses kinds (Fs.getProc p : FsM H Proc) :=
  bind (op isKind) fun _ => pure _

/-! ## Blocks and inode contents -/

theorem ballocLoop (dev : Dev) (blocks zmapBlock blockNo : ℕ) :
    OnContents (Fs.ballocLoop dev blocks zmapBlock blockNo : FsM H ℕ) := by
  induction blocks generalizing zmapBlock blockNo with
  | zero => exact bind (op rfl) fun _ => pure _
  | succ blocks ih =>
      refine bind (op rfl) fun buf => ?_
      refine bind (op rfl) fun zmap => ?_
      split
      · refine bind (op rfl) fun _ => ?_
        refine bind (op rfl) fun _ => ?_
        exact bind (op rfl) fun _ => pure _
      · exact bind (op rfl) fun _ => ih _ _

theorem balloc (dev : Dev) : OnContents (Fs.balloc dev : FsM H ℕ) :=
  bind (op rfl) fun _ => ballocLoop dev _ _ _

theorem bfree (dev : Dev) (blockNo : ℕ) : OnContents (Fs.bfree dev blockNo : FsM H Unit) := by
  refine bind (op rfl) fun core => ?_
  dsimp only
  split
  · exact stop rfl
  · refine bind (op rfl) fun buf => ?_
    refine bind (op rfl) fun zmap => ?_
    split
    · refine bind (op rfl) fun _ => ?_
      exact bind (op rfl) fun _ => op rfl
    · exact stop rfl

theorem iupdate (i : InodeId) : OnContents (Fs.iupdate i : FsM H Unit) := by
  refine bind (op rfl) fun core => ?_
  dsimp only
  split
  · refine bind (op rfl) fun buf => ?_
    refine bind (getInode rfl i) fun node => ?_
    refine bind (op rfl) fun _ => ?_
    refine bind (op rfl) fun _ => ?_
    exact bind (op rfl) fun _ => op rfl
  · exact pure ()

theorem bmapIndirect (i : InodeId) (entry : ℕ) :
    OnContents (Fs.bmapIndirect i entry : FsM H ℕ) := by
  refine bind (getInode rfl i) fun node => ?_
  split
  · refine bind (op rfl) fun buf => ?_
    refine bind (op rfl) fun data => ?_
    refine bind (when ?_) fun _ => ?_
    · refine bind (getInode rfl i) fun node => ?_
      refine bind (balloc node.dev) fun zone => ?_
      exact bind (op rfl) fun _ => op rfl
    · refine bind (op rfl) fun data => ?_
      exact bind (op rfl) fun _ => pure _
  · exact pure 0

theorem bmap (i : InodeId) (index : ℕ) (write : Bool) :
    OnContents (Fs.bmap i index write : FsM H ℕ) := by
  refine bind (getInode rfl i) fun node => ?_
  split
  · exact stop rfl
  split
  · refine bind (when ?_) fun _ => ?_
    · refine bind (balloc node.dev) fun zone => ?_
      exact bind (op rfl) fun _ => op rfl
    · refine bind (getInode rfl i) fun node => ?_
      exact bind (op rfl) fun _ => pure _
  split
  · refine bind (when ?_) fun _ => ?_
    · refine bind (balloc node.dev) fun zone => ?_
      refine bind (op rfl) fun _ => ?_
      exact bind (op rfl) fun _ => op rfl
    · refine bind (bmapIndirect i _) fun zone => ?_
      exact bind (op rfl) fun _ => pure zone
  · exact stop rfl

theorem readiBlockDev (dev : Dev) (rounds blockNo : ℕ) (offset : ℤ) (nbytes : ℕ) :
    OnContents (Fs.readiBlockDev dev rounds blockNo offset nbytes : FsM H (List Byte)) := by
  induction rounds generalizing blockNo offset nbytes with
  | zero => exact pure _
  | succ rounds ih =>
      unfold Fs.readiBlockDev
      split
      · exact pure _
      refine bind (op rfl) fun buf => ?_
      split
      · exact stop rfl
      · refine bind (op rfl) fun data => ?_
        refine bind (op rfl) fun _ => ?_
        exact bind (ih _ _ _) fun _ => pure _

theorem readiLoop (i : InodeId) (rounds bindex : ℕ) (offset : ℤ) (remaining : ℕ) :
    OnContents (Fs.readiLoop i rounds bindex offset remaining : FsM H (List Byte)) := by
  induction rounds generalizing bindex offset remaining with
  | zero => exact pure _
  | succ rounds ih =>
      unfold Fs.readiLoop
      split
      · exact pure _
      refine bind (bmap i bindex false) fun blockNo => ?_
      refine bind (getInode rfl i) fun node => ?_
      refine bind (op rfl) fun buf => ?_
      split
      · exact stop rfl
      · refine bind (op rfl) fun data => ?_
        refine bind (op rfl) fun _ => ?_
        exact bind (ih _ _ _) fun _ => pure _

theorem ttyWrite (dev : Dev) (bytes : List Byte) (count : ℤ) :
    Uses [.data] (Fs.ttyWrite dev bytes count : FsM H ℤ) := by
  induction bytes with
  | nil => exact pure count
  | cons char rest ih =>
      refine bind (op rfl) fun len => ?_
      split
      · exact pure len
      · exact ih

theorem cdevWrite (dev : Dev) (src : List Byte) :
    Uses [.data] (Fs.cdevWrite dev src : FsM H ℤ) := by
  unfold Fs.cdevWrite
  split
  · exact pure _
  split
  · exact ttyWrite dev src _
  · exact pure _

theorem writeiLoop (i : InodeId) (rounds bindex offset : ℕ) (src : List Byte) :
    OnContents (Fs.writeiLoop i rounds bindex offset src : FsM H Unit) := by
  induction rounds generalizing bindex offset src with
  | zero => exact pure ()
  | succ rounds ih =>
      unfold Fs.writeiLoop
      split
      · exact pure ()
      refine bind (bmap i bindex true) fun blockNo => ?_
      refine bind (getInode rfl i) fun node => ?_
      refine bind (op rfl) fun _ => ?_
      refine bind (op rfl) fun buf => ?_
      refine bind (op rfl) fun _ => ?_
      refine bind (op rfl) fun _ => ?_
      exact bind (op rfl) fun _ => ih _ _ _

theorem writei (i : InodeId) (src : List Byte) (offset : ℕ) :
    OnContents (Fs.writei i src offset : FsM H ℤ) := by
  refine bind (getInode rfl i) fun node => ?_
  dsimp only
  split
  · exact stop rfl
  split
  · exact (cdevWrite _ src).more (by simp)
  split
  · exact stop rfl
  split
  · exact stop rfl
  · refine bind (writeiLoop i _ _ _ src) fun _ => ?_
    refine bind (getInode rfl i) fun node => ?_
    refine bind (when ?_) fun _ => pure _
    exact bind (op rfl) fun _ => op rfl

theorem itruncDirect (i : InodeId) (zones : List (Fin ndirect)) :
    OnContents (Fs.itruncDirect i zones : FsM H Unit) := by
  induction zones with
  | nil => exact pure ()
  | cons zone rest ih =>
      refine bind (getInode rfl i) fun node => ?_
      refine bind (when ?_) fun _ => ih
      exact bind (bfree _ _) fun _ => op rfl

theorem itruncEntries (i : InodeId) (buf : H) (entries : List ℕ) :
    OnContents (Fs.itruncEntries i buf entries : FsM H Unit) := by
  induction entries with
  | nil => exact pure ()
  | cons entry rest ih =>
      refine bind (op rfl) fun data => ?_
      refine bind (when ?_) fun _ => ih
      exact bind (getInode rfl i) fun node => bfree _ _

theorem itrunc (i : InodeId) : OnContents (Fs.itrunc i : FsM H Unit) := by
  refine bind (getInode rfl i) fun node => ?_
  split
  · exact stop rfl
  refine bind (itruncDirect i _) fun _ => ?_
  refine bind (getInode rfl i) fun node => ?_
  refine bind (when ?_) fun _ => ?_
  · refine bind (op rfl) fun buf => ?_
    refine bind (itruncEntries i buf _) fun _ => ?_
    refine bind (op rfl) fun _ => ?_
    refine bind (getInode rfl i) fun node => ?_
    exact bind (bfree _ _) fun _ => op rfl
  · refine bind (op rfl) fun _ => ?_
    exact bind (op rfl) fun _ => iupdate i

theorem ifree (dev : Dev) (inodeno : ℕ) : OnContents (Fs.ifree dev inodeno : FsM H Unit) := by
  refine bind (op rfl) fun core => ?_
  dsimp only
  split
  · exact stop rfl
  split
  · exact stop rfl
  · refine bind (op rfl) fun buf => ?_
    refine bind (op rfl) fun imap => ?_
    split
    · refine bind (op rfl) fun _ => ?_
      exact bind (op rfl) fun _ => op rfl
    · exact stop rfl

/-! ## Tables -/

theorem ttyEcho (t : TtyId) (dev : Dev) (bytes : List Byte) :
    Uses [.data] (Fs.ttyEcho t dev bytes : FsM H Unit) := by
  refine bind (op rfl) fun core => ?_
  split
  · exact bind (ttyWrite dev bytes _) fun _ => pure ()
  · exact pure ()

theorem ttyKill (t : TtyId) (dev : Dev) (dest : ℕ → Byte) (kill : Byte → Bool) (pos : ℕ) :
    Uses [.data] (Fs.ttyKill t dev dest kill pos : FsM H ℕ) := by
  induction pos with
  | zero => exact pure 0
  | succ pos ih =>
      unfold Fs.ttyKill
      split
      · exact bind (ttyEcho t dev _) fun _ => ih
      · exact pure _

theorem ttyKillLine (t : TtyId) (dev : Dev) (pos : ℕ) :
    Uses [.data] (Fs.ttyKillLine t dev pos : FsM H Unit) := by
  induction pos with
  | zero => exact pure ()
  | succ pos ih => exact bind (ttyEcho t dev _) fun _ => ih

theorem ttyChar (t : TtyId) (dev : Dev) (dest : ℕ → Byte) (pos : ℕ) (char : Byte) :
    Uses [.data] (Fs.ttyChar t dev dest pos char : FsM H Fs.TtyLine) := by
  unfold Fs.ttyChar
  split
  · split
    · exact bind (ttyEcho t dev _) fun _ => pure _
    · exact pure _
  split
  · split
    · refine bind (ttyEcho t dev _) fun _ => ?_
      refine bind (ttyKill t dev dest _ _) fun _ => ?_
      exact bind (ttyKill t dev dest _ _) fun _ => pure _
    · exact pure _
  split
  · exact bind (ttyKillLine t dev pos) fun _ => pure _
  split
  · split
    · refine bind (ttyEcho t dev _) fun _ => ?_
      exact bind (ttyEcho t dev _) fun _ => pure _
    · exact pure _
  split
  · exact pure _
  · exact bind (ttyEcho t dev _) fun _ => pure _

theorem ttyReadLoop (p : ProcId) (i : InodeId) (t : TtyId) (dev : Dev) (count rounds : ℕ)
    (dest : ℕ → Byte) (pos : ℕ) (char : Byte) :
    OnInodes
      (Fs.ttyReadLoop p i t dev count rounds dest pos char : FsM H (ℤ × List Byte)) := by
  induction rounds generalizing dest pos char with
  | zero => exact stop rfl
  | succ rounds ih =>
      unfold Fs.ttyReadLoop
      split
      · exact pure _
      refine bind (op rfl) fun core => ?_
      dsimp only
      split
      · split
        · exact pure _
        · refine bind (op rfl) fun _ => ?_
          refine bind (op rfl) fun _ => ?_
          exact bind (op rfl) fun _ => ih _ _ _
      · refine bind (op rfl) fun _ => ?_
        split
        · refine bind ((ttyChar t dev dest pos _).more (by simp)) fun line => ?_
          cases line with
          | more dest pos => exact ih _ _ _
          | ends dest pos => exact pure _
          | empty => exact pure _
        · exact pure _

theorem cdevRead (p : ProcId) (i : InodeId) (dev : Dev) (count : ℕ) :
    OnInodes (Fs.cdevRead p i dev count : FsM H (ℤ × List Byte)) := by
  unfold Fs.cdevRead
  split
  · exact pure _
  split
  · unfold Fs.ttyRead
    split
    · exact stop rfl
    · refine bind (op rfl) fun core => ?_
      exact bind (op rfl) fun _ => ttyReadLoop p i _ dev count _ _ _ _
  split
  · exact pure _
  · exact pure _

theorem readi (p : ProcId) (i : InodeId) (offset : ℤ) (nbytes : ℕ) :
    OnInodes (Fs.readi p i offset nbytes : FsM H (ℤ × List Byte)) := by
  refine bind (getInode rfl i) fun node => ?_
  dsimp only
  split
  · exact stop rfl
  split
  · exact cdevRead p i _ nbytes
  split
  · exact bind ((readiBlockDev _ _ _ _ _).more (by simp)) fun _ => pure _
  split
  · exact pure _
  · exact bind ((readiLoop i _ _ _ _).more (by simp)) fun _ => pure _

theorem iput (i : InodeId) : OnInodes (Fs.iput i : FsM H Unit) := by
  refine bind (op rfl) fun last => ?_
  refine bind (when ?_) fun _ => op rfl
  refine bind (getInode rfl i) fun node => ?_
  refine bind (when ?_) fun _ => op rfl
  refine bind (op rfl) fun _ => ?_
  refine bind (op rfl) fun _ => ?_
  refine bind ((itrunc i).more (by simp)) fun _ => ?_
  refine bind (op rfl) fun _ => ?_
  refine bind (getInode rfl i) fun node => ?_
  refine bind ((ifree _ _).more (by simp)) fun _ => ?_
  refine bind (op rfl) fun _ => ?_
  exact bind ((iupdate i).more (by simp)) fun _ => op rfl

theorem iunlockput (i : InodeId) : OnInodes (Fs.iunlockput i : FsM H Unit) :=
  bind (op rfl) fun _ => iput i

theorem iget (dev : Dev) (inodeno : ℕ) : OnInodes (Fs.iget dev inodeno : FsM H InodeId) := by
  refine bind (op rfl) fun (i, cached) => ?_
  dsimp only
  split
  · exact pure i
  · refine bind (op rfl) fun core => ?_
    refine bind (op rfl) fun buf => ?_
    refine bind (op rfl) fun data => ?_
    refine bind (op rfl) fun _ => ?_
    refine bind (op rfl) fun _ => ?_
    exact bind (op rfl) fun _ => pure i

theorem iallocLoop (p : ProcId) (mode blocks imapBlock inodeno : ℕ) :
    OnInodes (Fs.iallocLoop p mode blocks imapBlock inodeno : FsM H (Option InodeId)) := by
  induction blocks generalizing imapBlock inodeno with
  | zero => exact pure none
  | succ blocks ih =>
      refine bind (op rfl) fun buf => ?_
      refine bind (op rfl) fun imap => ?_
      split
      · refine bind (op rfl) fun _ => ?_
        refine bind (op rfl) fun _ => ?_
        refine bind (op rfl) fun _ => ?_
        refine bind (iget _ _) fun i => ?_
        refine bind (op rfl) fun _ => ?_
        refine bind (op rfl) fun core => ?_
        refine bind (op rfl) fun _ => ?_
        exact bind (op rfl) fun _ => pure _
      · exact bind (op rfl) fun _ => ih _ _

theorem denies (isKind : kinds.contains .data = true) (p : ProcId) (i : InodeId) (mode : ℕ) :
    Uses kinds (Fs.denies p i mode : FsM H Bool) :=
  bind (op isKind) fun _ => pure _

theorem pipeReadLoop (pipe : PipeId) (nbytes rounds : ℕ) (got : List Byte) :
    Uses [.data, .pipes, .sleep]
      (Fs.pipeReadLoop pipe nbytes rounds got : FsM H (ℤ × List Byte)) := by
  induction rounds generalizing got with
  | zero => exact stop rfl
  | succ rounds ih =>
      unfold Fs.pipeReadLoop
      split
      · exact pure _
      refine bind (op rfl) fun core => ?_
      dsimp only
      split
      · split
        · exact pure _
        · exact bind (op rfl) fun _ => ih _
      · exact bind (op rfl) fun _ => ih _

theorem pipeRead (f : FileId) (nbytes : ℕ) :
    Uses [.data, .pipes, .sleep] (Fs.pipeRead f nbytes : FsM H (ℤ × List Byte)) := by
  refine bind (op rfl) fun core => ?_
  split
  · exact pipeReadLoop _ nbytes _ _
  · exact stop rfl

theorem pipeWriteLoop (pipe : PipeId) (rounds : ℕ) (src : List Byte) :
    Uses [.data, .pipes, .sleep] (Fs.pipeWriteLoop pipe rounds src : FsM H Unit) := by
  induction rounds generalizing src with
  | zero =>
      unfold Fs.pipeWriteLoop
      exact stop rfl
  | succ rounds ih =>
      cases src with
      | nil => exact pure ()
      | cons byte src =>
          refine bind (op rfl) fun core => ?_
          dsimp only
          split
          · exact bind (op rfl) fun _ => ih _
          · exact bind (op rfl) fun _ => ih _

theorem pipeWrite (f : FileId) (src : List Byte) :
    Uses [.data, .pipes, .sleep] (Fs.pipeWrite f src : FsM H ℤ) := by
  refine bind (op rfl) fun core => ?_
  split
  · exact bind (pipeWriteLoop _ _ src) fun _ => pure _
  · exact stop rfl

theorem pipeClose (f : FileId) : Uses [.data, .files, .pipes] (Fs.pipeClose f : FsM H Unit) := by
  refine bind (getFile rfl f) fun file => ?_
  split
  · refine bind (op rfl) fun _ => ?_
    refine bind (when ?_) fun _ => ?_
    · exact bind (when (op rfl)) fun _ => when (op rfl)
    · exact bind (op rfl) fun core => when (op rfl)
  · exact stop rfl

theorem openFile (p : ProcId) (fd : ℤ) :
    Uses [.data, .files] (Fs.openFile p fd : FsM H (Option FileId)) := by
  unfold Fs.openFile
  split
  · exact pure _
  · refine bind (op rfl) fun _ => ?_
    exact bind (getProc rfl p) fun _ => pure _

theorem looseOpenFile (p : ProcId) (fd : ℤ) :
    Uses [.data, .files] (Fs.looseOpenFile p fd : FsM H Slot) := by
  unfold Fs.looseOpenFile
  split
  · exact pure _
  · refine bind (op rfl) fun _ => ?_
    exact bind (getProc rfl p) fun _ => pure _

theorem fileInode (f : FileId) : Uses [.data, .files] (Fs.fileInode f : FsM H InodeId) := by
  refine bind (op rfl) fun _ => ?_
  refine bind (getFile rfl f) fun file => ?_
  split
  · exact stop rfl
  · exact pure _

theorem fileFdAlloc (p : ProcId) (f : FileId) :
    Uses [.data, .files] (Fs.fileFdAlloc p f : FsM H ℤ) := by
  refine bind (getProc rfl p) fun proc => ?_
  split
  · exact bind (op rfl) fun _ => pure _
  · exact pure _

theorem fileAlloc : Uses [.data, .files] (Fs.fileAlloc : FsM H (Option FileId)) := by
  refine bind (op rfl) fun core => ?_
  split
  · exact bind (op rfl) fun _ => pure _
  · exact pure _

theorem dup (p : ProcId) (fd : ℤ) : Uses [.data, .files] (Fs.dup p fd : FsM H ℤ) := by
  refine bind (looseOpenFile p fd) fun slot => ?_
  split
  · exact pure _
  · exact stop rfl
  · refine bind (fileFdAlloc p _) fun newFd => ?_
    exact bind (when (op rfl)) fun _ => pure _

theorem fileSeek (f : FileId) (offset whence : ℤ) :
    Uses [.data, .files] (Fs.fileSeek f offset whence : FsM H ℤ) := by
  unfold Fs.fileSeek
  split
  · exact pure _
  refine bind (fileInode f) fun i => ?_
  refine bind (getInode rfl i) fun node => ?_
  refine bind (getFile rfl f) fun file => ?_
  dsimp only
  generalize (if whence = 0 then offset else _) = newOffset
  split
  · exact pure _
  · exact bind (op rfl) fun _ => pure _

theorem lseek (p : ProcId) (fd offset whence : ℤ) :
    Uses [.data, .files] (Fs.lseek p fd offset whence : FsM H ℤ) := by
  refine bind (openFile p fd) fun file => ?_
  split
  · exact pure _
  · exact fileSeek _ offset whence

theorem ttyIoctl (dev : Dev) (request : ℤ) (termios : Option ℕ) :
    Uses [.data] (Fs.ttyIoctl dev request termios : FsM H (ℤ × List Byte)) := by
  unfold Fs.ttyIoctl
  split
  · exact pure _
  split
  · exact pure _
  split
  · exact stop rfl
  split
  · exact bind (op rfl) fun _ => pure _
  split
  · exact bind (op rfl) fun _ => pure _
  · exact pure _

theorem ioctl (p : ProcId) (fd request : ℤ) (termios : Option ℕ) :
    Uses [.data, .files] (Fs.ioctl p fd request termios : FsM H (ℤ × List Byte)) := by
  refine bind (openFile p fd) fun found => ?_
  split
  · exact pure _
  refine bind (getFile rfl _) fun file => ?_
  split
  · exact pure _
  split
  · exact pure _
  refine bind (fileInode _) fun i => ?_
  refine bind (getInode rfl i) fun node => ?_
  dsimp only
  generalize (if fileType node.mode = sIfchr then _ else _) = dev
  split
  · exact (ttyIoctl dev request termios).more (by simp)
  · exact pure _

theorem procAlloc : Uses [.data, .files] (Fs.procAlloc : FsM H (Option ProcId)) := by
  refine bind (op rfl) fun core => ?_
  split
  · exact pure _
  refine bind (op rfl) fun _ => ?_
  split
  · exact pure _
  refine bind (op rfl) fun pid => ?_
  exact bind (op rfl) fun _ => pure _

theorem forkFiles (p child : ProcId) (fds : List (Fin nfile)) :
    Uses [.data, .files] (Fs.forkFiles p child fds : FsM H Unit) := by
  induction fds with
  | nil => exact pure ()
  | cons fd rest ih =>
      refine bind (getProc rfl p) fun proc => ?_
      refine bind (whenSome fun f => ?_) fun _ => ih
      exact bind (op rfl) fun _ => op rfl

theorem exitOrphans (p : ProcId) (children : List ProcId) :
    Uses [.data, .files] (Fs.exitOrphans p children : FsM H Unit) := by
  induction children with
  | nil => exact pure ()
  | cons child rest ih =>
      refine bind (getProc rfl child) fun proc => ?_
      exact bind (when (op rfl)) fun _ => ih

theorem waitLoop (p : ProcId) (rounds : ℕ) :
    Uses [.data, .files, .sleep] (Fs.waitLoop p rounds : FsM H ℤ) := by
  induction rounds with
  | zero => exact stop rfl
  | succ rounds ih =>
      refine bind (op rfl) fun core => ?_
      dsimp only
      split
      · exact bind (op rfl) fun _ => pure _
      split
      · split
        · exact pure _
        · exact bind (op rfl) fun _ => ih
      · exact pure _

theorem wait (p : ProcId) : Uses [.data, .files, .sleep] (Fs.wait p : FsM H ℤ) :=
  bind (op rfl) fun _ => waitLoop p _

theorem setId (p : ProcId) (change : Proc → Proc) :
    Uses [.data, .files] (Fs.setId p change : FsM H ℤ) := by
  refine bind (getProc rfl p) fun proc => ?_
  split
  · exact pure _
  · exact bind (op rfl) fun _ => pure _

/-! ## Path names and directories -/

theorem nextInode (i : InodeId) (ndirent : ℕ) (dir component : List Byte) :
    OnInodes (Fs.nextInode i ndirent dir component : FsM H (Option InodeId)) := by
  refine bind (op rfl) fun core => ?_
  split
  · exact pure none
  · exact bind (iget _ _) fun _ => pure _

theorem iputPtr (pointer : Option InodeId) : OnInodes (Fs.iputPtr pointer : FsM H Unit) := by
  cases pointer with
  | none => exact stop rfl
  | some i => exact iput i

theorem iunlockPtr (pointer : Option InodeId) :
    OnInodes (Fs.iunlockPtr pointer : FsM H Unit) := by
  cases pointer with
  | none => exact stop rfl
  | some i => exact op rfl

theorem inodeAgain (f : FileId) (i : InodeId) :
    Uses [.data, .holding] (Fs.inodeAgain f i : FsM H (Option InodeId)) :=
  bind (getFile rfl f) fun _ => bind (op rfl) fun _ => pure _

theorem inodepAgain (inodep : Inodep) (i : InodeId) :
    Uses [.data, .holding] (Fs.inodepAgain inodep i : FsM H (Option InodeId)) := by
  cases inodep with
  | own => exact pure _
  | file f => exact inodeAgain f i

theorem setInodep (inodep : Inodep) (i : InodeId) :
    Uses [.data, .files] (Fs.setInodep inodep i : FsM H Unit) := by
  cases inodep with
  | own => exact pure ()
  | file f => exact op rfl

theorem readDir (p : ProcId) (i : InodeId) :
    BelowTables (Fs.readDir p i : FsM H (ℤ × ℕ × List Byte)) := by
  refine bind (op rfl) fun _ => ?_
  refine bind (getInode rfl i) fun node => ?_
  refine bind (op rfl) fun core => ?_
  split
  · exact stop rfl
  refine bind (readi p i _ _).below fun result => ?_
  dsimp only
  split
  · exact stop rfl
  · exact pure _

theorem storeName (named : Bool) (component name : List Byte) :
    Uses [.stack] (Fs.storeName named component name : FsM H (List Byte)) := by
  unfold Fs.storeName
  split
  · refine bind (op rfl) fun _ => ?_
    split
    · exact stop rfl
    · exact pure _
  · exact pure _

theorem setInto (inodep : Inodep) (i : InodeId) :
    Into inodep (Fs.setInodep inodep i : FsM H Unit) := by
  cases inodep with
  | own => exact Only.pure ()
  | file f => exact Only.perform (Or.inr ⟨f, i, rfl, rfl⟩)

theorem nameicoreLoop (p : ProcId) (named parent : Bool) (inodep : Inodep) (rounds : ℕ)
    (path : List Byte) (i : InodeId) (name : List Byte) :
    Into inodep (Fs.nameicoreLoop p named parent inodep rounds path i name : FsM H Found) := by
  induction rounds generalizing path i name with
  | zero => exact Only.pure _
  | succ rounds ih =>
      have onInodes : ∀ {β : Type} {prog : FsM H β}, OnInodes prog → Into inodep prog :=
        fun uses => uses.below.into
      have again : ∀ i, Into inodep (Fs.inodepAgain inodep i : FsM H (Option InodeId)) :=
        fun i => onInodes ((inodepAgain inodep i).more (by simp))
      unfold Fs.nameicoreLoop
      split
      · exact Only.pure _
      refine Only.bind (onInodes (op rfl)) fun _ => ?_
      refine Only.bind (onInodes (denies rfl p i iexec)) fun denied => ?_
      split
      · exact Only.bind (onInodes (iunlockput i)) fun _ => Only.pure _
      refine Only.bind (readDir p i).into fun result => ?_
      rcases result with ⟨ret, ndirent, dir⟩
      refine Only.bind (again i) fun found => ?_
      split
      · exact onInodes (stop rfl)
      rename_i j
      refine Only.bind (onInodes (getInode rfl j)) fun node => ?_
      split
      · exact Only.bind (onInodes (iunlockput j)) fun _ => Only.pure _
      refine Only.bind (onInodes (op rfl)) fun _ => ?_
      refine Only.bind (onInodes (nextInode j _ dir _)) fun next => ?_
      refine Only.bind ((storeName named _ name).more (by simp)).into fun name => ?_
      split
      · exact Only.bind (onInodes (whenSome iput)) fun _ => Only.pure _
      refine Only.bind (again j) fun found => ?_
      refine Only.bind (onInodes (iputPtr found)) fun _ => ?_
      split
      · exact Only.pure _
      · exact Only.bind (setInto inodep _) fun _ => ih _ _ _

theorem nameicoreStart (p : ProcId) (path : List Byte) :
    OnInodes (Fs.nameicoreStart p path : FsM H InodeId) := by
  unfold Fs.nameicoreStart
  split
  · exact iget _ _
  · refine bind (getProc rfl p) fun proc => ?_
    split
    · exact stop rfl
    · exact bind (op rfl) fun _ => pure _

theorem nameicoreInto (p : ProcId) (path : List Byte) (named parent : Bool) (inodep : Inodep) :
    Into inodep (Fs.nameicore p path named parent inodep : FsM H Found) := by
  have core : OnInodes (Fs.getCore : FsM H Core) := op rfl
  refine Only.bind (nameicoreStart p path).below.into fun start => ?_
  refine Only.bind (setInto inodep start) fun _ => ?_
  exact Only.bind core.below.into fun core => nameicoreLoop p named parent inodep _ _ start _

theorem nameicore (p : ProcId) (path : List Byte) (named parent : Bool) :
    BelowTables (Fs.nameicore p path named parent .own : FsM H Found) :=
  of_own (nameicoreInto p path named parent .own)

theorem chdir (p : ProcId) (path : Option (List Byte)) :
    BesidePipes (Fs.chdir p path : FsM H ℤ) := by
  cases path with
  | none => exact pure _
  | some path =>
      refine bind ((nameicore p path false false).more (by simp)) fun found => ?_
      split
      · exact pure _
      refine bind (denies rfl p _ _) fun denied => ?_
      split
      · exact bind ((iput _).more (by simp)) fun _ => pure _
      refine bind (getInode rfl _) fun node => ?_
      split
      · exact bind ((iput _).more (by simp)) fun _ => pure _
      refine bind (getProc rfl p) fun proc => ?_
      refine bind (whenSome fun cwd => (iput cwd).more (by simp)) fun _ => ?_
      exact bind (op rfl) fun _ => pure _

theorem wdir (p : ProcId) (dir : InodeId) (inodeno : ℕ) (filename : List Byte) :
    BelowTables (Fs.wdir p dir inodeno filename : FsM H Unit) := by
  have loop : ∀ rounds offset,
      BelowTables (Fs.wdirLoop p dir rounds offset : FsM H ℕ) := by
    intro rounds
    induction rounds with
    | zero => exact fun _ => stop rfl
    | succ rounds ih =>
        intro offset
        refine bind (readi p dir _ _).below fun (ret, entry) => ?_
        dsimp only
        split
        · split
          · exact pure _
          · exact ih _
        · exact pure _
  refine bind (op rfl) fun _ => ?_
  refine bind (op rfl) fun core => ?_
  refine bind (loop _ _) fun offset => ?_
  refine bind ((writei dir _ _).more (by simp)) fun _ => ?_
  refine bind (getInode rfl dir) fun node => ?_
  refine bind (when ?_) fun _ => op rfl
  exact bind (op rfl) fun _ => op rfl

theorem unlinkLoop (p : ProcId) (parent : InodeId) (filename : List Byte) (rounds offset : ℕ) :
    BelowTables (Fs.unlinkLoop p parent filename rounds offset : FsM H ℤ) := by
  induction rounds generalizing offset with
  | zero => exact stop rfl
  | succ rounds ih =>
      refine bind (readi p parent _ _).below fun (ret, entry) => ?_
      dsimp only
      split
      · refine bind (op rfl) fun core => ?_
        split
        · refine bind ((writei parent _ _).more (by simp)) fun _ => ?_
          refine bind (op rfl) fun _ => ?_
          refine bind (getInode rfl parent) fun node => ?_
          refine bind (iget _ _).below fun i => ?_
          refine bind (op rfl) fun _ => ?_
          refine bind (getInode rfl i) fun node => ?_
          split
          · exact stop rfl
          refine bind (op rfl) fun _ => ?_
          refine bind (op rfl) fun _ => ?_
          refine bind (iunlockput parent).below fun _ => ?_
          refine bind ((iupdate i).more (by simp)) fun _ => ?_
          exact bind (iunlockput i).below fun _ => pure _
        · exact ih _
      · exact bind (iunlockput parent).below fun _ => pure _

theorem sysUnlink (p : ProcId) (filepath : List Byte) :
    BelowTables (Fs.sysUnlink p filepath : FsM H ℤ) := by
  refine bind (nameicore p filepath true true) fun found => ?_
  dsimp only
  split
  · exact pure _
  refine bind (getInode rfl _) fun node => ?_
  split
  · exact bind (iput _).below fun _ => pure _
  refine bind (denies rfl p _ _) fun denied => ?_
  split
  · exact bind (iput _).below fun _ => pure _
  refine bind (op rfl) fun _ => ?_
  exact bind (op rfl) fun core => unlinkLoop p _ _ _ _

theorem fileCreatInto (p : ProcId) (filename : List Byte) (mode : ℕ) (inodep : Inodep) :
    Into inodep (Fs.fileCreat p filename mode inodep : FsM H (ℤ × Option InodeId)) := by
  have onInodes : ∀ {β : Type} {prog : FsM H β}, OnInodes prog → Into inodep prog :=
    fun uses => uses.below.into
  refine Only.bind (nameicore p filename true true).into fun found => ?_
  dsimp only
  split
  · exact Only.pure _
  refine Only.bind (onInodes (denies rfl p _ _)) fun denied => ?_
  split
  · exact Only.bind (onInodes (iput _)) fun _ => Only.pure _
  have allocates : OnInodes (Fs.ialloc p mode : FsM H (Option InodeId)) :=
    bind (op rfl) fun _ => iallocLoop p mode _ _ _
  refine Only.bind (onInodes allocates) fun allocated => ?_
  cases allocated with
  | none => exact onInodes (stop rfl)
  | some i =>
      refine Only.bind (setInto inodep i) fun _ => ?_
      refine Only.bind (onInodes (op rfl)) fun _ => ?_
      refine Only.bind (onInodes (getInode rfl i)) fun node => ?_
      refine Only.bind (wdir p _ _ _).into fun _ => ?_
      refine Only.bind (onInodes ((inodepAgain inodep i).more (by simp))) fun found => ?_
      split
      · exact onInodes (stop rfl)
      refine Only.bind (onInodes (op rfl)) fun _ => ?_
      refine Only.bind (onInodes (op rfl)) fun _ => ?_
      refine Only.bind (onInodes (op rfl)) fun _ => ?_
      exact Only.bind (onInodes (iput _)) fun _ => Only.pure _

theorem fileCreat (p : ProcId) (filename : List Byte) (mode : ℕ) :
    BelowTables (Fs.fileCreat p filename mode .own : FsM H (ℤ × Option InodeId)) :=
  of_own (fileCreatInto p filename mode .own)

/-! ## System calls that leave the pipes alone -/

theorem openTrunc (f : FileId) (i : InodeId) (flags : ℕ) :
    BesidePipes (Fs.openTrunc f i flags : FsM H Unit) := by
  unfold Fs.openTrunc
  split
  · refine bind (op rfl) fun _ => ?_
    refine bind (op rfl) fun _ => ?_
    refine bind ((itrunc i).more (by simp)) fun _ => ?_
    exact bind ((inodeAgain f i).more (by simp)) fun found => (iunlockPtr found).more (by simp)
  split
  · exact bind (getInode rfl i) fun node => op rfl
  · exact pure ()

theorem sysUtime (p : ProcId) (filename : List Byte) (times : Option ℤ) :
    BelowTables (Fs.sysUtime p filename times : FsM H ℤ) := by
  refine bind (nameicore p filename false false) fun found => ?_
  split
  · exact pure _
  refine bind (op rfl) fun _ => ?_
  refine bind (op rfl) fun core => ?_
  refine bind (op rfl) fun _ => ?_
  refine bind (op rfl) fun _ => ?_
  exact bind (iunlockput _).below fun _ => pure _

theorem sysMkdir (p : ProcId) (pathname : List Byte) (mode : ℕ) :
    BelowTables (Fs.sysMkdir p pathname mode : FsM H ℤ) := by
  refine bind (getProc rfl p) fun proc => ?_
  split
  · exact pure _
  refine bind (denies rfl p _ _) fun denied => ?_
  split
  · exact pure _
  refine bind (fileCreat p pathname _) fun (error, created) => ?_
  cases created with
  | none => exact pure _
  | some i =>
      refine bind ?_ fun _ => pure _
      refine bind (getInode rfl i) fun node => ?_
      refine bind (wdir p i _ _) fun _ => ?_
      refine bind (op rfl) fun _ => ?_
      refine bind (getProc rfl p) fun proc => ?_
      split
      · exact stop rfl
      refine bind (op rfl) fun _ => ?_
      refine bind (getInode rfl _) fun node => ?_
      refine bind (wdir p i _ _) fun _ => ?_
      refine bind (op rfl) fun _ => ?_
      refine bind (op rfl) fun _ => ?_
      refine bind (op rfl) fun _ => ?_
      refine bind (iunlockput _).below fun _ => ?_
      exact bind (op rfl) fun _ => (iput i).below

theorem fileRead (p : ProcId) (f : FileId) (nbytes : ℕ) :
    BesidePipes (Fs.fileRead p f nbytes : FsM H (ℤ × List Byte)) := by
  refine bind ((fileInode f).more (by simp)) fun i => ?_
  refine bind (op rfl) fun _ => ?_
  refine bind (op rfl) fun _ => ?_
  refine bind (getFile rfl f) fun file => ?_
  refine bind ((readi p _ _ _).more (by simp)) fun result => ?_
  refine bind (when (op rfl)) fun _ => ?_
  refine bind ((inodeAgain f i).more (by simp)) fun found => ?_
  exact bind ((iunlockPtr found).more (by simp)) fun _ => pure _

theorem fileWrite (f : FileId) (src : List Byte) :
    BesidePipes (Fs.fileWrite f src : FsM H ℤ) := by
  refine bind ((fileInode f).more (by simp)) fun i => ?_
  refine bind (op rfl) fun _ => ?_
  refine bind (op rfl) fun _ => ?_
  refine bind (getFile rfl f) fun file => ?_
  refine bind ((writei _ src _).more (by simp)) fun ret => ?_
  refine bind (when (op rfl)) fun _ => ?_
  refine bind ((inodeAgain f i).more (by simp)) fun found => ?_
  exact bind ((iunlockPtr found).more (by simp)) fun _ => pure _

theorem stat (p : ProcId) (path : List Byte) :
    BelowTables (Fs.stat p path : FsM H (ℤ × Option Stat)) := by
  refine bind (nameicore p path false false) fun found => ?_
  split
  · exact pure _
  refine bind (op rfl) fun _ => ?_
  refine bind (getInode rfl _) fun node => ?_
  exact bind (iunlockput _).below fun _ => pure _

theorem fstat (p : ProcId) (fd : ℤ) :
    BesidePipes (Fs.fstat p fd : FsM H (ℤ × Option Stat)) := by
  refine bind ((looseOpenFile p fd).more (by simp)) fun slot => ?_
  split
  · exact pure _
  · exact stop rfl
  refine bind ((fileInode _).more (by simp)) fun i => ?_
  refine bind (op rfl) fun _ => ?_
  refine bind (op rfl) fun _ => ?_
  refine bind (getInode rfl _) fun node => ?_
  exact bind (op rfl) fun _ => pure _

theorem sysExec (p : ProcId) (pathname : List Byte) :
    BelowTables (Fs.sysExec p pathname : FsM H ℤ) := by
  refine bind (nameicore p pathname true false) fun found => ?_
  dsimp only
  split
  · exact pure _
  refine bind (op rfl) fun _ => ?_
  refine bind (readi p _ _ _).below fun (nread, magic) => ?_
  refine bind (op rfl) fun _ => ?_
  dsimp only
  split
  · exact bind (iput _).below fun _ => pure _
  refine bind (op rfl) fun _ => ?_
  refine bind (getInode rfl _) fun node => ?_
  refine bind (readi p _ _ _).below fun (ret, _) => ?_
  refine bind (getInode rfl _) fun node => ?_
  split
  · exact stop rfl
  · exact bind (iunlockput _).below fun _ => pure _

theorem fork (p : ProcId) : BesidePipes (Fs.fork p : FsM H ℤ) := by
  refine bind (procAlloc.more (by simp)) fun allocated => ?_
  cases allocated with
  | none => exact pure _
  | some child =>
      refine bind (getProc rfl p) fun parent => ?_
      refine bind (op rfl) fun _ => ?_
      split
      · exact stop rfl
      refine bind (op rfl) fun _ => ?_
      refine bind (op rfl) fun _ => ?_
      refine bind ((forkFiles p child _).more (by simp)) fun _ => ?_
      refine bind (op rfl) fun _ => ?_
      exact bind (getProc rfl child) fun _ => pure _

end Uses

end Osix
