import Osix.Fs.Kernel

/-!
# Buffers are given back

Each function of the file system code releases exactly the buffers it has got, and holds
no more than two of them at any time. `bufferSpec` is the discipline that says so of a
program without regard to what the operations do: `bread` adds a buffer to the ones the
process holds and must find at most one there, all other buffer operations are on a
buffer that is held, and `brelse` gives it up.

`Balanced need prog` says that a program follows the discipline, gives back what it takes
and needs room for `need` buffers. The system calls are balanced, and so the 64 buffers
suffice for eight processes (`noBuffersFree_unreachable`).
-/

namespace Osix

open Program

variable {H : Type} [DecidableEq H] {α β : Type}

/-- A process holds at most this many buffers. -/
def maxHeld : ℕ := 2

/-- The discipline of a process that holds the buffers in a list. -/
def bufferSpec : Spec (FsOp H) FsOp.Reply (List H) where
  before operation post held :=
    match operation, post with
    | .bread _ _, post => held.length < maxHeld ∧ ∀ buf, post buf (buf :: held)
    | .bdata buf, post => buf ∈ held ∧ ∀ data, post data held
    | .bstore buf _, post => buf ∈ held ∧ post () held
    | .bdirty buf, post => buf ∈ held ∧ post () held
    | .bwrite buf, post => buf ∈ held ∧ post () held
    | .brelse buf, post => buf ∈ held ∧ post () (held.erase buf)
    | .stop why, _ => why ≠ .panic .noBuffersFree
    | _, post => ∀ reply, post reply held
  mono {operation post post' held} weaker := by
    cases operation with
    | bread dev blockNo => exact And.imp_right fun holds buf => weaker _ _ (holds buf)
    | bdata buf => exact And.imp_right fun holds data => weaker _ _ (holds data)
    | bstore buf change => exact And.imp_right (weaker _ _)
    | bdirty buf => exact And.imp_right (weaker _ _)
    | bwrite buf => exact And.imp_right (weaker _ _)
    | brelse buf => exact And.imp_right (weaker _ _)
    | stop why => exact id
    | _ => exact fun holds reply => weaker _ _ (holds reply)

/-- Operations that have nothing to do with buffers are free. -/
theorem bufferSpec_neutral {operation : FsOp H} {post : operation.Reply → List H → Prop}
    {held : List H} (free : operation.kind ≠ .buffer) :
    bufferSpec.before operation post held ↔ ∀ reply, post reply held := by
  cases operation with
  | stop why =>
      refine iff_of_true ?_ fun reply => reply.elim
      rintro rfl
      exact free rfl
  | _ => first
    | exact Iff.rfl
    | exact absurd rfl free

/--
From the buffers `before` on top of those held already, the program gets to `after`, with
room for `need` buffers in all.
-/
def Takes (need : ℕ) (before : List H) (after : α → List H) (prog : FsM H α) : Prop :=
  ∀ held, held.length + need ≤ maxHeld →
    wp bufferSpec prog (fun value held' => held' = after value ++ held) (before ++ held)

/-- The program holds the same buffers before and after. -/
abbrev Steady (need : ℕ) (held : List H) (prog : FsM H α) : Prop :=
  Takes need held (fun _ => held) prog

/-- The program gives back exactly the buffers it takes. -/
abbrev Balanced (need : ℕ) (prog : FsM H α) : Prop := Steady need [] prog

namespace Takes

variable {need : ℕ} {before : List H}

theorem bind {middle : α → List H} {after : β → List H} {prog : FsM H α} {next : α → FsM H β}
    (first : Takes need before middle prog)
    (second : ∀ value, Takes need (middle value) after (next value)) :
    Takes need before after (prog >>= next) := by
  intro held room
  rw [wp_bind]
  refine wp_mono (fun value held' reached => ?_) (first held room)
  rw [reached]
  exact second value held room

/-- `bind` for a first program that keeps the buffers as they are. -/
theorem seq {after : β → List H} {prog : FsM H α} {next : α → FsM H β}
    (first : Steady need before prog)
    (second : ∀ value, Takes need before after (next value)) :
    Takes need before after (prog >>= next) :=
  first.bind second

theorem pure (value : α) (after : α → List H) :
    Takes need (after value) after (Pure.pure value : FsM H α) :=
  fun _ _ => rfl

theorem when {condition : Prop} [Decidable condition] {prog : FsM H Unit}
    (steady : Steady need before prog) : Steady need before (Prog.when condition prog) := by
  unfold Prog.when
  split
  · exact steady
  · exact pure () fun _ => before

theorem stop (after : α → List H) {why : Stop} (other : why ≠ .panic .noBuffersFree) :
    Takes need before after (Fs.stop why) :=
  fun _ _ => other

theorem bread (dev : Dev) (blockNo : ℕ) :
    Takes (need + 1) [] (fun buf : H => [buf]) (Fs.bread dev blockNo) := by
  intro held room
  refine ⟨?_, fun buf => rfl⟩
  simp only [List.nil_append]
  omega

theorem bdata (buf : H) : Steady need [buf] (Fs.bdata buf) :=
  fun _ _ => ⟨List.mem_cons_self, fun _ => rfl⟩

theorem bstore (buf : H) (change : Block → Block) :
    Steady need [buf] (Fs.bstore buf change) :=
  fun _ _ => ⟨List.mem_cons_self, rfl⟩

theorem bdirty (buf : H) : Steady need [buf] (Fs.bdirty buf) :=
  fun _ _ => ⟨List.mem_cons_self, rfl⟩

theorem bwrite (buf : H) : Steady need [buf] (Fs.bwrite buf) :=
  fun _ _ => ⟨List.mem_cons_self, rfl⟩

theorem brelse (buf : H) : Takes need [buf] (fun _ => []) (Fs.brelse buf) :=
  fun _ _ => ⟨List.mem_cons_self, List.erase_cons_head ..⟩

/-- An operation that has nothing to do with buffers. -/
theorem neutral {operation : FsOp H} (free : (operation.kind == .buffer) = false) :
    Steady need before (.perform operation) :=
  fun _ _ => (bufferSpec_neutral (bne_iff_ne.mp (congrArg not free))).mpr fun _ => rfl

end Takes

namespace Balanced

variable {need : ℕ}

theorem wp_self {prog : FsM H α} (balanced : Balanced need prog) {held : List H}
    (room : held.length + need ≤ maxHeld) :
    wp bufferSpec prog (fun _ held' => held' = held) held :=
  balanced held room

theorem mono {prog : FsM H α} (balanced : Balanced need prog) {need' : ℕ} (le : need ≤ need') :
    Balanced need' prog :=
  fun held room => balanced held (by omega)

/-- A balanced program may run while a buffer is held. -/
theorem hold {prog : FsM H α} (balanced : Balanced need prog) (buf : H) :
    Steady (need + 1) [buf] prog := by
  intro held room
  exact balanced (buf :: held) (by simp only [List.length_cons]; omega)

theorem bind {prog : FsM H α} {next : α → FsM H β} (first : Balanced need prog)
    (second : ∀ value, Balanced need (next value)) : Balanced need (prog >>= next) :=
  Takes.bind first second

theorem pure (value : α) : Balanced need (Pure.pure value : FsM H α) :=
  Takes.pure value fun _ => []

theorem map {prog : FsM H α} (balanced : Balanced need prog) (change : α → β) :
    Balanced need (change <$> prog) :=
  balanced.bind fun _ => pure _

theorem when {condition : Prop} [Decidable condition] {prog : FsM H Unit}
    (balanced : Balanced need prog) : Balanced need (Prog.when condition prog) :=
  Takes.when balanced

theorem whenSome {value : Option β} {prog : β → FsM H Unit}
    (balanced : ∀ present, Balanced need (prog present)) :
    Balanced need (Prog.whenSome value prog) := by
  unfold Prog.whenSome
  split
  · exact pure ()
  · exact balanced _

theorem stop {why : Stop} (other : why ≠ .panic .noBuffersFree) :
    Balanced need (Fs.stop why : FsM H α) :=
  Takes.stop _ other

theorem neutral {operation : FsOp H} (free : (operation.kind == .buffer) = false) :
    Balanced need (.perform operation) :=
  Takes.neutral free

theorem of_uses {kinds : List OpKind} {prog : FsM H α} (uses : Uses kinds prog)
    (free : kinds.contains .buffer = false) : Balanced need prog := by
  intro held room
  have ne : ∀ {operation : FsOp H}, operation.kind ∈ kinds → operation.kind ≠ .buffer := by
    rintro operation isKind isBuffer
    rw [isBuffer, ← List.contains_iff_mem, free] at isKind
    cases isKind
  refine uses.wp (· = held) (fun isKind same kept => ?_) rfl fun _ _ same => same
  exact (bufferSpec_neutral (ne isKind)).mpr fun reply => kept reply _ same

-- From here on the rules above are all that is used; unfolding would run the programs.
attribute [irreducible] Takes

theorem getInode (i : InodeId) : Balanced need (Fs.getInode i : FsM H Inode) :=
  bind (neutral rfl) fun _ => pure _

theorem getFile (f : FileId) : Balanced need (Fs.getFile f : FsM H File) :=
  bind (neutral rfl) fun _ => pure _

theorem getProc (p : ProcId) : Balanced need (Fs.getProc p : FsM H Proc) :=
  bind (neutral rfl) fun _ => pure _

theorem denies (p : ProcId) (i : InodeId) (mode : ℕ) :
    Balanced need (Fs.denies p i mode : FsM H Bool) :=
  bind (neutral rfl) fun _ => pure _

/-! ## The zone allocator -/

theorem ballocLoop (dev : Dev) (blocks zmapBlock blockNo : ℕ) :
    Balanced 1 (Fs.ballocLoop dev blocks zmapBlock blockNo : FsM H ℕ) := by
  induction blocks generalizing zmapBlock blockNo with
  | zero => exact bind (neutral rfl) fun _ => pure _
  | succ blocks ih =>
      refine Takes.bind (.bread dev zmapBlock) fun buf => ?_
      refine Takes.bind (.bdata buf) fun zmap => ?_
      split
      · refine Takes.bind (.bstore buf _) fun _ => ?_
        refine Takes.bind (.bwrite buf) fun _ => ?_
        exact Takes.bind (.brelse buf) fun _ => pure _
      · exact Takes.bind (.brelse buf) fun _ => ih _ _

theorem balloc (dev : Dev) : Balanced 1 (Fs.balloc dev : FsM H ℕ) :=
  bind (neutral rfl) fun _ => ballocLoop dev _ _ _

theorem bfree (dev : Dev) (blockNo : ℕ) : Balanced 1 (Fs.bfree dev blockNo : FsM H Unit) := by
  refine bind (neutral rfl) fun core => ?_
  dsimp only
  split
  · exact stop nofun
  · refine Takes.bind (.bread dev _) fun buf => ?_
    refine Takes.bind (.bdata buf) fun zmap => ?_
    split
    · refine Takes.bind (.bstore buf _) fun _ => ?_
      exact Takes.bind (.bwrite buf) fun _ => .brelse buf
    · exact Takes.stop _ nofun

/-! ## Inodes -/

theorem iget (dev : Dev) (inodeno : ℕ) : Balanced 1 (Fs.iget dev inodeno : FsM H InodeId) := by
  refine bind (neutral rfl) fun (i, cached) => ?_
  dsimp only
  split
  · exact pure i
  · refine bind (neutral rfl) fun core => ?_
    refine Takes.bind (.bread dev _) fun buf => ?_
    refine Takes.bind (.bdata buf) fun data => ?_
    refine Takes.seq (.neutral rfl) fun _ => ?_
    refine Takes.bind (.brelse buf) fun _ => ?_
    exact bind (neutral rfl) fun _ => pure i

theorem iupdate (i : InodeId) : Balanced 1 (Fs.iupdate i : FsM H Unit) := by
  refine bind (neutral rfl) fun core => ?_
  dsimp only
  split
  · refine Takes.bind (.bread _ _) fun buf => ?_
    refine Takes.bind ((getInode i).hold buf) fun node => ?_
    refine Takes.bind (.bstore buf _) fun _ => ?_
    refine Takes.seq (.neutral rfl) fun _ => ?_
    exact Takes.bind (.bwrite buf) fun _ => .brelse buf
  · exact pure ()

theorem bmapIndirect (i : InodeId) (entry : ℕ) :
    Balanced 2 (Fs.bmapIndirect i entry : FsM H ℕ) := by
  refine bind (getInode i) fun node => ?_
  split
  · refine Takes.bind (.bread _ _) fun buf => ?_
    refine Takes.bind (.bdata buf) fun data => ?_
    refine Takes.bind (.when ?_) fun _ => ?_
    · refine Takes.bind ((getInode i).hold buf) fun node => ?_
      refine Takes.bind ((balloc node.dev).hold buf) fun zone => ?_
      exact Takes.bind (.bstore buf _) fun _ => .bwrite buf
    · refine Takes.bind (.bdata buf) fun data => ?_
      exact Takes.bind (.brelse buf) fun _ => pure _
  · exact pure 0

theorem bmap (i : InodeId) (index : ℕ) (write : Bool) :
    Balanced 2 (Fs.bmap i index write : FsM H ℕ) := by
  refine bind (getInode i) fun node => ?_
  split
  · exact stop (by rintro ⟨⟩)
  split
  · refine bind (when ?_) fun _ => ?_
    · refine bind ((balloc node.dev).mono (by omega)) fun zone => ?_
      exact bind (neutral rfl) fun _ => neutral rfl
    · refine bind (getInode i) fun node => ?_
      exact bind (neutral rfl) fun _ => pure _
  split
  · refine bind (when ?_) fun _ => ?_
    · refine bind ((balloc node.dev).mono (by omega)) fun zone => ?_
      refine bind (neutral rfl) fun _ => ?_
      exact bind (neutral rfl) fun _ => neutral rfl
    · refine bind (bmapIndirect i _) fun zone => ?_
      exact bind (neutral rfl) fun _ => pure zone
  · exact stop (by rintro ⟨⟩)

/-! ## Character devices -/

theorem ttyReadLoop (p : ProcId) (i : InodeId) (t : TtyId) (dev : Dev) (count rounds : ℕ)
    (dest : ℕ → Byte) (pos : ℕ) (char : Byte) :
    Balanced need (Fs.ttyReadLoop p i t dev count rounds dest pos char :
      FsM H (ℤ × List Byte)) := by
  induction rounds generalizing dest pos char with
  | zero => exact stop nofun
  | succ rounds ih =>
      unfold Fs.ttyReadLoop
      split
      · exact pure _
      refine bind (neutral rfl) fun core => ?_
      dsimp only
      split
      · split
        · exact pure _
        · refine bind (neutral rfl) fun _ => ?_
          refine bind (neutral rfl) fun _ => ?_
          exact bind (neutral rfl) fun _ => ih _ _ _
      · refine bind (neutral rfl) fun _ => ?_
        split
        · refine bind (of_uses (Uses.ttyChar t dev dest pos _) rfl) fun line => ?_
          cases line with
          | more dest pos => exact ih _ _ _
          | ends dest pos => exact pure _
          | empty => exact pure _
        · exact pure _

theorem ttyRead (p : ProcId) (i : InodeId) (dev : Dev) (count : ℕ) :
    Balanced need (Fs.ttyRead p i dev count : FsM H (ℤ × List Byte)) := by
  unfold Fs.ttyRead
  split
  · exact stop nofun
  · refine bind (neutral rfl) fun core => ?_
    exact bind (neutral rfl) fun _ => ttyReadLoop p i _ dev count _ _ _ _

theorem cdevRead (p : ProcId) (i : InodeId) (dev : Dev) (count : ℕ) :
    Balanced need (Fs.cdevRead p i dev count : FsM H (ℤ × List Byte)) := by
  unfold Fs.cdevRead
  split
  · exact pure _
  split
  · exact ttyRead p i dev count
  split
  · exact pure _
  · exact pure _

/-! ## Reading and writing -/

theorem readiBlockDev (dev : Dev) (rounds blockNo : ℕ) (offset : ℤ) (nbytes : ℕ) :
    Balanced 1 (Fs.readiBlockDev dev rounds blockNo offset nbytes : FsM H (List Byte)) := by
  induction rounds generalizing blockNo offset nbytes with
  | zero => exact pure _
  | succ rounds ih =>
      unfold Fs.readiBlockDev
      split
      · exact pure _
      refine Takes.bind (.bread dev blockNo) fun buf => ?_
      split
      · exact Takes.stop _ (by rintro ⟨⟩)
      · refine Takes.bind (.bdata buf) fun data => ?_
        refine Takes.bind (.brelse buf) fun _ => ?_
        exact bind (ih _ _ _) fun _ => pure _

theorem readiLoop (i : InodeId) (rounds bindex : ℕ) (offset : ℤ) (remaining : ℕ) :
    Balanced 2 (Fs.readiLoop i rounds bindex offset remaining : FsM H (List Byte)) := by
  induction rounds generalizing bindex offset remaining with
  | zero => exact pure _
  | succ rounds ih =>
      unfold Fs.readiLoop
      split
      · exact pure _
      refine bind (bmap i bindex false) fun blockNo => ?_
      refine bind (getInode i) fun node => ?_
      refine Takes.bind (.bread node.dev blockNo) fun buf => ?_
      split
      · exact Takes.stop _ (by rintro ⟨⟩)
      · refine Takes.bind (.bdata buf) fun data => ?_
        refine Takes.bind (.brelse buf) fun _ => ?_
        exact bind (ih _ _ _) fun _ => pure _

theorem readi (p : ProcId) (i : InodeId) (offset : ℤ) (nbytes : ℕ) :
    Balanced 2 (Fs.readi p i offset nbytes : FsM H (ℤ × List Byte)) := by
  refine bind (getInode i) fun node => ?_
  dsimp only
  split
  · exact stop nofun
  split
  · exact cdevRead p i _ nbytes
  split
  · exact bind ((readiBlockDev _ _ _ _ _).mono (by omega)) fun _ => pure _
  split
  · exact pure _
  · exact bind (readiLoop i _ _ _ _) fun _ => pure _

theorem writeiLoop (i : InodeId) (rounds bindex offset : ℕ) (src : List Byte) :
    Balanced 2 (Fs.writeiLoop i rounds bindex offset src : FsM H Unit) := by
  induction rounds generalizing bindex offset src with
  | zero => exact pure ()
  | succ rounds ih =>
      unfold Fs.writeiLoop
      split
      · exact pure ()
      refine bind (bmap i bindex true) fun blockNo => ?_
      refine bind (getInode i) fun node => ?_
      refine bind (neutral rfl) fun _ => ?_
      refine Takes.bind (.bread node.dev blockNo) fun buf => ?_
      refine Takes.bind (.bstore buf _) fun _ => ?_
      refine Takes.bind (.bwrite buf) fun _ => ?_
      exact Takes.bind (.brelse buf) fun _ => ih _ _ _

theorem writei (i : InodeId) (src : List Byte) (offset : ℕ) :
    Balanced 2 (Fs.writei i src offset : FsM H ℤ) := by
  refine bind (getInode i) fun node => ?_
  dsimp only
  split
  · exact stop (by rintro ⟨⟩)
  split
  · exact of_uses (Uses.cdevWrite _ src) rfl
  split
  · exact stop (by rintro ⟨⟩)
  split
  · exact stop (by rintro ⟨⟩)
  · refine bind (writeiLoop i _ _ _ src) fun _ => ?_
    refine bind (getInode i) fun node => ?_
    refine bind (when ?_) fun _ => pure _
    exact bind (neutral rfl) fun _ => neutral rfl

/-! ## Releasing and allocating inodes -/

theorem itruncDirect (i : InodeId) (zones : List (Fin ndirect)) :
    Balanced 1 (Fs.itruncDirect i zones : FsM H Unit) := by
  induction zones with
  | nil => exact pure ()
  | cons zone rest ih =>
      refine bind (getInode i) fun node => ?_
      refine bind (when ?_) fun _ => ih
      exact bind (bfree _ _) fun _ => neutral rfl

/-- The indirect block stays held while the zones it lists are freed. -/
theorem itruncEntries (i : InodeId) (buf : H) (entries : List ℕ) :
    Steady 2 [buf] (Fs.itruncEntries i buf entries : FsM H Unit) := by
  induction entries with
  | nil => exact Takes.pure () fun _ => [buf]
  | cons entry rest ih =>
      refine Takes.bind (.bdata buf) fun data => ?_
      refine Takes.bind (.when ?_) fun _ => ih
      refine Takes.bind ((getInode i).hold buf) fun node => ?_
      exact (bfree _ _).hold buf

theorem itrunc (i : InodeId) : Balanced 2 (Fs.itrunc i : FsM H Unit) := by
  refine bind (getInode i) fun node => ?_
  split
  · exact stop (by rintro ⟨⟩)
  refine bind ((itruncDirect i _).mono (by omega)) fun _ => ?_
  refine bind (getInode i) fun node => ?_
  refine bind (when ?_) fun _ => ?_
  · refine Takes.bind (.bread _ _) fun buf => ?_
    refine Takes.bind (itruncEntries i buf _) fun _ => ?_
    refine Takes.bind (.brelse buf) fun _ => ?_
    refine bind (getInode i) fun node => ?_
    exact bind ((bfree _ _).mono (by omega)) fun _ => neutral rfl
  · refine bind (neutral rfl) fun _ => ?_
    refine bind (neutral rfl) fun _ => ?_
    exact (iupdate i).mono (by omega)

theorem ifree (dev : Dev) (inodeno : ℕ) : Balanced 1 (Fs.ifree dev inodeno : FsM H Unit) := by
  refine bind (neutral rfl) fun core => ?_
  dsimp only
  split
  · exact stop nofun
  split
  · exact stop nofun
  · refine Takes.bind (.bread dev _) fun buf => ?_
    refine Takes.bind (.bdata buf) fun imap => ?_
    split
    · refine Takes.bind (.bstore buf _) fun _ => ?_
      exact Takes.bind (.bwrite buf) fun _ => .brelse buf
    · exact Takes.stop _ nofun

theorem ireclaim (i : InodeId) : Balanced 2 (Fs.ireclaim i : FsM H Unit) := by
  refine bind (neutral rfl) fun _ => ?_
  refine bind (neutral rfl) fun _ => ?_
  refine bind (itrunc i) fun _ => ?_
  refine bind (neutral rfl) fun _ => ?_
  refine bind (getInode i) fun node => ?_
  refine bind ((ifree _ _).mono (by omega)) fun _ => ?_
  refine bind (neutral rfl) fun _ => ?_
  exact bind ((iupdate i).mono (by omega)) fun _ => neutral rfl

theorem iput (i : InodeId) : Balanced 2 (Fs.iput i : FsM H Unit) := by
  refine bind (neutral rfl) fun last => ?_
  refine bind (when ?_) fun _ => neutral rfl
  refine bind (getInode i) fun node => ?_
  exact bind (when (ireclaim i)) fun _ => neutral rfl

theorem iunlockput (i : InodeId) : Balanced 2 (Fs.iunlockput i : FsM H Unit) :=
  bind (neutral rfl) fun _ => iput i

theorem iallocLoop (p : ProcId) (mode blocks imapBlock inodeno : ℕ) :
    Balanced 1 (Fs.iallocLoop p mode blocks imapBlock inodeno : FsM H (Option InodeId)) := by
  induction blocks generalizing imapBlock inodeno with
  | zero => exact pure none
  | succ blocks ih =>
      refine Takes.bind (.bread rootDev imapBlock) fun buf => ?_
      refine Takes.bind (.bdata buf) fun imap => ?_
      split
      · refine Takes.bind (.bstore buf _) fun _ => ?_
        refine Takes.bind (.bdirty buf) fun _ => ?_
        refine Takes.bind (.brelse buf) fun _ => ?_
        refine bind (iget _ _) fun i => ?_
        refine bind (neutral rfl) fun _ => ?_
        refine bind (neutral rfl) fun core => ?_
        refine bind (neutral rfl) fun _ => ?_
        exact bind (neutral rfl) fun _ => pure _
      · exact Takes.bind (.brelse buf) fun _ => ih _ _

theorem ialloc (p : ProcId) (mode : ℕ) :
    Balanced 1 (Fs.ialloc p mode : FsM H (Option InodeId)) :=
  bind (neutral rfl) fun _ => iallocLoop p mode _ _ _

/-! ## Path names -/

theorem nextInode (i : InodeId) (ndirent : ℕ) (dir component : List Byte) :
    Balanced 2 (Fs.nextInode i ndirent dir component : FsM H (Option InodeId)) := by
  refine bind (neutral rfl) fun core => ?_
  split
  · exact pure none
  · exact bind ((iget _ _).mono (by omega)) fun _ => pure _

theorem iputPtr (i : Option InodeId) : Balanced 2 (Fs.iputPtr i : FsM H Unit) := by
  cases i with
  | none => exact stop nofun
  | some i => exact iput i

theorem iunlockPtr (i : Option InodeId) : Balanced 2 (Fs.iunlockPtr i : FsM H Unit) := by
  cases i with
  | none => exact stop nofun
  | some i => exact neutral rfl

theorem readDir (p : ProcId) (i : InodeId) :
    Balanced 2 (Fs.readDir p i : FsM H (ℤ × ℕ × List Byte)) := by
  refine bind (neutral rfl) fun _ => ?_
  refine bind (getInode i) fun node => ?_
  refine bind (neutral rfl) fun core => ?_
  split
  · exact stop nofun
  refine bind (readi p i _ _) fun result => ?_
  dsimp only
  split
  · exact stop nofun
  · exact pure _

theorem nameicoreLoop (p : ProcId) (named parent : Bool) (inodep : Inodep) (rounds : ℕ)
    (path : List Byte) (i : InodeId) (name : List Byte) :
    Balanced 2 (Fs.nameicoreLoop p named parent inodep rounds path i name : FsM H Found) := by
  induction rounds generalizing path i name with
  | zero => exact pure _
  | succ rounds ih =>
      unfold Fs.nameicoreLoop
      split
      · exact pure _
      refine bind (neutral rfl) fun _ => ?_
      refine bind (denies p i iexec) fun denied => ?_
      split
      · exact bind (iunlockput i) fun _ => pure _
      refine bind (readDir p i) fun result => ?_
      rcases result with ⟨ret, ndirent, dir⟩
      refine bind (of_uses (Uses.inodepAgain inodep i) rfl) fun found => ?_
      split
      · exact stop nofun
      rename_i j
      refine bind (getInode j) fun node => ?_
      split
      · exact bind (iunlockput j) fun _ => pure _
      refine bind (neutral rfl) fun _ => ?_
      refine bind (nextInode j _ dir _) fun next => ?_
      refine bind (of_uses (Uses.storeName named _ _) rfl) fun name => ?_
      split
      · exact bind (whenSome iput) fun _ => pure _
      refine bind (of_uses (Uses.inodepAgain inodep j) rfl) fun found => ?_
      refine bind (iputPtr found) fun _ => ?_
      split
      · exact pure _
      · exact bind (of_uses (Uses.setInodep inodep _) rfl) fun _ => ih _ _ _

theorem nameicoreStart (p : ProcId) (path : List Byte) :
    Balanced 2 (Fs.nameicoreStart p path : FsM H InodeId) := by
  unfold Fs.nameicoreStart
  split
  · exact (iget _ _).mono (by omega)
  · refine bind (getProc p) fun proc => ?_
    split
    · exact stop nofun
    · exact bind (neutral rfl) fun _ => pure _

theorem nameicore (p : ProcId) (path : List Byte) (named parent : Bool) (inodep : Inodep) :
    Balanced 2 (Fs.nameicore p path named parent inodep : FsM H Found) := by
  refine bind (nameicoreStart p path) fun start => ?_
  refine bind (of_uses (Uses.setInodep inodep start) rfl) fun _ => ?_
  exact bind (neutral rfl) fun core => nameicoreLoop p named parent inodep _ _ start _

theorem namei (p : ProcId) (path : List Byte) (inodep : Inodep) :
    Balanced 2 (Fs.namei p path inodep : FsM H Found) :=
  nameicore p path false false inodep

theorem parenti (p : ProcId) (path : List Byte) (inodep : Inodep) :
    Balanced 2 (Fs.parenti p path inodep : FsM H Found) :=
  nameicore p path true true inodep

theorem chdir (p : ProcId) (path : Option (List Byte)) :
    Balanced 2 (Fs.chdir p path : FsM H ℤ) := by
  cases path with
  | none => exact pure _
  | some path =>
      refine bind (namei p path .own) fun found => ?_
      split
      · exact pure _
      refine bind (denies p _ _) fun denied => ?_
      split
      · exact bind (iput _) fun _ => pure _
      refine bind (getInode _) fun node => ?_
      split
      · exact bind (iput _) fun _ => pure _
      refine bind (getProc p) fun proc => ?_
      refine bind (whenSome iput) fun _ => ?_
      exact bind (neutral rfl) fun _ => pure _

/-! ## Pipes and open files -/

theorem inodeFileClose (f : FileId) : Balanced 2 (Fs.inodeFileClose f : FsM H Unit) := by
  refine bind (getFile f) fun file => ?_
  split
  · exact stop (by rintro ⟨⟩)
  refine bind (neutral rfl) fun _ => ?_
  refine when (whenSome fun i => ?_)
  exact bind (iput i) fun _ => neutral rfl

theorem fileClose (f : FileId) : Balanced 2 (Fs.fileClose f : FsM H Unit) := by
  refine bind (getFile f) fun file => ?_
  split
  · exact of_uses (Uses.pipeClose f) rfl
  · exact inodeFileClose f

theorem close (p : ProcId) (fd : ℤ) : Balanced 2 (Fs.close p fd : FsM H ℤ) := by
  refine bind (of_uses (Uses.openFile p fd) rfl) fun file => ?_
  split
  · exact pure _
  · refine bind (fileClose _) fun _ => ?_
    exact bind (neutral rfl) fun _ => pure _

/-! ## Directories -/

theorem wdirLoop (p : ProcId) (dir : InodeId) (rounds offset : ℕ) :
    Balanced 2 (Fs.wdirLoop p dir rounds offset : FsM H ℕ) := by
  induction rounds generalizing offset with
  | zero => exact stop nofun
  | succ rounds ih =>
      refine bind (readi p dir _ _) fun (ret, entry) => ?_
      dsimp only
      split
      · split
        · exact pure _
        · exact ih _
      · exact pure _

theorem wdir (p : ProcId) (dir : InodeId) (inodeno : ℕ) (filename : List Byte) :
    Balanced 2 (Fs.wdir p dir inodeno filename : FsM H Unit) := by
  refine bind (neutral rfl) fun _ => ?_
  refine bind (neutral rfl) fun core => ?_
  refine bind (wdirLoop p dir _ _) fun offset => ?_
  refine bind (writei dir _ _) fun _ => ?_
  refine bind (getInode dir) fun node => ?_
  refine bind (when ?_) fun _ => neutral rfl
  exact bind (neutral rfl) fun _ => neutral rfl

theorem unlinkEntry (parent : InodeId) (inodeno : ℕ) (entry : List Byte) (offset : ℕ) :
    Balanced 2 (Fs.unlinkEntry parent inodeno entry offset : FsM H ℤ) := by
  refine bind (writei parent _ _) fun _ => ?_
  refine bind (neutral rfl) fun _ => ?_
  refine bind (getInode parent) fun node => ?_
  refine bind ((iget _ _).mono (by omega)) fun i => ?_
  refine bind (neutral rfl) fun _ => ?_
  refine bind (getInode i) fun node => ?_
  split
  · exact stop nofun
  refine bind (neutral rfl) fun _ => ?_
  refine bind (neutral rfl) fun _ => ?_
  refine bind (iunlockput parent) fun _ => ?_
  refine bind ((iupdate i).mono (by omega)) fun _ => ?_
  exact bind (iunlockput i) fun _ => pure _

theorem unlinkLoop (p : ProcId) (parent : InodeId) (filename : List Byte) (rounds offset : ℕ) :
    Balanced 2 (Fs.unlinkLoop p parent filename rounds offset : FsM H ℤ) := by
  induction rounds generalizing offset with
  | zero => exact stop nofun
  | succ rounds ih =>
      refine bind (readi p parent _ _) fun (ret, entry) => ?_
      dsimp only
      split
      · refine bind (neutral rfl) fun core => ?_
        split
        · exact unlinkEntry parent _ entry offset
        · exact ih _
      · exact bind (iunlockput parent) fun _ => pure _

theorem sysUnlink (p : ProcId) (filepath : List Byte) :
    Balanced 2 (Fs.sysUnlink p filepath : FsM H ℤ) := by
  refine bind (parenti p filepath .own) fun found => ?_
  dsimp only
  split
  · exact pure _
  refine bind (getInode _) fun node => ?_
  split
  · exact bind (iput _) fun _ => pure _
  refine bind (denies p _ _) fun denied => ?_
  split
  · exact bind (iput _) fun _ => pure _
  refine bind (neutral rfl) fun _ => ?_
  exact bind (neutral rfl) fun core => unlinkLoop p _ _ _ _

theorem fileCreat (p : ProcId) (filename : List Byte) (mode : ℕ) (inodep : Inodep) :
    Balanced 2 (Fs.fileCreat p filename mode inodep : FsM H (ℤ × Option InodeId)) := by
  refine bind (parenti p filename .own) fun found => ?_
  dsimp only
  split
  · exact pure _
  refine bind (denies p _ _) fun denied => ?_
  split
  · exact bind (iput _) fun _ => pure _
  refine bind ((ialloc p mode).mono (by omega)) fun allocated => ?_
  cases allocated with
  | none => exact stop nofun
  | some i =>
      refine bind (of_uses (Uses.setInodep inodep i) rfl) fun _ => ?_
      refine bind (neutral rfl) fun _ => ?_
      refine bind (getInode i) fun node => ?_
      refine bind (wdir p _ _ _) fun _ => ?_
      refine bind (of_uses (Uses.inodepAgain inodep i) rfl) fun found => ?_
      split
      · exact stop nofun
      refine bind (neutral rfl) fun _ => ?_
      refine bind (neutral rfl) fun _ => ?_
      refine bind (neutral rfl) fun _ => ?_
      exact bind (iput _) fun _ => pure _

/-! ## Opening and creating -/

theorem openTrunc (f : FileId) (i : InodeId) (flags : ℕ) :
    Balanced 2 (Fs.openTrunc f i flags : FsM H Unit) := by
  unfold Fs.openTrunc
  split
  · refine bind (neutral rfl) fun _ => ?_
    refine bind (neutral rfl) fun _ => ?_
    refine bind (itrunc i) fun _ => ?_
    exact bind (of_uses (Uses.inodeAgain f i) rfl) fun found => iunlockPtr found
  split
  · exact bind (getInode i) fun node => neutral rfl
  · exact pure ()

theorem openInode (p : ProcId) (f : FileId) (flags : ℕ) :
    Balanced 2 (Fs.openInode p f flags : FsM H ℤ) := by
  refine bind (getFile f) fun file => ?_
  split
  · exact bind (fileClose f) fun _ => pure _
  refine bind (denies p _ _) fun denied => ?_
  split
  · exact bind (fileClose f) fun _ => pure _
  · exact bind (openTrunc f _ flags) fun _ => of_uses (Uses.fileFdAlloc p f) rfl

theorem sysOpen (p : ProcId) (filename : List Byte) (flags mode : ℕ) :
    Balanced 2 (Fs.sysOpen p filename flags mode : FsM H ℤ) := by
  unfold Fs.sysOpen
  split
  · exact pure _
  refine bind (of_uses Uses.fileAlloc rfl) fun allocated => ?_
  cases allocated with
  | none => exact pure _
  | some f =>
      refine bind (neutral rfl) fun _ => ?_
      refine bind (namei p filename (.file f)) fun found => ?_
      split
      · exact bind (fileCreat p filename _ _) fun _ => openInode p f flags
      split
      · exact bind (fileClose f) fun _ => pure _
      · exact openInode p f flags

theorem sysUtime (p : ProcId) (filename : List Byte) (times : Option ℤ) :
    Balanced 2 (Fs.sysUtime p filename times : FsM H ℤ) := by
  refine bind (namei p filename .own) fun found => ?_
  split
  · exact pure _
  refine bind (neutral rfl) fun _ => ?_
  refine bind (neutral rfl) fun core => ?_
  refine bind (neutral rfl) fun _ => ?_
  refine bind (neutral rfl) fun _ => ?_
  exact bind (iunlockput _) fun _ => pure _

theorem mkdirEntries (p : ProcId) (i : InodeId) :
    Balanced 2 (Fs.mkdirEntries p i : FsM H Unit) := by
  refine bind (getInode i) fun node => ?_
  refine bind (wdir p i _ _) fun _ => ?_
  refine bind (neutral rfl) fun _ => ?_
  refine bind (getProc p) fun proc => ?_
  split
  · exact stop nofun
  refine bind (neutral rfl) fun _ => ?_
  refine bind (getInode _) fun node => ?_
  refine bind (wdir p i _ _) fun _ => ?_
  refine bind (neutral rfl) fun _ => ?_
  refine bind (neutral rfl) fun _ => ?_
  refine bind (neutral rfl) fun _ => ?_
  refine bind (iunlockput _) fun _ => ?_
  exact bind (neutral rfl) fun _ => iput i

theorem sysMkdir (p : ProcId) (pathname : List Byte) (mode : ℕ) :
    Balanced 2 (Fs.sysMkdir p pathname mode : FsM H ℤ) := by
  refine bind (getProc p) fun proc => ?_
  split
  · exact pure _
  refine bind (denies p _ _) fun denied => ?_
  split
  · exact pure _
  refine bind (fileCreat p pathname _ .own) fun (error, created) => ?_
  cases created with
  | none => exact pure _
  | some i => exact bind (mkdirEntries p i) fun _ => pure _

/-! ## Descriptors -/

theorem dup2 (p : ProcId) (oldFd newFd : ℤ) : Balanced 2 (Fs.dup2 p oldFd newFd : FsM H ℤ) := by
  refine bind (of_uses (Uses.looseOpenFile p oldFd) rfl) fun slot => ?_
  split
  · exact pure _
  · exact stop nofun
  split
  · exact pure _
  refine bind (neutral rfl) fun _ => ?_
  split
  · exact stop nofun
  refine bind (getProc p) fun proc => ?_
  refine bind (whenSome fileClose) fun _ => ?_
  refine bind (getProc p) fun proc => ?_
  split
  · exact stop nofun
  · refine bind (neutral rfl) fun _ => ?_
    exact bind (neutral rfl) fun _ => pure _

theorem fileRead (p : ProcId) (f : FileId) (nbytes : ℕ) :
    Balanced 2 (Fs.fileRead p f nbytes : FsM H (ℤ × List Byte)) := by
  refine bind (of_uses (Uses.fileInode f) rfl) fun i => ?_
  refine bind (neutral rfl) fun _ => ?_
  refine bind (neutral rfl) fun _ => ?_
  refine bind (getFile f) fun file => ?_
  refine bind (readi p _ _ _) fun result => ?_
  refine bind (when (neutral rfl)) fun _ => ?_
  refine bind (of_uses (Uses.inodeAgain f i) rfl) fun found => ?_
  exact bind (iunlockPtr found) fun _ => pure _

theorem fileWrite (f : FileId) (src : List Byte) :
    Balanced 2 (Fs.fileWrite f src : FsM H ℤ) := by
  refine bind (of_uses (Uses.fileInode f) rfl) fun i => ?_
  refine bind (neutral rfl) fun _ => ?_
  refine bind (neutral rfl) fun _ => ?_
  refine bind (getFile f) fun file => ?_
  refine bind (writei _ src _) fun ret => ?_
  refine bind (when (neutral rfl)) fun _ => ?_
  refine bind (of_uses (Uses.inodeAgain f i) rfl) fun found => ?_
  exact bind (iunlockPtr found) fun _ => pure _

theorem read (p : ProcId) (fd : ℤ) (nbytes : ℕ) :
    Balanced 2 (Fs.read p fd nbytes : FsM H (ℤ × List Byte)) := by
  refine bind (of_uses (Uses.openFile p fd) rfl) fun found => ?_
  split
  · exact pure _
  refine bind (getFile _) fun file => ?_
  split
  · exact fileRead p _ nbytes
  · exact of_uses (Uses.pipeRead _ nbytes) rfl

theorem write (p : ProcId) (fd : ℤ) (src : List Byte) :
    Balanced 2 (Fs.write p fd src : FsM H ℤ) := by
  refine bind (of_uses (Uses.openFile p fd) rfl) fun found => ?_
  split
  · exact pure _
  refine bind (getFile _) fun file => ?_
  split
  · exact fileWrite _ src
  · exact of_uses (Uses.pipeWrite _ src) rfl

theorem stat (p : ProcId) (path : List Byte) :
    Balanced 2 (Fs.stat p path : FsM H (ℤ × Option Stat)) := by
  refine bind (namei p path .own) fun found => ?_
  split
  · exact pure _
  refine bind (neutral rfl) fun _ => ?_
  refine bind (getInode _) fun node => ?_
  exact bind (iunlockput _) fun _ => pure _

theorem fstat (p : ProcId) (fd : ℤ) :
    Balanced need (Fs.fstat p fd : FsM H (ℤ × Option Stat)) := by
  refine bind (of_uses (Uses.looseOpenFile p fd) rfl) fun slot => ?_
  split
  · exact pure _
  · exact stop nofun
  refine bind (of_uses (Uses.fileInode _) rfl) fun i => ?_
  refine bind (neutral rfl) fun _ => ?_
  refine bind (neutral rfl) fun _ => ?_
  refine bind (getInode _) fun node => ?_
  exact bind (neutral rfl) fun _ => pure _

/-! ## Processes -/

theorem sysExec (p : ProcId) (pathname : List Byte) :
    Balanced 2 (Fs.sysExec p pathname : FsM H ℤ) := by
  refine bind (nameicore p pathname true false .own) fun found => ?_
  dsimp only
  split
  · exact pure _
  refine bind (neutral rfl) fun _ => ?_
  refine bind (readi p _ _ _) fun (nread, magic) => ?_
  refine bind (neutral rfl) fun _ => ?_
  dsimp only
  split
  · exact bind (iput _) fun _ => pure _
  refine bind (neutral rfl) fun _ => ?_
  refine bind (getInode _) fun node => ?_
  refine bind (readi p _ _ _) fun (ret, _) => ?_
  refine bind (getInode _) fun node => ?_
  split
  · exact stop nofun
  · exact bind (iunlockput _) fun _ => pure _

theorem fork (p : ProcId) : Balanced need (Fs.fork p : FsM H ℤ) := by
  refine bind (of_uses Uses.procAlloc rfl) fun allocated => ?_
  cases allocated with
  | none => exact pure _
  | some child =>
      refine bind (getProc p) fun parent => ?_
      refine bind (neutral rfl) fun _ => ?_
      split
      · exact stop nofun
      refine bind (neutral rfl) fun _ => ?_
      refine bind (neutral rfl) fun _ => ?_
      refine bind (of_uses (Uses.forkFiles p child _) rfl) fun _ => ?_
      refine bind (neutral rfl) fun _ => ?_
      exact bind (getProc child) fun _ => pure _

theorem exitFiles (p : ProcId) (fds : List (Fin nfile)) :
    Balanced 2 (Fs.exitFiles p fds : FsM H Unit) := by
  induction fds with
  | nil => exact pure ()
  | cons fd rest ih =>
      refine bind (getProc p) fun proc => ?_
      exact bind (whenSome fileClose) fun _ => ih

theorem exit (p : ProcId) (status : ℤ) : Balanced 2 (Fs.exit p status : FsM H Unit) := by
  refine bind (of_uses (Uses.exitOrphans p _) rfl) fun _ => ?_
  refine bind (exitFiles p _) fun _ => ?_
  refine bind (getProc p) fun proc => ?_
  split
  · exact stop nofun
  · exact bind (iputPtr _) fun _ => neutral rfl

theorem pipeOpen (p : ProcId) (readEnd writeEnd : FileId) (pipe : PipeId) :
    Balanced 2 (Fs.pipeOpen p readEnd writeEnd pipe : FsM H ℤ) := by
  refine bind (neutral rfl) fun _ => ?_
  refine bind (neutral rfl) fun _ => ?_
  refine bind (neutral rfl) fun _ => ?_
  refine bind (neutral rfl) fun _ => ?_
  refine bind (of_uses (Uses.fileFdAlloc p readEnd) rfl) fun readFd => ?_
  refine bind (of_uses (Uses.fileFdAlloc p writeEnd) rfl) fun writeFd => ?_
  split
  · refine bind (neutral rfl) fun _ => ?_
    refine bind (fileClose readEnd) fun _ => ?_
    refine bind (fileClose writeEnd) fun _ => ?_
    exact bind (neutral rfl) fun _ => pure _
  · exact pure _

theorem sysPipe (p : ProcId) (fd : ℤ) : Balanced 2 (Fs.sysPipe p fd : FsM H ℤ) := by
  unfold Fs.sysPipe
  split
  · exact pure _
  refine bind (of_uses Uses.fileAlloc rfl) fun readEnd => ?_
  refine bind (of_uses Uses.fileAlloc rfl) fun writeEnd => ?_
  split
  · refine bind (neutral rfl) fun _ => ?_
    refine bind (neutral rfl) fun _ => ?_
    refine bind (neutral rfl) fun core => ?_
    split
    · refine bind (fileClose _) fun _ => ?_
      exact bind (fileClose _) fun _ => pure _
    · exact pipeOpen p _ _ _
  · exact bind (fileClose _) fun _ => pure _
  · exact bind (fileClose _) fun _ => pure _
  · exact pure _

/-- Every system call gives back exactly the buffers it takes. -/
theorem sysent (p : ProcId) (call : Call) :
    Balanced 2 (Osix.sysent p call : FsM H Answer) := by
  cases call with
  | read fd nbytes => exact bind (read p fd nbytes) fun _ => pure _
  | write fd src => exact map (write p fd src) _
  | «open» filename flags mode => exact map (sysOpen p filename flags mode) _
  | creat filename mode => exact map (sysOpen p filename _ mode) _
  | close fd => exact map (close p fd) _
  | dup fd => exact map (of_uses (Uses.dup p fd) rfl) _
  | dup2 oldFd newFd => exact map (dup2 p oldFd newFd) _
  | pipe fd => exact map (sysPipe p fd) _
  | lseek fd offset whence => exact map (of_uses (Uses.lseek p fd offset whence) rfl) _
  | chdir path => exact map (chdir p path) _
  | stat path => exact bind (stat p path) fun _ => pure _
  | fstat fd => exact bind (fstat p fd) fun _ => pure _
  | ioctl fd request termios =>
      exact bind (of_uses (Uses.ioctl p fd request termios) rfl) fun _ => pure _
  | utime filename times => exact map (sysUtime p filename times) _
  | unlink filepath => exact map (sysUnlink p filepath) _
  | mkdir pathname mode => exact map (sysMkdir p pathname mode) _
  | exec pathname => exact map (sysExec p pathname) _
  | fork => exact map (fork p) _
  | exit status => exact bind (exit p status) fun _ => pure _
  | wait => exact map (of_uses (Uses.wait p) rfl) _
  | setuid uid => exact map (of_uses (Uses.setId p _) rfl) _
  | setgid gid => exact map (of_uses (Uses.setId p _) rfl) _

end Balanced

end Osix
