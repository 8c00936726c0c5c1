import Osix.Fs.Footprint
import Mathlib.Data.Multiset.AddSub

/-!
# Who locks which inode

The discipline by which the file system code locks inodes, as far as a process can keep
it by itself. A process locks only inodes that its system call uses, through a reference
that it has got or through its open files, and unlocks only what it has locked. It looks
for an inode while it holds no lock, except in `sys_unlink`, which holds that of the
directory whose entry it has removed.

That a process does not lock an inode twice hangs on `ialloc`: `file_creat` locks the new
inode and then the directory, which are the same if the inode map is wrong. `strict` says
whether the discipline forbids this; then `ialloc` must not hand out an inode in use.

A process that reads `file->inode` again after a sleep is taken to find the inode it had
there before. Without `strict` the pointer may also be gone, which ends in a panic.
-/

namespace Osix

open Program

/-- What a process holds; `unlinking` is the inode whose entry it has just removed. -/
@[ext]
structure Holding where
  locks : Multiset InodeId
  uses : Multiset InodeId
  unlinking : Option ℕ

/-- Between system calls. -/
def Holding.outside : Holding := ⟨0, 0, none⟩

/-- A system call ends without locks. -/
def Holding.Clear (own : Holding) : Prop := own.locks = 0 ∧ own.unlinking = none

variable {H : Type} {α β : Type}

/-- The discipline of a process. -/
def lockSpec (strict : Prop) : Spec (FsOp H) FsOp.Reply Holding where
  before operation post own :=
    match operation, post with
    | .ifind _ inodeno, post =>
        (own.locks = 0 ∨ ∃ parent, own.locks = {parent} ∧ own.unlinking = some inodeno) ∧
          ∀ i, i ∉ own.locks → post (i, true) ⟨own.locks, i ::ₘ own.uses, none⟩ ∧
            post (i, false) ⟨i ::ₘ own.locks, i ::ₘ own.uses, none⟩
    | .ilock i, post =>
        own.unlinking = none ∧ i ∈ own.uses ∧ (strict → i ∉ own.locks) ∧
          (i ∉ own.locks → post () ⟨i ::ₘ own.locks, own.uses, none⟩)
    | .iunlock i, post =>
        own.unlinking = none ∧ i ∈ own.locks ∧ post () ⟨own.locks.erase i, own.uses, none⟩
    | .idup i, post => post () ⟨own.locks, i ::ₘ own.uses, own.unlinking⟩
    | .mark (.uses i), post => post () ⟨own.locks, i ::ₘ own.uses, own.unlinking⟩
    | .mark (.drops i), post => post () ⟨own.locks, own.uses.erase i, own.unlinking⟩
    | .mark (.newInode i), post => (strict → own.uses.count i ≤ 1) → post () own
    | .mark (.unlinks parent inodeno), post =>
        own.locks = {parent} ∧ post () ⟨own.locks, own.uses, some inodeno⟩
    | .mark (.again i found), post =>
        (∀ j, found = some j → j = i) → (strict → found = some i) → post () own
    | .stop why, _ => strict → why ≠ .panic .ilock ∧ why ≠ .panic .iunlock
    | _, post => ∀ reply, post reply own
  mono {operation post post' own} weaker := by
    cases operation with
    | ifind dev inodeno =>
        exact And.imp_right fun holds i free =>
          ⟨weaker _ _ (holds i free).1, weaker _ _ (holds i free).2⟩
    | ilock i =>
        exact And.imp_right (And.imp_right (And.imp_right fun holds free =>
          weaker _ _ (holds free)))
    | iunlock i => exact And.imp_right (And.imp_right (weaker _ _))
    | idup i => exact weaker _ _
    | mark event =>
        cases event with
        | uses i => exact weaker _ _
        | drops i => exact weaker _ _
        | newInode i => exact fun holds free => weaker _ _ (holds free)
        | unlinks parent inodeno => exact And.imp_right (weaker _ _)
        | again i found => exact fun holds same kept => weaker _ _ (holds same kept)
        | _ => exact fun holds reply => weaker _ _ (holds reply)
    | stop why => exact id
    | _ => exact fun holds reply => weaker _ _ (holds reply)

theorem lockSpec_neutral {strict : Prop} {operation : FsOp H}
    {post : operation.Reply → Holding → Prop} {own : Holding}
    (free : operation.kind ≠ .holding) :
    (lockSpec strict).before operation post own ↔ ∀ reply, post reply own := by
  cases operation with
  | stop why =>
      refine iff_of_true (fun _ => ⟨?_, ?_⟩) fun reply => reply.elim
      · rintro rfl
        exact free rfl
      · rintro rfl
        exact free rfl
  | mark event =>
      cases event <;> first
        | exact Iff.rfl
        | exact absurd rfl free
  | _ => first
    | exact Iff.rfl
    | exact absurd rfl free

/-- The program keeps to the discipline from `own` on and ends as `post` says. -/
def Guards (strict : Prop) (own : Holding) (prog : FsM H α) (post : α → Holding → Prop) : Prop :=
  wp (lockSpec strict) prog post own

/-- The last part of `dup2`, when the new descriptor is free. -/
def dup2Given {H : Type} (p : ProcId) (oldFd newFd : ℤ) : FsM H ℤ := do
  match (← Fs.getProc p).descriptor oldFd with
  | none => Fs.fault
  | some f =>
      Fs.fileDup f
      Fs.setProc p fun old =>
        { old with ofile := fun fd => if (fd : ℤ) = newFd then some f else old.ofile fd }
      return newFd

/-- What `sys_open` does when the path is looked up. -/
def openFound {H : Type} (p : ProcId) (filename : List Byte) (flags mode : ℕ) (f : FileId)
    (found : Found) : FsM H ℤ := do
  if found.error = -enoent ∧ flags &&& oCreat ≠ 0 then
    let _ ← Fs.fileCreat p filename (mode ||| sIfreg) (.file f)
    Fs.openInode p f flags
  else if found.error ≠ 0 then
    Fs.fileClose f
    return found.error
  else
    Fs.openInode p f flags

namespace Guards

variable {strict : Prop} {own : Holding} {locks uses : Multiset InodeId} {unlinking : Option ℕ}

section

variable {post : α → Holding → Prop}

theorem pure {value : α} (holds : post value own) :
    Guards strict own (Pure.pure value : FsM H α) post :=
  holds

theorem mono {prog : FsM H α} {post' : α → Holding → Prop} (guards : Guards strict own prog post)
    (weaker : ∀ value own', post value own' → post' value own') : Guards strict own prog post' :=
  wp_mono weaker guards

theorem bind {post : β → Holding → Prop} {prog : FsM H α} {next : α → FsM H β}
    (first : Guards strict own prog fun value own' => Guards strict own' (next value) post) :
    Guards strict own (prog >>= next) post :=
  (wp_bind prog next post).mpr first

theorem op {operation : FsOp H} {post : operation.Reply → Holding → Prop}
    (free : (operation.kind == .holding) = false) (rest : ∀ reply, post reply own) :
    Guards strict own (.perform operation) post :=
  (lockSpec_neutral (bne_iff_ne.mp (congrArg not free))).mpr rest

theorem of_uses {kinds : List OpKind} {prog : FsM H α} (uses : Uses kinds prog)
    (free : kinds.contains .holding = false) (rest : ∀ value, post value own) :
    Guards strict own prog post := by
  have ne : ∀ {operation : FsOp H}, operation.kind ∈ kinds → operation.kind ≠ .holding := by
    rintro operation isKind isHolding
    rw [isHolding, ← List.contains_iff_mem, free] at isKind
    cases isKind
  refine uses.wp (· = own) (fun isKind same kept => ?_) rfl fun value _ same => same ▸ rest value
  exact (lockSpec_neutral (ne isKind)).mpr fun reply => kept reply _ same

theorem stop {why : Stop} (notLock : why ≠ .panic .ilock) (notUnlock : why ≠ .panic .iunlock) :
    Guards strict own (Fs.stop why : FsM H α) post :=
  fun _ => ⟨notLock, notUnlock⟩

theorem fault : Guards strict own (Fs.stop .fault : FsM H α) post :=
  stop (by rintro ⟨⟩) (by rintro ⟨⟩)

theorem iputNull {post : Unit → Holding → Prop} :
    Guards strict own (Fs.iputPtr none : FsM H Unit) post :=
  stop (by rintro ⟨⟩) (by rintro ⟨⟩)

theorem when {condition : Prop} [Decidable condition] {prog : FsM H Unit}
    {post : Unit → Holding → Prop} (yes : Guards strict own prog post) (no : post () own) :
    Guards strict own (Prog.when condition prog) post := by
  unfold Prog.when
  split
  · exact yes
  · exact no

theorem whenSome {value : Option β} {prog : β → FsM H Unit} {post : Unit → Holding → Prop}
    (isSome : ∀ present, value = some present → Guards strict own (prog present) post)
    (isNone : value = none → post () own) : Guards strict own (Prog.whenSome value prog) post := by
  cases value with
  | none => exact isNone rfl
  | some present => exact isSome present rfl

theorem getInode {i : InodeId} {post : Inode → Holding → Prop} (rest : ∀ node, post node own) :
    Guards strict own (Fs.getInode i : FsM H Inode) post :=
  of_uses (show Uses [.data] _ from Uses.getInode rfl i) rfl rest

theorem getFile {f : FileId} {post : File → Holding → Prop} (rest : ∀ file, post file own) :
    Guards strict own (Fs.getFile f : FsM H File) post :=
  of_uses (show Uses [.data] _ from Uses.getFile rfl f) rfl rest

theorem getProc {p : ProcId} {post : Proc → Holding → Prop} (rest : ∀ proc, post proc own) :
    Guards strict own (Fs.getProc p : FsM H Proc) post :=
  of_uses (show Uses [.data] _ from Uses.getProc rfl p) rfl rest

theorem denies {p : ProcId} {i : InodeId} {mode : ℕ} {post : Bool → Holding → Prop}
    (rest : ∀ denied, post denied own) :
    Guards strict own (Fs.denies p i mode : FsM H Bool) post :=
  of_uses (show Uses [.data] _ from Uses.denies rfl p i mode) rfl rest

end

variable {i : InodeId}

theorem ilock {post : Unit → Holding → Prop} (used : i ∈ uses) (other : strict → i ∉ locks)
    (rest : i ∉ locks → post () ⟨i ::ₘ locks, uses, none⟩) :
    Guards strict ⟨locks, uses, none⟩ (Fs.ilock i : FsM H Unit) post :=
  ⟨rfl, used, other, rest⟩

theorem iunlock {post : Unit → Holding → Prop} (rest : post () ⟨locks, uses, none⟩) :
    Guards strict ⟨i ::ₘ locks, uses, none⟩ (Fs.iunlock i : FsM H Unit) post := by
  refine ⟨rfl, Multiset.mem_cons_self i locks, ?_⟩
  rwa [Multiset.erase_cons_head]

theorem idup {post : Unit → Holding → Prop} (rest : post () ⟨locks, i ::ₘ uses, none⟩) :
    Guards strict ⟨locks, uses, none⟩ (Fs.idup i : FsM H Unit) post :=
  rest

theorem markUses {post : Unit → Holding → Prop} (rest : post () ⟨locks, i ::ₘ uses, none⟩) :
    Guards strict ⟨locks, uses, none⟩ (Fs.mark (.uses i) : FsM H Unit) post :=
  rest

theorem markDrops {post : Unit → Holding → Prop}
    (rest : post () ⟨locks, uses.erase i, none⟩) :
    Guards strict ⟨locks, uses, none⟩ (Fs.mark (.drops i) : FsM H Unit) post :=
  rest

theorem markNew {post : Unit → Holding → Prop}
    (rest : (strict → uses.count i ≤ 1) → post () ⟨locks, uses, none⟩) :
    Guards strict ⟨locks, uses, none⟩ (Fs.mark (.newInode i) : FsM H Unit) post :=
  rest

theorem markUnlinks {inodeno : ℕ} {post : Unit → Holding → Prop}
    (rest : post () ⟨{i}, uses, some inodeno⟩) :
    Guards strict ⟨{i}, uses, unlinking⟩ (Fs.mark (.unlinks i inodeno) : FsM H Unit) post :=
  ⟨rfl, rest⟩

theorem markAgain {found : Option InodeId} {post : Unit → Holding → Prop}
    (rest : (∀ j, found = some j → j = i) → (strict → found = some i) → post () own) :
    Guards strict own (Fs.mark (.again i found) : FsM H Unit) post :=
  rest

theorem stopLoose {why : Stop} {post : α → Holding → Prop} (loose : ¬strict) :
    Guards strict own (Fs.stop why : FsM H α) post :=
  fun isStrict => absurd isStrict loose

theorem ifind {dev : Dev} {inodeno : ℕ} {post : InodeId × Bool → Holding → Prop}
    (ready : locks = 0 ∨ ∃ parent, locks = {parent} ∧ unlinking = some inodeno)
    (rest : ∀ i, i ∉ locks → post (i, true) ⟨locks, i ::ₘ uses, none⟩ ∧
      post (i, false) ⟨i ::ₘ locks, i ::ₘ uses, none⟩) :
    Guards strict ⟨locks, uses, unlinking⟩ (Fs.ifind dev inodeno : FsM H (InodeId × Bool)) post :=
  ⟨ready, rest⟩

theorem iunref {post : Bool → Holding → Prop} (rest : ∀ last, post last own) :
    Guards strict own (Fs.iunref i : FsM H Bool) post :=
  rest

theorem wp_self {prog : FsM H α} {post : α → Holding → Prop}
    (guards : Guards strict own prog post) : wp (lockSpec strict) prog post own :=
  guards

-- From here on the rules above are all that is used; unfolding would run the programs.
attribute [irreducible] Guards

/-! ## Inodes -/

/-- An inode is looked for without locks, or for the entry that has just been removed. -/
theorem iget {dev : Dev} {inodeno : ℕ} {post : InodeId → Holding → Prop}
    (ready : locks = 0 ∨ ∃ parent, locks = {parent} ∧ unlinking = some inodeno)
    (rest : ∀ i, i ∉ locks → post i ⟨locks, i ::ₘ uses, none⟩) :
    Guards strict ⟨locks, uses, unlinking⟩ (Fs.iget dev inodeno : FsM H InodeId) post := by
  refine bind (ifind ready fun i free => ⟨?_, ?_⟩)
  · exact pure (rest i free)
  · refine bind (op rfl fun core => ?_)
    refine bind (op rfl fun buf => ?_)
    refine bind (op rfl fun data => ?_)
    refine bind (op rfl fun _ => ?_)
    refine bind (op rfl fun _ => ?_)
    exact bind (iunlock (pure (rest i free)))

theorem ireclaim {post : Unit → Holding → Prop} (free : strict → i ∉ locks)
    (rest : post () ⟨locks, uses, none⟩) :
    Guards strict ⟨locks, uses, none⟩ (Fs.ireclaim i : FsM H Unit) post := by
  refine bind (markUses ?_)
  refine bind (ilock (Multiset.mem_cons_self i uses) free fun _ => ?_)
  refine bind (of_uses (Uses.itrunc i) rfl fun _ => ?_)
  refine bind (iunlock ?_)
  refine bind (getInode fun node => ?_)
  refine bind (of_uses (Uses.ifree _ _) rfl fun _ => ?_)
  refine bind (op rfl fun _ => ?_)
  refine bind (of_uses (Uses.iupdate i) rfl fun _ => ?_)
  refine markDrops ?_
  rwa [Multiset.erase_cons_head]

theorem iput {post : Unit → Holding → Prop} (free : strict → i ∉ locks)
    (rest : post () ⟨locks, uses.erase i, none⟩) :
    Guards strict ⟨locks, uses, none⟩ (Fs.iput i : FsM H Unit) post := by
  refine bind (iunref fun last => ?_)
  refine bind (when ?_ (markDrops rest))
  refine bind (getInode fun node => ?_)
  refine bind (when (ireclaim free ?_) ?_)
  · exact op rfl fun _ => markDrops rest
  · exact op rfl fun _ => markDrops rest

theorem iunlockput {post : Unit → Holding → Prop} (free : strict → i ∉ locks)
    (rest : post () ⟨locks, uses.erase i, none⟩) :
    Guards strict ⟨i ::ₘ locks, uses, none⟩ (Fs.iunlockput i : FsM H Unit) post :=
  bind (iunlock (iput free rest))

theorem iallocLoop {p : ProcId} {mode : ℕ} {post : Option InodeId → Holding → Prop}
    (full : post none ⟨0, uses, none⟩)
    (rest : ∀ i, (strict → i ∉ uses) → post (some i) ⟨0, i ::ₘ uses, none⟩)
    (blocks imapBlock inodeno : ℕ) :
    Guards strict ⟨0, uses, none⟩
      (Fs.iallocLoop p mode blocks imapBlock inodeno : FsM H (Option InodeId)) post := by
  induction blocks generalizing imapBlock inodeno with
  | zero => exact pure full
  | succ blocks ih =>
      refine bind (op rfl fun buf => ?_)
      refine bind (op rfl fun imap => ?_)
      split
      · refine bind (op rfl fun _ => ?_)
        refine bind (op rfl fun _ => ?_)
        refine bind (op rfl fun _ => ?_)
        refine bind (iget (Or.inl rfl) fun i _ => ?_)
        refine bind (markNew fun fresh => ?_)
        refine bind (op rfl fun core => ?_)
        refine bind (op rfl fun _ => ?_)
        refine bind (op rfl fun _ => pure (rest i fun isStrict used => ?_))
        have once := fresh isStrict
        have twice := Multiset.one_le_count_iff_mem.mpr used
        rw [Multiset.count_cons_self] at once
        omega
      · exact bind (op rfl fun _ => ih _ _)

theorem ialloc {p : ProcId} {mode : ℕ} {post : Option InodeId → Holding → Prop}
    (full : post none ⟨0, uses, none⟩)
    (rest : ∀ i, (strict → i ∉ uses) → post (some i) ⟨0, i ::ₘ uses, none⟩) :
    Guards strict ⟨0, uses, none⟩ (Fs.ialloc p mode : FsM H (Option InodeId)) post :=
  bind (op rfl fun _ => iallocLoop full rest _ _ _)

/-! ## Reading -/

/-- `tty_read` gives up the lock of the device while it sleeps. -/
theorem ttyReadLoop {p : ProcId} {t : TtyId} {dev : Dev} {count : ℕ}
    {post : ℤ × List Byte → Holding → Prop} (used : i ∈ uses) (free : strict → i ∉ locks)
    (rest : ∀ result, post result ⟨i ::ₘ locks, uses, none⟩) (rounds : ℕ)
    (dest : ℕ → Byte) (pos : ℕ) (char : Byte) :
    Guards strict ⟨i ::ₘ locks, uses, none⟩
      (Fs.ttyReadLoop p i t dev count rounds dest pos char : FsM H (ℤ × List Byte)) post := by
  induction rounds generalizing dest pos char with
  | zero => exact stop nofun nofun
  | succ rounds ih =>
      unfold Fs.ttyReadLoop
      split
      · exact pure (rest _)
      refine bind (op rfl fun core => ?_)
      dsimp only
      split
      · split
        · exact pure (rest _)
        · refine bind (iunlock ?_)
          refine bind (op rfl fun _ => ?_)
          exact bind (ilock used free fun _ => ih _ _ _)
      · refine bind (op rfl fun _ => ?_)
        split
        · refine bind (of_uses (Uses.ttyChar t dev dest pos _) rfl fun line => ?_)
          cases line with
          | more dest pos => exact ih _ _ _
          | ends dest pos => exact pure (rest _)
          | empty => exact pure (rest _)
        · exact pure (rest _)

theorem cdevRead {p : ProcId} {dev : Dev} {count : ℕ} {post : ℤ × List Byte → Holding → Prop}
    (used : i ∈ uses) (free : strict → i ∉ locks)
    (rest : ∀ result, post result ⟨i ::ₘ locks, uses, none⟩) :
    Guards strict ⟨i ::ₘ locks, uses, none⟩
      (Fs.cdevRead p i dev count : FsM H (ℤ × List Byte)) post := by
  unfold Fs.cdevRead
  split
  · exact pure (rest _)
  split
  · unfold Fs.ttyRead
    split
    · exact stop nofun nofun
    · refine bind (op rfl fun core => ?_)
      exact bind (op rfl fun _ => ttyReadLoop used free rest _ _ _ _)
  split
  · exact pure (rest _)
  · exact pure (rest _)

theorem readi {p : ProcId} {offset : ℤ} {nbytes : ℕ} {post : ℤ × List Byte → Holding → Prop}
    (used : i ∈ uses) (free : strict → i ∉ locks)
    (rest : ∀ result, post result ⟨i ::ₘ locks, uses, none⟩) :
    Guards strict ⟨i ::ₘ locks, uses, none⟩
      (Fs.readi p i offset nbytes : FsM H (ℤ × List Byte)) post := by
  refine bind (getInode fun node => ?_)
  dsimp only
  split
  · exact stop nofun nofun
  split
  · exact cdevRead used free rest
  split
  · exact bind (of_uses (Uses.readiBlockDev _ _ _ _ _) rfl fun _ => pure (rest _))
  split
  · exact pure (rest _)
  · exact bind (of_uses (Uses.readiLoop i _ _ _ _) rfl fun _ => pure (rest _))

/-! ## Path names -/

theorem nextInode {ndirent : ℕ} {dir component : List Byte}
    {post : Option InodeId → Holding → Prop} (missing : post none ⟨0, uses, none⟩)
    (rest : ∀ next, post (some next) ⟨0, next ::ₘ uses, none⟩) :
    Guards strict ⟨0, uses, none⟩
      (Fs.nextInode i ndirent dir component : FsM H (Option InodeId)) post := by
  refine bind (op rfl fun core => ?_)
  split
  · exact pure missing
  · exact bind (iget (Or.inl rfl) fun next _ => pure (rest next))

/-- A pointer that is read again is the one that was there, or it is gone. -/
theorem inodeAgain {f : FileId} {post : Option InodeId → Holding → Prop}
    (same : post (some i) own) (gone : ¬strict → post none own) :
    Guards strict own (Fs.inodeAgain f i : FsM H (Option InodeId)) post := by
  refine bind (getFile fun file => ?_)
  refine bind (markAgain fun isSame kept => ?_)
  cases isFound : file.inode with
  | none =>
      rw [isFound] at kept
      exact pure (gone fun isStrict => nomatch kept isStrict)
  | some j =>
      rw [isSame j isFound]
      exact pure same

theorem inodepAgain {inodep : Inodep} {post : Option InodeId → Holding → Prop}
    (same : post (some i) own) (gone : ¬strict → post none own) :
    Guards strict own (Fs.inodepAgain inodep i : FsM H (Option InodeId)) post := by
  cases inodep with
  | own => exact pure same
  | file f => exact inodeAgain same gone

theorem setInodep {inodep : Inodep} {post : Unit → Holding → Prop} (rest : post () own) :
    Guards strict own (Fs.setInodep inodep i : FsM H Unit) post :=
  of_uses (Uses.setInodep inodep i) rfl fun _ => rest

theorem readDir {p : ProcId} {post : ℤ × ℕ × List Byte → Holding → Prop}
    (used : i ∈ uses) (free : strict → i ∉ locks)
    (rest : ∀ result, post result ⟨i ::ₘ locks, uses, none⟩) :
    Guards strict ⟨i ::ₘ locks, uses, none⟩
      (Fs.readDir p i : FsM H (ℤ × ℕ × List Byte)) post := by
  refine bind (op rfl fun _ => ?_)
  refine bind (getInode fun node => ?_)
  refine bind (op rfl fun core => ?_)
  split
  · exact stop nofun nofun
  refine bind (readi used free fun result => ?_)
  dsimp only
  split
  · exact stop nofun nofun
  · exact pure (rest _)

/-- `iunlock(file->inode)` after a sleep. -/
theorem iunlockAgain {f : FileId} {value : α} {post : α → Holding → Prop}
    (rest : post value ⟨locks, uses, none⟩) :
    Guards strict ⟨i ::ₘ locks, uses, none⟩
      (do
        Fs.iunlockPtr (← Fs.inodeAgain f i)
        return value : FsM H α) post := by
  refine bind (inodeAgain (bind ?_) fun loose => bind (stopLoose loose))
  exact iunlock (pure rest)

theorem nameicoreLoop {p : ProcId} {named parent : Bool} {inodep : Inodep}
    {post : Found → Holding → Prop}
    (succeeded : ∀ found, found.error = 0 → post found ⟨0, found.inode ::ₘ uses, none⟩)
    (failed : ∀ found, found.error ≠ 0 → post found ⟨0, uses, none⟩) (rounds : ℕ)
    (path : List Byte) (i : InodeId) (name : List Byte) :
    Guards strict ⟨0, i ::ₘ uses, none⟩
      (Fs.nameicoreLoop p named parent inodep rounds path i name : FsM H Found) post := by
  induction rounds generalizing path i name with
  | zero => exact pure (succeeded _ rfl)
  | succ rounds ih =>
      have given : ∀ error, error ≠ 0 → post ⟨error, i, name⟩ ⟨0, (i ::ₘ uses).erase i, none⟩ := by
        intro error isError
        rw [Multiset.erase_cons_head]
        exact failed _ isError
      unfold Fs.nameicoreLoop
      split
      · exact pure (succeeded _ rfl)
      refine bind (ilock (Multiset.mem_cons_self i uses) (fun _ => Multiset.notMem_zero i)
        fun _ => ?_)
      refine bind (denies fun denied => ?_)
      split
      · exact bind (iunlockput (fun _ => Multiset.notMem_zero i) (pure (given _ (by decide))))
      refine bind (readDir (Multiset.mem_cons_self i uses) (fun _ => Multiset.notMem_zero i)
        fun result => ?_)
      rcases result with ⟨ret, ndirent, dir⟩
      refine bind (inodepAgain ?_ fun _ => fault)
      refine bind (getInode fun node => ?_)
      split
      · exact bind (iunlockput (fun _ => Multiset.notMem_zero i) (pure (given _ (by decide))))
      refine bind (iunlock ?_)
      refine bind (nextInode ?_ fun next => ?_)
      · refine bind (of_uses (Uses.storeName named _ _) rfl fun name => ?_)
        split
        · exact bind (whenSome (by rintro _ ⟨⟩) fun _ => pure (succeeded _ rfl))
        · refine bind (inodepAgain ?_ fun _ => bind iputNull)
          refine bind (iput (fun _ => Multiset.notMem_zero i) ?_)
          rw [Multiset.erase_cons_head]
          exact pure (failed _ (by simp [enoent]))
      · refine bind (of_uses (Uses.storeName named _ _) rfl fun name => ?_)
        split
        · refine bind (whenSome (fun present isNext => ?_) (by rintro ⟨⟩))
          cases isNext
          refine iput (fun _ => Multiset.notMem_zero next) (pure ?_)
          rw [Multiset.erase_cons_head]
          exact succeeded _ rfl
        · refine bind (inodepAgain ?_ fun _ => bind iputNull)
          refine bind (iput (fun _ => Multiset.notMem_zero i) ?_)
          rw [Multiset.cons_swap, Multiset.erase_cons_head]
          exact bind (setInodep (ih _ _ _))

theorem nameicoreStart {p : ProcId} {path : List Byte} {post : InodeId → Holding → Prop}
    (rest : ∀ i, post i ⟨0, i ::ₘ uses, none⟩) :
    Guards strict ⟨0, uses, none⟩ (Fs.nameicoreStart p path : FsM H InodeId) post := by
  unfold Fs.nameicoreStart
  split
  · exact iget (Or.inl rfl) fun i _ => rest i
  · refine bind (getProc fun proc => ?_)
    split
    · exact stop nofun nofun
    · exact bind (idup (pure (rest _)))

theorem nameicore {p : ProcId} {path : List Byte} {named parent : Bool} {inodep : Inodep}
    {post : Found → Holding → Prop}
    (succeeded : ∀ found, found.error = 0 → post found ⟨0, found.inode ::ₘ uses, none⟩)
    (failed : ∀ found, found.error ≠ 0 → post found ⟨0, uses, none⟩) :
    Guards strict ⟨0, uses, none⟩
      (Fs.nameicore p path named parent inodep : FsM H Found) post := by
  refine bind (nameicoreStart fun start => ?_)
  refine bind (setInodep ?_)
  exact bind (op rfl fun core => nameicoreLoop succeeded failed _ _ start _)

/-! ## Directories -/

theorem wdirLoop {p : ProcId} {post : ℕ → Holding → Prop} (used : i ∈ uses)
    (free : strict → i ∉ locks) (rest : ∀ offset, post offset ⟨i ::ₘ locks, uses, none⟩)
    (rounds offset : ℕ) :
    Guards strict ⟨i ::ₘ locks, uses, none⟩
      (Fs.wdirLoop p i rounds offset : FsM H ℕ) post := by
  induction rounds generalizing offset with
  | zero => exact stop nofun nofun
  | succ rounds ih =>
      refine bind (readi used free fun (ret, entry) => ?_)
      dsimp only
      split
      · split
        · exact pure (rest _)
        · exact ih _
      · exact pure (rest _)

theorem wdir {p : ProcId} {inodeno : ℕ} {filename : List Byte} {post : Unit → Holding → Prop}
    (used : i ∈ uses) (free : strict → i ∉ locks) (rest : post () ⟨locks, uses, none⟩) :
    Guards strict ⟨locks, uses, none⟩
      (Fs.wdir p i inodeno filename : FsM H Unit) post := by
  refine bind (ilock used free fun _ => ?_)
  refine bind (op rfl fun core => ?_)
  refine bind (wdirLoop used free (fun offset => ?_) _ _)
  refine bind (of_uses (Uses.writei i _ _) rfl fun _ => ?_)
  refine bind (getInode fun node => ?_)
  refine bind (when ?_ (iunlock rest))
  exact bind (op rfl fun _ => op rfl fun _ => iunlock rest)

theorem unlinkEntry {inodeno : ℕ} {entry : List Byte} {offset : ℕ}
    {post : ℤ → Holding → Prop} (rest : ∀ result uses', post result ⟨0, uses', none⟩) :
    Guards strict ⟨{i}, uses, none⟩
      (Fs.unlinkEntry i inodeno entry offset : FsM H ℤ) post := by
  refine bind (of_uses (Uses.writei i _ _) rfl fun _ => ?_)
  refine bind (markUnlinks ?_)
  refine bind (getInode fun node => ?_)
  refine bind (iget (Or.inr ⟨i, rfl, rfl⟩) fun child other => ?_)
  have ne : i ∉ ({child} : Multiset InodeId) := by
    rw [Multiset.mem_singleton] at other ⊢
    exact fun same => other same.symm
  refine bind (ilock (Multiset.mem_cons_self child uses) (fun _ => other) fun _ => ?_)
  refine bind (getInode fun node => ?_)
  split
  · exact stop nofun nofun
  refine bind (op rfl fun _ => ?_)
  refine bind (op rfl fun _ => ?_)
  have swapped : child ::ₘ ({i} : Multiset InodeId) = i ::ₘ {child} := Multiset.pair_comm child i
  rw [swapped]
  refine bind (iunlockput (fun _ => ne) ?_)
  refine bind (of_uses (Uses.iupdate child) rfl fun _ => ?_)
  exact bind (iunlockput (fun _ => Multiset.notMem_zero child) (pure (rest _ _)))

theorem unlinkLoop {p : ProcId} {filename : List Byte} {post : ℤ → Holding → Prop}
    (used : i ∈ uses) (rest : ∀ result uses', post result ⟨0, uses', none⟩)
    (rounds offset : ℕ) :
    Guards strict ⟨{i}, uses, none⟩
      (Fs.unlinkLoop p i filename rounds offset : FsM H ℤ) post := by
  induction rounds generalizing offset with
  | zero => exact stop nofun nofun
  | succ rounds ih =>
      refine bind (readi used (fun _ => Multiset.notMem_zero i) fun (ret, entry) => ?_)
      dsimp only
      split
      · refine bind (op rfl fun core => ?_)
        split
        · exact unlinkEntry rest
        · exact ih _
      · exact bind (iunlockput (fun _ => Multiset.notMem_zero i) (pure (rest _ _)))

theorem sysUnlink {p : ProcId} {filepath : List Byte} {post : ℤ → Holding → Prop}
    (rest : ∀ result uses', post result ⟨0, uses', none⟩) :
    Guards strict ⟨0, uses, none⟩ (Fs.sysUnlink p filepath : FsM H ℤ) post := by
  refine bind (nameicore (fun found succeeded => ?_) fun found failed => ?_)
  · dsimp only
    split
    · exact pure (rest _ _)
    refine bind (getInode fun node => ?_)
    split
    · exact bind (iput (fun _ => Multiset.notMem_zero _) (pure (rest _ _)))
    refine bind (denies fun denied => ?_)
    split
    · exact bind (iput (fun _ => Multiset.notMem_zero _) (pure (rest _ _)))
    have used := Multiset.mem_cons_self found.inode uses
    refine bind (ilock used (fun _ => Multiset.notMem_zero _) fun _ => ?_)
    exact bind (op rfl fun core => unlinkLoop used rest _ _)
  · dsimp only
    rw [if_pos failed]
    exact pure (rest _ _)

theorem fileCreat {p : ProcId} {filename : List Byte} {mode : ℕ} {inodep : Inodep}
    {post : ℤ × Option InodeId → Holding → Prop}
    (failed : ∀ error, post (error, none) ⟨0, uses, none⟩)
    (rest : ∀ i, post (0, some i) ⟨0, i ::ₘ uses, none⟩) :
    Guards strict ⟨0, uses, none⟩
      (Fs.fileCreat p filename mode inodep : FsM H (ℤ × Option InodeId)) post := by
  refine bind (nameicore (fun found succeeded => ?_) fun found isError => ?_)
  · dsimp only
    split
    · rename_i isError
      exact absurd succeeded isError
    refine bind (denies fun denied => ?_)
    split
    · refine bind (iput (fun _ => Multiset.notMem_zero _) (pure ?_))
      rw [Multiset.erase_cons_head]
      exact failed _
    refine bind (ialloc (stop nofun nofun) fun i fresh => ?_)
    have used : i ∈ i ::ₘ found.inode ::ₘ uses := Multiset.mem_cons_self i _
    refine bind (setInodep ?_)
    refine bind (ilock used (fun _ => Multiset.notMem_zero i) fun _ => ?_)
    refine bind (getInode fun node => ?_)
    refine bind (wdir (Multiset.mem_cons_of_mem (Multiset.mem_cons_self _ _)) ?_ ?_)
    · intro isStrict same
      rw [Multiset.mem_cons, or_iff_left (Multiset.notMem_zero _)] at same
      exact fresh isStrict (same ▸ Multiset.mem_cons_self _ _)
    refine bind (inodepAgain ?_ fun _ => fault)
    refine bind (op rfl fun _ => ?_)
    refine bind (op rfl fun _ => ?_)
    refine bind (iunlock ?_)
    refine bind (iput (fun _ => Multiset.notMem_zero _) (pure ?_))
    rw [Multiset.cons_swap, Multiset.erase_cons_head]
    exact rest i
  · dsimp only
    rw [if_pos isError]
    exact pure (failed _)

/-! ## Open files -/

theorem fileClose {f : FileId} {post : Unit → Holding → Prop}
    (rest : ∀ uses', post () ⟨0, uses', none⟩) :
    Guards strict ⟨0, uses, none⟩ (Fs.fileClose f : FsM H Unit) post := by
  refine bind (getFile fun file => ?_)
  split
  · exact of_uses (Uses.pipeClose f) rfl fun _ => rest _
  · refine bind (getFile fun file => ?_)
    split
    · exact stop (by rintro ⟨⟩) (by rintro ⟨⟩)
    refine bind (op rfl fun _ => ?_)
    refine when (whenSome (fun i _ => ?_) fun _ => rest _) (rest _)
    exact bind (iput (fun _ => Multiset.notMem_zero i) (op rfl fun _ => rest _))

theorem openInode {p : ProcId} {f : FileId} {flags : ℕ} {post : ℤ → Holding → Prop}
    (rest : ∀ result uses', post result ⟨0, uses', none⟩) :
    Guards strict ⟨0, uses, none⟩ (Fs.openInode p f flags : FsM H ℤ) post := by
  refine bind (getFile fun file => ?_)
  split
  · exact bind (fileClose fun _ => pure (rest _ _))
  refine bind (denies fun denied => ?_)
  split
  · exact bind (fileClose fun _ => pure (rest _ _))
  refine bind ?_
  have given : ∀ uses', Guards strict ⟨0, uses', none⟩ (Fs.fileFdAlloc p f : FsM H ℤ) post :=
    fun uses' => of_uses (Uses.fileFdAlloc p f) rfl fun _ => rest _ _
  unfold Fs.openTrunc
  split
  · refine bind (markUses ?_)
    refine bind (ilock (Multiset.mem_cons_self _ uses) (fun _ => Multiset.notMem_zero _)
      fun _ => ?_)
    refine bind (of_uses (Uses.itrunc _) rfl fun _ => ?_)
    refine bind (inodeAgain ?_ fun loose => stopLoose loose)
    exact iunlock (given _)
  split
  · exact bind (getInode fun node => op rfl fun _ => given _)
  · exact pure (given _)

theorem sysOpen {p : ProcId} {filename : List Byte} {flags mode : ℕ}
    {post : ℤ → Holding → Prop} (rest : ∀ result uses', post result ⟨0, uses', none⟩) :
    Guards strict ⟨0, uses, none⟩ (Fs.sysOpen p filename flags mode : FsM H ℤ) post := by
  unfold Fs.sysOpen
  split
  · exact pure (rest _ _)
  refine bind (of_uses Uses.fileAlloc rfl fun allocated => ?_)
  cases allocated with
  | none => exact pure (rest _ _)
  | some f =>
      refine bind (op rfl fun _ => ?_)
      -- What follows the look-up does not depend on what the call uses.
      have given : ∀ (found : Found) uses', Guards strict ⟨0, uses', none⟩
          (openFound p filename flags mode f found : FsM H ℤ) post := by
        intro found uses'
        unfold openFound
        split
        · exact bind (fileCreat (fun error => openInode rest) fun i => openInode rest)
        split
        · exact bind (fileClose fun _ => pure (rest _ _))
        · exact openInode rest
      exact bind (nameicore (fun found _ => given found _) fun found _ => given found _)

theorem sysUtime {p : ProcId} {filename : List Byte} {times : Option ℤ}
    {post : ℤ → Holding → Prop} (rest : ∀ result uses', post result ⟨0, uses', none⟩) :
    Guards strict ⟨0, uses, none⟩ (Fs.sysUtime p filename times : FsM H ℤ) post := by
  refine bind (nameicore (fun found succeeded => ?_) fun found failed => ?_)
  · rw [if_neg (not_not.mpr succeeded)]
    refine bind (ilock (Multiset.mem_cons_self _ uses) (fun _ => Multiset.notMem_zero _)
      fun _ => ?_)
    refine bind (op rfl fun core => ?_)
    refine bind (op rfl fun _ => ?_)
    refine bind (op rfl fun _ => ?_)
    exact bind (iunlockput (fun _ => Multiset.notMem_zero _) (pure (rest _ _)))
  · rw [if_pos failed]
    exact pure (rest _ _)

theorem mkdirEntries {p : ProcId} {post : Unit → Holding → Prop}
    (rest : ∀ uses', post () ⟨0, uses', none⟩) :
    Guards strict ⟨0, i ::ₘ uses, none⟩ (Fs.mkdirEntries p i : FsM H Unit) post := by
  refine bind (getInode fun node => ?_)
  refine bind (wdir (Multiset.mem_cons_self i uses) (fun _ => Multiset.notMem_zero i) ?_)
  refine bind (op rfl fun _ => ?_)
  refine bind (getProc fun proc => ?_)
  split
  · exact stop nofun nofun
  rename_i parent _
  refine bind (idup ?_)
  refine bind (getInode fun node => ?_)
  refine bind (wdir (Multiset.mem_cons_of_mem (Multiset.mem_cons_self i uses))
    (fun _ => Multiset.notMem_zero i) ?_)
  refine bind (ilock (Multiset.mem_cons_self parent _) (fun _ => Multiset.notMem_zero parent)
    fun _ => ?_)
  refine bind (op rfl fun _ => ?_)
  refine bind (op rfl fun _ => ?_)
  refine bind (iunlockput (fun _ => Multiset.notMem_zero parent) ?_)
  refine bind (op rfl fun _ => ?_)
  exact iput (fun _ => Multiset.notMem_zero i) (rest _)

theorem sysMkdir {p : ProcId} {pathname : List Byte} {mode : ℕ} {post : ℤ → Holding → Prop}
    (rest : ∀ result uses', post result ⟨0, uses', none⟩) :
    Guards strict ⟨0, uses, none⟩ (Fs.sysMkdir p pathname mode : FsM H ℤ) post := by
  refine bind (getProc fun proc => ?_)
  split
  · exact pure (rest _ _)
  refine bind (denies fun denied => ?_)
  split
  · exact pure (rest _ _)
  refine bind (fileCreat (fun error => pure (rest _ _)) fun i => ?_)
  exact bind (mkdirEntries fun _ => pure (rest _ _))

theorem chdir {p : ProcId} {path : Option (List Byte)} {post : ℤ → Holding → Prop}
    (rest : ∀ result uses', post result ⟨0, uses', none⟩) :
    Guards strict ⟨0, uses, none⟩ (Fs.chdir p path : FsM H ℤ) post := by
  cases path with
  | none => exact pure (rest _ _)
  | some path =>
      refine bind (nameicore (fun found succeeded => ?_) fun found failed => ?_)
      · rw [if_neg (not_not.mpr succeeded)]
        refine bind (denies fun denied => ?_)
        split
        · exact bind (iput (fun _ => Multiset.notMem_zero _) (pure (rest _ _)))
        refine bind (getInode fun node => ?_)
        split
        · exact bind (iput (fun _ => Multiset.notMem_zero _) (pure (rest _ _)))
        refine bind (getProc fun proc => ?_)
        refine bind (whenSome (fun cwd _ => ?_) fun _ => ?_)
        · refine iput (fun _ => Multiset.notMem_zero _) ?_
          exact bind (op rfl fun _ => pure (rest _ _))
        · exact bind (op rfl fun _ => pure (rest _ _))
      · rw [if_pos failed]
        exact pure (rest _ _)

/-! ## Descriptors -/

theorem close {p : ProcId} {fd : ℤ} {post : ℤ → Holding → Prop}
    (rest : ∀ result uses', post result ⟨0, uses', none⟩) :
    Guards strict ⟨0, uses, none⟩ (Fs.close p fd : FsM H ℤ) post := by
  refine bind (of_uses (Uses.openFile p fd) rfl fun file => ?_)
  split
  · exact pure (rest _ _)
  · refine bind (fileClose fun _ => ?_)
    exact bind (op rfl fun _ => pure (rest _ _))

theorem dup2 {p : ProcId} {oldFd newFd : ℤ} {post : ℤ → Holding → Prop}
    (rest : ∀ result uses', post result ⟨0, uses', none⟩) :
    Guards strict ⟨0, uses, none⟩ (Fs.dup2 p oldFd newFd : FsM H ℤ) post := by
  refine bind (of_uses (Uses.looseOpenFile p oldFd) rfl fun slot => ?_)
  split
  · exact pure (rest _ _)
  · exact stop (by rintro ⟨⟩) (by rintro ⟨⟩)
  split
  · exact pure (rest _ _)
  refine bind (op rfl fun _ => ?_)
  split
  · exact stop (by rintro ⟨⟩) (by rintro ⟨⟩)
  have given : ∀ uses',
      Guards strict ⟨0, uses', none⟩ (dup2Given p oldFd newFd : FsM H ℤ) post := by
    intro uses'
    refine bind (getProc fun proc => ?_)
    split
    · exact stop (by rintro ⟨⟩) (by rintro ⟨⟩)
    · refine bind (op rfl fun _ => ?_)
      exact bind (op rfl fun _ => pure (rest _ _))
  refine bind (getProc fun proc => ?_)
  exact bind (whenSome (fun f _ => fileClose fun _ => given _) fun _ => given _)

theorem fileRead {p : ProcId} {f : FileId} {nbytes : ℕ} {post : ℤ × List Byte → Holding → Prop}
    (rest : ∀ result uses', post result ⟨0, uses', none⟩) :
    Guards strict ⟨0, uses, none⟩ (Fs.fileRead p f nbytes : FsM H (ℤ × List Byte)) post := by
  refine bind (of_uses (Uses.fileInode f) rfl fun i => ?_)
  refine bind (markUses ?_)
  refine bind (ilock (Multiset.mem_cons_self _ uses) (fun _ => Multiset.notMem_zero _)
    fun _ => ?_)
  refine bind (getFile fun file => ?_)
  refine bind (readi (Multiset.mem_cons_self _ uses) (fun _ => Multiset.notMem_zero _)
    fun result => ?_)
  refine bind (when (op rfl fun _ => ?_) ?_)
  · exact iunlockAgain (rest _ _)
  · exact iunlockAgain (rest _ _)

theorem fileWrite {f : FileId} {src : List Byte} {post : ℤ → Holding → Prop}
    (rest : ∀ result uses', post result ⟨0, uses', none⟩) :
    Guards strict ⟨0, uses, none⟩ (Fs.fileWrite f src : FsM H ℤ) post := by
  refine bind (of_uses (Uses.fileInode f) rfl fun i => ?_)
  refine bind (markUses ?_)
  refine bind (ilock (Multiset.mem_cons_self _ uses) (fun _ => Multiset.notMem_zero _)
    fun _ => ?_)
  refine bind (getFile fun file => ?_)
  refine bind (of_uses (Uses.writei _ src _) rfl fun ret => ?_)
  refine bind (when (op rfl fun _ => ?_) ?_)
  · exact iunlockAgain (rest _ _)
  · exact iunlockAgain (rest _ _)

theorem read {p : ProcId} {fd : ℤ} {nbytes : ℕ} {post : ℤ × List Byte → Holding → Prop}
    (rest : ∀ result uses', post result ⟨0, uses', none⟩) :
    Guards strict ⟨0, uses, none⟩ (Fs.read p fd nbytes : FsM H (ℤ × List Byte)) post := by
  refine bind (of_uses (Uses.openFile p fd) rfl fun found => ?_)
  split
  · exact pure (rest _ _)
  refine bind (getFile fun file => ?_)
  split
  · exact fileRead rest
  · exact of_uses (Uses.pipeRead _ nbytes) rfl fun _ => rest _ _

theorem write {p : ProcId} {fd : ℤ} {src : List Byte} {post : ℤ → Holding → Prop}
    (rest : ∀ result uses', post result ⟨0, uses', none⟩) :
    Guards strict ⟨0, uses, none⟩ (Fs.write p fd src : FsM H ℤ) post := by
  refine bind (of_uses (Uses.openFile p fd) rfl fun found => ?_)
  split
  · exact pure (rest _ _)
  refine bind (getFile fun file => ?_)
  split
  · exact fileWrite rest
  · exact of_uses (Uses.pipeWrite _ src) rfl fun _ => rest _ _

theorem stat {p : ProcId} {path : List Byte} {post : ℤ × Option Stat → Holding → Prop}
    (rest : ∀ result uses', post result ⟨0, uses', none⟩) :
    Guards strict ⟨0, uses, none⟩ (Fs.stat p path : FsM H (ℤ × Option Stat)) post := by
  refine bind (nameicore (fun found succeeded => ?_) fun found failed => ?_)
  · rw [if_neg (not_not.mpr succeeded)]
    refine bind (ilock (Multiset.mem_cons_self _ uses) (fun _ => Multiset.notMem_zero _)
      fun _ => ?_)
    refine bind (getInode fun node => ?_)
    exact bind (iunlockput (fun _ => Multiset.notMem_zero _) (pure (rest _ _)))
  · rw [if_pos failed]
    exact pure (rest _ _)

theorem fstat {p : ProcId} {fd : ℤ} {post : ℤ × Option Stat → Holding → Prop}
    (rest : ∀ result uses', post result ⟨0, uses', none⟩) :
    Guards strict ⟨0, uses, none⟩ (Fs.fstat p fd : FsM H (ℤ × Option Stat)) post := by
  refine bind (of_uses (Uses.looseOpenFile p fd) rfl fun slot => ?_)
  split
  · exact pure (rest _ _)
  · exact stop nofun nofun
  refine bind (of_uses (Uses.fileInode _) rfl fun i => ?_)
  refine bind (markUses ?_)
  refine bind (ilock (Multiset.mem_cons_self _ uses) (fun _ => Multiset.notMem_zero _)
    fun _ => ?_)
  refine bind (getInode fun node => ?_)
  exact bind (iunlock (pure (rest _ _)))

/-! ## Processes -/

theorem sysExec {p : ProcId} {pathname : List Byte} {post : ℤ → Holding → Prop}
    (rest : ∀ result uses', post result ⟨0, uses', none⟩) :
    Guards strict ⟨0, uses, none⟩ (Fs.sysExec p pathname : FsM H ℤ) post := by
  refine bind (nameicore (fun found succeeded => ?_) fun found failed => ?_)
  · dsimp only
    rw [if_neg (not_not.mpr succeeded)]
    have used := Multiset.mem_cons_self found.inode uses
    refine bind (ilock used (fun _ => Multiset.notMem_zero _) fun _ => ?_)
    refine bind (readi used (fun _ => Multiset.notMem_zero _) fun (nread, magic) => ?_)
    refine bind (iunlock ?_)
    dsimp only
    split
    · exact bind (iput (fun _ => Multiset.notMem_zero _) (pure (rest _ _)))
    refine bind (ilock used (fun _ => Multiset.notMem_zero _) fun _ => ?_)
    refine bind (getInode fun node => ?_)
    refine bind (readi used (fun _ => Multiset.notMem_zero _) fun (ret, _) => ?_)
    refine bind (getInode fun node => ?_)
    split
    · exact stop nofun nofun
    · exact bind (iunlockput (fun _ => Multiset.notMem_zero _) (pure (rest _ _)))
  · dsimp only
    rw [if_pos failed]
    exact pure (rest _ _)

theorem fork {p : ProcId} {post : ℤ → Holding → Prop}
    (rest : ∀ result uses', post result ⟨0, uses', none⟩) :
    Guards strict ⟨0, uses, none⟩ (Fs.fork p : FsM H ℤ) post := by
  refine bind (of_uses Uses.procAlloc rfl fun allocated => ?_)
  cases allocated with
  | none => exact pure (rest _ _)
  | some child =>
      refine bind (getProc fun parent => ?_)
      refine bind (op rfl fun _ => ?_)
      split
      · exact stop nofun nofun
      refine bind (idup ?_)
      refine bind (op rfl fun _ => ?_)
      refine bind (of_uses (Uses.forkFiles p child _) rfl fun _ => ?_)
      refine bind (op rfl fun _ => ?_)
      exact bind (getProc fun _ => pure (rest _ _))

theorem exitFiles {p : ProcId} {post : Unit → Holding → Prop}
    (rest : ∀ uses', post () ⟨0, uses', none⟩) (fds : List (Fin nfile))
    (uses : Multiset InodeId) :
    Guards strict ⟨0, uses, none⟩ (Fs.exitFiles p fds : FsM H Unit) post := by
  induction fds generalizing uses with
  | nil => exact pure (rest _)
  | cons fd fds ih =>
      refine bind (getProc fun proc => ?_)
      exact bind (whenSome (fun f _ => fileClose fun _ => ih _) fun _ => ih _)

theorem exit {p : ProcId} {status : ℤ} {post : Unit → Holding → Prop}
    (rest : ∀ uses', post () ⟨0, uses', none⟩) :
    Guards strict ⟨0, uses, none⟩ (Fs.exit p status : FsM H Unit) post := by
  refine bind (of_uses (Uses.exitOrphans p _) rfl fun _ => ?_)
  refine bind (exitFiles (fun uses' => ?_) _ _)
  refine bind (getProc fun proc => ?_)
  split
  · exact stop nofun nofun
  refine bind ?_
  cases proc.cwd with
  | none => exact stop nofun nofun
  | some cwd => exact iput (fun _ => Multiset.notMem_zero cwd) (op rfl fun _ => rest _)

theorem pipeOpen {p : ProcId} {readEnd writeEnd : FileId} {pipe : PipeId}
    {post : ℤ → Holding → Prop} (rest : ∀ result uses', post result ⟨0, uses', none⟩) :
    Guards strict ⟨0, uses, none⟩
      (Fs.pipeOpen p readEnd writeEnd pipe : FsM H ℤ) post := by
  refine bind (op rfl fun _ => ?_)
  refine bind (op rfl fun _ => ?_)
  refine bind (op rfl fun _ => ?_)
  refine bind (op rfl fun _ => ?_)
  refine bind (of_uses (Uses.fileFdAlloc p readEnd) rfl fun readFd => ?_)
  refine bind (of_uses (Uses.fileFdAlloc p writeEnd) rfl fun writeFd => ?_)
  split
  · refine bind (op rfl fun _ => ?_)
    refine bind (fileClose fun _ => ?_)
    refine bind (fileClose fun _ => ?_)
    exact bind (op rfl fun _ => pure (rest _ _))
  · exact pure (rest _ _)

theorem sysPipe {p : ProcId} {fd : ℤ} {post : ℤ → Holding → Prop}
    (rest : ∀ result uses', post result ⟨0, uses', none⟩) :
    Guards strict ⟨0, uses, none⟩ (Fs.sysPipe p fd : FsM H ℤ) post := by
  unfold Fs.sysPipe
  split
  · exact pure (rest _ _)
  refine bind (of_uses Uses.fileAlloc rfl fun readEnd => ?_)
  refine bind (of_uses Uses.fileAlloc rfl fun writeEnd => ?_)
  split
  · refine bind (op rfl fun _ => ?_)
    refine bind (op rfl fun _ => ?_)
    refine bind (op rfl fun core => ?_)
    split
    · refine bind (fileClose fun _ => ?_)
      exact bind (fileClose fun _ => pure (rest _ _))
    · exact pipeOpen rest
  · exact bind (fileClose fun _ => pure (rest _ _))
  · exact bind (fileClose fun _ => pure (rest _ _))
  · exact pure (rest _ _)

/-- Every system call keeps to the discipline and ends without locks. -/
theorem sysent (p : ProcId) (call : Call) :
    Guards strict .outside (Osix.sysent p call : FsM H Answer) fun _ own => own.Clear := by
  have clear : ∀ uses : Multiset InodeId, (⟨0, uses, none⟩ : Holding).Clear :=
    fun _ => ⟨rfl, rfl⟩
  cases call with
  | read fd nbytes => exact bind (read fun _ _ => pure (clear _))
  | write fd src => exact bind (write fun _ _ => pure (clear _))
  | «open» filename flags mode => exact bind (sysOpen fun _ _ => pure (clear _))
  | creat filename mode => exact bind (sysOpen fun _ _ => pure (clear _))
  | close fd => exact bind (close fun _ _ => pure (clear _))
  | dup fd => exact bind (of_uses (Uses.dup p fd) rfl fun _ => pure (clear _))
  | dup2 oldFd newFd => exact bind (dup2 fun _ _ => pure (clear _))
  | pipe fd => exact bind (sysPipe fun _ _ => pure (clear _))
  | lseek fd offset whence =>
      exact bind (of_uses (Uses.lseek p fd offset whence) rfl fun _ => pure (clear _))
  | chdir path => exact bind (chdir fun _ _ => pure (clear _))
  | stat path => exact bind (stat fun _ _ => pure (clear _))
  | fstat fd => exact bind (fstat fun _ _ => pure (clear _))
  | ioctl fd request termios =>
      exact bind (of_uses (Uses.ioctl p fd request termios) rfl fun _ => pure (clear _))
  | utime filename times => exact bind (sysUtime fun _ _ => pure (clear _))
  | unlink filepath => exact bind (sysUnlink fun _ _ => pure (clear _))
  | mkdir pathname mode => exact bind (sysMkdir fun _ _ => pure (clear _))
  | exec pathname => exact bind (sysExec fun _ _ => pure (clear _))
  | fork => exact bind (fork fun _ _ => pure (clear _))
  | exit status => exact bind (exit fun _ => pure (clear _))
  | wait => exact bind (of_uses (Uses.wait p) rfl fun _ => pure (clear _))
  | setuid uid => exact bind (of_uses (Uses.setId p _) rfl fun _ => pure (clear _))
  | setgid gid => exact bind (of_uses (Uses.setId p _) rfl fun _ => pure (clear _))

end Guards

end Osix
