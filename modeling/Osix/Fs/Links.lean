import Osix.Fs.Cache
import Osix.Fs.Footprint

/-!
# Modes and link counts

Almost all of the file system code changes neither the mode nor the link count of an inode in
core (`LinksKept`). `linkSpec i` are the rules by which a program is followed from the moment on
that slot `i` is dirty: the slot keeps its inode and its mode, and the rules see its link count.
`Linked` relates them to the inode cache.
-/

namespace Osix

open Program Fs

variable {H : Type} {α β : Type}

/-- The operation leaves the mode and the links in slot `i` alone and does not clean the slot. -/
def FsOp.KeepsLinks (i : InodeId) : FsOp H → Prop
  | .setData j change => j = i → ∀ data : InodeData,
      (change data).mode = data.mode ∧ (change data).nlinks = data.nlinks
  | .setDirty j dirty => j = i → dirty = true
  | _ => True

/-- The program only performs such operations. -/
abbrev LinksKept (i : InodeId) (prog : FsM H α) : Prop := Only (FsOp.KeepsLinks i) prog

namespace LinksKept

variable {i : InodeId}

theorem bind {prog : FsM H α} {next : α → FsM H β} (first : LinksKept i prog)
    (second : ∀ value, LinksKept i (next value)) : LinksKept i (prog >>= next) :=
  Only.bind first second

theorem pure (value : α) : LinksKept i (Pure.pure value : FsM H α) := Only.pure value

theorem op {operation : FsOp H} (keeps : operation.KeepsLinks i) :
    LinksKept i (.perform operation) :=
  Only.perform keeps

theorem stop {why : Stop} : LinksKept i (Fs.stop why : FsM H α) :=
  Only.op trivial fun empty => empty.elim

theorem getInode (j : InodeId) : LinksKept i (Fs.getInode j : FsM H Inode) :=
  bind (op trivial) fun _ => pure _

theorem getProc (p : ProcId) : LinksKept i (Fs.getProc p : FsM H Proc) :=
  bind (op trivial) fun _ => pure _

theorem denies (p : ProcId) (j : InodeId) (mode : ℕ) :
    LinksKept i (Fs.denies p j mode : FsM H Bool) :=
  bind (op trivial) fun _ => pure _

theorem setDirty (j : InodeId) : LinksKept i (Fs.setDirty j true : FsM H Unit) :=
  op fun _ => rfl

/-! ## Blocks and contents -/

theorem ballocLoop (dev : Dev) (blocks zmapBlock blockNo : ℕ) :
    LinksKept i (Fs.ballocLoop dev blocks zmapBlock blockNo : FsM H ℕ) := by
  induction blocks generalizing zmapBlock blockNo with
  | zero => exact bind (op trivial) fun _ => pure _
  | succ blocks ih =>
      refine bind (op trivial) fun buf => ?_
      refine bind (op trivial) fun zmap => ?_
      split
      · refine bind (op trivial) fun _ => ?_
        refine bind (op trivial) fun _ => ?_
        exact bind (op trivial) fun _ => pure _
      · exact bind (op trivial) fun _ => ih _ _

theorem balloc (dev : Dev) : LinksKept i (Fs.balloc dev : FsM H ℕ) :=
  bind (op trivial) fun _ => ballocLoop dev _ _ _

theorem bfree (dev : Dev) (blockNo : ℕ) : LinksKept i (Fs.bfree dev blockNo : FsM H Unit) := by
  refine bind (op trivial) fun core => ?_
  dsimp only
  split
  · exact stop
  · refine bind (op trivial) fun buf => ?_
    refine bind (op trivial) fun zmap => ?_
    split
    · refine bind (op trivial) fun _ => ?_
      exact bind (op trivial) fun _ => op trivial
    · exact stop

theorem bmapIndirect (j : InodeId) (entry : ℕ) :
    LinksKept i (Fs.bmapIndirect j entry : FsM H ℕ) := by
  refine bind (getInode j) fun node => ?_
  split
  · refine bind (op trivial) fun buf => ?_
    refine bind (op trivial) fun data => ?_
    refine bind (Only.when ?_) fun _ => ?_
    · refine bind (getInode j) fun node => ?_
      refine bind (balloc node.dev) fun zone => ?_
      exact bind (op trivial) fun _ => op trivial
    · refine bind (op trivial) fun data => ?_
      exact bind (op trivial) fun _ => pure _
  · exact pure 0

theorem bmap (j : InodeId) (index : ℕ) (write : Bool) :
    LinksKept i (Fs.bmap j index write : FsM H ℕ) := by
  refine bind (getInode j) fun node => ?_
  split
  · exact stop
  split
  · refine bind (Only.when ?_) fun _ => ?_
    · refine bind (balloc node.dev) fun zone => ?_
      exact bind (op fun _ _ => ⟨rfl, rfl⟩) fun _ => setDirty j
    · refine bind (getInode j) fun node => ?_
      exact bind (op trivial) fun _ => pure _
  split
  · refine bind (Only.when ?_) fun _ => ?_
    · refine bind (balloc node.dev) fun zone => ?_
      refine bind (op fun _ _ => ⟨rfl, rfl⟩) fun _ => ?_
      exact bind (setDirty j) fun _ => op trivial
    · refine bind (bmapIndirect j _) fun zone => ?_
      exact bind (op trivial) fun _ => pure zone
  · exact stop

theorem readiBlockDev (dev : Dev) (rounds blockNo : ℕ) (offset : ℤ) (nbytes : ℕ) :
    LinksKept i (Fs.readiBlockDev dev rounds blockNo offset nbytes : FsM H (List Byte)) := by
  induction rounds generalizing blockNo offset nbytes with
  | zero => exact pure _
  | succ rounds ih =>
      unfold Fs.readiBlockDev
      split
      · exact pure _
      refine bind (op trivial) fun buf => ?_
      split
      · exact stop
      · refine bind (op trivial) fun data => ?_
        refine bind (op trivial) fun _ => ?_
        exact bind (ih _ _ _) fun _ => pure _

theorem readiLoop (j : InodeId) (rounds bindex : ℕ) (offset : ℤ) (remaining : ℕ) :
    LinksKept i (Fs.readiLoop j rounds bindex offset remaining : FsM H (List Byte)) := by
  induction rounds generalizing bindex offset remaining with
  | zero => exact pure _
  | succ rounds ih =>
      unfold Fs.readiLoop
      split
      · exact pure _
      refine bind (bmap j bindex false) fun blockNo => ?_
      refine bind (getInode j) fun node => ?_
      refine bind (op trivial) fun buf => ?_
      split
      · exact stop
      · refine bind (op trivial) fun data => ?_
        refine bind (op trivial) fun _ => ?_
        exact bind (ih _ _ _) fun _ => pure _

theorem ttyWrite (dev : Dev) (bytes : List Byte) (count : ℤ) :
    LinksKept i (Fs.ttyWrite dev bytes count : FsM H ℤ) := by
  induction bytes with
  | nil => exact pure count
  | cons char rest ih =>
      refine bind (op trivial) fun len => ?_
      split
      · exact pure len
      · exact ih

theorem ttyEcho (t : TtyId) (dev : Dev) (bytes : List Byte) :
    LinksKept i (Fs.ttyEcho t dev bytes : FsM H Unit) := by
  refine bind (op trivial) fun core => ?_
  split
  · exact bind (ttyWrite dev bytes _) fun _ => pure ()
  · exact pure ()

theorem ttyKill (t : TtyId) (dev : Dev) (dest : ℕ → Byte) (kill : Byte → Bool) (pos : ℕ) :
    LinksKept i (Fs.ttyKill t dev dest kill pos : FsM H ℕ) := by
  induction pos with
  | zero => exact pure 0
  | succ pos ih =>
      unfold Fs.ttyKill
      split
      · exact bind (ttyEcho t dev _) fun _ => ih
      · exact pure _

theorem ttyKillLine (t : TtyId) (dev : Dev) (pos : ℕ) :
    LinksKept i (Fs.ttyKillLine t dev pos : FsM H Unit) := by
  induction pos with
  | zero => exact pure ()
  | succ pos ih => exact bind (ttyEcho t dev _) fun _ => ih

theorem ttyChar (t : TtyId) (dev : Dev) (dest : ℕ → Byte) (pos : ℕ) (char : Byte) :
    LinksKept i (Fs.ttyChar t dev dest pos char : FsM H Fs.TtyLine) := by
  unfold Fs.ttyChar
  split
  · split
    · exact bind (ttyEcho t dev _) fun _ => pure _
    · exact pure _
  split
  · split
    · refine bind (ttyEcho t dev _) fun _ => ?_
      refine bind (ttyKill t dev dest _ _) fun _ => ?_
      exact bind (ttyKill t dev dest _ _) fun _ => pure _
    · exact pure _
  split
  · exact bind (ttyKillLine t dev pos) fun _ => pure _
  split
  · split
    · refine bind (ttyEcho t dev _) fun _ => ?_
      exact bind (ttyEcho t dev _) fun _ => pure _
    · exact pure _
  split
  · exact pure _
  · exact bind (ttyEcho t dev _) fun _ => pure _

theorem ttyReadLoop (p : ProcId) (j : InodeId) (t : TtyId) (dev : Dev) (count rounds : ℕ)
    (dest : ℕ → Byte) (pos : ℕ) (char : Byte) :
    LinksKept i
      (Fs.ttyReadLoop p j t dev count rounds dest pos char : FsM H (ℤ × List Byte)) := by
  induction rounds generalizing dest pos char with
  | zero => exact stop
  | succ rounds ih =>
      unfold Fs.ttyReadLoop
      split
      · exact pure _
      refine bind (op trivial) fun core => ?_
      dsimp only
      split
      · split
        · exact pure _
        · refine bind (op trivial) fun _ => ?_
          refine bind (op trivial) fun _ => ?_
          exact bind (op trivial) fun _ => ih _ _ _
      · refine bind (op trivial) fun _ => ?_
        split
        · refine bind (ttyChar t dev dest pos _) fun line => ?_
          cases line with
          | more dest pos => exact ih _ _ _
          | ends dest pos => exact pure _
          | empty => exact pure _
        · exact pure _

theorem cdevRead (p : ProcId) (j : InodeId) (dev : Dev) (count : ℕ) :
    LinksKept i (Fs.cdevRead p j dev count : FsM H (ℤ × List Byte)) := by
  unfold Fs.cdevRead
  split
  · exact pure _
  split
  · unfold Fs.ttyRead
    split
    · exact stop
    · refine bind (op trivial) fun core => ?_
      exact bind (op trivial) fun _ => ttyReadLoop p j _ dev count _ _ _ _
  split
  · exact pure _
  · exact pure _

theorem readi (p : ProcId) (j : InodeId) (offset : ℤ) (nbytes : ℕ) :
    LinksKept i (Fs.readi p j offset nbytes : FsM H (ℤ × List Byte)) := by
  refine bind (getInode j) fun node => ?_
  dsimp only
  split
  · exact stop
  split
  · exact cdevRead p j _ nbytes
  split
  · exact bind (readiBlockDev _ _ _ _ _) fun _ => pure _
  split
  · exact pure _
  · exact bind (readiLoop j _ _ _ _) fun _ => pure _

theorem readDir (p : ProcId) (j : InodeId) :
    LinksKept i (Fs.readDir p j : FsM H (ℤ × ℕ × List Byte)) := by
  refine bind (op trivial) fun _ => ?_
  refine bind (getInode j) fun node => ?_
  refine bind (op trivial) fun core => ?_
  split
  · exact stop
  refine bind (readi p j _ _) fun result => ?_
  dsimp only
  split
  · exact stop
  · exact pure _

theorem storeName (named : Bool) (component name : List Byte) :
    LinksKept i (Fs.storeName named component name : FsM H (List Byte)) := by
  unfold Fs.storeName
  split
  · refine bind (op trivial) fun _ => ?_
    split
    · exact stop
    · exact pure _
  · exact pure _

theorem cdevWrite (dev : Dev) (src : List Byte) :
    LinksKept i (Fs.cdevWrite dev src : FsM H ℤ) := by
  unfold Fs.cdevWrite
  split
  · exact pure _
  split
  · exact ttyWrite dev src _
  · exact pure _

theorem writeiLoop (j : InodeId) (rounds bindex offset : ℕ) (src : List Byte) :
    LinksKept i (Fs.writeiLoop j rounds bindex offset src : FsM H Unit) := by
  induction rounds generalizing bindex offset src with
  | zero => exact pure ()
  | succ rounds ih =>
      unfold Fs.writeiLoop
      split
      · exact pure ()
      refine bind (bmap j bindex true) fun blockNo => ?_
      refine bind (getInode j) fun node => ?_
      refine bind (op trivial) fun _ => ?_
      refine bind (op trivial) fun buf => ?_
      refine bind (op trivial) fun _ => ?_
      refine bind (op trivial) fun _ => ?_
      exact bind (op trivial) fun _ => ih _ _ _

theorem writei (j : InodeId) (src : List Byte) (offset : ℕ) :
    LinksKept i (Fs.writei j src offset : FsM H ℤ) := by
  refine bind (getInode j) fun node => ?_
  dsimp only
  split
  · exact stop
  split
  · exact cdevWrite _ src
  split
  · exact stop
  split
  · exact stop
  · refine bind (writeiLoop j _ _ _ src) fun _ => ?_
    refine bind (getInode j) fun node => ?_
    refine bind (Only.when ?_) fun _ => pure _
    exact bind (op fun _ _ => ⟨rfl, rfl⟩) fun _ => setDirty j

/-! ## Directories -/

theorem wdirLoop (p : ProcId) (dir : InodeId) (rounds offset : ℕ) :
    LinksKept i (Fs.wdirLoop p dir rounds offset : FsM H ℕ) := by
  induction rounds generalizing offset with
  | zero => exact stop
  | succ rounds ih =>
      refine bind (readi p dir _ _) fun (ret, entry) => ?_
      dsimp only
      split
      · split
        · exact pure _
        · exact ih _
      · exact pure _

theorem wdir (p : ProcId) (dir : InodeId) (inodeno : ℕ) (filename : List Byte) :
    LinksKept i (Fs.wdir p dir inodeno filename : FsM H Unit) := by
  refine bind (op trivial) fun _ => ?_
  refine bind (op trivial) fun core => ?_
  refine bind (wdirLoop p dir _ _) fun offset => ?_
  refine bind (writei dir _ _) fun _ => ?_
  refine bind (getInode dir) fun node => ?_
  refine bind (Only.when ?_) fun _ => op trivial
  exact bind (op fun _ _ => ⟨rfl, rfl⟩) fun _ => setDirty dir

/-! ## Another slot -/

section

variable {j : InodeId}

theorem setData_of_ne (different : j ≠ i) (change : InodeData → InodeData) :
    LinksKept i (Fs.setData j change : FsM H Unit) :=
  op fun same => absurd same different

theorem setDirty_of_ne (different : j ≠ i) (dirty : Bool) :
    LinksKept i (Fs.setDirty j dirty : FsM H Unit) :=
  op fun same => absurd same different

theorem iupdate_of_ne (different : j ≠ i) : LinksKept i (Fs.iupdate j : FsM H Unit) := by
  refine bind (op trivial) fun core => ?_
  dsimp only
  split
  · refine bind (op trivial) fun buf => ?_
    refine bind (getInode j) fun node => ?_
    refine bind (op trivial) fun _ => ?_
    refine bind (setDirty_of_ne different _) fun _ => ?_
    exact bind (op trivial) fun _ => op trivial
  · exact pure ()

theorem itruncDirect_of_ne (different : j ≠ i) (zones : List (Fin ndirect)) :
    LinksKept i (Fs.itruncDirect j zones : FsM H Unit) := by
  induction zones with
  | nil => exact pure ()
  | cons zone rest ih =>
      refine bind (getInode j) fun node => ?_
      refine bind (Only.when ?_) fun _ => ih
      exact bind (bfree _ _) fun _ => setData_of_ne different _

theorem itruncEntries (buf : H) (entries : List ℕ) :
    LinksKept i (Fs.itruncEntries j buf entries : FsM H Unit) := by
  induction entries with
  | nil => exact pure ()
  | cons entry rest ih =>
      refine bind (op trivial) fun data => ?_
      refine bind (Only.when ?_) fun _ => ih
      exact bind (getInode j) fun node => bfree _ _

theorem itrunc_of_ne (different : j ≠ i) : LinksKept i (Fs.itrunc j : FsM H Unit) := by
  refine bind (getInode j) fun node => ?_
  split
  · exact stop
  refine bind (itruncDirect_of_ne different _) fun _ => ?_
  refine bind (getInode j) fun node => ?_
  refine bind (Only.when ?_) fun _ => ?_
  · refine bind (op trivial) fun buf => ?_
    refine bind (itruncEntries buf _) fun _ => ?_
    refine bind (op trivial) fun _ => ?_
    refine bind (getInode j) fun node => ?_
    exact bind (bfree _ _) fun _ => setData_of_ne different _
  · refine bind (setData_of_ne different _) fun _ => ?_
    exact bind (setDirty_of_ne different _) fun _ => iupdate_of_ne different

theorem ifree (dev : Dev) (inodeno : ℕ) : LinksKept i (Fs.ifree dev inodeno : FsM H Unit) := by
  refine bind (op trivial) fun core => ?_
  dsimp only
  split
  · exact stop
  split
  · exact stop
  · refine bind (op trivial) fun buf => ?_
    refine bind (op trivial) fun imap => ?_
    split
    · refine bind (op trivial) fun _ => ?_
      exact bind (op trivial) fun _ => op trivial
    · exact stop

theorem iput_of_ne (different : j ≠ i) : LinksKept i (Fs.iput j : FsM H Unit) := by
  refine bind (op trivial) fun last => ?_
  refine bind (Only.when ?_) fun _ => op trivial
  refine bind (getInode j) fun node => ?_
  refine bind (Only.when ?_) fun _ => op trivial
  refine bind (op trivial) fun _ => ?_
  refine bind (op trivial) fun _ => ?_
  refine bind (itrunc_of_ne different) fun _ => ?_
  refine bind (op trivial) fun _ => ?_
  refine bind (getInode j) fun node => ?_
  refine bind (ifree _ _) fun _ => ?_
  refine bind (setDirty_of_ne different _) fun _ => ?_
  exact bind (iupdate_of_ne different) fun _ => op trivial

end

end LinksKept

/-! ## Following one slot -/

/-- How the operations change the number of links in slot `i`, while it is dirty. -/
def linkSpec (i : InodeId) : Spec (FsOp H) FsOp.Reply ℕ where
  before operation post links :=
    match operation, post with
    | .core, post => ∀ core : Core, (core.inodes i).nlinks = links → post core links
    | .setData j change, post =>
        (j ≠ i → post () links) ∧
          (j = i → (∀ data : InodeData, (change data).mode = data.mode) ∧
            ∃ links', (∀ data : InodeData, data.nlinks = links → (change data).nlinks = links') ∧
              post () links')
    | .setDirty j dirty, post => (j = i → dirty = true) ∧ post () links
    | .ifind _ _, post => ∀ j cached, (cached = false → j ≠ i) → post (j, cached) links
    | .mark _, post => post () links
    | .stop _, _ => True
    | _, post => ∀ reply, post reply links
  mono {operation post post' links} weaker := by
    cases operation with
    | core => exact fun holds core same => weaker _ _ (holds core same)
    | setData j change =>
        refine And.imp (fun holds other => weaker _ _ (holds other)) fun holds same => ?_
        rcases holds same with ⟨sameMode, links', counts, rest⟩
        exact ⟨sameMode, links', counts, weaker _ _ rest⟩
    | setDirty j dirty => exact And.imp_right (weaker _ _)
    | ifind dev inodeno => exact fun holds j cached other => weaker _ _ (holds j cached other)
    | mark event => exact weaker _ _
    | stop why => exact id
    | _ => exact fun holds reply => weaker _ _ (holds reply)

/-- The program, begun with so many links in slot `i`, ends with as many as `post` says. -/
def Counts (i : InodeId) (links : ℕ) (prog : FsM H α) (post : α → ℕ → Prop) : Prop :=
  wp (linkSpec i) prog post links

namespace Counts

variable {i : InodeId} {links : ℕ}

section

variable {post : α → ℕ → Prop}

theorem pure {value : α} (holds : post value links) :
    Counts i links (Pure.pure value : FsM H α) post := holds

theorem bind {post : β → ℕ → Prop} {prog : FsM H α} {next : α → FsM H β}
    (first : Counts i links prog fun value links' => Counts i links' (next value) post) :
    Counts i links (prog >>= next) post :=
  (wp_bind prog next post).mpr first

theorem of_linksKept {prog : FsM H α} (kept : LinksKept i prog)
    (rest : ∀ value, post value links) : Counts i links prog post := by
  refine kept.wp (· = links) ?_ rfl fun value _ same => same ▸ rest value
  rintro operation post links keeps rfl holds
  cases operation with
  | core => exact fun core _ => holds core _ rfl
  | setData j change =>
      refine ⟨fun _ => holds () _ rfl, fun same => ⟨fun data => (keeps same data).1, links, ?_, ?_⟩⟩
      · rintro data rfl
        exact (keeps same data).2
      · exact holds () _ rfl
  | setDirty j dirty => exact ⟨keeps, holds () _ rfl⟩
  | ifind dev inodeno => exact fun j cached _ => holds _ _ rfl
  | mark event => exact holds () _ rfl
  | stop why => trivial
  | _ => exact fun reply => holds reply _ rfl

theorem op {operation : FsOp H} {post : operation.Reply → ℕ → Prop}
    (keeps : operation.KeepsLinks i) (rest : ∀ reply, post reply links) :
    Counts i links (.perform operation) post :=
  of_linksKept (LinksKept.op keeps) rest

theorem stop {why : Stop} : Counts i links (Fs.stop why : FsM H α) post := trivial

theorem when {condition : Prop} [Decidable condition] {prog : FsM H Unit}
    {post : Unit → ℕ → Prop} (yes : condition → Counts i links prog post)
    (no : ¬condition → post () links) : Counts i links (Prog.when condition prog) post := by
  unfold Prog.when
  split
  · exact yes ‹_›
  · exact no ‹_›

theorem wp_self {prog : FsM H α} {post : α → ℕ → Prop} (counts : Counts i links prog post) :
    wp (linkSpec i) prog post links := counts

end

theorem getInode {j : InodeId} {post : Inode → ℕ → Prop}
    (rest : ∀ node : Inode, (j = i → node.nlinks = links) → post node links) :
    Counts i links (Fs.getInode j : FsM H Inode) post := by
  intro core isCount
  refine rest _ ?_
  rintro rfl
  exact isCount

theorem setData_self {change : InodeData → InodeData} {links' : ℕ} {post : Unit → ℕ → Prop}
    (sameMode : ∀ data : InodeData, (change data).mode = data.mode)
    (counts : ∀ data : InodeData, data.nlinks = links → (change data).nlinks = links')
    (rest : post () links') : Counts i links (Fs.setData i change : FsM H Unit) post :=
  ⟨fun other => absurd rfl other, fun _ => ⟨sameMode, links', counts, rest⟩⟩

theorem setData_of_ne {j : InodeId} {change : InodeData → InodeData} {post : Unit → ℕ → Prop}
    (different : j ≠ i) (rest : post () links) :
    Counts i links (Fs.setData j change : FsM H Unit) post :=
  ⟨fun _ => rest, fun same => absurd same different⟩

theorem ifind {dev : Dev} {inodeno : ℕ} {post : InodeId × Bool → ℕ → Prop}
    (rest : ∀ j cached, (cached = false → j ≠ i) → post (j, cached) links) :
    Counts i links (Fs.ifind dev inodeno : FsM H (InodeId × Bool)) post := rest

-- From here on the rules above are all that is used; unfolding would run the programs.
attribute [irreducible] Counts

theorem iget {dev : Dev} {inodeno : ℕ} {post : InodeId → ℕ → Prop}
    (rest : ∀ j, post j links) : Counts i links (Fs.iget dev inodeno : FsM H InodeId) post := by
  refine bind (ifind fun j cached fresh => ?_)
  dsimp only
  split
  · exact pure (rest j)
  · refine bind (op trivial fun core => ?_)
    refine bind (op trivial fun buf => ?_)
    refine bind (op trivial fun data => ?_)
    refine bind (setData_of_ne (fresh (Bool.eq_false_of_not_eq_true ‹_›)) ?_)
    refine bind (op trivial fun _ => ?_)
    exact bind (op trivial fun _ => pure (rest j))

/-- An inode with links is not given up. -/
theorem iput {j : InodeId} {post : Unit → ℕ → Prop} (linked : links ≠ 0)
    (rest : post () links) : Counts i links (Fs.iput j : FsM H Unit) post := by
  rcases eq_or_ne j i with rfl | different
  · refine bind (op trivial fun last => ?_)
    refine bind (when (fun _ => ?_) fun _ => op trivial fun _ => rest)
    refine bind (getInode fun node counts => ?_)
    refine bind (when (fun unlinked => ?_) fun _ => ?_)
    · exact absurd ((counts rfl).symm.trans unlinked) linked
    · exact op trivial fun _ => op trivial fun _ => rest
  · exact of_linksKept (LinksKept.iput_of_ne different) fun _ => rest

theorem iunlockput {j : InodeId} {post : Unit → ℕ → Prop} (linked : links ≠ 0)
    (rest : post () links) : Counts i links (Fs.iunlockput j : FsM H Unit) post :=
  bind (op trivial fun _ => iput linked rest)

/-! ## Path names -/

theorem nextInode {j : InodeId} {ndirent : ℕ} {dir component : List Byte}
    {post : Option InodeId → ℕ → Prop} (rest : ∀ next, post next links) :
    Counts i links (Fs.nextInode j ndirent dir component : FsM H (Option InodeId)) post := by
  refine bind (op trivial fun core => ?_)
  split
  · exact pure (rest none)
  · exact bind (iget fun next => pure (rest _))

section

variable (linked : links ≠ 0)

include linked

theorem nameicoreLoop {p : ProcId} {named parent : Bool} {post : Found → ℕ → Prop}
    (rest : ∀ found, post found links) (rounds : ℕ) (path : List Byte) (j : InodeId)
    (name : List Byte) :
    Counts i links
      (Fs.nameicoreLoop p named parent .own rounds path j name : FsM H Found) post := by
  induction rounds generalizing path j name with
  | zero => exact pure (rest _)
  | succ rounds ih =>
      unfold Fs.nameicoreLoop
      split
      · exact pure (rest _)
      refine bind (op trivial fun _ => ?_)
      refine bind (of_linksKept (LinksKept.denies p j _) fun denied => ?_)
      split
      · exact bind (iunlockput linked (pure (rest _)))
      refine bind (of_linksKept (LinksKept.readDir p j) fun result => ?_)
      rcases result with ⟨ret, ndirent, dir⟩
      refine bind (pure ?_)
      refine bind (getInode fun node _ => ?_)
      split
      · exact bind (iunlockput linked (pure (rest _)))
      refine bind (op trivial fun _ => ?_)
      refine bind (nextInode fun next => ?_)
      refine bind (of_linksKept (LinksKept.storeName named _ _) fun name => ?_)
      split
      · cases next with
        | none => exact bind (pure (pure (rest _)))
        | some next => exact bind (iput linked (pure (rest _)))
      refine bind (pure (bind (iput linked ?_)))
      cases next with
      | none => exact pure (rest _)
      | some next => exact bind (pure (ih _ _ _))

theorem nameicore {p : ProcId} {path : List Byte} {named parent : Bool}
    {post : Found → ℕ → Prop} (rest : ∀ found, post found links) :
    Counts i links (Fs.nameicore p path named parent .own : FsM H Found) post := by
  refine bind ?_
  have loop : ∀ start, Counts i links (do
      Fs.setInodep .own start
      let stack := (← getCore).stack
      Fs.nameicoreLoop p named parent .own path.length (path.dropWhile (· = slash)) start
        (cString stack) : FsM H Found) post :=
    fun start => bind (pure (bind (op trivial fun core => nameicoreLoop linked rest _ _ _ _)))
  unfold Fs.nameicoreStart
  split
  · exact iget fun start => loop start
  · refine bind (of_linksKept (LinksKept.getProc p) fun proc => ?_)
    split
    · exact stop
    · exact bind (op trivial fun _ => pure (loop _))

end

end Counts

/-! ## The slot in the inode cache -/

theorem Core.findInode_eq_some {core : Core} {dev : Dev} {inodeno : ℕ} {i : InodeId} :
    core.findInode dev inodeno = some i ↔
      ((core.inodes i).dev = dev ∧ (core.inodes i).inodeno = inodeno) ∧
        ∀ j < i, ¬((core.inodes j).dev = dev ∧ (core.inodes j).inodeno = inodeno) := by
  unfold findInode
  rw [List.find?_eq_some_iff_getElem]
  simp only [decide_eq_true_eq, List.getElem_finRange, List.length_finRange, Bool.not_eq_true',
    decide_eq_false_iff_not]
  refine and_congr_right fun _ => ⟨?_, fun before => ⟨i, i.isLt, rfl, fun j less => ?_⟩⟩
  · rintro ⟨index, inTable, isSlot, before⟩ j less
    subst isSlot
    exact before j less
  · exact before ⟨j, less.trans i.isLt⟩ less

theorem Core.findInode_setInode {core : Core} {j : InodeId} {change : Inode → Inode}
    (key : (change (core.inodes j)).dev = (core.inodes j).dev ∧
      (change (core.inodes j)).inodeno = (core.inodes j).inodeno) :
    (core.setInode j change).findInode = core.findInode := by
  have keys : ∀ slot, ((core.setInode j change).inodes slot).dev = (core.inodes slot).dev ∧
      ((core.setInode j change).inodes slot).inodeno = (core.inodes slot).inodeno := by
    intro slot
    rcases eq_or_ne slot j with rfl | different
    · simpa [Core.setInode] using key
    · simp [Core.setInode, different]
  funext dev inodeno
  unfold Core.findInode
  congr 1
  funext slot
  rw [(keys slot).1, (keys slot).2]

/-- Slot `i` is the one in which the inode is found, and it is dirty. -/
structure Linked (i : InodeId) (dev : Dev) (inodeno mode : ℕ) (core : Core) (links : ℕ) :
    Prop where
  first : core.findInode dev inodeno = some i
  sameMode : (core.inodes i).mode = mode
  isDirty : (core.inodes i).dirty = true
  counts : (core.inodes i).nlinks = links

namespace Linked

variable {i j : InodeId} {dev : Dev} {inodeno mode links links' : ℕ} {core core' : Core}

/-- A slot changes; slot `i` keeps its inode, its mode and stays dirty. -/
theorem setInode {change : Inode → Inode} (linked : Linked i dev inodeno mode core links)
    (key : (change (core.inodes j)).dev = (core.inodes j).dev ∧
      (change (core.inodes j)).inodeno = (core.inodes j).inodeno)
    (kept : j = i → (change (core.inodes j)).mode = (core.inodes j).mode ∧
      (change (core.inodes j)).dirty = true ∧ (change (core.inodes j)).nlinks = links')
    (other : j ≠ i → links' = links) :
    Linked i dev inodeno mode (core.setInode j change) links' := by
  have first : (core.setInode j change).findInode dev inodeno = some i := by
    rw [Core.findInode_setInode key]
    exact linked.first
  rcases eq_or_ne j i with rfl | different
  · have isSlot : (core.setInode j change).inodes j = change (core.inodes j) := by
      simp [Core.setInode]
    refine ⟨first, ?_, ?_, ?_⟩ <;> rw [isSlot]
    · exact (kept rfl).1.trans linked.sameMode
    · exact (kept rfl).2.1
    · exact (kept rfl).2.2
  · have isSlot : (core.setInode j change).inodes i = core.inodes i := by
      simp [Core.setInode, different.symm]
    refine ⟨first, ?_, ?_, ?_⟩ <;> rw [isSlot]
    · exact linked.sameMode
    · exact linked.isDirty
    · exact linked.counts.trans (other different).symm

/-- Who holds a slot is of no matter. -/
theorem hold {change : Inode → Inode} (linked : Linked i dev inodeno mode core links)
    (same : ∀ old, (change old).toInodeData = old.toInodeData ∧ (change old).dev = old.dev ∧
      (change old).inodeno = old.inodeno ∧ (change old).dirty = old.dirty) :
    Linked i dev inodeno mode (core.setInode j change) links := by
  refine linked.setInode ⟨(same _).2.1, (same _).2.2.1⟩ ?_ fun _ => rfl
  rintro rfl
  have sameData := (same (core.inodes j)).1
  refine ⟨congrArg InodeData.mode sameData, (same _).2.2.2.trans linked.isDirty, ?_⟩
  exact (congrArg InodeData.nlinks sameData).trans linked.counts

/-- A clean slot is taken for an inode that is not in the cache. -/
theorem take {dev' : Dev} {inodeno' : ℕ} (linked : Linked i dev inodeno mode core links)
    (missing : core.findInode dev' inodeno' = none) (clean : (core.inodes j).dirty = false) :
    j ≠ i ∧ Linked i dev inodeno mode (core.setInode j fun old => old.taken dev' inodeno') links := by
  have different : j ≠ i := by
    rintro rfl
    rw [linked.isDirty] at clean
    cases clean
  have isSlot : (core.setInode j fun old => old.taken dev' inodeno').inodes i = core.inodes i := by
    simp [Core.setInode, different.symm]
  rcases Core.findInode_eq_some.mp linked.first with ⟨isKey, before⟩
  refine ⟨different, Core.findInode_eq_some.mpr ⟨?_, fun slot less => ?_⟩, ?_, ?_, ?_⟩
  · rwa [isSlot]
  · rcases eq_or_ne slot j with rfl | otherSlot
    · simp only [Core.setInode, Function.update_self, Inode.taken]
      rintro ⟨rfl, rfl⟩
      rw [linked.first] at missing
      cases missing
    · simp only [Core.setInode, Function.update_of_ne otherSlot]
      exact before slot less
  · rw [isSlot]
    exact linked.sameMode
  · rw [isSlot]
    exact linked.isDirty
  · rw [isSlot]
    exact linked.counts

theorem of_inodes (linked : Linked i dev inodeno mode core links)
    (same : core'.inodes = core.inodes) : Linked i dev inodeno mode core' links := by
  rcases linked with ⟨first, sameMode, isDirty, counts⟩
  refine ⟨?_, ?_, ?_, ?_⟩
  · unfold Core.findInode at first ⊢
    rwa [same]
  · rwa [same]
  · rwa [same]
  · rwa [same]

end Linked

namespace Flat

variable {ok : Event → Flat → Prop} {i : InodeId} {dev : Dev} {inodeno mode links : ℕ}

/-- What the rules say about an operation is what it does to slot `i`. -/
theorem linkSpec_sound {operation : FsOp FlatBuf} {post : operation.Reply → ℕ → Prop}
    {post' : operation.Reply → Flat → Prop} {flat : Flat}
    (linked : Linked i dev inodeno mode flat.core links)
    (judged : (linkSpec i).before operation post links)
    (rest : ∀ reply (flat' : Flat) links', Linked i dev inodeno mode flat'.core links' →
      post reply links' → post' reply flat') :
    (rules ok (fun _ _ => True) fun _ => True).before operation post' flat := by
  intro _
  cases operation with
  | core => exact rest _ _ _ linked (judged _ linked.counts)
  | setData j change =>
      by_cases same : j = i
      · rcases judged.2 same with ⟨sameMode, links', counts, holds⟩
        refine rest () _ links' ?_ holds
        dsimp only
        refine linked.setInode ⟨rfl, rfl⟩ (fun _ => ⟨sameMode _, ?_, counts _ ?_⟩) ?_
        · exact same ▸ linked.isDirty
        · exact same ▸ linked.counts
        · exact fun different => absurd same different
      · refine rest () _ links ?_ (judged.1 same)
        dsimp only
        exact linked.setInode ⟨rfl, rfl⟩ (fun isSlot => absurd isSlot same) fun _ => rfl
  | setDirty j dirty =>
      refine rest () _ links ?_ judged.2
      dsimp only
      refine linked.setInode ⟨rfl, rfl⟩ (fun same => ⟨rfl, judged.1 same, ?_⟩) fun _ => rfl
      exact same ▸ linked.counts
  | ifind dev' inodeno' =>
      simp only [handler, Core.perform]
      rcases flat.core.ifind_cases dev' inodeno' with ⟨j, -, -, isFind⟩ | ⟨j, -, -, isFind⟩ |
        ⟨j, missing, free, isFind⟩ | ⟨-, -, isFind⟩ <;> rw [isFind]
      · trivial
      · refine rest _ _ links ?_ (judged j true fun fresh => by cases fresh)
        dsimp only
        exact linked.hold fun _ => ⟨rfl, rfl, rfl, rfl⟩
      · have isFree := List.find?_some free
        simp only [decide_eq_true_eq] at isFree
        rcases linked.take missing isFree.2 with ⟨different, linked'⟩
        exact rest _ _ links linked' (judged j false fun _ => different)
      · trivial
  | ilock j =>
      by_cases locked : (flat.core.inodes j).lock = true
      · simp only [handler, Core.perform, if_pos locked]
        trivial
      · simp only [handler, Core.perform, if_neg locked]
        refine rest () _ links ?_ (judged ())
        dsimp only
        exact linked.hold fun _ => ⟨rfl, rfl, rfl, rfl⟩
  | iunlock j =>
      by_cases locked : (flat.core.inodes j).lock = true
      · simp only [handler, Core.perform, if_pos locked]
        refine rest () _ links ?_ (judged ())
        dsimp only
        exact linked.hold fun _ => ⟨rfl, rfl, rfl, rfl⟩
      · simp only [handler, Core.perform, if_neg locked]
        trivial
  | idup j =>
      refine rest () _ links ?_ (judged ())
      dsimp only
      exact linked.hold fun _ => ⟨rfl, rfl, rfl, rfl⟩
  | iunref j =>
      by_cases refused : (flat.core.inodes j).refcount = 0 ∨ (flat.core.inodes j).lock = true
      · simp only [handler, Core.perform, if_pos refused]
        trivial
      · simp only [handler, Core.perform, if_neg refused]
        refine rest _ _ links ?_ (judged _)
        dsimp only
        exact linked.hold fun _ => ⟨rfl, rfl, rfl, rfl⟩
  | mark event => exact rest _ _ links linked judged
  | stop why => trivial
  | sleep chan => trivial
  | putchar tty char =>
      refine rest _ _ links (linked.of_inodes ?_) (judged _)
      show (flat.core.putchar tty char).2.inodes = flat.core.inodes
      unfold Core.putchar
      split <;> rfl
  | _ => exact rest _ _ links (linked.of_inodes rfl) (judged _)

/-- A program that is followed from a dirty slot on. -/
theorem wp_of_counts {α : Type} {prog : FsM FlatBuf α} {post : α → ℕ → Prop}
    {post' : α → Flat → Prop} {flat : Flat} (counts : Counts i links prog post)
    (linked : Linked i dev inodeno mode flat.core links)
    (rest : ∀ value (flat' : Flat) links', Linked i dev inodeno mode flat'.core links' →
      post value links' → post' value flat') :
    wp (rules ok (fun _ _ => True) fun _ => True) prog post' flat :=
  wp_of_related (fun flat links => Linked i dev inodeno mode flat.core links)
    linkSpec_sound counts.wp_self linked rest

end Flat

end Osix
