import Osix.Fs.Machine

/-!
# One process on a flat disk

The file system code on a disk without a cache: every change of a buffer takes effect at once.
This is what the buffer cache looks like to a single process (`Client.flat`, of which
`Client.transparent_of_freshReads` shows that the cache behaves like it). There is nobody to
wake up a process that sleeps, so a run of a system call ends there.

`Flat.rules` are the rules to judge programs by. `ok` is what is assumed of the marked points
of the run, `allowed` and `sleeps` say how it may stop and fall asleep. `Flat.checks` are the
rules for obligations: `must` has to hold at the marked points. What the operations do is the
same for both, and stated once for all rules that only look at marked points (`Judges`).
-/

namespace Osix

open Program

/-- A value of the C type `long`. -/
def IsLong (value : ℤ) : Prop := -2 ^ 31 ≤ value ∧ value < 2 ^ 31

theorem isLong_zero : IsLong 0 := by
  unfold IsLong
  decide

theorem toLong_of_isLong {value : ℤ} (isLong : IsLong value) : toLong value = value := by
  rcases isLong with ⟨least, most⟩
  apply Int.bmod_eq_of_le_mul_two <;> omega

theorem toLong_natCast {n : ℕ} (small : n < 2 ^ 31) : toLong (n : ℤ) = n := by
  apply Int.bmod_eq_of_le_mul_two <;> omega

theorem toUint_natCast {n : ℕ} (small : n < 2 ^ 32) : toUint (n : ℤ) = n := by
  unfold toUint
  omega

/-- The tables and the blocks of the devices. -/
structure Flat where
  core : Core
  disk : Dev → ℕ → Block

/-- A buffer is the block it holds. -/
abbrev FlatBuf := Dev × ℕ

namespace Flat

def setBlock (flat : Flat) (buf : FlatBuf) (data : Block) : Flat where
  core := flat.core
  disk := Function.update flat.disk buf.1 (Function.update (flat.disk buf.1) buf.2 data)

/-- An operation of the tables on the whole machine. -/
def lift {Reply : Type} (flat : Flat) : Outcome Reply Core Stop → Outcome Reply Flat Stop
  | .done reply core => .done reply { flat with core := core }
  | .wait core => .wait { flat with core := core }
  | .stop why => .stop why

def handler : Handler (FsOp FlatBuf) FsOp.Reply Flat Stop
  | .bread dev blockNo, flat => .done (dev, blockNo) flat
  | .bdata buf, flat => .done (flat.disk buf.1 buf.2) flat
  | .bstore buf change, flat => .done () (flat.setBlock buf (change (flat.disk buf.1 buf.2)))
  | .bdirty _, flat => .done () flat
  | .bwrite _, flat => .done () flat
  | .brelse _, flat => .done () flat
  | .sleep _, flat => .wait flat
  | operation, flat => flat.lift (flat.core.perform operation)

/-- The condition on marked points as one on operations. -/
def atMark (ok : Event → Flat → Prop) (operation : FsOp FlatBuf) (flat : Flat) : Prop :=
  ∀ event, operation = .mark event → ok event flat

def rules (ok : Event → Flat → Prop) (allowed : Stop → Flat → Prop) (sleeps : Flat → Prop) :
    Spec (FsOp FlatBuf) FsOp.Reply Flat :=
  handler.rules (atMark ok) allowed sleeps

def checks (must : Event → Flat → Prop) (allowed : Stop → Flat → Prop) (sleeps : Flat → Prop) :
    Spec (FsOp FlatBuf) FsOp.Reply Flat :=
  handler.checks (atMark must) allowed sleeps

/-- Rules that judge an operation that is no mark by what the machine does. -/
class Judges (spec : Spec (FsOp FlatBuf) FsOp.Reply Flat)
    (allowed : outParam (Stop → Flat → Prop)) : Prop where
  done : ∀ (operation : FsOp FlatBuf) {reply : operation.Reply} {flat flat' : Flat},
    (∀ event, operation ≠ .mark event) → handler operation flat = .done reply flat' →
    ∀ post, spec.before operation post flat ↔ post reply flat'
  stop : ∀ (operation : FsOp FlatBuf) {why : Stop} {flat : Flat},
    (∀ event, operation ≠ .mark event) → handler operation flat = .stop why →
    ∀ post, spec.before operation post flat ↔ allowed why flat

theorem atMark_of_unmarked {ok : Event → Flat → Prop} {operation : FsOp FlatBuf}
    (unmarked : ∀ event, operation ≠ .mark event) (flat : Flat) : atMark ok operation flat :=
  fun event isMark => absurd isMark (unmarked event)

instance (ok : Event → Flat → Prop) (allowed : Stop → Flat → Prop) (sleeps : Flat → Prop) :
    Judges (rules ok allowed sleeps) allowed where
  done operation _ flat _ unmarked isDone post := by
    simp only [rules, Handler.rules, isDone]
    exact ⟨fun holds => holds (atMark_of_unmarked unmarked flat), fun holds _ => holds⟩
  stop operation _ flat unmarked isStop post := by
    simp only [rules, Handler.rules, isStop]
    exact ⟨fun holds => holds (atMark_of_unmarked unmarked flat), fun holds _ => holds⟩

instance (must : Event → Flat → Prop) (allowed : Stop → Flat → Prop) (sleeps : Flat → Prop) :
    Judges (checks must allowed sleeps) allowed where
  done operation _ flat _ unmarked isDone post := by
    simp only [checks, Handler.checks, isDone]
    exact and_iff_right (atMark_of_unmarked unmarked flat)
  stop operation _ flat unmarked isStop post := by
    simp only [checks, Handler.checks, isStop]
    exact and_iff_right (atMark_of_unmarked unmarked flat)

/-- An inode of the cache is changed. -/
def setInode (flat : Flat) (i : InodeId) (change : Inode → Inode) : Flat where
  core := flat.core.setInode i change
  disk := flat.disk

/-- The fields that are kept on the disk are changed. -/
def setData (flat : Flat) (i : InodeId) (change : InodeData → InodeData) : Flat :=
  flat.setInode i fun old => { old with toInodeData := change old.toInodeData }

/-- An entry of the file table is changed. -/
def setFile (flat : Flat) (f : FileId) (change : File → File) : Flat :=
  { flat with core := flat.core.setFile f change }

/-- An entry of the process table is changed. -/
def setProc (flat : Flat) (p : ProcId) (change : Proc → Proc) : Flat :=
  { flat with core := flat.core.setProc p change }

/-- An entry of the pipe table is changed. -/
def setPipe (flat : Flat) (pipe : PipeId) (change : Pipe → Pipe) : Flat :=
  { flat with core := flat.core.setPipe pipe change }

/-! ## What changes -/

section

variable (flat : Flat) (i : InodeId) (change : Inode → Inode) (buf : FlatBuf) (data : Block)

@[simp]
theorem setBlock_core : (flat.setBlock buf data).core = flat.core := rfl

@[simp]
theorem setBlock_self : (flat.setBlock buf data).disk buf.1 buf.2 = data := by
  simp [setBlock]

theorem setBlock_of_ne {dev : Dev} {blockNo : ℕ} (different : (dev, blockNo) ≠ buf) :
    (flat.setBlock buf data).disk dev blockNo = flat.disk dev blockNo := by
  obtain ⟨dev', blockNo'⟩ := buf
  rcases eq_or_ne dev dev' with rfl | otherDev
  · have otherBlock : blockNo ≠ blockNo' := by
      rintro rfl
      exact different rfl
    simp [setBlock, otherBlock]
  · simp [setBlock, otherDev]

@[simp]
theorem setInode_disk : (flat.setInode i change).disk = flat.disk := rfl

@[simp]
theorem setInode_super : (flat.setInode i change).core.super = flat.core.super := rfl

@[simp]
theorem setInode_self :
    (flat.setInode i change).core.inodes i = change (flat.core.inodes i) := by
  simp [setInode, Core.setInode]

theorem setInode_of_ne {j : InodeId} (different : j ≠ i) :
    (flat.setInode i change).core.inodes j = flat.core.inodes j := by
  simp [setInode, Core.setInode, different]

end

/-! ## Rules for the operations -/

section

variable {spec : Spec (FsOp FlatBuf) FsOp.Reply Flat} {allowed : Stop → Flat → Prop}
  [judges : Judges spec allowed] {flat : Flat}

include judges

open Fs

@[simp]
theorem wp_getCore (post : Core → Flat → Prop) :
    wp spec getCore post flat ↔ post flat.core flat :=
  Judges.done .core (by simp) rfl post

@[simp]
theorem wp_getInode (i : InodeId) (post : Inode → Flat → Prop) :
    wp spec (getInode i) post flat ↔ post (flat.core.inodes i) flat := by
  simp [getInode]

@[simp]
theorem wp_getFile (f : FileId) (post : File → Flat → Prop) :
    wp spec (getFile f) post flat ↔ post (flat.core.files f) flat := by
  simp [getFile]

@[simp]
theorem wp_getProc (p : ProcId) (post : Proc → Flat → Prop) :
    wp spec (getProc p) post flat ↔ post (flat.core.procs p) flat := by
  simp [getProc]

@[simp]
theorem wp_setFile (f : FileId) (change : File → File) (post : Unit → Flat → Prop) :
    wp spec (Fs.setFile f change) post flat ↔ post () (flat.setFile f change) :=
  Judges.done (.setFile f change) (by simp) rfl post

@[simp]
theorem wp_setProc (p : ProcId) (change : Proc → Proc) (post : Unit → Flat → Prop) :
    wp spec (Fs.setProc p change) post flat ↔ post () (flat.setProc p change) :=
  Judges.done (.setProc p change) (by simp) rfl post

@[simp]
theorem wp_setPipe (pipe : PipeId) (change : Pipe → Pipe) (post : Unit → Flat → Prop) :
    wp spec (Fs.setPipe pipe change) post flat ↔ post () (flat.setPipe pipe change) :=
  Judges.done (.setPipe pipe change) (by simp) rfl post

@[simp]
theorem wp_setData (i : InodeId) (change : InodeData → InodeData) (post : Unit → Flat → Prop) :
    wp spec (Fs.setData i change) post flat ↔
      post () (flat.setData i change) :=
  Judges.done (.setData i change) (by simp) rfl post

@[simp]
theorem wp_setDirty (i : InodeId) (dirty : Bool) (post : Unit → Flat → Prop) :
    wp spec (Fs.setDirty i dirty) post flat ↔
      post () (flat.setInode i fun old => { old with dirty := dirty }) :=
  Judges.done (.setDirty i dirty) (by simp) rfl post

theorem wp_putchar (dev : Dev) (char : Byte) (post : ℤ → Flat → Prop) :
    wp spec (Fs.putchar dev char) post flat ↔
      post (flat.core.putchar dev char).1 { flat with core := (flat.core.putchar dev char).2 } :=
  Judges.done (.putchar dev char) (by simp) rfl post

@[simp]
theorem wp_bread (dev : Dev) (blockNo : ℕ) (post : FlatBuf → Flat → Prop) :
    wp spec (Fs.bread dev blockNo) post flat ↔ post (dev, blockNo) flat :=
  Judges.done (.bread dev blockNo) (by simp) rfl post

@[simp]
theorem wp_bdata (buf : FlatBuf) (post : Block → Flat → Prop) :
    wp spec (Fs.bdata buf) post flat ↔
      post (flat.disk buf.1 buf.2) flat :=
  Judges.done (.bdata buf) (by simp) rfl post

@[simp]
theorem wp_bstore (buf : FlatBuf) (change : Block → Block) (post : Unit → Flat → Prop) :
    wp spec (Fs.bstore buf change) post flat ↔
      post () (flat.setBlock buf (change (flat.disk buf.1 buf.2))) :=
  Judges.done (.bstore buf change) (by simp) rfl post

@[simp]
theorem wp_bdirty (buf : FlatBuf) (post : Unit → Flat → Prop) :
    wp spec (Fs.bdirty buf) post flat ↔ post () flat :=
  Judges.done (.bdirty buf) (by simp) rfl post

@[simp]
theorem wp_bwrite (buf : FlatBuf) (post : Unit → Flat → Prop) :
    wp spec (Fs.bwrite buf) post flat ↔ post () flat :=
  Judges.done (.bwrite buf) (by simp) rfl post

@[simp]
theorem wp_brelse (buf : FlatBuf) (post : Unit → Flat → Prop) :
    wp spec (Fs.brelse buf) post flat ↔ post () flat :=
  Judges.done (.brelse buf) (by simp) rfl post

@[simp]
theorem wp_stop {α : Type} (why : Stop) (post : α → Flat → Prop) :
    wp spec (Fs.stop why) post flat ↔ allowed why flat :=
  Judges.stop (.stop why) (by simp) rfl _

@[simp]
theorem wp_panic {α : Type} (message : Panic) (post : α → Flat → Prop) :
    wp spec (Fs.panic message) post flat ↔
      allowed (.panic message) flat :=
  wp_stop (.panic message) post

@[simp]
theorem wp_fault {α : Type} (post : α → Flat → Prop) :
    wp spec (Fs.fault : FsM FlatBuf α) post flat ↔ allowed .fault flat :=
  wp_stop .fault post

@[simp]
theorem wp_ilock (i : InodeId) (post : Unit → Flat → Prop) :
    wp spec (Fs.ilock i) post flat ↔
      if (flat.core.inodes i).lock then allowed (.panic .ilock) flat
      else post () (flat.setInode i fun old => { old with lock := true }) := by
  by_cases locked : (flat.core.inodes i).lock = true
  · rw [if_pos locked]
    exact Judges.stop (.ilock i) (by simp) (congrArg flat.lift (if_pos locked)) post
  · rw [if_neg locked]
    exact Judges.done (.ilock i) (by simp) (congrArg flat.lift (if_neg locked)) post

@[simp]
theorem wp_iunlock (i : InodeId) (post : Unit → Flat → Prop) :
    wp spec (Fs.iunlock i) post flat ↔
      if (flat.core.inodes i).lock then
        post () (flat.setInode i fun old => { old with lock := false, wanted := false })
      else allowed (.panic .iunlock) flat := by
  by_cases locked : (flat.core.inodes i).lock = true
  · rw [if_pos locked]
    exact Judges.done (.iunlock i) (by simp) (congrArg flat.lift (if_pos locked)) post
  · rw [if_neg locked]
    exact Judges.stop (.iunlock i) (by simp) (congrArg flat.lift (if_neg locked)) post

@[simp]
theorem wp_idup (i : InodeId) (post : Unit → Flat → Prop) :
    wp spec (Fs.idup i) post flat ↔
      post () (flat.setInode i fun old => { old with refcount := old.refcount + 1 }) :=
  Judges.done (.idup i) (by simp) rfl post

@[simp]
theorem wp_iunref (i : InodeId) (post : Bool → Flat → Prop) :
    wp spec (Fs.iunref i) post flat ↔
      if (flat.core.inodes i).refcount = 0 ∨ (flat.core.inodes i).lock = true then
        allowed (.panic .iput) flat
      else post (decide ((flat.core.inodes i).refcount = 1))
        (flat.setInode i fun old => { old with refcount := old.refcount - 1 }) := by
  by_cases refused : (flat.core.inodes i).refcount = 0 ∨ (flat.core.inodes i).lock = true
  · rw [if_pos refused]
    exact Judges.stop (.iunref i) (by simp) (congrArg flat.lift (if_pos refused)) post
  · rw [if_neg refused]
    exact Judges.done (.iunref i) (by simp) (congrArg flat.lift (if_neg refused)) post

end

/-! ## Marked points -/

section

variable {ok must : Event → Flat → Prop} {allowed : Stop → Flat → Prop} {sleeps : Flat → Prop}
  {flat : Flat}

theorem atMark_mark {event : Event} : atMark ok (.mark event) flat ↔ ok event flat := by
  simp [atMark]

@[simp]
theorem wp_mark (event : Event) (post : Unit → Flat → Prop) :
    wp (rules ok allowed sleeps) (Fs.mark event) post flat ↔ (ok event flat → post () flat) := by
  show (atMark ok (.mark event) flat → post () flat) ↔ _
  rw [atMark_mark]

@[simp]
theorem wp_mark_checks (event : Event) (post : Unit → Flat → Prop) :
    wp (checks must allowed sleeps) (Fs.mark event) post flat ↔
      must event flat ∧ post () flat := by
  show atMark must (.mark event) flat ∧ post () flat ↔ _
  rw [atMark_mark]

@[simp]
theorem wp_inodeAgain (f : FileId) (i : InodeId) (post : Option InodeId → Flat → Prop) :
    wp (rules ok allowed sleeps) (Fs.inodeAgain f i) post flat ↔
      (ok (.again i (flat.core.files f).inode) flat → post (flat.core.files f).inode flat) := by
  unfold Fs.inodeAgain
  simp only [wp_bind, wp_getFile, wp_mark, wp_pure]

@[simp]
theorem wp_iunlockPtr (pointer : Option InodeId) (post : Unit → Flat → Prop) :
    wp (rules ok allowed sleeps) (Fs.iunlockPtr pointer) post flat ↔
      match pointer with
      | none => allowed (.panic .iunlock) flat
      | some i => wp (rules ok allowed sleeps) (Fs.iunlock i) post flat := by
  cases pointer with
  | none => exact wp_panic .iunlock post
  | some i => exact Iff.rfl

end

/-! ## Runs -/

section

variable {flat flat' : Flat} {α : Type} {prog : FsM FlatBuf α} {post : α → Flat → Prop}

/-- Rules under which nothing may go wrong. -/
abbrev surely : Spec (FsOp FlatBuf) FsOp.Reply Flat :=
  rules (fun _ _ => True) (fun _ _ => False) fun _ => False

/-- Rules under which a run may stop and sleep as it likes. -/
abbrev partly : Spec (FsOp FlatBuf) FsOp.Reply Flat :=
  rules (fun _ _ => True) (fun _ _ => True) fun _ => True

/-- A program with which nothing can go wrong returns. -/
theorem returns_of_surely (judged : wp surely prog post flat) :
    ∃ value flat', exec handler prog flat = .returned value flat' ∧ post value flat' :=
  exec_returns judged (along_of_forall (fun _ _ _ _ => trivial) prog flat)

theorem wp_surely_iff :
    wp surely prog post flat ↔
      ∃ value flat', exec handler prog flat = .returned value flat' ∧ post value flat' :=
  wp_iff_exec fun _ _ _ _ => trivial

/-- A program that is known to return. -/
theorem wp_surely_returned {value : α} (returned : exec handler prog flat = .returned value flat') :
    wp surely prog post flat ↔ post value flat' := by
  rw [wp_surely_iff]
  constructor
  · rintro ⟨_, _, returned', holds⟩
    cases returned.symm.trans returned'
    exact holds
  · exact fun holds => ⟨value, flat', returned, holds⟩

/-- What a program is judged to return, it returns. -/
theorem returned_of_partly {value : α} (judged : wp partly prog post flat)
    (returned : exec handler prog flat = .returned value flat') : post value flat' := by
  have ends := exec_ends judged (along_of_forall (fun _ _ _ _ => trivial) prog flat)
  rw [returned] at ends
  exact ends

end

end Flat

end Osix
