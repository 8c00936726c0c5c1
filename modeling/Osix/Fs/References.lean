import Osix.Fs.Descriptors
import Osix.Fs.Kernel
import Mathlib.Algebra.BigOperators.Group.Finset.Piecewise
import Mathlib.Data.Multiset.AddSub

/-!
# References to inodes

`nameicore` gets a reference to every inode on its way and gives all of them back but that of the
inode it has found. `Taken` is what a system call has taken so far: references and locks. The
rules of `takenSpec` follow both through a program, and `Tallied` relates them to the inode
cache. A lookup that reads from a terminal may have to wait for input, so the machine here is one
on which input arrives (`Flat.waking`).
-/

namespace Osix

open Program Fs

/-- The references and the locks that a system call has taken. -/
structure Taken where
  refs : Multiset InodeId
  locks : Multiset InodeId

variable {H : Type} {α β : Type}

/-- How the operations take and give back. -/
def takenSpec : Spec (FsOp H) FsOp.Reply Taken where
  before operation post own :=
    match operation, post with
    | .ifind _ _, post =>
        ∀ i, post (i, true) ⟨i ::ₘ own.refs, own.locks⟩ ∧
          post (i, false) ⟨i ::ₘ own.refs, i ::ₘ own.locks⟩
    | .ilock i, post => post () ⟨own.refs, i ::ₘ own.locks⟩
    | .iunlock i, post => i ∈ own.locks ∧ post () ⟨own.refs, own.locks.erase i⟩
    | .idup i, post => post () ⟨i ::ₘ own.refs, own.locks⟩
    | .iunref i, post => i ∈ own.refs ∧ ∀ last, post last ⟨own.refs.erase i, own.locks⟩
    | .mark _, post => post () own
    | .stop _, _ => True
    | _, post => ∀ reply, post reply own
  mono {operation post post' own} weaker := by
    cases operation with
    | ifind dev inodeno =>
        exact fun holds i => ⟨weaker _ _ (holds i).1, weaker _ _ (holds i).2⟩
    | ilock i => exact weaker _ _
    | iunlock i => exact And.imp_right (weaker _ _)
    | idup i => exact weaker _ _
    | iunref i => exact And.imp_right fun holds last => weaker _ _ (holds last)
    | mark event => exact weaker _ _
    | stop why => exact id
    | _ => exact fun holds reply => weaker _ _ (holds reply)

theorem takenSpec_neutral {operation : FsOp H} {post : operation.Reply → Taken → Prop}
    {own : Taken} (free : operation.kind ≠ .holding) (rest : ∀ reply, post reply own) :
    takenSpec.before operation post own := by
  cases operation with
  | mark event => exact rest ()
  | stop why => trivial
  | ifind | ilock | iunlock | idup | iunref => exact absurd rfl free
  | _ => exact rest

/-- The program takes and gives back as `post` says. -/
def Tallies (own : Taken) (prog : FsM H α) (post : α → Taken → Prop) : Prop :=
  wp takenSpec prog post own

namespace Tallies

variable {own : Taken} {refs locks : Multiset InodeId} {i : InodeId}

section

variable {post : α → Taken → Prop}

theorem pure {value : α} (holds : post value own) :
    Tallies own (Pure.pure value : FsM H α) post :=
  holds

theorem bind {post : β → Taken → Prop} {prog : FsM H α} {next : α → FsM H β}
    (first : Tallies own prog fun value own' => Tallies own' (next value) post) :
    Tallies own (prog >>= next) post :=
  (wp_bind prog next post).mpr first

theorem op {operation : FsOp H} {post : operation.Reply → Taken → Prop}
    (free : (operation.kind == .holding) = false) (rest : ∀ reply, post reply own) :
    Tallies own (.perform operation) post :=
  takenSpec_neutral (bne_iff_ne.mp (congrArg not free)) rest

theorem of_uses {kinds : List OpKind} {prog : FsM H α} (uses : Uses kinds prog)
    (free : kinds.contains .holding = false) (rest : ∀ value, post value own) :
    Tallies own prog post := by
  have ne : ∀ {operation : FsOp H}, operation.kind ∈ kinds → operation.kind ≠ .holding := by
    rintro operation isKind isHolding
    rw [isHolding, ← List.contains_iff_mem, free] at isKind
    cases isKind
  refine uses.wp (· = own) (fun isKind same kept => ?_) rfl fun value _ same => same ▸ rest value
  exact takenSpec_neutral (ne isKind) fun reply => kept reply _ same

theorem stop {why : Stop} : Tallies own (Fs.stop why : FsM H α) post := trivial

theorem mark {event : Event} {post : Unit → Taken → Prop} (rest : post () own) :
    Tallies own (Fs.mark event : FsM H Unit) post := rest

theorem when {condition : Prop} [Decidable condition] {prog : FsM H Unit}
    {post : Unit → Taken → Prop} (yes : Tallies own prog post) (no : post () own) :
    Tallies own (Prog.when condition prog) post := by
  unfold Prog.when
  split
  · exact yes
  · exact no

theorem getInode {i : InodeId} {post : Inode → Taken → Prop} (rest : ∀ node, post node own) :
    Tallies own (Fs.getInode i : FsM H Inode) post :=
  of_uses (show Uses [.data] _ from Uses.getInode rfl i) rfl rest

end

theorem ilock {post : Unit → Taken → Prop} (rest : post () ⟨refs, i ::ₘ locks⟩) :
    Tallies ⟨refs, locks⟩ (Fs.ilock i : FsM H Unit) post := rest

theorem iunlock {post : Unit → Taken → Prop} (rest : post () ⟨refs, locks⟩) :
    Tallies ⟨refs, i ::ₘ locks⟩ (Fs.iunlock i : FsM H Unit) post := by
  refine ⟨Multiset.mem_cons_self i locks, ?_⟩
  rwa [Multiset.erase_cons_head]

theorem idup {post : Unit → Taken → Prop} (rest : post () ⟨i ::ₘ refs, locks⟩) :
    Tallies ⟨refs, locks⟩ (Fs.idup i : FsM H Unit) post := rest

theorem iunref {post : Bool → Taken → Prop} (isTaken : i ∈ refs)
    (rest : ∀ last, post last ⟨refs.erase i, locks⟩) :
    Tallies ⟨refs, locks⟩ (Fs.iunref i : FsM H Bool) post :=
  ⟨isTaken, rest⟩

theorem ifind {dev : Dev} {inodeno : ℕ} {post : InodeId × Bool → Taken → Prop}
    (rest : ∀ i, post (i, true) ⟨i ::ₘ refs, locks⟩ ∧
      post (i, false) ⟨i ::ₘ refs, i ::ₘ locks⟩) :
    Tallies ⟨refs, locks⟩ (Fs.ifind dev inodeno : FsM H (InodeId × Bool)) post := rest

theorem wp_self {prog : FsM H α} {post : α → Taken → Prop} (tallies : Tallies own prog post) :
    wp takenSpec prog post own := tallies

-- From here on the rules above are all that is used; unfolding would run the programs.
attribute [irreducible] Tallies

/-! ## Inodes -/

theorem iget {dev : Dev} {inodeno : ℕ} {post : InodeId → Taken → Prop}
    (rest : ∀ i, post i ⟨i ::ₘ refs, locks⟩) :
    Tallies ⟨refs, locks⟩ (Fs.iget dev inodeno : FsM H InodeId) post := by
  refine bind (ifind fun i => ⟨?_, ?_⟩)
  · exact pure (rest i)
  · refine bind (op rfl fun core => ?_)
    refine bind (op rfl fun buf => ?_)
    refine bind (op rfl fun data => ?_)
    refine bind (op rfl fun _ => ?_)
    refine bind (op rfl fun _ => ?_)
    exact bind (iunlock (pure (rest i)))

theorem ireclaim {post : Unit → Taken → Prop} (rest : post () ⟨refs, locks⟩) :
    Tallies ⟨refs, locks⟩ (Fs.ireclaim i : FsM H Unit) post := by
  refine bind (mark ?_)
  refine bind (ilock ?_)
  refine bind (of_uses (Uses.itrunc i) rfl fun _ => ?_)
  refine bind (iunlock ?_)
  refine bind (getInode fun node => ?_)
  refine bind (of_uses (Uses.ifree _ _) rfl fun _ => ?_)
  refine bind (op rfl fun _ => ?_)
  refine bind (of_uses (Uses.iupdate i) rfl fun _ => ?_)
  exact mark rest

/-- `iput` gives back one reference, also if it was the last. -/
theorem iput {post : Unit → Taken → Prop} (rest : post () ⟨refs, locks⟩) :
    Tallies ⟨i ::ₘ refs, locks⟩ (Fs.iput i : FsM H Unit) post := by
  refine bind (iunref (Multiset.mem_cons_self i refs) fun last => ?_)
  rw [Multiset.erase_cons_head]
  refine bind (when ?_ (mark rest))
  refine bind (getInode fun node => ?_)
  refine bind (when (ireclaim ?_) ?_)
  · exact mark (mark rest)
  · exact mark (mark rest)

theorem iunlockput {post : Unit → Taken → Prop} (rest : post () ⟨refs, locks⟩) :
    Tallies ⟨i ::ₘ refs, i ::ₘ locks⟩ (Fs.iunlockput i : FsM H Unit) post :=
  bind (iunlock (iput rest))

/-! ## Reading -/

/-- `tty_read` gives up the lock of the device while it sleeps. -/
theorem ttyReadLoop {p : ProcId} {t : TtyId} {dev : Dev} {count : ℕ}
    {post : ℤ × List Byte → Taken → Prop} (rest : ∀ result, post result ⟨refs, i ::ₘ locks⟩)
    (rounds : ℕ) (dest : ℕ → Byte) (pos : ℕ) (char : Byte) :
    Tallies ⟨refs, i ::ₘ locks⟩
      (Fs.ttyReadLoop p i t dev count rounds dest pos char : FsM H (ℤ × List Byte)) post := by
  induction rounds generalizing dest pos char with
  | zero => exact stop
  | succ rounds ih =>
      unfold Fs.ttyReadLoop
      split
      · exact pure (rest _)
      refine bind (op rfl fun core => ?_)
      dsimp only
      split
      · split
        · exact pure (rest _)
        · refine bind (iunlock ?_)
          refine bind (op rfl fun _ => ?_)
          exact bind (ilock (ih _ _ _))
      · refine bind (op rfl fun _ => ?_)
        split
        · refine bind (of_uses (Uses.ttyChar t dev dest pos _) rfl fun line => ?_)
          cases line with
          | more dest pos => exact ih _ _ _
          | ends dest pos => exact pure (rest _)
          | empty => exact pure (rest _)
        · exact pure (rest _)

theorem cdevRead {p : ProcId} {dev : Dev} {count : ℕ} {post : ℤ × List Byte → Taken → Prop}
    (rest : ∀ result, post result ⟨refs, i ::ₘ locks⟩) :
    Tallies ⟨refs, i ::ₘ locks⟩ (Fs.cdevRead p i dev count : FsM H (ℤ × List Byte)) post := by
  unfold Fs.cdevRead
  split
  · exact pure (rest _)
  split
  · unfold Fs.ttyRead
    split
    · exact stop
    · refine bind (op rfl fun core => ?_)
      exact bind (op rfl fun _ => ttyReadLoop rest _ _ _ _)
  split
  · exact pure (rest _)
  · exact pure (rest _)

theorem readi {p : ProcId} {offset : ℤ} {nbytes : ℕ} {post : ℤ × List Byte → Taken → Prop}
    (rest : ∀ result, post result ⟨refs, i ::ₘ locks⟩) :
    Tallies ⟨refs, i ::ₘ locks⟩ (Fs.readi p i offset nbytes : FsM H (ℤ × List Byte)) post := by
  refine bind (getInode fun node => ?_)
  dsimp only
  split
  · exact stop
  split
  · exact cdevRead rest
  split
  · exact bind (of_uses (Uses.readiBlockDev _ _ _ _ _) rfl fun _ => pure (rest _))
  split
  · exact pure (rest _)
  · exact bind (of_uses (Uses.readiLoop i _ _ _ _) rfl fun _ => pure (rest _))

/-! ## Path names -/

theorem nextInode {ndirent : ℕ} {dir component : List Byte} {post : Option InodeId → Taken → Prop}
    (missing : post none ⟨refs, locks⟩) (rest : ∀ next, post (some next) ⟨next ::ₘ refs, locks⟩) :
    Tallies ⟨refs, locks⟩
      (Fs.nextInode i ndirent dir component : FsM H (Option InodeId)) post := by
  refine bind (op rfl fun core => ?_)
  split
  · exact pure missing
  · exact bind (iget fun next => pure (rest next))

/-- The reference to the next inode, if there is one. -/
theorem nextInode_elim {ndirent : ℕ} {dir component : List Byte} :
    Tallies ⟨refs, locks⟩ (Fs.nextInode i ndirent dir component : FsM H (Option InodeId))
      fun next own => own = ⟨next.elim refs (· ::ₘ refs), locks⟩ :=
  nextInode rfl fun _ => rfl

theorem readDir {p : ProcId} {post : ℤ × ℕ × List Byte → Taken → Prop}
    (rest : ∀ result, post result ⟨refs, i ::ₘ locks⟩) :
    Tallies ⟨refs, i ::ₘ locks⟩ (Fs.readDir p i : FsM H (ℤ × ℕ × List Byte)) post := by
  refine bind (mark ?_)
  refine bind (getInode fun node => ?_)
  refine bind (op rfl fun core => ?_)
  split
  · exact stop
  refine bind (readi fun result => ?_)
  dsimp only
  split
  · exact stop
  · exact pure (rest _)

theorem nameicoreStart {p : ProcId} {path : List Byte} {post : InodeId → Taken → Prop}
    (rest : ∀ i, post i ⟨i ::ₘ refs, locks⟩) :
    Tallies ⟨refs, locks⟩ (Fs.nameicoreStart p path : FsM H InodeId) post := by
  unfold Fs.nameicoreStart
  split
  · exact iget fun i => rest i
  · refine bind (of_uses (show Uses [.data] _ from Uses.getProc rfl p) rfl fun proc => ?_)
    split
    · exact stop
    · exact bind (idup (pure (rest _)))

end Tallies

/-! ## What has been taken, in the inode cache -/

/-- The cache since `before`: each slot has the references and locks taken since then. -/
structure Tallied (before core : Core) (own : Taken) : Prop where
  references : ∀ j, (core.inodes j).refcount = (before.inodes j).refcount + own.refs.count j
  same : ∀ j, (before.inodes j).refcount ≠ 0 →
    (core.inodes j).dev = (before.inodes j).dev ∧
      (core.inodes j).inodeno = (before.inodes j).inodeno
  locks : ∀ j, (core.inodes j).lock = true → (before.inodes j).lock = true ∨ j ∈ own.locks

/-- What users of a slot care about. -/
def Inode.held (node : Inode) : Dev × ℕ × ℕ × Bool :=
  (node.dev, node.inodeno, node.refcount, node.lock)

theorem Core.held_setInode {core : Core} {i : InodeId} {change : Inode → Inode}
    (same : (change (core.inodes i)).held = (core.inodes i).held) (j : InodeId) :
    ((core.setInode i change).inodes j).held = (core.inodes j).held := by
  rcases eq_or_ne j i with rfl | different
  · simpa [Core.setInode] using same
  · simp [Core.setInode, different]

namespace Tallied

variable {before core core' : Core} {own : Taken} {refs locks : Multiset InodeId} {i : InodeId}

theorem refl (core : Core) : Tallied core core ⟨0, 0⟩ where
  references _ := rfl
  same _ _ := ⟨rfl, rfl⟩
  locks _ := Or.inl

theorem congr (tallied : Tallied before core own)
    (same : ∀ j, (core'.inodes j).held = (core.inodes j).held) : Tallied before core' own := by
  have parts : ∀ j, (core'.inodes j).dev = (core.inodes j).dev ∧
      (core'.inodes j).inodeno = (core.inodes j).inodeno ∧
      (core'.inodes j).refcount = (core.inodes j).refcount ∧
      (core'.inodes j).lock = (core.inodes j).lock := by
    intro j
    simpa [Inode.held] using same j
  refine ⟨fun j => ?_, fun j used => ?_, fun j locked => ?_⟩
  · rw [(parts j).2.2.1]
    exact tallied.references j
  · rw [(parts j).1, (parts j).2.1]
    exact tallied.same j used
  · rw [(parts j).2.2.2] at locked
    exact tallied.locks j locked

/-- One slot changes, and with it what has been taken of it. -/
theorem setInode {change : Inode → Inode} {refs' locks' : Multiset InodeId}
    (tallied : Tallied before core ⟨refs, locks⟩)
    (references : (change (core.inodes i)).refcount = (before.inodes i).refcount + refs'.count i)
    (otherRefs : ∀ j ≠ i, refs'.count j = refs.count j)
    (same : (before.inodes i).refcount ≠ 0 →
      (change (core.inodes i)).dev = (core.inodes i).dev ∧
        (change (core.inodes i)).inodeno = (core.inodes i).inodeno)
    (locked : (change (core.inodes i)).lock = true → (before.inodes i).lock = true ∨ i ∈ locks')
    (otherLocks : ∀ j ≠ i, j ∈ locks → j ∈ locks') :
    Tallied before (core.setInode i change) ⟨refs', locks'⟩ := by
  have isSlot : (core.setInode i change).inodes i = change (core.inodes i) := by
    simp [Core.setInode]
  have isOther : ∀ j ≠ i, (core.setInode i change).inodes j = core.inodes j := by
    intro j different
    simp [Core.setInode, different]
  refine ⟨fun j => ?_, fun j used => ?_, fun j isLocked => ?_⟩
  · rcases eq_or_ne j i with rfl | different
    · rw [isSlot]
      exact references
    · rw [isOther j different]
      exact (tallied.references j).trans (by rw [otherRefs j different])
  · rcases eq_or_ne j i with rfl | different
    · rw [isSlot, (same used).1, (same used).2]
      exact tallied.same j used
    · rw [isOther j different]
      exact tallied.same j used
  · rcases eq_or_ne j i with rfl | different
    · rw [isSlot] at isLocked
      exact locked isLocked
    · rw [isOther j different] at isLocked
      exact (tallied.locks j isLocked).imp_right (otherLocks j different)

theorem addRef (tallied : Tallied before core ⟨refs, locks⟩) (i : InodeId)
    {change : Inode → Inode} (refcount : ∀ old, (change old).refcount = old.refcount + 1)
    (same : ∀ old, (change old).dev = old.dev ∧ (change old).inodeno = old.inodeno ∧
      (change old).lock = old.lock) :
    Tallied before (core.setInode i change) ⟨i ::ₘ refs, locks⟩ := by
  refine tallied.setInode ?_ (fun j different => ?_) (fun _ => ?_) (fun locked => ?_)
    fun _ _ => id
  · rw [refcount, Multiset.count_cons_self, tallied.references, Nat.add_assoc]
  · exact Multiset.count_cons_of_ne different refs
  · exact ⟨(same _).1, (same _).2.1⟩
  · rw [(same _).2.2] at locked
    exact tallied.locks i locked

/-- A slot without references is taken for another inode. -/
theorem take (tallied : Tallied before core ⟨refs, locks⟩)
    (isFree : (core.inodes i).refcount = 0) (dev : Dev) (inodeno : ℕ) :
    Tallied before (core.setInode i fun old => old.taken dev inodeno)
      ⟨i ::ₘ refs, i ::ₘ locks⟩ := by
  have none := tallied.references i
  rw [isFree] at none
  refine tallied.setInode ?_ (fun j different => ?_) (fun used => ?_) (fun _ => ?_)
    fun _ _ isIn => Multiset.mem_cons_of_mem isIn
  · rw [Multiset.count_cons_self, ← Nat.add_assoc, ← none]
    rfl
  · exact Multiset.count_cons_of_ne different refs
  · exact absurd (Nat.eq_zero_of_add_eq_zero_right none.symm) used
  · exact Or.inr (Multiset.mem_cons_self i locks)

theorem lock (tallied : Tallied before core ⟨refs, locks⟩) (i : InodeId) :
    Tallied before (core.setInode i fun old => { old with lock := true }) ⟨refs, i ::ₘ locks⟩ :=
  tallied.setInode (tallied.references i) (fun _ _ => rfl) (fun _ => ⟨rfl, rfl⟩)
    (fun _ => Or.inr (Multiset.mem_cons_self i locks)) fun _ _ => Multiset.mem_cons_of_mem

theorem unlock (tallied : Tallied before core ⟨refs, locks⟩) (i : InodeId) :
    Tallied before
      (core.setInode i fun old => { old with lock := false, wanted := false })
      ⟨refs, locks.erase i⟩ := by
  refine tallied.setInode (tallied.references i) (fun _ _ => rfl) (fun _ => ⟨rfl, rfl⟩)
    (fun locked => ?_) fun j different => (Multiset.mem_erase_of_ne different).mpr
  cases locked

theorem unref (tallied : Tallied before core ⟨refs, locks⟩) (isTaken : i ∈ refs) :
    Tallied before (core.setInode i fun old => { old with refcount := old.refcount - 1 })
      ⟨refs.erase i, locks⟩ := by
  have positive := Multiset.one_le_count_iff_mem.mpr isTaken
  refine tallied.setInode ?_ (fun j different => ?_) (fun _ => ⟨rfl, rfl⟩)
    (tallied.locks i) fun _ _ => id
  · have isCount := tallied.references i
    rw [Multiset.count_erase_self]
    dsimp only at isCount ⊢
    omega
  · exact Multiset.count_erase_of_ne different refs

end Tallied

namespace Flat

/-- The machine on which a sleeping process wakes up: `arrives` is what happens meanwhile. -/
def waking (arrives : Chan → Flat → Flat) : Handler (FsOp FlatBuf) FsOp.Reply Flat Stop
  | .sleep chan, flat => .done () (arrives chan flat)
  | operation, flat => handler operation flat

/-- Whatever arrives leaves the inode cache alone, and `*inodep`. -/
structure Quiet (inodep : Inodep) (arrives : Chan → Flat → Flat) : Prop where
  inodes : ∀ chan flat, (arrives chan flat).core.inodes = flat.core.inodes
  pointer : ∀ chan flat f, inodep = .file f →
    ((arrives chan flat).core.files f).inode = (flat.core.files f).inode

variable {inodep : Inodep} {arrives : Chan → Flat → Flat}

/-- What the rules say about an operation is what it does to the inode cache. -/
theorem waking_tallied (quiet : Quiet inodep arrives) {before : Core} {operation : FsOp FlatBuf}
    {post : operation.Reply → Taken → Prop} {flat : Flat} {own : Taken}
    (tallied : Tallied before flat.core own) (judged : takenSpec.before operation post own)
    {reply : operation.Reply} {flat' : Flat}
    (happened : waking arrives operation flat = .done reply flat') :
    ∃ own', Tallied before flat'.core own' ∧ post reply own' := by
  rcases own with ⟨refs, locks⟩
  cases operation with
  | ifind dev inodeno =>
      simp only [waking, handler, Core.perform] at happened
      rcases flat.core.ifind_cases dev inodeno with ⟨i, -, -, isFind⟩ | ⟨i, -, -, isFind⟩ |
        ⟨i, -, free, isFind⟩ | ⟨-, -, isFind⟩ <;> rw [isFind] at happened <;> cases happened
      · refine ⟨⟨i ::ₘ refs, locks⟩, ?_, (judged i).1⟩
        dsimp only
        exact tallied.addRef i (fun _ => rfl) fun _ => ⟨rfl, rfl, rfl⟩
      · have isFree := List.find?_some free
        simp only [decide_eq_true_eq] at isFree
        exact ⟨_, tallied.take isFree.1 dev inodeno, (judged i).2⟩
  | ilock i =>
      simp only [waking, handler, Core.perform] at happened
      split at happened <;> cases happened
      exact ⟨_, tallied.lock i, judged⟩
  | iunlock i =>
      simp only [waking, handler, Core.perform] at happened
      split at happened <;> cases happened
      exact ⟨_, tallied.unlock i, judged.2⟩
  | idup i =>
      cases happened
      refine ⟨⟨i ::ₘ refs, locks⟩, ?_, judged⟩
      dsimp only
      exact tallied.addRef i (fun _ => rfl) fun _ => ⟨rfl, rfl, rfl⟩
  | iunref i =>
      simp only [waking, handler, Core.perform] at happened
      split at happened <;> cases happened
      exact ⟨_, tallied.unref judged.1, judged.2 _⟩
  | mark event =>
      cases happened
      exact ⟨_, tallied, judged⟩
  | stop why => cases happened
  | setData i change =>
      cases happened
      refine ⟨_, tallied.congr fun j => ?_, judged ()⟩
      dsimp only
      exact Core.held_setInode rfl j
  | setDirty i dirty =>
      cases happened
      refine ⟨_, tallied.congr fun j => ?_, judged ()⟩
      dsimp only
      exact Core.held_setInode rfl j
  | sleep chan =>
      cases happened
      refine ⟨_, tallied.congr fun j => ?_, judged ()⟩
      rw [quiet.inodes chan flat]
  | putchar dev char =>
      cases happened
      refine ⟨_, tallied.congr fun j => ?_, judged _⟩
      unfold Core.putchar
      split <;> rfl
  | _ =>
      cases happened
      exact ⟨_, tallied.congr fun j => rfl, judged _⟩

theorem waking_pointer (quiet : Quiet inodep arrives) {operation : FsOp FlatBuf} {f : FileId}
    (isFile : inodep = .file f)
    (isBelow : operation.kind ∈ [.data, .buffer, .holding, .sleep, .stack]) {flat flat' : Flat}
    {reply : operation.Reply} (happened : waking arrives operation flat = .done reply flat') :
    (flat'.core.files f).inode = (flat.core.files f).inode := by
  have same : handler operation flat = .done reply flat' →
      (flat'.core.files f).inode = (flat.core.files f).inode := by
    intro happened
    rw [(handler_sameTables ?_ ?_ (by rw [happened]; rfl)).files]
    · intro isFiles
      simp [isFiles] at isBelow
    · intro isPipes
      simp [isPipes] at isBelow
  cases operation with
  | sleep chan =>
      cases happened
      exact quiet.pointer chan flat f isFile
  | _ => exact same happened

/-- The references to an inode: those of the slots that hold it. -/
def references (flat : Flat) (dev : Dev) (inodeno : ℕ) : ℕ :=
  ∑ j, if (flat.core.inodes j).dev = dev ∧ (flat.core.inodes j).inodeno = inodeno then
    (flat.core.inodes j).refcount else 0

end Flat

/-- A lookup adds the reference to the inode it has found, and nothing else. -/
structure LookedUp (before after : Flat) (found : Found) : Prop where
  references : ∀ dev inodeno, after.references dev inodeno = before.references dev inodeno +
    if found.error = 0 ∧ (after.core.inodes found.inode).dev = dev ∧
      (after.core.inodes found.inode).inodeno = inodeno then 1 else 0
  slots : ∀ j, (after.core.inodes j).refcount = (before.core.inodes j).refcount +
    if found.error = 0 ∧ j = found.inode then 1 else 0
  same : ∀ j, (before.core.inodes j).refcount ≠ 0 →
    (after.core.inodes j).dev = (before.core.inodes j).dev ∧
      (after.core.inodes j).inodeno = (before.core.inodes j).inodeno
  unlocked : ∀ j, (after.core.inodes j).lock = true → (before.core.inodes j).lock = true

section

variable {flat flat' : Flat}

/-- The references to inodes follow from those to slots, as used slots keep their inode. -/
theorem references_of_slots {refs : Multiset InodeId}
    (slots : ∀ j, (flat'.core.inodes j).refcount = (flat.core.inodes j).refcount + refs.count j)
    (same : ∀ j, (flat.core.inodes j).refcount ≠ 0 →
      (flat'.core.inodes j).dev = (flat.core.inodes j).dev ∧
        (flat'.core.inodes j).inodeno = (flat.core.inodes j).inodeno) (dev : Dev) (inodeno : ℕ) :
    flat'.references dev inodeno = flat.references dev inodeno +
      ∑ j, if (flat'.core.inodes j).dev = dev ∧ (flat'.core.inodes j).inodeno = inodeno then
        refs.count j else 0 := by
  unfold Flat.references
  rw [← Finset.sum_add_distrib]
  refine Finset.sum_congr rfl fun j _ => ?_
  rw [slots j]
  by_cases used : (flat.core.inodes j).refcount = 0
  · simp [used]
  · rw [(same j used).1, (same j used).2]
    split <;> rfl

theorem sum_single_if {Index : Type} [Fintype Index] [DecidableEq Index] (single : Index)
    (condition : Prop) [Decidable condition] (chosen : Index → Prop) [DecidablePred chosen] :
    (∑ j, if chosen j then (if condition ∧ j = single then 1 else 0) else 0) =
      if condition ∧ chosen single then 1 else 0 := by
  rw [Finset.sum_eq_single single]
  · by_cases isChosen : chosen single <;> simp [isChosen]
  · intro j _ different
    simp [different]
  · exact fun missing => absurd (Finset.mem_univ single) missing

theorem Tallied.lookedUp {found : Found} {own : Taken} (tallied : Tallied flat.core flat'.core own)
    (isTaken : own = if found.error = 0 then ⟨{found.inode}, 0⟩ else ⟨0, 0⟩) :
    LookedUp flat flat' found := by
  have noLocks : own.locks = 0 := by
    rw [isTaken]
    split <;> rfl
  have counts : ∀ j, own.refs.count j = if found.error = 0 ∧ j = found.inode then 1 else 0 := by
    intro j
    rw [isTaken]
    by_cases isError : found.error = 0
    · simp [isError, Multiset.count_singleton]
    · simp [isError]
  refine ⟨fun dev inodeno => ?_, fun j => ?_, tallied.same, fun j locked => ?_⟩
  · rw [references_of_slots tallied.references tallied.same]
    simp only [counts]
    rw [sum_single_if]
  · rw [tallied.references, counts]
  · refine (tallied.locks j locked).resolve_right ?_
    rw [noLocks]
    exact Multiset.notMem_zero j

end

/-! ## Looking up a path -/

/-- Where a lookup stands that has come to `i`: what it has taken, and `*inodep`. -/
structure Reached (before : Core) (own : Taken) (inodep : Inodep) (i : InodeId) (flat : Flat) :
    Prop where
  tallied : Tallied before flat.core own
  pointer : ∀ f, inodep = .file f → (flat.core.files f).inode = some i

namespace Reached

variable {before : Core} {own own' : Taken} {refs locks : Multiset InodeId} {inodep : Inodep}
  {i : InodeId} {arrives : Chan → Flat → Flat} {flat flat' : Flat} {p : ProcId}
  {named parent : Bool} {found : Found}

/-- What the rules say of a part of the lookup holds where it returns. -/
theorem step {prog : FsM FlatBuf α} {post : α → Taken → Prop} {value : α}
    (reached : Reached before own inodep i flat) (quiet : Flat.Quiet inodep arrives)
    (below : BelowTables prog) (tallies : Tallies own prog post)
    (returned : exec (Flat.waking arrives) prog flat = .returned value flat') :
    ∃ own', Reached before own' inodep i flat' ∧ post value own' := by
  rcases returned_of_related (fun state own => Tallied before state.core own)
    (Flat.waking_tallied quiet) tallies.wp_self reached.tallied returned with ⟨own', tallied, holds⟩
  refine ⟨own', ⟨tallied, fun f isFile => ?_⟩, holds⟩
  refine below.returned (fun state => (state.core.files f).inode = some i) ?_
    (reached.pointer f isFile) returned
  intro operation reply flat₁ flat₂ isBelow same happened
  exact (Flat.waking_pointer quiet isFile isBelow happened).trans same

/-- A part that takes and gives back the same whatever it returns. -/
theorem takes {prog : FsM FlatBuf α} {value : α} (reached : Reached before own inodep i flat)
    (quiet : Flat.Quiet inodep arrives) (below : BelowTables prog)
    (tallies : Tallies own prog fun _ result => result = own')
    (returned : exec (Flat.waking arrives) prog flat = .returned value flat') :
    Reached before own' inodep i flat' := by
  rcases reached.step quiet below tallies returned with ⟨_, reached', rfl⟩
  exact reached'

/-- The pointer that is read again is the inode that the lookup has come to. -/
theorem inodepAgain (reached : Reached before own inodep i flat) :
    exec (Flat.waking arrives) (Fs.inodepAgain inodep i) flat = .returned (some i) flat := by
  cases inodep with
  | own => rfl
  | file f =>
      rw [← reached.pointer f rfl]
      rfl

theorem setInodep (tallied : Tallied before flat.core own) :
    ∃ flat', exec (Flat.waking arrives) (Fs.setInodep inodep i) flat = .returned () flat' ∧
      Reached before own inodep i flat' := by
  cases inodep with
  | own => exact ⟨flat, rfl, tallied, fun f => nofun⟩
  | file f =>
      refine ⟨_, rfl, tallied.congr fun _ => rfl, ?_⟩
      rintro _ ⟨⟩
      change (Function.update flat.core.files f _ f).inode = some i
      rw [Function.update_self]

/--
The induction is on the rounds; each begins with one reference, to the directory, and without
a lock of its own.
-/
theorem nameicoreLoop (quiet : Flat.Quiet inodep arrives) (rounds : ℕ) (path name : List Byte)
    (reached : Reached before ⟨i ::ₘ refs, locks⟩ inodep i flat)
    (returned : exec (Flat.waking arrives)
      (Fs.nameicoreLoop p named parent inodep rounds path i name) flat = .returned found flat') :
    Reached before (if found.error = 0 then ⟨found.inode ::ₘ refs, locks⟩ else ⟨refs, locks⟩)
      inodep found.inode flat' := by
  induction rounds generalizing path i name flat with
  | zero =>
      cases returned
      exact reached
  | succ rounds ih =>
      unfold Fs.nameicoreLoop at returned
      split at returned
      · cases returned
        exact reached
      rcases exec_bind_returned.mp returned with ⟨_, flat₁, happened, returned⟩
      have locked : Reached before ⟨i ::ₘ refs, i ::ₘ locks⟩ inodep i flat₁ :=
        reached.takes quiet (show BelowTables (Fs.ilock i) from Uses.op rfl) (.ilock rfl) happened
      rcases exec_bind_returned.mp returned with ⟨denied, _, happened, returned⟩
      cases happened
      have put : BelowTables (H := FlatBuf) (Fs.iunlockput i) := (Uses.iunlockput i).below
      split at returned
      · rcases exec_bind_returned.mp returned with ⟨_, flat₂, happened, returned⟩
        cases returned
        exact locked.takes quiet put (.iunlockput rfl) happened
      rcases exec_bind_returned.mp returned with ⟨⟨ret, ndirent, dir⟩, flat₂, happened, returned⟩
      have read : Reached before ⟨i ::ₘ refs, i ::ₘ locks⟩ inodep i flat₂ :=
        locked.takes quiet (Uses.readDir p i) (.readDir fun _ => rfl) happened
      rw [exec_bind_of_returned read.inodepAgain] at returned
      dsimp only at returned
      rcases exec_bind_returned.mp returned with ⟨node, _, happened, returned⟩
      cases happened
      split at returned
      · rcases exec_bind_returned.mp returned with ⟨_, flat₃, happened, returned⟩
        cases returned
        exact read.takes quiet put (.iunlockput rfl) happened
      rcases exec_bind_returned.mp returned with ⟨_, flat₃, happened, returned⟩
      have unlocked : Reached before ⟨i ::ₘ refs, locks⟩ inodep i flat₃ :=
        read.takes quiet (show BelowTables (Fs.iunlock i) from Uses.op rfl) (.iunlock rfl) happened
      rcases exec_bind_returned.mp returned with ⟨next, flat₄, happened, returned⟩
      rcases unlocked.step quiet (Uses.nextInode i ndirent dir _).below .nextInode_elim happened
        with ⟨_, stepped, rfl⟩
      rcases exec_bind_returned.mp returned with ⟨name, flat₅, happened, returned⟩
      have stored := stepped.takes quiet ((Uses.storeName named _ _).more (by simp))
        (.of_uses (Uses.storeName named _ _) rfl fun _ => rfl) happened
      split at returned
      · rcases exec_bind_returned.mp returned with ⟨_, flat₆, happened, returned⟩
        cases returned
        cases next with
        | none =>
            cases happened
            exact stored
        | some next => exact stored.takes quiet (Uses.iput next).below (.iput rfl) happened
      rw [exec_bind_of_returned stored.inodepAgain] at returned
      rcases exec_bind_returned.mp returned with ⟨_, flat₆, puts, returned⟩
      cases next with
      | none =>
          cases returned
          exact stored.takes quiet (Uses.iput i).below (.iput rfl) puts
      | some next =>
          have swapped : Reached before ⟨i ::ₘ next ::ₘ refs, locks⟩ inodep i flat₅ := by
            rw [Multiset.cons_swap]
            exact stored
          have left := swapped.takes quiet (Uses.iput i).below (.iput rfl) puts
          rcases setInodep left.tallied with ⟨flat₇, happened, atNext⟩
          rw [exec_bind_of_returned happened] at returned
          exact ih _ _ atNext returned

theorem nameicore (quiet : Flat.Quiet inodep arrives) {path : List Byte}
    (tallied : Tallied before flat.core ⟨refs, locks⟩)
    (returned : exec (Flat.waking arrives) (Fs.nameicore p path named parent inodep) flat =
      .returned found flat') :
    Reached before (if found.error = 0 then ⟨found.inode ::ₘ refs, locks⟩ else ⟨refs, locks⟩)
      inodep found.inode flat' := by
  rcases exec_bind_returned.mp returned with ⟨start, flat₁, happened, returned⟩
  have tallies : Tallies ⟨refs, locks⟩ (Fs.nameicoreStart p path : FsM FlatBuf InodeId)
      fun i own => own = ⟨i ::ₘ refs, locks⟩ := .nameicoreStart fun _ => rfl
  rcases returned_of_related (fun state own => Tallied before state.core own)
    (Flat.waking_tallied quiet) tallies.wp_self tallied happened with ⟨_, started, rfl⟩
  rcases setInodep started with ⟨flat₂, happened, atStart⟩
  rw [exec_bind_of_returned happened] at returned
  rcases exec_bind_returned.mp returned with ⟨core, _, happened, returned⟩
  cases happened
  exact atStart.nameicoreLoop quiet _ _ _ returned

end Reached

/-! ## Runs that return -/

section

variable {flat flat' : Flat}

/-- A run that returns does not sleep, so it does not matter what would wake it. -/
theorem exec_waking_of_returned {arrives : Chan → Flat → Flat} {prog : FsM FlatBuf α} {value : α}
    (returned : exec Flat.handler prog flat = .returned value flat') :
    exec (Flat.waking arrives) prog flat = .returned value flat' := by
  induction prog generalizing flat with
  | pure result => exact returned
  | op operation next ih =>
      unfold exec at returned ⊢
      cases happened : Flat.handler operation flat with
      | done reply middle =>
          rw [happened] at returned
          have same : Flat.waking arrives operation flat = .done reply middle := by
            cases operation with
            | sleep chan => cases happened
            | _ => exact happened
          rw [same]
          exact ih reply returned
      | wait middle =>
          rw [happened] at returned
          cases returned
      | stop why =>
          rw [happened] at returned
          cases returned

/-- Nothing arrives. -/
theorem Flat.quiet_id (inodep : Inodep) : Flat.Quiet inodep fun _ flat => flat :=
  ⟨fun _ _ => rfl, fun _ _ _ _ => rfl⟩

/-- What the rules of references say of a program holds of its run. -/
theorem tallied_of_returned {before : Core} {own : Taken} {prog : FsM FlatBuf α}
    {post : α → Taken → Prop} {value : α} (tallies : Tallies own prog post)
    (tallied : Tallied before flat.core own)
    (returned : exec Flat.handler prog flat = .returned value flat') :
    ∃ own', Tallied before flat'.core own' ∧ post value own' :=
  returned_of_related (fun state own => Tallied before state.core own)
    (Flat.waking_tallied (Flat.quiet_id .own)) tallies.wp_self tallied
    (exec_waking_of_returned returned)

/-- `nameicore` without an error leaves one reference, with an error none, and stores `*inodep`. -/
theorem reached_nameicore {before : Core} {own : Taken} {p : ProcId} {path : List Byte}
    {named parent : Bool} {inodep : Inodep} {found : Found} (tallied : Tallied before flat.core own)
    (returned : exec Flat.handler (nameicore p path named parent inodep) flat =
      .returned found flat') :
    Reached before (if found.error = 0 then ⟨found.inode ::ₘ own.refs, own.locks⟩ else own)
      inodep found.inode flat' :=
  Reached.nameicore (Flat.quiet_id inodep) tallied (exec_waking_of_returned returned)

end

/-! ## The arrays of `nameicore` -/

namespace Flat

/--
The arrays of `nameicore` have room for what is put there: `dir` for the whole entries of a
directory, behind which `readi` stores nothing, and `name` for a component.
-/
def Roomy (arrives : Chan → Flat → Flat) (p : ProcId) (event : Event) (flat : Flat) : Prop :=
  match event with
  | .searches i =>
      let size := toUint (flat.core.inodes i).size
      let whole := size / direntSize * direntSize
      whole ≤ flat.core.room ∧ ∀ ret dir flat',
        exec (waking arrives) (readi p i 0 (min size (whole + 1))) flat =
          .returned (ret, dir) flat' → dir.length ≤ whole
  | .names length => length < pathMax
  | _ => True

variable {arrives : Chan → Flat → Flat} {p : ProcId}

theorem roomy_of_kind {operation : FsOp FlatBuf} {flat : Flat} (free : operation.kind ≠ .stack) :
    atMark (Roomy arrives p) operation flat := by
  rintro event rfl
  cases event with
  | searches i => exact absurd rfl free
  | names length => exact absurd rfl free
  | _ => trivial

theorem waking_overrun {operation : FsOp FlatBuf} {flat : Flat} (free : operation.kind ≠ .stack) :
    waking arrives operation flat ≠ .stop .overrun := by
  intro happened
  cases operation with
  | stop why =>
      cases happened
      exact free rfl
  | ifind dev inodeno =>
      simp only [waking, handler, Core.perform] at happened
      split at happened <;> cases happened
  | ilock i | iunlock i | iunref i =>
      simp only [waking, handler, Core.perform] at happened
      split at happened <;> cases happened
  | _ => cases happened

/-- The run stops for an array exactly if one has no room. -/
abbrev Fits (arrives : Chan → Flat → Flat) (p : ProcId) (prog : FsM FlatBuf α) : Prop :=
  StopsUnless (waking arrives) (atMark (Roomy arrives p)) .overrun prog

namespace Fits

theorem avoids {kinds : List OpKind} {prog : FsM FlatBuf α} (uses : Uses kinds prog)
    (free : kinds.contains .stack = false) (flat : Flat) :
    (∀ flat', exec (waking arrives) prog flat ≠ .stopped .overrun flat') ∧
      Along (waking arrives) (atMark (Roomy arrives p)) prog flat := by
  have ne : ∀ operation : FsOp FlatBuf, operation.kind ∈ kinds → operation.kind ≠ .stack := by
    rintro operation isKind isStack
    rw [isStack, ← List.contains_iff_mem, free] at isKind
    cases isKind
  exact Only.avoids uses (fun operation _ isKind => roomy_of_kind (ne operation isKind))
    (fun operation _ isKind => waking_overrun (ne operation isKind)) flat

theorem of_uses {kinds : List OpKind} {prog : FsM FlatBuf α} (uses : Uses kinds prog)
    (free : kinds.contains .stack = false) : Fits arrives p prog :=
  fun flat =>
    have both := avoids uses free flat
    iff_of_true both.1 both.2

theorem readDir (i : InodeId) : Fits arrives p (Fs.readDir p i) := by
  intro flat
  generalize isSize : toUint (flat.core.inodes i).size = size
  generalize isCount : min size (size / direntSize * direntSize + 1) = count
  generalize isTail : (if flat.core.room < size / direntSize * direntSize then
      stop .overrun
    else do
      let read ← readi p i 0 count
      if size / direntSize * direntSize < read.2.length then
        stop .overrun
      else
        return (read.1, size / direntSize, read.2) : FsM FlatBuf (ℤ × ℕ × List Byte)) = tail
  have isExec : exec (waking arrives) (Fs.readDir p i) flat = exec (waking arrives) tail flat := by
    rw [← isTail, ← isCount, ← isSize]
    rfl
  have isAlong : Along (waking arrives) (atMark (Roomy arrives p)) (Fs.readDir p i) flat ↔
      Roomy arrives p (.searches i) flat ∧
        Along (waking arrives) (atMark (Roomy arrives p)) tail flat := by
    have marked : atMark (Roomy arrives p) (.mark (.searches i)) flat ↔
        Roomy arrives p (.searches i) flat := atMark_mark
    have unmarked : atMark (Roomy arrives p) .core flat := roomy_of_kind (by decide)
    rw [← isTail, ← isCount, ← isSize, ← marked]
    exact and_congr_right fun _ => (and_iff_right unmarked).trans (and_iff_right unmarked)
  rw [isExec, isAlong, ← isTail]
  unfold Roomy
  dsimp only
  rw [isSize, isCount]
  split
  · rename_i small
    refine iff_of_false (fun fits => fits flat rfl) ?_
    rintro ⟨⟨room, -⟩, -⟩
    omega
  rename_i hasRoom
  have reads : (∀ flat', exec (waking arrives) (readi p i 0 count) flat ≠
      .stopped .overrun flat') ∧
        Along (waking arrives) (atMark (Roomy arrives p)) (readi p i 0 count) flat :=
    avoids (Uses.readi p i 0 count) rfl flat
  rw [along_bind, exec_bind, and_iff_right (not_lt.mp hasRoom)]
  cases isRead : exec (waking arrives) (readi p i 0 count) flat with
  | returned result flat' =>
      rcases result with ⟨ret, dir⟩
      dsimp only
      split
      · rename_i tooLong
        refine iff_of_false (fun fits => fits flat' rfl) ?_
        rintro ⟨short, -⟩
        exact absurd tooLong (not_lt.mpr (short ret dir flat' rfl))
      · rename_i short
        refine iff_of_true (fun _ stopped => by cases stopped) ⟨?_, reads.2, ?_⟩
        · rintro _ _ _ ⟨⟩
          exact not_lt.mp short
        · rintro _ _ ⟨⟩
          rw [if_neg short]
          trivial
  | asleep flat' =>
      refine iff_of_true (fun _ stopped => by cases stopped) ⟨?_, reads.2, ?_⟩
      · rintro _ _ _ ⟨⟩
      · rintro _ _ ⟨⟩
  | stopped why flat' =>
      refine iff_of_true ?_ ⟨?_, reads.2, ?_⟩
      · rintro _ ⟨⟩
        exact reads.1 flat' isRead
      · rintro _ _ _ ⟨⟩
      · rintro _ _ ⟨⟩

theorem storeName (named : Bool) (component name : List Byte) :
    Fits arrives p (Fs.storeName named component name) := by
  intro flat
  unfold Fs.storeName
  split
  · have marked : atMark (Roomy arrives p) (.mark (.names component.length)) flat ↔
        component.length < pathMax := atMark_mark
    by_cases long : pathMax ≤ component.length
    · simp only [if_pos long]
      refine iff_of_false (fun fits => fits flat rfl) ?_
      rintro ⟨short, -⟩
      exact absurd (marked.mp short) (not_lt.mpr long)
    · simp only [if_neg long]
      exact iff_of_true (fun _ => nofun) ⟨marked.mpr (not_le.mp long), trivial⟩
  · exact StopsUnless.pure name flat

theorem nameicoreLoop (named parent : Bool) (inodep : Inodep) (rounds : ℕ) (path : List Byte)
    (i : InodeId) (name : List Byte) :
    Fits arrives p (Fs.nameicoreLoop p named parent inodep rounds path i name) := by
  induction rounds generalizing path i name with
  | zero => exact StopsUnless.pure _
  | succ rounds ih =>
      have onInodes : ∀ {β : Type} {prog : FsM FlatBuf β}, OnInodes prog → Fits arrives p prog :=
        fun uses => of_uses uses rfl
      have again : ∀ i, Fits arrives p (Fs.inodepAgain inodep i) :=
        fun i => of_uses (Uses.inodepAgain inodep i) rfl
      unfold Fs.nameicoreLoop
      split
      · exact StopsUnless.pure _
      refine StopsUnless.bind (onInodes (Uses.op rfl)) fun _ => ?_
      refine StopsUnless.bind (onInodes (Uses.denies rfl p i iexec)) fun denied => ?_
      split
      · exact StopsUnless.bind (onInodes (Uses.iunlockput i)) fun _ => StopsUnless.pure _
      refine StopsUnless.bind (readDir i) fun result => ?_
      rcases result with ⟨ret, ndirent, dir⟩
      refine StopsUnless.bind (again i) fun found => ?_
      split
      · exact onInodes (Uses.stop rfl)
      rename_i j
      refine StopsUnless.bind (onInodes (Uses.getInode rfl j)) fun node => ?_
      split
      · exact StopsUnless.bind (onInodes (Uses.iunlockput j)) fun _ => StopsUnless.pure _
      refine StopsUnless.bind (onInodes (Uses.op rfl)) fun _ => ?_
      refine StopsUnless.bind (onInodes (Uses.nextInode j _ dir _)) fun next => ?_
      refine StopsUnless.bind (storeName named _ name) fun name => ?_
      split
      · exact StopsUnless.bind (onInodes (Uses.whenSome Uses.iput)) fun _ => StopsUnless.pure _
      refine StopsUnless.bind (again j) fun found => ?_
      refine StopsUnless.bind (onInodes (Uses.iputPtr found)) fun _ => ?_
      split
      · exact StopsUnless.pure _
      · exact StopsUnless.bind (of_uses (Uses.setInodep inodep _) rfl) fun _ => ih _ _ _

theorem nameicore (path : List Byte) (named parent : Bool) (inodep : Inodep) :
    Fits arrives p (Fs.nameicore p path named parent inodep) := by
  refine StopsUnless.bind (of_uses (Uses.nameicoreStart p path) rfl) fun start => ?_
  refine StopsUnless.bind (of_uses (Uses.setInodep inodep start) rfl) fun _ => ?_
  have core : OnInodes (H := FlatBuf) Fs.getCore := Uses.op rfl
  refine StopsUnless.bind (of_uses core rfl) fun core => ?_
  exact nameicoreLoop named parent inodep _ _ start _

end Fits

end Flat

/-! ## How much `readi` stores -/

/-- Rules under which an operation may reply anything. -/
def anyReply : Spec (FsOp H) FsOp.Reply Unit where
  before _ post _ := ∀ reply, post reply ()
  mono weaker holds reply := weaker reply () (holds reply)

/-- The program only returns such values, whatever the operations reply. -/
def Gives (post : α → Prop) (prog : FsM H α) : Prop :=
  wp anyReply prog (fun value _ => post value) ()

namespace Gives

section

variable {post : α → Prop}

theorem pure {value : α} (holds : post value) : Gives post (Pure.pure value : FsM H α) := holds

theorem bind {post : β → Prop} {prog : FsM H α} {next : α → FsM H β}
    (first : Gives (fun value => Gives post (next value)) prog) : Gives post (prog >>= next) :=
  (wp_bind prog next _).mpr first

theorem all {prog : FsM H α} (holds : ∀ value, post value) : Gives post prog := by
  unfold Gives
  induction prog with
  | pure value => exact holds value
  | op operation next ih => exact fun reply => ih reply

theorem stop {why : Stop} : Gives post (Fs.stop why : FsM H α) := nofun

theorem mono {post' : α → Prop} {prog : FsM H α} (gives : Gives post prog)
    (weaker : ∀ value, post value → post' value) : Gives post' prog :=
  wp_mono (fun value _ => weaker value) gives

theorem of_returned {prog : FsM FlatBuf α} {post : α → Prop} (gives : Gives post prog)
    {handler : Handler (FsOp FlatBuf) FsOp.Reply Flat Stop} {flat flat' : Flat} {value : α}
    (returned : exec handler prog flat = .returned value flat') : post value := by
  have judged : wp anyReply prog (fun value _ => post value) () := gives
  have sound : ∀ {operation : FsOp FlatBuf} {post : operation.Reply → Unit → Prop} {flat : Flat}
      {own : Unit}, True → anyReply.before operation post own →
        ∀ {reply : operation.Reply} {flat' : Flat}, handler operation flat = .done reply flat' →
          ∃ own', True ∧ post reply own' := fun _ rule reply _ _ => ⟨(), trivial, rule reply⟩
  rcases returned_of_related (fun _ _ => True) sound judged trivial returned with ⟨_, -, holds⟩
  exact holds

end

-- From here on the rules above are all that is used; unfolding would run the programs.
attribute [irreducible] Gives

/-- A segment of a block and what is read behind it. -/
theorem segment {next : FsM H (List Byte)} {data : Block} {offset size nbytes : ℕ}
    (inside : size ≤ nbytes)
    (rest : Gives (fun bytes : List Byte => bytes.length ≤ nbytes - size) next) :
    Gives (fun bytes : List Byte => bytes.length ≤ nbytes)
      (do let rest ← next; return data.bytes offset size ++ rest) := by
  refine bind (rest.mono fun bytes short => pure ?_)
  rw [List.length_append, Block.bytes, List.length_map, List.length_range]
  omega

theorem readiBlockDev (dev : Dev) (rounds blockNo : ℕ) (offset : ℤ) (nbytes : ℕ) :
    Gives (fun bytes : List Byte => bytes.length ≤ nbytes)
      (Fs.readiBlockDev dev rounds blockNo offset nbytes : FsM H (List Byte)) := by
  induction rounds generalizing blockNo offset nbytes with
  | zero => exact pure (Nat.zero_le _)
  | succ rounds ih =>
      unfold Fs.readiBlockDev
      split
      · exact pure (Nat.zero_le _)
      refine bind (all fun buf => ?_)
      split
      · exact stop
      · refine bind (all fun data => bind (all fun _ => ?_))
        exact segment (Nat.min_le_right _ _) (ih _ _ _)

theorem readiLoop (i : InodeId) (rounds bindex : ℕ) (offset : ℤ) (remaining : ℕ) :
    Gives (fun bytes : List Byte => bytes.length ≤ remaining)
      (Fs.readiLoop i rounds bindex offset remaining : FsM H (List Byte)) := by
  induction rounds generalizing bindex offset remaining with
  | zero => exact pure (Nat.zero_le _)
  | succ rounds ih =>
      unfold Fs.readiLoop
      split
      · exact pure (Nat.zero_le _)
      refine bind (all fun blockNo => bind (all fun node => bind (all fun buf => ?_)))
      split
      · exact stop
      · refine bind (all fun data => bind (all fun _ => ?_))
        exact segment (Nat.min_le_right _ _) (ih _ _ _)

theorem ttyKill (t : TtyId) (dev : Dev) (dest : ℕ → Byte) (kill : Byte → Bool) (pos : ℕ) :
    Gives (· ≤ pos) (Fs.ttyKill t dev dest kill pos : FsM H ℕ) := by
  induction pos with
  | zero => exact pure le_rfl
  | succ pos ih =>
      unfold Fs.ttyKill
      split
      · exact bind (all fun _ => ih.mono fun _ before => before.trans pos.le_succ)
      · exact pure le_rfl

/-- A character moves the position of the line on by one at most. -/
theorem ttyChar (t : TtyId) (dev : Dev) (dest : ℕ → Byte) (pos : ℕ) (char : Byte) :
    Gives (fun line => match line with
        | .more _ next => next ≤ pos + 1
        | .ends _ next => next ≤ pos + 1
        | .empty => True)
      (Fs.ttyChar t dev dest pos char : FsM H Fs.TtyLine) := by
  have same : pos ≤ pos + 1 := pos.le_succ
  have before : pos - 1 ≤ pos + 1 := (Nat.sub_le pos 1).trans same
  unfold Fs.ttyChar
  split
  · split
    · exact bind (all fun _ => pure before)
    · exact pure same
  split
  · split
    · refine bind (all fun _ => bind ((ttyKill t dev dest _ _).mono fun middle isMiddle => ?_))
      exact bind ((ttyKill t dev dest _ middle).mono fun last isLast =>
        pure (isLast.trans (isMiddle.trans before)))
    · exact pure same
  split
  · exact bind (all fun _ => pure (Nat.zero_le _))
  split
  · split
    · exact bind (all fun _ => bind (all fun _ => pure same))
    · exact pure same
  split
  · exact pure trivial
  · exact bind (all fun _ => pure le_rfl)

theorem ttyReadLoop (p : ProcId) (i : InodeId) (t : TtyId) (dev : Dev) (count rounds : ℕ)
    (dest : ℕ → Byte) {pos : ℕ} (char : Byte) (inside : pos ≤ count) :
    Gives (fun result : ℤ × List Byte => result.2.length ≤ count)
      (Fs.ttyReadLoop p i t dev count rounds dest pos char : FsM H (ℤ × List Byte)) := by
  have isLength : ∀ dest last, (Fs.userBytes dest last).length = last := by simp [Fs.userBytes]
  induction rounds generalizing dest pos char with
  | zero => exact stop
  | succ rounds ih =>
      unfold Fs.ttyReadLoop
      split
      · exact pure ((isLength dest pos).trans_le inside)
      rename_i goesOn
      have isBefore : pos + 1 ≤ count := by omega
      refine bind (all fun core => ?_)
      dsimp only
      split
      · split
        · exact pure (Nat.zero_le _)
        · exact bind (all fun _ => bind (all fun _ => bind (all fun _ => ih _ _ inside)))
      · refine bind (all fun _ => ?_)
        split
        · refine bind ((ttyChar t dev dest pos _).mono fun line moves => ?_)
          cases line with
          | more dest next => exact ih _ _ (moves.trans isBefore)
          | ends dest next => exact pure ((isLength dest next).trans_le (moves.trans isBefore))
          | empty => exact pure (Nat.zero_le _)
        · exact pure ((isLength _ _).trans_le isBefore)

theorem cdevRead (p : ProcId) (i : InodeId) (dev : Dev) (count : ℕ) :
    Gives (fun result : ℤ × List Byte => result.2.length ≤ count)
      (Fs.cdevRead p i dev count : FsM H (ℤ × List Byte)) := by
  unfold Fs.cdevRead
  split
  · exact pure (Nat.zero_le _)
  split
  · unfold Fs.ttyRead
    split
    · exact stop
    · exact bind (all fun core => bind (all fun _ =>
        ttyReadLoop p i _ dev count _ _ _ (Nat.zero_le _)))
  split
  · exact pure (List.length_replicate ..).le
  · exact pure (Nat.zero_le _)

theorem readi (p : ProcId) (i : InodeId) {nbytes : ℕ} (small : nbytes < 2 ^ 31) :
    Gives (fun result : ℤ × List Byte => result.2.length ≤ nbytes)
      (Fs.readi p i 0 nbytes : FsM H (ℤ × List Byte)) := by
  refine bind (all fun node => ?_)
  dsimp only
  split
  · exact stop
  split
  · exact cdevRead p i _ nbytes
  split
  · exact bind ((readiBlockDev _ _ _ _ _).mono fun bytes short => pure short)
  split
  · exact pure (Nat.zero_le _)
  rename_i notBehind
  refine bind ((readiLoop i _ _ _ _).mono fun bytes short => pure (short.trans ?_))
  split
  · rename_i isShort
    rw [zero_add, toLong_natCast small] at isShort
    have isSize : toUint (node.size - 0) = node.size.toNat := by
      unfold toUint
      omega
    rw [isSize, toLong_natCast (by omega)]
    omega
  · rw [toLong_natCast small, Int.toNat_natCast]

end Gives

/-- A directory of whole entries fits if its size does. -/
theorem Flat.roomy_of_whole {arrives : Chan → Flat → Flat} {p : ProcId} {i : InodeId} {flat : Flat}
    (whole : direntSize ∣ toUint (flat.core.inodes i).size)
    (small : toUint (flat.core.inodes i).size < 2 ^ 31)
    (room : toUint (flat.core.inodes i).size ≤ flat.core.room) :
    Flat.Roomy arrives p (.searches i) flat := by
  unfold Flat.Roomy
  dsimp only
  rw [Nat.div_mul_cancel whole]
  refine ⟨room, fun ret dir flat' returned => ?_⟩
  have isCount : min (toUint (flat.core.inodes i).size) (toUint (flat.core.inodes i).size + 1) =
      toUint (flat.core.inodes i).size := Nat.min_eq_left (Nat.le_succ _)
  rw [isCount] at returned
  exact (Gives.readi p i small).of_returned returned

/-! ## Balance -/

/--
`nameicore` in either mode, for any path and any state: without an error it has added one
reference, to the inode it returns, with an error none, and it has left no inode locked.
-/
theorem lookedUp_of_returned {arrives : Chan → Flat → Flat} {flat flat' : Flat} {inodep : Inodep}
    (quiet : Flat.Quiet inodep arrives) {p : ProcId} {path : List Byte} {named parent : Bool}
    {found : Found} (returned : exec (Flat.waking arrives)
      (nameicore p path named parent inodep) flat = .returned found flat') :
    LookedUp flat flat' found := by
  have reached := Reached.nameicore quiet (Tallied.refl flat.core) returned
  refine reached.tallied.lookedUp ?_
  split
  · rw [Multiset.cons_zero]
  · rfl

/--
A lookup that does not write behind its arrays comes to what it should, and it writes behind one
exactly if that has no room for what is put there. Everything else that a lookup does, in either
mode and for any path, keeps the balance of the references.
-/
theorem nameicore_balanced_iff {arrives : Chan → Flat → Flat} {flat : Flat} {inodep : Inodep}
    (quiet : Flat.Quiet inodep arrives) {p : ProcId} {path : List Byte} {named parent : Bool} :
    (exec (Flat.waking arrives) (nameicore p path named parent inodep) flat).Ends
        (fun found flat' => LookedUp flat flat' found) (fun why _ => why ≠ .overrun)
        (fun _ => True) ↔
      Along (Flat.waking arrives) (Flat.atMark (Flat.Roomy arrives p))
        (nameicore p path named parent inodep) flat := by
  rw [← Flat.Fits.nameicore path named parent inodep flat]
  cases result : exec (Flat.waking arrives) (nameicore p path named parent inodep) flat with
  | returned found flat' => exact iff_of_true (lookedUp_of_returned quiet result) fun _ => nofun
  | asleep flat' => exact iff_of_true trivial fun _ => nofun
  | stopped why flat' =>
      refine ⟨?_, fun fits isOverrun => ?_⟩
      · rintro notOverrun _ ⟨⟩
        exact notOverrun rfl
      · subst isOverrun
        exact fits flat' rfl

set_option maxRecDepth 2000 in
/-- The lookup of `/a` finds the file and is balanced, with room for the root directory. -/
theorem nameicore_balanced_small :
    (exec (Flat.waking fun _ flat => flat) (nameicore 0 [47, 97] false false .own)
        ⟨smallCore, smallDisk⟩).Ends
        (fun found flat' => LookedUp ⟨smallCore, smallDisk⟩ flat' found ∧ found = ⟨0, 1, []⟩)
        (fun _ _ => False) (fun _ => False) ∧
      Along (Flat.waking fun _ flat => flat) (Flat.atMark (Flat.Roomy (fun _ flat => flat) 0))
        (nameicore 0 [47, 97] false false .own) ⟨smallCore, smallDisk⟩ := by
  have runs : ∃ flat', exec (Flat.waking fun _ flat => flat) (nameicore 0 [47, 97] false false .own)
      ⟨smallCore, smallDisk⟩ = .returned ⟨0, 1, []⟩ flat' := ⟨_, rfl⟩
  rcases runs with ⟨flat', returned⟩
  have lookedUp := lookedUp_of_returned (Flat.quiet_id .own) returned
  refine ⟨?_, (nameicore_balanced_iff (Flat.quiet_id .own)).mp ?_⟩
  · rw [returned]
    exact ⟨lookedUp, rfl⟩
  · rw [returned]
    exact lookedUp

set_option maxRecDepth 2000 in
/-- The lookup of `/a/b` reads the file `a` of one byte into an array of none. -/
theorem nameicore_overruns :
    ¬(exec (Flat.waking fun _ flat => flat) (nameicore 0 [47, 97, 47, 98] false false .own)
        ⟨smallCore, smallDisk⟩).Ends
        (fun found flat' => LookedUp ⟨smallCore, smallDisk⟩ flat' found)
        (fun why _ => why ≠ .overrun) (fun _ => True) := by
  have runs : ∃ flat', exec (Flat.waking fun _ flat => flat)
      (nameicore 0 [47, 97, 47, 98] false false .own) ⟨smallCore, smallDisk⟩ =
        .stopped .overrun flat' := ⟨_, rfl⟩
  rcases runs with ⟨flat', stopped⟩
  rw [stopped]
  exact fun notOverrun => notOverrun rfl

end Osix
