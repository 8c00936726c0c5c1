import Osix.Fs.Devices
import Osix.Fs.References

/-!
# Opening a file

`sys_open` allocates the file entry first, looks the path up and only then asks for permission, so
every failure has to give back what was taken. `open_right_iff` is about the permission that `access`
tests with a mask of two bits, `failed_creation` about a file that cannot be created.
-/

namespace Osix

open Program Fs

variable {α : Type}

/-! ## References over a run -/

section

variable {flat flat' : Flat}

/-- `iput` of a reference that was taken. -/
theorem tallied_iput {before : Core} {refs locks : Multiset InodeId} {i : InodeId}
    (tallied : Tallied before flat.core ⟨i ::ₘ refs, locks⟩)
    (returned : exec Flat.handler (iput i) flat = .returned () flat') :
    Tallied before flat'.core ⟨refs, locks⟩ := by
  have tallies : Tallies ⟨i ::ₘ refs, locks⟩ (iput i : FsM FlatBuf Unit) fun _ own' =>
      own' = ⟨refs, locks⟩ := Tallies.iput rfl
  rcases tallied_of_returned tallies tallied returned with ⟨own', tallied', rfl⟩
  exact tallied'

end

/-! ## The run up to the permission test -/

section

variable {flat flat' looked after : Flat} {p : ProcId} {filename : List Byte} {flags mode : ℕ}
  {f : FileId} {i : InodeId} {found : Found} {value : ℤ}

theorem exec_setFile (f : FileId) (change : File → File) (next : Unit → FsM FlatBuf α) :
    exec Flat.handler (setFile f change >>= next) flat =
      exec Flat.handler (next ()) (flat.setFile f change) := rfl

/-- `sys_open` up to the end of its lookup, which comes to `found` in the state `looked`. -/
structure LooksUp (flat : Flat) (p : ProcId) (filename : List Byte) (flags : ℕ) (f : FileId)
    (found : Found) (looked : Flat) : Prop where
  named : filename ≠ []
  lookup : ∃ start, exec Flat.handler fileAlloc flat = .returned (some f) start ∧
    exec Flat.handler (namei p filename (.file f))
      (start.setFile f fun old => { old with flags := toUchar (old.flags ||| flags : ℕ) }) =
        .returned found looked

/-- The tables of files after the lookup: `f` is taken, the rest is as before. -/
structure Entered (flat : Flat) (f : FileId) (state : Flat) : Prop where
  procs : state.core.procs = flat.core.procs
  pipes : state.core.pipes = flat.core.pipes
  free : (flat.core.files f).refCount = 0
  others : ∀ g ≠ f, state.core.files g = flat.core.files g
  type : (state.core.files f).type = .inode
  refCount : (state.core.files f).refCount = 1

theorem Entered.setFile {state : Flat} (entered : Entered flat f state) {change : File → File}
    (kept : ∀ old, (change old).type = old.type ∧ (change old).refCount = old.refCount) :
    Entered flat f (state.setFile f change) where
  procs := entered.procs
  pipes := entered.pipes
  free := entered.free
  others g different := (Function.update_of_ne different ..).trans (entered.others g different)
  type := by
    have same := (kept (state.core.files f)).1.trans entered.type
    simpa [Flat.setFile, Core.setFile] using same
  refCount := by
    have same := (kept (state.core.files f)).2.trans entered.refCount
    simpa [Flat.setFile, Core.setFile] using same

theorem Entered.sameTables {state state' : Flat} (entered : Entered flat f state)
    (same : Flat.SameTables state state') : Entered flat f state' where
  procs := same.procs.trans entered.procs
  pipes := same.pipes.trans entered.pipes
  free := entered.free
  others g different := by
    rw [same.files]
    exact entered.others g different
  type := by
    rw [same.files]
    exact entered.type
  refCount := by
    rw [same.files]
    exact entered.refCount

theorem Entered.sameBut {state state' : Flat} (entered : Entered flat f state)
    (same : Flat.SameBut (.file f) state state') : Entered flat f state' where
  procs := same.procs.trans entered.procs
  pipes := same.pipes.trans entered.pipes
  free := entered.free
  others g different := by
    refine (same.others g ?_).trans (entered.others g different)
    rintro ⟨⟩
    exact different rfl
  type := by
    rw [same.entry f]
    exact entered.type
  refCount := by
    rw [same.entry f]
    exact entered.refCount

theorem exec_fileAlloc {value : Option FileId}
    (returned : exec Flat.handler fileAlloc flat = .returned value flat') (isFile : value = some f) :
    (flat.core.files f).refCount = 0 ∧
      flat' = flat.setFile f fun _ => { File.zero with refCount := 1 } := by
  have judged : wp Flat.partly fileAlloc (fun value next => ∀ g, value = some g →
      (flat.core.files g).refCount = 0 ∧
        next = flat.setFile g fun _ => { File.zero with refCount := 1 }) flat := by
    refine Flat.wp_fileAlloc (fun g free h isSame => ?_) fun h isSame => by cases isSame
    cases isSame
    exact ⟨free, rfl⟩
  exact Flat.returned_of_partly judged returned f isFile

theorem LooksUp.entered (looks : LooksUp flat p filename flags f found looked) :
    Entered flat f looked := by
  rcases looks.lookup with ⟨start, allocated, returned⟩
  rcases exec_fileAlloc allocated rfl with ⟨free, rfl⟩
  refine Entered.sameBut ?_
    (Flat.sameBut_of_returned (Uses.nameicoreInto p filename false false (.file f)) returned)
  refine Entered.setFile ?_ fun _ => ⟨rfl, rfl⟩
  refine ⟨rfl, rfl, free, fun g different => Function.update_of_ne different .., ?_, ?_⟩
  · simp [Flat.setFile, Core.setFile, File.zero]
  · simp [Flat.setFile, Core.setFile]

/-- The lookup has stored what it has found. -/
theorem LooksUp.isFile (looks : LooksUp flat p filename flags f found looked) :
    (looked.core.files f).inode = some found.inode := by
  rcases looks.lookup with ⟨start, -, returned⟩
  exact (reached_nameicore (Tallied.refl _) returned).pointer f rfl

/-- The lookup has a reference to what it has found. -/
theorem LooksUp.tallied (looks : LooksUp flat p filename flags f found looked) :
    Tallied flat.core looked.core
      (if found.error = 0 then ⟨{found.inode}, 0⟩ else ⟨0, 0⟩) := by
  rcases looks.lookup with ⟨start, allocated, returned⟩
  rcases exec_fileAlloc allocated rfl with ⟨-, rfl⟩
  generalize isStart : Flat.setFile _ f _ = start at returned
  have tallied : Tallied flat.core start.core ⟨0, 0⟩ := by
    rw [← isStart]
    exact (Tallied.refl flat.core).congr fun _ => rfl
  exact (reached_nameicore tallied returned).tallied

/-- What is left of `sys_open` after the lookup. -/
theorem LooksUp.exec_sysOpen (looks : LooksUp flat p filename flags f found looked) :
    exec Flat.handler (sysOpen p filename flags mode) flat =
      exec Flat.handler (do
        if found.error = -enoent ∧ flags &&& oCreat ≠ 0 then
          let _ ← fileCreat p filename (mode ||| sIfreg) (.file f)
          openInode p f flags
        else if found.error ≠ 0 then
          fileClose f
          return found.error
        else
          openInode p f flags) looked := by
  rcases looks.lookup with ⟨start, allocated, returned⟩
  unfold sysOpen
  rw [if_neg looks.named, exec_bind_of_returned allocated]
  dsimp only
  rw [exec_setFile, exec_bind_of_returned returned]

/-! ## Permissions -/

/-- The permissions that the flags of `sys_open` ask for. -/
def asked (flags : ℕ) : List ℕ :=
  if flags &&& oWronly ≠ 0 then [iwrite]
  else if flags &&& (oRdwr ||| oAppend ||| oCreat ||| oTrunc) ≠ 0 then [iread, iwrite]
  else [iread]

theorem asked_cases (flags : ℕ) :
    asked flags = [iwrite] ∨ asked flags = [iread, iwrite] ∨ asked flags = [iread] := by
  unfold asked
  split
  · exact Or.inl rfl
  split
  · exact Or.inr (Or.inl rfl)
  · exact Or.inr (Or.inr rfl)

/-- The mode bits of the inode grant the process a permission, as its owner, its group or others. -/
def Grants (core : Core) (p : ProcId) (i : InodeId) (permission : ℕ) : Prop :=
  let node := core.inodes i
  let proc := core.procs p
  (node.uid = proc.uid ∧ node.mode &&& (permission <<< 6) ≠ 0) ∨
    (node.gid = proc.gid ∧ node.mode &&& (permission <<< 3) ≠ 0) ∨ node.mode &&& permission ≠ 0

theorem denies_eq_false {core : Core} (nonRoot : (core.procs p).uid ≠ 0) (mask : ℕ) :
    core.denies p i mask = false ↔ Grants core p i mask := by
  simp only [Core.denies, Grants, nonRoot, if_false]
  split
  · rename_i isOwner
    exact iff_of_true rfl (Or.inl isOwner)
  rename_i notOwner
  split
  · rename_i isGroup
    exact iff_of_true rfl (Or.inr (Or.inl isGroup))
  rename_i notGroup
  split
  · rename_i isOther
    exact iff_of_true rfl (Or.inr (Or.inr isOther))
  · rename_i notOther
    refine iff_of_false (by decide) ?_
    rintro (isOwner | isGroup | isOther)
    · exact notOwner isOwner
    · exact notGroup isGroup
    · exact notOther isOther

/-- A mask of two bits asks for one of the two. -/
theorem grants_or {core : Core} (first second : ℕ) :
    Grants core p i (first ||| second) ↔ Grants core p i first ∨ Grants core p i second := by
  have split : ∀ mode shift, mode &&& ((first ||| second) <<< shift) ≠ 0 ↔
      mode &&& (first <<< shift) ≠ 0 ∨ mode &&& (second <<< shift) ≠ 0 := by
    intro mode shift
    rw [Nat.shiftLeft_or_distrib, Nat.and_or_distrib_left, ne_eq, Nat.or_eq_zero_iff, not_and_or]
  have plain := split (core.inodes i).mode 0
  simp only [Nat.shiftLeft_zero] at plain
  unfold Grants
  dsimp only
  rw [split, split, plain]
  tauto

/-- What `sys_open` tests: that one of the permissions is granted. -/
theorem denies_requestMode {core : Core} (nonRoot : (core.procs p).uid ≠ 0) (flags : ℕ) :
    core.denies p i (requestMode flags) = false ↔
      ∃ permission ∈ asked flags, Grants core p i permission := by
  rw [denies_eq_false nonRoot]
  unfold requestMode asked
  split
  · simp
  split
  · rw [grants_or]
    simp
  · simp

/-- The state after a refused open: nothing is left of it. -/
structure Unopened (flat looked after : Flat) : Prop where
  disk : after.disk = looked.disk
  inodes : ∀ j, after.core.inodes j =
    { looked.core.inodes j with refcount := (flat.core.inodes j).refcount }
  files : ∀ g, (after.core.files g).refCount = (flat.core.files g).refCount ∧
    ((flat.core.files g).refCount ≠ 0 → after.core.files g = flat.core.files g)
  procs : after.core.procs = flat.core.procs
  pipes : after.core.pipes = flat.core.pipes
  ttys : after.core.ttys = looked.core.ttys

/--
What the open of an existing inode has to come to: the caller has every permission it asks for, or
the open fails and changes nothing but what the lookup has changed.
-/
def OpenRight (flat looked after : Flat) (value : ℤ) (p : ProcId) (i : InodeId) (flags : ℕ) : Prop :=
  (∀ permission ∈ asked flags, Grants looked.core p i permission) ∨
    (value < 0 ∧ Unopened flat looked after)

/-- `iput` of an inode that has links gives back the reference. -/
theorem exec_iput_linked (linked : 0 < (flat.core.inodes i).nlinks)
    (returned : exec Flat.handler (iput i) flat = .returned () after) :
    after = flat.setInode i fun old => { old with refcount := old.refcount - 1 } := by
  have judged : wp Flat.surely (iput i) (fun _ next => next = after) flat :=
    (Flat.wp_surely_returned returned).mpr rfl
  have notUnlinked : (flat.core.inodes i).nlinks ≠ 0 := Nat.pos_iff_ne_zero.mp linked
  simp only [iput, wp_bind, Flat.wp_iunref] at judged
  split at judged
  · exact judged.elim
  · simp only [wp_when, Flat.wp_getInode, wp_bind, Flat.setInode_self, notUnlinked, if_false,
      Flat.wp_mark, true_imp_iff, ite_self] at judged
    exact judged.symm

/-- A file entry that only this `sys_open` knows is closed. -/
theorem exec_fileClose_entered (entered : Entered flat f looked)
    (isFile : (looked.core.files f).inode = some i)
    (returned : exec Flat.handler (fileClose f) looked = .returned () after) :
    ∃ put, exec Flat.handler (iput i) (looked.setFile f fun old =>
        { old with refCount := old.refCount - 1 }) = .returned () put ∧
      after = put.setFile f fun old => { old with inode := none } := by
  have judged : wp Flat.surely (fileClose f) (fun _ next => next = after) looked :=
    (Flat.wp_surely_returned returned).mpr rfl
  have isOne : ¬(looked.core.files f).refCount ≤ 0 := by
    rw [entered.refCount]
    decide
  have isLast : (looked.core.files f).refCount - 1 = 0 := by
    rw [entered.refCount]
    rfl
  simp only [fileClose, wp_bind, Flat.wp_getFile, entered.type, inodeFileClose, isOne, if_false,
    Flat.wp_setFile, wp_when, isLast, if_true, isFile, wp_whenSome_some] at judged
  rcases Flat.wp_surely_iff.mp judged with ⟨_, put, puts, same⟩
  exact ⟨put, puts, same.symm⟩

/-- `openInode` of a file that it denies. -/
theorem exec_openInode_denied (isFile : (looked.core.files f).inode = some i)
    (denied : looked.core.denies p i (requestMode flags) = true)
    (returned : exec Flat.handler (openInode p f flags) looked = .returned value after) :
    value = -eacces ∧ exec Flat.handler (fileClose f) looked = .returned () after := by
  have judged : wp Flat.surely (openInode p f flags) (fun result next => result = value ∧
      next = after) looked := (Flat.wp_surely_returned returned).mpr ⟨rfl, rfl⟩
  simp only [openInode, wp_bind, Flat.wp_getFile, isFile, denies, Flat.wp_getCore, wp_pure, denied,
    if_true] at judged
  rcases Flat.wp_surely_iff.mp judged with ⟨_, _, closes, rfl, rfl⟩
  exact ⟨rfl, closes⟩

/-- `openInode` of a file that it does not deny leaves the file entry in use, whatever it returns. -/
theorem refCount_openInode (isFile : (looked.core.files f).inode = some i)
    (allowed : looked.core.denies p i (requestMode flags) = false)
    (returned : exec Flat.handler (openInode p f flags) looked = .returned value after) :
    (after.core.files f).refCount = (looked.core.files f).refCount := by
  have judged : wp Flat.surely (openInode p f flags) (fun _ next => next = after) looked :=
    (Flat.wp_surely_returned returned).mpr rfl
  simp only [openInode, wp_bind, Flat.wp_getFile, isFile, denies, Flat.wp_getCore, wp_pure, allowed,
    Bool.false_eq_true, if_false] at judged
  rcases Flat.wp_surely_iff.mp judged with ⟨_, middle, truncated, allocates⟩
  have sameAfter : after.core.files = middle.core.files := by
    simp only [fileFdAlloc, wp_bind, Flat.wp_getProc] at allocates
    split at allocates
    · simp only [wp_bind, Flat.wp_setProc, wp_pure] at allocates
      rw [← allocates]
      rfl
    · rw [wp_pure] at allocates
      rw [← allocates]
  rw [sameAfter]
  unfold openTrunc at truncated
  split at truncated
  · have below : BelowTables (do
        mark (.uses i)
        ilock i
        itrunc i
        iunlockPtr (← inodeAgain f i) : FsM FlatBuf Unit) := by
      refine Uses.bind (Uses.op rfl) fun _ => ?_
      refine Uses.bind (Uses.op rfl) fun _ => ?_
      refine Uses.bind ((Uses.itrunc i).more (by simp)) fun _ => ?_
      exact Uses.bind ((Uses.inodeAgain f i).more (by simp)) fun pointer =>
        (Uses.iunlockPtr pointer).below
    rw [(Flat.sameTables_of_returned below truncated).files]
  split at truncated
  · cases truncated
    simp [Core.setFile]
  · cases truncated
    rfl

/-- A refused open gives everything back. -/
theorem unopened_of_denied (looks : LooksUp flat p filename flags f found looked)
    (noError : found.error = 0) (linked : 0 < (looked.core.inodes found.inode).nlinks)
    (closes : exec Flat.handler (fileClose f) looked = .returned () after) :
    Unopened flat looked after := by
  have entered := looks.entered
  have tallied := looks.tallied
  rw [if_pos noError] at tallied
  rcases exec_fileClose_entered entered looks.isFile closes with ⟨put, puts, rfl⟩
  have isPut := exec_iput_linked (by exact linked) puts
  subst isPut
  refine ⟨rfl, fun j => ?_, fun g => ?_, entered.procs, entered.pipes, rfl⟩
  · have references := tallied.references j
    rcases eq_or_ne j found.inode with rfl | different
    · rw [Multiset.count_singleton_self] at references
      simp [Flat.setFile, Core.setFile, Flat.setInode, Core.setInode, references]
    · rw [Multiset.count_singleton, if_neg different, Nat.add_zero] at references
      simp [Flat.setFile, Core.setFile, Flat.setInode, Core.setInode, different, ← references]
  · rcases eq_or_ne g f with rfl | different
    · refine ⟨?_, fun used => absurd entered.free used⟩
      simp [Flat.setFile, Core.setFile, Flat.setInode, Core.setInode, entered.refCount,
        entered.free]
    · have same := entered.others g different
      simp [Flat.setFile, Core.setFile, Flat.setInode, Core.setInode, different, same]

/--
`sys_open` of an existing inode by a process that is not the super-user: what it does is right just
when the caller does not ask for two permissions of which it has one.
-/
theorem open_right_iff (looks : LooksUp flat p filename flags f found looked)
    (noError : found.error = 0) (linked : 0 < (looked.core.inodes found.inode).nlinks)
    (nonRoot : (flat.core.procs p).uid ≠ 0)
    (returned : exec Flat.handler (sysOpen p filename flags mode) flat = .returned value after) :
    OpenRight flat looked after value p found.inode flags ↔
      (asked flags = [iread, iwrite] →
        (Grants looked.core p found.inode iread ↔ Grants looked.core p found.inode iwrite)) := by
  have nonRoot' : (looked.core.procs p).uid ≠ 0 := by rwa [looks.entered.procs]
  have notMissing : ¬(found.error = -enoent ∧ flags &&& oCreat ≠ 0) := by
    rw [noError]
    rintro ⟨isMissing, -⟩
    exact absurd isMissing (by decide)
  rw [looks.exec_sysOpen, if_neg notMissing, if_neg (not_not.mpr noError)] at returned
  have isFile := looks.isFile
  have decided := denies_requestMode (i := found.inode) nonRoot' flags
  cases isDenied : looked.core.denies p found.inode (requestMode flags) with
  | true =>
      rcases exec_openInode_denied isFile isDenied returned with ⟨isError, closes⟩
      refine iff_of_true (Or.inr ⟨?_, unopened_of_denied looks noError linked closes⟩) ?_
      · rw [isError]
        decide
      · intro both
        rw [isDenied, both] at decided
        have neither : ∀ permission ∈ [iread, iwrite],
            ¬Grants looked.core p found.inode permission := fun permission isAsked granted =>
          Bool.noConfusion (decided.mpr ⟨permission, isAsked, granted⟩)
        exact iff_of_false (neither iread (by simp)) (neither iwrite (by simp))
  | false =>
      have some := decided.mp isDenied
      have notUnopened : ¬(value < 0 ∧ Unopened flat looked after) := by
        rintro ⟨-, unopened⟩
        have sameCount := refCount_openInode isFile isDenied returned
        have isFree := (unopened.files f).1
        rw [sameCount, looks.entered.free, looks.entered.refCount] at isFree
        cases isFree
      rw [OpenRight, or_iff_left notUnopened]
      rcases asked_cases flags with isAsked | isAsked | isAsked <;> rw [isAsked] at some ⊢
      · simpa [iread, iwrite] using some
      · simp only [List.mem_cons, List.not_mem_nil, or_false, exists_eq_or_imp, exists_eq_left,
          forall_eq_or_imp, forall_eq, true_imp_iff] at some ⊢
        exact ⟨fun both => iff_of_true both.1 both.2, fun same =>
          ⟨some.elim id same.mpr, some.elim same.mp id⟩⟩
      · simpa using some

/-! ## A file that cannot be created -/

/-- Directories, files and bitmaps, the references to inodes and the open files are as before. -/
structure Untouched (before after : Flat) : Prop where
  disk : after.disk = before.disk
  references : ∀ j, (after.core.inodes j).refcount = (before.core.inodes j).refcount
  files : ∀ g, (after.core.files g).refCount = (before.core.files g).refCount ∧
    ((before.core.files g).refCount ≠ 0 → after.core.files g = before.core.files g)

/-- `iput` takes a reference away, whether or not the caller had it. -/
theorem refcount_iput (returned : exec Flat.handler (iput i) flat = .returned () after) :
    (flat.core.inodes i).refcount = (after.core.inodes i).refcount + 1 := by
  unfold iput at returned
  rcases exec_bind_returned.mp returned with ⟨last, middle, drops, rests⟩
  have dropped : (flat.core.inodes i).refcount = (middle.core.inodes i).refcount + 1 := by
    have judged : wp Flat.surely (iunref i : FsM FlatBuf Bool) (fun _ next => next = middle) flat :=
      (Flat.wp_surely_returned drops).mpr rfl
    rw [Flat.wp_iunref] at judged
    split at judged
    · exact judged.elim
    · rename_i held
      rw [← judged, Flat.setInode_self]
      exact (Nat.succ_pred_eq_of_ne_zero fun none => held (Or.inl none)).symm
  have tallies : Tallies ⟨0, 0⟩ (do
      Prog.when last do
        let node ← getInode i
        Prog.when (node.nlinks = 0) (ireclaim i)
        mark (.released i)
      mark (.drops i) : FsM FlatBuf Unit) fun _ own => own = ⟨0, 0⟩ := by
    refine Tallies.bind (Tallies.when ?_ (Tallies.mark rfl))
    refine Tallies.bind (Tallies.getInode fun node => ?_)
    refine Tallies.bind (Tallies.when (Tallies.ireclaim ?_) ?_)
    · exact Tallies.mark (Tallies.mark rfl)
    · exact Tallies.mark (Tallies.mark rfl)
  rcases tallied_of_returned tallies (Tallied.refl middle.core) rests with ⟨_, tallied, rfl⟩
  rw [dropped, tallied.references i]
  rfl

/-- A `file_creat` that fails has not come to store `*inodep`. -/
theorem fileCreat_failed_own {inodep : Inodep} {error : ℤ}
    (fails : exec Flat.handler (fileCreat p filename mode inodep) flat =
      .returned (error, none) after) :
    exec Flat.handler (fileCreat p filename mode .own) flat = .returned (error, none) after := by
  unfold fileCreat at fails ⊢
  rcases exec_bind_returned.mp fails with ⟨found, looked, lookup, fails⟩
  rw [exec_bind_of_returned lookup]
  dsimp only at fails ⊢
  by_cases isError : found.error ≠ 0
  · rw [if_pos isError] at fails ⊢
    exact fails
  rw [if_neg isError] at fails ⊢
  rcases exec_bind_returned.mp fails with ⟨denied, _, asks, fails⟩
  rw [exec_bind_of_returned asks]
  by_cases isDenied : denied = true
  · rw [if_pos isDenied] at fails ⊢
    exact fails
  rw [if_neg isDenied] at fails ⊢
  rcases exec_bind_returned.mp fails with ⟨slot, allocated, allocates, fails⟩
  rw [exec_bind_of_returned allocates]
  cases slot with
  | none => exact fails
  | some i =>
      rcases exec_bind_returned.mp fails with ⟨_, _, -, fails⟩
      rcases exec_bind_returned.mp fails with ⟨_, _, -, fails⟩
      rcases exec_bind_returned.mp fails with ⟨_, _, -, fails⟩
      rcases exec_bind_returned.mp fails with ⟨_, _, -, fails⟩
      rcases exec_bind_returned.mp fails with ⟨pointer, _, -, fails⟩
      cases pointer with
      | none => cases fails
      | some j =>
          simp only [exec_bind_returned] at fails
          rcases fails with ⟨_, _, -, _, _, -, _, _, -, _, _, -, fails⟩
          cases fails

/-- A `file_creat` that fails has given back all it took. -/
theorem tallied_fileCreat_failed {before : Core} {own : Taken} {error : ℤ}
    (tallied : Tallied before flat.core own)
    (fails : exec Flat.handler (fileCreat p filename mode .own) flat =
      .returned (error, none) after) :
    Tallied before after.core own := by
  unfold fileCreat at fails
  rcases exec_bind_returned.mp fails with ⟨found, looked, lookup, fails⟩
  have atParent := (reached_nameicore tallied lookup).tallied
  dsimp only at fails
  split at fails
  · rename_i isError
    rw [if_neg isError] at atParent
    cases fails
    exact atParent
  rename_i noError
  rw [if_pos (not_not.mp noError)] at atParent
  rcases exec_bind_returned.mp fails with ⟨denied, _, asks, fails⟩
  cases asks
  split at fails
  · rcases exec_bind_returned.mp fails with ⟨_, put, puts, fails⟩
    cases fails
    exact tallied_iput atParent puts
  rcases exec_bind_returned.mp fails with ⟨slot, allocated, -, fails⟩
  cases slot with
  | none => cases fails
  | some i =>
      simp only [exec_bind_returned] at fails
      rcases fails with ⟨_, _, -, _, _, -, _, _, -, _, _, -, pointer, _, -, fails⟩
      cases pointer with
      | none => cases fails
      | some j =>
          simp only [exec_bind_returned] at fails
          rcases fails with ⟨_, _, -, _, _, -, _, _, -, _, _, -, fails⟩
          cases fails

/--
A `sys_open` with `O_CREAT` whose `file_creat` fails never fails without an effect: it goes on with
the inode that the failed lookup has left behind, to which it has no reference.
-/
theorem failed_creation {error : ℤ} {tried : Flat}
    (looks : LooksUp flat p filename flags f found looked) (missing : found.error = -enoent)
    (creates : flags &&& oCreat ≠ 0)
    (fails : exec Flat.handler (fileCreat p filename (mode ||| sIfreg) (.file f)) looked =
      .returned (error, none) tried) :
    ¬∃ value after, exec Flat.handler (sysOpen p filename flags mode) flat =
      .returned value after ∧ value < 0 ∧ Untouched flat after := by
  rintro ⟨value, after, returned, -, untouched⟩
  rw [looks.exec_sysOpen, if_pos ⟨missing, creates⟩, exec_bind_of_returned fails] at returned
  have isError : found.error ≠ 0 := by
    rw [missing]
    decide
  have tallied := looks.tallied
  rw [if_neg isError] at tallied
  have failsOwn := fileCreat_failed_own fails
  have atEnd := tallied_fileCreat_failed tallied failsOwn
  have sameTables := Flat.sameTables_of_returned (Uses.fileCreat p filename _) failsOwn
  have entered : Entered flat f tried := looks.entered.sameTables sameTables
  have isFile : (tried.core.files f).inode = some found.inode := by
    rw [sameTables.files]
    exact looks.isFile
  cases isDenied : tried.core.denies p found.inode (requestMode flags) with
  | true =>
      rcases exec_openInode_denied isFile isDenied returned with ⟨-, closes⟩
      rcases exec_fileClose_entered entered isFile closes with ⟨put, puts, rfl⟩
      have drops := refcount_iput puts
      have sameBefore : ((tried.setFile f fun old =>
          { old with refCount := old.refCount - 1 }).core.inodes found.inode).refcount =
        (tried.core.inodes found.inode).refcount := rfl
      rw [sameBefore] at drops
      have same : (put.core.inodes found.inode).refcount =
          (flat.core.inodes found.inode).refcount := untouched.references found.inode
      have before : (tried.core.inodes found.inode).refcount =
          (flat.core.inodes found.inode).refcount := atEnd.references found.inode
      omega
  | false =>
      have inUse := refCount_openInode isFile isDenied returned
      rw [entered.refCount, (untouched.files f).1, entered.free] at inUse
      cases inUse

end

/-! ## A directory that a user may not write -/

/-- A root directory of the super-user with one file that is for reading only, and a user in it. -/
def guarded : Flat where
  core :=
    { Core.init ⟨300, 1, 1, 5⟩ with
      inodes := fun i =>
        if i = 0 then
          { Inode.unused with
            mode := 0x41ed, size := 32, nlinks := 1, dev := rootDev, inodeno := 1, refcount := 1
            direct := fun index => if index = 0 then 5 else 0 }
        else if i = 1 then
          { Inode.unused with mode := 0x8124, nlinks := 1, dev := rootDev, inodeno := 2 }
        else .unused
      procs := fun p =>
        if p = 0 then { Proc.zero with state := .running, cwd := some 0, uid := 5 } else .zero }
  disk := fun _ blockNo =>
    if blockNo = 5 then Block.copy (fun _ => 0) 0 (dirent 2 [97]) else fun _ => 0xFF

theorem looksUp_guarded :
    ∃ looked, LooksUp guarded 0 [97] oRdwr 0 ⟨0, 1, []⟩ looked ∧
      (looked.core.inodes 1).nlinks = 1 ∧ Grants looked.core 0 1 iread ∧
      ¬Grants looked.core 0 1 iwrite := by
  refine ⟨_, ⟨by decide, _, rfl, rfl⟩, rfl, ?_, ?_⟩
  · exact Or.inr (Or.inr (by decide))
  · rintro (⟨isOwner, -⟩ | ⟨-, grants⟩ | grants)
    · exact absurd isOwner (by decide)
    · exact absurd grants (by decide)
    · exact absurd grants (by decide)

theorem sysOpen_guarded :
    ∃ after, exec Flat.handler (sysOpen 0 [97] oRdwr 0) guarded = .returned 0 after := ⟨_, rfl⟩

/-- A file of mode 0444 is opened for reading and writing by a user who may only read it. -/
theorem open_right_guarded :
    ∃ looked after, exec Flat.handler (sysOpen 0 [97] oRdwr 0) guarded = .returned 0 after ∧
      (OpenRight guarded looked after 0 0 1 oRdwr ↔
        (asked oRdwr = [iread, iwrite] →
          (Grants looked.core 0 1 iread ↔ Grants looked.core 0 1 iwrite))) := by
  rcases looksUp_guarded with ⟨looked, looks, linked, -, -⟩
  rcases sysOpen_guarded with ⟨after, returned⟩
  exact ⟨looked, after, returned, open_right_iff looks rfl (linked.symm ▸ one_pos) (by decide)
    returned⟩

theorem open_guarded_wrong :
    ∃ looked after, LooksUp guarded 0 [97] oRdwr 0 ⟨0, 1, []⟩ looked ∧
      exec Flat.handler (sysOpen 0 [97] oRdwr 0) guarded = .returned 0 after ∧
      ¬OpenRight guarded looked after 0 0 1 oRdwr := by
  rcases looksUp_guarded with ⟨looked, looks, -, -, noWrite⟩
  rcases sysOpen_guarded with ⟨after, returned⟩
  refine ⟨looked, after, looks, returned, ?_⟩
  rintro (grantsAll | ⟨negative, -⟩)
  · exact noWrite (grantsAll iwrite (by decide))
  · exact absurd negative (by decide)

/-- `open("b", O_CREAT | O_WRONLY)` by a user who may not write the directory. -/
theorem failed_creation_guarded :
    ¬∃ value after, exec Flat.handler (sysOpen 0 [98] (oCreat ||| oWronly) 0) guarded =
      .returned value after ∧ value < 0 ∧ Untouched guarded after := by
  have runs : ∃ found looked error tried,
      LooksUp guarded 0 [98] (oCreat ||| oWronly) 0 found looked ∧ found.error = -enoent ∧
        exec Flat.handler (fileCreat 0 [98] (0 ||| sIfreg) (.file 0)) looked =
          .returned (error, none) tried :=
    ⟨_, _, _, _, ⟨by decide, _, rfl, rfl⟩, rfl, rfl⟩
  rcases runs with ⟨found, looked, error, tried, looks, missing, fails⟩
  exact failed_creation looks missing (by decide) fails

/-- The call fails, and the current directory of the user has lost its only reference. -/
theorem failed_creation_drops :
    (∃ after, exec Flat.handler (sysOpen 0 [98] (oCreat ||| oWronly) 0) guarded =
      .returned (-eacces) after ∧ (after.core.inodes 0).refcount = 0) ∧
    ¬∃ value after, exec Flat.handler (sysOpen 0 [98] (oCreat ||| oWronly) 0) guarded =
      .returned value after ∧ value < 0 ∧ Untouched guarded after := by
  have runs : ∃ after, exec Flat.handler (sysOpen 0 [98] (oCreat ||| oWronly) 0) guarded =
      .returned (-eacces) after ∧ (after.core.inodes 0).refcount = 0 := ⟨_, rfl, rfl⟩
  refine ⟨runs, ?_⟩
  rintro ⟨value, after, returned, -, untouched⟩
  rcases runs with ⟨after', returned', dropped⟩
  cases returned.symm.trans returned'
  have same := untouched.references 0
  rw [dropped] at same
  exact absurd same (by decide)

end Osix
