import Osix.Fs.InodeMap
import Osix.Fs.Kernel
import Osix.Fs.Links

/-!
# What `mkdir` makes

`sys_mkdir` asks `file_creat` for an inode of type `S_IFDIR`, and `ialloc` adds `S_IFREG` to every
mode it is given: what comes out is of neither type. So a `mkdir` that reports success has not made
a directory, whatever the path and the file system.
-/

namespace Osix

open Program Fs

namespace Flat

/-- An inode as the kernel knows it, from its slot in the cache or else from the disk. -/
def node (flat : Flat) (dev : Dev) (inodeno : ℕ) : InodeData :=
  match flat.core.findInode dev inodeno with
  | some i => (flat.core.inodes i).toInodeData
  | none => .ofDisk (flat.disk dev (inodeBlock flat.core.super inodeno)) (inodeOffset inodeno)

/-- The device and the number of the inode in a slot. -/
def keyOf (flat : Flat) (i : InodeId) : Dev × ℕ :=
  ((flat.core.inodes i).dev, (flat.core.inodes i).inodeno)

def linkCount (flat : Flat) (key : Dev × ℕ) : ℕ := (flat.node key.1 key.2).nlinks

end Flat

/-- The entries of a directory with `d_ino != 0`, in their order. -/
def liveEntries : ℕ → List Byte → List (ℕ × List Byte)
  | 0, _ => []
  | ndirent + 1, dir =>
      let rest := liveEntries ndirent (dir.drop direntSize)
      if head16 dir = 0 then rest
      else (head16 dir, cString ((dir.take direntSize).drop 2)) :: rest

/-- `readi` of a whole directory. -/
def readDirectory (p : ProcId) (i : InodeId) : FsM FlatBuf (List (ℕ × List Byte)) := do
  ilock i
  let size := (← getInode i).size
  let (_, dir) ← readi p i 0 (toUint size)
  iunlock i
  return liveEntries (dir.length / direntSize) dir

/--
The directory `key` that `mkdir` is to have made in the directory `parent`: `before` and `after`
are the states around the call, and in `seen` its path has been looked up and is in slot `i`.
-/
structure DirectoryMade (before after seen : Flat) (p : ProcId) (pathname : List Byte) (mode : ℕ)
    (parent key : Dev × ℕ) (i : InodeId) : Prop where
  isDirectory : fileType (seen.node key.1 key.2).mode = sIfdir
  entries : ∃ state, exec Flat.handler (readDirectory p i) seen =
    .returned [(key.2, [46]), (parent.2, [46, 46])] state
  grown : after.linkCount parent = before.linkCount parent + 1
  others : ∀ other, other ≠ parent → other ≠ key →
    after.linkCount other = before.linkCount other
  entered : mode &&& (iexec <<< 6) ≠ 0 →
    ∃ state, exec Flat.handler (chdir p (some pathname)) after = .returned 0 state

/-- `parent` holds the last component of the path and the path names a directory made in it. -/
def MkdirRight (before after : Flat) (p : ProcId) (pathname : List Byte) (mode : ℕ) : Prop :=
  ∃ parent i name name' looked seen,
    exec Flat.handler (parenti p pathname .own) before = .returned ⟨0, parent, name⟩ looked ∧
    exec Flat.handler (namei p pathname .own) after = .returned ⟨0, i, name'⟩ seen ∧
    DirectoryMade before after seen p pathname mode (looked.keyOf parent) (seen.keyOf i) i

/-- A number that `ialloc` takes for a new inode had no links in `before`. -/
def NewUnlinked (before : Flat) (event : Event) (flat : Flat) : Prop :=
  ∀ i, event = .newInode i → before.linkCount (flat.keyOf i) = 0

/-- The mode that `ialloc` stores for a mode it is given. -/
def storedMode (mode : ℕ) : ℕ := toUshort (mode ||| sIfreg : ℕ)

theorem storedMode_not_dir (mode : ℕ) : fileType (storedMode mode) ≠ sIfdir := by
  have isRegular : (storedMode mode).testBit 15 = true := by
    have isMod : storedMode mode = (mode ||| sIfreg) % 2 ^ 16 := by
      unfold storedMode toUshort
      omega
    rw [isMod, Nat.testBit_mod_two_pow, Nat.testBit_or]
    simp [sIfreg, Nat.testBit]
  rw [Nat.testBit_eq_decide_div_mod_eq, decide_eq_true_eq] at isRegular
  unfold fileType sIfdir
  omega

section

variable {ok : Event → Flat → Prop} {flat : Flat} {p : ProcId} {mode : ℕ}

theorem Linked.of_newInode {core : Core} {i : InodeId} {inodeno : ℕ} {data : InodeData}
    (first : core.findInode rootDev inodeno = some i) :
    Linked i rootDev inodeno data.mode
      ((core.setInode i fun old => { old with toInodeData := data }).setInode i
        fun old => { old with dirty := true }) data.nlinks where
  first := by rw [Core.findInode_setInode ⟨rfl, rfl⟩, Core.findInode_setInode ⟨rfl, rfl⟩, first]
  sameMode := by simp [Core.setInode]
  isDirty := by simp [Core.setInode]
  counts := by simp [Core.setInode]

/-- The slot that `iget` has just taken is the first that holds the inode. -/
theorem findInode_fresh {i : InodeId} {dev : Dev} {inodeno : ℕ}
    (missing : flat.core.findInode dev inodeno = none) :
    (flat.setInode i (flat.fresh dev inodeno)).core.findInode dev inodeno = some i := by
  refine Core.findInode_eq_some.mpr ⟨?_, fun j less => ?_⟩
  · rw [Flat.setInode_self]
    exact ⟨rfl, rfl⟩
  · rw [Flat.setInode_of_ne _ _ _ less.ne]
    have absent := List.find?_eq_none.mp missing j (List.mem_finRange j)
    simpa using absent

/-- Whatever the state is, a new inode comes in a slot of its own without links. -/
theorem wp_ialloc_linked {post : Option InodeId → Flat → Prop}
    (full : ∀ flat', post none flat')
    (fresh : ∀ i inodeno flat', (∃ middle : Flat, middle.keyOf i = (rootDev, inodeno) ∧
      ok (.newInode i) middle) → Linked i rootDev inodeno (storedMode mode) flat'.core 0 →
      post (some i) flat') :
    wp (Flat.rules ok (fun _ _ => True) fun _ => True) (ialloc p mode) post flat := by
  simp only [ialloc, wp_bind, Flat.wp_getCore]
  rw [wp_iallocLoop_find]
  cases findClear (flat.disk rootDev) 2 flat.core.super.imapBlocks with
  | none => exact full _
  | some bit =>
      have settles : ∀ i (middle : Flat), middle.core.findInode rootDev (1 + bit) = some i →
          wp (Flat.rules ok (fun _ _ => True) fun _ => True) (do
            mark (.newInode i)
            let core ← getCore
            setData i fun _ => newInode core p mode
            setDirty i true
            return some i) post middle := by
        intro i middle first
        simp only [wp_bind, Flat.wp_mark, Flat.wp_getCore, Flat.wp_setData, Flat.wp_setDirty,
          wp_pure]
        intro marked
        refine fresh i (1 + bit) _ ⟨middle, ?_, marked⟩
          (@Linked.of_newInode _ _ _ (newInode middle.core p mode) first)
        exact Prod.ext (Core.findInode_eq_some.mp first).1.1 (Core.findInode_eq_some.mp first).1.2
      dsimp only
      unfold iallocSlot
      rw [wp_bind]
      refine Flat.wp_iget (fun i _ _ => trivial) (fun i found unlocked => settles i _ ?_)
        (fun i missing free => settles i _ (findInode_fresh missing)) fun _ _ => trivial
      have first := @Core.findInode_setInode flat.core i
        (fun old => { old with refcount := old.refcount + 1, wanted := false }) ⟨rfl, rfl⟩
      exact (congrFun (congrFun first rootDev) (1 + bit)).trans found

/-! ## What is done with the new inode -/

/-- The rest of `file_creat` after `ialloc`. -/
def enterInode (p : ProcId) (parent : InodeId) (name : List Byte) (i : InodeId) :
    FsM FlatBuf (ℤ × Option InodeId) := do
  ilock i
  wdir p parent (← getInode i).inodeno name
  setData i fun old => { old with nlinks := toUshort (old.nlinks + 1) }
  setDirty i true
  iunlock i
  iput parent
  return (0, some i)

theorem toUshort_succ {links : ℕ} (small : links < 3) : toUshort (links + 1) = links + 1 := by
  unfold toUshort
  omega

theorem counts_link {i : InodeId} {links : ℕ} {post : Unit → ℕ → Prop} (small : links < 3)
    (rest : post () (links + 1)) :
    Counts i links (setData i fun old => { old with nlinks := toUshort (old.nlinks + 1) } :
      FsM FlatBuf Unit) post := by
  refine Counts.setData_self (fun _ => rfl) ?_ rest
  rintro data rfl
  exact toUshort_succ small

theorem counts_enterInode {parent i : InodeId} {name : List Byte} :
    Counts i 0 (enterInode p parent name i) fun value links =>
      value = (0, some i) ∧ links = 1 := by
  refine Counts.bind (Counts.op trivial fun _ => ?_)
  refine Counts.bind (Counts.getInode fun node _ => ?_)
  refine Counts.bind (Counts.of_linksKept (LinksKept.wdir p parent _ _) fun _ => ?_)
  refine Counts.bind (counts_link (by decide) ?_)
  refine Counts.bind (Counts.of_linksKept (LinksKept.setDirty i) fun _ => ?_)
  refine Counts.bind (Counts.op trivial fun _ => ?_)
  exact Counts.bind (Counts.iput one_ne_zero (Counts.pure ⟨rfl, rfl⟩))

/-- The two entries give the inode a second link, or a third if it is the current directory. -/
theorem counts_mkdirEntries {i : InodeId} :
    Counts i 1 (mkdirEntries p i : FsM FlatBuf Unit) fun _ links => 2 ≤ links := by
  refine Counts.bind (Counts.getInode fun node _ => ?_)
  refine Counts.bind (Counts.of_linksKept (LinksKept.wdir p i _ _) fun _ => ?_)
  refine Counts.bind (counts_link (by decide) ?_)
  refine Counts.bind (Counts.of_linksKept (LinksKept.getProc p) fun proc => ?_)
  split
  · exact Counts.stop
  rename_i parent _
  refine Counts.bind (Counts.op trivial fun _ => ?_)
  refine Counts.bind (Counts.getInode fun node _ => ?_)
  refine Counts.bind (Counts.of_linksKept (LinksKept.wdir p i _ _) fun _ => ?_)
  refine Counts.bind (Counts.op trivial fun _ => ?_)
  have rest : ∀ links, links ≠ 0 → 2 ≤ links → Counts i links (do
      setDirty parent true
      iunlockput parent
      setDirty i true
      iput i : FsM FlatBuf Unit) fun _ links => 2 ≤ links := by
    intro links linked atLeast
    refine Counts.bind (Counts.of_linksKept (LinksKept.setDirty parent) fun _ => ?_)
    refine Counts.bind (Counts.iunlockput linked ?_)
    refine Counts.bind (Counts.of_linksKept (LinksKept.setDirty i) fun _ => ?_)
    exact Counts.iput linked atLeast
  rcases eq_or_ne parent i with rfl | different
  · exact Counts.bind (counts_link (by decide) (rest 3 (by decide) (by decide)))
  · exact Counts.bind (Counts.setData_of_ne different (rest 2 (by decide) le_rfl))

/-- The new inode after `sys_mkdir` has returned 0. -/
def Made (ok : Event → Flat → Prop) (mode : ℕ) (after : Flat) : Prop :=
  ∃ i inodeno links, 2 ≤ links ∧ Linked i rootDev inodeno (storedMode (mode ||| sIfdir)) after.core
    links ∧ ∃ middle : Flat, middle.keyOf i = (rootDev, inodeno) ∧ ok (.newInode i) middle

theorem wp_anything {α : Type} {prog : FsM FlatBuf α} {post : α → Flat → Prop}
    (holds : ∀ value flat', post value flat') :
    wp (Flat.rules ok (fun _ _ => True) fun _ => True) prog post flat := by
  induction prog generalizing flat with
  | pure value => exact holds value flat
  | op operation next ih =>
      intro _
      cases Flat.handler operation flat with
      | done reply flat' => exact ih reply
      | wait flat' => trivial
      | stop why => trivial

theorem wp_sysMkdir (pathname : List Byte) :
    wp (Flat.rules ok (fun _ _ => True) fun _ => True) (sysMkdir p pathname mode)
      (fun value after => value = 0 → Made ok mode after) flat := by
  have refused : ∀ (error : ℤ) (flat' : Flat), error ≠ 0 → error = 0 → Made ok mode flat' :=
    fun error flat' isError noError => absurd noError isError
  unfold sysMkdir
  simp only [wp_bind, Flat.wp_getProc]
  cases (flat.core.procs p).cwd with
  | none => exact refused _ _ (by decide)
  | some cwd =>
      simp only [denies, wp_bind, Flat.wp_getCore, wp_pure]
      split
      · exact refused _ _ (by decide)
      simp only [wp_bind, fileCreat]
      refine wp_anything fun found looked => ?_
      split
      · exact refused _ _ ‹_›
      rw [wp_bind]
      refine wp_anything fun denied asked => ?_
      split
      · rw [wp_bind]
        exact wp_anything fun _ _ => refused (-eacces) _ (by decide)
      rw [wp_bind]
      refine wp_ialloc_linked (fun _ => (Flat.wp_panic _ _).mpr trivial)
        fun i inodeno start marked linked => ?_
      have counts := @counts_enterInode p found.inode i found.name
      refine Flat.wp_of_counts counts linked ?_
      rintro _ entered _ linked ⟨rfl, rfl⟩
      dsimp only
      rw [wp_bind]
      refine Flat.wp_of_counts counts_mkdirEntries linked ?_
      rintro _ after links linked atLeast _
      exact ⟨i, inodeno, links, atLeast, linked, marked⟩

end

/-! ## What a new directory lacks -/

variable {before after : Flat} {p : ProcId} {pathname : List Byte} {mode : ℕ}

theorem Linked.node {i : InodeId} {dev : Dev} {inodeno links : ℕ} {flat : Flat}
    (linked : Linked i dev inodeno mode flat.core links) :
    (flat.node dev inodeno).mode = mode ∧ flat.linkCount (dev, inodeno) = links := by
  unfold Flat.linkCount Flat.node
  rw [linked.first]
  exact ⟨linked.sameMode, linked.counts⟩

/--
`sys_mkdir` never makes a directory. The inode it makes is of no type and has two links or more, so
the path either names it, or something else while the links of the new inode have changed.
-/
theorem mkdir_never_right
    (unlinked : Along Flat.handler (Flat.atMark (NewUnlinked before)) (sysMkdir p pathname mode)
      before)
    (returned : exec Flat.handler (sysMkdir p pathname mode) before = .returned 0 after) :
    ¬MkdirRight before after p pathname mode := by
  rintro ⟨parent, j, name, name', looked, seen, -, lookup, made⟩
  have ends := exec_ends (wp_sysMkdir pathname) unlinked
  rw [returned] at ends
  rcases ends rfl with ⟨i, inodeno, links, atLeast, linked, middle, isKey, marked⟩
  have none : before.linkCount (rootDev, inodeno) = 0 := isKey ▸ marked i rfl
  have isCount := linked.node.2
  by_cases isFound : (rootDev, inodeno) = seen.keyOf j
  · have still : ∃ links', Linked i rootDev inodeno (storedMode (mode ||| sIfdir)) seen.core
        links' := by
      have judged : wp Flat.partly (namei p pathname .own) (fun _ flat' => ∃ links',
          Linked i rootDev inodeno (storedMode (mode ||| sIfdir)) flat'.core links') after := by
        have counts : Counts i links (namei p pathname .own : FsM FlatBuf Found) fun _ _ => True :=
          Counts.nameicore (by omega) fun _ => trivial
        exact Flat.wp_of_counts counts linked fun _ flat' links' linked' _ => ⟨links', linked'⟩
      exact Flat.returned_of_partly judged lookup
    rcases still with ⟨links', linked'⟩
    have isDirectory := made.isDirectory
    rw [← isFound, linked'.node.1] at isDirectory
    exact storedMode_not_dir _ isDirectory
  by_cases isParent : (rootDev, inodeno) = looked.keyOf parent
  · have grown := made.grown
    rw [← isParent, none, isCount] at grown
    omega
  · have same := made.others _ isParent isFound
    rw [none, isCount] at same
    omega

def checkUnlinked (before : Flat) (operation : FsOp FlatBuf) (flat : Flat) : Bool :=
  match operation with
  | .mark (.newInode i) => decide (before.linkCount (flat.keyOf i) = 0)
  | _ => true

theorem newUnlinked_of_check (operation : FsOp FlatBuf) (flat : Flat)
    (checked : checkUnlinked before operation flat = true) :
    Flat.atMark (NewUnlinked before) operation flat := by
  rintro event rfl i rfl
  exact of_decide_eq_true checked

/-- `mkdir("d", 0755)` by the super-user whose current directory is the root. -/
theorem mkdir_small :
    ∃ after, exec Flat.handler (sysMkdir 0 [100] 0o755) ⟨smallCore, smallDisk⟩ =
      .returned 0 after ∧ ¬MkdirRight ⟨smallCore, smallDisk⟩ after 0 [100] 0o755 := by
  have runs : (exec Flat.handler (sysMkdir 0 [100] 0o755) ⟨smallCore, smallDisk⟩).check
      (fun value _ => decide (value = 0)) = true := by decide +kernel
  rcases Result.returned_of_check runs with ⟨value, after, returned, isZero⟩
  rw [of_decide_eq_true isZero] at returned
  refine ⟨after, returned, mkdir_never_right ?_ returned⟩
  refine along_of_checkAlong newUnlinked_of_check ?_
  decide +kernel

/-- The path names an inode whose type is not `S_IFDIR`. -/
theorem mkdir_small_typeless :
    ∃ after, exec Flat.handler (sysMkdir 0 [100] 0o755) ⟨smallCore, smallDisk⟩ =
      .returned 0 after ∧ ¬MkdirRight ⟨smallCore, smallDisk⟩ after 0 [100] 0o755 := by
  have runs : (exec Flat.handler (sysMkdir 0 [100] 0o755) ⟨smallCore, smallDisk⟩).check
      (fun value after => decide (value = 0) &&
        (exec Flat.handler (namei 0 [100] .own) after).check fun found seen => decide (fileType
          (seen.node (seen.keyOf found.inode).1 (seen.keyOf found.inode).2).mode ≠ sIfdir)) =
      true := by decide +kernel
  rcases Result.returned_of_check runs with ⟨value, after, returned, checked⟩
  rw [Bool.and_eq_true] at checked
  rw [of_decide_eq_true checked.1] at returned
  refine ⟨after, returned, ?_⟩
  rintro ⟨parent, i, name, name', looked, seen, -, lookup, made⟩
  rcases Result.returned_of_check checked.2 with ⟨found, seen', lookup', typeless⟩
  cases lookup.symm.trans lookup'
  exact of_decide_eq_true typeless made.isDirectory

end Osix
