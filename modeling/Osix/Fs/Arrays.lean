import Osix.Fs.Contents

/-!
# Files as arrays of bytes

Regular files are written in any order on a freshly formatted file system. Beside the machine
runs the specification: an array of bytes for every file, which each write changes. What `readi`
returns is what the array holds.
-/

namespace Osix

open Program Transition Fs

/-- The machine and the arrays it is compared to. -/
structure Arrays where
  flat : Flat
  bytes : InodeId → List Byte

/-- `writei` under the inode's lock, as in `file_write`. -/
def lockedWrite (i : InodeId) (src : List Byte) (offset : ℕ) : FsM FlatBuf ℤ := do
  ilock i
  let ret ← writei i src offset
  iunlock i
  return ret

/-- `readi` under the inode's lock, as in `file_read`. -/
def lockedRead (p : ProcId) (i : InodeId) (offset nbytes : ℕ) :
    FsM FlatBuf (ℤ × List Byte) := do
  ilock i
  let result ← readi p i offset nbytes
  iunlock i
  return result

structure Write where
  inode : InodeId
  src : List Byte
  offset : ℕ

namespace Arrays

/-- A write, if it returns. -/
def step (arrays : Arrays) (write : Write) : Option Arrays :=
  match exec Flat.handler (lockedWrite write.inode write.src write.offset) arrays.flat with
  | .returned _ flat => some ⟨flat, Function.update arrays.bytes write.inode
      (splice (arrays.bytes write.inode) write.offset write.src)⟩
  | .asleep _ => none
  | .stopped _ _ => none

/-- `balloc` finds a zone. -/
def Enough (event : Event) (_ : Flat) : Prop := event ≠ .noZone

/-- The writes that are looked at; the last condition says that there are enough free zones. -/
structure Good (files : InodeId → Prop) (arrays : Arrays) (write : Write) : Prop where
  file : files write.inode
  inside : (write.offset : ℤ) ≤ (arrays.flat.core.inodes write.inode).size
  bound : write.offset + write.src.length ≤ maxBlocks * blockSize
  enough : Along Flat.handler (Flat.atMark Enough)
    (lockedWrite write.inode write.src write.offset) arrays.flat

/-- A regular file of the root device without a lock. -/
structure Regular (node : Inode) : Prop where
  dev : node.dev = rootDev
  lock : node.lock = false
  mode : fileType node.mode = sIfreg

/-- A freshly formatted file system with some empty regular files. -/
structure Fresh (files : InodeId → Prop) (flat : Flat) : Prop where
  layout : flat.core.super.Layout
  formatted : flat.core.super.Formatted flat.root
  zero : FreeZero flat.core.super flat.root
  regular : ∀ i, files i → Regular (flat.core.inodes i)
  empty : ∀ i, files i → (flat.core.inodes i).size = 0 ∧
    (flat.core.inodes i).direct = (fun _ => 0) ∧ (flat.core.inodes i).indirect = 0

/-- The files in the cache. -/
def nodes (files : InodeId → Prop) (flat : Flat) (key : { i // files i }) : InodeData :=
  (flat.core.inodes key.1).toInodeData

structure Inv (files : InodeId → Prop) (arrays : Arrays) : Prop where
  layout : arrays.flat.core.super.Layout
  zones : Zones arrays.flat.core.super arrays.flat.root (nodes files arrays.flat)
  zero : FreeZero arrays.flat.core.super arrays.flat.root
  regular : ∀ i, files i → Regular (arrays.flat.core.inodes i)
  contents : ∀ key, Contents arrays.flat.root (nodes files arrays.flat) key (arrays.bytes key)
  size : ∀ i, files i → (arrays.flat.core.inodes i).size = (arrays.bytes i).length

variable {files : InodeId → Prop} {flat flat' : Flat} {arrays : Arrays}

/-- Empty files hold no zones. -/
theorem zones_empty (formatted : flat.core.super.Formatted flat.root)
    (empty : ∀ i, files i → (flat.core.inodes i).size = 0 ∧
      (flat.core.inodes i).direct = (fun _ => 0) ∧ (flat.core.inodes i).indirect = 0) :
    Zones flat.core.super flat.root (nodes files flat) := by
  have nothing : ∀ holder, holdsZone flat.root (nodes files flat) holder = none := by
    intro holder
    obtain ⟨⟨i, isFile⟩, place⟩ := holder
    obtain ⟨-, noDirect, noIndirect⟩ := empty i isFile
    cases place <;> simp [holdsZone, nodes, InodeData.zoneAt, noDirect, noIndirect]
  constructor
  · intro first second zone held
    simp [nothing] at held
  · intro holder bit inMap held
    simp [nothing] at held
  · intro holder zone held
    simp [nothing] at held
  · exact formatted

theorem inv_fresh (fresh : Fresh files flat) : Inv files ⟨flat, fun _ => []⟩ where
  layout := fresh.layout
  zones := zones_empty fresh.formatted fresh.empty
  zero := fresh.zero
  regular := fresh.regular
  contents key := ⟨by simp, by simp⟩
  size i isFile := by simp [(fresh.empty i isFile).1]

/-- Only a slot's own file changes with it. -/
theorem withSlot_nodes {i : InodeId} (isFile : files i)
    (others : ∀ j ≠ i, flat'.core.inodes j = flat.core.inodes j) :
    withSlot (nodes files flat) ⟨i, isFile⟩ flat' i = nodes files flat' := by
  funext key
  obtain ⟨j, isFileJ⟩ := key
  rcases eq_or_ne j i with rfl | different
  · simp [withSlot, nodes]
  · have notKey : (⟨j, isFileJ⟩ : { i // files i }) ≠ ⟨i, isFile⟩ := by simpa using different
    simp [withSlot, nodes, notKey, others j different]

/-- Locks do not matter for the contents. -/
theorem nodes_setInode {i : InodeId} {change : Inode → Inode}
    (same : (change (flat.core.inodes i)).toInodeData = (flat.core.inodes i).toInodeData) :
    nodes files (flat.setInode i change) = nodes files flat := by
  funext key
  obtain ⟨j, isFile⟩ := key
  rcases eq_or_ne j i with rfl | different
  · simp [nodes, same]
  · simp [nodes, Flat.setInode_of_ne _ _ _ different]

/-- The machine while the lock of a file is held. -/
structure Locked (files : InodeId → Prop) (arrays : Arrays) (i : InodeId) (isFile : files i)
    (locked : Flat) : Prop where
  layout : locked.core.super.Layout
  zones : Zones locked.core.super locked.root (nodes files arrays.flat)
  zero : FreeZero locked.core.super locked.root
  isSlot : nodes files arrays.flat ⟨i, isFile⟩ = (locked.core.inodes i).toInodeData
  dev : (locked.core.inodes i).dev = rootDev
  lock : (locked.core.inodes i).lock = true
  mode : fileType (locked.core.inodes i).mode = sIfreg
  contents : Contents locked.root (nodes files arrays.flat) ⟨i, isFile⟩ (arrays.bytes i)
  size : (locked.core.inodes i).size = (arrays.bytes i).length

theorem Inv.locked {i : InodeId} (inv : Inv files arrays) (isFile : files i) :
    ∃ locked, locked = arrays.flat.setInode i (fun old => { old with lock := true }) ∧
      Locked files arrays i isFile locked := by
  have regular := inv.regular i isFile
  refine ⟨_, rfl, inv.layout, inv.zones, inv.zero, ?_, ?_, ?_, ?_, inv.contents ⟨i, isFile⟩, ?_⟩
  · simp [nodes]
  · simpa using regular.dev
  · simp
  · simpa using regular.mode
  · simpa using inv.size i isFile

section

variable {ok : Event → Flat → Prop} {allowed : Stop → Flat → Prop} {sleeps : Flat → Prop}

theorem wp_lockedRead {post : ℤ × List Byte → Flat → Prop} {p : ProcId} {i : InodeId}
    {offset nbytes : ℕ} (inv : Inv files arrays) (isFile : files i)
    (inside : offset + nbytes ≤ (arrays.bytes i).length)
    (holds : ∀ flat', post (nbytes, ((arrays.bytes i).drop offset).take nbytes) flat') :
    wp (Flat.rules ok allowed sleeps) (lockedRead p i offset nbytes) post arrays.flat := by
  have regular := inv.regular i isFile
  have bound := (inv.contents ⟨i, isFile⟩).bound
  simp only [lockedRead, wp_bind, Flat.wp_ilock, regular.lock, Bool.false_eq_true, if_false]
  obtain ⟨locked, isLocked, lockedInv⟩ := inv.locked isFile
  rw [← isLocked]
  apply wp_readi lockedInv.isSlot (lockedInv.dev) lockedInv.lock
    (by simp [lockedInv.mode, sIfreg, sIfchr]) (by simp [lockedInv.mode, sIfreg, sIfblk])
    lockedInv.contents lockedInv.size
  · omega
  · unfold maxBlocks blockSize ndirect nindirect at bound
    dsimp only at bound
    omega
  · have isCount : min nbytes ((arrays.bytes i).length - offset) = nbytes := by omega
    simp only [Flat.wp_iunlock, lockedInv.lock, if_true, wp_pure, isCount]
    exact holds _

/-- After a write and the release of the lock everything is in order again. -/
theorem Locked.unlock {i : InodeId} {isFile : files i} {locked unlocked : Flat}
    {content : List Byte} (lockedInv : Locked files arrays i isFile locked)
    (isLocked : locked = arrays.flat.setInode i fun old => { old with lock := true })
    (inv : Inv files arrays)
    (written : Written i ⟨i, isFile⟩ (nodes files arrays.flat) locked flat')
    (isSize : (flat'.core.inodes i).size = content.length)
    (contents : Contents flat'.root (withSlot (nodes files arrays.flat) ⟨i, isFile⟩ flat' i)
      ⟨i, isFile⟩ content)
    (isUnlocked : unlocked = flat'.setInode i fun old =>
      { old with lock := false, wanted := false }) :
    Inv files ⟨unlocked, Function.update arrays.bytes i content⟩ := by
  have sameSuper : flat'.core.super = locked.core.super := written.sameSuper
  have others : ∀ j ≠ i, flat'.core.inodes j = arrays.flat.core.inodes j := by
    intro j different
    obtain ⟨size, direct, indirect, dirty, isCore⟩ := written.core
    rw [isCore, isLocked]
    simp [Core.setInode, Flat.setInode, different]
  have isNodes : nodes files unlocked =
      withSlot (nodes files arrays.flat) ⟨i, isFile⟩ flat' i := by
    rw [withSlot_nodes isFile others, isUnlocked]
    exact nodes_setInode rfl
  have isRoot : unlocked.root = flat'.root := by
    subst isUnlocked
    rfl
  have isSuper : unlocked.core.super = locked.core.super := by
    rw [← sameSuper, isUnlocked]
    rfl
  have otherSlot : ∀ j ≠ i, unlocked.core.inodes j = arrays.flat.core.inodes j := by
    intro j different
    rw [isUnlocked, Flat.setInode_of_ne _ _ _ different, others j different]
  constructor
  · dsimp only
    rw [isSuper]
    exact lockedInv.layout
  · dsimp only
    rw [isNodes, isRoot, isSuper]
    exact written.zones
  · dsimp only
    rw [isRoot, isSuper]
    exact written.free lockedInv.zero
  · intro j isFileJ
    rcases eq_or_ne j i with rfl | different
    · have slot := written.slot
      subst isUnlocked
      exact ⟨by simpa using slot.1.trans lockedInv.dev, by simp,
        by simpa [slot.2.2] using lockedInv.mode⟩
    · dsimp only
      rw [otherSlot j different]
      exact inv.regular j isFileJ
  · intro key
    obtain ⟨j, isFileJ⟩ := key
    dsimp only
    rw [isNodes, isRoot]
    rcases eq_or_ne j i with rfl | different
    · rw [Function.update_self]
      exact contents
    · rw [Function.update_of_ne different]
      apply written.contents (by simpa using different)
      have isContents := inv.contents ⟨j, isFileJ⟩
      subst isLocked
      exact isContents
  · intro j isFileJ
    rcases eq_or_ne j i with rfl | different
    · dsimp only
      rw [Function.update_self, isUnlocked]
      simpa using isSize
    · dsimp only
      rw [Function.update_of_ne different, otherSlot j different]
      exact inv.size j isFileJ

theorem wp_lockedWrite {post : ℤ → Flat → Prop} {write : Write} (inv : Inv files arrays)
    (isFile : files write.inode)
    (inside : (write.offset : ℤ) ≤ (arrays.flat.core.inodes write.inode).size)
    (bound : write.offset + write.src.length ≤ maxBlocks * blockSize)
    (noZone : ∀ flat, ¬ ok .noZone flat)
    (holds : ∀ flat', Inv files ⟨flat', Function.update arrays.bytes write.inode
      (splice (arrays.bytes write.inode) write.offset write.src)⟩ →
        post write.src.length flat') :
    wp (Flat.rules ok allowed sleeps) (lockedWrite write.inode write.src write.offset) post
      arrays.flat := by
  obtain ⟨i, src, offset⟩ := write
  dsimp only at *
  have regular := inv.regular i isFile
  rw [inv.size i isFile] at inside
  simp only [lockedWrite, wp_bind, Flat.wp_ilock, regular.lock, Bool.false_eq_true, if_false]
  obtain ⟨locked, isLocked, lockedInv⟩ := inv.locked isFile
  rw [← isLocked]
  apply wp_writei lockedInv.zones lockedInv.layout lockedInv.isSlot lockedInv.dev lockedInv.lock
    (by simp [lockedInv.mode, sIfreg, sIfchr]) (by simp [lockedInv.mode, sIfreg, sIfblk])
    (by simp [lockedInv.mode, sIfreg, sIfifo]) lockedInv.contents lockedInv.size
    (by exact_mod_cast inside) bound noZone (Or.inl lockedInv.zero)
  intro flat' written isSize contents'
  have isLock := written.slot.2.1.trans lockedInv.lock
  simp only [Flat.wp_iunlock, isLock, if_true, wp_pure]
  apply holds
  exact lockedInv.unlock isLocked inv written isSize contents' rfl

end

/-- A write that is looked at returns. -/
theorem Good.returns {write : Write} (good : Good files arrays write) (inv : Inv files arrays) :
    ∃ flat', exec Flat.handler (lockedWrite write.inode write.src write.offset) arrays.flat =
        .returned (write.src.length : ℤ) flat' ∧
      Inv files ⟨flat', Function.update arrays.bytes write.inode
        (splice (arrays.bytes write.inode) write.offset write.src)⟩ := by
  have judged : wp (Flat.rules Enough (fun _ _ => False) fun _ => False)
      (lockedWrite write.inode write.src write.offset)
      (fun ret flat' => ret = write.src.length ∧
        Inv files ⟨flat', Function.update arrays.bytes write.inode
          (splice (arrays.bytes write.inode) write.offset write.src)⟩) arrays.flat :=
    wp_lockedWrite inv good.file good.inside good.bound (fun _ enough => enough rfl)
      fun _ inv' => ⟨rfl, inv'⟩
  obtain ⟨ret, flat', returned, isRet, inv'⟩ := exec_returns judged good.enough
  exact ⟨flat', by rw [returned, isRet], inv'⟩

theorem inv_step {write : Write} {arrays' : Arrays} (inv : Inv files arrays)
    (good : Good files arrays write) (stepped : step arrays write = some arrays') :
    Inv files arrays' := by
  obtain ⟨flat', returned, inv'⟩ := good.returns inv
  unfold step at stepped
  rw [returned] at stepped
  cases stepped
  exact inv'

/--
After any writes to regular files of a freshly formatted file system, the size of each file is
the length of its array, `readi` returns the bytes of the array, and every further write
returns.
-/
theorem files_are_arrays (files : InodeId → Prop) (flat : Flat) (fresh : Fresh files flat)
    (arrays : Arrays) (reach : Reach step (Good files) ⟨flat, fun _ => []⟩ arrays) :
    (∀ i, files i → (arrays.flat.core.inodes i).size = (arrays.bytes i).length ∧
      ∀ p offset nbytes, offset + nbytes ≤ (arrays.bytes i).length →
        ∃ flat', exec Flat.handler (lockedRead p i offset nbytes) arrays.flat =
          .returned ((nbytes : ℤ), ((arrays.bytes i).drop offset).take nbytes) flat') ∧
    ∀ write, Good files arrays write →
      ∃ flat', exec Flat.handler (lockedWrite write.inode write.src write.offset) arrays.flat =
        .returned (write.src.length : ℤ) flat' := by
  have inv : Inv files arrays := reach.invariant (inv_fresh fresh)
    fun inv good stepped => inv_step inv good stepped
  refine ⟨fun i isFile => ⟨inv.size i isFile, ?_⟩, ?_⟩
  · intro p offset nbytes inside
    have judged : wp (Flat.rules (fun _ _ => True) (fun _ _ => False) fun _ => False)
        (lockedRead p i offset nbytes)
        (fun result _ => result = ((nbytes : ℤ), ((arrays.bytes i).drop offset).take nbytes))
        arrays.flat := wp_lockedRead inv isFile inside fun _ => rfl
    obtain ⟨result, flat', returned, isResult⟩ :=
      exec_returns judged (along_of_forall (fun _ _ _ _ => trivial) _ _)
    exact ⟨flat', by rw [returned, isResult]⟩
  · intro write good
    obtain ⟨flat', returned, -⟩ := good.returns inv
    exact ⟨flat', returned⟩

/-! ## A small file system -/

/-- Five zones are free. -/
def smallSuper : Super := ⟨10, 1, 1, 5⟩

/-- The zone map of the small file system. -/
def smallMap : Block := fun byte => if byte = 0 then 0xc1 else 0xff

/-- An empty file in the first slot. -/
def smallFlat : Flat where
  core := (Core.init smallSuper).setInode 0 fun old =>
    { old with dev := rootDev, mode := sIfreg }
  disk _ block := if block = 3 then smallMap else fun _ => 0

theorem smallMap_clear {bit : ℕ} (isClear : smallMap.getBit bit = false) : 0 < bit ∧ bit < 6 := by
  unfold Block.getBit smallMap at isClear
  have less : bit % 8 < 8 := Nat.mod_lt _ (by decide)
  by_cases isFirst : bit / 8 = 0
  · have isSmall : bit < 8 := by omega
    rw [if_pos isFirst] at isClear
    interval_cases bit <;> revert isClear <;> decide
  · rw [if_neg isFirst] at isClear
    exfalso
    generalize bit % 8 = b at *
    interval_cases b <;> revert isClear <;> decide

theorem zmap_smallFlat {bit : ℕ} (inMap : bit < smallSuper.zmapBlocks * blockBits)
    (isClear : smallSuper.zmap smallFlat.root bit = false) : 0 < bit ∧ bit < 6 := by
  have isMap : smallSuper.zmap smallFlat.root bit = smallMap.getBit bit := by
    have less : bit < blockBits := by
      rw [show smallSuper.zmapBlocks = 1 from rfl, Nat.one_mul] at inMap
      exact inMap
    rw [Super.zmap, Super.zmapBlock, Nat.div_eq_of_lt less, Nat.mod_eq_of_lt less]
    rfl
  rw [isMap] at isClear
  exact smallMap_clear isClear

theorem fresh_smallFlat : Fresh (· = 0) smallFlat where
  layout := by
    constructor <;> simp only [smallFlat, Core.init, Core.setInode, smallSuper] <;> decide
  formatted := by
    intro bit inMap isClear
    obtain ⟨positive, less⟩ := zmap_smallFlat inMap isClear
    refine ⟨positive, ?_⟩
    change 4 + bit < 10
    omega
  zero := by
    intro bit inMap isClear byte _
    obtain ⟨positive, less⟩ := zmap_smallFlat inMap isClear
    change (if 4 + bit = 3 then smallMap else fun _ => 0) byte = 0
    rw [if_neg (by omega)]
  regular := by
    rintro i rfl
    exact ⟨rfl, rfl, rfl⟩
  empty := by
    rintro i rfl
    exact ⟨rfl, rfl, rfl⟩

/-- A second empty file. -/
def twoFiles : Flat := smallFlat.setInode 1 fun old => { old with dev := rootDev, mode := sIfreg }

theorem fresh_twoFiles : Fresh (fun i => i = 0 ∨ i = 1) twoFiles where
  layout := fresh_smallFlat.layout
  formatted := fresh_smallFlat.formatted
  zero := fresh_smallFlat.zero
  regular := by rintro i (rfl | rfl) <;> exact ⟨rfl, rfl, rfl⟩
  empty := by rintro i (rfl | rfl) <;> exact ⟨rfl, rfl, rfl⟩

/-- A decidable form of `Good`. -/
def checkGood (arrays : Arrays) (write : Write) : Bool :=
  decide (write.inode = 0 ∨ write.inode = 1) &&
    decide ((write.offset : ℤ) ≤ (arrays.flat.core.inodes write.inode).size) &&
    decide (write.offset + write.src.length ≤ maxBlocks * blockSize) &&
    checkAlong Flat.handler
      (fun operation _ => match operation with
        | .mark event => decide (event ≠ .noZone)
        | _ => true) (lockedWrite write.inode write.src write.offset) arrays.flat

theorem good_of_checkGood {write : Write} (checked : checkGood arrays write = true) :
    Good (fun i => i = 0 ∨ i = 1) arrays write := by
  simp only [checkGood, Bool.and_eq_true, decide_eq_true_eq] at checked
  rcases checked with ⟨⟨⟨isFile, inside⟩, bound⟩, along⟩
  refine ⟨isFile, inside, bound, along_of_checkAlong ?_ along⟩
  rintro operation flat isGood event rfl
  simpa [Enough] using isGood

/-- The last write goes on where the first ended, across the end of a block. -/
def twoWrites : List Write :=
  [⟨0, List.replicate 1020 7, 0⟩, ⟨1, [9], 0⟩, ⟨0, [1, 2, 3, 4, 5, 6, 7, 8], 1020⟩]

theorem files_are_arrays_twoFiles :
    ∃ arrays, Reach step (Good fun i => i = 0 ∨ i = 1) ⟨twoFiles, fun _ => []⟩ arrays ∧
      (∃ flat', exec Flat.handler (lockedRead 0 0 1018 8) arrays.flat =
        .returned (8, [7, 7, 1, 2, 3, 4, 5, 6]) flat') ∧
      ∃ flat', exec Flat.handler (lockedRead 0 1 0 1) arrays.flat = .returned (1, [9]) flat' := by
  have observed : (runChecked step checkGood ⟨twoFiles, fun _ => []⟩ twoWrites).any
      (fun arrays => decide (1018 + 8 ≤ (arrays.bytes 0).length) &&
        decide (((arrays.bytes 0).drop 1018).take 8 = [7, 7, 1, 2, 3, 4, 5, 6]) &&
        decide (arrays.bytes 1 = [9])) = true := by
    decide +kernel
  obtain ⟨arrays, reach, isObserved⟩ :=
    reach_of_observedChecked (fun _ _ => good_of_checkGood) observed
  simp only [Bool.and_eq_true, decide_eq_true_eq] at isObserved
  obtain ⟨⟨isLong, isFirst⟩, isSecond⟩ := isObserved
  have reads := (files_are_arrays _ twoFiles fresh_twoFiles arrays reach).1
  obtain ⟨flat₀, first⟩ := (reads 0 (Or.inl rfl)).2 0 1018 8 isLong
  obtain ⟨flat₁, second⟩ := (reads 1 (Or.inr rfl)).2 0 0 1 (by rw [isSecond]; decide)
  rw [isFirst] at first
  rw [isSecond] at second
  exact ⟨arrays, reach, ⟨flat₀, first⟩, ⟨flat₁, second⟩⟩

end Arrays

end Osix
