import Osix.Fs.References
import Osix.Fs.Trunc

/-!
# Truncation of device nodes

The first zone pointer of a device node holds the number of the device. `itrunc` does not look at
the type of an inode, so it frees the zone of that number and clears it. `device_kept_iff` says
when `sys_open` with `O_TRUNC` and the last `iput` leave the zone map and the number alone all the
same.
-/

namespace Osix

open Program Fs

/-- The zone maps of two states are the same. -/
structure ZoneMapKept (before after : Flat) : Prop where
  sameSuper : after.core.super = before.core.super
  bits : ∀ bit < before.core.super.zmapBlocks * blockBits,
    before.core.super.zmap after.root bit = before.core.super.zmap before.root bit

/-- The inode in a slot is a character or block device that nobody works on. -/
structure DeviceNode (flat : Flat) (i : InodeId) : Prop where
  type : fileType (flat.core.inodes i).mode = sIfchr ∨ fileType (flat.core.inodes i).mode = sIfblk
  isRoot : (flat.core.inodes i).dev = rootDev
  unlocked : (flat.core.inodes i).lock = false
  onlyDirect : ∀ index ≠ 0, (flat.core.inodes i).direct index = 0
  noIndirect : (flat.core.inodes i).indirect = 0

theorem finRange_ndirect :
    ∃ rest, List.finRange ndirect = 0 :: rest ∧ ∀ index ∈ rest, index ≠ 0 :=
  ⟨(List.finRange ndirect).tail, rfl, by decide⟩

namespace Flat

/-- The number of the device. -/
def deviceNumber (flat : Flat) (i : InodeId) : ℕ := (flat.core.inodes i).direct 0

@[simp]
theorem deviceNumber_setFile (flat : Flat) (f : FileId) (change : File → File) (i : InodeId) :
    (flat.setFile f change).deviceNumber i = flat.deviceNumber i := rfl

/-- What `itrunc` makes of an inode whose zones have been given back. -/
def erased (flat : Flat) (i : InodeId) : Flat :=
  (flat.setInode i fun old => { old with
    size := 0, direct := fun _ => 0, dirty := true }).saved i

/-- The bit of a zone that `bfree` clears is not one of the zone map, but it is set. -/
def MarkedBeyond (flat : Flat) (zone : ℕ) : Prop :=
  1 ≤ zone ∧ zone ≤ flat.core.super.nzones ∧
    flat.core.super.zmapBlocks * blockBits ≤ flat.core.super.zoneIndex zone ∧
    flat.core.super.zmap flat.root (flat.core.super.zoneIndex zone) = true

/-! ## What `itrunc` does -/

section

variable {spec : Spec (FsOp FlatBuf) FsOp.Reply Flat} {allowed : Stop → Flat → Prop}
  [judges : Judges spec allowed] {flat : Flat} {i : InodeId} {post : Unit → Flat → Prop}

include judges

theorem wp_itruncDirect_zeros {zones : List (Fin ndirect)}
    (zeros : ∀ index ∈ zones, (flat.core.inodes i).direct index = 0) :
    wp spec (itruncDirect i zones) post flat ↔ post () flat := by
  induction zones with
  | nil => exact Iff.rfl
  | cons index rest ih =>
      have isZero := zeros index List.mem_cons_self
      have restZero : ∀ other ∈ rest, (flat.core.inodes i).direct other = 0 :=
        fun other isIn => zeros other (List.mem_cons_of_mem _ isIn)
      simp only [itruncDirect, wp_bind, wp_getInode, wp_when, isZero, ne_eq, not_true_eq_false,
        if_false]
      exact ih restZero

/-- `itrunc` of an inode that has no zones. -/
theorem wp_itrunc_zoneless (locked : (flat.core.inodes i).lock = true)
    (zoneless : ∀ index, (flat.core.inodes i).direct index = 0)
    (noIndirect : (flat.core.inodes i).indirect = 0) :
    wp spec (itrunc i) post flat ↔ post () (flat.erased i) := by
  have isErased : ((flat.setData i fun old => { old with size := 0 }).setInode i fun old =>
      { old with dirty := true }) =
        flat.setInode i fun old =>
          { old with size := 0, direct := fun _ => 0, dirty := true } := by
    have isZero : (flat.core.inodes i).direct = fun _ => 0 := funext zoneless
    simp only [setData, setInode, Core.setInode, Function.update_self, Function.update_idem,
      isZero]
  simp only [itrunc, wp_bind, wp_getInode, locked, Bool.not_true, Bool.false_eq_true, if_false,
    wp_itruncDirect_zeros fun index _ => zoneless index, wp_when, noIndirect, ne_eq,
    not_true_eq_false, wp_setData, wp_setDirty, wp_iupdate_iff, isErased]
  simp [erased]

/-- `itrunc` of an inode whose only zone is the first. -/
theorem wp_itrunc_onlyDirect (locked : (flat.core.inodes i).lock = true)
    (isRoot : (flat.core.inodes i).dev = rootDev)
    (onlyDirect : ∀ index ≠ 0, (flat.core.inodes i).direct index = 0)
    (noIndirect : (flat.core.inodes i).indirect = 0) (hasNumber : flat.deviceNumber i ≠ 0) :
    wp spec (itrunc i) post flat ↔
      if flat.core.super.nzones < flat.deviceNumber i then allowed (.panic .bfreeBadBlockNo) flat
      else if flat.core.super.zmap flat.root (flat.core.super.zoneIndex (flat.deviceNumber i)) then
        post () ((flat.clearMap rootDev (2 + flat.core.super.imapBlocks)
          (flat.core.super.zoneIndex (flat.deviceNumber i))).erased i)
      else allowed (.panic .bfreeBlockNotAllocated) flat := by
  have isSet : (flat.core.inodes i).direct 0 ≠ 0 := hasNumber
  have inRange : (flat.deviceNumber i < 1 ∨ flat.core.super.nzones < flat.deviceNumber i) ↔
      flat.core.super.nzones < flat.deviceNumber i := by
    omega
  rcases finRange_ndirect with ⟨rest, isList, notFirst⟩
  simp only [itrunc, wp_bind, wp_getInode, locked, Bool.not_true, Bool.false_eq_true, if_false,
    isList, itruncDirect, wp_when, if_pos isSet, isRoot]
  change wp spec (bfree rootDev (flat.deviceNumber i)) _ flat ↔ _
  rw [wp_bfree_iff]
  simp only [inRange]
  split
  · rfl
  have isErased : ∀ next : Flat, next.core = flat.core →
      ((((next.setData i fun old => { old with
        direct := Function.update old.direct 0 0 }).setData i fun old =>
          { old with size := 0 }).setInode i fun old => { old with dirty := true }) =
            next.setInode i fun old =>
              { old with size := 0, direct := fun _ => 0, dirty := true }) := by
    intro next sameCore
    have isZero : Function.update (next.core.inodes i).direct 0 0 = fun _ => 0 := by
      funext index
      rw [sameCore, Function.update_apply]
      split
      · rfl
      · exact onlyDirect index ‹_›
    simp only [setData, setInode, Core.setInode, Function.update_self, Function.update_idem,
      isZero]
  change (if flat.core.super.zmap flat.root _ = true then _ else _) ↔ _
  split
  · generalize isNext : flat.clearMap rootDev (2 + flat.core.super.imapBlocks)
      (flat.core.super.zoneIndex (flat.deviceNumber i)) = next
    have sameCore : next.core = flat.core := by rw [← isNext, clearMap_core]
    have restZero : ∀ index ∈ rest, ((next.setData i fun old => { old with
        direct := Function.update old.direct 0 0 }).core.inodes i).direct index = 0 := by
      intro index isIn
      simp only [setData, setInode_self, sameCore, Function.update_of_ne (notFirst index isIn)]
      exact onlyDirect index (notFirst index isIn)
    have stillNone : ((next.setData i fun old => { old with
        direct := Function.update old.direct 0 0 }).core.inodes i).indirect = 0 := by
      simp only [setData, setInode_self, sameCore, noIndirect]
    simp only [wp_setData, wp_itruncDirect_zeros restZero, stillNone, ne_eq, not_true_eq_false,
      if_false, wp_setDirty, isErased next sameCore, wp_iupdate_iff]
    simp [erased]
  · rfl

end

end Flat

/-! ## What happens to the maps -/

/-- The blocks from `first` up to `last` of the root device are the same. -/
structure BlocksKept (first last : ℕ) (flat flat' : Flat) : Prop where
  sameSuper : flat'.core.super = flat.core.super
  blocks : ∀ block, first ≤ block → block < last → flat'.root block = flat.root block

namespace BlocksKept

variable {first last : ℕ} {flat flat' flat'' : Flat} {i : InodeId}

theorem trans (before : BlocksKept first last flat flat')
    (after : BlocksKept first last flat' flat'') : BlocksKept first last flat flat'' where
  sameSuper := after.sameSuper.trans before.sameSuper
  blocks block isFirst isLast :=
    (after.blocks block isFirst isLast).trans (before.blocks block isFirst isLast)

/-- A change of the tables. -/
theorem of_disk (sameSuper : flat'.core.super = flat.core.super)
    (sameDisk : flat'.disk = flat.disk) : BlocksKept first last flat flat' where
  sameSuper := sameSuper
  blocks block _ _ := by rw [Flat.root, Flat.root, sameDisk]

theorem setBlock {block : ℕ} {data : Block} (outside : block < first ∨ last ≤ block) :
    BlocksKept first last flat (flat.setBlock (rootDev, block) data) where
  sameSuper := rfl
  blocks other isFirst isLast := Flat.root_setBlock_of_ne (by omega)

theorem setInode (change : Inode → Inode) :
    BlocksKept first last flat (flat.setInode i change) := of_disk rfl rfl

theorem clearMap {start bit : ℕ}
    (outside : start + bit / blockBits < first ∨ last ≤ start + bit / blockBits) :
    BlocksKept first last flat (flat.clearMap rootDev start bit) := setBlock outside

/-- The record of an inode is behind the maps. -/
theorem saved (isRoot : (flat.core.inodes i).dev = rootDev)
    (inMaps : last ≤ 2 + flat.core.super.imapBlocks + flat.core.super.zmapBlocks) :
    BlocksKept first last flat (flat.saved i) := by
  have isBlock : flat.recordBlock i =
      (rootDev, inodeBlock flat.core.super (flat.core.inodes i).inodeno) := by
    rw [Flat.recordBlock, isRoot]
  unfold Flat.saved
  rw [isBlock]
  refine (setBlock (Or.inr ?_)).trans (of_disk rfl rfl)
  unfold inodeBlock firstBlk
  exact inMaps.trans (Nat.le_add_right _ _)

theorem erased (isRoot : (flat.core.inodes i).dev = rootDev)
    (inMaps : last ≤ 2 + flat.core.super.imapBlocks + flat.core.super.zmapBlocks) :
    BlocksKept first last flat (flat.erased i) := by
  refine (setInode _).trans (saved ?_ inMaps)
  rw [Flat.setInode_self]
  exact isRoot

/-- The zone map lies between the inode map and the inodes. -/
theorem zoneMap (kept : BlocksKept (2 + flat.core.super.imapBlocks)
    (2 + flat.core.super.imapBlocks + flat.core.super.zmapBlocks) flat flat') :
    ZoneMapKept flat flat' where
  sameSuper := kept.sameSuper
  bits bit inMap := by
    have inside : bit / blockBits < flat.core.super.zmapBlocks :=
      Nat.div_lt_of_lt_mul (by rwa [Nat.mul_comm])
    unfold Super.zmap Super.zmapBlock
    rw [kept.blocks _ (Nat.le_add_right _ _) (Nat.add_lt_add_left inside _)]

theorem inodeMap (kept : BlocksKept 2 (2 + flat.core.super.imapBlocks) flat flat') {bit : ℕ}
    (inMap : bit / blockBits < flat.core.super.imapBlocks) :
    mapBit flat'.root 2 bit = mapBit flat.root 2 bit := by
  unfold mapBit
  rw [kept.blocks _ (Nat.le_add_right _ _) (Nat.add_lt_add_left inMap _)]

end BlocksKept

namespace ZoneMapKept

variable {flat flat' flat'' : Flat}

/-- A change of the tables. -/
theorem of_disk (sameSuper : flat'.core.super = flat.core.super)
    (sameDisk : flat'.disk = flat.disk) : ZoneMapKept flat flat' :=
  BlocksKept.zoneMap (.of_disk sameSuper sameDisk)

theorem trans (first : ZoneMapKept flat flat') (second : ZoneMapKept flat' flat'') :
    ZoneMapKept flat flat'' where
  sameSuper := second.sameSuper.trans first.sameSuper
  bits bit inMap := by
    have sameSecond := second.bits bit (first.sameSuper.symm ▸ inMap)
    rw [first.sameSuper] at sameSecond
    exact sameSecond.trans (first.bits bit inMap)

theorem erased {i : InodeId} (isRoot : (flat.core.inodes i).dev = rootDev) :
    ZoneMapKept flat (flat.erased i) :=
  BlocksKept.zoneMap (.erased isRoot le_rfl)

end ZoneMapKept

/-! ## The last reference -/

namespace Flat

/-- What `ireclaim` makes of an inode after `itrunc`. -/
def reclaimed (flat : Flat) (i : InodeId) : Flat :=
  (((flat.setInode i fun old => { old with lock := false, wanted := false }).clearMap rootDev 2
    ((flat.core.inodes i).inodeno - 1)).setInode i fun old => { old with dirty := true }).saved i

/-- The bit of the inode map that `ifree` clears is set. -/
structure Freeable (flat : Flat) (i : InodeId) : Prop where
  positive : 1 ≤ (flat.core.inodes i).inodeno
  inMap : ((flat.core.inodes i).inodeno - 1) / blockBits < flat.core.super.imapBlocks
  isSet : mapBit flat.root 2 ((flat.core.inodes i).inodeno - 1) = true

variable {flat flat' : Flat} {i : InodeId}

/-- `ireclaim` after `itrunc`. -/
def reclaimTail (i : InodeId) : FsM FlatBuf Unit := do
  iunlock i
  let node ← getInode i
  ifree node.dev node.inodeno
  setDirty i true
  iupdate i
  mark (.drops i)

theorem ireclaim_eq (i : InodeId) :
    (ireclaim i : FsM FlatBuf Unit) = (do
      mark (.uses i)
      ilock i
      itrunc i
      reclaimTail i) := rfl

theorem wp_reclaimed {post : Unit → Flat → Prop} (locked : (flat.core.inodes i).lock = true)
    (isRoot : (flat.core.inodes i).dev = rootDev) (freeable : flat.Freeable i) :
    wp surely (reclaimTail i) post flat ↔ post () (flat.reclaimed i) := by
  have notZero : ¬(flat.core.inodes i).inodeno < 1 := Nat.not_lt.mpr freeable.positive
  have inMap := Nat.not_le.mpr freeable.inMap
  have isSet : mapBit (flat.disk rootDev) 2 ((flat.core.inodes i).inodeno - 1) = true :=
    freeable.isSet
  simp only [reclaimTail, wp_bind, wp_iunlock, locked, if_true, wp_getInode, setInode_self, isRoot,
    wp_ifree_iff, setInode_super, setInode_disk, if_neg notZero, if_neg inMap, if_pos isSet]
  simp only [wp_setDirty, wp_iupdate_iff, setInode_self, if_true, wp_mark, true_imp_iff]
  rfl

theorem zoneMapKept_reclaimed (isRoot : (flat.core.inodes i).dev = rootDev)
    (freeable : flat.Freeable i) : ZoneMapKept flat (flat.reclaimed i) := by
  have behind : 2 + ((flat.core.inodes i).inodeno - 1) / blockBits <
      2 + flat.core.super.imapBlocks := Nat.add_lt_add_left freeable.inMap _
  refine BlocksKept.zoneMap ?_
  refine (((BlocksKept.setInode _).trans (.clearMap (Or.inl behind))).trans (.setInode _)).trans
    (.saved ?_ le_rfl)
  rw [setInode_self, clearMap_core, setInode_self]
  exact isRoot

/-- `itrunc` leaves what `ifree` needs. -/
theorem Freeable.erased {next : Flat} (freeable : flat.Freeable i) (sameCore : next.core = flat.core)
    (kept : BlocksKept 2 (2 + flat.core.super.imapBlocks) flat next)
    (isRoot : (flat.core.inodes i).dev = rootDev) : (next.erased i).Freeable i := by
  have sameNumber : ((next.erased i).core.inodes i).inodeno = (flat.core.inodes i).inodeno := by
    simp [Flat.erased, Flat.saved, sameCore]
  have sameSuper : (next.erased i).core.super = flat.core.super := kept.sameSuper
  have erasedKept : BlocksKept 2 (2 + flat.core.super.imapBlocks) flat (next.erased i) := by
    refine kept.trans (.erased ?_ ?_)
    · rw [sameCore]
      exact isRoot
    · rw [sameCore]
      exact Nat.le_add_right _ _
  refine ⟨?_, ?_, ?_⟩
  · rw [sameNumber]
    exact freeable.positive
  · rw [sameNumber, sameSuper]
    exact freeable.inMap
  · rw [sameNumber, erasedKept.inodeMap freeable.inMap]
    exact freeable.isSet

end Flat

/-- Nobody uses the inode any more and no directory names it. -/
structure LastReference (flat : Flat) (i : InodeId) : Prop where
  refcount : (flat.core.inodes i).refcount = 1
  unlinked : (flat.core.inodes i).nlinks = 0
  freeable : flat.Freeable i

section

variable {flat : Flat} {i : InodeId}

/-- Giving an inode back whose only zone pointer is the first, and which is locked. -/
theorem wp_itrunc_reclaimTail {post : Flat → Prop} (locked : (flat.core.inodes i).lock = true)
    (isRoot : (flat.core.inodes i).dev = rootDev)
    (onlyDirect : ∀ index ≠ 0, (flat.core.inodes i).direct index = 0)
    (noIndirect : (flat.core.inodes i).indirect = 0) (freeable : flat.Freeable i) :
    wp Flat.surely (itrunc i)
        (fun _ next => wp Flat.surely (Flat.reclaimTail i) (fun _ flat' => post flat') next) flat ↔
      if flat.deviceNumber i = 0 then post ((flat.erased i).reclaimed i)
      else if flat.core.super.nzones < flat.deviceNumber i then False
      else if flat.core.super.zmap flat.root (flat.core.super.zoneIndex (flat.deviceNumber i)) then
        post (((flat.clearMap rootDev (2 + flat.core.super.imapBlocks)
          (flat.core.super.zoneIndex (flat.deviceNumber i))).erased i).reclaimed i)
      else False := by
  have reclaims : ∀ next : Flat, next.core = flat.core →
      BlocksKept 2 (2 + flat.core.super.imapBlocks) flat next →
        (wp Flat.surely (Flat.reclaimTail i) (fun _ flat' => post flat') (next.erased i) ↔
          post ((next.erased i).reclaimed i)) := by
    intro next sameCore kept
    refine Flat.wp_reclaimed ?_ ?_ (freeable.erased sameCore kept isRoot)
    · simp [Flat.erased, Flat.saved, sameCore, locked]
    · simp [Flat.erased, Flat.saved, sameCore, isRoot]
  by_cases noNumber : flat.deviceNumber i = 0
  · have zoneless : ∀ index, (flat.core.inodes i).direct index = 0 := by
      intro index
      by_cases isFirst : index = 0
      · rw [isFirst]
        exact noNumber
      · exact onlyDirect index isFirst
    rw [if_pos noNumber, Flat.wp_itrunc_zoneless locked zoneless noIndirect]
    exact reclaims flat rfl (.of_disk rfl rfl)
  · rw [if_neg noNumber,
      Flat.wp_itrunc_onlyDirect locked isRoot onlyDirect noIndirect noNumber]
    have sameMap : BlocksKept 2 (2 + flat.core.super.imapBlocks) flat
        (flat.clearMap rootDev (2 + flat.core.super.imapBlocks)
          (flat.core.super.zoneIndex (flat.deviceNumber i))) :=
      .clearMap (Or.inr (Nat.le_add_right _ _))
    rw [reclaims _ Flat.clearMap_core sameMap]

/-- A bit of the zone map that is cleared is missed, one beyond it is not. -/
theorem zoneMapKept_clearMap_iff {next : Flat} {bit : ℕ}
    (marked : flat.core.super.zmap flat.root bit = true)
    (kept : ZoneMapKept (flat.clearMap rootDev (2 + flat.core.super.imapBlocks) bit) next) :
    ZoneMapKept flat next ↔ flat.core.super.zmapBlocks * blockBits ≤ bit := by
  constructor
  · intro unchanged
    by_contra inside
    have stillSet := unchanged.bits bit (Nat.not_le.mp inside)
    have isCleared := kept.bits bit (Nat.not_le.mp inside)
    have isClear : flat.core.super.zmap
        (flat.clearMap rootDev (2 + flat.core.super.imapBlocks) bit).root bit = false := by
      have isBit := @Flat.mapBit_clearMap flat rootDev (2 + flat.core.super.imapBlocks) bit bit
      rw [decide_eq_true rfl, Bool.not_true, Bool.false_and] at isBit
      exact isBit
    rw [marked] at stillSet
    rw [Flat.clearMap_core, stillSet, isClear] at isCleared
    cases isCleared
  · intro beyond
    refine ZoneMapKept.trans (BlocksKept.zoneMap (.clearMap (Or.inr ?_))) kept
    rw [Nat.add_assoc, Nat.add_assoc]
    exact Nat.add_le_add_left (Nat.add_le_add_left
      ((Nat.le_div_iff_mul_le (by decide)).mpr beyond) _) _

theorem zoneMapKept_erased_reclaimed (isRoot : (flat.core.inodes i).dev = rootDev)
    (freeable : (flat.erased i).Freeable i) : ZoneMapKept flat ((flat.erased i).reclaimed i) := by
  refine (ZoneMapKept.erased isRoot).trans (Flat.zoneMapKept_reclaimed ?_ freeable)
  simp [Flat.erased, Flat.saved, isRoot]

/-- When giving an inode back leaves the zone map alone. -/
theorem reclaim_kept_iff (locked : (flat.core.inodes i).lock = true)
    (isRoot : (flat.core.inodes i).dev = rootDev)
    (onlyDirect : ∀ index ≠ 0, (flat.core.inodes i).direct index = 0)
    (noIndirect : (flat.core.inodes i).indirect = 0) (freeable : flat.Freeable i) :
    wp Flat.surely (itrunc i)
        (fun _ next => wp Flat.surely (Flat.reclaimTail i)
          (fun _ flat' => ZoneMapKept flat flat') next) flat ↔
      flat.deviceNumber i = 0 ∨ flat.MarkedBeyond (flat.deviceNumber i) := by
  rw [wp_itrunc_reclaimTail locked isRoot onlyDirect noIndirect freeable]
  split
  · rename_i noNumber
    exact iff_of_true (zoneMapKept_erased_reclaimed isRoot
      (freeable.erased rfl (.of_disk rfl rfl) isRoot)) (Or.inl noNumber)
  rename_i hasNumber
  split
  · rename_i tooFar
    refine iff_of_false id ?_
    rintro (noNumber | marked)
    · exact hasNumber noNumber
    · exact absurd marked.2.1 (Nat.not_le.mpr tooFar)
  rename_i inRange
  split
  · rename_i isSet
    have sameMap : BlocksKept 2 (2 + flat.core.super.imapBlocks) flat
        (flat.clearMap rootDev (2 + flat.core.super.imapBlocks)
          (flat.core.super.zoneIndex (flat.deviceNumber i))) :=
      .clearMap (Or.inr (Nat.le_add_right _ _))
    rw [zoneMapKept_clearMap_iff isSet (zoneMapKept_erased_reclaimed isRoot
      (freeable.erased Flat.clearMap_core sameMap isRoot))]
    constructor
    · exact fun beyond =>
        Or.inr ⟨Nat.one_le_iff_ne_zero.mpr hasNumber, Nat.not_lt.mp inRange, beyond, isSet⟩
    · rintro (noNumber | marked)
      · exact absurd noNumber hasNumber
      · exact marked.2.2.1
  · rename_i isClear
    refine iff_of_false id ?_
    rintro (noNumber | marked)
    · exact hasNumber noNumber
    · exact isClear marked.2.2.2

theorem iput_device_iff (device : DeviceNode flat i) (last : LastReference flat i) :
    (∃ flat', exec Flat.handler (iput i) flat = .returned () flat' ∧ ZoneMapKept flat flat') ↔
      flat.deviceNumber i = 0 ∨ flat.MarkedBeyond (flat.deviceNumber i) := by
  have isWp : (∃ flat', exec Flat.handler (iput i) flat = .returned () flat' ∧
      ZoneMapKept flat flat') ↔
        wp Flat.surely (iput i) (fun _ flat' => ZoneMapKept flat flat') flat := by
    rw [Flat.wp_surely_iff]
    exact ⟨fun ⟨flat', holds⟩ => ⟨(), flat', holds⟩, fun ⟨_, flat', holds⟩ => ⟨flat', holds⟩⟩
  generalize isStart : (flat.setInode i fun old => { old with
    refcount := old.refcount - 1 }).setInode i (fun old => { old with lock := true }) = start
  have isNode : start.core.inodes i =
      { flat.core.inodes i with refcount := 0, lock := true } := by
    simp [← isStart, last.refcount]
  have sameDisk : start.disk = flat.disk := by
    rw [← isStart, Flat.setInode_disk, Flat.setInode_disk]
  have sameSuper : start.core.super = flat.core.super := by
    rw [← isStart, Flat.setInode_super, Flat.setInode_super]
  have freeable : start.Freeable i := by
    refine ⟨?_, ?_, ?_⟩
    · rw [isNode]
      exact last.freeable.positive
    · rw [isNode, sameSuper]
      exact last.freeable.inMap
    · rw [isNode, Flat.root, sameDisk]
      exact last.freeable.isSet
  have same_kept : ∀ next, ZoneMapKept flat next ↔ ZoneMapKept start next := by
    intro next
    exact ⟨(ZoneMapKept.of_disk sameSuper.symm sameDisk.symm).trans,
      (ZoneMapKept.of_disk sameSuper sameDisk).trans⟩
  have same_marked : flat.MarkedBeyond (flat.deviceNumber i) ↔
      start.MarkedBeyond (start.deviceNumber i) := by
    simp only [Flat.MarkedBeyond, Flat.deviceNumber, isNode, sameSuper, Flat.root, sameDisk]
  have same_number : flat.deviceNumber i = 0 ↔ start.deviceNumber i = 0 := by
    simp only [Flat.deviceNumber, isNode]
  rw [isWp, same_marked, same_number, ← reclaim_kept_iff (by rw [isNode])
    (by rw [isNode]; exact device.isRoot) (by rw [isNode]; exact device.onlyDirect)
    (by rw [isNode]; exact device.noIndirect) freeable]
  simp only [iput, wp_bind, Flat.wp_iunref, last.refcount, device.unlocked, one_ne_zero,
    Bool.false_eq_true, or_self, if_false, decide_true, wp_when, if_true, Flat.wp_getInode,
    Flat.setInode_self, last.unlinked, Flat.ireclaim_eq, Flat.wp_mark, true_imp_iff, Flat.wp_ilock,
    isStart, same_kept]

/-! ## Opening with `O_TRUNC` -/

/-- Neither the zone map nor the number of the device has changed. -/
def DeviceKept (i : InodeId) (before after : Flat) : Prop :=
  ZoneMapKept before after ∧ after.deviceNumber i = before.deviceNumber i

variable {f : FileId} {p : ProcId} {flags : ℕ}

/-- What `sys_open` does after `itrunc` concerns neither the disk nor the number. -/
theorem wp_iunlock_fileFdAlloc {next : Flat} (locked : (next.core.inodes i).lock = true) :
    wp Flat.surely (do
        iunlock i
        fileFdAlloc p f) (fun _ flat' => DeviceKept i flat flat') next ↔
      DeviceKept i flat next := by
  have same : ∀ flat' : Flat, flat'.core.super = next.core.super → flat'.disk = next.disk →
      flat'.deviceNumber i = next.deviceNumber i →
        (DeviceKept i flat flat' ↔ DeviceKept i flat next) := by
    intro flat' sameSuper sameDisk sameNumber
    unfold DeviceKept
    rw [sameNumber]
    refine and_congr_left fun _ => ⟨fun kept => kept.trans ?_, fun kept => kept.trans ?_⟩
    · exact .of_disk sameSuper.symm sameDisk.symm
    · exact .of_disk sameSuper sameDisk
  have sameNumber : (next.setInode i fun old =>
      { old with lock := false, wanted := false }).deviceNumber i = next.deviceNumber i := by
    rw [Flat.deviceNumber, Flat.setInode_self, Flat.deviceNumber]
  simp only [fileFdAlloc, wp_bind, Flat.wp_iunlock, locked, if_true, Flat.wp_getProc]
  split
  · simp only [wp_bind, Flat.wp_setProc, wp_pure]
    exact same _ rfl rfl sameNumber
  · exact same _ rfl rfl sameNumber

/-- `itrunc` leaves the file alone, so that it still has its inode. -/
theorem wp_iunlockAgain {start : Flat} {post : Unit → Flat → Prop}
    (isFile : (start.core.files f).inode = some i) :
    wp Flat.surely (do
        itrunc i
        iunlockPtr (← inodeAgain f i)) post start ↔
      wp Flat.surely (do
        itrunc i
        iunlock i) post start := by
  have sameTables : ∀ {value : Unit} {next : Flat},
      exec Flat.handler (itrunc i) start = .returned value next →
        (next.core.files f).inode = some i := by
    intro value next truncated
    rw [(Flat.sameTables_of_returned ((Uses.itrunc i).more (by simp)) truncated).files]
    exact isFile
  simp only [wp_bind]
  rw [Flat.wp_surely_iff, Flat.wp_surely_iff]
  refine exists_congr fun value => exists_congr fun next => and_congr_right fun truncated => ?_
  simp only [Flat.wp_inodeAgain, Flat.wp_iunlockPtr, sameTables truncated, forall_const]

theorem openTrunc_device_iff (device : DeviceNode flat i)
    (isFile : (flat.core.files f).inode = some i) (truncates : flags &&& oTrunc ≠ 0) :
    wp Flat.surely (do
        openTrunc f i flags
        fileFdAlloc p f) (fun _ flat' => DeviceKept i flat flat') flat ↔
      flat.deviceNumber i = 0 := by
  generalize isStart : flat.setInode i (fun old => { old with lock := true }) = start
  have isNode : start.core.inodes i = { flat.core.inodes i with lock := true } := by
    rw [← isStart, Flat.setInode_self]
  have locked : (start.core.inodes i).lock = true := by rw [isNode]
  have isRoot : (start.core.inodes i).dev = rootDev := by
    rw [isNode]
    exact device.isRoot
  have onlyDirect : ∀ index ≠ 0, (start.core.inodes i).direct index = 0 := by
    rw [isNode]
    exact device.onlyDirect
  have noIndirect : (start.core.inodes i).indirect = 0 := by
    rw [isNode]
    exact device.noIndirect
  have sameNumber : start.deviceNumber i = flat.deviceNumber i := by
    rw [Flat.deviceNumber, isNode, Flat.deviceNumber]
  have isOpen : wp Flat.surely (do
        openTrunc f i flags
        fileFdAlloc p f) (fun _ flat' => DeviceKept i flat flat') flat ↔
      wp Flat.surely (itrunc i) (fun _ next => wp Flat.surely (do
        iunlock i
        fileFdAlloc p f) (fun _ flat' => DeviceKept i flat flat') next) start := by
    have again := @wp_iunlockAgain i f start
      (fun _ next => wp Flat.surely (fileFdAlloc p f) (fun _ flat' => DeviceKept i flat flat') next)
      (by rw [← isStart]; exact isFile)
    simp only [wp_bind] at again ⊢
    simp only [openTrunc, if_pos truncates, wp_bind, Flat.wp_mark, true_imp_iff, Flat.wp_ilock,
      device.unlocked, Bool.false_eq_true, if_false, isStart]
    exact again
  have erased_number : ∀ next : Flat, (next.erased i).deviceNumber i = 0 := by
    intro next
    simp [Flat.deviceNumber, Flat.erased, Flat.saved]
  have erased_locked : ∀ next : Flat, next.core = start.core →
      ((next.erased i).core.inodes i).lock = true := by
    intro next sameCore
    simp [Flat.erased, Flat.saved, sameCore, locked]
  rw [isOpen]
  by_cases noNumber : start.deviceNumber i = 0
  · have zoneless : ∀ index, (start.core.inodes i).direct index = 0 := by
      intro index
      by_cases isFirst : index = 0
      · rw [isFirst]
        exact noNumber
      · exact onlyDirect index isFirst
    rw [Flat.wp_itrunc_zoneless locked zoneless noIndirect,
      wp_iunlock_fileFdAlloc (erased_locked start rfl), ← sameNumber]
    have isLocked : ZoneMapKept flat start := by
      rw [← isStart]
      exact .of_disk rfl rfl
    refine iff_of_true ⟨isLocked.trans (.erased isRoot), ?_⟩ noNumber
    · rw [erased_number, ← sameNumber, noNumber]
  · rw [Flat.wp_itrunc_onlyDirect locked isRoot onlyDirect noIndirect noNumber,
      wp_iunlock_fileFdAlloc (erased_locked _ Flat.clearMap_core), ← sameNumber]
    have missed : ∀ next : Flat, ¬DeviceKept i flat (next.erased i) := by
      intro next kept
      have isKept := kept.2
      rw [erased_number, ← sameNumber] at isKept
      exact noNumber isKept.symm
    simp only [missed, noNumber, ite_self]

/-- The device node that `namei` has found, and the file entry it is for. -/
structure FoundDevice (flat : Flat) (f : FileId) (i : InodeId) : Prop where
  device : DeviceNode flat i
  referenced : 0 < (flat.core.inodes i).refcount
  linked : 0 < (flat.core.inodes i).nlinks
  type : (flat.core.files f).type = .inode
  refCount : (flat.core.files f).refCount = 1

/-- `iput` of an inode that has links. -/
theorem wp_iput_linked {post : Unit → Flat → Prop}
    (referenced : 0 < (flat.core.inodes i).refcount) (unlocked : (flat.core.inodes i).lock = false)
    (linked : 0 < (flat.core.inodes i).nlinks) :
    wp Flat.surely (iput i) post flat ↔
      post () (flat.setInode i fun old => { old with refcount := old.refcount - 1 }) := by
  have notFree : (flat.core.inodes i).refcount ≠ 0 := Nat.pos_iff_ne_zero.mp referenced
  have notUnlinked : (flat.core.inodes i).nlinks ≠ 0 := Nat.pos_iff_ne_zero.mp linked
  simp only [iput, wp_bind, Flat.wp_iunref, notFree, unlocked, Bool.false_eq_true, or_self,
    if_false, wp_when, Flat.wp_getInode, Flat.setInode_self, notUnlinked, Flat.wp_mark,
    true_imp_iff, ite_self]

/-- Closing the file gives a reference back and nothing else. -/
theorem wp_fileClose_found (found : FoundDevice flat f i)
    (isFile : (flat.core.files f).inode = some i) :
    wp Flat.surely (fileClose f) (fun _ flat' => DeviceKept i flat flat') flat := by
  have isOne : ¬(flat.core.files f).refCount ≤ 0 := by
    rw [found.refCount]
    decide
  have isLast : (flat.core.files f).refCount - 1 = 0 := by
    rw [found.refCount]
    rfl
  simp only [fileClose, wp_bind, Flat.wp_getFile, found.type, inodeFileClose, isOne, if_false,
    Flat.wp_setFile, wp_when, isLast, if_true, isFile, wp_whenSome_some]
  refine (wp_iput_linked ?_ ?_ ?_).mpr ⟨.of_disk rfl rfl, ?_⟩
  · exact found.referenced
  · exact found.device.unlocked
  · exact found.linked
  · rw [Flat.deviceNumber_setFile, Flat.deviceNumber, Flat.setInode_self]
    rfl

theorem openInode_device_iff (found : FoundDevice flat f i)
    (isFile : (flat.core.files f).inode = some i) (truncates : flags &&& oTrunc ≠ 0) :
    wp Flat.surely (openInode p f flags) (fun _ flat' => DeviceKept i flat flat') flat ↔
      flat.core.denies p i (requestMode flags) = true ∨ flat.deviceNumber i = 0 := by
  simp only [openInode, wp_bind, Flat.wp_getFile, isFile, denies, Flat.wp_getCore, wp_pure]
  split
  · rename_i isDenied
    refine iff_of_true ?_ (Or.inl isDenied)
    simp only [wp_bind, wp_pure]
    exact wp_fileClose_found found isFile
  · rename_i isAllowed
    rw [openTrunc_device_iff found.device isFile truncates]
    exact ⟨Or.inr, fun either => either.resolve_left isAllowed⟩

/--
The run of `sys_open` with `O_TRUNC` up to the end of its lookup, which finds a device node. A
path names the inode, so it has a link.
-/
structure OpensDevice (flat : Flat) (p : ProcId) (filename : List Byte) (flags : ℕ) (f : FileId)
    (i : InodeId) (looked : Flat) : Prop where
  named : filename ≠ []
  truncates : flags &&& oTrunc ≠ 0
  lookup : ∃ start name, exec Flat.handler fileAlloc flat = .returned (some f) start ∧
    exec Flat.handler (namei p filename (.file f))
      (start.setFile f fun old => { old with flags := toUchar (old.flags ||| flags : ℕ) }) =
        .returned ⟨0, i, name⟩ looked
  device : DeviceNode looked i
  referenced : 0 < (looked.core.inodes i).refcount
  linked : 0 < (looked.core.inodes i).nlinks

variable {looked : Flat} {filename : List Byte} {mode : ℕ}

theorem OpensDevice.isFile (opens : OpensDevice flat p filename flags f i looked) :
    (looked.core.files f).inode = some i := by
  rcases opens.lookup with ⟨start, name, -, returned⟩
  exact (reached_nameicore (Tallied.refl _) returned).pointer f rfl

theorem OpensDevice.found (opens : OpensDevice flat p filename flags f i looked) :
    FoundDevice looked f i := by
  rcases opens.lookup with ⟨start, name, allocated, returned⟩
  have isNew : start.core.files f = { File.zero with refCount := 1 } := by
    have judged : wp Flat.partly fileAlloc (fun value next => ∀ g, value = some g →
        next.core.files g = { File.zero with refCount := 1 }) flat := by
      refine Flat.wp_fileAlloc (fun g _ h isSame => ?_) fun h isSame => by cases isSame
      cases isSame
      exact Function.update_self ..
    exact Flat.returned_of_partly judged allocated f rfl
  have sameFile := (Flat.sameBut_of_returned (Uses.nameicoreInto p filename false false (.file f))
    returned).entry f
  have isFlags : (start.setFile f fun old =>
      { old with flags := toUchar (old.flags ||| flags : ℕ) }).core.files f =
        { start.core.files f with
          flags := toUchar ((start.core.files f).flags ||| flags : ℕ) } := Function.update_self ..
  refine ⟨opens.device, opens.referenced, opens.linked, ?_, ?_⟩
  · rw [sameFile, isFlags, isNew]
    rfl
  · rw [sameFile, isFlags, isNew]

theorem sysOpen_device_iff (opens : OpensDevice flat p filename flags f i looked) :
    (∃ value flat', exec Flat.handler (sysOpen p filename flags mode) flat =
      .returned value flat' ∧ DeviceKept i looked flat') ↔
      looked.core.denies p i (requestMode flags) = true ∨ looked.deviceNumber i = 0 := by
  rcases opens.lookup with ⟨start, name, allocated, returned⟩
  rw [← openInode_device_iff opens.found opens.isFile opens.truncates, ← Flat.wp_surely_iff]
  unfold sysOpen
  rw [if_neg opens.named, wp_bind, Flat.wp_surely_returned allocated]
  simp only [wp_bind, Flat.wp_setFile]
  rw [Flat.wp_surely_returned returned]
  have notMissing : ¬((0 : ℤ) = -enoent ∧ flags &&& oCreat ≠ 0) := by
    rintro ⟨isMissing, -⟩
    exact absurd isMissing (by decide)
  rw [if_neg notMissing, if_neg (not_not.mpr rfl)]

/--
`sys_open` with `O_TRUNC` leaves the zone map and the number of a device alone exactly if it is
refused or the number is 0, and the last `iput` leaves the zone map alone exactly if the number
is 0 or the number of a zone outside the map.
-/
theorem device_kept_iff :
    (∀ p filename flags mode f looked, OpensDevice flat p filename flags f i looked →
      ((∃ value flat', exec Flat.handler (sysOpen p filename flags mode) flat =
        .returned value flat' ∧ DeviceKept i looked flat') ↔
          looked.core.denies p i (requestMode flags) = true ∨ looked.deviceNumber i = 0)) ∧
    (DeviceNode flat i → LastReference flat i →
      ((∃ flat', exec Flat.handler (iput i) flat = .returned () flat' ∧ ZoneMapKept flat flat') ↔
        flat.deviceNumber i = 0 ∨ flat.MarkedBeyond (flat.deviceNumber i))) :=
  ⟨fun _ _ _ _ _ _ opens => sysOpen_device_iff opens, iput_device_iff⟩

end

/--
A root directory with the entry `tty`, the first terminal, for a process that works in it.
`refcount` and `nlinks` are those of the terminal.
-/
def terminal (refcount nlinks : ℕ) : Flat where
  core :=
    { Core.init ⟨300, 1, 1, 5⟩ with
      inodes := fun i =>
        if i = 0 then
          { Inode.unused with
            mode := 0x41ff, size := 32, nlinks := 1, dev := rootDev, inodeno := 1, refcount := 1
            direct := fun index => if index = 0 then 5 else 0 }
        else if i = 1 then
          { Inode.unused with
            mode := 0x21b6, nlinks := nlinks, dev := rootDev, inodeno := 2, refcount := refcount
            direct := fun index => if index = 0 then 0x100 else 0 }
        else .unused
      procs := fun p =>
        if p = 0 then { Proc.zero with state := .running, cwd := some 0 } else .zero }
  disk := fun _ blockNo =>
    if blockNo = 5 then Block.copy (fun _ => 0) 0 (dirent 2 [116, 116, 121]) else fun _ => 0xFF

theorem opensDevice_terminal :
    ∃ looked, OpensDevice (terminal 0 1) 0 [116, 116, 121] 17 0 1 looked ∧
      looked.deviceNumber 1 = 0x100 ∧ looked.core.denies 0 1 (requestMode 17) = false := by
  refine ⟨_, ⟨by decide, by decide, ⟨_, _, rfl, rfl⟩, ?_, ?_, ?_⟩, rfl, rfl⟩
  · exact ⟨Or.inl rfl, rfl, rfl, by decide, rfl⟩
  · decide
  · decide

theorem deviceNode_terminal : DeviceNode (terminal 1 0) 1 :=
  ⟨Or.inl rfl, rfl, rfl, by decide, rfl⟩

theorem lastReference_terminal : LastReference (terminal 1 0) 1 :=
  ⟨rfl, rfl, ⟨by decide, by decide, rfl⟩⟩

theorem device_kept_terminal :
    (∃ looked, OpensDevice (terminal 0 1) 0 [116, 116, 121] 17 0 1 looked ∧
      ¬∃ value flat', exec Flat.handler (sysOpen 0 [116, 116, 121] 17 0) (terminal 0 1) =
        .returned value flat' ∧ DeviceKept 1 looked flat') ∧
    ((∃ flat', exec Flat.handler (iput 1) (terminal 1 0) = .returned () flat' ∧
      ZoneMapKept (terminal 1 0) flat') ↔ (terminal 1 0).MarkedBeyond 0x100) := by
  rcases opensDevice_terminal with ⟨looked, opens, isNumber, isAllowed⟩
  refine ⟨⟨looked, opens, ?_⟩, ?_⟩
  · rw [device_kept_iff.1 _ _ _ _ _ _ opens, isNumber, isAllowed]
    decide
  · rw [device_kept_iff.2 deviceNode_terminal lastReference_terminal]
    exact or_iff_right (by decide)

/-- The terminal's number is taken for zone 256, which is marked free. -/
theorem terminal_not_kept :
    (∃ looked, OpensDevice (terminal 0 1) 0 [116, 116, 121] 17 0 1 looked ∧
      ¬∃ value flat', exec Flat.handler (sysOpen 0 [116, 116, 121] 17 0) (terminal 0 1) =
        .returned value flat' ∧ DeviceKept 1 looked flat') ∧
    ¬∃ flat', exec Flat.handler (iput 1) (terminal 1 0) = .returned () flat' ∧
      ZoneMapKept (terminal 1 0) flat' := by
  rcases opensDevice_terminal with ⟨looked, opens, isNumber, isAllowed⟩
  refine ⟨⟨looked, opens, ?_⟩, ?_⟩
  · rw [sysOpen_device_iff opens, isNumber, isAllowed]
    decide
  · rw [iput_device_iff deviceNode_terminal lastReference_terminal]
    rintro (noNumber | marked)
    · cases noNumber
    · exact absurd marked.2.2.1 (by decide)

end Osix
