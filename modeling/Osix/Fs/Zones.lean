import Osix.Fs.Bitmaps
import Osix.Lib.Ownership
import Mathlib.Tactic.Ring

/-!
# Zones

The zone map of a file system and the zones that its inodes hold: the direct zones, the
indirect zone and the zones that the indirect block names. `Zones` says that no zone is held
twice and that every zone that is held is marked in the map. `balloc` and `bmap` keep it.

The inodes are a family over an arbitrary type of keys, so that the same results serve for the
inodes in the cache and for all inodes of the file system.
-/

namespace Osix

open Program Ownership

/-! ## Words of a block -/

namespace Block

theorem copy_of_lt {data : Block} {offset byte : ℕ} {bytes : List Byte} (before : byte < offset) :
    data.copy offset bytes byte = data byte := by
  simp [copy, Nat.not_le_of_lt before]

theorem copy_of_ge {data : Block} {offset byte : ℕ} {bytes : List Byte}
    (behind : offset + bytes.length ≤ byte) : data.copy offset bytes byte = data byte := by
  simp [copy, Nat.not_lt_of_le behind]

theorem copy_of_mem {data : Block} {offset index : ℕ} {bytes : List Byte}
    (isIn : index < bytes.length) : data.copy offset bytes (offset + index) = bytes[index] := by
  simp [copy, isIn]

theorem get16_copy_self (data : Block) (offset : ℕ) {value : ℕ} (small : value < 2 ^ 16) :
    (data.copy offset (bytes16 value)).get16 offset = value := by
  have low := @copy_of_mem data offset 0 (bytes16 value) (by simp [bytes16])
  have high := @copy_of_mem data offset 1 (bytes16 value) (by simp [bytes16])
  rw [Nat.add_zero] at low
  rw [get16, low, high]
  simp only [bytes16, List.getElem_cons_zero, List.getElem_cons_succ, BitVec.toNat_ofNat]
  omega

theorem get16_copy_of_ne (data : Block) {index other : ℕ} (value : ℕ) (different : other ≠ index) :
    (data.copy (2 * index) (bytes16 value)).get16 (2 * other) = data.get16 (2 * other) := by
  have isLength : (bytes16 value).length = 2 := rfl
  unfold get16
  rcases Nat.lt_or_gt_of_ne different with less | greater
  · rw [copy_of_lt (by omega), copy_of_lt (by omega)]
  · rw [copy_of_ge (by omega), copy_of_ge (by omega)]

/-- The words of a block of zeros. -/
theorem get16_zero {data : Block} {index : ℕ} (zero : ∀ byte < blockSize, data byte = 0)
    (inBlock : 2 * index + 1 < blockSize) : data.get16 (2 * index) = 0 := by
  rw [get16, zero _ (by omega), zero _ inBlock]
  rfl

end Block

/-! ## The zone map -/

/-- The file system has the layout of the super block. -/
structure Super.Layout (super : Super) : Prop where
  order : firstBlk + super.imapBlocks + super.zmapBlocks ≤ super.firstdatazone
  zones : super.nzones < 2 ^ 16
  first : super.firstdatazone ≤ super.nzones
  maps : super.zmapBlocks < 2 ^ 16
  covers : super.nzones < super.firstdatazone + super.zmapBlocks * blockBits

namespace Super

/-- The block of the zone map with a bit. -/
def zmapBlock (super : Super) (bit : ℕ) : ℕ := 2 + super.imapBlocks + bit / blockBits

/-- A bit of the zone map. -/
def zmap (super : Super) (disk : ℕ → Block) (bit : ℕ) : Bool :=
  (disk (super.zmapBlock bit)).getBit (bit % blockBits)

/-- The zone of a bit. -/
def zoneOf (super : Super) (bit : ℕ) : ℕ := super.firstdatazone - 1 + bit

/-- Only the bits of existing zones are clear. -/
def Formatted (super : Super) (disk : ℕ → Block) : Prop :=
  ∀ bit < super.zmapBlocks * blockBits, super.zmap disk bit = false →
    0 < bit ∧ super.zoneOf bit < super.nzones

theorem Layout.geometry {super : Super} (layout : super.Layout) : super.Geometry where
  zones := layout.zones
  maps := layout.maps
  first := by
    have order := layout.order
    unfold firstBlk at order
    omega
  firstSmall := lt_of_le_of_lt layout.first layout.zones

theorem Layout.zmapBlock_lt {super : Super} (layout : super.Layout) {bit : ℕ}
    (less : bit < super.zmapBlocks * blockBits) :
    super.zmapBlock bit < super.firstdatazone := by
  have quotient : bit / blockBits < super.zmapBlocks :=
    Nat.div_lt_of_lt_mul (by rwa [Nat.mul_comm])
  have order := layout.order
  unfold zmapBlock firstBlk at *
  omega

end Super

namespace Flat

/-- The root device. -/
def root (flat : Flat) : ℕ → Block := flat.disk rootDev

/-- A bit of the zone map is set. -/
def setZmap (flat : Flat) (bit : ℕ) : Flat :=
  let block := flat.core.super.zmapBlock bit
  flat.setBlock (rootDev, block) ((flat.root block).setBit (bit % blockBits))

section

variable {ok : Event → Flat → Prop} {allowed : Stop → Flat → Prop} {sleeps : Flat → Prop}
  {flat : Flat}

open Fs

/-- `balloc` takes a zone whose bit is clear. -/
theorem wp_balloc {post : ℕ → Flat → Prop} (layout : flat.core.super.Layout)
    (full : ok .noZone flat → post 0 flat)
    (holds : ∀ bit < flat.core.super.zmapBlocks * blockBits,
      flat.core.super.zmap flat.root bit = false →
        post (flat.core.super.zoneOf bit) (flat.setZmap bit)) :
    wp (rules ok allowed sleeps) (balloc rootDev) post flat := by
  rw [wp_balloc_find layout.geometry]
  cases found : findClear (flat.disk rootDev) (2 + flat.core.super.imapBlocks)
      flat.core.super.zmapBlocks with
  | some bit =>
      rcases findClear_some found with ⟨inMap, isClear⟩
      exact holds bit inMap isClear
  | none =>
      rw [wp_mark]
      exact full

end

/-! ## A zone is taken -/

variable {flat : Flat} {bit : ℕ}

theorem root_setBlock_of_ne {block other : ℕ} {data : Block} (different : other ≠ block) :
    (flat.setBlock (rootDev, block) data).root other = flat.root other := by
  apply setBlock_of_ne
  simpa using different

theorem root_setBlock_self {block : ℕ} {data : Block} :
    (flat.setBlock (rootDev, block) data).root block = data :=
  setBlock_self flat (rootDev, block) data

@[simp]
theorem setZmap_core : (flat.setZmap bit).core = flat.core := rfl

theorem zmap_setZmap (other : ℕ) :
    flat.core.super.zmap (flat.setZmap bit).root other =
      (decide (other = bit) || flat.core.super.zmap flat.root other) :=
  mapBit_setMap other

/-- The map is not where the zones are. -/
theorem root_setZmap (layout : flat.core.super.Layout)
    (inMap : bit < flat.core.super.zmapBlocks * blockBits) {zone : ℕ}
    (isZone : flat.core.super.firstdatazone ≤ zone) :
    (flat.setZmap bit).root zone = flat.root zone := by
  apply root_setBlock_of_ne
  have less := layout.zmapBlock_lt inMap
  omega

end Flat

/-! ## Who holds a zone -/

/-- Where an inode names a zone. -/
inductive Place where
  | direct (index : Fin ndirect)
  | indirect
  | entry (index : Fin nindirect)
deriving DecidableEq

/-- The zone at a place, or 0. -/
def InodeData.zoneAt (disk : ℕ → Block) (node : InodeData) : Place → ℕ
  | .direct index => node.direct index
  | .indirect => node.indirect
  | .entry index => if node.indirect = 0 then 0 else (disk node.indirect).get16 (2 * index)

section

variable {Key : Type}

/-- The zones that a family of inodes holds. -/
def holdsZone (disk : ℕ → Block) (nodes : Key → InodeData) (holder : Key × Place) : Option ℕ :=
  let zone := (nodes holder.1).zoneAt disk holder.2
  if zone = 0 then none else some zone

/-- Every zone is held once, and marked in the map. -/
structure Zones (super : Super) (disk : ℕ → Block) (nodes : Key → InodeData) : Prop where
  exclusive : Exclusive (holdsZone disk nodes)
  marked : ∀ holder, ∀ bit < super.zmapBlocks * blockBits,
    holdsZone disk nodes holder = some (super.zoneOf bit) → super.zmap disk bit = true
  isZone : ∀ holder zone, holdsZone disk nodes holder = some zone →
    super.firstdatazone ≤ zone ∧ zone < super.nzones
  formatted : super.Formatted disk

variable {super : Super} {disk disk' : ℕ → Block} {nodes nodes' : Key → InodeData}
  {holder : Key × Place} {bit : ℕ}

theorem holdsZone_eq_some {zone : ℕ} :
    holdsZone disk nodes holder = some zone ↔
      (nodes holder.1).zoneAt disk holder.2 = zone ∧ zone ≠ 0 := by
  unfold holdsZone
  dsimp only
  split
  · simp only [reduceCtorEq, false_iff, not_and]
    rintro rfl notZero
    contradiction
  · rw [Option.some.injEq]
    constructor
    · rintro rfl
      exact ⟨rfl, by assumption⟩
    · exact fun ⟨same, _⟩ => same

/-- A zone whose bit is clear is held by nobody. -/
theorem Zones.unheld (zones : Zones super disk nodes)
    (inMap : bit < super.zmapBlocks * blockBits) (isClear : super.zmap disk bit = false) :
    Unheld (holdsZone disk nodes) (super.zoneOf bit) := by
  intro holder held
  have isMarked := zones.marked holder bit inMap held
  rw [isClear] at isMarked
  contradiction

variable [DecidableEq Key]

/-- A zone whose bit was clear is given to a holder, and marked. -/
theorem Zones.give (zones : Zones super disk nodes)
    (inMap : bit < super.zmapBlocks * blockBits) (isClear : super.zmap disk bit = false)
    (given : holdsZone disk' nodes' =
      Function.update (holdsZone disk nodes) holder (some (super.zoneOf bit)))
    (isMap : ∀ other < super.zmapBlocks * blockBits,
      super.zmap disk' other = (decide (other = bit) || super.zmap disk other)) :
    Zones super disk' nodes' where
  exclusive := by
    rw [given]
    exact zones.exclusive.give (zones.unheld inMap isClear)
  marked := by
    intro other otherBit inMapOther held
    rw [isMap _ inMapOther, Bool.or_eq_true, decide_eq_true_eq]
    rw [given] at held
    rcases eq_or_ne other holder with rfl | different
    · left
      rw [Function.update_self, Option.some.injEq] at held
      unfold Super.zoneOf at held
      omega
    · rw [Function.update_of_ne different] at held
      exact Or.inr (zones.marked other otherBit inMapOther held)
  isZone := by
    intro other zone held
    rw [given] at held
    rcases eq_or_ne other holder with rfl | different
    · rw [Function.update_self, Option.some.injEq] at held
      subst held
      obtain ⟨positive, less⟩ := zones.formatted bit inMap isClear
      refine ⟨?_, less⟩
      unfold Super.zoneOf
      omega
    · rw [Function.update_of_ne different] at held
      exact zones.isZone other zone held
  formatted := by
    intro other inMapOther isClearOther
    rw [isMap _ inMapOther, Bool.or_eq_false_iff] at isClearOther
    exact zones.formatted other inMapOther isClearOther.2

/-- The free zones are filled with zeros. -/
def FreeZero (super : Super) (disk : ℕ → Block) : Prop :=
  ∀ bit < super.zmapBlocks * blockBits, super.zmap disk bit = false →
    ∀ byte < blockSize, disk (super.zoneOf bit) byte = 0

/-- The inodes after one of them was changed in its slot of the cache. -/
def withSlot (nodes : Key → InodeData) (key : Key) (flat : Flat) (i : InodeId) :
    Key → InodeData :=
  Function.update nodes key (flat.core.inodes i).toInodeData

theorem withSlot_self (nodes : Key → InodeData) (key : Key) (flat : Flat) (i : InodeId) :
    withSlot nodes key flat i key = (flat.core.inodes i).toInodeData :=
  Function.update_self ..

/-- Blocks of the inode in slot `i` were written; those of others have not changed. -/
structure Written (i : InodeId) (key : Key) (nodes : Key → InodeData) (flat flat' : Flat) :
    Prop where
  core : ∃ size direct indirect dirty, flat'.core = flat.core.setInode i fun old =>
    { old with size := size, direct := direct, indirect := indirect, dirty := dirty }
  devices : ∀ dev ≠ rootDev, flat'.disk dev = flat.disk dev
  tables : ∀ block < flat.core.super.firstdatazone,
    (∀ bit < flat.core.super.zmapBlocks * blockBits, block ≠ flat.core.super.zmapBlock bit) →
      flat'.root block = flat.root block
  zones : Zones flat.core.super flat'.root (withSlot nodes key flat' i)
  kept : ∀ holder zone, holdsZone flat.root nodes holder = some zone →
    holdsZone flat'.root (withSlot nodes key flat' i) holder = some zone
  others : ∀ holder zone, holder.1 ≠ key → holder.2 ≠ .indirect →
    holdsZone flat.root nodes holder = some zone → flat'.root zone = flat.root zone
  free : FreeZero flat.core.super flat.root → FreeZero flat.core.super flat'.root

/-- Zones were taken for the inode in slot `i`, and nothing that was there has changed. -/
structure Grown (i : InodeId) (key : Key) (nodes : Key → InodeData) (flat flat' : Flat) : Prop
    extends Written i key nodes flat flat' where
  size : (flat'.core.inodes i).size = (flat.core.inodes i).size
  data : ∀ holder zone, holder.2 ≠ .indirect → holdsZone flat.root nodes holder = some zone →
    flat'.root zone = flat.root zone

variable {i : InodeId} {key : Key} {flat flat' flat'' : Flat}

theorem Grown.refl (zones : Zones flat.core.super flat.root nodes)
    (isSlot : nodes key = (flat.core.inodes i).toInodeData) : Grown i key nodes flat flat where
  core := ⟨(flat.core.inodes i).size, (flat.core.inodes i).direct, (flat.core.inodes i).indirect,
    (flat.core.inodes i).dirty, by simp [Core.setInode]⟩
  devices _ _ := rfl
  tables _ _ _ := rfl
  zones := by
    rw [withSlot, ← isSlot, Function.update_eq_self]
    exact zones
  kept _ _ held := by
    rw [withSlot, ← isSlot, Function.update_eq_self]
    exact held
  others _ _ _ _ _ := rfl
  size := rfl
  data _ _ _ _ := rfl
  free := id

theorem Core.setInode_setInode (core : Core) (first second : Inode → Inode) :
    (core.setInode i first).setInode i second = core.setInode i (second ∘ first) := by
  simp [Core.setInode]

theorem Core.setInode_congr {core : Core} {first second : Inode → Inode}
    (same : first (core.inodes i) = second (core.inodes i)) :
    core.setInode i first = core.setInode i second := by
  simp [Core.setInode, same]

theorem Written.sameSuper (written : Written i key nodes flat flat') :
    flat'.core.super = flat.core.super := by
  obtain ⟨size, direct, indirect, dirty, isCore⟩ := written.core
  rw [isCore]
  rfl

theorem Written.trans (first : Written i key nodes flat flat')
    (second : Written i key (withSlot nodes key flat' i) flat' flat'') :
    Written i key nodes flat flat'' where
  core := by
    obtain ⟨size, direct, indirect, dirty, isCore⟩ := first.core
    obtain ⟨size', direct', indirect', dirty', isCore'⟩ := second.core
    refine ⟨size', direct', indirect', dirty', ?_⟩
    rw [isCore', isCore, Core.setInode_setInode]
    rfl
  devices dev notRoot := (second.devices dev notRoot).trans (first.devices dev notRoot)
  tables block less notMap := by
    have isSecond := second.tables block
    rw [first.sameSuper] at isSecond
    exact (isSecond less notMap).trans (first.tables block less notMap)
  zones := by
    have zones := second.zones
    rw [first.sameSuper] at zones
    simpa [withSlot] using zones
  kept holder zone held := by
    have kept := second.kept holder zone (first.kept holder zone held)
    simpa [withSlot] using kept
  others holder zone other notIndirect held := by
    have isSecond := second.others holder zone other notIndirect (first.kept holder zone held)
    exact isSecond.trans (first.others holder zone other notIndirect held)
  free isFree := by
    have isSecond := second.free
    rw [first.sameSuper] at isSecond
    exact isSecond (first.free isFree)

theorem Grown.trans (first : Grown i key nodes flat flat')
    (second : Grown i key (withSlot nodes key flat' i) flat' flat'') :
    Grown i key nodes flat flat'' where
  toWritten := first.toWritten.trans second.toWritten
  size := second.size.trans first.size
  data holder zone notIndirect held := by
    have isSecond := second.data holder zone notIndirect (first.kept holder zone held)
    exact isSecond.trans (first.data holder zone notIndirect held)

/--
A zone is taken and given to a place that had none. Besides the map, at most the block `index`
has changed, which holds no data.
-/
theorem Grown.of_give {holder : Key × Place} {bit index : ℕ}
    (zones : Zones flat.core.super flat.root nodes) (layout : flat.core.super.Layout)
    (inMap : bit < flat.core.super.zmapBlocks * blockBits)
    (isClear : flat.core.super.zmap flat.root bit = false)
    (core : ∃ direct indirect dirty, flat'.core = flat.core.setInode i fun old =>
      { old with direct := direct, indirect := indirect, dirty := dirty })
    (devices : ∀ dev ≠ rootDev, flat'.disk dev = flat.disk dev)
    (same : ∀ block ≠ flat.core.super.zmapBlock bit, block ≠ index →
      flat'.root block = flat.root block)
    (isIndex : index = flat.core.super.zmapBlock bit ∨
      holdsZone flat.root nodes (key, .indirect) = some index)
    (isMap : ∀ other < flat.core.super.zmapBlocks * blockBits,
      flat.core.super.zmap flat'.root other =
        (decide (other = bit) || flat.core.super.zmap flat.root other))
    (wasFree : holdsZone flat.root nodes holder = none)
    (given : holdsZone flat'.root (withSlot nodes key flat' i) =
      Function.update (holdsZone flat.root nodes) holder (some (flat.core.super.zoneOf bit))) :
    Grown i key nodes flat flat' := by
  have data : ∀ other zone, other.2 ≠ Place.indirect →
      holdsZone flat.root nodes other = some zone → flat'.root zone = flat.root zone := by
    intro other zone notIndirect held
    have isZone := (zones.isZone other zone held).1
    have notMap := layout.zmapBlock_lt inMap
    apply same zone
    · omega
    · rcases isIndex with isBlock | isHeld
      · omega
      · rintro rfl
        exact notIndirect (by rw [zones.exclusive other _ _ held isHeld])
  obtain ⟨direct, indirect, dirty, isCore⟩ := core
  have isSize : (flat'.core.inodes i).size = (flat.core.inodes i).size := by
    simp [isCore, Core.setInode]
  refine ⟨⟨⟨(flat.core.inodes i).size, direct, indirect, dirty, ?_⟩, devices, ?_,
    zones.give inMap isClear given isMap, ?_, fun other zone _ => data other zone, ?_⟩, isSize,
    data⟩
  · rw [isCore]
    exact Core.setInode_congr rfl
  · intro block less notMap
    apply same block (notMap bit inMap)
    rcases isIndex with isBlock | isHeld
    · exact isBlock ▸ notMap bit inMap
    · have isZone := (zones.isZone _ _ isHeld).1
      omega
  · intro other zone held
    rw [given]
    rcases eq_or_ne other holder with rfl | different
    · rw [wasFree] at held
      contradiction
    · rwa [Function.update_of_ne different]
  · intro isFree other inMapOther isClearOther byte less
    rw [isMap _ inMapOther, Bool.or_eq_false_iff] at isClearOther
    obtain ⟨positive, -⟩ := zones.formatted other inMapOther isClearOther.2
    have notMap := layout.zmapBlock_lt inMap
    have isZone : flat.core.super.firstdatazone ≤ flat.core.super.zoneOf other := by
      unfold Super.zoneOf
      omega
    rw [same]
    · exact isFree other inMapOther isClearOther.2 byte less
    · omega
    · rcases isIndex with isBlock | isHeld
      · omega
      · rintro rfl
        exact zones.unheld inMapOther isClearOther.2 _ isHeld

section

variable {bit : ℕ}

/-- A zone is taken and given to a place outside of the indirect block. -/
theorem Grown.of_map {holder : Key × Place} (zones : Zones flat.core.super flat.root nodes)
    (layout : flat.core.super.Layout) (inMap : bit < flat.core.super.zmapBlocks * blockBits)
    (isClear : flat.core.super.zmap flat.root bit = false)
    (core : ∃ direct indirect dirty, flat'.core = flat.core.setInode i fun old =>
      { old with direct := direct, indirect := indirect, dirty := dirty })
    (isDisk : flat'.disk = (flat.setZmap bit).disk)
    (wasFree : holdsZone flat.root nodes holder = none)
    (given : holdsZone flat'.root (withSlot nodes key flat' i) =
      Function.update (holdsZone flat.root nodes) holder (some (flat.core.super.zoneOf bit))) :
    Grown i key nodes flat flat' := by
  have isRoot : flat'.root = (flat.setZmap bit).root := by
    unfold Flat.root
    rw [isDisk]
  apply Grown.of_give zones layout inMap isClear core _ _ (Or.inl rfl) _ wasFree given
  · intro dev notRoot
    funext block
    rw [isDisk]
    exact Flat.setBlock_of_ne _ _ _ (by simp [notRoot])
  · intro block notBlock _
    rw [isRoot]
    exact Flat.root_setBlock_of_ne notBlock
  · intro other _
    rw [isRoot, Flat.zmap_setZmap]

omit [DecidableEq Key] in
/-- Zones keep their indirect blocks. -/
theorem Zones.root_setZmap (zones : Zones flat.core.super flat.root nodes)
    (layout : flat.core.super.Layout) (inMap : bit < flat.core.super.zmapBlocks * blockBits)
    {holder : Key × Place} {zone : ℕ} (held : holdsZone flat.root nodes holder = some zone) :
    (flat.setZmap bit).root zone = flat.root zone :=
  Flat.root_setZmap layout inMap (zones.isZone holder zone held).1

omit [DecidableEq Key] in
theorem Zones.holdsZone_setZmap (zones : Zones flat.core.super flat.root nodes)
    (layout : flat.core.super.Layout) (inMap : bit < flat.core.super.zmapBlocks * blockBits) :
    holdsZone (flat.setZmap bit).root nodes = holdsZone flat.root nodes := by
  funext holder
  obtain ⟨key, place⟩ := holder
  unfold holdsZone
  cases place with
  | direct index => rfl
  | indirect => rfl
  | entry index =>
      by_cases isZero : (nodes key).indirect = 0
      · simp [InodeData.zoneAt, isZero]
      · have held : holdsZone flat.root nodes (key, .indirect) = some (nodes key).indirect :=
          holdsZone_eq_some.mpr ⟨rfl, isZero⟩
        simp [InodeData.zoneAt, zones.root_setZmap layout inMap held]

omit [DecidableEq Key] in
theorem Zones.zoneOf_ne_zero (zones : Zones super disk nodes)
    (inMap : bit < super.zmapBlocks * blockBits) (isClear : super.zmap disk bit = false) :
    super.zoneOf bit ≠ 0 := by
  obtain ⟨positive, -⟩ := zones.formatted bit inMap isClear
  unfold Super.zoneOf
  omega

omit [DecidableEq Key] in
theorem Zones.toUshort_zoneOf (zones : Zones super disk nodes) (layout : super.Layout)
    (inMap : bit < super.zmapBlocks * blockBits) (isClear : super.zmap disk bit = false) :
    toUshort (super.zoneOf bit) = super.zoneOf bit := by
  obtain ⟨-, less⟩ := zones.formatted bit inMap isClear
  have small := layout.zones
  unfold toUshort
  omega

/-- One place of one inode has got a zone. -/
theorem holdsZone_given {zone : ℕ} {place : Place}
    (others : ∀ other ≠ key, ∀ at', holdsZone flat'.root nodes (other, at') =
      holdsZone flat.root nodes (other, at'))
    (self : ∀ at', holdsZone flat'.root (withSlot nodes key flat' i) (key, at') =
      if at' = place then some zone else holdsZone flat.root nodes (key, at')) :
    holdsZone flat'.root (withSlot nodes key flat' i) =
      Function.update (holdsZone flat.root nodes) (key, place) (some zone) := by
  funext holder
  obtain ⟨other, at'⟩ := holder
  rcases eq_or_ne other key with rfl | different
  · rw [self]
    rcases eq_or_ne at' place with rfl | notPlace
    · simp
    · rw [if_neg notPlace, Function.update_of_ne (by simpa using notPlace)]
  · rw [Function.update_of_ne (by simp [different]), ← others other different]
    simp [holdsZone, withSlot, different]

/-- A direct zone is taken. -/
theorem holdsZone_direct {index : Fin ndirect} (zones : Zones flat.core.super flat.root nodes)
    (layout : flat.core.super.Layout) (isSlot : nodes key = (flat.core.inodes i).toInodeData)
    (inMap : bit < flat.core.super.zmapBlocks * blockBits)
    (isClear : flat.core.super.zmap flat.root bit = false)
    (isFlat' : flat' = ((flat.setZmap bit).setData i fun old =>
      { old with
        direct := Function.update old.direct index (toUshort (flat.core.super.zoneOf bit)) }).setInode i
          fun old => { old with dirty := true }) :
    holdsZone flat'.root (withSlot nodes key flat' i) =
      Function.update (holdsZone flat.root nodes) (key, .direct index)
        (some (flat.core.super.zoneOf bit)) := by
  have notZero := zones.zoneOf_ne_zero inMap isClear
  have isZone := zones.toUshort_zoneOf layout inMap isClear
  have isNode : (flat'.core.inodes i).toInodeData = { (flat.core.inodes i).toInodeData with
      direct := Function.update (flat.core.inodes i).direct index
        (flat.core.super.zoneOf bit) } := by
    subst isFlat'
    simp [Flat.setData, isZone]
  have isRoot : flat'.root = (flat.setZmap bit).root := by
    subst isFlat'
    rfl
  apply holdsZone_given
  · intro other different place
    rw [isRoot, zones.holdsZone_setZmap layout inMap]
  · intro place
    have unchanged := congrFun (zones.holdsZone_setZmap layout inMap) (key, place)
    rw [← unchanged, isRoot, withSlot, isNode]
    cases place with
    | direct at' =>
        rcases eq_or_ne at' index with rfl | notIndex
        · simp [holdsZone, InodeData.zoneAt, notZero]
        · simp [holdsZone, InodeData.zoneAt, notIndex, isSlot]
    | indirect => simp [holdsZone, InodeData.zoneAt, isSlot]
    | entry at' => simp [holdsZone, InodeData.zoneAt, isSlot]

theorem grown_direct {index : Fin ndirect} (zones : Zones flat.core.super flat.root nodes)
    (layout : flat.core.super.Layout) (isSlot : nodes key = (flat.core.inodes i).toInodeData)
    (inMap : bit < flat.core.super.zmapBlocks * blockBits)
    (isClear : flat.core.super.zmap flat.root bit = false)
    (wasFree : (flat.core.inodes i).direct index = 0)
    (isFlat' : flat' = ((flat.setZmap bit).setData i fun old =>
      { old with
        direct := Function.update old.direct index (toUshort (flat.core.super.zoneOf bit)) }).setInode i
          fun old => { old with dirty := true }) :
    Grown i key nodes flat flat' := by
  have given := holdsZone_direct zones layout isSlot inMap isClear isFlat'
  apply @Grown.of_map Key nodes _ i key flat _ bit (key, .direct index) zones layout inMap isClear
  · refine ⟨Function.update (flat.core.inodes i).direct index (flat.core.super.zoneOf bit),
      (flat.core.inodes i).indirect, true, ?_⟩
    subst isFlat'
    simp only [Flat.setInode, Flat.setData, Core.setInode_setInode, Flat.setZmap_core]
    apply Core.setInode_congr
    simp [zones.toUshort_zoneOf layout inMap isClear]
  · subst isFlat'
    rfl
  · simp [holdsZone, InodeData.zoneAt, isSlot, wasFree]
  · exact given

/-- A zone for the indirect block is taken. -/
theorem holdsZone_indirect (zones : Zones flat.core.super flat.root nodes)
    (layout : flat.core.super.Layout) (isSlot : nodes key = (flat.core.inodes i).toInodeData)
    (inMap : bit < flat.core.super.zmapBlocks * blockBits)
    (isClear : flat.core.super.zmap flat.root bit = false)
    (wasFree : (flat.core.inodes i).indirect = 0)
    (isZero : ∀ byte < blockSize, flat.root (flat.core.super.zoneOf bit) byte = 0)
    (isFlat' : flat' = ((flat.setZmap bit).setData i fun old =>
      { old with indirect := toUshort (flat.core.super.zoneOf bit) }).setInode i
        fun old => { old with dirty := true }) :
    holdsZone flat'.root (withSlot nodes key flat' i) =
      Function.update (holdsZone flat.root nodes) (key, .indirect)
        (some (flat.core.super.zoneOf bit)) := by
  have notZero := zones.zoneOf_ne_zero inMap isClear
  have isZone := zones.toUshort_zoneOf layout inMap isClear
  have isNode : (flat'.core.inodes i).toInodeData = { (flat.core.inodes i).toInodeData with
      indirect := flat.core.super.zoneOf bit } := by
    subst isFlat'
    simp [Flat.setData, isZone]
  have isRoot : flat'.root = (flat.setZmap bit).root := by
    subst isFlat'
    rfl
  apply holdsZone_given
  · intro other different place
    rw [isRoot, zones.holdsZone_setZmap layout inMap]
  · intro place
    have unchanged := congrFun (zones.holdsZone_setZmap layout inMap) (key, place)
    rw [← unchanged, isRoot, withSlot, isNode]
    cases place with
    | direct at' => simp [holdsZone, InodeData.zoneAt, isSlot]
    | indirect => simp [holdsZone, InodeData.zoneAt, notZero]
    | entry at' =>
        -- The new indirect block names no zone, and before there was none.
        have inBlock : 2 * (at' : ℕ) + 1 < blockSize := by
          have less : (at' : ℕ) < 512 := at'.isLt
          unfold blockSize
          omega
        have isFirst : flat.core.super.firstdatazone ≤ flat.core.super.zoneOf bit := by
          obtain ⟨positive, -⟩ := zones.formatted bit inMap isClear
          unfold Super.zoneOf
          omega
        have isEmpty := Block.get16_zero isZero inBlock
        rw [← Flat.root_setZmap layout inMap isFirst] at isEmpty
        simp [holdsZone, InodeData.zoneAt, notZero, isSlot, wasFree, isEmpty]

theorem grown_indirect (zones : Zones flat.core.super flat.root nodes)
    (layout : flat.core.super.Layout) (isSlot : nodes key = (flat.core.inodes i).toInodeData)
    (inMap : bit < flat.core.super.zmapBlocks * blockBits)
    (isClear : flat.core.super.zmap flat.root bit = false)
    (wasFree : (flat.core.inodes i).indirect = 0)
    (isZero : ∀ byte < blockSize, flat.root (flat.core.super.zoneOf bit) byte = 0)
    (isFlat' : flat' = ((flat.setZmap bit).setData i fun old =>
      { old with indirect := toUshort (flat.core.super.zoneOf bit) }).setInode i
        fun old => { old with dirty := true }) :
    Grown i key nodes flat flat' := by
  have given := holdsZone_indirect zones layout isSlot inMap isClear wasFree isZero isFlat'
  apply @Grown.of_map Key nodes _ i key flat _ bit (key, .indirect) zones layout inMap isClear
  · refine ⟨(flat.core.inodes i).direct, flat.core.super.zoneOf bit, true, ?_⟩
    subst isFlat'
    simp only [Flat.setInode, Flat.setData, Core.setInode_setInode, Flat.setZmap_core]
    apply Core.setInode_congr
    simp [zones.toUshort_zoneOf layout inMap isClear]
  · subst isFlat'
    rfl
  · simp [holdsZone, InodeData.zoneAt, isSlot, wasFree]
  · exact given

/-- A zone for an entry of the indirect block is taken. -/
theorem holdsZone_entry {index : Fin nindirect} (zones : Zones flat.core.super flat.root nodes)
    (layout : flat.core.super.Layout) (isSlot : nodes key = (flat.core.inodes i).toInodeData)
    (inMap : bit < flat.core.super.zmapBlocks * blockBits)
    (isClear : flat.core.super.zmap flat.root bit = false)
    (hasIndirect : (flat.core.inodes i).indirect ≠ 0)
    (isFlat' : flat' = (flat.setZmap bit).setBlock (rootDev, (flat.core.inodes i).indirect)
      ((flat.root (flat.core.inodes i).indirect).copy (2 * index)
        (bytes16 (flat.core.super.zoneOf bit)))) :
    holdsZone flat'.root (withSlot nodes key flat' i) =
      Function.update (holdsZone flat.root nodes) (key, .entry index)
        (some (flat.core.super.zoneOf bit)) := by
  have notZero := zones.zoneOf_ne_zero inMap isClear
  have small : flat.core.super.zoneOf bit < 2 ^ 16 := by
    have less := (zones.formatted bit inMap isClear).2
    have bound := layout.zones
    omega
  have heldIndirect : holdsZone flat.root nodes (key, .indirect) =
      some (flat.core.inodes i).indirect :=
    holdsZone_eq_some.mpr ⟨by simp [InodeData.zoneAt, isSlot], hasIndirect⟩
  have isSelf : flat'.root (flat.core.inodes i).indirect =
      (flat.root (flat.core.inodes i).indirect).copy (2 * index)
        (bytes16 (flat.core.super.zoneOf bit)) := by
    subst isFlat'
    exact Flat.root_setBlock_self
  have isOther : ∀ block ≠ (flat.core.inodes i).indirect,
      flat'.root block = (flat.setZmap bit).root block := by
    subst isFlat'
    exact fun block notBlock => Flat.root_setBlock_of_ne notBlock
  have isNode : (flat'.core.inodes i).toInodeData = nodes key := by
    subst isFlat'
    exact isSlot.symm
  have same : withSlot nodes key flat' i = nodes := by
    rw [withSlot, isNode, Function.update_eq_self]
  apply holdsZone_given
  · intro other different place
    rw [← congrFun (zones.holdsZone_setZmap layout inMap) (other, place)]
    cases place with
    | direct at' => rfl
    | indirect => rfl
    | entry at' =>
        by_cases isZero : (nodes other).indirect = 0
        · simp [holdsZone, InodeData.zoneAt, isZero]
        · have heldOther : holdsZone flat.root nodes (other, .indirect) =
              some (nodes other).indirect := holdsZone_eq_some.mpr ⟨rfl, isZero⟩
          have notSame : (nodes other).indirect ≠ (flat.core.inodes i).indirect := by
            intro sameZone
            rw [sameZone] at heldOther
            have sameHolder := zones.exclusive _ _ _ heldOther heldIndirect
            exact different (congrArg Prod.fst sameHolder)
          simp [holdsZone, InodeData.zoneAt, isOther _ notSame]
  · intro place
    rw [same]
    cases place with
    | direct at' =>
        rw [if_neg (by simp)]
        rfl
    | indirect =>
        rw [if_neg (by simp)]
        rfl
    | entry at' =>
        rcases eq_or_ne at' index with rfl | notIndex
        · simp [holdsZone, InodeData.zoneAt, isSlot, hasIndirect, isSelf,
            Block.get16_copy_self _ _ small, notZero]
        · have notNat : (at' : ℕ) ≠ (index : ℕ) := fun sameNat => notIndex (Fin.ext sameNat)
          simp [holdsZone, InodeData.zoneAt, isSlot, hasIndirect, isSelf,
            Block.get16_copy_of_ne _ _ notNat, notIndex]

theorem grown_entry {index : Fin nindirect} (zones : Zones flat.core.super flat.root nodes)
    (layout : flat.core.super.Layout) (isSlot : nodes key = (flat.core.inodes i).toInodeData)
    (inMap : bit < flat.core.super.zmapBlocks * blockBits)
    (isClear : flat.core.super.zmap flat.root bit = false)
    (hasIndirect : (flat.core.inodes i).indirect ≠ 0)
    (wasFree : (flat.root (flat.core.inodes i).indirect).get16 (2 * index) = 0)
    (isFlat' : flat' = (flat.setZmap bit).setBlock (rootDev, (flat.core.inodes i).indirect)
      ((flat.root (flat.core.inodes i).indirect).copy (2 * index)
        (bytes16 (flat.core.super.zoneOf bit)))) :
    Grown i key nodes flat flat' := by
  have given := holdsZone_entry zones layout isSlot inMap isClear hasIndirect isFlat'
  have heldIndirect : holdsZone flat.root nodes (key, .indirect) =
      some (flat.core.inodes i).indirect :=
    holdsZone_eq_some.mpr ⟨by simp [InodeData.zoneAt, isSlot], hasIndirect⟩
  have isFirst := (zones.isZone _ _ heldIndirect).1
  have isOther : ∀ block ≠ (flat.core.inodes i).indirect,
      flat'.root block = (flat.setZmap bit).root block := by
    subst isFlat'
    exact fun block notBlock => Flat.root_setBlock_of_ne notBlock
  apply @Grown.of_give Key nodes _ i key flat _ (key, .entry index) bit
    (flat.core.inodes i).indirect zones layout inMap isClear
  · refine ⟨(flat.core.inodes i).direct, (flat.core.inodes i).indirect,
      (flat.core.inodes i).dirty, ?_⟩
    subst isFlat'
    simp [Core.setInode]
  · intro dev notRoot
    subst isFlat'
    funext block
    rw [Flat.setBlock_of_ne _ _ _ (by simp [notRoot])]
    exact Flat.setBlock_of_ne _ _ _ (by simp [notRoot])
  · intro block notBlock notIndirect
    rw [isOther block notIndirect]
    exact Flat.root_setBlock_of_ne notBlock
  · exact Or.inr heldIndirect
  · intro other inMapOther
    have notIndirect : flat.core.super.zmapBlock other ≠ (flat.core.inodes i).indirect := by
      have less := layout.zmapBlock_lt inMapOther
      omega
    rw [← Flat.zmap_setZmap, Super.zmap, isOther _ notIndirect]
    rfl
  · simp [holdsZone, InodeData.zoneAt, isSlot, hasIndirect, wasFree]
  · exact given

end

/-! ## The blocks of a file -/

instance : NeZero nindirect := ⟨by decide⟩

/-- The place that names the zone of a block of a file. -/
def blockPlace (index : ℕ) : Place :=
  if isDirect : index < ndirect then .direct ⟨index, isDirect⟩
  else .entry (Fin.ofNat nindirect (index - ndirect))

/-- The number of blocks of the largest file. -/
def maxBlocks : ℕ := ndirect + nindirect

theorem blockPlace_ne_indirect (index : ℕ) : blockPlace index ≠ .indirect := by
  unfold blockPlace
  split <;> simp

theorem blockPlace_injective {index other : ℕ} (inFile : index < maxBlocks)
    (inFileOther : other < maxBlocks) (same : blockPlace index = blockPlace other) :
    index = other := by
  unfold blockPlace at same
  split at same <;> split at same
  · exact Fin.mk.inj (Place.direct.inj same)
  · cases same
  · cases same
  · have sameEntry := congrArg Fin.val (Place.entry.inj same)
    simp only [Fin.val_ofNat] at sameEntry
    unfold maxBlocks nindirect at *
    omega

section

open Fs

variable {ok : Event → Flat → Prop} {allowed : Stop → Flat → Prop} {sleeps : Flat → Prop}
  {post : ℕ → Flat → Prop} {index : ℕ}

theorem wp_bmapIndirect (entry : Fin nindirect) (zones : Zones flat.core.super flat.root nodes)
    (layout : flat.core.super.Layout) (isSlot : nodes key = (flat.core.inodes i).toInodeData)
    (isRoot : (flat.core.inodes i).dev = rootDev) (noZone : ∀ flat, ¬ ok .noZone flat)
    (hasIndirect : (flat.core.inodes i).indirect ≠ 0)
    (holds : ∀ flat' zone, Grown i key nodes flat flat' →
      holdsZone flat'.root (withSlot nodes key flat' i) (key, .entry entry) = some zone →
        post zone flat') :
    wp (Flat.rules ok allowed sleeps) (bmapIndirect i entry) post flat := by
  simp only [bmapIndirect, wp_bind, Flat.wp_getInode, hasIndirect, ne_eq, not_false_eq_true,
    if_true, Flat.wp_bread, Flat.wp_bdata, wp_when, Flat.wp_brelse, wp_pure, isRoot]
  have isBlock : flat.disk rootDev (flat.core.inodes i).indirect =
      flat.root (flat.core.inodes i).indirect := rfl
  rw [isBlock]
  split
  case isTrue isFree =>
    apply Flat.wp_balloc layout
    · exact fun full => absurd full (noZone flat)
    · intro bit inMap isClear
      simp only [Flat.wp_bstore, Flat.wp_bwrite]
      have isFirst : flat.core.super.firstdatazone ≤ (flat.core.inodes i).indirect := by
        have held : holdsZone flat.root nodes (key, .indirect) =
            some (flat.core.inodes i).indirect :=
          holdsZone_eq_some.mpr ⟨by simp [InodeData.zoneAt, isSlot], hasIndirect⟩
        exact (zones.isZone _ _ held).1
      have isIndirect : (flat.setZmap bit).disk rootDev (flat.core.inodes i).indirect =
          flat.root (flat.core.inodes i).indirect := Flat.root_setZmap layout inMap isFirst
      rw [isIndirect]
      apply holds _ _ (grown_entry zones layout isSlot inMap isClear hasIndirect isFree rfl)
      have isStored : ((flat.root (flat.core.inodes i).indirect).copy (2 * entry)
          (bytes16 (flat.core.super.zoneOf bit))).get16 (2 * entry) =
            flat.core.super.zoneOf bit := by
        apply Block.get16_copy_self
        have less := (zones.formatted bit inMap isClear).2
        have bound := layout.zones
        omega
      rw [holdsZone_eq_some]
      constructor
      · simp [withSlot, InodeData.zoneAt, hasIndirect, Flat.root]
      · rw [Flat.setBlock_self _ (rootDev, (flat.core.inodes i).indirect), isStored]
        exact zones.zoneOf_ne_zero inMap isClear
  case isFalse notFree =>
    apply holds flat _ (Grown.refl zones isSlot)
    rw [withSlot, ← isSlot, Function.update_eq_self, holdsZone_eq_some, isSlot]
    exact ⟨by simp [InodeData.zoneAt, hasIndirect], notFree⟩

/-- Zones for indirect blocks are filled with zeros when they are taken. -/
def ZeroIndirect (ok : Event → Flat → Prop) (flat : Flat) : Prop :=
  FreeZero flat.core.super flat.root ∨
    ∀ flat zone, ok (.freshIndirect rootDev zone) flat →
      ∀ byte < blockSize, flat.root zone byte = 0

/-- `bmap` for a write finds or takes a zone. -/
theorem wp_bmap_write (zones : Zones flat.core.super flat.root nodes)
    (layout : flat.core.super.Layout) (isSlot : nodes key = (flat.core.inodes i).toInodeData)
    (isRoot : (flat.core.inodes i).dev = rootDev) (locked : (flat.core.inodes i).lock = true)
    (inFile : index < maxBlocks) (noZone : ∀ flat, ¬ ok .noZone flat)
    (zero : ZeroIndirect ok flat)
    (holds : ∀ flat' zone, Grown i key nodes flat flat' →
      holdsZone flat'.root (withSlot nodes key flat' i) (key, blockPlace index) = some zone →
        post zone flat') :
    wp (Flat.rules ok allowed sleeps) (bmap i index true) post flat := by
  simp only [bmap, wp_bind, Flat.wp_getInode, locked, isRoot]
  by_cases isDirect : index < ndirect
  case pos =>
    have isPlace : blockPlace index = .direct ⟨index, isDirect⟩ := dif_pos isDirect
    rw [isPlace] at holds
    simp only [Bool.not_true, Bool.false_eq_true, if_false, isDirect, dif_pos, true_and, wp_bind,
      wp_when, Flat.wp_getInode, Flat.wp_mark, wp_pure]
    split
    case isTrue wasFree =>
      apply Flat.wp_balloc layout
      · exact fun full => absurd full (noZone flat)
      · intro bit inMap isClear
        simp only [Flat.wp_setData, Flat.wp_setDirty]
        intro _
        apply holds _ _ (grown_direct zones layout isSlot inMap isClear wasFree rfl)
        rw [holdsZone_eq_some]
        constructor
        · simp [withSlot, InodeData.zoneAt]
        · simp [Flat.setData, zones.toUshort_zoneOf layout inMap isClear,
            zones.zoneOf_ne_zero inMap isClear]
    case isFalse notFree =>
      intro _
      apply holds _ _ (Grown.refl zones isSlot)
      rw [withSlot, ← isSlot, Function.update_eq_self, holdsZone_eq_some, isSlot]
      exact ⟨rfl, notFree⟩
  case neg =>
    have less : index - ndirect < nindirect := by
      unfold maxBlocks at inFile
      omega
    have isPlace : blockPlace index = .entry ⟨index - ndirect, less⟩ := by
      rw [blockPlace, dif_neg isDirect]
      congr 1
      exact Fin.ext (Nat.mod_eq_of_lt less)
    have inFile' : index < ndirect + nindirect := inFile
    rw [isPlace] at holds
    simp only [Bool.not_true, Bool.false_eq_true, if_false, isDirect, dif_neg, not_false_eq_true,
      inFile', if_true, true_and, wp_bind, wp_when]
    split
    case isTrue wasFree =>
      apply Flat.wp_balloc layout
      · exact fun full => absurd full (noZone flat)
      · intro bit inMap isClear
        simp only [Flat.wp_setData, Flat.wp_setDirty, Flat.wp_mark]
        intro isFresh
        have isZone := zones.toUshort_zoneOf layout inMap isClear
        have isFirst : flat.core.super.firstdatazone ≤ flat.core.super.zoneOf bit := by
          obtain ⟨positive, -⟩ := zones.formatted bit inMap isClear
          unfold Super.zoneOf
          omega
        have isZero : ∀ byte < blockSize, flat.root (flat.core.super.zoneOf bit) byte = 0 := by
          intro byte inBlock
          rcases zero with free | fresh
          · exact free bit inMap isClear byte inBlock
          · have isZero := fresh _ _ isFresh byte inBlock
            rw [isZone] at isZero
            rw [← Flat.root_setZmap layout inMap isFirst]
            exact isZero
        have grown := grown_indirect zones layout isSlot inMap isClear wasFree isZero rfl
        have zones' := grown.zones
        rw [← grown.sameSuper] at zones' layout
        apply wp_bmapIndirect ⟨index - ndirect, less⟩ zones' layout (withSlot_self ..)
          (by simpa [Flat.setData] using isRoot) noZone
          (by simpa [Flat.setData, isZone] using zones.zoneOf_ne_zero inMap isClear)
        intro flat' zone grown' held
        simp only [wp_pure]
        intro _
        apply holds flat' zone (grown.trans grown')
        simpa [withSlot] using held
    case isFalse hasIndirect =>
      apply wp_bmapIndirect ⟨index - ndirect, less⟩ zones layout isSlot isRoot noZone hasIndirect
      intro flat' zone grown held
      simp only [Flat.wp_mark, wp_pure]
      exact fun _ => holds flat' zone grown held

omit [DecidableEq Key] in
/-- `bmap` for a read of a block that the file has. -/
theorem wp_bmap_read {zone : ℕ} (isSlot : nodes key = (flat.core.inodes i).toInodeData)
    (isRoot : (flat.core.inodes i).dev = rootDev) (locked : (flat.core.inodes i).lock = true)
    (inFile : index < maxBlocks)
    (held : holdsZone flat.root nodes (key, blockPlace index) = some zone)
    (holds : post zone flat) :
    wp (Flat.rules ok allowed sleeps) (bmap i index false) post flat := by
  rw [holdsZone_eq_some, isSlot] at held
  simp only [bmap, wp_bind, Flat.wp_getInode, locked, isRoot]
  by_cases isDirect : index < ndirect
  case pos =>
    have isPlace : blockPlace index = .direct ⟨index, isDirect⟩ := dif_pos isDirect
    rw [isPlace] at held
    simp only [Bool.not_true, Bool.false_eq_true, if_false, isDirect, dif_pos, false_and, wp_bind,
      wp_when, Flat.wp_getInode, Flat.wp_mark, wp_pure]
    intro _
    have isZone : (flat.core.inodes i).direct ⟨index, isDirect⟩ = zone := held.1
    rw [isZone]
    exact holds
  case neg =>
    have less : index - ndirect < nindirect := by
      unfold maxBlocks at inFile
      omega
    have isPlace : blockPlace index = .entry ⟨index - ndirect, less⟩ := by
      rw [blockPlace, dif_neg isDirect]
      congr 1
      exact Fin.ext (Nat.mod_eq_of_lt less)
    have inFile' : index < ndirect + nindirect := inFile
    rw [isPlace] at held
    simp only [InodeData.zoneAt] at held
    have hasIndirect : (flat.core.inodes i).indirect ≠ 0 := by
      intro isZero
      rw [if_pos isZero] at held
      exact held.2 held.1.symm
    rw [if_neg hasIndirect] at held
    have isEntry : (flat.disk rootDev (flat.core.inodes i).indirect).get16
        (2 * (index - ndirect)) = zone := held.1
    simp only [Bool.not_true, Bool.false_eq_true, if_false, isDirect, dif_neg, not_false_eq_true,
      inFile', if_true, false_and, wp_bind, wp_when, bmapIndirect, Flat.wp_getInode, hasIndirect,
      ne_eq, Flat.wp_bread, Flat.wp_bdata, Flat.wp_brelse, Flat.wp_mark, wp_pure, isRoot, isEntry,
      held.2]
    exact fun _ => holds

end

end

end Osix
