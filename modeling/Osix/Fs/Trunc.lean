import Osix.Fs.Cache
import Osix.Fs.Space

/-!
# Truncation

`itrunc` gives back all zones of an inode: the bits of exactly these zones are cleared, and no
zone of another inode is touched. Half way through, the indirect block still names zones that
are free already, so the loops are described by the bits that they have cleared.
-/

namespace Osix

open Program Ownership

variable {Key : Type} {nodes : Key → InodeData} {key : Key} {i : InodeId}
  {flat flat' flat'' : Flat}

/-- The bits were cleared, and nothing else on the disk has changed. -/
structure Cleared (bits : Set ℕ) (flat flat' : Flat) : Prop where
  sameSuper : flat'.core.super = flat.core.super
  devices : ∀ dev ≠ rootDev, flat'.disk dev = flat.disk dev
  blocks : ∀ block, (∀ bit < flat.core.super.zmapBlocks * blockBits,
    block ≠ flat.core.super.zmapBlock bit) → flat'.root block = flat.root block
  map : ∀ bit < flat.core.super.zmapBlocks * blockBits,
    flat.core.super.zmap flat'.root bit = true ↔
      flat.core.super.zmap flat.root bit = true ∧ bit ∉ bits

theorem Cleared.refl (flat : Flat) : Cleared ∅ flat flat where
  sameSuper := rfl
  devices _ _ := rfl
  blocks _ _ := rfl
  map bit inMap := by simp

theorem Cleared.congr {bits : Set ℕ} (cleared : Cleared bits flat flat')
    (sameSuper : flat''.core.super = flat'.core.super) (sameDisk : flat''.disk = flat'.disk) :
    Cleared bits flat flat'' := by
  have sameRoot : flat''.root = flat'.root := by
    unfold Flat.root
    rw [sameDisk]
  exact ⟨sameSuper.trans cleared.sameSuper, sameDisk ▸ cleared.devices, sameRoot ▸ cleared.blocks,
    sameRoot ▸ cleared.map⟩

/-- Zones are not in the map. -/
theorem Cleared.zone {bits : Set ℕ} (cleared : Cleared bits flat flat')
    (layout : flat.core.super.Layout) {zone : ℕ} (isZone : flat.core.super.firstdatazone ≤ zone) :
    flat'.root zone = flat.root zone := by
  apply cleared.blocks
  intro bit inMap
  have less := layout.zmapBlock_lt inMap
  omega

/-- The bit of a zone. -/
theorem Super.Layout.bit {super : Super} (layout : super.Layout) {zone : ℕ}
    (isFirst : super.firstdatazone ≤ zone) (isLast : zone < super.nzones) :
    ∃ bit < super.zmapBlocks * blockBits, zone = super.zoneOf bit := by
  refine ⟨zone + 1 - super.firstdatazone, ?_, ?_⟩
  · have covers := layout.covers
    omega
  · have order := layout.order
    unfold Super.zoneOf firstBlk at *
    omega

namespace Flat

open Fs

/-- A bit of the zone map is cleared. -/
def clearZmap (flat : Flat) (bit : ℕ) : Flat :=
  let block := flat.core.super.zmapBlock bit
  flat.setBlock (rootDev, block) ((flat.root block).clearBit (bit % blockBits))

theorem zmap_clearZmap {flat : Flat} {bit : ℕ} (other : ℕ) :
    flat.core.super.zmap (flat.clearZmap bit).root other = true ↔
      flat.core.super.zmap flat.root other = true ∧ other ≠ bit := by
  have isMap := @mapBit_clearMap flat rootDev (2 + flat.core.super.imapBlocks) bit other
  change flat.core.super.zmap (flat.clearZmap bit).root other = _ at isMap
  rw [isMap, Bool.and_eq_true, Bool.not_eq_true', decide_eq_false_iff_not]
  exact and_comm

section

variable {spec : Spec (FsOp FlatBuf) FsOp.Reply Flat} {allowed : Stop → Flat → Prop}
  [judges : Judges spec allowed] {flat : Flat} {post : Unit → Flat → Prop}

include judges

/-- `bfree` of a zone that is marked. -/
theorem wp_bfree {bit : ℕ} (layout : flat.core.super.Layout)
    (positive : 0 < bit) (isZone : flat.core.super.zoneOf bit < flat.core.super.nzones)
    (marked : flat.core.super.zmap flat.root bit = true) (holds : post () (flat.clearZmap bit)) :
    wp spec (bfree rootDev (flat.core.super.zoneOf bit)) post flat := by
  rw [Super.zoneOf, wp_bfree_marked layout.geometry positive isZone.le marked]
  exact holds

end

end Flat

/-- One more bit is cleared. -/
theorem Cleared.clearZmap {bits : Set ℕ} {bit : ℕ} (cleared : Cleared bits flat flat')
    (inMap : bit < flat.core.super.zmapBlocks * blockBits) :
    Cleared (insert bit bits) flat (flat'.clearZmap bit) where
  sameSuper := cleared.sameSuper
  devices dev notRoot := by
    rw [← cleared.devices dev notRoot]
    funext block
    exact Flat.setBlock_of_ne _ _ _ (by simp [notRoot])
  blocks block notMap := by
    rw [← cleared.blocks block notMap]
    apply Flat.root_setBlock_of_ne
    rw [cleared.sameSuper]
    exact notMap bit inMap
  map other inMapOther := by
    have isMap := @Flat.zmap_clearZmap flat' bit other
    rw [cleared.sameSuper, cleared.map other inMapOther] at isMap
    rw [isMap, Set.mem_insert_iff]
    tauto

/-- The bits of the zones that the inode in a slot names at these places. -/
def bitsOf (flat : Flat) (i : InodeId) (places : Set Place) : Set ℕ :=
  { bit | ∃ place ∈ places, flat.names i place = some (flat.core.super.zoneOf bit) }

theorem bitsOf_insert_none {place : Place} (places : Set Place)
    (unnamed : flat.names i place = none) :
    bitsOf flat i (insert place places) = bitsOf flat i places := by
  ext bit
  constructor
  · rintro ⟨other, rfl | isIn, named⟩
    · rw [unnamed] at named
      contradiction
    · exact ⟨other, isIn, named⟩
  · rintro ⟨other, isIn, named⟩
    exact ⟨other, Set.mem_insert_of_mem _ isIn, named⟩

theorem bitsOf_insert_some {place : Place} {bit : ℕ} (places : Set Place)
    (named : flat.names i place = some (flat.core.super.zoneOf bit)) :
    bitsOf flat i (insert place places) = insert bit (bitsOf flat i places) := by
  ext other
  constructor
  · rintro ⟨at', rfl | isIn, namedOther⟩
    · rw [named, Option.some.injEq] at namedOther
      left
      unfold Super.zoneOf at namedOther
      omega
    · exact Or.inr ⟨at', isIn, namedOther⟩
  · rintro (rfl | ⟨at', isIn, namedOther⟩)
    · exact ⟨place, Set.mem_insert _ _, named⟩
    · exact ⟨at', Set.mem_insert_of_mem _ isIn, namedOther⟩

section

open Fs

variable {spec : Spec (FsOp FlatBuf) FsOp.Reply Flat} {allowed : Stop → Flat → Prop}
  [judges : Flat.Judges spec allowed] {start : Flat} {post : Unit → Flat → Prop}
  {freed : Set Place}

include judges

/-- A zone of the inode is given back. -/
theorem wp_bfree_place {place : Place} {zone : ℕ}
    (zones : Zones start.core.super start.root nodes) (layout : start.core.super.Layout)
    (isSlot : nodes key = (start.core.inodes i).toInodeData)
    (cleared : Cleared (bitsOf start i freed) start flat) (notFreed : place ∉ freed)
    (named : start.names i place = some zone)
    (holds : ∀ flat', Cleared (bitsOf start i (insert place freed)) start flat' →
      flat'.core = flat.core → post () flat') :
    wp spec (bfree rootDev zone) post flat := by
  have held : holdsZone start.root nodes (key, place) = some zone := by
    rw [Flat.holdsZone_slot isSlot, named]
  obtain ⟨isFirst, isLast⟩ := zones.isZone _ _ held
  obtain ⟨bit, inMap, rfl⟩ := layout.bit isFirst isLast
  have order := layout.order
  have positive : 0 < bit := by
    unfold Super.zoneOf firstBlk at *
    omega
  have marked : start.core.super.zmap flat.root bit = true := by
    rw [cleared.map bit inMap]
    refine ⟨zones.marked _ bit inMap held, ?_⟩
    rintro ⟨other, isFreed, namedOther⟩
    have heldOther : holdsZone start.root nodes (key, other) =
        some (start.core.super.zoneOf bit) := by rw [Flat.holdsZone_slot isSlot, namedOther]
    have samePlace : other = place := congrArg Prod.snd (zones.exclusive _ _ _ heldOther held)
    exact notFreed (samePlace ▸ isFreed)
  have next := cleared.clearZmap inMap
  rw [← bitsOf_insert_some freed named] at next
  rw [← cleared.sameSuper] at layout isLast marked ⊢
  exact Flat.wp_bfree layout positive isLast marked (holds _ next rfl)

/-- The loop over the direct zones. -/
theorem wp_itruncDirect {direct : List (Fin ndirect)}
    (zones : Zones start.core.super start.root nodes) (layout : start.core.super.Layout)
    (isSlot : nodes key = (start.core.inodes i).toInodeData) (noDuplicate : direct.Nodup)
    (notFreed : ∀ index ∈ direct, .direct index ∉ freed)
    (isRoot : (flat.core.inodes i).dev = rootDev)
    (same : ∀ index ∈ direct,
      (flat.core.inodes i).direct index = (start.core.inodes i).direct index)
    (cleared : Cleared (bitsOf start i freed) start flat)
    (holds : ∀ flat',
      Cleared (bitsOf start i (freed ∪ { place | ∃ index ∈ direct, place = .direct index })) start
        flat' →
      flat'.core = flat.core.setInode i (fun old => { old with
        direct := fun index => if index ∈ direct then 0 else old.direct index }) →
      post () flat') :
    wp spec (itruncDirect i direct) post flat := by
  induction direct generalizing flat freed with
  | nil =>
      rw [itruncDirect]
      apply holds flat
      · simpa using cleared
      · simp [Core.setInode]
  | cons index rest ih =>
      have notIn : index ∉ rest := (List.nodup_cons.mp noDuplicate).1
      have isUnion : insert (Place.direct index) freed ∪
          { place | ∃ other ∈ rest, place = .direct other } =
            freed ∪ { place | ∃ other ∈ index :: rest, place = .direct other } := by
        ext place
        simp only [Set.mem_union, Set.mem_insert_iff, Set.mem_ofPred_eq, List.mem_cons]
        constructor
        · rintro ((rfl | isFreed) | ⟨other, isIn, rfl⟩)
          · exact Or.inr ⟨index, Or.inl rfl, rfl⟩
          · exact Or.inl isFreed
          · exact Or.inr ⟨other, Or.inr isIn, rfl⟩
        · rintro (isFreed | ⟨other, rfl | isIn, rfl⟩)
          · exact Or.inl (Or.inr isFreed)
          · exact Or.inl (Or.inl rfl)
          · exact Or.inr ⟨other, isIn, rfl⟩
      have notFreedRest : ∀ other ∈ rest, .direct other ∉ insert (Place.direct index) freed := by
        intro other isIn
        rw [Set.mem_insert_iff, Place.direct.injEq]
        rintro (rfl | isFreed)
        · exact notIn isIn
        · exact notFreed other (List.mem_cons_of_mem _ isIn) isFreed
      -- What the rest of the loop does from a state in which this zone is given back.
      have restHolds : ∀ next, Cleared (bitsOf start i (insert (.direct index) freed)) start next →
          next.core = flat.core.setInode i (fun old => { old with
            direct := Function.update old.direct index 0 }) →
          wp spec (itruncDirect i rest) post next := by
        intro next clearedNext isCore
        apply ih (List.nodup_cons.mp noDuplicate).2 notFreedRest
        · simp [isCore, Core.setInode, isRoot]
        · intro other isIn
          have different : other ≠ index := by
            rintro rfl
            exact notIn isIn
          rw [← same other (List.mem_cons_of_mem _ isIn), isCore]
          simp [Core.setInode, different]
        · exact clearedNext
        · intro flat' cleared' isCore'
          rw [isUnion] at cleared'
          apply holds flat' cleared'
          rw [isCore', isCore, Core.setInode_setInode]
          apply Core.setInode_congr
          simp only [Function.comp_apply]
          congr 2
          funext other
          rcases eq_or_ne other index with rfl | different
          · simp
          · simp [different]
      rw [itruncDirect]
      simp only [wp_bind, Flat.wp_getInode, wp_when, isRoot]
      split
      case isTrue notZero =>
        rw [same index List.mem_cons_self] at notZero ⊢
        have named : start.names i (.direct index) = some ((start.core.inodes i).direct index) :=
          Flat.names_eq_some.mpr ⟨rfl, notZero⟩
        apply wp_bfree_place zones layout isSlot cleared (notFreed index List.mem_cons_self) named
        intro next clearedNext isCore
        simp only [Flat.wp_setData]
        apply restHolds
        · exact clearedNext.congr rfl rfl
        · simp only [Flat.setData, Flat.setInode, isCore]
      case isFalse isZero =>
        have isZero' : (flat.core.inodes i).direct index = 0 := by simpa using isZero
        have unnamed : start.names i (.direct index) = none := by
          rw [same index List.mem_cons_self] at isZero'
          exact Flat.names_eq_none.mpr isZero'
        apply restHolds flat
        · rw [bitsOf_insert_none freed unnamed]
          exact cleared
        · have isSame : Function.update (flat.core.inodes i).direct index 0 =
              (flat.core.inodes i).direct := by
            rw [← isZero', Function.update_eq_self]
          simp [Core.setInode, isSame]

/-- The loop over the entries of the indirect block. -/
theorem wp_itruncEntries {entries : List ℕ} {buf : FlatBuf}
    (zones : Zones start.core.super start.root nodes) (layout : start.core.super.Layout)
    (isSlot : nodes key = (start.core.inodes i).toInodeData) (noDuplicate : entries.Nodup)
    (less : ∀ entry ∈ entries, entry < nindirect)
    (notFreed : ∀ entry (isIn : entry ∈ entries), .entry ⟨entry, less entry isIn⟩ ∉ freed)
    (isRoot : (flat.core.inodes i).dev = rootDev)
    (hasIndirect : (start.core.inodes i).indirect ≠ 0)
    (isBuf : buf = (rootDev, (start.core.inodes i).indirect))
    (cleared : Cleared (bitsOf start i freed) start flat)
    (holds : ∀ flat', Cleared (bitsOf start i
        (freed ∪ { place | ∃ entry : Fin nindirect, ↑entry ∈ entries ∧ place = .entry entry }))
          start flat' → flat'.core = flat.core → post () flat') :
    wp spec (itruncEntries i buf entries) post flat := by
  induction entries generalizing flat freed with
  | nil =>
      rw [itruncEntries]
      apply holds flat _ rfl
      simpa using cleared
  | cons entry rest ih =>
      have notIn : entry ∉ rest := (List.nodup_cons.mp noDuplicate).1
      have isEntry := less entry List.mem_cons_self
      have isUnion : insert (Place.entry ⟨entry, isEntry⟩) freed ∪
          { place | ∃ other : Fin nindirect, ↑other ∈ rest ∧ place = .entry other } =
            freed ∪ { place | ∃ other : Fin nindirect, ↑other ∈ entry :: rest ∧
              place = .entry other } := by
        ext place
        simp only [Set.mem_union, Set.mem_insert_iff, Set.mem_ofPred_eq, List.mem_cons]
        constructor
        · rintro ((rfl | isFreed) | ⟨other, isIn, rfl⟩)
          · exact Or.inr ⟨⟨entry, isEntry⟩, Or.inl rfl, rfl⟩
          · exact Or.inl isFreed
          · exact Or.inr ⟨other, Or.inr isIn, rfl⟩
        · rintro (isFreed | ⟨other, isFirst | isIn, rfl⟩)
          · exact Or.inl (Or.inr isFreed)
          · exact Or.inl (Or.inl (congrArg Place.entry (Fin.ext isFirst)))
          · exact Or.inr ⟨other, isIn, rfl⟩
      have notFreedRest : ∀ other (isIn : other ∈ rest),
          .entry ⟨other, less other (List.mem_cons_of_mem _ isIn)⟩ ∉
            insert (Place.entry ⟨entry, isEntry⟩) freed := by
        intro other isIn
        rw [Set.mem_insert_iff, Place.entry.injEq, Fin.mk.injEq]
        rintro (rfl | isFreed)
        · exact notIn isIn
        · exact notFreed other (List.mem_cons_of_mem _ isIn) isFreed
      have restHolds : ∀ next,
          Cleared (bitsOf start i (insert (.entry ⟨entry, isEntry⟩) freed)) start next →
          next.core = flat.core → wp spec (itruncEntries i buf rest) post next := by
        intro next clearedNext isCore
        apply ih (List.nodup_cons.mp noDuplicate).2 _ notFreedRest
        · rw [isCore, isRoot]
        · exact clearedNext
        · intro flat' cleared' isCore'
          rw [isUnion] at cleared'
          exact holds flat' cleared' (isCore'.trans isCore)
      have isBlock : flat.disk buf.1 buf.2 = start.root (start.core.inodes i).indirect := by
        have held : holdsZone start.root nodes (key, .indirect) =
            some (start.core.inodes i).indirect :=
          holdsZone_eq_some.mpr ⟨by simp [InodeData.zoneAt, isSlot], hasIndirect⟩
        rw [isBuf]
        exact cleared.zone layout (zones.isZone _ _ held).1
      rw [itruncEntries]
      simp only [wp_bind, Flat.wp_bdata, wp_when, Flat.wp_getInode, isRoot, isBlock]
      split
      case isTrue notZero =>
        have named : start.names i (.entry ⟨entry, isEntry⟩) =
            some ((start.root (start.core.inodes i).indirect).get16 (2 * entry)) := by
          rw [Flat.names_eq_some, InodeData.zoneAt, if_neg hasIndirect]
          exact ⟨rfl, notZero⟩
        exact wp_bfree_place zones layout isSlot cleared (notFreed entry List.mem_cons_self) named
          restHolds
      case isFalse isZero =>
        have unnamed : start.names i (.entry ⟨entry, isEntry⟩) = none := by
          rw [Flat.names_eq_none, InodeData.zoneAt, if_neg hasIndirect]
          simpa using isZero
        apply restHolds flat _ rfl
        rw [bitsOf_insert_none freed unnamed]
        exact cleared

end

/-- The inode in slot `i` has lost all its zones. -/
structure Truncated [DecidableEq Key] (i : InodeId) (key : Key) (nodes : Key → InodeData)
    (flat flat' : Flat) : Prop where
  core : flat'.core = flat.core.setInode i fun old =>
    { old with size := 0, direct := fun _ => 0, indirect := 0, dirty := false }
  devices : ∀ dev ≠ rootDev, flat'.disk dev = flat.disk dev
  blocks : ∀ block, block ≠ Fs.inodeBlock flat.core.super (flat.core.inodes i).inodeno →
    (∀ bit < flat.core.super.zmapBlocks * blockBits, block ≠ flat.core.super.zmapBlock bit) →
      flat'.root block = flat.root block
  zones : Zones flat.core.super flat'.root (withSlot nodes key flat' i)

/-- The block of an inode is not in the zone map. -/
theorem inodeBlock_ne_zmapBlock {super : Super} {inodeno bit : ℕ}
    (inMap : bit < super.zmapBlocks * blockBits) :
    Fs.inodeBlock super inodeno ≠ super.zmapBlock bit := by
  have quotient : bit / blockBits < super.zmapBlocks :=
    Nat.div_lt_of_lt_mul (by rwa [Nat.mul_comm])
  unfold Fs.inodeBlock Super.zmapBlock firstBlk
  generalize toUint (inodeno - 1) / inodesPerBlock = row
  generalize bit / blockBits = column at *
  omega

section

open Fs

variable [DecidableEq Key]

/-- All bits of the inode are clear, and its zones are named by nobody. -/
theorem Cleared.truncated (zones : Zones flat.core.super flat.root nodes)
    (layout : flat.core.super.Layout) (isSlot : nodes key = (flat.core.inodes i).toInodeData)
    (inTable : inodeBlock flat.core.super (flat.core.inodes i).inodeno <
      flat.core.super.firstdatazone)
    (cleared : Cleared (bitsOf flat i Set.univ) flat flat')
    (isCore : flat''.core = flat.core.setInode i fun old =>
      { old with size := 0, direct := fun _ => 0, indirect := 0, dirty := false })
    (devices : ∀ dev ≠ rootDev, flat''.disk dev = flat'.disk dev)
    (blocks : ∀ block ≠ inodeBlock flat.core.super (flat.core.inodes i).inodeno,
      flat''.root block = flat'.root block) :
    Truncated i key nodes flat flat'' := by
  have sameZone : ∀ zone, flat.core.super.firstdatazone ≤ zone →
      flat''.root zone = flat.root zone := by
    intro zone isFirst
    rw [blocks zone (by omega), cleared.zone layout isFirst]
  have sameMap : ∀ bit < flat.core.super.zmapBlocks * blockBits,
      flat.core.super.zmap flat''.root bit = flat.core.super.zmap flat'.root bit := by
    intro bit inMap
    rw [Super.zmap, blocks _ (inodeBlock_ne_zmapBlock inMap).symm]
    rfl
  have isNode : (flat''.core.inodes i).toInodeData = { (flat.core.inodes i).toInodeData with
      size := 0, direct := fun _ => 0, indirect := 0 } := by
    rw [isCore]
    simp [Core.setInode]
  have noneHeld : ∀ place, holdsZone flat''.root (withSlot nodes key flat'' i) (key, place) =
      none := by
    intro place
    cases place <;> simp [holdsZone, withSlot, isNode, InodeData.zoneAt]
  have sameHeld : ∀ other ≠ key, ∀ place,
      holdsZone flat''.root (withSlot nodes key flat'' i) (other, place) =
        holdsZone flat.root nodes (other, place) := by
    intro other different place
    have sameNode : withSlot nodes key flat'' i other = nodes other :=
      Function.update_of_ne different _ _
    have sameZoneAt : (nodes other).zoneAt flat''.root place =
        (nodes other).zoneAt flat.root place := by
      cases place with
      | direct index => rfl
      | indirect => rfl
      | entry index =>
          by_cases isZero : (nodes other).indirect = 0
          · simp [InodeData.zoneAt, isZero]
          · have held : holdsZone flat.root nodes (other, .indirect) =
                some (nodes other).indirect := holdsZone_eq_some.mpr ⟨rfl, isZero⟩
            simp only [InodeData.zoneAt, sameZone _ (zones.isZone _ _ held).1]
    rw [holdsZone, sameNode, sameZoneAt]
    rfl
  have wasHeld : ∀ holder zone, holdsZone flat''.root (withSlot nodes key flat'' i) holder =
      some zone → holder.1 ≠ key ∧ holdsZone flat.root nodes holder = some zone := by
    rintro ⟨other, place⟩ zone held
    have different : other ≠ key := by
      rintro rfl
      rw [noneHeld] at held
      contradiction
    rw [sameHeld other different] at held
    exact ⟨different, held⟩
  refine ⟨isCore, ?_, ?_, ⟨?_, ?_, ?_, ?_⟩⟩
  · intro dev notRoot
    rw [devices dev notRoot, cleared.devices dev notRoot]
  · intro block notInode notMap
    rw [blocks block notInode, cleared.blocks block notMap]
  · intro first second zone heldFirst heldSecond
    exact zones.exclusive first second zone (wasHeld _ _ heldFirst).2 (wasHeld _ _ heldSecond).2
  · intro holder bit inMap held
    obtain ⟨different, heldBefore⟩ := wasHeld _ _ held
    rw [sameMap bit inMap, cleared.map bit inMap]
    refine ⟨zones.marked holder bit inMap heldBefore, ?_⟩
    rintro ⟨place, -, named⟩
    have heldKey : holdsZone flat.root nodes (key, place) =
        some (flat.core.super.zoneOf bit) := by rw [Flat.holdsZone_slot isSlot, named]
    exact different (congrArg Prod.fst (zones.exclusive _ _ _ heldBefore heldKey))
  · intro holder zone held
    exact zones.isZone holder zone (wasHeld _ _ held).2
  · intro bit inMap isClear
    rw [sameMap bit inMap] at isClear
    cases wasMarked : flat.core.super.zmap flat.root bit with
    | false => exact zones.formatted bit inMap wasMarked
    | true =>
        have isFreed : bit ∈ bitsOf flat i Set.univ := by
          by_contra notFreed
          rw [(cleared.map bit inMap).mpr ⟨wasMarked, notFreed⟩] at isClear
          contradiction
        obtain ⟨place, -, named⟩ := isFreed
        have heldKey : holdsZone flat.root nodes (key, place) =
            some (flat.core.super.zoneOf bit) := by rw [Flat.holdsZone_slot isSlot, named]
        obtain ⟨isFirst, isLast⟩ := zones.isZone _ _ heldKey
        have order := layout.order
        refine ⟨?_, isLast⟩
        unfold Super.zoneOf firstBlk at *
        omega

variable {spec : Spec (FsOp FlatBuf) FsOp.Reply Flat} {allowed : Stop → Flat → Prop}
  [judges : Flat.Judges spec allowed] {post : Unit → Flat → Prop}

include judges

omit [DecidableEq Key] in
/-- `itrunc` clears the bits of all zones that the inode names, and writes the inode. -/
theorem wp_itrunc_cleared (zones : Zones flat.core.super flat.root nodes)
    (layout : flat.core.super.Layout) (isSlot : nodes key = (flat.core.inodes i).toInodeData)
    (isRoot : (flat.core.inodes i).dev = rootDev) (locked : (flat.core.inodes i).lock = true)
    (holds : ∀ next, Cleared (bitsOf flat i Set.univ) flat next →
      next.core = flat.core.setInode i (fun old => { old with
        size := 0, direct := fun _ => 0, indirect := 0, dirty := true }) →
      post () (next.saved i)) :
    wp spec (itrunc i) post flat := by
  have isStart : Cleared (bitsOf flat i ∅) flat flat := by
    have isEmpty : bitsOf flat i ∅ = ∅ := by
      ext bit
      simp [bitsOf]
    rw [isEmpty]
    exact Cleared.refl flat
  -- The end of the function, once all zones are given back.
  have ends : ∀ next, Cleared (bitsOf flat i Set.univ) flat next →
      next.core = flat.core.setInode i (fun old => { old with
        direct := fun _ => 0, indirect := 0 }) →
      wp spec (do
        setData i fun old => { old with size := 0 }
        setDirty i true
        iupdate i) post next := by
    intro next cleared isCore
    simp only [wp_bind, Flat.wp_setData, Flat.wp_setDirty]
    rw [Flat.wp_iupdate_iff, if_pos (by simp)]
    apply holds
    · exact cleared.congr rfl rfl
    · simp only [Flat.setData, Flat.setInode, isCore, Core.setInode_setInode]
      exact Core.setInode_congr rfl
  simp only [itrunc, wp_bind, Flat.wp_getInode, locked, Bool.not_true, Bool.false_eq_true, if_false]
  apply wp_itruncDirect zones layout isSlot (List.nodup_finRange ndirect) (by simp) isRoot
    (fun _ _ => rfl) isStart
  intro next cleared isCore
  have isNext : next.core.inodes i = { flat.core.inodes i with direct := fun _ => 0 } := by
    simp [isCore, Core.setInode]
  simp only [isNext, wp_when]
  split
  case isFalse isZero =>
    have noIndirect : (flat.core.inodes i).indirect = 0 := by simpa using isZero
    apply ends next
    · have sameBits : bitsOf flat i (∅ ∪ { place | ∃ index ∈ List.finRange ndirect,
          place = .direct index }) = bitsOf flat i Set.univ := by
        ext bit
        constructor
        · rintro ⟨place, -, named⟩
          exact ⟨place, trivial, named⟩
        · rintro ⟨place, -, named⟩
          cases place with
          | direct index => exact ⟨.direct index, Or.inr ⟨index, by simp, rfl⟩, named⟩
          | indirect =>
              have isZoneAt := Flat.names_eq_some.mp named
              exact absurd (isZoneAt.1.symm.trans noIndirect) isZoneAt.2
          | entry entry =>
              have isZoneAt := Flat.names_eq_some.mp named
              rw [InodeData.zoneAt, if_pos noIndirect] at isZoneAt
              exact absurd isZoneAt.1.symm isZoneAt.2
      rw [← sameBits]
      exact cleared
    · rw [isCore]
      apply Core.setInode_congr
      simp [noIndirect]
  case isTrue hasIndirect =>
    simp only [wp_bind, Flat.wp_bread, isRoot]
    have isRootNext : (next.core.inodes i).dev = rootDev := by rw [isNext, isRoot]
    have noDuplicate : (List.range nindirect).Nodup := List.nodup_range
    have isEntry : ∀ entry, entry ∈ List.range nindirect ↔ entry < nindirect :=
      fun entry => List.mem_range
    generalize List.range nindirect = entries at *
    apply wp_itruncEntries zones layout isSlot noDuplicate (fun entry => (isEntry entry).mp)
      (by simp) isRootNext hasIndirect rfl cleared
    intro later clearedLater isCoreLater
    have named : flat.names i .indirect = some (flat.core.inodes i).indirect :=
      Flat.names_eq_some.mpr ⟨rfl, hasIndirect⟩
    simp only [Flat.wp_brelse, Flat.wp_getInode, isCoreLater, isNext, isRoot]
    apply wp_bfree_place zones layout isSlot clearedLater (by simp) named
    intro last clearedLast isCoreLast
    rw [Flat.wp_setData]
    apply ends
    · have allPlaces : insert Place.indirect (∅ ∪ { place | ∃ index ∈ List.finRange ndirect,
          place = .direct index } ∪ { place | ∃ entry : Fin nindirect,
            ↑entry ∈ entries ∧ place = .entry entry }) = Set.univ := by
        ext place
        cases place <;> simp [isEntry]
      rw [allPlaces] at clearedLast
      exact clearedLast.congr rfl rfl
    · simp only [Flat.setData, Flat.setInode, isCoreLast, isCoreLater, isCore,
        Core.setInode_setInode]
      apply Core.setInode_congr
      simp

/-- `itrunc` gives back all zones of the inode. -/
theorem wp_itrunc (zones : Zones flat.core.super flat.root nodes)
    (layout : flat.core.super.Layout) (isSlot : nodes key = (flat.core.inodes i).toInodeData)
    (isRoot : (flat.core.inodes i).dev = rootDev) (locked : (flat.core.inodes i).lock = true)
    (inTable : inodeBlock flat.core.super (flat.core.inodes i).inodeno <
      flat.core.super.firstdatazone)
    (holds : ∀ flat', Truncated i key nodes flat flat' → post () flat') :
    wp spec (itrunc i) post flat := by
  refine wp_itrunc_cleared zones layout isSlot isRoot locked fun next cleared isCore => ?_
  have isBlock : next.recordBlock i =
      (rootDev, inodeBlock flat.core.super (flat.core.inodes i).inodeno) := by
    simp [Flat.recordBlock, isCore, Core.setInode, isRoot]
  apply holds
  apply cleared.truncated zones layout isSlot inTable
  · simp only [Flat.saved, Flat.setInode, Flat.setBlock, isCore, Core.setInode_setInode]
    exact Core.setInode_congr rfl
  · intro dev notRoot
    funext block
    rw [Flat.saved, Flat.setInode_disk, isBlock]
    exact Flat.setBlock_of_ne _ _ _ (by simp [notRoot])
  · intro block notBlock
    unfold Flat.saved
    rw [isBlock]
    exact Flat.root_setBlock_of_ne notBlock

end

end Osix
