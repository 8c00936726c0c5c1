import Osix.Fs.Flat
import Mathlib.Data.List.Find
import Mathlib.Tactic.IntervalCases

/-!
# Bitmaps on the disk

The inode map and the zone map are bitmaps that span several blocks. `balloc` and `ialloc` search
them block by block for the first clear bit, `bfree` and `ifree` clear one bit. Here a map is the
function from bit numbers to bits that its blocks hold (`mapBit`).
-/

namespace Osix

open Program

/-! ## The bits of a block -/

namespace Block

theorem getBit_setBit (data : Block) (bit other : ℕ) :
    (data.setBit bit).getBit other = (decide (other = bit) || data.getBit other) := by
  unfold getBit setBit
  rcases eq_or_ne (other / 8) (bit / 8) with sameByte | otherByte
  · rw [sameByte, Function.update_self, BitVec.getLsbD_or]
    have isBit : (1#8 <<< (bit % 8)).getLsbD (other % 8) = decide (other % 8 = bit % 8) := by
      have lessBit : bit % 8 < 8 := Nat.mod_lt _ (by decide)
      have lessOther : other % 8 < 8 := Nat.mod_lt _ (by decide)
      generalize bit % 8 = b at *
      generalize other % 8 = o at *
      interval_cases b <;> interval_cases o <;> decide
    have sameIff : (other % 8 = bit % 8) ↔ other = bit := by omega
    rw [isBit, Bool.or_comm]
    simp only [sameIff]
  · have different : other ≠ bit := fun same => otherByte (by rw [same])
    simp [Function.update_of_ne otherByte, different]

theorem getBit_clearBit (data : Block) (bit other : ℕ) :
    (data.clearBit bit).getBit other = (!decide (other = bit) && data.getBit other) := by
  unfold getBit clearBit
  rcases eq_or_ne (other / 8) (bit / 8) with sameByte | otherByte
  · rw [sameByte, Function.update_self, BitVec.getLsbD_and]
    have isBit : (~~~(1#8 <<< (bit % 8))).getLsbD (other % 8) = !decide (other % 8 = bit % 8) := by
      have lessBit : bit % 8 < 8 := Nat.mod_lt _ (by decide)
      have lessOther : other % 8 < 8 := Nat.mod_lt _ (by decide)
      generalize bit % 8 = b at *
      generalize other % 8 = o at *
      interval_cases b <;> interval_cases o <;> decide
    have sameIff : (other % 8 = bit % 8) ↔ other = bit := by omega
    rw [isBit, Bool.and_comm]
    simp only [sameIff]
  · have different : other ≠ bit := fun same => otherByte (by rw [same])
    simp [Function.update_of_ne otherByte, different]

theorem firstClear_some {data : Block} {bit : ℕ} (found : data.firstClear = some bit) :
    bit < blockBits ∧ data.getBit bit = false := by
  have isIn := List.mem_of_find?_eq_some found
  have isClear := List.find?_some found
  exact ⟨List.mem_range.mp isIn, by simpa using isClear⟩

end Block

/-! ## Maps of several blocks -/

/-- A bit of the map that starts at block `first`. -/
def mapBit (disk : ℕ → Block) (first bit : ℕ) : Bool :=
  (disk (first + bit / blockBits)).getBit (bit % blockBits)

theorem mapBit_succ (disk : ℕ → Block) (first bit : ℕ) :
    mapBit disk (first + 1) bit = mapBit disk first (blockBits + bit) := by
  unfold mapBit
  rw [Nat.add_div_left bit (by decide : 0 < blockBits), Nat.add_mod_left, Nat.add_right_comm,
    Nat.add_assoc first]

theorem mapBit_of_lt (disk : ℕ → Block) (first : ℕ) {bit : ℕ} (less : bit < blockBits) :
    mapBit disk first bit = (disk first).getBit bit := by
  rw [mapBit, Nat.div_eq_of_lt less, Nat.mod_eq_of_lt less, Nat.add_zero]

/-- The first clear bit of a map, searched block by block. -/
def findClear (disk : ℕ → Block) (first blocks : ℕ) : Option ℕ :=
  (List.range (blocks * blockBits)).find? fun bit => !mapBit disk first bit

theorem findClear_some {disk : ℕ → Block} {first blocks bit : ℕ}
    (found : findClear disk first blocks = some bit) :
    bit < blocks * blockBits ∧ mapBit disk first bit = false := by
  have isIn := List.mem_of_find?_eq_some found
  have isClear := List.find?_some found
  exact ⟨List.mem_range.mp isIn, by simpa using isClear⟩

theorem findClear_none {disk : ℕ → Block} {first blocks bit : ℕ}
    (full : findClear disk first blocks = none) (less : bit < blocks * blockBits) :
    mapBit disk first bit = true := by
  have isSet := List.find?_eq_none.mp full bit (List.mem_range.mpr less)
  simpa using isSet

/-- The search looks at the first block, and then at the map without it. -/
theorem findClear_succ (disk : ℕ → Block) (first blocks : ℕ) :
    findClear disk first (blocks + 1) =
      match (disk first).firstClear with
      | some bit => some bit
      | none => (findClear disk (first + 1) blocks).map (blockBits + ·) := by
  have isSplit : List.range ((blocks + 1) * blockBits) =
      List.range blockBits ++ (List.range (blocks * blockBits)).map (blockBits + ·) := by
    rw [Nat.add_mul, Nat.one_mul, Nat.add_comm, List.range_add]
  have isHead : (List.range blockBits).find? (fun bit => !mapBit disk first bit) =
      (disk first).firstClear := by
    have sameBits : ∀ bit ∈ List.range blockBits,
        (!mapBit disk first bit) = !(disk first).getBit bit := by
      intro bit isIn
      rw [mapBit_of_lt disk first (List.mem_range.mp isIn)]
    rw [Block.firstClear, List.find?_congr sameBits]
  have isTail : ((List.range (blocks * blockBits)).map (blockBits + ·)).find?
      (fun bit => !mapBit disk first bit) =
        (findClear disk (first + 1) blocks).map (blockBits + ·) := by
    have sameBits : ∀ bit ∈ List.range (blocks * blockBits),
        ((fun bit => !mapBit disk first bit) ∘ (blockBits + ·)) bit =
          !mapBit disk (first + 1) bit := by
      intro bit _
      rw [Function.comp_apply, mapBit_succ]
    rw [List.find?_map, findClear, List.find?_congr sameBits]
  rw [findClear, isSplit, List.find?_append, isHead, isTail]
  cases (disk first).firstClear <;> simp

/-- The zone map has a bit for a first zone; the fields of the super block have 16 bits. -/
structure Super.Geometry (super : Super) : Prop where
  zones : super.nzones < 2 ^ 16
  maps : super.zmapBlocks < 2 ^ 16
  first : 0 < super.firstdatazone
  firstSmall : super.firstdatazone < 2 ^ 16

/-- The number of the bit of a zone, as `bfree` computes it in an `unsigned int`. -/
def Super.zoneIndex (super : Super) (zone : ℕ) : ℕ := toUint (zone - super.firstdatazone + 1)

namespace Flat

/-- A bit of the map of a device is set. -/
def setMap (flat : Flat) (dev : Dev) (first bit : ℕ) : Flat :=
  flat.setBlock (dev, first + bit / blockBits)
    ((flat.disk dev (first + bit / blockBits)).setBit (bit % blockBits))

/-- A bit of the map of a device is cleared. -/
def clearMap (flat : Flat) (dev : Dev) (first bit : ℕ) : Flat :=
  flat.setBlock (dev, first + bit / blockBits)
    ((flat.disk dev (first + bit / blockBits)).clearBit (bit % blockBits))

variable {flat : Flat} {dev : Dev} {first bit : ℕ}

@[simp]
theorem setMap_core : (flat.setMap dev first bit).core = flat.core := rfl

@[simp]
theorem clearMap_core : (flat.clearMap dev first bit).core = flat.core := rfl

theorem setMap_succ :
    flat.setMap dev (first + 1) bit = flat.setMap dev first (blockBits + bit) := by
  unfold setMap
  rw [Nat.add_div_left bit (by decide : 0 < blockBits), Nat.add_mod_left, Nat.add_right_comm,
    Nat.add_assoc first]

theorem setMap_of_lt (less : bit < blockBits) :
    flat.setMap dev first bit = flat.setBlock (dev, first) ((flat.disk dev first).setBit bit) := by
  rw [setMap, Nat.div_eq_of_lt less, Nat.mod_eq_of_lt less, Nat.add_zero]

/-- A store to the block of one bit, as seen from the other bits of the map. -/
theorem mapBit_setBlock (data : Block) (other : ℕ) :
    mapBit ((flat.setBlock (dev, first + bit / blockBits) data).disk dev) first other =
      if other / blockBits = bit / blockBits then data.getBit (other % blockBits)
      else mapBit (flat.disk dev) first other := by
  unfold mapBit
  split
  · rename_i sameBlock
    rw [sameBlock]
    exact congrArg (Block.getBit · _) (setBlock_self flat (dev, first + bit / blockBits) data)
  · rename_i otherBlock
    rw [setBlock_of_ne]
    intro same
    have sameBlock := congrArg Prod.snd same
    simp only at sameBlock
    omega

/-- Bits of one block with the same number in it. -/
theorem bit_eq_iff {other : ℕ} (sameBlock : other / blockBits = bit / blockBits) :
    other % blockBits = bit % blockBits ↔ other = bit := by
  constructor
  · intro sameRemainder
    rw [← Nat.div_add_mod other blockBits, ← Nat.div_add_mod bit blockBits, sameBlock,
      sameRemainder]
  · rintro rfl
    rfl

theorem mapBit_setMap (other : ℕ) :
    mapBit ((flat.setMap dev first bit).disk dev) first other =
      (decide (other = bit) || mapBit (flat.disk dev) first other) := by
  rw [setMap, mapBit_setBlock]
  split
  · rename_i sameBlock
    rw [Block.getBit_setBit, mapBit, sameBlock]
    simp only [bit_eq_iff sameBlock]
  · rename_i otherBlock
    have different : other ≠ bit := fun same => otherBlock (by rw [same])
    simp [different]

theorem mapBit_clearMap (other : ℕ) :
    mapBit ((flat.clearMap dev first bit).disk dev) first other =
      (!decide (other = bit) && mapBit (flat.disk dev) first other) := by
  rw [clearMap, mapBit_setBlock]
  split
  · rename_i sameBlock
    rw [Block.getBit_clearBit, mapBit, sameBlock]
    simp only [bit_eq_iff sameBlock]
  · rename_i otherBlock
    have different : other ≠ bit := fun same => otherBlock (by rw [same])
    simp [different]

/-! ## Taking and giving back -/

section

open Fs

theorem ballocLoop_zero (dev : Dev) (zmapBlock blockNo : ℕ) :
    (ballocLoop dev 0 zmapBlock blockNo : FsM FlatBuf ℕ) = (do
      mark .noZone
      return 0) := rfl

seal blockBits in
theorem ballocLoop_succ (dev : Dev) (blocks zmapBlock blockNo : ℕ) :
    (ballocLoop dev (blocks + 1) zmapBlock blockNo : FsM FlatBuf ℕ) = (do
      let buf ← bread dev zmapBlock
      match (← bdata buf).firstClear with
      | some bit =>
          bstore buf fun zmap => zmap.setBit bit
          bwrite buf
          brelse buf
          return toUint (blockNo + bit)
      | none =>
          brelse buf
          ballocLoop dev blocks (zmapBlock + 1) (blockNo + blockBits)) := rfl

variable {spec : Spec (FsOp FlatBuf) FsOp.Reply Flat} {allowed : Stop → Flat → Prop}
  [judges : Judges spec allowed]

include judges

/-- The loop of `balloc` takes the first clear bit of the map. -/
theorem wp_ballocLoop_find {post : ℕ → Flat → Prop} {blocks zmapBlock blockNo : ℕ}
    (small : blockNo + blocks * blockBits ≤ 2 ^ 32) :
    wp spec (ballocLoop dev blocks zmapBlock blockNo) post flat ↔
      match findClear (flat.disk dev) zmapBlock blocks with
      | some bit => post (blockNo + bit) (flat.setMap dev zmapBlock bit)
      | none => wp spec (mark .noZone) (fun _ flat' => post 0 flat') flat := by
  induction blocks generalizing zmapBlock blockNo with
  | zero =>
      rw [ballocLoop_zero]
      have isEmpty : findClear (flat.disk dev) zmapBlock 0 = none := by simp [findClear]
      simp only [isEmpty, wp_bind, wp_pure]
  | succ blocks ih =>
      rw [ballocLoop_succ, findClear_succ]
      simp only [wp_bind, wp_bread, wp_bdata]
      cases found : (flat.disk dev zmapBlock).firstClear with
      | some bit =>
          rcases Block.firstClear_some found with ⟨less, -⟩
          have isNumber : toUint ((blockNo : ℤ) + (bit : ℤ)) = blockNo + bit := by
            rw [← Int.natCast_add]
            apply toUint_natCast
            rw [Nat.add_mul] at small
            omega
          simp only [wp_bind, wp_bstore, wp_bwrite, wp_brelse, wp_pure, isNumber]
          rw [setMap_of_lt less]
      | none =>
          have fits : blockNo + blockBits + blocks * blockBits ≤ 2 ^ 32 := by
            rw [Nat.add_mul] at small
            omega
          simp only [wp_bind, wp_brelse, ih fits]
          cases findClear (flat.disk dev) (zmapBlock + 1) blocks with
          | some bit =>
              simp only [Option.map_some]
              rw [setMap_succ, Nat.add_assoc]
          | none => rfl

/-- `bfree` of any zone. -/
theorem wp_bfree_iff {post : Unit → Flat → Prop} {zone : ℕ} :
    wp spec (bfree dev zone) post flat ↔
      if zone < 1 ∨ flat.core.super.nzones < zone then allowed (.panic .bfreeBadBlockNo) flat
      else if mapBit (flat.disk dev) (2 + flat.core.super.imapBlocks)
          (flat.core.super.zoneIndex zone) then
        post () (flat.clearMap dev (2 + flat.core.super.imapBlocks)
          (flat.core.super.zoneIndex zone))
      else allowed (.panic .bfreeBlockNotAllocated) flat := by
  have isIndex : toUint ((zone : ℤ) - flat.core.super.firstdatazone + 1) =
      flat.core.super.zoneIndex zone := rfl
  simp only [bfree, wp_bind, wp_getCore, isIndex, Nat.add_comm _ (2 + flat.core.super.imapBlocks)]
  split
  · rw [wp_panic]
  · simp only [wp_bind, wp_bread, wp_bdata]
    split
    · rename_i marked
      rw [if_pos (show mapBit _ _ _ = true from marked)]
      simp only [wp_bind, wp_bstore, wp_bwrite, wp_brelse]
      rfl
    · rename_i unmarked
      rw [if_neg (show ¬mapBit _ _ _ = true from unmarked), wp_panic]

/-- `ifree` of any number. -/
theorem wp_ifree_iff {post : Unit → Flat → Prop} {inodeno : ℕ} :
    wp spec (ifree dev inodeno) post flat ↔
      if inodeno < 1 then allowed (.panic .ifreeBadInodeno) flat
      else if flat.core.super.imapBlocks ≤ (inodeno - 1) / blockBits then
        allowed (.panic .ifreeOutOfRange) flat
      else if mapBit (flat.disk dev) 2 (inodeno - 1) then
        post () (flat.clearMap dev 2 (inodeno - 1))
      else allowed (.panic .ifreeNotAllocated) flat := by
  simp only [ifree, wp_bind, wp_getCore, Nat.add_comm _ 2]
  split
  · rw [wp_panic]
  split
  · rw [wp_panic]
  simp only [wp_bind, wp_bread, wp_bdata]
  split
  · rename_i marked
    rw [if_pos (show mapBit _ _ _ = true from marked)]
    simp only [wp_bind, wp_bstore, wp_bwrite, wp_brelse]
    rfl
  · rename_i unmarked
    rw [if_neg (show ¬mapBit _ _ _ = true from unmarked), wp_panic]

variable (geometry : flat.core.super.Geometry)

include geometry

/-- `balloc` takes the zone of the first clear bit of the zone map. -/
theorem wp_balloc_find {post : ℕ → Flat → Prop} :
    wp spec (balloc dev) post flat ↔
      match findClear (flat.disk dev) (2 + flat.core.super.imapBlocks)
          flat.core.super.zmapBlocks with
      | some bit => post (flat.core.super.firstdatazone - 1 + bit)
          (flat.setMap dev (2 + flat.core.super.imapBlocks) bit)
      | none => wp spec (mark .noZone) (fun _ flat' => post 0 flat') flat := by
  have first := geometry.first
  have firstSmall := geometry.firstSmall
  have isBase : toUint (flat.core.super.firstdatazone - 1) =
      flat.core.super.firstdatazone - 1 := by
    unfold toUint
    omega
  have small : flat.core.super.firstdatazone - 1 + flat.core.super.zmapBlocks * blockBits ≤
      2 ^ 32 := by
    have atMost := Nat.mul_le_mul_right blockBits geometry.maps.le
    unfold blockBits blockSize at *
    omega
  simp only [balloc, wp_bind, wp_getCore, isBase]
  exact wp_ballocLoop_find small

/-- `bfree` of a zone that is marked in the zone map. -/
theorem wp_bfree_marked {post : Unit → Flat → Prop} (positive : 0 < bit)
    (isZone : flat.core.super.firstdatazone - 1 + bit ≤ flat.core.super.nzones)
    (marked : mapBit (flat.disk dev) (2 + flat.core.super.imapBlocks) bit = true) :
    wp spec (bfree dev (flat.core.super.firstdatazone - 1 + bit)) post flat ↔
      post () (flat.clearMap dev (2 + flat.core.super.imapBlocks) bit) := by
  have first := geometry.first
  have zones := geometry.zones
  have inRange : ¬(flat.core.super.firstdatazone - 1 + bit < 1 ∨
      flat.core.super.nzones < flat.core.super.firstdatazone - 1 + bit) := by
    omega
  have isIndex : flat.core.super.zoneIndex (flat.core.super.firstdatazone - 1 + bit) = bit := by
    unfold Super.zoneIndex toUint
    omega
  rw [wp_bfree_iff, if_neg inRange, isIndex, if_pos marked]

end

end Flat

end Osix
