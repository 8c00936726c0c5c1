import Osix.Basic
import Mathlib.Data.BitVec
import Mathlib.Algebra.BigOperators.Group.List.Basic
import Mathlib.Algebra.Group.Action.Defs

/-!
# Free space of a disk

`main` of `bin/df.c`, which counts the bits of the zone map and computes the usage in numbers of
32 bits. A value that such a number cannot hold is `none`, and so is a byte behind the zone map.
-/

namespace Osix.Df

/-- `BLOCK_SIZE`, `MINIX_FS_MAGIC` and `sizeof(struct fs)`. -/
def blockSize : ℕ := 1024
def minixFsMagic : ℕ := 0x138f
def sizeofFs : ℕ := 24

/-- The device, once it is open. -/
structure Device where
  size : ℕ
  byte : ℕ → Byte

/-- `lseek` and `read`. -/
def Device.read (device : Device) (pos count : ℕ) : List Byte :=
  (List.range (min count (device.size - pos))).map fun i => device.byte (pos + i)

/-- `struct fs`, as far as it is used. -/
structure Superblock where
  nzones : ℕ
  imapBlocks : ℕ
  zmapBlocks : ℕ
  magic : ℕ

/-- The field of 16 bits at an offset. -/
def field (bytes : List Byte) (offset : ℕ) : ℕ :=
  (bytes.getD offset 0).toNat + 256 * (bytes.getD (offset + 1) 0).toNat

def superblock (bytes : List Byte) : Superblock where
  nzones := field bytes 2
  imapBlocks := field bytes 4
  zmapBlocks := field bytes 6
  magic := field bytes 16

/-- The value of an `int` or a `long`. -/
def int32 (value : ℤ) : Option ℤ :=
  if -2 ^ 31 ≤ value ∧ value < 2 ^ 31 then some value else none

/-- The loop over the bits of a byte; every turn takes one of them away. -/
def countBits : ℕ → ℤ → ℕ → Option ℤ
  | 0, zalloc, bits => if 0 < bits then none else some zalloc
  | fuel + 1, zalloc, bits =>
      if 0 < bits then do
        let zalloc ← int32 (zalloc + (bits % 2 : ℕ))
        countBits fuel zalloc (bits / 2)
      else some zalloc

/-- The loop over the bytes of the zone map. -/
def countZones (nzones zalloc : ℤ) : List Byte → Option ℤ
  | [] => if 0 < nzones then none else some zalloc
  | zptr :: rest =>
      if 0 < nzones then do
        let zalloc ← countBits 8 zalloc zptr.toNat
        let nzones ← int32 (nzones - 8)
        countZones nzones zalloc rest
      else some zalloc

/-- What `main` prints, and the number of zones in use. -/
structure Report where
  zalloc : ℤ
  totalMb : ℤ
  allocedMb : ℤ
  availMb : ℤ
  usage : ℤ

/-- The division of numbers, which traps if the divisor is 0. -/
def divide (dividend divisor : ℤ) : Option ℤ :=
  if divisor = 0 then none else int32 (dividend.tdiv divisor)

def report (nzones : ℕ) (zmap : List Byte) : Option Report := do
  let zalloc ← countZones nzones 0 zmap
  let total ← int32 (nzones * 1024)
  let alloced ← int32 (zalloc * 1024)
  let percents ← int32 (alloced * 100)
  let usage ← divide percents total
  let totalMb ← divide total (1024 * 1024)
  let allocedMb ← divide alloced (1024 * 1024)
  let availMb ← int32 (totalMb - allocedMb)
  return ⟨zalloc, totalMb, allocedMb, availMb, usage⟩

inductive Outcome where
  | cantOpen
  | readError
  | badMagic (magic : ℕ)
  | zmapError
  | printed (report : Report)

def main (device : Option Device) : Option Outcome :=
  match device with
  | none => some .cantOpen
  | some device =>
      let bytes := device.read 0 sizeofFs
      let sb := superblock bytes
      if bytes.length ≠ sizeofFs then some .readError
      else if sb.magic ≠ minixFsMagic then some (.badMagic sb.magic)
      else
        let zmapSize := blockSize * sb.zmapBlocks
        let zmap := device.read (blockSize * (1 + sb.imapBlocks)) zmapSize
        if zmap.length ≠ zmapSize then some .zmapError
        else (report sb.nzones zmap).map .printed

/-! ## The zones in use -/

/-- A bit of the zone map. -/
def bit (zmap : List Byte) (index : ℕ) : Bool := (zmap.getD (index / 8) 0).getLsbD (index % 8)

/-- How many bits are set. -/
def setBits (zmap : List Byte) : ℕ := (zmap.map fun b => (List.range 8).countP b.getLsbD).sum

/-- A disk with a zone map for its zones. -/
structure Disk (device : Device) (sb : Superblock) (zmap : List Byte) : Prop where
  isSuper : sb = superblock (device.read 0 sizeofFs)
  isZmap : zmap = device.read (blockSize * (1 + sb.imapBlocks)) (blockSize * sb.zmapBlocks)
  superInside : sizeofFs ≤ device.size
  zmapInside : blockSize * (1 + sb.imapBlocks) + blockSize * sb.zmapBlocks ≤ device.size
  isMinix : sb.magic = minixFsMagic
  notEmpty : 1 ≤ sb.nzones
  largeEnough : sb.nzones ≤ 8 * (blockSize * sb.zmapBlocks)
  few : setBits zmap ≤ sb.nzones
  inZones : ∀ index, sb.nzones ≤ index → bit zmap index = false

/-- The bits that are set are counted, and the usage is their percentage. -/
def Reports (device : Device) (sb : Superblock) (zmap : List Byte) : Prop :=
  ∃ report, main (some device) = some (.printed report) ∧ report.zalloc = setBits zmap ∧
    report.usage = (100 * setBits zmap / sb.nzones : ℕ) ∧ 0 ≤ report.usage ∧ report.usage ≤ 100

/-! ## Counting -/

theorem int32_of_nonneg {value : ℤ} (notNegative : 0 ≤ value) (small : value < 2 ^ 31) :
    int32 value = some value :=
  if_pos ⟨by omega, small⟩

theorem countBits_spec (fuel bits : ℕ) {zalloc : ℤ} (fits : bits < 2 ^ fuel)
    (notNegative : 0 ≤ zalloc) (small : zalloc + fuel < 2 ^ 31) :
    countBits fuel zalloc bits = some (zalloc + (List.range fuel).countP bits.testBit) := by
  induction fuel generalizing bits zalloc with
  | zero =>
      rw [countBits, if_neg (by omega)]
      exact congrArg some (Int.add_zero zalloc).symm
  | succ fuel ih =>
      have isCount : (List.range (fuel + 1)).countP bits.testBit =
          bits % 2 + (List.range fuel).countP (bits / 2).testBit := by
        have isTail : bits.testBit ∘ Nat.succ = (bits / 2).testBit :=
          funext fun index => Nat.testBit_succ bits index
        have isHead : (if bits.testBit 0 = true then 1 else 0) = bits % 2 := by
          rcases Nat.mod_two_eq_zero_or_one bits with even | odd
          · simp [Nat.testBit_zero, even]
          · simp [Nat.testBit_zero, odd]
        rw [List.range_succ_eq_map, List.countP_cons, List.countP_map, isTail, isHead]
        exact Nat.add_comm _ _
      rw [countBits]
      by_cases isZero : bits = 0
      · rw [if_neg (by omega), isZero]
        simp
      · have lowest := Nat.mod_lt bits (show 0 < 2 by decide)
        push_cast at small
        rw [if_pos (by omega), int32_of_nonneg (by omega) (by omega), Option.bind_eq_bind,
          Option.bind_some, ih (bits / 2) (by omega) (by omega) (by omega), isCount]
        congr 1
        push_cast
        omega

theorem bit_cons (zptr : Byte) (rest : List Byte) (index : ℕ) :
    bit (zptr :: rest) (index + 8) = bit rest index := by
  rw [bit, bit, Nat.add_div_right index (by decide), Nat.add_mod_right, List.getD_cons_succ]

/-- Nothing is counted in a map of zeros. -/
theorem setBits_eq_zero {zmap : List Byte} (allFree : ∀ index, bit zmap index = false) :
    setBits zmap = 0 := by
  induction zmap with
  | nil => rfl
  | cons zptr rest ih =>
      have restFree := ih fun index => (bit_cons zptr rest index).symm.trans (allFree (index + 8))
      have noneHere : (List.range 8).countP zptr.getLsbD = 0 := by
        rw [List.countP_eq_zero]
        intro index isIn
        have inByte := List.mem_range.mp isIn
        have isFree := allFree index
        rw [bit, Nat.div_eq_of_lt inByte, Nat.mod_eq_of_lt inByte] at isFree
        exact Bool.eq_false_iff.mp isFree
      rw [setBits, List.map_cons, List.sum_cons, noneHere, Nat.zero_add]
      exact restFree

/-- The loop ends behind the zones, where no bit is set. -/
theorem countZones_spec {zmap : List Byte} {nzones zalloc : ℤ}
    (largeEnough : nzones ≤ 8 * zmap.length) (lower : -8 ≤ nzones) (upper : nzones < 2 ^ 16)
    (notNegative : 0 ≤ zalloc) (small : zalloc + 8 * zmap.length < 2 ^ 31)
    (inZones : ∀ index : ℕ, nzones ≤ index → bit zmap index = false) :
    countZones nzones zalloc zmap = some (zalloc + setBits zmap) := by
  induction zmap generalizing nzones zalloc with
  | nil =>
      rw [List.length_nil] at largeEnough
      rw [countZones, if_neg (by omega)]
      exact congrArg some (Int.add_zero zalloc).symm
  | cons zptr rest ih =>
      rw [List.length_cons] at largeEnough small
      push_cast at largeEnough small
      rw [countZones]
      by_cases zonesLeft : 0 < nzones
      · have isCount := countBits_spec 8 zptr.toNat zptr.isLt notNegative (by omega)
        have atMost : (List.range 8).countP zptr.toNat.testBit ≤ 8 := List.countP_le_length
        rw [if_pos zonesLeft, isCount, Option.bind_eq_bind, Option.bind_some, int32,
          if_pos (by omega), Option.bind_some, ih (by omega) (by omega) (by omega) (by omega)
            (by omega)]
        · rw [setBits, setBits, List.map_cons, List.sum_cons]
          congr 1
          push_cast
          have sameBits : zptr.getLsbD = zptr.toNat.testBit := rfl
          rw [sameBits]
          omega
        · intro index beyond
          rw [← bit_cons zptr rest index]
          apply inZones
          push_cast
          omega
      · rw [if_neg zonesLeft, setBits_eq_zero fun index => inZones index (by omega)]
        exact congrArg some (Int.add_zero zalloc).symm

/-! ## The report -/

theorem field_lt (bytes : List Byte) (offset : ℕ) : field bytes offset < 2 ^ 16 := by
  have low := (bytes.getD offset 0).isLt
  have high := (bytes.getD (offset + 1) 0).isLt
  rw [field]
  omega

theorem length_read {device : Device} {pos count : ℕ} (inside : pos + count ≤ device.size) :
    (device.read pos count).length = count := by
  rw [Device.read, List.length_map, List.length_range]
  omega

section

variable {device : Device} {sb : Superblock} {zmap : List Byte}

/-- What is multiplied by 100 * 1024 must stay below 2^31. -/
def maxZones : ℕ := 20971

theorem main_eq_report (disk : Disk device sb zmap) :
    main (some device) = (report sb.nzones zmap).map .printed := by
  have superInside : (device.read 0 sizeofFs).length = sizeofFs :=
    length_read (by rw [Nat.zero_add]; exact disk.superInside)
  have zmapInside := length_read disk.zmapInside
  rw [disk.isSuper] at zmapInside
  have isMinix := disk.isMinix
  rw [disk.isSuper] at isMinix
  simp only [main, superInside, zmapInside, isMinix, ne_eq, not_true_eq_false, if_false]
  rw [disk.isZmap, disk.isSuper]

theorem countZones_disk (disk : Disk device sb zmap) :
    countZones sb.nzones 0 zmap = some (setBits zmap : ℤ) := by
  have fewZones : sb.nzones < 2 ^ 16 := by
    rw [disk.isSuper]
    exact field_lt _ _
  have fewBlocks : sb.zmapBlocks < 2 ^ 16 := by
    rw [disk.isSuper]
    exact field_lt _ _
  have isLength : zmap.length = 1024 * sb.zmapBlocks := by
    rw [disk.isZmap]
    exact length_read disk.zmapInside
  have largeEnough := disk.largeEnough
  rw [blockSize] at largeEnough
  rw [countZones_spec (by omega) (by omega) (by omega) le_rfl (by omega), Int.zero_add]
  exact fun index beyond => disk.inZones index (Int.ofNat_le.mp beyond)

theorem divide_natCast (dividend divisor : ℕ) (positive : 0 < divisor)
    (small : dividend < 2 ^ 31) :
    divide dividend divisor = some ((dividend / divisor : ℕ) : ℤ) := by
  have smaller := Nat.div_le_self dividend divisor
  rw [divide, if_neg (by omega), Int.tdiv_eq_ediv_of_nonneg (by omega), ← Int.natCast_ediv]
  exact int32_of_nonneg (Int.natCast_nonneg _) (by omega)

theorem report_of_le (disk : Disk device sb zmap) (few : setBits zmap ≤ maxZones) :
    ∃ result, report sb.nzones zmap = some result ∧ result.zalloc = setBits zmap ∧
      result.usage = (100 * setBits zmap / sb.nzones : ℕ) := by
  have fewZones : sb.nzones < 2 ^ 16 := by
    rw [disk.isSuper]
    exact field_lt _ _
  have notEmpty := disk.notEmpty
  have inUse := disk.few
  rw [maxZones] at few
  have usage := divide_natCast (setBits zmap * 1024 * 100) (sb.nzones * 1024) (by omega) (by omega)
  have isPercent : setBits zmap * 1024 * 100 / (sb.nzones * 1024) =
      100 * setBits zmap / sb.nzones := by
    rw [show setBits zmap * 1024 * 100 = 100 * setBits zmap * 1024 by omega,
      Nat.mul_div_mul_right _ _ (by decide)]
  have totalMb := divide_natCast (sb.nzones * 1024) (1024 * 1024) (by decide) (by omega)
  have allocedMb := divide_natCast (setBits zmap * 1024) (1024 * 1024) (by decide) (by omega)
  rw [isPercent] at usage
  simp only [Nat.cast_mul, Nat.cast_ofNat] at usage totalMb allocedMb
  rw [report, countZones_disk disk, Option.bind_eq_bind, Option.bind_some,
    int32_of_nonneg (by omega) (by omega), Option.bind_some,
    int32_of_nonneg (by omega) (by omega), Option.bind_some,
    int32_of_nonneg (by omega) (by omega), Option.bind_some, usage, Option.bind_some, totalMb,
    Option.bind_some, allocedMb, Option.bind_some, int32_of_nonneg (by omega) (by omega),
    Option.bind_some]
  exact ⟨_, rfl, rfl, rfl⟩

theorem report_of_lt (disk : Disk device sb zmap) (many : maxZones < setBits zmap) :
    report sb.nzones zmap = none := by
  have fewZones : sb.nzones < 2 ^ 16 := by
    rw [disk.isSuper]
    exact field_lt _ _
  have inUse := disk.few
  rw [maxZones] at many
  have tooLarge : int32 ((setBits zmap : ℤ) * 1024 * 100) = none := if_neg (by omega)
  rw [report, countZones_disk disk, Option.bind_eq_bind, Option.bind_some,
    int32_of_nonneg (by omega) (by omega), Option.bind_some,
    int32_of_nonneg (by omega) (by omega), Option.bind_some, tooLarge, Option.bind_none]

/-- The report is right as long as not too many zones are in use. -/
theorem df_reports_iff (disk : Disk device sb zmap) :
    Reports device sb zmap ↔ setBits zmap ≤ maxZones := by
  constructor
  · rintro ⟨result, isPrinted, -⟩
    by_contra many
    rw [main_eq_report disk, report_of_lt disk (by omega)] at isPrinted
    cases isPrinted
  · intro few
    rcases report_of_le disk few with ⟨result, isReport, isCount, isUsage⟩
    have atMost : 100 * setBits zmap / sb.nzones ≤ 100 := by
      apply Nat.div_le_of_le_mul
      rw [Nat.mul_comm sb.nzones]
      exact Nat.mul_le_mul_left 100 disk.few
    refine ⟨result, ?_, isCount, isUsage, ?_, ?_⟩
    · rw [main_eq_report disk, isReport]
      rfl
    · rw [isUsage]
      exact Int.natCast_nonneg _
    · rw [isUsage]
      exact Int.ofNat_le.mpr atMost

end

/-! ## Disks whose first zones are in use -/

/-- The zone map with so many bytes of ones. -/
def fullMap (full blocks : ℕ) : List Byte :=
  (List.range (1024 * blocks)).map fun i => if i < full then 0xff else 0

/-- The field of 16 bits with this value. -/
def fieldByte (value i : ℕ) : Byte := BitVec.ofNat 8 (if i = 0 then value else value / 256)

/-- A disk of eight zones for each of these bytes. -/
def fullDevice (full blocks : ℕ) : Device where
  size := 2048 + 1024 * blocks
  byte i :=
    if 2048 ≤ i then if i - 2048 < full then 0xff else 0
    else if 2 ≤ i ∧ i < 4 then fieldByte (8 * full) (i - 2)
    else if 4 ≤ i ∧ i < 6 then fieldByte 1 (i - 4)
    else if 6 ≤ i ∧ i < 8 then fieldByte blocks (i - 6)
    else if 16 ≤ i ∧ i < 18 then fieldByte minixFsMagic (i - 16)
    else 0

def fullSuper (full blocks : ℕ) : Superblock := ⟨8 * full, 1, blocks, minixFsMagic⟩

section

variable {full blocks : ℕ}

theorem fieldByte_value {value : ℕ} (small : value < 2 ^ 16) :
    (fieldByte value 0).toNat + 256 * (fieldByte value 1).toNat = value := by
  simp only [fieldByte, BitVec.toNat_ofNat, if_true, one_ne_zero, if_false]
  omega

theorem superblock_full (fewZones : 8 * full < 2 ^ 16) (fewBlocks : blocks < 2 ^ 16) :
    superblock ((fullDevice full blocks).read 0 sizeofFs) = fullSuper full blocks := by
  have isHeader : (fullDevice full blocks).read 0 sizeofFs =
      (List.range 24).map (fullDevice full blocks).byte := by
    rw [Device.read, sizeofFs, Nat.min_eq_left]
    · simp only [Nat.zero_add]
    · change 24 ≤ 2048 + 1024 * blocks - 0
      omega
  have isByte : ∀ i < 24, ((List.range 24).map (fullDevice full blocks).byte).getD i 0 =
      (fullDevice full blocks).byte i := by
    intro i inside
    rw [List.getD_eq_getElem?_getD, List.getElem?_map, List.getElem?_range inside]
    rfl
  have isField : ∀ offset value, offset + 1 < 24 → value < 2 ^ 16 →
      (fullDevice full blocks).byte offset = fieldByte value 0 →
      (fullDevice full blocks).byte (offset + 1) = fieldByte value 1 →
      field ((fullDevice full blocks).read 0 sizeofFs) offset = value := by
    intro offset value inside small isLow isHigh
    rw [field, isHeader, isByte offset (by omega), isByte (offset + 1) inside, isLow, isHigh]
    exact fieldByte_value small
  rw [superblock, isField 2 (8 * full) (by decide) fewZones rfl rfl,
    isField 4 1 (by decide) (by decide) rfl rfl, isField 6 blocks (by decide) fewBlocks rfl rfl,
    isField 16 minixFsMagic (by decide) (by decide) rfl rfl]
  rfl

theorem setBits_fullMap (inside : full ≤ 1024 * blocks) :
    setBits (fullMap full blocks) = 8 * full := by
  have isSplit : fullMap full blocks =
      List.replicate full 0xff ++ List.replicate (1024 * blocks - full) 0 := by
    apply List.ext_getElem
    · rw [fullMap, List.length_map, List.length_range, List.length_append, List.length_replicate,
        List.length_replicate]
      omega
    · intro i _ _
      simp only [fullMap, List.getElem_map, List.getElem_range, List.getElem_append,
        List.length_replicate, List.getElem_replicate]
      rfl
  have ones : (List.range 8).countP (0xff : Byte).getLsbD = 8 := by decide
  have zeros : (List.range 8).countP (0 : Byte).getLsbD = 0 := by decide
  rw [setBits, isSplit, List.map_append, List.map_replicate, List.map_replicate, ones, zeros,
    List.sum_append, List.sum_replicate, List.sum_replicate, smul_eq_mul, smul_eq_mul,
    Nat.mul_zero, Nat.add_zero, Nat.mul_comm]

theorem disk_full (positive : 1 ≤ full) (inside : full ≤ 1024 * blocks)
    (fewZones : 8 * full < 2 ^ 16) (fewBlocks : blocks < 2 ^ 16) :
    Disk (fullDevice full blocks) (fullSuper full blocks) (fullMap full blocks) where
  isSuper := (superblock_full fewZones fewBlocks).symm
  isZmap := by
    have isAll : min (1024 * blocks) (2048 + 1024 * blocks - 2048) = 1024 * blocks := by omega
    simp only [fullMap, Device.read, fullSuper, fullDevice, blockSize, isAll]
    apply List.map_congr_left
    intro i _
    have isPlace : 1024 * (1 + 1) + i = 2048 + i := rfl
    rw [isPlace, if_pos (Nat.le_add_right 2048 i), Nat.add_sub_cancel_left]
  superInside := by
    change 24 ≤ 2048 + 1024 * blocks
    omega
  zmapInside := by
    change 1024 * (1 + 1) + 1024 * blocks ≤ 2048 + 1024 * blocks
    omega
  isMinix := rfl
  notEmpty := by
    change 1 ≤ 8 * full
    omega
  largeEnough := by
    change 8 * full ≤ 8 * (1024 * blocks)
    omega
  few := (setBits_fullMap inside).le
  inZones := by
    intro index beyond
    change 8 * full ≤ index at beyond
    have isZero : (fullMap full blocks).getD (index / 8) 0 = 0 := by
      rw [fullMap, List.getD_eq_getElem?_getD, List.getElem?_map]
      by_cases inMap : index / 8 < 1024 * blocks
      · rw [List.getElem?_range inMap, Option.map_some, Option.getD_some, if_neg (by omega)]
      · rw [List.getElem?_eq_none (by rw [List.length_range]; omega)]
        rfl
    rw [bit, isZero]
    exact BitVec.getLsbD_zero

end

/-- All eight zones of a small disk are in use. -/
theorem df_reports_full : Reports (fullDevice 1 1) (fullSuper 1 1) (fullMap 1 1) := by
  have disk := @disk_full 1 1 (by decide) (by decide) (by decide) (by decide)
  apply (df_reports_iff disk).mpr
  rw [setBits_fullMap (by decide)]
  decide

/-- 20976 zones are too many. -/
theorem not_df_reports : Disk (fullDevice 2622 3) (fullSuper 2622 3) (fullMap 2622 3) ∧
    ¬Reports (fullDevice 2622 3) (fullSuper 2622 3) (fullMap 2622 3) := by
  have disk := @disk_full 2622 3 (by decide) (by decide) (by decide) (by decide)
  refine ⟨disk, ?_⟩
  rintro ⟨result, isPrinted, -⟩
  have many : maxZones < setBits (fullMap 2622 3) := by
    rw [setBits_fullMap (by decide)]
    decide
  rw [main_eq_report disk, report_of_lt disk many] at isPrinted
  cases isPrinted

end Osix.Df
