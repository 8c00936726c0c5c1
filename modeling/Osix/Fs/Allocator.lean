import Osix.Fs.Zones
import Osix.Lib.Transition

/-!
# The zone allocator

`balloc` counts its way through the bytes and bits of the zone map to the number of a zone,
`bfree` finds the bit of a zone by division. `allocator_correct` is about any sequence of calls
of the two: each zone that is handed out was free, comes from a bit that no other zone that is in
use comes from, and is taken back by clearing just that bit.

`ballocScan` is the search of `balloc` byte by byte as the source has it, and
`ballocLoop_eq_scan` says that it is the search by bit numbers of `Fs.Inode`.
-/

namespace Osix

open Program Fs Transition

/-! ## The search through bytes and bits -/

/-- What a search that counts comes to: a byte, a bit of it and the count there, or the count. -/
inductive Scan where
  | found (index bit count : ℕ)
  | missed (count : ℕ)
deriving DecidableEq

/-- The loop over the bits of byte `index`. -/
def scanBits (bits : Byte) (index count : ℕ) : List ℕ → Scan
  | [] => .missed count
  | bit :: rest =>
      if bits &&& (1#8 <<< bit) = 0 then .found index bit count
      else scanBits bits index (count + 1) rest

/-- The loop over the bytes of a block, which skips those in which every bit is set. -/
def scanBytes (map : Block) (count : ℕ) : List ℕ → Scan
  | [] => .missed count
  | index :: rest =>
      if map index ≠ 0xFF then
        match scanBits (map index) index count (List.range 8) with
        | .found index bit count => .found index bit count
        | .missed count => scanBytes map count rest
      else scanBytes map (count + 8) rest

/-- The loop of `balloc` as the source has it. -/
def ballocScan (dev : Dev) : ℕ → ℕ → ℕ → FsM FlatBuf ℕ
  | 0, _, _ => do
      mark .noZone
      return 0
  | blocks + 1, zmapBlock, blockNo => do
      let buf ← bread dev zmapBlock
      match scanBytes (← bdata buf) blockNo (List.range blockSize) with
      | .found z b blockNo =>
          bstore buf fun zmap => Function.update zmap z (zmap z ||| (1#8 <<< b))
          bwrite buf
          brelse buf
          return toUint blockNo
      | .missed blockNo =>
          brelse buf
          ballocScan dev blocks (zmapBlock + 1) blockNo

/--
What a search by bit numbers comes to in terms of bytes and bits, with the count at the first bit
and the number of the bit at the end.
-/
def Scan.ofBit (count bits : ℕ) : Option ℕ → Scan
  | some bit => .found (bit / 8) (bit % 8) (count + bit)
  | none => .missed (count + bits)

theorem byte_full {byte : Byte} : byte = 0xFF ↔ ∀ bit < 8, byte.getLsbD bit = true := by
  refine ⟨?_, fun full => ?_⟩
  · rintro rfl bit less
    interval_cases bit <;> rfl
  · apply BitVec.eq_of_getLsbD_eq
    intro bit less
    rw [full bit less]
    interval_cases bit <;> rfl

theorem and_bit_eq_zero {byte : Byte} {bit : ℕ} (less : bit < 8) :
    byte &&& (1#8 <<< bit) = 0 ↔ byte.getLsbD bit = false := by
  have isBit : ∀ other < 8, (1#8 <<< bit).getLsbD other = decide (other = bit) := by
    intro other lessOther
    interval_cases bit <;> interval_cases other <;> rfl
  refine ⟨fun isZero => ?_, fun isClear => ?_⟩
  · have isClear := congrArg (BitVec.getLsbD · bit) isZero
    simpa [BitVec.getLsbD_and, isBit bit less] using isClear
  · apply BitVec.eq_of_getLsbD_eq
    intro other lessOther
    rw [BitVec.getLsbD_and, isBit other lessOther]
    by_cases same : other = bit
    · simp [same, isClear]
    · simp [same]

/-- The search through the bits of a byte from bit `first` on. -/
theorem scanBits_eq (map : Block) (index count : ℕ) {first bits : ℕ} (inByte : first + bits = 8) :
    scanBits (map index) index (count + (8 * index + first)) (List.range' first bits) =
      .ofBit count (8 * (index + 1))
        ((List.range' (8 * index + first) bits).find? fun bit => !map.getBit bit) := by
  induction bits generalizing first with
  | zero =>
      have isEnd : 8 * index + first = 8 * (index + 1) := by omega
      rw [List.range'_zero, List.range'_zero, List.find?_nil, scanBits, Scan.ofBit, isEnd]
  | succ bits ih =>
      have less : first < 8 := by omega
      have isBit : map.getBit (8 * index + first) = (map index).getLsbD first := by
        rw [Block.getBit, Nat.mul_add_div (by decide), Nat.div_eq_of_lt less, Nat.mul_add_mod,
          Nat.mod_eq_of_lt less, Nat.add_zero]
      rw [List.range'_succ, List.range'_succ, List.find?_cons, scanBits, isBit]
      cases isSet : (map index).getLsbD first with
      | false =>
          have isByte : (8 * index + first) / 8 = index := by omega
          have isRest : (8 * index + first) % 8 = first := by omega
          rw [if_pos ((and_bit_eq_zero less).mpr isSet), Bool.not_false, Scan.ofBit, isByte, isRest]
      | true =>
          have notClear : ¬ (map index &&& (1#8 <<< first) = 0) := by
            rw [and_bit_eq_zero less, isSet]
            decide
          have next : first + 1 + bits = 8 := by omega
          rw [if_neg notClear, Bool.not_true]
          exact ih next

/-- A byte in which every bit is set has no clear bit to be found. -/
theorem find_byte_full {map : Block} {index : ℕ} (full : map index = 0xFF) :
    (List.range' (8 * index) 8).find? (fun bit => !map.getBit bit) = none := by
  rw [List.find?_eq_none]
  intro bit isIn
  have bounds := List.mem_range'_1.mp isIn
  have isByte : bit / 8 = index := by omega
  rw [Block.getBit, isByte, byte_full.mp full (bit % 8) (by omega)]
  decide

/-- The search through the bytes of a block from byte `index` on. -/
theorem scanBytes_eq (map : Block) (count index bytes : ℕ) :
    scanBytes map (count + 8 * index) (List.range' index bytes) =
      .ofBit count (8 * (index + bytes))
        ((List.range' (8 * index) (8 * bytes)).find? fun bit => !map.getBit bit) := by
  induction bytes generalizing index with
  | zero =>
      rw [List.range'_zero, Nat.mul_zero, List.range'_zero, List.find?_nil]
      rfl
  | succ bytes ih =>
      have isSplit : List.range' (8 * index) (8 * (bytes + 1)) =
          List.range' (8 * index) 8 ++ List.range' (8 * (index + 1)) (8 * bytes) := by
        rw [Nat.mul_add, Nat.add_comm, ← List.range'_append_1]
        rfl
      have isRest : index + (bytes + 1) = index + 1 + bytes := by omega
      have isNext : count + 8 * index + 8 = count + 8 * (index + 1) := by omega
      rw [List.range'_succ, scanBytes, isSplit, List.find?_append, isRest]
      by_cases full : map index = 0xFF
      · rw [if_neg (not_not.mpr full), find_byte_full full, Option.none_or, isNext]
        exact ih (index + 1)
      · have scanned := @scanBits_eq map index count 0 8 rfl
        rw [Nat.add_zero, ← List.range_eq_range'] at scanned
        rw [if_pos full, scanned]
        cases (List.range' (8 * index) 8).find? fun bit => !map.getBit bit with
        | some bit => rfl
        | none => exact ih (index + 1)

/-- The search through the bytes of a whole block. -/
theorem scanBytes_block (map : Block) (count : ℕ) :
    scanBytes map count (List.range blockSize) = .ofBit count blockBits map.firstClear := by
  have scanned := scanBytes_eq map count 0 blockSize
  rw [Nat.mul_zero, Nat.add_zero, Nat.zero_add, ← List.range_eq_range', ← List.range_eq_range',
    Nat.mul_comm] at scanned
  exact scanned

seal blockSize in
theorem ballocScan_succ (dev : Dev) (blocks zmapBlock blockNo : ℕ) :
    ballocScan dev (blocks + 1) zmapBlock blockNo = (do
      let buf ← bread dev zmapBlock
      match scanBytes (← bdata buf) blockNo (List.range blockSize) with
      | .found z b blockNo =>
          bstore buf fun zmap => Function.update zmap z (zmap z ||| (1#8 <<< b))
          bwrite buf
          brelse buf
          return toUint blockNo
      | .missed blockNo =>
          brelse buf
          ballocScan dev blocks (zmapBlock + 1) blockNo) := rfl

/-- The search of the source is the search by bit numbers. -/
theorem ballocLoop_eq_scan (dev : Dev) (blocks zmapBlock blockNo : ℕ) :
    ballocLoop dev blocks zmapBlock blockNo = ballocScan dev blocks zmapBlock blockNo := by
  induction blocks generalizing zmapBlock blockNo with
  | zero => rfl
  | succ blocks ih =>
      rw [Flat.ballocLoop_succ, ballocScan_succ]
      refine congrArg _ (funext fun buf => congrArg _ (funext fun zmap => ?_))
      rw [scanBytes_block]
      cases zmap.firstClear with
      | some bit => simp only [Scan.ofBit, Block.setBit, Int.natCast_add]
      | none => simp only [Scan.ofBit, ih]

/-! ## Sequences of calls -/

/-- A call of the allocator. -/
inductive ZoneCall where
  | balloc
  | bfree (blockNo : ℕ)
deriving DecidableEq

/-- The machine, with the blocks that `balloc` has returned and `bfree` has not taken back. -/
structure ZoneUse where
  flat : Flat
  live : List ℕ

namespace ZoneUse

/-- A call that returns; `bfree` is only called for blocks that are in use. -/
def step (dev : Dev) (use : ZoneUse) : ZoneCall → Option ZoneUse
  | .balloc =>
      match exec Flat.handler (balloc dev) use.flat with
      | .returned blockNo flat =>
          some ⟨flat, if blockNo = 0 then use.live else blockNo :: use.live⟩
      | _ => none
  | .bfree blockNo =>
      if blockNo ∈ use.live then
        match exec Flat.handler (bfree dev blockNo) use.flat with
        | .returned _ flat => some ⟨flat, use.live.erase blockNo⟩
        | _ => none
      else none

end ZoneUse

/-- The first block of the zone map. -/
def Super.zmapBegin (super : Super) : ℕ := 2 + super.imapBlocks

/-- One bit of a map is given a value, and nothing else is changed. -/
structure BitChanged (dev : Dev) (first bit : ℕ) (value : Bool) (flat flat' : Flat) : Prop where
  core : flat'.core = flat.core
  self : mapBit (flat'.disk dev) first bit = value
  bits : ∀ other ≠ bit, mapBit (flat'.disk dev) first other = mapBit (flat.disk dev) first other
  blocks : ∀ buf, buf ≠ (dev, first + bit / blockBits) →
    flat'.disk buf.1 buf.2 = flat.disk buf.1 buf.2

/-- `balloc` finds no clear bit, or takes one whose zone is not in use. -/
def BallocRight (dev : Dev) (use : ZoneUse) : Prop :=
  let super := use.flat.core.super
  ∃ blockNo flat', exec Flat.handler (balloc dev) use.flat = .returned blockNo flat' ∧
    (blockNo = 0 ∧ flat' = use.flat ∧
        (∀ bit < super.zmapBlocks * blockBits,
          mapBit (use.flat.disk dev) super.zmapBegin bit = true) ∨
      ∃ bit < super.zmapBlocks * blockBits,
        mapBit (use.flat.disk dev) super.zmapBegin bit = false ∧
        BitChanged dev super.zmapBegin bit true use.flat flat' ∧
        blockNo = super.zoneOf bit ∧ blockNo ≠ 0 ∧ blockNo ∉ use.live ∧
        ∃ flat'', exec Flat.handler (bfree dev blockNo) flat' = .returned () flat'' ∧
          ∀ other, mapBit (flat''.disk dev) super.zmapBegin other =
            mapBit (use.flat.disk dev) super.zmapBegin other)

/-- `bfree` of a block in use clears the bit from which `balloc` had made its number. -/
def BfreeRight (dev : Dev) (use : ZoneUse) (blockNo : ℕ) : Prop :=
  let super := use.flat.core.super
  ∃ bit < super.zmapBlocks * blockBits, ∃ flat', blockNo = super.zoneOf bit ∧
    mapBit (use.flat.disk dev) super.zmapBegin bit = true ∧
    exec Flat.handler (bfree dev blockNo) use.flat = .returned () flat' ∧
    BitChanged dev super.zmapBegin bit false use.flat flat'

/-- What holds of the allocator after any sequence of calls. -/
structure ZoneUse.Inv (dev : Dev) (super : Super) (use : ZoneUse) : Prop where
  isSuper : use.flat.core.super = super
  formatted : super.Formatted (use.flat.disk dev)
  noDuplicate : use.live.Nodup
  marked : ∀ blockNo ∈ use.live, ∃ bit < super.zmapBlocks * blockBits, 0 < bit ∧
    blockNo = super.zoneOf bit ∧ super.zoneOf bit < super.nzones ∧
    super.zmap (use.flat.disk dev) bit = true

section

variable {dev : Dev} {super : Super} {use use' : ZoneUse} {flat flat' : Flat} {bit : ℕ}

theorem BitChanged.setMap (first : ℕ) :
    BitChanged dev first bit true flat (flat.setMap dev first bit) where
  core := rfl
  self := by simp [Flat.mapBit_setMap]
  bits other different := by simp [Flat.mapBit_setMap, different]
  blocks buf different := Flat.setBlock_of_ne flat _ _ different

theorem BitChanged.clearMap (first : ℕ) :
    BitChanged dev first bit false flat (flat.clearMap dev first bit) where
  core := rfl
  self := by simp [Flat.mapBit_clearMap]
  bits other different := by simp [Flat.mapBit_clearMap, different]
  blocks buf different := Flat.setBlock_of_ne flat _ _ different

theorem Super.zoneOf_injective (super : Super) {bit other : ℕ}
    (same : super.zoneOf bit = super.zoneOf other) : bit = other := by
  unfold Super.zoneOf at same
  omega

/-- How `balloc` ends. -/
theorem exec_balloc (dev : Dev) (geometry : flat.core.super.Geometry) :
    (findClear (flat.disk dev) flat.core.super.zmapBegin flat.core.super.zmapBlocks = none ∧
      exec Flat.handler (balloc dev) flat = .returned 0 flat) ∨
    ∃ bit, findClear (flat.disk dev) flat.core.super.zmapBegin flat.core.super.zmapBlocks =
        some bit ∧
      exec Flat.handler (balloc dev) flat = .returned (flat.core.super.zoneOf bit)
        (flat.setMap dev flat.core.super.zmapBegin bit) := by
  have judged : wp Flat.surely (balloc dev)
      (fun blockNo flat' =>
        (findClear (flat.disk dev) flat.core.super.zmapBegin flat.core.super.zmapBlocks = none ∧
          blockNo = 0 ∧ flat' = flat) ∨
        ∃ bit, findClear (flat.disk dev) flat.core.super.zmapBegin
            flat.core.super.zmapBlocks = some bit ∧
          blockNo = flat.core.super.zoneOf bit ∧
          flat' = flat.setMap dev flat.core.super.zmapBegin bit) flat := by
    rw [Flat.wp_balloc_find geometry]
    change match findClear (flat.disk dev) flat.core.super.zmapBegin
      flat.core.super.zmapBlocks with | some _ => _ | none => _
    cases found : findClear (flat.disk dev) flat.core.super.zmapBegin
        flat.core.super.zmapBlocks with
    | some bit => exact Or.inr ⟨bit, rfl, rfl, rfl⟩
    | none =>
        rw [Flat.wp_mark]
        exact fun _ => Or.inl ⟨rfl, rfl, rfl⟩
  rcases Flat.returns_of_surely judged with
    ⟨blockNo, flat', returned, ⟨full, rfl, rfl⟩ | ⟨bit, found, rfl, rfl⟩⟩
  · exact Or.inl ⟨full, returned⟩
  · exact Or.inr ⟨bit, found, returned⟩

/-- How `bfree` of a zone that is marked ends. -/
theorem exec_bfree (geometry : flat.core.super.Geometry) (positive : 0 < bit)
    (isZone : flat.core.super.zoneOf bit < flat.core.super.nzones)
    (marked : flat.core.super.zmap (flat.disk dev) bit = true) :
    exec Flat.handler (bfree dev (flat.core.super.zoneOf bit)) flat =
      .returned () (flat.clearMap dev flat.core.super.zmapBegin bit) := by
  have judged : wp Flat.surely (bfree dev (flat.core.super.zoneOf bit))
      (fun _ flat' => flat' = flat.clearMap dev flat.core.super.zmapBegin bit) flat := by
    rw [Super.zoneOf, Flat.wp_bfree_marked geometry positive isZone.le marked]
    rfl
  rcases Flat.returns_of_surely judged with
    ⟨_, flat', returned, rfl⟩
  exact returned

/-- A change of one bit keeps the map in order as long as the bit belongs to a zone. -/
theorem BitChanged.formatted {value : Bool}
    (changed : BitChanged dev super.zmapBegin bit value flat flat')
    (formatted : super.Formatted (flat.disk dev)) (positive : 0 < bit)
    (isZone : super.zoneOf bit < super.nzones) : super.Formatted (flat'.disk dev) := by
  intro other inMap isClear
  rcases eq_or_ne other bit with rfl | different
  · exact ⟨positive, isZone⟩
  · exact formatted other inMap ((changed.bits other different).symm.trans isClear)

namespace ZoneUse

theorem Inv.start (formatted : flat.core.super.Formatted (flat.disk dev)) :
    Inv dev flat.core.super ⟨flat, []⟩ where
  isSuper := rfl
  formatted := formatted
  noDuplicate := List.nodup_nil
  marked _ isIn := by cases isIn

/-- A block that is in use does not come from a clear bit. -/
theorem Inv.not_live (inv : Inv dev super use)
    (isClear : super.zmap (use.flat.disk dev) bit = false) : super.zoneOf bit ∉ use.live := by
  intro isLive
  rcases inv.marked _ isLive with ⟨other, -, -, same, -, marked⟩
  rw [super.zoneOf_injective same, marked] at isClear
  cases isClear

theorem Inv.balloc (inv : Inv dev super use) (geometry : super.Geometry)
    (stepped : use.step dev .balloc = some use') : Inv dev super use' := by
  have isSuper := inv.isSuper
  subst isSuper
  rcases exec_balloc dev geometry with ⟨-, returned⟩ | ⟨bit, found, returned⟩ <;>
    simp only [step, returned, Option.some.injEq] at stepped <;> subst stepped
  · exact inv
  · rcases findClear_some found with ⟨inMap, isClear⟩
    rcases inv.formatted bit inMap isClear with ⟨positive, isZone⟩
    have notZero : use.flat.core.super.zoneOf bit ≠ 0 := by
      unfold Super.zoneOf
      omega
    have changed := @BitChanged.setMap dev use.flat bit use.flat.core.super.zmapBegin
    refine ⟨rfl, changed.formatted inv.formatted positive isZone, ?_, ?_⟩
    · rw [if_neg notZero]
      exact List.nodup_cons.mpr ⟨inv.not_live isClear, inv.noDuplicate⟩
    · rw [if_neg notZero]
      intro blockNo isLive
      rcases List.mem_cons.mp isLive with rfl | wasLive
      · exact ⟨bit, inMap, positive, rfl, isZone, changed.self⟩
      · rcases inv.marked blockNo wasLive with ⟨other, inMap', positive', rfl, isZone', marked⟩
        have different : other ≠ bit := by
          rintro rfl
          exact inv.not_live isClear wasLive
        exact ⟨other, inMap', positive', rfl, isZone', (changed.bits other different).trans marked⟩

theorem Inv.bfree {blockNo : ℕ} (inv : Inv dev super use) (geometry : super.Geometry)
    (stepped : use.step dev (.bfree blockNo) = some use') : Inv dev super use' := by
  have isSuper := inv.isSuper
  subst isSuper
  by_cases isLive : blockNo ∈ use.live
  · rcases inv.marked blockNo isLive with ⟨bit, inMap, positive, rfl, isZone, marked⟩
    simp only [step, if_pos isLive, exec_bfree geometry positive isZone marked,
      Option.some.injEq] at stepped
    subst stepped
    have changed := @BitChanged.clearMap dev use.flat bit use.flat.core.super.zmapBegin
    refine ⟨rfl, changed.formatted inv.formatted positive isZone, inv.noDuplicate.erase _, ?_⟩
    intro other isOther
    rcases inv.noDuplicate.mem_erase_iff.mp isOther with ⟨notSame, isLive'⟩
    rcases inv.marked other isLive' with ⟨bit', inMap', positive', rfl, isZone', marked'⟩
    have different : bit' ≠ bit := fun same => notSame (by rw [same])
    exact ⟨bit', inMap', positive', rfl, isZone', (changed.bits bit' different).trans marked'⟩
  · simp only [step, if_neg isLive] at stepped
    cases stepped

theorem Inv.step {call : ZoneCall} (inv : Inv dev super use) (geometry : super.Geometry)
    (stepped : use.step dev call = some use') : Inv dev super use' := by
  cases call with
  | balloc => exact inv.balloc geometry stepped
  | bfree blockNo => exact inv.bfree geometry stepped

theorem Inv.ballocRight (inv : Inv dev super use) (geometry : super.Geometry) :
    BallocRight dev use := by
  have isSuper := inv.isSuper
  subst isSuper
  rcases exec_balloc dev geometry with ⟨full, returned⟩ | ⟨bit, found, returned⟩
  · exact ⟨0, use.flat, returned, Or.inl ⟨rfl, rfl, fun bit => findClear_none full⟩⟩
  · rcases findClear_some found with ⟨inMap, isClear⟩
    rcases inv.formatted bit inMap isClear with ⟨positive, isZone⟩
    have changed := @BitChanged.setMap dev use.flat bit use.flat.core.super.zmapBegin
    have frees := @exec_bfree dev (use.flat.setMap dev use.flat.core.super.zmapBegin bit) bit
      geometry positive isZone changed.self
    refine ⟨_, _, returned, Or.inr ⟨bit, inMap, isClear, changed, rfl, ?_, inv.not_live isClear,
      _, frees, fun other => ?_⟩⟩
    · unfold Super.zoneOf
      omega
    · rw [Flat.setMap_core, Flat.mapBit_clearMap, Flat.mapBit_setMap]
      by_cases same : other = bit
      · subst same
        simpa using isClear.symm
      · simp [same]

theorem Inv.bfreeRight {blockNo : ℕ} (inv : Inv dev super use) (geometry : super.Geometry)
    (isLive : blockNo ∈ use.live) : BfreeRight dev use blockNo := by
  have isSuper := inv.isSuper
  subst isSuper
  rcases inv.marked blockNo isLive with ⟨bit, inMap, positive, rfl, isZone, marked⟩
  exact ⟨bit, inMap, _, rfl, marked, exec_bfree geometry positive isZone marked, .clearMap _⟩

/--
After any sequence of calls, `balloc` takes a clear bit whose zone is not in use or there is
none, `bfree` of a block in use gives its bit back, and no block is in use twice.
-/
theorem allocator_correct {flat : Flat} (geometry : flat.core.super.Geometry)
    (formatted : flat.core.super.Formatted (flat.disk dev))
    (reach : Reach (step dev) Always ⟨flat, []⟩ use) :
    BallocRight dev use ∧ (∀ blockNo ∈ use.live, BfreeRight dev use blockNo) ∧ use.live.Nodup := by
  have inv : Inv dev flat.core.super use :=
    reach.invariant (Inv.start formatted) fun inv _ stepped => inv.step geometry stepped
  exact ⟨inv.ballocRight geometry, fun _ => inv.bfreeRight geometry, inv.noDuplicate⟩

/-- A file system with the three zones 5, 6 and 7, all of them free. -/
def threeZones : Flat where
  core := Core.init ⟨8, 1, 1, 5⟩
  disk := fun _ _ byte => if byte = 0 then 0xF1 else 0xFF

theorem threeZones_geometry : threeZones.core.super.Geometry := by
  constructor <;> decide

theorem threeZones_formatted : threeZones.core.super.Formatted (threeZones.disk rootDev) := by
  intro bit inMap isClear
  have isBit : (if bit % blockBits / 8 = 0 then 0xF1#8 else 0xFF#8).getLsbD
      (bit % blockBits % 8) = false := isClear
  have less : bit < blockBits := (Nat.one_mul blockBits).symm ▸ inMap
  rw [Nat.mod_eq_of_lt less] at isBit
  change 0 < bit ∧ 4 + bit < 8
  by_cases first : bit / 8 = 0
  · rw [if_pos first] at isBit
    have lessByte : bit < 8 := by omega
    interval_cases bit <;> revert isBit <;> decide
  · have isSet : (0xFF#8).getLsbD (bit % 8) = true :=
      byte_full.mp rfl _ (Nat.mod_lt bit (by decide))
    rw [if_neg first, isSet] at isBit
    cases isBit

theorem allocator_correct_threeZones :
    ∃ use, Reach (step rootDev) Always ⟨threeZones, []⟩ use ∧ use.live = [5] ∧
      BallocRight rootDev use ∧ BfreeRight rootDev use 5 := by
  have found : findClear (threeZones.disk rootDev) 3 1 = some 1 := by
    rw [findClear, List.find?_range_eq_some]
    refine ⟨by decide, List.mem_range.mpr (by decide), ?_⟩
    intro bit less
    interval_cases bit
    decide
  have stepped : step rootDev ⟨threeZones, []⟩ .balloc =
      some ⟨threeZones.setMap rootDev 3 1, [5]⟩ := by
    rcases exec_balloc rootDev threeZones_geometry with ⟨full, -⟩ | ⟨bit, found', returned⟩
    · cases found.symm.trans full
    · cases found.symm.trans found'
      simp only [step, returned]
      rfl
  have reach : Reach (step rootDev) Always ⟨threeZones, []⟩ _ := Reach.start.next trivial stepped
  have correct := allocator_correct threeZones_geometry threeZones_formatted reach
  exact ⟨_, reach, rfl, correct.1, correct.2.1 5 (by simp)⟩

end ZoneUse

end

end Osix
