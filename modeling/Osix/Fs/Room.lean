import Osix.Fs.Space

/-!
# Running out of space

`writei` takes a zone for every block that has none, and one for the indirect block when the
first block behind the direct ones is written. It looks neither at whether `balloc` has found
a zone nor at what is in a new indirect block. `Room` says of the state before the call that
all of this goes well.
-/

namespace Osix

open Program Ownership

variable {Key : Type} [DecidableEq Key] {nodes : Key → InodeData} {key : Key} {i : InodeId}
  {start flat flat' flat'' : Flat}

/--
All that the inode names is what it named before, or a zone that was free, that is marked now
and that it names once.
-/
def Owns (start flat : Flat) (i : InodeId) : Prop :=
  ∀ place zone, flat.names i place = some zone →
    start.names i place = some zone ∨
      (∃ bit ∈ start.core.super.freeBits start.root, zone = start.core.super.zoneOf bit ∧
        start.core.super.zmap flat.root bit = true) ∧
      ∀ other, flat.names i other = some zone → other = place

/-- Zones that were free were taken for the inode in slot `i`. -/
structure Took (i : InodeId) (flat flat' : Flat) : Prop where
  sameSuper : flat'.core.super = flat.core.super
  kept : ∀ place zone, flat.names i place = some zone → flat'.names i place = some zone
  fresh : ∀ place zone, flat'.names i place = some zone →
    flat.names i place = some zone ∨
      ∃ bit ∈ flat.core.super.freeBits flat.root, zone = flat.core.super.zoneOf bit
  marks : ∀ bit < flat.core.super.zmapBlocks * blockBits,
    flat.core.super.zmap flat.root bit = true → flat.core.super.zmap flat'.root bit = true
  accounted : ∀ bit ∈ flat.core.super.freeBits flat.root,
    flat.core.super.zmap flat'.root bit = true →
      ∃ place, flat'.names i place = some (flat.core.super.zoneOf bit)

/-- Nothing that matters for the zones has changed. -/
theorem Took.of_same (sameSuper : flat'.core.super = flat.core.super)
    (sameNames : flat'.names i = flat.names i)
    (sameMap : ∀ bit < flat.core.super.zmapBlocks * blockBits,
      flat.core.super.zmap flat'.root bit = flat.core.super.zmap flat.root bit) :
    Took i flat flat' where
  sameSuper := sameSuper
  kept place zone named := by rwa [sameNames]
  fresh place zone named := by
    rw [sameNames] at named
    exact Or.inl named
  marks bit inMap marked := by rwa [sameMap bit inMap]
  accounted bit isFree marked := by
    obtain ⟨inMap, isClear⟩ := Super.mem_freeBits.mp isFree
    rw [sameMap bit inMap, isClear] at marked
    contradiction

theorem Took.refl (i : InodeId) (flat : Flat) : Took i flat flat :=
  Took.of_same rfl rfl fun _ _ => rfl

theorem Took.trans (first : Took i flat flat') (second : Took i flat' flat'') :
    Took i flat flat'' where
  sameSuper := second.sameSuper.trans first.sameSuper
  kept place zone named := second.kept place zone (first.kept place zone named)
  fresh place zone named := by
    have isSecond := second.fresh place zone named
    rw [first.sameSuper] at isSecond
    rcases isSecond with before | ⟨bit, isFree, isZone⟩
    · exact first.fresh place zone before
    · obtain ⟨inMap, isClear⟩ := Super.mem_freeBits.mp isFree
      refine Or.inr ⟨bit, Super.mem_freeBits.mpr ⟨inMap, ?_⟩, isZone⟩
      cases wasMarked : flat.core.super.zmap flat.root bit with
      | false => rfl
      | true =>
          rw [first.marks bit inMap wasMarked] at isClear
          exact isClear
  marks bit inMap marked := by
    have isSecond := second.marks bit
    rw [first.sameSuper] at isSecond
    exact isSecond inMap (first.marks bit inMap marked)
  accounted bit isFree marked := by
    obtain ⟨inMap, isClear⟩ := Super.mem_freeBits.mp isFree
    cases between : flat.core.super.zmap flat'.root bit with
    | true =>
        obtain ⟨place, named⟩ := first.accounted bit isFree between
        exact ⟨place, second.kept place _ named⟩
    | false =>
        have isSecond := second.accounted bit
        rw [first.sameSuper] at isSecond
        exact isSecond (Super.mem_freeBits.mpr ⟨inMap, between⟩) marked

/-- A zone is taken for a place that had none. -/
theorem Took.of_give {place : Place} {bit : ℕ} (sameSuper : flat'.core.super = flat.core.super)
    (isFree : bit ∈ flat.core.super.freeBits flat.root)
    (unnamed : flat.names i place = none)
    (given : flat'.names i =
      Function.update (flat.names i) place (some (flat.core.super.zoneOf bit)))
    (isMap : ∀ other < flat.core.super.zmapBlocks * blockBits,
      flat.core.super.zmap flat'.root other =
        (decide (other = bit) || flat.core.super.zmap flat.root other)) :
    Took i flat flat' where
  sameSuper := sameSuper
  kept other zone named := by
    have different : other ≠ place := by
      rintro rfl
      rw [unnamed] at named
      contradiction
    rw [given, Function.update_of_ne different]
    exact named
  fresh other zone named := by
    rw [given] at named
    rcases eq_or_ne other place with rfl | different
    · rw [Function.update_self, Option.some.injEq] at named
      exact Or.inr ⟨bit, isFree, named.symm⟩
    · rw [Function.update_of_ne different] at named
      exact Or.inl named
  marks other inMap marked := by rw [isMap other inMap, marked, Bool.or_true]
  accounted other isFreeOther marked := by
    obtain ⟨inMap, isClear⟩ := Super.mem_freeBits.mp isFreeOther
    rw [isMap other inMap, isClear, Bool.or_false, decide_eq_true_eq] at marked
    subst marked
    exact ⟨place, by rw [given, Function.update_self]⟩

/-- While every zone has one holder, the inode owns what it names. -/
theorem Took.owns (took : Took i start flat)
    (zones : Zones start.core.super flat.root (withSlot nodes key flat i)) :
    Owns start flat i := by
  intro place zone named
  rcases took.fresh place zone named with before | ⟨bit, isFree, isZone⟩
  · exact Or.inl before
  refine Or.inr ⟨⟨bit, isFree, isZone, ?_⟩, ?_⟩
  · apply zones.marked (key, place) bit (Super.mem_freeBits.mp isFree).1
    rw [Flat.holdsZone_withSlot, named, isZone]
  · intro other namedOther
    have sameHolder := zones.exclusive (key, other) (key, place) zone
      (by rw [Flat.holdsZone_withSlot, namedOther]) (by rw [Flat.holdsZone_withSlot, named])
    exact congrArg Prod.snd sameHolder

/-! ## One block -/

/-- Zones were taken to map one block of the file, and no zone but the indirect block has changed. -/
structure Extended (i : InodeId) (key : Key) (nodes : Key → InodeData) (index : ℕ)
    (flat flat' : Flat) : Prop where
  grown : Grown i key nodes flat flat'
  took : Took i flat flat'
  others : ∀ other < maxBlocks, other ≠ index →
    flat'.names i (blockPlace other) = flat.names i (blockPlace other)
  data : ∀ zone, flat.core.super.firstdatazone ≤ zone → flat'.names i .indirect ≠ some zone →
    flat'.root zone = flat.root zone

theorem Extended.refl (zones : Zones flat.core.super flat.root nodes)
    (isSlot : nodes key = (flat.core.inodes i).toInodeData) (index : ℕ) :
    Extended i key nodes index flat flat where
  grown := Grown.refl zones isSlot
  took := Took.refl i flat
  others _ _ _ := rfl
  data _ _ _ := rfl

theorem Extended.trans {index : ℕ} (first : Extended i key nodes index flat flat')
    (second : Extended i key (withSlot nodes key flat' i) index flat' flat'') :
    Extended i key nodes index flat flat'' where
  grown := first.grown.trans second.grown
  took := first.took.trans second.took
  others other inFile different :=
    (second.others other inFile different).trans (first.others other inFile different)
  data zone isFirst notIndirect := by
    have isSecond := second.data zone
    rw [first.took.sameSuper] at isSecond
    rw [isSecond isFirst notIndirect]
    apply first.data zone isFirst
    intro wasIndirect
    exact notIndirect (second.took.kept _ _ wasIndirect)

section

variable {bit index : ℕ}

/-- The names of one inode after one of its places has got a zone. -/
theorem names_given {place : Place} {zone : ℕ}
    (isSlot : nodes key = (flat.core.inodes i).toInodeData)
    (given : holdsZone flat'.root (withSlot nodes key flat' i) =
      Function.update (holdsZone flat.root nodes) (key, place) (some zone)) :
    flat'.names i = Function.update (flat.names i) place (some zone) := by
  funext other
  rw [← @Flat.holdsZone_withSlot Key nodes key flat' i, given]
  rcases eq_or_ne other place with rfl | different
  · rw [Function.update_self, Function.update_self]
  · rw [Function.update_of_ne different, Function.update_of_ne (by simpa using different),
      Flat.holdsZone_slot isSlot]

/-- A zone that an inode names lies behind the zone map. -/
theorem Zones.named {super : Super} (zones : Zones super flat.root (withSlot nodes key flat i))
    {place : Place} {zone : ℕ} (named : flat.names i place = some zone) :
    super.firstdatazone ≤ zone ∧ zone < super.nzones := by
  apply zones.isZone (key, place)
  rw [Flat.holdsZone_withSlot, named]

theorem extended_direct (zones : Zones flat.core.super flat.root nodes)
    (layout : flat.core.super.Layout) (isSlot : nodes key = (flat.core.inodes i).toInodeData)
    (isFree : bit ∈ flat.core.super.freeBits flat.root) (isDirect : index < ndirect)
    (unnamed : flat.names i (blockPlace index) = none) :
    Extended i key nodes index flat (flat.takeDirect i ⟨index, isDirect⟩ bit) ∧
      (flat.takeDirect i ⟨index, isDirect⟩ bit).names i =
        Function.update (flat.names i) (blockPlace index)
          (some (flat.core.super.zoneOf bit)) := by
  obtain ⟨inMap, isClear⟩ := Super.mem_freeBits.mp isFree
  rw [Flat.directPlace isDirect] at unnamed ⊢
  have given := names_given isSlot
    (@holdsZone_direct Key nodes _ i key flat _ bit ⟨index, isDirect⟩ zones layout isSlot inMap
      isClear rfl)
  have grown : Grown i key nodes flat (flat.takeDirect i ⟨index, isDirect⟩ bit) :=
    grown_direct zones layout isSlot inMap isClear (Flat.names_eq_none.mp unnamed) rfl
  refine ⟨⟨grown, ?_, ?_, ?_⟩, given⟩
  · exact Took.of_give grown.sameSuper isFree unnamed given fun other _ => Flat.zmap_setZmap other
  · intro other inFile different
    rw [Flat.takeDirect, given, Function.update_of_ne]
    intro samePlace
    rw [← Flat.directPlace isDirect] at samePlace
    refine different (blockPlace_injective inFile ?_ samePlace)
    unfold maxBlocks
    omega
  · intro zone isFirst _
    exact Flat.root_setZmap layout inMap isFirst

theorem extended_indirect (zones : Zones flat.core.super flat.root nodes)
    (layout : flat.core.super.Layout) (isSlot : nodes key = (flat.core.inodes i).toInodeData)
    (isFree : bit ∈ flat.core.super.freeBits flat.root)
    (noIndirect : (flat.core.inodes i).indirect = 0)
    (isZero : ∀ byte < blockSize, flat.root (flat.core.super.zoneOf bit) byte = 0) :
    Extended i key nodes index flat (flat.takeIndirect i bit) ∧
      (flat.takeIndirect i bit).names i =
        Function.update (flat.names i) .indirect (some (flat.core.super.zoneOf bit)) := by
  obtain ⟨inMap, isClear⟩ := Super.mem_freeBits.mp isFree
  have given := names_given isSlot
    (holdsZone_indirect zones layout isSlot inMap isClear noIndirect isZero rfl)
  have grown : Grown i key nodes flat (flat.takeIndirect i bit) :=
    grown_indirect zones layout isSlot inMap isClear noIndirect isZero rfl
  have unnamed : flat.names i .indirect = none := Flat.names_eq_none.mpr noIndirect
  refine ⟨⟨grown, ?_, ?_, ?_⟩, given⟩
  · exact Took.of_give grown.sameSuper isFree unnamed given fun other _ => Flat.zmap_setZmap other
  · intro other inFile different
    rw [Flat.takeIndirect, given, Function.update_of_ne (blockPlace_ne_indirect other)]
  · intro zone isFirst _
    exact Flat.root_setZmap layout inMap isFirst

omit [DecidableEq Key] in
/-- The indirect block of an inode is not in the zone map. -/
theorem takeEntry_eq {entry : ℕ} (zones : Zones flat.core.super flat.root nodes)
    (layout : flat.core.super.Layout) (isSlot : nodes key = (flat.core.inodes i).toInodeData)
    (inMap : bit < flat.core.super.zmapBlocks * blockBits)
    (hasIndirect : (flat.core.inodes i).indirect ≠ 0) :
    flat.takeEntry i entry bit = (flat.setZmap bit).setBlock
      (rootDev, (flat.core.inodes i).indirect)
      ((flat.root (flat.core.inodes i).indirect).copy (2 * entry)
        (bytes16 (flat.core.super.zoneOf bit))) := by
  have held : holdsZone flat.root nodes (key, .indirect) = some (flat.core.inodes i).indirect :=
    holdsZone_eq_some.mpr ⟨by simp [InodeData.zoneAt, isSlot], hasIndirect⟩
  rw [Flat.takeEntry, zones.root_setZmap layout inMap held]

omit [DecidableEq Key] in
theorem zmap_takeEntry {entry other : ℕ} (layout : flat.core.super.Layout)
    (isFirst : flat.core.super.firstdatazone ≤ (flat.core.inodes i).indirect)
    (inMap : other < flat.core.super.zmapBlocks * blockBits) :
    flat.core.super.zmap (flat.takeEntry i entry bit).root other =
      (decide (other = bit) || flat.core.super.zmap flat.root other) := by
  have notIndirect : flat.core.super.zmapBlock other ≠ (flat.core.inodes i).indirect := by
    have less := layout.zmapBlock_lt inMap
    omega
  rw [← Flat.zmap_setZmap, Super.zmap, Flat.takeEntry, Flat.root_setBlock_of_ne notIndirect]
  rfl

/-- An entry of the indirect block has got a zone; its other entries may be anything. -/
theorem names_takeEntry {entry : Fin nindirect} (layout : flat.core.super.Layout)
    (inMap : bit < flat.core.super.zmapBlocks * blockBits)
    (isFirst : flat.core.super.firstdatazone ≤ (flat.core.inodes i).indirect)
    (hasIndirect : (flat.core.inodes i).indirect ≠ 0)
    (notZero : flat.core.super.zoneOf bit ≠ 0) (small : flat.core.super.zoneOf bit < 2 ^ 16) :
    (flat.takeEntry i entry bit).names i =
      Function.update (flat.names i) (.entry entry) (some (flat.core.super.zoneOf bit)) := by
  have isBlock : (flat.takeEntry i entry bit).root (flat.core.inodes i).indirect =
      (flat.root (flat.core.inodes i).indirect).copy (2 * entry)
        (bytes16 (flat.core.super.zoneOf bit)) := by
    rw [Flat.takeEntry, Flat.root_setBlock_self, Flat.root_setZmap layout inMap isFirst]
  have isCore : (flat.takeEntry i entry bit).core = flat.core := rfl
  funext place
  cases place with
  | direct index => rfl
  | indirect => rfl
  | entry other =>
      rw [Flat.names, isCore, InodeData.zoneAt, if_neg hasIndirect, isBlock]
      rcases eq_or_ne other entry with rfl | different
      · rw [Block.get16_copy_self _ _ small, Function.update_self]
        exact if_neg notZero
      · have notNat : (other : ℕ) ≠ (entry : ℕ) := fun sameNat => different (Fin.ext sameNat)
        rw [Block.get16_copy_of_ne _ _ notNat, Function.update_of_ne (by simpa using different),
          Flat.names, InodeData.zoneAt, if_neg hasIndirect]

theorem extended_entry {less : index - ndirect < nindirect}
    (zones : Zones flat.core.super flat.root nodes)
    (layout : flat.core.super.Layout) (isSlot : nodes key = (flat.core.inodes i).toInodeData)
    (isFree : bit ∈ flat.core.super.freeBits flat.root) (inFile : index < maxBlocks)
    (hasIndirect : (flat.core.inodes i).indirect ≠ 0)
    (isPlace : blockPlace index = .entry ⟨index - ndirect, less⟩)
    (unnamed : flat.names i (blockPlace index) = none) :
    Extended i key nodes index flat (flat.takeEntry i (index - ndirect) bit) ∧
      (flat.takeEntry i (index - ndirect) bit).names i =
        Function.update (flat.names i) (blockPlace index)
          (some (flat.core.super.zoneOf bit)) := by
  obtain ⟨inMap, isClear⟩ := Super.mem_freeBits.mp isFree
  rw [isPlace] at unnamed ⊢
  have wasFree : (flat.root (flat.core.inodes i).indirect).get16 (2 * (index - ndirect)) = 0 := by
    have isZero := Flat.names_eq_none.mp unnamed
    rwa [InodeData.zoneAt, if_neg hasIndirect] at isZero
  have isFlat' := @takeEntry_eq Key nodes key i flat bit (index - ndirect) zones layout isSlot inMap
    hasIndirect
  have given := names_given isSlot
    (@holdsZone_entry Key nodes _ i key flat _ bit ⟨index - ndirect, less⟩ zones layout isSlot
      inMap isClear hasIndirect isFlat')
  have grown : Grown i key nodes flat (flat.takeEntry i (index - ndirect) bit) :=
    @grown_entry Key nodes _ i key flat _ bit ⟨index - ndirect, less⟩ zones layout isSlot inMap
      isClear hasIndirect wasFree isFlat'
  have namedIndirect : (flat.takeEntry i (index - ndirect) bit).names i .indirect =
      some (flat.core.inodes i).indirect := by
    rw [given, Function.update_of_ne (by simp)]
    exact Flat.names_eq_some.mpr ⟨rfl, hasIndirect⟩
  have isOther : ∀ block ≠ (flat.core.inodes i).indirect,
      (flat.takeEntry i (index - ndirect) bit).root block = (flat.setZmap bit).root block :=
    fun block notBlock => Flat.root_setBlock_of_ne notBlock
  refine ⟨⟨grown, ?_, ?_, ?_⟩, given⟩
  · apply Took.of_give grown.sameSuper isFree unnamed given
    intro other inMapOther
    exact zmap_takeEntry layout (grown.zones.named namedIndirect).1 inMapOther
  · intro other inFileOther different
    rw [given, Function.update_of_ne]
    intro samePlace
    rw [← isPlace] at samePlace
    exact different (blockPlace_injective inFileOther inFile samePlace)
  · intro zone isFirst notIndirect
    rw [isOther, Flat.root_setZmap layout inMap isFirst]
    rintro rfl
    exact notIndirect namedIndirect

end

/-! ## Room for blocks -/

/-- The blocks of a file in which a range of bytes lies. -/
def blocksOf (pos len : ℕ) : List ℕ :=
  List.range' (pos / blockSize)
    (if len = 0 then 0 else (pos % blockSize + len - 1) / blockSize + 1)

/-- Those of the blocks that have no zone. -/
def missing (flat : Flat) (i : InodeId) (blocks : List ℕ) : List ℕ :=
  blocks.filter fun index => (flat.names i (blockPlace index)).isNone

/-- The inode needs an indirect block, and has none. -/
def NewIndirect (flat : Flat) (i : InodeId) (blocks : List ℕ) : Prop :=
  (flat.core.inodes i).indirect = 0 ∧ ∃ index ∈ blocks, ndirect ≤ index

instance (flat : Flat) (i : InodeId) (blocks : List ℕ) : Decidable (NewIndirect flat i blocks) :=
  inferInstanceAs (Decidable (_ ∧ _))

/--
There is room to write the blocks: `bmap` can map them, there are enough free zones, and the
free zone that becomes the indirect block is filled with zeros.
-/
structure Room (flat : Flat) (i : InodeId) (blocks : List ℕ) : Prop where
  inFile : ∀ index ∈ blocks, index < maxBlocks
  enough : (missing flat i blocks).length + (if NewIndirect flat i blocks then 1 else 0) ≤
    (flat.core.super.freeBits flat.root).length
  blank : NewIndirect flat i blocks → ∀ bit,
    (flat.core.super.freeBits flat.root)[(missing flat i (blocks.filter (· < ndirect))).length]? =
      some bit → ∀ byte < blockSize, flat.root (flat.core.super.zoneOf bit) byte = 0

section

variable {index : ℕ} {blocks : List ℕ}

theorem missing_cons_named {zone : ℕ} (named : flat.names i (blockPlace index) = some zone) :
    missing flat i (index :: blocks) = missing flat i blocks := by
  simp [missing, named]

theorem missing_cons_unnamed (unnamed : flat.names i (blockPlace index) = none) :
    missing flat i (index :: blocks) = index :: missing flat i blocks := by
  simp [missing, unnamed]

theorem missing_congr (same : ∀ index ∈ blocks,
    flat'.names i (blockPlace index) = flat.names i (blockPlace index)) :
    missing flat' i blocks = missing flat i blocks := by
  apply List.filter_congr
  intro index isIn
  rw [same index isIn]

/-- A block that makes no indirect block necessary. -/
theorem newIndirect_cons (handled : index < ndirect ∨ (flat.core.inodes i).indirect ≠ 0) :
    NewIndirect flat i (index :: blocks) ↔ NewIndirect flat i blocks := by
  unfold NewIndirect
  rw [List.exists_mem_cons_iff]
  constructor
  · rintro ⟨noIndirect, isFirst | isRest⟩
    · rcases handled with isDirect | hasIndirect
      · omega
      · contradiction
    · exact ⟨noIndirect, isRest⟩
  · rintro ⟨noIndirect, isRest⟩
    exact ⟨noIndirect, Or.inr isRest⟩

/-- The parts of a state that matter for the room. -/
theorem Room.congr (sameSuper : flat'.core.super = flat.core.super)
    (sameNames : ∀ index ∈ blocks,
      flat'.names i (blockPlace index) = flat.names i (blockPlace index))
    (sameIndirect : (flat'.core.inodes i).indirect = 0 ↔ (flat.core.inodes i).indirect = 0)
    (sameFree : flat.core.super.freeBits flat'.root = flat.core.super.freeBits flat.root)
    (sameZones : ∀ bit ∈ flat.core.super.freeBits flat.root,
      flat'.root (flat.core.super.zoneOf bit) = flat.root (flat.core.super.zoneOf bit)) :
    Room flat' i blocks ↔ Room flat i blocks := by
  have sameNew : NewIndirect flat' i blocks ↔ NewIndirect flat i blocks := by
    unfold NewIndirect
    rw [sameIndirect]
  have sameMissing := missing_congr sameNames
  have sameDirect : missing flat' i (blocks.filter (· < ndirect)) =
      missing flat i (blocks.filter (· < ndirect)) :=
    missing_congr fun index isIn => sameNames index (List.mem_of_mem_filter isIn)
  constructor
  · rintro ⟨inFile, enough, blank⟩
    refine ⟨inFile, ?_, ?_⟩
    · simpa only [sameMissing, sameNew, sameSuper, sameFree] using enough
    · intro isNew bit isBit byte inBlock
      rw [sameNew, sameDirect, sameSuper, sameFree] at blank
      rw [← sameZones bit (List.mem_of_getElem? isBit)]
      exact blank isNew bit isBit byte inBlock
  · rintro ⟨inFile, enough, blank⟩
    refine ⟨inFile, ?_, ?_⟩
    · simpa only [sameMissing, sameNew, sameSuper, sameFree] using enough
    · rw [sameNew, sameDirect, sameSuper, sameFree]
      intro isNew bit isBit byte inBlock
      rw [sameZones bit (List.mem_of_getElem? isBit)]
      exact blank isNew bit isBit byte inBlock

/-- A block that has a zone needs no room. -/
theorem room_cons_named {zone : ℕ} (inFile : index < maxBlocks)
    (named : flat.names i (blockPlace index) = some zone) :
    Room flat i (index :: blocks) ↔ Room flat i blocks := by
  have handled : index < ndirect ∨ (flat.core.inodes i).indirect ≠ 0 := by
    by_cases isDirect : index < ndirect
    · exact Or.inl isDirect
    · right
      intro noIndirect
      obtain ⟨less, isPlace⟩ := Flat.entryPlace isDirect inFile
      rw [isPlace, Flat.names_eq_some, InodeData.zoneAt, if_pos noIndirect] at named
      exact named.2 named.1.symm
  have sameDirect : missing flat i ((index :: blocks).filter (· < ndirect)) =
      missing flat i (blocks.filter (· < ndirect)) := by
    by_cases isDirect : index < ndirect
    · rw [List.filter_cons_of_pos (by simpa using isDirect), missing_cons_named named]
    · rw [List.filter_cons_of_neg (by simpa using isDirect)]
  constructor
  · rintro ⟨inFile, enough, blank⟩
    rw [newIndirect_cons handled, sameDirect] at blank
    refine ⟨fun other isIn => inFile other (List.mem_cons_of_mem _ isIn), ?_, blank⟩
    simpa only [missing_cons_named named, newIndirect_cons handled] using enough
  · rintro ⟨inFileRest, enough, blank⟩
    refine ⟨?_, ?_, ?_⟩
    · intro other isIn
      rcases List.mem_cons.mp isIn with rfl | isRest
      · exact inFile
      · exact inFileRest other isRest
    · simpa only [missing_cons_named named, newIndirect_cons handled] using enough
    · rw [newIndirect_cons handled, sameDirect]
      exact blank

/-- A block takes the first free zone. -/
theorem room_cons_taken {bit : ℕ} {free : List ℕ} (inFile : index < maxBlocks)
    (unnamed : flat.names i (blockPlace index) = none)
    (handled : index < ndirect ∨ (flat.core.inodes i).indirect ≠ 0)
    (isFree : flat.core.super.freeBits flat.root = bit :: free)
    (sameSuper : flat'.core.super = flat.core.super)
    (sameNames : ∀ other ∈ blocks, other < maxBlocks →
      flat'.names i (blockPlace other) = flat.names i (blockPlace other))
    (sameIndirect : (flat'.core.inodes i).indirect = 0 ↔ (flat.core.inodes i).indirect = 0)
    (isFree' : flat.core.super.freeBits flat'.root = free)
    (sameZones : ∀ bit ∈ free,
      flat'.root (flat.core.super.zoneOf bit) = flat.root (flat.core.super.zoneOf bit)) :
    Room flat i (index :: blocks) ↔ Room flat' i blocks := by
  have sameNew : NewIndirect flat' i blocks ↔ NewIndirect flat i (index :: blocks) := by
    rw [newIndirect_cons handled]
    unfold NewIndirect
    rw [sameIndirect]
  have sameDirect : missing flat' i (blocks.filter (· < ndirect)) =
      missing flat i (blocks.filter (· < ndirect)) := by
    apply missing_congr
    intro other isIn
    rw [List.mem_filter, decide_eq_true_eq] at isIn
    apply sameNames other isIn.1
    unfold maxBlocks
    omega
  -- The first free zone is not the one of the indirect block.
  have sameBlank : ∀ isNew : NewIndirect flat i (index :: blocks),
      (bit :: free)[(missing flat i ((index :: blocks).filter (· < ndirect))).length]? =
        free[(missing flat i (blocks.filter (· < ndirect))).length]? := by
    intro isNew
    have isDirect : index < ndirect := by
      rcases handled with isDirect | hasIndirect
      · exact isDirect
      · exact absurd isNew.1 hasIndirect
    rw [List.filter_cons_of_pos (by simpa using isDirect), missing_cons_unnamed unnamed,
      List.length_cons, List.getElem?_cons_succ]
  constructor
  · rintro ⟨inFile, enough, blank⟩
    have inFileRest : ∀ other ∈ blocks, other < maxBlocks :=
      fun other isIn => inFile other (List.mem_cons_of_mem _ isIn)
    have sameMissing := missing_congr fun other isIn => sameNames other isIn (inFileRest other isIn)
    refine ⟨inFileRest, ?_, ?_⟩
    · rw [missing_cons_unnamed unnamed, isFree, List.length_cons, List.length_cons] at enough
      simp only [sameMissing, sameNew, sameSuper, isFree']
      omega
    · rw [sameNew, sameDirect, sameSuper, isFree']
      intro isNew bit' isBit byte inBlock
      rw [sameZones bit' (List.mem_of_getElem? isBit)]
      rw [isFree] at blank
      exact blank isNew bit' (by rw [sameBlank isNew, isBit]) byte inBlock
  · rintro ⟨inFileRest, enough, blank⟩
    have sameMissing := missing_congr fun other isIn => sameNames other isIn (inFileRest other isIn)
    refine ⟨?_, ?_, ?_⟩
    · intro other isIn
      rcases List.mem_cons.mp isIn with rfl | isRest
      · exact inFile
      · exact inFileRest other isRest
    · simp only [sameMissing, sameNew, sameSuper, isFree'] at enough
      rw [missing_cons_unnamed unnamed, isFree, List.length_cons, List.length_cons]
      omega
    · rw [isFree]
      intro isNew bit' isBit byte inBlock
      rw [sameNew, sameDirect, sameSuper, isFree'] at blank
      rw [sameBlank isNew] at isBit
      rw [← sameZones bit' (List.mem_of_getElem? isBit)]
      exact blank isNew bit' isBit byte inBlock

/-- The free zone that becomes the indirect block. -/
theorem Room.blank_first {bit : ℕ} {free : List ℕ} (room : Room flat i (index :: blocks))
    (notDirect : ∀ other ∈ index :: blocks, ¬other < ndirect)
    (noIndirect : (flat.core.inodes i).indirect = 0)
    (isFree : flat.core.super.freeBits flat.root = bit :: free) :
    ∀ byte < blockSize, flat.root (flat.core.super.zoneOf bit) byte = 0 := by
  have isEmpty : (index :: blocks).filter (· < ndirect) = [] := by
    rw [List.filter_eq_nil_iff]
    intro other isIn
    simpa using notDirect other isIn
  have blank := room.blank
  rw [isEmpty, isFree] at blank
  apply blank ⟨noIndirect, index, List.mem_cons_self, ?_⟩
  · rfl
  · exact Nat.le_of_not_lt (notDirect index List.mem_cons_self)

/-- The indirect block takes the first free zone. -/
theorem room_indirect {bit : ℕ} {free : List ℕ}
    (notDirect : ∀ other ∈ index :: blocks, ¬other < ndirect)
    (noIndirect : (flat.core.inodes i).indirect = 0)
    (isFree : flat.core.super.freeBits flat.root = bit :: free)
    (isZero : ∀ byte < blockSize, flat.root (flat.core.super.zoneOf bit) byte = 0)
    (sameSuper : flat'.core.super = flat.core.super)
    (sameNames : ∀ other ∈ index :: blocks, other < maxBlocks →
      flat'.names i (blockPlace other) = flat.names i (blockPlace other))
    (hasIndirect : (flat'.core.inodes i).indirect ≠ 0)
    (isFree' : flat.core.super.freeBits flat'.root = free) :
    Room flat i (index :: blocks) ↔ Room flat' i (index :: blocks) := by
  have isNew : NewIndirect flat i (index :: blocks) :=
    ⟨noIndirect, index, List.mem_cons_self, Nat.le_of_not_lt (notDirect index List.mem_cons_self)⟩
  have notNew : ¬NewIndirect flat' i (index :: blocks) := fun isNew' => hasIndirect isNew'.1
  have isEmpty : (index :: blocks).filter (· < ndirect) = [] := by
    rw [List.filter_eq_nil_iff]
    intro other isIn
    simpa using notDirect other isIn
  constructor
  · rintro ⟨inFile, enough, -⟩
    have sameMissing := missing_congr fun other isIn => sameNames other isIn (inFile other isIn)
    refine ⟨inFile, ?_, fun isNew' => absurd isNew' notNew⟩
    rw [if_pos isNew, isFree, List.length_cons] at enough
    rw [if_neg notNew, sameMissing, sameSuper, isFree']
    omega
  · rintro ⟨inFile, enough, -⟩
    have sameMissing := missing_congr fun other isIn => sameNames other isIn (inFile other isIn)
    refine ⟨inFile, ?_, ?_⟩
    · rw [if_neg notNew, sameMissing, sameSuper, isFree'] at enough
      rw [if_pos isNew, isFree, List.length_cons]
      omega
    · rw [isEmpty, isFree]
      intro _ bit' isBit byte inBlock
      cases isBit
      exact isZero byte inBlock

end

/-! ## `bmap` with and without room -/

/-- An inode without an indirect block names no zone behind the direct ones. -/
theorem names_entry_none (noIndirect : (flat.core.inodes i).indirect = 0)
    (entry : Fin nindirect) : flat.names i (.entry entry) = none := by
  rw [Flat.names_eq_none, InodeData.zoneAt, if_pos noIndirect]

theorem zmap_takeIndirect {bit other : ℕ} :
    flat.core.super.zmap (flat.takeIndirect i bit).root other =
      (decide (other = bit) || flat.core.super.zmap flat.root other) :=
  Flat.zmap_setZmap other

/-- A new indirect block names a zone that was not taken for it. -/
theorem not_owns_of_stale {entry : Fin nindirect} {zone : ℕ} (took : Took i start flat)
    (noIndirect : (flat.core.inodes i).indirect = 0)
    (named : flat'.names i (.entry entry) = some zone)
    (kept : ∀ place zone, flat.names i place = some zone → flat'.names i place = some zone)
    (marked : ∀ bit < flat.core.super.zmapBlocks * blockBits,
      flat.core.super.zmap flat'.root bit = true → flat.core.super.zmap flat.root bit = true ∨
        ∃ place ≠ .entry entry, flat'.names i place = some (flat.core.super.zoneOf bit)) :
    ¬Owns start flat' i := by
  intro owns
  rcases owns _ _ named with before | ⟨⟨bit, isFree, isZone, isMarked⟩, once⟩
  · have stillNamed := took.kept _ _ before
    rw [names_entry_none noIndirect] at stillNamed
    contradiction
  · rw [took.sameSuper] at marked
    rcases marked bit (Super.mem_freeBits.mp isFree).1 isMarked with wasMarked |
        ⟨place, different, namedPlace⟩
    · obtain ⟨place, namedPlace⟩ := took.accounted bit isFree wasMarked
      rw [← isZone] at namedPlace
      have samePlace := once place (kept place zone namedPlace)
      rw [samePlace, names_entry_none noIndirect] at namedPlace
      contradiction
    · rw [← isZone] at namedPlace
      exact different (once place namedPlace)

/-- A block of zeros, in the words of an indirect block. -/
theorem exists_get16_of_not_zero {data : Block} (notZero : ¬∀ byte < blockSize, data byte = 0) :
    ∃ entry : Fin nindirect, data.get16 (2 * entry) ≠ 0 := by
  by_contra allZero
  push Not at allZero
  apply notZero
  intro byte inBlock
  have less : byte / 2 < nindirect := by
    unfold nindirect
    unfold blockSize at inBlock
    omega
  have isZero := allZero ⟨byte / 2, less⟩
  dsimp only at isZero
  unfold Block.get16 at isZero
  rcases Nat.mod_two_eq_zero_or_one byte with even | odd
  · have isByte : 2 * (byte / 2) = byte := by omega
    rw [isByte] at isZero
    have isValue : (data byte).toNat = 0 := by omega
    exact BitVec.eq_of_toNat_eq isValue
  · have isByte : 2 * (byte / 2) + 1 = byte := by omega
    rw [isByte] at isZero
    have isValue : (data byte).toNat = 0 := by omega
    exact BitVec.eq_of_toNat_eq isValue

section

open Fs

variable {spec : Spec (FsOp FlatBuf) FsOp.Reply Flat} {allowed : Stop → Flat → Prop}
  [judges : Flat.Judges spec allowed] [silent : Flat.Silent spec] {post : ℕ → Flat → Prop}
  {index : ℕ} {rest : List ℕ}

/-- Without a free zone there is no room for a block that has none. -/
theorem not_room_of_full (unnamed : flat.names i (blockPlace index) = none)
    (full : flat.core.super.freeBits flat.root = []) : ¬Room flat i (index :: rest) := by
  intro room
  have enough := room.enough
  rw [missing_cons_unnamed unnamed, full, List.length_cons, List.length_nil] at enough
  omega

omit [DecidableEq Key] in
/-- The other free zones are not changed when a zone is taken. -/
theorem Zones.free_setZmap {bit other : ℕ} (zones : Zones flat.core.super flat.root nodes)
    (layout : flat.core.super.Layout) (inMap : bit < flat.core.super.zmapBlocks * blockBits)
    (isFree : other ∈ flat.core.super.freeBits flat.root) :
    (flat.setZmap bit).root (flat.core.super.zoneOf other) =
      flat.root (flat.core.super.zoneOf other) := by
  obtain ⟨inMapOther, isClear⟩ := Super.mem_freeBits.mp isFree
  obtain ⟨positive, -⟩ := zones.formatted other inMapOther isClear
  apply Flat.root_setZmap layout inMap
  unfold Super.zoneOf
  omega

include judges silent

/-- An entry of the indirect block is looked up for a write. -/
theorem wp_bmapIndirect_room {less : index - ndirect < nindirect}
    (zones : Zones flat.core.super flat.root nodes) (layout : flat.core.super.Layout)
    (isSlot : nodes key = (flat.core.inodes i).toInodeData)
    (isRoot : (flat.core.inodes i).dev = rootDev) (inFile : index < maxBlocks)
    (isPlace : blockPlace index = .entry ⟨index - ndirect, less⟩)
    (hasIndirect : (flat.core.inodes i).indirect ≠ 0)
    (unnamed : flat.names i (blockPlace index) = none)
    (ascending : ∀ other ∈ rest, index < other)
    (holds : ∀ flat' zone, Extended i key nodes index flat flat' →
      flat'.names i (blockPlace index) = some zone →
      (Room flat i (index :: rest) ↔ Room flat' i rest) → post zone flat')
    (full : ¬Room flat i (index :: rest) → ∀ flat', post 0 flat') :
    wp spec (bmapIndirect i (index - ndirect)) post flat := by
  have unnamedEntry : flat.names i (.entry ⟨index - ndirect, less⟩) = none := by rwa [← isPlace]
  apply @Flat.wp_bmapIndirect_unnamed _ _ _ _ _ _ _ ⟨index - ndirect, less⟩ layout isRoot
    hasIndirect unnamedEntry
  · intro noFree flat'
    exact full (not_room_of_full unnamed noFree) flat'
  · intro bit free isFree
    have isIn : bit ∈ flat.core.super.freeBits flat.root := by
      rw [isFree]
      exact List.mem_cons_self
    obtain ⟨inMap, isClear⟩ := Super.mem_freeBits.mp isIn
    obtain ⟨extended, given⟩ := extended_entry zones layout isSlot isIn inFile hasIndirect isPlace
      unnamed
    have isNamed : (flat.takeEntry i (index - ndirect) bit).names i (blockPlace index) =
        some (flat.core.super.zoneOf bit) := by rw [given, Function.update_self]
    have isStored : ((flat.takeEntry i (index - ndirect) bit).root
        (flat.core.inodes i).indirect).get16 (2 * (index - ndirect)) =
          flat.core.super.zoneOf bit := by
      have isZone := isNamed
      rw [isPlace, Flat.names_eq_some] at isZone
      have isZoneAt := isZone.1
      rw [InodeData.zoneAt] at isZoneAt
      exact (if_neg hasIndirect).symm.trans isZoneAt
    dsimp only
    rw [isStored]
    apply holds _ _ extended isNamed
    have isFirst : flat.core.super.firstdatazone ≤ (flat.core.inodes i).indirect := by
      have held : holdsZone flat.root nodes (key, .indirect) = some (flat.core.inodes i).indirect :=
        holdsZone_eq_some.mpr ⟨by simp [InodeData.zoneAt, isSlot], hasIndirect⟩
      exact (zones.isZone _ _ held).1
    apply room_cons_taken inFile unnamed (Or.inr hasIndirect) isFree extended.took.sameSuper
    · intro other isOther inFileOther
      have different := ascending other isOther
      exact extended.others other inFileOther (by omega)
    · rfl
    · apply Super.freeBits_tail isFree
      intro other inMapOther
      exact zmap_takeEntry layout isFirst inMapOther
    · intro other isOther
      have isInOther : other ∈ flat.core.super.freeBits flat.root := by
        rw [isFree]
        exact List.mem_cons_of_mem _ isOther
      rw [Flat.takeEntry, Flat.root_setBlock_of_ne, zones.free_setZmap layout inMap isInOther]
      intro sameZone
      obtain ⟨inMapOther, isClearOther⟩ := Super.mem_freeBits.mp isInOther
      apply zones.unheld inMapOther isClearOther (key, .indirect)
      rw [sameZone]
      exact holdsZone_eq_some.mpr ⟨by simp [InodeData.zoneAt, isSlot], hasIndirect⟩

omit [DecidableEq Key] in
/-- A new indirect block that is not filled with zeros, and one of its entries. -/
theorem wp_bmapIndirect_stale {bit : ℕ} {entry : Fin nindirect}
    (zones : Zones flat.core.super flat.root nodes) (layout : flat.core.super.Layout)
    (isRoot : (flat.core.inodes i).dev = rootDev) (took : Took i start flat)
    (noIndirect : (flat.core.inodes i).indirect = 0)
    (isFree : bit ∈ flat.core.super.freeBits flat.root)
    (notZero : ¬∀ byte < blockSize, flat.root (flat.core.super.zoneOf bit) byte = 0)
    (full : ∀ flat', post 0 flat')
    (stale : ∀ zone flat', ¬Owns start flat' i → post zone flat') :
    wp spec (bmapIndirect i entry) post (flat.takeIndirect i bit) := by
  obtain ⟨inMap, isClear⟩ := Super.mem_freeBits.mp isFree
  have isZone := zones.toUshort_zoneOf layout inMap isClear
  have isFirst : flat.core.super.firstdatazone ≤ flat.core.super.zoneOf bit := by
    obtain ⟨positive, -⟩ := zones.formatted bit inMap isClear
    unfold Super.zoneOf
    omega
  have isBlock : (flat.takeIndirect i bit).root (flat.core.super.zoneOf bit) =
      flat.root (flat.core.super.zoneOf bit) := Flat.root_setZmap layout inMap isFirst
  have isIndirect : ((flat.takeIndirect i bit).core.inodes i).indirect =
      flat.core.super.zoneOf bit := by
    simp [Flat.takeIndirect, Flat.setData, isZone]
  have isRoot' : ((flat.takeIndirect i bit).core.inodes i).dev = rootDev := by
    simpa [Flat.takeIndirect, Flat.setData] using isRoot
  have hasIndirect : ((flat.takeIndirect i bit).core.inodes i).indirect ≠ 0 := by
    rw [isIndirect]
    exact zones.zoneOf_ne_zero inMap isClear
  have isNamed : (flat.takeIndirect i bit).names i .indirect =
      some (flat.core.super.zoneOf bit) :=
    Flat.names_eq_some.mpr ⟨isIndirect, zones.zoneOf_ne_zero inMap isClear⟩
  have kept : ∀ place zone, flat.names i place = some zone →
      (flat.takeIndirect i bit).names i place = some zone := by
    intro place zone named
    cases place with
    | direct index =>
        rw [Flat.names_eq_some] at named ⊢
        simpa [InodeData.zoneAt, Flat.takeIndirect, Flat.setData] using named
    | indirect =>
        have isZero := (Flat.names_eq_some.mp named).1
        rw [InodeData.zoneAt, noIndirect] at isZero
        exact absurd isZero.symm (Flat.names_eq_some.mp named).2
    | entry other =>
        rw [names_entry_none noIndirect] at named
        contradiction
  have isMap : ∀ other, flat.core.super.zmap (flat.takeIndirect i bit).root other =
      (decide (other = bit) || flat.core.super.zmap flat.root other) :=
    fun other => zmap_takeIndirect
  have sameSuper : (flat.takeIndirect i bit).core.super = flat.core.super := rfl
  obtain ⟨garbage, isGarbage⟩ := exists_get16_of_not_zero notZero
  have namedGarbage : (flat.takeIndirect i bit).names i (.entry garbage) =
      some ((flat.root (flat.core.super.zoneOf bit)).get16 (2 * garbage)) := by
    rw [Flat.names_eq_some, InodeData.zoneAt, if_neg hasIndirect, isIndirect, isBlock]
    exact ⟨rfl, isGarbage⟩
  generalize flat.takeIndirect i bit = taken at *
  cases isNamedEntry : taken.names i (.entry entry) with
  | some zone =>
      apply Flat.wp_bmapIndirect_named isRoot' isNamedEntry
      apply stale
      apply not_owns_of_stale took noIndirect namedGarbage kept
      intro other inMapOther isMarked
      rw [isMap, Bool.or_eq_true, decide_eq_true_eq] at isMarked
      rcases isMarked with rfl | wasMarked
      · exact Or.inr ⟨.indirect, by simp, isNamed⟩
      · exact Or.inl wasMarked
  | none =>
      rw [← sameSuper] at layout
      apply Flat.wp_bmapIndirect_unnamed layout isRoot' hasIndirect isNamedEntry
      · exact fun _ flat' => full flat'
      · intro second free isFree'
        apply stale
        rw [sameSuper] at isFree' layout
        have isIn : second ∈ flat.core.super.freeBits taken.root := by
          rw [isFree']
          exact List.mem_cons_self
        obtain ⟨inMapSecond, isClearSecond⟩ := Super.mem_freeBits.mp isIn
        have wasClear : flat.core.super.zmap flat.root second = false := by
          rw [isMap, Bool.or_eq_false_iff] at isClearSecond
          exact isClearSecond.2
        have different : Place.entry garbage ≠ Place.entry entry := by
          intro samePlace
          rw [samePlace, isNamedEntry] at namedGarbage
          contradiction
        have given : (taken.takeEntry i entry second).names i = Function.update (taken.names i)
            (.entry entry) (some (flat.core.super.zoneOf second)) := by
          have less := (zones.formatted second inMapSecond wasClear).2
          have bound := layout.zones
          have small : flat.core.super.zoneOf second < 2 ^ 16 := by omega
          have notZeroSecond := zones.zoneOf_ne_zero inMapSecond wasClear
          rw [← sameSuper] at layout inMapSecond small notZeroSecond ⊢
          apply names_takeEntry layout inMapSecond _ hasIndirect notZeroSecond small
          rw [sameSuper, isIndirect]
          exact isFirst
        apply not_owns_of_stale took noIndirect
          (by rw [given, Function.update_of_ne different, namedGarbage])
        · intro place zone named
          have notEntry : place ≠ .entry entry := by
            rintro rfl
            rw [names_entry_none noIndirect] at named
            contradiction
          rw [given, Function.update_of_ne notEntry]
          exact kept place zone named
        · intro other inMapOther isMarked
          have isMapSecond : flat.core.super.zmap (taken.takeEntry i entry second).root other =
              (decide (other = second) || flat.core.super.zmap taken.root other) := by
            rw [← sameSuper] at layout inMapOther ⊢
            apply zmap_takeEntry layout _ inMapOther
            rw [sameSuper, isIndirect]
            exact isFirst
          rw [isMapSecond, isMap, Bool.or_eq_true, Bool.or_eq_true, decide_eq_true_eq,
            decide_eq_true_eq] at isMarked
          rcases isMarked with rfl | rfl | wasMarked
          · exact Or.inr ⟨.entry entry, different.symm, by rw [given, Function.update_self]⟩
          · exact Or.inr ⟨.indirect, by simp,
              by rw [given, Function.update_of_ne (by simp), isNamed]⟩
          · exact Or.inl wasMarked

/--
A block is looked up for a write. When there is no room, either this goes wrong here, or there
is none for the blocks that follow.
-/
theorem wp_bmap_room (zones : Zones flat.core.super flat.root nodes)
    (layout : flat.core.super.Layout) (isSlot : nodes key = (flat.core.inodes i).toInodeData)
    (isRoot : (flat.core.inodes i).dev = rootDev) (locked : (flat.core.inodes i).lock = true)
    (took : Took i start flat) (ascending : ∀ other ∈ rest, index < other)
    (holds : ∀ flat' zone, Extended i key nodes index flat flat' →
      flat'.names i (blockPlace index) = some zone →
      (Room flat i (index :: rest) ↔ Room flat' i rest) → post zone flat')
    (full : ¬Room flat i (index :: rest) → ∀ flat', post 0 flat')
    (stale : ¬Room flat i (index :: rest) → ∀ zone flat', ¬Owns start flat' i → post zone flat')
    (beyond : ¬Room flat i (index :: rest) → allowed (.panic .doubleIndirect) flat) :
    wp spec (bmap i index true) post flat := by
  by_cases inFile : index < maxBlocks
  case neg =>
    apply Flat.wp_bmap_beyond locked (Nat.le_of_not_lt inFile)
    exact beyond fun room => inFile (room.inFile index List.mem_cons_self)
  cases isNamed : flat.names i (blockPlace index) with
  | some zone =>
      apply Flat.wp_bmap_named isRoot locked inFile isNamed
      exact holds flat zone (Extended.refl zones isSlot index) isNamed
        (room_cons_named inFile isNamed)
  | none =>
      by_cases isDirect : index < ndirect
      · apply Flat.wp_bmap_direct layout isRoot locked isDirect isNamed
        · exact fun noFree => full (not_room_of_full isNamed noFree)
        · intro bit free isFree
          have isIn : bit ∈ flat.core.super.freeBits flat.root := by
            rw [isFree]
            exact List.mem_cons_self
          obtain ⟨inMap, isClear⟩ := Super.mem_freeBits.mp isIn
          obtain ⟨extended, given⟩ := extended_direct zones layout isSlot isIn isDirect isNamed
          rw [zones.toUshort_zoneOf layout inMap isClear]
          apply holds _ _ extended (by rw [given, Function.update_self])
          apply room_cons_taken inFile isNamed (Or.inl isDirect) isFree extended.took.sameSuper
          · intro other isOther inFileOther
            have different := ascending other isOther
            exact extended.others other inFileOther (by omega)
          · simp [Flat.takeDirect, Flat.setData]
          · exact Super.freeBits_tail isFree fun other _ => Flat.zmap_setZmap other
          · intro other isOther
            apply zones.free_setZmap layout inMap
            rw [isFree]
            exact List.mem_cons_of_mem _ isOther
      · obtain ⟨less, isPlace⟩ := Flat.entryPlace isDirect inFile
        by_cases hasIndirect : (flat.core.inodes i).indirect = 0
        case neg =>
          apply Flat.wp_bmap_entry locked isDirect inFile hasIndirect
          exact wp_bmapIndirect_room zones layout isSlot isRoot inFile isPlace hasIndirect isNamed
            ascending holds full
        apply Flat.wp_bmap_indirect layout isRoot locked isDirect inFile hasIndirect
        · exact fun noFree => full (not_room_of_full isNamed noFree)
        · intro bit free isFree
          have isIn : bit ∈ flat.core.super.freeBits flat.root := by
            rw [isFree]
            exact List.mem_cons_self
          obtain ⟨inMap, isClear⟩ := Super.mem_freeBits.mp isIn
          have notDirect : ∀ other ∈ index :: rest, ¬other < ndirect := by
            intro other isOther
            rcases List.mem_cons.mp isOther with rfl | isRest
            · exact isDirect
            · have greater := ascending other isRest
              omega
          by_cases isZero : ∀ byte < blockSize, flat.root (flat.core.super.zoneOf bit) byte = 0
          case neg =>
            have noRoom : ¬Room flat i (index :: rest) :=
              fun room => isZero (room.blank_first notDirect hasIndirect isFree)
            exact @wp_bmapIndirect_stale Key nodes i start flat spec allowed _ _ post bit
              ⟨index - ndirect, less⟩ zones layout isRoot took hasIndirect isIn isZero
              (full noRoom) (stale noRoom)
          obtain ⟨extended, given⟩ := @extended_indirect Key _ nodes key i flat bit index zones layout
            isSlot isIn hasIndirect isZero
          have isZone := zones.toUshort_zoneOf layout inMap isClear
          have hasIndirect' : ((flat.takeIndirect i bit).core.inodes i).indirect ≠ 0 := by
            simpa [Flat.takeIndirect, Flat.setData, isZone] using
              zones.zoneOf_ne_zero inMap isClear
          have isRoot' : ((flat.takeIndirect i bit).core.inodes i).dev = rootDev := by
            simpa [Flat.takeIndirect, Flat.setData] using isRoot
          have isUnnamed : (flat.takeIndirect i bit).names i (blockPlace index) = none := by
            rw [given, Function.update_of_ne (blockPlace_ne_indirect index), isNamed]
          have sameRoom : Room flat i (index :: rest) ↔
              Room (flat.takeIndirect i bit) i (index :: rest) := by
            apply room_indirect notDirect hasIndirect isFree isZero extended.took.sameSuper _
              hasIndirect' (Super.freeBits_tail isFree fun other _ => zmap_takeIndirect)
            intro other _ _
            rw [given, Function.update_of_ne (blockPlace_ne_indirect other)]
          have zones' := extended.grown.zones
          have layout' := layout
          rw [← extended.took.sameSuper] at zones' layout'
          apply wp_bmapIndirect_room zones' layout' (withSlot_self ..) isRoot' inFile isPlace
            hasIndirect' isUnnamed ascending
          · intro flat' zone extended' isNamed' sameRest
            exact holds flat' zone (extended.trans extended') isNamed' (sameRoom.trans sameRest)
          · rw [← sameRoom]
            exact full

end

end Osix
