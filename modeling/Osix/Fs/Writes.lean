import Osix.Fs.Arrays
import Osix.Fs.Room

/-!
# What `writei` writes

With room for the blocks of the range, `writei` stores the bytes in zones that the inode owns
and returns their number. Without it, it panics, or it writes to a block that does not belong to
the inode.
-/

namespace Osix

open Program Ownership

variable {Key : Type} [DecidableEq Key] {nodes : Key → InodeData} {key : Key} {i : InodeId}
  {start flat flat' flat'' : Flat}

/-- Data is written to zones that the inode owns. -/
def Proper (start : Flat) (i : InodeId) (event : Event) (flat : Flat) : Prop :=
  ∀ dev blockNo, event = .writesData dev blockNo →
    dev = rootDev ∧ Owns start flat i ∧ ∃ index, flat.names i (blockPlace index) = some blockNo

/-- The bytes are in the zones of the inode, from a position of the file on. -/
def StoredAt (flat : Flat) (i : InodeId) (pos : ℕ) (bytes : List Byte) : Prop :=
  ∀ index byte, bytes[index]? = some byte →
    ∃ zone, flat.names i (blockPlace ((pos + index) / blockSize)) = some zone ∧
      flat.root zone ((pos + index) % blockSize) = byte

/-- Only these bytes of the file were written, and only the blocks they are in were mapped. -/
structure Stored (i : InodeId) (pos : ℕ) (src : List Byte) (flat flat' : Flat) : Prop where
  bytes : StoredAt flat' i pos src
  others : ∀ index < maxBlocks, index ∉ blocksOf pos src.length →
    flat'.names i (blockPlace index) = flat.names i (blockPlace index)
  rest : ∀ zone offset, flat.core.super.firstdatazone ≤ zone →
    flat'.names i .indirect ≠ some zone →
    (∀ index < maxBlocks, flat'.names i (blockPlace index) = some zone →
      ¬(pos ≤ index * blockSize + offset ∧ index * blockSize + offset < pos + src.length)) →
    offset < blockSize → flat'.root zone offset = flat.root zone offset

/-! ## The blocks of a range -/

section

variable {pos len count : ℕ}

theorem mem_blocksOf {index : ℕ} : index ∈ blocksOf pos len ↔
    len ≠ 0 ∧ pos / blockSize ≤ index ∧ index * blockSize < pos + len := by
  rw [blocksOf, List.mem_range'_1]
  unfold blockSize
  split <;> omega

theorem blocksOf_zero : blocksOf pos 0 = [] := by
  simp [blocksOf]

/-- The first block of a range, and the rest. -/
theorem blocksOf_cons (notEmpty : len ≠ 0)
    (isCount : count = min (blockSize - pos % blockSize) len) :
    blocksOf pos len = pos / blockSize :: blocksOf (pos + count) (len - count) := by
  unfold blocksOf
  have inBlock : pos % blockSize < blockSize := Nat.mod_lt _ (by decide)
  rw [if_neg notEmpty, List.range'_succ]
  congr 1
  by_cases isLast : len ≤ blockSize - pos % blockSize
  · have isZero : (pos % blockSize + len - 1) / blockSize = 0 := by
      unfold blockSize at *
      omega
    rw [isZero, if_pos (by omega)]
    rfl
  · have isNext : (pos + count) / blockSize = pos / blockSize + 1 := by
      unfold blockSize at *
      omega
    have isLength : ((pos + count) % blockSize + (len - count) - 1) / blockSize + 1 =
        (pos % blockSize + len - 1) / blockSize := by
      unfold blockSize at *
      omega
    rw [if_neg (by omega), isNext, isLength]

end

/-! ## Storing -/

theorem Stored.nil (pos : ℕ) (flat : Flat) : Stored i pos [] flat flat where
  bytes index byte isByte := by simp at isByte
  others _ _ _ := rfl
  rest _ _ _ _ _ _ := rfl

/-- Bytes are stored in two parts. -/
theorem Stored.trans {pos count : ℕ} {src : List Byte} (took : Took i flat flat')
    (tookRest : Took i flat' flat'') (notMore : count ≤ src.length)
    (inFile : pos + src.length ≤ maxBlocks * blockSize)
    (zones : ∀ place zone, flat'.names i place = some zone →
      flat.core.super.firstdatazone ≤ zone)
    (once : ∀ place other zone, flat''.names i place = some zone →
      flat''.names i other = some zone → place = other)
    (first : Stored i pos (src.take count) flat flat')
    (second : Stored i (pos + count) (src.drop count) flat' flat'') :
    Stored i pos src flat flat'' := by
  have isLength : (src.take count).length = count := by
    rw [List.length_take]
    omega
  have isRest : (src.drop count).length = src.length - count := List.length_drop
  refine ⟨?_, ?_, ?_⟩
  · intro index byte isByte
    rcases Nat.lt_or_ge index count with inFirst | inSecond
    · rw [← List.getElem?_take_of_lt inFirst] at isByte
      obtain ⟨zone, named, isStored⟩ := first.bytes index byte isByte
      refine ⟨zone, tookRest.kept _ _ named, ?_⟩
      rw [second.rest, isStored]
      · rw [took.sameSuper]
        exact zones _ _ named
      · intro isIndirect
        have samePlace := once _ _ _ isIndirect (tookRest.kept _ _ named)
        exact blockPlace_ne_indirect _ samePlace.symm
      · intro other inFileOther namedOther within
        have samePlace := once _ _ _ namedOther (tookRest.kept _ _ named)
        have inFileIndex : (pos + index) / blockSize < maxBlocks := by
          apply Nat.div_lt_of_lt_mul
          rw [Nat.mul_comm]
          exact lt_of_lt_of_le (by omega) inFile
        have sameBlock := blockPlace_injective inFileOther inFileIndex samePlace
        have isPos := Nat.div_add_mod' (pos + index) blockSize
        rw [← sameBlock] at isPos
        omega
      · exact Nat.mod_lt _ (by decide)
    · have isDrop : (src.drop count)[index - count]? = some byte := by
        rw [List.getElem?_drop, Nat.add_sub_cancel' inSecond]
        exact isByte
      have isPos : pos + count + (index - count) = pos + index := by omega
      rw [← isPos]
      exact second.bytes (index - count) byte isDrop
  · intro index inFileIndex outside
    rw [second.others index inFileIndex, first.others index inFileIndex]
    · rw [mem_blocksOf] at outside ⊢
      rw [isLength]
      unfold blockSize at *
      omega
    · rw [mem_blocksOf] at outside ⊢
      rw [isRest]
      unfold blockSize at *
      omega
  · intro zone offset isFirst notIndirect outside inBlock
    rw [second.rest zone offset (took.sameSuper ▸ isFirst) notIndirect _ inBlock]
    · apply first.rest zone offset isFirst _ _ inBlock
      · intro isIndirect
        exact notIndirect (tookRest.kept _ _ isIndirect)
      · intro index inFileIndex named within
        have notWithin := outside index inFileIndex (tookRest.kept _ _ named)
        omega
    · intro index inFileIndex named within
      have notWithin := outside index inFileIndex named
      omega

/-! ## The loop -/

section

open Fs

variable {allowed : Stop → Flat → Prop} {sleeps : Flat → Prop}

instance : Flat.Silent (Flat.checks (Proper start i) allowed sleeps) where
  mark notWritten := by
    rw [Flat.wp_mark_checks]
    exact and_iff_right fun dev blockNo isData => absurd isData (notWritten dev blockNo)

instance : Flat.Silent (Flat.rules (Proper start i) allowed sleeps) where
  mark notWritten := by
    rw [Flat.wp_mark]
    exact ⟨fun holds => holds fun dev blockNo isData => absurd isData (notWritten dev blockNo),
      fun holds _ => holds⟩

/-- A block of the file has been mapped and is written. -/
theorem Extended.store {pos index zone : ℕ} {seg : List Byte}
    (extended : Extended i key nodes index flat flat')
    (layout : flat.core.super.Layout) (inFile : index < maxBlocks)
    (named : flat'.names i (blockPlace index) = some zone) (isIndex : index = pos / blockSize)
    (notEmpty : seg ≠ []) (inBlock : pos % blockSize + seg.length ≤ blockSize)
    (isFlat'' : flat'' = flat'.setBlock (rootDev, zone)
      ((flat'.disk rootDev zone).copy (pos % blockSize) seg)) :
    Written i key nodes flat flat'' ∧ Took i flat flat'' ∧ Stored i pos seg flat flat'' ∧
      flat''.core = flat'.core ∧ ∀ blocks, Room flat'' i blocks ↔ Room flat' i blocks := by
  have zones' := extended.grown.zones
  have layout' := layout
  rw [← extended.took.sameSuper] at zones' layout'
  have held : holdsZone flat'.root (withSlot nodes key flat' i) (key, blockPlace index) =
      some zone := by rw [Flat.holdsZone_withSlot, named]
  have written : Written i key (withSlot nodes key flat' i) flat' flat'' :=
    isFlat'' ▸ written_block zones' layout' (withSlot_self ..) held (blockPlace_ne_indirect _)
  have isCore : flat''.core = flat'.core := by rw [isFlat'', Flat.setBlock_core]
  have sameNames : flat''.names i = flat'.names i := by
    funext place
    have sameHolders := congrFun (@Zones.holdsZone_setBlock Key (withSlot nodes key flat' i) key
      flat' zone (blockPlace index) ((flat'.disk rootDev zone).copy (pos % blockSize) seg) _
      zones' held
      (blockPlace_ne_indirect _)) (key, place)
    rw [Flat.holdsZone_withSlot, ← isFlat'', Flat.holdsZone_slot] at sameHolders
    · exact sameHolders
    · rw [withSlot_self, isCore]
  have isOther : ∀ block ≠ zone, flat''.root block = flat'.root block := by
    intro block notBlock
    rw [isFlat'']
    exact Flat.root_setBlock_of_ne notBlock
  have isFirst := (zones'.named named).1
  have sameMap : ∀ bit < flat'.core.super.zmapBlocks * blockBits,
      flat'.core.super.zmap flat''.root bit = flat'.core.super.zmap flat'.root bit := by
    intro bit inMap
    have notZone : flat'.core.super.zmapBlock bit ≠ zone := by
      have less := layout'.zmapBlock_lt inMap
      omega
    rw [Super.zmap, isOther _ notZone]
    rfl
  refine ⟨extended.grown.toWritten.trans written, ?_, ⟨?_, ?_, ?_⟩, isCore, ?_⟩
  · exact extended.took.trans (Took.of_same written.sameSuper sameNames sameMap)
  · intro at' byte isByte
    have less := (List.getElem?_eq_some_iff.mp isByte).1
    have isBlock : (pos + at') / blockSize = index := by
      unfold blockSize at *
      omega
    have isOffset : (pos + at') % blockSize = pos % blockSize + at' := by
      unfold blockSize at *
      omega
    refine ⟨zone, by rw [sameNames, isBlock, named], ?_⟩
    rw [isFlat'', Flat.root_setBlock_self, isOffset, Block.copy_of_mem less]
    exact (List.getElem?_eq_some_iff.mp isByte).2
  · intro other inFileOther outside
    rw [sameNames]
    apply extended.others other inFileOther
    rintro rfl
    apply outside
    rw [mem_blocksOf]
    have positive := List.length_pos_iff.mpr notEmpty
    unfold blockSize at *
    omega
  · intro other offset isFirstOther notIndirect outside lessOffset
    rw [← extended.data other isFirstOther (by rwa [← sameNames])]
    rcases eq_or_ne other zone with rfl | different
    · have notWithin := outside index inFile (by rw [sameNames, named])
      have isPos := Nat.div_add_mod' pos blockSize
      rw [← isIndex] at isPos
      rw [isFlat'', Flat.root_setBlock_self]
      rcases Nat.lt_or_ge offset (pos % blockSize) with before | behind
      · rw [Block.copy_of_lt before]
        rfl
      · rw [Block.copy_of_ge (by omega)]
        rfl
    · rw [isOther other different]
  · intro blocks
    apply Room.congr written.sameSuper (fun index _ => by rw [sameNames]) (by rw [isCore])
      (Super.freeBits_congr sameMap)
    intro bit isFree
    obtain ⟨inMap, isClear⟩ := Super.mem_freeBits.mp isFree
    apply isOther
    rintro rfl
    exact zones'.unheld inMap isClear _ held

/-- What a whole write does to the state. -/
structure Wrote (i : InodeId) (key : Key) (nodes : Key → InodeData) (pos : ℕ) (src : List Byte)
    (flat flat' : Flat) : Prop where
  written : Written i key nodes flat flat'
  took : Took i flat flat'
  stored : Stored i pos src flat flat'
  size : (flat'.core.inodes i).size = (flat.core.inodes i).size

/-- The range of a write that there is room for. -/
theorem Room.range {pos len : ℕ} (room : Room flat i (blocksOf pos len)) (notEmpty : len ≠ 0) :
    pos + len ≤ maxBlocks * blockSize := by
  have isLast := room.inFile ((pos + len - 1) / blockSize) (by
    rw [mem_blocksOf]
    unfold blockSize
    omega)
  unfold maxBlocks ndirect nindirect blockSize at *
  omega

theorem Room.nil (flat : Flat) (i : InodeId) : Room flat i [] where
  inFile _ isIn := by simp at isIn
  enough := by simp [missing, NewIndirect]
  blank isNew := by simp [NewIndirect] at isNew

theorem Wrote.nil (pos : ℕ) (zones : Zones flat.core.super flat.root nodes)
    (isSlot : nodes key = (flat.core.inodes i).toInodeData) : Wrote i key nodes pos [] flat flat :=
  ⟨(Grown.refl zones isSlot).toWritten, Took.refl i flat, Stored.nil pos flat, rfl⟩

/-- A block is written, and then the bytes that are left. -/
theorem Wrote.cons {pos count : ℕ} {src : List Byte} {next : Flat}
    (written : Written i key nodes flat next) (took : Took i flat next)
    (stored : Stored i pos (src.take count) flat next)
    (size : (next.core.inodes i).size = (flat.core.inodes i).size)
    (room : Room flat i (blocksOf pos src.length)) (notEmpty : src.length ≠ 0)
    (atMost : count ≤ src.length)
    (wrote : Wrote i key (withSlot nodes key next i) (pos + count) (src.drop count) next flat') :
    Wrote i key nodes pos src flat flat' := by
  have isRange := room.range notEmpty
  refine ⟨written.trans wrote.written, took.trans wrote.took, ?_, wrote.size.trans size⟩
  apply Stored.trans took wrote.took atMost isRange _ _ stored wrote.stored
  · intro place zone named
    exact (written.zones.named named).1
  · intro place other zone namedPlace namedOther
    have sameHolder := wrote.written.zones.exclusive (key, place) (key, other) zone
      (by rw [Flat.holdsZone_withSlot, namedPlace])
      (by rw [Flat.holdsZone_withSlot, namedOther])
    exact congrArg Prod.snd sameHolder

/-- The blocks of the bytes that are left come after the block that is written. -/
theorem lt_of_mem_blocksOf_rest {pos len count other : ℕ}
    (isCount : min (blockSize - pos % blockSize) len = count)
    (isOther : other ∈ blocksOf (pos + count) (len - count)) : pos / blockSize < other := by
  rw [mem_blocksOf] at isOther
  unfold blockSize at *
  omega

/-- The bytes that are left begin with a block. -/
theorem block_of_rest {pos len count : ℕ} (isCount : min (blockSize - pos % blockSize) len = count)
    (more : count < len) :
    pos / blockSize + 1 = (pos + count) / blockSize ∧ 0 = (pos + count) % blockSize := by
  unfold blockSize at *
  omega

/-- A round of the loop: a block is mapped, and the bytes of the segment are stored in it. -/
theorem wp_round_room {spec : Spec (FsOp FlatBuf) FsOp.Reply Flat}
    [judges : Flat.Judges spec allowed] [silent : Flat.Silent spec] {post : Unit → Flat → Prop}
    {tail : FsM FlatBuf Unit} {pos : ℕ} {seg : List Byte} {rest : List ℕ}
    (zones : Zones flat.core.super flat.root nodes)
    (layout : flat.core.super.Layout) (isSlot : nodes key = (flat.core.inodes i).toInodeData)
    (isRoot : (flat.core.inodes i).dev = rootDev) (locked : (flat.core.inodes i).lock = true)
    (took : Took i start flat) (inFile : pos / blockSize < maxBlocks)
    (ascending : ∀ other ∈ rest, pos / blockSize < other) (notEmpty : seg ≠ [])
    (inBlock : pos % blockSize + seg.length ≤ blockSize)
    (goes : ∀ zone flat post, Proper start i (.writesData rootDev zone) flat → post () flat →
      wp spec (mark (.writesData rootDev zone)) post flat)
    (wrong : ¬Room flat i (pos / blockSize :: rest) → ∀ dev zone flat post,
      ¬Proper start i (.writesData dev zone) flat →
        wp spec (mark (.writesData dev zone)) post flat)
    (beyond : ¬Room flat i (pos / blockSize :: rest) → allowed (.panic .doubleIndirect) flat)
    (holds : ∀ next, Written i key nodes flat next → Took i flat next → Stored i pos seg flat next →
      (next.core.inodes i).size = (flat.core.inodes i).size →
        (Room next i rest ↔ Room flat i (pos / blockSize :: rest)) → wp spec tail post next) :
    wp spec (do
        let blockNo ← bmap i (pos / blockSize) true
        let dev := (← getInode i).dev
        mark (.writesData dev blockNo)
        let buf ← bread dev blockNo
        bstore buf fun data => data.copy (pos % blockSize) seg
        bwrite buf
        brelse buf
        tail) post flat := by
  simp only [wp_bind]
  apply wp_bmap_room zones layout isSlot isRoot locked took ascending
  case beyond => exact beyond
  case full =>
    intro noRoom flat'
    simp only [Flat.wp_getInode]
    apply wrong noRoom
    intro proper
    obtain ⟨-, -, index, named⟩ := proper _ _ rfl
    exact Flat.names_ne_zero named
  case stale =>
    intro noRoom zone flat' notOwns
    simp only [Flat.wp_getInode]
    apply wrong noRoom
    intro proper
    exact notOwns (proper _ _ rfl).2.1
  intro mapped zone extended named sameRoom
  have slotMapped := extended.grown.toWritten.slot
  have owns : Owns start mapped i := by
    have zonesMapped := extended.grown.zones
    rw [took.sameSuper] at zonesMapped
    exact (took.trans extended.took).owns zonesMapped
  simp only [Flat.wp_getInode, slotMapped.1, isRoot]
  apply goes
  · intro dev blockNo isData
    cases isData
    exact ⟨rfl, owns, pos / blockSize, named⟩
  simp only [Flat.wp_bread, Flat.wp_bstore, Flat.wp_bwrite, Flat.wp_brelse]
  obtain ⟨written, tookStored, stored, isCore, sameRoomStored⟩ :=
    extended.store layout inFile named rfl notEmpty inBlock rfl
  apply holds _ written tookStored stored
  · rw [isCore, extended.grown.size]
  · rw [sameRoomStored, ← sameRoom]

/--
The loop of `writei`. `goes` and `wrong` say how the rules judge a block that is written; when
there is room, all of them are proper.
-/
theorem wp_writeiLoop_room {spec : Spec (FsOp FlatBuf) FsOp.Reply Flat}
    [judges : Flat.Judges spec allowed] [silent : Flat.Silent spec] {post : Unit → Flat → Prop}
    {rounds bindex pos offset : ℕ} {src : List Byte}
    (zones : Zones flat.core.super flat.root nodes)
    (layout : flat.core.super.Layout) (isSlot : nodes key = (flat.core.inodes i).toInodeData)
    (isRoot : (flat.core.inodes i).dev = rootDev) (locked : (flat.core.inodes i).lock = true)
    (took : Took i start flat) (enough : src.length ≤ rounds)
    (atPos : src ≠ [] → bindex = pos / blockSize ∧ offset = pos % blockSize)
    (goes : ∀ zone flat post, Proper start i (.writesData rootDev zone) flat → post () flat →
      wp spec (mark (.writesData rootDev zone)) post flat)
    (wrong : ¬Room flat i (blocksOf pos src.length) → ∀ dev zone flat post,
      ¬Proper start i (.writesData dev zone) flat →
        wp spec (mark (.writesData dev zone)) post flat)
    (beyond : ¬Room flat i (blocksOf pos src.length) →
      ∀ flat, allowed (.panic .doubleIndirect) flat)
    (holds : Room flat i (blocksOf pos src.length) →
      ∀ flat', Wrote i key nodes pos src flat flat' → post () flat') :
    wp spec (writeiLoop i rounds bindex offset src) post flat := by
  have roomNil : Room flat i (blocksOf pos ([] : List Byte).length) := by
    rw [List.length_nil, blocksOf_zero]
    exact Room.nil flat i
  induction rounds generalizing bindex pos offset src nodes flat with
  | zero =>
      have isNil : src = [] := List.length_eq_zero_iff.mp (by omega)
      subst isNil
      exact holds roomNil flat (Wrote.nil pos zones isSlot)
  | succ rounds ih =>
      unfold writeiLoop
      by_cases isNil : src = []
      · subst isNil
        exact holds roomNil flat (Wrote.nil pos zones isSlot)
      obtain ⟨isBlock, isOffset⟩ := atPos isNil
      have notEmpty : src.length ≠ 0 := by simpa using isNil
      have inBlock : pos % blockSize < blockSize := Nat.mod_lt _ (by decide)
      have atMost : min (blockSize - pos % blockSize) src.length ≤ src.length :=
        Nat.min_le_right _ _
      generalize isCount : min (blockSize - pos % blockSize) src.length = count at atMost
      have isCons := blocksOf_cons notEmpty isCount.symm
      simp only [if_neg isNil, isOffset, isCount, isBlock]
      by_cases inFile : pos / blockSize < maxBlocks
      case neg =>
        rw [wp_bind]
        apply Flat.wp_bmap_beyond locked (Nat.le_of_not_lt inFile)
        apply beyond
        intro room
        rw [isCons] at room
        exact inFile (room.inFile _ List.mem_cons_self)
      have isNext : toUint ((pos / blockSize : ℕ) + 1) = pos / blockSize + 1 := by
        rw [← Int.natCast_succ, toUint_natCast]
        unfold maxBlocks ndirect nindirect at inFile
        omega
      have isLength : (src.take count).length = count := List.length_take_of_le atMost
      have segNotNil : src.take count ≠ [] := by
        intro isNilSeg
        rw [isNilSeg, List.length_nil] at isLength
        omega
      rw [isNext]
      rw [isCons] at wrong beyond
      apply wp_round_room zones layout isSlot isRoot locked took inFile
        (fun _ => lt_of_mem_blocksOf_rest isCount) segNotNil (by omega) goes wrong
        (fun noRoom => beyond noRoom flat)
      intro next written tookNext stored sameSize sameRoom
      have sameRoomNext : Room next i (blocksOf (pos + count) (src.drop count).length) ↔
          Room flat i (pos / blockSize :: blocksOf (pos + count) (src.length - count)) := by
        rw [List.length_drop, sameRoom]
      have layoutNext := layout
      rw [← written.sameSuper] at layoutNext
      have slotNext := written.slot
      have zonesNext := written.zones
      rw [← written.sameSuper] at zonesNext
      have enoughNext : (src.drop count).length ≤ rounds := by
        rw [List.length_drop]
        omega
      have atNext : src.drop count ≠ [] →
          pos / blockSize + 1 = (pos + count) / blockSize ∧ 0 = (pos + count) % blockSize := by
        intro more
        apply block_of_rest isCount
        by_contra all
        exact more (List.drop_eq_nil_of_le (by omega))
      apply ih zonesNext layoutNext (withSlot_self ..) (slotNext.1.trans isRoot)
        (slotNext.2.1.trans locked) (took.trans tookNext) enoughNext atNext
      · rwa [sameRoomNext]
      · rwa [sameRoomNext]
      · rw [sameRoomNext, ← isCons]
        exact fun room flat' wrote => holds room flat'
          (wrote.cons written tookNext stored sameSize room notEmpty atMost)
      · rw [List.length_nil, blocksOf_zero]
        exact Room.nil next i

/-! ## Character devices -/

/-- Only the output of the terminals is different. -/
def SameFiles (flat flat' : Flat) : Prop :=
  flat'.disk = flat.disk ∧ flat'.core.inodes = flat.core.inodes

theorem Core.putchar_inodes (core : Core) (dev : Dev) (char : Byte) :
    (core.putchar dev char).2.inodes = core.inodes := by
  unfold Core.putchar
  split <;> rfl

section

variable {spec : Spec (FsOp FlatBuf) FsOp.Reply Flat} [judges : Flat.Judges spec allowed]
  {post : ℤ → Flat → Prop}

include judges

theorem wp_ttyWrite {dev : Dev} {src : List Byte} {count : ℤ}
    (holds : ∀ ret flat', SameFiles flat flat' → ret ≤ max count 0 → post ret flat') :
    wp spec (ttyWrite dev src count) post flat := by
  induction src generalizing flat with
  | nil => exact holds count flat ⟨rfl, rfl⟩ (le_max_left _ _)
  | cons char rest ih =>
      rw [ttyWrite]
      simp only [wp_bind, Flat.wp_putchar]
      have same : SameFiles flat { flat with core := (flat.core.putchar dev char).2 } :=
        ⟨rfl, Core.putchar_inodes flat.core dev char⟩
      split
      · exact holds _ _ same (le_max_of_le_right (by omega))
      · apply ih
        intro ret flat' sameRest
        exact holds ret flat' ⟨sameRest.1.trans same.1, sameRest.2.trans same.2⟩

theorem wp_cdevWrite {dev : Dev} {src : List Byte}
    (holds : ∀ (ret : ℤ) flat', SameFiles flat flat' → ret ≤ src.length → post ret flat') :
    wp spec (cdevWrite dev src) post flat := by
  unfold cdevWrite
  split
  · exact holds 0 flat ⟨rfl, rfl⟩ (by omega)
  · split
    · apply wp_ttyWrite
      intro ret flat' same atMost
      apply holds ret flat' same
      have isLong : toLong (src.length : ℤ) ≤ src.length := by
        unfold toLong
        rw [Int.bmod_def]
        omega
      omega
    · refine holds _ flat ⟨rfl, rfl⟩ ?_
      unfold enodev
      omega

end

/-! ## The whole of `writei` -/

/-- What `writei` reports: bytes that are in the zones of the file, unless it is a device. -/
structure Reports (i : InodeId) (pos : ℕ) (src : List Byte) (flat : Flat) (ret : ℤ)
    (flat' : Flat) : Prop where
  count : ret ≤ src.length
  stored : fileType (flat.core.inodes i).mode ≠ sIfchr →
    0 ≤ ret ∧ StoredAt flat' i pos (src.take ret.toNat)
  size : (flat'.core.inodes i).size ≤ max (flat.core.inodes i).size (pos + ret) ∨
    flat'.core.inodes = flat.core.inodes

/-- `writei` returns, writes to zones of the inode only, and reports what it has stored. -/
def WritesProperly (flat : Flat) (i : InodeId) (src : List Byte) (pos : ℕ) : Prop :=
  (∃ ret flat', exec Flat.handler (writei i src pos) flat = .returned ret flat' ∧
    Reports i pos src flat ret flat') ∧
  Along Flat.handler (Flat.atMark (Proper flat i)) (writei i src pos : FsM FlatBuf ℤ) flat

theorem StoredAt.congr {pos : ℕ} {bytes : List Byte} (stored : StoredAt flat i pos bytes)
    (sameNames : flat'.names i = flat.names i) (sameRoot : flat'.root = flat.root) :
    StoredAt flat' i pos bytes := by
  intro index byte isByte
  rw [sameNames, sameRoot]
  exact stored index byte isByte

theorem toLong_le (n : ℕ) : toLong (n : ℤ) ≤ n := by
  unfold toLong
  rw [Int.bmod_def]
  omega

/-- Whether `writei` goes well depends on the room for the blocks only. -/
theorem wp_writei_room {spec : Spec (FsOp FlatBuf) FsOp.Reply Flat}
    [judges : Flat.Judges spec allowed] [silent : Flat.Silent spec] {post : ℤ → Flat → Prop}
    {pos : ℕ} {src : List Byte} {size ret : ℤ} (zones : Zones flat.core.super flat.root nodes)
    (layout : flat.core.super.Layout) (isSlot : nodes key = (flat.core.inodes i).toInodeData)
    (isRoot : (flat.core.inodes i).dev = rootDev) (locked : (flat.core.inodes i).lock = true)
    (notChr : fileType (flat.core.inodes i).mode ≠ sIfchr)
    (notBlk : fileType (flat.core.inodes i).mode ≠ sIfblk)
    (notFifo : fileType (flat.core.inodes i).mode ≠ sIfifo)
    (isSize : toLong (pos + src.length) = size) (isRet : toLong src.length = ret)
    (goes : ∀ zone flat' post, Proper flat i (.writesData rootDev zone) flat' → post () flat' →
      wp spec (mark (.writesData rootDev zone)) post flat')
    (wrong : ¬Room flat i (blocksOf pos src.length) → ∀ dev zone flat' post,
      ¬Proper flat i (.writesData dev zone) flat' →
        wp spec (mark (.writesData dev zone)) post flat')
    (beyond : ¬Room flat i (blocksOf pos src.length) →
      ∀ flat, allowed (.panic .doubleIndirect) flat)
    (grows : Room flat i (blocksOf pos src.length) →
      ∀ flat', Wrote i key nodes pos src flat flat' →
        (flat'.core.inodes i).size < size →
          post ret ((flat'.setData i fun old => { old with size := size }).setInode i
            fun old => { old with dirty := true }))
    (stays : Room flat i (blocksOf pos src.length) →
      ∀ flat', Wrote i key nodes pos src flat flat' →
        size ≤ (flat'.core.inodes i).size → post ret flat') :
    wp spec (writei i src pos) post flat := by
  simp only [writei, wp_bind, Flat.wp_getInode, locked, notChr, notBlk, notFifo, Bool.not_true,
    Bool.false_eq_true, if_false, isSize, isRet]
  apply wp_writeiLoop_room zones layout isSlot isRoot locked (Took.refl i flat) (Nat.le_refl _)
    (fun _ => ⟨rfl, rfl⟩) goes wrong beyond
  intro room flat' wrote
  simp only [wp_when, wp_bind, Flat.wp_setData, Flat.wp_setDirty, wp_pure]
  split
  case isTrue isLarger => exact grows room flat' wrote isLarger
  case isFalse notLarger => exact stays room flat' wrote (Int.not_lt.mp notLarger)

/-- What comes of a run that is checked. -/
theorem writesProperly_of_wp {pos : ℕ} {src : List Byte}
    (judged : wp (Flat.checks (Proper flat i) (fun _ _ => False) fun _ => False)
      (writei i src pos) (Reports i pos src flat) flat) : WritesProperly flat i src pos := by
  rcases exec_checked judged with ⟨along, ends⟩
  refine ⟨?_, along⟩
  cases result : exec Flat.handler (writei i src pos) flat with
  | returned ret flat' =>
      rw [result] at ends
      exact ⟨ret, flat', rfl, ends⟩
  | asleep flat' =>
      rw [result] at ends
      exact ends.elim
  | stopped why flat' =>
      rw [result] at ends
      exact ends.elim

/-- A run that cannot return when all blocks it writes are proper. -/
theorem not_writesProperly_of_wp {pos : ℕ} {src : List Byte}
    (judged : wp (Flat.rules (Proper flat i) (fun _ _ => True) fun _ => True)
      (writei i src pos) (fun _ _ => False) flat) : ¬WritesProperly flat i src pos := by
  rintro ⟨⟨ret, flat', returned, -⟩, along⟩
  have ends := exec_ends judged along
  rw [returned] at ends
  exact ends

section

variable {pos : ℕ} {src : List Byte}

theorem writesProperly_chr (locked : (flat.core.inodes i).lock = true)
    (isChr : fileType (flat.core.inodes i).mode = sIfchr) : WritesProperly flat i src pos := by
  apply writesProperly_of_wp
  simp only [writei, wp_bind, Flat.wp_getInode, locked, isChr, Bool.not_true, Bool.false_eq_true,
    if_false, if_true]
  generalize toShort ((flat.core.inodes i).direct 0) = dev
  apply wp_cdevWrite
  intro ret flat' same atMost
  exact ⟨atMost, fun notChr => absurd isChr notChr, Or.inr same.2⟩

theorem not_writesProperly_special (locked : (flat.core.inodes i).lock = true)
    (isSpecial : fileType (flat.core.inodes i).mode = sIfblk ∨
      fileType (flat.core.inodes i).mode = sIfifo) : ¬WritesProperly flat i src pos := by
  apply not_writesProperly_of_wp
  have notChr : fileType (flat.core.inodes i).mode ≠ sIfchr := by
    rcases isSpecial with isType | isType <;> rw [isType] <;> decide
  simp only [writei, wp_bind, Flat.wp_getInode, locked, notChr, Bool.not_true, Bool.false_eq_true,
    if_false]
  by_cases isBlk : fileType (flat.core.inodes i).mode = sIfblk
  · rw [if_pos isBlk]
    exact (Flat.wp_panic _ _).mpr trivial
  · rw [if_neg isBlk, if_pos (isSpecial.resolve_left isBlk)]
    exact (Flat.wp_panic _ _).mpr trivial

theorem writesProperly_room (zones : Zones flat.core.super flat.root nodes)
    (layout : flat.core.super.Layout) (isSlot : nodes key = (flat.core.inodes i).toInodeData)
    (isRoot : (flat.core.inodes i).dev = rootDev) (locked : (flat.core.inodes i).lock = true)
    (notChr : fileType (flat.core.inodes i).mode ≠ sIfchr)
    (notBlk : fileType (flat.core.inodes i).mode ≠ sIfblk)
    (notFifo : fileType (flat.core.inodes i).mode ≠ sIfifo)
    (room : Room flat i (blocksOf pos src.length)) : WritesProperly flat i src pos := by
  have isRet : toLong (src.length : ℤ) = src.length := by
    by_cases isNil : src.length = 0
    · rw [isNil]
      rfl
    · have isRange := room.range isNil
      apply toLong_natCast
      unfold maxBlocks ndirect nindirect blockSize at isRange
      omega
  obtain ⟨size, isSize⟩ : ∃ size, toLong ((pos : ℤ) + (src.length : ℤ)) = size := ⟨_, rfl⟩
  have atMost : size ≤ pos + src.length := by
    have isLess := toLong_le (pos + src.length)
    rw [Int.natCast_add, isSize] at isLess
    exact isLess
  apply writesProperly_of_wp
  apply wp_writei_room zones layout isSlot isRoot locked notChr notBlk notFifo isSize isRet
  case wrong => exact fun noRoom => absurd room noRoom
  case beyond => exact fun noRoom => absurd room noRoom
  case goes =>
    intro zone flat' post proper holds
    rw [Flat.wp_mark_checks]
    exact ⟨proper, holds⟩
  case grows =>
    intro _ flat' wrote isLarger
    refine ⟨le_rfl, fun _ => ⟨by omega, ?_⟩, Or.inl ?_⟩
    · rw [Int.toNat_natCast, List.take_length]
      apply StoredAt.congr wrote.stored.bytes
      · apply Flat.names_congr
        · simp [Flat.setData]
        · simp [Flat.setData]
        · rfl
      · rfl
    · simp only [Flat.setData, Flat.setInode_self]
      exact le_max_of_le_right atMost
  case stays =>
    intro _ flat' wrote notLarger
    refine ⟨le_rfl, fun _ => ⟨by omega, ?_⟩, Or.inl ?_⟩
    · rw [Int.toNat_natCast, List.take_length]
      exact wrote.stored.bytes
    · exact le_max_of_le_left wrote.size.le

theorem not_writesProperly_no_room (zones : Zones flat.core.super flat.root nodes)
    (layout : flat.core.super.Layout) (isSlot : nodes key = (flat.core.inodes i).toInodeData)
    (isRoot : (flat.core.inodes i).dev = rootDev) (locked : (flat.core.inodes i).lock = true)
    (notChr : fileType (flat.core.inodes i).mode ≠ sIfchr)
    (notBlk : fileType (flat.core.inodes i).mode ≠ sIfblk)
    (notFifo : fileType (flat.core.inodes i).mode ≠ sIfifo)
    (noRoom : ¬Room flat i (blocksOf pos src.length)) : ¬WritesProperly flat i src pos := by
  apply not_writesProperly_of_wp
  apply wp_writei_room zones layout isSlot isRoot locked notChr notBlk notFifo rfl rfl
  case goes =>
    intro zone flat' post proper holds
    rw [Flat.wp_mark]
    exact fun _ => holds
  case wrong =>
    intro _ dev zone flat' post notProper
    rw [Flat.wp_mark]
    exact fun proper => absurd proper notProper
  case beyond => exact fun _ _ => trivial
  case grows => exact fun room => absurd room noRoom
  case stays => exact fun room => absurd room noRoom

/--
`writei` goes well on a file system on which every zone has one holder if and only if there is
room for the blocks of the range; a character device needs none, and there are no other types
of files that it can write.
-/
theorem writei_properly (zones : Zones flat.core.super flat.root nodes)
    (layout : flat.core.super.Layout) (isSlot : nodes key = (flat.core.inodes i).toInodeData)
    (isRoot : (flat.core.inodes i).dev = rootDev) (locked : (flat.core.inodes i).lock = true) :
    WritesProperly flat i src pos ↔
      fileType (flat.core.inodes i).mode = sIfchr ∨
        fileType (flat.core.inodes i).mode ≠ sIfblk ∧
        fileType (flat.core.inodes i).mode ≠ sIfifo ∧ Room flat i (blocksOf pos src.length) := by
  by_cases isChr : fileType (flat.core.inodes i).mode = sIfchr
  · exact iff_of_true (writesProperly_chr locked isChr) (Or.inl isChr)
  by_cases isBlk : fileType (flat.core.inodes i).mode = sIfblk
  · refine iff_of_false (not_writesProperly_special locked (Or.inl isBlk)) ?_
    rintro (isChr' | ⟨notBlk, -, -⟩)
    · exact isChr isChr'
    · exact notBlk isBlk
  by_cases isFifo : fileType (flat.core.inodes i).mode = sIfifo
  · refine iff_of_false (not_writesProperly_special locked (Or.inr isFifo)) ?_
    rintro (isChr' | ⟨-, notFifo, -⟩)
    · exact isChr isChr'
    · exact notFifo isFifo
  constructor
  · intro properly
    refine Or.inr ⟨isBlk, isFifo, ?_⟩
    by_contra noRoom
    exact not_writesProperly_no_room zones layout isSlot isRoot locked isChr isBlk isFifo noRoom
      properly
  · rintro (isChr' | ⟨-, -, room⟩)
    · exact absurd isChr' isChr
    · exact writesProperly_room zones layout isSlot isRoot locked isChr isBlk isFifo room

end

/-! ## A file system with and without free zones -/

/-- The empty file of the small file system is locked. -/
def lockedSmall : Flat := Arrays.smallFlat.setInode 0 fun old => { old with lock := true }

theorem room_lockedSmall : Room lockedSmall 0 (blocksOf 0 1) where
  inFile := by decide
  enough := by
    have isFree : 1 ∈ lockedSmall.core.super.freeBits lockedSmall.root :=
      Super.mem_freeBits.mpr ⟨by decide, by decide⟩
    have positive := List.length_pos_of_mem isFree
    have isOne : (missing lockedSmall 0 (blocksOf 0 1)).length +
        (if NewIndirect lockedSmall 0 (blocksOf 0 1) then 1 else 0) = 1 := by decide
    omega
  blank := by
    rintro ⟨-, index, isIn, notDirect⟩
    rw [mem_blocksOf] at isIn
    unfold ndirect at notDirect
    unfold blockSize at isIn
    omega

theorem writei_properly_small : WritesProperly lockedSmall 0 [7] 0 := by
  obtain ⟨locked, isLocked, inv⟩ :=
    (Arrays.inv_fresh Arrays.fresh_smallFlat).locked (rfl : (0 : InodeId) = 0)
  have isSmall : locked = lockedSmall := isLocked
  subst isSmall
  exact (writei_properly inv.zones inv.layout inv.isSlot inv.dev inv.lock).2
    (Or.inr ⟨by decide, by decide, room_lockedSmall⟩)

/-- All bits of the zone map are set. -/
def fullSmall : Flat where
  core := lockedSmall.core
  disk _ block := if block = 3 then fun _ => 0xff else fun _ => 0

theorem zmap_fullSmall {bit : ℕ} (inMap : bit < Arrays.smallSuper.zmapBlocks * blockBits) :
    Arrays.smallSuper.zmap fullSmall.root bit = true := by
  have less : bit < blockBits := by
    rw [show Arrays.smallSuper.zmapBlocks = 1 from rfl, Nat.one_mul] at inMap
    exact inMap
  have isMap : Arrays.smallSuper.zmap fullSmall.root bit = (0xff#8).getLsbD (bit % 8) := by
    rw [Super.zmap, Super.zmapBlock, Nat.div_eq_of_lt less, Nat.mod_eq_of_lt less]
    rfl
  rw [isMap]
  have small : bit % 8 < 8 := Nat.mod_lt _ (by decide)
  generalize bit % 8 = b at *
  interval_cases b <;> decide

theorem zones_fullSmall : Zones fullSmall.core.super fullSmall.root
    (fun _ : Unit => (fullSmall.core.inodes 0).toInodeData) := by
  have nothing : ∀ holder, holdsZone fullSmall.root
      (fun _ : Unit => (fullSmall.core.inodes 0).toInodeData) holder = none := by
    rintro ⟨⟨⟩, place⟩
    cases place <;> rfl
  constructor
  · intro first second zone held
    simp [nothing] at held
  · intro holder bit inMap held
    simp [nothing] at held
  · intro holder zone held
    simp [nothing] at held
  · intro bit inMap isClear
    have isSet := zmap_fullSmall inMap
    rw [show Arrays.smallSuper.zmap fullSmall.root bit = false from isClear] at isSet
    contradiction

/-- Without a free zone, a byte of an empty file is written to block 0. -/
theorem writei_properly_full :
    Zones fullSmall.core.super fullSmall.root
        (fun _ : Unit => (fullSmall.core.inodes 0).toInodeData) ∧
      ¬WritesProperly fullSmall 0 [7] 0 := by
  refine ⟨zones_fullSmall, ?_⟩
  have layout : fullSmall.core.super.Layout := Arrays.fresh_smallFlat.layout
  have isFull : fullSmall.core.super.freeBits fullSmall.root = [] := by
    rw [Super.freeBits, List.filter_eq_nil_iff]
    intro bit isIn
    have isSet := zmap_fullSmall (List.mem_range.mp isIn)
    rw [show fullSmall.core.super.zmap fullSmall.root bit = true from isSet]
    decide
  apply @not_writesProperly_no_room Unit _ _ () 0 fullSmall 0 [7] zones_fullSmall layout rfl rfl rfl
  · decide
  · decide
  · decide
  · exact not_room_of_full rfl isFull

end

end Osix
