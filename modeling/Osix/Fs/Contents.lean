import Osix.Fs.Zones
import Osix.Lib.Transition

/-!
# The contents of files

What `readi` returns and `writei` changes, for files within the reach of the indirect block.
The contents of a file are a list of bytes; `Contents` says that the zones of an inode hold it.
-/

namespace Osix

open Program Ownership

/-! ## Writing into a list -/

/-- A list with some of its elements replaced from a position on, perhaps beyond its end. -/
def splice (content : List Byte) (pos : ℕ) (src : List Byte) : List Byte :=
  content.take pos ++ src ++ content.drop (pos + src.length)

theorem splice_nil (content : List Byte) (pos : ℕ) : splice content pos [] = content := by
  simp [splice]

theorem splice_length {content src : List Byte} {pos : ℕ} (inside : pos ≤ content.length) :
    (splice content pos src).length = max content.length (pos + src.length) := by
  simp only [splice, List.length_append, List.length_take, List.length_drop]
  omega

theorem splice_getElem {content src : List Byte} {pos : ℕ} (inside : pos ≤ content.length)
    (index : ℕ) :
    (splice content pos src)[index]? =
      if pos ≤ index ∧ index < pos + src.length then src[index - pos]? else content[index]? := by
  have isLength : (content.take pos).length = pos := by
    rw [List.length_take]
    omega
  unfold splice
  rw [List.append_assoc]
  rcases Nat.lt_or_ge index pos with before | after
  · rw [List.getElem?_append_left (by omega), if_neg (by omega), List.getElem?_take_of_lt before]
  · rw [List.getElem?_append_right (by omega), isLength]
    rcases Nat.lt_or_ge index (pos + src.length) with within | behind
    · rw [List.getElem?_append_left (by omega), if_pos ⟨after, within⟩]
    · rw [List.getElem?_append_right (by omega), if_neg (by omega), List.getElem?_drop]
      congr 1
      omega

/-- A list is written in two parts. -/
theorem splice_splice {content src : List Byte} {pos count : ℕ} (inside : pos ≤ content.length)
    (atMost : count ≤ src.length) :
    splice (splice content pos (src.take count)) (pos + count) (src.drop count) =
      splice content pos src := by
  have isLength : (src.take count).length = count := by
    rw [List.length_take]
    omega
  have insideFirst : pos + count ≤ (splice content pos (src.take count)).length := by
    rw [splice_length inside, isLength]
    omega
  apply List.ext_getElem?
  intro index
  rw [splice_getElem insideFirst, splice_getElem inside, splice_getElem inside, isLength,
    List.length_drop, List.getElem?_drop]
  by_cases inFirst : pos ≤ index ∧ index < pos + count
  · rw [if_neg (by omega), if_pos inFirst, if_pos (by omega), List.getElem?_take_of_lt (by omega)]
  · by_cases inSecond : pos + count ≤ index ∧ index < pos + count + (src.length - count)
    · rw [if_pos inSecond, if_pos (by omega)]
      congr 1
      omega
    · rw [if_neg inSecond, if_neg inFirst, if_neg (by omega)]

/-! ## Contents of zones -/

variable {Key : Type}

/-- The bytes of a file are in its zones. -/
structure Contents (disk : ℕ → Block) (nodes : Key → InodeData) (key : Key)
    (content : List Byte) : Prop where
  bound : content.length ≤ maxBlocks * blockSize
  stored : ∀ index byte, content[index]? = some byte →
    ∃ zone, holdsZone disk nodes (key, blockPlace (index / blockSize)) = some zone ∧
      disk zone (index % blockSize) = byte

/-- A block of a file that has a byte of it. -/
theorem Contents.inFile {disk : ℕ → Block} {nodes : Key → InodeData} {key : Key}
    {content : List Byte} (contents : Contents disk nodes key content) {index : ℕ}
    (inside : index < content.length) : index / blockSize < maxBlocks := by
  apply Nat.div_lt_of_lt_mul
  have bound := contents.bound
  rw [Nat.mul_comm] at bound
  omega

variable [DecidableEq Key] {nodes : Key → InodeData} {key : Key} {i : InodeId}
  {flat flat' flat'' : Flat} {content : List Byte}

/-- The contents of the other files stay. -/
theorem Written.contents (written : Written i key nodes flat flat') {other : Key}
    (different : other ≠ key) (contents : Contents flat.root nodes other content) :
    Contents flat'.root (withSlot nodes key flat' i) other content where
  bound := contents.bound
  stored index byte isByte := by
    obtain ⟨zone, held, isStored⟩ := contents.stored index byte isByte
    refine ⟨zone, written.kept _ _ held, ?_⟩
    rw [written.others _ zone different (blockPlace_ne_indirect _) held]
    exact isStored

/-- When zones are taken, the contents of all files stay. -/
theorem Grown.contents (grown : Grown i key nodes flat flat') {other : Key}
    (contents : Contents flat.root nodes other content) :
    Contents flat'.root (withSlot nodes key flat' i) other content where
  bound := contents.bound
  stored index byte isByte := by
    obtain ⟨zone, held, isStored⟩ := contents.stored index byte isByte
    refine ⟨zone, grown.kept _ _ held, ?_⟩
    rw [grown.data _ zone (blockPlace_ne_indirect _) held]
    exact isStored

/-! ## A block is written -/

section

variable {zone : ℕ} {place : Place} {data : Block}

omit [DecidableEq Key] in
/-- A zone with data is no indirect block. -/
theorem Zones.holdsZone_setBlock {super : Super} (zones : Zones super flat.root nodes)
    (held : holdsZone flat.root nodes (key, place) = some zone) (notIndirect : place ≠ .indirect) :
    holdsZone (flat.setBlock (rootDev, zone) data).root nodes = holdsZone flat.root nodes := by
  funext holder
  obtain ⟨other, at'⟩ := holder
  cases at' with
  | direct index => rfl
  | indirect => rfl
  | entry index =>
      by_cases isZero : (nodes other).indirect = 0
      · simp [holdsZone, InodeData.zoneAt, isZero]
      · have heldIndirect : holdsZone flat.root nodes (other, .indirect) =
            some (nodes other).indirect := holdsZone_eq_some.mpr ⟨rfl, isZero⟩
        have notZone : (nodes other).indirect ≠ zone := by
          rintro rfl
          have sameHolder := zones.exclusive _ _ _ held heldIndirect
          exact notIndirect (congrArg Prod.snd sameHolder)
        simp [holdsZone, InodeData.zoneAt, Flat.root_setBlock_of_ne notZone]

omit [DecidableEq Key] in
theorem Zones.setBlock {super : Super} (zones : Zones super flat.root nodes)
    (layout : super.Layout) (held : holdsZone flat.root nodes (key, place) = some zone)
    (notIndirect : place ≠ .indirect) :
    Zones super (flat.setBlock (rootDev, zone) data).root nodes := by
  have isFirst := (zones.isZone _ _ held).1
  have sameMap : ∀ bit < super.zmapBlocks * blockBits,
      super.zmap (flat.setBlock (rootDev, zone) data).root bit = super.zmap flat.root bit := by
    intro bit inMap
    have notZone : super.zmapBlock bit ≠ zone := by
      have less := layout.zmapBlock_lt inMap
      omega
    rw [Super.zmap, Flat.root_setBlock_of_ne notZone, Super.zmap]
  have sameHolders : holdsZone (flat.setBlock (rootDev, zone) data).root nodes =
      holdsZone flat.root nodes := zones.holdsZone_setBlock held notIndirect
  constructor
  · rw [sameHolders]
    exact zones.exclusive
  · intro holder bit inMap heldBit
    rw [sameHolders] at heldBit
    rw [sameMap bit inMap]
    exact zones.marked holder bit inMap heldBit
  · rw [sameHolders]
    exact zones.isZone
  · intro bit inMap isClear
    rw [sameMap bit inMap] at isClear
    exact zones.formatted bit inMap isClear

/-- A block of the file in slot `i` is written. -/
theorem written_block (zones : Zones flat.core.super flat.root nodes)
    (layout : flat.core.super.Layout) (isSlot : nodes key = (flat.core.inodes i).toInodeData)
    (held : holdsZone flat.root nodes (key, place) = some zone) (notIndirect : place ≠ .indirect) :
    Written i key nodes flat (flat.setBlock (rootDev, zone) data) := by
  have isFirst := (zones.isZone _ _ held).1
  have sameNodes : withSlot nodes key (flat.setBlock (rootDev, zone) data) i = nodes := by
    rw [withSlot, Flat.setBlock_core, ← isSlot, Function.update_eq_self]
  constructor
  · exact ⟨(flat.core.inodes i).size, (flat.core.inodes i).direct, (flat.core.inodes i).indirect,
      (flat.core.inodes i).dirty, by simp [Core.setInode]⟩
  · intro dev notRoot
    funext block
    exact Flat.setBlock_of_ne _ _ _ (by simp [notRoot])
  · intro block less _
    exact Flat.root_setBlock_of_ne (by omega)
  · rw [sameNodes]
    exact zones.setBlock layout held notIndirect
  · rw [sameNodes, zones.holdsZone_setBlock held notIndirect]
    exact fun _ _ heldZone => heldZone
  · intro holder other different _ heldOther
    apply Flat.root_setBlock_of_ne
    rintro rfl
    have sameHolder := zones.exclusive _ _ _ heldOther held
    exact different (congrArg Prod.fst sameHolder)
  · intro isFree bit inMap isClear byte inBlock
    have notZone : flat.core.super.zmapBlock bit ≠ zone := by
      have less := layout.zmapBlock_lt inMap
      omega
    rw [Super.zmap, Flat.root_setBlock_of_ne notZone] at isClear
    have notHeld : flat.core.super.zoneOf bit ≠ zone := by
      rintro rfl
      exact zones.unheld inMap isClear _ held
    rw [Flat.root_setBlock_of_ne notHeld]
    exact isFree bit inMap isClear byte inBlock

omit [DecidableEq Key] in
/-- Bytes are written into one block of a file. -/
theorem Contents.setBlock {super : Super} {pos : ℕ} {src : List Byte}
    (zones : Zones super flat.root nodes) (contents : Contents flat.root nodes key content)
    (inside : pos ≤ content.length) (inBlock : pos % blockSize + src.length ≤ blockSize)
    (inFile : pos / blockSize < maxBlocks)
    (held : holdsZone flat.root nodes (key, blockPlace (pos / blockSize)) = some zone)
    (isData : data = (flat.root zone).copy (pos % blockSize) src) :
    Contents (flat.setBlock (rootDev, zone) data).root nodes key (splice content pos src) where
  bound := by
    have contentBound := contents.bound
    rw [splice_length inside]
    unfold blockSize at *
    omega
  stored index byte isByte := by
    rw [zones.holdsZone_setBlock held (blockPlace_ne_indirect _)]
    rw [splice_getElem inside] at isByte
    split at isByte
    case isTrue within =>
      have sameBlock : index / blockSize = pos / blockSize := by
        unfold blockSize at *
        omega
      have isOffset : index % blockSize = pos % blockSize + (index - pos) := by
        unfold blockSize at *
        omega
      obtain ⟨less, isElement⟩ := List.getElem?_eq_some_iff.mp isByte
      refine ⟨zone, by rw [sameBlock, held], ?_⟩
      rw [Flat.root_setBlock_self, isData, isOffset, Block.copy_of_mem less, isElement]
    case isFalse outside =>
      obtain ⟨other, heldOther, isStored⟩ := contents.stored index byte isByte
      refine ⟨other, heldOther, ?_⟩
      have less := (List.getElem?_eq_some_iff.mp isByte).1
      rcases eq_or_ne (index / blockSize) (pos / blockSize) with sameBlock | otherBlock
      · rw [sameBlock, held, Option.some.injEq] at heldOther
        subst heldOther
        rw [Flat.root_setBlock_self, isData]
        rcases Nat.lt_or_ge (index % blockSize) (pos % blockSize) with before | after
        · rw [Block.copy_of_lt before]
          exact isStored
        · rw [Block.copy_of_ge]
          · exact isStored
          · unfold blockSize at *
            omega
      · have notZone : other ≠ zone := by
          rintro rfl
          have sameHolder := zones.exclusive _ _ _ heldOther held
          have samePlace := congrArg Prod.snd sameHolder
          exact otherBlock (blockPlace_injective (contents.inFile less) inFile samePlace)
        rw [Flat.root_setBlock_of_ne notZone]
        exact isStored

end

/-! ## Reading and writing -/

section

open Fs

variable {ok : Event → Flat → Prop} {allowed : Stop → Flat → Prop} {sleeps : Flat → Prop}

omit [DecidableEq Key] in
/-- The bytes of a file in one of its blocks. -/
theorem Contents.bytes {disk : ℕ → Block} {zone pos count : ℕ}
    (contents : Contents disk nodes key content)
    (held : holdsZone disk nodes (key, blockPlace (pos / blockSize)) = some zone)
    (inside : pos + count ≤ content.length) (inBlock : pos % blockSize + count ≤ blockSize) :
    (disk zone).bytes (pos % blockSize) count = (content.drop pos).take count := by
  apply List.ext_getElem?
  intro index
  rw [Block.bytes, List.getElem?_map]
  rcases Nat.lt_or_ge index count with less | notLess
  · rw [List.getElem?_range less, List.getElem?_take_of_lt less, List.getElem?_drop,
      List.getElem?_eq_getElem (by omega), Option.map_some]
    have sameBlock : (pos + index) / blockSize = pos / blockSize := by
      unfold blockSize at *
      omega
    have isOffset : (pos + index) % blockSize = pos % blockSize + index := by
      unfold blockSize at *
      omega
    obtain ⟨other, heldOther, isStored⟩ :=
      contents.stored (pos + index) _ (List.getElem?_eq_getElem (by omega))
    rw [sameBlock, held, Option.some.injEq] at heldOther
    rw [← isStored, isOffset, heldOther]
  · rw [List.getElem?_eq_none (by simpa using notLess), Option.map_none,
      List.getElem?_eq_none (by simp; omega)]

omit [DecidableEq Key] in
theorem wp_readiLoop {post : List Byte → Flat → Prop} {rounds bindex pos offset count : ℕ}
    (isSlot : nodes key = (flat.core.inodes i).toInodeData)
    (isRoot : (flat.core.inodes i).dev = rootDev) (locked : (flat.core.inodes i).lock = true)
    (contents : Contents flat.root nodes key content) (inside : pos + count ≤ content.length)
    (enough : count ≤ rounds)
    (atPos : count ≠ 0 → bindex = pos / blockSize ∧ offset = pos % blockSize)
    (holds : post ((content.drop pos).take count) flat) :
    wp (Flat.rules ok allowed sleeps) (readiLoop i rounds bindex (offset : ℕ) count) post flat := by
  induction rounds generalizing bindex pos offset count post with
  | zero =>
      have isZero : count = 0 := by omega
      subst isZero
      simpa [readiLoop] using holds
  | succ rounds ih =>
      unfold readiLoop
      by_cases isZero : count = 0
      · subst isZero
        simpa using holds
      · obtain ⟨isBlock, isOffset⟩ := atPos isZero
        obtain ⟨byte, isByte⟩ : ∃ byte, content[pos]? = some byte :=
          ⟨_, List.getElem?_eq_getElem (by omega)⟩
        obtain ⟨zone, held, -⟩ := contents.stored pos byte isByte
        have inFile := contents.inFile (by omega : pos < content.length)
        simp only [isZero, if_false, wp_bind]
        rw [isBlock]
        apply wp_bmap_read isSlot isRoot locked inFile held
        have notNegative : ¬ ((offset : ℕ) : ℤ) < 0 := by omega
        simp only [Flat.wp_getInode, isRoot, Flat.wp_bread, notNegative, if_false, wp_bind,
          Flat.wp_bdata, Flat.wp_brelse, Int.toNat_natCast, wp_pure]
        rw [isOffset]
        have inBlock : pos % blockSize < blockSize := Nat.mod_lt _ (by decide)
        have less : min (blockSize - pos % blockSize) count ≤ count := by omega
        have isNext : toUint ((pos / blockSize : ℕ) + 1) = pos / blockSize + 1 := by
          unfold toUint maxBlocks ndirect nindirect at *
          omega
        rw [isNext]
        have isBytes : (flat.disk rootDev zone).bytes (pos % blockSize)
            (min (blockSize - pos % blockSize) count) =
              (content.drop pos).take (min (blockSize - pos % blockSize) count) :=
          contents.bytes held (by omega) (by omega)
        rw [isBytes]
        apply @ih _ _ (pos + min (blockSize - pos % blockSize) count) 0
        · omega
        · omega
        · intro more
          unfold blockSize at *
          omega
        · rw [← List.drop_drop, ← List.take_add, Nat.add_sub_cancel' less]
          exact holds

omit [DecidableEq Key] in
/-- `readi` returns the bytes of the file that there are. -/
theorem wp_readi {post : ℤ × List Byte → Flat → Prop} {p : ProcId} {pos nbytes : ℕ}
    (isSlot : nodes key = (flat.core.inodes i).toInodeData)
    (isRoot : (flat.core.inodes i).dev = rootDev) (locked : (flat.core.inodes i).lock = true)
    (notChr : fileType (flat.core.inodes i).mode ≠ sIfchr)
    (notBlk : fileType (flat.core.inodes i).mode ≠ sIfblk)
    (contents : Contents flat.root nodes key content)
    (isSize : (flat.core.inodes i).size = content.length) (inside : pos ≤ content.length)
    (small : pos + nbytes < 2 ^ 31)
    (holds : post ((min nbytes (content.length - pos) : ℕ), (content.drop pos).take nbytes) flat) :
    wp (Flat.rules ok allowed sleeps) (readi p i pos nbytes) post flat := by
  have lengthBound := contents.bound
  have notBeyond : ¬ (flat.core.inodes i).size < (pos : ℤ) := by omega
  have isEnd : toLong ((pos : ℤ) + (nbytes : ℤ)) = ((pos + nbytes : ℕ) : ℤ) := by
    rw [← Int.natCast_add, toLong_natCast small]
  have isCount : (if (flat.core.inodes i).size < toLong ((pos : ℤ) + (nbytes : ℤ)) then
      toUint ((flat.core.inodes i).size - pos) else nbytes) =
        min nbytes (content.length - pos) := by
    rw [isEnd, isSize]
    unfold toUint maxBlocks blockSize ndirect nindirect at *
    split <;> omega
  have isLong : toLong ((min nbytes (content.length - pos) : ℕ) : ℤ) =
      ((min nbytes (content.length - pos) : ℕ) : ℤ) := by
    apply toLong_natCast
    omega
  have isBlock : toUint ((pos : ℤ).tdiv blockSize) = pos / blockSize := by
    rw [Int.tdiv_eq_ediv_of_nonneg (by omega), ← Int.natCast_ediv, toUint_natCast]
    unfold blockSize
    omega
  have isOffset : (pos : ℤ).tmod blockSize = ((pos % blockSize : ℕ) : ℤ) := by
    rw [Int.tmod_eq_emod_of_nonneg (by omega), ← Int.natCast_emod]
  simp only [readi, wp_bind, Flat.wp_getInode, locked, notChr, notBlk, notBeyond, Bool.not_true,
    Bool.false_eq_true, if_false, isCount, isLong, Int.toNat_natCast, isBlock, isOffset, wp_pure]
  have insideEnd : pos + min nbytes (content.length - pos) ≤ content.length := by omega
  apply wp_readiLoop isSlot isRoot locked contents insideEnd
  · exact Nat.le_refl _
  · exact fun _ => ⟨rfl, rfl⟩
  · have isTake : (content.drop pos).take (min nbytes (content.length - pos)) =
        (content.drop pos).take nbytes := by
      rw [← List.length_drop, List.take_eq_take_iff]
      omega
    rw [isTake]
    exact holds

/-- The inodes in the slots stay the same but for the changed one. -/
theorem Written.slot (written : Written i key nodes flat flat') :
    (flat'.core.inodes i).dev = (flat.core.inodes i).dev ∧
      (flat'.core.inodes i).lock = (flat.core.inodes i).lock ∧
      (flat'.core.inodes i).mode = (flat.core.inodes i).mode := by
  obtain ⟨size, direct, indirect, dirty, isCore⟩ := written.core
  rw [isCore]
  simp [Core.setInode]

theorem ZeroIndirect.written (zero : ZeroIndirect ok flat)
    (written : Written i key nodes flat flat') :
    ZeroIndirect ok flat' := by
  rcases zero with free | fresh
  · left
    rw [written.sameSuper]
    exact written.free free
  · exact Or.inr fresh

theorem wp_writeiLoop {post : Unit → Flat → Prop} {rounds bindex pos offset : ℕ}
    {src : List Byte} (zones : Zones flat.core.super flat.root nodes)
    (layout : flat.core.super.Layout) (isSlot : nodes key = (flat.core.inodes i).toInodeData)
    (isRoot : (flat.core.inodes i).dev = rootDev) (locked : (flat.core.inodes i).lock = true)
    (contents : Contents flat.root nodes key content) (inside : pos ≤ content.length)
    (bound : pos + src.length ≤ maxBlocks * blockSize) (enough : src.length ≤ rounds)
    (atPos : src ≠ [] → bindex = pos / blockSize ∧ offset = pos % blockSize)
    (noZone : ∀ flat, ¬ ok .noZone flat) (zero : ZeroIndirect ok flat)
    (holds : ∀ flat', Written i key nodes flat flat' →
      (flat'.core.inodes i).size = (flat.core.inodes i).size →
      Contents flat'.root (withSlot nodes key flat' i) key (splice content pos src) →
        post () flat') :
    wp (Flat.rules ok allowed sleeps) (writeiLoop i rounds bindex offset src) post flat := by
  induction rounds generalizing bindex pos offset src content nodes flat with
  | zero =>
      have isNil : src = [] := List.length_eq_zero_iff.mp (by omega)
      subst isNil
      rw [splice_nil] at holds
      simp only [writeiLoop, wp_pure]
      apply holds flat (Grown.refl zones isSlot).toWritten rfl
      rwa [withSlot, ← isSlot, Function.update_eq_self]
  | succ rounds ih =>
      unfold writeiLoop
      by_cases isNil : src = []
      · subst isNil
        rw [splice_nil] at holds
        simp only [if_true, wp_pure]
        apply holds flat (Grown.refl zones isSlot).toWritten rfl
        rwa [withSlot, ← isSlot, Function.update_eq_self]
      · obtain ⟨isBlock, isOffset⟩ := atPos isNil
        have notEmpty : 0 < src.length := List.length_pos_iff.mpr isNil
        have inFile : pos / blockSize < maxBlocks := by
          apply Nat.div_lt_of_lt_mul
          rw [Nat.mul_comm]
          omega
        simp only [isNil, if_false, wp_bind]
        rw [isBlock]
        apply wp_bmap_write zones layout isSlot isRoot locked inFile noZone zero
        intro grownFlat zone grown held
        have sameSlot := grown.toWritten.slot
        simp only [Flat.wp_getInode, Flat.wp_mark, Flat.wp_bread, Flat.wp_bstore, Flat.wp_bwrite,
          Flat.wp_brelse, sameSlot.1, isRoot]
        intro _
        have inBlock : pos % blockSize < blockSize := Nat.mod_lt _ (by decide)
        have isNext : toUint ((pos / blockSize : ℕ) + 1) = pos / blockSize + 1 := by
          unfold toUint maxBlocks ndirect nindirect at *
          omega
        rw [isNext, isOffset]
        have isLength : (src.take (min (blockSize - pos % blockSize) src.length)).length =
            min (blockSize - pos % blockSize) src.length := by
          rw [List.length_take]
          omega
        have zonesGrown := grown.zones
        have layoutGrown := layout
        rw [← grown.sameSuper] at zonesGrown layoutGrown
        have contentsGrown := grown.contents contents
        generalize isSeg : src.take (min (blockSize - pos % blockSize) src.length) = seg at *
        have written : Written i key (withSlot nodes key grownFlat i) grownFlat
            (grownFlat.setBlock (rootDev, zone)
              ((grownFlat.disk rootDev zone).copy (pos % blockSize) seg)) :=
          written_block zonesGrown layoutGrown (withSlot_self ..) held (blockPlace_ne_indirect _)
        have contentsWritten : Contents (grownFlat.setBlock (rootDev, zone)
            ((grownFlat.disk rootDev zone).copy (pos % blockSize) seg)).root
              (withSlot nodes key grownFlat i) key (splice content pos seg) :=
          contentsGrown.setBlock zonesGrown inside (by omega) inFile held rfl
        have sameNodes : withSlot nodes key (grownFlat.setBlock (rootDev, zone)
            ((grownFlat.disk rootDev zone).copy (pos % blockSize) seg)) i =
              withSlot nodes key grownFlat i := rfl
        have both := grown.toWritten.trans written
        generalize isNextFlat : grownFlat.setBlock (rootDev, zone)
          ((grownFlat.disk rootDev zone).copy (pos % blockSize) seg) = nextFlat at *
        have isCore : nextFlat.core = grownFlat.core := by rw [← isNextFlat, Flat.setBlock_core]
        have zonesNext := both.zones
        have layoutNext := layout
        rw [← both.sameSuper] at zonesNext layoutNext
        have slotNext := both.slot
        have insideNext : pos + min (blockSize - pos % blockSize) src.length ≤
            (splice content pos seg).length := by
          rw [splice_length inside, isLength]
          omega
        apply ih zonesNext layoutNext (withSlot_self ..) (slotNext.1.trans isRoot)
          (slotNext.2.1.trans locked) (sameNodes ▸ contentsWritten) insideNext
        · rw [List.length_drop]
          omega
        · rw [List.length_drop]
          unfold blockSize at *
          omega
        · intro more
          have notAll : min (blockSize - pos % blockSize) src.length < src.length := by
            by_contra all
            exact more (List.drop_eq_nil_of_le (by omega))
          unfold blockSize at *
          omega
        · exact zero.written both
        · intro flat' writtenRest isSize contentsRest
          apply holds flat' (both.trans writtenRest)
          · rw [isSize, isCore, grown.size]
          · rw [← isSeg, splice_splice inside (by omega)] at contentsRest
            simpa [withSlot] using contentsRest

/-- The size of the file in slot `i` is set as well. -/
theorem Written.setSize (written : Written i key nodes flat flat') (size : ℤ)
    (isFlat'' : flat'' = (flat'.setData i fun old => { old with size := size }).setInode i
      fun old => { old with dirty := true }) :
    Written i key nodes flat flat'' ∧
      ∀ other content, Contents flat'.root (withSlot nodes key flat' i) other content →
        Contents flat''.root (withSlot nodes key flat'' i) other content := by
  have isRoot : flat''.root = flat'.root := by
    subst isFlat''
    rfl
  have isNode : (flat''.core.inodes i).toInodeData =
      { (flat'.core.inodes i).toInodeData with size := size } := by
    subst isFlat''
    simp [Flat.setData]
  have sameHolders : holdsZone flat''.root (withSlot nodes key flat'' i) =
      holdsZone flat'.root (withSlot nodes key flat' i) := by
    rw [isRoot]
    funext holder
    obtain ⟨other, place⟩ := holder
    rcases eq_or_ne other key with rfl | different
    · cases place <;> simp [holdsZone, withSlot, isNode, InodeData.zoneAt]
    · simp [holdsZone, withSlot, different]
  refine ⟨⟨?_, ?_, ?_, ?_, ?_, ?_, ?_⟩, ?_⟩
  · obtain ⟨oldSize, direct, indirect, dirty, isCore⟩ := written.core
    refine ⟨size, direct, indirect, true, ?_⟩
    subst isFlat''
    simp only [Flat.setInode, Flat.setData, isCore, Core.setInode_setInode]
    exact Core.setInode_congr rfl
  · subst isFlat''
    exact written.devices
  · rw [isRoot]
    exact written.tables
  · have zones := written.zones
    rw [isRoot]
    rw [isRoot] at sameHolders
    exact ⟨sameHolders ▸ zones.exclusive, sameHolders ▸ zones.marked, sameHolders ▸ zones.isZone,
      zones.formatted⟩
  · rw [sameHolders]
    exact written.kept
  · rw [isRoot]
    exact written.others
  · rw [isRoot]
    exact written.free
  · intro other content contents
    refine ⟨contents.bound, ?_⟩
    rw [sameHolders, isRoot]
    exact contents.stored

/-- `writei` changes the contents of the file. -/
theorem wp_writei {post : ℤ → Flat → Prop} {pos : ℕ} {src : List Byte}
    (zones : Zones flat.core.super flat.root nodes)
    (layout : flat.core.super.Layout) (isSlot : nodes key = (flat.core.inodes i).toInodeData)
    (isRoot : (flat.core.inodes i).dev = rootDev) (locked : (flat.core.inodes i).lock = true)
    (notChr : fileType (flat.core.inodes i).mode ≠ sIfchr)
    (notBlk : fileType (flat.core.inodes i).mode ≠ sIfblk)
    (notFifo : fileType (flat.core.inodes i).mode ≠ sIfifo)
    (contents : Contents flat.root nodes key content)
    (isSize : (flat.core.inodes i).size = content.length) (inside : pos ≤ content.length)
    (bound : pos + src.length ≤ maxBlocks * blockSize)
    (noZone : ∀ flat, ¬ ok .noZone flat) (zero : ZeroIndirect ok flat)
    (holds : ∀ flat', Written i key nodes flat flat' →
      (flat'.core.inodes i).size = (splice content pos src).length →
      Contents flat'.root (withSlot nodes key flat' i) key (splice content pos src) →
        post src.length flat') :
    wp (Flat.rules ok allowed sleeps) (writei i src pos) post flat := by
  have small : pos + src.length < 2 ^ 31 := by
    unfold maxBlocks blockSize ndirect nindirect at bound
    omega
  have isEnd : toLong ((pos : ℤ) + (src.length : ℤ)) = ((pos + src.length : ℕ) : ℤ) := by
    rw [← Int.natCast_add, toLong_natCast small]
  have isLength : toLong (src.length : ℤ) = src.length := toLong_natCast (by omega)
  simp only [writei, wp_bind, Flat.wp_getInode, locked, notChr, notBlk, notFifo, Bool.not_true,
    Bool.false_eq_true, if_false, isEnd, isLength, wp_pure]
  apply wp_writeiLoop zones layout isSlot isRoot locked contents inside bound (Nat.le_refl _)
    (fun _ => ⟨rfl, rfl⟩) noZone zero
  intro flat' written sameSize contents'
  simp only [wp_when, wp_bind, Flat.wp_setData, Flat.wp_setDirty]
  split
  case isTrue grows =>
    obtain ⟨writtenSize, keeps⟩ := written.setSize ((pos + src.length : ℕ) : ℤ) rfl
    apply holds _ writtenSize
    · rw [splice_length inside]
      simp [Flat.setData]
      omega
    · exact keeps key _ contents'
  case isFalse stays =>
    apply holds flat' written
    · rw [splice_length inside]
      omega
    · exact contents'

end

end Osix
