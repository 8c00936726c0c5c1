import Osix.Fs.Lengths
import Osix.Fs.Trunc
import Osix.Fs.Writes

/-!
# Holes in files

A write beyond the end of a file leaves a hole. `readi` delivers the bytes of block 0 for a
block without a zone, takes a zone if the block lies behind the direct ones, and delivers what
the zone of a partly written block held before. So a hole reads as zeros, and reading changes
nothing, when block 0, the free zones and the rest of the last block are zero and no block
behind the direct ones is left out.
-/

namespace Osix

open Program Transition Fs

/-- The byte that a read delivers when it changes nothing. -/
def Flat.byteAt (flat : Flat) (i : InodeId) (pos : ℕ) : Byte :=
  flat.root ((flat.names i (blockPlace (pos / blockSize))).getD 0) (pos % blockSize)

/-- The inode in a slot is locked. -/
def Flat.lockInode (flat : Flat) (i : InodeId) : Flat :=
  flat.setInode i fun old => { old with lock := true }

/-- `itrunc` under the inode's lock, as in `sys_open`. -/
def lockedTrunc (i : InodeId) : FsM FlatBuf Unit := do
  ilock i
  itrunc i
  iunlock i

/-- The machine, and for each file the positions written since it was last truncated. -/
structure Sparse where
  flat : Flat
  written : InodeId → Set ℕ

inductive SparseStep where
  | write (i : InodeId) (src : List Byte) (offset : ℕ)
  | trunc (i : InodeId)

namespace Sparse

def step (sparse : Sparse) : SparseStep → Option Sparse
  | .write i src offset =>
      match exec Flat.handler (lockedWrite i src offset) sparse.flat with
      | .returned _ flat => some ⟨flat, Function.update sparse.written i
          (sparse.written i ∪ { pos | offset ≤ pos ∧ pos < offset + src.length })⟩
      | .asleep _ => none
      | .stopped _ _ => none
  | .trunc i =>
      match exec Flat.handler (lockedTrunc i) sparse.flat with
      | .returned _ flat => some ⟨flat, Function.update sparse.written i ∅⟩
      | .asleep _ => none
      | .stopped _ _ => none

/--
`readi` delivers what there is to read, zeros where nothing was written, and leaves the inode,
the zone map and all blocks as they are.
-/
def ReadsPurely (sparse : Sparse) (p : ProcId) (i : InodeId) (offset nbytes : ℕ) : Prop :=
  ∃ count bytes, exec Flat.handler (readi p i offset nbytes) (sparse.flat.lockInode i) =
      .returned (count, bytes) (sparse.flat.lockInode i) ∧
    bytes.length =
      Lengths.readCount (sparse.flat.core.inodes i).size.toNat offset nbytes ∧
    ∀ index byte, bytes[index]? = some byte → offset + index ∉ sparse.written i → byte = 0

/-- A write at or before the end of a file without holes. -/
def Dense (flat : Flat) (i : InodeId) (offset : ℕ) : Prop :=
  (offset : ℤ) ≤ (flat.core.inodes i).size ∧
    ∀ index, ((index * blockSize : ℕ) : ℤ) < (flat.core.inodes i).size →
      flat.names i (blockPlace index) ≠ none

/-- What a hole is made of is zero, and no block behind the direct ones is left out. -/
structure Clean (flat : Flat) (i : InodeId) (offset len : ℕ) : Prop where
  free : FreeZero flat.core.super flat.root
  boot : ∀ byte < blockSize, flat.root 0 byte = 0
  tail : ∀ zone byte, flat.names i (blockPlace ((flat.core.inodes i).size.toNat / blockSize)) =
    some zone → (flat.core.inodes i).size.toNat % blockSize ≤ byte → byte < blockSize →
      flat.root zone byte = 0
  noHole : ∀ index, ndirect ≤ index → (flat.core.inodes i).size ≤ (index * blockSize : ℕ) →
    index * blockSize < offset + len → index ∈ blocksOf offset len
  bound : offset ≤ maxBlocks * blockSize

/-- The steps that are looked at. -/
def Good (files : InodeId → Prop) (sparse : Sparse) : SparseStep → Prop
  | .write i src offset => files i ∧ Room sparse.flat i (blocksOf offset src.length) ∧
      (Dense sparse.flat i offset ∨ Clean sparse.flat i offset src.length)
  | .trunc i => files i

/-- The inode is in the inode table, which lies before the zones. -/
def InTable (flat : Flat) (i : InodeId) : Prop :=
  inodeBlock flat.core.super (flat.core.inodes i).inodeno < flat.core.super.firstdatazone

/-- A formatted file system with some empty regular files. -/
structure Empty (files : InodeId → Prop) (flat : Flat) : Prop where
  layout : flat.core.super.Layout
  formatted : flat.core.super.Formatted flat.root
  regular : ∀ i, files i → Arrays.Regular (flat.core.inodes i)
  inTable : ∀ i, files i → InTable flat i
  empty : ∀ i, files i → (flat.core.inodes i).size = 0 ∧
    (flat.core.inodes i).direct = (fun _ => 0) ∧ (flat.core.inodes i).indirect = 0

/-- What holds of a file as long as all writes are good. -/
structure File (flat : Flat) (written : Set ℕ) (i : InodeId) : Prop where
  regular : Arrays.Regular (flat.core.inodes i)
  inTable : InTable flat i
  positive : 0 ≤ (flat.core.inodes i).size
  bound : (flat.core.inodes i).size ≤ (maxBlocks * blockSize : ℕ)
  mapped : ∀ index, ndirect ≤ index → ((index * blockSize : ℕ) : ℤ) < (flat.core.inodes i).size →
    flat.names i (blockPlace index) ≠ none
  trimmed : ∀ index < maxBlocks, (flat.core.inodes i).size ≤ (index * blockSize : ℕ) →
    flat.names i (blockPlace index) = none
  zero : ∀ pos : ℕ, (pos : ℤ) < (flat.core.inodes i).size → pos ∉ written → flat.byteAt i pos = 0

structure Inv (files : InodeId → Prop) (sparse : Sparse) : Prop where
  layout : sparse.flat.core.super.Layout
  zones : Zones sparse.flat.core.super sparse.flat.root (Arrays.nodes files sparse.flat)
  file : ∀ i, files i → File sparse.flat (sparse.written i) i

variable {files : InodeId → Prop} {flat flat' : Flat} {sparse : Sparse} {i : InodeId}

theorem inv_empty (empty : Empty files flat) : Inv files ⟨flat, fun _ => ∅⟩ where
  layout := empty.layout
  zones := Arrays.zones_empty empty.formatted empty.empty
  file i isFile := by
    obtain ⟨isSize, noDirect, noIndirect⟩ := empty.empty i isFile
    have unnamed : ∀ place, flat.names i place = none := by
      intro place
      rw [Flat.names_eq_none]
      cases place <;> simp [InodeData.zoneAt, noDirect, noIndirect]
    refine ⟨empty.regular i isFile, empty.inTable i isFile, ?_, ?_, ?_, ?_, ?_⟩
    · rw [isSize]
    · rw [isSize]
      exact Int.natCast_nonneg _
    · intro index _ less
      rw [isSize] at less
      omega
    · exact fun index _ _ => unnamed _
    · intro pos less
      rw [isSize] at less
      omega

/-! ## Reading -/

section

variable {allowed : Stop → Flat → Prop} {sleeps : Flat → Prop}

instance : Flat.Silent (Flat.checks (fun _ _ => True) allowed sleeps) where
  mark _ := by
    rw [Flat.wp_mark_checks]
    exact and_iff_right trivial

/-- `bmap` for a read of a block that has a zone or needs none. -/
theorem wp_bmap_pure {post : ℕ → Flat → Prop} {index : ℕ}
    (isRoot : (flat.core.inodes i).dev = rootDev) (locked : (flat.core.inodes i).lock = true)
    (inFile : index < maxBlocks)
    (readable : ndirect ≤ index → flat.names i (blockPlace index) ≠ none)
    (holds : post ((flat.names i (blockPlace index)).getD 0) flat) :
    wp (Flat.checks (fun _ _ => True) allowed sleeps) (bmap i index false) post flat := by
  cases named : flat.names i (blockPlace index) with
  | some zone =>
      rw [named] at holds
      exact Flat.wp_bmap_named isRoot locked inFile named holds
  | none =>
      have isDirect : index < ndirect := by
        by_contra notDirect
        exact readable (Nat.le_of_not_lt notDirect) named
      rw [named] at holds
      rw [Flat.directPlace isDirect, Flat.names_eq_none] at named
      have isZero : (flat.core.inodes i).direct ⟨index, isDirect⟩ = 0 := named
      simp only [bmap, wp_bind, Flat.wp_getInode, locked, Bool.not_true, Bool.false_eq_true,
        if_false, isDirect, dif_pos, false_and, wp_when, isZero, Flat.wp_mark_checks, true_and,
        wp_pure]
      exact holds

/-- The bytes of a file in one of its blocks. -/
theorem bytes_byteAt {pos count : ℕ} (inBlock : pos % blockSize + count ≤ blockSize) :
    (flat.root ((flat.names i (blockPlace (pos / blockSize))).getD 0)).bytes (pos % blockSize)
      count = (List.range count).map fun index => flat.byteAt i (pos + index) := by
  rw [Block.bytes, List.map_inj_left]
  intro index isIn
  have less := List.mem_range.mp isIn
  have sameBlock : (pos + index) / blockSize = pos / blockSize := by
    unfold blockSize at *
    omega
  have isOffset : (pos + index) % blockSize = pos % blockSize + index := by
    unfold blockSize at *
    omega
  rw [Flat.byteAt, sameBlock, isOffset]

theorem wp_readiLoop_pure {post : List Byte → Flat → Prop} {rounds bindex pos offset count : ℕ}
    (isRoot : (flat.core.inodes i).dev = rootDev) (locked : (flat.core.inodes i).lock = true)
    (inFile : pos + count ≤ maxBlocks * blockSize)
    (readable : ∀ index, ndirect ≤ index → index * blockSize < pos + count →
      flat.names i (blockPlace index) ≠ none) (enough : count ≤ rounds)
    (atPos : count ≠ 0 → bindex = pos / blockSize ∧ offset = pos % blockSize)
    (holds : post ((List.range count).map fun index => flat.byteAt i (pos + index)) flat) :
    wp (Flat.checks (fun _ _ => True) allowed sleeps)
      (readiLoop i rounds bindex (offset : ℕ) count) post flat := by
  induction rounds generalizing bindex pos offset count post with
  | zero =>
      have isZero : count = 0 := by omega
      subst isZero
      exact holds
  | succ rounds ih =>
      unfold readiLoop
      by_cases isZero : count = 0
      · subst isZero
        exact holds
      obtain ⟨isBlock, isOffset⟩ := atPos isZero
      have inBlock : pos % blockSize < blockSize := Nat.mod_lt _ (by decide)
      have isMapped : pos / blockSize < maxBlocks := by
        apply Nat.div_lt_of_lt_mul
        rw [Nat.mul_comm]
        omega
      have isNext : toUint ((pos / blockSize : ℕ) + 1) = pos / blockSize + 1 := by
        rw [← Int.natCast_succ, toUint_natCast]
        unfold maxBlocks ndirect nindirect at isMapped
        omega
      generalize isSeg : min (blockSize - pos % blockSize) count = seg at *
      have notNegative : ¬((offset : ℕ) : ℤ) < 0 := by omega
      simp only [isZero, if_false, wp_bind]
      rw [isBlock]
      apply wp_bmap_pure isRoot locked isMapped
      · intro notDirect
        apply readable _ notDirect
        have isPos := Nat.div_mul_le_self pos blockSize
        omega
      simp only [Flat.wp_getInode, isRoot, Flat.wp_bread, notNegative, if_false, wp_bind,
        Flat.wp_bdata, Flat.wp_brelse, Int.toNat_natCast, wp_pure]
      rw [isOffset, isNext, isSeg]
      have isBytes : (flat.disk rootDev
          ((flat.names i (blockPlace (pos / blockSize))).getD 0)).bytes (pos % blockSize) seg =
            (List.range seg).map fun index => flat.byteAt i (pos + index) :=
        bytes_byteAt (by omega)
      rw [isBytes]
      apply @ih _ _ (pos + seg) 0
      · omega
      · intro index notDirect less
        exact readable index notDirect (by omega)
      · omega
      · intro more
        unfold blockSize at *
        omega
      · have isSum : count = seg + (count - seg) := by omega
        rw [isSum, List.range_add, List.map_append, List.map_map] at holds
        convert holds using 4
        rw [Function.comp_apply, Nat.add_assoc]

@[simp]
theorem lockInode_slot : (flat.lockInode i).core.inodes i =
    { flat.core.inodes i with lock := true } := by
  simp [Flat.lockInode]

theorem lockInode_names : (flat.lockInode i).names i = flat.names i := by
  apply Flat.names_congr
  · simp
  · simp
  · rfl

theorem lockInode_byteAt (pos : ℕ) : (flat.lockInode i).byteAt i pos = flat.byteAt i pos := by
  rw [Flat.byteAt, lockInode_names]
  rfl

/-- A file without bad holes is read purely. -/
theorem File.readsPurely {p : ProcId} {offset nbytes : ℕ}
    (file : File sparse.flat (sparse.written i) i) (small : offset + nbytes < 2 ^ 31) :
    ReadsPurely sparse p i offset nbytes := by
  obtain ⟨size, isSize⟩ := Int.eq_ofNat_of_zero_le file.positive
  have bound := file.bound
  rw [isSize] at bound
  have isLong : size < 2 ^ 31 := by
    unfold maxBlocks ndirect nindirect blockSize at bound
    omega
  have isReg : fileType (sparse.flat.core.inodes i).mode = sIfreg := file.regular.mode
  have judged : wp (Flat.checks (fun _ _ => True) (fun _ _ => False) fun _ => False)
      (readi p i offset nbytes)
      (fun result flat' => flat' = sparse.flat.lockInode i ∧
        result.2.length = Lengths.readCount size offset nbytes ∧
        ∀ index byte, result.2[index]? = some byte → offset + index ∉ sparse.written i → byte = 0)
      (sparse.flat.lockInode i) := by
    by_cases inside : offset ≤ size
    case neg =>
      have notChr : fileType (sparse.flat.core.inodes i).mode ≠ sIfchr := by
        rw [isReg]
        decide
      have notBlk : fileType (sparse.flat.core.inodes i).mode ≠ sIfblk := by
        rw [isReg]
        decide
      have beyond : (size : ℤ) < (offset : ℤ) := by omega
      have isZero : Lengths.readCount size offset nbytes = 0 := by
        unfold Lengths.readCount
        omega
      simp only [readi, wp_bind, Flat.wp_getInode, lockInode_slot, notChr, notBlk, isSize, beyond,
        Bool.not_true, Bool.false_eq_true, if_false, if_true, wp_pure, isZero]
      exact ⟨trivial, rfl, by simp⟩
    have readable : Lengths.Readable (sparse.flat.lockInode i) i size := by
      refine ⟨by simp, Or.inl (by simpa using isReg), by simpa using isSize, isLong⟩
    have isClamped : Lengths.clamped size offset nbytes =
        Lengths.readCount size offset nbytes := by
      unfold Lengths.clamped Lengths.readCount
      rw [← Int.natCast_add, toLong_natCast small]
      split <;> omega
    have isCount : toLong (Lengths.readCount size offset nbytes) =
        Lengths.readCount size offset nbytes := by
      apply toLong_natCast
      unfold Lengths.readCount
      omega
    have atMost : offset + Lengths.readCount size offset nbytes ≤ size := by
      unfold Lengths.readCount
      omega
    rw [Lengths.wp_readi_eq readable inside, isClamped, isCount, Int.toNat_natCast]
    generalize Lengths.readCount size offset nbytes = count at *
    have inFile : offset + count ≤ maxBlocks * blockSize := by omega
    have isMapped : ∀ index, ndirect ≤ index → index * blockSize < offset + count →
        (sparse.flat.lockInode i).names i (blockPlace index) ≠ none := by
      intro index notDirect less
      rw [lockInode_names]
      apply file.mapped index notDirect
      rw [isSize]
      omega
    apply wp_readiLoop_pure (by simpa using file.regular.dev) (by simp) inFile isMapped le_rfl
      fun _ => ⟨rfl, rfl⟩
    refine ⟨rfl, by simp, ?_⟩
    intro index byte isByte notWritten
    dsimp only at isByte
    rw [List.getElem?_map, Option.map_eq_some_iff] at isByte
    obtain ⟨other, isOther, rfl⟩ := isByte
    obtain ⟨less, isIndex⟩ := List.getElem?_eq_some_iff.mp isOther
    rw [List.length_range] at less
    rw [List.getElem_range] at isIndex
    subst isIndex
    rw [lockInode_byteAt]
    apply file.zero (offset + index) _ notWritten
    rw [isSize]
    omega
  have ends := (exec_checked judged).2
  cases result : exec Flat.handler (readi p i offset nbytes) (sparse.flat.lockInode i) with
  | returned value flat' =>
      rw [result] at ends
      obtain ⟨rfl, isLength, isZero⟩ := ends
      refine ⟨value.1, value.2, result, ?_, isZero⟩
      rw [isLength, isSize]
      rfl
  | asleep flat' =>
      rw [result] at ends
      exact ends.elim
  | stopped why flat' =>
      rw [result] at ends
      exact ends.elim

end

/-! ## Other files -/

/-- What an inode names stays the same when its zones do. -/
theorem names_frame (sameSlot : flat'.core.inodes i = flat.core.inodes i)
    (data : ∀ place zone, flat.names i place = some zone → ∀ byte < blockSize,
      flat'.root zone byte = flat.root zone byte) : flat'.names i = flat.names i := by
  funext place
  have sameZone : (flat.core.inodes i).zoneAt flat'.root place =
      (flat.core.inodes i).zoneAt flat.root place := by
    cases place with
    | direct index => rfl
    | indirect => rfl
    | entry index =>
        by_cases isZero : (flat.core.inodes i).indirect = 0
        · simp [InodeData.zoneAt, isZero]
        · have same : ∀ byte < blockSize, flat'.root (flat.core.inodes i).indirect byte =
              flat.root (flat.core.inodes i).indirect byte :=
            data .indirect _ (Flat.names_eq_some.mpr ⟨rfl, isZero⟩)
          have less : 2 * (index : ℕ) + 1 < blockSize := by
            have isLess : (index : ℕ) < 512 := index.isLt
            unfold blockSize
            omega
          simp only [InodeData.zoneAt, isZero, if_false, Block.get16]
          rw [same _ (by omega), same _ less]
  rw [Flat.names, sameSlot, sameZone]
  rfl

/-- A file whose inode and zones are not touched. -/
theorem File.frame {written : Set ℕ} (file : File flat written i)
    (sameSuper : flat'.core.super = flat.core.super)
    (sameSlot : flat'.core.inodes i = flat.core.inodes i)
    (data : ∀ place zone, flat.names i place = some zone → ∀ byte < blockSize,
      flat'.root zone byte = flat.root zone byte)
    (boot : ∀ byte < blockSize, flat'.root 0 byte = flat.root 0 byte) : File flat' written i := by
  have sameNames := names_frame sameSlot data
  have sameByte : ∀ pos, flat'.byteAt i pos = flat.byteAt i pos := by
    intro pos
    have inBlock : pos % blockSize < blockSize := Nat.mod_lt _ (by decide)
    rw [Flat.byteAt, Flat.byteAt, sameNames]
    cases named : flat.names i (blockPlace (pos / blockSize)) with
    | none => exact boot _ inBlock
    | some zone => exact data _ zone named _ inBlock
  have inTable := file.inTable
  refine ⟨by rw [sameSlot]; exact file.regular, ?_, ?_, ?_, ?_, ?_, ?_⟩
  · unfold InTable at inTable ⊢
    rwa [sameSuper, sameSlot]
  · rw [sameSlot]
    exact file.positive
  · rw [sameSlot]
    exact file.bound
  · rw [sameSlot, sameNames]
    exact file.mapped
  · rw [sameSlot, sameNames]
    exact file.trimmed
  · intro pos
    rw [sameSlot, sameByte]
    exact file.zero pos

/-! ## Writing -/

/-- A block of the range that was written has a zone. -/
theorem named_of_stored {offset index : ℕ} {src : List Byte}
    (stored : Stored i offset src flat flat') (isIn : index ∈ blocksOf offset src.length) :
    flat'.names i (blockPlace index) ≠ none := by
  rw [mem_blocksOf] at isIn
  have inRange : index * blockSize - offset < src.length := by
    unfold blockSize at *
    omega
  obtain ⟨zone, named, -⟩ := stored.bytes (index * blockSize - offset) _
    (List.getElem?_eq_getElem inRange)
  have isIndex : (offset + (index * blockSize - offset)) / blockSize = index := by
    unfold blockSize at *
    omega
  rw [isIndex] at named
  rw [named]
  simp

/-- A good write keeps the holes zero. -/
theorem File.stored {written : Set ℕ} {offset : ℕ} {src : List Byte} (file : File flat written i)
    (took : Took i flat flat') (stored : Stored i offset src flat flat')
    (once : ∀ place other zone, flat'.names i place = some zone →
      flat'.names i other = some zone → place = other)
    (isZone : ∀ place zone, flat'.names i place = some zone →
      flat.core.super.firstdatazone ≤ zone)
    (boot : ∀ byte < blockSize, flat'.root 0 byte = flat.root 0 byte)
    (room : Room flat i (blocksOf offset src.length))
    (good : Dense flat i offset ∨ Clean flat i offset src.length)
    (isSize : (flat'.core.inodes i).size =
      max (flat.core.inodes i).size ((offset + src.length : ℕ) : ℤ))
    (regular : Arrays.Regular (flat'.core.inodes i)) (inTable : InTable flat' i) :
    File flat' (written ∪ { pos | offset ≤ pos ∧ pos < offset + src.length }) i := by
  have positive := file.positive
  have bound := file.bound
  have rangeBound : offset + src.length ≤ maxBlocks * blockSize := by
    by_cases isEmpty : src.length = 0
    · rcases good with dense | clean
      · have inside := dense.1
        omega
      · have isBound := clean.bound
        omega
    · exact room.range isEmpty
  -- The rest of a zone that was there before, or that was free, has not changed.
  have rest : ∀ pos zone, pos < maxBlocks * blockSize →
      ¬(offset ≤ pos ∧ pos < offset + src.length) →
      flat'.names i (blockPlace (pos / blockSize)) = some zone →
        flat'.byteAt i pos = flat.root zone (pos % blockSize) := by
    intro pos zone inFile outside named
    have isBlock : pos / blockSize < maxBlocks := by
      apply Nat.div_lt_of_lt_mul
      rwa [Nat.mul_comm]
    rw [Flat.byteAt, named, Option.getD_some]
    apply stored.rest zone _ (isZone _ _ named) _ _ (Nat.mod_lt _ (by decide))
    · intro isIndirect
      exact blockPlace_ne_indirect _ (once _ _ _ named isIndirect)
    · intro index inFileIndex namedIndex
      have sameIndex := blockPlace_injective inFileIndex isBlock (once _ _ _ namedIndex named)
      rw [sameIndex, Nat.div_add_mod']
      exact outside
  refine ⟨regular, inTable, ?_, ?_, ?_, ?_, ?_⟩
  · omega
  · omega
  · intro index notDirect less
    by_cases wasInside : ((index * blockSize : ℕ) : ℤ) < (flat.core.inodes i).size
    · obtain ⟨zone, named⟩ := Option.ne_none_iff_exists'.mp (file.mapped index notDirect wasInside)
      rw [took.kept _ _ named]
      simp
    · apply named_of_stored stored
      have isNew : index * blockSize < offset + src.length := by omega
      rcases good with dense | clean
      · have inside := dense.1
        rw [mem_blocksOf]
        unfold blockSize at *
        omega
      · exact clean.noHole index notDirect (by omega) isNew
  · intro index inFile behind
    rw [stored.others index inFile]
    · exact file.trimmed index inFile (by omega)
    · rw [mem_blocksOf]
      omega
  · intro pos less notWritten
    have outside : ¬(offset ≤ pos ∧ pos < offset + src.length) :=
      fun inRange => notWritten (Or.inr inRange)
    have wasNotWritten : pos ∉ written := fun wasWritten => notWritten (Or.inl wasWritten)
    have inFile : pos < maxBlocks * blockSize := by omega
    have isPos := Nat.div_add_mod' pos blockSize
    have inBlock : pos % blockSize < blockSize := Nat.mod_lt _ (by decide)
    cases named : flat.names i (blockPlace (pos / blockSize)) with
    | some zone =>
        rw [rest pos zone inFile outside (took.kept _ _ named)]
        by_cases wasInside : (pos : ℤ) < (flat.core.inodes i).size
        · have isZero := file.zero pos wasInside wasNotWritten
          rwa [Flat.byteAt, named, Option.getD_some] at isZero
        · -- The byte lies behind the old end, in the last block of the file.
          rcases good with dense | clean
          · have inside := dense.1
            omega
          · have isBlock : pos / blockSize < maxBlocks := by
              apply Nat.div_lt_of_lt_mul
              rwa [Nat.mul_comm]
            have isLast : ((pos / blockSize * blockSize : ℕ) : ℤ) <
                (flat.core.inodes i).size := by
              by_contra behind
              rw [file.trimmed _ isBlock (by omega)] at named
              contradiction
            have sameBlock : (flat.core.inodes i).size.toNat / blockSize = pos / blockSize := by
              unfold blockSize at *
              omega
            apply clean.tail zone _ (by rw [sameBlock, named]) _ inBlock
            unfold blockSize at *
            omega
    | none =>
        rcases good with dense | clean
        · have inside := dense.1
          exact absurd named (dense.2 _ (by omega))
        · cases namedNow : flat'.names i (blockPlace (pos / blockSize)) with
          | none =>
              rw [Flat.byteAt, namedNow, Option.getD_none, boot _ inBlock]
              exact clean.boot _ inBlock
          | some zone =>
              rw [rest pos zone inFile outside namedNow]
              rcases took.fresh _ _ namedNow with before | ⟨bit, isFree, rfl⟩
              · rw [named] at before
                contradiction
              · obtain ⟨inMap, isClear⟩ := Super.mem_freeBits.mp isFree
                exact clean.free bit inMap isClear _ inBlock

/-! ## Steps -/

/-- What a step leaves of the files that it is not about. -/
structure Elsewhere (files : InodeId → Prop) (i : InodeId) (flat flat' : Flat) : Prop where
  sameSuper : flat'.core.super = flat.core.super
  zones : Zones flat.core.super flat'.root (Arrays.nodes files flat')
  slots : ∀ j ≠ i, flat'.core.inodes j = flat.core.inodes j
  data : ∀ j ≠ i, files j → ∀ place zone, flat.names j place = some zone →
    ∀ byte < blockSize, flat'.root zone byte = flat.root zone byte
  boot : ∀ byte < blockSize, flat'.root 0 byte = flat.root 0 byte

/-- The file of the step is in order, and so are the others. -/
theorem Elsewhere.inv {written : Set ℕ} (elsewhere : Elsewhere files i sparse.flat flat')
    (inv : Inv files sparse) (file : File flat' written i) :
    Inv files ⟨flat', Function.update sparse.written i written⟩ where
  layout := by
    dsimp only
    rw [elsewhere.sameSuper]
    exact inv.layout
  zones := by
    dsimp only
    rw [elsewhere.sameSuper]
    exact elsewhere.zones
  file j isFile := by
    rcases eq_or_ne j i with rfl | different
    · dsimp only
      rw [Function.update_self]
      exact file
    · dsimp only
      rw [Function.update_of_ne different]
      exact (inv.file j isFile).frame elsewhere.sameSuper (elsewhere.slots j different)
        (elsewhere.data j different isFile) elsewhere.boot

/-- The zones of a file of the family. -/
theorem holdsZone_nodes (isFile : files i) (place : Place) :
    holdsZone flat.root (Arrays.nodes files flat) (⟨i, isFile⟩, place) = flat.names i place :=
  Flat.holdsZone_slot rfl place

/-- The number of the inode in slot `i` is not changed by a write. -/
theorem written_inodeno {Key : Type} [DecidableEq Key] {key : Key} {nodes : Key → InodeData}
    (written : Written i key nodes flat flat') :
    (flat'.core.inodes i).inodeno = (flat.core.inodes i).inodeno := by
  obtain ⟨size, direct, indirect, dirty, isCore⟩ := written.core
  rw [isCore]
  simp [Core.setInode]

theorem regular_unlock {after : Flat} (dev : (flat'.core.inodes i).dev = rootDev)
    (mode : fileType (flat'.core.inodes i).mode = sIfreg)
    (isAfter : after = flat'.setInode i fun old => { old with lock := false, wanted := false }) :
    Arrays.Regular (after.core.inodes i) := by
  subst isAfter
  exact ⟨by simpa using dev, by simp, by simpa using mode⟩

/-- The state after a write, apart from sizes and locks. -/
theorem wrote_after {offset : ℕ} {src : List Byte} {stored after : Flat} (isFile : files i)
    (layout : flat.core.super.Layout)
    (zones : Zones flat.core.super flat.root (Arrays.nodes files flat))
    (wrote : Wrote i ⟨i, isFile⟩ (Arrays.nodes files flat) offset src (flat.lockInode i) stored)
    (sameDisk : after.disk = stored.disk) (sameSuper : after.core.super = stored.core.super)
    (slots : ∀ j ≠ i, after.core.inodes j = stored.core.inodes j)
    (sameDirect : (after.core.inodes i).direct = (stored.core.inodes i).direct)
    (sameIndirect : (after.core.inodes i).indirect = (stored.core.inodes i).indirect) :
    Elsewhere files i flat after ∧ Took i flat after ∧ Stored i offset src flat after ∧
      (∀ place other zone, after.names i place = some zone → after.names i other = some zone →
        place = other) ∧
      ∀ place zone, after.names i place = some zone → flat.core.super.firstdatazone ≤ zone := by
  have sameRoot : after.root = stored.root := by
    unfold Flat.root
    rw [sameDisk]
  have sameNames : after.names i = stored.names i :=
    Flat.names_congr sameDirect sameIndirect sameRoot
  have storedSuper : stored.core.super = flat.core.super := wrote.written.sameSuper
  have otherSlots : ∀ j ≠ i, after.core.inodes j = flat.core.inodes j := by
    intro j different
    obtain ⟨size, direct, indirect, dirty, isCore⟩ := wrote.written.core
    rw [slots j different, isCore]
    simp [Core.setInode, Flat.lockInode, Flat.setInode, different]
  -- The family after the write holds the same zones with the size that is stored in the end.
  have sameHolders : holdsZone after.root (Arrays.nodes files after) =
      holdsZone stored.root (withSlot (Arrays.nodes files flat) ⟨i, isFile⟩ stored i) := by
    rw [← Arrays.withSlot_nodes isFile otherSlots]
    funext holder
    obtain ⟨key, place⟩ := holder
    rcases eq_or_ne key ⟨i, isFile⟩ with rfl | different
    · rw [Flat.holdsZone_withSlot, Flat.holdsZone_withSlot, sameNames]
    · rw [sameRoot]
      unfold holdsZone withSlot
      rw [Function.update_of_ne different, Function.update_of_ne different]
  have zonesAfter : Zones flat.core.super after.root (Arrays.nodes files after) := by
    have zonesStored := wrote.written.zones
    exact ⟨sameHolders ▸ zonesStored.exclusive,
      by rw [sameHolders, sameRoot]; exact zonesStored.marked,
      sameHolders ▸ zonesStored.isZone, by rw [sameRoot]; exact zonesStored.formatted⟩
  have keptOther : ∀ j (isFileJ : files j) place zone, j ≠ i → flat.names j place = some zone →
      holdsZone after.root (Arrays.nodes files after) (⟨j, isFileJ⟩, place) = some zone := by
    intro j isFileJ place zone different named
    rw [sameHolders]
    apply wrote.written.kept
    have held := @holdsZone_nodes files flat j isFileJ place
    rw [named] at held
    exact held
  have isUnlocked : (flat.lockInode i).names i = flat.names i := lockInode_names
  have tookAll : Took i flat after := by
    have first : Took i flat (flat.lockInode i) := Took.of_same rfl isUnlocked fun _ _ => rfl
    have last : Took i stored after :=
      Took.of_same sameSuper sameNames fun bit _ => by rw [sameRoot]
    exact (first.trans wrote.took).trans last
  have storedAll : Stored i offset src flat after := by
    have before := wrote.stored
    refine ⟨?_, ?_, ?_⟩
    · exact before.bytes.congr sameNames sameRoot
    · intro index inFile outside
      rw [sameNames, before.others index inFile outside, isUnlocked]
    · intro zone byte isFirst notIndirect outside inBlock
      rw [sameNames] at notIndirect outside
      rw [sameRoot, before.rest zone byte isFirst notIndirect outside inBlock]
      rfl
  have isZone : ∀ place zone, after.names i place = some zone →
      flat.core.super.firstdatazone ≤ zone := by
    intro place zone named
    apply (zonesAfter.isZone (⟨i, isFile⟩, place) zone _).1
    rw [holdsZone_nodes, named]
  refine ⟨⟨sameSuper.trans storedSuper, zonesAfter, otherSlots, ?_, ?_⟩, tookAll, storedAll, ?_,
    isZone⟩
  · intro j different isFileJ place zone named byte inBlock
    have held := keptOther j isFileJ place zone different named
    have notOwn : ∀ place', after.names i place' ≠ some zone := by
      intro place' namedOwn
      rw [← holdsZone_nodes isFile] at namedOwn
      have sameHolder := zonesAfter.exclusive _ _ _ held namedOwn
      exact different (congrArg (fun holder => holder.1.1) sameHolder)
    apply storedAll.rest zone byte _ (notOwn _) _ inBlock
    · apply (zones.isZone (⟨j, isFileJ⟩, place) zone _).1
      rw [holdsZone_nodes, named]
    · intro index _ namedOwn
      exact absurd namedOwn (notOwn _)
  · intro byte _
    have order := layout.order
    rw [sameRoot, wrote.written.tables 0]
    · rfl
    · change 0 < flat.core.super.firstdatazone
      unfold firstBlk at order
      omega
    · intro bit _
      change 0 ≠ flat.core.super.zmapBlock bit
      unfold Super.zmapBlock
      generalize bit / blockBits = column
      omega
  · intro place other zone namedPlace namedOther
    rw [← holdsZone_nodes isFile] at namedPlace namedOther
    exact congrArg Prod.snd (zonesAfter.exclusive _ _ _ namedPlace namedOther)

/-- A whole write to one of the files. -/
theorem wp_lockedWrite_sparse {post : ℤ → Flat → Prop} {offset : ℕ} {src : List Byte}
    (inv : Inv files sparse) (isFile : files i)
    (room : Room sparse.flat i (blocksOf offset src.length))
    (good : Dense sparse.flat i offset ∨ Clean sparse.flat i offset src.length)
    (bound : offset + src.length ≤ maxBlocks * blockSize)
    (holds : ∀ ret flat', Inv files ⟨flat', Function.update sparse.written i
      (sparse.written i ∪ { pos | offset ≤ pos ∧ pos < offset + src.length })⟩ →
        post ret flat') :
    wp (Flat.checks (fun _ _ => True) (fun _ _ => False) fun _ => False)
      (lockedWrite i src offset) post sparse.flat := by
  have file := inv.file i isFile
  have small : offset + src.length < 2 ^ 31 := by
    unfold maxBlocks ndirect nindirect blockSize at bound
    omega
  have isSize : toLong ((offset : ℤ) + (src.length : ℤ)) = ((offset + src.length : ℕ) : ℤ) := by
    rw [← Int.natCast_add, toLong_natCast small]
  have isRet : toLong (src.length : ℤ) = src.length := toLong_natCast (by omega)
  have roomLocked : Room (sparse.flat.lockInode i) i (blocksOf offset src.length) := by
    have sameRoom : Room (sparse.flat.lockInode i) i (blocksOf offset src.length) ↔
        Room sparse.flat i (blocksOf offset src.length) := by
      apply Room.congr
      · rfl
      · exact fun index _ => by rw [lockInode_names]
      · simp
      · rfl
      · exact fun _ _ => rfl
    exact sameRoom.mpr room
  have isReg : fileType ((sparse.flat.lockInode i).core.inodes i).mode = sIfreg := by
    simpa using file.regular.mode
  -- The state after the lock is released, in both branches of the size test.
  have ends : ∀ stored after ret,
      Wrote i ⟨i, isFile⟩ (Arrays.nodes files sparse.flat) offset src (sparse.flat.lockInode i)
        stored → after.disk = stored.disk → after.core.super = stored.core.super →
      (∀ j ≠ i, after.core.inodes j = stored.core.inodes j) →
      (after.core.inodes i).direct = (stored.core.inodes i).direct →
      (after.core.inodes i).indirect = (stored.core.inodes i).indirect →
      (after.core.inodes i).size =
        max (sparse.flat.core.inodes i).size ((offset + src.length : ℕ) : ℤ) →
      (after.core.inodes i).inodeno = (sparse.flat.core.inodes i).inodeno →
      Arrays.Regular (after.core.inodes i) → post ret after := by
    intro stored after ret wrote sameDisk sameSuper slots sameDirect sameIndirect isMax sameNumber
      regular
    obtain ⟨elsewhere, took, storedAll, once, isZone⟩ := wrote_after isFile inv.layout inv.zones
      wrote sameDisk sameSuper slots sameDirect sameIndirect
    have inTable : InTable after i := by
      have wasInTable := file.inTable
      unfold InTable at wasInTable ⊢
      rwa [elsewhere.sameSuper, sameNumber]
    apply holds
    exact elsewhere.inv inv
      (file.stored took storedAll once isZone elsewhere.boot room good isMax regular inTable)
  simp only [lockedWrite, wp_bind, Flat.wp_ilock, file.regular.lock, Bool.false_eq_true, if_false]
  have zonesLocked : Zones (sparse.flat.lockInode i).core.super (sparse.flat.lockInode i).root
      (Arrays.nodes files sparse.flat) := inv.zones
  have layoutLocked : (sparse.flat.lockInode i).core.super.Layout := inv.layout
  have isSlot : Arrays.nodes files sparse.flat ⟨i, isFile⟩ =
      ((sparse.flat.lockInode i).core.inodes i).toInodeData := by simp [Arrays.nodes]
  have isRoot : ((sparse.flat.lockInode i).core.inodes i).dev = rootDev := by
    simpa using file.regular.dev
  have notChr : fileType ((sparse.flat.lockInode i).core.inodes i).mode ≠ sIfchr := by
    rw [isReg]
    decide
  have notBlk : fileType ((sparse.flat.lockInode i).core.inodes i).mode ≠ sIfblk := by
    rw [isReg]
    decide
  have notFifo : fileType ((sparse.flat.lockInode i).core.inodes i).mode ≠ sIfifo := by
    rw [isReg]
    decide
  change wp _ _ _ (sparse.flat.lockInode i)
  apply wp_writei_room zonesLocked layoutLocked isSlot isRoot (by simp) notChr notBlk notFifo isSize
    isRet
  case wrong => exact fun noRoom => absurd roomLocked noRoom
  case beyond => exact fun noRoom => absurd roomLocked noRoom
  case goes =>
    intro zone flat' post _ holds
    rw [Flat.wp_mark_checks]
    exact ⟨trivial, holds⟩
  case grows =>
    intro _ stored wrote isLarger
    obtain ⟨isDev, isLock, isMode⟩ := wrote.written.slot
    have wasSize : (stored.core.inodes i).size = (sparse.flat.core.inodes i).size := by
      rw [wrote.size, lockInode_slot]
    rw [lockInode_slot] at isLock
    have isNumber := written_inodeno wrote.written
    simp only [Flat.wp_iunlock, Flat.setInode_self, Flat.setData, isLock, if_true, wp_pure]
    apply ends stored _ _ wrote
    · rfl
    · rfl
    · intro j different
      rw [Flat.setInode_of_ne _ _ _ different, Flat.setInode_of_ne _ _ _ different,
        Flat.setInode_of_ne _ _ _ different]
    · simp
    · simp
    · simp only [Flat.setInode_self]
      omega
    · simpa using isNumber
    · apply regular_unlock _ _ rfl
      · simpa using isDev.trans isRoot
      · simpa [isMode] using isReg
  case stays =>
    intro _ stored wrote notLarger
    obtain ⟨isDev, isLock, isMode⟩ := wrote.written.slot
    have wasSize : (stored.core.inodes i).size = (sparse.flat.core.inodes i).size := by
      rw [wrote.size, lockInode_slot]
    rw [lockInode_slot] at isLock
    have isNumber := written_inodeno wrote.written
    simp only [Flat.wp_iunlock, isLock, if_true, wp_pure]
    apply ends stored _ _ wrote
    · rfl
    · rfl
    · intro j different
      rw [Flat.setInode_of_ne _ _ _ different]
    · simp
    · simp
    · simp only [Flat.setInode_self]
      omega
    · simpa using isNumber
    · apply regular_unlock _ _ rfl
      · exact isDev.trans isRoot
      · rw [isMode]
        exact isReg

/-- A whole truncation of one of the files. -/
theorem wp_lockedTrunc_sparse {post : Unit → Flat → Prop} (inv : Inv files sparse)
    (isFile : files i)
    (holds : ∀ flat', Inv files ⟨flat', Function.update sparse.written i ∅⟩ → post () flat') :
    wp (Flat.checks (fun _ _ => True) (fun _ _ => False) fun _ => False) (lockedTrunc i) post
      sparse.flat := by
  have file := inv.file i isFile
  have inTable := file.inTable
  unfold InTable at inTable
  have zonesLocked : Zones (sparse.flat.lockInode i).core.super (sparse.flat.lockInode i).root
      (Arrays.nodes files sparse.flat) := inv.zones
  have layoutLocked : (sparse.flat.lockInode i).core.super.Layout := inv.layout
  have isSlot : Arrays.nodes files sparse.flat ⟨i, isFile⟩ =
      ((sparse.flat.lockInode i).core.inodes i).toInodeData := by simp [Arrays.nodes]
  simp only [lockedTrunc, wp_bind, Flat.wp_ilock, file.regular.lock, Bool.false_eq_true, if_false]
  change wp _ _ _ (sparse.flat.lockInode i)
  apply wp_itrunc zonesLocked layoutLocked isSlot (by simpa using file.regular.dev) (by simp)
    (by simpa [Flat.lockInode] using inTable)
  intro flat' truncated
  have isNode : flat'.core.inodes i = { sparse.flat.core.inodes i with
      lock := true, size := 0, direct := fun _ => 0, indirect := 0, dirty := false } := by
    rw [truncated.core]
    simp [Core.setInode]
  simp only [Flat.wp_iunlock, isNode, if_true]
  generalize isAfter : (flat'.setInode i fun old => { old with lock := false, wanted := false }) =
    after
  have slots : ∀ j ≠ i, after.core.inodes j = sparse.flat.core.inodes j := by
    intro j different
    rw [← isAfter, Flat.setInode_of_ne _ _ _ different, truncated.core]
    simp [Core.setInode, Flat.lockInode, Flat.setInode, different]
  have sameNode : (after.core.inodes i).toInodeData = (flat'.core.inodes i).toInodeData := by
    rw [← isAfter]
    simp
  have isAfterNode : after.core.inodes i = { sparse.flat.core.inodes i with
      lock := false, wanted := false, size := 0, direct := fun _ => 0, indirect := 0,
      dirty := false } := by
    rw [← isAfter, Flat.setInode_self, isNode]
  have sameRoot : after.root = flat'.root := by
    rw [← isAfter]
    rfl
  have sameSuper : after.core.super = sparse.flat.core.super := by
    rw [← isAfter, Flat.setInode_super, truncated.core]
    rfl
  have unnamed : ∀ place, after.names i place = none := by
    intro place
    rw [Flat.names_eq_none, isAfterNode]
    cases place <;> simp [InodeData.zoneAt]
  have elsewhere : Elsewhere files i sparse.flat after := by
    refine ⟨sameSuper, ?_, slots, ?_, ?_⟩
    · have zonesAfter := truncated.zones
      rw [withSlot, ← sameNode, ← withSlot, Arrays.withSlot_nodes isFile slots, ← sameRoot]
        at zonesAfter
      exact zonesAfter
    · intro j different isFileJ place zone named byte _
      have isFirst : sparse.flat.core.super.firstdatazone ≤ zone := by
        apply (inv.zones.isZone (⟨j, isFileJ⟩, place) zone _).1
        rw [holdsZone_nodes, named]
      rw [sameRoot, truncated.blocks zone]
      · rfl
      · have isBlock : inodeBlock (sparse.flat.lockInode i).core.super
            ((sparse.flat.lockInode i).core.inodes i).inodeno =
              inodeBlock sparse.flat.core.super (sparse.flat.core.inodes i).inodeno := by
          simp [Flat.lockInode]
        rw [isBlock]
        omega
      · intro bit inMap
        have less := inv.layout.zmapBlock_lt inMap
        change zone ≠ sparse.flat.core.super.zmapBlock bit
        omega
    · intro byte _
      rw [sameRoot, truncated.blocks 0]
      · rfl
      · unfold inodeBlock firstBlk
        generalize toUint (_ - 1) / inodesPerBlock = row
        omega
      · intro bit _
        unfold Super.zmapBlock
        generalize bit / blockBits = column
        omega
  apply holds
  apply elsewhere.inv inv
  have regular := file.regular
  have isSize : (after.core.inodes i).size = 0 := by rw [isAfterNode]
  refine ⟨?_, ?_, ?_, ?_, ?_, ?_, ?_⟩
  · rw [isAfterNode]
    exact ⟨regular.dev, rfl, regular.mode⟩
  · unfold InTable
    rw [sameSuper, isAfterNode]
    exact inTable
  · rw [isSize]
  · rw [isSize]
    exact Int.natCast_nonneg _
  · intro index _ less
    rw [isSize] at less
    omega
  · exact fun index _ _ => unnamed _
  · intro pos less
    rw [isSize] at less
    omega

/-- A good step is possible and keeps the files in order. -/
theorem step_inv {action : SparseStep} (inv : Inv files sparse) (good : Good files sparse action) :
    ∃ sparse', step sparse action = some sparse' ∧ Inv files sparse' := by
  cases action with
  | write i src offset =>
      obtain ⟨isFile, room, isGood⟩ := good
      have bound : offset + src.length ≤ maxBlocks * blockSize := by
        by_cases isEmpty : src.length = 0
        · rcases isGood with dense | clean
          · have inside := dense.1
            have isBound := (inv.file i isFile).bound
            omega
          · have isBound := clean.bound
            omega
        · exact room.range isEmpty
      have judged : wp (Flat.checks (fun _ _ => True) (fun _ _ => False) fun _ => False)
          (lockedWrite i src offset)
          (fun _ flat' => Inv files ⟨flat', Function.update sparse.written i
            (sparse.written i ∪ { pos | offset ≤ pos ∧ pos < offset + src.length })⟩)
          sparse.flat :=
        wp_lockedWrite_sparse inv isFile room isGood bound fun _ _ inv' => inv'
      have ends := (exec_checked judged).2
      simp only [step]
      cases result : exec Flat.handler (lockedWrite i src offset) sparse.flat with
      | returned ret flat' =>
          rw [result] at ends
          exact ⟨_, rfl, ends⟩
      | asleep flat' =>
          rw [result] at ends
          exact ends.elim
      | stopped why flat' =>
          rw [result] at ends
          exact ends.elim
  | trunc i =>
      have judged : wp (Flat.checks (fun _ _ => True) (fun _ _ => False) fun _ => False)
          (lockedTrunc i)
          (fun _ flat' => Inv files ⟨flat', Function.update sparse.written i ∅⟩) sparse.flat :=
        wp_lockedTrunc_sparse inv good fun _ inv' => inv'
      have ends := (exec_checked judged).2
      simp only [step]
      cases result : exec Flat.handler (lockedTrunc i) sparse.flat with
      | returned ret flat' =>
          rw [result] at ends
          exact ⟨_, rfl, ends⟩
      | asleep flat' =>
          rw [result] at ends
          exact ends.elim
      | stopped why flat' =>
          rw [result] at ends
          exact ends.elim

theorem inv_reach (empty : Empty files flat)
    (reach : Reach step (Good files) ⟨flat, fun _ => ∅⟩ sparse) : Inv files sparse := by
  apply reach.invariant (inv_empty empty)
  intro before action after inv good stepped
  obtain ⟨sparse', isStep, inv'⟩ := step_inv inv good
  rw [stepped, Option.some.injEq] at isStep
  rwa [isStep]

/--
After any good writes and any truncations of regular files, reading leaves everything as it is
and delivers zeros for what was never written.
-/
theorem reads_purely (files : InodeId → Prop) (flat : Flat) (empty : Empty files flat)
    (sparse : Sparse) (reach : Reach step (Good files) ⟨flat, fun _ => ∅⟩ sparse)
    (i : InodeId) (isFile : files i) (p : ProcId) (offset nbytes : ℕ)
    (small : offset + nbytes < 2 ^ 31) : ReadsPurely sparse p i offset nbytes :=
  ((inv_reach empty reach).file i isFile).readsPurely small

/-! ## A file with a hole -/

/-- The small file system, with the number of the inode. -/
def smallSparse : Flat := Arrays.smallFlat.setInode 0 fun old => { old with inodeno := 2 }

theorem empty_smallSparse : Empty (· = 0) smallSparse where
  layout := Arrays.fresh_smallFlat.layout
  formatted := Arrays.fresh_smallFlat.formatted
  regular := by
    rintro i rfl
    exact ⟨rfl, rfl, rfl⟩
  inTable := by
    rintro i rfl
    unfold InTable
    decide
  empty := by
    rintro i rfl
    exact ⟨rfl, rfl, rfl⟩

/-- A byte is written behind the end of the empty file. -/
theorem good_smallSparse : Good (· = 0) ⟨smallSparse, fun _ => ∅⟩ (.write 0 [7] 5) := by
  refine ⟨rfl, ⟨by decide, ?_, ?_⟩, Or.inr ⟨Arrays.fresh_smallFlat.zero, ?_, ?_, ?_, by decide⟩⟩
  · have isFree : 1 ∈ smallSparse.core.super.freeBits smallSparse.root :=
      Super.mem_freeBits.mpr ⟨by decide, by decide⟩
    have positive := List.length_pos_of_mem isFree
    have isOne : (missing smallSparse 0 (blocksOf 5 1)).length +
        (if NewIndirect smallSparse 0 (blocksOf 5 1) then 1 else 0) = 1 := by decide
    exact isOne.trans_le positive
  · rintro ⟨-, index, isIn, notDirect⟩
    rw [mem_blocksOf] at isIn
    unfold ndirect at notDirect
    unfold blockSize at isIn
    dsimp only [List.length_singleton] at isIn
    omega
  · exact fun byte _ => rfl
  · intro zone byte named
    have unnamed : smallSparse.names 0 (blockPlace 0) = none := by decide
    exact absurd (unnamed.symm.trans named) (by simp)
  · intro index notDirect _ less
    unfold ndirect at notDirect
    unfold blockSize at less
    dsimp only [List.length_singleton] at less
    omega

theorem reads_purely_small :
    ∃ sparse, Reach step (Good (· = 0)) ⟨smallSparse, fun _ => ∅⟩ sparse ∧
      sparse.written 0 = { pos | 5 ≤ pos ∧ pos < 6 } ∧ ReadsPurely sparse 0 0 0 6 := by
  obtain ⟨sparse, stepped, -⟩ := step_inv (inv_empty empty_smallSparse) good_smallSparse
  have reach : Reach step (Good (· = 0)) ⟨smallSparse, fun _ => ∅⟩ sparse :=
    Reach.start.next good_smallSparse stepped
  refine ⟨sparse, reach, ?_, reads_purely (· = 0) smallSparse empty_smallSparse sparse reach 0 rfl
    0 0 6 (by decide)⟩
  simp only [step] at stepped
  split at stepped
  · cases stepped
    simp
  · cases stepped
  · cases stepped

/-- The same with a boot block that is not zero. -/
def bootFlat : Flat where
  core := smallSparse.core
  disk dev block := if block = 0 then fun _ => 1 else smallSparse.disk dev block

/-- What is read at the start of the file after a byte was written to its second block. -/
def bootRead : Option (List Byte) :=
  match exec Flat.handler (lockedWrite 0 [7] 1024) bootFlat with
  | .returned _ flat =>
      match exec Flat.handler (readi 0 0 0 1) (flat.lockInode 0) with
      | .returned (_, bytes) _ => some bytes
      | .asleep _ => none
      | .stopped _ _ => none
  | .asleep _ => none
  | .stopped _ _ => none

set_option maxRecDepth 20000 in
theorem bootRead_eq : bootRead = some [1] := by decide

theorem empty_bootFlat : Empty (· = 0) bootFlat where
  layout := empty_smallSparse.layout
  formatted := by
    intro bit inMap isClear
    have notBoot : bootFlat.core.super.zmapBlock bit ≠ 0 := by
      unfold Super.zmapBlock
      generalize bit / blockBits = column
      omega
    have sameBlock : bootFlat.root (bootFlat.core.super.zmapBlock bit) =
        smallSparse.root (bootFlat.core.super.zmapBlock bit) := if_neg notBoot
    rw [Super.zmap, sameBlock] at isClear
    exact empty_smallSparse.formatted bit inMap isClear
  regular := empty_smallSparse.regular
  inTable := empty_smallSparse.inTable
  empty := empty_smallSparse.empty

/-- A hole in the direct blocks reads as the boot block. -/
theorem reads_boot_block : Empty (· = 0) bootFlat ∧
    ∃ sparse, step ⟨bootFlat, fun _ => ∅⟩ (.write 0 [7] 1024) = some sparse ∧
      ¬ReadsPurely sparse 0 0 0 1 := by
  constructor
  · exact empty_bootFlat
  · have isRead := bootRead_eq
    unfold bootRead at isRead
    simp only [step]
    cases result : exec Flat.handler (lockedWrite 0 [7] 1024) bootFlat with
    | returned ret flat' =>
        rw [result] at isRead
        refine ⟨_, rfl, ?_⟩
        rintro ⟨count, bytes, isExec, -, isZero⟩
        dsimp only at isExec isRead isZero
        rw [Nat.cast_zero] at isExec
        rw [isExec] at isRead
        cases isRead
        have isByte := isZero 0 1 rfl (by simp)
        exact absurd isByte (by decide)
    | asleep flat' =>
        rw [result] at isRead
        cases isRead
    | stopped why flat' =>
        rw [result] at isRead
        cases isRead

end Sparse

end Osix
