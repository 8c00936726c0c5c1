import Osix.Fs.Contents

/-!
# How much `readi` reads

`readi` of a regular file or directory for every offset within the file and every length that
the caller may ask for. The end of the range is computed in a `long`, so that a range that
ends at 2^31 or later looks as if it ended before the file does: `readi` then runs past the
end of the file, or it returns the length as a negative number.
-/

namespace Osix.Lengths

open Program Fs

/-- The bytes there are to read. -/
def readCount (size offset nbytes : ℕ) : ℕ := min nbytes (size - offset)

/-- `bmap` is asked for the first `blocks` blocks of the inode only. -/
def Below (i : InodeId) (blocks : ℕ) (event : Event) (_ : Flat) : Prop :=
  ∀ index zone, event = .bmapped i index zone → index < blocks

/-- A locked regular file or directory of this size. -/
structure Readable (flat : Flat) (i : InodeId) (size : ℕ) : Prop where
  locked : (flat.core.inodes i).lock = true
  type : fileType (flat.core.inodes i).mode = sIfreg ∨ fileType (flat.core.inodes i).mode = sIfdir
  isSize : (flat.core.inodes i).size = size
  isLong : size < 2 ^ 31

/--
`readi` returns the number of bytes that there are to read, it stores as many, and it asks
`bmap` for blocks of the file only.
-/
def ReadsLength (flat : Flat) (p : ProcId) (i : InodeId) (size offset nbytes : ℕ) : Prop :=
  (∃ bytes flat', exec Flat.handler (readi p i offset nbytes) flat =
      .returned ((readCount size offset nbytes : ℤ), bytes) flat' ∧
        bytes.length = readCount size offset nbytes) ∧
    Along Flat.handler (Flat.atMark (Below i ((size + blockSize - 1) / blockSize)))
      (readi p i offset nbytes : FsM FlatBuf (ℤ × List Byte)) flat

section

variable {must : Event → Flat → Prop} {allowed : Stop → Flat → Prop} {sleeps : Flat → Prop}
  {flat : Flat} {i : InodeId}

/-- `balloc` changes nothing but blocks. -/
theorem wp_balloc_any {post : ℕ → Flat → Prop} (dev : Dev)
    (noZone : ∀ flat, must .noZone flat)
    (holds : ∀ zone disk, post zone { flat with disk := disk }) :
    wp (Flat.checks must allowed sleeps) (balloc dev) post flat := by
  have loop : ∀ blocks zmapBlock blockNo,
      wp (Flat.checks must allowed sleeps) (ballocLoop dev blocks zmapBlock blockNo) post flat := by
    intro blocks
    induction blocks with
    | zero =>
        intro zmapBlock blockNo
        rw [Flat.ballocLoop_zero]
        simp only [wp_bind, Flat.wp_mark_checks, wp_pure]
        exact ⟨noZone flat, holds 0 flat.disk⟩
    | succ blocks ih =>
        intro zmapBlock blockNo
        rw [Flat.ballocLoop_succ]
        simp only [wp_bind, Flat.wp_bread, Flat.wp_bdata]
        split
        · simp only [wp_bind, Flat.wp_bstore, Flat.wp_bwrite, Flat.wp_brelse, wp_pure]
          exact holds _ _
        · simp only [wp_bind, Flat.wp_brelse]
          exact ih _ _
  simp only [balloc, wp_bind, Flat.wp_getCore]
  exact loop _ _ _

/-- A look-up of `bmap` changes nothing but blocks. -/
theorem wp_bmap_any {post : ℕ → Flat → Prop} {index : ℕ}
    (locked : (flat.core.inodes i).lock = true) (inFile : index < maxBlocks)
    (noZone : ∀ flat, must .noZone flat) (asked : ∀ zone flat, must (.bmapped i index zone) flat)
    (holds : ∀ zone disk, post zone { flat with disk := disk }) :
    wp (Flat.checks must allowed sleeps) (bmap i index false) post flat := by
  simp only [bmap, wp_bind, Flat.wp_getInode, locked, Bool.not_true, Bool.false_eq_true, if_false]
  by_cases isDirect : index < ndirect
  · simp only [isDirect, dif_pos, false_and, wp_bind, wp_when, if_false, Flat.wp_getInode,
      Flat.wp_mark_checks, wp_pure]
    exact ⟨asked _ _, holds _ flat.disk⟩
  · have isIndirect : index < ndirect + nindirect := inFile
    simp only [isDirect, dif_neg, not_false_eq_true, isIndirect, if_true, false_and, wp_bind,
      wp_when, if_false, bmapIndirect, Flat.wp_getInode]
    split
    · simp only [wp_bind, Flat.wp_bread, Flat.wp_bdata, wp_when, Flat.wp_getInode]
      split
      · apply wp_balloc_any _ noZone
        intro zone disk
        simp only [Flat.wp_bstore, Flat.wp_bwrite, Flat.wp_brelse, wp_pure, Flat.wp_mark_checks]
        exact ⟨asked _ _, holds _ _⟩
      · simp only [Flat.wp_brelse, wp_pure, Flat.wp_mark_checks]
        exact ⟨asked _ _, holds _ flat.disk⟩
    · simp only [wp_pure, Flat.wp_mark_checks]
      exact ⟨asked _ _, holds _ flat.disk⟩

theorem wp_bmap_panics {post : ℕ → Flat → Prop} {index : ℕ} {write : Bool}
    (locked : (flat.core.inodes i).lock = true) (beyond : maxBlocks ≤ index)
    (holds : allowed (.panic .doubleIndirect) flat) :
    wp (Flat.checks must allowed sleeps) (bmap i index write) post flat := by
  have notDirect : ¬index < ndirect := by
    unfold maxBlocks at beyond
    omega
  have notIndirect : ¬index < ndirect + nindirect := by
    unfold maxBlocks at beyond
    omega
  simp only [bmap, wp_bind, Flat.wp_getInode, locked, Bool.not_true, Bool.false_eq_true, if_false,
    notDirect, dif_neg, not_false_eq_true, notIndirect, Flat.wp_panic]
  exact holds

/-- One turn of the loop of `readi`: the next turn is at the start of the next block. -/
theorem wp_readiLoop_turn {post : List Byte → Flat → Prop} {rounds pos count : ℕ}
    (locked : (flat.core.inodes i).lock = true) (inFile : pos / blockSize < maxBlocks)
    (positive : count ≠ 0) (noZone : ∀ flat, must .noZone flat)
    (asked : ∀ zone flat, must (.bmapped i (pos / blockSize) zone) flat)
    (holds : ∀ bytes disk, bytes.length = min (blockSize - pos % blockSize) count →
      wp (Flat.checks must allowed sleeps) (readiLoop i rounds (pos / blockSize + 1) 0
        (count - min (blockSize - pos % blockSize) count)) (fun rest => post (bytes ++ rest))
          { flat with disk := disk }) :
    wp (Flat.checks must allowed sleeps)
      (readiLoop i (rounds + 1) (pos / blockSize) ((pos % blockSize : ℕ) : ℤ) count) post flat := by
  have notNegative : ¬((pos % blockSize : ℕ) : ℤ) < 0 := by omega
  have isNext : toUint ((pos / blockSize : ℕ) + 1) = pos / blockSize + 1 := by
    rw [← Int.natCast_succ, toUint_natCast]
    unfold maxBlocks ndirect nindirect at inFile
    omega
  unfold readiLoop
  simp only [positive, if_false, wp_bind]
  apply wp_bmap_any locked inFile noZone asked
  intro zone disk
  simp only [Flat.wp_getInode, Flat.wp_bread, notNegative, if_false, wp_bind, Flat.wp_bdata,
    Flat.wp_brelse, Int.toNat_natCast, wp_pure, isNext]
  apply holds
  simp [Block.bytes]

/-- The loop of `readi` within a file that `bmap` can map. -/
theorem wp_readiLoop_any {post : List Byte → Flat → Prop} {rounds pos count : ℕ}
    (locked : (flat.core.inodes i).lock = true) (inFile : pos + count ≤ maxBlocks * blockSize)
    (enough : count ≤ rounds) (noZone : ∀ flat, must .noZone flat)
    (asked : ∀ index, index * blockSize < pos + count →
      ∀ zone flat, must (.bmapped i index zone) flat)
    (holds : ∀ bytes disk, bytes.length = count → post bytes { flat with disk := disk }) :
    wp (Flat.checks must allowed sleeps)
      (readiLoop i rounds (pos / blockSize) ((pos % blockSize : ℕ) : ℤ) count) post flat := by
  induction rounds generalizing flat pos count post with
  | zero =>
      have isZero : count = 0 := by omega
      subst isZero
      exact holds [] flat.disk rfl
  | succ rounds ih =>
      by_cases isZero : count = 0
      · subst isZero
        exact holds [] flat.disk rfl
      have inBlock : pos % blockSize < blockSize := Nat.mod_lt _ (by decide)
      have split := Nat.div_add_mod' pos blockSize
      have isBlock : pos / blockSize < maxBlocks := by
        unfold blockSize maxBlocks at *
        omega
      apply wp_readiLoop_turn locked isBlock isZero noZone (asked _ (by omega))
      intro bytes disk isLength
      by_cases isLast : count ≤ blockSize - pos % blockSize
      · rw [Nat.min_eq_right isLast] at isLength ⊢
        have noMore : count - count = 0 := Nat.sub_self count
        rw [noMore]
        have ends : wp (Flat.checks must allowed sleeps)
            (readiLoop i rounds (pos / blockSize + 1) 0 0) (fun rest => post (bytes ++ rest))
            { flat with disk := disk } := by
          have isPost := holds bytes disk isLength
          cases rounds with
          | zero => simpa [readiLoop] using isPost
          | succ rounds => simpa [readiLoop] using isPost
        exact ends
      · rw [Nat.min_eq_left (by omega)] at isLength ⊢
        have isNext : pos / blockSize + 1 = (pos + (blockSize - pos % blockSize)) / blockSize := by
          unfold blockSize at *
          omega
        have isStart : (0 : ℤ) =
            (((pos + (blockSize - pos % blockSize)) % blockSize : ℕ) : ℤ) := by
          unfold blockSize at *
          omega
        rw [isNext, isStart]
        apply @ih { flat with disk := disk } _ _ _ locked
        · omega
        · omega
        · intro index before
          exact asked index (by omega)
        · intro rest disk' isRest
          apply holds
          rw [List.length_append, isLength, isRest]
          omega

/-- The loop of `readi` that gets to a block behind the last one that `bmap` can map. -/
theorem wp_readiLoop_panics {post : List Byte → Flat → Prop} {rounds pos count : ℕ}
    (locked : (flat.core.inodes i).lock = true) (beyond : maxBlocks * blockSize < pos + count)
    (positive : count ≠ 0) (enough : count ≤ rounds)
    (noPost : ∀ event flat, must event flat)
    (holds : ∀ flat, allowed (.panic .doubleIndirect) flat) :
    wp (Flat.checks must allowed sleeps)
      (readiLoop i rounds (pos / blockSize) ((pos % blockSize : ℕ) : ℤ) count) post flat := by
  induction rounds generalizing flat pos count post with
  | zero => omega
  | succ rounds ih =>
      have inBlock : pos % blockSize < blockSize := Nat.mod_lt _ (by decide)
      have split := Nat.div_add_mod' pos blockSize
      by_cases isBlock : pos / blockSize < maxBlocks
      · apply wp_readiLoop_turn locked isBlock positive (noPost _) (fun _ => noPost _)
        intro bytes disk isLength
        have more : blockSize - pos % blockSize < count := by
          unfold blockSize maxBlocks at *
          omega
        rw [Nat.min_eq_left (by omega)]
        have isNext : pos / blockSize + 1 = (pos + (blockSize - pos % blockSize)) / blockSize := by
          unfold blockSize at *
          omega
        have isStart : (0 : ℤ) =
            (((pos + (blockSize - pos % blockSize)) % blockSize : ℕ) : ℤ) := by
          unfold blockSize at *
          omega
        rw [isNext, isStart]
        exact @ih { flat with disk := disk } _ _ _ locked (by omega) (by omega) (by omega)
      · unfold readiLoop
        simp only [positive, if_false, wp_bind]
        exact wp_bmap_panics locked (by omega) (holds flat)

/-- The length that `readi` computes for the loop. -/
def clamped (size offset nbytes : ℕ) : ℕ :=
  if (size : ℤ) < toLong (offset + nbytes) then size - offset else nbytes

theorem wp_readi_eq {post : ℤ × List Byte → Flat → Prop} {p : ProcId} {size offset nbytes : ℕ}
    (readable : Readable flat i size) (inside : offset ≤ size) :
    wp (Flat.checks must allowed sleeps) (readi p i offset nbytes) post flat ↔
      wp (Flat.checks must allowed sleeps)
        (readiLoop i (toLong (clamped size offset nbytes)).toNat (offset / blockSize)
          ((offset % blockSize : ℕ) : ℤ) (toLong (clamped size offset nbytes)).toNat)
        (fun bytes => post (toLong (clamped size offset nbytes), bytes)) flat := by
  have isLong := readable.isLong
  have notChr : fileType (flat.core.inodes i).mode ≠ sIfchr := by
    rcases readable.type with isType | isType <;> rw [isType] <;> decide
  have notBlk : fileType (flat.core.inodes i).mode ≠ sIfblk := by
    rcases readable.type with isType | isType <;> rw [isType] <;> decide
  have notBeyond : ¬((size : ℕ) : ℤ) < (offset : ℤ) := by omega
  have isCount : (if ((size : ℕ) : ℤ) < toLong ((offset : ℤ) + (nbytes : ℤ)) then
      toUint ((size : ℤ) - offset) else nbytes) = clamped size offset nbytes := by
    unfold clamped
    split
    · rw [← Int.natCast_sub inside, toUint_natCast (by omega)]
    · rfl
  have isBlock : toUint ((offset : ℤ).tdiv blockSize) = offset / blockSize := by
    rw [Int.tdiv_eq_ediv_of_nonneg (by omega), ← Int.natCast_ediv, toUint_natCast]
    unfold blockSize
    omega
  have isOffset : (offset : ℤ).tmod blockSize = ((offset % blockSize : ℕ) : ℤ) := by
    rw [Int.tmod_eq_emod_of_nonneg (by omega), ← Int.natCast_emod]
  simp only [readi, wp_bind, Flat.wp_getInode, readable.locked, notChr, notBlk, readable.isSize,
    notBeyond, Bool.not_true, Bool.false_eq_true, if_false, isCount, isBlock, isOffset, wp_pure]

end

/-- A run that cannot return does not read the right length. -/
theorem not_readsLength {flat : Flat} {p : ProcId} {i : InodeId} {size offset nbytes : ℕ}
    (judged : wp (Flat.checks (fun _ _ => True) (fun _ _ => True) fun _ => True)
      (readi p i offset nbytes)
      (fun result _ => result.1 ≠ readCount size offset nbytes) flat) :
    ¬ReadsLength flat p i size offset nbytes := by
  rintro ⟨⟨bytes, flat', returned, _⟩, _⟩
  have ends := (exec_checked judged).2
  rw [returned] at ends
  exact ends rfl

/-- The loop of `readi` without a bound panics, or its length is taken for a negative number. -/
theorem wp_readiLoop_wrong {flat : Flat} {i : InodeId} {size offset nbytes : ℕ} {long : ℤ}
    (locked : (flat.core.inodes i).lock = true) (large : 2 ^ 31 ≤ offset + nbytes)
    (wraps : 0 ≤ long → long = nbytes) (small : offset < 2 ^ 31) :
    wp (Flat.checks (fun _ _ => True) (fun _ _ => True) fun _ => True)
      (readiLoop i long.toNat (offset / blockSize) ((offset % blockSize : ℕ) : ℤ) long.toNat)
      (fun _ _ => long ≠ readCount size offset nbytes) flat := by
  have isLimit : maxBlocks * blockSize < 2 ^ 31 := by decide
  by_cases isPositive : 0 ≤ long
  · rw [wraps isPositive, Int.toNat_natCast]
    exact wp_readiLoop_panics locked (by omega) (by omega) le_rfl (fun _ _ => trivial)
      fun _ => trivial
  · rw [Int.toNat_of_nonpos (by omega), readiLoop]
    simp only [wp_pure]
    omega

/-- A range that ends at 2^31 or later is not read as it should be. -/
theorem readi_too_long {flat : Flat} {p : ProcId} {i : InodeId} {size offset nbytes : ℕ} {long : ℤ}
    (readable : Readable flat i size) (inside : offset ≤ size)
    (isClamped : clamped size offset nbytes = nbytes) (isLong : toLong nbytes = long)
    (large : 2 ^ 31 ≤ offset + nbytes) (wraps : 0 ≤ long → long = nbytes) :
    ¬ReadsLength flat p i size offset nbytes := by
  apply not_readsLength
  rw [wp_readi_eq readable inside, isClamped, isLong]
  exact wp_readiLoop_wrong readable.locked large wraps (lt_of_le_of_lt inside readable.isLong)

/-- When `readi` reads the right length. -/
theorem readi_length {flat : Flat} {p : ProcId} {i : InodeId} {size offset nbytes : ℕ}
    (readable : Readable flat i size) (inside : offset ≤ size) (isUint : nbytes < 2 ^ 32) :
    ReadsLength flat p i size offset nbytes ↔
      offset + nbytes < 2 ^ 31 ∧ (readCount size offset nbytes = 0 ∨
        offset + readCount size offset nbytes ≤ maxBlocks * blockSize) := by
  have isLong := readable.isLong
  by_cases small : offset + nbytes < 2 ^ 31
  · have isClamped : clamped size offset nbytes = readCount size offset nbytes := by
      unfold clamped readCount
      rw [← Int.natCast_add, toLong_natCast small]
      split <;> omega
    have isCount : toLong (readCount size offset nbytes) = readCount size offset nbytes := by
      apply toLong_natCast
      unfold readCount
      omega
    by_cases inFile : readCount size offset nbytes = 0 ∨
        offset + readCount size offset nbytes ≤ maxBlocks * blockSize
    · refine iff_of_true ?_ ⟨small, inFile⟩
      have judged : wp (Flat.checks (Below i ((size + blockSize - 1) / blockSize))
          (fun _ _ => False) fun _ => False) (readi p i offset nbytes)
          (fun result _ => result.1 = readCount size offset nbytes ∧
            result.2.length = readCount size offset nbytes) flat := by
        rw [wp_readi_eq readable inside, isClamped, isCount, Int.toNat_natCast]
        rcases inFile with isZero | inFile
        · rw [isZero]
          exact ⟨rfl, rfl⟩
        · apply wp_readiLoop_any readable.locked inFile le_rfl
          · intro flat index zone isMark
            cases isMark
          · intro index before zone flat other zone' isMark
            cases isMark
            unfold readCount at before
            unfold blockSize at *
            omega
          · intro bytes disk isLength
            exact ⟨rfl, isLength⟩
      rcases exec_checked judged with ⟨along, ends⟩
      refine ⟨?_, along⟩
      cases result : exec Flat.handler (readi p i offset nbytes) flat with
      | returned value flat' =>
          rw [result] at ends
          exact ⟨value.2, flat', by rw [← ends.1], ends.2⟩
      | asleep flat' =>
          rw [result] at ends
          exact ends.elim
      | stopped why flat' =>
          rw [result] at ends
          exact ends.elim
    · refine iff_of_false (not_readsLength ?_) fun both => inFile both.2
      push Not at inFile
      rw [wp_readi_eq readable inside, isClamped, isCount, Int.toNat_natCast]
      exact wp_readiLoop_panics readable.locked inFile.2 inFile.1 le_rfl (fun _ _ => trivial)
        fun _ => trivial
  · refine iff_of_false ?_ fun both => small both.1
    have isClamped : clamped size offset nbytes = nbytes := by
      unfold clamped
      rw [if_neg]
      unfold toLong
      rw [Int.bmod_def]
      omega
    have wraps : 0 ≤ toLong (nbytes : ℤ) → toLong (nbytes : ℤ) = nbytes := by
      unfold toLong
      rw [Int.bmod_def]
      omega
    exact readi_too_long readable inside isClamped rfl (Nat.le_of_not_lt small) wraps

/-- A locked file of one byte in the first slot. -/
def oneByte : Flat where
  core := (Core.init ⟨10, 1, 1, 5⟩).setInode 0 fun old =>
    { old with dev := rootDev, mode := sIfreg, size := 1, direct := fun _ => 5, lock := true }
  disk _ _ := fun _ => 7

theorem readable_oneByte : Readable oneByte 0 1 where
  locked := rfl
  type := Or.inl rfl
  isSize := rfl
  isLong := by decide

theorem readi_length_oneByte : ReadsLength oneByte 0 0 1 0 512 :=
  (readi_length readable_oneByte (by decide) (by decide)).2 ⟨by decide, Or.inr (by decide)⟩

/-- The largest length there is comes back as -1. -/
theorem readi_length_max :
    Readable oneByte 0 1 ∧ ¬ReadsLength oneByte 0 0 1 0 (2 ^ 32 - 1) := by
  refine ⟨readable_oneByte, ?_⟩
  have isNegative : toLong ((2 ^ 32 - 1 : ℕ) : ℤ) = -1 := by decide
  apply readi_too_long readable_oneByte (by decide) (by decide) isNegative (by decide)
  intro isPositive
  omega

end Osix.Lengths
