import Osix.Fs.Descriptors

/-!
# Seeking

`lseek` on an open regular file against what it is for: to move the offset to a position of the
file or to its end, and to refuse every other target. `lseek_right_iff` says for which requests
the code does that. It takes the size itself for out of range and never looks for a negative
target, which a sum that leaves the 32 bits of a `long` can be as well.

A request that is answered right keeps the offset from becoming negative, and `file_read` from an
offset that is not negative never copies from in front of a block buffer.
-/

namespace Osix

open Program Fs

/-- The descriptor refers to a regular file, through the file entry `f` and the inode `i`. -/
structure OpenRegular (flat : Flat) (p : ProcId) (fd : ℤ) (f : FileId) (i : InodeId) : Prop where
  isOpen : (flat.core.procs p).descriptor fd = some f
  inode : (flat.core.files f).inode = some i
  regular : fileType (flat.core.inodes i).mode = sIfreg
  size : IsLong (flat.core.inodes i).size

/-- `SEEK_SET`, `SEEK_CUR` and `SEEK_END`. -/
def IsWhence (whence : ℤ) : Prop := whence = 0 ∨ whence = 1 ∨ whence = 2

/-- The position that a request asks for, as an integer without bounds. -/
def seekTarget (flat : Flat) (f : FileId) (i : InodeId) (offset whence : ℤ) : ℤ :=
  if whence = 0 then offset
  else if whence = 1 then (flat.core.files f).offset + offset
  else (flat.core.inodes i).size + offset

/-- The request asks for a position of the file or for its end. -/
def SeekInFile (flat : Flat) (f : FileId) (i : InodeId) (offset whence : ℤ) : Prop :=
  IsWhence whence ∧ 0 ≤ seekTarget flat f i offset whence ∧
    seekTarget flat f i offset whence ≤ (flat.core.inodes i).size

/--
`lseek` answers the request right: it moves to a target in the file and returns it, and refuses
any other request without a change.
-/
def SeekRight (flat : Flat) (p : ProcId) (fd : ℤ) (f : FileId) (i : InodeId)
    (offset whence : ℤ) : Prop :=
  ∃ value flat', exec Flat.handler (lseek p fd offset whence) flat = .returned value flat' ∧
    (SeekInFile flat f i offset whence → value = seekTarget flat f i offset whence ∧
      flat' = flat.setFile f fun old =>
        { old with offset := seekTarget flat f i offset whence }) ∧
    (¬SeekInFile flat f i offset whence → value < 0 ∧ flat' = flat)

/--
The requests that are answered right: a bad `whence`, a position of the file, a target outside
of the file whose 32 bits are not below the size, and the place where the offset already is when
it has become negative.
-/
def SeekCondition (flat : Flat) (f : FileId) (i : InodeId) (offset whence : ℤ) : Prop :=
  let target := seekTarget flat f i offset whence
  let size := (flat.core.inodes i).size
  ¬IsWhence whence ∨ (0 ≤ target ∧ target < size) ∨
    ((target < 0 ∨ size < target) ∧ size ≤ toLong target) ∨
    (toLong target = (flat.core.files f).offset ∧ toLong target < 0)

/-! ## What `lseek` does -/

/-- The new offset that `file_seek` computes. -/
def seekOffset (flat : Flat) (f : FileId) (i : InodeId) (offset whence : ℤ) : ℤ :=
  toLong (seekTarget flat f i offset whence)

section

variable {flat : Flat} {p : ProcId} {fd : ℤ} {f : FileId} {i : InodeId} {offset whence : ℤ}

theorem OpenRegular.inRange (isOpen : OpenRegular flat p fd f i) : ¬(fd < 0 ∨ nfile ≤ fd) := by
  rcases Proc.exists_of_descriptor isOpen.isOpen with ⟨slot, rfl, -⟩
  have less := slot.isLt
  omega

/-- The judgement of `lseek` when nothing may go wrong. -/
theorem wp_lseek {post : ℤ → Flat → Prop} (isOpen : OpenRegular flat p fd f i)
    (isLong : IsLong offset)
    (refused : ¬IsWhence whence → post (-einval) flat)
    (tooFar : IsWhence whence → (flat.core.inodes i).size ≤ seekOffset flat f i offset whence →
      post (-einval) flat)
    (moved : IsWhence whence → seekOffset flat f i offset whence < (flat.core.inodes i).size →
      post (seekOffset flat f i offset whence)
        (flat.setFile f fun old => { old with offset := seekOffset flat f i offset whence })) :
    wp Flat.surely (lseek p fd offset whence) post flat := by
  simp only [lseek, openFile, fileSeek, fileInode, if_neg isOpen.inRange, wp_bind, Flat.wp_mark,
    Flat.wp_getProc, wp_pure, isOpen.isOpen, forall_const]
  split
  · rename_i outOfRange
    refine refused ?_
    unfold IsWhence
    omega
  · rename_i isIn
    have isWhence : IsWhence whence := by
      unfold IsWhence
      omega
    have isOffset : (if whence = 0 then offset
        else if whence = 1 then toLong ((flat.core.files f).offset + offset)
        else toLong ((flat.core.inodes i).size + offset)) = seekOffset flat f i offset whence := by
      unfold seekOffset seekTarget
      split
      · exact (toLong_of_isLong isLong).symm
      · split <;> rfl
    simp only [wp_bind, Flat.wp_mark, Flat.wp_getFile, isOpen.inode, Flat.wp_getInode, wp_pure,
      forall_const, isOffset, isOpen.regular, and_true]
    split
    · rename_i less
      exact tooFar isWhence less
    · rename_i notLess
      simp only [wp_bind, Flat.wp_setFile, wp_pure]
      exact moved isWhence (by omega)

/-- How `lseek` ends. -/
theorem exec_lseek (isOpen : OpenRegular flat p fd f i) (isLong : IsLong offset) (whence : ℤ) :
    ∃ value flat', exec Flat.handler (lseek p fd offset whence) flat = .returned value flat' ∧
      ((¬IsWhence whence ∨ (flat.core.inodes i).size ≤ seekOffset flat f i offset whence) ∧
          value = -einval ∧ flat' = flat ∨
        IsWhence whence ∧ seekOffset flat f i offset whence < (flat.core.inodes i).size ∧
          value = seekOffset flat f i offset whence ∧
          flat' = flat.setFile f fun old =>
            { old with offset := seekOffset flat f i offset whence }) := by
  refine Flat.returns_of_surely (wp_lseek isOpen isLong ?_ ?_ ?_)
  · intro notWhence
    exact Or.inl ⟨Or.inl notWhence, rfl, rfl⟩
  · intro _ tooFar
    exact Or.inl ⟨Or.inr tooFar, rfl, rfl⟩
  · intro isWhence inFront
    exact Or.inr ⟨isWhence, inFront, rfl, rfl⟩

/-- A target in the file is a `long`. -/
theorem SeekInFile.seekOffset (inFile : SeekInFile flat f i offset whence)
    (size : IsLong (flat.core.inodes i).size) :
    seekOffset flat f i offset whence = seekTarget flat f i offset whence := by
  rcases inFile with ⟨-, notNegative, atMost⟩
  rcases size with ⟨-, small⟩
  exact toLong_of_isLong ⟨by omega, by omega⟩

/-- The offset of a file is changed by `lseek` unless it is stored where it was. -/
theorem Flat.setFile_offset_eq_self {value : ℤ} :
    (flat.setFile f fun old => { old with offset := value }) = flat ↔
      (flat.core.files f).offset = value := by
  refine ⟨fun same => ?_, fun same => ?_⟩
  · have sameOffset := congrArg (fun state : Flat => (state.core.files f).offset) same
    simpa [Flat.setFile, Core.setFile] using sameOffset.symm
  · subst same
    simp [Flat.setFile, Core.setFile]

theorem seekCondition_refused (size : IsLong (flat.core.inodes i).size)
    (refused : ¬IsWhence whence ∨
      (flat.core.inodes i).size ≤ seekOffset flat f i offset whence) :
    SeekCondition flat f i offset whence ↔ ¬SeekInFile flat f i offset whence := by
  have inRange := fun inFile : SeekInFile flat f i offset whence => inFile.seekOffset size
  unfold SeekCondition SeekInFile seekOffset at *
  by_cases isWhence : IsWhence whence
  · simp only [isWhence, true_and, not_true_eq_false, false_or] at *
    omega
  · simp [isWhence]

theorem seekCondition_moved (size : IsLong (flat.core.inodes i).size)
    (isWhence : IsWhence whence)
    (inFront : seekOffset flat f i offset whence < (flat.core.inodes i).size) :
    SeekCondition flat f i offset whence ↔
      SeekInFile flat f i offset whence ∨
        seekOffset flat f i offset whence = (flat.core.files f).offset ∧
          seekOffset flat f i offset whence < 0 := by
  have inRange := fun inFile : SeekInFile flat f i offset whence => inFile.seekOffset size
  unfold SeekCondition SeekInFile seekOffset at *
  simp only [isWhence, true_and, not_true_eq_false, false_or] at *
  omega

/-- For which requests the code answers right. -/
theorem seekRight_iff (isOpen : OpenRegular flat p fd f i) (isLong : IsLong offset) :
    SeekRight flat p fd f i offset whence ↔ SeekCondition flat f i offset whence := by
  rcases exec_lseek isOpen isLong whence with ⟨value, flat', returned, ends⟩
  have right_iff : SeekRight flat p fd f i offset whence ↔
      (SeekInFile flat f i offset whence → value = seekTarget flat f i offset whence ∧
        flat' = flat.setFile f fun old =>
          { old with offset := seekTarget flat f i offset whence }) ∧
      (¬SeekInFile flat f i offset whence → value < 0 ∧ flat' = flat) := by
    refine ⟨?_, fun right => ⟨value, flat', returned, right⟩⟩
    rintro ⟨value', flat'', returned', right⟩
    rw [returned] at returned'
    cases returned'
    exact right
  rw [right_iff]
  rcases ends with ⟨refused, rfl, isFlat⟩ | ⟨isWhence, inFront, rfl, isFlat⟩
  · rw [seekCondition_refused isOpen.size refused]
    refine ⟨fun right inFile => ?_, fun outside =>
      ⟨fun inFile => absurd inFile outside, fun _ => ?_⟩⟩
    · have negative : -einval = seekTarget flat f i offset whence := (right.1 inFile).1
      have notNegative := inFile.2.1
      rw [← negative] at notNegative
      exact absurd notNegative (by decide)
    · exact ⟨by decide, isFlat⟩
  · rw [seekCondition_moved isOpen.size isWhence inFront, isFlat, Flat.setFile_offset_eq_self]
    refine ⟨fun right => ?_, fun holds => ⟨fun inFile => ?_, fun outside => ?_⟩⟩
    · by_cases inFile : SeekInFile flat f i offset whence
      · exact Or.inl inFile
      · rcases right.2 inFile with ⟨negative, same⟩
        exact Or.inr ⟨same.symm, negative⟩
    · rw [inFile.seekOffset isOpen.size]
      exact ⟨rfl, rfl⟩
    · rcases holds with inFile | ⟨same, negative⟩
      · exact absurd inFile outside
      · exact ⟨negative, same.symm⟩

/-- A request that is answered right does not make the offset negative. -/
theorem SeekRight.notNegative {value : ℤ} {flat' : Flat}
    (right : SeekRight flat p fd f i offset whence)
    (notNegative : 0 ≤ (flat.core.files f).offset)
    (returned : exec Flat.handler (lseek p fd offset whence) flat = .returned value flat') :
    0 ≤ (flat'.core.files f).offset := by
  rcases right with ⟨value', flat'', returned', inFile, outside⟩
  rw [returned] at returned'
  cases returned'
  by_cases isIn : SeekInFile flat f i offset whence
  · rw [(inFile isIn).2]
    simpa [Flat.setFile, Core.setFile] using isIn.2.1
  · rw [(outside isIn).2]
    exact notNegative

end

/-! ## Reading from an offset that is not negative -/

/-- The program has no access outside of an object in it. -/
abbrev NoFault {α : Type} (prog : FsM FlatBuf α) : Prop :=
  Only (fun operation => operation ≠ .stop .fault) prog

namespace NoFault

theorem getInode (i : InodeId) : NoFault (Fs.getInode i) :=
  Only.bind (Only.perform (by simp)) fun _ => Only.pure _

theorem panic {α : Type} (message : Panic) : NoFault (Fs.panic message : FsM FlatBuf α) :=
  Only.op (by simp) fun empty => empty.elim

theorem ballocLoop (dev : Dev) (blocks zmapBlock blockNo : ℕ) :
    NoFault (Fs.ballocLoop dev blocks zmapBlock blockNo) := by
  induction blocks generalizing zmapBlock blockNo with
  | zero => exact Only.bind (Only.perform (by simp)) fun _ => Only.pure _
  | succ blocks ih =>
      refine Only.bind (Only.perform (by simp)) fun buf => ?_
      refine Only.bind (Only.perform (by simp)) fun zmap => ?_
      split
      · refine Only.bind (Only.perform (by simp)) fun _ => ?_
        refine Only.bind (Only.perform (by simp)) fun _ => ?_
        exact Only.bind (Only.perform (by simp)) fun _ => Only.pure _
      · exact Only.bind (Only.perform (by simp)) fun _ => ih _ _

theorem balloc (dev : Dev) : NoFault (Fs.balloc dev) :=
  Only.bind (Only.perform (by simp)) fun _ => ballocLoop dev _ _ _

theorem bmapIndirect (i : InodeId) (entry : ℕ) : NoFault (Fs.bmapIndirect i entry) := by
  refine Only.bind (getInode i) fun node => ?_
  split
  · refine Only.bind (Only.perform (by simp)) fun buf => ?_
    refine Only.bind (Only.perform (by simp)) fun data => ?_
    refine Only.bind (Only.when ?_) fun _ => ?_
    · refine Only.bind (getInode i) fun node => ?_
      refine Only.bind (balloc node.dev) fun zone => ?_
      exact Only.bind (Only.perform (by simp)) fun _ => Only.perform (by simp)
    · refine Only.bind (Only.perform (by simp)) fun data => ?_
      exact Only.bind (Only.perform (by simp)) fun _ => Only.pure _
  · exact Only.pure 0

theorem bmap_read (i : InodeId) (index : ℕ) : NoFault (Fs.bmap i index false) := by
  refine Only.bind (getInode i) fun node => ?_
  split
  · exact panic .bmapNotLocked
  split
  · refine Only.bind (Only.when ?_) fun _ => ?_
    · refine Only.bind (balloc node.dev) fun zone => ?_
      exact Only.bind (Only.perform (by simp)) fun _ => Only.perform (by simp)
    · refine Only.bind (getInode i) fun node => ?_
      exact Only.bind (Only.perform (by simp)) fun _ => Only.pure _
  split
  · refine Only.bind (Only.when ?_) fun _ => ?_
    · refine Only.bind (balloc node.dev) fun zone => ?_
      refine Only.bind (Only.perform (by simp)) fun _ => ?_
      exact Only.bind (Only.perform (by simp)) fun _ => Only.perform (by simp)
    · refine Only.bind (bmapIndirect i _) fun zone => ?_
      exact Only.bind (Only.perform (by simp)) fun _ => Only.pure zone
  · exact panic .doubleIndirect

theorem readiLoop (i : InodeId) (rounds bindex : ℕ) {offset : ℤ} (notNegative : 0 ≤ offset)
    (remaining : ℕ) : NoFault (Fs.readiLoop i rounds bindex offset remaining) := by
  induction rounds generalizing bindex offset remaining with
  | zero => exact Only.pure _
  | succ rounds ih =>
      unfold Fs.readiLoop
      split
      · exact Only.pure _
      refine Only.bind (bmap_read i bindex) fun blockNo => ?_
      refine Only.bind (getInode i) fun node => ?_
      refine Only.bind (Only.perform (by simp)) fun buf => ?_
      rw [if_neg (by omega)]
      refine Only.bind (Only.perform (by simp)) fun data => ?_
      refine Only.bind (Only.perform (by simp)) fun _ => ?_
      exact Only.bind (ih _ le_rfl _) fun _ => Only.pure _

end NoFault

section

variable {flat : Flat} {p : ProcId} {fd : ℤ} {f : FileId} {i : InodeId}

/-- Rules under which everything but a fault is fine. -/
abbrev faultless : Spec (FsOp FlatBuf) FsOp.Reply Flat :=
  Flat.rules (fun _ _ => True) (fun why _ => why ≠ .fault) fun _ => True

/-- Only an access outside of an object faults. -/
theorem Flat.handler_fault {operation : FsOp FlatBuf}
    (faults : Flat.handler operation flat = .stop .fault) : operation = .stop .fault := by
  cases operation with
  | stop why =>
      cases faults
      rfl
  | ifind dev inodeno =>
      simp only [Flat.handler, Core.perform] at faults
      split at faults <;> cases faults
  | ilock i | iunlock i | iunref i =>
      simp only [Flat.handler, Core.perform] at faults
      split at faults <;> cases faults
  | _ => cases faults

theorem NoFault.wp {α : Type} {prog : FsM FlatBuf α} {post : α → Flat → Prop}
    (noFault : NoFault prog) (holds : ∀ value flat', post value flat') :
    wp faultless prog post flat := by
  refine Only.wp noFault (fun _ => True) ?_ trivial fun value flat' _ => holds value flat'
  intro operation post' flat₁ isFine _ kept _
  cases happened : Flat.handler operation flat₁ with
  | done reply flat' => exact kept reply flat' trivial
  | wait flat' => trivial
  | stop why =>
      intro isFault
      subst isFault
      exact isFine (Flat.handler_fault happened)

/-- `readi` of a regular file from an offset that is not negative does not fault. -/
theorem wp_readi_faultless {post : ℤ × List Byte → Flat → Prop} {offset : ℤ} (nbytes : ℕ)
    (locked : (flat.core.inodes i).lock = true)
    (regular : fileType (flat.core.inodes i).mode = sIfreg) (notNegative : 0 ≤ offset)
    (holds : ∀ result flat', post result flat') :
    wp faultless (readi p i offset nbytes) post flat := by
  have notChr : sIfreg ≠ sIfchr := by decide
  have notBlk : sIfreg ≠ sIfblk := by decide
  simp only [readi, wp_bind, Flat.wp_getInode, locked, Bool.not_true, Bool.false_eq_true,
    if_false, regular, if_neg notChr, if_neg notBlk]
  by_cases past : (flat.core.inodes i).size < offset
  · rw [if_pos past, wp_pure]
    exact holds _ flat
  · rw [if_neg past]
    simp only [wp_bind, wp_pure]
    have inBlock : 0 ≤ offset.tmod blockSize := Int.tmod_nonneg _ notNegative
    -- the counts stay folded, or unification would compute the conversions
    generalize toLong _ = got
    generalize got.toNat = rounds, toUint _ = bindex
    exact (NoFault.readiLoop i rounds bindex inBlock rounds).wp fun bytes flat' => holds _ flat'

/-- A `NULL` in the file when it is read again makes `iunlock` panic, which is no fault. -/
theorem wp_iunlockAgain_faultless :
    wp faultless (inodeAgain f i)
      (fun pointer => wp faultless (iunlockPtr pointer) fun _ _ => True) flat := by
  simp only [Flat.wp_inodeAgain, Flat.wp_iunlockPtr, forall_const]
  split
  · simp
  · rw [Flat.wp_iunlock]
    split <;> simp

/-- `file_read` of a regular file from an offset that is not negative does not fault. -/
theorem wp_fileRead_faultless (nbytes : ℕ) (inode : (flat.core.files f).inode = some i)
    (regular : fileType (flat.core.inodes i).mode = sIfreg)
    (notNegative : 0 ≤ (flat.core.files f).offset) :
    wp faultless (fileRead p f nbytes) (fun _ _ => True) flat := by
  simp only [fileRead, fileInode, wp_bind, Flat.wp_mark, Flat.wp_getFile, inode, wp_pure,
    forall_const, Flat.wp_ilock]
  split
  · simp
  refine wp_readi_faultless nbytes (by simp) (by simpa using regular) notNegative
    fun result flat' => ?_
  simp only [wp_when, Flat.wp_setFile]
  split
  · exact wp_iunlockAgain_faultless
  · exact wp_iunlockAgain_faultless

/-- A read of the file never copies from in front of a block buffer. -/
theorem fileRead_no_fault (nbytes : ℕ) (inode : (flat.core.files f).inode = some i)
    (regular : fileType (flat.core.inodes i).mode = sIfreg)
    (notNegative : 0 ≤ (flat.core.files f).offset) (flat' : Flat) :
    exec Flat.handler (fileRead p f nbytes) flat ≠ .stopped .fault flat' := by
  intro faults
  have ends := exec_ends (wp_fileRead_faultless (p := p) nbytes inode regular notNegative)
    (along_of_forall (fun _ _ _ _ => trivial) _ _)
  rw [faults] at ends
  exact ends rfl

/--
`lseek` answers exactly the requests of `SeekCondition` right. None of these makes the offset
negative, and a read from there stays inside the block buffers.
-/
theorem lseek_right_iff {offset whence : ℤ} (isOpen : OpenRegular flat p fd f i)
    (isLong : IsLong offset) :
    (SeekRight flat p fd f i offset whence ↔ SeekCondition flat f i offset whence) ∧
    (SeekCondition flat f i offset whence → 0 ≤ (flat.core.files f).offset →
      ∀ value flat', exec Flat.handler (lseek p fd offset whence) flat = .returned value flat' →
        0 ≤ (flat'.core.files f).offset ∧
        ∀ nbytes flat'', exec Flat.handler (fileRead p f nbytes) flat' ≠ .stopped .fault flat'') := by
  refine ⟨seekRight_iff isOpen isLong, fun holds notNegative value flat' returned => ?_⟩
  have right := (seekRight_iff isOpen isLong).mpr holds
  have stays := right.notNegative notNegative returned
  refine ⟨stays, fun nbytes => ?_⟩
  rcases exec_lseek isOpen isLong whence with ⟨value', flat₁, returned', ends⟩
  rw [returned] at returned'
  cases returned'
  rcases ends with ⟨-, -, rfl⟩ | ⟨-, -, -, rfl⟩
  · exact fileRead_no_fault nbytes isOpen.inode isOpen.regular stays
  · refine fileRead_no_fault nbytes ?_ isOpen.regular stays
    simpa [Flat.setFile, Core.setFile] using isOpen.inode

end

/-- The file of `oneFile`, as a regular file of ten bytes. -/
def tenBytes : Flat := oneFile.setData 0 fun old => { old with mode := sIfreg, size := 10 }

theorem openRegular_tenBytes : OpenRegular tenBytes 0 0 0 0 where
  isOpen := rfl
  inode := rfl
  regular := rfl
  size := by
    unfold IsLong
    decide

theorem lseek_right_tenBytes :
    SeekCondition tenBytes 0 0 3 0 ∧ SeekRight tenBytes 0 0 0 0 3 0 := by
  have holds : SeekCondition tenBytes 0 0 3 0 := Or.inr (Or.inl (by decide))
  refine ⟨holds, (lseek_right_iff openRegular_tenBytes ?_).1.mpr holds⟩
  unfold IsLong
  decide

/-- The end of the file is refused, and a position in front of it is accepted. -/
theorem lseek_not_right :
    ¬SeekRight tenBytes 0 0 0 0 10 0 ∧ ¬SeekRight tenBytes 0 0 0 0 (-1) 0 := by
  refine ⟨?_, ?_⟩ <;> rw [seekRight_iff openRegular_tenBytes (by unfold IsLong; decide)] <;>
    unfold SeekCondition IsWhence <;> decide

end Osix
