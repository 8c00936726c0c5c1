import Osix.Bio.Basic
import Mathlib.Data.List.Count

/-!
# The representation of the buffer cache

`Bio.WellFormed` is the invariant of the cache: the free list is a well-formed circular
list of exactly the unreferenced buffers, none of them dirty or busy, and no block is
cached twice. Each function of the cache keeps it as long as a released buffer is
referenced, and `BioSys` shows that this is so in every interleaving of several
processes.

Most functions only touch flags and data. `Bio.Keeps` collects what such a change leaves
alone, so that only `getblk` and `brelse` need an argument about the list.
-/

namespace Osix

open CircularList

namespace Bio

@[simp]
theorem setBuf_bcache_self (bio : Bio) (buf : BufId) (change : Buf → Buf) :
    (bio.setBuf buf change).bcache buf = change (bio.bcache buf) := by
  simp [setBuf]

theorem setBuf_bcache_of_ne (bio : Bio) {buf other : BufId} (change : Buf → Buf)
    (ne : other ≠ buf) : (bio.setBuf buf change).bcache other = bio.bcache other := by
  simp [setBuf, Function.update_of_ne ne]

@[simp]
theorem setBuf_bfreelist (bio : Bio) (buf : BufId) (change : Buf → Buf) :
    (bio.setBuf buf change).bfreelist = bio.bfreelist := rfl

@[simp]
theorem setBuf_disk (bio : Bio) (buf : BufId) (change : Buf → Buf) :
    (bio.setBuf buf change).disk = bio.disk := rfl

/-- The free list holds exactly the unreferenced buffers, which are clean and not busy. -/
structure WellFormed (bio : Bio) : Prop where
  free : ∃ elems, bio.bfreelist.Represents elems ∧
    ∀ buf, buf ∈ elems ↔ (bio.bcache buf).refCount = 0
  clean : ∀ buf, (bio.bcache buf).refCount = 0 →
    (bio.bcache buf).flags.dirty = false ∧ (bio.bcache buf).flags.busy = false
  distinct : ∀ left right, (bio.bcache left).dev ≠ -1 →
    (bio.bcache left).dev = (bio.bcache right).dev →
    (bio.bcache left).blockNo = (bio.bcache right).blockNo → left = right

/-- A change that neither moves a buffer nor makes one dirty or busy. -/
structure Keeps (bio bio' : Bio) : Prop where
  bfreelist : bio'.bfreelist = bio.bfreelist
  dev : ∀ buf, (bio'.bcache buf).dev = (bio.bcache buf).dev
  blockNo : ∀ buf, (bio'.bcache buf).blockNo = (bio.bcache buf).blockNo
  refCount : ∀ buf, (bio'.bcache buf).refCount = (bio.bcache buf).refCount
  dirty : ∀ buf, (bio.bcache buf).flags.dirty = false → (bio'.bcache buf).flags.dirty = false
  busy : ∀ buf, (bio.bcache buf).flags.busy = false → (bio'.bcache buf).flags.busy = false

theorem Keeps.rfl (bio : Bio) : bio.Keeps bio :=
  ⟨Eq.refl _, fun _ => Eq.refl _, fun _ => Eq.refl _, fun _ => Eq.refl _, fun _ => id, fun _ => id⟩

theorem Keeps.trans {first second third : Bio} (left : first.Keeps second)
    (right : second.Keeps third) : first.Keeps third where
  bfreelist := right.bfreelist.trans left.bfreelist
  dev buf := (right.dev buf).trans (left.dev buf)
  blockNo buf := (right.blockNo buf).trans (left.blockNo buf)
  refCount buf := (right.refCount buf).trans (left.refCount buf)
  dirty buf clean := right.dirty buf (left.dirty buf clean)
  busy buf idle := right.busy buf (left.busy buf idle)

theorem WellFormed.of_keeps {bio bio' : Bio} (wellFormed : bio.WellFormed)
    (keeps : bio.Keeps bio') : bio'.WellFormed where
  free := by
    rcases wellFormed.free with ⟨elems, represents, mem_iff⟩
    refine ⟨elems, keeps.bfreelist ▸ represents, fun buf => ?_⟩
    rw [mem_iff buf, keeps.refCount buf]
  clean buf unreferenced := by
    rw [keeps.refCount buf] at unreferenced
    have clean := wellFormed.clean buf unreferenced
    exact ⟨keeps.dirty buf clean.1, keeps.busy buf clean.2⟩
  distinct left right used sameDev sameBlock := by
    simp only [keeps.dev, keeps.blockNo] at used sameDev sameBlock
    exact wellFormed.distinct left right used sameDev sameBlock

theorem keeps_setBuf {bio : Bio} {buf : BufId} {change : Buf → Buf}
    (dev : ∀ old, (change old).dev = old.dev) (blockNo : ∀ old, (change old).blockNo = old.blockNo)
    (refCount : ∀ old, (change old).refCount = old.refCount)
    (dirty : ∀ old, old.flags.dirty = false → (change old).flags.dirty = false)
    (busy : ∀ old, old.flags.busy = false → (change old).flags.busy = false) :
    bio.Keeps (bio.setBuf buf change) := by
  have atEach : ∀ other, (bio.setBuf buf change).bcache other = bio.bcache other ∨
      (bio.setBuf buf change).bcache other = change (bio.bcache other) := by
    intro other
    rcases eq_or_ne other buf with rfl | ne
    · exact Or.inr (setBuf_bcache_self bio other change)
    · exact Or.inl (setBuf_bcache_of_ne bio change ne)
  refine ⟨rfl, ?_, ?_, ?_, ?_, ?_⟩ <;> intro other <;>
    rcases atEach other with unchanged | changed
  all_goals first
    | rw [unchanged]
    | rw [changed]
  all_goals first
    | exact id
    | exact dev _
    | exact blockNo _
    | exact refCount _
    | exact dirty _
    | exact busy _

theorem keeps_setFlags {bio : Bio} {buf : BufId} {change : BufFlags → BufFlags}
    (dirty : ∀ old, old.dirty = false → (change old).dirty = false)
    (busy : ∀ old, old.busy = false → (change old).busy = false) :
    bio.Keeps (bio.setFlags buf change) :=
  keeps_setBuf (fun _ => rfl) (fun _ => rfl) (fun _ => rfl)
    (fun old => dirty old.flags) (fun old => busy old.flags)

theorem keeps_iodone (bio : Bio) (buf : BufId) : bio.Keeps (bio.iodone buf) :=
  keeps_setFlags (fun _ => id) (fun _ => id)

theorem keeps_readIntr (bio : Bio) (buf : BufId) : bio.Keeps (bio.readIntr buf) := by
  refine Keeps.trans ?_ (keeps_iodone _ buf)
  exact keeps_setBuf (fun _ => rfl) (fun _ => rfl) (fun _ => rfl) (fun _ => id) (fun _ => id)

theorem keeps_fail (bio : Bio) (buf : BufId) :
    bio.Keeps ((bio.setFlags buf fun flags => { flags with error := true }).iodone buf) := by
  refine Keeps.trans ?_ (keeps_iodone _ buf)
  exact keeps_setFlags (fun _ => id) (fun _ => id)

theorem keeps_wdRead (bio : Bio) (buf : BufId) : bio.Keeps (bio.wdRead buf).2 := by
  unfold wdRead
  split
  · exact Keeps.rfl bio
  · exact keeps_fail bio buf

theorem keeps_wdWrite (bio : Bio) (buf : BufId) : bio.Keeps (bio.wdWrite buf) := by
  unfold wdWrite
  dsimp only
  split
  · exact ⟨rfl, fun _ => rfl, fun _ => rfl, fun _ => rfl, fun _ => id, fun _ => id⟩
  · exact keeps_fail bio buf

/-- `bwrite` keeps everything in place and leaves its buffer clean. -/
theorem keeps_bwrite {bio bio' : Bio} {buf : BufId} (written : bio.bwrite buf = .ok bio') :
    bio.Keeps bio' ∧ (bio'.bcache buf).flags.dirty = false := by
  unfold bwrite at written
  dsimp only at written
  split at written
  · cases written
  · cases written
    refine ⟨Keeps.trans ?_ (keeps_wdWrite _ buf), ?_⟩
    · exact keeps_setFlags (fun _ _ => rfl) (fun _ => id)
    · apply (keeps_wdWrite _ buf).dirty
      simp [setFlags]

theorem keeps_breadFound {bio bio' : Bio} {dev : Dev} {buf : BufId} {status : ReadStatus}
    (read : bio.breadFound dev buf = .ok (status, bio')) : bio.Keeps bio' := by
  unfold breadFound at read
  split at read
  · cases read
    exact Keeps.rfl bio
  · dsimp only at read
    split at read
    · cases read
    · have result : _ = bio' := congrArg Prod.snd (Except.ok.inj read)
      rw [← result]
      refine Keeps.trans ?_ (keeps_wdRead _ buf)
      exact keeps_setFlags (fun _ => id) (fun _ => id)

/-- When only `buf` changes, the invariant is a matter of the free list and of `buf`. -/
theorem WellFormed.of_changed {bio bio' : Bio} {buf : BufId} (wellFormed : bio.WellFormed)
    (others : ∀ other, other ≠ buf → bio'.bcache other = bio.bcache other)
    (free : ∃ elems, bio'.bfreelist.Represents elems ∧
      ∀ other, other ∈ elems ↔ (bio'.bcache other).refCount = 0)
    (clean : (bio'.bcache buf).refCount = 0 →
      (bio'.bcache buf).flags.dirty = false ∧ (bio'.bcache buf).flags.busy = false)
    (distinct : ∀ other, other ≠ buf → (bio'.bcache buf).dev ≠ -1 →
      ¬((bio.bcache other).dev = (bio'.bcache buf).dev ∧
        (bio.bcache other).blockNo = (bio'.bcache buf).blockNo)) : bio'.WellFormed := by
  refine ⟨free, ?_, ?_⟩
  · intro other unreferenced
    rcases eq_or_ne other buf with rfl | ne
    · exact clean unreferenced
    · rw [others other ne] at unreferenced ⊢
      exact wellFormed.clean other unreferenced
  · intro left right used sameDev sameBlock
    by_cases leftBuf : left = buf <;> by_cases rightBuf : right = buf
    · rw [leftBuf, rightBuf]
    · subst leftBuf
      rw [others right rightBuf] at sameDev sameBlock
      exact absurd ⟨sameDev.symm, sameBlock.symm⟩ (distinct right rightBuf used)
    · subst rightBuf
      rw [sameDev] at used
      rw [others left leftBuf] at sameDev sameBlock
      exact absurd ⟨sameDev, sameBlock⟩ (distinct left leftBuf used)
    · rw [others left leftBuf] at used sameDev sameBlock
      rw [others right rightBuf] at sameDev sameBlock
      exact wellFormed.distinct left right used sameDev sameBlock

/-- A used buffer is the only one for its block. -/
theorem WellFormed.ne_block {bio : Bio} (wellFormed : bio.WellFormed) {buf other : BufId}
    (ne : other ≠ buf) (used : (bio.bcache buf).dev ≠ -1) :
    ¬((bio.bcache other).dev = (bio.bcache buf).dev ∧
      (bio.bcache other).blockNo = (bio.bcache buf).blockNo) := by
  rintro ⟨sameDev, sameBlock⟩
  exact ne (wellFormed.distinct buf other used sameDev.symm sameBlock.symm).symm

theorem find_some {bio : Bio} {dev : Dev} {blockNo : ℕ} {buf : BufId}
    (found : bio.find dev blockNo = some buf) :
    (bio.bcache buf).dev = dev ∧ (bio.bcache buf).blockNo = blockNo := by
  simpa using List.find?_some found

theorem find_none {bio : Bio} {dev : Dev} {blockNo : ℕ} (missing : bio.find dev blockNo = none)
    (buf : BufId) : ¬((bio.bcache buf).dev = dev ∧ (bio.bcache buf).blockNo = blockNo) := by
  simpa using List.find?_eq_none.mp missing buf (List.mem_finRange buf)

/-- Taking `buf` off the free list matches its first reference. -/
theorem free_unlink {bio : Bio} {buf : BufId} (wellFormed : bio.WellFormed)
    (unreferenced : (bio.bcache buf).refCount = 0) :
    ∃ elems, (bio.bfreelist.unlink buf).Represents elems ∧
      ∀ other, other ∈ elems ↔ other ≠ buf ∧ (bio.bcache other).refCount = 0 := by
  rcases wellFormed.free with ⟨elems, represents, mem_iff⟩
  rcases List.append_of_mem ((mem_iff buf).mpr unreferenced) with ⟨front, back, rfl⟩
  refine ⟨front ++ back, Links.represents_unlink represents, fun other => ?_⟩
  have nodup := represents.nodup
  rw [List.nodup_append, List.nodup_cons] at nodup
  rw [← mem_iff other, List.mem_append, List.mem_append, List.mem_cons]
  rcases eq_or_ne other buf with rfl | ne
  · have notFront : other ∉ front := fun member => nodup.2.2 other member other (by simp) rfl
    simp [notFront, nodup.2.1.1]
  · simp [ne]

/-- Adding `buf` to the free list matches the end of its last reference. -/
theorem free_pushBack {bio : Bio} {buf : BufId} (wellFormed : bio.WellFormed)
    (referenced : (bio.bcache buf).refCount ≠ 0) :
    ∃ elems, (bio.bfreelist.pushBack buf).Represents elems ∧
      ∀ other, other ∈ elems ↔ other = buf ∨ (bio.bcache other).refCount = 0 := by
  rcases wellFormed.free with ⟨elems, represents, mem_iff⟩
  refine ⟨elems ++ [buf], Links.represents_pushBack represents ?_, fun other => ?_⟩
  · rwa [mem_iff buf]
  · rw [List.mem_append, mem_iff other, List.mem_singleton, or_comm]

/--
What a caller of `getblk` gets: the cache is still well formed, the buffer is cached for
the block it asked for, and only this buffer has one more reference.
-/
structure Acquired (bio bio' : Bio) (dev : Dev) (blockNo : ℕ) (buf : BufId) : Prop where
  wellFormed : bio'.WellFormed
  devEq : (bio'.bcache buf).dev = dev
  blockNoEq : (bio'.bcache buf).blockNo = blockNo
  refCount : (bio'.bcache buf).refCount = (bio.bcache buf).refCount + 1
  others : ∀ other, other ≠ buf → bio'.bcache other = bio.bcache other
  disk : bio'.disk = bio.disk
  online : bio'.online = bio.online
  origin :
    bio.find dev blockNo = some buf ∧
        bio'.bcache buf = { bio.bcache buf with refCount := (bio.bcache buf).refCount + 1 } ∨
      bio.find dev blockNo = none ∧ (bio.bcache buf).refCount = 0 ∧
        (bio'.bcache buf).flags = { BufFlags.none with busy := true }

theorem getblkHit_sleep {bio bio' : Bio} {buf waited : BufId}
    (asleep : bio.getblkHit buf = .sleep waited bio') : bio.Keeps bio' := by
  unfold getblkHit at asleep
  dsimp only at asleep
  split at asleep
  · cases asleep
    exact keeps_setFlags (fun _ => id) (fun _ => id)
  · cases asleep

theorem getblkHit_found {bio bio' : Bio} {dev : Dev} {blockNo : ℕ} {buf got : BufId}
    (wellFormed : bio.WellFormed) (cached : bio.find dev blockNo = some buf)
    (found : bio.getblkHit buf = .found got bio') :
    got = buf ∧ bio.Acquired bio' dev blockNo buf := by
  unfold getblkHit at found
  dsimp only at found
  split at found
  · cases found
  rw [Getblk.found.injEq] at found
  rcases found with ⟨rfl, changed⟩
  have others : ∀ other, other ≠ buf → bio'.bcache other = bio.bcache other := by
    intro other ne
    rw [← changed, setBuf_bcache_of_ne _ _ ne]
  have own : bio'.bcache buf =
      { bio.bcache buf with refCount := (bio.bcache buf).refCount + 1 } := by
    rw [← changed, setBuf_bcache_self]
  have links : bio'.bfreelist =
      if (bio.bcache buf).refCount = 0 then bio.bfreelist.unlink buf else bio.bfreelist := by
    rw [← changed, setBuf_bfreelist]
  have free : ∃ elems, bio'.bfreelist.Represents elems ∧
      ∀ other, other ∈ elems ↔ (bio'.bcache other).refCount = 0 := by
    by_cases unreferenced : (bio.bcache buf).refCount = 0
    · rcases free_unlink wellFormed unreferenced with ⟨elems, represents, mem_iff⟩
      refine ⟨elems, by rwa [links, if_pos unreferenced], fun other => ?_⟩
      rw [mem_iff other]
      rcases eq_or_ne other buf with rfl | ne
      · simp [own]
      · simp [others other ne, ne]
    · rcases wellFormed.free with ⟨elems, represents, mem_iff⟩
      refine ⟨elems, by rwa [links, if_neg unreferenced], fun other => ?_⟩
      rw [mem_iff other]
      rcases eq_or_ne other buf with rfl | ne
      · simp [own, unreferenced]
      · simp [others other ne]
  refine ⟨rfl, wellFormed.of_changed others free (by simp [own]) ?_, ?_, ?_, by rw [own], others,
    by rw [← changed]; rfl, by rw [← changed]; rfl, Or.inl ⟨cached, own⟩⟩
  · intro other ne used
    rw [own] at used ⊢
    exact wellFormed.ne_block ne used
  · rw [own]
    exact (find_some cached).1
  · rw [own]
    exact (find_some cached).2

theorem getblkMiss_found {bio : Bio} {result : Getblk} {dev : Dev} {blockNo : ℕ}
    (wellFormed : bio.WellFormed) (missing : bio.find dev blockNo = none)
    (done : bio.getblkMiss dev blockNo = .ok result) :
    ∃ buf bio', result = .found buf bio' ∧ bio.Acquired bio' dev blockNo buf := by
  unfold getblkMiss at done
  rcases wellFormed.free with ⟨elems, represents, mem_iff⟩
  rw [represents.next_header] at done
  cases elems with
  | nil => cases done
  | cons buf rest =>
      have unreferenced : (bio.bcache buf).refCount = 0 := (mem_iff buf).mp (by simp)
      -- No free buffer is dirty, so the write before reuse never happens.
      have clean := (wellFormed.clean buf unreferenced).1
      simp only [List.head?_cons, clean, Bool.false_eq_true, if_false] at done
      have isFound := (Except.ok.inj done).symm
      generalize changed : Bio.mk _ _ _ _ = bio' at isFound
      have others : ∀ other, other ≠ buf → bio'.bcache other = bio.bcache other := by
        intro other ne
        rw [← changed, setBuf_bcache_of_ne _ _ ne]
      have own : bio'.bcache buf =
          { bio.bcache buf with
              dev := dev, blockNo := blockNo,
              flags := { BufFlags.none with busy := true }, refCount := 1 } := by
        rw [← changed, setBuf_bcache_self]
      have free : ∃ elems, bio'.bfreelist.Represents elems ∧
          ∀ other, other ∈ elems ↔ (bio'.bcache other).refCount = 0 := by
        rcases free_unlink wellFormed unreferenced with ⟨elems, represents, mem_iff⟩
        refine ⟨elems, by rw [← changed]; exact represents, fun other => ?_⟩
        rw [mem_iff other]
        rcases eq_or_ne other buf with rfl | ne
        · simp [own]
        · simp [others other ne, ne]
      refine ⟨buf, bio', isFound, wellFormed.of_changed others free (by simp [own]) ?_,
        by rw [own], by rw [own], by rw [own, unreferenced], others,
        by rw [← changed]; rfl, by rw [← changed]; rfl,
        Or.inr ⟨missing, unreferenced, by rw [own]⟩⟩
      intro other _ _
      rw [own]
      exact find_none missing other

/-- Everything a pass of `getblk` can come to. -/
theorem getblk_cases {bio : Bio} {dev : Dev} {blockNo : ℕ} {result : Getblk}
    (wellFormed : bio.WellFormed) (done : bio.getblk dev blockNo = .ok result) :
    (∃ buf bio', result = .sleep buf bio' ∧ bio.Keeps bio') ∨
      (∃ buf bio', result = .found buf bio' ∧ bio.Acquired bio' dev blockNo buf ∧
        ¬numBdev ≤ major dev) := by
  unfold getblk at done
  split at done
  · cases done
  · rename_i known
    split at done
    · rename_i buf cached
      cases done
      cases hit : bio.getblkHit buf with
      | sleep waited bio' => exact Or.inl ⟨waited, bio', rfl, getblkHit_sleep hit⟩
      | found got bio' =>
          rcases getblkHit_found wellFormed cached hit with ⟨rfl, acquired⟩
          exact Or.inr ⟨got, bio', rfl, acquired, known⟩
    · rename_i missing
      rcases getblkMiss_found wellFormed missing done with ⟨buf, bio', foundEq, acquired⟩
      exact Or.inr ⟨buf, bio', foundEq, acquired, known⟩

theorem wdWrite_others (bio : Bio) {buf other : BufId} (ne : other ≠ buf) :
    (bio.wdWrite buf).bcache other = bio.bcache other := by
  unfold wdWrite
  dsimp only
  split
  · rfl
  · simp [iodone, setFlags, setBuf_bcache_of_ne _ _ ne]

theorem bwrite_others {bio bio' : Bio} {buf other : BufId} (written : bio.bwrite buf = .ok bio')
    (ne : other ≠ buf) : bio'.bcache other = bio.bcache other := by
  unfold bwrite at written
  dsimp only at written
  split at written
  · cases written
  · cases written
    rw [wdWrite_others _ ne, setFlags, setBuf_bcache_of_ne _ _ ne]

/-- The buffer has one reference less and is neither busy nor wanted. -/
def dropRef (bio : Bio) (buf : BufId) : Bio :=
  (bio.setFlags buf fun flags => { flags with wanted := false, busy := false }).setBuf buf
    fun old => { old with refCount := old.refCount - 1 }

theorem dropRef_others (bio : Bio) {buf other : BufId} (ne : other ≠ buf) :
    (bio.dropRef buf).bcache other = bio.bcache other := by
  simp [dropRef, setFlags, setBuf_bcache_of_ne _ _ ne]

/-- Everything a call of `brelse` can come to, short of a panic. -/
theorem brelse_cases {bio bio' : Bio} {buf : BufId} (released : bio.brelse buf = .ok bio') :
    (1 < (bio.bcache buf).refCount ∧ bio' = bio.dropRef buf) ∨
      ((bio.bcache buf).refCount = 1 ∧ ∃ stored,
        ((bio.bcache buf).flags.dirty = true ∧ (bio.dropRef buf).bwrite buf = .ok stored ∨
          (bio.bcache buf).flags.dirty = false ∧ stored = bio.dropRef buf) ∧
        bio' = { stored with bfreelist := stored.bfreelist.pushBack buf }) := by
  have dropped : (bio.dropRef buf).bcache buf =
      { bio.bcache buf with
          flags := { (bio.bcache buf).flags with wanted := false, busy := false },
          refCount := (bio.bcache buf).refCount - 1 } := by
    simp [dropRef, setFlags]
  unfold brelse at released
  dsimp only at released
  change (if (((bio.setFlags buf _).bcache buf).refCount = 0) then _ else _) = _ at released
  have kept : ((bio.setFlags buf fun flags =>
      { flags with wanted := false, busy := false }).bcache buf).refCount =
        (bio.bcache buf).refCount := by
    simp [setFlags]
  rw [kept] at released
  split at released
  · cases released
  rename_i referenced
  change (if (((bio.dropRef buf).bcache buf).refCount = 0) then _ else _) = _ at released
  split at released
  · rename_i last
    rw [dropped] at last
    dsimp only at last
    refine Or.inr ⟨by omega, ?_⟩
    change (do
      let bio ← if ((bio.dropRef buf).bcache buf).flags.dirty then (bio.dropRef buf).bwrite buf
        else .ok (bio.dropRef buf)
      if (bio.bcache buf).flags.dirty then return bio
      else return { bio with bfreelist := bio.bfreelist.pushBack buf }) = _ at released
    by_cases dirty : (bio.bcache buf).flags.dirty = true
    · rw [if_pos (by rw [dropped]; exact dirty)] at released
      cases written : (bio.dropRef buf).bwrite buf with
      | error panic =>
          rw [written] at released
          cases released
      | ok stored =>
          rw [written] at released
          change (if (stored.bcache buf).flags.dirty then _ else _) = _ at released
          rw [if_neg (by simp [(keeps_bwrite written).2])] at released
          cases released
          exact ⟨stored, Or.inl ⟨dirty, rfl⟩, rfl⟩
    · rw [if_neg (by rw [dropped]; exact dirty)] at released
      change (if ((bio.dropRef buf).bcache buf).flags.dirty then _ else _) = _ at released
      rw [if_neg (by rw [dropped]; exact dirty)] at released
      cases released
      exact ⟨_, Or.inr ⟨by simpa using dirty, rfl⟩, rfl⟩
  · rename_i more
    rw [dropped] at more
    dsimp only at more
    cases released
    exact Or.inl ⟨by omega, rfl⟩

/-- The messages with which the buffer cache stops the kernel. -/
def panics : List Panic :=
  [.getblk, .noBuffersFree, .breadNoReadFunction, .bwriteNoWriteFunction, .badRefCount]

/-- `brelse` gives up one reference of a referenced buffer. -/
theorem brelse_ok {bio bio' : Bio} {buf : BufId} (wellFormed : bio.WellFormed)
    (released : bio.brelse buf = .ok bio') :
    bio'.WellFormed ∧ (bio'.bcache buf).refCount + 1 = (bio.bcache buf).refCount ∧
      ∀ other, other ≠ buf → bio'.bcache other = bio.bcache other := by
  have dropped : (bio.dropRef buf).bcache buf =
      { bio.bcache buf with
          flags := { (bio.bcache buf).flags with wanted := false, busy := false },
          refCount := (bio.bcache buf).refCount - 1 } := by
    simp [dropRef, setFlags]
  rcases brelse_cases released with ⟨shared, rfl⟩ | ⟨last, stored, storedEq, rfl⟩
  · have others : ∀ other, other ≠ buf → (bio.dropRef buf).bcache other = bio.bcache other :=
      fun _ ne => dropRef_others bio ne
    refine ⟨wellFormed.of_changed others ?_ ?_ ?_, by rw [dropped]; dsimp only; omega, others⟩
    · rcases wellFormed.free with ⟨elems, represents, mem_iff⟩
      refine ⟨elems, represents, fun other => ?_⟩
      rw [mem_iff other]
      rcases eq_or_ne other buf with rfl | ne
      · rw [dropped]
        dsimp only
        omega
      · rw [others other ne]
    · rw [dropped]
      dsimp only
      omega
    · intro other ne used
      rw [dropped] at used ⊢
      exact wellFormed.ne_block ne used
  · have keeps : (bio.dropRef buf).Keeps stored := by
      rcases storedEq with ⟨_, written⟩ | ⟨_, rfl⟩
      · exact (keeps_bwrite written).1
      · exact Keeps.rfl _
    have clean : (stored.bcache buf).flags.dirty = false := by
      rcases storedEq with ⟨_, written⟩ | ⟨clean, rfl⟩
      · exact (keeps_bwrite written).2
      · rw [dropped]
        exact clean
    have others : ∀ other, other ≠ buf → stored.bcache other = bio.bcache other := by
      intro other ne
      rcases storedEq with ⟨_, written⟩ | ⟨_, rfl⟩
      · rw [bwrite_others written ne, dropRef_others bio ne]
      · exact dropRef_others bio ne
    have unreferenced : (stored.bcache buf).refCount = 0 := by
      rw [keeps.refCount, dropped]
      dsimp only
      omega
    refine ⟨wellFormed.of_changed others ?_ ?_ ?_, by dsimp only; omega, others⟩
    · have referenced : (bio.bcache buf).refCount ≠ 0 := by omega
      rcases free_pushBack wellFormed referenced with ⟨elems, represents, mem_iff⟩
      refine ⟨elems, by rw [keeps.bfreelist]; exact represents, fun other => ?_⟩
      rw [mem_iff other]
      rcases eq_or_ne other buf with rfl | ne
      · simp [unreferenced]
      · simp [others other ne, ne]
    · intro _
      exact ⟨clean, keeps.busy buf (by rw [dropped])⟩
    · intro other ne used
      dsimp only at used ⊢
      rw [keeps.dev, dropped] at used
      rw [keeps.dev, keeps.blockNo, dropped]
      exact wellFormed.ne_block ne used

/-- Setting `B_DIRTY` is harmless in a buffer that somebody holds. -/
theorem WellFormed.setDirty {bio : Bio} {buf : BufId} (wellFormed : bio.WellFormed)
    (referenced : (bio.bcache buf).refCount ≠ 0) :
    (bio.setFlags buf fun flags => { flags with dirty := true }).WellFormed := by
  have own : (bio.setFlags buf fun flags => { flags with dirty := true }).bcache buf =
      { bio.bcache buf with flags := { (bio.bcache buf).flags with dirty := true } } := by
    simp [setFlags]
  refine wellFormed.of_changed (fun other (ne : other ≠ buf) => setBuf_bcache_of_ne _ _ ne) ?_ ?_ ?_
  · rcases wellFormed.free with ⟨elems, represents, mem_iff⟩
    refine ⟨elems, represents, fun other => ?_⟩
    rw [mem_iff other]
    rcases eq_or_ne other buf with rfl | ne
    · rw [own]
    · rw [setFlags, setBuf_bcache_of_ne _ _ ne]
  · rw [own]
    exact fun unreferenced => absurd unreferenced referenced
  · intro other ne used
    rw [own] at used ⊢
    exact wellFormed.ne_block ne used

/-- `buf_init` after a prefix of its loop: the list holds the buffers seen so far. -/
theorem bufInit_foldl {bio : Bio} (bufs seen : List BufId) (nodup : (seen ++ bufs).Nodup)
    (represents : bio.bfreelist.Represents seen)
    (ready : ∀ buf ∈ seen, (bio.bcache buf).flags = .none ∧ (bio.bcache buf).dev = -1) :
    (bufs.foldl bufInitOne bio).bfreelist.Represents (seen ++ bufs) ∧
      ∀ buf, ((bufs.foldl bufInitOne bio).bcache buf).refCount = (bio.bcache buf).refCount ∧
        (buf ∈ seen ++ bufs → ((bufs.foldl bufInitOne bio).bcache buf).flags = .none ∧
          ((bufs.foldl bufInitOne bio).bcache buf).dev = -1) := by
  induction bufs generalizing bio seen with
  | nil => simpa using ⟨represents, ready⟩
  | cons buf rest ih =>
      have fresh : buf ∉ seen := by
        rw [List.nodup_append] at nodup
        exact fun member => nodup.2.2 buf member buf (by simp) rfl
      have own : (bio.bufInitOne buf).bcache buf =
          { bio.bcache buf with flags := .none, dev := -1 } := by
        simp [bufInitOne]
      have others : ∀ other, other ≠ buf →
          (bio.bufInitOne buf).bcache other = bio.bcache other :=
        fun other ne => setBuf_bcache_of_ne _ _ ne
      have step := @ih (bio.bufInitOne buf) (seen ++ [buf]) (by simpa using nodup)
        (Links.represents_pushBack represents fresh) ?_
      · rw [List.foldl_cons]
        refine ⟨by simpa using step.1, fun other => ⟨?_, by simpa using (step.2 other).2⟩⟩
        rw [(step.2 other).1]
        rcases eq_or_ne other buf with rfl | ne
        · rw [own]
        · rw [others other ne]
      · intro other member
        rcases eq_or_ne other buf with rfl | ne
        · simp [own]
        · rw [others other ne]
          exact ready other (by simpa [ne] using member)

theorem bufInit_represents (bio : Bio) :
    bio.bufInit.bfreelist.Represents (List.finRange nbuf) ∧
      ∀ buf, (bio.bufInit.bcache buf).refCount = (bio.bcache buf).refCount ∧
        (bio.bufInit.bcache buf).flags = .none ∧ (bio.bufInit.bcache buf).dev = -1 := by
  have init := @bufInit_foldl { bio with bfreelist := Links.empty }
    (List.finRange nbuf) [] (by simpa using List.nodup_finRange nbuf)
    Links.represents_empty (by simp)
  exact ⟨init.1, fun buf => ⟨(init.2 buf).1, (init.2 buf).2 (by simp)⟩⟩

theorem bufInit_device (bio : Bio) :
    bio.bufInit.disk = bio.disk ∧ bio.bufInit.online = bio.online := by
  have unchanged : ∀ (bufs : List BufId) (start : Bio),
      (bufs.foldl bufInitOne start).disk = start.disk ∧
        (bufs.foldl bufInitOne start).online = start.online := by
    intro bufs
    induction bufs with
    | nil => exact fun _ => ⟨rfl, rfl⟩
    | cons buf rest ih => exact fun start => ih (start.bufInitOne buf)
  exact unchanged _ _

/-- `bcache` is static storage, so all reference counts are zero when `buf_init` runs. -/
theorem wellFormed_bufInit {bio : Bio} (zeroed : ∀ buf, (bio.bcache buf).refCount = 0) :
    bio.bufInit.WellFormed := by
  rcases bufInit_represents bio with ⟨represents, all⟩
  refine ⟨⟨_, represents, fun buf => by simp [(all buf).1, zeroed buf]⟩, ?_, ?_⟩
  · intro buf _
    simp [(all buf).2.1, BufFlags.none]
  · intro left right used
    exact absurd (all left).2.2 used

end Bio

end Osix
