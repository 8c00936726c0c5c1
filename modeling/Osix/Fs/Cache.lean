import Osix.Fs.Flat

/-!
# The inode cache of one process

Rules for the operations on the inode cache, and for `iget` and `iupdate`, on the machine of
`Fs.Flat`.
-/

namespace Osix

open Program

namespace Flat

open Fs

/-- The slot of an inode that `iget` has read from the disk. -/
def fresh (flat : Flat) (dev : Dev) (inodeno : ℕ) (old : Inode) : Inode :=
  { old.taken dev inodeno with
    toInodeData := .ofDisk (flat.disk dev (inodeBlock flat.core.super inodeno))
      (inodeOffset inodeno)
    lock := false }

variable {ok : Event → Flat → Prop} {allowed : Stop → Flat → Prop} {sleeps : Flat → Prop}
  {flat : Flat}

theorem wp_ifind {dev : Dev} {inodeno : ℕ} {post : InodeId × Bool → Flat → Prop}
    (asleep : ∀ i, flat.core.findInode dev inodeno = some i → (flat.core.inodes i).lock = true →
      sleeps (flat.setInode i fun old => { old with wanted := true }))
    (cached : ∀ i, flat.core.findInode dev inodeno = some i → (flat.core.inodes i).lock = false →
      post (i, true) (flat.setInode i fun old =>
        { old with refcount := old.refcount + 1, wanted := false }))
    (taken : ∀ i, flat.core.findInode dev inodeno = none → flat.core.freeInode = some i →
      post (i, false) (flat.setInode i fun old => old.taken dev inodeno))
    (full : flat.core.findInode dev inodeno = none → flat.core.freeInode = none →
      allowed (.panic .inodeCacheFull) flat) :
    wp (rules ok allowed sleeps) (Fs.ifind dev inodeno) post flat := by
  intro _
  simp only [handler, Core.perform]
  rcases flat.core.ifind_cases dev inodeno with ⟨i, found, locked, isFind⟩ |
    ⟨i, found, unlocked, isFind⟩ | ⟨i, missing, free, isFind⟩ | ⟨missing, noFree, isFind⟩ <;>
    rw [isFind]
  · exact asleep i found locked
  · exact cached i found unlocked
  · exact taken i missing free
  · exact full missing noFree

theorem wp_iget {dev : Dev} {inodeno : ℕ} {post : InodeId → Flat → Prop}
    (asleep : ∀ i, flat.core.findInode dev inodeno = some i → (flat.core.inodes i).lock = true →
      sleeps (flat.setInode i fun old => { old with wanted := true }))
    (cached : ∀ i, flat.core.findInode dev inodeno = some i → (flat.core.inodes i).lock = false →
      post i (flat.setInode i fun old =>
        { old with refcount := old.refcount + 1, wanted := false }))
    (taken : ∀ i, flat.core.findInode dev inodeno = none → flat.core.freeInode = some i →
      post i (flat.setInode i (flat.fresh dev inodeno)))
    (full : flat.core.findInode dev inodeno = none → flat.core.freeInode = none →
      allowed (.panic .inodeCacheFull) flat) :
    wp (rules ok allowed sleeps) (iget dev inodeno) post flat := by
  simp only [iget, wp_bind]
  refine wp_ifind asleep cached (fun i missing free => ?_) full
  simp only [Bool.false_eq_true, if_false, wp_bind, wp_getCore, wp_bread, wp_bdata, wp_setData,
    wp_brelse, wp_iunlock, wp_pure]
  rw [if_pos (by simp [setData, Inode.taken])]
  have isFresh : (((flat.setInode i fun old => old.taken dev inodeno).setData i fun _ =>
      .ofDisk (flat.disk dev (inodeBlock flat.core.super inodeno))
        (inodeOffset inodeno)).setInode i fun old =>
          { old with lock := false, wanted := false }) =
        flat.setInode i (flat.fresh dev inodeno) := by
    simp [setData, setInode, Core.setInode, fresh, Inode.taken]
  have holds := taken i missing free
  rw [← isFresh] at holds
  exact holds

/-! ## Inode records -/

/-- The block of the record of the inode in a slot. -/
def recordBlock (flat : Flat) (i : InodeId) : FlatBuf :=
  ((flat.core.inodes i).dev, inodeBlock flat.core.super (flat.core.inodes i).inodeno)

/-- The state after `iupdate` of an inode that has been changed. -/
def saved (flat : Flat) (i : InodeId) : Flat :=
  (flat.setBlock (flat.recordBlock i)
    ((flat.disk (flat.recordBlock i).1 (flat.recordBlock i).2).copy
      (inodeOffset (flat.core.inodes i).inodeno * 32)
      (flat.core.inodes i).toDisk)).setInode i fun old => { old with dirty := false }

/-- A byte of the record of an inode. -/
def recordByte (flat : Flat) (dev : Dev) (inodeno byte : ℕ) : Byte :=
  flat.disk dev (inodeBlock flat.core.super inodeno) (inodeOffset inodeno * 32 + byte)

section

variable {spec : Spec (FsOp FlatBuf) FsOp.Reply Flat} {allowed : Stop → Flat → Prop}
  [judges : Judges spec allowed] {flat : Flat} {i : InodeId} {post : Unit → Flat → Prop}

include judges

theorem wp_iupdate_iff :
    wp spec (iupdate i) post flat ↔
      if (flat.core.inodes i).dirty then post () (flat.saved i) else post () flat := by
  unfold iupdate
  simp only [wp_bind, wp_getCore]
  split
  · simp only [wp_bind, wp_bread, wp_getInode, wp_bstore, wp_setDirty, wp_bwrite, wp_brelse]
    rfl
  · simp only [wp_pure]

end

theorem exec_iupdate (flat : Flat) (i : InodeId) :
    exec handler (iupdate i) flat =
      .returned () (if (flat.core.inodes i).dirty then flat.saved i else flat) := by
  have judged : wp surely (iupdate i)
      (fun _ flat' => flat' = if (flat.core.inodes i).dirty then flat.saved i else flat) flat := by
    rw [wp_iupdate_iff]
    split <;> rfl
  rcases returns_of_surely judged with ⟨_, _, returned, rfl⟩
  exact returned

/-- An uncached inode is read from the disk. -/
theorem exec_iget_fresh {flat : Flat} {dev : Dev} {inodeno : ℕ} {i : InodeId}
    (missing : flat.core.findInode dev inodeno = none) (free : flat.core.freeInode = some i) :
    exec handler (iget dev inodeno) flat =
      .returned i (flat.setInode i (flat.fresh dev inodeno)) := by
  have judged : wp surely (iget dev inodeno)
      (fun j flat' => j = i ∧ flat' = flat.setInode i (flat.fresh dev inodeno)) flat := by
    refine wp_iget (fun _ isIn => ?_) (fun _ isIn => ?_) (fun j _ isFree => ?_) fun _ noFree => ?_
    · cases missing.symm.trans isIn
    · cases missing.symm.trans isIn
    · cases free.symm.trans isFree
      exact ⟨rfl, rfl⟩
    · cases free.symm.trans noFree
  rcases returns_of_surely judged with ⟨_, _, returned, rfl, rfl⟩
  exact returned

end Flat

end Osix
