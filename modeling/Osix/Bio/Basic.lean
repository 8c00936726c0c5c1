import Osix.Basic
import Osix.Lib.CircularList
import Mathlib.Data.List.FinRange

/-!
# The buffer cache

This file embeds `sys/kern/bio.c` without the zone allocator: `getblk`, `bread`,
`bwrite`, `brelse`, `iodone` and `buf_init`.

Below the cache stands a block device, reached through `bdevsw`: a map from device and
block number to the block's contents. A write takes effect at once and its completion,
`iodone`, arrives later; a read puts the caller to sleep until the interrupt handler has
copied the block into the buffer. `online` says for which devices the driver starts a
transfer; for the others it only sets `B_ERROR` and calls `iodone`.

Every function below runs without a process switch. A caller that has to sleep gets
`Getblk.sleep` or `ReadStatus.asleep` as the answer.
-/

namespace Osix

open CircularList

/-- The bits of `flags` in `struct buf`. -/
structure BufFlags where
  done : Bool
  error : Bool
  busy : Bool
  wanted : Bool
  dirty : Bool
deriving DecidableEq

/-- `flags = 0`. -/
def BufFlags.none : BufFlags := ⟨false, false, false, false, false⟩

/-- `struct buf` without its links, which `Bio.bfreelist` holds for all buffers. -/
structure Buf where
  dev : Dev
  blockNo : ℕ
  flags : BufFlags
  refCount : ℕ
  data : Block

/-- An index into `bcache`, which stands for a `struct buf *`. -/
abbrev BufId := Fin nbuf

/-- The buffer cache and the block device below it. -/
structure Bio where
  bcache : BufId → Buf
  bfreelist : Links BufId
  disk : Dev → ℕ → Block
  online : Dev → Bool

/-- What a call of `getblk` comes to: the caller sleeps on a busy buffer, or owns one. -/
inductive Getblk where
  | sleep (buf : BufId) (bio : Bio)
  | found (buf : BufId) (bio : Bio)

/-- What `bdevsw[major(dev)].read` comes to: the caller sleeps, or goes on at once. -/
inductive ReadStatus where
  | asleep
  | returned
deriving DecidableEq

namespace Bio

def setBuf (bio : Bio) (buf : BufId) (change : Buf → Buf) : Bio :=
  { bio with bcache := Function.update bio.bcache buf (change (bio.bcache buf)) }

def setFlags (bio : Bio) (buf : BufId) (change : BufFlags → BufFlags) : Bio :=
  bio.setBuf buf fun old => { old with flags := change old.flags }

def iodone (bio : Bio) (buf : BufId) : Bio :=
  bio.setFlags buf fun flags => { flags with done := true, wanted := false }

/-- `wd_read` up to the point where it sleeps. -/
def wdRead (bio : Bio) (buf : BufId) : ReadStatus × Bio :=
  if bio.online (bio.bcache buf).dev then
    (.asleep, bio)
  else
    (.returned, (bio.setFlags buf fun flags => { flags with error := true }).iodone buf)

/-- The interrupt that ends a read: the block is in the buffer, then `iodone`. -/
def readIntr (bio : Bio) (buf : BufId) : Bio :=
  (bio.setBuf buf fun old => { old with data := bio.disk old.dev old.blockNo }).iodone buf

/-- `wd_write`: it returns when the drive has taken the data. -/
def wdWrite (bio : Bio) (buf : BufId) : Bio :=
  let old := bio.bcache buf
  if bio.online old.dev then
    let blocks := Function.update (bio.disk old.dev) old.blockNo old.data
    { bio with disk := Function.update bio.disk old.dev blocks }
  else
    (bio.setFlags buf fun flags => { flags with error := true }).iodone buf

def bwrite (bio : Bio) (buf : BufId) : Except Panic Bio :=
  let bio := bio.setFlags buf fun flags =>
    { flags with dirty := false, done := false, error := false }
  if numBdev ≤ major (bio.bcache buf).dev then
    .error .bwriteNoWriteFunction
  else
    .ok (bio.wdWrite buf)

/-- The first buffer in `bcache` order that holds the block. -/
def find (bio : Bio) (dev : Dev) (blockNo : ℕ) : Option BufId :=
  (List.finRange nbuf).find? fun buf =>
    decide ((bio.bcache buf).dev = dev ∧ (bio.bcache buf).blockNo = blockNo)

/-- `getblk` when the block is in the cache. -/
def getblkHit (bio : Bio) (buf : BufId) : Getblk :=
  let old := bio.bcache buf
  if old.flags.busy then
    .sleep buf (bio.setFlags buf fun flags => { flags with wanted := true })
  else
    let links := if old.refCount = 0 then bio.bfreelist.unlink buf else bio.bfreelist
    .found buf ({ bio with bfreelist := links }.setBuf buf fun old =>
      { old with refCount := old.refCount + 1 })

/-- `getblk` when the block is not in the cache: reuse the first free buffer. -/
def getblkMiss (bio : Bio) (dev : Dev) (blockNo : ℕ) : Except Panic Getblk :=
  match bio.bfreelist.next none with
  | none => .error .noBuffersFree
  | some buf => do
      let bio ← if (bio.bcache buf).flags.dirty then bio.bwrite buf else .ok bio
      let bio := bio.setBuf buf fun old =>
        { old with dev := dev, blockNo := blockNo,
                   flags := { BufFlags.none with busy := true }, refCount := 1 }
      return .found buf { bio with bfreelist := bio.bfreelist.unlink buf }

/--
One pass of `getblk`. The search restarts from the first buffer after a sleep, so a
caller that was put to sleep calls this again.
-/
def getblk (bio : Bio) (dev : Dev) (blockNo : ℕ) : Except Panic Getblk :=
  if numBdev ≤ major dev then
    .error .getblk
  else
    match bio.find dev blockNo with
    | some buf => .ok (bio.getblkHit buf)
    | none => bio.getblkMiss dev blockNo

/-- The rest of `bread` once `getblk` has returned `buf`. -/
def breadFound (bio : Bio) (dev : Dev) (buf : BufId) : Except Panic (ReadStatus × Bio) :=
  if (bio.bcache buf).flags.done then
    .ok (.returned, bio)
  else
    let bio := bio.setFlags buf fun flags => { flags with error := false }
    if numBdev ≤ major dev then
      .error .breadNoReadFunction
    else
      .ok (bio.wdRead buf)

def brelse (bio : Bio) (buf : BufId) : Except Panic Bio := do
  let bio := bio.setFlags buf fun flags => { flags with wanted := false, busy := false }
  if (bio.bcache buf).refCount = 0 then
    throw .badRefCount
  let bio := bio.setBuf buf fun old => { old with refCount := old.refCount - 1 }
  if (bio.bcache buf).refCount = 0 then
    let bio ← if (bio.bcache buf).flags.dirty then bio.bwrite buf else .ok bio
    if (bio.bcache buf).flags.dirty then
      return bio
    else
      return { bio with bfreelist := bio.bfreelist.pushBack buf }
  else
    return bio

/-- One round of the loop in `buf_init`. -/
def bufInitOne (bio : Bio) (buf : BufId) : Bio :=
  { bio with bfreelist := bio.bfreelist.pushBack buf }.setBuf buf fun old =>
    { old with flags := .none, dev := -1 }

def bufInit (bio : Bio) : Bio :=
  (List.finRange nbuf).foldl bufInitOne { bio with bfreelist := Links.empty }

end Bio

end Osix
