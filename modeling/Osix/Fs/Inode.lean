import Osix.Fs.Basic

/-!
# Inodes and their blocks

The code of `sys/kern/inode.c` below path names and of the zone allocator in
`sys/kern/bio.c`, together with the character device functions that `readi` and `writei`
call: `tty_read` and `tty_write` of `sys/kern/tty.c` and the null and zero devices of
`sys/i386/conf.c`.

A process is passed as `p` where the source uses `cur_proc`. The source's tests for a
`NULL` inode are left out where the caller has just got the inode from `iget`, which
never returns `NULL`.
-/

namespace Osix

open Program

variable {H : Type}

namespace Fs

/-! ## Operations as programs -/

def getCore : FsM H Core := .perform FsOp.core
def getInode (i : InodeId) : FsM H Inode := do return (← getCore).inodes i
def getFile (f : FileId) : FsM H File := do return (← getCore).files f
def getProc (p : ProcId) : FsM H Proc := do return (← getCore).procs p
def setData (i : InodeId) (change : InodeData → InodeData) : FsM H Unit :=
  .perform (FsOp.setData i change)
def setDirty (i : InodeId) (dirty : Bool) : FsM H Unit := .perform (FsOp.setDirty i dirty)
def setFile (f : FileId) (change : File → File) : FsM H Unit := .perform (FsOp.setFile f change)
def setProc (p : ProcId) (change : Proc → Proc) : FsM H Unit := .perform (FsOp.setProc p change)
def setPipe (p : PipeId) (change : Pipe → Pipe) : FsM H Unit := .perform (FsOp.setPipe p change)
def setTty (t : TtyId) (change : Tty → Tty) : FsM H Unit := .perform (FsOp.setTty t change)
def putchar (dev : Dev) (char : Byte) : FsM H ℤ := .perform (FsOp.putchar dev char)
def bread (dev : Dev) (blockNo : ℕ) : FsM H H := .perform (FsOp.bread dev blockNo)
def bdata (buf : H) : FsM H Block := .perform (FsOp.bdata buf)
def bstore (buf : H) (change : Block → Block) : FsM H Unit := .perform (FsOp.bstore buf change)
def bdirty (buf : H) : FsM H Unit := .perform (FsOp.bdirty buf)
def bwrite (buf : H) : FsM H Unit := .perform (FsOp.bwrite buf)
def brelse (buf : H) : FsM H Unit := .perform (FsOp.brelse buf)
def ifind (dev : Dev) (inodeno : ℕ) : FsM H (InodeId × Bool) := .perform (FsOp.ifind dev inodeno)
def ilock (i : InodeId) : FsM H Unit := .perform (FsOp.ilock i)
def iunlock (i : InodeId) : FsM H Unit := .perform (FsOp.iunlock i)
def idup (i : InodeId) : FsM H Unit := .perform (FsOp.idup i)
def iunref (i : InodeId) : FsM H Bool := .perform (FsOp.iunref i)
def sleep (chan : Chan) : FsM H Unit := .perform (FsOp.sleep chan)
def mark (event : Event) : FsM H Unit := .perform (FsOp.mark event)
def stop {α : Type} (why : Stop) : FsM H α := .op (FsOp.stop why) Empty.elim
def panic {α : Type} (message : Panic) : FsM H α := stop (.panic message)
def fault {α : Type} : FsM H α := stop .fault

/-! ## The zone allocator -/

/-- The loop of `balloc` over the blocks of the zone map. -/
def ballocLoop (dev : Dev) : ℕ → ℕ → ℕ → FsM H ℕ
  | 0, _, _ => do
      mark .noZone
      return 0
  | blocks + 1, zmapBlock, blockNo => do
      let buf ← bread dev zmapBlock
      match (← bdata buf).firstClear with
      | some bit =>
          bstore buf fun zmap => zmap.setBit bit
          bwrite buf
          brelse buf
          return toUint (blockNo + bit)
      | none =>
          brelse buf
          ballocLoop dev blocks (zmapBlock + 1) (blockNo + blockBits)

def balloc (dev : Dev) : FsM H ℕ := do
  let super := (← getCore).super
  ballocLoop dev super.zmapBlocks (2 + super.imapBlocks) (toUint (super.firstdatazone - 1))

def bfree (dev : Dev) (blockNo : ℕ) : FsM H Unit := do
  let super := (← getCore).super
  if blockNo < 1 ∨ super.nzones < blockNo then
    panic .bfreeBadBlockNo
  else
    let zoneIndex := toUint (blockNo - super.firstdatazone + 1)
    let bit := zoneIndex % blockBits
    let buf ← bread dev (zoneIndex / blockBits + (2 + super.imapBlocks))
    if (← bdata buf).getBit bit then
      bstore buf fun zmap => zmap.clearBit bit
      bwrite buf
      brelse buf
    else
      panic .bfreeBlockNotAllocated

/-! ## Inode records -/

/-- `inode_block`. -/
def inodeBlock (super : Super) (inodeno : ℕ) : ℕ :=
  firstBlk + super.imapBlocks + super.zmapBlocks + toUint (inodeno - 1) / inodesPerBlock

/-- `inode_offset`. -/
def inodeOffset (inodeno : ℕ) : ℕ := toUint (inodeno - 1) % inodesPerBlock

/-- `iget`; `ifind` has searched the cache and, for an uncached inode, reserved a slot. -/
def iget (dev : Dev) (inodeno : ℕ) : FsM H InodeId := do
  let (i, cached) ← ifind dev inodeno
  if cached then
    return i
  else
    let super := (← getCore).super
    let buf ← bread dev (inodeBlock super inodeno)
    let data ← bdata buf
    setData i fun _ => .ofDisk data (inodeOffset inodeno)
    brelse buf
    iunlock i
    return i

def iupdate (i : InodeId) : FsM H Unit := do
  let core ← getCore
  let node := core.inodes i
  if node.dirty then
    let index := inodeOffset node.inodeno
    let buf ← bread node.dev (inodeBlock core.super node.inodeno)
    let node ← getInode i
    bstore buf fun data => data.copy (index * 32) node.toDisk
    setDirty i false
    bwrite buf
    brelse buf
  else
    return ()

/-! ## Blocks of an inode -/

/-- The indirect part of `bmap` once the inode has an indirect zone. -/
def bmapIndirect (i : InodeId) (entry : ℕ) : FsM H ℕ := do
  let node ← getInode i
  if node.indirect ≠ 0 then
    let buf ← bread node.dev node.indirect
    let data ← bdata buf
    Prog.when (data.get16 (2 * entry) = 0) do
      let zone ← balloc (← getInode i).dev
      bstore buf fun data => data.copy (2 * entry) (bytes16 zone)
      bwrite buf
    let zone := (← bdata buf).get16 (2 * entry)
    brelse buf
    return zone
  else
    return 0

/-- `bmap`; `write` says whether `flags` has `B_WRITE`. -/
def bmap (i : InodeId) (index : ℕ) (write : Bool) : FsM H ℕ := do
  let node ← getInode i
  if !node.lock then
    panic .bmapNotLocked
  else if isDirect : index < ndirect then
    Prog.when (write ∧ node.direct ⟨index, isDirect⟩ = 0) do
      let zone ← balloc node.dev
      setData i fun old =>
        { old with direct := Function.update old.direct ⟨index, isDirect⟩ (toUshort zone) }
      setDirty i true
    let zone := (← getInode i).direct ⟨index, isDirect⟩
    mark (.bmapped i index zone)
    return zone
  else if index < ndirect + nindirect then
    Prog.when (write ∧ node.indirect = 0) do
      let zone ← balloc node.dev
      setData i fun old => { old with indirect := toUshort zone }
      setDirty i true
      mark (.freshIndirect node.dev (toUshort zone))
    let zone ← bmapIndirect i (index - ndirect)
    mark (.bmapped i index zone)
    return zone
  else
    panic .doubleIndirect

/-! ## Character devices -/

/-- The value of a `char` as an `int`. -/
def signedChar (char : Byte) : ℤ := char.toInt

/-- `tty_write`; the console and the serial lines are the devices with a `putchar`. -/
def ttyWrite (dev : Dev) : List Byte → ℤ → FsM H ℤ
  | [], count => return count
  | char :: rest, count => do
      let len ← putchar dev char
      if len < 0 then
        return len
      else
        ttyWrite dev rest count

/-- The entry of `ttys` for a device of `cdevsw` with terminals, if it is in the table. -/
def ttyOf (dev : Dev) : Option TtyId :=
  let index := (minor dev).toNat + if major dev = 3 then 1 else 0
  if inTable : index < ntty then some ⟨index, inTable⟩ else none

/-- Echoes bytes when the terminal is in echo mode. -/
def ttyEcho (t : TtyId) (dev : Dev) (bytes : List Byte) : FsM H Unit := do
  if ((← getCore).ttys t).echo then
    let _ ← ttyWrite dev bytes bytes.length
    return ()
  else
    return ()

/-- `"\b \b"`. -/
def rubout : List Byte := [8, 32, 8]

/-- The loops of CTRL-w: moves back while the character at the position satisfies `kill`. -/
def ttyKill (t : TtyId) (dev : Dev) (dest : ℕ → Byte) (kill : Byte → Bool) : ℕ → FsM H ℕ
  | 0 => return 0
  | pos + 1 => do
      if kill (dest (pos + 1)) then
        ttyEcho t dev rubout
        ttyKill t dev dest kill pos
      else
        return pos + 1

/-- The loop of CTRL-u. -/
def ttyKillLine (t : TtyId) (dev : Dev) : ℕ → FsM H Unit
  | 0 => return ()
  | pos + 1 => do
      ttyEcho t dev rubout
      ttyKillLine t dev pos

/-- The next state of the line in `tty_read`, or its return value. -/
inductive TtyLine where
  | more (dest : ℕ → Byte) (pos : ℕ)
  | ends (dest : ℕ → Byte) (pos : ℕ)
  | empty

/-- The body of the loop in `tty_read` in canonical mode, for a character already taken. -/
def ttyChar (t : TtyId) (dev : Dev) (dest : ℕ → Byte) (pos : ℕ) (char : Byte) :
    FsM H TtyLine := do
  if char = 127 ∨ char = 8 then
    if 0 < pos then
      ttyEcho t dev rubout
      return .more (Function.update dest (pos - 1) 0) (pos - 1)
    else
      return .more dest pos
  else if char = 23 then
    if 0 < pos then
      ttyEcho t dev rubout
      let pos ← ttyKill t dev dest (· = 32) (pos - 1)
      let pos ← ttyKill t dev dest (· ≠ 32) pos
      return .more dest pos
    else
      return .more dest pos
  else if char = 21 then
    ttyKillLine t dev pos
    return .more dest 0
  else if char = 12 then
    if pos = 0 then
      ttyEcho t dev [27, 91, 72]
      ttyEcho t dev [27, 91, 50, 74]
      return .ends dest pos
    else
      return .more dest pos
  else if char = 4 then
    return .empty
  else
    ttyEcho t dev [char]
    return .more (Function.update dest pos char) (pos + 1)

/-- The bytes at the front of a user buffer. -/
def userBytes (dest : ℕ → Byte) (count : ℕ) : List Byte := (List.range count).map dest

/-- The loop of `tty_read`. -/
def ttyReadLoop (p : ProcId) (i : InodeId) (t : TtyId) (dev : Dev) (count : ℕ) :
    ℕ → (ℕ → Byte) → ℕ → Byte → FsM H (ℤ × List Byte)
  | 0, _, _, _ => stop .outOfPatience
  | rounds + 1, dest, pos, char => do
      if count ≤ pos ∨ char = 13 ∨ char = 10 then
        return (pos, userBytes dest pos)
      else
        let core ← getCore
        let tty := core.ttys t
        if tty.rxHead = tty.rxTail then
          if (core.procs p).signalPending then
            return (-eintr, [])
          else
            iunlock i
            sleep (.tty t)
            ilock i
            ttyReadLoop p i t dev count rounds dest pos char
        else
          setTty t fun old => { old with rxTail := old.rxTail + 1 }
          let char := tty.rxBuf tty.rxTail
          if tty.icanon then
            let char := if char = 13 then 10 else char
            match ← ttyChar t dev dest pos char with
            | .more dest pos => ttyReadLoop p i t dev count rounds dest pos char
            | .ends dest pos => return (pos, userBytes dest pos)
            | .empty => return (0, [])
          else
            return (pos + 1, userBytes (Function.update dest pos char) (pos + 1))

def ttyRead (p : ProcId) (i : InodeId) (dev : Dev) (count : ℕ) : FsM H (ℤ × List Byte) := do
  match ttyOf dev with
  | none => fault
  | some t =>
      let core ← getCore
      setTty t fun old => { old with pgrp := (core.procs p).pgrp }
      ttyReadLoop p i t dev count core.patience (fun _ => 0) 0 0

/-- `cdevsw[major(dev)].read`. -/
def cdevRead (p : ProcId) (i : InodeId) (dev : Dev) (count : ℕ) : FsM H (ℤ × List Byte) :=
  if major dev = 0 then
    return (0, [])
  else if major dev = 1 ∨ major dev = 3 then
    ttyRead p i dev count
  else if major dev = 2 then
    return (toLong count, List.replicate count 0)
  else
    return (-enodev, [])

/-- `cdevsw[major(dev)].write`. -/
def cdevWrite (dev : Dev) (src : List Byte) : FsM H ℤ :=
  if major dev = 0 ∨ major dev = 2 then
    return 0
  else if major dev = 1 ∨ major dev = 3 then
    ttyWrite dev src (toLong src.length)
  else
    return -enodev

/-! ## Reading and writing -/

/-- The loop of `readi` for a block device. -/
def readiBlockDev (dev : Dev) : ℕ → ℕ → ℤ → ℕ → FsM H (List Byte)
  | 0, _, _, _ => return []
  | rounds + 1, blockNo, offset, nbytes => do
      if nbytes = 0 then
        return []
      else
        let buf ← bread dev blockNo
        if offset < 0 then
          fault
        else
          let segSize := min (blockSize - offset.toNat) nbytes
          let bytes := (← bdata buf).bytes offset.toNat segSize
          brelse buf
          let rest ← readiBlockDev dev rounds (toUint (blockNo + 1)) 0 (nbytes - segSize)
          return bytes ++ rest

/-- The loop of `readi` for regular files and directories. -/
def readiLoop (i : InodeId) : ℕ → ℕ → ℤ → ℕ → FsM H (List Byte)
  | 0, _, _, _ => return []
  | rounds + 1, bindex, offset, remaining => do
      if remaining = 0 then
        return []
      else
        let blockNo ← bmap i bindex false
        let buf ← bread (← getInode i).dev blockNo
        if offset < 0 then
          fault
        else
          let segSize := min (blockSize - offset.toNat) remaining
          let bytes := (← bdata buf).bytes offset.toNat segSize
          brelse buf
          let rest ← readiLoop i rounds (toUint (bindex + 1)) 0 (remaining - segSize)
          return bytes ++ rest

/-- `readi`, with the bytes it stores at `dst`. -/
def readi (p : ProcId) (i : InodeId) (offset : ℤ) (nbytes : ℕ) : FsM H (ℤ × List Byte) := do
  let node ← getInode i
  if !node.lock then
    panic .readiNotLocked
  else if fileType node.mode = sIfchr then
    cdevRead p i (toShort (node.direct 0)) nbytes
  else if fileType node.mode = sIfblk then
    let bytes ← readiBlockDev (toShort (node.direct 0)) nbytes
      (toUint (offset.tdiv blockSize + 1)) (offset.tmod blockSize) nbytes
    return (toLong nbytes, bytes)
  else if node.size < offset then
    return (-einval, [])
  else
    let nbytes :=
      if node.size < toLong (offset + nbytes) then toUint (node.size - offset) else nbytes
    let remaining := (toLong nbytes).toNat
    let bytes ← readiLoop i remaining (toUint (offset.tdiv blockSize)) (offset.tmod blockSize)
      remaining
    return (toLong nbytes, bytes)

/-- The loop of `writei`. -/
def writeiLoop (i : InodeId) : ℕ → ℕ → ℕ → List Byte → FsM H Unit
  | 0, _, _, _ => return ()
  | rounds + 1, bindex, offset, src => do
      if src = [] then
        return ()
      else
        let blockNo ← bmap i bindex true
        let segSize := min (blockSize - offset) src.length
        let dev := (← getInode i).dev
        mark (.writesData dev blockNo)
        let buf ← bread dev blockNo
        bstore buf fun data => data.copy offset (src.take segSize)
        bwrite buf
        brelse buf
        writeiLoop i rounds (toUint (bindex + 1)) 0 (src.drop segSize)

/-- `writei` of the bytes at `src`. -/
def writei (i : InodeId) (src : List Byte) (offset : ℕ) : FsM H ℤ := do
  let node ← getInode i
  if !node.lock then
    panic .writeiNotLocked
  else if fileType node.mode = sIfchr then
    cdevWrite (toShort (node.direct 0)) src
  else if fileType node.mode = sIfblk then
    panic .writeiBlockDev
  else if fileType node.mode = sIfifo then
    panic .writeiFifo
  else
    writeiLoop i src.length (offset / blockSize) (offset % blockSize) src
    let size := toLong (offset + src.length)
    let node ← getInode i
    Prog.when (node.size < size) do
      setData i fun old => { old with size := size }
      setDirty i true
    return toLong src.length

/-! ## Releasing inodes -/

/-- The loop of `itrunc` over the direct zones. -/
def itruncDirect (i : InodeId) : List (Fin ndirect) → FsM H Unit
  | [] => return ()
  | zone :: rest => do
      let node ← getInode i
      Prog.when (node.direct zone ≠ 0) do
        bfree node.dev (node.direct zone)
        setData i fun old => { old with direct := Function.update old.direct zone 0 }
      itruncDirect i rest

/-- The loop of `itrunc` over the entries of the indirect block. -/
def itruncEntries (i : InodeId) (buf : H) : List ℕ → FsM H Unit
  | [] => return ()
  | entry :: rest => do
      let zone := (← bdata buf).get16 (2 * entry)
      Prog.when (zone ≠ 0) do
        bfree (← getInode i).dev zone
      itruncEntries i buf rest

def itrunc (i : InodeId) : FsM H Unit := do
  if !(← getInode i).lock then
    panic .itrunc
  else
    itruncDirect i (List.finRange ndirect)
    let node ← getInode i
    Prog.when (node.indirect ≠ 0) do
      let buf ← bread node.dev node.indirect
      itruncEntries i buf (List.range nindirect)
      brelse buf
      let node ← getInode i
      bfree node.dev node.indirect
      setData i fun old => { old with indirect := 0 }
    setData i fun old => { old with size := 0 }
    setDirty i true
    iupdate i

def ifree (dev : Dev) (inodeno : ℕ) : FsM H Unit := do
  let super := (← getCore).super
  if inodeno < 1 then
    panic .ifreeBadInodeno
  else if super.imapBlocks ≤ (inodeno - 1) / blockBits then
    panic .ifreeOutOfRange
  else
    let bit := (inodeno - 1) % blockBits
    let buf ← bread dev ((inodeno - 1) / blockBits + 2)
    if (← bdata buf).getBit bit then
      bstore buf fun imap => imap.clearBit bit
      bwrite buf
      brelse buf
    else
      panic .ifreeNotAllocated

/-- The part of `iput` for an inode without links that has lost its last reference. -/
def ireclaim (i : InodeId) : FsM H Unit := do
  mark (.uses i)
  ilock i
  itrunc i
  iunlock i
  let node ← getInode i
  ifree node.dev node.inodeno
  setDirty i true
  iupdate i
  mark (.drops i)

def iput (i : InodeId) : FsM H Unit := do
  let last ← iunref i
  Prog.when last do
    let node ← getInode i
    Prog.when (node.nlinks = 0) (ireclaim i)
    mark (.released i)
  mark (.drops i)

def iunlockput (i : InodeId) : FsM H Unit := do
  iunlock i
  iput i

/-! ## Allocating inodes -/

/-- The fields of a new inode. -/
def newInode (core : Core) (p : ProcId) (mode : ℕ) : InodeData where
  mode := toUshort (mode ||| sIfreg : ℕ)
  time := core.pitTime
  nlinks := 0
  size := 0
  uid := (core.procs p).uid
  gid := (core.procs p).gid
  direct := fun _ => 0
  indirect := 0
  dblindirect := 0

/-- The loop of `ialloc` over the blocks of the inode map. -/
def iallocLoop (p : ProcId) (mode : ℕ) : ℕ → ℕ → ℕ → FsM H (Option InodeId)
  | 0, _, _ => return none
  | blocks + 1, imapBlock, inodeno => do
      let buf ← bread rootDev imapBlock
      match (← bdata buf).firstClear with
      | some bit =>
          bstore buf fun imap => imap.setBit bit
          bdirty buf
          brelse buf
          let i ← iget rootDev (inodeno + bit)
          mark (.newInode i)
          let core ← getCore
          setData i fun _ => newInode core p mode
          setDirty i true
          return some i
      | none =>
          brelse buf
          iallocLoop p mode blocks (imapBlock + 1) (inodeno + blockBits)

def ialloc (p : ProcId) (mode : ℕ) : FsM H (Option InodeId) := do
  iallocLoop p mode (← getCore).super.imapBlocks 2 1

end Fs

end Osix
