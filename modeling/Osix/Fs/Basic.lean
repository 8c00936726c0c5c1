import Osix.Basic
import Osix.Lib.Program
import Mathlib.Data.Fintype.Pi

/-!
# The in-core tables of the file system

The tables of `sys/kern/inode.c`, `file.c`, `proc.c`, `pipe.c` and `tty.c` that the file
system code works on, and the operations out of which that code is built. A pointer into
a table is its index, a pointer that may be `NULL` an `Option` of it.

The code itself is written once, in the modules that follow, as programs over `FsOp`.
What an operation does is left to the machine that runs the program: `Fs.Flat` runs one
system call at a time on a disk without a cache, `Fs.Kernel` runs several processes on
the buffer cache. `H` is the machine's type of buffer pointers.
-/

namespace Osix

open Program

/-! ## Machine integers -/

/-- Conversion to `unsigned char`. -/
def toUchar (n : ℤ) : ℕ := (n % 2 ^ 8).toNat

/-- Conversion to `unsigned short`. -/
def toUshort (n : ℤ) : ℕ := (n % 2 ^ 16).toNat

/-- Conversion to `unsigned int` and to `size_t`. -/
def toUint (n : ℤ) : ℕ := (n % 2 ^ 32).toNat

/-- Conversion to `short`. -/
def toShort (n : ℤ) : ℤ := n.bmod (2 ^ 16)

/-- Conversion to `int`, `long` and `ssize_t`. -/
def toLong (n : ℤ) : ℤ := n.bmod (2 ^ 32)

/-! ## The contents of blocks -/

/-- The `uint16_t` at a byte offset. -/
def Block.get16 (data : Block) (offset : ℕ) : ℕ :=
  (data offset).toNat + 256 * (data (offset + 1)).toNat

/-- The `uint32_t` at a byte offset. -/
def Block.get32 (data : Block) (offset : ℕ) : ℕ :=
  data.get16 offset + 65536 * data.get16 (offset + 2)

/-- Bytes copied over a block from an offset on. -/
def Block.copy (data : Block) (offset : ℕ) (bytes : List Byte) : Block :=
  fun byte =>
    if offset ≤ byte ∧ byte < offset + bytes.length then bytes.getD (byte - offset) 0
    else data byte

/-- `memcpy` out of a block. -/
def Block.bytes (data : Block) (offset count : ℕ) : List Byte :=
  (List.range count).map fun byte => data (offset + byte)

/-- The bytes of a `uint16_t`. -/
def bytes16 (value : ℕ) : List Byte := [BitVec.ofNat 8 value, BitVec.ofNat 8 (value / 256)]

/-- The bytes of a `uint32_t`. -/
def bytes32 (value : ℕ) : List Byte := bytes16 value ++ bytes16 (value / 65536)

/-- Bit `bit % 8` of byte `bit / 8`. -/
def Block.getBit (data : Block) (bit : ℕ) : Bool := (data (bit / 8)).getLsbD (bit % 8)

def Block.setBit (data : Block) (bit : ℕ) : Block :=
  Function.update data (bit / 8) (data (bit / 8) ||| (1#8 <<< (bit % 8)))

def Block.clearBit (data : Block) (bit : ℕ) : Block :=
  Function.update data (bit / 8) (data (bit / 8) &&& ~~~(1#8 <<< (bit % 8)))

/-- The number of bits of a block. -/
def blockBits : ℕ := blockSize * 8

/-- The first clear bit of a bitmap block. -/
def Block.firstClear (data : Block) : Option ℕ :=
  (List.range blockBits).find? fun bit => !data.getBit bit

/-! ## Inodes -/

/-- `NUM_INODES`. -/
def numInodes : ℕ := 32

instance : NeZero numInodes := ⟨by decide⟩

abbrev InodeId := Fin numInodes

/-- `NDIRECT`. -/
def ndirect : ℕ := 7

instance : NeZero ndirect := ⟨by decide⟩

/-- `NINDIRECT`. -/
def nindirect : ℕ := 512

/-- The fields of `struct inode` that are kept on the disk. -/
structure InodeData where
  mode : ℕ
  nlinks : ℕ
  uid : ℕ
  gid : ℕ
  time : ℤ
  size : ℤ
  direct : Fin ndirect → ℕ
  indirect : ℕ
  dblindirect : ℕ

/-- `struct inode`; `lock`, `wanted` and `dirty` are the bits of `i_flags`. -/
structure Inode extends InodeData where
  dev : Dev
  inodeno : ℕ
  refcount : ℕ
  lock : Bool
  wanted : Bool
  dirty : Bool

/-- What `iget` copies out of the `struct minix_inode` number `index` of a block. -/
def InodeData.ofDisk (data : Block) (index : ℕ) : InodeData :=
  let base := index * 32
  { mode := data.get16 base
    uid := data.get16 (base + 2)
    size := toLong (data.get32 (base + 4))
    time := toLong (data.get32 (base + 8))
    gid := (data (base + 12)).toNat
    nlinks := (data (base + 13)).toNat
    direct := fun zone => data.get16 (base + 14 + 2 * zone)
    indirect := data.get16 (base + 28)
    dblindirect := data.get16 (base + 30) }

/-- The `struct minix_inode` that `iupdate` writes. -/
def InodeData.toDisk (node : InodeData) : List Byte :=
  bytes16 node.mode ++ bytes16 node.uid ++ bytes32 (toUint node.size) ++
    bytes32 (toUint node.time) ++ [BitVec.ofNat 8 node.gid, BitVec.ofNat 8 node.nlinks] ++
    (List.finRange ndirect).flatMap (fun zone => bytes16 (node.direct zone)) ++
    bytes16 node.indirect ++ bytes16 node.dblindirect

/-- The file type bits of a mode, `S_IFMT`. -/
def fileType (mode : ℕ) : ℕ := mode / 4096 % 16 * 4096

def sIfreg : ℕ := 0x8000
def sIfblk : ℕ := 0x6000
def sIfdir : ℕ := 0x4000
def sIfchr : ℕ := 0x2000
def sIfifo : ℕ := 0x1000

def iexec : ℕ := 1
def iwrite : ℕ := 2
def iread : ℕ := 4

/-! ## Open files and pipes -/

/-- `NFILE`. -/
def nfile : ℕ := 32

instance : NeZero nfile := ⟨by decide⟩

abbrev FileId := Fin nfile

/-- `NPIPES`. -/
def npipes : ℕ := 16

instance : NeZero npipes := ⟨by decide⟩

abbrev PipeId := Fin npipes

/-- `FT_INODE` and `FT_PIPE`. -/
inductive FileType where
  | inode
  | pipe
deriving DecidableEq

/-- `struct file`. -/
structure File where
  flags : ℕ
  refCount : ℤ
  inode : Option InodeId
  pipe : Option PipeId
  offset : ℤ
  type : FileType
deriving DecidableEq

/-- A cleared `struct file`. -/
def File.zero : File := ⟨0, 0, none, none, 0, .inode⟩

/-- `PIPE_BUF`. -/
def pipeBuf : ℕ := 1024

/-- `struct pipe`. -/
structure Pipe where
  buffer : ℕ → Byte
  readPos : BitVec 32
  writePos : BitVec 32
  readers : ℤ
  writers : ℤ

/-- A cleared `struct pipe`. -/
def Pipe.zero : Pipe := ⟨fun _ => 0, 0, 0, 0, 0⟩

def oRdonly : ℕ := 0
def oWronly : ℕ := 1
def oRdwr : ℕ := 2
def oCreat : ℕ := 4
def oAppend : ℕ := 8
def oTrunc : ℕ := 16

/-! ## Processes -/

abbrev ProcId := Fin nproc

/-- `enum procstate`. The machine that runs the processes knows which of them sleep. -/
inductive ProcState where
  | null
  | idle
  | running
  | zombie
deriving DecidableEq

/-- The fields of `struct proc` that the file system code uses. -/
structure Proc where
  state : ProcState
  pid : ℕ
  pgrp : ℕ
  parent : Option ProcId
  cwd : Option InodeId
  ofile : Fin nfile → Option FileId
  uid : ℕ
  gid : ℕ
  sigPending : ℕ
  sigMask : ℕ
  exitStatus : ℤ

/-- A cleared `struct proc`. -/
def Proc.zero : Proc := ⟨.null, 0, 0, none, none, fun _ => none, 0, 0, 0, 0, 0⟩

def Proc.signalPending (proc : Proc) : Bool :=
  proc.sigPending &&& (2 ^ 32 - 1 - proc.sigMask) ≠ 0

/-! ## Terminals -/

/-- `NTTY`. -/
def ntty : ℕ := 3

instance : NeZero ntty := ⟨by decide⟩

abbrev TtyId := Fin ntty

/-- `struct tty`; `lflag` is the `c_lflag` of its `struct termios`. -/
structure Tty where
  rxBuf : BitVec 8 → Byte
  rxHead : BitVec 8
  rxTail : BitVec 8
  pgrp : ℕ
  lflag : ℕ

/-- `ECHO`. -/
def Tty.echo (tty : Tty) : Bool := tty.lflag.testBit 3

/-- `ICANON`. -/
def Tty.icanon (tty : Tty) : Bool := tty.lflag.testBit 8

/-! ## The file system -/

/-- The fields of `struct fs` that the file system code uses. -/
structure Super where
  nzones : ℕ
  imapBlocks : ℕ
  zmapBlocks : ℕ
  firstdatazone : ℕ
deriving DecidableEq

/-- `ROOT_DEV`. -/
def rootDev : Dev := 1

/-- `ROOT_INODE`. -/
def rootInodeno : ℕ := 1

/-- `FIRST_BLK`. -/
def firstBlk : ℕ := 2

/-- `PATH_MAX`. -/
def pathMax : ℕ := 256

/-- `sizeof(struct dirent)`. -/
def direntSize : ℕ := 32

/-- `DIRENT_NAME_SIZE`. -/
def direntNameSize : ℕ := 30

/-- `BLOCK_SIZE / sizeof(struct minix_inode)`. -/
def inodesPerBlock : ℕ := 32

/--
The static data of the kernel. `stack` stands for whatever an uninitialised array on the
kernel stack holds, `room` is the part of the stack that is left for such an array, and
`patience` bounds the loops that only user input can end: a run that needs more rounds
stops with `Stop.outOfPatience`.
-/
structure Core where
  inodes : InodeId → Inode
  files : FileId → File
  procs : ProcId → Proc
  pipes : PipeId → Pipe
  ttys : TtyId → Tty
  super : Super
  rootInode : Option InodeId
  nextpid : ℕ
  pitTime : ℤ
  uartPort : ℕ → Bool
  output : List (Dev × Byte)
  stack : List Byte
  room : ℕ
  patience : ℕ

namespace Core

def setInode (core : Core) (i : InodeId) (change : Inode → Inode) : Core :=
  { core with inodes := Function.update core.inodes i (change (core.inodes i)) }

def setFile (core : Core) (f : FileId) (change : File → File) : Core :=
  { core with files := Function.update core.files f (change (core.files f)) }

def setProc (core : Core) (p : ProcId) (change : Proc → Proc) : Core :=
  { core with procs := Function.update core.procs p (change (core.procs p)) }

def setPipe (core : Core) (p : PipeId) (change : Pipe → Pipe) : Core :=
  { core with pipes := Function.update core.pipes p (change (core.pipes p)) }

def setTty (core : Core) (t : TtyId) (change : Tty → Tty) : Core :=
  { core with ttys := Function.update core.ttys t (change (core.ttys t)) }

end Core

/-! ## Operations -/

/--
Why the kernel does not go on. `fault` is an access outside an object or through `NULL`, and
`overrun` a store past the end of an array on the kernel stack.
-/
inductive Stop where
  | panic (message : Panic)
  | fault
  | overrun
  | outOfPatience
deriving DecidableEq

/-- What a process sleeps on. -/
inductive Chan where
  | tty (t : TtyId)
  | proc (p : ProcId)
  | pipe (p : PipeId)
deriving DecidableEq

/--
Points of the code that properties of runs speak about. They do nothing.

`noZone`: `balloc` found no free zone. `freshIndirect`: `bmap` gave an inode the zone for
its indirect block. `bmapped`: `bmap` returns a zone. `writesData`: `writei` is to write
a block. `newInode`: `ialloc` has got a slot for a new inode. `unlinks`: `sys_unlink` has
cleared the entry of an inode and is to get it. `released`: `iput` returns after it
dropped the last reference. `uses` and `drops`: the system call begins to use an inode
through a pointer it did not get from `iget` or `idup`, and is done with one reference.
`slot`: `ofile[fd]` of the process is read or stored to. `follows`: the code follows the
`inode` pointer of a file entry. `again`: it has read that pointer again, which was `i`, and
has found `found`. `searches`: `nameicore` is to read a directory into an array on its
stack. `names`: it is to store a name of this length.
-/
inductive Event where
  | noZone
  | freshIndirect (dev : Dev) (zone : ℕ)
  | bmapped (i : InodeId) (index : ℕ) (zone : ℕ)
  | writesData (dev : Dev) (blockNo : ℕ)
  | newInode (i : InodeId)
  | unlinks (parent : InodeId) (inodeno : ℕ)
  | released (i : InodeId)
  | uses (i : InodeId)
  | drops (i : InodeId)
  | slot (fd : ℤ)
  | follows (f : FileId)
  | again (i : InodeId) (found : Option InodeId)
  | searches (i : InodeId)
  | names (length : ℕ)
deriving DecidableEq

/--
The operations of the file system code. `ifind` is `iget` up to its disk read and replies
whether the inode was in the cache; `iunref` is `iput` up to the test of `i_nlinks` and
replies whether the last reference is gone.
-/
inductive FsOp (H : Type) where
  | core
  | setData (i : InodeId) (change : InodeData → InodeData)
  | setDirty (i : InodeId) (dirty : Bool)
  | setFile (f : FileId) (change : File → File)
  | setProc (p : ProcId) (change : Proc → Proc)
  | setPipe (p : PipeId) (change : Pipe → Pipe)
  | setTty (t : TtyId) (change : Tty → Tty)
  | takePid
  | putchar (dev : Dev) (char : Byte)
  | bread (dev : Dev) (blockNo : ℕ)
  | bdata (buf : H)
  | bstore (buf : H) (change : Block → Block)
  | bdirty (buf : H)
  | bwrite (buf : H)
  | brelse (buf : H)
  | ifind (dev : Dev) (inodeno : ℕ)
  | ilock (i : InodeId)
  | iunlock (i : InodeId)
  | idup (i : InodeId)
  | iunref (i : InodeId)
  | sleep (chan : Chan)
  | mark (event : Event)
  | stop (why : Stop)

/-- The type of an operation's reply. -/
@[reducible]
def FsOp.Reply {H : Type} : FsOp H → Type
  | .core => Core
  | .takePid => ℕ
  | .putchar _ _ => ℤ
  | .bread _ _ => H
  | .bdata _ => Block
  | .ifind _ _ => InodeId × Bool
  | .iunref _ => Bool
  | .stop _ => Empty
  | _ => Unit

/-- A piece of file system code. -/
abbrev FsM (H : Type) := Prog (FsOp H) FsOp.Reply

end Osix
