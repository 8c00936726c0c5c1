import Osix.Fs.Namei
import Osix.Fs.Pipe

/-!
# Open files and directories

`sys/kern/file.c`, `sys_pipe` of `sys/kern/pipe.c` and the dispatch of `read` and `write`
in `sys/libkern`. A descriptor is an `int`; the source checks some of them against
`NFILE` with `>` in place of `>=`, and `ofile[NFILE]` then is the memory of `uid` and
`gid` that follows the array in `struct proc`.
-/

namespace Osix

open Program

variable {H : Type}

/-- `ofile[fd]` for a descriptor in range. -/
def Proc.descriptor (proc : Proc) (fd : ℤ) : Option FileId :=
  if inRange : fd.toNat < nfile then
    if 0 ≤ fd then proc.ofile ⟨fd.toNat, inRange⟩ else none
  else none

/-- What an access to `ofile[fd]` with `0 <= fd <= NFILE` finds. -/
inductive Slot where
  | null
  | file (f : FileId)
  | garbage

/-- `ofile[fd]` for a descriptor that may be `NFILE`. -/
def Proc.looseDescriptor (proc : Proc) (fd : ℤ) : Slot :=
  if fd = nfile then
    if proc.uid = 0 ∧ proc.gid = 0 then .null else .garbage
  else
    match proc.descriptor fd with
    | none => .null
    | some f => .file f

namespace Fs

/-- The test `fd < 0 || fd >= NFILE || cur_proc->ofile[fd] == NULL`. -/
def openFile (p : ProcId) (fd : ℤ) : FsM H (Option FileId) := do
  if fd < 0 ∨ nfile ≤ fd then
    return none
  else
    mark (.slot fd)
    return (← getProc p).descriptor fd

/-- The test `fd < 0 || fd > NFILE || cur_proc->ofile[fd] == NULL`. -/
def looseOpenFile (p : ProcId) (fd : ℤ) : FsM H Slot := do
  if fd < 0 ∨ nfile < fd then
    return .null
  else
    mark (.slot fd)
    return (← getProc p).looseDescriptor fd

/-- The pointer `file->inode` where it is followed without a test. -/
def fileInode (f : FileId) : FsM H InodeId := do
  mark (.follows f)
  match (← getFile f).inode with
  | none => fault
  | some i => return i

/-- `file_fd_alloc`. -/
def fileFdAlloc (p : ProcId) (f : FileId) : FsM H ℤ := do
  let proc ← getProc p
  match (List.finRange nfile).find? fun fd => proc.ofile fd = none with
  | some fd =>
      setProc p fun old => { old with ofile := Function.update old.ofile fd (some f) }
      return fd
  | none => return -emfile

/-- `file_alloc`. -/
def fileAlloc : FsM H (Option FileId) := do
  let core ← getCore
  match (List.finRange nfile).find? fun f => (core.files f).refCount = 0 with
  | some f =>
      setFile f fun _ => { File.zero with refCount := 1 }
      return some f
  | none => return none

/-- `file_dup`. -/
def fileDup (f : FileId) : FsM H Unit :=
  setFile f fun old => { old with refCount := old.refCount + 1 }

/-- The `FT_INODE` part of `file_close`. -/
def inodeFileClose (f : FileId) : FsM H Unit := do
  let file ← getFile f
  if file.refCount ≤ 0 then
    panic .fileClose
  else
    setFile f fun old => { old with refCount := old.refCount - 1 }
    Prog.when (file.refCount - 1 = 0) do
      Prog.whenSome file.inode fun i => do
        iput i
        setFile f fun old => { old with inode := none }

/-- `file_close` of a pointer that is not `NULL`. -/
def fileClose (f : FileId) : FsM H Unit := do
  match (← getFile f).type with
  | .pipe => pipeClose f
  | .inode => inodeFileClose f

/-- `close`, which looks at the type of the file as `file_close` does. -/
def close (p : ProcId) (fd : ℤ) : FsM H ℤ := do
  match ← openFile p fd with
  | none => return -ebadf
  | some f =>
      fileClose f
      setProc p fun old =>
        { old with ofile := fun other => if (other : ℤ) = fd then none else old.ofile other }
      return 0

/-! ## Directories -/

/-- The bytes of a `struct dirent`; `strncpy` pads the name and its last byte is cleared. -/
def dirent (inodeno : ℕ) (name : List Byte) : List Byte :=
  bytes16 inodeno ++ (name.take (direntNameSize - 1)).rightpad direntNameSize 0

/-- The loop of `wdir`: the offset of the first free entry or of the end. -/
def wdirLoop (p : ProcId) (dir : InodeId) : ℕ → ℕ → FsM H ℕ
  | 0, _ => stop .outOfPatience
  | rounds + 1, offset => do
      let (ret, entry) ← readi p dir (toLong offset) direntSize
      if ret = direntSize then
        if head16 entry = 0 then
          return offset
        else
          wdirLoop p dir rounds (toUint (offset + direntSize))
      else
        return offset

def wdir (p : ProcId) (dir : InodeId) (inodeno : ℕ) (filename : List Byte) : FsM H Unit := do
  ilock dir
  let offset ← wdirLoop p dir (← getCore).patience 0
  let _ ← writei dir (dirent inodeno filename) offset
  let size := toLong (offset + direntSize)
  let node ← getInode dir
  Prog.when (node.size < size) do
    setData dir fun old => { old with size := size }
    setDirty dir true
  iunlock dir

/-- `sys_unlink` from the entry on: the entry at `offset` holds `inodeno`. -/
def unlinkEntry (parent : InodeId) (inodeno : ℕ) (entry : List Byte) (offset : ℕ) :
    FsM H ℤ := do
  let _ ← writei parent (bytes16 0 ++ [0] ++ entry.drop 3) offset
  mark (.unlinks parent inodeno)
  let i ← iget (← getInode parent).dev inodeno
  ilock i
  if (← getInode i).nlinks = 0 then
    panic .unlinkNlinks
  else
    setData i fun old => { old with nlinks := old.nlinks - 1 }
    setDirty i true
    iunlockput parent
    iupdate i
    iunlockput i
    return 0

/-- The loop of `sys_unlink`. -/
def unlinkLoop (p : ProcId) (parent : InodeId) (filename : List Byte) : ℕ → ℕ → FsM H ℤ
  | 0, _ => stop .outOfPatience
  | rounds + 1, offset => do
      let (ret, entry) ← readi p parent (toLong offset) direntSize
      if ret = direntSize then
        let stack := (← getCore).stack
        if head16 entry ≠ 0 ∧ cString (entry.drop 2 ++ stack) = filename then
          unlinkEntry parent (head16 entry) entry offset
        else
          unlinkLoop p parent filename rounds (toUint (offset + direntSize))
      else
        iunlockput parent
        return -enoent

def sysUnlink (p : ProcId) (filepath : List Byte) : FsM H ℤ := do
  let found ← parenti p filepath .own
  let parent := found.inode
  if found.error ≠ 0 then
    return found.error
  else if fileType (← getInode parent).mode ≠ sIfdir then
    iput parent
    return -enotdir
  else if ← denies p parent iwrite then
    iput parent
    return -eacces
  else
    ilock parent
    unlinkLoop p parent found.name (← getCore).patience 0

/-- `file_creat`, with `*inodep` if it has stored it. -/
def fileCreat (p : ProcId) (filename : List Byte) (mode : ℕ) (inodep : Inodep) :
    FsM H (ℤ × Option InodeId) := do
  let found ← parenti p filename .own
  let parent := found.inode
  if found.error ≠ 0 then
    return (found.error, none)
  else if ← denies p parent iwrite then
    iput parent
    return (-eacces, none)
  else
    match ← ialloc p mode with
    | none => panic .noFreeInode
    | some i =>
        setInodep inodep i
        ilock i
        wdir p parent (← getInode i).inodeno found.name
        match ← inodepAgain inodep i with
        | none => fault
        | some i =>
            setData i fun old => { old with nlinks := toUshort (old.nlinks + 1) }
            setDirty i true
            iunlock i
            iput parent
            return (0, some i)

/-! ## Opening and creating -/

/-- The permission that `sys_open` asks for. -/
def requestMode (flags : ℕ) : ℕ :=
  if flags &&& oWronly ≠ 0 then iwrite
  else if flags &&& (oRdwr ||| oAppend ||| oCreat ||| oTrunc) ≠ 0 then iread ||| iwrite
  else iread

/-- The `O_TRUNC` and `O_APPEND` part of `sys_open`. -/
def openTrunc (f : FileId) (i : InodeId) (flags : ℕ) : FsM H Unit := do
  if flags &&& oTrunc ≠ 0 then
    mark (.uses i)
    ilock i
    itrunc i
    iunlockPtr (← inodeAgain f i)
  else if flags &&& oAppend ≠ 0 then
    let node ← getInode i
    setFile f fun old => { old with offset := node.size }
  else
    return ()

/-- `sys_open` once `file->inode` is set. -/
def openInode (p : ProcId) (f : FileId) (flags : ℕ) : FsM H ℤ := do
  match (← getFile f).inode with
  | none =>
      fileClose f
      return -enoent
  | some i =>
      if ← denies p i (requestMode flags) then
        fileClose f
        return -eacces
      else
        openTrunc f i flags
        fileFdAlloc p f

def sysOpen (p : ProcId) (filename : List Byte) (flags mode : ℕ) : FsM H ℤ := do
  if filename = [] then
    return -enoent
  else
    match ← fileAlloc with
    | none => return -enomem
    | some f =>
        setFile f fun old => { old with flags := toUchar (old.flags ||| flags : ℕ) }
        let found ← namei p filename (.file f)
        if found.error = -enoent ∧ flags &&& oCreat ≠ 0 then
          let _ ← fileCreat p filename (mode ||| sIfreg) (.file f)
          openInode p f flags
        else if found.error ≠ 0 then
          fileClose f
          return found.error
        else
          openInode p f flags

def sysCreat (p : ProcId) (filename : List Byte) (mode : ℕ) : FsM H ℤ :=
  sysOpen p filename (oCreat ||| oWronly ||| oTrunc) mode

/-- `sys_utime`; `times` is the access time, unless the pointer is `NULL`. -/
def sysUtime (p : ProcId) (filename : List Byte) (times : Option ℤ) : FsM H ℤ := do
  let found ← namei p filename .own
  if found.error ≠ 0 then
    return found.error
  else
    ilock found.inode
    let pitTime := (← getCore).pitTime
    setData found.inode fun old => { old with time := times.getD pitTime }
    setDirty found.inode true
    iunlockput found.inode
    return 0

/-- `sys_mkdir` after `file_creat`. -/
def mkdirEntries (p : ProcId) (i : InodeId) : FsM H Unit := do
  wdir p i (← getInode i).inodeno [46]
  setData i fun old => { old with nlinks := toUshort (old.nlinks + 1) }
  match (← getProc p).cwd with
  | none => fault
  | some parent =>
      idup parent
      wdir p i (← getInode parent).inodeno [46, 46]
      ilock parent
      setData parent fun old => { old with nlinks := toUshort (old.nlinks + 1) }
      setDirty parent true
      iunlockput parent
      setDirty i true
      iput i

def sysMkdir (p : ProcId) (pathname : List Byte) (mode : ℕ) : FsM H ℤ := do
  match (← getProc p).cwd with
  | none => return -eacces
  | some cwd =>
      if ← denies p cwd iwrite then
        return -eacces
      else
        match ← fileCreat p pathname (mode ||| sIfdir) .own with
        | (error, none) => return error
        | (_, some i) =>
            mkdirEntries p i
            return 0

/-! ## Descriptors -/

def dup (p : ProcId) (fd : ℤ) : FsM H ℤ := do
  match ← looseOpenFile p fd with
  | .null => return -ebadf
  | .garbage => fault
  | .file f =>
      let newFd ← fileFdAlloc p f
      Prog.when (0 ≤ newFd) (fileDup f)
      return newFd

/-- `dup2` for two descriptors in range, with a file at `old_fd`. -/
def dup2Files (p : ProcId) (oldFd newFd : ℤ) : FsM H ℤ := do
  Prog.whenSome ((← getProc p).descriptor newFd) fileClose
  match (← getProc p).descriptor oldFd with
  | none => fault
  | some f =>
      fileDup f
      setProc p fun old =>
        { old with ofile := fun fd => if (fd : ℤ) = newFd then some f else old.ofile fd }
      return newFd

/-- `dup2`; with `new_fd` equal to `NFILE` it stores outside of `ofile`. -/
def dup2 (p : ProcId) (oldFd newFd : ℤ) : FsM H ℤ := do
  match ← looseOpenFile p oldFd with
  | .null => return -ebadf
  | .garbage => fault
  | .file _ =>
      if newFd < 0 ∨ nfile < newFd then
        return -ebadf
      else
        mark (.slot newFd)
        if newFd = nfile then
          fault
        else
          dup2Files p oldFd newFd

/-- `file_read`; a file without an inode makes `ilock` follow a `NULL` pointer. -/
def fileRead (p : ProcId) (f : FileId) (nbytes : ℕ) : FsM H (ℤ × List Byte) := do
  let i ← fileInode f
  mark (.uses i)
  ilock i
  let result ← readi p i (← getFile f).offset nbytes
  Prog.when (0 < result.1) do
    setFile f fun old => { old with offset := toLong (old.offset + result.1) }
  iunlockPtr (← inodeAgain f i)
  return result

/-- `file_write`. -/
def fileWrite (f : FileId) (src : List Byte) : FsM H ℤ := do
  let i ← fileInode f
  mark (.uses i)
  ilock i
  let ret ← writei i src (toUint (← getFile f).offset)
  Prog.when (0 < ret) do
    setFile f fun old => { old with offset := toLong (old.offset + ret) }
  iunlockPtr (← inodeAgain f i)
  return ret

def read (p : ProcId) (fd : ℤ) (nbytes : ℕ) : FsM H (ℤ × List Byte) := do
  match ← openFile p fd with
  | none => return (-ebadf, [])
  | some f =>
      match (← getFile f).type with
      | .inode => fileRead p f nbytes
      | .pipe => pipeRead f nbytes

def write (p : ProcId) (fd : ℤ) (src : List Byte) : FsM H ℤ := do
  match ← openFile p fd with
  | none => return -ebadf
  | some f =>
      match (← getFile f).type with
      | .inode => fileWrite f src
      | .pipe => pipeWrite f src

def stat (p : ProcId) (path : List Byte) : FsM H (ℤ × Option Stat) := do
  let found ← namei p path .own
  if found.error ≠ 0 then
    return (found.error, none)
  else
    ilock found.inode
    let st := istat (← getInode found.inode)
    iunlockput found.inode
    return (0, some st)

def fstat (p : ProcId) (fd : ℤ) : FsM H (ℤ × Option Stat) := do
  match ← looseOpenFile p fd with
  | .null => return (-ebadf, none)
  | .garbage => fault
  | .file f =>
      let i ← fileInode f
      mark (.uses i)
      ilock i
      let st := istat (← getInode i)
      iunlock i
      return (0, some st)

/-- `tty_ioctl`, with the `struct termios` at `ptr`; `TIOCGETA` stores one there. -/
def ttyIoctl (dev : Dev) (op : ℤ) (termios : Option ℕ) : FsM H (ℤ × List Byte) := do
  if ntty ≤ minor dev then
    return (-enotty, [])
  else
    match termios with
    | none => return (-efault, [])
    | some lflag =>
        match ttyOf dev with
        | none => fault
        | some t =>
            if op = 1 then
              return (0, bytes32 ((← getCore).ttys t).lflag)
            else if op = 2 then
              setTty t fun old => { old with lflag := lflag }
              return (0, [])
            else
              return (-einval, [])

/-- `ioctl`; only the entries 1 and 3 of `cdevsw` have terminals. -/
def ioctl (p : ProcId) (fd op : ℤ) (termios : Option ℕ) : FsM H (ℤ × List Byte) := do
  match ← openFile p fd with
  | none => return (-ebadf, [])
  | some f =>
      let file ← getFile f
      if file.refCount < 1 then
        return (-ebadf, [])
      else if file.inode = none then
        return (-enotty, [])
      else
        let node ← getInode (← fileInode f)
        let dev := if fileType node.mode = sIfchr then toShort (node.direct 0) else node.dev
        if major dev = 1 ∨ major dev = 3 then
          ttyIoctl dev op termios
        else
          return (-enotty, [])

/-- `file_seek`; `whence` is `SEEK_SET`, `SEEK_CUR` or `SEEK_END` for 0, 1 or 2. -/
def fileSeek (f : FileId) (offset whence : ℤ) : FsM H ℤ := do
  if whence < 0 ∨ 2 < whence then
    return -einval
  else
    let node ← getInode (← fileInode f)
    let file ← getFile f
    let newOffset :=
      if whence = 0 then offset
      else if whence = 1 then toLong (file.offset + offset)
      else toLong (node.size + offset)
    if node.size ≤ newOffset ∧ fileType node.mode = sIfreg then
      return -einval
    else
      setFile f fun old => { old with offset := newOffset }
      return newOffset

def lseek (p : ProcId) (fd offset whence : ℤ) : FsM H ℤ := do
  match ← openFile p fd with
  | none => return -ebadf
  | some f => fileSeek f offset whence

end Fs

end Osix
