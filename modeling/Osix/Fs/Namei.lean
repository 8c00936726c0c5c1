import Osix.Fs.Inode

/-!
# Path names

`nameicore` of `sys/kern/inode.c` with its three entry points, `access`, `chdir` and
`istat`. A path is the list of its bytes without the terminating zero.

`nameicore` stores through its out-parameter `inodep` on failure too, so its result holds
the inode that is there in the end beside the error number. `sys_open` has it walk through
`file->inode`, which other processes may change while the lookup sleeps: there the pointer
is read again wherever the code follows `*inodep` after a sleep.
-/

namespace Osix

open Program

variable {H : Type}

/-- `'/'`. -/
def slash : Byte := 47

/-- The C string that starts a sequence of bytes. -/
def cString (bytes : List Byte) : List Byte := bytes.takeWhile (· ≠ 0)

/-- The `uint16_t` at the front of a sequence of bytes. -/
def head16 (bytes : List Byte) : ℕ := (bytes.getD 0 0).toNat + 256 * (bytes.getD 1 0).toNat

/--
The search of `nameicore` through a directory of `ndirent` entries. A name without a
terminating zero runs on into what follows it in memory.
-/
def lookup (stack dir component : List Byte) : ℕ → Option ℕ
  | 0 => none
  | ndirent + 1 =>
      if head16 dir ≠ 0 ∧ cString (dir.drop 2 ++ stack) = component then some (head16 dir)
      else lookup stack (dir.drop direntSize) component ndirent

/-- `access` denies the request. -/
def Core.denies (core : Core) (p : ProcId) (i : InodeId) (mode : ℕ) : Bool :=
  let node := core.inodes i
  let proc := core.procs p
  if proc.uid = 0 then false
  else if node.uid = proc.uid ∧ node.mode &&& (mode <<< 6) ≠ 0 then false
  else if node.gid = proc.gid ∧ node.mode &&& (mode <<< 3) ≠ 0 then false
  else if node.mode &&& mode ≠ 0 then false
  else true

/-- `struct stat`. -/
structure Stat extends InodeData where
  dev : Dev
  ino : ℕ

/-- `istat`. -/
def istat (node : Inode) : Stat where
  toInodeData := node.toInodeData
  dev := node.dev
  ino := node.inodeno

/-- Where `inodep` points: to a variable of the caller, or to `file->inode`. -/
inductive Inodep where
  | own
  | file (f : FileId)

/-- The result of `nameicore`: its return value, `*inodep` and the bytes at `name`. -/
structure Found where
  error : ℤ
  inode : InodeId
  name : List Byte

namespace Fs

def denies (p : ProcId) (i : InodeId) (mode : ℕ) : FsM H Bool := do
  return (← getCore).denies p i mode

/-- The step from a directory to the inode of one of its entries, `next_inode`. -/
def nextInode (i : InodeId) (ndirent : ℕ) (dir component : List Byte) :
    FsM H (Option InodeId) := do
  let core ← getCore
  match lookup core.stack dir component ndirent with
  | none => return none
  | some inodeno =>
      let next ← iget (core.inodes i).dev inodeno
      return some next

/-! ## Pointers to inodes -/

/-- `iput` of a pointer that may be `NULL`. -/
def iputPtr : Option InodeId → FsM H Unit
  | none => panic .iput
  | some i => iput i

/-- `iunlock` of a pointer that may be `NULL`. -/
def iunlockPtr : Option InodeId → FsM H Unit
  | none => panic .iunlock
  | some i => iunlock i

/-- `file->inode`, read again after a sleep. It was `i` before. -/
def inodeAgain (f : FileId) (i : InodeId) : FsM H (Option InodeId) := do
  let file ← getFile f
  mark (.again i file.inode)
  return file.inode

/-- `*inodep`, read again after a sleep. It was `i` before. -/
def inodepAgain (inodep : Inodep) (i : InodeId) : FsM H (Option InodeId) :=
  match inodep with
  | .own => return some i
  | .file f => inodeAgain f i

/-- `*inodep = inode`. -/
def setInodep (inodep : Inodep) (i : InodeId) : FsM H Unit :=
  match inodep with
  | .own => return ()
  | .file f => setFile f fun old => { old with inode := some i }

/-! ## Looking up a path -/

/--
The array `dir` of `nameicore` with what `readi` returns. The array has the size of the whole
entries of the inode, but `readi` is asked for all of its `i_size` bytes. The run stops with the
first byte behind the array, so no more than one such byte is asked for.
-/
def readDir (p : ProcId) (i : InodeId) : FsM H (ℤ × ℕ × List Byte) := do
  mark (.searches i)
  let size := toUint (← getInode i).size
  let ndirent := size / direntSize
  let whole := ndirent * direntSize
  if (← getCore).room < whole then
    stop .overrun
  else
    let (ret, dir) ← readi p i 0 (min size (whole + 1))
    if whole < dir.length then
      stop .overrun
    else
      return (ret, ndirent, dir)

/-- The component at `name`, an array of `PATH_MAX` bytes, unless that is `NULL`. -/
def storeName (named : Bool) (component name : List Byte) : FsM H (List Byte) := do
  if named then
    mark (.names component.length)
    if pathMax ≤ component.length then
      stop .overrun
    else
      return component
  else
    return name

/-- The loop of `nameicore`; `named` says whether `name` is not `NULL`. -/
def nameicoreLoop (p : ProcId) (named parent : Bool) (inodep : Inodep) :
    ℕ → List Byte → InodeId → List Byte → FsM H Found
  | 0, _, i, name => return ⟨0, i, name⟩
  | rounds + 1, path, i, name => do
      if path = [] then
        return ⟨0, i, name⟩
      else
        let component := path.takeWhile (· ≠ slash)
        let rest := (path.dropWhile (· ≠ slash)).dropWhile (· = slash)
        ilock i
        if ← denies p i iexec then
          iunlockput i
          return ⟨-eacces, i, name⟩
        else
          let (ret, ndirent, dir) ← readDir p i
          match ← inodepAgain inodep i with
          | none => fault
          | some i =>
              if ret ≠ (← getInode i).size then
                iunlockput i
                return ⟨-eio, i, name⟩
              else
                iunlock i
                let next ← nextInode i ndirent dir component
                let name ← storeName named component name
                if parent ∧ rest = [] then
                  Prog.whenSome next iput
                  return ⟨0, i, name⟩
                else
                  iputPtr (← inodepAgain inodep i)
                  match next with
                  | none => return ⟨-enoent, i, name⟩
                  | some next =>
                      setInodep inodep next
                      nameicoreLoop p named parent inodep rounds rest next name

/-- The directory a path starts from. -/
def nameicoreStart (p : ProcId) (path : List Byte) : FsM H InodeId := do
  if path.head? = some slash then
    iget rootDev rootInodeno
  else
    match (← getProc p).cwd with
    | none => fault
    | some cwd =>
        idup cwd
        return cwd

/-- `nameicore`; the array at `name` holds arbitrary bytes when it is never written. -/
def nameicore (p : ProcId) (path : List Byte) (named parent : Bool) (inodep : Inodep) :
    FsM H Found := do
  let start ← nameicoreStart p path
  setInodep inodep start
  let stack := (← getCore).stack
  nameicoreLoop p named parent inodep path.length (path.dropWhile (· = slash)) start
    (cString stack)

def namei (p : ProcId) (path : List Byte) (inodep : Inodep) : FsM H Found :=
  nameicore p path false false inodep

def nameiname (p : ProcId) (path : List Byte) (inodep : Inodep) : FsM H Found :=
  nameicore p path true false inodep

def parenti (p : ProcId) (path : List Byte) (inodep : Inodep) : FsM H Found :=
  nameicore p path true true inodep

def chdir (p : ProcId) (path : Option (List Byte)) : FsM H ℤ := do
  match path with
  | none => return -einval
  | some path =>
      let found ← namei p path .own
      if found.error ≠ 0 then
        return found.error
      else if ← denies p found.inode iexec then
        iput found.inode
        return -eacces
      else if fileType (← getInode found.inode).mode ≠ sIfdir then
        iput found.inode
        return -enotdir
      else
        let cwd := (← getProc p).cwd
        Prog.whenSome cwd iput
        setProc p fun old => { old with cwd := some found.inode }
        return 0

end Fs

end Osix
