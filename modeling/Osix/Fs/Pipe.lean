import Osix.Fs.Inode

/-!
# Pipes

`sys/kern/pipe.c`, as far as it does not need the file table: reading, writing and
closing an end of a pipe.
-/

namespace Osix

open Program

variable {H : Type}

namespace Fs

/-- The loop of `pipe_read`; `got` holds the bytes read so far. -/
def pipeReadLoop (pipe : PipeId) (nbytes : ℕ) : ℕ → List Byte → FsM H (ℤ × List Byte)
  | 0, _ => stop .outOfPatience
  | rounds + 1, got => do
      if nbytes ≤ got.length then
        return (toLong got.length, got)
      else
        let pp := (← getCore).pipes pipe
        if pp.readPos = pp.writePos then
          if pp.writers = 0 ∨ got ≠ [] then
            return (toLong got.length, got)
          else
            sleep (.pipe pipe)
            pipeReadLoop pipe nbytes rounds got
        else
          setPipe pipe fun old => { old with readPos := old.readPos + 1 }
          pipeReadLoop pipe nbytes rounds (got ++ [pp.buffer (pp.readPos.toNat % pipeBuf)])

def pipeRead (f : FileId) (nbytes : ℕ) : FsM H (ℤ × List Byte) := do
  let core ← getCore
  match (core.files f).type, (core.files f).pipe with
  | .pipe, some pipe => pipeReadLoop pipe nbytes core.patience []
  | _, _ => panic .pipeReadNotAPipe

/-- The loop of `pipe_write`. -/
def pipeWriteLoop (pipe : PipeId) : ℕ → List Byte → FsM H Unit
  | 0, _ => stop .outOfPatience
  | _ + 1, [] => return ()
  | rounds + 1, byte :: src => do
      let pp := (← getCore).pipes pipe
      if (pp.writePos - pp.readPos).toNat = pipeBuf then
        sleep (.pipe pipe)
        pipeWriteLoop pipe rounds (byte :: src)
      else
        setPipe pipe fun old =>
          { old with
            buffer := Function.update old.buffer (old.writePos.toNat % pipeBuf) byte
            writePos := old.writePos + 1 }
        pipeWriteLoop pipe rounds src

def pipeWrite (f : FileId) (src : List Byte) : FsM H ℤ := do
  let core ← getCore
  match (core.files f).type, (core.files f).pipe with
  | .pipe, some pipe =>
      pipeWriteLoop pipe core.patience src
      return toLong src.length
  | _, _ => panic .pipeWriteNotAPipe

/-- `pipe_close`; no file has `O_RDONLY`, which is 0, in its flags. -/
def pipeClose (f : FileId) : FsM H Unit := do
  let file ← getFile f
  match file.type, file.pipe with
  | .pipe, some pipe =>
      setFile f fun old => { old with refCount := old.refCount - 1 }
      Prog.when (file.refCount - 1 = 0) do
        Prog.when (file.flags &&& oRdonly ≠ 0) do
          setPipe pipe fun old => { old with readers := old.readers - 1 }
        Prog.when (file.flags &&& oWronly ≠ 0) do
          setPipe pipe fun old => { old with writers := old.writers - 1 }
      let pp := (← getCore).pipes pipe
      Prog.when (pp.readers = 0 ∧ pp.writers = 0) do
        setPipe pipe fun _ => .zero
  | _, _ => panic .pipeCloseNotAPipe

end Fs

end Osix
