import Osix.Fs.Calls

/-!
# What the operations do to the tables

The operations of `FsOp` that only touch the in-core tables do the same on every machine.
Those of the inode cache are cut out of `iget`, `ilock`, `iunlock`, `idup` and `iput`.
-/

namespace Osix

open Program

variable {H : Type}

/-- A slot of the inode cache after `inode_init`. -/
def Inode.unused : Inode where
  mode := 0
  nlinks := 0
  uid := 0
  gid := 0
  time := 0
  size := 0
  direct := fun _ => 0
  indirect := 0
  dblindirect := 0
  dev := -1
  inodeno := 0
  refcount := 0
  lock := false
  wanted := false
  dirty := false

/-- The slot that `iget` has taken for an inode, before it reads it from the disk. -/
def Inode.taken (old : Inode) (dev : Dev) (inodeno : ℕ) : Inode :=
  { old with
    dev := dev, inodeno := inodeno, refcount := 1
    lock := true, wanted := false, dirty := false }

/-- What the search of `iget` comes to. -/
inductive Ifind where
  | asleep (core : Core)
  | cached (i : InodeId) (core : Core)
  | fresh (i : InodeId) (core : Core)
  | full

namespace Core

/-- The tables after `inode_init`, with process 0 as the only process. -/
def init (super : Super) : Core where
  inodes := fun _ => .unused
  files := fun _ => .zero
  procs := fun p => if p = 0 then { Proc.zero with state := .running, pid := 1 } else .zero
  pipes := fun _ => .zero
  ttys := fun _ => ⟨fun _ => 0, 0, 0, 0, 0⟩
  super := super
  rootInode := none
  nextpid := 2
  pitTime := 0
  uartPort := fun _ => false
  output := []
  stack := []
  room := 2048
  patience := 1

/-- The first slot that holds the inode. -/
def findInode (core : Core) (dev : Dev) (inodeno : ℕ) : Option InodeId :=
  (List.finRange numInodes).find? fun i =>
    decide ((core.inodes i).dev = dev ∧ (core.inodes i).inodeno = inodeno)

/-- The first slot that `iget` takes for an inode that is not in the cache. -/
def freeInode (core : Core) : Option InodeId :=
  (List.finRange numInodes).find? fun i =>
    decide ((core.inodes i).refcount = 0 ∧ (core.inodes i).dirty = false)

/-- `iget` up to its disk read. The search restarts after a sleep. -/
def ifind (core : Core) (dev : Dev) (inodeno : ℕ) : Ifind :=
  match core.findInode dev inodeno with
  | some i =>
      if (core.inodes i).lock then
        .asleep (core.setInode i fun old => { old with wanted := true })
      else
        .cached i (core.setInode i fun old =>
          { old with refcount := old.refcount + 1, wanted := false })
  | none =>
      match core.freeInode with
      | none => .full
      | some i =>
          .fresh i (core.setInode i fun old => old.taken dev inodeno)

/-- `tty_input` without the wake-up; CTRL-c sends `SIGINT` to the terminal's processes. -/
def ttyInput (core : Core) (t : TtyId) (char : Byte) : Core :=
  let tty := core.ttys t
  if char = 3 then
    if 1 < tty.pgrp then
      { core with procs := fun p =>
          let proc := core.procs p
          if proc.pgrp = tty.pgrp ∧ proc.state ≠ .null ∧ proc.state ≠ .zombie then
            { proc with sigPending := proc.sigPending ||| 2 }
          else proc }
    else core
  else
    core.setTty t fun old =>
      { old with
        rxBuf := Function.update old.rxBuf old.rxHead char
        rxHead := old.rxHead + 1
        rxTail := if old.rxHead + 1 = old.rxTail then old.rxTail + 1 else old.rxTail }

/-- `uart_putchar`, which the console uses too. -/
def putchar (core : Core) (dev : Dev) (char : Byte) : ℤ × Core :=
  if minor dev < 2 ∧ core.uartPort (minor dev).toNat = true then
    let sent := if char = 10 then [(dev, 13), (dev, 10)] else [(dev, char)]
    (Fs.signedChar char, { core with output := core.output ++ sent })
  else
    (-enodev, core)

/--
The operations on the tables. Operations on buffers and `sleep` are left to the machine,
which does not come here for them.
-/
def perform (core : Core) : (operation : FsOp H) → Outcome operation.Reply Core Stop
  | .core => .done core core
  | .setData i change =>
      .done () (core.setInode i fun old => { old with toInodeData := change old.toInodeData })
  | .setDirty i dirty => .done () (core.setInode i fun old => { old with dirty := dirty })
  | .setFile f change => .done () (core.setFile f change)
  | .setProc p change => .done () (core.setProc p change)
  | .setPipe p change => .done () (core.setPipe p change)
  | .setTty t change => .done () (core.setTty t change)
  | .takePid => .done core.nextpid { core with nextpid := core.nextpid + 1 }
  | .putchar dev char => .done (core.putchar dev char).1 (core.putchar dev char).2
  | .ifind dev inodeno =>
      match core.ifind dev inodeno with
      | .asleep core => .wait core
      | .cached i core => .done (i, true) core
      | .fresh i core => .done (i, false) core
      | .full => .stop (.panic .inodeCacheFull)
  | .ilock i =>
      if (core.inodes i).lock then .stop (.panic .ilock)
      else .done () (core.setInode i fun old => { old with lock := true })
  | .iunlock i =>
      if (core.inodes i).lock then
        .done () (core.setInode i fun old => { old with lock := false, wanted := false })
      else .stop (.panic .iunlock)
  | .idup i => .done () (core.setInode i fun old => { old with refcount := old.refcount + 1 })
  | .iunref i =>
      if (core.inodes i).refcount = 0 ∨ (core.inodes i).lock = true then .stop (.panic .iput)
      else
        .done (decide ((core.inodes i).refcount = 1))
          (core.setInode i fun old => { old with refcount := old.refcount - 1 })
  | .mark _ => .done () core
  | .stop why => .stop why
  | .bread _ _ | .bdata _ | .bstore _ _ | .bdirty _ | .bwrite _ | .brelse _ | .sleep _ =>
      .stop .fault

/-- The outcomes of the search of `iget`. -/
theorem ifind_cases (core : Core) (dev : Dev) (inodeno : ℕ) :
    (∃ i, core.findInode dev inodeno = some i ∧ (core.inodes i).lock = true ∧
      core.ifind dev inodeno =
        .asleep (core.setInode i fun old => { old with wanted := true })) ∨
    (∃ i, core.findInode dev inodeno = some i ∧ (core.inodes i).lock = false ∧
      core.ifind dev inodeno = .cached i (core.setInode i fun old =>
        { old with refcount := old.refcount + 1, wanted := false })) ∨
    (∃ i, core.findInode dev inodeno = none ∧ core.freeInode = some i ∧
      core.ifind dev inodeno = .fresh i (core.setInode i fun old => old.taken dev inodeno)) ∨
    (core.findInode dev inodeno = none ∧ core.freeInode = none ∧
      core.ifind dev inodeno = .full) := by
  unfold ifind
  cases found : core.findInode dev inodeno with
  | some i =>
      cases locked : (core.inodes i).lock with
      | true => exact Or.inl ⟨i, rfl, locked, by simp [locked]⟩
      | false => exact Or.inr (Or.inl ⟨i, rfl, locked, by simp [locked]⟩)
  | none =>
      cases free : core.freeInode with
      | some i => exact Or.inr (Or.inr (Or.inl ⟨i, rfl, rfl, rfl⟩))
      | none => exact Or.inr (Or.inr (Or.inr ⟨rfl, rfl, rfl⟩))

end Core

end Osix
