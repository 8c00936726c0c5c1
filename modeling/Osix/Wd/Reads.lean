import Osix.Wd.Basic
import Osix.Lib.Transition

/-!
# Concurrent reads of the hard disk

Processes call `wd_read`, sleep in its wait loop and are woken by the drive's interrupts.
The driver keeps one `rdbuf` for each drive, both as the place the data goes to and as
the flag that the sleepers test. A second read of the same drive replaces it, and the
first reader then returns without its data (`read_returns_without_data`).

When every read is started with `rdbuf` clear, a returning `wd_read` has delivered the
right block (`reads_correct`).
-/

namespace Osix

open Transition

/-- The driver and the processes inside `wd_read`, each with its buffer and drive. -/
structure WdSys where
  wd : Wd
  reading : Fin nproc → Option (BufId × Fin ideMaxDev)

/-- `resume` is a process that leaves `sleep` in the wait loop and tests `rdbuf` again. -/
inductive WdAct where
  | read (pid : Fin nproc) (buf : BufId)
  | resume (pid : Fin nproc)
  | intr (drive : Fin ideMaxDev)
  | reuse (buf : BufId) (dev : Dev) (blockNo : ℕ)

namespace WdSys

/-- Some process is inside `wd_read` with this buffer, or a drive is to fill it. -/
def InUse (sys : WdSys) (buf : BufId) : Prop :=
  (∃ pid drive, sys.reading pid = some (buf, drive)) ∨
    ∃ drive, (sys.wd.devsw drive).rdbuf = some buf

instance (sys : WdSys) (buf : BufId) : Decidable (sys.InUse buf) :=
  inferInstanceAs (Decidable (_ ∨ _))

def step (sys : WdSys) : WdAct → Option WdSys
  | .read pid buf =>
      if sys.reading pid = none then
        let result := sys.wd.wdRead buf
        some { wd := result.2
               reading := Function.update sys.reading pid (result.1.map (buf, ·)) }
      else none
  | .resume pid =>
      match sys.reading pid with
      | none => none
      | some (_, drive) =>
          if (sys.wd.devsw drive).rdbuf = none then
            some { sys with reading := Function.update sys.reading pid none }
          else some sys
  | .intr drive => some { sys with wd := sys.wd.wdIntr drive }
  -- `getblk` gives the buffer to another block and `bread` clears `B_ERROR`.
  | .reuse buf dev blockNo =>
      if sys.InUse buf then none
      else some { sys with wd := sys.wd.setBuf buf fun old =>
        { old with dev := dev, blockNo := blockNo, flags := .none } }

/-- No read is under way on any drive. -/
def Quiet (sys : WdSys) : Prop :=
  (∀ pid, sys.reading pid = none) ∧
    ∀ drive, (sys.wd.devsw drive).rdbuf = none ∧ (sys.wd.devsw drive).command = none

/-- The condition on a run: a read is started only when its drive has none under way. -/
def OneReadPerDrive (sys : WdSys) : WdAct → Prop
  | .read _ buf => ∀ drive sector, sys.wd.sector (sys.wd.bufs buf) = some (drive, sector) →
      (sys.wd.devsw drive).rdbuf = none
  | _ => True

/-- The buffer holds what is on the disk and is marked so. -/
def Delivered (sys : WdSys) (buf : BufId) : Prop :=
  (sys.wd.bufs buf).flags.done = true ∧
    sys.wd.contents (sys.wd.bufs buf) = some (sys.wd.bufs buf).data

/-- Each drive works for the buffer in `rdbuf`, and each reader waits for it or is served. -/
structure Serving (sys : WdSys) : Prop where
  command : ∀ drive buf, (sys.wd.devsw drive).rdbuf = some buf →
    ∃ sector, sys.wd.sector (sys.wd.bufs buf) = some (drive, sector) ∧
      (sys.wd.devsw drive).command = some (Wd.lba sector)
  reader : ∀ pid buf drive, sys.reading pid = some (buf, drive) →
    (∃ sector, sys.wd.sector (sys.wd.bufs buf) = some (drive, sector)) ∧
      ((sys.wd.devsw drive).rdbuf = some buf ∨ sys.Delivered buf)

end WdSys

namespace Wd

/-- The drives have the same partitions and the same data. -/
structure SameDisks (wd wd' : Wd) : Prop where
  blocks : ∀ drive, (wd'.devsw drive).blocks = (wd.devsw drive).blocks
  part : ∀ drive, (wd'.devsw drive).part = (wd.devsw drive).part
  sectors : ∀ drive, (wd'.devsw drive).sectors = (wd.devsw drive).sectors

theorem SameDisks.sector {wd wd' : Wd} (same : wd.SameDisks wd') (buf : Buf) :
    wd'.sector buf = wd.sector buf := by
  simp only [Wd.sector, same.blocks, same.part]

theorem SameDisks.twoSectors {wd wd' : Wd} (same : wd.SameDisks wd') (drive : Fin ideMaxDev) :
    (wd'.devsw drive).twoSectors = (wd.devsw drive).twoSectors := by
  unfold Drive.twoSectors
  rw [same.sectors]

theorem SameDisks.contents {wd wd' : Wd} (same : wd.SameDisks wd') (buf : Buf) :
    wd'.contents buf = wd.contents buf := by
  simp only [Wd.contents, same.sector, same.twoSectors]

theorem SameDisks.setDrive {wd wd' : Wd} (same : wd.SameDisks wd') {drive : Fin ideMaxDev}
    {change : Drive → Drive} (blocks : ∀ old, (change old).blocks = old.blocks)
    (part : ∀ old, (change old).part = old.part)
    (sectors : ∀ old, (change old).sectors = old.sectors) :
    wd.SameDisks (wd'.setDrive drive change) := by
  refine ⟨?_, ?_, ?_⟩ <;> intro other <;> rcases eq_or_ne other drive with rfl | ne
  all_goals
    simp_all [Wd.setDrive, Function.update_of_ne, same.blocks, same.part, same.sectors]

/-- `sector` looks at the device and block number only. -/
theorem sector_congr (wd : Wd) {buf buf' : Buf} (dev : buf'.dev = buf.dev)
    (blockNo : buf'.blockNo = buf.blockNo) : wd.sector buf' = wd.sector buf := by
  simp only [Wd.sector, dev, blockNo]

end Wd

namespace WdSys

theorem serving_of_quiet {sys : WdSys} (quiet : sys.Quiet) : sys.Serving where
  command drive buf rdbuf := by
    rw [(quiet.2 drive).1] at rdbuf
    cases rdbuf
  reader pid buf drive reading := by
    rw [quiet.1 pid] at reading
    cases reading

theorem Delivered.of_same {sys sys' : WdSys} {buf : BufId} (delivered : sys.Delivered buf)
    (same : sys.wd.SameDisks sys'.wd)
    (dev : (sys'.wd.bufs buf).dev = (sys.wd.bufs buf).dev)
    (blockNo : (sys'.wd.bufs buf).blockNo = (sys.wd.bufs buf).blockNo)
    (data : (sys'.wd.bufs buf).data = (sys.wd.bufs buf).data)
    (done : (sys.wd.bufs buf).flags.done = true → (sys'.wd.bufs buf).flags.done = true) :
    sys'.Delivered buf := by
  refine ⟨done delivered.1, ?_⟩
  rw [same.contents, data, ← delivered.2, Wd.contents, Wd.contents, Wd.sector_congr _ dev blockNo]

/-- Steps that start and end no transfer and clear no `B_DONE`. -/
theorem Serving.of_same {sys sys' : WdSys} (serving : sys.Serving)
    (same : sys.wd.SameDisks sys'.wd)
    (rdbuf : ∀ drive, (sys'.wd.devsw drive).rdbuf = (sys.wd.devsw drive).rdbuf)
    (command : ∀ drive, (sys'.wd.devsw drive).command = (sys.wd.devsw drive).command)
    (dev : ∀ buf, sys.InUse buf → (sys'.wd.bufs buf).dev = (sys.wd.bufs buf).dev)
    (blockNo : ∀ buf, sys.InUse buf → (sys'.wd.bufs buf).blockNo = (sys.wd.bufs buf).blockNo)
    (data : ∀ buf, sys.InUse buf → (sys'.wd.bufs buf).data = (sys.wd.bufs buf).data)
    (done : ∀ buf, sys.InUse buf → (sys.wd.bufs buf).flags.done = true →
      (sys'.wd.bufs buf).flags.done = true)
    (reading : ∀ pid read, sys'.reading pid = some read → sys.reading pid = some read) :
    sys'.Serving where
  command drive buf filling := by
    rw [rdbuf] at filling
    have inUse : sys.InUse buf := Or.inr ⟨drive, filling⟩
    rcases serving.command drive buf filling with ⟨sector, place, issued⟩
    refine ⟨sector, ?_, (command drive).trans issued⟩
    rw [same.sector, Wd.sector_congr _ (dev buf inUse) (blockNo buf inUse), place]
  reader pid buf drive read := by
    have old := reading pid _ read
    have inUse : sys.InUse buf := Or.inl ⟨pid, drive, old⟩
    rcases serving.reader pid buf drive old with ⟨⟨sector, place⟩, waiting | delivered⟩
    all_goals
      refine ⟨⟨sector, ?_⟩, ?_⟩
      · rw [same.sector, Wd.sector_congr _ (dev buf inUse) (blockNo buf inUse), place]
    · exact Or.inl ((rdbuf drive).trans waiting)
    · exact Or.inr (delivered.of_same same (dev buf inUse) (blockNo buf inUse) (data buf inUse)
        (done buf inUse))

/-- `wd_read` of a block its device does not have fails at once. -/
theorem serving_read_failed {sys : WdSys} (serving : sys.Serving) (pid : Fin nproc)
    (buf : BufId) :
    Serving
      { wd := (sys.wd.setBuf buf fun old =>
          { old with flags := { old.flags with error := true } }).iodone buf
        reading := Function.update sys.reading pid none } := by
  set wd := (sys.wd.setBuf buf fun old =>
    { old with flags := { old.flags with error := true } }).iodone buf with wdEq
  have bufs : ∀ other, (wd.bufs other).dev = (sys.wd.bufs other).dev ∧
      (wd.bufs other).blockNo = (sys.wd.bufs other).blockNo ∧
      (wd.bufs other).data = (sys.wd.bufs other).data ∧
      ((sys.wd.bufs other).flags.done = true → (wd.bufs other).flags.done = true) := by
    intro other
    rcases eq_or_ne other buf with rfl | ne
    · simp [wdEq, Wd.iodone, Wd.setBuf]
    · simp [wdEq, Wd.iodone, Wd.setBuf, Function.update_of_ne ne]
  refine serving.of_same ?_ (fun _ => rfl) (fun _ => rfl) (fun other _ => (bufs other).1)
    (fun other _ => (bufs other).2.1) (fun other _ => (bufs other).2.2.1)
    (fun other _ => (bufs other).2.2.2) ?_
  · exact ⟨fun _ => rfl, fun _ => rfl, fun _ => rfl⟩
  · intro other read reading
    rcases eq_or_ne other pid with rfl | ne
    · simp at reading
    · simpa only [Function.update_of_ne ne] using reading

/-- A read that finds its drive without one under way. -/
theorem serving_read_issued {sys : WdSys} (serving : sys.Serving) (pid : Fin nproc) {buf : BufId}
    {drive : Fin ideMaxDev} {sector : ℕ}
    (place : sys.wd.sector (sys.wd.bufs buf) = some (drive, sector))
    (free : (sys.wd.devsw drive).rdbuf = none) :
    Serving
      { wd := (sys.wd.select drive sector).setDrive drive fun old =>
          { old with rdbuf := some buf, command := some (Wd.lba sector) }
        reading := Function.update sys.reading pid (some (buf, drive)) } := by
  set wd := (sys.wd.select drive sector).setDrive drive fun old =>
    { old with rdbuf := some buf, command := some (Wd.lba sector) } with wdEq
  have same : sys.wd.SameDisks wd := by
    apply Wd.SameDisks.setDrive
    · exact ⟨fun _ => rfl, fun _ => rfl, fun _ => rfl⟩
    all_goals exact fun _ => rfl
  have own : wd.devsw drive = { sys.wd.devsw drive with
      rdbuf := some buf, command := some (Wd.lba sector) } := by
    simp [wdEq, Wd.setDrive, Wd.select]
  have others : ∀ other, other ≠ drive → wd.devsw other = sys.wd.devsw other := by
    intro other ne
    simp [wdEq, Wd.setDrive, Wd.select, Function.update_of_ne ne]
  refine ⟨?_, ?_⟩
  · intro other filled filling
    dsimp only at filling ⊢
    rw [same.sector]
    rcases eq_or_ne other drive with rfl | ne
    · rw [own] at filling ⊢
      cases filling
      exact ⟨sector, place, rfl⟩
    · rw [others other ne] at filling ⊢
      exact serving.command other filled filling
  · intro other read readDrive reading
    dsimp only at reading ⊢
    rw [same.sector]
    rcases eq_or_ne other pid with rfl | ne
    · simp only [Function.update_self] at reading
      cases reading
      exact ⟨⟨sector, place⟩, Or.inl (by rw [own])⟩
    · simp only [Function.update_of_ne ne] at reading
      rcases serving.reader other read readDrive reading with ⟨located, waiting | delivered⟩
      · refine ⟨located, Or.inl ?_⟩
        rcases eq_or_ne readDrive drive with rfl | driveNe
        · rw [free] at waiting
          cases waiting
        · rw [others readDrive driveNe]
          exact waiting
      · exact ⟨located, Or.inr (delivered.of_same same rfl rfl rfl id)⟩

/-- The interrupt that hands the data over. -/
theorem serving_transfer {sys : WdSys} (serving : sys.Serving) {drive : Fin ideMaxDev}
    {buf : BufId} {address : ℕ} (issued : (sys.wd.devsw drive).command = some address)
    (filling : (sys.wd.devsw drive).rdbuf = some buf) :
    Serving
      { sys with
        wd := ((sys.wd.setBuf buf fun old =>
          { old with data := (sys.wd.devsw drive).twoSectors address }).iodone buf).setDrive drive
            fun old => { old with rdbuf := none, command := none } } := by
  set wd := ((sys.wd.setBuf buf fun old =>
    { old with data := (sys.wd.devsw drive).twoSectors address }).iodone buf).setDrive drive
      fun old => { old with rdbuf := none, command := none } with wdEq
  have same : sys.wd.SameDisks wd := by
    apply Wd.SameDisks.setDrive
    · exact ⟨fun _ => rfl, fun _ => rfl, fun _ => rfl⟩
    all_goals exact fun _ => rfl
  have bufs : ∀ other, other ≠ buf → wd.bufs other = sys.wd.bufs other := by
    intro other ne
    simp [wdEq, Wd.setDrive, Wd.iodone, Wd.setBuf, Function.update_of_ne ne]
  have filled : (wd.bufs buf).dev = (sys.wd.bufs buf).dev ∧
      (wd.bufs buf).blockNo = (sys.wd.bufs buf).blockNo ∧
      (wd.bufs buf).data = (sys.wd.devsw drive).twoSectors address ∧
      (wd.bufs buf).flags.done = true := by
    simp [wdEq, Wd.setDrive, Wd.iodone, Wd.setBuf]
  have sector : ∀ other, wd.sector (wd.bufs other) = sys.wd.sector (sys.wd.bufs other) := by
    intro other
    rw [same.sector]
    rcases eq_or_ne other buf with rfl | ne
    · exact Wd.sector_congr _ filled.1 filled.2.1
    · rw [bufs other ne]
  have delivered : Delivered { sys with wd := wd } buf := by
    rcases serving.command drive buf filling with ⟨place, located, command⟩
    rw [issued, Option.some.injEq] at command
    refine ⟨filled.2.2.2, ?_⟩
    dsimp only
    rw [Wd.contents, sector, located, filled.2.2.1, command, Option.map_some, same.twoSectors]
  have drives : ∀ other, other ≠ drive → wd.devsw other = sys.wd.devsw other := by
    intro other ne
    simp [wdEq, Wd.setDrive, Wd.iodone, Wd.setBuf, Function.update_of_ne ne]
  have idle : (wd.devsw drive).rdbuf = none := by
    simp [wdEq, Wd.setDrive]
  refine ⟨?_, ?_⟩
  · intro other otherBuf otherFilling
    dsimp only at otherFilling ⊢
    rw [sector]
    rcases eq_or_ne other drive with rfl | ne
    · rw [idle] at otherFilling
      cases otherFilling
    · rw [drives other ne] at otherFilling ⊢
      exact serving.command other otherBuf otherFilling
  · intro pid read readDrive reading
    dsimp only at reading ⊢
    rw [sector]
    rcases serving.reader pid read readDrive reading with ⟨located, state⟩
    refine ⟨located, ?_⟩
    rcases eq_or_ne read buf with rfl | ne
    · exact Or.inr delivered
    · rcases state with waiting | old
      · left
        rcases eq_or_ne readDrive drive with rfl | driveNe
        · rw [filling] at waiting
          exact absurd (Option.some.inj waiting).symm ne
        · rw [drives readDrive driveNe]
          exact waiting
      · have unchanged : ({ sys with wd := wd } : WdSys).wd.bufs read = sys.wd.bufs read :=
          bufs read ne
        exact Or.inr (old.of_same same (by rw [unchanged]) (by rw [unchanged])
          (by rw [unchanged]) (by rw [unchanged]; exact id))

/-- The interrupt that ends a write. -/
theorem serving_writeDone {sys : WdSys} (serving : sys.Serving) (drive : Fin ideMaxDev)
    (buf : BufId) :
    Serving
      { sys with wd := (sys.wd.iodone buf).setDrive drive fun old => { old with wrbuf := none } } := by
  set wd := (sys.wd.iodone buf).setDrive drive fun old => { old with wrbuf := none } with wdEq
  have same : sys.wd.SameDisks wd := by
    apply Wd.SameDisks.setDrive
    · exact ⟨fun _ => rfl, fun _ => rfl, fun _ => rfl⟩
    all_goals exact fun _ => rfl
  have drives : ∀ other, (wd.devsw other).rdbuf = (sys.wd.devsw other).rdbuf ∧
      (wd.devsw other).command = (sys.wd.devsw other).command := by
    intro other
    rcases eq_or_ne other drive with rfl | ne
    · simp [wdEq, Wd.setDrive, Wd.iodone, Wd.setBuf]
    · simp [wdEq, Wd.setDrive, Wd.iodone, Wd.setBuf, Function.update_of_ne ne]
  have bufs : ∀ other, (wd.bufs other).dev = (sys.wd.bufs other).dev ∧
      (wd.bufs other).blockNo = (sys.wd.bufs other).blockNo ∧
      (wd.bufs other).data = (sys.wd.bufs other).data ∧
      ((sys.wd.bufs other).flags.done = true → (wd.bufs other).flags.done = true) := by
    intro other
    rcases eq_or_ne other buf with rfl | ne
    · simp [wdEq, Wd.setDrive, Wd.iodone, Wd.setBuf]
    · simp [wdEq, Wd.setDrive, Wd.iodone, Wd.setBuf, Function.update_of_ne ne]
  exact serving.of_same same (fun other => (drives other).1) (fun other => (drives other).2)
    (fun other _ => (bufs other).1) (fun other _ => (bufs other).2.1)
    (fun other _ => (bufs other).2.2.1) (fun other _ => (bufs other).2.2.2) (fun _ _ => id)

theorem serving_intr {sys : WdSys} (serving : sys.Serving) (drive : Fin ideMaxDev) :
    Serving { sys with wd := sys.wd.wdIntr drive } := by
  unfold Wd.wdIntr
  split
  · rename_i address buf issued filling
    exact serving_transfer serving issued filling
  · rename_i buf _ _
    exact serving_writeDone serving drive buf
  · exact serving

theorem serving_step {sys sys' : WdSys} {act : WdAct} (serving : sys.Serving)
    (allowed : sys.OneReadPerDrive act) (stepped : sys.step act = some sys') : sys'.Serving := by
  cases act with
  | read pid buf =>
      simp only [step] at stepped
      split at stepped
      · cases stepped
        unfold Wd.wdRead
        cases place : sys.wd.sector (sys.wd.bufs buf) with
        | none => exact serving_read_failed serving pid buf
        | some target => exact serving_read_issued serving pid place (allowed _ _ place)
      · cases stepped
  | resume pid =>
      simp only [step] at stepped
      split at stepped
      · cases stepped
      · split at stepped
        · cases stepped
          refine ⟨serving.command, ?_⟩
          intro other buf drive reading
          rcases eq_or_ne other pid with rfl | ne
          · simp at reading
          · simp only [Function.update_of_ne ne] at reading
            exact serving.reader other buf drive reading
        · cases stepped
          exact serving
  | intr drive =>
      cases stepped
      exact serving_intr serving drive
  | reuse buf dev blockNo =>
      simp only [step] at stepped
      split at stepped
      · cases stepped
      · rename_i free
        cases stepped
        have others : ∀ other, sys.InUse other →
            (sys.wd.setBuf buf fun old =>
              { old with dev := dev, blockNo := blockNo, flags := .none }).bufs other =
              sys.wd.bufs other := by
          intro other inUse
          have ne : other ≠ buf := by
            rintro rfl
            exact free inUse
          simp [Wd.setBuf, Function.update_of_ne ne]
        exact serving.of_same ⟨fun _ => rfl, fun _ => rfl, fun _ => rfl⟩ (fun _ => rfl)
          (fun _ => rfl) (fun other inUse => by dsimp only; rw [others other inUse])
          (fun other inUse => by dsimp only; rw [others other inUse])
          (fun other inUse => by dsimp only; rw [others other inUse])
          (fun other inUse => by dsimp only; rw [others other inUse]; exact id)
          (fun _ _ => id)

/--
When every read is started with its drive free, a process that is to return from
`wd_read` with `B_ERROR` clear has `B_DONE` set and the contents of its block.
-/
theorem reads_correct {start sys : WdSys} (quiet : start.Quiet)
    (reach : Reach step OneReadPerDrive start sys) (pid : Fin nproc) (buf : BufId)
    (drive : Fin ideMaxDev) (reading : sys.reading pid = some (buf, drive))
    (returns : (sys.wd.devsw drive).rdbuf = none) :
    (sys.wd.bufs buf).flags.done = true ∧
      sys.wd.contents (sys.wd.bufs buf) = some (sys.wd.bufs buf).data := by
  have serving : sys.Serving := reach.invariant (serving_of_quiet quiet)
    fun serving allowed stepped => serving_step serving allowed stepped
  rcases (serving.reader pid buf drive reading).2 with waiting | delivered
  · rw [returns] at waiting
    cases waiting
  · exact delivered

/-- Two buffers for blocks 5 and 6 of a drive whose sectors hold their own numbers. -/
def twoBlocks : WdSys where
  wd :=
    { devsw := fun _ =>
        { blocks := 100, rdbuf := none, wrbuf := none, part := fun _ => ⟨0, 0, 0⟩,
          command := none, sectors := fun lba _ => BitVec.ofNat 8 lba }
      driveReg := fun _ => ideMaster
      bufs := fun buf => ⟨0, 5 + buf, .none, 1, fun _ => 0⟩ }
  reading := fun _ => none

theorem quiet_twoBlocks : twoBlocks.Quiet := ⟨fun _ => rfl, fun _ => ⟨rfl, rfl⟩⟩

theorem reads_correct_oneRead :
    ∃ sys, Reach step OneReadPerDrive twoBlocks sys ∧ sys.reading 0 = some (0, 0) ∧
      (sys.wd.bufs 0).flags.done = true ∧
      sys.wd.contents (sys.wd.bufs 0) = some (sys.wd.bufs 0).data := by
  have observed : (run step twoBlocks [.read 0 0, .intr 0]).any (fun sys =>
      decide (sys.reading 0 = some (0, 0)) && decide ((sys.wd.devsw 0).rdbuf = none)) = true := by
    decide
  simp only [Option.any_eq_true, decide_eq_true_eq, Bool.and_eq_true] at observed
  rcases observed with ⟨sys, performed, reading, returns⟩
  simp only [run, Option.bind_eq_some_iff] at performed
  rcases performed with ⟨issued, stepped, final, transferred, ended⟩
  cases ended
  have driveFree : twoBlocks.OneReadPerDrive (.read 0 0) := fun _ _ _ => rfl
  have interrupted : issued.OneReadPerDrive (.intr 0) := trivial
  have reach : Reach step OneReadPerDrive twoBlocks sys :=
    .next (.next .start driveFree stepped) interrupted transferred
  exact ⟨sys, reach, reading, reads_correct quiet_twoBlocks reach 0 0 0 reading returns⟩

/--
Two processes read blocks 5 and 6 of one drive. The interrupt delivers block 6 and clears
`rdbuf`; the first reader returns with `B_ERROR` clear, without `B_DONE` and without the
contents of block 5.
-/
theorem read_returns_without_data :
    ∃ sys buf drive, Reach step Always twoBlocks sys ∧ sys.reading 0 = some (buf, drive) ∧
      (sys.wd.devsw drive).rdbuf = none ∧ (sys.wd.bufs buf).flags.error = false ∧
      ¬ ((sys.wd.bufs buf).flags.done = true ∧
        sys.wd.contents (sys.wd.bufs buf) = some (sys.wd.bufs buf).data) := by
  have observed : (run step twoBlocks [.read 0 0, .read 1 1, .intr 0]).any (fun sys =>
      decide (sys.reading 0 = some (0, 0)) && decide ((sys.wd.devsw 0).rdbuf = none) &&
        decide ((sys.wd.bufs 0).flags.error = false) &&
        decide ((sys.wd.bufs 0).flags.done = false)) = true := by
    decide
  simp only [Option.any_eq_true, decide_eq_true_eq, Bool.and_eq_true] at observed
  rcases observed with ⟨sys, performed, ⟨⟨reading, returns⟩, noError⟩, notDone⟩
  refine ⟨sys, 0, 0, reach_of_run .start performed, reading, returns, noError, ?_⟩
  rintro ⟨done, -⟩
  rw [notDone] at done
  cases done

end WdSys

end Osix
