import Osix.Bio.Basic

/-!
# The hard disk driver

This file embeds `wd_read` and the interrupt handlers of `sys/i386/wd.c` at the level of the
driver's own table and of the drives' registers. A drive answers a read command with the two
sectors at the address it was given, whichever buffer the driver has in mind by then: the
command is recorded in `command`, the buffer in `rdbuf`.

Two drives share a port, and an interrupt says only which port it comes from. The drive register
of the port holds what was written to it last: the drive, and four bits of the sector number.

`wd_read` is cut where it sleeps. `wdRead` runs up to the first test of `rdbuf`; a woken
process tests it again, which `wdSys` models as a step of its own.
-/

namespace Osix

/-- `IDE_MAX_DEV`. -/
def ideMaxDev : ℕ := 4

instance : NeZero ideMaxDev := ⟨by decide⟩

/-- `SECTOR_SIZE`. -/
def sectorSize : ℕ := 512

/-- `IDE_MASTER`. -/
def ideMaster : ℕ := 0xE0

/-- `IDE_SLAVE`. -/
def ideSlave : ℕ := 0xF0

/-- `part_t`. -/
structure Part where
  partType : ℕ
  offset : ℕ
  size : ℕ

/-- `wd_t`, the sectors of the drive and the read command it is working on. -/
structure Drive where
  blocks : ℕ
  rdbuf : Option BufId
  wrbuf : Option BufId
  part : Fin 4 → Part
  /-- Start address of the last read command whose data was not yet taken. -/
  command : Option ℕ
  sectors : ℕ → ℕ → Byte

/-- The driver's table `wd_devsw`, the drive registers and the buffers it transfers. -/
structure Wd where
  devsw : Fin ideMaxDev → Drive
  /-- The drive register of the primary and of the secondary port. -/
  driveReg : Fin 2 → ℕ
  bufs : BufId → Buf

/-- The port of a drive. -/
def idePort (drive : Fin ideMaxDev) : Fin 2 := if drive < 2 then 0 else 1

/-- `drive` in `wd_t`. -/
def ideDrive (drive : Fin ideMaxDev) : ℕ := if drive = 0 ∨ drive = 2 then ideMaster else ideSlave

/-- The two sectors from `lba` on, as the bytes of a block. -/
def Drive.twoSectors (drive : Drive) (lba : ℕ) : Block :=
  fun byte =>
    if byte < sectorSize then drive.sectors lba byte
    else drive.sectors (lba + 1) (byte - sectorSize)

namespace Wd

/-- The drive and the sector a buffer is transferred to or from, if there is one. -/
def sector (wd : Wd) (buf : Buf) : Option (Fin ideMaxDev × ℕ) :=
  let driveNo := (minor buf.dev).toNat / 16
  if known : driveNo < ideMaxDev then
    let drive := wd.devsw ⟨driveNo, known⟩
    if drive.blocks = 0 then none
    else
      let partNo := (minor buf.dev).toNat % 16
      if partNo = 0 then
        some (⟨driveNo, known⟩, buf.blockNo * 2 % 2 ^ 32)
      else if inTable : partNo - 1 < 4 then
        let part := drive.part ⟨partNo - 1, inTable⟩
        if part.partType = 0 then none
        else some (⟨driveNo, known⟩, (buf.blockNo * 2 + part.offset) % 2 ^ 32)
      else none
  else none

/-- The address registers of the drive take 28 bits of the sector number. -/
def lba (sector : ℕ) : ℕ := sector % 2 ^ 28

/-- The bytes of the block that a buffer stands for, if its device has it. -/
def contents (wd : Wd) (buf : Buf) : Option Block :=
  (wd.sector buf).map fun place => (wd.devsw place.1).twoSectors (lba place.2)

def setBuf (wd : Wd) (buf : BufId) (change : Buf → Buf) : Wd :=
  { wd with bufs := Function.update wd.bufs buf (change (wd.bufs buf)) }

def setDrive (wd : Wd) (drive : Fin ideMaxDev) (change : Drive → Drive) : Wd :=
  { wd with devsw := Function.update wd.devsw drive (change (wd.devsw drive)) }

/-- Writes the drive register of the drive's port. -/
def select (wd : Wd) (drive : Fin ideMaxDev) (sector : ℕ) : Wd :=
  { wd with
    driveReg := Function.update wd.driveReg (idePort drive)
      (ideDrive drive ||| (sector >>> 24 &&& 0x0F)) }

def iodone (wd : Wd) (buf : BufId) : Wd :=
  wd.setBuf buf fun old => { old with flags := { old.flags with done := true, wanted := false } }

/-- `wd_read` up to its wait loop; the drive it waits for, unless the device has no such block. -/
def wdRead (wd : Wd) (buf : BufId) : Option (Fin ideMaxDev) × Wd :=
  match wd.sector (wd.bufs buf) with
  | none =>
      (none, (wd.setBuf buf fun old =>
        { old with flags := { old.flags with error := true } }).iodone buf)
  | some (drive, sector) =>
      (some drive, (wd.select drive sector).setDrive drive fun old =>
        { old with rdbuf := some buf, command := some (lba sector) })

/--
`wd_intr`. The status register shows `DRQ` while the drive has data of a read command to
hand over.
-/
def wdIntr (wd : Wd) (drive : Fin ideMaxDev) : Wd :=
  match (wd.devsw drive).command, (wd.devsw drive).rdbuf, (wd.devsw drive).wrbuf with
  | some address, some buf, _ =>
      let data := (wd.devsw drive).twoSectors address
      ((wd.setBuf buf fun old => { old with data := data }).iodone buf).setDrive drive fun old =>
        { old with rdbuf := none, command := none }
  | _, _, some buf =>
      (wd.iodone buf).setDrive drive fun old => { old with wrbuf := none }
  | _, _, none => wd

/-- `wd_intr0`. -/
def wdIntr0 (wd : Wd) : Wd :=
  let drive := wd.driveReg 0
  if drive = ideMaster then wd.wdIntr 0
  else if drive = ideSlave then wd.wdIntr 1
  else wd

/-- `wd_intr1`. -/
def wdIntr1 (wd : Wd) : Wd :=
  let drive := wd.driveReg 1
  if drive = ideMaster then wd.wdIntr 2
  else if drive = ideSlave then wd.wdIntr 3
  else wd

/-- The interrupt of a port. -/
def interrupt (wd : Wd) (port : Fin 2) : Wd := if port = 0 then wd.wdIntr0 else wd.wdIntr1

end Wd

end Osix
