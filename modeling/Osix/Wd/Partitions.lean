import Osix.Fs.Basic
import Osix.Wd.Basic

/-!
# Partitions

`wd_init`, `wd_read` and `wd_write` of `sys/i386/wd.c`. `wd_init` reads a master boot record for
every drive and enters its partitions in the driver's table, from which a read or a write takes
the start of the partition. Which record is read and where the entries go decides whether the
minor number of a device leads to the partition it names (`addressed_iff`).
-/

namespace Osix

/-- `MBR_SIGNATURE`. -/
def mbrSignature : ℕ := 0xAA55

/-- An entry of the table that is not in use. -/
def Part.unused : Part := ⟨0, 0, 0⟩

/-- `part[p]` of `struct mbr`. -/
def Block.mbrPart (mbr : Block) (p : Fin 4) : Part where
  partType := (mbr (446 + 16 * p + 4)).toNat
  offset := mbr.get32 (446 + 16 * p + 8)
  size := mbr.get32 (446 + 16 * p + 12)

/-- `mbr->signature == MBR_SIGNATURE`. -/
def Block.IsMbr (mbr : Block) : Prop := mbr.get16 510 = mbrSignature

instance (mbr : Block) : Decidable mbr.IsMbr := inferInstanceAs (Decidable (_ = _))

namespace Wd

/-! ## Filling the table -/

/-- `wd_probe`: the drive identifies itself with its number of blocks, or is not there. -/
def wdProbe (wd : Wd) (drive : Fin ideMaxDev) (blocks : ℕ) : Wd :=
  (wd.select drive 0).setDrive drive fun old =>
    { old with
      blocks := blocks
      rdbuf := none
      wrbuf := none
      part := fun _ => .unused
      command := none }

/-- The buffer of `bread(makedev(0, 0), 0)`, all 0 so far. -/
def mbrBuf : Buf := ⟨0, 0, .none, 1, fun _ => 0⟩

/-- What `bread(makedev(0, 0), 0)` reads. -/
def breadMbr (wd : Wd) : Block := (wd.contents mbrBuf).getD fun _ => 0

/-- The drive registers after `bread(makedev(0, 0), 0)`. -/
def selectMbr (wd : Wd) : Wd :=
  match wd.sector mbrBuf with
  | none => wd
  | some (drive, sector) => wd.select drive sector

/-- The entry of the table, `wd_devsw[d].part[d]`, that the loop over `p` fills. -/
def enterPart (d : Fin ideMaxDev) (mbr : Block) (wd : Wd) (p : Fin 4) : Wd :=
  if (mbr.mbrPart p).partType ≠ 0 then
    wd.setDrive d fun old =>
      { old with part := Function.update old.part ⟨d, d.isLt⟩ (mbr.mbrPart p) }
  else wd

/-- The body of the loop over `d`. -/
def initDrive (wd : Wd) (d : Fin ideMaxDev) : Wd :=
  if (wd.devsw d).blocks = 0 then wd
  else
    let mbr := wd.breadMbr
    let wd := wd.selectMbr
    if mbr.IsMbr then (List.finRange 4).foldl (enterPart d mbr) wd
    else wd

/-- `wd_init`, with the sizes of the drives that `wd_probe` finds. -/
def wdInit (wd : Wd) (blocks : Fin ideMaxDev → ℕ) : Wd :=
  let probed := (List.finRange ideMaxDev).foldl (fun wd drive => wd.wdProbe drive (blocks drive)) wd
  (List.finRange ideMaxDev).foldl initDrive probed

/-! ## Using it -/

/--
`wd_write`, with the drive it gives a command to. The drive has the data at once, the
interrupt comes later.
-/
def wdWrite (wd : Wd) (buf : BufId) : Option (Fin ideMaxDev) × Wd :=
  match wd.sector (wd.bufs buf) with
  | none =>
      (none, (wd.setBuf buf fun old =>
        { old with flags := { old.flags with error := true } }).iodone buf)
  | some (drive, sector) =>
      let data := (wd.bufs buf).data
      let address := lba sector
      (some drive, (wd.select drive sector).setDrive drive fun old =>
        { old with
          wrbuf := some buf
          sectors := fun number =>
            if number = address then data
            else if number = address + 1 then fun byte => data (sectorSize + byte)
            else old.sectors number })

/-- The same driver over drives with other contents. -/
def withSectors (wd : Wd) (sectors : Fin ideMaxDev → ℕ → ℕ → Byte) : Wd :=
  { wd with devsw := fun drive => { wd.devsw drive with sectors := sectors drive } }

/-- `wd_read` and the interrupt fill the buffer from two sectors, or there is an error. -/
def Reads (wd : Wd) (buf : BufId) : Option (Fin ideMaxDev × ℕ) → Prop
  | some (drive, sector) =>
      let after := (wd.wdRead buf).2.interrupt (idePort drive)
      (wd.wdRead buf).1 = some drive ∧ (after.devsw drive).rdbuf = none ∧
        (after.bufs buf).flags.done = true ∧
        (after.bufs buf).data = (wd.devsw drive).twoSectors sector ∧
        (∀ other, other ≠ buf → after.bufs other = wd.bufs other) ∧
        ∀ other, (after.devsw other).sectors = (wd.devsw other).sectors
  | none =>
      (wd.wdRead buf).1 = none ∧ ((wd.wdRead buf).2.bufs buf).flags.error = true ∧
        (wd.wdRead buf).2.devsw = wd.devsw

/--
`wd_write` fills two sectors from the buffer and leaves all others, and the interrupt ends it
unless it belongs to a read command; or there is an error.
-/
def Writes (wd : Wd) (buf : BufId) : Option (Fin ideMaxDev × ℕ) → Prop
  | some (drive, sector) =>
      let next := (wd.wdWrite buf).2
      let after := next.interrupt (idePort drive)
      (wd.wdWrite buf).1 = some drive ∧
        (next.devsw drive).twoSectors sector = (wd.bufs buf).data ∧
        (∀ number, number ≠ sector → number ≠ sector + 1 →
          (next.devsw drive).sectors number = (wd.devsw drive).sectors number) ∧
        (∀ other, other ≠ drive → (next.devsw other).sectors = (wd.devsw other).sectors) ∧
        ((wd.devsw drive).rdbuf = none →
          (after.devsw drive).wrbuf = none ∧ (after.bufs buf).flags.done = true)
  | none =>
      (wd.wdWrite buf).1 = none ∧ ((wd.wdWrite buf).2.bufs buf).flags.error = true ∧
        (wd.wdWrite buf).2.devsw = wd.devsw

/--
A buffer is transferred from and to two sectors, or there is an error, whatever the drives hold.
-/
def Transfers (wd : Wd) (buf : BufId) (target : Option (Fin ideMaxDev × ℕ)) : Prop :=
  ∀ sectors, (wd.withSectors sectors).Reads buf target ∧ (wd.withSectors sectors).Writes buf target

/-- What happens after `wd_init`: the driver's functions, and any use of the buffers. -/
inductive Used (wd : Wd) : Wd → Prop where
  | refl : Used wd wd
  | read {later : Wd} (used : Used wd later) (buf : BufId) : Used wd (later.wdRead buf).2
  | write {later : Wd} (used : Used wd later) (buf : BufId) : Used wd (later.wdWrite buf).2
  | intr {later : Wd} (used : Used wd later) (port : Fin 2) : Used wd (later.interrupt port)
  | bufs {later : Wd} (used : Used wd later) (bufs : BufId → Buf) :
      Used wd { later with bufs := bufs }

/-! ## What the devices are to mean -/

/-- An entry of the first sector of a drive, if this is a master boot record. -/
def ownPart (wd : Wd) (d : Fin ideMaxDev) (p : Fin 4) : Part :=
  let mbr := (wd.devsw d).twoSectors 0
  if mbr.IsMbr then mbr.mbrPart p else .unused

/-- Where a block of a partition is: inside the partition, or nowhere. -/
def target (wd : Wd) (blocks : Fin ideMaxDev → ℕ) (d : Fin ideMaxDev) (p : Fin 4) (blockNo : ℕ) :
    Option (Fin ideMaxDev × ℕ) :=
  let part := wd.ownPart d p
  if blocks d ≠ 0 ∧ part.partType ≠ 0 ∧ 2 * blockNo + 2 ≤ part.size then
    some (d, part.offset + 2 * blockNo)
  else none

/-- The last entry in use, if the first drive has a master boot record. -/
def lastPart (wd : Wd) (blocks : Fin ideMaxDev → ℕ) : Part :=
  if blocks 0 = 0 then .unused
  else
    (List.finRange 4).foldl (fun last p =>
      if (wd.ownPart 0 p).partType ≠ 0 then wd.ownPart 0 p else last) .unused

/--
The condition. The table has only one entry for each drive, the one with the number of the drive,
and it holds the last partition of the first drive. The interrupt handlers know a drive by its
register only as long as there are no bits of the sector in it.
-/
def LedRight (wd : Wd) (blocks : Fin ideMaxDev → ℕ) (d : Fin ideMaxDev) (p : Fin 4)
    (blockNo : ℕ) : Prop :=
  let own := wd.ownPart d p
  let last := wd.lastPart blocks
  blocks d = 0 ∨
    if own.partType ≠ 0 ∧ 2 * blockNo + 2 ≤ own.size then
      (p : ℕ) = d ∧ last.partType ≠ 0 ∧ last.offset % 2 ^ 28 = own.offset ∧
        own.offset + 2 * blockNo < 2 ^ 24
    else (p : ℕ) ≠ d ∨ last.partType = 0

instance (wd : Wd) (blocks : Fin ideMaxDev → ℕ) (d : Fin ideMaxDev) (p : Fin 4) (blockNo : ℕ) :
    Decidable (LedRight wd blocks d p blockNo) :=
  inferInstanceAs (Decidable (_ ∨ ite _ _ _))

/-! ## What the table holds -/

section

variable {wd wd' : Wd} {d : Fin ideMaxDev}

/-- Changing drives one after the other, by a step that may rely on what the steps keep. -/
theorem foldl_devsw {step : Wd → Fin ideMaxDev → Wd}
    (change : Fin ideMaxDev → Drive → Drive) (kept : Wd → Prop)
    (keeps : ∀ wd drive, kept wd → kept (step wd drive))
    (changes : ∀ wd drive, kept wd →
      (step wd drive).devsw = Function.update wd.devsw drive (change drive (wd.devsw drive)))
    {drives : List (Fin ideMaxDev)} (nodup : drives.Nodup) (wd : Wd) (holds : kept wd)
    (d : Fin ideMaxDev) :
    (drives.foldl step wd).devsw d =
      if d ∈ drives then change d (wd.devsw d) else wd.devsw d := by
  induction drives generalizing wd with
  | nil => rfl
  | cons drive rest ih =>
      rw [List.nodup_cons] at nodup
      rw [List.foldl_cons, ih nodup.2 _ (keeps wd drive holds), changes wd drive holds]
      rcases eq_or_ne d drive with rfl | ne
      · rw [if_neg nodup.1, if_pos List.mem_cons_self, Function.update_self]
      · rw [Function.update_of_ne ne]
        simp only [List.mem_cons, ne, false_or]

theorem foldl_bufs {step : Wd → Fin ideMaxDev → Wd}
    (keeps : ∀ wd drive, (step wd drive).bufs = wd.bufs) (drives : List (Fin ideMaxDev)) (wd : Wd) :
    (drives.foldl step wd).bufs = wd.bufs := by
  induction drives generalizing wd with
  | nil => rfl
  | cons drive rest ih => exact (ih _).trans (keeps wd drive)

/-- The record that is read is that of the first drive. -/
theorem breadMbr_eq (wd : Wd) :
    wd.breadMbr = if (wd.devsw 0).blocks = 0 then fun _ => 0 else (wd.devsw 0).twoSectors 0 := by
  have isSector : wd.sector mbrBuf =
      if (wd.devsw 0).blocks = 0 then none else some (0, 0) := rfl
  rw [breadMbr, contents, isSector]
  split <;> rfl

/-- What the loop over `p` makes of the entry. -/
def lastOf (mbr : Block) (ps : List (Fin 4)) (part : Part) : Part :=
  ps.foldl (fun last p => if (mbr.mbrPart p).partType ≠ 0 then mbr.mbrPart p else last) part

theorem foldl_enterPart (mbr : Block) (ps : List (Fin 4)) (wd : Wd) (d : Fin ideMaxDev) :
    ps.foldl (enterPart d mbr) wd = wd.setDrive d fun old =>
      { old with
        part := Function.update old.part ⟨d, d.isLt⟩ (lastOf mbr ps (old.part ⟨d, d.isLt⟩)) } := by
  induction ps generalizing wd with
  | nil => simp [setDrive, lastOf]
  | cons p rest ih =>
      rw [List.foldl_cons, ih, enterPart]
      split
      · rename_i isUsed
        simp [setDrive, lastOf, isUsed]
      · rename_i unused
        simp [setDrive, lastOf, not_not.mp unused]

/-- What the body of the loop over `d` does to drive `d`. -/
def entered (mbr : Block) (d : Fin ideMaxDev) (old : Drive) : Drive :=
  if old.blocks ≠ 0 ∧ mbr.IsMbr then
    { old with
      part := Function.update old.part ⟨d, d.isLt⟩
        (lastOf mbr (List.finRange 4) (old.part ⟨d, d.isLt⟩)) }
  else old

theorem selectMbr_devsw (wd : Wd) : wd.selectMbr.devsw = wd.devsw := by
  unfold selectMbr
  split <;> rfl

theorem selectMbr_bufs (wd : Wd) : wd.selectMbr.bufs = wd.bufs := by
  unfold selectMbr
  split <;> rfl

theorem initDrive_devsw (wd : Wd) (d : Fin ideMaxDev) :
    (wd.initDrive d).devsw =
      Function.update wd.devsw d (entered wd.breadMbr d (wd.devsw d)) := by
  unfold initDrive
  by_cases absent : (wd.devsw d).blocks = 0
  · rw [if_pos absent, entered, if_neg fun both => both.1 absent, Function.update_eq_self]
  rw [if_neg absent]
  dsimp only
  by_cases isMbr : wd.breadMbr.IsMbr
  · rw [if_pos isMbr, foldl_enterPart, setDrive]
    simp only [selectMbr_devsw, entered, if_pos (And.intro absent isMbr)]
  · rw [if_neg isMbr, entered, if_neg fun both => isMbr both.2, selectMbr_devsw,
      Function.update_eq_self]

theorem initDrive_bufs (wd : Wd) (d : Fin ideMaxDev) : (wd.initDrive d).bufs = wd.bufs := by
  unfold initDrive
  dsimp only
  split
  · rfl
  split
  · rw [foldl_enterPart, setDrive, selectMbr_bufs]
  · rw [selectMbr_bufs]

theorem breadMbr_initDrive (wd : Wd) (d : Fin ideMaxDev) :
    (wd.initDrive d).breadMbr = wd.breadMbr := by
  have same : ∀ drive, ((wd.initDrive d).devsw drive).blocks = (wd.devsw drive).blocks ∧
      ((wd.initDrive d).devsw drive).twoSectors = (wd.devsw drive).twoSectors := by
    intro drive
    rw [initDrive_devsw]
    rcases eq_or_ne drive d with rfl | ne
    · rw [Function.update_self, entered]
      split <;> exact ⟨rfl, rfl⟩
    · rw [Function.update_of_ne ne]
      exact ⟨rfl, rfl⟩
  rw [breadMbr_eq, breadMbr_eq, (same 0).1, (same 0).2]

theorem lastPart_eq (wd : Wd) (blocks : Fin ideMaxDev → ℕ) {mbr : Block}
    (isMbr : mbr = if blocks 0 = 0 then fun _ => 0 else (wd.devsw 0).twoSectors 0) :
    wd.lastPart blocks =
      if mbr.IsMbr then lastOf mbr (List.finRange 4) .unused else .unused := by
  subst isMbr
  unfold lastPart
  split
  · rw [if_neg (by decide)]
  · by_cases isMbr : ((wd.devsw 0).twoSectors 0).IsMbr
    · simp only [ownPart, if_pos isMbr, lastOf]
    · simp only [ownPart, if_neg isMbr, Part.unused, ne_eq, not_true_eq_false, if_false,
        List.foldl_fixed]

/-- The table after `wd_init`. -/
theorem wdInit_devsw (wd : Wd) (blocks : Fin ideMaxDev → ℕ) (d : Fin ideMaxDev) :
    ((wd.wdInit blocks).devsw d).blocks = blocks d ∧
      ∀ p : Fin 4, ((wd.wdInit blocks).devsw d).part p =
        if blocks d ≠ 0 ∧ (p : ℕ) = d then wd.lastPart blocks else .unused := by
  have probed (drive : Fin ideMaxDev) := foldl_devsw
    (fun drive old =>
      { old with
        blocks := blocks drive, rdbuf := none, wrbuf := none, part := fun _ => .unused,
        command := none })
    (fun _ => True) (fun _ _ _ => trivial)
    (fun wd drive _ => show (wd.wdProbe drive (blocks drive)).devsw = _ from rfl)
    (List.nodup_finRange ideMaxDev) wd trivial drive
  simp only [List.mem_finRange, if_true] at probed
  unfold wdInit
  dsimp only
  generalize (List.finRange ideMaxDev).foldl _ wd = after at probed
  have isMbr : after.breadMbr =
      if blocks 0 = 0 then fun _ => 0 else (wd.devsw 0).twoSectors 0 := by
    rw [breadMbr_eq, probed 0]
    rfl
  rw [foldl_devsw (entered after.breadMbr) (fun wd => wd.breadMbr = after.breadMbr)
    (fun wd drive same => (breadMbr_initDrive wd drive).trans same)
    (fun wd drive same => by rw [initDrive_devsw, same]) (List.nodup_finRange _) after rfl,
    if_pos (List.mem_finRange d), lastPart_eq wd blocks isMbr, entered, probed d]
  dsimp only
  by_cases known : blocks d ≠ 0 ∧ after.breadMbr.IsMbr
  · rw [if_pos known, if_pos known.2]
    refine ⟨rfl, fun p => ?_⟩
    dsimp only
    rcases eq_or_ne p ⟨d, d.isLt⟩ with rfl | ne
    · rw [Function.update_self, if_pos ⟨known.1, rfl⟩]
    · rw [Function.update_of_ne ne, if_neg fun both => ne (Fin.ext both.2)]
  · rw [if_neg known]
    refine ⟨rfl, fun p => ?_⟩
    by_cases isMbr : after.breadMbr.IsMbr
    · rw [if_neg fun both => known ⟨both.1, isMbr⟩]
    · rw [if_neg isMbr, ite_self]

theorem wdInit_bufs (wd : Wd) (blocks : Fin ideMaxDev → ℕ) : (wd.wdInit blocks).bufs = wd.bufs := by
  unfold wdInit
  dsimp only
  rw [foldl_bufs initDrive_bufs]
  exact foldl_bufs (fun wd drive => show (wd.wdProbe drive (blocks drive)).bufs = _ from rfl) _ wd

end

/-! ## Reading and writing -/

section

variable {wd later : Wd} {buf : BufId}

/-- The driver's table is the same. -/
def SameTable (wd wd' : Wd) : Prop :=
  ∀ drive, (wd'.devsw drive).blocks = (wd.devsw drive).blocks ∧
    (wd'.devsw drive).part = (wd.devsw drive).part

theorem sameTable_setDrive (wd : Wd) {drive : Fin ideMaxDev} {change : Drive → Drive}
    (blocks : ∀ old, (change old).blocks = old.blocks)
    (part : ∀ old, (change old).part = old.part) : SameTable wd (wd.setDrive drive change) := by
  intro other
  rw [setDrive]
  dsimp only
  rcases eq_or_ne other drive with rfl | ne
  · rw [Function.update_self]
    exact ⟨blocks _, part _⟩
  · rw [Function.update_of_ne ne]
    exact ⟨rfl, rfl⟩

theorem SameTable.trans {middle : Wd} (first : SameTable wd middle)
    (second : SameTable middle later) : SameTable wd later := fun drive =>
  ⟨(second drive).1.trans (first drive).1, (second drive).2.trans (first drive).2⟩

theorem sameTable_wdRead (wd : Wd) (buf : BufId) : SameTable wd (wd.wdRead buf).2 := by
  unfold wdRead
  split
  · exact fun _ => ⟨rfl, rfl⟩
  · dsimp only
    refine sameTable_setDrive (wd.select _ _) ?_ ?_ <;> exact fun _ => rfl

theorem sameTable_wdWrite (wd : Wd) (buf : BufId) : SameTable wd (wd.wdWrite buf).2 := by
  unfold wdWrite
  split
  · exact fun _ => ⟨rfl, rfl⟩
  · dsimp only
    refine sameTable_setDrive (wd.select _ _) ?_ ?_ <;> exact fun _ => rfl

theorem sameTable_wdIntr (wd : Wd) (drive : Fin ideMaxDev) : SameTable wd (wd.wdIntr drive) := by
  unfold wdIntr
  split
  · refine sameTable_setDrive (Wd.iodone _ _) ?_ ?_ <;> exact fun _ => rfl
  · refine sameTable_setDrive (Wd.iodone _ _) ?_ ?_ <;> exact fun _ => rfl
  · exact fun _ => ⟨rfl, rfl⟩

/-- The handlers call `wd_intr` for some drive or for none. -/
theorem interrupt_cases (wd : Wd) (port : Fin 2) :
    wd.interrupt port = wd ∨ ∃ drive, wd.interrupt port = wd.wdIntr drive := by
  unfold interrupt wdIntr0 wdIntr1
  dsimp only
  split_ifs
  · exact .inr ⟨0, rfl⟩
  · exact .inr ⟨1, rfl⟩
  · exact .inl rfl
  · exact .inr ⟨2, rfl⟩
  · exact .inr ⟨3, rfl⟩
  · exact .inl rfl

theorem sameTable_interrupt (wd : Wd) (port : Fin 2) : SameTable wd (wd.interrupt port) := by
  obtain same | ⟨drive, same⟩ := interrupt_cases wd port
  · rw [same]
    exact fun _ => ⟨rfl, rfl⟩
  · rw [same]
    exact sameTable_wdIntr wd drive

/-- Nothing but `wd_init` writes to the table. -/
theorem Used.sameTable (used : Used wd later) : SameTable wd later := by
  induction used with
  | refl => exact fun _ => ⟨rfl, rfl⟩
  | read _ buf ih => exact ih.trans (sameTable_wdRead _ buf)
  | write _ buf ih => exact ih.trans (sameTable_wdWrite _ buf)
  | intr _ port ih => exact ih.trans (sameTable_interrupt _ port)
  | bufs _ _ ih => exact ih

/-! ### The interrupt of a transfer -/

theorem setDrive_self (wd : Wd) (drive : Fin ideMaxDev) (change : Drive → Drive) :
    (wd.setDrive drive change).devsw drive = change (wd.devsw drive) :=
  Function.update_self ..

theorem setDrive_of_ne {drive other : Fin ideMaxDev} (wd : Wd) (ne : other ≠ drive)
    (change : Drive → Drive) : (wd.setDrive drive change).devsw other = wd.devsw other :=
  Function.update_of_ne ne ..

/-- The bits of the sector that go into the drive register. -/
theorem driveBits (sector : ℕ) : sector >>> 24 &&& 0x0F = sector / 2 ^ 24 % 16 := by
  rw [Nat.shiftRight_eq_div_pow]
  exact Nat.and_two_pow_sub_one_eq_mod _ 4

/-- The handlers take a register with other bits for that of no drive. -/
theorem interrupt_selected (wd : Wd) (drive : Fin ideMaxDev) (sector : ℕ)
    (selected : wd.driveReg (idePort drive) = ideDrive drive ||| (sector >>> 24 &&& 0x0F)) :
    wd.interrupt (idePort drive) = if lba sector < 2 ^ 24 then wd.wdIntr drive else wd := by
  have noDrive : ∀ bits < 16, bits ≠ 0 → ∀ drive : Fin ideMaxDev,
      ideDrive drive ||| bits ≠ ideMaster ∧ ideDrive drive ||| bits ≠ ideSlave := by decide
  rw [driveBits] at selected
  have inReg : sector / 2 ^ 24 % 16 < 16 := Nat.mod_lt _ (by decide)
  have noBits : sector / 2 ^ 24 % 16 = 0 ↔ lba sector < 2 ^ 24 := by
    rw [lba]
    omega
  split
  · rename_i isLow
    rw [noBits.mpr isLow, Nat.or_zero] at selected
    have drives : ∀ drive : Fin ideMaxDev, drive = 0 ∨ drive = 1 ∨ drive = 2 ∨ drive = 3 := by
      decide
    rcases drives drive with rfl | rfl | rfl | rfl
    · exact if_pos selected
    · have ne : ideSlave ≠ ideMaster := by decide
      exact (if_neg (selected.trans_ne ne)).trans (if_pos selected)
    · exact if_pos selected
    · have ne : ideSlave ≠ ideMaster := by decide
      exact (if_neg (selected.trans_ne ne)).trans (if_pos selected)
  · rename_i isHigh
    obtain ⟨notMaster, notSlave⟩ := noDrive _ inReg (mt noBits.mp isHigh) drive
    rw [← selected] at notMaster notSlave
    have ports : ∀ port : Fin 2, port = 0 ∨ port = 1 := by decide
    rcases ports (idePort drive) with port | port
    · rw [port] at notMaster notSlave ⊢
      exact (if_neg notMaster).trans (if_neg notSlave)
    · rw [port] at notMaster notSlave ⊢
      exact (if_neg notMaster).trans (if_neg notSlave)

section

variable {drive : Fin ideMaxDev} {sector : ℕ}
  (isSector : wd.sector (wd.bufs buf) = some (drive, sector))

include isSector

theorem wdRead_some :
    wd.wdRead buf = (some drive, (wd.select drive sector).setDrive drive fun old =>
      { old with rdbuf := some buf, command := some (lba sector) }) := by
  rw [wdRead, isSector]

theorem interrupt_wdRead :
    (wd.wdRead buf).2.interrupt (idePort drive) =
      if lba sector < 2 ^ 24 then (wd.wdRead buf).2.wdIntr drive else (wd.wdRead buf).2 := by
  refine interrupt_selected _ drive sector ?_
  simp [wdRead_some isSector, setDrive, select]

/-- A read whose interrupt is recognised is done after it, from the place that `sector` says. -/
theorem reads_some (isLow : lba sector < 2 ^ 24) : wd.Reads buf (some (drive, lba sector)) := by
  rw [Reads, interrupt_wdRead isSector, if_pos isLow, wdRead_some isSector]
  dsimp only
  simp only [wdIntr, setDrive_self, true_and]
  refine ⟨?_, ?_, fun other ne => ?_, fun other => ?_⟩
  · simp [setDrive, iodone, setBuf]
  · simp [setDrive, iodone, setBuf]
    rfl
  · simp [setDrive, iodone, setBuf, select, ne]
  · rcases eq_or_ne other drive with rfl | ne
    · simp [setDrive, iodone, setBuf, select]
    · simp [setDrive, iodone, setBuf, select, ne]

/-- A read whose interrupt is not recognised is never done. -/
theorem not_reads (isHigh : ¬lba sector < 2 ^ 24) (target : Option (Fin ideMaxDev × ℕ)) :
    ¬wd.Reads buf target := by
  intro reads
  cases target with
  | none =>
      have noDrive := reads.1
      rw [wdRead_some isSector] at noDrive
      cases noDrive
  | some place =>
      obtain ⟨sameDrive, isDone, -⟩ := reads
      rw [wdRead_some isSector] at sameDrive
      cases sameDrive
      rw [interrupt_wdRead isSector, if_neg isHigh, wdRead_some isSector, setDrive_self] at isDone
      cases isDone

/-- A write whose interrupt is recognised is done after it, to the place that `sector` says. -/
theorem writes_some (isLow : lba sector < 2 ^ 24) : wd.Writes buf (some (drive, lba sector)) := by
  have isWrite : wd.wdWrite buf = (some drive, (wd.select drive sector).setDrive drive fun old =>
      { old with
        wrbuf := some buf
        sectors := fun number =>
          if number = lba sector then (wd.bufs buf).data
          else if number = lba sector + 1 then fun byte => (wd.bufs buf).data (sectorSize + byte)
          else old.sectors number }) := by
    rw [wdWrite, isSector]
  have intr := interrupt_selected (wd.wdWrite buf).2 drive sector (by
    simp [isWrite, setDrive, select])
  rw [if_pos isLow] at intr
  rw [Writes, intr, isWrite]
  dsimp only
  refine ⟨rfl, ?_, fun number ne ne' => ?_, fun other ne => ?_, fun noRead => ?_⟩
  · funext byte
    rw [setDrive_self, Drive.twoSectors]
    dsimp only
    split
    · rw [if_pos rfl]
    · rename_i inSecond
      rw [if_neg (Nat.succ_ne_self _), if_pos rfl, Nat.add_sub_cancel' (not_lt.mp inSecond)]
  · rw [setDrive_self]
    dsimp only
    rw [if_neg ne, if_neg ne']
    rfl
  · rw [setDrive_of_ne _ ne]
    rfl
  · have none : ((wd.select drive sector).devsw drive).rdbuf = none := noRead
    simp only [wdIntr, setDrive_self, none]
    simp [setDrive, iodone, setBuf]

end

theorem reads_none (isSector : wd.sector (wd.bufs buf) = none) : wd.Reads buf none := by
  simp [Reads, wdRead, isSector, setBuf, iodone]

theorem writes_none (isSector : wd.sector (wd.bufs buf) = none) : wd.Writes buf none := by
  simp [Writes, wdWrite, isSector, setBuf, iodone]

/-- What is read is not to be had from any other place, if it is read whatever the drives hold. -/
theorem eq_of_reads {target place : Option (Fin ideMaxDev × ℕ)}
    (reads : ∀ sectors, (wd.withSectors sectors).Reads buf target)
    (reads' : ∀ sectors, (wd.withSectors sectors).Reads buf place) : target = place := by
  -- Drives that hold 0 but for one sector tell this sector from all others.
  let sectors (sector : ℕ) : Fin ideMaxDev → ℕ → ℕ → Byte :=
    fun _ number _ => if number = sector then 1 else 0
  rcases target with _ | ⟨drive, sector⟩ <;> rcases place with _ | ⟨drive', sector'⟩
  · rfl
  · cases (reads (sectors 0)).1.symm.trans (reads' (sectors 0)).1
  · cases (reads (sectors 0)).1.symm.trans (reads' (sectors 0)).1
  · cases (reads (sectors 0)).1.symm.trans (reads' (sectors 0)).1
    have data := (reads (sectors sector)).2.2.2.1.symm.trans (reads' (sectors sector)).2.2.2.1
    have first : (if sector = sector then 1 else 0 : Byte) = if sector' = sector then 1 else 0 :=
      congrFun data 0
    rw [if_pos rfl] at first
    split at first
    · rename_i same
      rw [same]
    · cases first

/-- Reads and writes go where `sector` says, if the interrupt is recognised. -/
theorem transfers_iff (wd : Wd) (buf : BufId) (target : Option (Fin ideMaxDev × ℕ)) :
    Transfers wd buf target ↔
      (wd.sector (wd.bufs buf)).map (fun place => (place.1, lba place.2)) = target ∧
        ∀ place, target = some place → place.2 < 2 ^ 24 := by
  have same (sectors) : (wd.withSectors sectors).sector ((wd.withSectors sectors).bufs buf) =
      wd.sector (wd.bufs buf) := rfl
  rcases isPlace : wd.sector (wd.bufs buf) with _ | ⟨drive, sector⟩
  · rw [Option.map_none]
    constructor
    · intro transfers
      have isNone := eq_of_reads (fun sectors => reads_none ((same sectors).trans isPlace))
        fun sectors => (transfers sectors).1
      exact ⟨isNone, fun _ isSome => nomatch isNone.trans isSome⟩
    · rintro ⟨rfl, -⟩ sectors
      exact ⟨reads_none isPlace, writes_none isPlace⟩
  rw [Option.map_some]
  by_cases isLow : lba sector < 2 ^ 24
  · constructor
    · intro transfers
      have samePlace := eq_of_reads
        (fun sectors => reads_some ((same sectors).trans isPlace) isLow)
        fun sectors => (transfers sectors).1
      subst samePlace
      exact ⟨rfl, fun _ isSome => Option.some_inj.mp isSome ▸ isLow⟩
    · rintro ⟨rfl, -⟩ sectors
      exact ⟨reads_some isPlace isLow, writes_some isPlace isLow⟩
  · refine iff_of_false (fun transfers => ?_) fun both => isLow (both.2 _ both.1.symm)
    exact not_reads isPlace isLow target (transfers fun drive => (wd.devsw drive).sectors).1

/-- The sector of a buffer of a partition. -/
theorem sector_partition (wd : Wd) (old : Buf) (d : Fin ideMaxDev) (p : Fin 4)
    (isDev : old.dev = 16 * (d : ℤ) + (p + 1)) :
    wd.sector old =
      if (wd.devsw d).blocks = 0 ∨ ((wd.devsw d).part p).partType = 0 then none
      else some (d, (old.blockNo * 2 + ((wd.devsw d).part p).offset) % 2 ^ 32) := by
  have inDrives : (d : ℕ) < 4 := d.isLt
  have isMinor : (minor old.dev).toNat = 16 * d + (p + 1) := by
    rw [minor, isDev]
    omega
  have isDrive : (16 * (d : ℕ) + (p + 1)) / 16 = d := by omega
  have isPart : (16 * (d : ℕ) + (p + 1)) % 16 = p + 1 := by omega
  have known : (d : ℕ) < ideMaxDev := d.isLt
  simp only [sector, isMinor, isDrive, isPart, known, dif_pos, Fin.eta, Nat.add_sub_cancel,
    Nat.succ_ne_zero, if_false, p.isLt]
  by_cases absent : (wd.devsw d).blocks = 0
  · rw [if_pos absent, if_pos (.inl absent)]
  · rw [if_neg absent]
    by_cases unused : ((wd.devsw d).part p).partType = 0
    · rw [if_pos unused, if_pos (.inr unused)]
    · rw [if_neg unused, if_neg (not_or.mpr ⟨absent, unused⟩)]

/--
A buffer of a partition is transferred to and from the partition that its minor number names if
and only if the table leads there.
-/
theorem addressed_iff (wd : Wd) (blocks : Fin ideMaxDev → ℕ) (later : Wd)
    (used : Used (wd.wdInit blocks) later) (d : Fin ideMaxDev) (p : Fin 4) (buf : BufId)
    (isDev : (later.bufs buf).dev = 16 * (d : ℤ) + (p + 1)) :
    Transfers later buf (wd.target blocks d p (later.bufs buf).blockNo) ↔
      LedRight wd blocks d p (later.bufs buf).blockNo := by
  have filled := wdInit_devsw wd blocks d
  have same := used.sameTable d
  rw [transfers_iff, sector_partition later _ d p isDev, same.1, same.2, filled.1, filled.2 p]
  generalize (later.bufs buf).blockNo = blockNo
  unfold target LedRight
  dsimp only
  generalize wd.ownPart d p = own
  generalize wd.lastPart blocks = last
  by_cases absent : blocks d = 0
  · simp [absent]
  have noUnused : Part.unused.partType = 0 := rfl
  simp only [absent, not_false_eq_true, ne_eq, true_and, false_or]
  by_cases inTable : (p : ℕ) = d
  · simp only [inTable, if_true, not_true_eq_false, true_and, false_or]
    by_cases noLast : last.partType = 0
    · simp only [noLast, if_true, Option.map_none, not_true_eq_false, false_and]
      by_cases inside : ¬own.partType = 0 ∧ 2 * blockNo + 2 ≤ own.size
      · rw [if_pos inside, if_pos inside]
        exact iff_of_false (fun both => nomatch both.1) id
      · rw [if_neg inside, if_neg inside]
        exact iff_of_true ⟨rfl, fun _ => nofun⟩ trivial
    · simp only [noLast, if_false, Option.map_some, not_false_eq_true, true_and, lba]
      by_cases inside : ¬own.partType = 0 ∧ 2 * blockNo + 2 ≤ own.size
      · rw [if_pos inside, if_pos inside, Option.some_inj, Prod.mk.injEq]
        simp only [true_and, Option.some_inj, forall_eq']
        omega
      · rw [if_neg inside, if_neg inside]
        exact iff_of_false (fun both => nomatch both.1) id
  · -- There is nothing in the entry, so that the buffer gets an error.
    simp only [inTable, noUnused, if_true, if_false, Option.map_none, false_and,
      not_false_eq_true, true_or]
    by_cases inside : ¬own.partType = 0 ∧ 2 * blockNo + 2 ≤ own.size
    · rw [if_pos inside, if_pos inside]
      exact iff_of_false (fun both => nomatch both.1) id
    · rw [if_neg inside, if_neg inside]
      exact iff_of_true ⟨rfl, fun _ => nofun⟩ trivial

/-- A drive whose only partition is its first one, from sector 63 on. -/
def oneDrive : Wd where
  devsw _ :=
    { blocks := 0
      rdbuf := none
      wrbuf := none
      part := fun _ => .unused
      command := none
      sectors := fun number byte =>
        if number ≠ 0 then 0
        else ([(510, 0x55), (511, 0xAA), (450, 0x81), (454, 63), (459, 16)] : List (ℕ × Byte)).foldl
          (fun found entry => if entry.1 = byte then entry.2 else found) 0 }
  driveReg _ := ideMaster
  bufs _ := ⟨1, 2, .none, 1, fun _ => 0⟩

/-- The second drive is a copy of the first one. -/
def twoBlocks : Fin ideMaxDev → ℕ := fun drive => if drive < 2 then 10000 else 0

set_option maxRecDepth 2000 in
theorem addressed_iff_first :
    (Transfers (oneDrive.wdInit twoBlocks) 0 (oneDrive.target twoBlocks 0 0 2) ↔
      LedRight oneDrive twoBlocks 0 0 2) ∧ LedRight oneDrive twoBlocks 0 0 2 := by
  have sameBufs := wdInit_bufs oneDrive twoBlocks
  have isBuf : (oneDrive.wdInit twoBlocks).bufs 0 = ⟨1, 2, .none, 1, fun _ => 0⟩ := by
    rw [sameBufs]
    rfl
  have addressed := addressed_iff oneDrive twoBlocks _ .refl 0 0 0 (by rw [isBuf]; rfl)
  rw [isBuf] at addressed
  exact ⟨addressed, by decide⟩

set_option maxRecDepth 2000 in
/-- The first partition of the second drive, as a copy of the first drive, is not found. -/
theorem not_addressed_all : ¬∀ (wd : Wd) (blocks : Fin ideMaxDev → ℕ) (later : Wd),
    Used (wd.wdInit blocks) later → ∀ (d : Fin ideMaxDev) (p : Fin 4) (buf : BufId),
      (later.bufs buf).dev = 16 * (d : ℤ) + (p + 1) →
      Transfers later buf (wd.target blocks d p (later.bufs buf).blockNo) := by
  intro all
  let buffers : BufId → Buf := fun _ => ⟨17, 2, .none, 1, fun _ => 0⟩
  have transfers := all oneDrive twoBlocks _ (.bufs .refl buffers) 1 0 0 rfl
  have isDev : (buffers 0).dev = 16 * ((1 : Fin ideMaxDev) : ℤ) + ((0 : Fin 4) + 1) := rfl
  have unused : ((oneDrive.wdInit twoBlocks).devsw 1).part 0 = .unused := by
    rw [(wdInit_devsw oneDrive twoBlocks 1).2 0, if_neg (by decide)]
  have noType : (((oneDrive.wdInit twoBlocks).devsw 1).part 0).partType = 0 := by
    rw [unused]
    rfl
  have isTarget : oneDrive.target twoBlocks 1 0 2 = some (1, 67) := by decide
  rw [transfers_iff, sector_partition _ _ 1 0 isDev, if_pos (.inr noType), isTarget] at transfers
  cases transfers.1

end

end Wd

end Osix
