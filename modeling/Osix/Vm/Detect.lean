import Osix.Vm.Addresses

/-!
# The memory map of the boot loader

`mem_detect` of `sys/i386/mem.c`. It walks the entries of the multiboot memory map, whose
addresses have 64 bits, and frees the pages of the available ones, whose addresses have 32. The
page loop stops before the page that ends where the region ends, and it does not stop at all if
the region ends in the last page below 4 GB or later. What it frees of one region is `Scans`,
what it should free is `Holds`, and `Scannable` says when the two are the same.
-/

namespace Osix.Vm

/-- `multiboot_memory_map_t`. -/
structure MmapEntry where
  size : BitVec 32
  addr : BitVec 64
  len : BitVec 64
  type : BitVec 32

/-- `multiboot_info`; `mmap` is what memory holds at an offset from `mmap_addr`. -/
structure MultibootInfo where
  flags : BitVec 32
  memLower : BitVec 32
  memUpper : BitVec 32
  mmapLength : BitVec 32
  mmap : BitVec 32 → MmapEntry

/-- Why `mem_detect` does not return: a panic, or a loop that goes on and on. -/
inductive Halt where
  | panic
  | outOfFuel
deriving DecidableEq

/-- The bitmap, `real_mem` and `avail_mem`. -/
structure Detected where
  vmm : Vmm
  realMem : BitVec 32
  availMem : BitVec 32

/-- `page_aligned_addr` before the loop. -/
def alignedAddr (addr : BitVec 64) : BitVec 32 := ((addr + 4096 - 1) &&& 0xfffff000).setWidth 32

/-- The loop over the pages of a region. -/
def scanPages (kernelEnd : BitVec 32) (stop : BitVec 64) :
    ℕ → BitVec 32 → Detected → Except Halt Detected
  | 0, _, _ => .error .outOfFuel
  | fuel + 1, page, found =>
      if (page + 4096).setWidth 64 < stop then
        if kernelEnd < page then
          match found.vmm.freePage (Vmm.pageNo page.toNat) with
          | none => .error .panic
          | some vmm =>
              scanPages kernelEnd stop fuel (page + 4096)
                { found with vmm := vmm, availMem := found.availMem + 4096 }
        else
          scanPages kernelEnd stop fuel (page + 4096) found
      else
        .ok found

/-- `MULTIBOOT_MEMORY_AVAILABLE`. -/
def MmapEntry.available (entry : MmapEntry) : Bool := entry.type = 1

/-- One entry. -/
def scanEntry (kernelEnd : BitVec 32) (fuel : ℕ) (entry : MmapEntry) (found : Detected) :
    Except Halt Detected :=
  if entry.available then
    scanPages kernelEnd (entry.addr + entry.len) fuel (alignedAddr entry.addr) found
  else
    .ok found

/-- The loop over the entries. -/
def scanEntries (kernelEnd : BitVec 32) (mb : MultibootInfo) (rounds : ℕ) :
    ℕ → BitVec 32 → Detected → Except Halt Detected
  | 0, _, _ => .error .outOfFuel
  | fuel + 1, offset, found =>
      if offset < mb.mmapLength then do
        let entry := mb.mmap offset
        let found ← scanEntry kernelEnd rounds entry found
        scanEntries kernelEnd mb rounds fuel (offset + (entry.size + 4))
          { found with realMem := found.realMem + entry.len.setWidth 32 }
      else
        .ok found

/-- `mem_detect`; each of its loops gets `fuel` rounds. -/
def memDetect (fuel : ℕ) (kernelEnd : BitVec 32) (mb : MultibootInfo) (vmm : Vmm) :
    Except Halt Detected :=
  if mb.flags &&& 0x40 ≠ 0 then
    scanEntries kernelEnd mb fuel fuel 0 ⟨vmm, 0, 0⟩
  else if mb.flags &&& 1 ≠ 0 then
    .ok ⟨vmm, (mb.memLower + mb.memUpper) <<< 10, 0⟩
  else
    .ok ⟨vmm, 0, 0⟩

/-- `vmm_bitmap_init`. -/
def Vmm.full : Vmm := ⟨fun _ => 0xff, 0⟩

/-! ## What it should do -/

/-- The memory map is this list of entries, from an offset on. -/
def MultibootInfo.Lists (mb : MultibootInfo) : ℕ → List MmapEntry → Prop
  | offset, [] => offset = mb.mmapLength.toNat
  | offset, entry :: rest =>
      mb.mmap (BitVec.ofNat 32 offset) = entry ∧ mb.Lists (offset + entry.size.toNat + 4) rest

namespace MmapEntry

/-- A byte of memory is in the region. -/
def Covers (entry : MmapEntry) (byte : BitVec 64) : Prop := byte - entry.addr < entry.len

/-- A page lies wholly inside the region. -/
def Holds (entry : MmapEntry) (page : ℕ) : Prop :=
  ∀ byte : BitVec 64, byte.toNat / pageBytes = page → entry.Covers byte

/-- Two regions have no byte in common. -/
def Apart (entry other : MmapEntry) : Prop :=
  ∀ byte, ¬(entry.Covers byte ∧ other.Covers byte)

end MmapEntry

/-- The pages that are to be free. -/
def Usable (kernelEnd : BitVec 32) (entries : List MmapEntry) (page : ℕ) : Prop :=
  (∃ entry ∈ entries, entry.available = true ∧ entry.Holds page) ∧
    kernelEnd.toNat < page * pageBytes ∧ page * pageBytes < maxMem

/-- `mem_detect` returns and leaves free exactly the pages that it should. -/
def Detects (kernelEnd : BitVec 32) (mb : MultibootInfo) (entries : List MmapEntry) : Prop :=
  ∃ fuel found, memDetect fuel kernelEnd mb .full = .ok found ∧
    ∀ page < pageCount, ¬found.vmm.Allocated page ↔ Usable kernelEnd entries page

/-! ## When it does so -/

namespace MmapEntry

/-- Where the scan of a region starts. -/
def start (entry : MmapEntry) : ℕ := (alignedAddr entry.addr).toNat

/-- The end of a region as 64 bits hold it. -/
def stop (entry : MmapEntry) : ℕ := (entry.addr + entry.len).toNat

/-- The first page boundary above the kernel and in the scan. -/
def firstFreed (kernelEnd : BitVec 32) (entry : MmapEntry) : ℕ :=
  max entry.start ((kernelEnd.toNat / pageBytes + 1) * pageBytes)

/--
The scan of a region is right. It ends; it meets no page above the kernel that the bitmap does
not have; the region does not end at a page boundary, unless no page that is to be free ends
there; and it does not wrap around, unless only its part from address 0 on has such pages and
the scan starts early enough for them.
-/
structure Scannable (kernelEnd : BitVec 32) (entry : MmapEntry) : Prop where
  ends : entry.stop ≤ 0xfffff000
  fromTop : entry.start = 0xfffff000 → entry.stop = 0 ∨ 0xfffff000 ≤ kernelEnd.toNat
  inMemory : entry.stop ≤ max maxMem (entry.firstFreed kernelEnd) + pageBytes
  noBoundary : entry.stop % pageBytes ≠ 0 ∨ maxMem < entry.stop ∨
    entry.stop ≤ entry.firstFreed kernelEnd
  wraps : entry.addr.toNat + entry.len.toNat < 2 ^ 64 ∨ maxMem ≤ kernelEnd.toNat + pageBytes ∨
    maxMem < entry.addr.toNat + pageBytes ∧
      (entry.stop / pageBytes ≤ kernelEnd.toNat / pageBytes + 1 ∨
        entry.start / pageBytes ≤ kernelEnd.toNat / pageBytes + 1)

end MmapEntry

/-! ## Arithmetic of a region -/

namespace MmapEntry

variable {kernelEnd : BitVec 32} {entry other : MmapEntry} {page : ℕ}

theorem toNat_mask (word : BitVec 64) :
    ((word &&& 0xfffff000).setWidth 32).toNat = word.toNat / pageBytes * pageBytes % 2 ^ 32 := by
  have masked : (word &&& 0xfffff000).setWidth 32 = (word.setWidth 32 >>> 12) <<< 12 := by
    apply BitVec.eq_of_getLsbD_eq
    intro i inWord
    have bits : ∀ bit : Fin 32, (0xfffff000 : BitVec 64).getLsbD bit = decide (12 ≤ bit.val) := by
      decide
    have atBit : (0xfffff000 : BitVec 64).getLsbD i = decide (12 ≤ i) := bits ⟨i, inWord⟩
    rw [BitVec.getLsbD_setWidth, BitVec.getLsbD_and, atBit, BitVec.getLsbD_shiftLeft,
      BitVec.getLsbD_ushiftRight, BitVec.getLsbD_setWidth]
    by_cases high : 12 ≤ i
    · have back : 12 + (i - 12) = i := by omega
      simp [high, inWord, back, Nat.not_lt.mpr high]
    · simp [high, Nat.lt_of_not_le high]
  rw [masked, BitVec.toNat_shiftLeft, BitVec.toNat_ushiftRight, BitVec.toNat_setWidth,
    Nat.shiftLeft_eq, Nat.shiftRight_eq_div_pow]
  simp only [pageBytes]
  omega

theorem start_eq (entry : MmapEntry) :
    entry.start = (entry.addr.toNat + 4095) % 2 ^ 64 / pageBytes * pageBytes % 2 ^ 32 := by
  have sum : (entry.addr + 4096 - 1).toNat = (entry.addr.toNat + 4095) % 2 ^ 64 := by bv_omega
  rw [start, alignedAddr, toNat_mask, sum]

theorem stop_eq (entry : MmapEntry) :
    entry.stop = (entry.addr.toNat + entry.len.toNat) % 2 ^ 64 := by
  rw [stop, BitVec.toNat_add]

theorem covers_iff (byte : BitVec 64) :
    entry.Covers byte ↔
      (2 ^ 64 - entry.addr.toNat + byte.toNat) % 2 ^ 64 < entry.len.toNat := by
  rw [Covers, BitVec.lt_def, BitVec.toNat_sub]

/-- A page below 128 MB is in the region, or in the part of it from address 0 on. -/
theorem holds_iff (inMemory : page < pageCount) :
    entry.Holds page ↔
      if entry.addr.toNat + entry.len.toNat < 2 ^ 64 then
        entry.addr.toNat ≤ page * pageBytes ∧ page * pageBytes + pageBytes ≤ entry.stop
      else
        entry.addr.toNat ≤ page * pageBytes ∨ page * pageBytes + pageBytes ≤ entry.stop := by
  have addrBound := entry.addr.isLt
  have lenBound := entry.len.isLt
  rw [stop_eq]
  simp only [pageCount] at inMemory
  constructor
  · intro holds
    have covered : ∀ byte < 2 ^ 64, byte / pageBytes = page →
        (2 ^ 64 - entry.addr.toNat + byte) % 2 ^ 64 < entry.len.toNat := by
      intro byte bound isIn
      have atByte := (covers_iff (BitVec.ofNat 64 byte)).mp (holds _ ?_)
      · rwa [BitVec.toNat_ofNat, Nat.mod_eq_of_lt bound] at atByte
      · rwa [BitVec.toNat_ofNat, Nat.mod_eq_of_lt bound]
    simp only [pageBytes] at covered ⊢
    have first := covered (page * 4096) (by omega) (by omega)
    have last := covered (page * 4096 + 4095) (by omega) (by omega)
    split
    · omega
    · -- The region has a gap, and the first byte after it must not be in the page.
      have gap := covered ((entry.addr.toNat + entry.len.toNat) % 2 ^ 64) (by omega)
      omega
  · intro inside byte isIn
    rw [covers_iff]
    have byteBound := byte.isLt
    simp only [pageBytes] at inside isIn
    split at inside <;> omega

/-- The pages that the scan of a region frees. -/
def Scans (kernelEnd : BitVec 32) (entry : MmapEntry) (page : ℕ) : Prop :=
  entry.start ≤ page * pageBytes ∧ page * pageBytes + pageBytes < entry.stop ∧
    kernelEnd.toNat < page * pageBytes

/-- The scan of a region ends, unless it meets a page that it cannot free. -/
structure Ends (kernelEnd : BitVec 32) (entry : MmapEntry) : Prop where
  ends : entry.stop ≤ 0xfffff000
  fromTop : entry.start = 0xfffff000 → entry.stop = 0 ∨ 0xfffff000 ≤ kernelEnd.toNat

/-- What the scan of a region frees lies inside the region. -/
theorem Ends.holds (ends : entry.Ends kernelEnd) (scans : entry.Scans kernelEnd page)
    (inMemory : page < pageCount) : entry.Holds page := by
  have atStart := entry.start_eq
  have atStop := entry.stop_eq
  rcases scans with ⟨fromStart, beforeStop, -⟩
  have below := ends.ends
  rw [holds_iff inMemory]
  have addrBound := entry.addr.isLt
  simp only [pageBytes] at *
  split <;> omega

/-- The scan of a region that it ends frees no page that the bitmap does not have. -/
theorem Ends.inMemory_iff (ends : entry.Ends kernelEnd) :
    entry.stop ≤ max maxMem (entry.firstFreed kernelEnd) + pageBytes ↔
      ∀ page, entry.Scans kernelEnd page → page < pageCount := by
  have below := ends.ends
  have fromTop := ends.fromTop
  have atStart := entry.start_eq
  simp only [Scans, firstFreed, pageBytes, maxMem, pageCount] at *
  constructor
  · intro inMemory page scans
    omega
  · intro inMemory
    by_contra beyond
    have last := inMemory (max 32768 (max entry.start
      ((kernelEnd.toNat / 4096 + 1) * 4096) / 4096))
    omega

theorem scannable_iff :
    entry.Scannable kernelEnd ↔ entry.Ends kernelEnd ∧
      (∀ page, entry.Scans kernelEnd page → page < pageCount) ∧
      ∀ page < pageCount, kernelEnd.toNat < page * pageBytes → entry.Holds page →
        entry.Scans kernelEnd page := by
  have atStart := entry.start_eq
  have atStop := entry.stop_eq
  have addrBound := entry.addr.isLt
  have lenBound := entry.len.isLt
  constructor
  · intro scannable
    have ends : entry.Ends kernelEnd := ⟨scannable.ends, scannable.fromTop⟩
    refine ⟨ends, ends.inMemory_iff.mp scannable.inMemory, ?_⟩
    intro page inMemory aboveKernel holds
    rw [holds_iff inMemory] at holds
    have below := scannable.ends
    have fromTop := scannable.fromTop
    have top := scannable.inMemory
    have noBoundary := scannable.noBoundary
    have wraps := scannable.wraps
    simp only [Scans, firstFreed, pageBytes, maxMem, pageCount] at *
    split at holds
    · omega
    · omega
  · rintro ⟨ends, scansInMemory, holdsScans⟩
    constructor
    case ends => exact ends.ends
    case fromTop => exact ends.fromTop
    case inMemory => exact ends.inMemory_iff.mpr scansInMemory
    case noBoundary =>
      by_contra boundary
      -- The last page of the region ends at its end, where the scan does not get.
      have reached := holdsScans (entry.stop / pageBytes - 1)
      have below := ends.ends
      simp only [Scans, firstFreed, pageBytes, maxMem, pageCount] at *
      have inMemory : entry.stop / 4096 - 1 < 32768 := by omega
      rw [holds_iff inMemory] at reached
      simp only [pageBytes] at reached
      split at reached <;> omega
    case wraps =>
      by_contra wrapped
      have lastPage := holdsScans (pageCount - 1)
      have firstPage := holdsScans (kernelEnd.toNat / pageBytes + 1)
      simp only [Scans, pageBytes, maxMem, pageCount, not_or, not_and_or, not_lt, not_le] at *
      rcases wrapped with ⟨wrapped, kernelBelow, low | ⟨pastFirst, late⟩⟩
      · rw [holds_iff (by decide)] at lastPage
        rw [if_neg (by omega)] at lastPage
        simp only [pageBytes] at lastPage
        omega
      · have inMemory : kernelEnd.toNat / 4096 + 1 < pageCount := by
          simp only [pageCount]
          omega
        rw [holds_iff inMemory] at firstPage
        rw [if_neg (by omega)] at firstPage
        simp only [pageBytes, pageCount] at firstPage inMemory
        omega

end MmapEntry

/-! ## The loop over the pages -/

section

variable {kernelEnd : BitVec 32} {stop : BitVec 64} {found found' : Detected} {page : ℕ}

/-- The address of a page. -/
def pageAddr (page : ℕ) : BitVec 32 := BitVec.ofNat 32 (page * pageBytes)

theorem toNat_pageAddr (inWord : page < 2 ^ 20) : (pageAddr page).toNat = page * pageBytes := by
  rw [pageAddr, BitVec.toNat_ofNat]
  simp only [pageBytes]
  omega

theorem pageAddr_succ (page : ℕ) : pageAddr page + 4096 = pageAddr (page + 1) := by
  apply BitVec.eq_of_toNat_eq
  have pageSize : (4096 : BitVec 32).toNat = 4096 := rfl
  simp only [pageAddr, pageBytes, BitVec.toNat_add, BitVec.toNat_ofNat, pageSize]
  omega

theorem pageNo_pageAddr (inWord : page < 2 ^ 20) : Vmm.pageNo (pageAddr page).toNat = page := by
  rw [toNat_pageAddr inWord, Vmm.pageNo]
  exact Nat.mul_div_cancel page (by decide)

theorem scan_test (page : ℕ) :
    (pageAddr page + 4096).setWidth 64 < stop ↔
      (page * pageBytes + pageBytes) % 2 ^ 32 < stop.toNat := by
  rw [pageAddr_succ, BitVec.lt_def, BitVec.toNat_setWidth, pageAddr, BitVec.toNat_ofNat]
  simp only [pageBytes]
  rw [Nat.mod_eq_of_lt (b := 2 ^ 64) (by omega), Nat.succ_mul]

theorem kernel_test (inWord : page < 2 ^ 20) :
    kernelEnd < pageAddr page ↔ kernelEnd.toNat < page * pageBytes := by
  rw [BitVec.lt_def, toNat_pageAddr inWord]

/-- A loop to an end in the last page below 4 GB or later does not return. -/
theorem scanPages_endless (beyond : 0xfffff000 < stop.toNat) (fuel page : ℕ) (found : Detected) :
    scanPages kernelEnd stop fuel (pageAddr page) found ≠ .ok found' := by
  induction fuel generalizing page found with
  | zero => rintro ⟨⟩
  | succ fuel ih =>
      have goesOn : (page * pageBytes + pageBytes) % 2 ^ 32 < stop.toNat := by
        simp only [pageBytes]
        omega
      rw [scanPages, if_pos ((scan_test page).mpr goesOn), pageAddr_succ]
      split
      · split
        · rintro ⟨⟩
        · exact ih _ _
      · exact ih _ _

/-- What the loop frees from a page on. -/
def ScansFrom (kernelEnd : BitVec 32) (stop : BitVec 64) (first page : ℕ) : Prop :=
  first ≤ page ∧ page * pageBytes + pageBytes < stop.toNat ∧ kernelEnd.toNat < page * pageBytes

theorem scansFrom_succ {first : ℕ} (goesOn : first * pageBytes + pageBytes < stop.toNat) :
    ScansFrom kernelEnd stop first page ↔
      page = first ∧ kernelEnd.toNat < first * pageBytes ∨
        ScansFrom kernelEnd stop (first + 1) page := by
  simp only [ScansFrom]
  constructor
  · rintro ⟨atLeast, scanned⟩
    rcases Nat.eq_or_lt_of_le atLeast with rfl | later
    · exact Or.inl ⟨rfl, scanned.2⟩
    · exact Or.inr ⟨later, scanned⟩
  · rintro (⟨rfl, above⟩ | ⟨later, scanned⟩)
    · exact ⟨le_rfl, goesOn, above⟩
    · exact ⟨by omega, scanned⟩

/-- The pages of a set have been allocated, and exactly they have become free. -/
def Freed (pages : ℕ → Prop) (before after : Vmm) : Prop :=
  (∀ page, pages page → before.Allocated page) ∧
    ∀ page, after.Allocated page ↔ before.Allocated page ∧ ¬pages page

theorem Freed.nothing {pages : ℕ → Prop} (none : ∀ page, ¬pages page) (vmm : Vmm) :
    Freed pages vmm vmm :=
  ⟨fun page isIn => absurd isIn (none page), fun page => (and_iff_left (none page)).symm⟩

theorem Freed.congr {pages pages' : ℕ → Prop} {before after : Vmm}
    (freed : Freed pages before after) (same : ∀ page, pages page ↔ pages' page) :
    Freed pages' before after := by
  have isSame : pages = pages' := funext fun page => propext (same page)
  exact isSame ▸ freed

theorem Freed.trans {pages more : ℕ → Prop} {before middle after : Vmm}
    (first : Freed pages before middle) (second : Freed more middle after) :
    Freed (fun page => pages page ∨ more page) before after := by
  constructor
  · rintro page (isIn | isIn)
    · exact first.1 page isIn
    · exact ((first.2 page).mp (second.1 page isIn)).1
  · intro page
    rw [second.2, first.2, not_or, and_assoc]

theorem Freed.single {vmm vmm' : Vmm} (isFreed : vmm.freePage page = some vmm') :
    Freed (fun other => other = page) vmm vmm' := by
  rcases Vmm.freePage_spec isFreed with ⟨allocated, removes⟩
  exact ⟨fun other same => same ▸ allocated, removes⟩

/-- The loop frees the pages from its first on that lie above the kernel. -/
theorem scanPages_spec (below : stop.toNat ≤ 0xfffff000) (fuel first : ℕ)
    (notLast : first + 1 < 2 ^ 20)
    (result : scanPages kernelEnd stop fuel (pageAddr first) found = .ok found') :
    Freed (ScansFrom kernelEnd stop first) found.vmm found'.vmm := by
  induction fuel generalizing first found with
  | zero => cases result
  | succ fuel ih =>
      have inWord : (first * pageBytes + pageBytes) % 2 ^ 32 = first * pageBytes + pageBytes := by
        simp only [pageBytes]
        omega
      rw [scanPages] at result
      split at result
      · rename_i goesOn
        rw [scan_test, inWord] at goesOn
        have nextNotLast : first + 1 + 1 < 2 ^ 20 := by
          simp only [pageBytes] at goesOn
          omega
        simp only [pageAddr_succ, kernel_test (show first < 2 ^ 20 by omega),
          pageNo_pageAddr (show first < 2 ^ 20 by omega)] at result
        split at result
        · rename_i above
          split at result
          · cases result
          · rename_i vmm isFreed
            apply ((Freed.single isFreed).trans (ih (first + 1) nextNotLast result)).congr
            intro page
            rw [scansFrom_succ goesOn, and_iff_left above]
        · rename_i notAbove
          apply (ih (first + 1) nextNotLast result).congr
          intro page
          rw [scansFrom_succ goesOn]
          exact ⟨Or.inr, fun isIn => isIn.resolve_left fun atFirst => notAbove atFirst.2⟩
      · rename_i ends
        rw [scan_test, inWord] at ends
        cases result
        apply Freed.nothing
        rintro page ⟨atLeast, beforeStop, -⟩
        simp only [pageBytes] at ends beforeStop
        omega

/-- The loop returns if all the pages that it frees are allocated. -/
theorem scanPages_exists (below : stop.toNat ≤ 0xfffff000) (fuel first : ℕ)
    (notLast : first + 1 < 2 ^ 20) (enough : 2 ^ 20 ≤ first + fuel)
    (allocated : ∀ page, ScansFrom kernelEnd stop first page → found.vmm.Allocated page) :
    ∃ found', scanPages kernelEnd stop fuel (pageAddr first) found = .ok found' := by
  induction fuel generalizing first found with
  | zero => omega
  | succ fuel ih =>
      have inWord : (first * pageBytes + pageBytes) % 2 ^ 32 = first * pageBytes + pageBytes := by
        simp only [pageBytes]
        omega
      rw [scanPages]
      split
      · rename_i goesOn
        rw [scan_test, inWord] at goesOn
        have nextNotLast : first + 1 + 1 < 2 ^ 20 := by
          simp only [pageBytes] at goesOn
          omega
        simp only [pageAddr_succ, kernel_test (show first < 2 ^ 20 by omega),
          pageNo_pageAddr (show first < 2 ^ 20 by omega)]
        split
        · rename_i above
          have isAllocated := allocated first ⟨le_rfl, goesOn, above⟩
          rcases Vmm.freePage_isSome isAllocated with ⟨vmm, isFreed⟩
          simp only [isFreed]
          apply ih (first + 1) nextNotLast (by omega)
          intro page scans
          rw [(Vmm.freePage_spec isFreed).2]
          refine ⟨allocated page ((scansFrom_succ goesOn).mpr (Or.inr scans)), ?_⟩
          rintro rfl
          exact absurd scans.1 (by omega)
        · apply ih (first + 1) nextNotLast (by omega)
          intro page scans
          exact allocated page ((scansFrom_succ goesOn).mpr (Or.inr scans))
      · exact ⟨found, rfl⟩

end

/-! ## One entry -/

section

variable {kernelEnd : BitVec 32} {entry : MmapEntry} {found found' : Detected} {page : ℕ}

theorem Vmm.freePage_beyond {vmm : Vmm} (beyond : pageCount ≤ page) : vmm.freePage page = none := by
  have notInMap : ¬page / 8 < bitmapSize := by
    simp only [pageCount, bitmapSize] at beyond ⊢
    omega
  rw [freePage, dif_neg notInMap]

theorem alignedAddr_eq (entry : MmapEntry) :
    alignedAddr entry.addr = pageAddr (entry.start / pageBytes) := by
  have atStart := entry.start_eq
  have inWord : entry.start < 2 ^ 32 := (alignedAddr entry.addr).isLt
  apply BitVec.eq_of_toNat_eq
  rw [← MmapEntry.start, toNat_pageAddr (by simp only [pageBytes]; omega)]
  simp only [pageBytes] at atStart ⊢
  omega

theorem scans_iff (entry : MmapEntry) :
    ScansFrom kernelEnd (entry.addr + entry.len) (entry.start / pageBytes) page ↔
      entry.Scans kernelEnd page := by
  have atStart := entry.start_eq
  rw [ScansFrom, MmapEntry.Scans, ← MmapEntry.stop]
  simp only [pageBytes] at atStart ⊢
  refine and_congr ?_ Iff.rfl
  omega

/-- The scan of a region that starts in the last page below 4 GB. -/
theorem scanPages_top (atTop : entry.start = 0xfffff000) (fuel : ℕ) (found : Detected) :
    scanPages kernelEnd (entry.addr + entry.len) (fuel + 1) (alignedAddr entry.addr) found =
      if entry.stop = 0 then .ok found
      else if kernelEnd.toNat < 0xfffff000 then .error .panic
      else scanPages kernelEnd (entry.addr + entry.len) fuel (pageAddr 0) found := by
  have lastPage : entry.start / pageBytes = 2 ^ 20 - 1 := by
    rw [atTop]
    rfl
  have wraps : pageAddr (2 ^ 20 - 1 + 1) = pageAddr 0 := by decide
  have noPage : found.vmm.freePage (2 ^ 20 - 1) = none := Vmm.freePage_beyond (by decide)
  have fromZero : ((2 ^ 20 - 1) * pageBytes + pageBytes) % 2 ^ 32 = 0 := by decide
  have isTop : (2 ^ 20 - 1) * pageBytes = 0xfffff000 := by decide
  have goesOn : (pageAddr (2 ^ 20 - 1) + 4096).setWidth 64 < entry.addr + entry.len ↔
      0 < entry.stop := by
    rw [scan_test, fromZero]
    exact Iff.rfl
  rw [alignedAddr_eq, lastPage, scanPages]
  rcases Nat.eq_zero_or_pos entry.stop with isZero | positive
  · rw [if_neg (by rw [goesOn, isZero]; exact Nat.lt_irrefl 0), if_pos isZero]
  · rw [if_pos (goesOn.mpr positive), if_neg (Nat.ne_of_gt positive)]
    simp only [kernel_test (show 2 ^ 20 - 1 < 2 ^ 20 by decide), isTop, pageAddr_succ, wraps,
      pageNo_pageAddr (show 2 ^ 20 - 1 < 2 ^ 20 by decide), noPage]

/-- A region above the kernel's end in the last page below 4 GB frees nothing. -/
theorem no_scans_top (ends : entry.Ends kernelEnd) {first : ℕ}
    (above : 0xfffff000 ≤ kernelEnd.toNat ∨ entry.stop = 0) :
    ¬ScansFrom kernelEnd (entry.addr + entry.len) first page := by
  have below := ends.ends
  rw [ScansFrom, ← MmapEntry.stop]
  omega

theorem scanEntry_spec {fuel : ℕ} (available : entry.available = true)
    (result : scanEntry kernelEnd fuel entry found = .ok found') :
    entry.Ends kernelEnd ∧ Freed (entry.Scans kernelEnd) found.vmm found'.vmm := by
  rw [scanEntry, if_pos available] at result
  have below : entry.stop ≤ 0xfffff000 := by
    by_contra beyond
    rw [alignedAddr_eq] at result
    exact scanPages_endless (not_le.mp beyond) fuel _ found result
  rcases eq_or_ne entry.start 0xfffff000 with atTop | notTop
  · cases fuel with
    | zero => cases result
    | succ fuel =>
        rw [scanPages_top atTop] at result
        split at result
        · rename_i isZero
          have ends : entry.Ends kernelEnd := ⟨below, fun _ => Or.inl isZero⟩
          cases result
          refine ⟨ends, Freed.nothing (fun page scans => ?_) _⟩
          exact no_scans_top ends (Or.inr isZero) ((scans_iff entry).mpr scans)
        · split at result
          · cases result
          · rename_i above
            have ends : entry.Ends kernelEnd := ⟨below, fun _ => Or.inr (not_lt.mp above)⟩
            refine ⟨ends, (scanPages_spec below fuel 0 (by decide) result).congr ?_⟩
            intro page
            refine iff_of_false (no_scans_top ends (Or.inl (not_lt.mp above))) ?_
            rw [← scans_iff entry]
            exact no_scans_top ends (Or.inl (not_lt.mp above))
  · have inWord : entry.start < 2 ^ 32 := (alignedAddr entry.addr).isLt
    have atStart := entry.start_eq
    have notLast : entry.start / pageBytes + 1 < 2 ^ 20 := by
      simp only [pageBytes] at atStart ⊢
      omega
    rw [alignedAddr_eq] at result
    refine ⟨⟨below, fun atTop => absurd atTop notTop⟩, ?_⟩
    exact (scanPages_spec below fuel _ notLast result).congr fun page => scans_iff entry

theorem scanEntry_exists {fuel : ℕ} (enough : 2 ^ 20 < fuel) (ends : entry.Ends kernelEnd)
    (allocated : ∀ page, entry.Scans kernelEnd page → found.vmm.Allocated page)
    (available : entry.available = true) :
    ∃ found', scanEntry kernelEnd fuel entry found = .ok found' := by
  rw [scanEntry, if_pos available]
  rcases eq_or_ne entry.start 0xfffff000 with atTop | notTop
  · obtain ⟨fuel, rfl⟩ : ∃ more, fuel = more + 1 := ⟨fuel - 1, by omega⟩
    rw [scanPages_top atTop]
    rcases ends.fromTop atTop with isZero | above
    · exact ⟨found, if_pos isZero⟩
    · split
      · exact ⟨found, rfl⟩
      · rw [if_neg (not_lt.mpr above)]
        apply scanPages_exists ends.ends fuel 0 (by decide) (by omega)
        exact fun page scans => absurd scans (no_scans_top ends (Or.inl above))
  · have inWord : entry.start < 2 ^ 32 := (alignedAddr entry.addr).isLt
    have atStart := entry.start_eq
    have notLast : entry.start / pageBytes + 1 < 2 ^ 20 := by
      simp only [pageBytes] at atStart ⊢
      omega
    rw [alignedAddr_eq]
    apply scanPages_exists ends.ends fuel _ notLast (enough.le.trans (Nat.le_add_left _ _))
    exact fun page scans => allocated page ((scans_iff entry).mp scans)

end

/-! ## All entries -/

section

variable {kernelEnd : BitVec 32} {mb : MultibootInfo} {entries : List MmapEntry}
  {found found' : Detected} {rounds : ℕ}

theorem MultibootInfo.Lists.le {offset : ℕ} (lists : mb.Lists offset entries) :
    offset + 4 * entries.length ≤ mb.mmapLength.toNat := by
  induction entries generalizing offset with
  | nil =>
      have isEnd : offset = mb.mmapLength.toNat := lists
      simp [isEnd]
  | cons entry rest ih =>
      have later := ih lists.2
      rw [List.length_cons]
      omega

/-- The pages that the scans of the entries free. -/
def ScansAny (kernelEnd : BitVec 32) (entries : List MmapEntry) (page : ℕ) : Prop :=
  ∃ entry ∈ entries, entry.available = true ∧ entry.Scans kernelEnd page

theorem scansAny_cons {entry : MmapEntry} {page : ℕ} :
    ScansAny kernelEnd (entry :: entries) page ↔
      (entry.available = true ∧ entry.Scans kernelEnd page) ∨
        ScansAny kernelEnd entries page := by
  simp [ScansAny]

/-- The offset of an entry is below the length, and the offset after it is that of the next. -/
theorem offset_test {offset : ℕ} {entry : MmapEntry} {rest : List MmapEntry}
    (lists : mb.Lists offset (entry :: rest)) :
    BitVec.ofNat 32 offset < mb.mmapLength ∧
      BitVec.ofNat 32 offset + (entry.size + 4) =
        BitVec.ofNat 32 (offset + entry.size.toNat + 4) := by
  have later := lists.2.le
  have bound := mb.mmapLength.isLt
  constructor
  · rw [BitVec.lt_def, BitVec.toNat_ofNat]
    omega
  · have four : (4 : BitVec 32).toNat = 4 := rfl
    apply BitVec.eq_of_toNat_eq
    simp only [BitVec.toNat_add, BitVec.toNat_ofNat, four]
    omega

theorem scanEntries_spec (fuel offset : ℕ) (lists : mb.Lists offset entries)
    (result : scanEntries kernelEnd mb rounds fuel (BitVec.ofNat 32 offset) found = .ok found') :
    (∀ entry ∈ entries, entry.available = true → entry.Ends kernelEnd) ∧
      Freed (ScansAny kernelEnd entries) found.vmm found'.vmm := by
  induction entries generalizing fuel offset found with
  | nil =>
      have atEnd : ¬BitVec.ofNat 32 offset < mb.mmapLength := by
        rw [lists, BitVec.ofNat_toNat, BitVec.setWidth_eq]
        exact BitVec.lt_irrefl _
      cases fuel with
      | zero => cases result
      | succ fuel =>
          rw [scanEntries, if_neg atEnd] at result
          cases result
          exact ⟨nofun, Freed.nothing (fun page scans => by simp [ScansAny] at scans) _⟩
  | cons entry rest ih =>
      rcases offset_test lists with ⟨inside, next⟩
      cases fuel with
      | zero => cases result
      | succ fuel =>
          rw [scanEntries, if_pos inside] at result
          simp only [lists.1, next] at result
          cases scanned : scanEntry kernelEnd rounds entry found with
          | error halt =>
              rw [scanned] at result
              cases result
          | ok middle =>
              rw [scanned] at result
              rcases ih fuel _ lists.2 result with ⟨restEnds, restFreed⟩
              by_cases available : entry.available = true
              · rcases scanEntry_spec available scanned with ⟨ends, freed⟩
                refine ⟨?_, (freed.trans restFreed).congr fun page => ?_⟩
                · rw [List.forall_mem_cons]
                  exact ⟨fun _ => ends, restEnds⟩
                · rw [scansAny_cons, and_iff_right available]
              · rw [scanEntry, if_neg available] at scanned
                cases scanned
                refine ⟨?_, restFreed.congr fun page => ?_⟩
                · rw [List.forall_mem_cons]
                  exact ⟨fun isAvailable => absurd isAvailable available, restEnds⟩
                · rw [scansAny_cons]
                  exact ⟨Or.inr, fun isIn => isIn.resolve_left fun first => available first.1⟩

/-- Two regions that hold the same page are not apart. -/
theorem MmapEntry.Apart.not_holds {entry other : MmapEntry} {page : ℕ}
    (apart : entry.Apart other) (inMemory : page < pageCount) (holds : entry.Holds page)
    (otherHolds : other.Holds page) : False := by
  have isIn : (BitVec.ofNat 64 (page * pageBytes)).toNat / pageBytes = page := by
    rw [BitVec.toNat_ofNat]
    simp only [pageBytes, pageCount] at inMemory ⊢
    omega
  exact apart _ ⟨holds _ isIn, otherHolds _ isIn⟩

theorem MmapEntry.Scannable.endsOf {entry : MmapEntry} (scannable : entry.Scannable kernelEnd) :
    entry.Ends kernelEnd := ⟨scannable.ends, scannable.fromTop⟩

theorem scanEntries_exists (enough : 2 ^ 20 < rounds) (fuel offset : ℕ)
    (enoughEntries : entries.length < fuel) (lists : mb.Lists offset entries)
    (apart : (entries.filter (·.available)).Pairwise MmapEntry.Apart)
    (scannable : ∀ entry ∈ entries, entry.available = true → entry.Scannable kernelEnd)
    (allocated : ∀ page, ScansAny kernelEnd entries page → found.vmm.Allocated page) :
    ∃ found', scanEntries kernelEnd mb rounds fuel (BitVec.ofNat 32 offset) found = .ok found' := by
  induction entries generalizing fuel offset found with
  | nil =>
      have atEnd : ¬BitVec.ofNat 32 offset < mb.mmapLength := by
        rw [lists, BitVec.ofNat_toNat, BitVec.setWidth_eq]
        exact BitVec.lt_irrefl _
      obtain ⟨fuel, rfl⟩ : ∃ more, fuel = more + 1 := ⟨fuel - 1, by simp at enoughEntries; omega⟩
      exact ⟨found, by rw [scanEntries, if_neg atEnd]⟩
  | cons entry rest ih =>
      rw [List.length_cons] at enoughEntries
      rw [List.forall_mem_cons] at scannable
      obtain ⟨fuel, rfl⟩ : ∃ more, fuel = more + 1 := ⟨fuel - 1, by omega⟩
      rcases offset_test lists with ⟨inside, next⟩
      rw [scanEntries, if_pos inside]
      simp only [lists.1, next]
      by_cases available : entry.available = true
      · rw [List.filter_cons_of_pos available, List.pairwise_cons] at apart
        have ends := (scannable.1 available).endsOf
        have isAllocated : ∀ page, entry.Scans kernelEnd page → found.vmm.Allocated page :=
          fun page scans => allocated page (scansAny_cons.mpr (Or.inl ⟨available, scans⟩))
        rcases scanEntry_exists enough ends isAllocated available with ⟨middle, scanned⟩
        have freed := (scanEntry_spec available scanned).2
        rw [scanned]
        apply ih fuel _ (by omega) lists.2 apart.2 scannable.2
        intro page scans
        dsimp only
        rw [freed.2]
        refine ⟨allocated page (scansAny_cons.mpr (Or.inr scans)), fun first => ?_⟩
        -- The page would be in two regions.
        rcases scans with ⟨other, isIn, isAvailable, otherScans⟩
        have inMemory := Vmm.lt_of_allocated (isAllocated page first)
        have areApart := apart.1 other (List.mem_filter.mpr ⟨isIn, isAvailable⟩)
        exact areApart.not_holds inMemory (ends.holds first inMemory)
          ((scannable.2 other isIn isAvailable).endsOf.holds otherScans inMemory)
      · rw [List.filter_cons_of_neg available] at apart
        rw [scanEntry, if_neg available]
        apply ih fuel _ (by omega) lists.2 apart scannable.2
        exact fun page scans => allocated page (scansAny_cons.mpr (Or.inr scans))

end

/-! ## The memory map -/

section

variable {kernelEnd : BitVec 32} {mb : MultibootInfo} {entries : List MmapEntry}

theorem full_allocated {page : ℕ} (inMemory : page < pageCount) : Vmm.full.Allocated page := by
  have inMap : page / 8 < bitmapSize := by
    simp only [pageCount, bitmapSize] at inMemory ⊢
    omega
  refine ⟨inMap, ?_⟩
  have allOnes : (0xff : BitVec 8) = BitVec.allOnes 8 := rfl
  simp only [Vmm.full, allOnes, BitVec.getLsbD_allOnes, decide_eq_true_eq]
  omega

/-- What `mem_detect` frees, if it returns. -/
theorem memDetect_spec {fuel : ℕ} {found : Detected} (isMap : mb.flags &&& 0x40 ≠ 0)
    (lists : mb.Lists 0 entries) (result : memDetect fuel kernelEnd mb .full = .ok found) :
    (∀ entry ∈ entries, entry.available = true → entry.Ends kernelEnd) ∧
      Freed (ScansAny kernelEnd entries) .full found.vmm := by
  rw [memDetect, if_pos isMap] at result
  exact scanEntries_spec fuel 0 lists result

instance : Std.Symm MmapEntry.Apart :=
  ⟨fun _ _ apart byte covered => apart byte ⟨covered.2, covered.1⟩⟩

theorem apart_of_ne (apart : (entries.filter (·.available)).Pairwise MmapEntry.Apart)
    {entry other : MmapEntry} (isIn : entry ∈ entries) (available : entry.available = true)
    (otherIn : other ∈ entries) (otherAvailable : other.available = true)
    (different : entry ≠ other) : entry.Apart other := by
  apply apart.forall
  · exact List.mem_filter.mpr ⟨isIn, available⟩
  · exact List.mem_filter.mpr ⟨otherIn, otherAvailable⟩
  · exact different

/-- `mem_detect` is right if and only if the scan of each available region is right. -/
theorem detects_iff (kernelEnd : BitVec 32) (mb : MultibootInfo) (entries : List MmapEntry)
    (isMap : mb.flags &&& 0x40 ≠ 0) (lists : mb.Lists 0 entries)
    (apart : (entries.filter (·.available)).Pairwise MmapEntry.Apart) :
    Detects kernelEnd mb entries ↔
      ∀ entry ∈ entries, entry.available = true → entry.Scannable kernelEnd := by
  constructor
  · rintro ⟨fuel, found, result, right⟩ entry isIn available
    rcases memDetect_spec isMap lists result with ⟨ends, freed⟩
    rw [MmapEntry.scannable_iff]
    refine ⟨ends entry isIn available, fun page scans => ?_, ?_⟩
    · exact Vmm.lt_of_allocated (freed.1 page ⟨entry, isIn, available, scans⟩)
    · intro page inMemory aboveKernel holds
      have isFree := (right page inMemory).mpr
        ⟨⟨entry, isIn, available, holds⟩, aboveKernel, by
          simp only [pageBytes, maxMem, pageCount] at inMemory ⊢
          omega⟩
      rw [freed.2, and_iff_right (full_allocated inMemory), not_not] at isFree
      rcases isFree with ⟨other, otherIn, otherAvailable, scans⟩
      -- No other region holds the page, and each region holds what its scan frees.
      rcases eq_or_ne entry other with rfl | different
      · exact scans
      · have areApart := apart_of_ne apart isIn available otherIn otherAvailable different
        exact (areApart.not_holds inMemory holds
          ((ends other otherIn otherAvailable).holds scans inMemory)).elim
  · intro scannable
    have allocated : ∀ page, ScansAny kernelEnd entries page →
        Vmm.Allocated (Detected.mk .full 0 0).vmm page := by
      rintro page ⟨entry, isIn, available, scans⟩
      exact full_allocated
        ((MmapEntry.scannable_iff.mp (scannable entry isIn available)).2.1 page scans)
    have enough : 2 ^ 20 < 2 ^ 20 + entries.length + 1 := by omega
    rcases scanEntries_exists enough (2 ^ 20 + entries.length + 1) 0 (by omega) lists apart
      scannable allocated with ⟨found, scanned⟩
    have result : memDetect (2 ^ 20 + entries.length + 1) kernelEnd mb .full = .ok found := by
      rw [memDetect, if_pos isMap]
      exact scanned
    have freed := (memDetect_spec isMap lists result).2
    refine ⟨_, found, result, fun page inMemory => ?_⟩
    rw [freed.2, and_iff_right (full_allocated inMemory), not_not]
    constructor
    · rintro ⟨entry, isIn, available, scans⟩
      have ends := (scannable entry isIn available).endsOf
      refine ⟨⟨entry, isIn, available, ends.holds scans inMemory⟩, scans.2.2, ?_⟩
      simp only [pageBytes, maxMem, pageCount] at inMemory ⊢
      omega
    · rintro ⟨⟨entry, isIn, available, holds⟩, aboveKernel, -⟩
      refine ⟨entry, isIn, available, ?_⟩
      exact (MmapEntry.scannable_iff.mp (scannable entry isIn available)).2.2 page inMemory
        aboveKernel holds

end

/-- Memory from 1 MB on, with this length. -/
def mapOf (len : BitVec 64) : MultibootInfo where
  flags := 0x40
  memLower := 0
  memUpper := 0
  mmapLength := 24
  mmap _ := ⟨20, 0x100000, len, 1⟩

theorem detects_iff_odd : Detects 0x100000 (mapOf 0x3001) [(mapOf 0x3001).mmap 0] ↔
    ∀ entry ∈ [(mapOf 0x3001).mmap 0], entry.available = true → entry.Scannable 0x100000 :=
  detects_iff _ _ _ (by decide) ⟨rfl, rfl⟩ (List.pairwise_singleton _ _)

/-- The last of three pages stays allocated. -/
theorem not_detects_all : ¬∀ (kernelEnd : BitVec 32) (mb : MultibootInfo)
    (entries : List MmapEntry), mb.flags &&& 0x40 ≠ 0 → mb.Lists 0 entries →
    (entries.filter (·.available)).Pairwise MmapEntry.Apart → Detects kernelEnd mb entries := by
  intro all
  have lists : (mapOf 0x3000).Lists 0 [(mapOf 0x3000).mmap 0] := ⟨rfl, rfl⟩
  rcases all 0x80000 (mapOf 0x3000) _ (by decide) lists (List.pairwise_singleton _ _)
    with ⟨fuel, found, result, right⟩
  have freed := (memDetect_spec (by decide) lists result).2
  have inMemory : 0x102 < pageCount := by decide
  have holds : ((mapOf 0x3000).mmap 0).Holds 0x102 := by
    rw [MmapEntry.holds_iff inMemory]
    decide
  have isFree := (right 0x102 inMemory).mpr
    ⟨⟨_, List.mem_singleton.mpr rfl, rfl, holds⟩, by decide, by decide⟩
  rw [freed.2, and_iff_right (full_allocated inMemory), not_not] at isFree
  rcases isFree with ⟨entry, isIn, -, -, beforeStop, -⟩
  cases List.mem_singleton.mp isIn
  exact absurd beforeStop (by decide)

end Osix.Vm
