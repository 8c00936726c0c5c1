import Osix.Vm.Progress

/-!
# One view of the bitmap

All the functions of `sys/i386/vmm.c` against one set of allocated pages. `vmm_alloc_page` and
`vmm_free_page` take the bit of a page from its number modulo 8, `vmm_is_free` and
`vmm_alloc_addr` from its number modulo 4, so that in the upper half of a byte they look at the
page four below.
-/

namespace Osix.Vm

/-- `PAGE_SIZE`. -/
def pageBytes : ℕ := 4096

/-- `MAX_MEM`. -/
def maxMem : ℕ := 1024 * 1024 * 128

namespace Vmm

/-- The number of the page of an address. -/
def pageNo (addr : ℕ) : ℕ := addr / pageBytes

/-- `vmm_is_free`. -/
def isFree (vmm : Vmm) (addr : ℕ) : Bool :=
  if inRange : pageNo addr / 8 < bitmapSize then
    vmm.bitmap ⟨pageNo addr / 8, inRange⟩ &&& pageBit (pageNo addr &&& 3) = 0
  else
    false

/-- `vmm_alloc_addr`: the address, or `NULL` and the bitmap as it was. -/
def allocAddr (vmm : Vmm) (addr : ℕ) : Option ℕ × Vmm :=
  if inRange : pageNo addr / 8 < bitmapSize then
    if vmm.bitmap ⟨pageNo addr / 8, inRange⟩ &&& pageBit (pageNo addr &&& 3) ≠ 0 then
      (none, vmm)
    else
      (some addr, { vmm with
        bitmap := Function.update vmm.bitmap ⟨pageNo addr / 8, inRange⟩
          (vmm.bitmap ⟨pageNo addr / 8, inRange⟩ ||| pageBit (pageNo addr &&& 3)) })
  else
    (none, vmm)

/-- Exactly one page has become allocated. -/
def Adds (vmm : Vmm) (page : ℕ) (vmm' : Vmm) : Prop :=
  ∀ other, vmm'.Allocated other ↔ vmm.Allocated other ∨ other = page

/-- Exactly one page has become free. -/
def Removes (vmm : Vmm) (page : ℕ) (vmm' : Vmm) : Prop :=
  ∀ other, vmm'.Allocated other ↔ vmm.Allocated other ∧ other ≠ page

/-- The four functions agree on the set of allocated pages. -/
structure OneView (vmm : Vmm) (addr : ℕ) : Prop where
  allocPage : ∀ page vmm', vmm.allocPage = some (page, vmm') →
    ¬vmm.Allocated page ∧ vmm.Adds page vmm'
  allocPanics : vmm.allocPage = none → ∀ page < pageCount, vmm.Allocated page
  freePage : ∀ vmm', vmm.freePage (pageNo addr) = some vmm' → vmm.Removes (pageNo addr) vmm'
  freePanics : vmm.freePage (pageNo addr) = none → ¬vmm.Allocated (pageNo addr)
  isFree : vmm.isFree addr = true ↔ ¬vmm.Allocated (pageNo addr)
  allocAddr : ¬vmm.Allocated (pageNo addr) →
    (vmm.allocAddr addr).1 = some addr ∧ vmm.Adds (pageNo addr) (vmm.allocAddr addr).2
  allocTaken : vmm.Allocated (pageNo addr) → vmm.allocAddr addr = (none, vmm)

variable {vmm vmm' : Vmm} {addr page : ℕ}

/-- The page whose bit `vmm_is_free` and `vmm_alloc_addr` take for that of `page`. -/
def lowPage (page : ℕ) : ℕ := page / 8 * 8 + page % 4

theorem lowPage_eq_self : lowPage page = page ↔ page % 8 < 4 := by
  unfold lowPage
  omega

theorem lowPage_of_high (high : ¬page % 8 < 4) : lowPage page = page - 4 := by
  unfold lowPage
  omega

/-- A page is free if and only if the bit of its number modulo 8 is clear in its byte. -/
theorem allocated_iff_bit (inRange : page / 8 < bitmapSize) {bit : ℕ} (inByte : bit < 8) :
    vmm.bitmap ⟨page / 8, inRange⟩ &&& pageBit bit = 0 ↔
      ¬vmm.Allocated (page / 8 * 8 + bit) := by
  have byteOf : (page / 8 * 8 + bit) / 8 = page / 8 := by omega
  have bitOf : (page / 8 * 8 + bit) % 8 = bit := by omega
  rw [and_pageBit _ inByte, Allocated]
  simp only [byteOf, bitOf, inRange, exists_true_left, Bool.not_eq_true]

theorem and_three (page : ℕ) : page &&& 3 = page % 4 :=
  Nat.and_two_pow_sub_one_eq_mod page 2

/-- `vmm_is_free` tells whether the low page is free. -/
theorem isFree_iff (inMemory : addr < maxMem) :
    vmm.isFree addr = true ↔ ¬vmm.Allocated (lowPage (pageNo addr)) := by
  have inRange : pageNo addr / 8 < bitmapSize := by
    simp only [pageNo, maxMem, pageBytes, bitmapSize] at inMemory ⊢
    omega
  rw [isFree, dif_pos inRange, decide_eq_true_eq, and_three]
  exact allocated_iff_bit inRange (by omega)

/-- `vmm_alloc_addr` allocates the low page if it is free. -/
theorem allocAddr_cases (inMemory : addr < maxMem) :
    (vmm.Allocated (lowPage (pageNo addr)) ∧ vmm.allocAddr addr = (none, vmm)) ∨
    (¬vmm.Allocated (lowPage (pageNo addr)) ∧ (vmm.allocAddr addr).1 = some addr ∧
      vmm.Adds (lowPage (pageNo addr)) (vmm.allocAddr addr).2) := by
  have inRange : pageNo addr / 8 < bitmapSize := by
    simp only [pageNo, maxMem, pageBytes, bitmapSize] at inMemory ⊢
    omega
  have inByte : pageNo addr % 4 < 8 := by omega
  rw [allocAddr, dif_pos inRange, and_three]
  split
  · rename_i isSet
    rw [ne_eq, allocated_iff_bit inRange inByte, not_not] at isSet
    exact Or.inl ⟨isSet, rfl⟩
  · rename_i isClear
    rw [not_not, allocated_iff_bit inRange inByte] at isClear
    refine Or.inr ⟨isClear, rfl, fun other => ?_⟩
    exact allocated_setBit vmm ⟨pageNo addr / 8, inRange⟩ vmm.index inByte other

/-- A page whose bit is clear is not freed. -/
theorem freePage_none (panics : vmm.freePage page = none) : ¬vmm.Allocated page := by
  intro allocated
  rcases freePage_isSome allocated with ⟨vmm', isFreed⟩
  rw [panics] at isFreed
  cases isFreed

/-- The search panics only if no page is free. -/
theorem allocPage_none (panics : vmm.allocPage = none) (inRange : page < pageCount) :
    vmm.Allocated page := by
  by_contra isFree
  rcases allocPage_exists inRange isFree with ⟨found, vmm', isFound⟩
  rw [panics] at isFound
  cases isFound

/--
The four functions agree at an address if and only if its page is in the lower half of its byte,
or it and the page four below are both allocated.
-/
theorem oneView_iff (vmm : Vmm) {addr : ℕ} (inMemory : addr < maxMem) :
    vmm.OneView addr ↔
      pageNo addr % 8 < 4 ∨
        vmm.Allocated (pageNo addr) ∧ vmm.Allocated (pageNo addr - 4) := by
  constructor
  · intro view
    by_cases low : pageNo addr % 8 < 4
    · exact Or.inl low
    right
    have different : lowPage (pageNo addr) ≠ pageNo addr := mt lowPage_eq_self.mp low
    have sameTest : vmm.Allocated (lowPage (pageNo addr)) ↔ vmm.Allocated (pageNo addr) :=
      not_iff_not.mp ((isFree_iff inMemory).symm.trans view.isFree)
    rw [← lowPage_of_high low, sameTest, and_self]
    by_contra isFree
    -- Both are free: the low page becomes allocated in place of the page itself.
    have isLowFree := mt sameTest.mp isFree
    rcases @allocAddr_cases vmm addr inMemory with ⟨isSet, _⟩ | ⟨_, _, adds⟩
    · exact isLowFree isSet
    · rcases (view.allocAddr isFree).2 (lowPage (pageNo addr)) |>.mp
        ((adds _).mpr (Or.inr rfl)) with isSet | same
      · exact isLowFree isSet
      · exact different same
  · intro agrees
    have sameTest : vmm.Allocated (lowPage (pageNo addr)) ↔ vmm.Allocated (pageNo addr) := by
      rcases agrees with low | ⟨allocated, lowAllocated⟩
      · rw [lowPage_eq_self.mpr low]
      · by_cases low : pageNo addr % 8 < 4
        · rw [lowPage_eq_self.mpr low]
        · rw [lowPage_of_high low]
          exact iff_of_true lowAllocated allocated
    constructor
    case allocPage => exact fun page vmm' result => allocPage_spec result
    case allocPanics => exact fun panics page inRange => allocPage_none panics inRange
    case freePage => exact fun vmm' result => (freePage_spec result).2
    case freePanics => exact freePage_none
    case isFree => rw [isFree_iff inMemory, sameTest]
    case allocAddr =>
      intro isFree
      have low : lowPage (pageNo addr) = pageNo addr :=
        lowPage_eq_self.mpr (agrees.resolve_right fun taken => isFree taken.1)
      rcases @allocAddr_cases vmm addr inMemory with ⟨isSet, _⟩ | ⟨_, isAddr, adds⟩
      · exact absurd (sameTest.mp isSet) isFree
      · rw [low] at adds
        exact ⟨isAddr, adds⟩
    case allocTaken =>
      intro isSet
      rcases @allocAddr_cases vmm addr inMemory with ⟨_, isNull⟩ | ⟨isLowFree, _⟩
      · exact isNull
      · exact absurd (sameTest.mpr isSet) isLowFree

/-- The bitmap with only the first page allocated. -/
def firstPage : Vmm := ⟨fun index => if index = 0 then 1 else 0, 0⟩

theorem oneView_iff_first : 0x1000 < maxMem ∧
    (firstPage.OneView 0x1000 ↔ pageNo 0x1000 % 8 < 4 ∨
      firstPage.Allocated (pageNo 0x1000) ∧ firstPage.Allocated (pageNo 0x1000 - 4)) :=
  ⟨by decide, oneView_iff firstPage (by decide)⟩

/-- Page 4 is free, and `vmm_is_free` looks at page 0, which is not. -/
theorem not_oneView_all : ¬∀ (vmm : Vmm) (addr : ℕ), addr < maxMem → vmm.OneView addr := by
  intro all
  have view := all firstPage 0x4000 (by decide)
  have isFree : ¬firstPage.Allocated (pageNo 0x4000) := by decide
  have reported : firstPage.isFree 0x4000 = false := by decide
  rw [view.isFree.mpr isFree] at reported
  cases reported

end Vmm

end Osix.Vm
