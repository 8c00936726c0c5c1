import Mathlib.Data.BitVec
import Mathlib.Data.Fin.Basic
import Mathlib.Logic.Function.Basic

/-!
# The bitmap of physical pages

`sys/i386/vmm.c`: one bit for each page frame of memory, set if the page is allocated, and
an index at which the next search starts. A panic is `none`.
-/

namespace Osix.Vm

/-- `PAGE_COUNT_MAX`, the pages of 128 MB. -/
def pageCount : ℕ := 32768

/-- `PAGE_BITMAP_SIZE`. -/
def bitmapSize : ℕ := 4096

instance : NeZero bitmapSize := ⟨by decide⟩

/-- `vmm_bitmap` and `vmm_bitmap_index`. -/
structure Vmm where
  bitmap : Fin bitmapSize → BitVec 8
  index : Fin bitmapSize

/-- The bit of a page in its byte. -/
def pageBit (bit : ℕ) : BitVec 8 := 1#8 <<< bit

theorem and_pageBit (byte : BitVec 8) {bit : ℕ} (inByte : bit < 8) :
    byte &&& pageBit bit = 0 ↔ byte.getLsbD bit = false := by
  rw [pageBit, ← BitVec.twoPow_eq, BitVec.and_twoPow]
  cases isSet : byte.getLsbD bit with
  | false => simp
  | true =>
      simp only [if_true, Bool.true_eq_false, iff_false]
      intro zero
      have atBit := congrArg (BitVec.getLsbD · bit) zero
      simp [inByte] at atBit

theorem getLsbD_pageBit {bit : ℕ} (inByte : bit < 8) (other : ℕ) :
    (pageBit bit).getLsbD other = decide (other = bit) := by
  rw [pageBit, ← BitVec.twoPow_eq, BitVec.getLsbD_twoPow]
  by_cases same : bit = other
  · simp [same, same ▸ inByte]
  · have different : other ≠ bit := fun h => same h.symm
    simp [same, different]

namespace Vmm

/-- The first byte from the index on that is not all allocated, within `count` steps. -/
def scan (bitmap : Fin bitmapSize → BitVec 8) : ℕ → Fin bitmapSize → Fin bitmapSize
  | 0, index => index
  | count + 1, index => if bitmap index = 0xff then scan bitmap count (index + 1) else index

/-- The first bit from `bit` on that is free. -/
def freeBit (byte : BitVec 8) : ℕ → ℕ → ℕ
  | 0, bit => bit
  | count + 1, bit => if byte &&& pageBit bit ≠ 0 then freeBit byte count (bit + 1) else bit

/-- `vmm_alloc_page`: the number of the page. -/
def allocPage (vmm : Vmm) : Option (ℕ × Vmm) :=
  let index := scan vmm.bitmap bitmapSize vmm.index
  if vmm.bitmap index = 0xff then
    none
  else
    let bit := freeBit (vmm.bitmap index) 8 0
    some (index * 8 + bit,
      ⟨Function.update vmm.bitmap index (vmm.bitmap index ||| pageBit bit), index⟩)

/-- `vmm_free_page`. -/
def freePage (vmm : Vmm) (page : ℕ) : Option Vmm :=
  if inRange : page / 8 < bitmapSize then
    if vmm.bitmap ⟨page / 8, inRange⟩ &&& pageBit (page % 8) = 0 then
      none
    else
      some { vmm with
        bitmap := Function.update vmm.bitmap ⟨page / 8, inRange⟩
          (vmm.bitmap ⟨page / 8, inRange⟩ &&& ~~~pageBit (page % 8)) }
  else
    none

/-- A page is marked allocated. -/
def Allocated (vmm : Vmm) (page : ℕ) : Prop :=
  ∃ inRange : page / 8 < bitmapSize, (vmm.bitmap ⟨page / 8, inRange⟩).getLsbD (page % 8) = true

instance (vmm : Vmm) (page : ℕ) : Decidable (vmm.Allocated page) :=
  inferInstanceAs (Decidable (∃ _ : _, _))

theorem lt_of_allocated {vmm : Vmm} {page : ℕ} (allocated : vmm.Allocated page) :
    page < pageCount := by
  rcases allocated with ⟨inRange, _⟩
  simp only [bitmapSize, pageCount] at inRange ⊢
  omega

/-! ## The free bit -/

theorem freeBit_spec (byte : BitVec 8) (count bit : ℕ) (free : ℕ)
    (isFree : byte.getLsbD free = false) (atLeast : bit ≤ free) (within : free < bit + count)
    (inByte : bit + count ≤ 8) :
    freeBit byte count bit < 8 ∧ byte.getLsbD (freeBit byte count bit) = false := by
  induction count generalizing bit with
  | zero => omega
  | succ count ih =>
      simp only [freeBit]
      split
      · rename_i isSet
        rw [Ne, and_pageBit byte (by omega)] at isSet
        have notFree : bit ≠ free := by
          rintro rfl
          exact isSet isFree
        exact ih (bit + 1) (by omega) (by omega) (by omega)
      · rename_i isClear
        rw [not_not, and_pageBit byte (by omega)] at isClear
        exact ⟨by omega, isClear⟩

/-- A byte that is not `0xff` has a free bit. -/
theorem exists_free {byte : BitVec 8} (notFull : byte ≠ 0xff) :
    ∃ bit < 8, byte.getLsbD bit = false := by
  by_contra none
  push Not at none
  apply notFull
  apply BitVec.eq_of_getLsbD_eq
  intro bit inByte
  have allOnes : (0xff : BitVec 8) = BitVec.allOnes 8 := rfl
  rw [Bool.eq_true_of_not_eq_false (none bit inByte), allOnes, BitVec.getLsbD_allOnes]
  simp [inByte]

theorem freeBit_free {byte : BitVec 8} (notFull : byte ≠ 0xff) :
    freeBit byte 8 0 < 8 ∧ byte.getLsbD (freeBit byte 8 0) = false := by
  rcases exists_free notFull with ⟨bit, inByte, isFree⟩
  exact freeBit_spec byte 8 0 bit isFree (Nat.zero_le _) (by omega) le_rfl

/-! ## The set of allocated pages -/

/-- Setting a bit allocates the page of the bit and no other. -/
theorem allocated_setBit (vmm : Vmm) (index next : Fin bitmapSize) {bit : ℕ} (inByte : bit < 8)
    (other : ℕ) :
    Allocated ⟨Function.update vmm.bitmap index (vmm.bitmap index ||| pageBit bit), next⟩ other ↔
      vmm.Allocated other ∨ other = index * 8 + bit := by
  have byteOf : (index * 8 + bit : ℕ) / 8 = index := by omega
  have bitOf : (index * 8 + bit : ℕ) % 8 = bit := by omega
  simp only [Allocated]
  constructor
  · rintro ⟨inRange, isSet⟩
    by_cases same : (⟨other / 8, inRange⟩ : Fin bitmapSize) = index
    · rw [same, Function.update_self, BitVec.getLsbD_or, getLsbD_pageBit inByte,
        Bool.or_eq_true, decide_eq_true_eq] at isSet
      rcases isSet with isSet | isBit
      · exact Or.inl ⟨inRange, by rwa [same]⟩
      · right
        have atByte : other / 8 = index := congrArg Fin.val same
        omega
    · rw [Function.update_of_ne same] at isSet
      exact Or.inl ⟨inRange, isSet⟩
  · rintro (⟨inRange, isSet⟩ | rfl)
    · refine ⟨inRange, ?_⟩
      by_cases same : (⟨other / 8, inRange⟩ : Fin bitmapSize) = index
      · rw [same] at isSet ⊢
        rw [Function.update_self, BitVec.getLsbD_or, isSet, Bool.true_or]
      · rwa [Function.update_of_ne same]
    · refine ⟨by rw [byteOf]; exact index.isLt, ?_⟩
      simp [byteOf, bitOf, getLsbD_pageBit inByte]

/-- A page that `vmm_alloc_page` returns was free, and it is the only one that changes. -/
theorem allocPage_spec {vmm vmm' : Vmm} {page : ℕ} (result : vmm.allocPage = some (page, vmm')) :
    ¬vmm.Allocated page ∧ ∀ other, vmm'.Allocated other ↔ vmm.Allocated other ∨ other = page := by
  simp only [allocPage] at result
  split at result
  · cases result
  · rename_i notFull
    generalize scan vmm.bitmap bitmapSize vmm.index = index at notFull result
    rcases freeBit_free notFull with ⟨inByte, isFree⟩
    generalize freeBit (vmm.bitmap index) 8 0 = bit at inByte isFree result
    cases result
    have byteOf : (index * 8 + bit : ℕ) / 8 = index := by omega
    have bitOf : (index * 8 + bit : ℕ) % 8 = bit := by omega
    refine ⟨?_, allocated_setBit vmm index index inByte⟩
    rintro ⟨_, isSet⟩
    simp only [byteOf, bitOf, Fin.eta] at isSet
    rw [isFree] at isSet
    cases isSet

/-- `vmm_free_page` frees its page, which was allocated, and no other. -/
theorem freePage_spec {vmm vmm' : Vmm} {page : ℕ} (result : vmm.freePage page = some vmm') :
    vmm.Allocated page ∧
      ∀ other, vmm'.Allocated other ↔ vmm.Allocated other ∧ other ≠ page := by
  have inByte : page % 8 < 8 := by omega
  simp only [freePage] at result
  split at result
  · rename_i inRange
    split at result
    · cases result
    · rename_i isSet
      rw [and_pageBit _ inByte] at isSet
      cases result
      refine ⟨⟨inRange, by simpa using isSet⟩, ?_⟩
      intro other
      simp only [Allocated]
      constructor
      · rintro ⟨otherRange, isSet'⟩
        by_cases same : other / 8 = page / 8
        · simp only [same, Function.update_self, BitVec.getLsbD_and, BitVec.getLsbD_not,
            getLsbD_pageBit inByte, Bool.and_eq_true] at isSet'
          refine ⟨⟨otherRange, by simpa only [same] using isSet'.1⟩, ?_⟩
          rintro rfl
          simp at isSet'
        · have different : (⟨other / 8, otherRange⟩ : Fin bitmapSize) ≠ ⟨page / 8, inRange⟩ := by
            simpa using same
          rw [Function.update_of_ne different] at isSet'
          exact ⟨⟨otherRange, isSet'⟩, fun h => same (by rw [h])⟩
      · rintro ⟨⟨otherRange, isSet'⟩, notPage⟩
        refine ⟨otherRange, ?_⟩
        by_cases same : other / 8 = page / 8
        · have otherBit : other % 8 ≠ page % 8 := by omega
          have otherInByte : other % 8 < 8 := by omega
          simp only [same] at isSet'
          simp only [same, Function.update_self, BitVec.getLsbD_and, BitVec.getLsbD_not, isSet',
            getLsbD_pageBit inByte]
          simp [otherBit, otherInByte]
        · have different : (⟨other / 8, otherRange⟩ : Fin bitmapSize) ≠ ⟨page / 8, inRange⟩ := by
            simpa using same
          rwa [Function.update_of_ne different]
  · cases result

/-- A page that is allocated can be freed. -/
theorem freePage_isSome {vmm : Vmm} {page : ℕ} (allocated : vmm.Allocated page) :
    ∃ vmm', vmm.freePage page = some vmm' := by
  rcases allocated with ⟨inRange, isSet⟩
  have notClear : ¬vmm.bitmap ⟨page / 8, inRange⟩ &&& pageBit (page % 8) = 0 := by
    rw [and_pageBit _ (by omega), isSet]
    simp
  exact ⟨_, by rw [freePage, dif_pos inRange, if_neg notClear]⟩

end Vmm

end Osix.Vm
