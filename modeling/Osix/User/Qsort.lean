import Osix.Basic
import Osix.Lib.Quicksort
import Osix.User.Stack

/-!
# Arrays of bytes in order

`memswap` and `qsort` of `lib/libc/stdlib.c` over the memory of a program. An array is in
memory, so its addresses do not wrap around. The local copy that `memswap` makes is not part
of that memory but of the stack, and a comparison looks at the bytes of two elements.

`qsort` calls itself for the elements before the pivot and for those behind it. How deep the calls
go depends on the order of the elements, and a stack without room for them is overrun.
-/

namespace Osix.Stdlib

open Quicksort

/-- `memcpy` from an object with these bytes, which is not partly the same one. -/
def memcpy (mem : ℕ → Byte) (dst : ℕ) (src : ℕ → Byte) (n : ℕ) : ℕ → Byte :=
  fun addr => if dst ≤ addr ∧ addr < dst + n then src (addr - dst) else mem addr

def memswap (mem : ℕ → Byte) (a b size : ℕ) : ℕ → Byte :=
  let temp := fun k => mem (a + k)
  let copied := memcpy mem a (fun k => mem (b + k)) size
  memcpy copied b temp size

/-- The bytes of an object. -/
def element (mem : ℕ → Byte) (addr size : ℕ) : List Byte :=
  (List.range size).map fun k => mem (addr + k)

/-- The first turns of the loop of `qsort`: `i` and the memory. -/
def qsortLoop (compar : List Byte → List Byte → ℤ) (arr pivot size : ℕ) :
    ℕ → (ℕ → Byte) → ℕ × (ℕ → Byte)
  | 0, mem => (0, mem)
  | j + 1, mem =>
      let (i, mem) := qsortLoop compar arr pivot size j mem
      if compar (element mem (arr + j * size) size) (element mem pivot size) < 0 then
        (i + 1, memswap mem (arr + i * size) (arr + j * size) size)
      else
        (i, mem)

theorem qsortLoop_le (compar : List Byte → List Byte → ℤ) (arr pivot size turns : ℕ)
    (mem : ℕ → Byte) : (qsortLoop compar arr pivot size turns mem).1 ≤ turns := by
  induction turns with
  | zero => exact le_rfl
  | succ j ih =>
      simp only [qsortLoop]
      split
      · exact Nat.succ_le_succ ih
      · exact ih.trans (Nat.le_succ j)

/--
The stack as `qsort` finds it, and how much of it is taken by a call of `qsort`, by one of
`memswap` besides its copy of an element, and by a comparison.
-/
structure SortStack extends UserStack 4 where
  swapFrame : ℕ
  comparFrame : ℕ
  holdsSwap : 4 * (3 + 1) ≤ swapFrame
  holdsCompar : 4 * (2 + 1) ≤ comparFrame

namespace SortStack

/-- What the functions take that `qsort` calls besides itself. -/
def callees (stack : SortStack) (size : ℕ) : ℕ := max (stack.swapFrame + size) stack.comparFrame

end SortStack

/-- `qsort`, with so much room on the stack. -/
def qsort (compar : List Byte → List Byte → ℤ) (stack : SortStack) (room : ℕ) (mem : ℕ → Byte)
    (base count size : ℕ) : Option (ℕ → Byte) :=
  if room < stack.frame then
    none
  else if count < 2 then
    some mem
  else if room - stack.frame < stack.callees size then
    none
  else
    let pivot := base + (count - 1) * size
    let looped := qsortLoop compar base pivot size (count - 1) mem
    let split := memswap looped.2 (base + looped.1 * size) pivot size
    (qsort compar stack (room - stack.frame) split base looped.1 size).bind fun sorted =>
      qsort compar stack (room - stack.frame) sorted (base + (looped.1 + 1) * size)
        (count - looped.1 - 1) size
termination_by count
decreasing_by
  · have le := qsortLoop_le compar base (base + (count - 1) * size) size (count - 1) mem
    omega
  · omega

/-- What `qsort` leaves, if the stack has room for all calls. -/
def arrange (compar : List Byte → List Byte → ℤ) (mem : ℕ → Byte) (base count size : ℕ) :
    ℕ → Byte :=
  if count < 2 then
    mem
  else
    let pivot := base + (count - 1) * size
    let looped := qsortLoop compar base pivot size (count - 1) mem
    let split := memswap looped.2 (base + looped.1 * size) pivot size
    let sorted := arrange compar split base looped.1 size
    arrange compar sorted (base + (looped.1 + 1) * size) (count - looped.1 - 1) size
termination_by count
decreasing_by
  · have le := qsortLoop_le compar base (base + (count - 1) * size) size (count - 1) mem
    omega
  · omega

/-! ## The elements -/

/-- The elements of an array, by their index. -/
def elements (mem : ℕ → Byte) (base size : ℕ) : ℕ → List Byte :=
  fun index => element mem (base + index * size) size

theorem element_eq (mem : ℕ → Byte) (base size index : ℕ) :
    element mem (base + index * size) size = elements mem base size index := rfl

theorem memswap_apply (mem : ℕ → Byte) (a b size addr : ℕ) :
    memswap mem a b size addr =
      if b ≤ addr ∧ addr < b + size then mem (a + (addr - b))
      else if a ≤ addr ∧ addr < a + size then mem (b + (addr - a))
      else mem addr := rfl

theorem mul_add_le {index count : ℕ} (below : index < count) (size : ℕ) :
    index * size + size ≤ count * size := by
  rw [← Nat.succ_mul]
  exact Nat.mul_le_mul_right size below

/-- A byte belongs to one element only. -/
theorem inElement_iff {base size i k r : ℕ} (inElement : r < size) :
    base + i * size ≤ base + k * size + r ∧ base + k * size + r < base + i * size + size ↔
      k = i := by
  constructor
  · rintro ⟨above, below⟩
    by_contra isOther
    rcases Nat.lt_or_gt_of_ne isOther with before | behind
    · have apart := mul_add_le before size
      omega
    · have apart := mul_add_le behind size
      omega
  · rintro rfl
    omega

theorem elements_memswap (mem : ℕ → Byte) (base size i j : ℕ) :
    elements (memswap mem (base + i * size) (base + j * size) size) base size =
      swap (elements mem base size) i j := by
  funext k
  have isElement : ∀ m, (∀ r < size, memswap mem (base + i * size) (base + j * size) size
      (base + k * size + r) = mem (base + m * size + r)) →
      elements (memswap mem (base + i * size) (base + j * size) size) base size k =
        elements mem base size m := by
    intro m same
    apply List.map_congr_left
    intro r inElement
    exact same r (List.mem_range.mp inElement)
  by_cases isRight : k = j
  · subst isRight
    rw [swap_right]
    apply isElement
    intro r inElement
    rw [memswap_apply, if_pos ((inElement_iff inElement).mpr rfl), Nat.add_sub_cancel_left]
  by_cases isLeft : k = i
  · subst isLeft
    rw [swap_left]
    apply isElement
    intro r inElement
    rw [memswap_apply, if_neg (mt (inElement_iff inElement).mp isRight),
      if_pos ((inElement_iff inElement).mpr rfl), Nat.add_sub_cancel_left]
  · rw [swap_of_ne _ isLeft isRight]
    apply isElement
    intro r inElement
    rw [memswap_apply, if_neg (mt (inElement_iff inElement).mp isRight),
      if_neg (mt (inElement_iff inElement).mp isLeft)]

section

variable (compar : List Byte → List Byte → ℤ) (base size lo : ℕ)

theorem elements_qsortLoop (last turns : ℕ) (mem : ℕ → Byte) :
    (qsortLoop compar (base + lo * size) (base + (lo + last) * size) size turns mem).1 =
        (partition compar lo last turns (elements mem base size)).1 ∧
      elements (qsortLoop compar (base + lo * size) (base + (lo + last) * size) size turns mem).2
          base size =
        (partition compar lo last turns (elements mem base size)).2 := by
  induction turns with
  | zero => exact ⟨rfl, rfl⟩
  | succ j ih =>
      have place : ∀ k, base + lo * size + k * size = base + (lo + k) * size := by
        intro k
        rw [Nat.add_mul, Nat.add_assoc]
      simp only [qsortLoop, partition, place, element_eq, ← ih.1, ← ih.2, ← elements_memswap]
      split
      · exact ⟨rfl, rfl⟩
      · exact ⟨rfl, rfl⟩

/-- The elements of a part of an array are sorted. -/
theorem elements_arrange (count : ℕ) (mem : ℕ → Byte) :
    elements (arrange compar mem (base + lo * size) count size) base size =
      sort compar lo count (elements mem base size) := by
  induction count using Nat.strongRecOn generalizing lo mem with
  | ind count ih =>
      by_cases few : count < 2
      · rw [arrange, if_pos few, sort_of_lt_two compar lo few]
      · have place : ∀ k, base + lo * size + k * size = base + (lo + k) * size := by
          intro k
          rw [Nat.add_mul, Nat.add_assoc]
        rcases elements_qsortLoop compar base size lo (count - 1) (count - 1) mem with
          ⟨sameIndex, sameElements⟩
        have le := qsortLoop_le compar (base + lo * size) (base + (lo + (count - 1)) * size) size
          (count - 1) mem
        rw [arrange, if_neg few, sort, if_neg few]
        simp only [place]
        rw [ih _ (by omega), ih _ (by omega), elements_memswap, sameElements, sameIndex]

end

/-! ## What is touched -/

/-- The memories have the same bytes in an object. -/
def SameIn (base len : ℕ) (mem mem' : ℕ → Byte) : Prop :=
  ∀ addr, base ≤ addr → addr < base + len → mem addr = mem' addr

section

variable {base size : ℕ} {mem mem' : ℕ → Byte}

theorem SameIn.element {len addr n : ℕ} (same : SameIn base len mem mem') (above : base ≤ addr)
    (below : addr + n ≤ base + len) : element mem addr n = element mem' addr n := by
  apply List.map_congr_left
  intro r inElement
  rw [List.mem_range] at inElement
  exact same (addr + r) (by omega) (by omega)

theorem SameIn.memswap {len a b : ℕ} (same : SameIn base len mem mem') (aboveLeft : base ≤ a)
    (belowLeft : a + size ≤ base + len) (aboveRight : base ≤ b)
    (belowRight : b + size ≤ base + len) :
    SameIn base len (memswap mem a b size) (memswap mem' a b size) := by
  intro addr above below
  rw [memswap_apply, memswap_apply]
  split
  · exact same _ (by omega) (by omega)
  split
  · exact same _ (by omega) (by omega)
  · exact same addr above below

theorem memswap_outside {len a b addr : ℕ} (mem : ℕ → Byte) (aboveLeft : base ≤ a)
    (belowLeft : a + size ≤ base + len) (aboveRight : base ≤ b)
    (belowRight : b + size ≤ base + len) (isOutside : addr < base ∨ base + len ≤ addr) :
    Stdlib.memswap mem a b size addr = mem addr := by
  rw [memswap_apply, if_neg (by omega), if_neg (by omega)]

variable (compar : List Byte → List Byte → ℤ) {count : ℕ}

theorem SameIn.qsortLoop {turns : ℕ} (within : turns < count)
    (same : SameIn base (count * size) mem mem') :
    (qsortLoop compar base (base + (count - 1) * size) size turns mem).1 =
        (Stdlib.qsortLoop compar base (base + (count - 1) * size) size turns mem').1 ∧
      SameIn base (count * size)
        (Stdlib.qsortLoop compar base (base + (count - 1) * size) size turns mem).2
        (Stdlib.qsortLoop compar base (base + (count - 1) * size) size turns mem').2 := by
  induction turns with
  | zero => exact ⟨rfl, same⟩
  | succ j ih =>
      rcases ih (by omega) with ⟨sameIndex, sameLooped⟩
      have le := qsortLoop_le compar base (base + (count - 1) * size) size j mem'
      have elementIn := @mul_add_le j count (by omega) size
      have pivotIn := @mul_add_le (count - 1) count (by omega) size
      simp only [Stdlib.qsortLoop]
      rw [sameIndex, sameLooped.element (by omega) (by omega),
        sameLooped.element (by omega) (by omega)]
      generalize (Stdlib.qsortLoop compar base (base + (count - 1) * size) size j mem').1 = i at *
      have leftIn := @mul_add_le i count (by omega) size
      split
      · exact ⟨rfl, sameLooped.memswap (by omega) (by omega) (by omega) (by omega)⟩
      · exact ⟨rfl, sameLooped⟩

theorem qsortLoop_outside {turns addr : ℕ} (within : turns < count) (mem : ℕ → Byte)
    (isOutside : addr < base ∨ base + count * size ≤ addr) :
    (Stdlib.qsortLoop compar base (base + (count - 1) * size) size turns mem).2 addr =
      mem addr := by
  induction turns with
  | zero => rfl
  | succ j ih =>
      have le := qsortLoop_le compar base (base + (count - 1) * size) size j mem
      have elementIn := @mul_add_le j count (by omega) size
      simp only [Stdlib.qsortLoop]
      split
      · have leftIn := @mul_add_le
          (Stdlib.qsortLoop compar base (base + (count - 1) * size) size j mem).1 count
          (by omega) size
        exact (memswap_outside _ (by omega) (by omega) (by omega) (by omega) isOutside).trans
          (ih (by omega))
      · exact ih (by omega)

/-- The part behind the pivot ends where the array ends. -/
theorem behind_eq {i : ℕ} (below : i < count) (base size : ℕ) :
    base + (i + 1) * size + (count - i - 1) * size = base + count * size := by
  rw [Nat.add_assoc, ← Nat.add_mul]
  congr 2
  omega

theorem arrange_eq (many : ¬count < 2) {i : ℕ} {looped : ℕ → Byte}
    (isLoop : Stdlib.qsortLoop compar base (base + (count - 1) * size) size (count - 1) mem =
      (i, looped)) :
    arrange compar mem base count size =
      arrange compar
        (arrange compar (Stdlib.memswap looped (base + i * size) (base + (count - 1) * size) size)
          base i size)
        (base + (i + 1) * size) (count - i - 1) size := by
  rw [arrange, if_neg many]
  simp only [isLoop]

theorem arrange_outside (count : ℕ) (mem : ℕ → Byte) {addr : ℕ}
    (isOutside : addr < base ∨ base + count * size ≤ addr) :
    arrange compar mem base count size addr = mem addr := by
  induction count using Nat.strongRecOn generalizing base mem with
  | ind count ih =>
      by_cases few : count < 2
      · rw [arrange, if_pos few]
      · have le := qsortLoop_le compar base (base + (count - 1) * size) size (count - 1) mem
        have looped := qsortLoop_outside compar (show count - 1 < count by omega) mem isOutside
        rcases isLoop : Stdlib.qsortLoop compar base (base + (count - 1) * size) size (count - 1)
          mem with ⟨i, result⟩
        rw [isLoop] at le looped
        simp only at le looped
        have leftIn := @mul_add_le i count (by omega) size
        have pivotIn := @mul_add_le (count - 1) count (by omega) size
        have behind := behind_eq (show i < count by omega) base size
        rw [arrange_eq compar few isLoop, ih _ (by omega) _ (by omega),
          ih _ (by omega) _ (by omega),
          memswap_outside _ (by omega) (by omega) (by omega) (by omega) isOutside, looped]

/-- A part that is sorted in two memories that are the same in the whole array. -/
theorem SameIn.part {part len whole : ℕ} (same : SameIn base whole mem mem')
    (samePart : SameIn part len (arrange compar mem part count size)
      (arrange compar mem' part count size)) (isLen : len = count * size) :
    SameIn base whole (arrange compar mem part count size)
      (arrange compar mem' part count size) := by
  subst isLen
  intro addr above below
  by_cases isInside : part ≤ addr ∧ addr < part + count * size
  · exact samePart addr isInside.1 isInside.2
  · rw [arrange_outside compar count mem (by omega), arrange_outside compar count mem' (by omega)]
    exact same addr above below

theorem SameIn.arrange (count : ℕ) (same : SameIn base (count * size) mem mem') :
    SameIn base (count * size) (arrange compar mem base count size)
      (Stdlib.arrange compar mem' base count size) := by
  induction count using Nat.strongRecOn generalizing base mem mem' with
  | ind count ih =>
      by_cases few : count < 2
      · rw [Stdlib.arrange, if_pos few, Stdlib.arrange, if_pos few]
        exact same
      · have le := qsortLoop_le compar base (base + (count - 1) * size) size (count - 1) mem
        rcases same.qsortLoop compar (show count - 1 < count by omega) with ⟨sameIndex, looped⟩
        rcases isLoop : Stdlib.qsortLoop compar base (base + (count - 1) * size) size (count - 1)
          mem with ⟨i, result⟩
        rcases isLoop' : Stdlib.qsortLoop compar base (base + (count - 1) * size) size (count - 1)
          mem' with ⟨i', result'⟩
        rw [isLoop] at le
        simp only at le
        rw [isLoop, isLoop'] at sameIndex looped
        obtain rfl : i = i' := sameIndex
        have leftIn := @mul_add_le i count (by omega) size
        have pivotIn := @mul_add_le (count - 1) count (by omega) size
        have behind := behind_eq (show i < count by omega) base size
        rw [arrange_eq compar few isLoop, arrange_eq compar few isLoop']
        have split : SameIn base (count * size)
            (Stdlib.memswap result (base + i * size) (base + (count - 1) * size) size)
            (Stdlib.memswap result' (base + i * size) (base + (count - 1) * size) size) := by
          apply looped.memswap <;> omega
        have left := split.part compar
          (ih i (by omega) fun addr above below => split addr above (by omega)) rfl
        apply left.part compar _ rfl
        apply ih _ (by omega)
        intro addr above below
        exact left addr (by omega) (by omega)

end

/-! ## Room on the stack -/

/-- The elements of an array, one after the other. -/
def array (mem : ℕ → Byte) (base count size : ℕ) : List (List Byte) :=
  view (elements mem base size) 0 count

theorem array_part (mem : ℕ → Byte) (base size lo count : ℕ) :
    view (elements mem base size) lo count = array mem (base + lo * size) count size := by
  apply view_congr
  intro k _
  rw [elements, elements, Nat.zero_add, Nat.add_mul, Nat.add_assoc]

theorem SameIn.array {base count size : ℕ} {mem mem' : ℕ → Byte}
    (same : SameIn base (count * size) mem mem') :
    array mem base count size = array mem' base count size := by
  apply view_congr
  intro k below
  have inArray := mul_add_le below size
  rw [Nat.zero_add]
  exact same.element (by omega) (by omega)

namespace SortStack

variable (stack : SortStack) (size : ℕ)

/--
What `qsort` takes of the stack for an array with a tree of partitions of this height: a call for
every partition, and another one of `qsort` or of a function that it calls for the deepest of them.
-/
def need (height : ℕ) : ℕ :=
  if height = 0 then stack.frame else height * stack.frame + max stack.frame (stack.callees size)

theorem frame_pos : 0 < stack.frame := Nat.lt_of_lt_of_le (by decide) stack.holdsArgs

/-- The calls for both parts begin with what one call leaves. -/
theorem need_succ {room left right : ℕ} :
    stack.need size (max left right + 1) ≤ room ↔
      stack.frame ≤ room ∧ stack.callees size ≤ room - stack.frame ∧
        stack.need size left ≤ room - stack.frame ∧
          stack.need size right ≤ room - stack.frame := by
  have isPos := stack.frame_pos
  have least : ∀ height, stack.frame ≤ stack.need size height := by
    intro height
    unfold need
    split <;> omega
  have grows : ∀ {low high : ℕ}, low ≤ high → stack.need size low ≤ stack.need size high := by
    intro low high inOrder
    have product := Nat.mul_le_mul_right stack.frame inOrder
    unfold need
    split <;> split <;> omega
  have next : ∀ height, stack.need size (height + 1) =
      stack.frame + max (stack.need size height) (stack.callees size) := by
    intro height
    unfold need
    rw [if_neg (Nat.succ_ne_zero height), Nat.succ_mul]
    split
    · rename_i isLeaf
      rw [isLeaf]
      omega
    · omega
  have leastLeft := least left
  rw [next]
  rcases Nat.le_total left right with inOrder | inOrder
  · have grown := grows inOrder
    rw [max_eq_right inOrder]
    omega
  · have grown := grows inOrder
    rw [max_eq_left inOrder]
    omega

/-- A tree that is as high as there are calls does not fit, for the deepest call makes another. -/
theorem room_lt_need {height : ℕ} (many : stack.calls ≤ height) :
    stack.room < stack.need size height := by
  have isPos := stack.frame_pos
  have below : stack.room < (stack.calls + 1) * stack.frame := by
    rw [UserStack.calls, ← Nat.div_lt_iff_lt_mul isPos]
    exact Nat.lt_succ_self _
  have grown := Nat.mul_le_mul_right stack.frame many
  rw [Nat.succ_mul] at below
  unfold need
  split
  · rename_i isLeaf
    rw [isLeaf, Nat.zero_mul] at grown
    omega
  · omega

end SortStack

theorem qsort_of_lt_two {compar : List Byte → List Byte → ℤ} {stack : SortStack} {room : ℕ}
    {mem : ℕ → Byte} {base count size : ℕ} (few : count < 2) :
    qsort compar stack room mem base count size =
      if stack.frame ≤ room then some mem else none := by
  rw [qsort, if_pos few]
  by_cases overrun : room < stack.frame
  · rw [if_pos overrun, if_neg (Nat.not_le_of_lt overrun)]
  · rw [if_neg overrun, if_pos (Nat.le_of_not_lt overrun)]

theorem qsort_of_loop {compar : List Byte → List Byte → ℤ} {stack : SortStack} {room : ℕ}
    {mem : ℕ → Byte} {base count size i : ℕ} {looped : ℕ → Byte} (many : ¬count < 2)
    (isLoop : qsortLoop compar base (base + (count - 1) * size) size (count - 1) mem =
      (i, looped)) :
    qsort compar stack room mem base count size =
      if stack.frame ≤ room ∧ stack.callees size ≤ room - stack.frame then
        (qsort compar stack (room - stack.frame)
          (memswap looped (base + i * size) (base + (count - 1) * size) size) base i size).bind
          fun sorted => qsort compar stack (room - stack.frame) sorted (base + (i + 1) * size)
            (count - i - 1) size
      else none := by
  rw [qsort, if_neg many]
  simp only [isLoop]
  by_cases overrun : room < stack.frame
  · rw [if_pos overrun, if_neg (by omega)]
  · by_cases overrunBelow : room - stack.frame < stack.callees size
    · rw [if_neg overrun, if_pos overrunBelow, if_neg (by omega)]
    · rw [if_neg overrun, if_neg overrunBelow, if_pos (by omega)]

/-- The partition at the root of the tree of an array. -/
theorem height_array {compar : List Byte → List Byte → ℤ} {mem : ℕ → Byte}
    {base count size i : ℕ} {looped split : ℕ → Byte} (many : ¬count < 2)
    (isLoop : qsortLoop compar base (base + (count - 1) * size) size (count - 1) mem =
      (i, looped))
    (isSplit : memswap looped (base + i * size) (base + (count - 1) * size) size = split) :
    height compar (array mem base count size) =
      max (height compar (array split base i size))
        (height compar (array split (base + (i + 1) * size) (count - i - 1) size)) + 1 := by
  obtain ⟨isIndex, areElements⟩ := elements_qsortLoop compar base size 0 (count - 1) (count - 1) mem
  simp only [Nat.zero_mul, Nat.add_zero, Nat.zero_add, isLoop] at isIndex areElements
  have isParted : partition compar 0 (count - 1) (count - 1) (elements mem base size) =
      (i, elements looped base size) := by
    rw [isIndex, areElements]
  have isTree := height_view compar 0 many _ isParted
  rw [Nat.zero_add, Nat.zero_add, Nat.zero_add, ← elements_memswap, isSplit,
    array_part split base size (i + 1)] at isTree
  exact isTree

/-- `qsort` overruns the stack, or it leaves what it would leave on any other one. -/
theorem qsort_eq (compar : List Byte → List Byte → ℤ) (stack : SortStack) (room : ℕ)
    (mem : ℕ → Byte) (base count size : ℕ) :
    qsort compar stack room mem base count size =
      if stack.need size (height compar (array mem base count size)) ≤ room then
        some (arrange compar mem base count size)
      else none := by
  induction count using Nat.strongRecOn generalizing room base mem with
  | ind count ih =>
      by_cases few : count < 2
      · have isLeaf : stack.need size (height compar (array mem base count size)) =
            stack.frame := by
          rw [height_of_lt_two compar (by simpa [array] using few), SortStack.need, if_pos rfl]
        rw [qsort_of_lt_two few, arrange, if_pos few, isLeaf]
      · have le := qsortLoop_le compar base (base + (count - 1) * size) size (count - 1) mem
        rcases isLoop : qsortLoop compar base (base + (count - 1) * size) size (count - 1) mem with
          ⟨i, looped⟩
        rw [isLoop] at le
        dsimp only at le
        rw [qsort_of_loop few isLoop, arrange_eq compar few isLoop]
        generalize isSplit : memswap looped (base + i * size) (base + (count - 1) * size) size =
          split
        have sameBehind : array (arrange compar split base i size) (base + (i + 1) * size)
            (count - i - 1) size = array split (base + (i + 1) * size) (count - i - 1) size := by
          apply SameIn.array
          intro addr above _
          apply arrange_outside
          rw [Nat.add_mul] at above
          omega
        rw [height_array few isLoop isSplit, ih i (by omega)]
        simp only [SortStack.need_succ]
        by_cases left : stack.need size (height compar (array split base i size)) ≤
            room - stack.frame
        · rw [if_pos left, Option.bind_some, ih _ (by omega), sameBehind]
          simp only [left, true_and, ← ite_and, and_assoc]
        · rw [if_neg left, Option.bind_none]
          simp [left]

/-! ## Sorting -/

/--
From `mem` to `mem'` the elements of an array have been put in order; they are those that were
there, and no byte outside of the array is changed.
-/
structure ArraySorted (compar : List Byte → List Byte → ℤ) (base count size : ℕ)
    (mem mem' : ℕ → Byte) : Prop where
  perm : ((List.range count).map (elements mem' base size)).Perm
    ((List.range count).map (elements mem base size))
  ordered : ∀ i j, i ≤ j → j < count →
    compar (elements mem' base size i) (elements mem' base size j) ≤ 0
  outside : ∀ addr, addr < base ∨ base + count * size ≤ addr → mem' addr = mem addr

/-- The elements of an array. -/
def elementSet (mem : ℕ → Byte) (base count size : ℕ) : Set (List Byte) :=
  {x | ∃ k < count, x = elements mem base size k}

theorem arrange_spec {compar : List Byte → List Byte → ℤ} {mem : ℕ → Byte} {base count size : ℕ}
    (comparison : Comparison compar (elementSet mem base count size)) :
    ArraySorted compar base count size mem (arrange compar mem base count size) := by
  have isSorted := elements_arrange compar base size 0 count mem
  rw [Nat.zero_mul, Nat.add_zero] at isSorted
  refine ⟨?_, ?_, fun addr isOutside => arrange_outside compar count mem isOutside⟩
  · rw [isSorted]
    exact (moves_sort compar 0 count _).perm
  · have ordered := ordered_sort comparison (fun k below => ⟨k, below, by rw [Nat.zero_add]⟩)
    intro i j inOrder below
    have inPlace := ordered i j inOrder below
    rwa [← isSorted, Nat.zero_add, Nat.zero_add] at inPlace

/--
`qsort` comes to an end without an overrun, with the array in order, and no byte outside of the
array is changed or matters for the result.
-/
def QsortSorts (compar : List Byte → List Byte → ℤ) (stack : SortStack) (mem : ℕ → Byte)
    (base count size : ℕ) : Prop :=
  ∃ mem', qsort compar stack stack.room mem base count size = some mem' ∧
    ArraySorted compar base count size mem mem' ∧
    ∀ other, SameIn base (count * size) mem other →
      ∃ other', qsort compar stack stack.room other base count size = some other' ∧
        SameIn base (count * size) mem' other'

/-- It sorts if and only if the stack has room for the partitions within each other. -/
theorem qsortSorts_iff {compar : List Byte → List Byte → ℤ} {stack : SortStack} {mem : ℕ → Byte}
    {base count size : ℕ} (comparison : Comparison compar (elementSet mem base count size)) :
    QsortSorts compar stack mem base count size ↔
      stack.need size (height compar (array mem base count size)) ≤ stack.room := by
  constructor
  · rintro ⟨mem', isSorted, -⟩
    rw [qsort_eq] at isSorted
    split at isSorted
    · assumption
    · contradiction
  · intro inStack
    refine ⟨arrange compar mem base count size, ?_, arrange_spec comparison, ?_⟩
    · rw [qsort_eq, if_pos inStack]
    · intro other same
      refine ⟨arrange compar other base count size, ?_, same.arrange compar count⟩
      rw [qsort_eq, ← same.array, if_pos inStack]

end Osix.Stdlib
