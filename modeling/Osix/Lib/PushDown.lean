import Mathlib.Algebra.GroupWithZero.Nat
import Mathlib.Algebra.Order.Group.Nat
import Mathlib.Data.List.Forall2
import Mathlib.Data.Nat.Notation

/-!
# Stacks that grow downwards

A stack lies in memory and grows towards smaller addresses. A push moves the stack pointer down by
the number of the items and stores them from there on, so it touches nothing at or above the old
stack pointer (`Grown`), and what has been pushed stays readable (`Holds.grown`). Pushed regions
follow each other downwards (`Descends`), so they do not overlap.
-/

namespace PushDown

universe u

variable {α : Type u}

/-- Memory and the stack pointer. -/
structure Stack (α : Type u) where
  mem : ℕ → α
  sp : ℕ

/-- Pushes all items at once, the first of them to the smallest address. -/
def Stack.push (stack : Stack α) (items : List α) : Stack α where
  mem addr :=
    (if stack.sp - items.length ≤ addr then items[addr - (stack.sp - items.length)]?
      else none).getD (stack.mem addr)
  sp := stack.sp - items.length

/-- Pushes lists one after the other, and says where each of them is. -/
def Stack.pushAll (stack : Stack α) : List (List α) → Stack α × List ℕ
  | [] => (stack, [])
  | items :: rest =>
      let final := (stack.push items).pushAll rest
      (final.1, (stack.push items).sp :: final.2)

/-- The items lie in memory from an address on. -/
def Holds (mem : ℕ → α) (addr : ℕ) (items : List α) : Prop :=
  ∀ index (inside : index < items.length), mem (addr + index) = items[index]

/-- The stack has grown: what was on it is still there. -/
structure Grown (before after : Stack α) : Prop where
  below : after.sp ≤ before.sp
  above : ∀ addr, before.sp ≤ addr → after.mem addr = before.mem addr

/-- The stack has grown, and nothing else has changed. -/
structure Confined (before after : Stack α) : Prop extends Grown before after where
  beneath : ∀ addr, addr < after.sp → after.mem addr = before.mem addr

/-- Regions, given by address and length, that follow each other from `top` down to `bottom`. -/
def Descends (top : ℕ) : List (ℕ × ℕ) → ℕ → Prop
  | [], bottom => bottom ≤ top
  | region :: rest, bottom => region.1 + region.2 ≤ top ∧ Descends region.1 rest bottom

/-- Two regions do not overlap. -/
def Apart (first second : ℕ × ℕ) : Prop :=
  first.1 + first.2 ≤ second.1 ∨ second.1 + second.2 ≤ first.1

section

variable {stack before middle after : Stack α} {items : List α} {addr : ℕ}

@[simp]
theorem push_sp (stack : Stack α) (items : List α) :
    (stack.push items).sp = stack.sp - items.length := rfl

theorem holds_push (stack : Stack α) (items : List α) :
    Holds (stack.push items).mem (stack.push items).sp items := by
  intro index inside
  have isAbove : stack.sp - items.length ≤ stack.sp - items.length + index := Nat.le_add_right _ _
  simp only [Stack.push, if_pos isAbove, Nat.add_sub_cancel_left, List.getElem?_eq_getElem inside,
    Option.getD_some]

theorem grown_push (fits : items.length ≤ stack.sp) : Grown stack (stack.push items) where
  below := Nat.sub_le _ _
  above addr above := by
    have beyond : items.length ≤ addr - (stack.sp - items.length) := by omega
    simp [Stack.push, List.getElem?_eq_none beyond]

/-- Two pushes are one. -/
theorem push_push {more : List α} (fits : more.length + items.length ≤ stack.sp) :
    (stack.push items).push more = stack.push (more ++ items) := by
  have sameSp : stack.sp - items.length - more.length = stack.sp - (more ++ items).length := by
    rw [List.length_append]
    omega
  simp only [Stack.push, sameSp, Stack.mk.injEq, and_true]
  funext addr
  have isLength : (more ++ items).length = more.length + items.length := List.length_append
  by_cases above : stack.sp - (more ++ items).length ≤ addr
  · simp only [if_pos above]
    rcases Nat.lt_or_ge (addr - (stack.sp - (more ++ items).length)) more.length with
      inMore | inItems
    · rw [List.getElem?_append_left inMore, List.getElem?_eq_getElem inMore, Option.getD_some,
        Option.getD_some]
    · have alsoAbove : stack.sp - items.length ≤ addr := by omega
      have sameIndex : addr - (stack.sp - (more ++ items).length) - more.length =
          addr - (stack.sp - items.length) := by
        omega
      rw [List.getElem?_append_right inItems, List.getElem?_eq_none inItems, if_pos alsoAbove,
        sameIndex, Option.getD_none]
  · have notAbove : ¬stack.sp - items.length ≤ addr := by omega
    simp only [if_neg above, if_neg notAbove, Option.getD_none]

theorem Grown.refl (stack : Stack α) : Grown stack stack := ⟨le_rfl, fun _ _ => rfl⟩

theorem Grown.trans (first : Grown before middle) (second : Grown middle after) :
    Grown before after where
  below := second.below.trans first.below
  above addr above := (second.above addr (first.below.trans above)).trans (first.above addr above)

theorem confined_push (fits : items.length ≤ stack.sp) : Confined stack (stack.push items) where
  toGrown := grown_push fits
  beneath addr beneath := by
    rw [push_sp] at beneath
    simp only [Stack.push, if_neg (Nat.not_le.mpr beneath), Option.getD_none]

theorem Confined.refl (stack : Stack α) : Confined stack stack := ⟨Grown.refl stack, fun _ _ => rfl⟩

theorem Confined.trans (first : Confined before middle) (second : Confined middle after) :
    Confined before after where
  toGrown := first.toGrown.trans second.toGrown
  beneath addr beneath :=
    (second.beneath addr beneath).trans (first.beneath addr (beneath.trans_le second.below))

theorem Holds.grown (holds : Holds before.mem addr items) (above : before.sp ≤ addr)
    (grown : Grown before after) : Holds after.mem addr items := by
  intro index inside
  rw [grown.above _ (above.trans (Nat.le_add_right addr index))]
  exact holds index inside

theorem Holds.append {mem : ℕ → α} {rest : List α} :
    Holds mem addr (items ++ rest) ↔ Holds mem addr items ∧ Holds mem (addr + items.length) rest := by
  constructor
  · intro holds
    refine ⟨fun index inside => ?_, fun index inside => ?_⟩
    · rw [holds index (by rw [List.length_append]; omega), List.getElem_append_left inside]
    · rw [Nat.add_assoc, holds (items.length + index) (by rw [List.length_append]; omega)]
      simp
  · rintro ⟨first, second⟩ index inside
    rcases Nat.lt_or_ge index items.length with inFirst | inSecond
    · rw [first index inFirst, List.getElem_append_left inFirst]
    · rw [List.length_append] at inside
      have atRest := second (index - items.length) (by omega)
      rw [Nat.add_assoc, Nat.add_sub_cancel' inSecond] at atRest
      rw [atRest, List.getElem_append_right inSecond]

/-- Reading back what lies in memory. -/
theorem Holds.map_range {mem : ℕ → α} (holds : Holds mem addr items) :
    (List.range items.length).map (fun index => mem (addr + index)) = items := by
  apply List.ext_getElem
  · simp
  · intro index _ inside
    rw [List.getElem_map, List.getElem_range, holds index inside]

/-! ## A stack seen at other addresses -/

/-- The stack as seen through a mapping that shows every address lower by `offset`. -/
def Stack.moved (offset : ℕ) (stack : Stack α) : Stack α where
  mem addr := stack.mem (addr + offset)
  sp := stack.sp - offset

theorem moved_push {offset : ℕ} (fits : offset + items.length ≤ stack.sp) :
    (stack.push items).moved offset = (stack.moved offset).push items := by
  have sameSp : stack.sp - items.length - offset = stack.sp - offset - items.length := by omega
  unfold Stack.moved Stack.push
  simp only [sameSp, Stack.mk.injEq, and_true]
  funext addr
  by_cases inside : stack.sp - offset - items.length ≤ addr
  · have alsoInside : stack.sp - items.length ≤ addr + offset := by omega
    have sameIndex : addr + offset - (stack.sp - items.length) =
        addr - (stack.sp - offset - items.length) := by
      omega
    simp only [if_pos inside, if_pos alsoInside, sameIndex]
  · have notInside : ¬stack.sp - items.length ≤ addr + offset := by omega
    simp only [if_neg inside, if_neg notInside]

/-! ## Several pushes -/

/-- The total number of items. -/
def total (lists : List (List α)) : ℕ := (lists.map List.length).sum

@[simp]
theorem total_nil : total ([] : List (List α)) = 0 := rfl

@[simp]
theorem total_cons (items : List α) (rest : List (List α)) :
    total (items :: rest) = items.length + total rest := rfl

theorem pushAll_sp (stack : Stack α) (lists : List (List α)) :
    (stack.pushAll lists).1.sp = stack.sp - total lists := by
  induction lists generalizing stack with
  | nil => rfl
  | cons items rest ih =>
      simp only [Stack.pushAll, ih, push_sp, total_cons]
      omega

/-- The last of the lists is at the top. -/
theorem pushAll_concat (stack : Stack α) (lists : List (List α)) (items : List α) :
    (stack.pushAll (lists ++ [items])).2 =
      (stack.pushAll lists).2 ++ [(stack.pushAll (lists ++ [items])).1.sp] := by
  induction lists generalizing stack with
  | nil => rfl
  | cons first rest ih => exact congrArg ((stack.push first).sp :: ·) (ih (stack.push first))

theorem grown_pushAll {lists : List (List α)} (fits : total lists ≤ stack.sp) :
    Grown stack (stack.pushAll lists).1 := by
  induction lists generalizing stack with
  | nil => exact Grown.refl stack
  | cons items rest ih =>
      rw [total_cons] at fits
      have first : Grown stack (stack.push items) := grown_push (by omega)
      exact first.trans (ih (by rw [push_sp]; omega))

/-- Each list is where `pushAll` says, on the stack. -/
theorem holds_pushAll {lists : List (List α)} (fits : total lists ≤ stack.sp) :
    List.Forall₂ (fun items addr => Holds (stack.pushAll lists).1.mem addr items ∧
      (stack.pushAll lists).1.sp ≤ addr ∧ addr + items.length ≤ stack.sp)
      lists (stack.pushAll lists).2 := by
  induction lists generalizing stack with
  | nil => exact .nil
  | cons items rest ih =>
      rw [total_cons] at fits
      have restFits : total rest ≤ (stack.push items).sp := by
        rw [push_sp]
        omega
      have grown := grown_pushAll restFits
      have isFirst : (stack.push items).sp + items.length ≤ stack.sp := by
        rw [push_sp]
        omega
      refine .cons ⟨(holds_push stack items).grown le_rfl grown, grown.below, isFirst⟩ ?_
      exact (ih restFits).imp fun _ _ isHeld =>
        ⟨isHeld.1, isHeld.2.1, isHeld.2.2.trans (Nat.sub_le _ _)⟩

/-- The regions of the lists, or smaller ones at the same addresses, follow each other. -/
theorem descends_pushAll {lists : List (List α)} (fits : total lists ≤ stack.sp)
    {sizes : List ℕ} (smaller : List.Forall₂ (fun items size => size ≤ items.length) lists sizes) :
    Descends stack.sp ((stack.pushAll lists).2.zip sizes) (stack.pushAll lists).1.sp := by
  induction smaller generalizing stack with
  | nil => exact le_rfl
  | cons isSmaller _ ih =>
      rw [total_cons] at fits
      refine ⟨?_, ih (by rw [push_sp]; omega)⟩
      rw [push_sp]
      omega

end

/-! ## Regions -/

section

variable {top middle bottom : ℕ} {regions rest : List (ℕ × ℕ)}

theorem Descends.le (descends : Descends top regions bottom) : bottom ≤ top := by
  induction regions generalizing top with
  | nil => exact descends
  | cons region rest ih =>
      rcases descends with ⟨first, below⟩
      exact (ih below).trans (Nat.le_of_add_right_le first)

theorem Descends.append (first : Descends top regions middle)
    (second : Descends middle rest bottom) : Descends top (regions ++ rest) bottom := by
  induction regions generalizing top with
  | nil =>
      cases rest with
      | nil => exact second.trans first
      | cons region rest => exact ⟨second.1.trans first, second.2⟩
  | cons region regions ih => exact ⟨first.1, ih first.2⟩

theorem Descends.mem (descends : Descends top regions bottom) {region : ℕ × ℕ}
    (isIn : region ∈ regions) : bottom ≤ region.1 ∧ region.1 + region.2 ≤ top := by
  induction regions generalizing top with
  | nil => cases isIn
  | cons other rest ih =>
      rcases descends with ⟨first, below⟩
      rcases List.mem_cons.mp isIn with rfl | inRest
      · exact ⟨below.le, first⟩
      · rcases ih below inRest with ⟨isBelow, isAbove⟩
        exact ⟨isBelow, isAbove.trans (Nat.le_of_add_right_le first)⟩

/-- Regions that follow each other do not overlap. -/
theorem Descends.apart (descends : Descends top regions bottom) : regions.Pairwise Apart := by
  induction regions generalizing top with
  | nil => exact .nil
  | cons region rest ih =>
      exact .cons (fun other isIn => Or.inr (descends.2.mem isIn).2) (ih descends.2)

end

end PushDown
