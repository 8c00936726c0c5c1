import Osix.Basic
import Mathlib.Data.BitVec
import Mathlib.Logic.Function.Basic

/-!
# Moving blocks of memory

`memmove` of `lib/libc/memmove.c`, which is also that of `sys/libkern/memmove.c`. An access to
a byte that is not there is `none`, and every byte that is copied is counted.

A block that moves up is copied from its end, by a loop that counts down before it tests. For an
empty block its counter starts with the largest number there is.
-/

namespace Osix.Libc

/-- The bytes that can be accessed. -/
abbrev Memory := ℕ → Option Byte

/-- The address of `p[i]`. -/
def address (p i : ℕ) : ℕ := (p + i) % 2 ^ 32

/-- A memory, and how many bytes have been copied. -/
structure Copying where
  memory : Memory
  copies : ℕ

/-- `d[i] = s[i]`. -/
def copyByte (d s i : ℕ) (state : Copying) : Option Copying := do
  let byte ← state.memory (address s i)
  let _ ← state.memory (address d i)
  return ⟨Function.update state.memory (address d i) (some byte), state.copies + 1⟩

/-- The loop for a block that moves down, from `i`, with so many bytes left. -/
def copyUp (d s : ℕ) : ℕ → ℕ → Copying → Option Copying
  | 0, _, state => some state
  | left + 1, i, state => (copyByte d s i state).bind (copyUp d s left (i + 1))

/-- The loop for a block that moves up, from `n` after it has been counted down. -/
def copyDown (d s : ℕ) : ℕ → Copying → Option Copying
  | 0, state => copyByte d s 0 state
  | n + 1, state => (copyByte d s (n + 1) state).bind (copyDown d s n)

/-- `memmove`, which returns `dst`. -/
def memmove (memory : Memory) (dst src n : ℕ) : Option Copying :=
  if dst < src then copyUp dst src n 0 ⟨memory, 0⟩
  else if src < dst then copyDown dst src ((n + (2 ^ 32 - 1)) % 2 ^ 32) ⟨memory, 0⟩
  else some ⟨memory, 0⟩

/-- The memory with a block of `n` bytes moved from `src` to `dst`. -/
def moved (memory : Memory) (dst src n : ℕ) : Memory := fun a =>
  if dst ≤ a ∧ a < dst + n then memory (src + (a - dst)) else memory a

/-- The block is moved by at most `n` copies, and nothing else is changed. -/
def Moves (memory : Memory) (dst src n : ℕ) : Prop :=
  ∃ copies, memmove memory dst src n = some ⟨moved memory dst src n, copies⟩ ∧ copies ≤ n

/-- The block is in the memory, and does not wrap around. -/
structure Block (memory : Memory) (p n : ℕ) : Prop where
  inside : p + n ≤ 2 ^ 32
  mapped : ∀ i < n, memory (p + i) ≠ none

section

variable {memory : Memory} {d s dst src n i left copies : ℕ}

theorem address_of_lt (inside : d + i < 2 ^ 32) : address d i = d + i := Nat.mod_eq_of_lt inside

theorem moved_zero (memory : Memory) (dst src : ℕ) : moved memory dst src 0 = memory := by
  funext a
  exact if_neg (by omega)

theorem copyByte_spec (srcMapped : memory (s + i) ≠ none) (dstMapped : memory (d + i) ≠ none)
    (srcInside : s + i < 2 ^ 32) (dstInside : d + i < 2 ^ 32) :
    copyByte d s i ⟨memory, copies⟩ =
      some ⟨Function.update memory (d + i) (memory (s + i)), copies + 1⟩ := by
  rcases Option.ne_none_iff_exists'.mp srcMapped with ⟨byte, isByte⟩
  rcases Option.ne_none_iff_exists'.mp dstMapped with ⟨old, isOld⟩
  simp only [copyByte, address_of_lt srcInside, address_of_lt dstInside, isByte, isOld,
    Option.bind_eq_bind, Option.bind_some, Option.pure_def]

/-- What is stored in a mapped byte leaves the memory mapped. -/
theorem update_ne_none {a b : ℕ} {entry : Option Byte} (isSome : entry ≠ none)
    (mapped : memory b ≠ none) : Function.update memory a entry b ≠ none := by
  rcases eq_or_ne b a with rfl | isOther
  · rw [Function.update_self]
    exact isSome
  · rw [Function.update_of_ne isOther]
    exact mapped

/-- Counting up, no byte of the source is overwritten before it is copied. -/
theorem copyUp_spec (down : d < s) (srcInside : s + i + left ≤ 2 ^ 32)
    (srcMapped : ∀ j, i ≤ j → j < i + left → memory (s + j) ≠ none)
    (dstMapped : ∀ j, i ≤ j → j < i + left → memory (d + j) ≠ none) :
    copyUp d s left i ⟨memory, copies⟩ =
      some ⟨moved memory (d + i) (s + i) left, copies + left⟩ := by
  induction left generalizing memory i copies with
  | zero => rw [copyUp, moved_zero, Nat.add_zero]
  | succ left ih =>
      have srcByte := srcMapped i le_rfl (by omega)
      rw [copyUp, copyByte_spec srcByte (dstMapped i le_rfl (by omega)) (by omega) (by omega),
        Option.bind_some, ih (by omega)]
      · congr 2
        · funext a
          simp only [moved]
          rcases eq_or_ne a (d + i) with rfl | isOther
          · rw [if_neg (by omega), if_pos (by omega), Function.update_self]
            congr 1
            omega
          · by_cases inBlock : d + i ≤ a ∧ a < d + i + (left + 1)
            · rw [if_pos inBlock, if_pos (by omega), Function.update_of_ne (by omega)]
              congr 1
              omega
            · rw [if_neg inBlock, if_neg (by omega), Function.update_of_ne isOther]
        · omega
      · intro j after before
        exact update_ne_none srcByte (srcMapped j (by omega) (by omega))
      · intro j after before
        exact update_ne_none srcByte (dstMapped j (by omega) (by omega))

/-- The same counting down. -/
theorem copyDown_spec (up : s < d) (dstInside : d + n < 2 ^ 32)
    (srcMapped : ∀ j ≤ n, memory (s + j) ≠ none) (dstMapped : ∀ j ≤ n, memory (d + j) ≠ none) :
    copyDown d s n ⟨memory, copies⟩ = some ⟨moved memory d s (n + 1), copies + (n + 1)⟩ := by
  induction n generalizing memory copies with
  | zero =>
      rw [copyDown, copyByte_spec (srcMapped 0 le_rfl) (dstMapped 0 le_rfl) (by omega) (by omega)]
      congr 2
      funext a
      simp only [moved]
      rcases eq_or_ne a d with rfl | isOther
      · rw [if_pos (by omega), Nat.add_zero, Function.update_self, Nat.sub_self]
      · rw [if_neg (by omega), Nat.add_zero, Function.update_of_ne isOther]
  | succ n ih =>
      have srcByte := srcMapped (n + 1) le_rfl
      rw [copyDown, copyByte_spec srcByte (dstMapped (n + 1) le_rfl) (by omega) (by omega),
        Option.bind_some, ih (by omega)]
      · congr 2
        · funext a
          simp only [moved]
          rcases eq_or_ne a (d + (n + 1)) with rfl | isOther
          · rw [if_neg (by omega), if_pos (by omega), Function.update_self]
            congr 1
            omega
          · by_cases inBlock : d ≤ a ∧ a < d + (n + 1 + 1)
            · rw [if_pos inBlock, if_pos (by omega), Function.update_of_ne (by omega)]
            · rw [if_neg inBlock, if_neg (by omega), Function.update_of_ne isOther]
        · omega
      · intro j before
        exact update_ne_none srcByte (srcMapped j (by omega))
      · intro j before
        exact update_ne_none srcByte (dstMapped j (by omega))

/-- A block that is not empty, or does not move up, is moved. -/
theorem memmove_spec (dstBlock : Block memory dst n) (srcBlock : Block memory src n)
    (proper : n = 0 → dst ≤ src) :
    memmove memory dst src n =
      some ⟨moved memory dst src n, if dst = src then 0 else n⟩ := by
  have srcInside := srcBlock.inside
  have dstInside := dstBlock.inside
  rcases lt_trichotomy dst src with down | rfl | up
  · rw [memmove, if_pos down, if_neg down.ne, copyUp_spec down (by omega)]
    · rw [Nat.add_zero, Nat.add_zero, Nat.zero_add]
    · exact fun j _ before => srcBlock.mapped j (by omega)
    · exact fun j _ before => dstBlock.mapped j (by omega)
  · rw [memmove, if_neg (lt_irrefl dst), if_neg (lt_irrefl dst), if_pos rfl]
    congr 2
    funext a
    simp only [moved]
    split
    · congr 1
      omega
    · rfl
  · have notEmpty : n ≠ 0 := fun isEmpty => absurd (proper isEmpty) (by omega)
    have isCounter : (n + (2 ^ 32 - 1)) % 2 ^ 32 = n - 1 := by omega
    rw [memmove, if_neg up.not_gt, if_pos up, if_neg up.ne', isCounter, copyDown_spec up (by omega)]
    · rw [Nat.zero_add, Nat.sub_add_cancel (by omega)]
    · exact fun j before => srcBlock.mapped j (by omega)
    · exact fun j before => dstBlock.mapped j (by omega)

theorem copyByte_copies {state state' : Copying} (copied : copyByte d s i state = some state') :
    state'.copies = state.copies + 1 := by
  simp only [copyByte, Option.bind_eq_bind, Option.bind_eq_some_iff, Option.pure_def,
    Option.some.injEq] at copied
  rcases copied with ⟨byte, _, old, _, rfl⟩
  rfl

theorem copyDown_copies {state state' : Copying} (copied : copyDown d s n state = some state') :
    state'.copies = state.copies + (n + 1) := by
  induction n generalizing state with
  | zero => exact copyByte_copies copied
  | succ n ih =>
      rw [copyDown, Option.bind_eq_some_iff] at copied
      rcases copied with ⟨middle, first, rest⟩
      rw [ih rest, copyByte_copies first]
      omega

/-- A byte that is not there cannot be copied to. -/
theorem copyByte_unmapped {state : Copying} (unmapped : state.memory (address d i) = none) :
    copyByte d s i state = none := by
  rw [copyByte, unmapped]
  rcases state.memory (address s i) with _ | byte <;> rfl

/-- Nor does it come to be there. -/
theorem unmapped_of_copyByte {state state' : Copying} {a : ℕ}
    (copied : copyByte d s i state = some state') (unmapped : state.memory a = none) :
    state'.memory a = none := by
  have isOther : a ≠ address d i := by
    rintro rfl
    rw [copyByte_unmapped unmapped] at copied
    contradiction
  simp only [copyByte, Option.bind_eq_bind, Option.bind_eq_some_iff, Option.pure_def,
    Option.some.injEq] at copied
  rcases copied with ⟨byte, _, old, _, rfl⟩
  exact (Function.update_of_ne isOther _ _).trans unmapped

/-- So it stops the loop. -/
theorem copyDown_unmapped {state : Copying} (before : i ≤ n)
    (unmapped : state.memory (address d i) = none) : copyDown d s n state = none := by
  induction n generalizing state with
  | zero =>
      rw [Nat.le_zero.mp before] at unmapped
      exact copyByte_unmapped unmapped
  | succ n ih =>
      rw [copyDown]
      rcases Nat.le_succ_iff.mp before with below | rfl
      · rcases isCopied : copyByte d s (n + 1) state with _ | state'
        · rfl
        · exact ih below (unmapped_of_copyByte isCopied unmapped)
      · rw [copyByte_unmapped unmapped]
        rfl

/-- Moving an empty block up copies as many bytes as there are addresses. -/
theorem not_moves_empty (up : src < dst) : ¬Moves memory dst src 0 := by
  rintro ⟨copies, isMoved, few⟩
  rw [memmove, if_neg up.not_gt, if_pos up] at isMoved
  have many := copyDown_copies isMoved
  dsimp only at many
  omega

/-- Every block is moved but an empty one that moves up. -/
theorem memmove_moves_iff (dstBlock : Block memory dst n) (srcBlock : Block memory src n) :
    Moves memory dst src n ↔ (n = 0 → dst ≤ src) := by
  constructor
  · rintro moves rfl
    by_contra up
    exact not_moves_empty (by omega) moves
  · intro proper
    refine ⟨_, memmove_spec dstBlock srcBlock proper, ?_⟩
    split <;> omega

end

/-- Every byte of this memory is its own address. -/
def numbered : Memory := fun a => some (BitVec.ofNat 8 a)

theorem block_numbered {p n : ℕ} (inside : p + n ≤ 2 ^ 32) : Block numbered p n :=
  ⟨inside, fun _ _ => nofun⟩

/-- Three bytes move up by one. -/
theorem memmove_moves_overlapping : Moves numbered 1 0 3 :=
  (memmove_moves_iff (block_numbered (by decide)) (block_numbered (by decide))).mpr nofun

theorem not_memmove_moves :
    ∃ memory dst src, Block memory dst 0 ∧ Block memory src 0 ∧ ¬Moves memory dst src 0 :=
  ⟨numbered, 1, 0, block_numbered (by decide), block_numbered (by decide),
    not_moves_empty Nat.zero_lt_one⟩

end Osix.Libc
