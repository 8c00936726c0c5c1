import Mathlib.Data.BitVec
import Mathlib.Logic.Function.Basic
import Mathlib.Tactic.Ring

/-!
# Ring buffers with free-running positions

A ring buffer of `size` cells whose positions are words of `w` bits that are never
reduced: a position is reduced modulo `size` only to find its cell, and it wraps around at
`2 ^ w`. Where `size` divides `2 ^ w` the two reductions agree, and the buffer is a queue.
-/

namespace RingBuffer

universe u

variable {w : ℕ} {α : Type u} {size : ℕ} {cells : ℕ → α} {read write : BitVec w}

/-- The number of elements in the buffer. -/
def used (read write : BitVec w) : ℕ := (write - read).toNat

/-- The elements in the buffer, the oldest first. -/
def contents (size : ℕ) (cells : ℕ → α) (read write : BitVec w) : List α :=
  (List.range (used read write)).map fun i => cells ((read + BitVec.ofNat w i).toNat % size)

theorem used_eq_zero : used read write = 0 ↔ read = write := by
  constructor
  · intro zero
    have same : write - read = 0 := BitVec.eq_of_toNat_eq (by simpa [used] using zero)
    exact (sub_eq_zero.mp same).symm
  · rintro rfl
    simp [used]

@[simp]
theorem contents_self (size : ℕ) (cells : ℕ → α) (read : BitVec w) :
    contents size cells read read = [] := by
  simp [contents, used_eq_zero.mpr rfl]

theorem length_contents : (contents size cells read write).length = used read write := by
  simp [contents]

/-- Only the cells below the size count. -/
theorem contents_congr {cells' : ℕ → α} (positive : 0 < size)
    (same : ∀ cell < size, cells cell = cells' cell) :
    contents size cells read write = contents size cells' read write := by
  apply List.map_congr_left
  intro i _
  exact same _ (Nat.mod_lt _ positive)

theorem used_push (room : used read write + 1 < 2 ^ w) :
    used read (write + 1) = used read write + 1 := by
  have shifted : write + 1 - read = (write - read) + 1 := by ring
  have one : (1 : BitVec w).toNat = 1 := by
    have wide : 1 < 2 ^ w := by omega
    simp [Nat.mod_eq_of_lt wide]
  rw [used, shifted, BitVec.toNat_add, one, ← used, Nat.mod_eq_of_lt room]

theorem used_pop (nonempty : read ≠ write) : used (read + 1) write + 1 = used read write := by
  have shifted : write - read = (write - (read + 1)) + 1 := by ring
  have notZero : used read write ≠ 0 := mt used_eq_zero.mp nonempty
  have wide : 1 < 2 ^ w := by
    have below := (write - read).isLt
    rw [used] at notZero
    omega
  have one : (1 : BitVec w).toNat = 1 := by simp [Nat.mod_eq_of_lt wide]
  have below := (write - (read + 1)).isLt
  have sum : used read write = (used (read + 1) write + 1) % 2 ^ w := by
    rw [used, shifted, BitVec.toNat_add, one, used]
  rcases Nat.lt_or_ge (used (read + 1) write + 1) (2 ^ w) with fits | overflow
  · rw [sum, Nat.mod_eq_of_lt fits]
  · have full : used (read + 1) write + 1 = 2 ^ w := by
      rw [used] at overflow ⊢
      omega
    rw [full, Nat.mod_self] at sum
    exact absurd sum notZero

/-- Where `size` divides `2 ^ w`, the cell of a position does not see that it wraps. -/
theorem cell_add (divides : size ∣ 2 ^ w) (read : BitVec w) (i : ℕ) :
    (read + BitVec.ofNat w i).toNat % size = (read.toNat + i) % size := by
  rw [BitVec.toNat_add, BitVec.toNat_ofNat, Nat.mod_mod_of_dvd _ divides, Nat.add_mod,
    Nat.mod_mod_of_dvd _ divides, ← Nat.add_mod]

theorem contents_push (divides : size ∣ 2 ^ w) (room : used read write < size)
    (fits : used read write + 1 < 2 ^ w) (value : α) :
    contents size (Function.update cells (write.toNat % size) value) read (write + 1) =
      contents size cells read write ++ [value] := by
  have atWrite : write.toNat % size = (read.toNat + used read write) % size := by
    have position : write = read + BitVec.ofNat w (used read write) := by
      rw [used, BitVec.ofNat_toNat, BitVec.setWidth_eq]
      ring
    conv_lhs => rw [position]
    exact cell_add divides read _
  rw [contents, contents, used_push fits, List.range_succ, List.map_append]
  congr 1
  · apply List.map_congr_left
    intro i member
    rw [List.mem_range] at member
    apply Function.update_of_ne
    rw [cell_add divides, atWrite]
    -- Two positions less than `size` apart have different cells.
    intro same
    have congruent : i % size = used read write % size := Nat.ModEq.add_left_cancel' _ same
    rw [Nat.mod_eq_of_lt (by omega), Nat.mod_eq_of_lt room] at congruent
    omega
  · rw [List.map_singleton, cell_add divides, ← atWrite, Function.update_self]

theorem contents_pop (nonempty : read ≠ write) :
    contents size cells read write =
      cells (read.toNat % size) :: contents size cells (read + 1) write := by
  rw [contents, ← used_pop nonempty, List.range_succ_eq_map, List.map_cons, List.map_map]
  congr 1
  · simp
  · apply List.map_congr_left
    intro i _
    have position : read + BitVec.ofNat w (i + 1) = read + 1 + BitVec.ofNat w i := by
      have succ : BitVec.ofNat w (i + 1) = BitVec.ofNat w i + 1 := BitVec.ofNat_add i 1
      rw [succ]
      ring
    simp only [Function.comp_apply, Nat.succ_eq_add_one, position]

end RingBuffer
