import Mathlib.Algebra.BigOperators.Group.Finset.Piecewise
import Mathlib.Algebra.BigOperators.Ring.Finset
import Mathlib.Data.Fintype.Card
import Mathlib.Data.Int.Notation
import Mathlib.Logic.Function.Basic

/-!
# Counting the pointers in a table

A table holds a pointer, or none, in each of its entries. `count table target` is the
number of entries that point to `target`; reference counts are right when they agree with
it. The count is an integer, so that it can be compared with counters that a program
decrements.
-/

namespace Counting

universe u v

variable {Index : Type u} {Target : Type v} [Fintype Index] [DecidableEq Target]

/-- The number of entries that point to `target`. -/
def count (table : Index → Option Target) (target : Target) : ℤ :=
  (Finset.univ.filter fun index => table index = some target).card

/-- What one entry adds to the count. -/
def share (entry : Option Target) (target : Target) : ℤ := if entry = some target then 1 else 0

@[simp]
theorem share_none (target : Target) : share none target = 0 := by simp [share]

@[simp]
theorem share_self (target : Target) : share (some target) target = 1 := by simp [share]

theorem share_of_ne {other target : Target} (different : other ≠ target) :
    share (some other) target = 0 := by
  simp [share, different]

theorem count_eq_sum (table : Index → Option Target) (target : Target) :
    count table target = ∑ index, share (table index) target := by
  simp [count, share, Finset.sum_boole]

theorem count_nonneg (table : Index → Option Target) (target : Target) :
    0 ≤ count table target := by
  simp [count]

theorem count_empty (target : Target) : count (fun _ : Index => none) target = 0 := by
  simp [count]

/-- Replacing one entry changes the count by the shares of the old and the new one. -/
theorem count_update [DecidableEq Index] (table : Index → Option Target) (index : Index)
    (entry : Option Target) (target : Target) :
    count (Function.update table index entry) target =
      count table target - share (table index) target + share entry target := by
  rw [count_eq_sum, count_eq_sum, ← Finset.add_sum_erase _ _ (Finset.mem_univ index),
    ← Finset.add_sum_erase _ _ (Finset.mem_univ index)]
  have others : ∑ other ∈ Finset.univ.erase index,
      share (Function.update table index entry other) target =
        ∑ other ∈ Finset.univ.erase index, share (table other) target := by
    apply Finset.sum_congr rfl
    intro other member
    rw [Function.update_of_ne (Finset.ne_of_mem_erase member)]
  rw [others, Function.update_self]
  omega

/-- An entry that points to `target` is counted. -/
theorem count_pos {table : Index → Option Target} {index : Index} {target : Target}
    (points : table index = some target) : 0 < count table target := by
  rw [count]
  have counted : index ∈ Finset.univ.filter fun index => table index = some target := by
    simp [points]
  exact_mod_cast Finset.card_pos.mpr ⟨index, counted⟩

theorem exists_of_count_pos {table : Index → Option Target} {target : Target}
    (positive : 0 < count table target) : ∃ index, table index = some target := by
  rw [count] at positive
  have nonempty := Finset.card_pos.mp (by exact_mod_cast positive)
  rcases nonempty with ⟨index, member⟩
  exact ⟨index, (Finset.mem_filter.mp member).2⟩

end Counting
