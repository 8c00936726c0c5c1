import Mathlib.Data.List.Nodup
import Mathlib.Data.List.Perm.Basic
import Mathlib.Data.List.Range
import Mathlib.Data.List.Rotate
import Mathlib.Data.Set.Basic
import Mathlib.Logic.Equiv.Basic
import Mathlib.Tactic.Common

/-!
# Sorting in place

Quicksort with the last element as the pivot, on arrays that are functions of their indices.
Of an array only the elements from `lo` on, `count` of them, change places; they are left in
the order that a comparison gives.
-/

namespace Osix.Quicksort

variable {α : Type*}

/-! ## Elements that change places -/

def swap (a : ℕ → α) (i j : ℕ) : ℕ → α := a ∘ Equiv.swap i j

@[simp]
theorem swap_left (a : ℕ → α) (i j : ℕ) : swap a i j i = a j := by simp [swap]

@[simp]
theorem swap_right (a : ℕ → α) (i j : ℕ) : swap a i j j = a i := by simp [swap]

theorem swap_of_ne (a : ℕ → α) {i j k : ℕ} (notLeft : k ≠ i) (notRight : k ≠ j) :
    swap a i j k = a k := by
  simp [swap, Equiv.swap_apply_of_ne_of_ne notLeft notRight]

/-- Only elements from `lo` on, `count` of them, have changed places. -/
def Moves (lo count : ℕ) (a a' : ℕ → α) : Prop :=
  ∃ σ : Equiv.Perm ℕ, (∀ k, k < lo ∨ lo + count ≤ k → σ k = k) ∧ a' = a ∘ σ

namespace Moves

variable {lo count : ℕ} {a a' a'' : ℕ → α}

theorem refl (lo count : ℕ) (a : ℕ → α) : Moves lo count a a := ⟨Equiv.refl ℕ, fun _ _ => rfl, rfl⟩

theorem trans (first : Moves lo count a a') (second : Moves lo count a' a'') :
    Moves lo count a a'' := by
  rcases first with ⟨σ, fixesFirst, rfl⟩
  rcases second with ⟨τ, fixesSecond, rfl⟩
  refine ⟨τ.trans σ, ?_, rfl⟩
  intro k isOutside
  rw [Equiv.trans_apply, fixesSecond k isOutside, fixesFirst k isOutside]

theorem widen {lo' count' : ℕ} (moves : Moves lo' count' a a') (above : lo ≤ lo')
    (below : lo' + count' ≤ lo + count) : Moves lo count a a' := by
  rcases moves with ⟨σ, fixes, isMoved⟩
  refine ⟨σ, ?_, isMoved⟩
  intro k isOutside
  apply fixes
  omega

theorem ofSwap (a : ℕ → α) {i j : ℕ} (aboveLeft : lo ≤ i) (belowLeft : i < lo + count)
    (aboveRight : lo ≤ j) (belowRight : j < lo + count) : Moves lo count a (swap a i j) := by
  refine ⟨Equiv.swap i j, ?_, rfl⟩
  intro k isOutside
  apply Equiv.swap_apply_of_ne_of_ne
  · omega
  · omega

theorem outside (moves : Moves lo count a a') {k : ℕ} (isOutside : k < lo ∨ lo + count ≤ k) :
    a' k = a k := by
  rcases moves with ⟨σ, fixes, rfl⟩
  rw [Function.comp_apply, fixes k isOutside]

/-- A permutation that moves only elements of a part does not move them out of it. -/
theorem stays {σ : Equiv.Perm ℕ} (fixes : ∀ k, k < lo ∨ lo + count ≤ k → σ k = k) {k : ℕ}
    (above : lo ≤ k) (below : k < lo + count) : lo ≤ σ k ∧ σ k < lo + count := by
  by_contra isOutside
  have isFixed := σ.injective (fixes (σ k) (by omega))
  omega

/-- An element of the part comes from the part. -/
theorem inside (moves : Moves lo count a a') {k : ℕ} (above : lo ≤ k) (below : k < lo + count) :
    ∃ m, lo ≤ m ∧ m < lo + count ∧ a' k = a m := by
  rcases moves with ⟨σ, fixes, rfl⟩
  exact ⟨σ k, (stays fixes above below).1, (stays fixes above below).2, rfl⟩

/-- What holds of all elements of the part still does. -/
theorem holds (moves : Moves lo count a a') {P : α → Prop} (holds : ∀ k < count, P (a (lo + k))) :
    ∀ k < count, P (a' (lo + k)) := by
  intro k below
  rcases moves.inside (Nat.le_add_right lo k) (by omega) with ⟨m, aboveOld, belowOld, isOld⟩
  have holdsOld := holds (m - lo) (by omega)
  rwa [Nat.add_sub_of_le aboveOld, ← isOld] at holdsOld

/-- The elements of the part stay the same, apart from their order. -/
theorem perm (moves : Moves 0 count a a') :
    ((List.range count).map a').Perm ((List.range count).map a) := by
  rcases moves with ⟨σ, fixes, rfl⟩
  have fixesBack : ∀ k, k < 0 ∨ 0 + count ≤ k → σ.symm k = k := by
    intro k isOutside
    rw [Equiv.symm_apply_eq, fixes k isOutside]
  rw [← List.map_map]
  apply List.Perm.map
  rw [List.perm_ext_iff_of_nodup (List.Nodup.map σ.injective List.nodup_range) List.nodup_range]
  intro k
  rw [List.mem_map, List.mem_range]
  constructor
  · rintro ⟨m, isIn, rfl⟩
    rw [List.mem_range] at isIn
    simpa using (stays fixes (Nat.zero_le m) (by omega)).2
  · intro below
    have isBelow := (stays fixesBack (Nat.zero_le k) (by omega)).2
    refine ⟨σ.symm k, ?_, Equiv.apply_symm_apply σ k⟩
    rw [List.mem_range]
    omega

end Moves

/-! ## Partitions -/

/--
The first turns of the loop of a partition: how many elements were less than the pivot, which
is at `last`, and the array with these elements in front.
-/
def partition (compar : α → α → ℤ) (lo last : ℕ) : ℕ → (ℕ → α) → ℕ × (ℕ → α)
  | 0, a => (0, a)
  | j + 1, a =>
      let (i, b) := partition compar lo last j a
      if compar (b (lo + j)) (b (lo + last)) < 0 then (i + 1, swap b (lo + i) (lo + j))
      else (i, b)

/-- The elements before `lo + i` are less than the pivot, and those from there on are not. -/
structure Parted (compar : α → α → ℤ) (lo turns : ℕ) (pivot : α) (a : ℕ → α) (i : ℕ)
    (b : ℕ → α) : Prop where
  le : i ≤ turns
  moves : Moves lo turns a b
  less : ∀ k < i, compar (b (lo + k)) pivot < 0
  notLess : ∀ k, i ≤ k → k < turns → 0 ≤ compar (b (lo + k)) pivot

section

variable {compar : α → α → ℤ} {lo turns : ℕ} {pivot : α} {a b : ℕ → α} {i : ℕ}

theorem Parted.take (parted : Parted compar lo turns pivot a i b)
    (isLess : compar (b (lo + turns)) pivot < 0) :
    Parted compar lo (turns + 1) pivot a (i + 1) (swap b (lo + i) (lo + turns)) := by
  have le := parted.le
  refine ⟨by omega, ?_, ?_, ?_⟩
  · apply (parted.moves.widen le_rfl (by omega)).trans
    apply Moves.ofSwap <;> omega
  · intro k below
    by_cases isNew : k = i
    · rwa [isNew, swap_left]
    · rw [swap_of_ne b (by omega) (by omega)]
      exact parted.less k (by omega)
  · intro k above below
    by_cases isLast : k = turns
    · rw [isLast, swap_right]
      exact parted.notLess i le_rfl (by omega)
    · rw [swap_of_ne b (by omega) (by omega)]
      exact parted.notLess k (by omega) (by omega)

theorem Parted.leave (parted : Parted compar lo turns pivot a i b)
    (notLess : 0 ≤ compar (b (lo + turns)) pivot) :
    Parted compar lo (turns + 1) pivot a i b := by
  refine ⟨parted.le.trans (Nat.le_succ _), parted.moves.widen le_rfl (by omega), parted.less, ?_⟩
  intro k above below
  by_cases isLast : k = turns
  · rwa [isLast]
  · exact parted.notLess k above (by omega)

theorem parted_partition (compar : α → α → ℤ) (lo : ℕ) {last : ℕ} (a : ℕ → α)
    (within : turns ≤ last) :
    Parted compar lo turns (a (lo + last)) a (partition compar lo last turns a).1
      (partition compar lo last turns a).2 := by
  induction turns with
  | zero =>
      refine ⟨le_rfl, Moves.refl lo 0 a, ?_, ?_⟩
      · intro k below
        cases below
      · intro k _ below
        cases below
  | succ j ih =>
      have parted := ih (by omega)
      simp only [partition]
      rw [parted.moves.outside (show _ ∨ lo + j ≤ lo + last by omega)]
      split
      · rename_i isLess
        exact parted.take isLess
      · rename_i notLess
        exact parted.leave (by omega)

/-- The partition with the pivot between its parts. -/
theorem Parted.split {last : ℕ} (parted : Parted compar lo last (a (lo + last)) a i b) :
    Moves lo (last + 1) a (swap b (lo + i) (lo + last)) ∧
      swap b (lo + i) (lo + last) (lo + i) = a (lo + last) ∧
      (∀ k < i, compar (swap b (lo + i) (lo + last) (lo + k)) (a (lo + last)) < 0) ∧
      ∀ k, i < k → k ≤ last →
        0 ≤ compar (swap b (lo + i) (lo + last) (lo + k)) (a (lo + last)) := by
  have le := parted.le
  refine ⟨?_, ?_, ?_, ?_⟩
  · apply (parted.moves.widen le_rfl (by omega)).trans
    apply Moves.ofSwap <;> omega
  · rw [swap_left]
    exact parted.moves.outside (Or.inr le_rfl)
  · intro k below
    rw [swap_of_ne b (by omega) (by omega)]
    exact parted.less k below
  · intro k above below
    by_cases isLast : k = last
    · rw [isLast, swap_right]
      exact parted.notLess i le_rfl (by omega)
    · rw [swap_of_ne b (by omega) (by omega)]
      exact parted.notLess k (by omega) (by omega)

end

/-! ## Quicksort -/

/-- The elements from `lo` on, `count` of them, sorted in place. -/
def sort (compar : α → α → ℤ) (lo count : ℕ) (a : ℕ → α) : ℕ → α :=
  if count < 2 then
    a
  else
    let parted := partition compar lo (count - 1) (count - 1) a
    let split := swap parted.2 (lo + parted.1) (lo + (count - 1))
    sort compar (lo + (parted.1 + 1)) (count - parted.1 - 1) (sort compar lo parted.1 split)
termination_by count
decreasing_by
  · have le := (parted_partition compar lo a (le_refl (count - 1))).le
    omega
  · omega

/--
The sign of `compar` orders the elements of a set: any two of them can be compared, 0 being
the answer for two that are as great, and the order is transitive.
-/
structure Comparison (compar : α → α → ℤ) (elements : Set α) : Prop where
  total : ∀ x ∈ elements, ∀ y ∈ elements, 0 ≤ compar x y → compar y x ≤ 0
  trans : ∀ x ∈ elements, ∀ y ∈ elements, ∀ z ∈ elements,
    compar x y ≤ 0 → compar y z ≤ 0 → compar x z ≤ 0

theorem Comparison.refl {compar : α → α → ℤ} {elements : Set α}
    (comparison : Comparison compar elements) {x : α} (isElement : x ∈ elements) :
    compar x x ≤ 0 := by
  by_contra isGreater
  have isLess := comparison.total x isElement x isElement (by omega)
  omega

/-- The elements from `lo` on, `count` of them, are in order. -/
def Ordered (compar : α → α → ℤ) (lo count : ℕ) (a : ℕ → α) : Prop :=
  ∀ i j, i ≤ j → j < count → compar (a (lo + i)) (a (lo + j)) ≤ 0

section

variable {compar : α → α → ℤ} {elements : Set α} {lo count : ℕ} {a : ℕ → α}

/-- Two parts in order with the pivot between them are in order. -/
theorem Comparison.ordered (comparison : Comparison compar elements) {i : ℕ}
    (isElement : ∀ k < count, a (lo + k) ∈ elements)
    (inRange : i < count) (left : Ordered compar lo i a)
    (right : Ordered compar (lo + (i + 1)) (count - i - 1) a)
    (less : ∀ k < i, compar (a (lo + k)) (a (lo + i)) < 0)
    (notLess : ∀ k, i < k → k < count → 0 ≤ compar (a (lo + k)) (a (lo + i))) :
    Ordered compar lo count a := by
  have above : ∀ k, i ≤ k → k < count → compar (a (lo + i)) (a (lo + k)) ≤ 0 := by
    intro k fromPivot below
    rcases Nat.eq_or_lt_of_le fromPivot with rfl | behind
    · exact comparison.refl (isElement i inRange)
    · exact comparison.total _ (isElement k below) _ (isElement i inRange) (notLess k behind below)
  intro j k inOrder below
  by_cases isLeft : k < i
  · exact left j k inOrder isLeft
  by_cases isRight : i < j
  · have ordered := right (j - (i + 1)) (k - (i + 1)) (by omega) (by omega)
    rwa [show lo + (i + 1) + (j - (i + 1)) = lo + j by omega,
      show lo + (i + 1) + (k - (i + 1)) = lo + k by omega] at ordered
  · -- the pivot is one of the two or between them
    rcases Nat.eq_or_lt_of_le (show j ≤ i by omega) with rfl | before
    · exact above k inOrder below
    · exact comparison.trans _ (isElement j (by omega)) _ (isElement i inRange) _
        (isElement k below) (less j before).le (above k (by omega) below)

theorem sort_of_lt_two (compar : α → α → ℤ) (lo : ℕ) (few : count < 2) (a : ℕ → α) :
    sort compar lo count a = a := by
  rw [sort, if_pos few]

theorem moves_sort (compar : α → α → ℤ) (lo count : ℕ) (a : ℕ → α) :
    Moves lo count a (sort compar lo count a) := by
  induction count using Nat.strongRecOn generalizing lo a with
  | ind count ih =>
      by_cases few : count < 2
      · rw [sort_of_lt_two compar lo few]
        exact Moves.refl lo count a
      · have parted := parted_partition compar lo a (le_refl (count - 1))
        have le := parted.le
        rw [sort, if_neg few]
        have movesLeft := @ih (partition compar lo (count - 1) (count - 1) a).1 (by omega) lo
        apply (parted.split.1.widen le_rfl (by omega)).trans
        apply ((movesLeft _).widen le_rfl (by omega)).trans
        exact (ih _ (by omega) _ _).widen (by omega) (by omega)

/-- The part is left in order. -/
theorem ordered_sort (comparison : Comparison compar elements)
    (isElement : ∀ k < count, a (lo + k) ∈ elements) :
    Ordered compar lo count (sort compar lo count a) := by
  induction count using Nat.strongRecOn generalizing lo a with
  | ind count ih =>
      by_cases few : count < 2
      · rw [sort_of_lt_two compar lo few]
        intro i j inOrder below
        rw [show i = j by omega]
        exact comparison.refl (isElement j below)
      · have parted := parted_partition compar lo a (le_refl (count - 1))
        have le := parted.le
        rcases parted.split with ⟨movesSplit, isPivot, less, notLess⟩
        rw [Nat.sub_add_cancel (by omega)] at movesSplit
        rw [sort, if_neg few]
        simp only
        generalize (partition compar lo (count - 1) (count - 1) a).1 = i at *
        generalize swap _ (lo + i) (lo + (count - 1)) = split at *
        -- first the elements before the pivot are sorted, then those behind it
        have movesLeft := moves_sort compar lo i split
        have movesRight := moves_sort compar (lo + (i + 1)) (count - i - 1) (sort compar lo i split)
        have elementsSplit := movesSplit.holds isElement
        have elementsLeft := (movesLeft.widen le_rfl (by omega)).holds elementsSplit
        have elementsRight := (movesRight.widen (by omega) (by omega)).holds elementsLeft
        have samePivot : sort compar (lo + (i + 1)) (count - i - 1) (sort compar lo i split)
            (lo + i) = a (lo + (count - 1)) := by
          rw [movesRight.outside (by omega), movesLeft.outside (by omega), isPivot]
        apply comparison.ordered elementsRight (show i < count by omega)
        · have ordered := ih i (by omega) (fun k below => elementsSplit k (by omega))
          intro j k inOrder below
          rw [movesRight.outside (by omega), movesRight.outside (by omega)]
          exact ordered j k inOrder below
        · apply ih _ (by omega)
          intro k below
          rw [Nat.add_assoc]
          exact elementsLeft _ (by omega)
        · intro k below
          rw [samePivot, movesRight.outside (by omega)]
          exact movesLeft.holds (P := fun x => compar x (a (lo + (count - 1))) < 0) less k below
        · intro k above below
          have holdsLeft : ∀ k < count - i - 1, 0 ≤ compar (sort compar lo i split
              (lo + (i + 1) + k)) (a (lo + (count - 1))) := by
            intro k below
            rw [movesLeft.outside (by omega), Nat.add_assoc]
            exact notLess (i + 1 + k) (by omega) (by omega)
          have holdsRight := movesRight.holds
            (P := fun x => 0 ≤ compar x (a (lo + (count - 1)))) holdsLeft (k - (i + 1)) (by omega)
          rwa [show lo + (i + 1) + (k - (i + 1)) = lo + k by omega, ← samePivot] at holdsRight

end

/-! ## The tree of partitions -/

/-- The elements from `lo` on, `count` of them. -/
def view (a : ℕ → α) (lo count : ℕ) : List α := (List.range count).map fun k => a (lo + k)

@[simp]
theorem length_view (a : ℕ → α) (lo count : ℕ) : (view a lo count).length = count := by
  simp [view]

@[simp]
theorem getElem_view (a : ℕ → α) {lo count k : ℕ} (below : k < (view a lo count).length) :
    (view a lo count)[k] = a (lo + k) := by
  simp [view]

theorem view_succ (a : ℕ → α) (lo count : ℕ) :
    view a lo (count + 1) = view a lo count ++ [a (lo + count)] := by
  simp [view, List.range_succ]

theorem view_add (a : ℕ → α) (lo m n : ℕ) :
    view a lo (m + n) = view a lo m ++ view a (lo + m) n := by
  simp [view, List.range_add, Function.comp_def, Nat.add_assoc]

theorem view_congr {a b : ℕ → α} {lo lo' count : ℕ}
    (same : ∀ k < count, a (lo + k) = b (lo' + k)) : view a lo count = view b lo' count := by
  apply List.map_congr_left
  intro k isIn
  exact same k (List.mem_range.mp isIn)

/--
An element comes before or behind the place of the pivot; what is less takes the place of the first
element that is not, and that one goes to the end.
-/
def place (compar : α → α → ℤ) (pivot : α) (parts : List α × List α) (x : α) : List α × List α :=
  if compar x pivot < 0 then (parts.1 ++ [x], parts.2.rotate 1) else (parts.1, parts.2 ++ [x])

/-- The elements that are less than the pivot, and the others, as their partition leaves them. -/
def parts (compar : α → α → ℤ) (pivot : α) (xs : List α) : List α × List α :=
  xs.foldl (place compar pivot) ([], [])

theorem parts_concat (compar : α → α → ℤ) (pivot : α) (xs : List α) (x : α) :
    parts compar pivot (xs ++ [x]) = place compar pivot (parts compar pivot xs) x := by
  rw [parts, List.foldl_append]
  rfl

theorem length_parts (compar : α → α → ℤ) (pivot : α) (xs : List α) :
    (parts compar pivot xs).1.length + (parts compar pivot xs).2.length = xs.length := by
  induction xs using List.reverseRecOn with
  | nil => rfl
  | append_singleton xs x ih =>
      rw [parts_concat, place]
      split <;> simp <;> omega

/-- The height of the tree of partitions, where the last element is the pivot. -/
def height (compar : α → α → ℤ) (xs : List α) : ℕ :=
  if few : xs.length < 2 then
    0
  else
    have notEmpty : xs ≠ [] := List.ne_nil_of_length_pos (by omega)
    max (height compar (parts compar (xs.getLast notEmpty) xs.dropLast).1)
      (height compar ((parts compar (xs.getLast notEmpty) xs.dropLast).2.rotate 1)) + 1
termination_by xs.length
decreasing_by
  · have sum := length_parts compar (xs.getLast notEmpty) xs.dropLast
    rw [List.length_dropLast] at sum
    omega
  · have sum := length_parts compar (xs.getLast notEmpty) xs.dropLast
    rw [List.length_dropLast] at sum
    rw [List.length_rotate]
    omega

theorem height_of_lt_two (compar : α → α → ℤ) {xs : List α} (few : xs.length < 2) :
    height compar xs = 0 := by
  rw [height, dif_pos few]

theorem height_concat (compar : α → α → ℤ) {xs : List α} (notEmpty : xs ≠ []) (pivot : α) :
    height compar (xs ++ [pivot]) =
      max (height compar (parts compar pivot xs).1)
        (height compar ((parts compar pivot xs).2.rotate 1)) + 1 := by
  have many : ¬(xs ++ [pivot]).length < 2 := by
    have isPos := List.length_pos_of_ne_nil notEmpty
    rw [List.length_append, List.length_singleton]
    omega
  rw [height, dif_neg many]
  simp only [List.getLast_append_singleton, List.dropLast_concat]

/-- There are no more partitions within each other than elements. -/
theorem height_le (compar : α → α → ℤ) (xs : List α) : height compar xs ≤ xs.length - 1 := by
  induction isLength : xs.length using Nat.strong_induction_on generalizing xs with
  | h length ih =>
      subst isLength
      rcases List.eq_nil_or_concat xs with rfl | ⟨init, pivot, rfl⟩
      · rw [height_of_lt_two compar (by simp)]
        exact Nat.zero_le _
      · rw [List.concat_eq_append]
        by_cases isEmpty : init = []
        · rw [isEmpty, height_of_lt_two compar (by simp)]
          exact Nat.zero_le _
        · have isPos := List.length_pos_of_ne_nil isEmpty
          have sum := length_parts compar pivot init
          have left := ih (parts compar pivot init).1.length (by simp; omega) _ rfl
          have right := ih ((parts compar pivot init).2.rotate 1).length (by simp; omega) _ rfl
          rw [List.length_rotate] at right
          rw [height_concat compar isEmpty, List.length_append, List.length_singleton]
          omega

/-- Elements that are in order already take as many partitions as there can be. -/
theorem height_ascending {compar : α → α → ℤ} {xs : List α}
    (ascending : xs.Pairwise fun x y => compar x y < 0) : height compar xs = xs.length - 1 := by
  induction xs using List.reverseRecOn with
  | nil => exact height_of_lt_two compar (by simp)
  | append_singleton xs pivot ih =>
      rcases List.eq_nil_or_concat xs with rfl | ⟨init, last, isConcat⟩
      · exact height_of_lt_two compar (by simp)
      · have notEmpty : xs ≠ [] := by
          rw [isConcat, List.concat_eq_append]
          exact List.append_ne_nil_of_right_ne_nil _ (List.cons_ne_nil _ _)
        have isPos := List.length_pos_of_ne_nil notEmpty
        rw [List.pairwise_append] at ascending
        obtain ⟨inOrder, -, less⟩ := ascending
        have allLess : ∀ ys : List α, (∀ y ∈ ys, compar y pivot < 0) →
            parts compar pivot ys = (ys, []) := by
          intro ys less
          induction ys using List.reverseRecOn with
          | nil => rfl
          | append_singleton ys y ih =>
              rw [parts_concat, ih fun z isIn => less z (List.mem_append_left _ isIn), place,
                if_pos (less y (by simp))]
              rfl
        rw [height_concat compar notEmpty,
          allLess xs fun x isIn => less x isIn pivot (List.mem_singleton.mpr rfl), ih inOrder,
          List.rotate_nil, height_of_lt_two compar (by simp), List.length_append,
          List.length_singleton]
        omega

/-- Elements that are compared by what they stand for. -/
theorem height_map {β : Type*} (compar : β → β → ℤ) (f : α → β) (xs : List α) :
    height (fun x y => compar (f x) (f y)) xs = height compar (xs.map f) := by
  have sameParts : ∀ (pivot : α) (ys : List α), parts compar (f pivot) (ys.map f) =
      ((parts (fun x y => compar (f x) (f y)) pivot ys).1.map f,
        (parts (fun x y => compar (f x) (f y)) pivot ys).2.map f) := by
    intro pivot ys
    induction ys using List.reverseRecOn with
    | nil => rfl
    | append_singleton ys y ih =>
        rw [List.map_append, List.map_singleton, parts_concat, parts_concat, ih, place, place]
        dsimp only
        split <;> simp [List.map_rotate]
  induction isLength : xs.length using Nat.strong_induction_on generalizing xs with
  | h length ih =>
      subst isLength
      rcases List.eq_nil_or_concat xs with rfl | ⟨init, pivot, rfl⟩
      · rw [height_of_lt_two _ (by simp), height_of_lt_two _ (by simp)]
      · rw [List.concat_eq_append, List.map_append, List.map_singleton]
        by_cases isEmpty : init = []
        · rw [isEmpty, height_of_lt_two _ (by simp), height_of_lt_two _ (by simp)]
        · have sum := length_parts (fun x y => compar (f x) (f y)) pivot init
          have isPos := List.length_pos_of_ne_nil isEmpty
          rw [height_concat _ isEmpty, height_concat _ (by simpa using isEmpty), sameParts,
            ih _ (by simp; omega) _ rfl, ih _ (by simp; omega) _ rfl, List.map_rotate]

/-- Elements that change places where one part begins and behind both of them. -/
theorem view_swap {a : ℕ → α} {lo i j : ℕ} {l r : List α} (isView : view a lo j = l ++ r)
    (isLength : l.length = i) :
    view (swap a (lo + i) (lo + j)) lo (j + 1) = l ++ a (lo + j) :: r.rotate 1 := by
  have sum := congrArg List.length isView
  rw [length_view, List.length_append] at sum
  have isElement : ∀ k (below : k < (l ++ r).length), a (lo + k) = (l ++ r)[k] := by
    intro k below
    have inView : k < (view a lo j).length := by rwa [isView]
    rw [← getElem_view a inView]
    simp only [isView]
  apply List.ext_getElem
  · simp
    omega
  · intro k below below'
    rw [length_view] at below
    rw [getElem_view]
    rcases Nat.lt_trichotomy k i with before | rfl | behind
    · rw [swap_of_ne a (by omega) (by omega), isElement k (by simp; omega),
        List.getElem_append_left (by omega), List.getElem_append_left (by omega)]
    · rw [swap_left, List.getElem_append_right (by omega)]
      simp [isLength]
    · rw [List.getElem_append_right (by omega)]
      have isPlace : k - l.length = (k - i - 1) + 1 := by omega
      simp only [isPlace, List.getElem_cons_succ, List.getElem_rotate]
      by_cases isLast : k = j
      · subst isLast
        have wraps : (k - i - 1 + 1) % r.length = 0 := by
          rw [show k - i - 1 + 1 = r.length by omega, Nat.mod_self]
        rw [swap_right, isElement i (by simp; omega), List.getElem_append_right (by omega)]
        simp only [isLength, Nat.sub_self, wraps]
      · have stays : (k - i - 1 + 1) % r.length = k - i := by
          rw [Nat.mod_eq_of_lt (by omega)]
          omega
        rw [swap_of_ne a (by omega) (by omega), isElement k (by simp; omega),
          List.getElem_append_right (by omega)]
        simp only [isLength, stays]

/-- The loop leaves the parts next to each other. -/
theorem view_partition (compar : α → α → ℤ) (lo : ℕ) {last turns : ℕ} (a : ℕ → α)
    (within : turns ≤ last) :
    (partition compar lo last turns a).1 =
        (parts compar (a (lo + last)) (view a lo turns)).1.length ∧
      view (partition compar lo last turns a).2 lo turns =
        (parts compar (a (lo + last)) (view a lo turns)).1 ++
          (parts compar (a (lo + last)) (view a lo turns)).2 := by
  induction turns with
  | zero => exact ⟨rfl, rfl⟩
  | succ j ih =>
      obtain ⟨isCount, isView⟩ := ih (by omega)
      have moves := (parted_partition compar lo a (show j ≤ last by omega)).moves
      have samePivot := moves.outside (show _ ∨ lo + j ≤ lo + last by omega)
      have sameNext := moves.outside (show _ ∨ lo + j ≤ lo + j by omega)
      rw [view_succ, parts_concat]
      simp only [partition, samePivot, sameNext, place]
      split
      · refine ⟨by simp [isCount], ?_⟩
        rw [view_swap isView isCount.symm, sameNext]
        simp
      · refine ⟨isCount, ?_⟩
        rw [view_succ, isView, sameNext]
        simp

/-- The parts of an array are the children of its tree. -/
theorem height_view (compar : α → α → ℤ) (lo : ℕ) {count : ℕ} (many : ¬count < 2) (a : ℕ → α)
    {i : ℕ} {b : ℕ → α} (isParted : partition compar lo (count - 1) (count - 1) a = (i, b)) :
    height compar (view a lo count) =
      max (height compar (view (swap b (lo + i) (lo + (count - 1))) lo i))
        (height compar (view (swap b (lo + i) (lo + (count - 1))) (lo + (i + 1))
          (count - i - 1))) + 1 := by
  obtain ⟨last, rfl⟩ : ∃ last, count = last + 1 := ⟨count - 1, by omega⟩
  rw [Nat.add_sub_cancel] at isParted ⊢
  obtain ⟨isCount, isView⟩ := view_partition compar lo a (le_refl last)
  rw [isParted] at isCount isView
  dsimp only at isCount isView
  have swapped := view_swap isView isCount.symm
  have notEmpty : view a lo last ≠ [] := by
    apply List.ne_nil_of_length_pos
    rw [length_view]
    omega
  rw [view_succ, height_concat compar notEmpty]
  generalize parts compar (a (lo + last)) (view a lo last) = split at *
  have sum := congrArg List.length isView
  rw [length_view, List.length_append] at sum
  rw [show last + 1 = i + (1 + (last + 1 - i - 1)) by omega, view_add, view_add] at swapped
  obtain ⟨left, behind⟩ := List.append_inj swapped (by rw [length_view, isCount])
  have right : view (swap b (lo + i) (lo + last)) (lo + i + 1) (last + 1 - i - 1) =
      split.2.rotate 1 :=
    (List.append_inj (show _ = [b (lo + last)] ++ split.2.rotate 1 from behind)
      (length_view _ _ _)).2
  rw [Nat.add_assoc] at right
  rw [left, right]

end Osix.Quicksort
