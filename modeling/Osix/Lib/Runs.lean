import Mathlib.Data.List.SplitBy

/-!
# Runs

The maximal runs of elements of one class in a list, and what an element more at the end makes of
them: it is a run of its own, or it makes the last run longer.
-/

namespace Runs

universe u v

variable {α : Type u} {β : Type v} [DecidableEq β] {g : α → β} {l : List α} {a x : α}

/-- The maximal runs of elements of one class. -/
def runs (g : α → β) (l : List α) : List (List α) := l.splitBy fun a b => g a == g b

theorem flatten_runs (g : α → β) (l : List α) : (runs g l).flatten = l :=
  List.flatten_splitBy _ _

theorem ne_nil_of_mem_runs {run : List α} (isRun : run ∈ runs g l) : run ≠ [] :=
  List.ne_nil_of_mem_splitBy isRun

/-- All elements of a run are of one class. -/
theorem class_of_mem_runs {run : List α} (isRun : run ∈ runs g l) {b c : α} (isIn : b ∈ run)
    (isIn' : c ∈ run) : g b = g c := by
  have isChain : run.IsChain fun a b => g a = g b := by
    have sameChain := List.isChain_of_mem_splitBy isRun
    simpa only [beq_iff_eq] using sameChain
  have isPairwise : (run.map g).Pairwise Eq := by
    rw [List.pairwise_map]
    exact List.isChain_iff_pairwise.mp isChain
  by_contra differ
  exact differ (isPairwise.forall (List.mem_map_of_mem isIn)
    (List.mem_map_of_mem isIn') differ)

theorem runs_concat_new (differs : ∀ x ∈ l.getLast?, g x ≠ g a) :
    runs g (l ++ [a]) = runs g l ++ [[a]] := by
  apply List.splitBy_append_cons
  intro x isLast
  exact beq_eq_false_iff_ne.mpr (differs x isLast)

/-- An element of the class of the last one makes the last run longer. -/
theorem runs_concat_same (isLast : x ∈ l.getLast?) (same : g x = g a) :
    ∃ front run, runs g l = front ++ [run] ∧ runs g (l ++ [a]) = front ++ [run ++ [a]] ∧
      x ∈ run.getLast? := by
  have notNil : l ≠ [] := by
    rintro rfl
    cases isLast
  rcases List.eq_nil_or_concat' (runs g l) with isNil | ⟨front, run, isRuns⟩
  · exact absurd (List.splitBy_eq_nil.mp isNil) notNil
  have isAll : front.flatten ++ run = l := by
    have flat := flatten_runs g l
    simpa [isRuns] using flat
  have runNotNil : run ≠ [] := by
    apply ne_nil_of_mem_runs (g := g) (l := l)
    simp [isRuns]
  have lastRun : x ∈ run.getLast? := by
    rwa [← isAll, List.getLast?_append_of_ne_nil _ runNotNil] at isLast
  have isSplit := List.splitBy_eq_iff.mp isRuns
  refine ⟨front, run, isRuns, List.splitBy_eq_iff.mpr ⟨?_, ?_, ?_, ?_⟩, lastRun⟩
  · simp [← isAll]
  · intro isIn
    rcases List.mem_append.mp isIn with isIn | isIn
    · exact isSplit.2.1 (List.mem_append_left _ isIn)
    · simp at isIn
  · intro other isIn
    rcases List.mem_append.mp isIn with isIn | isIn
    · exact isSplit.2.2.1 other (List.mem_append_left _ isIn)
    · rw [List.mem_singleton] at isIn
      subst isIn
      rw [List.isChain_append]
      refine ⟨isSplit.2.2.1 run (by simp), List.isChain_singleton _, ?_⟩
      intro y isEnd z isHead
      cases isHead
      rw [Option.mem_unique isEnd lastRun]
      exact beq_iff_eq.mpr same
  · have chain := isSplit.2.2.2
    rw [List.isChain_append] at chain ⊢
    refine ⟨chain.1, List.isChain_singleton _, ?_⟩
    intro before isBefore after isAfter
    cases isAfter
    rcases chain.2.2 before isBefore run rfl with ⟨beforeNotNil, _, differs⟩
    refine ⟨beforeNotNil, by simp, ?_⟩
    rwa [List.head_append_of_ne_nil runNotNil]

end Runs
