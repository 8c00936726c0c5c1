import Mathlib.Data.List.Basic

/-!
# Lists that cover others

Some of the elements of a list can be lost, so that what is left of it may be shorter, or have
others in their place. Where what is left covers the list, no place is made up for by another one:
lists that are put together from such pieces are the same only if all pieces are.
-/

namespace Osix

namespace Covering

variable {α β : Type*} {p : β → Bool}

/--
What is left covers what was meant: it has no more of the elements that can be lost, and is
shorter by no more than by these.
-/
structure Covers (p : β → Bool) (left meant : List β) : Prop where
  fewer : left.countP p ≤ meant.countP p
  longer : meant.length + left.countP p ≤ left.length + meant.countP p

theorem Covers.append {left meant left' meant' : List β} (first : Covers p left meant)
    (second : Covers p left' meant') : Covers p (left ++ left') (meant ++ meant') := by
  have fewer := first.fewer
  have fewer' := second.fewer
  have longer := first.longer
  have longer' := second.longer
  constructor
  · rw [List.countP_append, List.countP_append]
    omega
  · rw [List.countP_append, List.countP_append, List.length_append, List.length_append]
    omega

theorem covers_flatMap {left meant : α → List β} {l : List α}
    (covers : ∀ x ∈ l, Covers p (left x) (meant x)) :
    Covers p (l.flatMap left) (l.flatMap meant) := by
  induction l with
  | nil => exact ⟨Nat.le_refl _, Nat.le_refl _⟩
  | cons x l ih =>
      rw [List.forall_mem_cons] at covers
      exact covers.1.append (ih covers.2)

/-- What covers other lists and makes up the same as these, is the same piece by piece. -/
theorem eq_of_flatMap {left meant : α → List β} {l : List α}
    (covers : ∀ x ∈ l, Covers p (left x) (meant x))
    (same : l.flatMap left = l.flatMap meant) : ∀ x ∈ l, left x = meant x := by
  induction l with
  | nil => exact fun x isIn => nomatch isIn
  | cons x l ih =>
      rw [List.forall_mem_cons] at covers ⊢
      rw [List.flatMap_cons, List.flatMap_cons] at same
      have here := covers.1
      have rest := covers_flatMap covers.2
      have counts := congrArg (List.countP p) same
      have lengths := congrArg List.length same
      rw [List.countP_append, List.countP_append] at counts
      rw [List.length_append, List.length_append] at lengths
      have sameLength : (left x).length = (meant x).length := by
        have fewer := here.fewer
        have fewer' := rest.fewer
        have longer := here.longer
        have longer' := rest.longer
        omega
      rcases List.append_inj same sameLength with ⟨sameHere, sameRest⟩
      exact ⟨sameHere, ih covers.2 sameRest⟩

end Covering

end Osix
