import Mathlib.Logic.Function.Basic

/-!
# Exclusive ownership

Holders own resources, at most one each. `Exclusive` says that no resource has two holders.
A table of holders is changed by giving a holder a resource that nobody has, or by taking
its resource away.
-/

namespace Ownership

universe u v

variable {Holder : Type u} {Resource : Type v}

/-- No resource has two holders. -/
def Exclusive (holds : Holder → Option Resource) : Prop :=
  ∀ a b resource, holds a = some resource → holds b = some resource → a = b

/-- Nobody holds the resource. -/
def Unheld (holds : Holder → Option Resource) (resource : Resource) : Prop :=
  ∀ holder, holds holder ≠ some resource

variable [DecidableEq Holder] {holds : Holder → Option Resource} {holder : Holder}
  {resource : Resource}

theorem Exclusive.give (exclusive : Exclusive holds) (unheld : Unheld holds resource) :
    Exclusive (Function.update holds holder (some resource)) := by
  intro a b shared holdsA holdsB
  rcases eq_or_ne a holder with rfl | otherA
  · rw [Function.update_self, Option.some.injEq] at holdsA
    subst holdsA
    by_contra different
    rw [Function.update_of_ne (Ne.symm different)] at holdsB
    exact unheld b holdsB
  · rw [Function.update_of_ne otherA] at holdsA
    rcases eq_or_ne b holder with rfl | otherB
    · rw [Function.update_self, Option.some.injEq] at holdsB
      subst holdsB
      exact absurd holdsA (unheld a)
    · rw [Function.update_of_ne otherB] at holdsB
      exact exclusive a b shared holdsA holdsB

theorem Exclusive.take (exclusive : Exclusive holds) :
    Exclusive (Function.update holds holder none) := by
  intro a b shared holdsA holdsB
  rcases eq_or_ne a holder with rfl | otherA
  · simp at holdsA
  · rcases eq_or_ne b holder with rfl | otherB
    · simp at holdsB
    · rw [Function.update_of_ne otherA] at holdsA
      rw [Function.update_of_ne otherB] at holdsB
      exact exclusive a b shared holdsA holdsB

/-- What a holder gave up is unheld. -/
theorem Exclusive.unheld_take (exclusive : Exclusive holds) (held : holds holder = some resource) :
    Unheld (Function.update holds holder none) resource := by
  intro other holdsOther
  rcases eq_or_ne other holder with rfl | different
  · simp at holdsOther
  · rw [Function.update_of_ne different] at holdsOther
    exact different (exclusive other holder resource holdsOther held)

/-- A resource that is unheld stays so when another one is given. -/
theorem Unheld.give (unheld : Unheld holds resource) {given : Resource}
    (different : resource ≠ given) : Unheld (Function.update holds holder (some given)) resource := by
  intro other holdsOther
  rcases eq_or_ne other holder with rfl | notHolder
  · rw [Function.update_self, Option.some.injEq] at holdsOther
    exact different holdsOther.symm
  · rw [Function.update_of_ne notHolder] at holdsOther
    exact unheld other holdsOther

theorem Unheld.take (unheld : Unheld holds resource) :
    Unheld (Function.update holds holder none) resource := by
  intro other holdsOther
  rcases eq_or_ne other holder with rfl | notHolder
  · simp at holdsOther
  · rw [Function.update_of_ne notHolder] at holdsOther
    exact unheld other holdsOther

end Ownership
