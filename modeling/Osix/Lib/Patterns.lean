import Mathlib.Computability.Language

/-!
# Patterns

Patterns of single characters, each of them once or any number of times, and the languages of
texts that they match. A pattern is looked for anywhere in a text unless it is tied to an end.
-/

namespace Patterns

open Computability

universe u

variable {α : Type u}

/-- A character of its own, or any. -/
inductive Atom (α : Type u) where
  | char (a : α)
  | any

def Atom.Accepts : Atom α → α → Prop
  | .char a, b => a = b
  | .any, _ => True

inductive Item (α : Type u) where
  | one (atom : Atom α)
  | star (atom : Atom α)

/-- A pattern, and if it is tied to the beginning and to the end of the text. -/
structure Pattern (α : Type u) where
  fromStart : Bool
  items : List (Item α)
  toEnd : Bool

/-- The texts of one character that is accepted. -/
def Atom.language (atom : Atom α) : Language α := {word | ∃ a, atom.Accepts a ∧ word = [a]}

def Item.language : Item α → Language α
  | .one atom => atom.language
  | .star atom => atom.language∗

/-- Nothing if the pattern is tied here, and else any text. -/
def margin : Bool → Language α
  | true => 1
  | false => ⊤

/-- What the items match from the beginning of a text. -/
def headLanguage (items : List (Item α)) (toEnd : Bool) : Language α :=
  (items.map Item.language).prod * margin toEnd

/-- The texts that the pattern matches. -/
def Pattern.language (pattern : Pattern α) : Language α :=
  margin pattern.fromStart * headLanguage pattern.items pattern.toEnd

/-! ## Step by step -/

section

variable {atom : Atom α} {l : Language α} {a : α} {word : List α}

theorem nil_notMem_atom_mul : [] ∉ atom.language * l := by
  rintro ⟨front, ⟨a, _, rfl⟩, back, _, isNil⟩
  cases isNil

theorem cons_mem_atom_mul : a :: word ∈ atom.language * l ↔ atom.Accepts a ∧ word ∈ l := by
  constructor
  · rintro ⟨front, ⟨b, accepts, rfl⟩, back, isIn, isWord⟩
    cases isWord
    exact ⟨accepts, isIn⟩
  · rintro ⟨accepts, isIn⟩
    exact ⟨[a], ⟨a, accepts, rfl⟩, word, isIn, rfl⟩

/-- A star matches nothing, or one character and then the same again. -/
theorem mem_star_mul :
    word ∈ atom.language∗ * l ↔ word ∈ l ∨ word ∈ atom.language * (atom.language∗ * l) := by
  have unfolded : atom.language∗ * l = l + atom.language * (atom.language∗ * l) := by
    calc
      atom.language∗ * l = (1 + atom.language * atom.language∗) * l := by
        rw [Language.one_add_self_mul_kstar_eq_kstar]
      _ = l + atom.language * (atom.language∗ * l) := by rw [add_mul, one_mul, mul_assoc]
  conv_lhs => rw [unfolded]
  exact Language.mem_add _ _ _

theorem nil_mem_top_mul : [] ∈ (⊤ : Language α) * l ↔ [] ∈ l := by
  constructor
  · rintro ⟨front, _, back, isIn, isNil⟩
    rw [(List.append_eq_nil_iff.mp isNil).2] at isIn
    exact isIn
  · intro isIn
    exact ⟨[], trivial, [], isIn, rfl⟩

/-- What may begin anywhere begins here or later. -/
theorem cons_mem_top_mul :
    a :: word ∈ (⊤ : Language α) * l ↔ a :: word ∈ l ∨ word ∈ (⊤ : Language α) * l := by
  constructor
  · rintro ⟨front, _, back, isIn, isWord⟩
    cases front with
    | nil =>
        left
        rw [← isWord]
        exact isIn
    | cons b front =>
        right
        cases isWord
        exact ⟨front, trivial, back, isIn, rfl⟩
  · rintro (isIn | ⟨front, _, back, isIn, rfl⟩)
    · exact ⟨[], trivial, a :: word, isIn, rfl⟩
    · exact ⟨a :: front, trivial, back, isIn, rfl⟩

end

section

variable {items : List (Item α)} {toEnd : Bool} {atom : Atom α} {word : List α}

theorem headLanguage_nil (toEnd : Bool) : headLanguage ([] : List (Item α)) toEnd = margin toEnd :=
  one_mul _

theorem headLanguage_cons (item : Item α) (items : List (Item α)) (toEnd : Bool) :
    headLanguage (item :: items) toEnd = item.language * headLanguage items toEnd := by
  rw [headLanguage, List.map_cons, List.prod_cons, mul_assoc]
  rfl

theorem mem_margin : word ∈ margin toEnd ↔ (toEnd = true → word = []) := by
  cases toEnd with
  | true =>
      constructor
      · intro isIn _
        exact isIn
      · intro isNil
        exact isNil rfl
  | false =>
      constructor
      · intro _ isTrue
        cases isTrue
      · intro _
        trivial

/-- The texts in which something stands that the items match. -/
theorem mem_language {pattern : Pattern α} :
    word ∈ pattern.language ↔ ∃ before inside after, word = before ++ (inside ++ after) ∧
      inside ∈ (pattern.items.map Item.language).prod ∧
      (pattern.fromStart = true → before = []) ∧ (pattern.toEnd = true → after = []) := by
  constructor
  · rintro ⟨before, tied, _, ⟨inside, isIn, after, tied', rfl⟩, rfl⟩
    exact ⟨before, inside, after, rfl, isIn, mem_margin.mp tied, mem_margin.mp tied'⟩
  · rintro ⟨before, inside, after, rfl, isIn, tied, tied'⟩
    exact ⟨before, mem_margin.mpr tied, _, ⟨inside, isIn, after, mem_margin.mpr tied', rfl⟩, rfl⟩

end

end Patterns
