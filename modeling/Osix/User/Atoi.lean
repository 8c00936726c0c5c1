import Osix.User.Passwd
import Mathlib.Logic.Relation

/-!
# The grammar of `atoi`

`atoi` of `lib/libc/atoi.c` takes a minus sign wherever the number so far is 0, and not only at
the beginning. A number that is 0 is passed if a minus sign follows it at once, and what counts
is the number behind it.
-/

namespace Osix.Atoi

open Ctype Bc

/-! ## Numbers -/

/-- An optional minus sign and digits, perhaps none. -/
def IsNumber (text : List Char) : Prop :=
  ∃ sign digits, (sign = [] ∨ sign = ['-']) ∧ (∀ c ∈ digits, isdigit c = true) ∧
    text = sign ++ digits

def numberValue : List Char → ℤ
  | '-' :: digits => -Passwd.digitsValue digits
  | digits => Passwd.digitsValue digits

/-- The value of a number as an `int`. -/
def wordOf (number : List Char) : Word := BitVec.ofInt 32 (numberValue number)

/-- The longest number that a text begins with, and what follows it. -/
structure Leads (number rest text : List Char) : Prop where
  split : text = number ++ rest
  isNumber : IsNumber number
  longest : ∀ other, other <+: text → IsNumber other → other.length ≤ number.length

/-- `atoi` returns the value of the longest number that the text begins with. -/
def FollowsGrammar (text : List Char) : Prop :=
  ∀ number rest, Leads number rest text → atoi text = wordOf number

/-- The longest number and the rest. -/
def cut : List Char → List Char × List Char
  | '-' :: text => ('-' :: text.takeWhile isdigit, text.dropWhile isdigit)
  | text => (text.takeWhile isdigit, text.dropWhile isdigit)

/-- The text begins with a number that is 0, and goes on with a minus sign. -/
def Passes (text rest : List Char) : Prop :=
  ∃ number, Leads number rest text ∧ wordOf number = 0 ∧ rest.head? = some '-'

/-! ## The longest number -/

section

variable {text number rest digits : List Char}

theorem cut_append (text : List Char) : (cut text).1 ++ (cut text).2 = text := by
  unfold cut
  split
  · rw [List.cons_append, List.takeWhile_append_dropWhile]
  · exact List.takeWhile_append_dropWhile

theorem takeWhile_digits (text : List Char) :
    ∀ c ∈ text.takeWhile isdigit, isdigit c = true := fun _ => List.mem_takeWhile_imp

theorem isNumber_cut (text : List Char) : IsNumber (cut text).1 := by
  unfold cut
  split
  · exact ⟨['-'], _, Or.inr rfl, takeWhile_digits _, rfl⟩
  · exact ⟨[], _, Or.inl rfl, takeWhile_digits _, rfl⟩

/-- No digits at the front are longer than all of them. -/
theorem length_digits_le (areDigits : ∀ c ∈ digits, isdigit c = true)
    (isPrefix : digits <+: text) : digits.length ≤ (text.takeWhile isdigit).length := by
  rcases isPrefix with ⟨more, rfl⟩
  rw [List.takeWhile_append_of_pos areDigits, List.length_append]
  omega

theorem leads_cut (text : List Char) : Leads (cut text).1 (cut text).2 text := by
  refine ⟨(cut_append text).symm, isNumber_cut text, ?_⟩
  rintro other isPrefix ⟨sign, digits, isSign, areDigits, rfl⟩
  unfold cut
  split
  · rename_i more
    rcases isSign with rfl | rfl
    · cases digits with
      | nil => exact Nat.zero_le _
      | cons c digits =>
          -- a minus sign is no digit
          have isMinus := (List.cons_prefix_cons.mp isPrefix).1
          have isDigit := areDigits c List.mem_cons_self
          rw [isMinus] at isDigit
          exact absurd isDigit (by decide)
    · rw [List.singleton_append, List.cons_prefix_cons] at isPrefix
      exact Nat.succ_le_succ (length_digits_le areDigits isPrefix.2)
  · rename_i noMinus
    rcases isSign with rfl | rfl
    · exact length_digits_le areDigits isPrefix
    · rcases isPrefix with ⟨more, rfl⟩
      exact absurd rfl (noMinus (digits ++ more))

theorem Leads.eq_cut (leads : Leads number rest text) : (number, rest) = cut text := by
  have isCut := leads_cut text
  have sameLength : number.length = (cut text).1.length := by
    apply Nat.le_antisymm
    · exact isCut.longest number ⟨rest, leads.split.symm⟩ leads.isNumber
    · exact leads.longest (cut text).1 ⟨_, cut_append text⟩ isCut.isNumber
  rcases List.append_inj (leads.split.symm.trans (cut_append text).symm) sameLength with
    ⟨isNumber, isRest⟩
  exact Prod.ext isNumber isRest

theorem followsGrammar_iff_cut (text : List Char) :
    FollowsGrammar text ↔ atoi text = wordOf (cut text).1 := by
  constructor
  · intro follows
    exact follows _ _ (leads_cut text)
  · intro isValue number rest leads
    rw [isValue, ← leads.eq_cut]

theorem passes_iff_cut :
    Passes text rest ↔ rest = (cut text).2 ∧ wordOf (cut text).1 = 0 ∧ rest.head? = some '-' := by
  constructor
  · rintro ⟨number, leads, isZero, isMinus⟩
    have isCut := leads.eq_cut
    rw [← isCut]
    exact ⟨rfl, isZero, isMinus⟩
  · rintro ⟨rfl, isZero, isMinus⟩
    exact ⟨_, leads_cut text, isZero, isMinus⟩

/-! ## The loop -/

theorem digits_word (digits : List Char) :
    digits.foldl addDigit 0 = BitVec.ofNat 32 (Passwd.digitsValue digits) :=
  Passwd.foldl_addDigit digits 0

/-- Where the digits end, a minus sign goes on with the number if that is 0. -/
theorem atoiLoop_rest (i : Word) (neg : Bool) (noDigit : ∀ c, rest.head? = some c →
    isdigit c = false) :
    atoiLoop i neg rest =
      if i = 0 ∧ rest.head? = some '-' then atoi rest else if neg then -i else i := by
  cases rest with
  | nil => exact (if_neg fun both => absurd both.2 (by rintro ⟨⟩)).symm
  | cons c rest =>
      rw [atoiLoop, if_neg (by rw [noDigit c rfl]; rintro ⟨⟩)]
      by_cases goesOn : c = '-' ∧ i = 0
      · rcases goesOn with ⟨rfl, rfl⟩
        rw [if_pos ⟨rfl, rfl⟩, if_pos ⟨rfl, rfl⟩, atoi, atoiLoop, if_neg (by decide),
          if_pos ⟨rfl, rfl⟩]
      · have notBoth : ¬(i = 0 ∧ (c :: rest).head? = some '-') :=
          fun both => goesOn ⟨Option.some.inj both.2, both.1⟩
        rw [if_neg goesOn, if_neg notBoth]

theorem head_dropWhile (text : List Char) (c : Char)
    (isHead : (text.dropWhile isdigit).head? = some c) : isdigit c = false := by
  have notDigit := List.head?_dropWhile_not isdigit text
  rw [isHead] at notDigit
  simpa using notDigit

/-- One number of a text. -/
theorem atoi_cut (text : List Char) :
    atoi text = if wordOf (cut text).1 = 0 ∧ (cut text).2.head? = some '-' then
      atoi (cut text).2 else wordOf (cut text).1 := by
  have loop : ∀ neg more, atoiLoop 0 neg more =
      atoiLoop (BitVec.ofNat 32 (Passwd.digitsValue (more.takeWhile isdigit))) neg
        (more.dropWhile isdigit) := by
    intro neg more
    rw [← digits_word, ← atoiLoop_digits _ (takeWhile_digits more),
      List.takeWhile_append_dropWhile]
  unfold cut
  split
  · rename_i more
    rw [atoi, atoiLoop, if_neg (by decide), if_pos ⟨rfl, rfl⟩, loop,
      atoiLoop_rest _ _ (head_dropWhile more), wordOf, numberValue, BitVec.ofInt_neg,
      BitVec.ofInt_natCast]
    simp only [neg_eq_zero, if_true]
  · rename_i noMinus
    have isValue : numberValue (text.takeWhile isdigit) =
        Passwd.digitsValue (text.takeWhile isdigit) := by
      unfold numberValue
      split
      · rename_i digits isDigits
        have isDigit := takeWhile_digits text '-' (isDigits ▸ List.mem_cons_self)
        exact absurd isDigit (by decide)
      · rfl
    rw [atoi, loop, atoiLoop_rest _ _ (head_dropWhile text), wordOf, isValue,
      BitVec.ofInt_natCast]
    rfl

theorem atoi_of_passes (passes : Passes text rest) : atoi text = atoi rest := by
  rcases passes_iff_cut.mp passes with ⟨isRest, isZero, isMinus⟩
  rw [isRest] at isMinus ⊢
  rw [atoi_cut, if_pos ⟨isZero, isMinus⟩]

theorem atoi_of_not_passes (stops : ∀ rest, ¬Passes text rest) :
    atoi text = wordOf (cut text).1 := by
  rw [atoi_cut, if_neg]
  exact fun both => stops _ (passes_iff_cut.mpr ⟨rfl, both⟩)

/-- What is passed is not empty. -/
theorem Passes.length_lt (passes : Passes text rest) : rest.length < text.length := by
  rcases passes_iff_cut.mp passes with ⟨isRest, _, isMinus⟩
  have isText := congrArg List.length (cut_append text)
  rw [List.length_append, ← isRest] at isText
  have notEmpty : (cut text).1 ≠ [] := by
    unfold cut at isRest ⊢
    split at isRest
    · exact nofun
    · rename_i noMinus
      intro isNil
      rw [List.takeWhile_eq_nil_iff] at isNil
      cases text with
      | nil =>
          rw [isRest] at isMinus
          cases isMinus
      | cons c text =>
          have notDigit : ¬isdigit c = true := isNil (Nat.succ_pos _)
          rw [List.dropWhile_cons_of_neg notDigit] at isRest
          rw [isRest, List.head?_cons, Option.some.injEq] at isMinus
          exact noMinus text (by rw [isMinus])
  have positive := List.length_pos_iff.mpr notEmpty
  omega

/-! ## What counts -/

/-- The numbers that are reached from a text. -/
theorem atoi_eq_zero_iff (text : List Char) :
    atoi text = 0 ↔ ∀ last, Relation.ReflTransGen Passes text last → wordOf (cut last).1 = 0 := by
  induction isLength : text.length using Nat.strong_induction_on generalizing text with
  | h length ih =>
      by_cases goesOn : ∃ rest, Passes text rest
      · rcases goesOn with ⟨rest, passes⟩
        rw [atoi_of_passes passes, ih rest.length (isLength ▸ passes.length_lt) rest rfl]
        constructor
        · intro allZero last reaches
          rcases Relation.ReflTransGen.cases_head reaches with rfl | ⟨next, passes', reaches⟩
          · exact (passes_iff_cut.mp passes).2.1
          · apply allZero
            rwa [(passes_iff_cut.mp passes).1, ← (passes_iff_cut.mp passes').1]
        · exact fun allZero last reaches => allZero last (.head passes reaches)
      · rw [not_exists] at goesOn
        rw [atoi_of_not_passes goesOn]
        constructor
        · intro isZero last reaches
          rcases Relation.ReflTransGen.cases_head reaches with rfl | ⟨next, passes, _⟩
          · exact isZero
          · exact absurd passes (goesOn next)
        · exact fun allZero => allZero text .refl

end

/--
`atoi` follows its grammar unless it passes numbers that are 0, each with a minus sign behind
it, and comes to a number that is not.
-/
theorem atoi_follows_iff (text : List Char) :
    FollowsGrammar text ↔ ∀ last number rest, Relation.TransGen Passes text last →
      Leads number rest last → wordOf number = 0 := by
  have perLast : (∀ last number rest, Relation.TransGen Passes text last →
      Leads number rest last → wordOf number = 0) ↔
        ∀ last, Relation.TransGen Passes text last → wordOf (cut last).1 = 0 := by
    constructor
    · exact fun allZero last reaches => allZero last _ _ reaches (leads_cut last)
    · intro allZero last number rest reaches leads
      rw [show number = (cut last).1 from congrArg Prod.fst leads.eq_cut]
      exact allZero last reaches
  rw [followsGrammar_iff_cut, perLast]
  by_cases goesOn : ∃ rest, Passes text rest
  · rcases goesOn with ⟨rest, passes⟩
    rw [atoi_of_passes passes, (passes_iff_cut.mp passes).2.1, atoi_eq_zero_iff]
    constructor
    · intro allZero last reaches
      rcases Relation.TransGen.head'_iff.mp reaches with ⟨next, passes', reaches⟩
      apply allZero
      rwa [(passes_iff_cut.mp passes).1, ← (passes_iff_cut.mp passes').1]
    · exact fun allZero last reaches => allZero last (.head' passes reaches)
  · rw [not_exists] at goesOn
    rw [atoi_of_not_passes goesOn]
    refine ⟨fun _ last reaches => ?_, fun _ => rfl⟩
    rcases Relation.TransGen.head'_iff.mp reaches with ⟨next, passes, _⟩
    exact absurd passes (goesOn next)

/-- A second minus sign is taken for the first one. -/
theorem not_atoi_follows : ¬FollowsGrammar "--5".toList := by
  rw [followsGrammar_iff_cut]
  decide

end Osix.Atoi
