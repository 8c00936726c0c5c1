import Mathlib.Data.BitVec
import Osix.User.Ctype

/-!
# The calculator

`usr.bin/bc.c`, a recursive descent evaluator over a cursor `p`, here the rest of the text.
The grammar is given by syntax trees that also hold the blanks, so that every expression
with every spacing is the text of a tree. The functions call each other and loop, so they
take fuel, and what they return is what they give for all large fuel.

`parse_number` converts a number by `atoi` and then skips its digits. The two disagree if
the number is 0 and a minus sign follows at once, for `atoi` takes that as its sign.
-/

namespace Osix.Bc

open Ctype

abbrev Word := BitVec 32

/-! ## The program -/

def skipWs (text : List Char) : List Char := text.dropWhile isspace

/-- The number `i` with one more digit. -/
def addDigit (i : Word) (c : Char) : Word := i * 10 + BitVec.ofNat 32 (c.toNat - '0'.toNat)

/-- The loop of `atoi`. -/
def atoiLoop (i : Word) (neg : Bool) : List Char → Word
  | [] => if neg then -i else i
  | c :: rest =>
      if isdigit c then atoiLoop (addDigit i c) neg rest
      else if c = '-' ∧ i = 0 then atoiLoop i true rest
      else if neg then -i else i

def atoi (text : List Char) : Word := atoiLoop 0 false text

def parseNumber (text : List Char) : Word × List Char :=
  (atoi (skipWs text), (skipWs text).dropWhile isdigit)

/-- The processor's signed division, which traps if there is no quotient. -/
def divide (v w : Word) : Option Word :=
  if w = 0 ∨ v = BitVec.intMin 32 ∧ w = -1 then none else some (v.sdiv w)

mutual

def parseFactor : ℕ → List Char → Option (Word × List Char)
  | 0, _ => none
  | fuel + 1, text =>
      match skipWs text with
      | '(' :: inner => do
          let (v, rest) ← parseExpr fuel inner
          match skipWs rest with
          | ')' :: after => return (v, after)
          | other => return (v, other)
      | other => return parseNumber other

/-- The loop of `parse_term`. -/
def termLoop : ℕ → Word → List Char → Option (Word × List Char)
  | 0, _, _ => none
  | fuel + 1, v, text =>
      match skipWs text with
      | '*' :: rest => do
          let (w, after) ← parseFactor fuel rest
          termLoop fuel (v * w) after
      | '/' :: rest => do
          let (w, after) ← parseFactor fuel rest
          let quotient ← divide v w
          termLoop fuel quotient after
      | other => return (v, other)

def parseTerm : ℕ → List Char → Option (Word × List Char)
  | 0, _ => none
  | fuel + 1, text => do
      let (v, rest) ← parseFactor fuel text
      termLoop fuel v rest

/-- The loop of `parse_expr`. -/
def exprLoop : ℕ → Word → List Char → Option (Word × List Char)
  | 0, _, _ => none
  | fuel + 1, v, text =>
      match skipWs text with
      | '+' :: rest => do
          let (w, after) ← parseTerm fuel rest
          exprLoop fuel (v + w) after
      | '-' :: rest => do
          let (w, after) ← parseTerm fuel rest
          exprLoop fuel (v - w) after
      | other => return (v, other)

def parseExpr : ℕ → List Char → Option (Word × List Char)
  | 0, _ => none
  | fuel + 1, text => do
      let (v, rest) ← parseTerm fuel text
      exprLoop fuel v rest

end

/-- What a function gives for all large fuel. -/
def Gives (f : ℕ → Option (Word × List Char)) (result : Word × List Char) : Prop :=
  ∃ bound, ∀ fuel, bound ≤ fuel → f fuel = some result

/-! ## The grammar -/

/-- Blank characters, perhaps none. -/
structure Blanks where
  text : List Char
  blank : ∀ c ∈ text, isspace c = true

/-- A decimal literal. -/
structure Literal where
  text : List Char
  notEmpty : text ≠ []
  digit : ∀ c ∈ text, isdigit c = true

mutual

inductive Factor where
  | number (before : Blanks) (literal : Literal)
  | paren (before : Blanks) (body : Expr) (after : Blanks)

inductive Term where
  | factor (factor : Factor)
  | mul (left : Term) (blanks : Blanks) (right : Factor)
  | div (left : Term) (blanks : Blanks) (right : Factor)

inductive Expr where
  | term (term : Term)
  | add (left : Expr) (blanks : Blanks) (right : Term)
  | sub (left : Expr) (blanks : Blanks) (right : Term)

end

mutual

def Factor.text : Factor → List Char
  | .number before literal => before.text ++ literal.text
  | .paren before body after => before.text ++ '(' :: (body.text ++ (after.text ++ [')']))

def Term.text : Term → List Char
  | .factor factor => factor.text
  | .mul left blanks right => left.text ++ (blanks.text ++ '*' :: right.text)
  | .div left blanks right => left.text ++ (blanks.text ++ '/' :: right.text)

def Expr.text : Expr → List Char
  | .term term => term.text
  | .add left blanks right => left.text ++ (blanks.text ++ '+' :: right.text)
  | .sub left blanks right => left.text ++ (blanks.text ++ '-' :: right.text)

end

def Literal.value (literal : Literal) : Word := literal.text.foldl addDigit 0

mutual

/-- The value, unless a division by zero occurs. -/
def Factor.value : Factor → Option Word
  | .number _ literal => some literal.value
  | .paren _ body _ => body.value

def Term.value : Term → Option Word
  | .factor factor => factor.value
  | .mul left _ right => do return (← left.value) * (← right.value)
  | .div left _ right => do
      let v ← left.value
      let w ← right.value
      if w = 0 then none else return v.sdiv w

def Expr.value : Expr → Option Word
  | .term term => term.value
  | .add left _ right => do return (← left.value) + (← right.value)
  | .sub left _ right => do return (← left.value) - (← right.value)

end

/-! ## The condition -/

/-- The text after a literal: if the literal is 0, then `atoi` finds no number there. -/
def Literal.Ended (literal : Literal) (rest : List Char) : Prop :=
  literal.value = 0 → atoi rest = 0

mutual

/--
In front of the text `rest`, no literal that is 0 is directly followed by a number with a
minus sign, and no quotient is out of range.
-/
def Factor.Clean : Factor → List Char → Prop
  | .number _ literal, rest => literal.Ended rest
  | .paren _ body after, rest => body.Clean (after.text ++ ')' :: rest)

def Term.Clean : Term → List Char → Prop
  | .factor factor, rest => factor.Clean rest
  | .mul left blanks right, rest =>
      left.Clean (blanks.text ++ '*' :: (right.text ++ rest)) ∧ right.Clean rest
  | .div left blanks right, rest =>
      left.Clean (blanks.text ++ '/' :: (right.text ++ rest)) ∧ right.Clean rest ∧
        ¬(left.value = some (BitVec.intMin 32) ∧ right.value = some (-1))

def Expr.Clean : Expr → List Char → Prop
  | .term term, rest => term.Clean rest
  | .add left blanks right, rest =>
      left.Clean (blanks.text ++ '+' :: (right.text ++ rest)) ∧ right.Clean rest
  | .sub left blanks right, rest =>
      left.Clean (blanks.text ++ '-' :: (right.text ++ rest)) ∧ right.Clean rest

end

/-! ## Blanks and literals -/

theorem skipWs_blanks (blanks : Blanks) (rest : List Char) :
    skipWs (blanks.text ++ rest) = skipWs rest :=
  List.dropWhile_append_of_pos blanks.blank

@[simp]
theorem skipWs_skipWs (text : List Char) : skipWs (skipWs text) = skipWs text := by
  exact List.dropWhile_idempotent isspace text

theorem skipWs_of_not {c : Char} (notSpace : isspace c = false) (rest : List Char) :
    skipWs (c :: rest) = c :: rest :=
  dropWhile_of_not notSpace rest

/-- The text does not go on with a digit. -/
def NoDigit (rest : List Char) : Prop := ∀ c, rest.head? = some c → isdigit c = false

theorem dropWhile_noDigit {rest : List Char} (noDigit : NoDigit rest) :
    rest.dropWhile isdigit = rest := by
  cases rest with
  | nil => rfl
  | cons c rest => rw [List.dropWhile_cons_of_neg (by simp [noDigit c rfl])]

theorem noDigit_blanks (blanks : Blanks) {c : Char} (notDigit : isdigit c = false)
    (rest : List Char) : NoDigit (blanks.text ++ c :: rest) := by
  intro other isHead
  cases isBlanks : blanks.text with
  | nil =>
      rw [isBlanks] at isHead
      cases isHead
      exact notDigit
  | cons b bs =>
      rw [isBlanks] at isHead
      rw [List.cons_append, List.head?_cons, Option.some.injEq] at isHead
      have space := blanks.blank other (by rw [isBlanks, isHead]; exact List.mem_cons_self)
      by_contra digit
      rw [Bool.not_eq_false] at digit
      rw [not_isspace_of_isdigit digit] at space
      cases space

/-- `atoi` goes through the digits of a number. -/
theorem atoiLoop_digits (digits : List Char) (areDigits : ∀ c ∈ digits, isdigit c = true)
    (i : Word) (neg : Bool) (rest : List Char) :
    atoiLoop i neg (digits ++ rest) = atoiLoop (digits.foldl addDigit i) neg rest := by
  induction digits generalizing i with
  | nil => rfl
  | cons c digits ih =>
      rw [List.cons_append, atoiLoop, if_pos (areDigits c List.mem_cons_self), List.foldl_cons]
      exact ih (fun d isDigit => areDigits d (List.mem_cons_of_mem c isDigit)) _

/-- Behind a number that is not 0 `atoi` stops. -/
theorem atoiLoop_stops {i : Word} (notZero : i ≠ 0) {rest : List Char} (noDigit : NoDigit rest) :
    atoiLoop i false rest = i := by
  cases rest with
  | nil => rfl
  | cons c rest =>
      rw [atoiLoop, if_neg (by simp [noDigit c rfl]), if_neg fun both => notZero both.2]
      rfl

/-- A literal is read right exactly if the text after it meets the condition. -/
theorem atoi_literal (literal : Literal) {rest : List Char} (noDigit : NoDigit rest) :
    atoi (literal.text ++ rest) = literal.value ↔ literal.Ended rest := by
  rw [atoi, atoiLoop_digits literal.text literal.digit, Literal.Ended, ← Literal.value]
  by_cases isZero : literal.value = 0
  · rw [isZero]
    simp [atoi]
  · rw [atoiLoop_stops isZero noDigit]
    exact ⟨fun _ zero => absurd zero isZero, fun _ => rfl⟩

theorem skipWs_literal (literal : Literal) (rest : List Char) :
    skipWs (literal.text ++ rest) = literal.text ++ rest := by
  cases isText : literal.text with
  | nil => exact absurd isText literal.notEmpty
  | cons c digits =>
      apply skipWs_of_not
      exact not_isspace_of_isdigit (literal.digit c (by rw [isText]; exact List.mem_cons_self))

theorem literal_head (literal : Literal) :
    ∃ c digits, literal.text = c :: digits ∧ isdigit c = true := by
  cases isText : literal.text with
  | nil => exact absurd isText literal.notEmpty
  | cons c digits =>
      exact ⟨c, digits, rfl, literal.digit c (by rw [isText]; exact List.mem_cons_self)⟩

/-- `parse_number` at a literal. -/
theorem parseNumber_literal (literal : Literal) {rest : List Char} (noDigit : NoDigit rest)
    (ended : literal.Ended rest) : parseNumber (literal.text ++ rest) = (literal.value, rest) := by
  rw [parseNumber, skipWs_literal, (atoi_literal literal noDigit).mpr ended,
    List.dropWhile_append_of_pos literal.digit, dropWhile_noDigit noDigit]

/-! ## What the functions give -/

section

variable {rest : List Char} {result : Word × List Char}

/-- The rest of the text does not go on with one of the operators. -/
def NoOperator (operators : List Char) (rest : List Char) : Prop :=
  ∀ c, (skipWs rest).head? = some c → c ∉ operators

theorem noOperator_blanks (blanks : Blanks) {operators : List Char} {c : Char}
    (notSpace : isspace c = false) (notIn : c ∉ operators) (rest : List Char) :
    NoOperator operators (blanks.text ++ c :: rest) := by
  intro other isHead
  rw [skipWs_blanks, skipWs_of_not notSpace] at isHead
  cases isHead
  exact notIn

theorem termLoop_stops (noOperator : NoOperator ['*', '/'] rest) (v : Word) :
    Gives (termLoop · v rest) (v, skipWs rest) := by
  refine ⟨1, ?_⟩
  intro fuel enough
  obtain ⟨fuel, rfl⟩ := Nat.exists_eq_add_of_le' enough
  show termLoop (fuel + 1) v rest = _
  rw [termLoop]
  split
  · rename_i after isText
    exact absurd List.mem_cons_self (noOperator '*' (by rw [isText]; rfl))
  · rename_i after isText
    exact absurd (by simp) (noOperator '/' (by rw [isText]; rfl))
  · rfl

theorem exprLoop_stops (noOperator : NoOperator ['+', '-'] rest) (v : Word) :
    Gives (exprLoop · v rest) (v, skipWs rest) := by
  refine ⟨1, ?_⟩
  intro fuel enough
  obtain ⟨fuel, rfl⟩ := Nat.exists_eq_add_of_le' enough
  show exprLoop (fuel + 1) v rest = _
  rw [exprLoop]
  split
  · rename_i after isText
    exact absurd List.mem_cons_self (noOperator '+' (by rw [isText]; rfl))
  · rename_i after isText
    exact absurd (by simp) (noOperator '-' (by rw [isText]; rfl))
  · rfl

/-- A computation that calls another one with a little less fuel. -/
theorem Gives.step {f g : ℕ → Option (Word × List Char)} (gives : Gives g result)
    (calls : ∀ fuel, g fuel = some result → f (fuel + 1) = some result) : Gives f result := by
  rcases gives with ⟨bound, gives⟩
  refine ⟨bound + 1, ?_⟩
  intro fuel enough
  obtain ⟨fuel, rfl⟩ := Nat.exists_eq_add_of_le' (Nat.le_of_add_left_le enough)
  exact calls fuel (gives fuel (by omega))

/-- A computation that calls two others, one after the other. -/
theorem Gives.step₂ {f g h : ℕ → Option (Word × List Char)} {middle : Word × List Char}
    (first : Gives g middle) (second : Gives h result)
    (calls : ∀ fuel, g fuel = some middle → h fuel = some result → f (fuel + 1) = some result) :
    Gives f result := by
  rcases first with ⟨bound₁, first⟩
  rcases second with ⟨bound₂, second⟩
  refine ⟨bound₁ + bound₂ + 1, ?_⟩
  intro fuel enough
  obtain ⟨fuel, rfl⟩ := Nat.exists_eq_add_of_le' (Nat.le_of_add_left_le enough)
  exact calls fuel (first fuel (by omega)) (second fuel (by omega))

/-- The loop of `parse_term` at a `*`. -/
theorem termLoop_mul (blanks : Blanks) {text : List Char} {v w : Word}
    (factor : Gives (parseFactor · (text ++ rest)) (w, rest))
    (loop : Gives (termLoop · (v * w) rest) result) :
    Gives (termLoop · v (blanks.text ++ '*' :: (text ++ rest))) result := by
  apply factor.step₂ loop
  intro fuel isFactor isLoop
  rw [termLoop, skipWs_blanks, skipWs_of_not (by decide)]
  simp [isFactor, isLoop]

/-- The loop of `parse_term` at a `/`, if there is a quotient. -/
theorem termLoop_div (blanks : Blanks) {text : List Char} {v w quotient : Word}
    (factor : Gives (parseFactor · (text ++ rest)) (w, rest)) (divides : divide v w = some quotient)
    (loop : Gives (termLoop · quotient rest) result) :
    Gives (termLoop · v (blanks.text ++ '/' :: (text ++ rest))) result := by
  apply factor.step₂ loop
  intro fuel isFactor isLoop
  rw [termLoop, skipWs_blanks, skipWs_of_not (by decide)]
  simp [isFactor, isLoop, divides]

theorem exprLoop_skipWs (fuel : ℕ) (v : Word) (rest : List Char) :
    exprLoop fuel v (skipWs rest) = exprLoop fuel v rest := by
  cases fuel with
  | zero => rfl
  | succ fuel => rw [exprLoop, exprLoop, skipWs_skipWs]

theorem exprLoop_add (blanks : Blanks) {text : List Char} {v w : Word}
    (term : Gives (parseTerm · (text ++ rest)) (w, skipWs rest))
    (loop : Gives (exprLoop · (v + w) rest) result) :
    Gives (exprLoop · v (blanks.text ++ '+' :: (text ++ rest))) result := by
  apply term.step₂ loop
  intro fuel isTerm isLoop
  rw [exprLoop, skipWs_blanks, skipWs_of_not (by decide)]
  simp [isTerm, exprLoop_skipWs, isLoop]

theorem exprLoop_sub (blanks : Blanks) {text : List Char} {v w : Word}
    (term : Gives (parseTerm · (text ++ rest)) (w, skipWs rest))
    (loop : Gives (exprLoop · (v - w) rest) result) :
    Gives (exprLoop · v (blanks.text ++ '-' :: (text ++ rest))) result := by
  apply term.step₂ loop
  intro fuel isTerm isLoop
  rw [exprLoop, skipWs_blanks, skipWs_of_not (by decide)]
  simp [isTerm, exprLoop_skipWs, isLoop]

/-- `parse_factor` at a literal. -/
theorem parseFactor_number (before : Blanks) (literal : Literal) (noDigit : NoDigit rest)
    (ended : literal.Ended rest) :
    Gives (parseFactor · (before.text ++ literal.text ++ rest)) (literal.value, rest) := by
  refine ⟨1, ?_⟩
  intro fuel enough
  obtain ⟨fuel, rfl⟩ := Nat.exists_eq_add_of_le' enough
  show parseFactor (fuel + 1) _ = _
  rw [parseFactor, List.append_assoc, skipWs_blanks, skipWs_literal]
  split
  · rename_i inner isText
    rcases literal_head literal with ⟨c, digits, isLiteral, digit⟩
    rw [isLiteral, List.cons_append] at isText
    cases isText
    exact absurd digit (by decide)
  · rw [parseNumber_literal literal noDigit ended]
    rfl

/-- `parse_factor` at an expression in parentheses. -/
theorem parseFactor_paren (before after : Blanks) {text : List Char} {v : Word}
    (body : Gives (parseExpr · (text ++ (after.text ++ ')' :: rest))) (v, ')' :: rest)) :
    Gives (parseFactor · (before.text ++ '(' :: (text ++ (after.text ++ ')' :: rest)))) (v, rest) := by
  rcases body with ⟨bound, body⟩
  refine ⟨bound + 1, ?_⟩
  intro fuel enough
  obtain ⟨fuel, rfl⟩ := Nat.exists_eq_add_of_le' (Nat.le_of_add_left_le enough)
  show parseFactor (fuel + 1) _ = _
  rw [parseFactor, skipWs_blanks, skipWs_of_not (by decide)]
  simp [body fuel (by omega), skipWs_of_not (show isspace ')' = false by decide)]

end

/-! ## Every expression -/

mutual

/-- What `parse_factor` gives, by induction on the tree. -/
theorem factor_spec (factor : Factor) (rest : List Char) (v : Word)
    (isValue : factor.value = some v) (clean : factor.Clean rest) (noDigit : NoDigit rest) :
    Gives (parseFactor · (factor.text ++ rest)) (v, rest) := by
  cases factor with
  | number before literal =>
      rw [Factor.value, Option.some.injEq] at isValue
      rw [← isValue, Factor.text]
      exact parseFactor_number before literal noDigit clean
  | paren before body after =>
      rw [Factor.value] at isValue
      rw [Factor.Clean] at clean
      have stops : Gives (exprLoop · v (after.text ++ ')' :: rest)) (v, ')' :: rest) := by
        have noOperator : NoOperator ['+', '-'] (after.text ++ ')' :: rest) :=
          noOperator_blanks after (by decide) (by decide) rest
        have stopped := exprLoop_stops noOperator v
        rwa [skipWs_blanks, skipWs_of_not (by decide)] at stopped
      have isBody := expr_spec body _ v isValue clean
        (noDigit_blanks after (by decide) rest)
        (noOperator_blanks after (by decide) (by decide) rest) _ stops
      have isFactor := parseFactor_paren before after isBody
      simpa [Factor.text] using isFactor

/-- `parse_term` goes through a term and comes to its loop with the value so far. -/
theorem term_spec (term : Term) (rest : List Char) (v : Word)
    (isValue : term.value = some v) (clean : term.Clean rest) (noDigit : NoDigit rest)
    (result : Word × List Char) (loop : Gives (termLoop · v rest) result) :
    Gives (parseTerm · (term.text ++ rest)) result := by
  cases term with
  | factor factor =>
      rw [Term.value] at isValue
      rw [Term.Clean] at clean
      apply (factor_spec factor rest v isValue clean noDigit).step₂ loop
      intro fuel isFactor isLoop
      rw [parseTerm, Term.text]
      simp [isFactor, isLoop]
  | mul left blanks right =>
      simp only [Term.value, Option.bind_eq_bind, Option.bind_eq_some_iff, Option.pure_def,
        Option.some.injEq] at isValue
      rcases isValue with ⟨u, isLeft, w, isRight, rfl⟩
      rw [Term.Clean] at clean
      have isFactor := factor_spec right rest w isRight clean.2 noDigit
      have isTerm := term_spec left _ u isLeft clean.1 (noDigit_blanks blanks (by decide) _) _
        (termLoop_mul blanks isFactor loop)
      simpa [Term.text] using isTerm
  | div left blanks right =>
      simp only [Term.value, Option.bind_eq_bind, Option.bind_eq_some_iff] at isValue
      rcases isValue with ⟨u, isLeft, w, isRight, isQuotient⟩
      rw [Term.Clean] at clean
      have divides : divide u w = some v := by
        split at isQuotient
        · cases isQuotient
        · rename_i notZero
          rw [divide, if_neg]
          · exact isQuotient
          · rintro (isZero | ⟨rfl, rfl⟩)
            · exact notZero isZero
            · exact clean.2.2 ⟨isLeft, isRight⟩
      have isFactor := factor_spec right rest w isRight clean.2.1 noDigit
      have isTerm := term_spec left _ u isLeft clean.1 (noDigit_blanks blanks (by decide) _) _
        (termLoop_div blanks isFactor divides loop)
      simpa [Term.text] using isTerm

/-- `parse_expr` goes through an expression and comes to its loop with the value so far. -/
theorem expr_spec (expr : Expr) (rest : List Char) (v : Word)
    (isValue : expr.value = some v) (clean : expr.Clean rest) (noDigit : NoDigit rest)
    (noOperator : NoOperator ['*', '/'] rest)
    (result : Word × List Char) (loop : Gives (exprLoop · v rest) result) :
    Gives (parseExpr · (expr.text ++ rest)) result := by
  cases expr with
  | term term =>
      rw [Expr.value] at isValue
      rw [Expr.Clean] at clean
      have isTerm := term_spec term rest v isValue clean noDigit _ (termLoop_stops noOperator v)
      apply isTerm.step₂ loop
      intro fuel isTerm isLoop
      rw [parseExpr, Expr.text]
      simp [isTerm, exprLoop_skipWs, isLoop]
  | add left blanks right =>
      simp only [Expr.value, Option.bind_eq_bind, Option.bind_eq_some_iff, Option.pure_def,
        Option.some.injEq] at isValue
      rcases isValue with ⟨u, isLeft, w, isRight, rfl⟩
      rw [Expr.Clean] at clean
      have isTerm := term_spec right rest w isRight clean.2 noDigit _ (termLoop_stops noOperator w)
      have isExpr := expr_spec left _ u isLeft clean.1 (noDigit_blanks blanks (by decide) _)
        (noOperator_blanks blanks (by decide) (by decide) _) _ (exprLoop_add blanks isTerm loop)
      simpa [Expr.text] using isExpr
  | sub left blanks right =>
      simp only [Expr.value, Option.bind_eq_bind, Option.bind_eq_some_iff, Option.pure_def,
        Option.some.injEq] at isValue
      rcases isValue with ⟨u, isLeft, w, isRight, rfl⟩
      rw [Expr.Clean] at clean
      have isTerm := term_spec right rest w isRight clean.2 noDigit _ (termLoop_stops noOperator w)
      have isExpr := expr_spec left _ u isLeft clean.1 (noDigit_blanks blanks (by decide) _)
        (noOperator_blanks blanks (by decide) (by decide) _) _ (exprLoop_sub blanks isTerm loop)
      simpa [Expr.text] using isExpr

end

end Osix.Bc
