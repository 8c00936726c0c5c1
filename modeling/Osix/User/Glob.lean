import Mathlib.Data.List.Basic
import Mathlib.Data.List.Forall2
import Mathlib.Tactic.Common

/-!
# Patterns of the shell

`pattern_match` of `bin/sh.c`. A pointer into a string is the rest of the string up to its
terminator, and a null pointer is `none`. The matcher keeps one place to go back to: the
pattern behind the last `*`, and the string behind the place where that `*` has ended so far.
-/

namespace Osix.Shell

/-! ## Matching -/

/--
A string matches a pattern: `*` stands for any sequence, `?` for any character, and every
other character for itself.
-/
inductive Matches : List Char → List Char → Prop where
  | nil : Matches [] []
  | star {pattern s : List Char} (skipped : List Char) (rest : Matches pattern s) :
      Matches ('*' :: pattern) (skipped ++ s)
  | any {pattern s : List Char} (c : Char) (rest : Matches pattern s) :
      Matches ('?' :: pattern) (c :: s)
  | char {pattern s : List Char} {c : Char} (notStar : c ≠ '*') (notAny : c ≠ '?')
      (rest : Matches pattern s) : Matches (c :: pattern) (c :: s)

/-- The first loop of `pattern_match`, up to the first `*`; `none` is the answer 0. -/
def matchHead : List Char → List Char → Option (List Char × List Char)
  | pattern, [] => some (pattern, [])
  | [], _ :: _ => none
  | p :: pattern, c :: s =>
      if p = '*' then some (p :: pattern, c :: s)
      else if p ≠ c ∧ p ≠ '?' then none
      else matchHead pattern s

/-- The second loop of `pattern_match`, and what follows it. -/
def matchTail : ℕ → List Char → List Char → Option (List Char) → Option (List Char) → Option Bool
  | 0, _, _, _, _ => none
  | _ + 1, pattern, [], _, _ => some (pattern.dropWhile (· = '*')).isEmpty
  | fuel + 1, pattern, c :: s, mp, cp =>
      let goBack := do matchTail fuel (← mp) (← cp) mp (cp.map List.tail)
      match pattern with
      | [] => goBack
      | p :: rest =>
          if p = '*' then
            if rest = [] then some true else matchTail fuel rest (c :: s) (some rest) (some s)
          else if p = c ∨ p = '?' then matchTail fuel rest s mp cp
          else goBack

/-- `pattern_match`, with as many turns as there is fuel. -/
def patternMatch (fuel : ℕ) (pattern s : List Char) : Option Bool :=
  match matchHead pattern s with
  | none => some false
  | some (pattern, s) => matchTail fuel pattern s none none

/-! ## Inversion -/

theorem matches_nil_left {s : List Char} : Matches [] s ↔ s = [] := by
  constructor
  · intro isMatch
    cases isMatch
    rfl
  · rintro rfl
    exact .nil

theorem matches_star {pattern s : List Char} :
    Matches ('*' :: pattern) s ↔ ∃ skipped rest, s = skipped ++ rest ∧ Matches pattern rest := by
  constructor
  · intro isMatch
    cases isMatch with
    | star skipped rest => exact ⟨skipped, _, rfl, rest⟩
    | char notStar _ _ => exact absurd rfl notStar
  · rintro ⟨skipped, rest, rfl, isMatch⟩
    exact .star skipped isMatch

/-- A character of a pattern stands for a character. -/
def Stands (p c : Char) : Prop := p ≠ '*' ∧ (p = c ∨ p = '?')

theorem matches_cons {p : Char} {pattern s : List Char} (notStar : p ≠ '*') :
    Matches (p :: pattern) s ↔ ∃ c rest, s = c :: rest ∧ Stands p c ∧ Matches pattern rest := by
  constructor
  · intro isMatch
    cases isMatch with
    | star _ _ => exact absurd rfl notStar
    | any c rest => exact ⟨c, _, rfl, ⟨notStar, Or.inr rfl⟩, rest⟩
    | char _ _ rest => exact ⟨p, _, rfl, ⟨notStar, Or.inl rfl⟩, rest⟩
  · rintro ⟨c, rest, rfl, ⟨-, same | isAny⟩, isMatch⟩
    · subst same
      by_cases isAny : p = '?'
      · subst isAny
        exact .any _ isMatch
      · exact .char notStar isAny isMatch
    · subst isAny
      exact .any c isMatch

/-- Only stars match the empty string. -/
theorem matches_nil_right {pattern : List Char} :
    Matches pattern [] ↔ (pattern.dropWhile (· = '*')).isEmpty = true := by
  induction pattern with
  | nil => simp [matches_nil_left]
  | cons p pattern ih =>
      by_cases isStar : p = '*'
      · subst isStar
        rw [List.dropWhile_cons_of_pos (by simp), ← ih, matches_star]
        constructor
        · rintro ⟨skipped, rest, isNil, isMatch⟩
          obtain ⟨-, rfl⟩ := List.append_eq_nil_iff.mp isNil.symm
          exact isMatch
        · intro isMatch
          exact ⟨[], [], rfl, isMatch⟩
      · rw [List.dropWhile_cons_of_neg (by simpa using isStar), matches_cons isStar]
        simp

/-- A star may take one more character. -/
theorem matches_star_cons {pattern s : List Char} {c : Char} :
    Matches ('*' :: pattern) (c :: s) ↔
      Matches pattern (c :: s) ∨ Matches ('*' :: pattern) s := by
  constructor
  · intro isMatch
    obtain ⟨skipped, rest, isText, isRest⟩ := matches_star.mp isMatch
    rcases skipped with _ | ⟨d, skipped⟩
    · rw [isText]
      exact Or.inl isRest
    · obtain ⟨-, rfl⟩ := List.cons.inj isText
      exact Or.inr (.star skipped isRest)
  · rintro (isMatch | isMatch)
    · exact .star [] isMatch
    · obtain ⟨skipped, rest, rfl, isRest⟩ := matches_star.mp isMatch
      exact .star (c :: skipped) isRest

/-- A star takes what stands before a match of a star. -/
theorem Matches.skip {pattern s : List Char} (isMatch : Matches ('*' :: pattern) s)
    (skipped : List Char) : Matches ('*' :: pattern) (skipped ++ s) := by
  obtain ⟨before, rest, rfl, isRest⟩ := matches_star.mp isMatch
  rw [← List.append_assoc]
  exact .star _ isRest

/-! ## Segments without stars -/

/-- The characters of a pattern without stars stand for those of a string. -/
abbrev Aligned (segment text : List Char) : Prop := List.Forall₂ Stands segment text

section

variable {segment text pattern s : List Char}

theorem matches_aligned (aligned : Aligned segment text) :
    Matches (segment ++ pattern) (text ++ s) ↔ Matches pattern s := by
  induction aligned with
  | nil => rfl
  | cons stands _ ih =>
      rw [List.cons_append, List.cons_append, matches_cons stands.1]
      constructor
      · rintro ⟨c, rest, isText, -, isMatch⟩
        obtain ⟨-, rfl⟩ := List.cons.inj isText
        exact ih.mp isMatch
      · intro isMatch
        exact ⟨_, _, rfl, stands, ih.mpr isMatch⟩

/-- A match of a segment and more begins with as many characters as the segment has. -/
theorem Matches.splitSegment {string : List Char} (noStar : ∀ p ∈ segment, p ≠ '*')
    (isMatch : Matches (segment ++ pattern) string) :
    ∃ before rest, string = before ++ rest ∧ before.length = segment.length ∧
      Matches pattern rest := by
  induction segment generalizing string with
  | nil => exact ⟨[], string, rfl, rfl, isMatch⟩
  | cons p segment ih =>
      obtain ⟨c, rest, rfl, -, isRest⟩ :=
        (matches_cons (noStar p List.mem_cons_self)).mp isMatch
      obtain ⟨before, behind, rfl, sameLength, isBehind⟩ :=
        ih (fun q isIn => noStar q (List.mem_cons_of_mem p isIn)) isRest
      refine ⟨c :: before, behind, rfl, ?_, isBehind⟩
      rw [List.length_cons, List.length_cons, sameLength]

theorem Aligned.noStar (aligned : Aligned segment text) : ∀ p ∈ segment, p ≠ '*' := by
  induction aligned with
  | nil => simp
  | cons stands _ ih =>
      intro p isIn
      rcases List.mem_cons.mp isIn with rfl | isIn
      · exact stands.1
      · exact ih p isIn

/--
A star and a segment match as early as they can: wherever they are matched later, the rest of
the pattern finds its match in the rest of the string.
-/
theorem matches_earliest (aligned : Aligned segment text)
    (isMatch : Matches ('*' :: (segment ++ pattern)) (text ++ s)) :
    ∃ skipped rest, s = skipped ++ rest ∧ Matches pattern rest := by
  obtain ⟨skipped, string, isText, isString⟩ := matches_star.mp isMatch
  obtain ⟨before, rest, rfl, sameLength, isRest⟩ := isString.splitSegment aligned.noStar
  have isShort : text.length ≤ (skipped ++ before).length := by
    rw [List.length_append, sameLength, aligned.length_eq]
    omega
  rw [← List.append_assoc] at isText
  rcases List.append_eq_append_iff.mp isText with ⟨between, -, rfl⟩ | ⟨between, rfl, rfl⟩
  · exact ⟨between, rest, rfl, isRest⟩
  · have isNil : between = [] := by
      rw [List.length_append] at isShort
      exact List.eq_nil_of_length_eq_zero (by omega)
    subst isNil
    exact ⟨[], s, rfl, isRest⟩

end

/-! ## The loops -/

/-- The first loop leaves a pattern and a string that match if the whole ones do. -/
theorem matchHead_spec (pattern s : List Char) :
    match matchHead pattern s with
    | none => ¬ Matches pattern s
    | some (pattern', s') => (Matches pattern s ↔ Matches pattern' s') ∧
        (s' = [] ∨ ∃ rest, pattern' = '*' :: rest) := by
  fun_induction matchHead pattern s with
  | case1 pattern => exact ⟨Iff.rfl, Or.inl rfl⟩
  | case2 c s => simp [matches_nil_left]
  | case3 pattern c s => exact ⟨Iff.rfl, Or.inr ⟨pattern, rfl⟩⟩
  | case4 p pattern c s isStar mismatch =>
      intro isMatch
      obtain ⟨d, rest, isText, stands, -⟩ := (matches_cons isStar).mp isMatch
      obtain ⟨rfl, -⟩ := List.cons.inj isText
      rcases stands.2 with same | isAny
      · exact mismatch.1 same
      · exact mismatch.2 isAny
  | case5 p pattern c s isStar noMismatch ih =>
      have stands : Stands p c := ⟨isStar, by tauto⟩
      have aligned : Aligned [p] [c] := .cons stands .nil
      have isRest : Matches (p :: pattern) (c :: s) ↔ Matches pattern s :=
        matches_aligned aligned
      simp only [isRest]
      exact ih

/-- The loop returns an answer with enough fuel, and it is the truth of `statement`. -/
def Decides (pattern s : List Char) (mp cp : Option (List Char)) (statement : Prop) : Prop :=
  ∃ bound, ∀ fuel ≥ bound, ∃ answer, matchTail fuel pattern s mp cp = some answer ∧
    (answer = true ↔ statement)

/-- A turn of the loop that goes on. -/
theorem Decides.turn {pattern s pattern' s' : List Char} {mp cp mp' cp' : Option (List Char)}
    {statement statement' : Prop} (decides : Decides pattern' s' mp' cp' statement')
    (isTurn : ∀ fuel, matchTail (fuel + 1) pattern s mp cp = matchTail fuel pattern' s' mp' cp')
    (same : statement' ↔ statement) : Decides pattern s mp cp statement := by
  obtain ⟨bound, answers⟩ := decides
  refine ⟨bound + 1, fun fuel enough => ?_⟩
  obtain ⟨fuel, rfl⟩ := Nat.exists_eq_add_of_le' (Nat.le_trans (Nat.le_add_left 1 bound) enough)
  rw [isTurn, ← same]
  exact answers fuel (Nat.le_of_succ_le_succ enough)

/-- A turn of the loop that returns. -/
theorem Decides.stop {pattern s : List Char} {mp cp : Option (List Char)} {statement : Prop}
    (answer : Bool) (isStop : ∀ fuel, matchTail (fuel + 1) pattern s mp cp = some answer)
    (same : answer = true ↔ statement) : Decides pattern s mp cp statement := by
  refine ⟨1, fun fuel enough => ⟨answer, ?_, same⟩⟩
  obtain ⟨fuel, rfl⟩ := Nat.exists_eq_add_of_le' enough
  exact isStop fuel

theorem decides_end {pattern : List Char} {mp cp : Option (List Char)} :
    Decides pattern [] mp cp (Matches pattern []) :=
  .stop _ (fun _ => rfl) matches_nil_right.symm

theorem matchTail_star {pattern s : List Char} {c : Char} {mp cp : Option (List Char)}
    (fuel : ℕ) : matchTail (fuel + 1) ('*' :: pattern) (c :: s) mp cp =
      if pattern = [] then some true
      else matchTail fuel pattern (c :: s) (some pattern) (some s) := rfl

theorem matchTail_stands {pattern s : List Char} {p c : Char} {mp cp : Option (List Char)}
    (stands : Stands p c) (fuel : ℕ) :
    matchTail (fuel + 1) (p :: pattern) (c :: s) mp cp = matchTail fuel pattern s mp cp := by
  simp only [matchTail, stands.1, stands.2, if_true, if_false]

/-- The character does not go on with the pattern. -/
def Stuck (pattern : List Char) (c : Char) : Prop :=
  ∀ p ∈ pattern.head?, p ≠ '*' ∧ p ≠ c ∧ p ≠ '?'

theorem matchTail_stuck {pattern s marked behind : List Char} {c : Char}
    (stuck : Stuck pattern c) (fuel : ℕ) :
    matchTail (fuel + 1) pattern (c :: s) (some marked) (some behind) =
      matchTail fuel marked behind (some marked) (some behind.tail) := by
  rcases pattern with _ | ⟨p, pattern⟩
  · rfl
  · obtain ⟨notStar, notSame, notAny⟩ := stuck p rfl
    simp only [matchTail, notStar, notSame, notAny, if_false, or_self]
    rfl

theorem Stuck.not_matches {pattern s : List Char} {c : Char} (stuck : Stuck pattern c) :
    ¬ Matches pattern (c :: s) := by
  intro isMatch
  rcases pattern with _ | ⟨p, pattern⟩
  · cases isMatch
  · obtain ⟨notStar, notSame, notAny⟩ := stuck p rfl
    obtain ⟨d, rest, isText, stands, -⟩ := (matches_cons notStar).mp isMatch
    obtain ⟨rfl, -⟩ := List.cons.inj isText
    exact stands.2.elim notSame notAny

/-- What the loop can meet: a star, a character that stands for the next one, or neither. -/
theorem star_or_stands_or_stuck (pattern : List Char) (c : Char) :
    (∃ rest, pattern = '*' :: rest) ∨
      (∃ p rest, pattern = p :: rest ∧ Stands p c) ∨ Stuck pattern c := by
  rcases pattern with _ | ⟨p, rest⟩
  · refine Or.inr (Or.inr ?_)
    intro p isHead
    contradiction
  · by_cases isStar : p = '*'
    · exact Or.inl ⟨rest, by rw [isStar]⟩
    · by_cases same : p = c ∨ p = '?'
      · exact Or.inr (Or.inl ⟨p, rest, rfl, isStar, same⟩)
      · rw [not_or] at same
        refine Or.inr (Or.inr ?_)
        rintro q ⟨⟩
        exact ⟨isStar, same⟩

/-- The loop decides a star, begun at a place and marked there. -/
def DecidesStar (marked string : List Char) : Prop :=
  Decides marked string (some marked) (some string.tail) (Matches ('*' :: marked) string)

/--
The invariant of the second loop: since the last star, the segment `segment` of the pattern has
been aligned with the text behind it. The loop goes on to a shorter pattern behind a star, to
the next place where the star can end, or to the next character.
-/
theorem decides_segment {segment pattern text s behind : List Char} {c : Char}
    (later : ∀ rest string, rest.length < (segment ++ pattern).length →
      DecidesStar rest string)
    (retry : DecidesStar (segment ++ pattern) behind)
    (isText : c :: behind = text ++ s) (aligned : Aligned segment text) :
    Decides pattern s (some (segment ++ pattern)) (some behind)
      (Matches ('*' :: (segment ++ pattern)) (c :: behind)) := by
  induction s generalizing segment pattern text with
  | nil =>
      apply Decides.stop _ (fun _ => rfl)
      rw [← matches_nil_right, isText]
      constructor
      · intro isMatch
        exact .star [] ((matches_aligned aligned).mpr isMatch)
      · intro isMatch
        obtain ⟨skipped, rest, isNil, isRest⟩ := matches_earliest aligned isMatch
        obtain ⟨-, rfl⟩ := List.append_eq_nil_iff.mp isNil.symm
        exact isRest
  | cons d s ih =>
      rcases star_or_stands_or_stuck pattern d with ⟨rest, rfl⟩ | ⟨p, rest, rfl, stands⟩ | stuck
      · -- The star behind the segment may as well begin here.
        have same : Matches ('*' :: rest) (d :: s) ↔
            Matches ('*' :: (segment ++ '*' :: rest)) (c :: behind) := by
          rw [isText]
          constructor
          · intro isMatch
            exact .star [] ((matches_aligned aligned).mpr isMatch)
          · intro isMatch
            obtain ⟨skipped, string, isSkipped, isRest⟩ := matches_earliest aligned isMatch
            rw [isSkipped]
            exact isRest.skip skipped
        by_cases isLast : rest = []
        · subst isLast
          refine .stop true (fun fuel => matchTail_star fuel) ?_
          rw [← same, ← List.append_nil (d :: s)]
          exact iff_of_true rfl (.star _ .nil)
        · have isShorter : rest.length < (segment ++ '*' :: rest).length := by
            rw [List.length_append, List.length_cons]
            omega
          refine (later rest (d :: s) isShorter).turn (fun fuel => ?_) same
          rw [matchTail_star, if_neg isLast]
          rfl
      · have isSame : (segment ++ [p]) ++ rest = segment ++ p :: rest := by
          rw [List.append_assoc, List.singleton_append]
        rw [← isSame] at later retry ⊢
        apply (ih later retry _ _).turn (matchTail_stands stands) Iff.rfl
        · exact text ++ [d]
        · rw [isText, List.append_assoc, List.singleton_append]
        · exact List.rel_append aligned (.cons stands .nil)
      · -- The star has to take one more character.
        apply retry.turn (matchTail_stuck stuck)
        rw [matches_star_cons, isText, matches_aligned aligned]
        exact (or_iff_right stuck.not_matches).symm

/-- Patterns get shorter from star to star, and the string from one end of a star to the next. -/
theorem decides_star (marked string : List Char) : DecidesStar marked string := by
  induction isLength : marked.length using Nat.strongRecOn generalizing marked string with
  | ind length ih =>
      subst isLength
      induction string with
      | nil =>
          apply Decides.stop _ (fun _ => rfl)
          rw [← matches_nil_right, matches_nil_right, matches_nil_right,
            List.dropWhile_cons_of_pos (by simp)]
      | cons c behind retry =>
          have aligned : Aligned [] [] := .nil
          have later : ∀ rest string, rest.length < ([] ++ marked).length →
              DecidesStar rest string := by
            intro rest string isShorter
            exact ih rest.length isShorter rest string rfl
          exact decides_segment later retry rfl aligned

theorem decides_tail {pattern s : List Char} (begins : s = [] ∨ ∃ rest, pattern = '*' :: rest) :
    Decides pattern s none none (Matches pattern s) := by
  rcases s with _ | ⟨c, s⟩
  · exact decides_end
  · rcases begins with isNil | ⟨rest, rfl⟩
    · contradiction
    · by_cases isLast : rest = []
      · subst isLast
        refine .stop true (fun fuel => matchTail_star fuel) ?_
        rw [← List.append_nil (c :: s)]
        exact iff_of_true rfl (.star _ .nil)
      · refine (decides_star rest (c :: s)).turn (fun fuel => ?_) Iff.rfl
        rw [matchTail_star, if_neg isLast]
        rfl

/--
The matcher returns for every pattern and every string, and says whether the string matches.
-/
theorem patternMatch_matches (pattern s : List Char) :
    ∃ bound, ∀ fuel ≥ bound, ∃ answer, patternMatch fuel pattern s = some answer ∧
      (answer = true ↔ Matches pattern s) := by
  have head := matchHead_spec pattern s
  rcases isHead : matchHead pattern s with _ | ⟨pattern', s'⟩
  · rw [isHead] at head
    refine ⟨0, fun fuel _ => ⟨false, ?_, ?_⟩⟩
    · rw [patternMatch, isHead]
    · exact iff_of_false Bool.false_ne_true head
  · rw [isHead] at head
    obtain ⟨same, begins⟩ := head
    obtain ⟨bound, answers⟩ := decides_tail begins
    refine ⟨bound, fun fuel enough => ?_⟩
    obtain ⟨answer, isAnswer, isMatch⟩ := answers fuel enough
    refine ⟨answer, ?_, isMatch.trans same.symm⟩
    rw [patternMatch, isHead]
    exact isAnswer

example : patternMatch 20 "a*b?*c".toList "aabxbbxc".toList = some true := by decide

end Osix.Shell
