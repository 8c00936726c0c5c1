import Osix.User.Shell

/-!
# Turns of the tokenizer

The loop of `tokenize` with enough fuel, `scan`, has an equation for every kind of token that
can stand at its cursor.
-/

namespace Osix.Shell

open Ctype

/-! ## Fuel -/

theorem scanToken_length {quote : Bool} {text token after : List Char} {last : Bool}
    (scanned : scanToken quote text = some (token, last, after)) :
    token.length + after.length = text.length := by
  fun_induction scanToken quote text generalizing token last after <;>
    grind [Option.bind_eq_some_iff]

variable {stack : UserStack 2} {getenv : List Char → Option (List Char)}

/-- The flags take at least the operator. -/
theorem redirFlags_length (cmd : Command) (c : Char) (rest : List Char) :
    (redirFlags cmd (c :: rest)).2.2.length ≤ rest.length := by
  unfold redirFlags
  split <;> simp_all

/-- What is left behind the flags and the target. -/
def behindTarget (cmd : Command) (text : List Char) : List Char :=
  ((redirFlags cmd text).2.2.dropWhile (· = ' ')).dropWhile inTarget

theorem behindTarget_length (cmd : Command) (c : Char) (rest : List Char) :
    (behindTarget cmd (c :: rest)).length ≤ rest.length := by
  have flagsLength := redirFlags_length cmd c rest
  have spacesLength := ((redirFlags cmd (c :: rest)).2.2.dropWhile_sublist (· = ' ')).length_le
  have targetLength := (((redirFlags cmd (c :: rest)).2.2.dropWhile
    (· = ' ')).dropWhile_sublist inTarget).length_le
  unfold behindTarget
  omega

/-- The command after the first redirection of a text. -/
def redirOnce (getenv : List Char → Option (List Char)) (cmd : Command) (text : List Char) :
    Command :=
  let (isInput, cmd, p) := redirFlags cmd text
  let target := expandVariable getenv ((p.dropWhile (· = ' ')).takeWhile inTarget)
  if isInput then { cmd with input := some target } else { cmd with output := some target }

/-- Another redirection follows at once. -/
def redirAhead (text : List Char) : Bool := text.head? = some '<' ∨ text.head? = some '>'

theorem parseRedir_succ (fuel : ℕ) (cmd : Command) (text : List Char) :
    parseRedir getenv (fuel + 1) cmd text =
      if redirAhead (behindTarget cmd text) then
        parseRedir getenv fuel (redirOnce getenv cmd text) (behindTarget cmd text)
      else some (redirOnce getenv cmd text, behindTarget cmd text) := by
  rw [parseRedir]
  dsimp only
  split
  case h_1 rest isRest =>
    have isBehind : behindTarget cmd text = '<' :: rest := isRest
    change parseRedir getenv fuel (redirOnce getenv cmd text) ('<' :: rest) = _
    simp [redirAhead, isBehind]
  case h_2 rest isRest =>
    have isBehind : behindTarget cmd text = '>' :: rest := isRest
    change parseRedir getenv fuel (redirOnce getenv cmd text) ('>' :: rest) = _
    simp [redirAhead, isBehind]
  case h_3 notInput notOutput =>
    change some (redirOnce getenv cmd text, behindTarget cmd text) = _
    rcases isBehind : behindTarget cmd text with _ | ⟨c, behind⟩
    · simp [redirAhead]
    · have noInput : c ≠ '<' := fun isInput => notInput behind (by rw [← isInput]; exact isBehind)
      have noOutput : c ≠ '>' := fun isOutput =>
        notOutput behind (by rw [← isOutput]; exact isBehind)
      simp [redirAhead, noInput, noOutput]

theorem parseRedir_length {fuel : ℕ} {cmd cmd' : Command} {c : Char} {rest after : List Char}
    (parsed : parseRedir getenv fuel cmd (c :: rest) = some (cmd', after)) :
    after.length ≤ rest.length := by
  induction fuel generalizing cmd c rest with
  | zero => simp [parseRedir] at parsed
  | succ fuel ih =>
      have targetLength := behindTarget_length cmd c rest
      rw [parseRedir_succ] at parsed
      split at parsed
      case isFalse =>
        grind
      case isTrue ahead =>
        rcases isBehind : behindTarget cmd (c :: rest) with _ | ⟨d, behind⟩
        · simp [redirAhead, isBehind] at ahead
        · rw [isBehind] at parsed targetLength
          have := ih parsed
          grind

/-! ## The loop with enough fuel -/

section

variable {loop loop' : Cursor → List Char → Option Cursor}

/-- Only a shorter text is left for the next turn. -/
theorem dispatch_congr {cursor : Cursor} {text : List Char}
    (same : ∀ cursor rest, rest.length ≤ text.length - 1 → loop cursor rest = loop' cursor rest) :
    dispatch stack getenv loop cursor text = dispatch stack getenv loop' cursor text := by
  unfold dispatch
  split
  case h_1 => exact same _ _ (by simp)
  case h_2 => exact same _ _ (by simp)
  case h_3 =>
    congr 1
    funext ended
    exact same _ _ (by simp)
  case h_4 c rest _ _ =>
    split
    · rcases isParsed : parseRedir getenv stack.calls cursor.command (c :: rest) with
        _ | ⟨command, after⟩
      · rfl
      · have afterLength := parseRedir_length isParsed
        simp only [Option.bind_eq_bind, Option.bind_some]
        congr 1
        funext changed
        apply same
        simp only [List.length_drop, List.length_cons]
        omega
    · exact same _ _ (by simp)

end

theorem tokenizeLoop_fuel {fuel fuel' : ℕ} {cursor : Cursor} {text : List Char}
    (enough : text.length < fuel) (enough' : text.length < fuel') :
    tokenizeLoop stack getenv fuel cursor text = tokenizeLoop stack getenv fuel' cursor text := by
  induction fuel generalizing fuel' cursor text with
  | zero => omega
  | succ fuel ih =>
      obtain ⟨fuel', rfl⟩ := Nat.exists_eq_succ_of_ne_zero (Nat.ne_zero_of_lt enough')
      have spacesLength := (text.dropWhile_sublist isspace).length_le
      rw [tokenizeLoop, tokenizeLoop]
      split
      case h_1 => rfl
      case h_2 c rest isRest =>
        rw [isRest, List.length_cons] at spacesLength
        rcases isScanned : scanToken cursor.quote (c :: rest) with _ | ⟨token, quote, after⟩
        · rfl
        · have scanLength := scanToken_length isScanned
          rw [List.length_cons] at scanLength
          simp only [Option.bind_eq_bind, Option.bind_some]
          congr 1
          funext stored
          apply dispatch_congr
          intro cursor behind behindLength
          exact ih (by omega) (by omega)

/-- The loop with enough fuel. -/
def scan (stack : UserStack 2) (getenv : List Char → Option (List Char)) (cursor : Cursor)
    (text : List Char) : Option Cursor :=
  tokenizeLoop stack getenv (text.length + 1) cursor text

theorem tokenizeLoop_eq_scan {fuel : ℕ} {cursor : Cursor} {text : List Char}
    (enough : text.length < fuel) :
    tokenizeLoop stack getenv fuel cursor text = scan stack getenv cursor text :=
  tokenizeLoop_fuel enough (Nat.lt_succ_self _)

/-- A turn of the loop at a token. -/
theorem scan_cons {cursor : Cursor} {c : Char} {rest : List Char} (notSpace : isspace c = false) :
    scan stack getenv cursor (c :: rest) =
      (scanToken cursor.quote (c :: rest)).bind fun (token, quote, after) =>
        ({ cursor with quote := quote }.storeToken token).bind fun stored =>
          dispatch stack getenv (scan stack getenv) stored after := by
  rw [scan, List.length_cons, tokenizeLoop, dropWhile_of_not notSpace]
  dsimp only
  rcases isScanned : scanToken cursor.quote (c :: rest) with _ | ⟨token, quote, after⟩
  · rfl
  · have scanLength := scanToken_length isScanned
    rw [List.length_cons] at scanLength
    simp only [Option.bind_eq_bind, Option.bind_some]
    congr 1
    funext stored
    apply dispatch_congr
    intro cursor behind behindLength
    exact tokenizeLoop_eq_scan (by omega)

theorem scan_nil (cursor : Cursor) : scan stack getenv cursor [] = some cursor := by
  simp [scan, tokenizeLoop]

theorem scan_space {cursor : Cursor} {c : Char} {rest : List Char} (space : isspace c = true) :
    scan stack getenv cursor (c :: rest) = scan stack getenv cursor rest := by
  have enough : rest.length < (c :: rest).length + 1 := by
    simp only [List.length_cons]
    omega
  rw [← tokenizeLoop_eq_scan enough]
  rw [scan, tokenizeLoop, tokenizeLoop, List.dropWhile_cons_of_pos space]

theorem scan_spaces {cursor : Cursor} {blanks rest : List Char}
    (spaces : ∀ c ∈ blanks, isspace c = true) :
    scan stack getenv cursor (blanks ++ rest) = scan stack getenv cursor rest := by
  induction blanks with
  | nil => rfl
  | cons c blanks ih =>
      rw [List.cons_append, scan_space (spaces c List.mem_cons_self)]
      apply ih
      intro d isIn
      exact spaces d (List.mem_cons_of_mem c isIn)

/-! ## Tokens at the cursor -/

theorem not_isspace_of_isOperator {c : Char} (operator : isOperator c = true) :
    isspace c = false := by
  rw [isOperator, decide_eq_true_eq] at operator
  simp only [List.mem_cons, List.not_mem_nil, or_false] at operator
  rcases operator with rfl | rfl | rfl | rfl <;> decide

theorem scanToken_stop {quote : Bool} {c : Char} {rest : List Char}
    (stop : isspace c ∧ !quote ∨ isOperator c) :
    scanToken quote (c :: rest) = some ([], quote, c :: rest) := by
  unfold scanToken
  exact if_pos stop

theorem scan_operator {cursor : Cursor} {c : Char} {rest : List Char}
    (operator : isOperator c = true) :
    scan stack getenv cursor (c :: rest) =
      dispatch stack getenv (scan stack getenv) cursor (c :: rest) := by
  rw [scan_cons (not_isspace_of_isOperator operator)]
  simp [scanToken_stop (Or.inr operator), Cursor.storeToken]

theorem scan_pipe (cursor : Cursor) (rest : List Char) :
    scan stack getenv cursor ('|' :: rest) =
      scan stack getenv { cursor with cmd := cursor.cmd + 1, arg := 0 } rest := by
  rw [scan_operator (by decide), dispatch]

theorem scan_semi (cursor : Cursor) (rest : List Char) :
    scan stack getenv cursor (';' :: rest) =
      cursor.endPipeline.bind (scan stack getenv · rest) := by
  rw [scan_operator (by decide), dispatch]

/-- The text ends here, or goes on with something that is not of a word. -/
def WordEnds (text : List Char) : Prop :=
  ∀ c ∈ text.head?, isspace c = true ∨ isOperator c = true

theorem dispatch_eq_scan {cursor : Cursor} {text : List Char} (ends : WordEnds text) :
    dispatch stack getenv (scan stack getenv) cursor text = scan stack getenv cursor text := by
  rcases text with _ | ⟨c, rest⟩
  · rw [dispatch]
  · rcases ends c rfl with space | operator
    · rw [scan_space space]
      unfold dispatch
      split
      · contradiction
      · simp_all [isspace]
      · simp_all [isspace]
      · rw [if_neg]
        · simp_all
        · rintro (isInput | isOutput) <;> simp_all [isspace]
    · rw [scan_operator operator]

theorem isPlain_iff {c : Char} :
    isPlain c = true ↔ isspace c = false ∧ isOperator c = false ∧
      c ≠ '\"' ∧ c ≠ '\\' ∧ c ≠ '#' ∧ c ≠ '$' ∧ c ≠ '\x00' := by
  simp [isPlain, and_assoc]

theorem scanToken_word {word rest : List Char} (plain : ∀ c ∈ word, isPlain c = true)
    (ends : WordEnds rest) :
    scanToken false (word ++ rest) = some (word, false, rest) := by
  induction word with
  | nil =>
      rcases rest with _ | ⟨c, rest⟩
      · simp [scanToken]
      · exact scanToken_stop (by simpa using ends c rfl)
  | cons c word ih =>
      obtain ⟨notSpace, notOperator, notQuote, notBackslash, -⟩ :=
        isPlain_iff.mp (plain c List.mem_cons_self)
      have isRest := ih fun d isIn => plain d (List.mem_cons_of_mem c isIn)
      rw [List.cons_append]
      unfold scanToken
      simp [notSpace, notOperator, notQuote, notBackslash, isRest]

theorem copyToken_word {word : List Char} (plain : ∀ c ∈ word, isPlain c = true) :
    copyToken false word = word := by
  induction word with
  | nil => rw [copyToken]
  | cons c word ih =>
      obtain ⟨-, -, notQuote, notBackslash, -⟩ := isPlain_iff.mp (plain c List.mem_cons_self)
      have isRest := ih fun d isIn => plain d (List.mem_cons_of_mem c isIn)
      rw [copyToken, isRest]
      · exact notQuote
      · intro d rest isBackslash
        exact absurd isBackslash notBackslash

theorem scan_word {cursor : Cursor} {word : Word} {rest : List Char}
    (unquoted : cursor.quote = false) (ends : WordEnds rest) :
    scan stack getenv cursor (word.text ++ rest) =
      (cursor.storeToken word.text).bind fun stored => scan stack getenv stored rest := by
  rcases isText : word.text with _ | ⟨c, text⟩
  · exact absurd isText word.notEmpty
  · have plain := word.plain
    rw [isText] at plain
    have notSpace := (isPlain_iff.mp (plain c List.mem_cons_self)).1
    rw [List.cons_append, scan_cons notSpace, ← List.cons_append, unquoted,
      scanToken_word plain ends]
    simp only [Option.bind_some, dispatch_eq_scan ends]
    rw [← unquoted]

/-! ## Redirections at the cursor -/

theorem Cursor.setCommand_twice {cursor changed : Cursor} {command : Command}
    (isSet : cursor.setCommand command = some changed) :
    changed.command = command ∧
      ∀ other, changed.setCommand other = cursor.setCommand other := by
  unfold Cursor.setCommand at isSet
  split at isSet
  case isTrue fits =>
    cases isSet
    refine ⟨by simp [Cursor.command], ?_⟩
    intro other
    simp [Cursor.setCommand, fits]
  case isFalse =>
    contradiction

theorem Cursor.setCommand_none {cursor : Cursor} {command other : Command}
    (notSet : cursor.setCommand command = none) : cursor.setCommand other = none := by
  unfold Cursor.setCommand at notSet ⊢
  split at notSet
  · contradiction
  · rename_i full
    exact if_neg full

/-- The loop goes on with redirections, with room on the stack for so many calls. -/
def scanRedirs (stack : UserStack 2) (getenv : List Char → Option (List Char)) (calls : ℕ)
    (cursor : Cursor) (text : List Char) : Option Cursor :=
  (parseRedir getenv calls cursor.command text).bind fun (command, after) =>
    (cursor.setCommand command).bind fun changed => scan stack getenv changed (after.drop 1)

theorem scan_redirOp {cursor : Cursor} {c : Char} {rest : List Char} (redir : c = '<' ∨ c = '>') :
    scan stack getenv cursor (c :: rest) =
      scanRedirs stack getenv stack.calls cursor (c :: rest) := by
  have operator : isOperator c = true := by
    rcases redir with rfl | rfl <;> decide
  rw [scan_operator operator]
  unfold dispatch
  split
  · contradiction
  · simp_all
  · simp_all
  · rename_i isText
    cases isText
    rw [if_pos redir]
    rfl

/-- A redirection of a command. -/
def Command.redirect (cmd : Command) (target : List Char) : Op → Command
  | .input => { cmd with input := some target }
  | .output => { cmd with output := some target }
  | .append => { cmd with output := some target, append := true }

/-- A string that a redirection can name. -/
structure Target (target : List Char) : Prop where
  goesOn : ∀ c ∈ target, inTarget c = true
  begins : ∃ c rest, target = c :: rest ∧ c ≠ '$'

/-- The text ends here, or goes on with something that ends a target. -/
def TargetEnds (text : List Char) : Prop := ∀ c ∈ text.head?, inTarget c = false

section

variable {cmd : Command} {op : Op} {blanks target rest : List Char}

theorem redirFlags_op {p : List Char} (notOutput : p.head? ≠ some '>') :
    redirFlags cmd (op.text ++ p) =
      (decide (op = .input), if op = .append then { cmd with append := true } else cmd, p) := by
  rcases p with _ | ⟨c, p⟩
  · cases op <;> rfl
  · have notEqual : c ≠ '>' := by simpa using notOutput
    cases op <;> simp [Op.text, redirFlags, notEqual]

theorem inTarget_ne {c : Char} (goesOn : inTarget c = true) : c ≠ ' ' ∧ c ≠ '>' := by
  constructor <;> rintro rfl <;> revert goesOn <;> decide

theorem expandVariable_target (isTarget : Target target) :
    expandVariable getenv target = target := by
  obtain ⟨c, rest, rfl, notDollar⟩ := isTarget.begins
  unfold expandVariable
  split
  · simp_all
  · rfl

theorem dropWhile_spaces (spaces : ∀ c ∈ blanks, c = ' ') (isTarget : Target target) :
    (blanks ++ (target ++ rest)).dropWhile (· = ' ') = target ++ rest := by
  rw [List.dropWhile_append_of_pos (by simpa using spaces)]
  obtain ⟨c, behind, rfl, -⟩ := isTarget.begins
  have notSpace := (inTarget_ne (isTarget.goesOn c List.mem_cons_self)).1
  rw [List.cons_append, List.dropWhile_cons_of_neg (by simpa using notSpace)]

theorem takeWhile_target (isTarget : Target target) (ends : TargetEnds rest) :
    (target ++ rest).takeWhile inTarget = target := by
  rw [List.takeWhile_append_of_pos isTarget.goesOn]
  rcases rest with _ | ⟨c, rest⟩
  · simp
  · simp [ends c rfl]

theorem dropWhile_target (isTarget : Target target) (ends : TargetEnds rest) :
    (target ++ rest).dropWhile inTarget = rest := by
  rw [List.dropWhile_append_of_pos isTarget.goesOn]
  rcases rest with _ | ⟨c, rest⟩
  · simp
  · simp [ends c rfl]

theorem head_not_output (spaces : ∀ c ∈ blanks, c = ' ') (isTarget : Target target) :
    (blanks ++ (target ++ rest)).head? ≠ some '>' := by
  rcases blanks with _ | ⟨b, blanks⟩
  · obtain ⟨c, behind, rfl, -⟩ := isTarget.begins
    have notOutput := (inTarget_ne (isTarget.goesOn c List.mem_cons_self)).2
    simpa using notOutput
  · have isSpace := spaces b List.mem_cons_self
    simp [isSpace]

theorem behindTarget_op (spaces : ∀ c ∈ blanks, c = ' ') (isTarget : Target target)
    (ends : TargetEnds rest) :
    behindTarget cmd (op.text ++ (blanks ++ (target ++ rest))) = rest := by
  rw [behindTarget, redirFlags_op (head_not_output spaces isTarget),
    dropWhile_spaces spaces isTarget, dropWhile_target isTarget ends]

theorem redirOnce_op (spaces : ∀ c ∈ blanks, c = ' ') (isTarget : Target target)
    (ends : TargetEnds rest) :
    redirOnce getenv cmd (op.text ++ (blanks ++ (target ++ rest))) = cmd.redirect target op := by
  rw [redirOnce, redirFlags_op (head_not_output spaces isTarget)]
  simp only [dropWhile_spaces spaces isTarget, takeWhile_target isTarget ends,
    expandVariable_target isTarget]
  cases op <;> simp [Command.redirect]

/-- Unless another redirection follows at once, a character behind the target is lost. -/
theorem scanRedirs_succ {cursor : Cursor} (calls : ℕ) (spaces : ∀ c ∈ blanks, c = ' ')
    (isTarget : Target target) (ends : TargetEnds rest) :
    scanRedirs stack getenv (calls + 1) cursor (op.text ++ (blanks ++ (target ++ rest))) =
      (cursor.setCommand (cursor.command.redirect target op)).bind fun changed =>
        if redirAhead rest then scanRedirs stack getenv calls changed rest
        else scan stack getenv changed (rest.drop 1) := by
  have isBehind := @behindTarget_op cursor.command op _ _ _ spaces isTarget ends
  have isOnce := @redirOnce_op getenv cursor.command op _ _ _ spaces isTarget ends
  rw [scanRedirs, parseRedir_succ, isBehind, isOnce]
  split
  case isFalse => simp
  case isTrue ahead =>
    rcases isSet : cursor.setCommand (cursor.command.redirect target op) with _ | changed
    · simp [Cursor.setCommand_none isSet]
    · obtain ⟨isCommand, setAgain⟩ := Cursor.setCommand_twice isSet
      simp only [Option.bind_some, scanRedirs, isCommand, setAgain]

end

end Osix.Shell
