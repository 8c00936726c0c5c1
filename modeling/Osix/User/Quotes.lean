import Osix.User.Tokens

/-!
# Quoted words

A line of words in double quotes, as `truncate_comments` and `tokenize` of `bin/sh.c` take it.
The quotes keep blanks and `#`, but the scan of a token stops at an operator, quoted or not.
What is cut off there stays in the table of arguments.
-/

namespace Osix.Shell

open Ctype

/-- `truncate_comments`. -/
def truncateComments (quote : Bool) (lastChar : Char) : List Char → List Char
  | [] => []
  | c :: rest =>
      let quote := if c = '\"' ∧ lastChar ≠ '\\' then !quote else quote
      if !quote ∧ c = '#' ∧ lastChar ≠ '\\' then [] else c :: truncateComments quote c rest

/-- A character that may stand between quotes. -/
def isQuotable (c : Char) : Bool := c ∉ ['\"', '\\', '\x00']

def doubleQuote (word : List Char) : List Char := '\"' :: (word ++ ['\"'])

/-- Quoted words with single spaces between them. -/
def joinQuoted : List (List Char) → List Char
  | [] => []
  | [word] => doubleQuote word
  | word :: next :: rest => doubleQuote word ++ ' ' :: joinQuoted (next :: rest)

/-- A line of quoted words, perhaps with the newline that `fgets` leaves. -/
structure QuotedLine where
  words : List (List Char)
  newline : Bool
  few : words.length ≤ 100
  quotable : ∀ word ∈ words, ∀ c ∈ word, isQuotable c = true

namespace QuotedLine

def ending (line : QuotedLine) : List Char := if line.newline then ['\n'] else []

def text (line : QuotedLine) : List Char := joinQuoted line.words ++ line.ending

/-- The line is a pipeline of one command with the words as its arguments. -/
def Protected (stack : UserStack 2) (getenv : List Char → Option (List Char))
    (line : QuotedLine) : Prop :=
  ∃ tables, tokenize stack getenv (truncateComments false '\x00' line.text) = some tables ∧
    tables.count = 1 ∧ (tables.pipelines 0).count = 1 ∧
    (∀ index, ((tables.pipelines 0).cmds 0).argv index = line.words[index]?) ∧
    ((tables.pipelines 0).cmds 0).input = none ∧ ((tables.pipelines 0).cmds 0).output = none

end QuotedLine

/-- There is no operator in a word. -/
def NoOperator (word : List Char) : Prop := ∀ c ∈ word, isOperator c = false

theorem isQuotable_ne {c : Char} (quotable : isQuotable c = true) : c ≠ '\"' ∧ c ≠ '\\' := by
  simp only [isQuotable, List.mem_cons, not_or, decide_eq_true_eq] at quotable
  exact ⟨quotable.1, quotable.2.1⟩

/-! ## Comments -/

section

variable {word rest : List Char}

theorem truncateComments_inside (quotable : ∀ c ∈ word, isQuotable c = true) {lastChar : Char}
    (notBackslash : lastChar ≠ '\\') :
    truncateComments true lastChar (word ++ '\"' :: rest) =
      word ++ '\"' :: truncateComments false '\"' rest := by
  induction word generalizing lastChar with
  | nil => simp [truncateComments, notBackslash]
  | cons c word ih =>
      have isPlain := isQuotable_ne (quotable c List.mem_cons_self)
      have isRest := ih (fun d isIn => quotable d (List.mem_cons_of_mem c isIn)) isPlain.2
      simp [truncateComments, isPlain.1, isRest]

theorem truncateComments_quote (quotable : ∀ c ∈ word, isQuotable c = true) {lastChar : Char}
    (notBackslash : lastChar ≠ '\\') :
    truncateComments false lastChar (doubleQuote word ++ rest) =
      doubleQuote word ++ truncateComments false '\"' rest := by
  have isInside := @truncateComments_inside word rest quotable '\"' (by decide)
  simp [doubleQuote, truncateComments, notBackslash, isInside]

end

/-- Nothing is truncated in a line of quoted words. -/
theorem truncateComments_joinQuoted {words : List (List Char)} {ending : List Char}
    {lastChar : Char} (quotable : ∀ word ∈ words, ∀ c ∈ word, isQuotable c = true)
    (notBackslash : lastChar ≠ '\\') (isEnding : ending = [] ∨ ending = ['\n']) :
    truncateComments false lastChar (joinQuoted words ++ ending) = joinQuoted words ++ ending := by
  have ends : ∀ lastChar, truncateComments false lastChar ending = ending := by
    intro lastChar
    rcases isEnding with rfl | rfl <;> simp [truncateComments]
  induction words generalizing lastChar with
  | nil => exact ends lastChar
  | cons word words ih =>
      have isFirst := quotable word List.mem_cons_self
      cases words with
      | nil => rw [joinQuoted, truncateComments_quote isFirst notBackslash, ends]
      | cons next words =>
          have isRest := @ih ' ' (fun w isIn => quotable w (List.mem_cons_of_mem word isIn))
            (by decide)
          rw [joinQuoted, List.append_assoc, truncateComments_quote isFirst notBackslash,
            List.cons_append]
          simp [truncateComments, isRest]

/-! ## Tokens in quotes -/

section

variable {word rest : List Char}

/-- The scan goes on. -/
theorem scanToken_cons {inQuotes : Bool} {c : Char}
    (goesOn : ¬ (isspace c = true ∧ (!inQuotes) = true ∨ isOperator c = true))
    (notBackslash : c ≠ '\\') :
    scanToken inQuotes (c :: rest) =
      (scanToken (if c = '\"' then !inQuotes else inQuotes) rest).map
        fun (token, quote, after) => (c :: token, quote, after) := by
  conv_lhs => unfold scanToken
  rw [if_neg goesOn, if_neg notBackslash]
  generalize scanToken (if c = '\"' then !inQuotes else inQuotes) rest = scanned
  rcases scanned with _ | ⟨token, quote, after⟩ <;> rfl

theorem scanToken_open :
    scanToken false ('\"' :: rest) =
      (scanToken true rest).map fun (token, quote, after) => ('\"' :: token, quote, after) :=
  scanToken_cons (by decide) (by decide)

theorem scanToken_close :
    scanToken true ('\"' :: rest) =
      (scanToken false rest).map fun (token, quote, after) => ('\"' :: token, quote, after) :=
  scanToken_cons (by decide) (by decide)

theorem scanToken_inside (quotable : ∀ c ∈ word, isQuotable c = true)
    (noOperator : NoOperator word) :
    scanToken true (word ++ rest) =
      (scanToken true rest).map fun (token, quote, after) => (word ++ token, quote, after) := by
  induction word with
  | nil => simp
  | cons c word ih =>
      have isPlain := isQuotable_ne (quotable c List.mem_cons_self)
      have notOperator := noOperator c List.mem_cons_self
      have isRest := ih (fun d isIn => quotable d (List.mem_cons_of_mem c isIn))
        (fun d isIn => noOperator d (List.mem_cons_of_mem c isIn))
      rw [List.cons_append, scanToken_cons (by simp [notOperator]) isPlain.2, if_neg isPlain.1,
        isRest, Option.map_map]
      rfl

theorem scanToken_quote (quotable : ∀ c ∈ word, isQuotable c = true)
    (noOperator : NoOperator word) (ends : WordEnds rest) :
    scanToken false (doubleQuote word ++ rest) = some (doubleQuote word, false, rest) := by
  have isEnd : scanToken false rest = some ([], false, rest) := by
    rcases rest with _ | ⟨c, rest⟩
    · simp [scanToken]
    · exact scanToken_stop (by simpa using ends c rfl)
  rw [doubleQuote, List.cons_append, scanToken_open, List.append_assoc,
    scanToken_inside quotable noOperator, List.singleton_append, scanToken_close, isEnd]
  rfl

/-- The scan stops at an operator inside of the quotes. -/
theorem scanToken_cut {c : Char} (quotable : ∀ c ∈ word, isQuotable c = true)
    (noOperator : NoOperator word) (operator : isOperator c = true) :
    scanToken false ('\"' :: (word ++ c :: rest)) = some ('\"' :: word, true, c :: rest) := by
  rw [scanToken_open, scanToken_inside quotable noOperator, scanToken_stop (Or.inr operator)]
  simp

theorem copyToken_inside (quotable : ∀ c ∈ word, isQuotable c = true) :
    copyToken true (word ++ rest) = word ++ copyToken true rest := by
  induction word with
  | nil => rfl
  | cons c word ih =>
      have isPlain := isQuotable_ne (quotable c List.mem_cons_self)
      have isRest := ih fun d isIn => quotable d (List.mem_cons_of_mem c isIn)
      rw [List.cons_append, copyToken, isRest]
      · rfl
      · exact isPlain.1
      · intro d behind isBackslash
        exact absurd isBackslash isPlain.2

theorem copyToken_cut (quotable : ∀ c ∈ word, isQuotable c = true) :
    copyToken false ('\"' :: word) = word := by
  have isInside := @copyToken_inside word [] quotable
  rw [List.append_nil] at isInside
  rw [copyToken, Bool.not_false, isInside, copyToken, List.append_nil]

theorem copyToken_quote (quotable : ∀ c ∈ word, isQuotable c = true) :
    copyToken false (doubleQuote word) = word := by
  rw [doubleQuote, copyToken, Bool.not_false, copyToken_inside quotable, copyToken, copyToken,
    List.append_nil]

end

/-! ## The arguments so far -/

/-- The command with these arguments, which were quoted. -/
def quotedCommand (words : List (List Char)) : Command :=
  { Command.empty with
    argv := fun index => words[index]?
    quoted := fun index => index < words.length }

/-- The cursor behind these arguments. -/
def cursorBehind (words : List (List Char)) (inQuotes : Bool) : Cursor where
  tables :=
    if words = [] then resetPipelines
    else ⟨Function.update (fun _ => .empty) 0
      ⟨Function.update (fun _ => .empty) 0 (quotedCommand words), 1⟩, 1⟩
  pipe := 0
  cmd := 0
  arg := words.length
  quote := inQuotes

section

variable {stack : UserStack 2} {getenv : List Char → Option (List Char)} {words : List (List Char)}

theorem quotedCommand_append (words : List (List Char)) (word : List Char) :
    quotedCommand (words ++ [word]) =
      { quotedCommand words with
        argv := Function.update (quotedCommand words).argv words.length (some word)
        quoted := Function.update (quotedCommand words).quoted words.length true } := by
  simp only [quotedCommand, Command.mk.injEq, and_true]
  constructor
  · funext index
    by_cases isLast : index = words.length
    · subst isLast
      simp
    · rw [Function.update_of_ne isLast]
      grind
  · funext index
    by_cases isLast : index = words.length
    · subst isLast
      simp
    · rw [Function.update_of_ne isLast]
      grind

theorem quotedCommand_nil : quotedCommand [] = .empty := by
  simp [quotedCommand, Command.empty]

/-- A token that begins with a quote becomes the next argument. -/
theorem storeToken_behind {token word : List Char} {inQuotes : Bool}
    (room : words.length < maxArgs) (isQuoted : token.head? = some '\"')
    (isWord : copyToken false token = word) :
    (cursorBehind words inQuotes).storeToken token =
      some (cursorBehind (words ++ [word]) inQuotes) := by
  have notEmpty : token ≠ [] := by
    rintro rfl
    contradiction
  have isCommand := quotedCommand_append words word
  cases words with
  | nil =>
      simp only [List.nil_append, quotedCommand_nil, List.length_nil] at isCommand
      simp [Cursor.storeToken, notEmpty, cursorBehind, Cursor.countCommand, Cursor.setCount,
        resetPipelines, maxPipes, maxArgs, Cursor.setCommand, Cursor.command, maxCmds,
        Pipeline.empty, isWord, isQuoted, isCommand]
  | cons first words =>
      simp only [List.cons_append, List.length_cons] at isCommand room
      simp [Cursor.storeToken, notEmpty, cursorBehind, Cursor.countCommand, Cursor.setCommand,
        Cursor.command, isWord, isQuoted, room, maxPipes, maxCmds, isCommand]

/-- A quoted word without operators becomes the next argument. -/
theorem scan_quote {word rest : List Char} (room : words.length < maxArgs)
    (quotable : ∀ c ∈ word, isQuotable c = true) (noOperator : NoOperator word)
    (ends : WordEnds rest) :
    scan stack getenv (cursorBehind words false) (doubleQuote word ++ rest) =
      scan stack getenv (cursorBehind (words ++ [word]) false) rest := by
  have isScanned := scanToken_quote quotable noOperator ends
  have isStored := @storeToken_behind words (doubleQuote word) word false room rfl
    (copyToken_quote quotable)
  have isCons : doubleQuote word ++ rest = '\"' :: (word ++ ['\"'] ++ rest) := rfl
  rw [isCons] at isScanned ⊢
  rw [scan_cons (by decide)]
  change (scanToken false _).bind _ = _
  rw [isScanned]
  simp only [Option.bind_some]
  change ((cursorBehind words false).storeToken (doubleQuote word)).bind _ = _
  rw [isStored, Option.bind_some, dispatch_eq_scan ends]

/-! ## What is cut off -/

/-- An argument of the first command is in the table, and the cursor is behind it. -/
structure Stays (index : ℕ) (arg : List Char) (cursor : Cursor) : Prop where
  stored : ((cursor.tables.pipelines 0).cmds 0).argv index = some arg
  behind : cursor.pipe = 0 → cursor.cmd = 0 → index < cursor.arg

section

variable {index : ℕ} {arg : List Char} {cursor cursor' : Cursor}

/-- Whatever becomes of the counts, the commands are kept. -/
theorem setCount_keeps {count : ℕ} (isSet : cursor.setCount count = some cursor') :
    cursor'.pipe = cursor.pipe ∧ cursor'.cmd = cursor.cmd ∧ cursor'.arg = cursor.arg ∧
      ∀ pipe, (cursor'.tables.pipelines pipe).cmds = (cursor.tables.pipelines pipe).cmds := by
  unfold Cursor.setCount at isSet
  split at isSet
  · cases isSet
    refine ⟨rfl, rfl, rfl, fun pipe => ?_⟩
    by_cases isHere : pipe = cursor.pipe
    · subst isHere
      simp
    · simp [Function.update_of_ne isHere]
  · contradiction

theorem countCommand_keeps (isCounted : cursor.countCommand = some cursor') :
    cursor'.pipe = cursor.pipe ∧ cursor'.cmd = cursor.cmd ∧ cursor'.arg = cursor.arg ∧
      ∀ pipe, (cursor'.tables.pipelines pipe).cmds = (cursor.tables.pipelines pipe).cmds := by
  unfold Cursor.countCommand at isCounted
  split at isCounted
  · dsimp only at isCounted
    split at isCounted
    · have keeps := setCount_keeps isCounted
      exact keeps
    · exact setCount_keeps isCounted
  · cases isCounted
    exact ⟨rfl, rfl, rfl, fun _ => rfl⟩

/-- A command is changed, and its arguments up to the cursor are kept. -/
theorem Stays.setCommand {command : Command} (stays : Stays index arg cursor)
    (kept : cursor.pipe = 0 → cursor.cmd = 0 → command.argv index = cursor.command.argv index)
    (isSet : cursor.setCommand command = some cursor') :
    Stays index arg cursor' ∧ cursor'.pipe = cursor.pipe ∧ cursor'.cmd = cursor.cmd ∧
      cursor'.arg = cursor.arg := by
  unfold Cursor.setCommand at isSet
  split at isSet
  · cases isSet
    refine ⟨⟨?_, stays.behind⟩, rfl, rfl, rfl⟩
    by_cases isPipe : cursor.pipe = 0
    · by_cases isCmd : cursor.cmd = 0
      · have isKept := kept isPipe isCmd
        rw [Cursor.command, isPipe, isCmd, stays.stored] at isKept
        simp [isPipe, isCmd, isKept]
      · have notCmd : 0 ≠ cursor.cmd := fun isZero => isCmd isZero.symm
        simp [isPipe, Function.update_of_ne notCmd, stays.stored]
    · have notPipe : 0 ≠ cursor.pipe := fun isZero => isPipe isZero.symm
      simp [Function.update_of_ne notPipe, stays.stored]
  · contradiction

theorem Stays.storeToken {token : List Char} (stays : Stays index arg cursor)
    (isStored : cursor.storeToken token = some cursor') : Stays index arg cursor' := by
  unfold Cursor.storeToken at isStored
  split at isStored
  · cases isStored
    exact stays
  · simp only [Option.bind_eq_bind, Option.bind_eq_some_iff] at isStored
    obtain ⟨counted, isCounted, isStored⟩ := isStored
    obtain ⟨samePipe, sameCmd, sameArg, sameCmds⟩ := countCommand_keeps isCounted
    have staysCounted : Stays index arg counted := by
      refine ⟨?_, ?_⟩
      · rw [sameCmds]
        exact stays.stored
      · rw [samePipe, sameCmd, sameArg]
        exact stays.behind
    split at isStored
    · simp only [Option.bind_eq_some_iff, Option.pure_def, Option.some.injEq] at isStored
      obtain ⟨stored, isSet, rfl⟩ := isStored
      obtain ⟨staysStored, storedPipe, storedCmd, -⟩ := staysCounted.setCommand (by
        intro isPipe isCmd
        have isBehind := staysCounted.behind isPipe isCmd
        exact Function.update_of_ne (Nat.ne_of_lt isBehind) _ _) isSet
      refine ⟨staysStored.stored, fun isPipe isCmd => ?_⟩
      have isBehind := staysCounted.behind (storedPipe ▸ isPipe) (storedCmd ▸ isCmd)
      exact Nat.lt_succ_of_lt isBehind
    · contradiction

theorem redirFlags_argv (cmd : Command) (text : List Char) :
    (redirFlags cmd text).2.1.argv = cmd.argv := by
  unfold redirFlags
  split <;> rfl

theorem parseRedir_argv {fuel : ℕ} {cmd cmd' : Command} {text after : List Char}
    (parsed : parseRedir getenv fuel cmd text = some (cmd', after)) : cmd'.argv = cmd.argv := by
  induction fuel generalizing cmd text with
  | zero => contradiction
  | succ fuel ih =>
      have isOnce : (redirOnce getenv cmd text).argv = cmd.argv := by
        unfold redirOnce
        dsimp only
        split <;> exact redirFlags_argv cmd text
      rw [parseRedir_succ] at parsed
      split at parsed
      · rw [ih parsed, isOnce]
      · cases parsed
        exact isOnce

theorem Stays.dispatch {loop : Cursor → List Char → Option Cursor} {text : List Char}
    (stays : Stays index arg cursor)
    (isLoop : ∀ {cursor text}, Stays index arg cursor → loop cursor text = some cursor' →
      Stays index arg cursor')
    (dispatched : dispatch stack getenv loop cursor text = some cursor') :
    Stays index arg cursor' := by
  unfold Shell.dispatch at dispatched
  split at dispatched
  · exact isLoop stays dispatched
  · have staysNext : Stays index arg { cursor with cmd := cursor.cmd + 1, arg := 0 } :=
      ⟨stays.stored, fun _ isCmd => absurd isCmd (Nat.succ_ne_zero _)⟩
    exact isLoop staysNext dispatched
  · rw [Option.bind_eq_some_iff] at dispatched
    obtain ⟨ended, isEnded, dispatched⟩ := dispatched
    rw [Cursor.endPipeline, Option.map_eq_some_iff] at isEnded
    obtain ⟨counted, isCounted, rfl⟩ := isEnded
    obtain ⟨-, -, -, sameCmds⟩ := setCount_keeps isCounted
    have staysNext :
        Stays index arg { counted with pipe := counted.pipe + 1, cmd := 0, arg := 0 } := by
      refine ⟨?_, fun isPipe _ => absurd isPipe (Nat.succ_ne_zero _)⟩
      change ((counted.tables.pipelines 0).cmds 0).argv index = some arg
      rw [sameCmds]
      exact stays.stored
    exact isLoop staysNext dispatched
  · split at dispatched
    · simp only [Option.bind_eq_bind, Option.bind_eq_some_iff, Prod.exists] at dispatched
      obtain ⟨command, after, parsed, changed, isSet, dispatched⟩ := dispatched
      have isKept := parseRedir_argv parsed
      exact isLoop (stays.setCommand (fun _ _ => by rw [isKept]) isSet).1 dispatched
    · exact isLoop stays dispatched

/-- The rest of a line does not change an argument that the cursor has passed. -/
theorem Stays.tokenizeLoop {fuel : ℕ} {text : List Char} (stays : Stays index arg cursor)
    (done : tokenizeLoop stack getenv fuel cursor text = some cursor') :
    Stays index arg cursor' := by
  induction fuel generalizing cursor text with
  | zero => contradiction
  | succ fuel ih =>
      rw [Shell.tokenizeLoop] at done
      split at done
      · cases done
        exact stays
      · simp only [Option.bind_eq_bind, Option.bind_eq_some_iff, Prod.exists] at done
        obtain ⟨token, inQuotes, after, -, stored, isStored, dispatched⟩ := done
        have staysHere : Stays index arg { cursor with quote := inQuotes } :=
          ⟨stays.stored, stays.behind⟩
        exact (staysHere.storeToken isStored).dispatch ih dispatched

end

end

/-! ## Lines -/

section

variable {stack : UserStack 2} {getenv : List Char → Option (List Char)} {words : List (List Char)}

theorem exists_operator {word : List Char} (hasOperator : ¬ NoOperator word) :
    ∃ before c behind, word = before ++ c :: behind ∧ NoOperator before ∧
      isOperator c = true := by
  induction word with
  | nil => exact absurd (fun c isIn => absurd isIn List.not_mem_nil) hasOperator
  | cons d word ih =>
      by_cases operator : isOperator d = true
      · exact ⟨[], d, word, rfl, fun c isIn => absurd isIn List.not_mem_nil, operator⟩
      · rw [Bool.not_eq_true] at operator
        obtain ⟨before, c, behind, rfl, noOperator, isOp⟩ := ih fun noOperator =>
          hasOperator (List.forall_mem_cons.mpr ⟨operator, noOperator⟩)
        exact ⟨d :: before, c, behind, rfl, List.forall_mem_cons.mpr ⟨operator, noOperator⟩, isOp⟩

/-- An operator in a word cuts it off for good. -/
theorem scan_cut {word rest : List Char} {final : Cursor} (room : words.length < maxArgs)
    (quotable : ∀ c ∈ word, isQuotable c = true) (hasOperator : ¬ NoOperator word)
    (done : scan stack getenv (cursorBehind words false) (doubleQuote word ++ rest) = some final) :
    ∃ cut, cut ≠ word ∧ ((final.tables.pipelines 0).cmds 0).argv words.length = some cut := by
  obtain ⟨before, c, behind, rfl, noOperator, operator⟩ := exists_operator hasOperator
  have isBefore : ∀ d ∈ before, isQuotable d = true := fun d isIn =>
    quotable d (List.mem_append_left _ isIn)
  have isScanned := @scanToken_cut before (behind ++ ['\"'] ++ rest) c isBefore noOperator operator
  have isStored := @storeToken_behind words ('\"' :: before) before true room rfl
    (copyToken_cut isBefore)
  have isCons : doubleQuote (before ++ c :: behind) ++ rest =
      '\"' :: (before ++ c :: (behind ++ ['\"'] ++ rest)) := by
    simp [doubleQuote]
  rw [isCons, scan_cons (by decide)] at done
  change (scanToken false _).bind _ = _ at done
  rw [isScanned, Option.bind_some] at done
  change ((cursorBehind words true).storeToken ('\"' :: before)).bind _ = _ at done
  rw [isStored, Option.bind_some] at done
  have stays : Stays words.length before (cursorBehind (words ++ [before]) true) := by
    refine ⟨by simp [cursorBehind, quotedCommand], fun _ _ => ?_⟩
    simp [cursorBehind]
  refine ⟨before, ?_, (stays.dispatch ?_ done).stored⟩
  · simp
  · intro cursor text staysThere
    exact staysThere.tokenizeLoop

/-- Behind a quoted word there is a space, or the end of the line. -/
theorem joinQuoted_cons {word : List Char} {line : List (List Char)} {ending : List Char}
    (isEnding : ∀ c ∈ ending, isspace c = true) :
    ∃ rest, joinQuoted (word :: line) ++ ending = doubleQuote word ++ rest ∧ WordEnds rest ∧
      ∀ cursor, scan stack getenv cursor rest =
        scan stack getenv cursor (joinQuoted line ++ ending) := by
  cases line with
  | nil =>
      refine ⟨ending, rfl, fun c isHead => Or.inl (isEnding c ?_), fun cursor => rfl⟩
      exact List.mem_of_head? isHead
  | cons next line =>
      refine ⟨' ' :: (joinQuoted (next :: line) ++ ending), ?_, ?_, ?_⟩
      · rw [joinQuoted, List.append_assoc, List.cons_append]
      · rintro c ⟨⟩
        exact Or.inl rfl
      · exact fun cursor => scan_space rfl

/--
The words become the arguments if there is no operator in them; otherwise some argument is
not the word.
-/
theorem scan_joinQuoted {line : List (List Char)} {ending : List Char}
    (fits : words.length + line.length ≤ maxArgs)
    (quotable : ∀ word ∈ line, ∀ c ∈ word, isQuotable c = true)
    (isEnding : ∀ c ∈ ending, isspace c = true) :
    ((∀ word ∈ line, NoOperator word) →
      scan stack getenv (cursorBehind words false) (joinQuoted line ++ ending) =
        some (cursorBehind (words ++ line) false)) ∧
    ∀ final, scan stack getenv (cursorBehind words false) (joinQuoted line ++ ending) = some final →
      (∀ index, ((final.tables.pipelines 0).cmds 0).argv index = (words ++ line)[index]?) →
      ∀ word ∈ line, NoOperator word := by
  induction line generalizing words with
  | nil =>
      refine ⟨fun _ => ?_, fun _ _ _ word isIn => absurd isIn List.not_mem_nil⟩
      have isBlank := @scan_spaces stack getenv (cursorBehind words false) ending [] isEnding
      rw [List.append_nil] at isBlank
      rw [joinQuoted, List.nil_append, isBlank, scan_nil, List.append_nil]
  | cons word line ih =>
      obtain ⟨rest, isText, ends, sameScan⟩ :=
        @joinQuoted_cons stack getenv word line ending isEnding
      have isFirst := quotable word List.mem_cons_self
      rw [List.length_cons] at fits
      have room : words.length < maxArgs := by omega
      rw [isText]
      by_cases noOperator : NoOperator word
      · have isRest : words ++ word :: line = words ++ [word] ++ line := by simp
        rw [scan_quote room isFirst noOperator ends, sameScan, isRest]
        obtain ⟨allKept, onlyKept⟩ := @ih (words ++ [word])
          (by rw [List.length_append, List.length_singleton]; omega)
          (fun w isIn => quotable w (List.mem_cons_of_mem word isIn))
        refine ⟨fun noOperators => ?_, fun final done isArgv => ?_⟩
        · exact allKept fun w isIn => noOperators w (List.mem_cons_of_mem word isIn)
        · exact List.forall_mem_cons.mpr ⟨noOperator, onlyKept final done isArgv⟩
      · refine ⟨fun noOperators => absurd (noOperators word List.mem_cons_self) noOperator, ?_⟩
        intro final done isArgv
        obtain ⟨cut, notWord, isCut⟩ := scan_cut room isFirst noOperator done
        rw [isArgv words.length] at isCut
        refine absurd ?_ notWord
        simpa using isCut.symm

end

namespace QuotedLine

variable (stack : UserStack 2) (getenv : List Char → Option (List Char)) (line : QuotedLine)

theorem isspace_ending : ∀ c ∈ line.ending, isspace c = true := by
  unfold ending
  split <;> simp [isspace]

theorem truncateComments_text : truncateComments false '\x00' line.text = line.text := by
  apply truncateComments_joinQuoted line.quotable (by decide)
  unfold ending
  split <;> simp

/-- What the tokenizer makes of the line depends on the operators in the words. -/
theorem scan_text :
    ((∀ word ∈ line.words, NoOperator word) →
      tokenize stack getenv line.text = some (cursorBehind line.words false).tables) ∧
    ∀ tables, tokenize stack getenv line.text = some tables →
      (∀ index, ((tables.pipelines 0).cmds 0).argv index = line.words[index]?) →
      ∀ word ∈ line.words, NoOperator word := by
  have fits : ([] : List (List Char)).length + line.words.length ≤ maxArgs := by
    rw [List.length_nil, Nat.zero_add, maxArgs]
    exact Nat.le_trans line.few (by decide)
  have isTokenized : tokenize stack getenv line.text =
      (scan stack getenv (cursorBehind [] false) line.text).map Cursor.tables := rfl
  obtain ⟨allKept, onlyKept⟩ := @scan_joinQuoted stack getenv [] line.words line.ending fits
    line.quotable line.isspace_ending
  rw [isTokenized]
  constructor
  · intro noOperators
    exact congrArg (Option.map Cursor.tables) (allKept noOperators)
  · intro tables isTables
    rw [Option.map_eq_some_iff] at isTables
    obtain ⟨final, done, rfl⟩ := isTables
    exact onlyKept final done

/--
The words of a line are protected if and only if there are some, and there is no operator
among their characters.
-/
theorem protected_iff :
    line.Protected stack getenv ↔ line.words ≠ [] ∧ ∀ word ∈ line.words, NoOperator word := by
  obtain ⟨allKept, onlyKept⟩ := scan_text stack getenv line
  rw [Protected, truncateComments_text]
  constructor
  · rintro ⟨tables, isTables, count, -, isArgv, -, -⟩
    have noOperators := onlyKept tables isTables isArgv
    refine ⟨fun isNil => ?_, noOperators⟩
    have isFinal := (allKept noOperators).symm.trans isTables
    cases isFinal
    rw [isNil] at count
    contradiction
  · rintro ⟨someWords, noOperators⟩
    refine ⟨_, allKept noOperators, ?_⟩
    simp [cursorBehind, someWords, quotedCommand, Command.empty]

/-- `"a|b"`. -/
def pipeWord : QuotedLine where
  words := ["a|b".toList]
  newline := true
  few := by decide
  quotable := by simp [isQuotable]

theorem not_protected_all : ¬ ∀ getenv line, Protected (UserStack.page 2) getenv line := by
  intro all
  obtain ⟨tables, isTables, -, -, isArgv, -⟩ := all (fun _ => none) pipeWord
  rw [truncateComments_text] at isTables
  have noOperator := (scan_text _ _ pipeWord).2 tables isTables isArgv _ List.mem_cons_self
  exact absurd (noOperator '|' (by decide)) (by decide)

end QuotedLine

end Osix.Shell
