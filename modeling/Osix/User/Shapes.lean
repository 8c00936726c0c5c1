import Osix.User.Quotes
import Mathlib.Data.List.GetD

/-!
# Any command line

What `tokenize` makes of a line is decided by the number of words in each command, whatever the
words are. The line is taken for a sequence of words and operators, and its shape is compared with
the indices and the counts that `tokenize` keeps.

The counts are kept in two ways. A pipeline is counted at the first word of its first command, and
a command at its first word, but `;` counts all commands before it. So they are wrong for a command
without words, and so are the pipelines that the shell goes on to execute.
-/

namespace Osix.Shell

open Ctype

/-! ## Words and operators -/

/-- What a line consists of; several redirections in a row are one, with their number. -/
inductive Lexeme where
  | word
  | pipe
  | semi
  | redir (count : ℕ)
deriving DecidableEq

/-- How many redirections stand here in a row, and what is left behind them. -/
def redirsAt : ℕ → List Char → ℕ × List Char
  | 0, text => (0, text)
  | fuel + 1, text =>
      if redirAhead (behindTarget .empty text) then
        let (count, after) := redirsAt fuel (behindTarget .empty text)
        (count + 1, after)
      else
        (1, behindTarget .empty text)

/-- The operator at the end of a token, and what follows it. A redirection takes a separator. -/
def operatorAt : List Char → List Lexeme × List Char
  | [] => ([], [])
  | '|' :: rest => ([.pipe], rest)
  | ';' :: rest => ([.semi], rest)
  | c :: rest =>
      if c = '<' ∨ c = '>' then
        let (count, after) := redirsAt (c :: rest).length (c :: rest)
        ([.redir count], after.drop 1)
      else
        ([], rest)

/-- The words and operators of a line; a backslash at the end of a word and the line is `none`. -/
def lexLoop : ℕ → Bool → List Char → Option (List Lexeme)
  | 0, _, _ => none
  | fuel + 1, quote, text =>
      match text.dropWhile isspace with
      | [] => some []
      | c :: rest => do
          let (token, quote, after) ← scanToken quote (c :: rest)
          let lexemes ← lexLoop fuel quote (operatorAt after).2
          return (if token = [] then [] else [.word]) ++ (operatorAt after).1 ++ lexemes

def lexemes (line : List Char) : Option (List Lexeme) := lexLoop (line.length + 1) false line

/-! ## Shapes -/

/--
The numbers of words: of the commands of the pipelines that a `;` has ended, of the commands of the
last pipeline that a `|` has ended, and of the last command.
-/
structure Shape where
  ended : List (List ℕ)
  cmds : List ℕ
  words : ℕ
  notEmpty : [] ∉ ended

namespace Shape

def start : Shape := ⟨[], [], 0, List.not_mem_nil⟩

/-- The commands of the last pipeline. -/
def last (shape : Shape) : List ℕ := shape.cmds ++ [shape.words]

def all (shape : Shape) : List (List ℕ) := shape.ended ++ [shape.last]

theorem all_notEmpty (shape : Shape) : [] ∉ shape.all := by
  simp [all, last, shape.notEmpty]

/-- The number of words of a command. -/
def wordsAt (shape : Shape) (pipe cmd : ℕ) : ℕ := (shape.all.getD pipe []).getD cmd 0

def next (shape : Shape) : Lexeme → Shape
  | .word => { shape with words := shape.words + 1 }
  | .pipe => { shape with cmds := shape.last, words := 0 }
  | .semi => ⟨shape.all, [], 0, shape.all_notEmpty⟩
  | .redir _ => shape

def after (shape : Shape) (lexemes : List Lexeme) : Shape := lexemes.foldl next shape

/--
There is a place in the tables for what the lexeme changes, and no more redirections stand in a row
than `calls`.
-/
def Allows (calls : ℕ) (shape : Shape) : Lexeme → Prop
  | .word => shape.ended.length < maxPipes ∧ shape.cmds.length < maxCmds ∧ shape.words < maxArgs
  | .pipe => True
  | .semi => shape.ended.length < maxPipes
  | .redir count =>
      shape.ended.length < maxPipes ∧ shape.cmds.length < maxCmds ∧ count ≤ calls

instance (calls : ℕ) (shape : Shape) (lexeme : Lexeme) : Decidable (shape.Allows calls lexeme) := by
  cases lexeme <;> unfold Allows <;> infer_instance

/-- There is a place for every lexeme. -/
def Places (calls : ℕ) (shape : Shape) : List Lexeme → Prop
  | [] => True
  | lexeme :: lexemes => shape.Allows calls lexeme ∧ (shape.next lexeme).Places calls lexemes

/-- A pipeline with a word in its first command. -/
def begins (cmds : List ℕ) : Bool := cmds.headD 0 ≠ 0

/-- How many pipelines are executed. -/
def pipes (shape : Shape) : ℕ := shape.all.countP begins

/-- How many commands of a pipeline are executed: those with words, if no `;` has ended it. -/
def executed (shape : Shape) (pipe : ℕ) : ℕ :=
  if pipe < shape.ended.length then (shape.ended.getD pipe []).length
  else if pipe = shape.ended.length then shape.last.countP (· ≠ 0)
  else 0

/--
No command fills its array. The pipelines that begin with a word come first, and all commands of
those that a `;` has ended have words. In the last one the commands with words come first.
-/
structure Proper (shape : Shape) : Prop where
  terminated : ∀ pipe cmd, shape.wordsAt pipe cmd < maxArgs
  first : shape.all.Pairwise fun cmds later => begins later → begins cmds
  named : ∀ cmds ∈ shape.ended, begins cmds → 0 ∉ cmds
  last : begins shape.last → shape.last.Pairwise fun words later => later ≠ 0 → words ≠ 0

end Shape

/-- A line that the tokenizer can take, with room on the stack for so many calls. -/
def WellShaped (calls : ℕ) (line : List Char) : Prop :=
  ∃ lexs, lexemes line = some lexs ∧ Shape.start.Places calls lexs ∧
    (Shape.start.after lexs).Proper

/--
The tokenizer reads and stores nothing outside of the line, the tables and its stack, every argument
list ends with a null pointer, and every command that `main` executes has a name.
-/
def TokenizesSafely (stack : UserStack 2) (getenv : List Char → Option (List Char))
    (line : List Char) : Prop :=
  ∃ tables, tokenize stack getenv line = some tables ∧
    (∀ pipe cmd, ∃ arg < maxArgs, ((tables.pipelines pipe).cmds cmd).argv arg = none) ∧
    ∀ pipe < tables.count, ∀ cmd < (tables.pipelines pipe).count,
      ((tables.pipelines pipe).cmds cmd).argv 0 ≠ none

/-! ## The tables of a shape -/

/-- The variables and the tables of `tokenize` for a shape. -/
structure Tallies (cursor : Cursor) (quote : Bool) (shape : Shape) : Prop where
  quote : cursor.quote = quote
  pipe : cursor.pipe = shape.ended.length
  cmd : cursor.cmd = shape.cmds.length
  arg : cursor.arg = shape.words
  pipes : cursor.tables.count = shape.pipes
  executed : ∀ pipe, (cursor.tables.pipelines pipe).count = shape.executed pipe
  argv : ∀ pipe cmd arg, ((cursor.tables.pipelines pipe).cmds cmd).argv arg ≠ none ↔
    arg < shape.wordsAt pipe cmd

theorem getD_concat {α : Type*} (l : List α) (last default : α) (index : ℕ) :
    (l ++ [last]).getD index default =
      if index = l.length then last else l.getD index default := by
  rcases lt_trichotomy index l.length with before | rfl | behind
  · rw [List.getD_append _ _ _ _ before, if_neg before.ne]
  · simp
  · rw [if_neg behind.ne', List.getD_eq_default _ _ behind.le, List.getD_eq_default]
    simp only [List.length_append, List.length_singleton]
    omega

namespace Shape

variable (shape : Shape) (pipe cmd : ℕ)

theorem wordsAt_last : shape.wordsAt shape.ended.length cmd = shape.last.getD cmd 0 := by
  rw [wordsAt, all, getD_concat, if_pos rfl]

theorem wordsAt_here : shape.wordsAt shape.ended.length shape.cmds.length = shape.words := by
  rw [wordsAt_last, last, getD_concat, if_pos rfl]

theorem wordsAt_word :
    (shape.next .word).wordsAt pipe cmd =
      if pipe = shape.ended.length ∧ cmd = shape.cmds.length then shape.words + 1
      else shape.wordsAt pipe cmd := by
  simp only [wordsAt, next, all, last, getD_concat]
  by_cases here : pipe = shape.ended.length
  · simp only [here, if_true, true_and, getD_concat]
    split <;> rfl
  · simp [here]

theorem wordsAt_pipe : (shape.next .pipe).wordsAt pipe cmd = shape.wordsAt pipe cmd := by
  simp only [wordsAt, next, all, getD_concat]
  split
  · simp only [last, getD_concat, List.length_append, List.length_singleton]
    split <;> simp_all
  · rfl

theorem wordsAt_semi : (shape.next .semi).wordsAt pipe cmd = shape.wordsAt pipe cmd := by
  simp only [wordsAt, next, all, last, getD_concat, List.length_append, List.length_singleton]
  split <;> simp_all

theorem pipes_word :
    (shape.next .word).pipes =
      if shape.words = 0 ∧ shape.cmds.length = 0 then shape.pipes + 1 else shape.pipes := by
  simp only [pipes, all, last, next, begins, List.countP_append, List.countP_singleton]
  rcases shape.cmds with _ | ⟨words, cmds⟩
  · by_cases wordless : shape.words = 0 <;> simp [wordless]
  · simp

theorem pipes_pipe : (shape.next .pipe).pipes = shape.pipes := by
  simp only [pipes, all, last, next, begins, List.countP_append, List.countP_singleton]
  rcases shape.cmds with _ | ⟨words, cmds⟩ <;> simp

theorem pipes_semi : (shape.next .semi).pipes = shape.pipes := by
  simp only [pipes, next, all, last, begins, List.countP_append, List.countP_singleton]
  simp

theorem executed_word :
    (shape.next .word).executed pipe =
      if pipe = shape.ended.length ∧ shape.words = 0 then shape.executed pipe + 1
      else shape.executed pipe := by
  simp only [executed, last, next, List.countP_append, List.countP_singleton]
  by_cases before : pipe < shape.ended.length
  · simp [before, before.ne]
  · by_cases wordless : shape.words = 0 <;> simp [before, wordless]
    split <;> rfl

theorem executed_pipe : (shape.next .pipe).executed pipe = shape.executed pipe := by
  simp only [executed, next, last, List.countP_append, List.countP_singleton]
  simp

theorem executed_semi :
    (shape.next .semi).executed pipe =
      if pipe = shape.ended.length then shape.cmds.length + 1 else shape.executed pipe := by
  simp only [executed, next, all, List.length_append, List.length_singleton, getD_concat]
  by_cases here : pipe = shape.ended.length
  · simp [here, last]
  · rw [if_neg here, if_neg here, if_neg here]
    by_cases before : pipe < shape.ended.length
    · rw [if_pos (by omega), if_pos before]
    · rw [if_neg (by omega), if_neg before]
      simp [last]

end Shape

namespace Tallies

variable {cursor : Cursor} {quote : Bool} {shape : Shape} {calls : ℕ}

/-- The empty tables. -/
theorem start : Tallies ⟨resetPipelines, 0, 0, 0, false⟩ false Shape.start where
  quote := rfl
  pipe := rfl
  cmd := rfl
  arg := rfl
  pipes := rfl
  executed pipe := by
    simp [resetPipelines, Pipeline.empty, Shape.executed, Shape.start, Shape.last]
  argv pipe cmd arg := by
    suffices Shape.start.wordsAt pipe cmd = 0 by
      simp [this, resetPipelines, Pipeline.empty, Command.empty]
    cases pipe <;> cases cmd <;> rfl

theorem requote (tallies : Tallies cursor quote shape) (quote' : Bool) :
    Tallies { cursor with quote := quote' } quote' shape :=
  { tallies with quote := rfl }

/-- `|` begins a command. -/
theorem pipe_next (tallies : Tallies cursor quote shape) :
    Tallies { cursor with cmd := cursor.cmd + 1, arg := 0 } quote (shape.next .pipe) where
  quote := tallies.quote
  pipe := tallies.pipe
  cmd := by
    simp [tallies.cmd, Shape.next, Shape.last]
  arg := rfl
  pipes := by
    rw [Shape.pipes_pipe]
    exact tallies.pipes
  executed pipe := by
    rw [Shape.executed_pipe]
    exact tallies.executed pipe
  argv pipe cmd arg := by
    rw [Shape.wordsAt_pipe]
    exact tallies.argv pipe cmd arg

/-- `;` begins a pipeline, and counts all commands before it. -/
theorem semi_next (tallies : Tallies cursor quote shape) (allowed : shape.Allows calls .semi) :
    ∃ ended, cursor.endPipeline = some ended ∧ Tallies ended quote (shape.next .semi) := by
  have fits : cursor.pipe < maxPipes := by
    rw [tallies.pipe]
    exact allowed
  refine ⟨_, by rw [Cursor.endPipeline, Cursor.setCount, if_pos fits]; rfl, ?_⟩
  constructor
  case quote => exact tallies.quote
  case pipe => simp [tallies.pipe, Shape.next, Shape.all]
  case cmd => rfl
  case arg => rfl
  case pipes => simpa only [Shape.pipes_semi] using tallies.pipes
  case executed =>
    intro pipe
    simp only [Shape.executed_semi, ← tallies.pipe, ← tallies.cmd, Function.update_apply]
    split
    · rfl
    · exact tallies.executed pipe
  case argv =>
    intro pipe cmd arg
    simp only [Shape.wordsAt_semi, ← tallies.argv, Function.update_apply]
    split <;> simp_all

theorem semi_stop (tallies : Tallies cursor quote shape) (full : ¬shape.Allows calls .semi) :
    cursor.endPipeline = none := by
  rw [Cursor.endPipeline, Cursor.setCount, if_neg]
  · rfl
  · rw [tallies.pipe]
    exact full

/-- A command is all that changes. -/
theorem setCommand_sets (command : Command)
    (fits : cursor.pipe < maxPipes ∧ cursor.cmd < maxCmds) :
    ∃ changed, cursor.setCommand command = some changed ∧
      changed.quote = cursor.quote ∧ changed.pipe = cursor.pipe ∧ changed.cmd = cursor.cmd ∧
      changed.arg = cursor.arg ∧ changed.tables.count = cursor.tables.count ∧
      (∀ pipe, (changed.tables.pipelines pipe).count = (cursor.tables.pipelines pipe).count) ∧
      ∀ pipe cmd, (changed.tables.pipelines pipe).cmds cmd =
        if pipe = cursor.pipe ∧ cmd = cursor.cmd then command
        else (cursor.tables.pipelines pipe).cmds cmd := by
  refine ⟨_, if_pos fits, rfl, rfl, rfl, rfl, rfl, ?_, ?_⟩
  · intro pipe
    simp only [Function.update_apply]
    split <;> simp_all
  · intro pipe cmd
    by_cases here : pipe = cursor.pipe
    · simp [here, Function.update_apply]
    · simp [here]

/-- A redirection leaves the arguments alone. -/
theorem redir_next {count : ℕ} (tallies : Tallies cursor quote shape)
    (allowed : shape.Allows calls (.redir count)) {command : Command}
    (sameArgs : command.argv = cursor.command.argv) :
    ∃ changed, cursor.setCommand command = some changed ∧
      Tallies changed quote (shape.next (.redir count)) := by
  have fits : cursor.pipe < maxPipes ∧ cursor.cmd < maxCmds := by
    rw [tallies.pipe, tallies.cmd]
    exact ⟨allowed.1, allowed.2.1⟩
  rcases setCommand_sets command fits with
    ⟨changed, isChanged, quotes, pipes, cmds, args, tables, counts, sets⟩
  refine ⟨changed, isChanged, ?_⟩
  constructor
  case quote => exact quotes.trans tallies.quote
  case pipe => exact pipes.trans tallies.pipe
  case cmd => exact cmds.trans tallies.cmd
  case arg => exact args.trans tallies.arg
  case pipes => exact tables.trans tallies.pipes
  case executed =>
    intro pipe
    exact (counts pipe).trans (tallies.executed pipe)
  case argv =>
    intro pipe cmd arg
    rw [Shape.next, ← tallies.argv, sets]
    split
    case isTrue here => rw [sameArgs, here.1, here.2, Cursor.command]
    case isFalse => rfl

theorem redir_stop {count : ℕ} (tallies : Tallies cursor quote shape)
    (full : ¬shape.Allows calls (.redir count)) (inStack : count ≤ calls) (command : Command) :
    cursor.setCommand command = none := by
  rw [Cursor.setCommand, if_neg]
  rw [tallies.pipe, tallies.cmd]
  exact fun fits => full ⟨fits.1, fits.2, inStack⟩

/-- A count is all that changes. -/
theorem setCount_counts (cursor : Cursor) (count : ℕ) (fits : cursor.pipe < maxPipes) :
    ∃ changed, cursor.setCount count = some changed ∧
      changed.quote = cursor.quote ∧ changed.pipe = cursor.pipe ∧ changed.cmd = cursor.cmd ∧
      changed.arg = cursor.arg ∧ changed.tables.count = cursor.tables.count ∧
      (∀ pipe, (changed.tables.pipelines pipe).count =
        if pipe = cursor.pipe then count else (cursor.tables.pipelines pipe).count) ∧
      ∀ pipe, (changed.tables.pipelines pipe).cmds = (cursor.tables.pipelines pipe).cmds := by
  refine ⟨_, if_pos fits, rfl, rfl, rfl, rfl, rfl, ?_, ?_⟩
  · intro pipe
    simp only [Function.update_apply]
    split <;> rfl
  · intro pipe
    simp only [Function.update_apply]
    split <;> simp_all

/-- The first word counts its command, and perhaps the pipeline. -/
theorem countCommand_counts (tallies : Tallies cursor quote shape)
    (fits : shape.ended.length < maxPipes) :
    ∃ counted, cursor.countCommand = some counted ∧
      counted.quote = cursor.quote ∧ counted.pipe = cursor.pipe ∧ counted.cmd = cursor.cmd ∧
      counted.arg = cursor.arg ∧ counted.tables.count = (shape.next .word).pipes ∧
      (∀ pipe, (counted.tables.pipelines pipe).count = (shape.next .word).executed pipe) ∧
      ∀ pipe, (counted.tables.pipelines pipe).cmds = (cursor.tables.pipelines pipe).cmds := by
  have inTables : cursor.pipe < maxPipes := by
    rw [tallies.pipe]
    exact fits
  simp only [Shape.pipes_word, Shape.executed_word, ← tallies.pipe, ← tallies.cmd, ← tallies.arg,
    ← tallies.pipes, ← tallies.executed]
  by_cases wordless : cursor.arg = 0
  · rw [Cursor.countCommand, if_pos wordless]
    by_cases begins : cursor.cmd = 0
    · rw [if_pos begins, if_pos ⟨wordless, begins⟩]
      rcases setCount_counts { cursor with tables := { cursor.tables with
        count := cursor.tables.count + 1 } } ((cursor.tables.pipelines cursor.pipe).count + 1)
        inTables with ⟨counted, isCounted, quotes, pipes, cmds, args, tables, counts, same⟩
      refine ⟨counted, isCounted, quotes, pipes, cmds, args, tables, ?_, same⟩
      intro pipe
      rw [counts]
      split <;> simp_all
    · rw [if_neg begins, if_neg (fun isFirst => begins isFirst.2)]
      rcases setCount_counts cursor ((cursor.tables.pipelines cursor.pipe).count + 1)
        inTables with ⟨counted, isCounted, quotes, pipes, cmds, args, tables, counts, same⟩
      refine ⟨counted, isCounted, quotes, pipes, cmds, args, tables, ?_, same⟩
      intro pipe
      rw [counts]
      split <;> simp_all
  · refine ⟨cursor, ?_, rfl, rfl, rfl, rfl, ?_, ?_, fun _ => rfl⟩
    · rw [Cursor.countCommand, if_neg wordless]
    · rw [if_neg (fun isFirst => wordless isFirst.1)]
    · intro pipe
      rw [if_neg (fun isHere => wordless isHere.2)]

/-- A word is stored behind the words of its command. -/
theorem word_next (tallies : Tallies cursor quote shape) (allowed : shape.Allows calls .word)
    {token : List Char} (notEmpty : token ≠ []) :
    ∃ stored, cursor.storeToken token = some stored ∧
      Tallies stored quote (shape.next .word) := by
  rcases tallies.countCommand_counts allowed.1 with
    ⟨counted, isCounted, quotes, pipes, cmds, args, tables, counts, same⟩
  have fits : counted.pipe < maxPipes ∧ counted.cmd < maxCmds := by
    rw [pipes, cmds, tallies.pipe, tallies.cmd]
    exact ⟨allowed.1, allowed.2.1⟩
  have room : counted.arg < maxArgs := by
    rw [args, tallies.arg]
    exact allowed.2.2
  rcases setCommand_sets { counted.command with
      argv := Function.update counted.command.argv counted.arg (some (copyToken false token))
      quoted := Function.update counted.command.quoted counted.arg (token.head? = some '\"') }
    fits with ⟨set, isSet, quotesSet, pipesSet, cmdsSet, argsSet, tablesSet, countsSet, sets⟩
  refine ⟨{ set with arg := counted.arg + 1 }, ?_, ?_⟩
  · rw [Cursor.storeToken, if_neg notEmpty, isCounted, Option.bind_eq_bind, Option.bind_some,
      if_pos room]
    change (counted.setCommand _).bind _ = _
    rw [isSet]
    rfl
  constructor
  case quote => exact quotesSet.trans (quotes.trans tallies.quote)
  case pipe => exact pipesSet.trans (pipes.trans tallies.pipe)
  case cmd => exact cmdsSet.trans (cmds.trans tallies.cmd)
  case arg => simp [args, tallies.arg, Shape.next]
  case pipes => exact tablesSet.trans tables
  case executed =>
    intro pipe
    exact (countsSet pipe).trans (counts pipe)
  case argv =>
    intro pipe cmd arg
    rw [Shape.wordsAt_word, sets, ← tallies.pipe, ← tallies.cmd, ← tallies.arg, pipes, cmds]
    by_cases here : pipe = cursor.pipe ∧ cmd = cursor.cmd
    · have before := tallies.argv cursor.pipe cursor.cmd arg
      rw [tallies.pipe, tallies.cmd, Shape.wordsAt_here, ← tallies.arg, ← tallies.pipe,
        ← tallies.cmd] at before
      rw [if_pos here, if_pos here, Cursor.command, pipes, cmds, same]
      simp only [Function.update_apply, args]
      split
      case isTrue last => simp [last]
      case isFalse notLast =>
        rw [before]
        omega
    · rw [if_neg here, if_neg here, same]
      exact tallies.argv pipe cmd arg

theorem word_stop (tallies : Tallies cursor quote shape) (full : ¬shape.Allows calls .word)
    {token : List Char} (notEmpty : token ≠ []) : cursor.storeToken token = none := by
  rw [Cursor.storeToken, if_neg notEmpty]
  rcases isCounted : cursor.countCommand with _ | counted
  · rfl
  · rcases countCommand_keeps isCounted with ⟨pipes, cmds, args, -⟩
    rw [Option.bind_eq_bind, Option.bind_some]
    split
    case isTrue room =>
      have notFits : ¬(counted.pipe < maxPipes ∧ counted.cmd < maxCmds) := by
        rw [pipes, cmds, tallies.pipe, tallies.cmd]
        rw [args, tallies.arg] at room
        exact fun inTables => full ⟨inTables.1, inTables.2, room⟩
      dsimp only
      rw [Cursor.setCommand, if_neg notFits]
      rfl
    case isFalse => rfl

end Tallies

/-! ## Redirections -/

section

variable {getenv : List Char → Option (List Char)} {cmd : Command}

theorem behindTarget_eq (text : List Char) : behindTarget cmd text = behindTarget .empty text := by
  have sameRest : (redirFlags cmd text).2.2 = (redirFlags .empty text).2.2 := by
    simp only [redirFlags]
    split <;> rfl
  rw [behindTarget, behindTarget, sameRest]

theorem redirsAt_pos {fuel : ℕ} (text : List Char) : 0 < (redirsAt (fuel + 1) text).1 := by
  rw [redirsAt]
  split
  · exact Nat.succ_pos _
  · exact Nat.one_pos

/--
The target of a redirection is found, and nothing behind it is read; a row of redirections takes
as many calls.
-/
theorem parseRedir_after (getenv : List Char → Option (List Char)) (cmd : Command) {fuel : ℕ}
    {c : Char} {rest : List Char} (enough : rest.length < fuel) :
    ∃ cmd', ∀ calls, parseRedir getenv calls cmd (c :: rest) =
      if (redirsAt fuel (c :: rest)).1 ≤ calls then some (cmd', (redirsAt fuel (c :: rest)).2)
      else none := by
  induction fuel generalizing cmd c rest with
  | zero => omega
  | succ fuel ih =>
      have isPos := @redirsAt_pos fuel (c :: rest)
      by_cases ahead : redirAhead (behindTarget .empty (c :: rest)) = true
      · have shorter := behindTarget_length .empty c rest
        rcases isBehind : behindTarget .empty (c :: rest) with _ | ⟨d, behind⟩
        · rw [isBehind] at ahead
          contradiction
        · rw [isBehind, List.length_cons] at shorter
          have enoughBehind : behind.length < fuel := by omega
          obtain ⟨cmd', parsed⟩ := ih (redirOnce getenv cmd (c :: rest)) (c := d) enoughBehind
          refine ⟨cmd', fun calls => ?_⟩
          have isRow : redirsAt (fuel + 1) (c :: rest) =
              ((redirsAt fuel (d :: behind)).1 + 1, (redirsAt fuel (d :: behind)).2) := by
            rw [redirsAt, if_pos ahead, isBehind]
          rw [isRow]
          rcases calls with _ | calls
          · rw [parseRedir, if_neg (Nat.not_succ_le_zero _)]
          · rw [parseRedir_succ, behindTarget_eq, if_pos ahead, isBehind, parsed]
            simp only [Nat.succ_le_succ_iff]
      · refine ⟨redirOnce getenv cmd (c :: rest), fun calls => ?_⟩
        have isRow : redirsAt (fuel + 1) (c :: rest) = (1, behindTarget .empty (c :: rest)) := by
          rw [redirsAt, if_neg ahead]
        rw [isRow]
        rcases calls with _ | calls
        · rw [parseRedir, if_neg (Nat.not_succ_le_zero _)]
        · rw [parseRedir_succ, behindTarget_eq, if_neg ahead, if_pos (Nat.le_add_left 1 calls)]

end

/-! ## The run of the tokenizer -/

/-- The tokenizer takes the words and operators of a text, as far as there are places. -/
def Follows (calls : ℕ) (result : Option Cursor) (shape : Shape) : Option (List Lexeme) → Prop
  | none => result = none
  | some lexs =>
      (shape.Places calls lexs →
        ∃ last quote, result = some last ∧ Tallies last quote (shape.after lexs)) ∧
      (¬shape.Places calls lexs → result = none)

theorem Follows.cons {calls : ℕ} {result : Option Cursor} {shape : Shape} {lexeme : Lexeme}
    {lexed : Option (List Lexeme)}
    (goesOn : shape.Allows calls lexeme → Follows calls result (shape.next lexeme) lexed)
    (stops : ¬shape.Allows calls lexeme → result = none) :
    Follows calls result shape (lexed.map (lexeme :: ·)) := by
  rcases lexed with _ | lexs
  · by_cases allowed : shape.Allows calls lexeme
    · exact goesOn allowed
    · exact stops allowed
  · constructor
    · intro places
      exact (goesOn places.1).1 places.2
    · intro full
      by_cases allowed : shape.Allows calls lexeme
      · exact (goesOn allowed).2 fun places => full ⟨allowed, places⟩
      · exact stops allowed

section

variable {stack : UserStack 2} {getenv : List Char → Option (List Char)}
  {loop : Cursor → List Char → Option Cursor} {lex : List Char → Option (List Lexeme)}
  {cursor : Cursor} {quote : Bool} {shape : Shape}
  {text : List Char}

theorem operatorAt_cons {c : Char} {rest : List Char} (notPipe : c ≠ '|') (notSemi : c ≠ ';') :
    operatorAt (c :: rest) =
      if c = '<' ∨ c = '>' then
        ([.redir (redirsAt (c :: rest).length (c :: rest)).1],
          (redirsAt (c :: rest).length (c :: rest)).2.drop 1)
      else ([], rest) := by
  unfold operatorAt
  split <;> simp_all

theorem dispatch_follows
    (follows : ∀ cursor shape text, Tallies cursor quote shape →
      Follows stack.calls (loop cursor text) shape (lex text))
    (tallies : Tallies cursor quote shape) :
    Follows stack.calls (dispatch stack getenv loop cursor text) shape
      ((lex (operatorAt text).2).map ((operatorAt text).1 ++ ·)) := by
  unfold dispatch
  split
  case h_1 =>
    simpa [operatorAt] using follows cursor shape [] tallies
  case h_2 rest =>
    exact Follows.cons (fun _ => follows _ _ rest tallies.pipe_next)
      (fun full => absurd trivial full)
  case h_3 rest =>
    apply Follows.cons
    · intro allowed
      rcases tallies.semi_next allowed with ⟨ended, isEnded, talliesEnded⟩
      rw [isEnded]
      exact follows _ _ rest talliesEnded
    · intro full
      rw [tallies.semi_stop full]
      rfl
  case h_4 c rest notPipe notSemi =>
    rw [operatorAt_cons notPipe notSemi]
    by_cases isRedir : c = '<' ∨ c = '>'
    · have enough : rest.length < (c :: rest).length := Nat.lt_succ_self _
      rcases parseRedir_after getenv cursor.command (c := c) enough with ⟨command, parsed⟩
      rw [if_pos isRedir, if_pos isRedir, parsed]
      apply Follows.cons
      · intro allowed
        have isParsed := parsed stack.calls
        rw [if_pos allowed.2.2] at isParsed ⊢
        rcases tallies.redir_next allowed (parseRedir_argv isParsed) with
          ⟨changed, isSet, talliesSet⟩
        rw [Option.bind_eq_bind, Option.bind_some]
        dsimp only
        rw [isSet]
        exact follows _ _ _ talliesSet
      · intro full
        split
        case isTrue inStack =>
          rw [Option.bind_eq_bind, Option.bind_some]
          dsimp only
          rw [tallies.redir_stop full inStack]
          rfl
        case isFalse => rfl
    · rw [if_neg isRedir, if_neg isRedir]
      simpa using follows cursor shape rest tallies

theorem tokenizeLoop_follows {fuel : ℕ} (tallies : Tallies cursor quote shape) :
    Follows stack.calls (tokenizeLoop stack getenv fuel cursor text) shape
      (lexLoop fuel quote text) := by
  induction fuel generalizing cursor quote shape text with
  | zero => rfl
  | succ fuel ih =>
      rw [tokenizeLoop, lexLoop]
      rcases text.dropWhile isspace with _ | ⟨c, rest⟩
      · exact ⟨fun _ => ⟨cursor, quote, rfl, tallies⟩, fun full => absurd trivial full⟩
      · dsimp only
        rw [tallies.quote]
        rcases scanToken quote (c :: rest) with _ | ⟨token, quote', after⟩
        · rfl
        · have talliesQuote := tallies.requote quote'
          have isLexed : (do
              let lexs ← lexLoop fuel quote' (operatorAt after).2
              return (if token = [] then [] else [Lexeme.word]) ++ (operatorAt after).1 ++ lexs) =
              ((lexLoop fuel quote' (operatorAt after).2).map ((operatorAt after).1 ++ ·)).map
                ((if token = [] then [] else [Lexeme.word]) ++ ·) := by
            rw [Option.map_map]
            rcases lexLoop fuel quote' (operatorAt after).2 with _ | lexs
            · rfl
            · simp
          change Follows stack.calls (({ cursor with quote := quote' }.storeToken token).bind _)
            shape (do
              let lexs ← lexLoop fuel quote' (operatorAt after).2
              return (if token = [] then [] else [Lexeme.word]) ++ (operatorAt after).1 ++ lexs)
          rw [isLexed]
          by_cases isEmpty : token = []
          · rw [if_pos isEmpty, Cursor.storeToken, if_pos isEmpty]
            simp only [List.nil_append, Option.map_id', Option.bind_some]
            exact dispatch_follows (fun _ _ _ => ih) talliesQuote
          · rw [if_neg isEmpty]
            apply Follows.cons
            · intro allowed
              rcases talliesQuote.word_next allowed isEmpty with ⟨stored, isStored, talliesStored⟩
              rw [isStored, Option.bind_some]
              exact dispatch_follows (fun _ _ _ => ih) talliesStored
            · intro full
              rw [talliesQuote.word_stop full isEmpty]
              rfl

end

/-! ## Commands without words -/

section

variable {α : Type*} {p : α → Bool} {l : List α} {default : α}

/-- Elements that come first are those at the indices below their number. -/
theorem getD_of_pairwise (first : l.Pairwise fun a b => p b → p a) (notDefault : p default = false)
    (index : ℕ) : p (l.getD index default) ↔ index < l.countP p := by
  induction l generalizing index with
  | nil => simp [notDefault]
  | cons a l ih =>
      rcases List.pairwise_cons.mp first with ⟨isFirst, sorted⟩
      by_cases has : p a
      · rw [List.countP_cons_of_pos has]
        rcases index with _ | index
        · simp [has]
        · simpa using ih sorted index
      · have none : l.countP p = 0 :=
          List.countP_eq_zero.mpr fun b isIn holds => has (isFirst b isIn holds)
        rw [List.countP_cons_of_neg has, none]
        rcases index with _ | index
        · simpa using has
        · simpa [none] using ih sorted index

theorem pairwise_of_getD (leading : ∀ index < l.countP p, p (l.getD index default)) :
    l.Pairwise fun a b => p b → p a := by
  induction l with
  | nil => exact .nil
  | cons a l ih =>
      by_cases has : p a
      · rw [List.countP_cons_of_pos has] at leading
        refine .cons (fun _ _ _ => has) (ih fun index isBelow => ?_)
        exact leading (index + 1) (Nat.succ_lt_succ isBelow)
      · rw [List.countP_cons_of_neg has] at leading
        have none : l.countP p = 0 := by
          by_contra some
          exact has (leading 0 (Nat.pos_of_ne_zero some))
        refine .cons (fun b isIn holds => ?_) (ih fun index isBelow => ?_)
        · exact absurd holds (List.countP_eq_zero.mp none b isIn)
        · omega

end

namespace Shape

variable {shape : Shape}

theorem begins_iff (pipe : ℕ) : begins (shape.all.getD pipe []) ↔ shape.wordsAt pipe 0 ≠ 0 := by
  rw [begins, wordsAt, decide_eq_true_eq]
  rcases shape.all.getD pipe [] with _ | ⟨words, cmds⟩ <;> rfl

theorem executed_ended {pipe : ℕ} (isEnded : pipe < shape.ended.length) :
    shape.executed pipe = (shape.all.getD pipe []).length := by
  rw [executed, if_pos isEnded, all, List.getD_append _ _ _ _ isEnded]

theorem begins_of_named {pipe : ℕ} (isPipe : pipe < shape.pipes)
    (named : ∀ cmd < shape.executed pipe, shape.wordsAt pipe cmd ≠ 0) :
    begins (shape.all.getD pipe []) := by
  rw [begins_iff]
  by_cases isEnded : pipe < shape.ended.length
  · apply named
    rw [executed_ended isEnded, all, List.getD_append _ _ _ _ isEnded, List.length_pos_iff,
      List.getD_eq_getElem _ _ isEnded]
    exact fun isEmpty => shape.notEmpty (isEmpty ▸ List.getElem_mem isEnded)
  · have length : shape.all.length = shape.ended.length + 1 := by
      simp [all]
    have count : shape.pipes ≤ shape.all.length := List.countP_le_length
    have full : shape.all.countP begins = shape.all.length := by
      rw [pipes] at count isPipe
      omega
    rw [← begins_iff]
    have inAll : pipe < shape.all.length := by
      omega
    rw [List.getD_eq_getElem _ _ inAll]
    exact List.countP_eq_length.mp full _ (List.getElem_mem inAll)

/-- What is executed has words. -/
theorem named_iff :
    (∀ pipe < shape.pipes, ∀ cmd < shape.executed pipe, shape.wordsAt pipe cmd ≠ 0) ↔
      (shape.all.Pairwise fun cmds later => begins later → begins cmds) ∧
      (∀ cmds ∈ shape.ended, begins cmds → 0 ∉ cmds) ∧
      (begins shape.last → shape.last.Pairwise fun words later => later ≠ 0 → words ≠ 0) := by
  have notBegun : begins [] = false := rfl
  have lastAt : shape.all.getD shape.ended.length [] = shape.last := by
    rw [all, getD_concat, if_pos rfl]
  constructor
  · intro named
    have first := pairwise_of_getD fun pipe isPipe => begins_of_named isPipe (named pipe isPipe)
    refine ⟨first, ?_, ?_⟩
    · intro cmds isIn isBegun wordless
      rcases List.mem_iff_getElem.mp isIn with ⟨pipe, isEnded, rfl⟩
      rcases List.mem_iff_getElem.mp wordless with ⟨cmd, isCmd, isZero⟩
      have isAt : shape.all.getD pipe [] = shape.ended[pipe] := by
        rw [all, List.getD_append _ _ _ _ isEnded, List.getD_eq_getElem _ _ isEnded]
      have isPipe := (getD_of_pairwise first notBegun pipe).mp (by rwa [isAt])
      apply named pipe isPipe cmd
      · rwa [executed_ended isEnded, isAt]
      · rw [wordsAt, isAt, List.getD_eq_getElem _ _ isCmd, isZero]
    · intro isBegun
      have isPipe := (getD_of_pairwise first notBegun shape.ended.length).mp (by rwa [lastAt])
      suffices shape.last.Pairwise fun words later => decide (later ≠ 0) → decide (words ≠ 0) by
        simpa only [decide_eq_true_eq] using this
      apply pairwise_of_getD
      intro cmd isCmd
      have hasWords := named shape.ended.length isPipe cmd (by simpa [executed] using isCmd)
      rw [wordsAt, lastAt] at hasWords
      exact decide_eq_true hasWords
  · rintro ⟨first, named, last⟩ pipe isPipe cmd isCmd
    have isBegun := (getD_of_pairwise first notBegun pipe).mpr isPipe
    rcases lt_trichotomy pipe shape.ended.length with isEnded | rfl | behind
    · rw [executed_ended isEnded] at isCmd
      rw [wordsAt, List.getD_eq_getElem _ _ isCmd]
      intro isZero
      refine named _ ?_ isBegun (isZero ▸ List.getElem_mem isCmd)
      rw [all, List.getD_append _ _ _ _ isEnded, List.getD_eq_getElem _ _ isEnded]
      exact List.getElem_mem isEnded
    · rw [lastAt] at isBegun
      have sorted : shape.last.Pairwise fun words later =>
          decide (later ≠ 0) → decide (words ≠ 0) := by
        simpa only [decide_eq_true_eq] using last isBegun
      rw [executed, if_neg (lt_irrefl _), if_pos rfl] at isCmd
      have hasWords := (getD_of_pairwise sorted (show decide ((0 : ℕ) ≠ 0) = false from rfl)
        cmd).mpr isCmd
      rw [wordsAt, lastAt]
      exact of_decide_eq_true hasWords
    · rw [executed, if_neg behind.not_gt, if_neg behind.ne'] at isCmd
      omega

end Shape

/--
The tokenizer is safe exactly if there is a place for every lexeme of the line, and the commands
and the pipelines without words do not come before others.
-/
theorem tokenizes_safely_iff (stack : UserStack 2) (getenv : List Char → Option (List Char))
    (line : List Char) : TokenizesSafely stack getenv line ↔ WellShaped stack.calls line := by
  have follows : Follows stack.calls (tokenizeLoop stack getenv (line.length + 1)
    ⟨resetPipelines, 0, 0, 0, false⟩ line) Shape.start (lexemes line) :=
      tokenizeLoop_follows Tallies.start
  rw [WellShaped, TokenizesSafely, tokenize]
  rcases isLexed : lexemes line with _ | lexs <;> rw [isLexed] at follows
  · rw [Follows] at follows
    simp [follows]
  · by_cases places : Shape.start.Places stack.calls lexs
    · rcases follows.1 places with ⟨last, quote, isLast, tallies⟩
      rw [isLast]
      constructor
      · rintro ⟨tables, isTables, terminated, named⟩
        cases isTables
        have namedShape : ∀ pipe < (Shape.start.after lexs).pipes,
            ∀ cmd < (Shape.start.after lexs).executed pipe,
              (Shape.start.after lexs).wordsAt pipe cmd ≠ 0 := by
          intro pipe isPipe cmd isCmd
          rw [← tallies.pipes] at isPipe
          rw [← tallies.executed] at isCmd
          exact Nat.ne_zero_of_lt ((tallies.argv pipe cmd 0).mp (named pipe isPipe cmd isCmd))
        rcases Shape.named_iff.mp namedShape with ⟨first, ended, sorted⟩
        refine ⟨lexs, rfl, places, ?_, first, ended, sorted⟩
        intro pipe cmd
        rcases terminated pipe cmd with ⟨arg, inArgs, isNull⟩
        have notWord : ¬arg < (Shape.start.after lexs).wordsAt pipe cmd := by
          rw [← tallies.argv]
          exact not_not.mpr isNull
        omega
      · rintro ⟨lexs', isLexs, -, proper⟩
        cases isLexs
        have namedShape := Shape.named_iff.mpr ⟨proper.first, proper.named, proper.last⟩
        refine ⟨last.tables, rfl, ?_, ?_⟩
        · intro pipe cmd
          refine ⟨_, proper.terminated pipe cmd, ?_⟩
          by_contra notNull
          exact absurd ((tallies.argv pipe cmd _).mp notNull) (lt_irrefl _)
        · intro pipe isPipe cmd isCmd
          rw [tallies.pipes] at isPipe
          rw [tallies.executed] at isCmd
          rw [tallies.argv]
          exact Nat.pos_of_ne_zero (namedShape pipe isPipe cmd isCmd)
    · rw [follows.2 places]
      simp [places]

/-- The command before `;` has no word, but it is executed. -/
theorem not_tokenizes_safely :
    ¬TokenizesSafely (UserStack.page 2) (fun _ => none) [';', 'l', 's', '\n'] := by
  rintro ⟨tables, isTokenized, -, named⟩
  have counts : (tokenize (UserStack.page 2) (fun _ => none) [';', 'l', 's', '\n']).map
      (fun tables =>
        (tables.count, (tables.pipelines 0).count, ((tables.pipelines 0).cmds 0).argv 0)) =
      some (1, 1, none) := by
    decide
  rw [isTokenized, Option.map_some, Option.some_inj, Prod.mk.injEq, Prod.mk.injEq] at counts
  refine named 0 ?_ 0 ?_ counts.2.2
  · omega
  · omega

end Osix.Shell
