import Osix.User.Ctype
import Osix.User.Stack
import Mathlib.Logic.Function.Basic
import Mathlib.Data.List.Basic
import Mathlib.Tactic.Common

/-!
# The command lines of the shell

`tokenize` and `parse_redir` of `bin/sh.c`. The cursor into the line is the rest of the line:
what the two functions overwrite lies behind the cursor, or is put back. A store outside of
the tables of pipelines, commands and arguments is `none`, and so are a backslash at the very
end, which takes the cursor beyond the line, and a call for which the stack has no room.

A line that follows the grammar is a list of tokens with blanks between them. What the
tokenizer makes of it is compared with what it stands for.
-/

namespace Osix.Shell

open Ctype

/-- `MAX_ARGS`, `MAX_CMDS` and `MAX_PIPES`. -/
def maxArgs : ℕ := 256
def maxCmds : ℕ := 16
def maxPipes : ℕ := 16

/-- `struct Command`. -/
structure Command where
  argv : ℕ → Option (List Char)
  quoted : ℕ → Bool
  input : Option (List Char)
  output : Option (List Char)
  append : Bool

/-- `struct Pipeline`. -/
structure Pipeline where
  cmds : ℕ → Command
  count : ℕ

/-- `pipelines` and `pipelines_count`. -/
structure Tables where
  pipelines : ℕ → Pipeline
  count : ℕ

def Command.empty : Command := ⟨fun _ => none, fun _ => false, none, none, false⟩

def Pipeline.empty : Pipeline := ⟨fun _ => .empty, 0⟩

/-- `reset_pipelines`. -/
def resetPipelines : Tables := ⟨fun _ => .empty, 0⟩

/-! ## Redirections -/

/-- `expand_variable`, which frees its argument and returns a new string. -/
def expandVariable (getenv : List Char → Option (List Char)) : List Char → List Char
  | '$' :: name => (getenv name).getD []
  | arg => arg

/-- The target of a redirection goes on. -/
def inTarget (c : Char) : Bool := c ∉ [' ', '<', '>', '|', ';']

/-- A character that ends a token at once. -/
def isOperator (c : Char) : Bool := c ∈ [';', '|', '<', '>']

/-- The flags at the beginning of a redirection: it is an input, and the command. -/
def redirFlags (cmd : Command) : List Char → Bool × Command × List Char
  | _ :: '>' :: p => (false, { cmd with append := true }, p)
  | c :: p => (c = '<', cmd, p)
  | [] => (false, cmd, [])

/--
`parse_redir`, which calls itself if another redirection follows at once, with room on the stack
for so many calls.
-/
def parseRedir (getenv : List Char → Option (List Char)) :
    ℕ → Command → List Char → Option (Command × List Char)
  | 0, _, _ => none
  | calls + 1, cmd, text =>
      let (isInput, cmd, p) := redirFlags cmd text
      let p := p.dropWhile (· = ' ')
      let target := expandVariable getenv (p.takeWhile inTarget)
      let cmd := if isInput then { cmd with input := some target }
        else { cmd with output := some target }
      match p.dropWhile inTarget with
      | '<' :: rest => parseRedir getenv calls cmd ('<' :: rest)
      | '>' :: rest => parseRedir getenv calls cmd ('>' :: rest)
      | rest => some (cmd, rest)

/-! ## Tokens -/

/-- `copy_token`. -/
def copyToken (quote : Bool) : List Char → List Char
  | [] => []
  | '\"' :: rest => copyToken (!quote) rest
  | '\\' :: c :: rest =>
      if !quote ∧ c ∈ [' ', '\\', '\"'] then c :: copyToken quote rest
      else '\\' :: copyToken quote (c :: rest)
  | c :: rest => c :: copyToken quote rest

/-- The scan of a token: the token, the state of the quotes, and the rest of the line. -/
def scanToken (quote : Bool) : List Char → Option (List Char × Bool × List Char)
  | [] => some ([], quote, [])
  | c :: rest =>
      if isspace c ∧ !quote ∨ isOperator c then
        some ([], quote, c :: rest)
      else if c = '\\' then
        match rest with
        | [] => none
        | d :: rest => do
            let (token, quote, rest) ← scanToken quote rest
            return (c :: d :: token, quote, rest)
      else do
        let (token, quote, rest) ← scanToken (if c = '\"' then !quote else quote) rest
        return (c :: token, quote, rest)

/-- The variables of `tokenize`, with the tables. -/
structure Cursor where
  tables : Tables
  pipe : ℕ
  cmd : ℕ
  arg : ℕ
  quote : Bool

namespace Cursor

def command (cursor : Cursor) : Command := (cursor.tables.pipelines cursor.pipe).cmds cursor.cmd

/-- The command at the cursor is changed. -/
def setCommand (cursor : Cursor) (command : Command) : Option Cursor :=
  if cursor.pipe < maxPipes ∧ cursor.cmd < maxCmds then
    let pipeline := cursor.tables.pipelines cursor.pipe
    some { cursor with tables := { cursor.tables with
      pipelines := Function.update cursor.tables.pipelines cursor.pipe
        { pipeline with cmds := Function.update pipeline.cmds cursor.cmd command } } }
  else
    none

/-- The number of commands of the pipeline at the cursor is changed. -/
def setCount (cursor : Cursor) (count : ℕ) : Option Cursor :=
  if cursor.pipe < maxPipes then
    some { cursor with tables := { cursor.tables with
      pipelines := Function.update cursor.tables.pipelines cursor.pipe
        { cursor.tables.pipelines cursor.pipe with count := count } } }
  else
    none

/-- The first token of a command counts the command, and perhaps the pipeline. -/
def countCommand (cursor : Cursor) : Option Cursor :=
  if cursor.arg = 0 then
    let counted := if cursor.cmd = 0 then
        { cursor with tables := { cursor.tables with count := cursor.tables.count + 1 } }
      else cursor
    counted.setCount ((counted.tables.pipelines counted.pipe).count + 1)
  else
    some cursor

/-- A token becomes an argument. -/
def storeToken (cursor : Cursor) (token : List Char) : Option Cursor :=
  if token = [] then
    some cursor
  else do
    let counted ← cursor.countCommand
    if counted.arg < maxArgs then
      let command := counted.command
      let stored ← counted.setCommand { command with
        argv := Function.update command.argv counted.arg (some (copyToken false token))
        quoted := Function.update command.quoted counted.arg (token.head? = some '\"') }
      return { stored with arg := counted.arg + 1 }
    else
      none

/-- `;` ends a pipeline. -/
def endPipeline (cursor : Cursor) : Option Cursor :=
  (cursor.setCount (cursor.cmd + 1)).map fun ended =>
    { ended with pipe := ended.pipe + 1, cmd := 0, arg := 0 }

end Cursor

section

variable (stack : UserStack 2) (getenv : List Char → Option (List Char))

/-- What stands at the end of a token: an operator or a blank, and then the next turn. -/
def dispatch (loop : Cursor → List Char → Option Cursor) (cursor : Cursor) :
    List Char → Option Cursor
  | [] => loop cursor []
  | '|' :: rest => loop { cursor with cmd := cursor.cmd + 1, arg := 0 } rest
  | ';' :: rest => cursor.endPipeline.bind (loop · rest)
  | c :: rest =>
      if c = '<' ∨ c = '>' then do
        let (command, after) ← parseRedir getenv stack.calls cursor.command (c :: rest)
        let changed ← cursor.setCommand command
        loop changed (after.drop 1)
      else
        loop cursor rest

/-- The loop of `tokenize`; every turn takes something of the line. -/
def tokenizeLoop : ℕ → Cursor → List Char → Option Cursor
  | 0, _, _ => none
  | fuel + 1, cursor, text =>
      match text.dropWhile isspace with
      | [] => some cursor
      | c :: rest => do
          let (token, quote, after) ← scanToken cursor.quote (c :: rest)
          let stored ← { cursor with quote := quote }.storeToken token
          dispatch stack getenv (tokenizeLoop fuel) stored after

def tokenize (cmdline : List Char) : Option Tables :=
  (tokenizeLoop stack getenv (cmdline.length + 1) ⟨resetPipelines, 0, 0, 0, false⟩ cmdline).map
    Cursor.tables

end

/-! ## The grammar -/

/-- Blanks, perhaps none. -/
structure Blanks where
  text : List Char
  blank : ∀ c ∈ text, c = ' ' ∨ c = '\t'

/-- A character of a word. -/
def isPlain (c : Char) : Bool :=
  !isspace c && !isOperator c && c ∉ ['\"', '\\', '#', '$', '\x00']

/-- A word without special characters. -/
structure Word where
  text : List Char
  notEmpty : text ≠ []
  plain : ∀ c ∈ text, isPlain c = true

/-- The redirections `<`, `>` and `>>`. -/
inductive Op where
  | input
  | output
  | append
deriving DecidableEq

def Op.text : Op → List Char
  | .input => ['<']
  | .output => ['>']
  | .append => ['>', '>']

inductive Kind where
  | word (arg : Word)
  | redir (op : Op) (after : Blanks) (target : Word)
  | pipe
  | semi

structure Token where
  before : Blanks
  kind : Kind

def Kind.text : Kind → List Char
  | .word arg => arg.text
  | .redir op after target => op.text ++ (after.text ++ target.text)
  | .pipe => ['|']
  | .semi => [';']

def Token.text (token : Token) : List Char := token.before.text ++ token.kind.text

/--
The tokens are in a grammatical order, after a token that belongs to a command (`inside`) or
where a command begins: a command is a word followed by words and redirections.
-/
def Grammatical (inside : Bool) : List Token → Prop
  | [] => inside = true
  | token :: rest =>
      match token.kind with
      | .word _ => (inside = true → token.before.text ≠ []) ∧ Grammatical true rest
      | .redir _ _ _ => inside = true ∧ Grammatical true rest
      | .pipe => inside = true ∧ Grammatical false rest
      | .semi => inside = true ∧ Grammatical false rest

/-- A command line. -/
structure Line where
  tokens : List Token
  trailing : Blanks
  grammatical : Grammatical false tokens

/-- The text of tokens up to the end of the line. -/
def textOf (trailing : Blanks) (tokens : List Token) : List Char :=
  tokens.flatMap Token.text ++ (trailing.text ++ ['\n'])

def Line.text (line : Line) : List Char := textOf line.trailing line.tokens

/-! ## What a line stands for -/

/-- A command with its words and its redirections. -/
structure Cmd where
  argv : List (List Char)
  redirs : List (Op × List Char)
deriving DecidableEq

namespace Cmd

def empty : Cmd := ⟨[], []⟩

/-- The last redirection of the input. -/
def input (cmd : Cmd) : Option (List Char) :=
  ((cmd.redirs.filter fun redir => redir.1 = .input).getLast?).map Prod.snd

/-- The last redirection of the output. -/
def lastOutput (cmd : Cmd) : Option (Op × List Char) :=
  (cmd.redirs.filter fun redir => redir.1 ≠ .input).getLast?

def output (cmd : Cmd) : Option (List Char) := cmd.lastOutput.map Prod.snd

/-- The output is appended if its last redirection says so. -/
def append (cmd : Cmd) : Bool := cmd.lastOutput.map Prod.fst = some .append

/-- Some redirection says that the output is appended. -/
def appends (cmd : Cmd) : Bool := cmd.redirs.any fun redir => redir.1 = .append

end Cmd

/-- What a token does to the structure, with the text of its word. -/
inductive Event where
  | word (text : List Char)
  | redir (op : Op) (target : List Char)
  | pipe
  | semi
deriving DecidableEq

def Kind.event : Kind → Event
  | .word arg => .word arg.text
  | .redir op _ target => .redir op target.text
  | .pipe => .pipe
  | .semi => .semi

/-- The pipelines so far, the commands so far of the last one, and the last command. -/
structure Parts where
  pipes : List (List Cmd)
  cmds : List Cmd
  cur : Option Cmd
deriving DecidableEq

namespace Parts

def start : Parts := ⟨[], [], none⟩

def all (parts : Parts) : List (List Cmd) :=
  match parts.cur with
  | some cmd => parts.pipes ++ [parts.cmds ++ [cmd]]
  | none => if parts.cmds = [] then parts.pipes else parts.pipes ++ [parts.cmds]

/-- The last command, which begins with its first word. -/
def last (parts : Parts) : Cmd := parts.cur.getD .empty

def next (parts : Parts) : Event → Parts
  | .word text => { parts with cur := some { parts.last with argv := parts.last.argv ++ [text] } }
  | .redir op target =>
      { parts with cur := some { parts.last with redirs := parts.last.redirs ++ [(op, target)] } }
  | .pipe => { parts with cmds := parts.cmds ++ [parts.last], cur := none }
  | .semi => ⟨parts.pipes ++ [parts.cmds ++ [parts.last]], [], none⟩

def after (parts : Parts) (events : List Event) : Parts := events.foldl next parts

end Parts

def events (tokens : List Token) : List Event := tokens.map fun token => token.kind.event

/-- The pipelines of a line. -/
def Line.pipelines (line : Line) : List (List Cmd) := (Parts.start.after (events line.tokens)).all

/-- A command in the table, if its output is appended as `appended` says. -/
def Cmd.stored (appended : Cmd → Bool) (cmd : Cmd) : Command where
  argv index := cmd.argv[index]?
  quoted _ := false
  input := cmd.input
  output := cmd.output
  append := appended cmd

/-- A pipeline in the table. -/
def storedPipeline (appended : Cmd → Bool) (cmds : List Cmd) : Pipeline where
  cmds index := (cmds[index]?.map (Cmd.stored appended)).getD .empty
  count := cmds.length

/-- The tables with these pipelines, and nothing else. -/
def stored (appended : Cmd → Bool) (pipes : List (List Cmd)) : Tables where
  pipelines index := (pipes[index]?.map (storedPipeline appended)).getD .empty
  count := pipes.length

/-- The tables that a line stands for. -/
def Line.tables (line : Line) : Tables := stored Cmd.append line.pipelines

end Osix.Shell
