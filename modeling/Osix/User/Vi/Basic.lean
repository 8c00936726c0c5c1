import Osix.User.Input
import Osix.User.Memmove

/-!
# The editor

The programs `vi.c`, `command.c`, `insert.c` and `commandline.c` of `usr.bin/vi`. The buffer is the
memory from address 0 on, one row behind the other, and an access outside of it is `none`. What is
drawn on the screen is left out, and so are the message and the name of the file.

A key that makes the editor open a file comes with what can be read from it. After `r` the editor
reads the next key itself; here it waits for that key with its mode and its count.
-/

namespace Osix.Vi

open Libc (Memory)
open Stdio (Input byteOf)

/-- `MAX_ROWS`, `MAX_COLS` and `ROWS`. -/
def maxRows : ℕ := 1024
def maxCols : ℕ := 256
def screenRows : ℕ := 25

/-- `sizeof(buffer)`. -/
def bufferSize : ℕ := maxRows * maxCols

/-- A number as an `int`. -/
def int (n : ℤ) : ℤ := n.bmod (2 ^ 32)

/-- `enum Mode`. -/
inductive Mode where
  | ex
  | command
  | commandLine
  | insert
  | replaceChar
deriving DecidableEq

/--
The variables of the editor, with those of `command_mode_input` and `commandline_mode_input`: the
first `cmdlen` characters of `cmd` and of `cmdline`. Behind them there are zeros.
-/
structure State where
  buffer : Memory
  row : ℤ
  col : ℤ
  wantCol : ℤ
  lines : ℤ
  rowOffset : ℤ
  mode : Mode
  cmd : List Byte
  count : ℤ
  cmdline : List Byte
  exited : Bool

/-! ## The buffer -/

/-- `&buffer[row][col]`. -/
def cell (row col : ℤ) : ℕ := ((row * maxCols + col) % 2 ^ 32).toNat

/-- `*p = b`. -/
def store (buffer : Memory) (p : ℕ) (b : Byte) : Option Memory :=
  (buffer p).map fun _ => Function.update buffer p (some b)

/-- Bytes are stored one behind the other. -/
def storeAll (buffer : Memory) : ℕ → List Byte → Option Memory
  | _, [] => some buffer
  | p, b :: bytes => do storeAll (← store buffer p b) (p + 1) bytes

/-- The loop of `strlen`; it cannot read more bytes than there are. -/
def strlenLoop (buffer : Memory) : ℕ → ℕ → Option ℕ
  | 0, _ => none
  | left + 1, p => do
      let b ← buffer p
      if b = 0 then return 0 else return (← strlenLoop buffer left (p + 1)) + 1

def strlen (buffer : Memory) (p : ℕ) : Option ℕ := strlenLoop buffer (bufferSize + 1) p

/-- `memcpy`. -/
def memcpy (buffer : Memory) (dst src n : ℕ) : Option Memory :=
  (Libc.copyUp dst src n 0 ⟨buffer, 0⟩).map Libc.Copying.memory

/-- `memmove`; its size is unsigned. -/
def memmove (buffer : Memory) (dst src : ℕ) (n : ℤ) : Option Memory :=
  (Libc.memmove buffer dst src (n % 2 ^ 32).toNat).map Libc.Copying.memory

/-- `strncpy`. -/
def strncpy (buffer : Memory) : ℕ → ℕ → ℕ → Option Memory
  | _, _, 0 => some buffer
  | dst, src, n + 1 => do
      let b ← buffer src
      let buffer ← store buffer dst b
      if b = 0 then storeAll buffer (dst + 1) (List.replicate n 0)
      else strncpy buffer (dst + 1) (src + 1) n

/-! ## The cursor -/

/-- The column of the cursor in another row, before it is compared with the length of the line. -/
def State.colIn (s : State) (r c : ℤ) : ℤ :=
  if c = s.col ∧ s.row ≠ r ∧ c < s.wantCol then s.wantCol else c

/-- The row of the cursor. -/
def State.rowAt (s : State) (r : ℤ) : ℤ := if s.lines ≤ r then s.lines - 1 else r

/-- The row at the top of the screen, if the cursor is in a row. -/
def State.topFor (s : State) (row : ℤ) : ℤ :=
  if s.rowOffset + screenRows - 1 ≤ row then
    s.rowOffset + (row - (s.rowOffset + screenRows - 2))
  else if row < s.rowOffset then
    s.rowOffset - (s.rowOffset - row)
  else
    s.rowOffset

/-- `last_col`. -/
def State.lastCol (s : State) (linelen : ℕ) : ℤ :=
  if 0 < linelen then if s.mode = .command then linelen - 1 else linelen else 0

/-- `move_cursor`. -/
def moveCursor (s : State) (r c : ℤ) : Option State := do
  let c := if c < 0 then 0 else c
  let r := if r < 0 then 0 else r
  let col := s.colIn r c
  let row := s.rowAt r
  let rowOffset := s.topFor row
  let linelen ← strlen s.buffer (cell row 0)
  if s.lastCol linelen < col then
    return { s with row := row, rowOffset := rowOffset, wantCol := col, col := s.lastCol linelen }
  else
    return { s with row := row, rowOffset := rowOffset, col := col }

/-! ## Commands -/

/-- The loop of `replace_char`. -/
def replaceChar (s : State) (count : ℤ) (c : Byte) : Option State := do
  let linelen ← strlen s.buffer (cell s.row 0)
  if int (s.col + count) ≤ linelen then
    let buffer ← storeAll s.buffer (cell s.row s.col)
      (List.replicate (int (s.col + count) - s.col).toNat c)
    return { s with buffer := buffer }
  else
    return s

/-- A row gets what is in another one behind it, or is cleared. -/
def deleteRow (lines count r : ℤ) (buffer : Memory) : Option Memory :=
  let src := int (r + count)
  if src < lines then memcpy buffer (cell r 0) (cell src 0) maxCols
  else storeAll buffer (cell r 0) (List.replicate maxCols 0)

/-- The loop of `delete_lines`, for so many rows from `r` on. -/
def deleteLoop (lines count : ℤ) : ℕ → ℤ → Memory → Option Memory
  | 0, _, buffer => some buffer
  | left + 1, r, buffer => do
      deleteLoop lines count left (r + 1) (← deleteRow lines count r buffer)

/-- `delete_lines`. -/
def deleteLines (s : State) (row count : ℤ) : Option State :=
  if count = 0 ∨ s.lines < int (row + count) then
    some s
  else do
    let buffer ← deleteLoop s.lines count (s.lines - row).toNat row s.buffer
    let lines := int (s.lines - count)
    return { s with buffer := buffer, lines := if lines < 1 then 1 else lines }

def isspace (c : Byte) : Bool := c ∈ [' ', '\t', '\n', '\x0b', '\x0c', '\x0d'].map byteOf

def ispunct (c : Byte) : Bool :=
  c ∈ ("!\"#$%&'()*+,-./:;<=>?@[\\]^_\x60\x7b|\x7d~".toList).map byteOf

/-- `p` is moved over characters of a class. -/
def skip (buffer : Memory) (inClass : Byte → Bool) : ℕ → ℕ → Option ℕ
  | 0, _ => none
  | left + 1, p => do
      let b ← buffer p
      if inClass b then skip buffer inClass left (p + 1) else return p

/-- The end of a word, and of the whitespace behind it if that is removed, too. -/
def wordEnd (buffer : Memory) (removeWhitespaceAfter : Bool) (p : ℕ) : Option ℕ := do
  let p ← skip buffer (fun b => b ≠ 0 ∧ !isspace b ∧ !ispunct b) (bufferSize + 1) p
  if removeWhitespaceAfter then skip buffer isspace (bufferSize + 1) p else return p

/-- `delete_word`. -/
def deleteWord (s : State) (row col : ℤ) (removeWhitespaceAfter : Bool) : Option State := do
  let p ← wordEnd s.buffer removeWhitespaceAfter (cell row (col + 1))
  let e : ℤ := p - cell row 0
  let buffer ← memmove s.buffer (cell row col) p (maxCols - e)
  return { s with buffer := buffer }

/-- A command as it is typed. -/
def keys (text : String) : List Byte := text.toList.map byteOf

/-- `run_command`; after `r` there is a key to come. -/
def runCommand (s : State) (count : ℤ) (cmd : List Byte) : Option State :=
  let realCount := count
  let count := if count < 1 then 1 else count
  if cmd = keys "i" then
    some { s with mode := .insert }
  else if cmd = keys "a" then
    moveCursor { s with mode := .insert } s.row (s.col + 1)
  else if cmd = keys "r" then
    some { s with mode := .replaceChar }
  else if cmd = keys "h" ∨ cmd = keys "\x1b[D" then
    moveCursor s s.row (int (s.col - count))
  else if cmd = keys "l" ∨ cmd = keys "\x1b[C" then
    moveCursor s s.row (int (s.col + count))
  else if cmd = keys "k" ∨ cmd = keys "\x1b[A" then
    moveCursor s (int (s.row - count)) s.col
  else if cmd = keys "j" ∨ cmd = keys "\x1b[B" then
    moveCursor s (int (s.row + count)) s.col
  else if cmd = keys "\x1b[5~" then
    moveCursor s (int (s.row - (screenRows - 1) * count + 1)) s.col
  else if cmd = keys "\x1b[6~" then
    moveCursor s (int (s.row + (screenRows - 1) * count - 1)) s.col
  else if cmd = keys "\x1b[H" ∨ cmd = keys "0" then
    moveCursor s s.row 0
  else if cmd = keys "\x1b[F" ∨ cmd = keys "$" then do
    let linelen ← strlen s.buffer (cell (s.row + s.rowOffset) 0)
    moveCursor s s.row (if 0 < linelen then linelen - 1 else linelen)
  else if cmd = keys "x" then do
    let linelen ← strlen s.buffer (cell s.row 0)
    if int (s.col + count) ≤ linelen then
      let rest ← strlen s.buffer (cell s.row s.col)
      let buffer ← memmove s.buffer (cell s.row s.col) (cell s.row (int (s.col + count))) rest
      moveCursor { s with buffer := buffer } s.row s.col
    else
      return s
  else if cmd = keys "ZZ" then
    some { s with exited := true }
  else if cmd = keys "dd" then do
    let s ← deleteLines s s.row count
    moveCursor s s.row s.col
  else if cmd = keys "dw" then do
    let s ← deleteWord s s.row s.col true
    moveCursor s s.row s.col
  else if cmd = keys "cw" then do
    let s ← deleteWord s s.row s.col false
    moveCursor { s with mode := .insert } s.row s.col
  else if cmd = keys "G" then
    if realCount ≠ 0 then moveCursor s (count - 1) s.col else moveCursor s (s.lines - 1) s.col
  else if cmd = keys ":" then
    some { s with mode := .commandLine }
  else
    some s

/-- `cmd` as a string. -/
def cString (cmd : List Byte) : List Byte := cmd.takeWhile (· ≠ 0)

/-- Commands that wait for more input. -/
def incomplete : List (List Byte) :=
  [keys "d", keys "c", keys "Z", keys "\x1b", keys "\x1b[", keys "\x1b[5", keys "\x1b[6"]

/-- The size of `cmd`. -/
def cmdSize : ℕ := 8

def State.clearCommand (s : State) : State := { s with cmd := [], count := 0 }

/-- `command_mode_input`. -/
def commandModeInput (s : State) (c : Byte) : Option State :=
  if s.cmd = [] ∧ (byteOf '1' ≤ c ∨ byteOf '0' ≤ c ∧ 0 < s.count) ∧ c ≤ byteOf '9' then
    some { s with count := int (int (s.count * 10) + (c.toNat - (byteOf '0').toNat)) }
  else if s.cmd.length < cmdSize then
    let s := { s with cmd := s.cmd ++ [c] }
    if cString s.cmd ∈ incomplete then
      some s
    else do
      let s ← runCommand s s.count (cString s.cmd)
      return if s.mode = .replaceChar then s else s.clearCommand
  else
    none

/-- The key that `replace_char` has read. -/
def replaceModeInput (s : State) (c : Byte) : Option State := do
  let s ← replaceChar s (if s.count < 1 then 1 else s.count) c
  return { s with mode := .command }.clearCommand

/-! ## Text -/

/-- The loop of `split_line`, for so many rows up to `l`. -/
def splitLoop : ℕ → ℤ → Memory → Option Memory
  | 0, _, buffer => some buffer
  | left + 1, l, buffer => do
      splitLoop left (l - 1) (← memcpy buffer (cell l 0) (cell (l - 1) 0) maxCols)

/-- `split_line`. -/
def splitLine (s : State) : Option State := do
  let buffer ← splitLoop (s.lines - (s.row + 1)).toNat s.lines s.buffer
  let buffer ← strncpy buffer (cell (s.row + 1) 0) (cell s.row s.col) maxCols
  let buffer ← store buffer (cell s.row s.col) 0
  return { s with buffer := buffer, lines := s.lines + 1 }

/-- A character is inserted at the cursor, and moves it. -/
def insertChar (s : State) (c : Byte) : Option State := do
  let buffer ← memmove s.buffer (cell s.row (s.col + 1)) (cell s.row s.col) (maxCols - s.col - 1)
  let buffer ← store buffer (cell s.row s.col) c
  moveCursor { s with buffer := buffer, col := s.col + 1 } s.row (s.col + 1)

/-- `insert_mode_input`. -/
def insertModeInput (s : State) (c : Byte) : Option State :=
  if c = 27 then
    moveCursor { s with mode := .command } s.row (s.col - 1)
  else if c = 127 ∧ 0 < s.col then do
    let buffer ← store s.buffer (cell s.row (s.col - 1)) 0
    moveCursor { s with buffer := buffer } s.row (s.col - 1)
  else if c = byteOf '\n' then do
    let s ← splitLine s
    moveCursor s (s.row + 1) 0
  else
    insertChar s c

/-! ## Files -/

/-- A newline at the end of a row is taken away. -/
def stripNewline (buffer : Memory) (line : ℕ) : Option Memory := do
  let len ← strlen buffer (cell line 0)
  if 0 < len ∧ buffer (cell line (len - 1)) = some (byteOf '\n') then
    store buffer (cell line (len - 1)) 0
  else
    return buffer

/-- The loop of `load_file`; it cannot fill more rows than there are. -/
def loadLoop : ℕ → ℕ → Memory → Input → Option (Memory × ℕ)
  | 0, _, _, _ => none
  | left + 1, lines, buffer, input => do
      let ((stored, isNull), input) := input.fgets maxCols
      let buffer ← storeAll buffer (cell lines 0) stored
      if isNull then return (buffer, lines)
      else loadLoop left (lines + 1) (← stripNewline buffer lines) input

/-- The rows of a file; one that cannot be opened is `none`. -/
def loadRows (buffer : Memory) : Option Input → Option (Memory × ℕ)
  | none => some (buffer, 0)
  | some input => loadLoop (maxRows + 1) 0 buffer input

/-- `load_file`. -/
def loadFile (s : State) (file : Option Input) : Option State := do
  let (buffer, lines) ← loadRows s.buffer file
  return { s with buffer := buffer, lines := if lines = 0 then 1 else lines }

/-! ## The command line -/

/-- `run_commandline`. -/
def runCommandline (s : State) (file : Option Input) (cmdline : List Byte) : Option State :=
  if cmdline = keys "sh" ∨ cmdline = keys "shell" then
    some s
  else if cmdline.take 2 = keys "r " then do
    let s ← loadFile s file
    moveCursor s 0 0
  else if cmdline = keys "wq" then
    some { s with exited := true }
  else if cmdline = keys "q" ∨ cmdline = keys "q!" then
    some { s with exited := true }
  else
    some s

/-- The size of `cmdline`. -/
def cmdlineSize : ℕ := 256

def isprint (c : Byte) : Bool := 32 ≤ c ∧ c < 127

/-- `commandline_mode_input`. -/
def commandlineModeInput (s : State) (file : Option Input) (c : Byte) : Option State :=
  if c = byteOf '\n' ∨ c = 13 then do
    let s ← runCommandline s file s.cmdline
    return { s with cmdline := [], mode := .command }
  else if c = 27 then
    some { s with cmdline := [], mode := .command }
  else if c = 127 then
    some { s with cmdline := s.cmdline.dropLast }
  else if isprint c then
    if s.cmdline.length < cmdlineSize then some { s with cmdline := s.cmdline ++ [c] } else none
  else
    some s

/-! ## Keys -/

/-- A key, with the file that is opened if it asks for one. -/
structure Press where
  key : Byte
  file : Option Input

/-- `process_input`. -/
def processInput (s : State) (press : Press) : Option State :=
  if s.exited then
    some s
  else
    match s.mode with
    | .ex => some s
    | .replaceChar => replaceModeInput s press.key
    | .commandLine => commandlineModeInput s press.file press.key
    | .command => commandModeInput s press.key
    | .insert => insertModeInput s press.key

/-- The loop of `main`. -/
def run (s : State) (presses : List Press) : Option State := presses.foldlM processInput s

/-! ## Bounds -/

/-- The bounds that the editor relies on. -/
structure Bounded (s : State) : Prop where
  mapped : ∀ p, s.buffer p ≠ none ↔ p < bufferSize
  terminated : ∀ r < maxRows, ∃ c < maxCols, s.buffer (r * maxCols + c) = some 0
  someLine : 1 ≤ s.lines
  fewLines : s.lines ≤ maxRows
  row : 0 ≤ s.row ∧ s.row < s.lines
  col : 0 ≤ s.col ∧ ∃ linelen, strlen s.buffer (cell s.row 0) = some linelen ∧ s.col ≤ linelen
  screen : 0 ≤ s.rowOffset ∧ s.rowOffset ≤ s.row ∧ s.row < s.rowOffset + screenRows - 1
  cmd : s.cmd.length < cmdSize
  cmdline : s.cmdline.length < cmdlineSize

end Osix.Vi
