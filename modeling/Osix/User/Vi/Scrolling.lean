import Osix.User.Vi.Rows
import Mathlib.Tactic.SplitIfs

/-!
# What scrolling does not change

Two editors that differ only in the row at the top of the screen. All keys do the same to both, but
`$` takes the length of a line that depends on that row.
-/

namespace Osix.Vi

open Stdio (byteOf)

/-- The editor with another row at the top of the screen. -/
def State.scrolled (s : State) (offset : ℤ) : State := { s with rowOffset := offset }

/-- The editor without the row at the top. -/
def State.unscrolled (s : State) : State := s.scrolled 0

/-- The states differ only in the row at the top. -/
def SameButOffset (s t : State) : Prop := t = s.scrolled t.rowOffset

/-- The column of `$`, which takes it from the line `row + row_offset`. -/
def State.endColumn (s : State) : Option ℤ :=
  (strlen s.buffer (cell (s.row + s.rowOffset) 0)).map fun linelen : ℕ =>
    if 0 < linelen then (linelen : ℤ) - 1 else linelen

/-- The key completes `$`. -/
def MovesToEnd (s : State) (press : Press) : Prop :=
  s.exited = false ∧ s.mode = .command ∧
    cString (s.cmd ++ [press.key]) ∈ [keys "\x1b[F", keys "$"]

/-- Whenever `$` is executed, both editors take the same column. -/
def EndsAgree : State → State → List Press → Prop
  | _, _, [] => True
  | s, t, press :: presses =>
      (MovesToEnd s press → s.endColumn = t.endColumn) ∧
        ∀ s' t', processInput s press = some s' → processInput t press = some t' →
          EndsAgree s' t' presses

section

variable (s : State) (offset : ℤ)

/-- Of a computation that goes on with the state, only the rest has to be compared. -/
theorem bind_map_congr {α β : Type*} {a : Option α} {f g : α → Option State}
    {forget : State → β} (same : ∀ x, (f x).map forget = (g x).map forget) :
    (a.bind f).map forget = (a.bind g).map forget := by
  rcases a with _ | x
  · rfl
  · exact same x

/-- The row at the top is all that depends on the row at the top. -/
theorem moveCursor_scrolled (r c : ℤ) :
    (moveCursor (s.scrolled offset) r c).map State.unscrolled =
      (moveCursor s r c).map State.unscrolled := by
  apply bind_map_congr
  intro linelen
  rw [apply_ite (Option.map State.unscrolled), apply_ite (Option.map State.unscrolled)]
  rfl

/-- What changes the buffer does so anywhere on the screen. -/
theorem bind_scrolled {α : Type*} {a : Option α} {f g : α → Option State}
    (same : ∀ x, f x = (g x).map (State.scrolled · offset)) :
    a.bind f = (a.bind g).map (State.scrolled · offset) := by
  rcases a with _ | x
  · rfl
  · exact same x

theorem replaceChar_scrolled (count : ℤ) (c : Byte) :
    replaceChar (s.scrolled offset) count c =
      (replaceChar s count c).map (State.scrolled · offset) := by
  apply bind_scrolled
  intro linelen
  rw [apply_ite (Option.map _)]
  congr 1
  exact bind_scrolled offset fun _ => rfl

theorem deleteLines_scrolled (row count : ℤ) :
    deleteLines (s.scrolled offset) row count =
      (deleteLines s row count).map (State.scrolled · offset) := by
  rw [deleteLines, deleteLines, apply_ite (Option.map _)]
  congr 1
  exact bind_scrolled offset fun _ => rfl

theorem deleteWord_scrolled (row col : ℤ) (removeWhitespaceAfter : Bool) :
    deleteWord (s.scrolled offset) row col removeWhitespaceAfter =
      (deleteWord s row col removeWhitespaceAfter).map (State.scrolled · offset) := by
  apply bind_scrolled
  intro p
  exact bind_scrolled offset fun _ => rfl

theorem splitLine_scrolled :
    splitLine (s.scrolled offset) = (splitLine s).map (State.scrolled · offset) := by
  apply bind_scrolled
  intro buffer
  apply bind_scrolled
  intro buffer
  exact bind_scrolled offset fun _ => rfl

theorem loadFile_scrolled (file : Option Stdio.Input) :
    loadFile (s.scrolled offset) file = (loadFile s file).map (State.scrolled · offset) := by
  exact bind_scrolled offset fun _ => rfl

/-- After a change the cursor is moved to the same place. -/
theorem moveCursor_after {change changed : Option State} (row col : State → ℤ)
    (isChanged : changed = change.map (State.scrolled · offset))
    (sameRow : ∀ s, row (s.scrolled offset) = row s)
    (sameCol : ∀ s, col (s.scrolled offset) = col s) :
    (changed.bind fun s => moveCursor s (row s) (col s)).map State.unscrolled =
      (change.bind fun s => moveCursor s (row s) (col s)).map State.unscrolled := by
  rw [isChanged, Option.bind_map]
  apply bind_map_congr
  intro s
  rw [Function.comp_apply, sameRow, sameCol]
  exact moveCursor_scrolled s offset _ _

theorem ite_map_congr {β : Type*} {p : Prop} [Decidable p] {a b a' b' : Option State}
    {forget : State → β} (yes : p → a.map forget = a'.map forget)
    (no : ¬p → b.map forget = b'.map forget) :
    (if p then a else b).map forget = (if p then a' else b').map forget := by
  split
  case isTrue isP => exact yes isP
  case isFalse notP => exact no notP

theorem runCommand_end (count : ℤ) {cmd : List Byte} (isEnd : cmd ∈ [keys "\x1b[F", keys "$"]) :
    runCommand s count cmd = s.endColumn.bind (moveCursor s s.row) := by
  rw [State.endColumn, Option.bind_map]
  simp only [List.mem_cons, List.not_mem_nil, or_false] at isEnd
  rcases isEnd with rfl | rfl <;> rfl

/-- Every command but `$` does the same. -/
theorem runCommand_scrolled (count : ℤ) (cmd : List Byte)
    (ends : cmd ∈ [keys "\x1b[F", keys "$"] → (s.scrolled offset).endColumn = s.endColumn) :
    (runCommand (s.scrolled offset) count cmd).map State.unscrolled =
      (runCommand s count cmd).map State.unscrolled := by
  have moves := moveCursor_scrolled s offset
  by_cases isEnd : cmd ∈ [keys "\x1b[F", keys "$"]
  · rw [runCommand_end _ _ isEnd, runCommand_end _ _ isEnd, ends isEnd]
    exact bind_map_congr fun column => moves _ _
  unfold runCommand
  dsimp only
  refine ite_map_congr (fun _ => rfl) fun _ => ?_
  refine ite_map_congr (fun _ => moveCursor_scrolled { s with mode := .insert } offset _ _)
    fun _ => ?_
  refine ite_map_congr (fun _ => rfl) fun _ => ?_
  refine ite_map_congr (fun _ => moves _ _) fun _ => ?_
  refine ite_map_congr (fun _ => moves _ _) fun _ => ?_
  refine ite_map_congr (fun _ => moves _ _) fun _ => ?_
  refine ite_map_congr (fun _ => moves _ _) fun _ => ?_
  refine ite_map_congr (fun _ => moves _ _) fun _ => ?_
  refine ite_map_congr (fun _ => moves _ _) fun _ => ?_
  refine ite_map_congr (fun _ => moves _ _) fun _ => ?_
  refine ite_map_congr (fun isMove => ?_) fun _ => ?_
  · exact absurd (by simpa using isMove) isEnd
  refine ite_map_congr (fun _ => ?_) fun _ => ?_
  · apply bind_map_congr
    intro linelen
    refine ite_map_congr (fun _ => ?_) fun _ => rfl
    apply bind_map_congr
    intro rest
    apply bind_map_congr
    intro buffer
    exact moveCursor_scrolled { s with buffer := buffer } offset _ _
  refine ite_map_congr (fun _ => rfl) fun _ => ?_
  refine ite_map_congr (fun _ => ?_) fun _ => ?_
  · exact moveCursor_after offset State.row State.col (deleteLines_scrolled s offset _ _)
      (fun _ => rfl) fun _ => rfl
  refine ite_map_congr (fun _ => ?_) fun _ => ?_
  · exact moveCursor_after offset State.row State.col (deleteWord_scrolled s offset _ _ _)
      (fun _ => rfl) fun _ => rfl
  refine ite_map_congr (fun _ => ?_) fun _ => ?_
  · rw [deleteWord_scrolled]
    change ((Option.map _ _).bind _).map _ = _
    rw [Option.bind_map]
    apply bind_map_congr
    intro s
    exact moveCursor_scrolled { s with mode := .insert } offset _ _
  refine ite_map_congr (fun _ => ?_) fun _ => ?_
  · exact ite_map_congr (fun _ => moves _ _) fun _ => moves _ _
  exact ite_map_congr (fun _ => rfl) fun _ => rfl

/-- What is done with the result does not depend on the row at the top. -/
theorem bind_some_congr {a b : Option State} {f : State → State}
    (same : a.map State.unscrolled = b.map State.unscrolled)
    (commutes : ∀ s, (f s).unscrolled = f s.unscrolled) :
    (a.bind fun s => some (f s)).map State.unscrolled =
      (b.bind fun s => some (f s)).map State.unscrolled := by
  have isComp : State.unscrolled ∘ f = f ∘ State.unscrolled := funext commutes
  change (a.bind (some ∘ f)).map _ = (b.bind (some ∘ f)).map _
  rw [← Option.map_eq_bind, ← Option.map_eq_bind, Option.map_map, Option.map_map, isComp,
    ← Option.map_map, ← Option.map_map, same]

theorem commandModeInput_scrolled (c : Byte)
    (ends : cString (s.cmd ++ [c]) ∈ [keys "\x1b[F", keys "$"] →
      (s.scrolled offset).endColumn = s.endColumn) :
    (commandModeInput (s.scrolled offset) c).map State.unscrolled =
      (commandModeInput s c).map State.unscrolled := by
  refine ite_map_congr (fun _ => rfl) fun _ => ite_map_congr (fun _ => ?_) fun _ => rfl
  refine ite_map_congr (fun _ => rfl) fun _ => ?_
  have same := runCommand_scrolled { s with cmd := s.cmd ++ [c] } offset s.count
    (cString (s.cmd ++ [c])) ends
  refine bind_some_congr (f := fun s => if s.mode = .replaceChar then s else s.clearCommand)
    same fun s => ?_
  rw [apply_ite State.unscrolled]
  rfl

theorem replaceModeInput_scrolled (c : Byte) :
    (replaceModeInput (s.scrolled offset) c).map State.unscrolled =
      (replaceModeInput s c).map State.unscrolled := by
  rw [replaceModeInput, replaceChar_scrolled]
  change ((Option.map _ _).bind _).map _ = _
  rw [Option.bind_map]
  exact bind_map_congr fun _ => rfl

theorem insertModeInput_scrolled (c : Byte) :
    (insertModeInput (s.scrolled offset) c).map State.unscrolled =
      (insertModeInput s c).map State.unscrolled := by
  refine ite_map_congr (fun _ => moveCursor_scrolled { s with mode := .command } offset _ _)
    fun _ => ?_
  refine ite_map_congr (fun _ => ?_) fun _ => ?_
  · apply bind_map_congr
    intro buffer
    exact moveCursor_scrolled { s with buffer := buffer } offset _ _
  refine ite_map_congr (fun _ => ?_) fun _ => ?_
  · exact moveCursor_after offset (fun s => s.row + 1) (fun _ => 0) (splitLine_scrolled s offset)
      (fun _ => rfl) fun _ => rfl
  · apply bind_map_congr
    intro moved
    apply bind_map_congr
    intro buffer
    exact moveCursor_scrolled { s with buffer := buffer, col := s.col + 1 } offset _ _

theorem runCommandline_scrolled (file : Option Stdio.Input) (cmdline : List Byte) :
    (runCommandline (s.scrolled offset) file cmdline).map State.unscrolled =
      (runCommandline s file cmdline).map State.unscrolled := by
  refine ite_map_congr (fun _ => rfl) fun _ => ite_map_congr (fun _ => ?_) fun _ => ?_
  · exact moveCursor_after offset (fun _ => 0) (fun _ => 0) (loadFile_scrolled s offset file)
      (fun _ => rfl) fun _ => rfl
  · refine ite_map_congr (fun _ => rfl) fun _ => ?_
    exact ite_map_congr (fun _ => rfl) fun _ => rfl

theorem commandlineModeInput_scrolled (file : Option Stdio.Input) (c : Byte) :
    (commandlineModeInput (s.scrolled offset) file c).map State.unscrolled =
      (commandlineModeInput s file c).map State.unscrolled := by
  refine ite_map_congr (fun _ => ?_) fun _ => ?_
  · exact bind_some_congr (f := fun s => { s with cmdline := [], mode := .command })
      (runCommandline_scrolled s offset file s.cmdline) fun _ => rfl
  · refine ite_map_congr (fun _ => rfl) fun _ => ite_map_congr (fun _ => rfl) fun _ => ?_
    refine ite_map_congr (fun _ => ?_) fun _ => rfl
    exact ite_map_congr (fun _ => rfl) fun _ => rfl

/-- Every key but that of `$` does the same. -/
theorem processInput_scrolled (press : Press)
    (ends : MovesToEnd s press → (s.scrolled offset).endColumn = s.endColumn) :
    (processInput (s.scrolled offset) press).map State.unscrolled =
      (processInput s press).map State.unscrolled := by
  refine ite_map_congr (fun _ => rfl) fun isRunning => ?_
  rw [Bool.not_eq_true] at isRunning
  have sameMode : (s.scrolled offset).mode = s.mode := rfl
  rw [sameMode]
  rcases isMode : s.mode with _ | _ | _ | _ | _
  · rfl
  · exact commandModeInput_scrolled s offset _ fun isEnd => ends ⟨isRunning, isMode, isEnd⟩
  · exact commandlineModeInput_scrolled s offset _ _
  · exact insertModeInput_scrolled s offset _
  · exact replaceModeInput_scrolled s offset _

end

/-! ## Runs -/

theorem SameButOffset.unscrolled {s t : State} (same : SameButOffset s t) :
    s.unscrolled = t.unscrolled := by
  rw [same]
  rfl

theorem sameButOffset_of_unscrolled {s t : State} (same : s.unscrolled = t.unscrolled) :
    SameButOffset s t := by
  have isScrolled : t = t.unscrolled.scrolled t.rowOffset := rfl
  rw [← same] at isScrolled
  exact isScrolled

/--
Two editors that differ only in the row at the top do the same with all keys, as long as they take
the same column whenever `$` is executed.
-/
theorem run_scrolled (s t : State) (same : SameButOffset s t) (presses : List Press)
    (ends : EndsAgree s t presses) (n : ℕ) :
    (run s (presses.take n)).map State.unscrolled =
      (run t (presses.take n)).map State.unscrolled := by
  induction presses generalizing s t n with
  | nil =>
      rw [List.take_nil]
      exact congrArg some same.unscrolled
  | cons press presses ih =>
      rcases n with _ | n
      · exact congrArg some same.unscrolled
      · rw [List.take_succ_cons, run, run, List.foldlM_cons, List.foldlM_cons]
        have first := processInput_scrolled s t.rowOffset press fun isEnd => by
          rw [← same]
          exact (ends.1 isEnd).symm
        rw [← same] at first
        rcases isNext : processInput s press with _ | s'
        · rw [isNext, Option.map_none, Option.map_eq_none_iff] at first
          rw [first]
        · rcases isNext' : processInput t press with _ | t'
          · rw [isNext, isNext'] at first
            contradiction
          · rw [isNext, isNext', Option.map_some, Option.map_some, Option.some_inj] at first
            exact ih s' t' (sameButOffset_of_unscrolled first.symm)
              (ends.2 s' t' isNext isNext') n

/-! ## Buffers of a few lines -/

/-- A buffer whose second and third row are `aa`. -/
def equalRows : Libc.Memory := fun p =>
  if p < bufferSize then some (if p ∈ [256, 257, 512, 513] then byteOf 'a' else 0) else none

/-- The cursor is at the beginning of the second of three lines. -/
def atEqualRow (rowOffset : ℤ) : State :=
  ⟨equalRows, 1, 0, 0, 3, rowOffset, .command, [], 0, [], false⟩

theorem endColumn_atEqualRow :
    (atEqualRow 0).endColumn = some 1 ∧ (atEqualRow 1).endColumn = some 1 := by
  decide +kernel

/-- `$` finds the same end in both lines, and a character is deleted there. -/
theorem run_scrolled_end :
    MovesToEnd (atEqualRow 0) ⟨byteOf '$', none⟩ ∧
      (run (atEqualRow 0) [⟨byteOf '$', none⟩, ⟨byteOf 'x', none⟩]).map State.unscrolled =
        (run (atEqualRow 1) [⟨byteOf '$', none⟩, ⟨byteOf 'x', none⟩]).map State.unscrolled := by
  refine ⟨⟨rfl, rfl, by decide⟩, ?_⟩
  refine run_scrolled (atEqualRow 0) (atEqualRow 1) rfl
    [⟨byteOf '$', none⟩, ⟨byteOf 'x', none⟩] ⟨fun _ => ?_, fun s' t' isNext _ => ?_⟩ 2
  · exact endColumn_atEqualRow.1.trans endColumn_atEqualRow.2.symm
  · refine ⟨fun isEnd => ?_, fun _ _ _ _ => trivial⟩
    -- nothing is left of the command when `x` is pressed
    have isDone : (processInput (atEqualRow 0) ⟨byteOf '$', none⟩).map State.cmd = some [] := by
      decide +kernel
    rw [isNext, Option.map_some, Option.some_inj] at isDone
    rw [MovesToEnd, isDone] at isEnd
    exact absurd isEnd.2.2 (by decide)

/-- `$` takes the length of a line that is not there. -/
theorem not_run_scrolled :
    ∃ s t, Bounded s ∧ Bounded t ∧ SameButOffset s t ∧
      ∃ presses, (run s presses).map State.col ≠ (run t presses).map State.col := by
  refine ⟨atSecondRow .command 0, atSecondRow .command 1,
    bounded_atSecondRow (by decide) (by decide), bounded_atSecondRow (by decide) (by decide), rfl,
    [⟨byteOf '$', none⟩], ?_⟩
  have first : (run (atSecondRow .command 0) [⟨byteOf '$', none⟩]).map State.col = some 1 := by
    decide +kernel
  have second : (run (atSecondRow .command 1) [⟨byteOf '$', none⟩]).map State.col = some 0 := by
    decide +kernel
  rw [first, second]
  decide

end Osix.Vi
