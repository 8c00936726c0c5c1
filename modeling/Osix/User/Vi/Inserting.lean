import Osix.User.Vi.Rows

/-!
# Inserting and erasing

Characters that are typed in insert mode shift the rest of their row, and backspaces put zeros in
their places. The rest of the row stays shifted, behind the zeros.
-/

namespace Osix.Vi

open Libc (Memory)
open Stdio (byteOf)

def typed (chars : List Byte) : List Press := chars.map fun c => ⟨c, none⟩

def backspaces (count : ℕ) : List Press := List.replicate count ⟨127, none⟩

/-- All rows, the number of lines and the cursor are the same as before. -/
structure SameText (s after : State) : Prop where
  rows : ∀ r < maxRows,
    stringAt after.buffer (r * maxCols) = stringAt s.buffer (r * maxCols)
  lines : after.lines = s.lines
  row : after.row = s.row
  col : after.col = s.col

/-- Typing characters and erasing as many leads to the same text. -/
def Restores (s : State) (chars : List Byte) : Prop :=
  ∃ after, run s (typed chars ++ backspaces chars.length) = some after ∧ SameText s after

/-! ## The cursor in its row -/

section

variable {s : State}

/-- The cursor is in a line on the screen, and it may stand behind the last character. -/
structure InLine (s : State) : Prop where
  row : 0 ≤ s.row ∧ s.row < s.lines
  screen : s.rowOffset ≤ s.row ∧ s.row < s.rowOffset + screenRows - 1
  mode : s.mode = .insert
  running : s.exited = false

theorem moveCursor_inLine (inLine : InLine s) {c : ℤ} (fromLeft : 0 ≤ c)
    (before : ∀ linelen, strlen s.buffer (cell s.row 0) = some linelen → c ≤ linelen) :
    moveCursor s s.row c =
      (strlen s.buffer (cell s.row 0)).map fun _ => { s with col := c } := by
  have sameRow : s.rowAt s.row = s.row := if_neg inLine.row.2.not_ge
  have sameTop : s.topFor s.row = s.rowOffset := by
    rw [State.topFor, if_neg inLine.screen.2.not_ge, if_neg inLine.screen.1.not_gt]
  have sameCol : s.colIn s.row c = c := if_neg fun isOther => isOther.2.1 rfl
  rw [moveCursor, if_neg fromLeft.not_gt, if_neg inLine.row.1.not_gt, sameRow,
    sameTop, sameCol]
  rcases isLength : strlen s.buffer (cell s.row 0) with _ | linelen
  · rfl
  · have isLast : s.lastCol linelen = linelen := by
      rw [State.lastCol, inLine.mode]
      split <;> simp_all
    rw [Option.bind_eq_bind, Option.bind_some, isLast, if_neg (before linelen isLength).not_gt]
    rfl

end

/-! ## Memory -/

theorem Mapped.block {buffer : Memory} (mapped : Mapped buffer) {p n : ℕ}
    (inside : p + n ≤ bufferSize) : Libc.Block buffer p n := by
  refine ⟨?_, fun i before => ?_⟩
  · rw [bufferSize, maxRows, maxCols] at inside
    omega
  · rw [mapped]
    omega

/-- The end of a row is moved by one. -/
theorem memmove_up {buffer : Memory} (mapped : Mapped buffer) {p n : ℕ}
    (inside : p + 1 + (n + 1) ≤ bufferSize) :
    memmove buffer (p + 1) p (n + 1 : ℕ) = some (Libc.moved buffer (p + 1) p (n + 1)) := by
  have isSize : (((n + 1 : ℕ) : ℤ) % 2 ^ 32).toNat = n + 1 := by
    rw [bufferSize, maxRows, maxCols] at inside
    omega
  rw [memmove, isSize,
    Libc.memmove_spec (mapped.block inside) (mapped.block (by omega)) (by rintro ⟨⟩)]
  rfl

/-- An empty end is not. -/
theorem memmove_empty {buffer : Memory} (mapped : Mapped buffer) {p : ℕ} (inside : p < bufferSize) :
    memmove buffer (p + 1) p 0 = none := by
  have unmapped : buffer (Libc.address (p + 1) bufferSize) = none := by
    have isAddress : Libc.address (p + 1) bufferSize = p + 1 + bufferSize := by
      apply Libc.address_of_lt
      rw [bufferSize, maxRows, maxCols] at *
      omega
    rw [isAddress]
    by_contra isThere
    have inBuffer := (mapped _).mp isThere
    omega
  rw [memmove, Libc.memmove, if_neg (by omega), if_pos (Nat.lt_succ_self p),
    Libc.copyDown_unmapped (i := bufferSize) (by decide) unmapped]
  rfl

/-! ## Typing -/

/-- A buffer with characters typed at `p`, in a row that ends at `e`. -/
def typedIn (buffer : Memory) (p e : ℕ) (done : List Byte) : Memory := fun a =>
  if p ≤ a ∧ a < e then
    if a < p + done.length then done[a - p]? else buffer (a - done.length)
  else
    buffer a

section

variable {buffer : Memory} {p e : ℕ} {done : List Byte}

theorem typedIn_nil : typedIn buffer p e [] = buffer := by
  funext a
  rw [typedIn, List.length_nil, Nat.add_zero, Nat.sub_zero]
  split
  · rw [if_neg (by omega)]
  · rfl

theorem Mapped.typedIn (mapped : Mapped buffer) (inside : e ≤ bufferSize) :
    Mapped (typedIn buffer p e done) := by
  intro a
  rw [Vi.typedIn]
  split
  case isTrue inRow =>
    split
    case isTrue isTyped => simp [List.getElem?_eq_getElem (by omega : a - p < done.length)]; omega
    case isFalse =>
      rw [mapped]
      omega
  case isFalse => exact mapped a

/-- One more character is typed. -/
theorem typedIn_append (buffer : Memory) (done : List Byte) (room : p + done.length + 1 < e)
    (b : Byte) :
    Function.update (Libc.moved (typedIn buffer p e done) (p + done.length + 1) (p + done.length)
      (e - (p + done.length) - 1)) (p + done.length) (some b) =
      typedIn buffer p e (done ++ [b]) := by
  funext a
  rcases eq_or_ne a (p + done.length) with rfl | isOther
  · rw [Function.update_self, typedIn, if_pos (by omega), List.length_append, List.length_singleton,
      if_pos (by omega), Nat.add_sub_cancel_left]
    simp
  · rw [Function.update_of_ne isOther, Libc.moved]
    by_cases isMoved : p + done.length + 1 ≤ a ∧ a < e
    · have isBefore : p + done.length + (a - (p + done.length + 1)) = a - 1 := by omega
      have isShifted : a - 1 - done.length = a - (done.length + 1) := by omega
      rw [if_pos (by omega), isBefore, typedIn, if_pos (by omega), if_neg (by omega), typedIn,
        if_pos (by omega), List.length_append, List.length_singleton, if_neg (by omega), isShifted]
    · rw [if_neg (by omega), typedIn, typedIn, List.length_append, List.length_singleton]
      by_cases inRow : p ≤ a ∧ a < e
      · rw [if_pos inRow, if_pos inRow, if_pos (by omega), if_pos (by omega),
          List.getElem?_append_left (by omega)]
      · rw [if_neg inRow, if_neg inRow]

end

/-- The state after characters have been typed. -/
def State.typing (s : State) (done : List Byte) : State :=
  { s with
    buffer := typedIn s.buffer (cell s.row s.col) (cell s.row 0 + maxCols) done
    col := s.col + done.length }

/-- The cursor is in a row, at or behind a character of its text. -/
structure InText (s : State) (r c : ℕ) (text : List Byte) : Prop where
  inLine : InLine s
  mapped : Mapped s.buffer
  isRow : r < maxRows
  row : s.row = r
  col : s.col = c
  string : StringAt s.buffer (r * maxCols) text
  within : c ≤ text.length
  short : text.length < maxCols

section

variable {s : State} {r c : ℕ} {text done : List Byte} (inText : InText s r c text)

include inText

theorem InText.typing_buffer :
    (s.typing done).buffer = typedIn s.buffer (r * maxCols + c) (r * maxCols + maxCols) done := by
  have short := inText.short
  have within := inText.within
  rw [State.typing, inText.row, inText.col, cell_row inText.isRow (by omega),
    cell_start inText.isRow]

theorem InText.typing_col : (s.typing done).col = (c + done.length : ℕ) := by
  rw [State.typing]
  dsimp only
  rw [inText.col]
  norm_cast

theorem InText.typing_mapped : Mapped (s.typing done).buffer := by
  rw [inText.typing_buffer]
  apply inText.mapped.typedIn
  have isRow := inText.isRow
  simp only [maxRows, maxCols, bufferSize] at *
  omega

/-- Nothing before the cursor is a zero. -/
theorem InText.typing_ne (notNul : ∀ b ∈ done, b ≠ 0) (room : c + done.length ≤ maxCols) :
    ∀ i < c + done.length, (s.typing done).buffer (r * maxCols + i) ≠ some 0 := by
  intro i before
  have within := inText.within
  rw [inText.typing_buffer, typedIn]
  by_cases isTyped : c ≤ i
  · have isIndex : r * maxCols + i - (r * maxCols + c) = i - c := by omega
    have inDone : i - c < done.length := by omega
    rw [if_pos (by omega), if_pos (by omega), isIndex, List.getElem?_eq_getElem inDone]
    exact fun isNul => notNul _ (List.getElem_mem inDone) (Option.some.inj isNul)
  · rw [if_neg (by omega)]
    exact inText.string.byte_ne (by omega)

theorem InText.typing_inLine : InLine (s.typing done) :=
  ⟨inText.inLine.row, inText.inLine.screen, inText.inLine.mode, inText.inLine.running⟩

/-- A character is inserted behind those that have been typed. -/
theorem InText.insertChar_typing (notNul : ∀ b ∈ done, b ≠ 0) {b : Byte} (isChar : b ≠ 0)
    (room : c + done.length + 1 < maxCols) :
    insertChar (s.typing done) b =
      (strlen (s.typing (done ++ [b])).buffer (cell r 0)).map fun _ => s.typing (done ++ [b]) := by
  have isRow := inText.isRow
  have isCell : cell (s.typing done).row (s.typing done).col = r * maxCols + (c + done.length) := by
    rw [← cell_row isRow (by omega), inText.typing_col, State.typing, inText.row]
  have isNext : cell (s.typing done).row ((s.typing done).col + 1) =
      r * maxCols + (c + done.length) + 1 := by
    rw [Nat.add_assoc, ← cell_row isRow (by omega), inText.typing_col, State.typing, inText.row]
    norm_cast
  obtain ⟨n, isLength⟩ : ∃ n, maxCols = c + done.length + 1 + (n + 1) :=
    ⟨maxCols - (c + done.length + 1) - 1, by omega⟩
  have isSize : (maxCols : ℤ) - (s.typing done).col - 1 = (n + 1 : ℕ) := by
    rw [inText.typing_col, isLength]
    push_cast
    omega
  have inside : r * maxCols + (c + done.length) + 1 + (n + 1) ≤ bufferSize := by
    simp only [maxRows, maxCols, bufferSize] at *
    omega
  have isBuffer : Function.update (Libc.moved (s.typing done).buffer
      (r * maxCols + (c + done.length) + 1) (r * maxCols + (c + done.length)) (n + 1))
      (r * maxCols + (c + done.length)) (some b) = (s.typing (done ++ [b])).buffer := by
    have appended := typedIn_append s.buffer done (p := r * maxCols + c)
      (e := r * maxCols + maxCols) (by omega) b
    have isRest : r * maxCols + maxCols - (r * maxCols + c + done.length) - 1 = n + 1 := by omega
    rw [isRest] at appended
    rw [inText.typing_buffer, inText.typing_buffer, ← Nat.add_assoc]
    exact appended
  have isState : ({ s.typing done with
      buffer := (s.typing (done ++ [b])).buffer, col := (s.typing done).col + 1 } : State) =
      s.typing (done ++ [b]) := by
    simp only [State.typing, List.length_append, List.length_singleton]
    push_cast
    rw [add_assoc]
  have isThere : Libc.moved (s.typing done).buffer
      (r * maxCols + (c + done.length) + 1) (r * maxCols + (c + done.length)) (n + 1)
      (r * maxCols + (c + done.length)) ≠ none := by
    rw [Libc.moved, if_neg (by omega), inText.typing_mapped]
    omega
  have rightOf : (0 : ℤ) ≤ (s.typing done).col + 1 := by
    rw [inText.typing_col]
    omega
  have sameCol : (s.typing done).col + 1 = (s.typing (done ++ [b])).col := by
    rw [← isState]
  have isRowCell : cell (s.typing (done ++ [b])).row 0 = cell r 0 := by
    rw [State.typing, inText.row]
  have before : ∀ linelen,
      strlen (s.typing (done ++ [b])).buffer (cell (s.typing (done ++ [b])).row 0) = some linelen →
        (s.typing done).col + 1 ≤ linelen := by
    intro linelen isLength
    have notNul' : ∀ d ∈ done ++ [b], d ≠ 0 := by
      intro d isIn
      rcases List.mem_append.mp isIn with isIn | isIn
      · exact notNul d isIn
      · rw [List.mem_singleton.mp isIn]
        exact isChar
    rw [isRowCell, cell_start isRow] at isLength
    have longer := le_of_strlen (inText.typing_ne notNul' (by
      rw [List.length_append, List.length_singleton]
      omega)) isLength
    rw [sameCol, inText.typing_col]
    exact_mod_cast longer
  rw [insertChar, isCell, isNext, isSize, memmove_up inText.typing_mapped inside]
  change (store _ _ _).bind _ = _
  rw [store_eq isThere, isBuffer, Option.bind_some, isState]
  change moveCursor _ (s.typing (done ++ [b])).row _ = _
  rw [moveCursor_inLine inText.typing_inLine rightOf before, isRowCell, sameCol]

/-- There is nothing to move at the end of the row. -/
theorem InText.insertChar_full {b : Byte} (full : c + done.length + 1 = maxCols) :
    insertChar (s.typing done) b = none := by
  have isRow := inText.isRow
  have isCell : cell (s.typing done).row (s.typing done).col = r * maxCols + (c + done.length) := by
    rw [← cell_row isRow (by omega), inText.typing_col, State.typing, inText.row]
  have isNext : cell (s.typing done).row ((s.typing done).col + 1) =
      r * maxCols + (c + done.length) + 1 := by
    rw [Nat.add_assoc, ← cell_row isRow (by omega), inText.typing_col, State.typing, inText.row]
    norm_cast
  have isSize : (maxCols : ℤ) - (s.typing done).col - 1 = 0 := by
    rw [inText.typing_col, ← full]
    push_cast
    omega
  rw [insertChar, isCell, isNext, isSize,
    memmove_empty inText.typing_mapped (row_inside isRow (by omega))]
  rfl

/-- A text at whose end characters have been typed. -/
theorem InText.typing_string (done : List Byte) (atEnd : c = text.length)
    (notNul : ∀ b ∈ done, b ≠ 0) (room : c + done.length < maxCols) :
    StringAt (s.typing done).buffer (r * maxCols) (text ++ done) := by
  have isEnd := inText.string.ends
  rw [← atEnd] at isEnd
  rw [inText.typing_buffer]
  constructor
  case bytes =>
    intro i inside
    rw [List.length_append] at inside
    rw [typedIn]
    by_cases isTyped : c ≤ i
    · rw [if_pos (by omega), if_pos (by omega), List.getElem?_append_right (by omega)]
      congr 1
      omega
    · rw [if_neg (by omega), List.getElem?_append_left (by omega)]
      exact inText.string.bytes i (by omega)
  case ends =>
    have isBefore : r * maxCols + (text ++ done).length - done.length = r * maxCols + c := by
      rw [List.length_append]
      omega
    rw [typedIn, if_pos (by rw [List.length_append]; omega),
      if_neg (by rw [List.length_append]; omega), isBefore, isEnd]
  case noNul =>
    intro b isIn
    rcases List.mem_append.mp isIn with isIn | isIn
    · exact inText.string.noNul b isIn
    · exact notNul b isIn

end

/-! ## Keys -/

theorem isprint_ne {b : Byte} (isChar : isprint b = true) :
    b ≠ 0 ∧ b ≠ 27 ∧ b ≠ 127 ∧ b ≠ byteOf '\n' := by
  refine ⟨?_, ?_, ?_, ?_⟩ <;> rintro rfl <;> exact absurd isChar (by decide)

theorem processInput_char {t : State} (inLine : InLine t) {b : Byte} (isChar : isprint b = true) :
    processInput t ⟨b, none⟩ = insertChar t b := by
  rcases isprint_ne isChar with ⟨-, notEscape, notErase, notNewline⟩
  rw [processInput, inLine.running, inLine.mode]
  dsimp only
  rw [if_neg Bool.false_ne_true, insertModeInput, if_neg notEscape,
    if_neg fun isErase => notErase isErase.1, if_neg notNewline]

section

variable {s : State} {r c : ℕ} {text : List Byte} (inText : InText s r c text)

include inText

/-- Characters are typed as long as there is room, and a row without an end stops the run. -/
theorem InText.run_typed (done : List Byte) {chars : List Byte}
    (areDone : ∀ b ∈ done, isprint b = true) (areChars : ∀ b ∈ chars, isprint b = true)
    (room : c + done.length < maxCols) :
    run (s.typing done) (typed chars) = none ∨
      run (s.typing done) (typed chars) = some (s.typing (done ++ chars)) ∧
        c + (done ++ chars).length < maxCols := by
  induction chars generalizing done with
  | nil =>
      right
      rw [List.append_nil]
      exact ⟨rfl, room⟩
  | cons b chars ih =>
      have isChar := areChars b List.mem_cons_self
      have notNul : ∀ b ∈ done, b ≠ 0 := fun b isIn => (isprint_ne (areDone b isIn)).1
      rw [typed, List.map_cons, run, List.foldlM_cons,
        processInput_char inText.typing_inLine isChar]
      by_cases isRoom : c + done.length + 1 < maxCols
      · rw [inText.insertChar_typing notNul (isprint_ne isChar).1 isRoom]
        rcases strlen (s.typing (done ++ [b])).buffer (cell r 0) with _ | linelen
        · exact Or.inl rfl
        · have areDone' : ∀ d ∈ done ++ [b], isprint d = true := by
            intro d isIn
            rcases List.mem_append.mp isIn with isIn | isIn
            · exact areDone d isIn
            · rw [List.mem_singleton.mp isIn]
              exact isChar
          have rest := ih _ areDone' (fun d isIn => areChars d (List.mem_cons_of_mem b isIn)) (by
            rw [List.length_append, List.length_singleton]
            omega)
          rw [List.append_assoc, List.singleton_append] at rest
          exact rest
      · rw [inText.insertChar_full (by omega)]
        exact Or.inl rfl

/-- At the end of the text there is room up to the end of the row. -/
theorem InText.run_typed_end (done : List Byte) {chars : List Byte}
    (areDone : ∀ b ∈ done, isprint b = true) (areChars : ∀ b ∈ chars, isprint b = true)
    (atEnd : c = text.length)
    (room : c + (done ++ chars).length < maxCols) :
    run (s.typing done) (typed chars) = some (s.typing (done ++ chars)) := by
  induction chars generalizing done with
  | nil =>
      rw [List.append_nil]
      rfl
  | cons b chars ih =>
      have isChar := areChars b List.mem_cons_self
      have notNul : ∀ b ∈ done, b ≠ 0 := fun b isIn => (isprint_ne (areDone b isIn)).1
      have areDone' : ∀ d ∈ done ++ [b], isprint d = true := by
        intro d isIn
        rcases List.mem_append.mp isIn with isIn | isIn
        · exact areDone d isIn
        · rw [List.mem_singleton.mp isIn]
          exact isChar
      rw [List.append_cons, List.length_append] at room
      have isString := inText.typing_string (done ++ [b]) atEnd
        (fun d isIn => (isprint_ne (areDone' d isIn)).1) (by omega)
      rw [List.length_append, List.length_singleton] at room
      rw [typed, List.map_cons, run, List.foldlM_cons,
        processInput_char inText.typing_inLine isChar,
        inText.insertChar_typing notNul (isprint_ne isChar).1 (by omega), cell_start inText.isRow,
        isString.strlen inText.typing_mapped]
      have rest := ih _ areDone' (fun d isIn => areChars d (List.mem_cons_of_mem b isIn)) (by
        simp only [List.length_append, List.length_singleton]
        omega)
      rw [List.append_assoc, List.singleton_append] at rest
      exact rest

end

/-! ## Erasing -/

/-- The state in which so many of the characters that have been typed are left. -/
def State.erasing (s : State) (chars : List Byte) (j : ℕ) : State :=
  { s.typing chars with
    buffer := fun a =>
      if cell s.row s.col + j ≤ a ∧ a < cell s.row s.col + chars.length then some 0
      else (s.typing chars).buffer a
    col := s.col + j }

theorem erasing_length (s : State) (chars : List Byte) :
    s.erasing chars chars.length = s.typing chars := by
  rw [State.erasing]
  congr 1
  funext a
  exact if_neg (by omega)

section

variable {s : State} {r c : ℕ} {text chars : List Byte} (inText : InText s r c text)

include inText

theorem InText.cell_cursor : cell s.row s.col = r * maxCols + c := by
  have short := inText.short
  have within := inText.within
  rw [inText.row, inText.col, cell_row inText.isRow (by omega)]

/-- The bytes of the row while characters are erased. -/
theorem InText.erasing_bytes (areChars : ∀ b ∈ chars, isprint b = true)
    (room : c + chars.length < maxCols) {j : ℕ} (left : j < chars.length) :
    StringAt (s.erasing chars j).buffer (r * maxCols) (text.take c ++ chars.take j) := by
  have within := inText.within
  have length : (text.take c ++ chars.take j).length = c + j := by
    rw [List.length_append, List.length_take, List.length_take]
    omega
  rw [State.erasing]
  dsimp only
  rw [inText.cell_cursor, inText.typing_buffer]
  constructor
  case bytes =>
    intro i inside
    rw [length] at inside
    rw [if_neg (by omega), typedIn]
    by_cases isTyped : c ≤ i
    · have isIndex : r * maxCols + i - (r * maxCols + c) = i - c := by omega
      rw [if_pos (by omega), if_pos (by omega), isIndex, List.getElem?_append_right (by
        rw [List.length_take]
        omega), List.length_take, Nat.min_eq_left within, List.getElem?_take_of_lt (by omega)]
    · rw [if_neg (by omega), List.getElem?_append_left (by
        rw [List.length_take]
        omega), List.getElem?_take_of_lt (by omega)]
      exact inText.string.bytes i (by omega)
  case ends =>
    rw [length, if_pos (by omega)]
  case noNul =>
    intro b isIn
    rcases List.mem_append.mp isIn with isIn | isIn
    · exact inText.string.noNul b (List.mem_of_mem_take isIn)
    · exact (isprint_ne (areChars b (List.mem_of_mem_take isIn))).1

theorem InText.erasing_mapped (room : c + chars.length < maxCols) (j : ℕ) :
    Mapped (s.erasing chars j).buffer := by
  intro a
  have isMapped : (s.typing chars).buffer a ≠ none ↔ a < bufferSize := inText.typing_mapped a
  have isRow := inText.isRow
  rw [State.erasing]
  dsimp only
  rw [inText.cell_cursor]
  split
  case isTrue isErased =>
    have inside := row_inside isRow (c := a - r * maxCols) (by omega)
    rw [Nat.add_sub_cancel' (by omega)] at inside
    simpa using inside
  case isFalse => exact isMapped

/-- A backspace takes one character away. -/
theorem InText.processInput_backspace (areChars : ∀ b ∈ chars, isprint b = true)
    (room : c + chars.length < maxCols) {j : ℕ} (left : j < chars.length) :
    processInput (s.erasing chars (j + 1)) ⟨127, none⟩ = some (s.erasing chars j) := by
  have isRow := inText.isRow
  have isString := inText.erasing_bytes areChars room left
  have within := inText.within
  have length : (text.take c ++ chars.take j).length = c + j := by
    rw [List.length_append, List.length_take, List.length_take]
    omega
  have isCol : (s.erasing chars (j + 1)).col - 1 = (c + j : ℕ) := by
    rw [State.erasing]
    dsimp only
    rw [inText.col]
    push_cast
    omega
  have isCell : cell (s.erasing chars (j + 1)).row ((s.erasing chars (j + 1)).col - 1) =
      r * maxCols + (c + j) := by
    rw [isCol, ← cell_row isRow (by omega), State.erasing, State.typing, inText.row]
  have isThere : (s.erasing chars (j + 1)).buffer (r * maxCols + (c + j)) ≠ none := by
    rw [inText.erasing_mapped room (j + 1)]
    exact row_inside isRow (by omega)
  have isBuffer :
      Function.update (s.erasing chars (j + 1)).buffer (r * maxCols + (c + j)) (some 0) =
        (s.erasing chars j).buffer := by
    funext a
    rw [State.erasing, State.erasing]
    dsimp only
    rw [inText.cell_cursor, Function.update_apply]
    by_cases isErased : a = r * maxCols + (c + j)
    · rw [if_pos isErased, if_pos (by omega)]
    · rw [if_neg isErased]
      by_cases isBehind : r * maxCols + c + j ≤ a ∧ a < r * maxCols + c + chars.length
      · rw [if_pos isBehind, if_pos (by omega)]
      · rw [if_neg isBehind, if_neg (by omega)]
  have inLine :
      InLine { s.erasing chars (j + 1) with buffer := (s.erasing chars j).buffer } :=
    ⟨inText.inLine.row, inText.inLine.screen, inText.inLine.mode, inText.inLine.running⟩
  have isLength : strlen (s.erasing chars j).buffer (cell (s.erasing chars (j + 1)).row 0) =
      some (c + j) := by
    have isStart : cell (s.erasing chars (j + 1)).row 0 = r * maxCols := by
      rw [← cell_start isRow, State.erasing, State.typing, inText.row]
    rw [isStart, isString.strlen (inText.erasing_mapped room j), length]
  have isMoved := moveCursor_inLine inLine (c := (s.erasing chars (j + 1)).col - 1)
    (by omega) (fun linelen isLength' => by
      rw [isLength] at isLength'
      rw [isCol, ← Option.some.inj isLength'])
  rw [isLength, Option.map_some] at isMoved
  rw [processInput, (show (s.erasing chars (j + 1)).exited = false from inText.inLine.running),
    (show (s.erasing chars (j + 1)).mode = .insert from inText.inLine.mode),
    if_neg Bool.false_ne_true]
  dsimp only
  rw [insertModeInput, if_neg (by decide), if_pos ⟨rfl, by omega⟩, isCell, store_eq isThere,
    isBuffer]
  change moveCursor { s.erasing chars (j + 1) with buffer := (s.erasing chars j).buffer } _ _ = _
  rw [isMoved]
  have isLast : (s.erasing chars j).col = (s.erasing chars (j + 1)).col - 1 := by
    rw [isCol, State.erasing]
    dsimp only
    rw [inText.col]
    norm_cast
  rw [← isLast]
  rfl

/-- Backspaces take all characters away. -/
theorem InText.run_backspaces (areChars : ∀ b ∈ chars, isprint b = true)
    (room : c + chars.length < maxCols) {j : ℕ} (left : j ≤ chars.length) :
    run (s.erasing chars j) (backspaces j) = some (s.erasing chars 0) := by
  induction j with
  | zero => rfl
  | succ j ih =>
      rw [backspaces, List.replicate_succ, run, List.foldlM_cons,
        inText.processInput_backspace areChars room left]
      exact ih (by omega)

/-- Outside of the row nothing has changed. -/
theorem InText.erasing_outside {a : ℕ} (room : c + chars.length < maxCols)
    (outside : a < r * maxCols + c ∨ r * maxCols + maxCols ≤ a) :
    (s.erasing chars 0).buffer a = s.buffer a := by
  rw [State.erasing]
  dsimp only
  rw [inText.cell_cursor, inText.typing_buffer, if_neg (by omega), typedIn, if_neg (by omega)]

end

/-! ## The text afterwards -/

theorem Bounded.inText {s : State} (bounded : Bounded s) (isInsert : s.mode = .insert)
    (running : s.exited = false) {linelen : ℕ}
    (isLength : strlen s.buffer (cell s.row 0) = some linelen) :
    ∃ r c text, InText s r c text ∧ text.length = linelen := by
  rcases Int.eq_ofNat_of_zero_le bounded.row.1 with ⟨r, isRow⟩
  rcases Int.eq_ofNat_of_zero_le bounded.col.1 with ⟨c, isCol⟩
  have few := bounded.fewLines
  have inLines := bounded.row.2
  have isRow' : r < maxRows := by omega
  rcases bounded.exists_row isRow' with ⟨text, isString, short⟩
  have length := isString.strlen bounded.isMapped
  rw [isRow, cell_start isRow', length, Option.some_inj] at isLength
  refine ⟨r, c, text, ?_, isLength⟩
  rcases bounded.col.2 with ⟨linelen', isLength', within⟩
  rw [isRow, cell_start isRow', length, Option.some_inj] at isLength'
  exact ⟨⟨bounded.row, bounded.screen.2, isInsert, running⟩, bounded.isMapped, isRow', isRow, isCol,
    isString, by omega, short⟩

section

variable {s : State} {r c : ℕ} {text chars : List Byte} (inText : InText s r c text)
  (areChars : ∀ b ∈ chars, isprint b = true)

include inText areChars

/-- The rows are the same if the row of the cursor is. -/
theorem InText.sameText_iff
    (terminated : ∀ r < maxRows, ∃ text, StringAt s.buffer (r * maxCols) text ∧
      text.length < maxCols) (room : c + chars.length < maxCols) (notEmpty : chars ≠ []) :
    SameText s (s.erasing chars 0) ↔ c = text.length := by
  have isString := inText.erasing_bytes areChars room (List.length_pos_iff.mpr notEmpty)
  have isMapped := inText.erasing_mapped room 0
  rw [List.take_zero, List.append_nil] at isString
  constructor
  · intro same
    have sameRow := same.rows r inText.isRow
    rw [(stringAt_eq_some_iff isMapped).mpr isString,
      (stringAt_eq_some_iff inText.mapped).mpr inText.string, Option.some_inj] at sameRow
    have length := congrArg List.length sameRow
    rw [List.length_take] at length
    have within := inText.within
    omega
  · intro atEnd
    refine ⟨?_, rfl, rfl, ?_⟩
    · intro r' isRow
      by_cases isHere : r' = r
      · rw [isHere, (stringAt_eq_some_iff isMapped).mpr isString,
          (stringAt_eq_some_iff inText.mapped).mpr inText.string, atEnd, List.take_length]
      · rcases terminated r' isRow with ⟨text', isString', short⟩
        rw [(stringAt_eq_some_iff inText.mapped).mpr isString', stringAt_eq_some_iff isMapped]
        apply isString'.congr
        intro i inside
        apply inText.erasing_outside room
        rcases Nat.lt_or_gt_of_ne isHere with before | behind
        · have below := Nat.mul_le_mul_right maxCols (Nat.succ_le_of_lt before)
          rw [Nat.succ_mul] at below
          omega
        · have above := Nat.mul_le_mul_right maxCols (Nat.succ_le_of_lt behind)
          rw [Nat.succ_mul] at above
          omega
    · rw [State.erasing]
      dsimp only
      rw [Nat.cast_zero, add_zero]

/-- What the run of typing and erasing leads to, if it does not leave the buffer. -/
theorem InText.run_erasing (isTyped : run s (typed chars) = some (s.typing chars))
    (room : c + chars.length < maxCols) :
    run s (typed chars ++ backspaces chars.length) = some (s.erasing chars 0) := by
  rw [run, List.foldlM_append]
  change (run s (typed chars)).bind _ = _
  rw [isTyped, Option.bind_some, ← erasing_length]
  exact inText.run_backspaces areChars room (le_refl _)

theorem InText.restores_iff_of_row
    (terminated : ∀ r < maxRows, ∃ text, StringAt s.buffer (r * maxCols) text ∧
      text.length < maxCols) (notEmpty : chars ≠ []) :
    Restores s chars ↔ c = text.length ∧ c + chars.length < maxCols := by
  have start : s.typing [] = s := by
    rw [State.typing, typedIn_nil, List.length_nil, Nat.cast_zero, add_zero]
  have within := inText.within
  have short := inText.short
  constructor
  · rintro ⟨after, isRun, same⟩
    rcases inText.run_typed [] (fun _ isIn => nomatch isIn) areChars (by
      rw [List.length_nil]
      omega) with stops | ⟨isTyped, room⟩
    · rw [start] at stops
      rw [run, List.foldlM_append] at isRun
      change (run s (typed chars)).bind _ = _ at isRun
      rw [stops] at isRun
      contradiction
    · rw [List.nil_append, start] at isTyped
      rw [List.nil_append] at room
      rw [inText.run_erasing areChars isTyped room, Option.some_inj] at isRun
      rw [← isRun] at same
      exact ⟨(inText.sameText_iff areChars terminated room notEmpty).mp same, room⟩
  · rintro ⟨atEnd, room⟩
    have isTyped := inText.run_typed_end [] (fun _ isIn => nomatch isIn) areChars atEnd room
    rw [List.nil_append, start] at isTyped
    exact ⟨_, inText.run_erasing areChars isTyped room,
      (inText.sameText_iff areChars terminated room notEmpty).mpr atEnd⟩

end

/--
Typing and erasing restores the text exactly if nothing is typed, or the cursor is at the end of the
line and there is room in its row.
-/
theorem restores_iff (s : State) (chars : List Byte) (linelen : ℕ) (bounded : Bounded s)
    (isInsert : s.mode = .insert) (running : s.exited = false)
    (isLength : strlen s.buffer (cell s.row 0) = some linelen)
    (areChars : ∀ b ∈ chars, isprint b = true) :
    Restores s chars ↔ chars = [] ∨ s.col = linelen ∧ linelen + chars.length < maxCols := by
  rcases bounded.inText isInsert running isLength with ⟨r, c, text, inText, rfl⟩
  by_cases isEmpty : chars = []
  · rw [isEmpty]
    exact iff_of_true ⟨s, rfl, fun _ _ => rfl, rfl, rfl, rfl⟩ (Or.inl rfl)
  · rw [inText.restores_iff_of_row areChars (fun r isRow => bounded.exists_row isRow) isEmpty,
      inText.col,
      or_iff_right isEmpty]
    constructor
    · rintro ⟨rfl, room⟩
      exact ⟨rfl, room⟩
    · rintro ⟨atEnd, room⟩
      rw [Nat.cast_inj] at atEnd
      exact ⟨atEnd, by omega⟩

/-- A character is typed at the end of the text, and erased. -/
theorem restores_atEnd : Restores { atSecondRow .insert 0 with col := 2 } [byteOf 'x'] := by
  have bounded : Bounded (atSecondRow .insert 0) := bounded_atSecondRow (by decide) (by decide)
  have boundedEnd : Bounded { atSecondRow .insert 0 with col := 2 } :=
    { bounded with
      col := ⟨(by decide : (0 : ℤ) ≤ 2), 2, strlen_secondRow, (by decide : (2 : ℤ) ≤ 2)⟩ }
  exact (restores_iff _ _ 2 boundedEnd rfl rfl strlen_secondRow (by decide)).mpr
    (Or.inr ⟨rfl, by decide⟩)

/-- A character is typed before the text, which is lost when it is erased. -/
theorem not_restores :
    ∃ s, Bounded s ∧ s.mode = .insert ∧ s.exited = false ∧
      strlen s.buffer (cell s.row 0) = some 2 ∧ isprint (byteOf 'x') = true ∧
        ¬Restores s [byteOf 'x'] := by
  have bounded : Bounded (atSecondRow .insert 0) := bounded_atSecondRow (by decide) (by decide)
  refine ⟨atSecondRow .insert 0, bounded, rfl, rfl, strlen_secondRow, by decide, ?_⟩
  rcases bounded.inText rfl rfl strlen_secondRow with ⟨r, c, text, inText, length⟩
  rw [inText.restores_iff_of_row (by decide) (fun r isRow => bounded.exists_row isRow) (by decide),
    length]
  rintro ⟨rfl, -⟩
  exact absurd inText.col (by decide)

end Osix.Vi
