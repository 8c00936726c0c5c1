import Osix.User.Vi.Rows

/-!
# Loading and saving

`load_file` and `save` of `vi.c`. A file is read in pieces of at most a row, and written row by row
as it is printed.
-/

namespace Osix.Vi

open Libc (Memory)
open Stdio (Input Chunk CString byteOf lineOf)

/-- `"%s\n"`. -/
def lineFormat : CString := ⟨keys "%s\n", by decide⟩

/-- The loop of `save`. -/
def saveLoop (buffer : Memory) : ℕ → ℕ → Stdio.File → Option Stdio.File
  | 0, _, out => some out
  | left + 1, line, out => do
      let text ← stringAt buffer (cell line 0)
      let (_, out) ← out.vfprintf lineFormat [.text (some (Stdio.stringIn text))]
      saveLoop buffer left (line + 1) out

/-- `save`, with what it writes to the file. -/
def save (s : State) (buf : ℕ → Byte) : Option (List Byte) :=
  (saveLoop s.buffer s.lines.toNat 0 (Stdio.File.fresh buf)).map fun out => out.fclose.written

/-- The bytes of a file with these lines. -/
def fileOf (lines : List (List Byte)) : List Byte :=
  lines.flatMap fun line => line ++ [byteOf '\n']

/-- A line of a text file that fits into a row with its terminator. -/
structure IsRow (row : List Byte) : Prop where
  short : row.length ≤ maxCols - 1
  chars : ∀ b ∈ row, b ≠ 0 ∧ b ≠ byteOf '\n'

/-- The lines of a text file that fits into the buffer. -/
structure IsText (lines : List (List Byte)) : Prop where
  someLine : 1 ≤ lines.length
  few : lines.length ≤ maxRows
  rows : ∀ line ∈ lines, IsRow line

/-- The file is loaded and saved as it was, in whatever chunks it is read. -/
def SavesBack (s : State) (lines : List (List Byte)) : Prop :=
  ∀ buf out (chunks : List Chunk), chunks.flatMap Chunk.bytes = fileOf lines →
    ∃ s', loadFile s (some (Input.fresh buf chunks)) = some s' ∧ save s' out = some (fileOf lines)

/-- A line that `%s` puts out as it is: after a byte from `0x80` on there is one blank. -/
def IsPrintable (line : List Byte) : Prop :=
  (∀ b ∈ line, b.msb = false) ∨
    ∃ before c, (∀ b ∈ before, b.msb = false) ∧ c.msb = true ∧ line = before ++ [c, byteOf ' ']

/-! ## Printing -/

/-- What `%s` puts out: `fputs` gives up after a byte from `0x80` on, and `-1` calls for a blank. -/
def printed : List Byte → List Byte
  | [] => []
  | b :: text => if b.msb then [b, byteOf ' '] else b :: printed text

/-- What `fputs` puts out. -/
def putBytes : List Byte → List Byte
  | [] => []
  | b :: text => if b.msb then [b] else b :: putBytes text

/-- What `fputs` returns. -/
def putCount : ℕ → List Byte → ℤ
  | count, [] => count
  | count, b :: text => if b.msb then -1 else putCount (count + 1) text

theorem toInt_neg {b : Byte} : (Stdio.toInt b).toInt < 0 ↔ b.msb = true := by
  rw [← not_le, Stdio.toInt_nonneg, Bool.not_eq_false]

section

variable {f : Stdio.File} {bytes : List Byte}

theorem fputsLoop_put (text : List Byte) (count : ℕ) (holds : f.Holds bytes) :
    ∃ f', Stdio.File.fputsLoop count text f = some (putCount count text, f') ∧
      f'.Holds (bytes ++ putBytes text) := by
  induction text generalizing f bytes count with
  | nil =>
      refine ⟨f, rfl, ?_⟩
      rwa [putBytes, List.append_nil]
  | cons b text ih =>
      rcases Stdio.File.fputc_spec holds (Stdio.toInt b) with ⟨put, isPut, holdsPut⟩
      rw [Stdio.setWidth_toInt] at holdsPut
      rw [Stdio.File.fputsLoop, isPut, Option.bind_eq_bind, Option.bind_some, putCount, putBytes]
      dsimp only
      by_cases negative : b.msb = true
      · rw [if_pos (toInt_neg.mpr negative), if_pos negative, if_pos negative]
        exact ⟨put, rfl, holdsPut⟩
      · rw [if_neg (mt toInt_neg.mp negative), if_neg negative, if_neg negative]
        rcases ih (count + 1) holdsPut with ⟨f', isLoop, holds'⟩
        refine ⟨f', isLoop, ?_⟩
        rwa [List.append_assoc] at holds'

/-- The width is 0, and so is less than what `fputs` returns unless it gives up. -/
theorem printed_eq (text : List Byte) (count : ℕ) :
    putBytes text ++ List.replicate (0 - putCount count text).toNat (byteOf ' ') =
      printed text := by
  induction text generalizing count with
  | nil =>
      rw [putBytes, putCount, printed, Int.zero_sub, Int.toNat_neg_natCast]
      rfl
  | cons b text ih =>
      rw [putBytes, putCount, printed]
      split
      · rfl
      · rw [List.cons_append, ih]

end

theorem fputc_newline {f : Stdio.File} {bytes : List Byte} (holds : f.Holds bytes) :
    ∃ f', f.emit [byteOf '\n'] = some f' ∧ f'.Holds (bytes ++ [byteOf '\n']) ∧ f'.size = 0 := by
  rcases Stdio.File.flushed_spec holds with ⟨holdsFlushed, notFull⟩
  rcases Stdio.File.store_spec holdsFlushed notFull (byteOf '\n') with
    ⟨stored, isStored, holdsStored, _⟩
  rw [← holds.bufSize] at isStored
  have isPut : f.fputc (Stdio.toInt (byteOf '\n')) =
      some (Stdio.toInt (byteOf '\n'), stored.fflush) := by
    rw [Stdio.File.fputc, Stdio.setWidth_toInt, isStored, Option.bind_eq_bind, Option.bind_some,
      if_pos rfl]
    rfl
  refine ⟨stored.fflush, ?_, Stdio.File.holds_fflush holdsStored⟩
  rw [Stdio.File.emit, isPut]
  rfl

/-- What `fprintf` writes for a row. -/
theorem vfprintf_line {f : Stdio.File} {bytes text : List Byte} (holds : f.Holds bytes)
    (noNul : ∀ b ∈ text, b ≠ 0) :
    ∃ count f', f.vfprintf lineFormat [.text (some (Stdio.stringIn text))] = some (count, f') ∧
      f'.Holds (bytes ++ (printed text ++ [byteOf '\n'])) ∧ f'.size = 0 := by
  have isText : (Stdio.stringIn text).bytes = text := by
    apply List.takeWhile_eq_self_iff.mpr
    intro b isIn
    exact decide_eq_true (noNul b isIn)
  rcases fputsLoop_put text 0 holds with ⟨put, isPut, holdsPut⟩
  rcases Stdio.File.sink_holds.emit (List.replicate (0 - putCount 0 text).toNat (byteOf ' '))
    holdsPut trivial with ⟨filled, isFilled, holdsFilled⟩
  rw [List.append_assoc, printed_eq] at holdsFilled
  rcases fputc_newline holdsFilled with ⟨f', isEnded, holds', isEmpty⟩
  rw [List.append_assoc] at holds'
  have isConverted : f.convert ⟨false, 0, 0, byteOf 's'⟩ [.text (some (Stdio.stringIn text))] 0 =
      some ([], 0 + putCount 0 text + (0 - putCount 0 text).toNat, filled) := by
    rw [Stdio.File.convert, if_pos rfl]
    dsimp only
    rw [Stdio.File.fputs, Option.getD_some, isText, isPut, Option.bind_eq_bind, Option.bind_some]
    dsimp only
    rw [Nat.cast_zero, isFilled]
    rfl
  refine ⟨0 + putCount 0 text + (0 - putCount 0 text).toNat + 1, f', ?_, holds', isEmpty⟩
  change Stdio.File.vfprintfLoop 3 (byteOf '%' :: [byteOf 's', byteOf '\n']) _ 0 f = _
  rw [Stdio.File.vfprintfLoop, if_pos rfl]
  change (f.convert ⟨false, 0, 0, byteOf 's'⟩ _ 0).bind _ = _
  rw [isConverted, Option.bind_some]
  dsimp only
  rw [Stdio.File.vfprintfLoop, if_neg (by decide), isEnded]
  rfl

theorem printed_eq_self_iff (line : List Byte) : printed line = line ↔ IsPrintable line := by
  induction line with
  | nil => exact iff_of_true rfl (Or.inl nofun)
  | cons b line ih =>
      rw [printed]
      by_cases negative : b.msb = true
      · rw [if_pos negative, List.cons_inj_right]
        constructor
        · rintro rfl
          exact Or.inr ⟨[], b, nofun, negative, rfl⟩
        · rintro (areAscii | ⟨before, c, areAscii, isLast, isLine⟩)
          · rw [areAscii b List.mem_cons_self] at negative
            contradiction
          · rcases before with _ | ⟨d, before⟩
            · exact (List.cons.inj isLine).2.symm
            · rw [(List.cons.inj isLine).1, areAscii d List.mem_cons_self] at negative
              contradiction
      · rw [if_neg negative, List.cons_inj_right, ih]
        rw [Bool.not_eq_true] at negative
        constructor
        · rintro (areAscii | ⟨before, c, areAscii, isLast, rfl⟩)
          · exact Or.inl (List.forall_mem_cons.mpr ⟨negative, areAscii⟩)
          · exact Or.inr ⟨b :: before, c, List.forall_mem_cons.mpr ⟨negative, areAscii⟩, isLast,
              rfl⟩
        · rintro (areAscii | ⟨before, c, areAscii, isLast, isLine⟩)
          · exact Or.inl (List.forall_mem_cons.mp areAscii).2
          · rcases before with _ | ⟨d, before⟩
            · rw [(List.cons.inj isLine).1, isLast] at negative
              contradiction
            · exact Or.inr ⟨before, c, (List.forall_mem_cons.mp areAscii).2, isLast,
                (List.cons.inj isLine).2⟩

theorem printed_oneLine {line : List Byte} (oneLine : byteOf '\n' ∉ line) :
    byteOf '\n' ∉ printed line := by
  induction line with
  | nil => exact oneLine
  | cons b line ih =>
      rw [List.mem_cons, not_or] at oneLine
      rw [printed]
      split
      · rw [List.mem_cons, not_or]
        exact ⟨oneLine.1, by decide⟩
      · rw [List.mem_cons, not_or]
        exact ⟨oneLine.1, ih oneLine.2⟩

/-! ## Rows -/

/-- A line ends at the first newline. -/
theorem line_inj {line line' rest rest' : List Byte} (oneLine : byteOf '\n' ∉ line)
    (oneLine' : byteOf '\n' ∉ line') (same : line ++ byteOf '\n' :: rest =
      line' ++ byteOf '\n' :: rest') : line = line' ∧ rest = rest' := by
  induction line generalizing line' with
  | nil =>
      rcases line' with _ | ⟨b', line'⟩
      · exact ⟨rfl, (List.cons.inj same).2⟩
      · rw [List.mem_cons, not_or] at oneLine'
        exact absurd (List.cons.inj same).1 oneLine'.1
  | cons b line ih =>
      rw [List.mem_cons, not_or] at oneLine
      rcases line' with _ | ⟨b', line'⟩
      · exact absurd (List.cons.inj same).1.symm oneLine.1
      · rw [List.mem_cons, not_or] at oneLine'
        rcases ih oneLine.2 oneLine'.2 (List.cons.inj same).2 with ⟨isLine, isRest⟩
        rw [(List.cons.inj same).1, isLine]
        exact ⟨rfl, isRest⟩

/-- Different lines are different files. -/
theorem fileOf_inj {lines lines' : List (List Byte)}
    (oneLine : ∀ line ∈ lines, byteOf '\n' ∉ line) (oneLine' : ∀ line ∈ lines', byteOf '\n' ∉ line)
    (same : fileOf lines = fileOf lines') : lines = lines' := by
  induction lines generalizing lines' with
  | nil =>
      rcases lines' with _ | ⟨line', lines'⟩
      · rfl
      · rw [fileOf, fileOf, List.flatMap_cons, List.append_assoc] at same
        exact absurd same.symm (List.append_ne_nil_of_right_ne_nil _ (List.cons_ne_nil _ _))
  | cons line lines ih =>
      rcases lines' with _ | ⟨line', lines'⟩
      · rw [fileOf, fileOf, List.flatMap_cons, List.append_assoc] at same
        exact absurd same (List.append_ne_nil_of_right_ne_nil _ (List.cons_ne_nil _ _))
      · rw [List.forall_mem_cons] at oneLine oneLine'
        rw [fileOf, fileOf, List.flatMap_cons, List.flatMap_cons, List.append_assoc,
          List.append_assoc] at same
        rcases line_inj oneLine.1 oneLine'.1 same with ⟨isLine, areLines⟩
        rw [isLine, ih oneLine.2 oneLine'.2 areLines]

/-- The rows of the buffer: a line with which the newline does not fit into a row makes two. -/
def rowsOf (lines : List (List Byte)) : List (List Byte) :=
  lines.flatMap fun line => if line.length < maxCols - 1 then [line] else [line, []]

/-- What `fgets` returns for a row. -/
def pieceOf (row : List Byte) : List Byte :=
  if row.length < maxCols - 1 then row ++ [byteOf '\n'] else row

section

variable {lines : List (List Byte)}

theorem fileOf_eq_pieces (lines : List (List Byte)) :
    fileOf lines = (rowsOf lines).flatMap pieceOf := by
  rw [fileOf, rowsOf, List.flatMap_assoc]
  congr 1
  funext line
  split
  case isTrue short => rw [List.flatMap_singleton, pieceOf, if_pos short]
  case isFalse long =>
    rw [List.flatMap_cons, List.flatMap_singleton, pieceOf, if_neg long]
    rfl

theorem rowsOf_eq (short : ∀ line ∈ lines, line.length < maxCols - 1) : rowsOf lines = lines := by
  induction lines with
  | nil => rfl
  | cons line lines ih =>
      rw [List.forall_mem_cons] at short
      rw [rowsOf, List.flatMap_cons, if_pos short.1, List.singleton_append, ← rowsOf, ih short.2]

theorem length_le_rowsOf (lines : List (List Byte)) : lines.length ≤ (rowsOf lines).length := by
  induction lines with
  | nil => exact le_rfl
  | cons line lines ih =>
      rw [rowsOf, List.flatMap_cons, ← rowsOf, List.length_append, List.length_cons]
      split
      · rw [List.length_singleton]
        omega
      · rw [List.length_cons]
        omega

/-- The lines are as many as the rows only if all of them are short. -/
theorem short_of_length_rowsOf (same : (rowsOf lines).length = lines.length) :
    ∀ line ∈ lines, line.length < maxCols - 1 := by
  induction lines with
  | nil => exact nofun
  | cons line lines ih =>
      have isMore := length_le_rowsOf lines
      rw [rowsOf, List.flatMap_cons, ← rowsOf, List.length_append, List.length_cons] at same
      rw [List.forall_mem_cons]
      split at same
      case isTrue short =>
        rw [List.length_singleton] at same
        exact ⟨short, ih (by omega)⟩
      case isFalse =>
        rw [List.length_cons, List.length_singleton] at same
        omega

theorem isRow_nil : IsRow [] := ⟨Nat.zero_le _, nofun⟩

theorem IsText.isRow (isText : IsText lines) : ∀ row ∈ rowsOf lines, IsRow row := by
  intro row isIn
  rcases List.mem_flatMap.mp isIn with ⟨line, isLine, isIn⟩
  split at isIn
  · rw [List.mem_singleton.mp isIn]
    exact isText.rows line isLine
  · rcases List.mem_cons.mp isIn with rfl | isIn
    · exact isText.rows row isLine
    · rw [List.mem_singleton.mp isIn]
      exact isRow_nil

end

/-! ## Pieces -/

section

variable {row after : List Byte}

theorem lineOf_row (oneLine : byteOf '\n' ∉ row) (left : ℕ) (after : List Byte) :
    lineOf (row.length + left) (row ++ after) = row ++ lineOf left after := by
  induction row with
  | nil => rw [List.length_nil, Nat.zero_add, List.nil_append, List.nil_append]
  | cons b row ih =>
      rw [List.mem_cons, not_or] at oneLine
      rw [List.length_cons, Nat.add_right_comm, List.cons_append, lineOf,
        if_neg (Ne.symm oneLine.1), ih oneLine.2, List.cons_append]

theorem IsRow.oneLine (isRow : IsRow row) : byteOf '\n' ∉ row := fun isIn =>
  (isRow.chars _ isIn).2 rfl

theorem IsRow.lineOf_piece (isRow : IsRow row) (after : List Byte) :
    lineOf (maxCols - 1) (pieceOf row ++ after) = pieceOf row := by
  rw [pieceOf]
  split
  case isTrue short =>
    rcases Nat.exists_eq_add_of_lt short with ⟨left, isLeft⟩
    rw [isLeft, Nat.add_assoc, List.append_assoc, lineOf_row isRow.oneLine, List.singleton_append,
      lineOf, if_pos rfl]
  case isFalse long =>
    have isFull : maxCols - 1 = row.length + 0 := by
      have short := isRow.short
      omega
    rw [isFull, lineOf_row isRow.oneLine, lineOf, List.append_nil]

theorem IsRow.pieceOf_ne (isRow : IsRow row) : pieceOf row ≠ [] := by
  rw [pieceOf]
  split
  · exact List.append_ne_nil_of_right_ne_nil _ (List.cons_ne_nil _ _)
  case isFalse long =>
    rintro rfl
    exact long (by decide)

theorem IsRow.pieceOf_short (isRow : IsRow row) : (pieceOf row).length < maxCols := by
  have short := isRow.short
  rw [pieceOf]
  split
  · rw [List.length_append, List.length_singleton]
    omega
  · rw [maxCols] at *
    omega

theorem IsRow.pieceOf_noNul (isRow : IsRow row) : ∀ b ∈ pieceOf row, b ≠ 0 := by
  intro b isIn
  rw [pieceOf] at isIn
  split at isIn
  · rcases List.mem_append.mp isIn with isIn | isIn
    · exact (isRow.chars b isIn).1
    · rw [List.mem_singleton.mp isIn]
      decide
  · exact (isRow.chars b isIn).1

/-- `fgets` reads a row. -/
theorem IsRow.fgets (isRow : IsRow row) {input : Input} (ok : input.Ok)
    (isRest : input.rest = pieceOf row ++ after) :
    ∃ input', input.fgets maxCols = ((pieceOf row ++ [0], false), input') ∧ input'.Ok ∧
      input'.rest = after := by
  rcases Input.fgetsLoop_spec (maxCols - 1) [] ok with ⟨isLine, isRest', isOk⟩
  rw [isRest, isRow.lineOf_piece] at isRest' isLine
  rw [List.drop_left] at isRest'
  refine ⟨_, ?_, isOk, isRest'⟩
  rw [Input.fgets, if_neg (by decide)]
  dsimp only
  rw [isLine, List.nil_append, decide_eq_false isRow.pieceOf_ne]

theorem fgets_end {input : Input} (ok : input.Ok) (isRest : input.rest = []) :
    ∃ input', input.fgets maxCols = (([0], true), input') := by
  rcases Input.fgetsLoop_spec (maxCols - 1) [] ok with ⟨isLine, _, _⟩
  rw [isRest] at isLine
  refine ⟨(Input.fgetsLoop (maxCols - 1) [] input).2, ?_⟩
  rw [Input.fgets, if_neg (by decide)]
  dsimp only
  rw [isLine]
  rfl

end

/-! ## Loading -/

/-- The buffer with bytes stored at `p`. -/
def storedAt (buffer : Memory) (p : ℕ) (bytes : List Byte) : Memory := fun a =>
  if p ≤ a ∧ a < p + bytes.length then bytes[a - p]? else buffer a

/-- The first rows of the buffer have these texts. -/
structure Loaded (buffer : Memory) (rows : List (List Byte)) : Prop where
  mapped : Mapped buffer
  few : rows.length ≤ maxRows
  strings : ∀ r text, rows[r]? = some text → StringAt buffer (r * maxCols) text
  short : ∀ text ∈ rows, text.length < maxCols

section

variable {buffer buffer' : Memory} {p : ℕ} {bytes text row after : List Byte}
  {rows : List (List Byte)}

theorem storeAll_eq (isThere : ∀ i < bytes.length, buffer (p + i) ≠ none) :
    storeAll buffer p bytes = some (storedAt buffer p bytes) := by
  induction bytes generalizing buffer p with
  | nil =>
      rw [storeAll]
      congr 1
      funext a
      rw [storedAt, if_neg]
      rw [List.length_nil]
      omega
  | cons b bytes ih =>
      have isFirst := isThere 0 (Nat.succ_pos _)
      rw [Nat.add_zero] at isFirst
      rw [storeAll, store_eq isFirst, Option.bind_eq_bind, Option.bind_some, ih]
      · congr 1
        funext a
        rw [storedAt, storedAt, List.length_cons]
        rcases Nat.lt_trichotomy a p with before | rfl | behind
        · rw [if_neg (by omega), if_neg (by omega), Function.update_of_ne (by omega)]
        · rw [if_neg (by omega), if_pos (by omega), Nat.sub_self, List.getElem?_cons_zero]
          exact Function.update_self _ _ _
        · have isNext : a - p = (a - (p + 1)) + 1 := by omega
          rw [isNext, List.getElem?_cons_succ, Function.update_of_ne (by omega)]
          congr 1
          simp only [eq_iff_iff]
          omega
      · intro i inBytes
        have isNext := isThere (i + 1) (Nat.succ_lt_succ inBytes)
        rw [Function.update_of_ne (by omega), Nat.add_assoc, Nat.add_comm 1]
        exact isNext

theorem storedAt_string (noNul : ∀ b ∈ text, b ≠ 0) :
    StringAt (storedAt buffer p (text ++ [0])) p text where
  bytes i inText := by
    rw [storedAt, List.length_append, List.length_singleton, if_pos (by omega),
      Nat.add_sub_cancel_left, List.getElem?_append_left inText]
  ends := by
    rw [storedAt, List.length_append, List.length_singleton, if_pos (by omega),
      Nat.add_sub_cancel_left, List.getElem?_append_right le_rfl, Nat.sub_self]
    rfl
  noNul := noNul

theorem Mapped.storedAt (mapped : Mapped buffer) (inside : p + bytes.length ≤ bufferSize) :
    Mapped (storedAt buffer p bytes) := by
  intro a
  rw [Vi.storedAt]
  split
  case isTrue inBytes =>
    rw [List.getElem?_eq_getElem (by omega)]
    exact iff_of_true (Option.some_ne_none _) (by omega)
  case isFalse => exact mapped a

theorem Mapped.update (mapped : Mapped buffer) (inside : p < bufferSize) (b : Byte) :
    Mapped (Function.update buffer p (some b)) := by
  intro a
  by_cases isByte : a = p
  · rw [isByte, Function.update_self]
    exact iff_of_true (Option.some_ne_none _) inside
  · rw [Function.update_of_ne isByte]
    exact mapped a

/-- A row is added behind the others. -/
theorem Loaded.append (loaded : Loaded buffer rows) (room : rows.length < maxRows)
    (mapped : Mapped buffer') (same : ∀ a < rows.length * maxCols, buffer' a = buffer a)
    (isString : StringAt buffer' (rows.length * maxCols) text) (short : text.length < maxCols) :
    Loaded buffer' (rows ++ [text]) where
  mapped := mapped
  few := by
    rw [List.length_append, List.length_singleton]
    exact room
  strings r row isRow := by
    rcases Nat.lt_trichotomy r rows.length with before | rfl | behind
    · rw [List.getElem?_append_left before] at isRow
      have isShort := loaded.short row (List.mem_of_getElem? isRow)
      apply (loaded.strings r row isRow).congr
      intro i inRow
      apply same
      rw [maxCols] at *
      omega
    · rw [List.getElem?_append_right le_rfl, Nat.sub_self] at isRow
      cases isRow
      exact isString
    · rw [List.getElem?_eq_none] at isRow
      · contradiction
      · rw [List.length_append, List.length_singleton]
        exact behind
  short row isRow := by
    rcases List.mem_append.mp isRow with isRow | isRow
    · exact loaded.short row isRow
    · rwa [List.mem_singleton.mp isRow]

/-- The newline is taken away from a row. -/
theorem stripNewline_piece (mapped : Mapped buffer) {r : ℕ} (isRow : r < maxRows)
    (fits : IsRow row) (isString : StringAt buffer (r * maxCols) (pieceOf row)) :
    ∃ buffer', stripNewline buffer r = some buffer' ∧ Mapped buffer' ∧
      StringAt buffer' (r * maxCols) row ∧ ∀ a < r * maxCols, buffer' a = buffer a := by
  rw [stripNewline, cell_start isRow, isString.strlen mapped, Option.bind_eq_bind,
    Option.bind_some]
  have inRow := fits.pieceOf_short
  by_cases isShort : row.length < maxCols - 1
  · have isPiece : pieceOf row = row ++ [byteOf '\n'] := by rw [pieceOf, if_pos isShort]
    rw [isPiece] at isString
    rw [isPiece, List.length_append, List.length_singleton] at inRow ⊢
    have isLast : ((row.length + 1 : ℕ) : ℤ) - 1 = (row.length : ℤ) := by omega
    have isByte := isString.bytes row.length (by
      rw [List.length_append, List.length_singleton]
      exact Nat.lt_succ_self _)
    have inside := row_inside isRow (Nat.lt_of_succ_lt inRow)
    rw [List.getElem?_append_right le_rfl, Nat.sub_self, List.getElem?_cons_zero] at isByte
    rw [isLast, cell_row isRow (by omega), if_pos ⟨Nat.succ_pos _, isByte⟩,
      store_eq (by rw [isByte]; exact Option.some_ne_none _)]
    refine ⟨_, rfl, mapped.update inside 0, ⟨?_, Function.update_self _ _ _, ?_⟩, ?_⟩
    · intro i before
      rw [Function.update_of_ne (by omega), isString.bytes i (by
        rw [List.length_append]
        omega), List.getElem?_append_left before]
    · exact fun b isIn => (fits.chars b isIn).1
    · intro a before
      exact Function.update_of_ne (by omega) _ _
  · have isPiece : pieceOf row = row := by rw [pieceOf, if_neg isShort]
    rw [isPiece] at isString ⊢
    refine ⟨buffer, ?_, mapped, isString, fun _ _ => rfl⟩
    rw [if_neg]
    · rfl
    · rintro ⟨notEmpty, isNewline⟩
      have isLast : ((row.length : ℕ) : ℤ) - 1 = ((row.length - 1 : ℕ) : ℤ) := by omega
      have short := fits.short
      rw [isLast, cell_row isRow (by omega), isString.bytes _ (by omega)] at isNewline
      exact fits.oneLine (List.mem_of_getElem? isNewline)

/-- One turn of the loop of `load_file` reads a row. -/
theorem Loaded.loadLoop_row (loaded : Loaded buffer rows) (room : rows.length < maxRows)
    (fits : IsRow row) {input : Input} (ok : input.Ok)
    (isRest : input.rest = pieceOf row ++ after) (left : ℕ) :
    ∃ buffer' input', loadLoop (left + 1) rows.length buffer input =
        loadLoop left (rows ++ [row]).length buffer' input' ∧
      Loaded buffer' (rows ++ [row]) ∧ input'.Ok ∧ input'.rest = after := by
  rcases fits.fgets ok isRest with ⟨input', isRead, ok', isRest'⟩
  have inRow := fits.pieceOf_short
  have inside : rows.length * maxCols + (pieceOf row ++ [0]).length ≤ bufferSize := by
    have lastByte := row_inside room inRow
    rw [List.length_append, List.length_singleton]
    omega
  have isStored : storeAll buffer (rows.length * maxCols) (pieceOf row ++ [0]) =
      some (storedAt buffer (rows.length * maxCols) (pieceOf row ++ [0])) := by
    apply storeAll_eq
    intro i before
    rw [loaded.mapped]
    omega
  rcases stripNewline_piece (loaded.mapped.storedAt inside) room fits
    (storedAt_string fits.pieceOf_noNul) with ⟨buffer', isStripped, mapped, isString, same⟩
  refine ⟨buffer', input', ?_, ?_, ok', isRest'⟩
  · rw [loadLoop, isRead]
    dsimp only
    rw [cell_start room, isStored, Option.bind_eq_bind, Option.bind_some, if_neg Bool.false_ne_true,
      isStripped, Option.bind_some, List.length_append, List.length_singleton]
  · apply loaded.append room mapped _ isString
    · have short := fits.short
      rw [maxCols] at *
      omega
    · intro a before
      rw [same a before, storedAt, if_neg (by omega)]

/-- Behind the last row there is nothing to store to. -/
theorem Loaded.loadLoop_full (loaded : Loaded buffer rows) (full : rows.length = maxRows)
    (left : ℕ) (input : Input) : loadLoop left rows.length buffer input = none := by
  rcases left with _ | left
  · rfl
  · have isEnd : cell (rows.length : ℕ) 0 = bufferSize := by
      rw [full]
      rfl
    have isNone : buffer bufferSize = none := by
      by_contra isThere
      exact Nat.lt_irrefl _ ((loaded.mapped _).mp isThere)
    have isStored : ∀ bytes, bytes ≠ [] → storeAll buffer bufferSize bytes = none := by
      intro bytes notEmpty
      rcases bytes with _ | ⟨b, bytes⟩
      · contradiction
      · rw [storeAll, store, isNone]
        rfl
    rw [loadLoop, isEnd, Input.fgets, if_neg (by decide)]
    dsimp only
    rw [isStored _ (List.append_ne_nil_of_right_ne_nil _ (List.cons_ne_nil _ _))]
    rfl

/-- The rows of a file are loaded if there is a row behind them. -/
theorem Loaded.loadLoop_rows {more : List (List Byte)} (loaded : Loaded buffer rows)
    (areRows : ∀ row ∈ more, IsRow row) (room : rows.length + more.length < maxRows)
    {input : Input} (ok : input.Ok) (isRest : input.rest = more.flatMap pieceOf) {left : ℕ}
    (enough : more.length < left) :
    ∃ buffer', loadLoop left rows.length buffer input =
        some (buffer', (rows ++ more).length) ∧ Loaded buffer' (rows ++ more) := by
  induction more generalizing buffer rows input left with
  | nil =>
      rw [List.length_nil] at enough
      rw [List.length_nil, Nat.add_zero] at room
      rcases Nat.exists_eq_succ_of_ne_zero (Nat.ne_of_gt enough) with ⟨less, rfl⟩
      rcases fgets_end ok isRest with ⟨input', isRead⟩
      have inside := row_inside room (c := 0) (by decide)
      have isStored : storeAll buffer (rows.length * maxCols) [0] =
          some (storedAt buffer (rows.length * maxCols) [0]) := by
        apply storeAll_eq
        intro i before
        rw [List.length_singleton] at before
        rw [loaded.mapped]
        omega
      refine ⟨storedAt buffer (rows.length * maxCols) [0], ?_, ?_⟩
      · rw [Nat.succ_eq_add_one, loadLoop, isRead]
        dsimp only
        rw [cell_start room, isStored, List.append_nil]
        rfl
      · rw [List.append_nil]
        refine ⟨loaded.mapped.storedAt ?_, loaded.few, ?_, loaded.short⟩
        · rw [List.length_singleton]
          omega
        · intro r text isRow
          have before := (List.getElem?_eq_some_iff.mp isRow).1
          have isShort := loaded.short text (List.mem_of_getElem? isRow)
          apply (loaded.strings r text isRow).congr
          intro i inText
          rw [maxCols] at *
          rw [storedAt, if_neg (by omega)]
  | cons row more ih =>
      rw [List.length_cons] at room enough
      rw [List.forall_mem_cons] at areRows
      rw [List.flatMap_cons] at isRest
      rcases Nat.exists_eq_add_of_lt enough with ⟨less, rfl⟩
      rcases loaded.loadLoop_row (by omega) areRows.1 ok isRest (more.length + 1 + less) with
        ⟨buffer', input', isLoop, loaded', ok', isRest'⟩
      have room' : (rows ++ [row]).length + more.length < maxRows := by
        rw [List.length_append, List.length_singleton]
        omega
      have enough' : more.length < more.length + 1 + less := by omega
      rcases ih loaded' areRows.2 room' ok' isRest' enough' with ⟨buffer'', isLoaded, loaded''⟩
      rw [List.append_assoc, List.singleton_append] at isLoaded loaded''
      exact ⟨buffer'', isLoop.trans isLoaded, loaded''⟩

/-- If the rows fill the buffer, `load_file` stores behind it. -/
theorem Loaded.loadLoop_overrun {more : List (List Byte)} (loaded : Loaded buffer rows)
    (areRows : ∀ row ∈ more, IsRow row) (full : maxRows ≤ rows.length + more.length)
    {input : Input} (ok : input.Ok) (isRest : input.rest = more.flatMap pieceOf) (left : ℕ) :
    loadLoop left rows.length buffer input = none := by
  induction more generalizing buffer rows input left with
  | nil =>
      rw [List.length_nil] at full
      exact loaded.loadLoop_full (Nat.le_antisymm loaded.few full) left input
  | cons row more ih =>
      rw [List.length_cons] at full
      rw [List.forall_mem_cons] at areRows
      rw [List.flatMap_cons] at isRest
      rcases Nat.lt_or_ge rows.length maxRows with room | isFull
      · rcases left with _ | left
        · rfl
        · rcases loaded.loadLoop_row room areRows.1 ok isRest left with
            ⟨buffer', input', isLoop, loaded', ok', isRest'⟩
          rw [isLoop]
          apply ih loaded' areRows.2 _ ok' isRest'
          rw [List.length_append, List.length_singleton]
          omega
      · exact loaded.loadLoop_full (Nat.le_antisymm loaded.few isFull) left input

end

/-! ## Saving -/

section

variable {buffer : Memory} {rows more lines : List (List Byte)} {chunks : List Chunk}

theorem Loaded.row_eq {row : List Byte} (loaded : Loaded buffer (rows ++ row :: more)) :
    stringAt buffer (cell rows.length 0) = some row := by
  have room := loaded.few
  rw [List.length_append, List.length_cons] at room
  rw [cell_start (by omega), stringAt_eq_some_iff loaded.mapped]
  apply loaded.strings
  rw [List.getElem?_append_right le_rfl, Nat.sub_self, List.getElem?_cons_zero]

/-- The rows are written as they are printed. -/
theorem Loaded.saveLoop_rows (loaded : Loaded buffer (rows ++ more)) {out : Stdio.File}
    {bytes : List Byte} (holds : out.Holds bytes) (isEmpty : out.size = 0) :
    ∃ out', saveLoop buffer more.length rows.length out = some out' ∧
      out'.Holds (bytes ++ fileOf (more.map printed)) ∧ out'.size = 0 := by
  induction more generalizing rows out bytes with
  | nil =>
      refine ⟨out, rfl, ?_, isEmpty⟩
      rwa [List.map_nil, fileOf, List.flatMap_nil, List.append_nil]
  | cons row more ih =>
      have isRow := loaded.row_eq
      have noNul := (stringAt_of_stringLoop isRow).noNul
      rcases vfprintf_line holds noNul with ⟨count, put, isPut, holdsPut, isFlushed⟩
      rw [← List.singleton_append, ← List.append_assoc] at loaded
      rcases ih loaded holdsPut isFlushed with ⟨out', isLoop, holds', isEmpty'⟩
      refine ⟨out', ?_, ?_, isEmpty'⟩
      · rw [List.length_append, List.length_singleton] at isLoop
        rw [List.length_cons, saveLoop, isRow, Option.bind_eq_bind, Option.bind_some, isPut,
          Option.bind_eq_bind, Option.bind_some]
        exact isLoop
      · rw [List.append_assoc] at holds'
        exact holds'

theorem isPrefix_loaded (mapped : Mapped buffer) : Loaded buffer [] :=
  ⟨mapped, Nat.zero_le _, nofun, nofun⟩

theorem rest_fresh (buf : ℕ → Byte) (chunks : List Chunk) :
    (Input.fresh buf chunks).rest = chunks.flatMap Chunk.bytes := rfl

theorem ok_fresh (buf : ℕ → Byte) (chunks : List Chunk) : (Input.fresh buf chunks).Ok := by
  intro isEnd
  contradiction

/-- The file is saved with its rows printed, if there is a row behind them. -/
theorem IsText.saves {s : State} (isText : IsText lines) (mapped : Mapped s.buffer)
    (room : (rowsOf lines).length < maxRows) (isFile : chunks.flatMap Chunk.bytes = fileOf lines)
    (buf out : ℕ → Byte) :
    ∃ s', loadFile s (some (Input.fresh buf chunks)) = some s' ∧
      save s' out = some (fileOf ((rowsOf lines).map printed)) := by
  have isRest : (Input.fresh buf chunks).rest = (rowsOf lines).flatMap pieceOf := by
    rw [rest_fresh, isFile, fileOf_eq_pieces]
  have few : 0 + (rowsOf lines).length < maxRows := by rwa [Nat.zero_add]
  rcases (isPrefix_loaded mapped).loadLoop_rows isText.isRow few (ok_fresh _ _) isRest
    (Nat.lt_succ_of_lt room) with ⟨buffer', isLoaded, loaded⟩
  rw [List.nil_append] at isLoaded loaded
  have someRow : (rowsOf lines).length ≠ 0 := by
    have isMore := length_le_rowsOf lines
    have someLine := isText.someLine
    omega
  refine ⟨{ s with buffer := buffer', lines := (rowsOf lines).length }, ?_, ?_⟩
  · rw [loadFile, loadRows]
    rw [List.length_nil] at isLoaded
    rw [isLoaded, Option.bind_eq_bind, Option.bind_some]
    dsimp only
    rw [if_neg someRow]
    rfl
  · rw [← List.nil_append (rowsOf lines)] at loaded
    rcases loaded.saveLoop_rows (Stdio.File.holds_fresh out) rfl with
      ⟨out', isSaved, holds, isEmpty⟩
    rw [save]
    dsimp only
    rw [Int.toNat_natCast]
    rw [List.length_nil] at isSaved
    rw [isSaved, Option.map_some, Stdio.File.fclose, if_pos holds.inUse]
    have isBytes := holds.bytes
    rw [Stdio.File.pending, isEmpty, List.range_zero, List.map_nil, List.append_nil] at isBytes
    rw [isBytes, List.nil_append]

/-- Rows that fill the buffer cannot be loaded. -/
theorem IsText.overruns {s : State} (isText : IsText lines) (mapped : Mapped s.buffer)
    (full : maxRows ≤ (rowsOf lines).length)
    (isFile : chunks.flatMap Chunk.bytes = fileOf lines) (buf : ℕ → Byte) :
    loadFile s (some (Input.fresh buf chunks)) = none := by
  have isRest : (Input.fresh buf chunks).rest = (rowsOf lines).flatMap pieceOf := by
    rw [rest_fresh, isFile, fileOf_eq_pieces]
  have isNone := (isPrefix_loaded mapped).loadLoop_overrun isText.isRow
    (by rwa [List.length_nil, Nat.zero_add]) (ok_fresh _ _) isRest (maxRows + 1)
  rw [List.length_nil] at isNone
  rw [loadFile, loadRows, isNone]
  rfl

theorem IsText.oneLine (isText : IsText lines) : ∀ line ∈ lines, byteOf '\n' ∉ line :=
  fun line isLine => (isText.rows line isLine).oneLine

theorem IsText.printed_oneLine (isText : IsText lines) :
    ∀ line ∈ (rowsOf lines).map printed, byteOf '\n' ∉ line := by
  intro line isLine
  rcases List.mem_map.mp isLine with ⟨row, isRow, rfl⟩
  exact Vi.printed_oneLine (isText.isRow row isRow).oneLine

/-- Bytes may be read one by one. -/
theorem exists_chunks (bytes : List Byte) :
    ∃ chunks : List Chunk, chunks.flatMap Chunk.bytes = bytes := by
  induction bytes with
  | nil => exact ⟨[], rfl⟩
  | cons b bytes ih =>
      rcases ih with ⟨chunks, isBytes⟩
      refine ⟨⟨[b], le_rfl, Nat.succ_le_succ (Nat.zero_le _)⟩ :: chunks, ?_⟩
      rw [List.flatMap_cons, isBytes, List.singleton_append]

/-- A file is saved as it was if its rows are the lines and are printed as they are. -/
theorem IsText.savesBack_iff_rows {s : State} (isText : IsText lines) (mapped : Mapped s.buffer) :
    SavesBack s lines ↔ (rowsOf lines).length < maxRows ∧ (rowsOf lines).map printed = lines := by
  constructor
  · intro savesBack
    rcases exists_chunks (fileOf lines) with ⟨chunks, isFile⟩
    rcases savesBack (fun _ => 0) (fun _ => 0) chunks isFile with ⟨s', isLoaded, isSaved⟩
    rcases Nat.lt_or_ge (rowsOf lines).length maxRows with room | full
    · rcases isText.saves mapped room isFile (fun _ => 0) (fun _ => 0) with
        ⟨s'', isLoaded', isPrinted⟩
      rw [isLoaded] at isLoaded'
      cases isLoaded'
      rw [isSaved] at isPrinted
      refine ⟨room, ?_⟩
      exact fileOf_inj isText.printed_oneLine isText.oneLine (Option.some.inj isPrinted).symm
    · rw [isText.overruns mapped full isFile] at isLoaded
      contradiction
  · rintro ⟨room, same⟩ buf out chunks isFile
    have saves := isText.saves mapped room isFile buf out
    rwa [same] at saves

end

/--
A file is loaded and saved as it was just if a row is left behind its lines, each of them leaves
room for its newline, and each is printed as it is.
-/
theorem savesBack_iff (s : State) (lines : List (List Byte)) (mapped : Mapped s.buffer)
    (isText : IsText lines) :
    SavesBack s lines ↔ lines.length < maxRows ∧
      ∀ line ∈ lines, line.length < maxCols - 1 ∧ IsPrintable line := by
  rw [isText.savesBack_iff_rows mapped]
  constructor
  · rintro ⟨room, same⟩
    have isLength : (rowsOf lines).length = lines.length := by
      rw [← List.length_map printed, same]
    have short := short_of_length_rowsOf isLength
    rw [isLength] at room
    rw [rowsOf_eq short] at same
    refine ⟨room, fun line isLine => ⟨short line isLine, ?_⟩⟩
    rw [← printed_eq_self_iff]
    apply List.map_eq_map_iff.mp _ line isLine
    rw [same, List.map_id']
  · rintro ⟨room, fits⟩
    rw [rowsOf_eq fun line isLine => (fits line isLine).1]
    refine ⟨room, ?_⟩
    have asItIs : ∀ line ∈ lines, printed line = id line := by
      intro line isLine
      exact (printed_eq_self_iff line).mpr (fits line isLine).2
    rw [List.map_congr_left asItIs, List.map_id]

theorem isMapped_secondRow : Mapped (atSecondRow .command 0).buffer :=
  (bounded_atSecondRow le_rfl zero_le_one).isMapped

theorem savesBack_twoLines : SavesBack (atSecondRow .command 0) [keys "a", []] := by
  apply (savesBack_iff _ _ isMapped_secondRow ⟨by decide, by decide, ?_⟩).mpr
  · refine ⟨by decide, ?_⟩
    intro line isLine
    rcases List.mem_pair.mp isLine with rfl | rfl
    · exact ⟨by decide, Or.inl (by decide)⟩
    · exact ⟨by decide, Or.inl nofun⟩
  · intro line isLine
    rcases List.mem_pair.mp isLine with rfl | rfl
    · exact ⟨by decide, by decide⟩
    · exact isRow_nil

/-- The newline of a line of 255 characters becomes a line of its own. -/
theorem not_savesBack :
    IsText [List.replicate 255 (byteOf 'a')] ∧
      ¬SavesBack (atSecondRow .command 0) [List.replicate 255 (byteOf 'a')] := by
  have isText : IsText [List.replicate 255 (byteOf 'a')] := by
    refine ⟨le_rfl, by decide, ?_⟩
    intro line isLine
    rw [List.mem_singleton.mp isLine]
    refine ⟨?_, ?_⟩
    · rw [List.length_replicate]
      decide
    · intro b isIn
      rw [List.eq_of_mem_replicate isIn]
      decide
  refine ⟨isText, ?_⟩
  rw [isText.savesBack_iff_rows isMapped_secondRow]
  rintro ⟨_, same⟩
  have isLength : ((rowsOf [List.replicate 255 (byteOf 'a')]).map printed).length = 1 := by
    rw [same, List.length_singleton]
  rw [List.length_map, rowsOf, List.flatMap_singleton, List.length_replicate,
    if_neg (by decide), List.length_cons, List.length_singleton] at isLength
  omega

end Osix.Vi
