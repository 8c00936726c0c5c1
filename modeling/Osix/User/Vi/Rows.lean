import Osix.User.Vi.Basic

/-!
# Rows of the buffer

A row is read as a string, up to its terminating zero. The string depends on nothing behind it, and
is found by `strlen` in a buffer that has all its bytes.
-/

namespace Osix.Vi

open Libc (Memory)
open Stdio (byteOf)

/-- The bytes of the buffer are there, and no others. -/
def Mapped (buffer : Memory) : Prop := ∀ p, buffer p ≠ none ↔ p < bufferSize

theorem Bounded.isMapped {s : State} (bounded : Bounded s) : Mapped s.buffer := bounded.mapped

theorem store_eq {buffer : Memory} {p : ℕ} (isThere : buffer p ≠ none) (b : Byte) :
    store buffer p b = some (Function.update buffer p (some b)) := by
  rcases Option.ne_none_iff_exists'.mp isThere with ⟨old, isOld⟩
  rw [store, isOld, Option.map_some]

/-! ## Cells -/

theorem cell_eq {r c : ℕ} (inside : r * maxCols + c < 2 ^ 32) : cell r c = r * maxCols + c := by
  simp only [cell, maxCols] at *
  omega

/-- The cells of the buffer are far from the end of the memory. -/
theorem cell_row {r c : ℕ} (isRow : r < maxRows) (nearby : c ≤ maxCols) :
    cell r c = r * maxCols + c := by
  apply cell_eq
  simp only [maxRows, maxCols] at *
  omega

theorem cell_start {r : ℕ} (isRow : r < maxRows) : cell r 0 = r * maxCols := by
  have isCell := cell_row (c := 0) isRow (Nat.zero_le _)
  rwa [Nat.cast_zero, Nat.add_zero] at isCell

theorem row_inside {r c : ℕ} (isRow : r < maxRows) (isCol : c < maxCols) :
    r * maxCols + c < bufferSize := by
  simp only [maxRows, maxCols, bufferSize] at *
  omega

/-! ## Strings -/

/-- A string begins at `p`. -/
structure StringAt (buffer : Memory) (p : ℕ) (text : List Byte) : Prop where
  bytes : ∀ i < text.length, buffer (p + i) = text[i]?
  ends : buffer (p + text.length) = some 0
  noNul : ∀ b ∈ text, b ≠ 0

/-- The string that is read at `p`, of at most so many bytes with its terminator. -/
def stringLoop (buffer : Memory) : ℕ → ℕ → Option (List Byte)
  | 0, _ => none
  | left + 1, p => do
      let b ← buffer p
      if b = 0 then return [] else return b :: (← stringLoop buffer left (p + 1))

/-- The string that is read at `p`. -/
def stringAt (buffer : Memory) (p : ℕ) : Option (List Byte) :=
  stringLoop buffer (bufferSize + 1) p

section

variable {buffer buffer' : Memory} {p c : ℕ} {text : List Byte}

theorem strlenLoop_eq (left : ℕ) :
    strlenLoop buffer left p = (stringLoop buffer left p).map List.length := by
  induction left generalizing p with
  | zero => rfl
  | succ left ih =>
      rw [strlenLoop, stringLoop, ih]
      rcases buffer p with _ | b
      · rfl
      · simp only [Option.bind_eq_bind, Option.bind_some]
        by_cases isNul : b = 0
        · rw [if_pos isNul, if_pos isNul]
          rfl
        · rw [if_neg isNul, if_neg isNul]
          rcases stringLoop buffer left (p + 1) with _ | rest <;> rfl

theorem strlen_eq (buffer : Memory) (p : ℕ) :
    strlen buffer p = (stringAt buffer p).map List.length :=
  strlenLoop_eq _

theorem StringAt.tail {b : Byte} (isString : StringAt buffer p (b :: text)) :
    StringAt buffer (p + 1) text where
  bytes i inText := by
    have isByte := isString.bytes (i + 1) (Nat.succ_lt_succ inText)
    rwa [← Nat.add_assoc, Nat.add_right_comm, List.getElem?_cons_succ] at isByte
  ends := by
    have isEnd := isString.ends
    rwa [List.length_cons, ← Nat.add_assoc, Nat.add_right_comm] at isEnd
  noNul c isIn := isString.noNul c (List.mem_cons_of_mem b isIn)

theorem StringAt.cons {b : Byte} (isByte : buffer p = some b) (notNul : b ≠ 0)
    (isTail : StringAt buffer (p + 1) text) : StringAt buffer p (b :: text) where
  bytes i inText := by
    rcases i with _ | i
    · exact isByte
    · rw [List.getElem?_cons_succ, ← isTail.bytes i (Nat.lt_of_succ_lt_succ inText)]
      congr 1
      omega
  ends := by
    rw [List.length_cons, ← isTail.ends]
    congr 1
    omega
  noNul c isIn := by
    rcases List.mem_cons.mp isIn with rfl | isIn
    · exact notNul
    · exact isTail.noNul c isIn

theorem stringLoop_of_stringAt (isString : StringAt buffer p text) {left : ℕ}
    (enough : text.length < left) : stringLoop buffer left p = some text := by
  induction text generalizing p left with
  | nil =>
      rcases left with _ | left
      · omega
      · have isEnd := isString.ends
        rw [List.length_nil, Nat.add_zero] at isEnd
        rw [stringLoop, isEnd]
        rfl
  | cons b text ih =>
      rcases left with _ | left
      · omega
      · have isByte := isString.bytes 0 (Nat.succ_pos _)
        have notNul := isString.noNul b List.mem_cons_self
        rw [Nat.add_zero, List.getElem?_cons_zero] at isByte
        rw [stringLoop, isByte, Option.bind_eq_bind, Option.bind_some, if_neg notNul,
          ih isString.tail (Nat.lt_of_succ_lt_succ enough)]
        rfl

theorem stringAt_of_stringLoop {left : ℕ} (isRead : stringLoop buffer left p = some text) :
    StringAt buffer p text := by
  induction left generalizing p text with
  | zero => contradiction
  | succ left ih =>
      rw [stringLoop] at isRead
      rcases Option.bind_eq_some_iff.mp isRead with ⟨b, isByte, isRead⟩
      split at isRead
      case isTrue isNul =>
        cases isRead
        refine ⟨fun i inText => absurd inText (Nat.not_lt_zero i), ?_, fun b isIn => nomatch isIn⟩
        rw [List.length_nil, Nat.add_zero, isByte, isNul]
      case isFalse notNul =>
        rcases Option.bind_eq_some_iff.mp isRead with ⟨rest, isRest, isText⟩
        cases isText
        exact StringAt.cons isByte notNul (ih isRest)

theorem stringAt_eq_some_iff (mapped : Mapped buffer) :
    stringAt buffer p = some text ↔ StringAt buffer p text := by
  constructor
  · exact stringAt_of_stringLoop
  · intro isString
    have isEnd : p + text.length < bufferSize := by
      rw [← mapped, isString.ends]
      exact Option.some_ne_none 0
    exact stringLoop_of_stringAt isString (by omega)

theorem StringAt.strlen (isString : StringAt buffer p text) (mapped : Mapped buffer) :
    strlen buffer p = some text.length := by
  rw [strlen_eq, (stringAt_eq_some_iff mapped).mpr isString, Option.map_some]

/-- `strlen` passes over bytes that are not zero. -/
theorem le_of_strlen {n : ℕ} (notNul : ∀ i < c, buffer (p + i) ≠ some 0)
    (isLength : strlen buffer p = some n) : c ≤ n := by
  rw [strlen_eq] at isLength
  rcases Option.map_eq_some_iff.mp isLength with ⟨text, isRead, rfl⟩
  by_contra shorter
  exact notNul text.length (by omega) (stringAt_of_stringLoop isRead).ends

/-- Bytes that are there, up to a zero, are read as a string. -/
theorem exists_string (isThere : ∀ i ≤ c, buffer (p + i) ≠ none) (isEnd : buffer (p + c) = some 0) :
    ∃ text, StringAt buffer p text ∧ text.length ≤ c := by
  induction c generalizing p with
  | zero =>
      refine ⟨[], ⟨fun i inText => absurd inText (Nat.not_lt_zero i), isEnd,
        fun b isIn => nomatch isIn⟩, le_refl 0⟩
  | succ c ih =>
      rcases Option.ne_none_iff_exists'.mp (isThere 0 (Nat.zero_le _)) with ⟨b, isByte⟩
      rw [Nat.add_zero] at isByte
      by_cases isNul : b = 0
      · refine ⟨[], ⟨fun i inText => absurd inText (Nat.not_lt_zero i), ?_,
          fun b isIn => nomatch isIn⟩, Nat.zero_le _⟩
        rw [List.length_nil, Nat.add_zero, isByte, isNul]
      · rcases ih (p := p + 1) (fun i inText => by
          rw [Nat.add_right_comm, Nat.add_assoc]
          exact isThere (i + 1) (by omega)) (by
            rw [Nat.add_right_comm, Nat.add_assoc]
            exact isEnd) with ⟨text, isString, short⟩
        exact ⟨b :: text, isString.cons isByte isNul, Nat.succ_le_succ short⟩

/-- A string depends on its own bytes only. -/
theorem StringAt.congr (isString : StringAt buffer p text)
    (same : ∀ i ≤ text.length, buffer' (p + i) = buffer (p + i)) : StringAt buffer' p text where
  bytes i inText := by
    rw [same i inText.le]
    exact isString.bytes i inText
  ends := by
    rw [same _ (le_refl _)]
    exact isString.ends
  noNul := isString.noNul

theorem StringAt.byte_ne (isString : StringAt buffer p text) {i : ℕ} (inText : i < text.length) :
    buffer (p + i) ≠ some 0 := by
  rw [isString.bytes i inText, List.getElem?_eq_getElem inText]
  intro isNul
  exact isString.noNul _ (List.getElem_mem inText) (Option.some.inj isNul)

end

/-- Every row of a bounded buffer is a string. -/
theorem Bounded.exists_row {s : State} (bounded : Bounded s) {r : ℕ} (isRow : r < maxRows) :
    ∃ text, StringAt s.buffer (r * maxCols) text ∧ text.length < maxCols := by
  rcases bounded.terminated r isRow with ⟨c, isCol, isEnd⟩
  have isThere : ∀ i ≤ c, s.buffer (r * maxCols + i) ≠ none := by
    intro i before
    rw [bounded.mapped]
    exact row_inside isRow (by omega)
  rcases exists_string isThere isEnd with ⟨text, isString, short⟩
  exact ⟨text, isString, by omega⟩

/-! ## A buffer of two lines -/

/-- A buffer whose second row is `aa`. -/
def secondRow : Memory := fun p =>
  if p < bufferSize then some (if p = 256 ∨ p = 257 then byteOf 'a' else 0) else none

/-- The cursor is at the beginning of the second of two lines. -/
def atSecondRow (mode : Mode) (rowOffset : ℤ) : State :=
  ⟨secondRow, 1, 0, 0, 2, rowOffset, mode, [], 0, [], false⟩

theorem strlen_secondRow : strlen secondRow (cell 1 0) = some 2 := by decide +kernel

theorem bounded_atSecondRow {mode : Mode} {rowOffset : ℤ} (fromTop : 0 ≤ rowOffset)
    (visible : rowOffset ≤ 1) : Bounded (atSecondRow mode rowOffset) where
  mapped p := by
    simp only [atSecondRow, secondRow]
    split <;> simp_all
  terminated r isRow := by
    rw [maxRows] at isRow
    have isByte : r * maxCols + 2 < bufferSize := by
      rw [bufferSize, maxRows, maxCols]
      omega
    refine ⟨2, by decide, ?_⟩
    change secondRow _ = _
    rw [secondRow, if_pos isByte, if_neg]
    rw [maxCols]
    omega
  someLine := (by decide : (1 : ℤ) ≤ 2)
  fewLines := (by decide : (2 : ℤ) ≤ maxRows)
  row := (by decide : (0 : ℤ) ≤ 1 ∧ (1 : ℤ) < 2)
  col := ⟨le_refl 0, 2, strlen_secondRow, (by decide : (0 : ℤ) ≤ 2)⟩
  screen := by
    refine ⟨fromTop, visible, ?_⟩
    simp only [atSecondRow, screenRows]
    omega
  cmd := (by decide : 0 < cmdSize)
  cmdline := (by decide : 0 < cmdlineSize)

end Osix.Vi
