import Osix.Fs.Basic
import Osix.User.Input
import Osix.User.Qsort
import Mathlib.Data.List.Forall2

/-!
# Lines in order

`strcmp` of `lib/libc/strcmp.c` and the program `bin/sort.c`, over the streams of the C
library. A line is a string on the heap, and the array `lines` has the addresses of them. What
`malloc` returns is given by the environment. A program that overruns its stack is `none`.
-/

namespace Osix.Sort

open Stdio Stdlib Quicksort

/-- `MAX_LINES`. -/
def maxLines : ℕ := 10000

/-- `MAX_LEN`. -/
def maxLen : ℕ := 1024

/-! ## Comparing strings -/

/-- `strcmp` of strings without their terminating 0. -/
def strcmp : List Byte → List Byte → ℤ
  | [], t => if t.headD 0 = 0 then 0 else (0 : Byte).toInt - (t.headD 0).toInt
  | b :: s, t =>
      if b = t.headD 0 then if b = 0 then 0 else strcmp s t.tail
      else b.toInt - (t.headD 0).toInt

/-- What the first characters say. -/
theorem strcmp_eq (s t : List Byte) :
    strcmp s t =
      if s.headD 0 = t.headD 0 then if s.headD 0 = 0 then 0 else strcmp s.tail t.tail
      else (s.headD 0).toInt - (t.headD 0).toInt := by
  cases s with
  | nil =>
      simp only [strcmp, List.headD_nil]
      by_cases isEnd : t.headD 0 = 0
      · rw [if_pos isEnd, if_pos isEnd.symm]
        rfl
      · rw [if_neg isEnd, if_neg (Ne.symm isEnd)]
  | cons b s => rfl

theorem strcmp_neg (s t : List Byte) : strcmp t s = -strcmp s t := by
  induction s generalizing t with
  | nil =>
      rw [strcmp_eq t [], strcmp, List.headD_nil]
      split
      · rfl
      · rw [Int.neg_sub]
  | cons b s ih =>
      rw [strcmp_eq t, strcmp, List.headD_cons, List.tail_cons]
      by_cases same : b = t.headD 0
      · rw [if_pos same, if_pos same.symm, ← same]
        split
        · rfl
        · exact ih t.tail
      · rw [if_neg same, if_neg (Ne.symm same)]
        omega

/-- The order of the first characters, and of what follows them where they are the same. -/
theorem strcmp_step {s t u : List Byte} (first : strcmp s t ≤ 0) (second : strcmp t u ≤ 0)
    (behind : s.headD 0 ≠ 0 → strcmp s.tail t.tail ≤ 0 → strcmp t.tail u.tail ≤ 0 →
      strcmp s.tail u.tail ≤ 0) :
    strcmp s u ≤ 0 := by
  rw [strcmp_eq] at first second ⊢
  by_cases sameFirst : s.headD 0 = t.headD 0
  · rw [if_pos sameFirst] at first
    rw [← sameFirst] at second
    split
    · rename_i sameThird
      rw [if_pos sameThird] at second
      split
      · exact le_rfl
      · rename_i notEnd
        rw [if_neg notEnd] at first second
        exact behind notEnd first second
    · rename_i isOther
      rwa [if_neg isOther] at second
  · rw [if_neg sameFirst] at first
    by_cases sameSecond : t.headD 0 = u.headD 0
    · rwa [← sameSecond, if_neg sameFirst]
    · rw [if_neg sameSecond] at second
      have isOther : s.headD 0 ≠ u.headD 0 := by
        intro sameThird
        rw [sameThird] at first
        exact sameSecond (BitVec.eq_of_toInt_eq (by omega))
      rw [if_neg isOther]
      omega

theorem strcmp_trans {s t u : List Byte} (first : strcmp s t ≤ 0) (second : strcmp t u ≤ 0) :
    strcmp s u ≤ 0 := by
  induction s generalizing t u with
  | nil => exact strcmp_step first second fun notEnd => absurd rfl notEnd
  | cons b s ih => exact strcmp_step first second fun _ => ih

/-! ## The program -/

/-- The strings on the heap, and the bytes of the array `lines`. -/
structure Memory where
  heap : ℕ → Option CString
  lines : ℕ → Byte

/-- The pointer that is an element of `lines`. -/
def pointerOf (bytes : List Byte) : ℕ := Block.get32 (fun k => bytes.getD k 0) 0

/-- The string that a pointer leads to. -/
def textAt (heap : ℕ → Option CString) (pointer : ℕ) : List Byte :=
  ((heap pointer).map CString.bytes).getD []

/-- `compare`. -/
def compare (heap : ℕ → Option CString) (a b : List Byte) : ℤ :=
  strcmp (textAt heap (pointerOf a)) (textAt heap (pointerOf b))

/-- `lines[count] = strdup(buffer)`, where `malloc` has returned this block. -/
def Memory.addLine (mem : Memory) (count block : ℕ) (buffer : List Byte) : Memory where
  heap := Function.update mem.heap block (some (stringIn buffer))
  lines := memcpy mem.lines (count * 4) (fun k => (bytes32 block).getD k 0) 4

/--
The loop that reads the lines, with what is left of `MAX_LINES`. Without memory the program
ends with a message: that is `none`.
-/
def readLoop (malloc : ℕ → ℕ) : ℕ → ℕ → Input → Memory → Option (ℕ × Memory)
  | 0, count, _, mem => some (count, mem)
  | left + 1, count, f, mem =>
      let ((buffer, isNull), f) := f.fgets maxLen
      if isNull then some (count, mem)
      else if malloc count = 0 then none
      else readLoop malloc left (count + 1) f (mem.addLine count (malloc count) buffer)

/-- The format `"%s"`. -/
def lineFormat : CString := ⟨"%s".toList.map byteOf, by decide⟩

/-- The loop that prints the lines and frees them; a line that is not there is `none`. -/
def printLoop : List ℕ → Memory → Stdio.File → Option (Memory × Stdio.File)
  | [], mem, out => some (mem, out)
  | i :: rest, mem, out => do
      let pointer := pointerOf (elements mem.lines 0 4 i)
      let line ← mem.heap pointer
      let (_, out) ← out.vfprintf lineFormat [.text (some line)]
      printLoop rest { mem with heap := Function.update mem.heap pointer none } out

/-- A stream to read from, and what `malloc` returns for each of its lines. -/
structure Source where
  buf : ℕ → Byte
  chunks : List Chunk
  malloc : ℕ → ℕ

def sort (stack : SortStack) (source : Source) (mem : Memory) (out : Stdio.File) :
    Option (Memory × Stdio.File) := do
  let (count, mem) ← readLoop source.malloc maxLines 0 (Input.fresh source.buf source.chunks) mem
  let sorted ← qsort (compare mem.heap) stack stack.room mem.lines 0 count 4
  printLoop (List.range count) { mem with lines := sorted } out

/-- What `fopen` makes of an argument: a stream, or an error with its text. -/
inductive Argument where
  | opened (source : Source)
  | failed (name error : CString)

/-- `perror`, which prints to the standard output. -/
def perror (name error : CString) (out : Stdio.File) : Option Stdio.File := do
  let out ←
    if name.bytes = [] then some out
    else (out.vfprintf ⟨"%s: ".toList.map byteOf, by decide⟩ [.text (some name)]).map Prod.snd
  (out.vfprintf ⟨"%s\n".toList.map byteOf, by decide⟩ [.text (some error)]).map Prod.snd

/-- The loop over the arguments. -/
def sortFiles (stack : SortStack) : List Argument → Memory → Stdio.File → Option Stdio.File
  | [], _, out => some out
  | .opened source :: rest, mem, out => do
      let (mem, out) ← sort stack source mem out
      sortFiles stack rest mem out
  | .failed name error :: rest, mem, out => do
      let out ← perror name error out
      sortFiles stack rest mem out

/-- `main`, and the `fflush` of `exit`. -/
def main (stack : SortStack) (stdin : Source) (files : List Argument) (mem : Memory)
    (out : Stdio.File) : Option Stdio.File := do
  let (mem, out) ← if files = [] then sort stack stdin mem out else some (mem, out)
  let out ← sortFiles stack files mem out
  return out.fflush

/-! ## Lines -/

/-- The lines of a text, with their newlines; the last one may have none. -/
def splitLines : List Byte → List (List Byte)
  | [] => []
  | c :: rest =>
      if c = byteOf '\n' then [c] :: splitLines rest
      else
        match splitLines rest with
        | [] => [[c]]
        | line :: lines => (c :: line) :: lines

theorem flatten_splitLines (text : List Byte) : (splitLines text).flatten = text := by
  induction text with
  | nil => rfl
  | cons c rest ih =>
      rw [splitLines]
      split
      · rw [List.flatten_cons, ih]
        rfl
      · split
        · rename_i noLine
          rw [noLine] at ih
          rw [← ih]
          rfl
        · rename_i line lines isLines
          rw [isLines] at ih
          rw [List.flatten_cons, List.cons_append, ← List.flatten_cons, ih]

theorem splitLines_eq_nil {text : List Byte} (noLine : splitLines text = []) : text = [] := by
  rw [← flatten_splitLines text, noLine]
  rfl

/-- The first line is what `fgets` reads if it fits. -/
theorem splitLines_cons {left : ℕ} {text line : List Byte} {lines : List (List Byte)}
    (isLines : splitLines text = line :: lines) (fits : line.length ≤ left) :
    lineOf left text = line ∧ line ≠ [] ∧ splitLines (text.drop line.length) = lines := by
  induction text generalizing left line lines with
  | nil => cases isLines
  | cons c rest ih =>
      rw [splitLines] at isLines
      split at isLines
      · rename_i isNewline
        cases isLines
        obtain ⟨left, rfl⟩ := Nat.exists_eq_add_of_le' (show 1 ≤ left from fits)
        exact ⟨by rw [lineOf, if_pos isNewline], by simp, rfl⟩
      · rename_i notNewline
        split at isLines
        · rename_i noLine
          cases isLines
          obtain ⟨left, rfl⟩ := Nat.exists_eq_add_of_le' (show 1 ≤ left from fits)
          cases splitLines_eq_nil noLine
          refine ⟨?_, by simp, rfl⟩
          rw [lineOf, if_neg notNewline]
          cases left <;> rfl
        · rename_i line' lines' isRest
          cases isLines
          rw [List.length_cons] at fits
          obtain ⟨left, rfl⟩ := Nat.exists_eq_add_of_le' (show 1 ≤ left by omega)
          rcases ih isRest (show line'.length ≤ left by omega) with ⟨isLine, _, isBehind⟩
          exact ⟨by rw [lineOf, if_neg notNewline, isLine], by simp, by simpa using isBehind⟩

/-- What successive calls of `fgets` read, so many at most. -/
def pieces : ℕ → List Byte → List (List Byte)
  | 0, _ => []
  | left + 1, text =>
      let line := lineOf (maxLen - 1) text
      if line = [] then [] else line :: pieces left (text.drop line.length)

/-- Lines that are not too many or too long are read as they are. -/
theorem pieces_eq {left : ℕ} {text : List Byte} (few : (splitLines text).length ≤ left)
    (short : ∀ line ∈ splitLines text, line.length < maxLen) :
    pieces left text = splitLines text := by
  induction left generalizing text with
  | zero =>
      rw [List.length_eq_zero_iff.mp (by omega : (splitLines text).length = 0)]
      rfl
  | succ left ih =>
      rcases isLines : splitLines text with _ | ⟨line, lines⟩
      · rw [splitLines_eq_nil isLines]
        rfl
      · rw [isLines] at few short
        have isShort := short line List.mem_cons_self
        rcases splitLines_cons isLines (show line.length ≤ maxLen - 1 by omega) with
          ⟨isLine, notEmpty, isBehind⟩
        simp only [pieces, isLine, if_neg notEmpty]
        rw [ih, isBehind]
        · rw [isBehind]
          exact Nat.le_of_succ_le_succ few
        · rw [isBehind]
          exact fun other isIn => short other (List.mem_cons_of_mem _ isIn)

/-! ## Reading -/

/-- `malloc` has a block of its own for every line. -/
structure Ample (malloc : ℕ → ℕ) : Prop where
  notNull : ∀ k < maxLines, malloc k ≠ 0
  inMemory : ∀ k < maxLines, malloc k < 2 ^ 32
  distinct : ∀ j < maxLines, ∀ k < maxLines, malloc j = malloc k → j = k

/-- The memory has these lines. -/
structure Stored (malloc : ℕ → ℕ) (lines : List CString) (mem : Memory) : Prop where
  pointer : ∀ k < lines.length, elements mem.lines 0 4 k = bytes32 (malloc k)
  line : ∀ k (below : k < lines.length), mem.heap (malloc k) = some lines[k]

/-- What `strdup` keeps of a line in the buffer. -/
def kept (line : List Byte) : CString := stringIn (line ++ [0])

theorem kept_bytes {line : List Byte} (noNul : ∀ b ∈ line, b ≠ 0) : (kept line).bytes = line := by
  have isKept : (line ++ [0]).takeWhile (· ≠ 0) = line := by
    rw [List.takeWhile_append_of_pos (by simpa using noNul)]
    simp
  exact isKept

section

variable {malloc : ℕ → ℕ} {lines : List CString} {mem : Memory}

theorem Stored.addLine (ample : Ample malloc) (stored : Stored malloc lines mem)
    (few : lines.length < maxLines) (buffer : List Byte) :
    Stored malloc (lines ++ [stringIn buffer])
      (mem.addLine lines.length (malloc lines.length) buffer) := by
  refine ⟨?_, ?_⟩
  · intro k below
    rw [List.length_append, List.length_singleton] at below
    by_cases isNew : k = lines.length
    · subst isNew
      simp [elements, element, Memory.addLine, memcpy, List.range_succ, bytes32, bytes16,
        Nat.add_sub_cancel_left]
    · have same : SameIn (0 + k * 4) 4
          (mem.addLine lines.length (malloc lines.length) buffer).lines mem.lines := by
        intro addr above inElement
        simp only [Memory.addLine, memcpy]
        rw [if_neg (by omega)]
      exact (same.element le_rfl le_rfl).trans (stored.pointer k (by omega))
  · intro k below
    rw [List.length_append, List.length_singleton] at below
    by_cases isNew : k = lines.length
    · subst isNew
      simp [Memory.addLine]
    · have isOther : malloc k ≠ malloc lines.length := fun same =>
        isNew (ample.distinct k (by omega) _ few same)
      rw [List.getElem_append_left (show k < lines.length by omega), ← stored.line k (by omega)]
      exact Function.update_of_ne isOther _ _

theorem readLoop_spec (ample : Ample malloc) (left : ℕ) {f : Stdio.Input} (ok : f.Ok)
    (stored : Stored malloc lines mem) (fits : lines.length + left ≤ maxLines) :
    ∃ mem', readLoop malloc left lines.length f mem =
        some (lines.length + (pieces left f.rest).length, mem') ∧
      Stored malloc (lines ++ (pieces left f.rest).map kept) mem' := by
  induction left generalizing lines f mem with
  | zero => exact ⟨mem, rfl, by simpa [pieces] using stored⟩
  | succ left ih =>
      rcases Input.fgetsLoop_spec (maxLen - 1) [] ok with ⟨isLine, isRest, isOk⟩
      rw [List.nil_append] at isLine
      simp only [readLoop, Input.fgets, if_neg (show ¬maxLen = 0 by decide), isLine, pieces,
        decide_eq_true_eq]
      by_cases atEnd : lineOf (maxLen - 1) f.rest = []
      · rw [if_pos atEnd, if_pos atEnd]
        exact ⟨mem, rfl, by simpa using stored⟩
      · rw [if_neg atEnd, if_neg atEnd, if_neg (ample.notNull _ (by omega))]
        have added := stored.addLine ample (by omega) (lineOf (maxLen - 1) f.rest ++ [0])
        rcases ih isOk added (by simpa using by omega) with ⟨mem', isLoop, stored'⟩
        rw [isRest] at isLoop stored'
        refine ⟨mem', ?_, ?_⟩
        · rw [List.length_append, List.length_singleton] at isLoop
          rw [isLoop, List.length_cons, Nat.add_assoc, Nat.add_comm 1]
        · rw [List.map_cons, List.append_cons]
          exact stored'

end

/-! ## Printing -/

/-- The lines have no characters that `fputs` takes for an error. -/
def Plain (text : List Byte) : Prop := ∀ b ∈ text, b.msb = false

theorem vfprintf_line {out : Stdio.File} {bytes : List Byte} (holds : out.Holds bytes)
    {line : CString} (plain : Plain line.bytes) :
    ∃ count out', out.vfprintf lineFormat [.text (some line)] = some (count, out') ∧
      out'.Holds (bytes ++ line.bytes) := by
  have plainArgs : Stdio.File.PlainArgs [.text (some line)] := by
    intro s isIn
    rw [List.mem_singleton, Arg.text.injEq] at isIn
    subst isIn
    exact plain
  have isText : formatLoop lineFormat.bytes.length lineFormat.bytes [.text (some line)] =
      some line.bytes := by
    have isFormat : formatLoop lineFormat.bytes.length lineFormat.bytes [.text (some line)] =
        some (line.bytes ++ List.replicate (0 - line.bytes.length) (byteOf ' ') ++ []) := rfl
    rw [isFormat, Nat.zero_sub]
    simp
  exact Stdio.File.sink_holds.vfprintfLoop _ 0 holds plainArgs isText trivial

/-- The pointer at an index of `lines`. -/
def Memory.pointer (mem : Memory) (i : ℕ) : ℕ := pointerOf (elements mem.lines 0 4 i)

theorem printLoop_spec (indices : List ℕ) {mem : Memory} {out : Stdio.File} {bytes : List Byte}
    (holds : out.Holds bytes) (distinct : (indices.map mem.pointer).Nodup)
    (isLine : ∀ i ∈ indices, ∃ line, mem.heap (mem.pointer i) = some line ∧ Plain line.bytes) :
    ∃ mem' out', printLoop indices mem out = some (mem', out') ∧
      out'.Holds (bytes ++ indices.flatMap fun i => textAt mem.heap (mem.pointer i)) := by
  induction indices generalizing mem out bytes with
  | nil => exact ⟨mem, out, rfl, by simpa using holds⟩
  | cons i rest ih =>
      rcases isLine i List.mem_cons_self with ⟨line, isFirst, plain⟩
      rcases vfprintf_line holds plain with ⟨count, printed, isPrinted, holdsPrinted⟩
      rw [List.map_cons, List.nodup_cons] at distinct
      have isOther : ∀ j ∈ rest, Function.update mem.heap (mem.pointer i) none (mem.pointer j) =
          mem.heap (mem.pointer j) := by
        intro j isIn
        apply Function.update_of_ne
        intro same
        exact distinct.1 (same ▸ List.mem_map_of_mem isIn)
      rcases @ih { mem with heap := Function.update mem.heap (mem.pointer i) none } _ _
        holdsPrinted distinct.2 (fun j isIn => by
          rcases isLine j (List.mem_cons_of_mem i isIn) with ⟨other, isThere, plainOther⟩
          exact ⟨other, (isOther j isIn).trans isThere, plainOther⟩) with
        ⟨mem', out', isLoop, holds'⟩
      refine ⟨mem', out', ?_, ?_⟩
      · rw [Memory.pointer] at isFirst
        simp only [printLoop, isFirst, isPrinted, Option.bind_eq_bind, Option.bind_some]
        exact isLoop
      · have sameRest : (rest.flatMap fun j => textAt
            (Function.update mem.heap (mem.pointer i) none) (mem.pointer j)) =
            rest.flatMap fun j => textAt mem.heap (mem.pointer j) := by
          apply List.flatMap_congr
          intro j isIn
          unfold textAt
          rw [isOther j isIn]
        have isText : textAt mem.heap (mem.pointer i) = line.bytes := by
          rw [textAt, isFirst]
          rfl
        rw [List.flatMap_cons, isText, ← sameRest, ← List.append_assoc]
        exact holds'

/-! ## Sorting -/

theorem comparison_compare (heap : ℕ → Option CString) (elements : Set (List Byte)) :
    Comparison (compare heap) elements := by
  refine ⟨?_, ?_⟩
  · intro a _ b _ notLess
    rw [compare] at notLess ⊢
    rw [strcmp_neg]
    omega
  · intro a _ b _ c _ first second
    exact strcmp_trans first second

theorem pointerOf_bytes32 {pointer : ℕ} (inMemory : pointer < 2 ^ 32) :
    pointerOf (bytes32 pointer) = pointer := by
  change (BitVec.ofNat 8 pointer).toNat + 256 * (BitVec.ofNat 8 (pointer / 256)).toNat +
    65536 * ((BitVec.ofNat 8 (pointer / 65536)).toNat +
      256 * (BitVec.ofNat 8 (pointer / 65536 / 256)).toNat) = pointer
  simp only [BitVec.toNat_ofNat]
  omega

/-- The texts are the lines of the text, in the order of `strcmp`. -/
def InOrder (lines sorted : List (List Byte)) : Prop :=
  sorted.Perm lines ∧ sorted.Pairwise fun s t => strcmp s t ≤ 0

section

variable {malloc : ℕ → ℕ} {lines : List CString} {mem : Memory}

theorem Stored.textAt_pointer (ample : Ample malloc) (stored : Stored malloc lines mem)
    (few : lines.length ≤ maxLines) {k : ℕ} (below : k < lines.length) :
    textAt mem.heap (pointerOf (elements mem.lines 0 4 k)) = lines[k].bytes := by
  rw [stored.pointer k below, pointerOf_bytes32 (ample.inMemory k (by omega)), textAt,
    stored.line k below]
  rfl

/-- The tree of the pointers is that of the lines. -/
theorem Stored.height (ample : Ample malloc) (stored : Stored malloc lines mem)
    (few : lines.length ≤ maxLines) :
    Quicksort.height (compare mem.heap) (array mem.lines 0 lines.length 4) =
      Quicksort.height strcmp (lines.map CString.bytes) := by
  have isText : (array mem.lines 0 lines.length 4).map
      (fun pointer => textAt mem.heap (pointerOf pointer)) = lines.map CString.bytes := by
    apply List.ext_getElem
    · simp [array]
    · intro k _ below
      rw [List.length_map] at below
      simp [array, stored.textAt_pointer ample few below]
  rw [← isText, ← height_map]
  rfl

/-- What is printed once the pointers are sorted. -/
theorem Stored.sorted (ample : Ample malloc) (stored : Stored malloc lines mem)
    (few : lines.length ≤ maxLines) (plain : ∀ line ∈ lines, Plain line.bytes)
    {out : Stdio.File} {bytes : List Byte} (holds : out.Holds bytes) :
    ∃ mem' out' sorted,
      printLoop (List.range lines.length)
        { mem with lines := arrange (compare mem.heap) mem.lines 0 lines.length 4 } out =
          some (mem', out') ∧
      out'.Holds (bytes ++ sorted.flatten) ∧ InOrder (lines.map CString.bytes) sorted := by
  rcases arrange_spec (comparison_compare mem.heap (elementSet mem.lines 0 lines.length 4)) with
    ⟨isPerm, ordered, -⟩
  generalize arrange (compare mem.heap) mem.lines 0 lines.length 4 = array at isPerm ordered
  have pointers : ((List.range lines.length).map ({ mem with lines := array }).pointer).Perm
      ((List.range lines.length).map malloc) := by
    have sortedPointers := isPerm.map pointerOf
    rw [List.map_map, List.map_map] at sortedPointers
    refine sortedPointers.trans (List.Perm.of_eq ?_)
    apply List.map_congr_left
    intro k isIn
    rw [List.mem_range] at isIn
    rw [Function.comp_apply, stored.pointer k isIn,
      pointerOf_bytes32 (ample.inMemory k (by omega))]
  have distinct : ((List.range lines.length).map malloc).Nodup := by
    apply List.Nodup.map_on _ List.nodup_range
    intro j isLeft k isRight same
    rw [List.mem_range] at isLeft isRight
    exact ample.distinct j (by omega) k (by omega) same
  have isLine : ∀ i ∈ List.range lines.length, ∃ line,
      mem.heap (({ mem with lines := array } : Memory).pointer i) = some line ∧
        Plain line.bytes := by
    intro i isIn
    rcases List.mem_map.mp (pointers.subset (List.mem_map_of_mem isIn)) with ⟨k, below, isPointer⟩
    rw [List.mem_range] at below
    exact ⟨lines[k], isPointer ▸ stored.line k below, plain _ (List.getElem_mem below)⟩
  rcases @printLoop_spec _ { mem with lines := array } _ _ holds
    (pointers.nodup_iff.mpr distinct) isLine with ⟨mem', out', isLoop, holds'⟩
  refine ⟨mem', out', _, isLoop, by rwa [List.flatMap_def] at holds', ?_, ?_⟩
  · have texts := pointers.map (textAt mem.heap)
    rw [List.map_map] at texts
    refine texts.trans (List.Perm.of_eq ?_)
    apply List.ext_getElem
    · simp
    · intro k _ below
      rw [List.length_map] at below
      simp [textAt, stored.line k below]
  · rw [List.pairwise_map]
    apply List.pairwise_lt_range.imp_of_mem
    intro i j _ isIn before
    rw [List.mem_range] at isIn
    exact ordered i j before.le isIn

end

/-! ## All inputs -/

namespace Source

/-- What can be read. -/
def text (source : Source) : List Byte := source.chunks.flatMap Chunk.bytes

/-- What the program keeps of the lines. -/
def lines (source : Source) : List CString := (pieces maxLines source.text).map kept

/-- There are few lines, all of them short and plain, and there is memory for them. -/
structure Sortable (source : Source) : Prop where
  few : (splitLines source.text).length ≤ maxLines
  short : ∀ line ∈ splitLines source.text, line.length < maxLen
  plain : Plain source.text
  noNul : ∀ b ∈ source.text, b ≠ 0
  ample : Ample source.malloc

theorem mem_text {source : Source} {line : List Byte} {b : Byte}
    (isLine : line ∈ splitLines source.text) (isByte : b ∈ line) : b ∈ source.text := by
  rw [← flatten_splitLines source.text]
  exact List.mem_flatten_of_mem isLine isByte

/-- The lines as they are. -/
theorem Sortable.lines {source : Source} (sortable : source.Sortable) :
    source.lines.map CString.bytes = splitLines source.text := by
  rw [Source.lines, pieces_eq sortable.few sortable.short, List.map_map]
  refine (List.map_congr_left (g := id) ?_).trans (List.map_id _)
  intro line isIn
  apply kept_bytes
  intro b isByte
  exact sortable.noNul b (mem_text isIn isByte)

theorem Sortable.plainLines {source : Source} (sortable : source.Sortable) :
    ∀ line ∈ source.lines, Plain line.bytes := by
  intro line isIn b isByte
  have isLine := List.mem_map_of_mem (f := CString.bytes) isIn
  rw [sortable.lines] at isLine
  exact sortable.plain b (mem_text isLine isByte)

end Source

theorem length_pieces (left : ℕ) (text : List Byte) : (pieces left text).length ≤ left := by
  induction left generalizing text with
  | zero => exact le_rfl
  | succ left ih =>
      simp only [pieces]
      split
      · exact Nat.zero_le _
      · exact Nat.succ_le_succ (ih _)

section

variable {stack : SortStack} {source : Source}

/-- `sort` goes on if the stack has room for the tree of the lines. -/
theorem sort_eq (ample : Ample source.malloc) (mem : Memory) (out : Stdio.File) :
    ∃ read, Stored source.malloc source.lines read ∧
      sort stack source mem out =
        if stack.need 4 (Quicksort.height strcmp (source.lines.map CString.bytes)) ≤ stack.room then
          printLoop (List.range source.lines.length) { read with
            lines := arrange (compare read.heap) read.lines 0 source.lines.length 4 } out
        else none := by
  have ok : (Input.fresh source.buf source.chunks).Ok := by
    intro isEof
    cases isEof
  have stored : Stored source.malloc [] mem := by
    refine ⟨?_, ?_⟩
    · intro k below
      cases below
    · intro k below
      cases below
  rcases readLoop_spec ample maxLines ok stored (Nat.le_of_eq (Nat.zero_add _)) with
    ⟨read, isRead, storedLines⟩
  have isText : (Input.fresh source.buf source.chunks).rest = source.text := rfl
  have isCount : source.lines.length = (pieces maxLines source.text).length := List.length_map _
  rw [isText, List.length_nil, Nat.zero_add, ← isCount] at isRead
  rw [isText, List.nil_append] at storedLines
  have few : source.lines.length ≤ maxLines := by
    rw [isCount]
    exact length_pieces _ _
  have isTree := Stored.height ample (show Stored source.malloc source.lines read from storedLines)
    few
  refine ⟨read, storedLines, ?_⟩
  simp only [sort, isRead, Option.bind_eq_bind, Option.bind_some, qsort_eq, isTree]
  split <;> rfl

/-- What `sort` prints for any input. -/
theorem sort_spec (ample : Ample source.malloc)
    (plain : ∀ line ∈ source.lines, Plain line.bytes)
    (inStack : stack.need 4 (Quicksort.height strcmp (source.lines.map CString.bytes)) ≤ stack.room)
    (mem : Memory) {out : Stdio.File} {bytes : List Byte} (holds : out.Holds bytes) :
    ∃ mem' out' sorted, sort stack source mem out = some (mem', out') ∧
      out'.Holds (bytes ++ sorted.flatten) ∧
      InOrder (source.lines.map CString.bytes) sorted := by
  have few : source.lines.length ≤ maxLines := by
    rw [Source.lines, List.length_map]
    exact length_pieces _ _
  rcases @sort_eq stack source ample mem out with ⟨read, stored, isSort⟩
  rw [if_pos inStack] at isSort
  rcases Stored.sorted ample stored few plain holds with
    ⟨mem', out', sorted, isLoop, holds', inOrder⟩
  exact ⟨mem', out', sorted, isSort.trans isLoop, holds', inOrder⟩

end

/-- What is printed for all inputs: the lines of each of them in order. -/
def Sorts (sources : List Source) (written : List Byte) : Prop :=
  ∃ sorted : List (List (List Byte)), written = (sorted.map List.flatten).flatten ∧
    List.Forall₂ (fun source lines => InOrder (splitLines source.text) lines) sources sorted

/-- The stack has room for the tree of partitions of the lines. -/
def Source.Shallow (stack : SortStack) (source : Source) : Prop :=
  stack.need 4 (Quicksort.height strcmp (splitLines source.text)) ≤ stack.room

theorem Source.Sortable.shallow_iff {stack : SortStack} {source : Source}
    (sortable : source.Sortable) :
    stack.need 4 (Quicksort.height strcmp (source.lines.map CString.bytes)) ≤ stack.room ↔
      source.Shallow stack := by
  rw [sortable.lines, Source.Shallow]

theorem sortFiles_spec {stack : SortStack} {sources : List Source}
    (sortable : ∀ source ∈ sources, source.Sortable)
    (shallow : ∀ source ∈ sources, source.Shallow stack) (mem : Memory) {out : Stdio.File}
    {bytes : List Byte} (holds : out.Holds bytes) :
    ∃ out' written, sortFiles stack (sources.map .opened) mem out = some out' ∧
      out'.Holds (bytes ++ written) ∧ Sorts sources written := by
  induction sources generalizing mem out bytes with
  | nil => exact ⟨out, [], rfl, by simpa using holds, [], rfl, .nil⟩
  | cons source rest ih =>
      have first := sortable source List.mem_cons_self
      have inStack := first.shallow_iff.mpr (shallow source List.mem_cons_self)
      rcases sort_spec first.ample first.plainLines inStack mem holds with
        ⟨middle, printed, lines, isSort, holdsPrinted, inOrder⟩
      rw [first.lines] at inOrder
      rcases ih (fun other isIn => sortable other (List.mem_cons_of_mem _ isIn))
        (fun other isIn => shallow other (List.mem_cons_of_mem _ isIn)) middle
        holdsPrinted with ⟨out', written, isRest, holds', sorted, isWritten, inOrders⟩
      refine ⟨out', lines.flatten ++ written, ?_, by rwa [← List.append_assoc],
        lines :: sorted, by simp [isWritten], .cons inOrder inOrders⟩
      simp only [List.map_cons, sortFiles, isSort, Option.bind_eq_bind, Option.bind_some, isRest]

/-- All inputs are read to the end only if the stack has room for each of them. -/
theorem shallow_of_sortFiles {stack : SortStack} {sources : List Source}
    (sortable : ∀ source ∈ sources, source.Sortable) {mem : Memory} {out out' : Stdio.File}
    (isSorted : sortFiles stack (sources.map .opened) mem out = some out') :
    ∀ source ∈ sources, source.Shallow stack := by
  induction sources generalizing mem out with
  | nil => exact fun source isIn => absurd isIn List.not_mem_nil
  | cons source rest ih =>
      have first := sortable source List.mem_cons_self
      rcases @sort_eq stack source first.ample mem out with ⟨read, -, isSort⟩
      simp only [List.map_cons, sortFiles, isSort, Option.bind_eq_bind,
        Option.bind_eq_some_iff] at isSorted
      obtain ⟨⟨middle, printed⟩, isPrinted, isRest⟩ := isSorted
      split at isPrinted
      case isTrue inStack =>
        exact List.forall_mem_cons.mpr ⟨first.shallow_iff.mp inStack,
          ih (fun other isIn => sortable other (List.mem_cons_of_mem _ isIn)) isRest⟩
      case isFalse => contradiction

/-- The inputs: the arguments, or else the standard input. -/
def inputs (stdin : Source) (files : List Source) : List Source :=
  if files = [] then [stdin] else files

theorem main_eq (stack : SortStack) (stdin : Source) (files : List Source) (mem : Memory)
    (out : Stdio.File) :
    main stack stdin (files.map .opened) mem out =
      (sortFiles stack ((inputs stdin files).map .opened) mem out).map Stdio.File.fflush := by
  cases files with
  | nil =>
      simp only [main, inputs, sortFiles, List.map_nil, List.map_cons, if_true]
      rcases sort stack stdin mem out with _ | ⟨mem', out'⟩
      · rfl
      · rfl
  | cons source rest =>
      simp only [main, inputs, List.map_cons, if_neg (List.cons_ne_nil _ _), Option.bind_eq_bind,
        Option.bind_some]
      rcases sortFiles stack (.opened source :: rest.map .opened) mem out with _ | out'
      · rfl
      · rfl

/-- At the end everything is written. -/
theorem main_written {stack : SortStack} {stdin : Source} {files : List Source} {mem : Memory}
    {buf : ℕ → Byte} {out : Stdio.File} {written : List Byte}
    (isSorted : sortFiles stack ((inputs stdin files).map .opened) mem (Stdio.File.fresh buf) =
      some out)
    (holds : out.Holds written) :
    main stack stdin (files.map .opened) mem (Stdio.File.fresh buf) = some out.fflush ∧
      out.fflush.written = written := by
  rcases Stdio.File.holds_fflush holds with ⟨flushed, isEmpty⟩
  have isWritten := flushed.bytes
  rw [Stdio.File.pending, isEmpty] at isWritten
  exact ⟨by rw [main_eq, isSorted, Option.map_some], by simpa using isWritten⟩

/-- `bin/sort` prints the lines of its inputs in order if its stack has room for their trees. -/
theorem main_iff {stack : SortStack} {stdin : Source} {files : List Source}
    (sortable : ∀ source ∈ inputs stdin files, source.Sortable) (mem : Memory) (buf : ℕ → Byte) :
    (∃ out, main stack stdin (files.map .opened) mem (Stdio.File.fresh buf) = some out ∧
      Sorts (inputs stdin files) out.written) ↔
        ∀ source ∈ inputs stdin files, source.Shallow stack := by
  constructor
  · rintro ⟨out, isMain, -⟩
    rw [main_eq, Option.map_eq_some_iff] at isMain
    obtain ⟨written, isSorted, -⟩ := isMain
    exact shallow_of_sortFiles sortable isSorted
  · intro shallow
    rcases sortFiles_spec sortable shallow mem (Stdio.File.holds_fresh buf) with
      ⟨out, written, isSorted, holds, sorts⟩
    rcases main_written isSorted holds with ⟨isMain, isWritten⟩
    exact ⟨out.fflush, isMain, by rwa [isWritten]⟩

/--
`qsort` leaves the elements of an array in the order of the comparison, keeps all of them and
touches nothing else, if and only if the stack has room for their tree of partitions. With it
`bin/sort` prints the lines of its inputs in the order of `strcmp`, if there are not too many of
them, they are short and plain, and the stack has room for their trees; without that room it does
not.
-/
theorem qsort_sorts (stack : SortStack) :
    (∀ compar mem base count size, Comparison compar (elementSet mem base count size) →
      (QsortSorts compar stack mem base count size ↔
        stack.need size (Quicksort.height compar (array mem base count size)) ≤ stack.room)) ∧
      ∀ stdin files mem buf, (∀ source ∈ inputs stdin files, source.Sortable) →
        ((∃ out, main stack stdin (files.map .opened) mem (Stdio.File.fresh buf) = some out ∧
          Sorts (inputs stdin files) out.written) ↔
            ∀ source ∈ inputs stdin files, source.Shallow stack) := by
  refine ⟨?_, ?_⟩
  · intro compar mem base count size comparison
    exact qsortSorts_iff comparison
  · intro stdin files mem buf sortable
    exact main_iff sortable mem buf

/-- One chunk of a few characters, and blocks one after the other. -/
def sourceOf (chunk : Chunk) : Source := ⟨fun _ => 0, [chunk], fun k => k + 1⟩

theorem ample_succ : Ample fun k => k + 1 := by
  refine ⟨fun k _ => Nat.succ_ne_zero k, ?_, fun j _ k _ same => Nat.succ.inj same⟩
  intro k below
  have few : maxLines < 2 ^ 32 - 1 := by decide
  omega

/-- `"b\na\n"`. -/
def twoLines : Chunk := ⟨"b\na\n".toList.map byteOf, by decide, by decide⟩

/-- Differences of first bytes. -/
def difference (a b : List Byte) : ℤ := (a.headD 0).toNat - (b.headD 0).toNat

theorem comparison_difference (elements : Set (List Byte)) : Comparison difference elements := by
  refine ⟨?_, ?_⟩
  · intro a _ b _ notLess
    rw [difference] at notLess ⊢
    omega
  · intro a _ b _ c _ first second
    rw [difference] at first second ⊢
    omega

/-- The whole page, and no more than arguments and return addresses for a call. -/
def wholePage : SortStack where
  toUserStack := UserStack.page 4
  swapFrame := 4 * (3 + 1)
  comparFrame := 4 * (2 + 1)
  holdsSwap := Nat.le_refl _
  holdsCompar := Nat.le_refl _

theorem qsort_sorts_few :
    QsortSorts difference wholePage (fun addr => if addr = 0 then 7 else 3) 0 2 1 ∧
      ∃ out, main wholePage (sourceOf twoLines) [] ⟨fun _ => none, fun _ => 0⟩
          (Stdio.File.fresh fun _ => 0) = some out ∧
        Sorts [sourceOf twoLines] out.written := by
  have low : ∀ height ≤ 1, wholePage.need 1 height ≤ wholePage.room ∧
      wholePage.need 4 height ≤ wholePage.room := by decide
  refine ⟨((qsort_sorts wholePage).1 difference _ 0 2 1 (comparison_difference _)).mpr ?_,
    ((qsort_sorts wholePage).2 (sourceOf twoLines) [] ⟨fun _ => none, fun _ => 0⟩ (fun _ => 0)
      ?_).mpr ?_⟩
  · exact (low _ (by simpa [array] using height_le difference (array _ 0 2 1))).1
  · intro source isInput
    obtain rfl : source = sourceOf twoLines := List.mem_singleton.mp isInput
    have plain : ∀ b ∈ twoLines.bytes ++ [], b.msb = false ∧ b ≠ 0 := by decide
    refine ⟨by decide, by decide, fun b isIn => (plain b isIn).1, fun b isIn => (plain b isIn).2,
      ample_succ⟩
  · intro source isInput
    obtain rfl : source = sourceOf twoLines := List.mem_singleton.mp isInput
    have isTwo : (splitLines (sourceOf twoLines).text).length = 2 := by decide
    have isLow := height_le strcmp (splitLines (sourceOf twoLines).text)
    rw [isTwo] at isLow
    exact (low _ isLow).2

/-- The bytes from 0 on in order. -/
def ascending (addr : ℕ) : Byte := BitVec.ofNat 8 addr

theorem pairwise_ascending {count : ℕ} (bytes : count ≤ 256) :
    (array ascending 0 count 1).Pairwise fun x y => difference x y < 0 := by
  rw [array, view, List.pairwise_map]
  apply List.pairwise_lt_range.imp_of_mem
  intro j k isLeft isRight before
  rw [List.mem_range] at isLeft isRight
  simp only [difference, elements, element, ascending, List.range_one, List.map_singleton,
    List.headD_cons, BitVec.toNat_ofNat, Nat.zero_add, Nat.mul_one, Nat.add_zero]
  omega

/-- 205 elements in order take more calls than the page of any stack has room for. -/
theorem not_qsort_ascending :
    ¬ ∃ stack : SortStack, ∀ compar mem base count size,
      Comparison compar (elementSet mem base count size) →
        QsortSorts compar stack mem base count size := by
  rintro ⟨stack, all⟩
  have comparison := comparison_difference (elementSet ascending 0 205 1)
  have inStack := (qsortSorts_iff comparison).mp (all difference ascending 0 205 1 comparison)
  have isHeight := height_ascending (pairwise_ascending (show 205 ≤ 256 by decide))
  have isLength : (array ascending 0 205 1).length = 205 := length_view _ _ _
  have few : stack.calls ≤ 204 := stack.calls_le
  have overrun := stack.room_lt_need 1 few
  rw [isHeight, isLength] at inStack
  exact absurd inStack (Nat.not_le_of_lt overrun)

end Osix.Sort
