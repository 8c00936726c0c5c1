import Osix.User.Filters

/-!
# Programs for any file

The programs `bin/od.c` and `bin/strings.c`, which read files that need not be texts. The first one
prints all bytes as numbers, so that its output tells any two files apart; the second one prints
the runs of printable characters.
-/

namespace Osix.Dumps

open Runs Stdio Filters

/-! ## Numbers -/

/-- `BYTES_PER_LINE`. -/
def bytesPerLine : ℕ := 16

theorem offsetFormat_noNul : ∀ b ∈ "%07x ".toList.map byteOf, b ≠ 0 := by decide

theorem hexFormat_noNul : ∀ b ∈ "%02x ".toList.map byteOf, b ≠ 0 := by decide

theorem octalFormat_noNul : ∀ b ∈ "%03o ".toList.map byteOf, b ≠ 0 := by decide

def offsetFormat : CString := ⟨"%07x ".toList.map byteOf, offsetFormat_noNul⟩

def hexFormat : CString := ⟨"%02x ".toList.map byteOf, hexFormat_noNul⟩

def octalFormat : CString := ⟨"%03o ".toList.map byteOf, octalFormat_noNul⟩

/-- `offset` and the standard output. -/
structure Od where
  offset : Word
  out : Stdio.File

/-- The line for a byte of the buffer. -/
def printByte (hexMode : Bool) (out : Stdio.File) (b : Byte) : Option Stdio.File :=
  if hexMode then out.call (.fprintf hexFormat [.word (b.setWidth 32)])
  else out.call (.fprintf octalFormat [.word (b.setWidth 32)])

/-- A turn of the loop of `print_data`. -/
def printDataTurn (hexMode : Bool) (buffer : List Byte) (s : Od) : Option (Bool × Od) := do
  let out ← s.out.call (.fprintf offsetFormat [.word s.offset])
  let out ← buffer.foldlM (printByte hexMode) out
  let out ← out.call (.fprintf endFormat [])
  return (false, ⟨s.offset + BitVec.ofNat 32 buffer.length, out⟩)

/-- `print_data`, with what is left of the file. -/
def printData (f : Input) (hexMode : Bool) (out : Stdio.File) : Option Stdio.File := do
  let (_, s) ← readLoop (.fread bytesPerLine) (printDataTurn hexMode) f ⟨0, out⟩
  return s.out

/-- A byte as a number of fixed length, and a space. -/
def cell (hexMode : Bool) (b : Byte) : List Byte :=
  (if hexMode then numberText (b.setWidth 32) 16 (byteOf '0') 2 false
    else numberText (b.setWidth 32) 8 (byteOf '0') 3 false) ++ [byteOf ' ']

/-- The line for a piece of the file. -/
def dumpLine (hexMode : Bool) (offset : Word) (piece : List Byte) : List Byte :=
  numberText offset 16 (byteOf '0') 7 false ++ byteOf ' ' ::
    (piece.flatMap (cell hexMode) ++ [byteOf '\n'])

/-- The lines for the pieces of a file. -/
def dump (hexMode : Bool) : Word → List (List Byte) → List Byte
  | _, [] => []
  | offset, piece :: pieces =>
      dumpLine hexMode offset piece ++
        dump hexMode (offset + BitVec.ofNat 32 piece.length) pieces

section

variable {hexMode : Bool} {out : Stdio.File} {bytes : List Byte}

theorem dump_concat (hexMode : Bool) (offset : Word) (done : List (List Byte))
    (piece : List Byte) : dump hexMode offset (done ++ [piece]) =
      dump hexMode offset done ++
        dumpLine hexMode (offset + BitVec.ofNat 32 done.flatten.length) piece := by
  induction done generalizing offset with
  | nil => simp [dump]
  | cons first done ih =>
      rw [List.cons_append, dump, dump, ih, List.append_assoc, List.flatten_cons,
        List.length_append, BitVec.ofNat_add, BitVec.add_assoc]

theorem printByte_spec (holds : out.Holds bytes) (b : Byte) :
    ∃ out', printByte hexMode out b = some out' ∧ out'.Holds (bytes ++ cell hexMode b) := by
  cases hexMode with
  | true => exact call_words holds hexFormat [b.setWidth 32] rfl
  | false => exact call_words holds octalFormat [b.setWidth 32] rfl

theorem printBytes_spec (hexMode : Bool) (holds : out.Holds bytes) (buffer : List Byte) :
    ∃ out', buffer.foldlM (printByte hexMode) out = some out' ∧
      out'.Holds (bytes ++ buffer.flatMap (cell hexMode)) := by
  induction buffer generalizing out bytes with
  | nil => exact ⟨out, rfl, by simpa using holds⟩
  | cons b buffer ih =>
      rcases printByte_spec holds b with ⟨first, isFirst, holdsFirst⟩
      rcases ih holdsFirst with ⟨out', isRest, holds'⟩
      refine ⟨out', ?_, by simpa using holds'⟩
      rw [List.foldlM_cons, isFirst]
      exact isRest

theorem printDataTurn_spec (hexMode : Bool) (buffer : List Byte) {s : Od}
    (holds : s.out.Holds bytes) :
    ∃ out', printDataTurn hexMode buffer s =
        some (false, ⟨s.offset + BitVec.ofNat 32 buffer.length, out'⟩) ∧
      out'.Holds (bytes ++ dumpLine hexMode s.offset buffer) := by
  have isText : format offsetFormat ([s.offset].map .word) =
      some (numberText s.offset 16 (byteOf '0') 7 false ++ [byteOf ' ']) := rfl
  rcases call_words holds offsetFormat [s.offset] isText with ⟨first, isFirst, holdsFirst⟩
  rcases printBytes_spec hexMode holdsFirst buffer with ⟨second, isSecond, holdsSecond⟩
  have isEnd : format endFormat ([].map .word) = some [byteOf '\n'] := rfl
  rcases call_words holdsSecond endFormat [] isEnd with ⟨out', isLast, holds'⟩
  refine ⟨out', ?_, by simpa [dumpLine] using holds'⟩
  rw [List.map_singleton] at isFirst
  rw [List.map_nil] at isLast
  simp only [printDataTurn, isFirst, isSecond, isLast, Option.bind_eq_bind, Option.bind_some]
  rfl

/-- What `print_data` prints. -/
theorem printData_spec {f : Input} (ok : f.Ok) (hexMode : Bool) (holds : out.Holds bytes) :
    ∃ out', printData f hexMode out = some out' ∧
      out'.Holds (bytes ++ dump hexMode 0 ((Read.fread bytesPerLine).pieces f.rest)) := by
  rcases readLoop_all (.fread bytesPerLine) (printDataTurn hexMode)
    (fun done s => s.offset = BitVec.ofNat 32 done.flatten.length ∧
      s.out.Holds (bytes ++ dump hexMode 0 done))
    ⟨0, out⟩ ok ⟨rfl, by simpa [dump] using holds⟩ (by
      rintro done piece left s _ ⟨isOffset, holdsDone⟩
      rcases printDataTurn_spec hexMode piece holdsDone with ⟨out', isTurn, holds'⟩
      refine ⟨_, isTurn, ?_, ?_⟩
      · rw [isOffset, List.flatten_append, List.flatten_singleton, List.length_append,
          BitVec.ofNat_add]
      · have isSum : 0 + BitVec.ofNat 32 done.flatten.length = s.offset := by
          rw [isOffset]
          exact BitVec.zero_add _
        rw [dump_concat, ← List.append_assoc, isSum]
        exact holds') with ⟨f', s, isLoop, _, _, holds'⟩
  refine ⟨s.out, ?_, holds'⟩
  simp only [printData, isLoop, Option.bind_eq_bind, Option.bind_some]
  rfl

end

/-- `bin/od` prints the bytes of its input, sixteen on a line behind the offset of the first one. -/
theorem od_prints (buf outBuf : ℕ → Byte) (chunks : List Chunk) (hexMode : Bool) :
    ∃ out, printData (Input.fresh buf chunks) hexMode (Stdio.File.fresh outBuf) = some out ∧
      out.fflush.written =
        dump hexMode 0 ((Read.fread bytesPerLine).pieces (chunks.flatMap Chunk.bytes)) := by
  rcases printData_spec (ok_fresh buf chunks) hexMode (Stdio.File.holds_fresh outBuf) with
    ⟨out, isDump, holds⟩
  rw [List.nil_append] at holds
  exact ⟨out, isDump, written_of_holds holds⟩

/-! ### Reading the numbers back -/

/-- The value of a digit. -/
def digitValue (d : Byte) : ℕ :=
  if d ≤ byteOf '9' then d.toNat - (byteOf '0').toNat else d.toNat - (byteOf 'a').toNat + 10

/-- The byte of a cell. -/
def byteIn (hexMode : Bool) (text : List Byte) : Byte :=
  BitVec.ofNat 8 (text.dropLast.foldl (fun n d => (if hexMode then 16 else 8) * n + digitValue d) 0)

theorem byteIn_cell : ∀ (hexMode : Bool) (b : Byte), byteIn hexMode (cell hexMode b) = b := by
  decide

theorem length_cell :
    ∀ (hexMode : Bool) (b : Byte), (cell hexMode b).length = if hexMode then 3 else 4 := by
  decide

theorem newline_notMem_cell :
    ∀ (hexMode : Bool) (b : Byte), byteOf '\n' ∉ cell hexMode b := by
  decide

section

variable {hexMode : Bool} {piece piece' rest rest' : List Byte}

theorem cell_append_inj {b b' : Byte}
    (same : cell hexMode b ++ rest = cell hexMode b' ++ rest') : b = b' ∧ rest = rest' := by
  have sameLength : (cell hexMode b).length = (cell hexMode b').length := by
    rw [length_cell, length_cell]
  rcases List.append_inj same sameLength with ⟨sameCell, sameRest⟩
  have sameByte := congrArg (byteIn hexMode) sameCell
  rw [byteIn_cell, byteIn_cell] at sameByte
  exact ⟨sameByte, sameRest⟩

/-- A cell does not begin as the end of a line does. -/
theorem cell_append_ne (b : Byte) : cell hexMode b ++ rest ≠ byteOf '\n' :: rest' := by
  intro same
  apply newline_notMem_cell hexMode b
  cases isCell : cell hexMode b with
  | nil =>
      have isLength := length_cell hexMode b
      rw [isCell] at isLength
      split at isLength <;> cases isLength
  | cons d digits =>
      rw [isCell, List.cons_append, List.cons.injEq] at same
      rw [same.1]
      exact List.mem_cons_self

/-- The cells of a line say which bytes they are for. -/
theorem cells_append_inj
    (same : piece.flatMap (cell hexMode) ++ byteOf '\n' :: rest =
      piece'.flatMap (cell hexMode) ++ byteOf '\n' :: rest') : piece = piece' ∧ rest = rest' := by
  induction piece generalizing piece' with
  | nil =>
      cases piece' with
      | nil => exact ⟨rfl, (List.cons.inj same).2⟩
      | cons b' piece' =>
          rw [List.flatMap_cons, List.append_assoc] at same
          exact absurd same.symm (cell_append_ne b')
  | cons b piece ih =>
      cases piece' with
      | nil =>
          rw [List.flatMap_cons, List.append_assoc] at same
          exact absurd same (cell_append_ne b)
      | cons b' piece' =>
          rw [List.flatMap_cons, List.flatMap_cons, List.append_assoc, List.append_assoc] at same
          rcases cell_append_inj same with ⟨rfl, sameCells⟩
          rcases ih sameCells with ⟨rfl, sameRest⟩
          exact ⟨rfl, sameRest⟩

theorem dump_inj {offset : Word} {pieces pieces' : List (List Byte)}
    (same : dump hexMode offset pieces = dump hexMode offset pieces') : pieces = pieces' := by
  induction pieces generalizing offset pieces' with
  | nil =>
      cases pieces' with
      | nil => rfl
      | cons piece' pieces' => simp [dump, dumpLine] at same
  | cons piece pieces ih =>
      cases pieces' with
      | nil => simp [dump, dumpLine] at same
      | cons piece' pieces' =>
          simp only [dump, dumpLine, List.append_assoc, List.cons_append, List.nil_append] at same
          have sameLine := (List.cons.inj (List.append_cancel_left same)).2
          rcases cells_append_inj sameLine with ⟨rfl, sameRest⟩
          rw [ih sameRest]

end

/-- The outputs of `bin/od` for two inputs are the same, if and only if the inputs are. -/
theorem od_tells_apart (buf buf' outBuf outBuf' : ℕ → Byte) (chunks chunks' : List Chunk)
    (hexMode : Bool) :
    ∃ out out', printData (Input.fresh buf chunks) hexMode (Stdio.File.fresh outBuf) = some out ∧
      printData (Input.fresh buf' chunks') hexMode (Stdio.File.fresh outBuf') = some out' ∧
      (out.fflush.written = out'.fflush.written ↔
        chunks.flatMap Chunk.bytes = chunks'.flatMap Chunk.bytes) := by
  rcases printData_spec (ok_fresh buf chunks) hexMode (Stdio.File.holds_fresh outBuf) with
    ⟨out, isDump, holds⟩
  rcases printData_spec (ok_fresh buf' chunks') hexMode (Stdio.File.holds_fresh outBuf') with
    ⟨out', isDump', holds'⟩
  refine ⟨out, out', isDump, isDump', ?_⟩
  rw [written_of_holds holds, written_of_holds holds', List.nil_append, List.nil_append]
  constructor
  · intro same
    have samePieces := congrArg List.flatten (dump_inj same)
    have asks : Read.fread bytesPerLine ≠ .fread 0 := by simp [bytesPerLine]
    rwa [Read.flatten_pieces asks, Read.flatten_pieces asks] at samePieces
  · intro same
    have isRest : (Input.fresh buf chunks).rest = (Input.fresh buf' chunks').rest := same
    rw [isRest]

/-! ## Printable characters -/

/-- `MINLEN`. -/
def minLen : ℕ := 4

def isprint (c : Byte) : Bool := 32 ≤ c ∧ c < 127

theorem stringFormat_noNul : ∀ b ∈ "%s\n".toList.map byteOf, b ≠ 0 := by decide

def stringFormat : CString := ⟨"%s\n".toList.map byteOf, stringFormat_noNul⟩

/-- The characters in `buf`, and the standard output. -/
structure Strings where
  buf : List Byte
  out : Stdio.File

/-- The end of a string. Its 0 has no place behind a full buffer. -/
def Strings.finish (s : Strings) : Option Stdio.File :=
  if s.buf.length < bufsiz then
    if minLen ≤ s.buf.length then
      s.out.call (.fprintf stringFormat [.text (some (stringIn (s.buf ++ [0])))])
    else some s.out
  else none

/-- A turn of the inner loop of `strings`, and what follows if it breaks off. -/
def stringsTurn (piece : List Byte) (s : Strings) : Option (Bool × Strings) :=
  let c := piece.headD 0
  if isprint c then
    let s := { s with buf := s.buf ++ [c] }
    if bufsiz ≤ s.buf.length then s.finish.map fun out => (false, ⟨[], out⟩)
    else some (false, s)
  else s.finish.map fun out => (false, ⟨[], out⟩)

/-- `strings`, with what is left of the file. -/
def strings (f : Input) (out : Stdio.File) : Option Stdio.File := do
  let (_, s) ← readLoop .fgetc stringsTurn f ⟨[], out⟩
  s.finish

/-- A string that is printed. -/
def isString (run : List Byte) : Bool := run.all isprint && minLen ≤ run.length

/-- The strings among the runs, each on a line. -/
def stringLines (lines : List (List Byte)) : List Byte :=
  (lines.filter isString).flatMap fun run => run ++ [byteOf '\n']

/-- All printable characters in a row fit into the buffer. -/
def FitsBuffer (text : List Byte) : Prop :=
  ∀ part, part <:+: text → part.all isprint = true → part.length < bufsiz

/-- Between two turns the last run is in the buffer if it is printable; the others are printed. -/
def StringsKeep (bytes done : List Byte) (s : Strings) : Prop :=
  (s.buf = [] ∧ (∀ x ∈ done.getLast?, isprint x = false) ∧
    s.out.Holds (bytes ++ stringLines (runs isprint done))) ∨
  ∃ front x, runs isprint done = front ++ [s.buf] ∧ x ∈ done.getLast? ∧ isprint x = true ∧
    s.buf.all isprint = true ∧ s.out.Holds (bytes ++ stringLines front)

section

variable {bytes done : List Byte} {s : Strings}

theorem stringLines_concat (front : List (List Byte)) (run : List Byte) :
    stringLines (front ++ [run]) =
      stringLines front ++ if isString run then run ++ [byteOf '\n'] else [] := by
  rw [stringLines, List.filter_append, List.flatMap_append]
  congr 1
  by_cases isIt : isString run = true
  · rw [List.filter_cons_of_pos isIt, if_pos isIt]
    simp
  · rw [List.filter_cons_of_neg isIt, if_neg isIt]
    rfl

/-- A run with another character is no string. -/
theorem isString_of_mem {run : List Byte} {c : Byte} (isIn : c ∈ run)
    (notPrintable : isprint c = false) : isString run = false := by
  rw [isString, Bool.and_eq_false_iff]
  left
  rw [List.all_eq_false]
  exact ⟨c, isIn, by simp [notPrintable]⟩

/-- The end of a run of printable characters. -/
theorem Strings.finish_spec (printable : s.buf.all isprint = true) (fits : s.buf.length < bufsiz)
    (holds : s.out.Holds bytes) :
    ∃ out, s.finish = some out ∧
      out.Holds (bytes ++ if isString s.buf then s.buf ++ [byteOf '\n'] else []) := by
  rw [Strings.finish, if_pos fits, isString, printable, Bool.true_and]
  by_cases enough : minLen ≤ s.buf.length
  · rw [if_pos enough, if_pos (by simpa using enough)]
    have isByte : ∀ b ∈ s.buf, b.msb = false ∧ b ≠ 0 := by
      intro b isIn
      have isPrintable := List.all_eq_true.mp printable b isIn
      simp only [isprint, Bool.decide_and, Bool.and_eq_true, decide_eq_true_eq] at isPrintable
      constructor
      · rw [BitVec.msb_eq_false_iff_two_mul_lt]
        bv_omega
      · rintro rfl
        exact absurd isPrintable.1 (by decide)
    have isBuf : (stringIn (s.buf ++ [0])).bytes = s.buf :=
      Sort.kept_bytes fun b isIn => (isByte b isIn).2
    have isText : format stringFormat [.text (some (stringIn (s.buf ++ [0])))] =
        some ((stringIn (s.buf ++ [0])).bytes ++
          List.replicate (0 - (stringIn (s.buf ++ [0])).bytes.length) (byteOf ' ') ++
            [byteOf '\n']) := rfl
    have plain : Sort.Plain (stringIn (s.buf ++ [0])).bytes := by
      rw [isBuf]
      exact fun b isIn => (isByte b isIn).1
    rcases call_string holds plain isText with ⟨out, isCall, holds'⟩
    rw [isBuf, Nat.zero_sub, List.replicate_zero, List.append_nil] at holds'
    exact ⟨out, isCall, holds'⟩
  · rw [if_neg enough, if_neg (by simpa using enough), List.append_nil]
    exact ⟨s.out, rfl, holds⟩

/-- The last run of what has been read fits into the buffer. -/
theorem length_last_run {text left : List Byte} (short : FitsBuffer text)
    (isAll : text = done ++ left) {front : List (List Byte)} {run : List Byte}
    (isRuns : runs isprint done = front ++ [run]) (printable : run.all isprint = true) :
    run.length < bufsiz := by
  have isDone : front.flatten ++ run = done := by
    have flat := flatten_runs isprint done
    simpa [isRuns] using flat
  exact short run ⟨front.flatten, left, by rw [isDone, isAll]⟩ printable

/-- A turn with a printable character. -/
theorem stringsTurn_printable {text left : List Byte} {c : Byte} (short : FitsBuffer text)
    (isAll : text = (done ++ [c]) ++ left) (printable : isprint c = true)
    (keeps : StringsKeep bytes done s) :
    ∃ s', stringsTurn [c] s = some (false, s') ∧ StringsKeep bytes (done ++ [c]) s' := by
  have isNext : ∃ front, runs isprint (done ++ [c]) = front ++ [s.buf ++ [c]] ∧
      (s.buf ++ [c]).all isprint = true ∧ s.out.Holds (bytes ++ stringLines front) := by
    rcases keeps with ⟨isEmpty, isLast, holds⟩ | ⟨front, x, isRuns, isLast, isX, isBuf, holds⟩
    · refine ⟨runs isprint done, ?_, by simp [isEmpty, printable], holds⟩
      rw [isEmpty, List.nil_append]
      apply runs_concat_new
      intro x inDone
      rw [isLast x inDone, printable]
      exact Bool.false_ne_true
    · rcases runs_concat_same isLast (isX.trans printable.symm) with
        ⟨front', run, isRuns', isLonger, _⟩
      rcases List.append_inj' (isRuns.symm.trans isRuns') rfl with ⟨rfl, isRun⟩
      cases isRun
      exact ⟨front, isLonger, by simpa [printable] using isBuf, holds⟩
  rcases isNext with ⟨front, isRuns, isBuf, holds⟩
  have fits := length_last_run short isAll isRuns isBuf
  refine ⟨{ s with buf := s.buf ++ [c] }, ?_, Or.inr ⟨front, c, isRuns, by simp, printable, isBuf,
    holds⟩⟩
  rw [stringsTurn, List.headD_cons]
  dsimp only
  rw [if_pos printable, if_neg (Nat.not_le.mpr fits)]

/-- A turn with another character, which ends a string. -/
theorem stringsTurn_other {text left : List Byte} {c : Byte} (short : FitsBuffer text)
    (isAll : text = done ++ left) (notPrintable : isprint c = false)
    (keeps : StringsKeep bytes done s) :
    ∃ s', stringsTurn [c] s = some (false, s') ∧ StringsKeep bytes (done ++ [c]) s' := by
  have isDone : ∀ out, s.finish = some out →
      out.Holds (bytes ++ stringLines (runs isprint (done ++ [c]))) →
      ∃ s', stringsTurn [c] s = some (false, s') ∧ StringsKeep bytes (done ++ [c]) s' := by
    intro out finished holds
    refine ⟨⟨[], out⟩, ?_, Or.inl ⟨rfl, by simpa using notPrintable, holds⟩⟩
    rw [stringsTurn, List.headD_cons]
    dsimp only
    rw [if_neg (Bool.eq_false_iff.mp notPrintable), finished]
    rfl
  rcases keeps with ⟨isEmpty, isLast, holds⟩ | ⟨front, x, isRuns, isLast, isX, isBuf, holds⟩
  · have finished : s.finish = some s.out := by
      rw [Strings.finish, isEmpty]
      rfl
    have sameLines : stringLines (runs isprint (done ++ [c])) =
        stringLines (runs isprint done) := by
      rcases isEnd : done.getLast? with _ | x
      · have isNew := runs_concat_new (g := isprint) (a := c) (l := done) (by simp [isEnd])
        rw [isNew, stringLines_concat,
          isString_of_mem (List.mem_singleton_self c) notPrintable]
        simp
      · have inDone : x ∈ done.getLast? := isEnd
        rcases runs_concat_same inDone ((isLast x inDone).trans notPrintable.symm) with
          ⟨front, run, isRuns, isLonger, inRun⟩
        rw [isRuns, isLonger, stringLines_concat, stringLines_concat,
          isString_of_mem (List.mem_of_mem_getLast? inRun) (isLast x inDone),
          isString_of_mem (List.mem_append_right run (List.mem_singleton_self c)) notPrintable]
        rfl
    apply isDone s.out finished
    rwa [sameLines]
  · have fits := length_last_run short isAll isRuns isBuf
    rcases Strings.finish_spec isBuf fits holds with ⟨out, finished, holds'⟩
    apply isDone out finished
    have isNew := runs_concat_new (g := isprint) (a := c) (l := done) (by
      intro y inDone
      rw [Option.mem_unique inDone isLast, isX, notPrintable]
      exact Bool.false_ne_true.symm)
    rw [isNew, stringLines_concat, isString_of_mem (List.mem_singleton_self c) notPrintable,
      isRuns, stringLines_concat]
    simpa using holds'

/-- What `strings` prints. -/
theorem strings_spec {f : Input} (ok : f.Ok) (short : FitsBuffer f.rest) {out : Stdio.File}
    (holds : out.Holds bytes) :
    ∃ out', strings f out = some out' ∧
      out'.Holds (bytes ++ stringLines (runs isprint f.rest)) := by
  rcases readLoop_all .fgetc stringsTurn (fun done s => StringsKeep bytes done.flatten s)
    ⟨[], out⟩ ok (Or.inl ⟨rfl, by simp, by simpa [stringLines, runs] using holds⟩) (by
      intro done piece left s isAll keeps
      have isText := congrArg List.flatten isAll
      rw [Read.flatten_pieces (by simp)] at isText
      rcases Read.exists_char isAll with ⟨c, rfl⟩
      rw [List.flatten_append, List.flatten_cons] at isText
      rw [List.flatten_append, List.flatten_singleton]
      cases printable : isprint c with
      | true =>
          have isSplit : f.rest = (done.flatten ++ [c]) ++ left.flatten := by
            rw [isText, List.append_assoc]
          exact stringsTurn_printable short isSplit printable keeps
      | false => exact stringsTurn_other short isText printable keeps) with
    ⟨f', s, isLoop, _, keeps⟩
  rw [Read.flatten_pieces (by simp) f.rest] at keeps
  simp only [strings, isLoop, Option.bind_eq_bind, Option.bind_some]
  rcases keeps with ⟨isEmpty, _, holds'⟩ | ⟨front, x, isRuns, _, _, isBuf, holds'⟩
  · refine ⟨s.out, ?_, holds'⟩
    rw [Strings.finish, isEmpty]
    rfl
  · have fits := length_last_run short (List.append_nil _).symm isRuns isBuf
    rcases Strings.finish_spec isBuf fits holds' with ⟨out', finished, holds''⟩
    refine ⟨out', finished, ?_⟩
    rwa [isRuns, stringLines_concat, ← List.append_assoc]

end

/--
`bin/strings` prints the runs of at least four printable characters in its input, each on a line,
if none of them fills the buffer.
-/
theorem strings_prints (buf outBuf : ℕ → Byte) (chunks : List Chunk)
    (short : FitsBuffer (chunks.flatMap Chunk.bytes)) :
    ∃ out, strings (Input.fresh buf chunks) (Stdio.File.fresh outBuf) = some out ∧
      out.fflush.written = stringLines (runs isprint (chunks.flatMap Chunk.bytes)) := by
  rcases strings_spec (ok_fresh buf chunks) short (Stdio.File.holds_fresh outBuf) with
    ⟨out, isStrings, holds⟩
  rw [List.nil_append] at holds
  exact ⟨out, isStrings, written_of_holds holds⟩

def someBytes : List Byte := 0 :: "hello".toList.map byteOf ++ [1, 97, 98]

theorem someBytes_chunk : 1 ≤ someBytes.length ∧ someBytes.length ≤ bufsiz := by decide

/-- A chunk of five printable characters between others. -/
def someChunk : Chunk := ⟨someBytes, someBytes_chunk.1, someBytes_chunk.2⟩

theorem strings_prints_someChunk : ∃ out,
    strings (Input.fresh (fun _ => 0) [someChunk]) (Stdio.File.fresh fun _ => 0) = some out ∧
      out.fflush.written = "hello\n".toList.map byteOf := by
  have short : FitsBuffer ([someChunk].flatMap Chunk.bytes) := by
    intro part isPart _
    have isShort : ([someChunk].flatMap Chunk.bytes).length < bufsiz := by decide
    exact isPart.length_le.trans_lt isShort
  rcases strings_prints (fun _ => 0) (fun _ => 0) [someChunk] short with
    ⟨out, isStrings, isWritten⟩
  exact ⟨out, isStrings, isWritten.trans (by decide)⟩

/-! ### Full buffers -/

/-- The buffer holds all printable characters at the end, and has never been full. -/
structure Held (done : List Byte) (s : Strings) : Prop where
  fits : FitsBuffer done
  longest : ∀ part, part <:+ done → part.all isprint = true → part.length ≤ s.buf.length

section

variable {done : List Byte} {s s' : Strings}

theorem finish_of_full (full : bufsiz ≤ s.buf.length) : s.finish = none :=
  if_neg (Nat.not_lt.mpr full)

/-- What ends with one more character fits, if what ends there does. -/
theorem FitsBuffer.concat {c : Byte} (fits : FitsBuffer done)
    (ends : ∀ part, part <:+ done ++ [c] → part.all isprint = true → part.length < bufsiz) :
    FitsBuffer (done ++ [c]) := by
  intro part isPart printable
  rcases List.infix_concat_iff.mp isPart with isEnd | isInside
  · exact ends part isEnd printable
  · exact fits part isInside printable

/-- A turn that succeeds. -/
theorem Held.turn {c : Byte} {leaves : Bool} (held : Held done s)
    (isTurn : stringsTurn [c] s = some (leaves, s')) :
    leaves = false ∧ Held (done ++ [c]) s' := by
  have positive : 0 < bufsiz := by decide
  rw [stringsTurn, List.headD_cons] at isTurn
  dsimp only at isTurn
  split at isTurn
  · rename_i printable
    have room : s.buf.length + 1 < bufsiz := by
      by_contra full
      rw [if_pos (by simpa using full), finish_of_full (by simpa using full)] at isTurn
      cases isTurn
    rw [if_neg (by simpa using room)] at isTurn
    cases isTurn
    have longest : ∀ part, part <:+ done ++ [c] → part.all isprint = true →
        part.length ≤ s.buf.length + 1 := by
      intro part isEnd isPrintable
      rcases List.suffix_concat_iff.mp isEnd with rfl | ⟨front, rfl, isFront⟩
      · exact Nat.zero_le _
      · rw [List.all_append, Bool.and_eq_true] at isPrintable
        have bound := held.longest front isFront isPrintable.1
        rw [List.length_append]
        exact Nat.succ_le_succ bound
    refine ⟨rfl, held.fits.concat fun part isEnd isPrintable => ?_, ?_⟩
    · exact (longest part isEnd isPrintable).trans_lt room
    · intro part isEnd isPrintable
      rw [List.length_append]
      exact longest part isEnd isPrintable
  · rename_i notPrintable
    rw [Option.map_eq_some_iff] at isTurn
    rcases isTurn with ⟨out, _, isTurn⟩
    cases isTurn
    have noEnd : ∀ part, part <:+ done ++ [c] → part.all isprint = true → part.length = 0 := by
      intro part isEnd isPrintable
      rcases List.suffix_concat_iff.mp isEnd with rfl | ⟨front, rfl, isFront⟩
      · rfl
      · simp [notPrintable] at isPrintable
    refine ⟨rfl, held.fits.concat fun part isEnd isPrintable => ?_, ?_⟩
    · rw [noEnd part isEnd isPrintable]
      exact positive
    · intro part isEnd isPrintable
      rw [noEnd part isEnd isPrintable]
      exact Nat.zero_le _

/-- If `strings` returns, no buffer was full. -/
theorem fitsBuffer_of_strings {f : Input} (ok : f.Ok) {out out' : Stdio.File}
    (isStrings : strings f out = some out') : FitsBuffer f.rest := by
  rw [strings, Option.bind_eq_bind, Option.bind_eq_some_iff] at isStrings
  rcases isStrings with ⟨⟨f', s⟩, isLoop, _⟩
  have start : Held [] ⟨[], out⟩ := by
    constructor
    · intro part isPart _
      rw [List.infix_nil.mp isPart]
      decide
    · intro part isEnd _
      rw [List.suffix_nil.mp isEnd]
  have held := readLoop_of_some .fgetc stringsTurn (fun done s => Held done.flatten s) _ ok start
    (by
      intro done piece left s leaves s' isAll held isTurn
      rcases Read.exists_char isAll with ⟨c, rfl⟩
      rw [List.flatten_append, List.flatten_singleton]
      exact held.turn isTurn) isLoop
  rw [Read.flatten_pieces (by simp)] at held
  exact held.fits

end

/--
`bin/strings` writes behind its buffer, if and only if as many printable characters as the buffer
has places stand in a row.
-/
theorem strings_overruns_iff (buf outBuf : ℕ → Byte) (chunks : List Chunk) :
    strings (Input.fresh buf chunks) (Stdio.File.fresh outBuf) = none ↔
      ∃ part, part <:+: chunks.flatMap Chunk.bytes ∧ part.all isprint = true ∧
        bufsiz ≤ part.length := by
  have isText : (Input.fresh buf chunks).rest = chunks.flatMap Chunk.bytes := rfl
  constructor
  · intro overrun
    by_contra none
    have short : FitsBuffer (Input.fresh buf chunks).rest := by
      intro part isPart printable
      by_contra full
      exact none ⟨part, isPart, printable, Nat.not_lt.mp full⟩
    rcases strings_spec (ok_fresh buf chunks) short (Stdio.File.holds_fresh outBuf) with
      ⟨out, isStrings, _⟩
    rw [overrun] at isStrings
    cases isStrings
  · rintro ⟨part, isPart, printable, full⟩
    cases isStrings : strings (Input.fresh buf chunks) (Stdio.File.fresh outBuf) with
    | none => rfl
    | some out =>
        have short := fitsBuffer_of_strings (ok_fresh buf chunks) isStrings
        exact absurd full (Nat.not_le.mpr (short part isPart printable))

end Osix.Dumps
