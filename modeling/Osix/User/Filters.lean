import Osix.Lib.Runs
import Osix.User.Passwd
import Osix.User.Reading
import Osix.User.Roff

/-!
# Filters

The programs `bin/uniq.c` and `bin/wc.c`. The first one prints one line of each run of equal ones,
or only the lines that stand alone; the second one counts lines, words and bytes. Both are
compared with the runs of their input.
-/

namespace Osix.Filters

open Runs Stdio

/-! ## Unique lines -/

theorem two_le_maxLen : 2 ≤ Sort.maxLen := by decide

/-- `fgets(current, sizeof(current), f)`. -/
def gets : Read := .fgets Sort.maxLen two_le_maxLen

/-- What `uniq` keeps: `previous`, `count` and the standard output. -/
structure Uniq where
  previous : CString
  count : Word
  out : Stdio.File

/-- `printf("%s", previous)`. -/
def Uniq.print (s : Uniq) : Option Stdio.File :=
  s.out.call (.fprintf Sort.lineFormat [.text (some s.previous)])

/-- A turn of the loop of `uniq`. -/
def uniqTurn (printUnique : Bool) (piece : List Byte) (s : Uniq) : Option (Bool × Uniq) :=
  let current := stringIn (piece ++ [0])
  if Sort.strcmp current.bytes s.previous.bytes = 0 then
    some (false, { s with count := s.count + 1 })
  else do
    let out ←
      if (printUnique = false ∨ s.count = 1) ∧ s.previous.bytes ≠ [] then s.print else some s.out
    return (false, ⟨current, 1, out⟩)

def emptyString : CString := stringIn []

/-- `uniq`, with what is left of the file. -/
def uniq (f : Input) (printUnique : Bool) (out : Stdio.File) : Option Stdio.File := do
  let (_, s) ← readLoop gets (uniqTurn printUnique) f ⟨emptyString, 0, out⟩
  if printUnique = false ∨ s.count = 1 then s.print else some s.out

/-- The run is printed: every run is, or only a line that stands alone. -/
def isShown (printUnique : Bool) (run : List (List Byte)) : Bool := !printUnique || run.length = 1

/-- One line of each run that is printed. -/
def shown (printUnique : Bool) (lines : List (List (List Byte))) : List Byte :=
  (lines.filter (isShown printUnique)).flatMap fun run => run.headD []

theorem strcmp_self (s : List Byte) : Sort.strcmp s s = 0 := by
  have opposite := Sort.strcmp_neg s s
  omega

theorem shown_append (printUnique : Bool) (front : List (List (List Byte)))
    (run : List (List Byte)) : shown printUnique (front ++ [run]) =
      shown printUnique front ++ if isShown printUnique run then run.headD [] else [] := by
  rw [shown, List.filter_append, List.flatMap_append]
  congr 1
  by_cases isIt : isShown printUnique run = true
  · rw [List.filter_cons_of_pos isIt, if_pos isIt]
    simp
  · rw [List.filter_cons_of_neg isIt, if_neg isIt]
    rfl

/-- What holds between two turns: all runs but the last one are printed. -/
def UniqKeeps (printUnique : Bool) (bytes : List Byte) (done : List (List Byte)) (s : Uniq) :
    Prop :=
  (done = [] ∧ s.previous.bytes = [] ∧ s.out.Holds bytes) ∨
    ∃ front run, runs id done = front ++ [run] ∧ s.previous.bytes ∈ done.getLast? ∧
      s.previous.bytes ∈ run ∧ s.count = BitVec.ofNat 32 run.length ∧
      s.out.Holds (bytes ++ shown printUnique front)

section

variable {printUnique : Bool} {bytes : List Byte} {done : List (List Byte)} {s : Uniq}

theorem Uniq.print_spec (plain : Sort.Plain s.previous.bytes) (holds : s.out.Holds bytes) :
    ∃ out, s.print = some out ∧ out.Holds (bytes ++ s.previous.bytes) :=
  call_string holds plain (format_string s.previous)

/-- What is printed of the run that ends here. -/
theorem shown_run (printUnique : Bool) {front : List (List (List Byte))} {run : List (List Byte)}
    (isRuns : runs id done = front ++ [run]) (isIn : s.previous.bytes ∈ run)
    (isCount : s.count = BitVec.ofNat 32 run.length) (few : run.length < 2 ^ 31) :
    shown printUnique (front ++ [run]) = shown printUnique front ++
      if printUnique = false ∨ s.count = 1 then s.previous.bytes else [] := by
  have isRun : run ∈ runs id done := by simp [isRuns]
  have isHead : run.headD [] = s.previous.bytes := by
    cases run with
    | nil => cases isIn
    | cons line rest => exact class_of_mem_runs isRun List.mem_cons_self isIn
  have isOne : s.count = 1 ↔ run.length = 1 := by
    rw [isCount, ← BitVec.toNat_inj, BitVec.toNat_ofNat, Nat.mod_eq_of_lt (by omega)]
    exact Iff.rfl
  rw [shown_append, isHead]
  congr 1
  simp only [isShown, isOne, Bool.or_eq_true, Bool.not_eq_true', decide_eq_true_eq]

/-- A turn with a line. -/
theorem uniqTurn_spec {piece : List Byte} (isText : IsText piece) (some : piece ≠ [])
    (texts : ∀ line ∈ done, IsText line ∧ line ≠ []) (few : done.length < 2 ^ 31)
    (keeps : UniqKeeps printUnique bytes done s) :
    ∃ s', uniqTurn printUnique piece s = Option.some (false, s') ∧
      UniqKeeps printUnique bytes (done ++ [piece]) s' := by
  have isCurrent : (stringIn (piece ++ [0])).bytes = piece :=
    Sort.kept_bytes fun b isIn => (isText b isIn).2
  have isSame : Sort.strcmp (stringIn (piece ++ [0])).bytes s.previous.bytes = 0 ↔
      s.previous.bytes = piece := by
    constructor
    · intro same
      have equal := Passwd.eq_of_strcmp (stringIn (piece ++ [0])).noNul s.previous.noNul same
      rw [← equal, isCurrent]
    · intro same
      rw [isCurrent, same, strcmp_self]
  rcases keeps with ⟨rfl, isEmpty, holds⟩ | ⟨front, run, isRuns, isLast, isIn, isCount, holds⟩
  · have differs : s.previous.bytes ≠ piece := by
      rw [isEmpty]
      exact some.symm
    refine ⟨⟨stringIn (piece ++ [0]), 1, s.out⟩, ?_, Or.inr ⟨[], [piece], rfl, ?_, ?_, rfl, ?_⟩⟩
    · rw [uniqTurn, if_neg (mt isSame.mp differs), if_neg fun both => both.2 isEmpty]
      rfl
    · rw [isCurrent]
      rfl
    · rw [isCurrent]
      exact List.mem_singleton_self piece
    · simpa [shown] using holds
  · have runShort : run.length ≤ done.length := by
      have total := congrArg List.length (flatten_runs id done)
      rw [isRuns, List.flatten_append, List.length_append, List.flatten_singleton] at total
      omega
    have isLine : s.previous.bytes ∈ done := List.mem_of_mem_getLast? isLast
    by_cases same : s.previous.bytes = piece
    · rcases runs_concat_same (g := id) isLast same with ⟨front', run', isRuns', isLonger, _⟩
      have isSplit : front ++ [run] = front' ++ [run'] := isRuns.symm.trans isRuns'
      rcases List.append_inj' isSplit rfl with ⟨rfl, isRun⟩
      cases isRun
      refine ⟨{ s with count := s.count + 1 }, ?_,
        Or.inr ⟨front, run ++ [piece], isLonger, ?_, ?_, ?_, holds⟩⟩
      · rw [uniqTurn, if_pos (isSame.mpr same)]
      · simp [same]
      · exact List.mem_append_left _ isIn
      · rw [List.length_append, List.length_singleton, BitVec.ofNat_add, ← isCount]
        rfl
    · have isNew := runs_concat_new (g := id) (a := piece) (l := done) (by
        intro x isLast'
        rw [Option.mem_unique isLast' isLast]
        exact same)
      have notEmpty : s.previous.bytes ≠ [] := (texts _ isLine).2
      have isPlain : Sort.Plain s.previous.bytes := fun b isByte => ((texts _ isLine).1 b isByte).1
      have isShownRun := shown_run printUnique isRuns isIn isCount (by omega)
      have isDone : ∀ out, out.Holds (bytes ++ shown printUnique (front ++ [run])) →
          UniqKeeps printUnique bytes (done ++ [piece]) ⟨stringIn (piece ++ [0]), 1, out⟩ := by
        intro out holdsOut
        refine Or.inr ⟨front ++ [run], [piece], ?_, ?_, ?_, rfl, holdsOut⟩
        · rw [isNew, isRuns]
        · rw [isCurrent, List.getLast?_concat]
          rfl
        · rw [isCurrent]
          exact List.mem_singleton_self piece
      by_cases prints : printUnique = false ∨ s.count = 1
      · rcases Uniq.print_spec isPlain holds with ⟨out, isPrint, holdsOut⟩
        rw [isShownRun, if_pos prints, ← List.append_assoc] at isDone
        refine ⟨_, ?_, isDone out holdsOut⟩
        rw [uniqTurn, if_neg (mt isSame.mp same), if_pos ⟨prints, notEmpty⟩, isPrint]
        rfl
      · rw [isShownRun, if_neg prints, List.append_nil] at isDone
        refine ⟨_, ?_, isDone s.out holds⟩
        rw [uniqTurn, if_neg (mt isSame.mp same), if_neg fun both => prints both.1]
        rfl

end

/-- What `uniq` prints. -/
theorem uniq_spec {f : Input} (readable : Readable f) (printUnique : Bool) {out : Stdio.File}
    {bytes : List Byte} (holds : out.Holds bytes) :
    ∃ out', uniq f printUnique out = some out' ∧
      out'.Holds (bytes ++ shown printUnique (runs id (Sort.splitLines f.rest))) := by
  have isPieces : gets.pieces f.rest = Sort.splitLines f.rest :=
    Read.pieces_fgets two_le_maxLen readable.short
  have isLine : ∀ line ∈ gets.pieces f.rest, IsText line ∧ line ≠ [] := fun line isIn =>
    ⟨readable.isText.piece (by simp [gets]) isIn, Read.ne_nil_of_mem_pieces isIn⟩
  have few := readable.length_lines
  rw [← isPieces] at few ⊢
  rcases readLoop_all gets (uniqTurn printUnique) (UniqKeeps printUnique bytes)
    ⟨emptyString, 0, out⟩ readable.ok (Or.inl ⟨rfl, rfl, holds⟩) (by
      intro done piece left s isAll keeps
      have isPiece := isLine piece (by simp [isAll])
      refine uniqTurn_spec isPiece.1 isPiece.2 (fun line isIn => isLine line ?_) ?_ keeps
      · rw [isAll]
        exact List.mem_append_left _ isIn
      · rw [isAll, List.length_append] at few
        omega) with ⟨f', s, isLoop, _, keeps⟩
  simp only [uniq, isLoop, Option.bind_eq_bind, Option.bind_some]
  rcases keeps with ⟨noLine, isEmpty, holds⟩ | ⟨front, run, isRuns, isLast, isIn, isCount, holds⟩
  · rw [noLine]
    have isNothing : shown printUnique (runs id []) = [] := rfl
    rw [isNothing, List.append_nil]
    have isPlain : Sort.Plain s.previous.bytes := by
      rw [isEmpty]
      intro b isIn
      cases isIn
    rcases Uniq.print_spec isPlain holds with ⟨printed, isPrint, holdsPrinted⟩
    rw [isEmpty, List.append_nil] at holdsPrinted
    split
    · exact ⟨printed, isPrint, holdsPrinted⟩
    · exact ⟨s.out, rfl, holds⟩
  · have isLine' := isLine _ (List.mem_of_mem_getLast? isLast)
    have runShort : run.length < 2 ^ 31 := by
      have total := congrArg List.length (flatten_runs id (gets.pieces f.rest))
      rw [isRuns, List.flatten_append, List.length_append, List.flatten_singleton] at total
      omega
    rw [isRuns, shown_run printUnique isRuns isIn isCount runShort]
    split
    · rcases Uniq.print_spec (fun b isByte => (isLine'.1 b isByte).1) holds with
        ⟨printed, isPrint, holdsPrinted⟩
      refine ⟨printed, isPrint, ?_⟩
      rwa [List.append_assoc] at holdsPrinted
    · refine ⟨s.out, rfl, ?_⟩
      rwa [List.append_nil]

/--
`bin/uniq` prints one line of each run of equal lines, and with `-u` only the lines that stand
alone, whatever the chunks in which its input comes.
-/
theorem uniq_prints (buf outBuf : ℕ → Byte) (chunks : List Chunk) (printUnique : Bool)
    (readable : Readable (Input.fresh buf chunks)) :
    ∃ out, uniq (Input.fresh buf chunks) printUnique (Stdio.File.fresh outBuf) = some out ∧
      out.fflush.written =
        shown printUnique (runs id (Sort.splitLines (chunks.flatMap Chunk.bytes))) := by
  rcases uniq_spec readable printUnique (Stdio.File.holds_fresh outBuf) with ⟨out, isUniq, holds⟩
  exact ⟨out, isUniq, written_of_holds holds⟩

/-- Of two different lines both are printed. -/
theorem uniq_prints_twoLines : ∃ out,
    uniq (Input.fresh (fun _ => 0) [Sort.twoLines]) true (Stdio.File.fresh fun _ => 0) = some out ∧
      out.fflush.written = Sort.twoLines.bytes := by
  rcases uniq_prints (fun _ => 0) (fun _ => 0) [Sort.twoLines] true readable_twoLines with
    ⟨out, isUniq, isWritten⟩
  exact ⟨out, isUniq, isWritten.trans rfl⟩

/-! ## Lines, words and bytes -/

/-- What `count` counts, and if it is inside of a word. -/
structure Counts where
  lines : Word
  words : Word
  bytes : Word
  inWord : Bool

/-- A turn of the loop of `count`. -/
def countTurn (piece : List Byte) (s : Counts) : Option (Bool × Counts) :=
  let ch := piece.headD 0
  let bytes := s.bytes + 1
  let lines := if ch = byteOf '\n' then s.lines + 1 else s.lines
  if Roff.isspace ch then some (false, ⟨lines, s.words, bytes, false⟩)
  else if s.inWord then some (false, ⟨lines, s.words, bytes, true⟩)
  else some (false, ⟨lines, s.words + 1, bytes, true⟩)

theorem numberFormat_noNul : ∀ b ∈ "%6d ".toList.map byteOf, b ≠ 0 := by decide

theorem numbersFormat_noNul : ∀ b ∈ "%6d %6d %6d ".toList.map byteOf, b ≠ 0 := by decide

theorem endFormat_noNul : ∀ b ∈ "\n".toList.map byteOf, b ≠ 0 := by decide

def numberFormat : CString := ⟨"%6d ".toList.map byteOf, numberFormat_noNul⟩

def numbersFormat : CString := ⟨"%6d %6d %6d ".toList.map byteOf, numbersFormat_noNul⟩

def endFormat : CString := ⟨"\n".toList.map byteOf, endFormat_noNul⟩

def printNumber (wanted : Bool) (number : Word) (out : Stdio.File) : Option Stdio.File :=
  if wanted then out.call (.fprintf numberFormat [.word number]) else some out

/-- The numbers that are wanted, or all of them. -/
def printNumbers (s : Counts) (countLines countWords countBytes : Bool) (out : Stdio.File) :
    Option Stdio.File :=
  if countLines || countWords || countBytes then do
    let out ← printNumber countLines s.lines out
    let out ← printNumber countWords s.words out
    printNumber countBytes s.bytes out
  else
    out.call (.fprintf numbersFormat [.word s.lines, .word s.words, .word s.bytes])

def printFilename (filename : Option CString) (out : Stdio.File) : Option Stdio.File :=
  match filename with
  | none => some out
  | some name => out.call (.fprintf Sort.lineFormat [.text (some name)])

/-- `count`, with what is left of the file. -/
def count (f : Input) (countLines countWords countBytes : Bool) (filename : Option CString)
    (out : Stdio.File) : Option Stdio.File := do
  let (_, s) ← readLoop .fgetc countTurn f ⟨0, 0, 0, false⟩
  let out ← printNumbers s countLines countWords countBytes out
  let out ← printFilename filename out
  out.call (.fprintf endFormat [])

/-- The words of a text: its runs of characters that are no spaces. -/
def wordsOf (text : List Byte) : List (List Byte) :=
  (runs Roff.isspace text).filter fun run => run.all fun c => !Roff.isspace c

/-- A number in a field of six characters, and a space. -/
def field (n : ℕ) : List Byte := signedText (BitVec.ofNat 32 n) (byteOf ' ') 6 ++ [byteOf ' ']

/-- What is printed for these numbers. -/
def countsText (countLines countWords countBytes : Bool) (lines words bytes : ℕ) : List Byte :=
  if countLines || countWords || countBytes then
    (if countLines then field lines else []) ++ (if countWords then field words else []) ++
      (if countBytes then field bytes else [])
  else
    field lines ++ field words ++ field bytes

/-- The counts of what has been read. -/
structure CountsKeep (done : List Byte) (s : Counts) : Prop where
  lines : s.lines = BitVec.ofNat 32 (done.count (byteOf '\n'))
  words : s.words = BitVec.ofNat 32 (wordsOf done).length
  bytes : s.bytes = BitVec.ofNat 32 done.length
  inWord : s.inWord = true ↔ ∃ c ∈ done.getLast?, Roff.isspace c = false

theorem wordsOf_concat_new {done : List Byte} {c : Byte}
    (differs : ∀ x ∈ done.getLast?, Roff.isspace x ≠ Roff.isspace c) :
    (wordsOf (done ++ [c])).length =
      (wordsOf done).length + if Roff.isspace c then 0 else 1 := by
  rw [wordsOf, runs_concat_new differs, List.filter_append, List.length_append]
  congr 1
  by_cases isSpace : Roff.isspace c = true
  · simp [isSpace]
  · simp [isSpace]

theorem wordsOf_concat_same {done : List Byte} {c x : Byte} (isLast : x ∈ done.getLast?)
    (same : Roff.isspace x = Roff.isspace c) :
    (wordsOf (done ++ [c])).length = (wordsOf done).length := by
  rcases runs_concat_same isLast same with ⟨front, run, isRuns, isLonger, inRun⟩
  have isAll : ((run ++ [c]).all fun c => !Roff.isspace c) = run.all fun c => !Roff.isspace c := by
    rw [List.all_append, List.all_cons, List.all_nil, Bool.and_true, ← same]
    rcases isBoth : run.all fun c => !Roff.isspace c with _ | _
    · rfl
    · exact List.all_eq_true.mp isBoth x (List.mem_of_mem_getLast? inRun)
  have isLength : ∀ run' : List Byte,
      ((front ++ [run']).filter fun run => run.all fun c => !Roff.isspace c).length =
        (front.filter fun run => run.all fun c => !Roff.isspace c).length +
          if (run'.all fun c => !Roff.isspace c) then 1 else 0 := by
    intro run'
    rw [List.filter_append, List.length_append, List.filter_singleton]
    cases run'.all fun c => !Roff.isspace c with
    | true => rfl
    | false => rfl
  rw [wordsOf, wordsOf, isRuns, isLonger, isLength, isLength, isAll]

theorem countTurn_spec {done : List Byte} {c : Byte} {s : Counts} (keeps : CountsKeep done s) :
    ∃ s', countTurn [c] s = some (false, s') ∧ CountsKeep (done ++ [c]) s' := by
  have isBytes : s.bytes + 1 = BitVec.ofNat 32 (done ++ [c]).length := by
    rw [List.length_append, List.length_singleton, BitVec.ofNat_add, ← keeps.bytes]
    rfl
  have isLines : (if c = byteOf '\n' then s.lines + 1 else s.lines) =
      BitVec.ofNat 32 ((done ++ [c]).count (byteOf '\n')) := by
    rw [List.count_append, List.count_singleton, BitVec.ofNat_add, ← keeps.lines]
    by_cases isNewline : c = byteOf '\n'
    · simp [isNewline]
    · simp [isNewline]
  rw [countTurn, List.headD_cons]
  by_cases isSpace : Roff.isspace c = true
  · refine ⟨_, if_pos isSpace, isLines, ?_, isBytes, ?_⟩
    · rw [keeps.words]
      congr 1
      rcases isLast : done.getLast? with _ | x
      · rw [wordsOf_concat_new (by simp [isLast]), if_pos isSpace, Nat.add_zero]
      · by_cases same : Roff.isspace x = Roff.isspace c
        · exact (wordsOf_concat_same isLast same).symm
        · rw [wordsOf_concat_new (by simpa [isLast] using same), if_pos isSpace, Nat.add_zero]
    · simp [isSpace]
  · rw [if_neg isSpace]
    have notSpace : Roff.isspace c = false := Bool.eq_false_iff.mpr isSpace
    by_cases inside : s.inWord = true
    · rcases keeps.inWord.mp inside with ⟨x, isLast, isInside⟩
      refine ⟨_, if_pos inside, isLines, ?_, isBytes, ?_⟩
      · rw [keeps.words, wordsOf_concat_same isLast (isInside.trans notSpace.symm)]
      · simp [notSpace]
    · refine ⟨_, if_neg inside, isLines, ?_, isBytes, ?_⟩
      · rw [wordsOf_concat_new, if_neg isSpace, BitVec.ofNat_add, ← keeps.words]
        · rfl
        · intro x isLast same
          exact inside (keeps.inWord.mpr ⟨x, isLast, same.trans notSpace⟩)
      · simp [notSpace]

section

variable {out : Stdio.File} {bytes : List Byte}

theorem call_words (holds : out.Holds bytes) (fmt : CString) (words : List Word)
    {printed : List Byte} (isText : format fmt (words.map .word) = some printed) :
    ∃ out', out.call (.fprintf fmt (words.map .word)) = some out' ∧
      out'.Holds (bytes ++ printed) := by
  have heeds : out.Heeds (.fprintf fmt (words.map .word)) := by
    refine ⟨?_, by rw [isText]; rfl⟩
    intro s isIn
    simp at isIn
  rcases Stdio.File.call_spec holds heeds with ⟨out', given, isCall, isGiven, holds'⟩
  rw [Call.given, isText, Option.some.injEq] at isGiven
  subst isGiven
  exact ⟨out', isCall, holds'⟩

theorem printNumber_spec (holds : out.Holds bytes) (wanted : Bool) (n : ℕ) :
    ∃ out', printNumber wanted (BitVec.ofNat 32 n) out = some out' ∧
      out'.Holds (bytes ++ if wanted then field n else []) := by
  cases wanted with
  | true => exact call_words holds numberFormat [BitVec.ofNat 32 n] rfl
  | false => exact ⟨out, rfl, by simpa using holds⟩

theorem printNumbers_spec (holds : out.Holds bytes) (countLines countWords countBytes : Bool)
    (lines words total : ℕ) (inWord : Bool) :
    ∃ out', printNumbers ⟨BitVec.ofNat 32 lines, BitVec.ofNat 32 words, BitVec.ofNat 32 total,
        inWord⟩ countLines countWords countBytes out = some out' ∧
      out'.Holds (bytes ++ countsText countLines countWords countBytes lines words total) := by
  rw [printNumbers]
  rw [countsText]
  by_cases any : (countLines || countWords || countBytes) = true
  · rw [if_pos any, if_pos any]
    rcases printNumber_spec holds countLines lines with ⟨first, isFirst, holdsFirst⟩
    rcases printNumber_spec holdsFirst countWords words with ⟨second, isSecond, holdsSecond⟩
    rcases printNumber_spec holdsSecond countBytes total with ⟨third, isThird, holdsThird⟩
    refine ⟨third, ?_, by simpa only [List.append_assoc] using holdsThird⟩
    simp only [isFirst, isSecond, isThird, Option.bind_eq_bind, Option.bind_some]
  · rw [if_neg any, if_neg any]
    have isText : format numbersFormat ([BitVec.ofNat 32 lines, BitVec.ofNat 32 words,
        BitVec.ofNat 32 total].map .word) =
        some (signedText (BitVec.ofNat 32 lines) (byteOf ' ') 6 ++ byteOf ' ' ::
          (signedText (BitVec.ofNat 32 words) (byteOf ' ') 6 ++ byteOf ' ' ::
            (signedText (BitVec.ofNat 32 total) (byteOf ' ') 6 ++ [byteOf ' ']))) := rfl
    rcases call_words holds _ _ isText with ⟨out', isCall, holds'⟩
    exact ⟨out', isCall, by simpa [field] using holds'⟩

theorem printFilename_spec (holds : out.Holds bytes) {filename : Option CString}
    (plain : ∀ name ∈ filename, Sort.Plain name.bytes) :
    ∃ out', printFilename filename out = some out' ∧
      out'.Holds (bytes ++ filename.elim [] CString.bytes) := by
  cases filename with
  | none => exact ⟨out, rfl, by simpa using holds⟩
  | some name => exact call_string holds (plain name rfl) (format_string name)

end

/-- What `count` prints for a text. -/
theorem count_spec {f : Input} (ok : f.Ok) (countLines countWords countBytes : Bool)
    {filename : Option CString} (plain : ∀ name ∈ filename, Sort.Plain name.bytes)
    {out : Stdio.File} {bytes : List Byte} (holds : out.Holds bytes) :
    ∃ out', count f countLines countWords countBytes filename out = some out' ∧
      out'.Holds (bytes ++ countsText countLines countWords countBytes
        (f.rest.count (byteOf '\n')) (wordsOf f.rest).length f.rest.length ++
          filename.elim [] CString.bytes ++ [byteOf '\n']) := by
  rcases readLoop_all .fgetc countTurn (fun done s => CountsKeep done.flatten s)
    ⟨0, 0, 0, false⟩ ok ⟨rfl, rfl, rfl, by simp⟩ (by
      intro done piece left s isAll keeps
      rcases Read.exists_char isAll with ⟨c, rfl⟩
      rw [List.flatten_append, List.flatten_singleton]
      exact countTurn_spec keeps) with ⟨f', s, isLoop, _, keeps⟩
  rw [Read.flatten_pieces (by simp) f.rest] at keeps
  rcases printNumbers_spec holds countLines countWords countBytes (f.rest.count (byteOf '\n'))
    (wordsOf f.rest).length f.rest.length s.inWord with ⟨numbers, isNumbers, holdsNumbers⟩
  rw [← keeps.lines, ← keeps.words, ← keeps.bytes] at isNumbers
  rcases printFilename_spec holdsNumbers plain with ⟨withName, isNamed, holdsNamed⟩
  rcases call_words holdsNamed endFormat [] rfl with ⟨out', isEnded, holds'⟩
  refine ⟨out', ?_, holds'⟩
  simp only [count, isLoop, isNumbers, isNamed, Option.bind_eq_bind, Option.bind_some]
  exact isEnded

/--
`bin/wc` prints the numbers of lines, of words and of bytes of its input, those of them that are
wanted or else all of them, whatever the chunks in which it comes.
-/
theorem count_prints (buf outBuf : ℕ → Byte) (chunks : List Chunk)
    (countLines countWords countBytes : Bool) (filename : Option CString)
    (plain : ∀ name ∈ filename, Sort.Plain name.bytes) :
    ∃ out, count (Input.fresh buf chunks) countLines countWords countBytes filename
        (Stdio.File.fresh outBuf) = some out ∧
      out.fflush.written = countsText countLines countWords countBytes
        ((chunks.flatMap Chunk.bytes).count (byteOf '\n'))
        (wordsOf (chunks.flatMap Chunk.bytes)).length (chunks.flatMap Chunk.bytes).length ++
          filename.elim [] CString.bytes ++ [byteOf '\n'] := by
  rcases count_spec (ok_fresh buf chunks) countLines countWords countBytes plain
    (Stdio.File.holds_fresh outBuf) with ⟨out, isCount, holds⟩
  refine ⟨out, isCount, ?_⟩
  rw [List.nil_append] at holds
  exact written_of_holds holds

/-- `b` and `a` on two lines are two words of four bytes. -/
theorem count_prints_twoLines : ∃ out, count (Input.fresh (fun _ => 0) [Sort.twoLines]) false false
    false none (Stdio.File.fresh fun _ => 0) = some out ∧
      out.fflush.written = "     2      2      4 \n".toList.map byteOf := by
  rcases count_prints (fun _ => 0) (fun _ => 0) [Sort.twoLines] false false false none
    (by simp) with ⟨out, isCount, isWritten⟩
  exact ⟨out, isCount, isWritten.trans (by decide)⟩

end Osix.Filters
