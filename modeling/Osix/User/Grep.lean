import Osix.Lib.Patterns
import Osix.User.Reading

/-!
# Searching for patterns

The program `bin/grep.c`. A regular expression has characters, `.` for any of them, `*` behind one
that may stand any number of times, and `^` and `$` for the ends of the text. The matcher is
compared with the language of the pattern that the expression denotes, and the program with what
it should print, whatever the chunks in which its input comes.
-/

namespace Osix.Grep

open Computability Patterns Stdio

/-! ## The matcher -/

/-- `matchstar`, with what `matchhere` answers for the expression behind the star. -/
def matchstar (here : List Byte → Bool) (c : Byte) : List Byte → Bool
  | [] => here []
  | t :: text => here (t :: text) || (decide (t = c ∨ c = byteOf '.') && matchstar here c text)

/-- One character, and then what `matchhere` answers for the rest of the expression. -/
def matchOne (rest : List Byte → Bool) (c : Byte) : List Byte → Bool
  | [] => false
  | t :: text => decide (c = byteOf '.' ∨ c = t) && rest text

/-- `matchhere`: the expression at the beginning of the text. -/
def matchhere : List Byte → List Byte → Bool
  | [], _ => true
  | [c], text => if c = byteOf '$' then text.isEmpty else matchOne (fun _ => true) c text
  | c :: d :: regexp, text =>
      if d = byteOf '*' then matchstar (matchhere regexp) c text
      else matchOne (matchhere (d :: regexp)) c text

/-- The loop of `match`, which looks even if the text is empty. -/
def matchLoop (regexp : List Byte) : List Byte → Bool
  | [] => matchhere regexp []
  | t :: text => matchhere regexp (t :: text) || matchLoop regexp text

/-- `match`: the expression anywhere in the text. -/
def matchText : List Byte → List Byte → Bool
  | [], text => matchLoop [] text
  | c :: regexp, text =>
      if c = byteOf '^' then matchhere regexp text else matchLoop (c :: regexp) text

/-! ## What an expression denotes -/

def atomOf (c : Byte) : Atom Byte := if c = byteOf '.' then .any else .char c

/-- The items of an expression without `^`, and if it ends with `$`. -/
def itemsOf : List Byte → List (Item Byte) × Bool
  | [] => ([], false)
  | [c] => if c = byteOf '$' then ([], true) else ([.one (atomOf c)], false)
  | c :: d :: regexp =>
      if d = byteOf '*' then (.star (atomOf c) :: (itemsOf regexp).1, (itemsOf regexp).2)
      else (.one (atomOf c) :: (itemsOf (d :: regexp)).1, (itemsOf (d :: regexp)).2)

/-- The pattern of an expression. -/
def patternOf : List Byte → Pattern Byte
  | [] => ⟨false, [], false⟩
  | c :: regexp =>
      if c = byteOf '^' then ⟨true, (itemsOf regexp).1, (itemsOf regexp).2⟩
      else ⟨false, (itemsOf (c :: regexp)).1, (itemsOf (c :: regexp)).2⟩

theorem accepts_atomOf {c t : Byte} : (atomOf c).Accepts t ↔ c = byteOf '.' ∨ c = t := by
  rw [atomOf]
  split
  · rename_i isAny
    exact iff_of_true trivial (Or.inl isAny)
  · rename_i notAny
    exact (or_iff_right notAny).symm

theorem matchstar_iff {here : List Byte → Bool} {l : Language Byte}
    (isHere : ∀ text, here text = true ↔ text ∈ l) (c : Byte) (text : List Byte) :
    matchstar here c text = true ↔ text ∈ (atomOf c).language∗ * l := by
  induction text with
  | nil =>
      rw [mem_star_mul, matchstar, isHere]
      exact (or_iff_left nil_notMem_atom_mul).symm
  | cons t text ih =>
      rw [mem_star_mul, cons_mem_atom_mul, accepts_atomOf, ← ih, ← isHere, matchstar]
      simp only [Bool.or_eq_true, Bool.and_eq_true, decide_eq_true_eq]
      rw [or_comm (a := c = byteOf '.'), eq_comm (a := c) (b := t)]

theorem matchOne_iff {rest : List Byte → Bool} {l : Language Byte}
    (isRest : ∀ text, rest text = true ↔ text ∈ l) (c : Byte) (text : List Byte) :
    matchOne rest c text = true ↔ text ∈ (atomOf c).language * l := by
  cases text with
  | nil => exact iff_of_false Bool.false_ne_true nil_notMem_atom_mul
  | cons t text =>
      rw [cons_mem_atom_mul, accepts_atomOf, ← isRest, matchOne]
      simp only [Bool.and_eq_true, decide_eq_true_eq]

theorem matchhere_iff (regexp text : List Byte) : matchhere regexp text = true ↔
    text ∈ headLanguage (itemsOf regexp).1 (itemsOf regexp).2 := by
  induction regexp using itemsOf.induct generalizing text with
  | case1 =>
      rw [itemsOf, headLanguage_nil, matchhere]
      exact iff_of_true rfl trivial
  | case2 =>
      rw [matchhere, if_pos rfl, itemsOf, if_pos rfl, headLanguage_nil, List.isEmpty_iff]
      exact Iff.rfl
  | case3 c notEnd =>
      rw [matchhere, if_neg notEnd, itemsOf, if_neg notEnd, headLanguage_cons, headLanguage_nil]
      exact matchOne_iff (fun _ => iff_of_true rfl trivial) c text
  | case4 c regexp ih =>
      rw [matchhere, if_pos rfl, itemsOf, if_pos rfl, headLanguage_cons]
      exact matchstar_iff ih c text
  | case5 c d regexp notStar ih =>
      rw [matchhere, if_neg notStar, itemsOf, if_neg notStar, headLanguage_cons]
      exact matchOne_iff ih c text

theorem matchLoop_iff (regexp text : List Byte) : matchLoop regexp text = true ↔
    text ∈ ⊤ * headLanguage (itemsOf regexp).1 (itemsOf regexp).2 := by
  induction text with
  | nil => rw [matchLoop, nil_mem_top_mul, matchhere_iff]
  | cons t text ih =>
      rw [matchLoop, cons_mem_top_mul, Bool.or_eq_true, matchhere_iff, ih]

/-- The matcher finds what is in the language of the expression, and nothing else. -/
theorem matchText_iff (regexp text : List Byte) :
    matchText regexp text = true ↔ text ∈ (patternOf regexp).language := by
  cases regexp with
  | nil => exact matchLoop_iff [] text
  | cons c regexp =>
      rw [matchText, patternOf]
      split
      · rw [Pattern.language, margin, one_mul]
        exact matchhere_iff regexp text
      · exact matchLoop_iff (c :: regexp) text

/-- The matcher finds the items of the expression one after the other somewhere in the text. -/
theorem match_finds (regexp text : List Byte) : matchText regexp text = true ↔
    ∃ before inside after, text = before ++ (inside ++ after) ∧
      inside ∈ ((patternOf regexp).items.map Item.language).prod ∧
      ((patternOf regexp).fromStart = true → before = []) ∧
      ((patternOf regexp).toEnd = true → after = []) :=
  (matchText_iff regexp text).trans mem_language

/-- `^a.*b*$` is tied to both ends. -/
example : patternOf ("^a.*b*$".toList.map byteOf) =
    ⟨true, [.one (.char 0x61), .star .any, .star (.char 0x62)], true⟩ := rfl

instance (regexp : List Byte) : DecidablePred (· ∈ (patternOf regexp).language) := fun text =>
  decidable_of_iff _ (matchText_iff regexp text)

/-! ## The program -/

theorem two_le_bufsiz : 2 ≤ bufsiz := by decide

/-- `fgets(buf, sizeof buf, f)`. -/
def gets : Read := .fgets bufsiz two_le_bufsiz

/-- The buffer without the newline at the end of its text. -/
def chomped (buf : List Byte) : List Byte :=
  let n := (stringIn buf).bytes.length
  if 0 < n ∧ buf.getD (n - 1) 0 = byteOf '\n' then buf.set (n - 1) 0 else buf

theorem nameFormat_noNul : ∀ b ∈ "%s:".toList.map byteOf, b ≠ 0 := by decide

theorem lineFormat_noNul : ∀ b ∈ "%s\n".toList.map byteOf, b ≠ 0 := by decide

theorem openFormat_noNul : ∀ b ∈ "%s: can't open %s:".toList.map byteOf, b ≠ 0 := by decide

def nameFormat : CString := ⟨"%s:".toList.map byteOf, nameFormat_noNul⟩

def lineFormat : CString := ⟨"%s\n".toList.map byteOf, lineFormat_noNul⟩

def openFormat : CString := ⟨"%s: can't open %s:".toList.map byteOf, openFormat_noNul⟩

def printName (name : Option CString) (out : Stdio.File) : Option Stdio.File :=
  match name with
  | none => some out
  | some name => out.call (.fprintf nameFormat [.text (some name)])

/-- A turn of the loop of `grep`, with the count so far and the standard output. -/
def grepTurn (regexp : List Byte) (name : Option CString) (piece : List Byte)
    (s : Word × Stdio.File) : Option (Bool × Word × Stdio.File) :=
  let line := stringIn (chomped (piece ++ [0]))
  if matchText regexp line.bytes then do
    let out ← printName name s.2
    let out ← out.call (.fprintf lineFormat [.text (some line)])
    return (false, s.1 + 1, out)
  else
    some (false, s)

/-- `grep`: the count and the standard output, with what is left of the file. -/
def grep (regexp : List Byte) (f : Input) (name : Option CString) (out : Stdio.File) :
    Option (Input × Word × Stdio.File) :=
  readLoop gets (grepTurn regexp name) f (0, out)

/-- The loop of `main` over the files, with what `fopen` makes of each. -/
def mainLoop (argv0 : CString) (regexp : List Byte) (many : Bool) :
    List (CString × Option Input) → Word → Stdio.File → Stdio.File →
      Option (Word × Stdio.File × Stdio.File)
  | [], nmatch, out, err => some (nmatch, out, err)
  | (name, none) :: rest, nmatch, out, err => do
      let err ← err.call (.fprintf openFormat [.text (some argv0), .text (some name)])
      mainLoop argv0 regexp many rest nmatch out err
  | (name, some f) :: rest, nmatch, out, err => do
      let (_, count, out) ← grep regexp f (if many then some name else none) out
      mainLoop argv0 regexp many rest (if 0 < count.toInt then nmatch + 1 else nmatch) out err

/--
`main` with a regular expression, and the `fflush` of `exit`: if the exit status is 1, and the
standard output and error. Without files the standard input is searched.
-/
def main (argv0 : CString) (regexp : List Byte) (stdin : Input)
    (files : List (CString × Option Input)) (out err : Stdio.File) :
    Option (Bool × Stdio.File × Stdio.File) :=
  if files = [] then do
    let (_, count, out) ← grep regexp stdin none out
    let nmatch : Word := if count ≠ 0 then 1 else 0
    return (nmatch = 0, out.fflush, err)
  else do
    let (nmatch, out, err) ← mainLoop argv0 regexp (1 < files.length) files 0 out err
    return (nmatch = 0, out.fflush, err)

/-! ## What is printed -/

/-- A line without its newline. -/
def lineText (line : List Byte) : List Byte := line.takeWhile (· ≠ byteOf '\n')

/-- The lines of a text that the expression matches. -/
def selected (regexp : List Byte) (lines : List (List Byte)) : List (List Byte) :=
  (lines.map lineText).filter (· ∈ (patternOf regexp).language)

/-- A line as it is printed, with the name of its file if there are several. -/
def printed (name : Option CString) (line : List Byte) : List Byte :=
  (name.elim [] fun name => name.bytes ++ [byteOf ':']) ++ (line ++ [byteOf '\n'])

/-- The lines of the text that are printed. -/
def report (regexp : List Byte) (name : Option CString) (lines : List (List Byte)) : List Byte :=
  (selected regexp lines).flatMap (printed name)

/-- In a piece the newline is at the end if there is one, and `grep` replaces it. -/
theorem stringIn_chomped {piece : List Byte} (isText : IsText piece) (some : piece ≠ [])
    (oneLine : byteOf '\n' ∉ piece.dropLast) :
    (stringIn (chomped (piece ++ [0]))).bytes = lineText piece := by
  have noNul : ∀ b ∈ piece, b ≠ 0 := fun b isIn => (isText b isIn).2
  have isWhole : (stringIn (piece ++ [0])).bytes = piece := Sort.kept_bytes noNul
  rcases List.eq_nil_or_concat' piece with isNil | ⟨front, last, isPiece⟩
  · exact absurd isNil some
  · subst isPiece
    rw [List.dropLast_concat] at oneLine
    have isFront : lineText front = front := by
      apply List.takeWhile_eq_self_iff.mpr
      intro b isIn
      apply decide_eq_true
      rintro rfl
      exact oneLine isIn
    have frontNoNul : ∀ b ∈ front, b ≠ 0 := fun b isIn =>
      noNul b (List.mem_append_left _ isIn)
    have isLast : (front ++ [last] ++ [0]).getD front.length 0 = last := by simp
    have isLine : lineText (front ++ [last]) = front ++ lineText [last] := by
      rw [lineText, List.takeWhile_append_of_pos]
      · rfl
      · intro b isIn
        apply decide_eq_true
        rintro rfl
        exact oneLine isIn
    rw [chomped, isWhole, List.length_append, List.length_singleton, Nat.add_sub_cancel, isLast,
      isLine]
    by_cases isNewline : last = byteOf '\n'
    · rw [if_pos ⟨Nat.succ_pos _, isNewline⟩]
      have isSet : (front ++ [last] ++ [0]).set front.length 0 = front ++ ([0] ++ [0]) := by
        simp
      have isEmpty : lineText [last] = [] := by
        rw [lineText, isNewline]
        rfl
      rw [isSet, ← List.append_assoc, isEmpty, List.append_nil]
      have isKept := Sort.kept_bytes frontNoNul
      change ((front ++ [0]) ++ [0]).takeWhile (· ≠ 0) = front
      change (front ++ [0]).takeWhile (· ≠ 0) = front at isKept
      rw [List.takeWhile_append, isKept]
      simp
    · rw [if_neg fun isBoth => isNewline isBoth.2, isWhole]
      have isOne : lineText [last] = [last] := by
        simp [lineText, isNewline]
      rw [isOne]

section

variable {out : Stdio.File} {bytes : List Byte}

theorem format_line (line : CString) :
    format lineFormat [.text (some line)] = some (line.bytes ++ [byteOf '\n']) := by
  have isFormat : format lineFormat [.text (some line)] =
      some (line.bytes ++ List.replicate (0 - line.bytes.length) (byteOf ' ') ++
        [byteOf '\n']) := rfl
  rw [isFormat, Nat.zero_sub, List.replicate_zero, List.append_nil]

theorem format_name (name : CString) :
    format nameFormat [.text (some name)] = some (name.bytes ++ [byteOf ':']) := by
  have isFormat : format nameFormat [.text (some name)] =
      some (name.bytes ++ List.replicate (0 - name.bytes.length) (byteOf ' ') ++
        [byteOf ':']) := rfl
  rw [isFormat, Nat.zero_sub, List.replicate_zero, List.append_nil]

theorem printName_spec (holds : out.Holds bytes) {name : Option CString}
    (plain : ∀ s ∈ name, Sort.Plain s.bytes) :
    ∃ out', printName name out = some out' ∧
      out'.Holds (bytes ++ name.elim [] fun name => name.bytes ++ [byteOf ':']) := by
  cases name with
  | none => exact ⟨out, rfl, by simpa using holds⟩
  | some name => exact call_string holds (plain name rfl) (format_name name)

/-- What `grep` counts and prints. -/
theorem grep_spec (regexp : List Byte) {f : Input} (ok : f.Ok) (isText : IsText f.rest)
    {name : Option CString} (plain : ∀ s ∈ name, Sort.Plain s.bytes) (holds : out.Holds bytes) :
    ∃ f' out', grep regexp f name out =
        some (f', BitVec.ofNat 32 (selected regexp (gets.pieces f.rest)).length, out') ∧
      out'.Holds (bytes ++ report regexp name (gets.pieces f.rest)) := by
  rcases readLoop_all gets (grepTurn regexp name)
    (fun done s => s.1 = BitVec.ofNat 32 (selected regexp done).length ∧
      s.2.Holds (bytes ++ report regexp name done))
    (0, out) ok ⟨rfl, by simpa [report, selected] using holds⟩ (by
      rintro done piece left ⟨nmatch, out⟩ isAll ⟨isCount, holds⟩
      have isPiece : piece ∈ gets.pieces f.rest := by simp [isAll]
      have isPart : IsText piece := isText.piece (by simp [gets]) isPiece
      have isLine := stringIn_chomped isPart (Read.ne_nil_of_mem_pieces isPiece)
        (Read.newline_notMem_pieces two_le_bufsiz isPiece)
      have isPlain : Sort.Plain (stringIn (chomped (piece ++ [0]))).bytes := by
        rw [isLine]
        intro b isIn
        exact (isPart b ((List.takeWhile_prefix _).subset isIn)).1
      by_cases isMatch : lineText piece ∈ (patternOf regexp).language
      · have isSelected : selected regexp (done ++ [piece]) =
            selected regexp done ++ [lineText piece] := by
          simp [selected, isMatch]
        rcases printName_spec holds plain with ⟨named, isNamed, holdsNamed⟩
        rcases call_string holdsNamed isPlain (format_line _) with ⟨out', isCall, holds'⟩
        refine ⟨(nmatch + 1, out'), ?_, ?_, ?_⟩
        · rw [grepTurn, if_pos (by rw [isLine]; exact (matchText_iff _ _).mpr isMatch)]
          simp only [isNamed, isCall, Option.bind_eq_bind, Option.bind_some, Option.pure_def]
        · rw [isSelected, List.length_append, List.length_singleton, BitVec.ofNat_add, ← isCount]
          rfl
        · rw [isLine] at holds'
          rw [report, isSelected, List.flatMap_append, List.flatMap_singleton, ← List.append_assoc]
          simpa only [report, printed, List.append_assoc] using holds'
      · have isSelected : selected regexp (done ++ [piece]) = selected regexp done := by
          simp [selected, isMatch]
        refine ⟨(nmatch, out), ?_, ?_, ?_⟩
        · rw [grepTurn, if_neg (by rw [isLine]; exact mt (matchText_iff _ _).mp isMatch)]
        · rw [isSelected]
          exact isCount
        · rw [report, isSelected]
          exact holds) with
    ⟨f', ⟨nmatch, out'⟩, isLoop, _, isCount, holds'⟩
  refine ⟨f', out', ?_, holds'⟩
  rw [grep, isLoop, ← isCount]

/-! ## The whole program -/

theorem pieces_gets {f : Input} (readable : Readable f) :
    gets.pieces f.rest = Sort.splitLines f.rest :=
  Read.pieces_fgets two_le_bufsiz readable.short

theorem length_selected_lt {f : Input} (readable : Readable f) (regexp : List Byte) :
    (selected regexp (Sort.splitLines f.rest)).length < 2 ^ 31 := by
  calc
    (selected regexp (Sort.splitLines f.rest)).length ≤ (Sort.splitLines f.rest).length :=
      (List.length_filter_le _ _).trans (Nat.le_of_eq (List.length_map _))
    _ < 2 ^ 31 := readable.length_lines

/-- The streams of the files that are there, with their names if there are several files. -/
def opened (many : Bool) (files : List (CString × Option Input)) : List (Option CString × Input) :=
  files.filterMap fun file => file.2.map fun f => (if many then some file.1 else none, f)

/-- The streams that are searched. -/
def searched (stdin : Input) (files : List (CString × Option Input)) :
    List (Option CString × Input) :=
  if files = [] then [(none, stdin)] else opened (1 < files.length) files

/-- Something in the stream is in the language of the expression. -/
def Has (regexp : List Byte) (stream : Option CString × Input) : Prop :=
  ∃ line ∈ Sort.splitLines stream.2.rest, lineText line ∈ (patternOf regexp).language

theorem has_iff {regexp : List Byte} {stream : Option CString × Input} :
    Has regexp stream ↔ selected regexp (Sort.splitLines stream.2.rest) ≠ [] := by
  simp only [Has, selected, ne_eq, List.filter_eq_nil_iff, List.forall_mem_map, decide_eq_true_eq,
    not_forall, not_not, exists_prop]

/-- What is printed for a stream. -/
def reportOf (regexp : List Byte) (stream : Option CString × Input) : List Byte :=
  report regexp stream.1 (Sort.splitLines stream.2.rest)

/-- `grep` of a text with short lines. -/
theorem grep_lines (regexp : List Byte) {f : Input} (readable : Readable f)
    (name : Option CString) (plain : ∀ s ∈ name, Sort.Plain s.bytes) (holds : out.Holds bytes) :
    ∃ f' count out', grep regexp f name out = some (f', count, out') ∧
      out'.Holds (bytes ++ reportOf regexp (name, f)) ∧
      (count ≠ 0 ↔ Has regexp (name, f)) ∧ (0 < count.toInt ↔ Has regexp (name, f)) := by
  rcases grep_spec regexp readable.ok readable.isText plain holds with
    ⟨f', out', isGrep, holds'⟩
  rw [pieces_gets readable] at isGrep holds'
  have few := length_selected_lt readable regexp
  have isCount : (BitVec.ofNat 32 (selected regexp (Sort.splitLines f.rest)).length).toNat =
      (selected regexp (Sort.splitLines f.rest)).length := by
    rw [BitVec.toNat_ofNat]
    exact Nat.mod_eq_of_lt (by omega)
  refine ⟨f', _, out', isGrep, holds', ?_, ?_⟩
  · rw [has_iff, ne_eq, ← BitVec.toNat_inj, isCount, ne_eq, ← List.length_eq_zero_iff]
    exact Iff.rfl
  · rw [has_iff, BitVec.toInt_eq_toNat_of_lt (by omega), isCount, ne_eq,
      ← List.length_eq_zero_iff]
    exact Int.natCast_pos.trans Nat.pos_iff_ne_zero

variable {err : Stdio.File} {errors : List Byte}

/-- What `main` counts and prints for the files. -/
theorem mainLoop_spec {argv0 : CString} (regexp : List Byte) (plain : Sort.Plain argv0.bytes)
    (many : Bool) {files : List (CString × Option Input)}
    (names : ∀ file ∈ files, Sort.Plain file.1.bytes)
    (readable : ∀ file ∈ files, ∀ f ∈ file.2, Readable f) (nmatch : Word)
    (holds : out.Holds bytes) (holdsErr : err.Holds errors) :
    ∃ found out' err', mainLoop argv0 regexp many files nmatch out err =
        some (nmatch + BitVec.ofNat 32 found, out', err') ∧
      out'.Holds (bytes ++ (opened many files).flatMap (reportOf regexp)) ∧
      found ≤ files.length ∧ (found = 0 ↔ ∀ stream ∈ opened many files, ¬Has regexp stream) := by
  induction files generalizing nmatch out err bytes errors with
  | nil => exact ⟨0, out, err, by simp [mainLoop], by simpa [opened] using holds, le_rfl,
      by simp [opened]⟩
  | cons file rest ih =>
      have namesRest : ∀ other ∈ rest, Sort.Plain other.1.bytes := fun other isIn =>
        names other (List.mem_cons_of_mem file isIn)
      have readableRest : ∀ other ∈ rest, ∀ f ∈ other.2, Readable f := fun other isIn =>
        readable other (List.mem_cons_of_mem file isIn)
      rcases file with ⟨name, _ | f⟩
      · have heeds : err.Heeds (.fprintf openFormat [.text (some argv0), .text (some name)]) := by
          refine ⟨?_, rfl⟩
          intro s isIn
          simp only [List.mem_cons, Arg.text.injEq, List.not_mem_nil, or_false] at isIn
          rcases isIn with rfl | rfl
          · exact plain
          · exact names (name, none) List.mem_cons_self
        rcases Stdio.File.call_spec holdsErr heeds with ⟨told, _, isCall, _, holdsTold⟩
        rcases ih namesRest readableRest nmatch holds holdsTold with
          ⟨found, out', err', isLoop, holds', few, isFound⟩
        refine ⟨found, out', err', ?_, holds', few.trans (Nat.le_succ _), isFound⟩
        simp only [mainLoop, isCall, Option.bind_eq_bind, Option.bind_some, isLoop]
      · have isPlain : ∀ s ∈ (if many then some name else none), Sort.Plain s.bytes := by
          intro s isName
          cases many with
          | true =>
              cases isName
              exact names (name, some f) List.mem_cons_self
          | false => cases isName
        rcases grep_lines regexp (readable (name, some f) List.mem_cons_self f rfl) _ isPlain
          holds with ⟨f', count, searchedOut, isGrep, holdsSearched, _, isPositive⟩
        rcases ih namesRest readableRest (if 0 < count.toInt then nmatch + 1 else nmatch)
          holdsSearched holdsErr with ⟨found, out', err', isLoop, holds', few, isFound⟩
        have isOpened : opened many ((name, some f) :: rest) =
            (if many then some name else none, f) :: opened many rest := rfl
        rw [List.append_assoc, ← List.flatMap_cons, ← isOpened] at holds'
        by_cases has : Has regexp (if many then some name else none, f)
        · rw [if_pos (isPositive.mpr has)] at isLoop
          refine ⟨found + 1, out', err', ?_, holds', Nat.succ_le_succ few, ?_⟩
          · simp only [mainLoop, isGrep, Option.bind_eq_bind, Option.bind_some,
              if_pos (isPositive.mpr has), isLoop]
            rw [BitVec.add_assoc, BitVec.ofNat_add, BitVec.add_comm (BitVec.ofNat 32 found)]
            rfl
          · rw [isOpened]
            refine iff_of_false (Nat.succ_ne_zero found) fun none => ?_
            exact none _ List.mem_cons_self has
        · rw [if_neg (mt isPositive.mp has)] at isLoop
          refine ⟨found, out', err', ?_, holds', few.trans (Nat.le_succ _), ?_⟩
          · simp only [mainLoop, isGrep, Option.bind_eq_bind, Option.bind_some,
              if_neg (mt isPositive.mp has), isLoop]
          · rw [isFound, isOpened, List.forall_mem_cons]
            exact (and_iff_right has).symm

end

/--
`bin/grep` prints those lines of its inputs that are in the language of the expression, in order
and each with the name of its file if there are several; its exit status is 1 if there are none.
-/
theorem grep_prints (argv0 : CString) (regexp : List Byte) (stdin : Input)
    (files : List (CString × Option Input)) (outBuf errBuf : ℕ → Byte)
    (names : Sort.Plain argv0.bytes ∧ ∀ file ∈ files, Sort.Plain file.1.bytes)
    (readable : Readable stdin ∧ ∀ file ∈ files, ∀ f ∈ file.2, Readable f)
    (few : files.length < 2 ^ 31) :
    ∃ fails out err, main argv0 regexp stdin files (Stdio.File.fresh outBuf)
        (Stdio.File.fresh errBuf) = some (fails, out, err) ∧
      out.written = (searched stdin files).flatMap (reportOf regexp) ∧
      (fails = true ↔ ∀ stream ∈ searched stdin files, ¬Has regexp stream) := by
  by_cases noFile : files = []
  · rcases grep_lines regexp readable.1 none (fun s isName => by cases isName)
      (Stdio.File.holds_fresh outBuf) with ⟨f', count, out, isGrep, holds, isCount, _⟩
    refine ⟨decide ((if count ≠ 0 then (1 : Word) else 0) = 0), out.fflush,
      Stdio.File.fresh errBuf, ?_, ?_, ?_⟩
    · rw [main, if_pos noFile]
      simp only [isGrep, Option.bind_eq_bind, Option.bind_some, Option.pure_def]
    · rw [written_of_holds holds, searched, if_pos noFile, List.flatMap_singleton, List.nil_append]
    · rw [searched, if_pos noFile, List.forall_mem_singleton, ← isCount, not_not]
      by_cases isZero : count = 0
      · subst isZero
        exact iff_of_true rfl rfl
      · rw [if_pos isZero]
        exact iff_of_false Bool.false_ne_true isZero
  · rcases mainLoop_spec regexp names.1 (1 < files.length) names.2 readable.2 0
      (Stdio.File.holds_fresh outBuf) (Stdio.File.holds_fresh errBuf) with
      ⟨found, out, err, isLoop, holds, atMost, isFound⟩
    refine ⟨decide ((0 : Word) + BitVec.ofNat 32 found = 0), out.fflush, err, ?_, ?_, ?_⟩
    · rw [main, if_neg noFile]
      simp only [isLoop, Option.bind_eq_bind, Option.bind_some, Option.pure_def]
    · rw [written_of_holds holds, searched, if_neg noFile, List.nil_append]
    · rw [searched, if_neg noFile, ← isFound, decide_eq_true_eq, zero_add,
        ← BitVec.toNat_inj, BitVec.toNat_ofNat, Nat.mod_eq_of_lt (by omega)]
      exact Iff.rfl

theorem grepName_noNul : ∀ b ∈ "grep".toList.map byteOf, b ≠ 0 := by decide

def grepName : CString := ⟨"grep".toList.map byteOf, grepName_noNul⟩

/-- Of `b` and `a`, `^a$` has the second one. -/
theorem grep_prints_twoLines : ∃ out err, main grepName ("^a$".toList.map byteOf)
    (Input.fresh (fun _ => 0) [Sort.twoLines]) [] (Stdio.File.fresh fun _ => 0)
    (Stdio.File.fresh fun _ => 0) = some (false, out, err) ∧
      out.written = "a\n".toList.map byteOf := by
  have plain : Sort.Plain grepName.bytes := by
    have sevenBits : ∀ b ∈ grepName.bytes, b.msb = false := by decide
    exact sevenBits
  rcases grep_prints grepName ("^a$".toList.map byteOf)
    (Input.fresh (fun _ => 0) [Sort.twoLines]) [] (fun _ => 0) (fun _ => 0)
    ⟨plain, by simp⟩ ⟨readable_twoLines, by simp⟩ (by decide) with
    ⟨fails, out, err, isMain, isWritten, isStatus⟩
  have isFalse : fails = false := by
    apply Bool.eq_false_iff.mpr
    intro fails
    have has : Has ("^a$".toList.map byteOf)
        (none, Input.fresh (fun _ => 0) [Sort.twoLines]) := by
      rw [has_iff]
      decide
    exact isStatus.mp fails _ List.mem_cons_self has
  subst isFalse
  exact ⟨out, err, isMain, isWritten.trans rfl⟩

end Osix.Grep
