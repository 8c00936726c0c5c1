import Osix.User.Input

/-!
# The words of a manual page

`process_file` of `usr.bin/roff.c`. It reads its input line by line into one buffer and splits
each line there: the character behind a word is overwritten with a 0 and skipped. Where a word
ends with the line, that character is the terminator, and what an earlier line has left behind
it is split as well.

Of `macros` only matters whether it comes to its end, and when it turns filling off.
-/

namespace Osix.Roff

open Stdio

/-- `MAX_LINE`, and the size of `words`. -/
def maxLine : ℕ := 1024
def maxWords : ℕ := 256

def isspace (c : Byte) : Bool := c ∈ [' ', '\t', '\n', '\x0b', '\x0c', '\x0d'].map byteOf

/-- What opens a word: nothing, or a quote. -/
def opening (quoted : Bool) : List Byte := if quoted then [byteOf '\"'] else []

/-- A word goes on. -/
def inside (quoted : Bool) (c : Byte) : Bool :=
  if quoted then c ≠ 0 ∧ c ≠ byteOf '\n' ∧ c ≠ byteOf '\"' else c ≠ 0 ∧ isspace c = false

/--
The loop over the words of a line, from the cursor and with so many words stored: these words,
and what the loop leaves in the buffer. A character behind the buffer is `none`, and so is a word
that has no place in the array.
-/
def splitLoop : ℕ → ℕ → List Byte → Option (List (List Byte) × List Byte)
  | 0, _, _ => none
  | fuel + 1, w, line =>
      match line.dropWhile isspace with
      | [] => none
      | c :: rest =>
          if c = 0 then some ([], line)
          else if maxWords ≤ w then none
          else
            let quoted : Bool := c = byteOf '\"'
            let start := if quoted then rest else c :: rest
            match start.dropWhile (inside quoted) with
            | [] => none
            | _ :: behind => do
                let word := start.takeWhile (inside quoted)
                let (words, after) ← splitLoop fuel (w + 1) behind
                return (word :: words,
                  line.takeWhile isspace ++ (opening quoted ++ (word ++ 0 :: after)))

/-- The words of the line in a buffer. -/
def split (line : List Byte) : Option (List (List Byte) × List Byte) :=
  splitLoop (line.length + 1) 0 line

def text (name : String) : List Byte := name.toList.map byteOf

/--
`macros`: the new value of `no_fill`. The title needs two more words, and the loops over the words
need a null pointer behind them.
-/
def macros (words : List (List Byte)) : Option Bool :=
  if words.head? = some (text ".TH") then if words.length < 3 then none else some false
  else if ∃ name ∈ [".SS", ".TP", ".PP", ".IP"], words.head? = some (text name) then some false
  else if words.head? = some (text ".nf") then some true
  else if maxWords ≤ words.length then none
  else some false

/-- A line that is split, and its words. -/
structure Passed where
  text : List Byte
  words : Option (List (List Byte))

/-- The loop of `process_file`: the lines that it splits. -/
def processLoop : ℕ → Bool → List Byte → Input → List Passed
  | 0, _, _, _ => []
  | fuel + 1, noFill, line, fp =>
      let ((stored, isNull), fp) := fp.fgets maxLine
      let line := stored ++ line.drop stored.length
      if isNull then []
      else if noFill then processLoop fuel (line.take 3 ≠ text ".fi") line fp
      else
        let ownText := line.takeWhile (· ≠ 0)
        match split line with
        | none => [⟨ownText, none⟩]
        | some (words, line) =>
            ⟨ownText, some words⟩ ::
              match macros words with
              | none => []
              | some noFill => processLoop fuel noFill line fp

/-- `process_file`, with whatever is in its buffer at first. -/
def processFile (line : List Byte) (fp : Input) : List Passed :=
  processLoop (fp.rest.length + 1) false line fp

/-! ## What is claimed -/

/-- A line as `fgets` stores it. -/
structure IsLine (line : List Byte) : Prop where
  notEmpty : line ≠ []
  short : line.length < maxLine
  noNul : ∀ c ∈ line, c ≠ 0
  oneLine : ∀ c ∈ line.dropLast, c ≠ byteOf '\n'

/--
The words of a line are the same whatever was in the buffer, whatever else is in the input and
however it arrives, and there are less than the array holds.
-/
def OnItsOwn (line : List Byte) : Prop :=
  ∃ words : List (List Byte), words.length < maxWords ∧
    ∀ buffer fp, buffer.length = maxLine → fp.Ok → ∀ passed ∈ processFile buffer fp,
      passed.text = line → passed.words = some words

/-- A word between spaces, or a text between quotes. -/
structure IsWord (quoted : Bool) (word : List Byte) : Prop where
  inside : ∀ c ∈ word, inside quoted c = true
  notEmpty : quoted = false → word ≠ []
  noQuote : quoted = false → word.head? ≠ some (byteOf '\"')

/--
The words of a line. `isCut` says that the line ends in the middle of the last one; any other word
has a character behind it that ends it.
-/
inductive Scans : List Byte → List (List Byte) → Bool → Prop where
  | blank {blanks : List Byte} (areBlank : ∀ c ∈ blanks, isspace c = true) : Scans blanks [] false
  | word {blanks word line : List Byte} {words : List (List Byte)} {quoted isCut : Bool}
      {separator : Byte} (areBlank : ∀ c ∈ blanks, isspace c = true) (isWord : IsWord quoted word)
      (ends : inside quoted separator = false) (rest : Scans line words isCut) :
      Scans (blanks ++ (opening quoted ++ (word ++ separator :: line))) (word :: words) isCut
  | cut {blanks word : List Byte} {quoted : Bool} (areBlank : ∀ c ∈ blanks, isspace c = true)
      (isWord : IsWord quoted word) : Scans (blanks ++ (opening quoted ++ word)) [word] true

/-- Every word of the line is followed by a character that ends it. -/
def Splits (line : List Byte) (words : List (List Byte)) : Prop := Scans line words false

/-! ## One word -/

section

variable {quoted isCut : Bool} {blanks word line behind : List Byte} {words : List (List Byte)}
  {c : Byte} {w fuel : ℕ}

theorem dropWhile_blanks (areBlank : ∀ b ∈ blanks, isspace b = true)
    (notBlank : isspace c = false) (rest : List Byte) :
    (blanks ++ c :: rest).dropWhile isspace = c :: rest ∧
      (blanks ++ c :: rest).takeWhile isspace = blanks := by
  have notSpace : ¬isspace c = true := Bool.eq_false_iff.mp notBlank
  refine ⟨?_, ?_⟩
  · rw [List.dropWhile_append_of_pos areBlank, List.dropWhile_cons_of_neg notSpace]
  · rw [List.takeWhile_append_of_pos areBlank, List.takeWhile_cons_of_neg notSpace,
      List.append_nil]

theorem word_of_inside (isWord : IsWord quoted word) (ends : inside quoted c = false) :
    (word ++ c :: behind).dropWhile (inside quoted) = c :: behind ∧
      (word ++ c :: behind).takeWhile (inside quoted) = word := by
  have notInside : ¬inside quoted c = true := Bool.eq_false_iff.mp ends
  refine ⟨?_, ?_⟩
  · rw [List.dropWhile_append_of_pos isWord.inside, List.dropWhile_cons_of_neg notInside]
  · rw [List.takeWhile_append_of_pos isWord.inside, List.takeWhile_cons_of_neg notInside,
      List.append_nil]

/-- The first character of a word with its quote. -/
theorem opening_head (isWord : IsWord quoted word) :
    ∃ first rest, opening quoted ++ (word ++ c :: behind) = first :: rest ∧
      isspace first = false ∧ first ≠ 0 ∧ (first = byteOf '\"' ↔ quoted = true) ∧
      (if quoted then rest else first :: rest) = word ++ c :: behind := by
  cases quoted with
  | true =>
      exact ⟨byteOf '\"', _, rfl, by decide, by decide, ⟨fun _ => rfl, fun _ => rfl⟩, rfl⟩
  | false =>
      cases word with
      | nil => exact absurd rfl (isWord.notEmpty rfl)
      | cons first word =>
          have isInside := isWord.inside first List.mem_cons_self
          rw [inside, if_neg Bool.false_ne_true, decide_eq_true_eq] at isInside
          refine ⟨first, _, rfl, isInside.2, isInside.1, ⟨fun isQuote => ?_, nofun⟩, rfl⟩
          exact absurd (congrArg some isQuote) (isWord.noQuote rfl)

/-- A turn of the loop at a word, which ends at `c`. -/
theorem splitLoop_word (areBlank : ∀ b ∈ blanks, isspace b = true) (isWord : IsWord quoted word)
    (ends : inside quoted c = false) :
    (splitLoop (fuel + 1) w (blanks ++ (opening quoted ++ (word ++ c :: behind)))).map Prod.fst =
      if maxWords ≤ w then none
      else (splitLoop fuel (w + 1) behind).map fun result => word :: result.1 := by
  rcases @opening_head quoted word behind c isWord with
    ⟨first, rest, isRest, notSpace, notNul, isQuote, isStart⟩
  rw [isRest, splitLoop, (dropWhile_blanks areBlank notSpace rest).1]
  dsimp only
  have sameQuoted : decide (first = byteOf '\"') = quoted := by
    rw [Bool.eq_iff_iff, decide_eq_true_eq]
    exact isQuote
  rw [if_neg notNul, sameQuoted, isStart, (word_of_inside isWord ends).1,
    (word_of_inside isWord ends).2]
  split
  · rfl
  · dsimp only
    rcases splitLoop fuel (w + 1) behind with _ | ⟨words, after⟩ <;> rfl

/-! ## The words of a line -/

/--
The loop at a line with a terminator: a word that is cut lets the loop go on behind it.
-/
theorem splitLoop_scans (scans : Scans line words isCut) (noNul : ∀ b ∈ line, b ≠ 0)
    (enough : line.length < fuel) (hasPlace : w ≤ maxWords) (stale : List Byte) :
    ∃ fuel', fuel ≤ fuel' + (line.length + 1) ∧
      (splitLoop fuel w (line ++ 0 :: stale)).map Prod.fst =
        if maxWords < w + words.length then none
        else if isCut then
          (splitLoop fuel' (w + words.length) stale).map fun result => words ++ result.1
        else some words := by
  induction scans generalizing fuel w with
  | blank areBlank =>
      rcases Nat.exists_eq_succ_of_ne_zero (Nat.ne_zero_of_lt enough) with ⟨fuel, rfl⟩
      refine ⟨fuel, by omega, ?_⟩
      rw [splitLoop, (dropWhile_blanks areBlank (by decide) stale).1]
      rw [List.length_nil, if_neg (by omega)]
      rfl
  | @word blanks word line words quoted isCut separator areBlank isWord ends rest ih =>
      rcases Nat.exists_eq_succ_of_ne_zero (Nat.ne_zero_of_lt enough) with ⟨fuel, rfl⟩
      have isLonger : line.length + 1 ≤
          (blanks ++ (opening quoted ++ (word ++ separator :: line))).length := by
        simp only [List.length_append, List.length_cons]
        omega
      have restNoNul : ∀ b ∈ line, b ≠ 0 := by
        intro b isIn
        apply noNul
        simp only [List.mem_append, List.mem_cons]
        exact Or.inr (Or.inr (Or.inr (Or.inr isIn)))
      simp only [List.append_assoc, List.cons_append]
      rw [splitLoop_word areBlank isWord ends, List.length_cons]
      by_cases isFull : maxWords ≤ w
      · refine ⟨fuel, by omega, ?_⟩
        rw [if_pos isFull, if_pos (by omega)]
      · rcases ih restNoNul (show line.length < fuel by omega) (show w + 1 ≤ maxWords by omega) with
          ⟨fuel', isEnough, isLoop⟩
        refine ⟨fuel', by omega, ?_⟩
        have consWord : (splitLoop fuel (w + 1) (line ++ 0 :: stale)).map
            (fun result => word :: result.1) =
              ((splitLoop fuel (w + 1) (line ++ 0 :: stale)).map Prod.fst).map (word :: ·) := by
          rw [Option.map_map]
          rfl
        have sameIndex : w + (words.length + 1) = w + 1 + words.length := by omega
        rw [if_neg isFull, consWord, isLoop, sameIndex]
        split
        · rfl
        · split
          · rw [Option.map_map]
            rfl
          · rfl
  | @cut blanks word quoted areBlank isWord =>
      rcases Nat.exists_eq_succ_of_ne_zero (Nat.ne_zero_of_lt enough) with ⟨fuel, rfl⟩
      refine ⟨fuel, by omega, ?_⟩
      have endsHere : inside quoted 0 = false := by cases quoted <;> rfl
      simp only [List.append_assoc]
      rw [splitLoop_word areBlank isWord endsHere, List.length_singleton]
      by_cases isFull : maxWords ≤ w
      · rw [if_pos isFull, if_pos (by omega)]
      · rw [if_neg isFull, if_neg (by omega), if_pos trivial]
        rfl

/-- The word that begins with the first character of a text. -/
theorem exists_word {first : Byte} {rest : List Byte} (notSpace : isspace first = false)
    (notNul : first ≠ 0) :
    ∃ quoted start, opening quoted ++ start = first :: rest ∧
      IsWord quoted (start.takeWhile (inside quoted)) := by
  have areInside : ∀ quoted (start : List Byte), ∀ c ∈ start.takeWhile (inside quoted),
      inside quoted c = true := fun _ _ _ => List.mem_takeWhile_imp
  by_cases isQuote : first = byteOf '\"'
  · exact ⟨true, rest, by rw [isQuote]; rfl, areInside true rest, nofun, nofun⟩
  · have isInside : inside false first = true := by
      rw [inside, if_neg Bool.false_ne_true, decide_eq_true_eq]
      exact ⟨notNul, notSpace⟩
    have isTaken : (first :: rest).takeWhile (inside false) =
        first :: rest.takeWhile (inside false) := List.takeWhile_cons_of_pos isInside
    refine ⟨false, first :: rest, rfl, areInside false _, fun _ => ?_, fun _ => ?_⟩
    · rw [isTaken]
      exact nofun
    · rw [isTaken]
      exact fun isHead => isQuote (Option.some.inj isHead)

/-- Every line is scanned somehow. -/
theorem exists_scans (line : List Byte) (noNul : ∀ b ∈ line, b ≠ 0) :
    ∃ words isCut, Scans line words isCut := by
  induction isLength : line.length using Nat.strong_induction_on generalizing line with
  | h length ih =>
      have areBlank : ∀ b ∈ line.takeWhile isspace, isspace b = true :=
        fun _ => List.mem_takeWhile_imp
      have isLine := line.takeWhile_append_dropWhile (p := isspace)
      rcases isRest : line.dropWhile isspace with _ | ⟨first, rest⟩
      · rw [isRest, List.append_nil] at isLine
        rw [← isLine]
        exact ⟨[], false, .blank areBlank⟩
      · have notSpace : isspace first = false := by
          have isHead := List.head?_dropWhile_not isspace line
          rw [isRest] at isHead
          simpa using isHead
        have notNul : first ≠ 0 := by
          apply noNul
          rw [← isLine, isRest]
          exact List.mem_append_right _ List.mem_cons_self
        rcases @exists_word first rest notSpace notNul with ⟨quoted, start, isStart, isWord⟩
        have isSplit := start.takeWhile_append_dropWhile (p := inside quoted)
        rw [isRest, ← isStart] at isLine
        rcases isBehind : start.dropWhile (inside quoted) with _ | ⟨separator, behind⟩
        · rw [isBehind, List.append_nil] at isSplit
          rw [← isLine]
          rw [isSplit] at isWord
          exact ⟨[start], true, .cut areBlank isWord⟩
        · have ends : inside quoted separator = false := by
            have isHead := List.head?_dropWhile_not (inside quoted) start
            rw [isBehind] at isHead
            simpa using isHead
          rw [isBehind] at isSplit
          rw [← isSplit] at isLine
          have isShorter : behind.length < length := by
            rw [← isLength, ← isLine]
            simp only [List.length_append, List.length_cons]
            omega
          have behindNoNul : ∀ b ∈ behind, b ≠ 0 := by
            intro b isIn
            apply noNul
            rw [← isLine]
            simp only [List.mem_append, List.mem_cons]
            exact Or.inr (Or.inr (Or.inr (Or.inr isIn)))
          rcases ih behind.length isShorter behind behindNoNul rfl with ⟨words, isCut, scans⟩
          rw [← isLine]
          exact ⟨_, isCut, .word areBlank isWord ends scans⟩

/-! ## The buffer -/

/-- The loop leaves a buffer of the same size. -/
theorem length_splitLoop {after : List Byte}
    (isSplit : splitLoop fuel w line = some (words, after)) : after.length = line.length := by
  induction fuel generalizing w line words after with
  | zero => cases isSplit
  | succ fuel ih =>
      have isLine := congrArg List.length (line.takeWhile_append_dropWhile (p := isspace))
      rw [List.length_append] at isLine
      rw [splitLoop] at isSplit
      rcases isRest : line.dropWhile isspace with _ | ⟨c, rest⟩
      · simp only [isRest] at isSplit
        cases isSplit
      · rw [isRest] at isLine
        simp only [isRest] at isSplit
        by_cases isEnd : c = 0
        · rw [if_pos isEnd] at isSplit
          cases isSplit
          rfl
        · rw [if_neg isEnd] at isSplit
          by_cases isFull : maxWords ≤ w
          · rw [if_pos isFull] at isSplit
            cases isSplit
          · rw [if_neg isFull] at isSplit
            generalize isQuoted : decide (c = byteOf '\"') = quoted at isSplit
            have isStart : (opening quoted).length +
                (if quoted = true then rest else c :: rest).length = (c :: rest).length := by
              cases quoted with
              | true => exact Nat.add_comm _ _
              | false => exact Nat.zero_add _
            generalize (if quoted = true then rest else c :: rest) = start at isSplit isStart
            have isWord := congrArg List.length
              (start.takeWhile_append_dropWhile (p := inside quoted))
            rw [List.length_append] at isWord
            rcases isBehind : start.dropWhile (inside quoted) with _ | ⟨separator, behind⟩
            · simp only [isBehind] at isSplit
              cases isSplit
            · rw [isBehind] at isWord
              simp only [isBehind, Option.bind_eq_bind, Option.bind_eq_some_iff] at isSplit
              rcases isSplit with ⟨⟨words', after'⟩, isRest', isResult⟩
              cases isResult
              have same := ih isRest'
              simp only [List.length_append, List.length_cons] at isLine isStart isWord ⊢
              omega

/-- A buffer with a 0 in it holds a string. -/
theorem exists_stale {buffer : List Byte} (hasNul : 0 ∈ buffer) :
    ∃ stale, buffer = buffer.takeWhile (· ≠ 0) ++ 0 :: stale := by
  have isBuffer := buffer.takeWhile_append_dropWhile (p := (· ≠ 0))
  rcases isRest : buffer.dropWhile (· ≠ 0) with _ | ⟨c, stale⟩
  · rw [List.dropWhile_eq_nil_iff] at isRest
    exact absurd (isRest 0 hasNul) (by decide)
  · have isHead := List.head?_dropWhile_not (· ≠ 0) buffer
    rw [isRest] at isHead
    have isNul : c = 0 := by simpa using isHead
    rw [isRest, isNul] at isBuffer
    exact ⟨stale, isBuffer.symm⟩

theorem length_lineOf_le (left : ℕ) (rest : List Byte) : (lineOf left rest).length ≤ left := by
  induction left generalizing rest with
  | zero => exact le_rfl
  | succ left ih =>
      cases rest with
      | nil => exact Nat.zero_le _
      | cons c rest =>
          rw [lineOf]
          split
          · exact Nat.succ_le_succ (Nat.zero_le left)
          · exact Nat.succ_le_succ (ih rest)

/-- What `fgets` stores, and the buffer with it. -/
theorem fgets_spec {fp : Input} (ok : fp.Ok) {buffer : List Byte}
    (isSize : buffer.length = maxLine) :
    (fp.fgets maxLine).1 = (lineOf 1023 fp.rest ++ [0], decide (lineOf 1023 fp.rest = [])) ∧
      (fp.fgets maxLine).2.Ok ∧
      (fp.fgets maxLine).2.rest = fp.rest.drop (lineOf 1023 fp.rest).length ∧
      (lineOf 1023 fp.rest ++ [(0 : Byte)] ++
        buffer.drop (lineOf 1023 fp.rest ++ [0]).length).length = maxLine := by
  rcases Input.fgetsLoop_spec 1023 [] ok with ⟨isLine, isRest, isOk⟩
  rw [List.nil_append] at isLine
  have few := length_lineOf_le 1023 fp.rest
  refine ⟨?_, isOk, isRest, ?_⟩
  · rw [Input.fgets, if_neg (by decide)]
    change ((Input.fgetsLoop 1023 [] fp).1 ++ [0], decide ((Input.fgetsLoop 1023 [] fp).1 = [])) = _
    rw [isLine]
  · simp only [List.length_append, List.length_singleton, List.length_drop]
    rw [maxLine] at isSize ⊢
    omega

/-- Every line that is split is the string in a buffer. -/
theorem passed_spec {noFill : Bool} {buffer : List Byte} {fp : Input} {passed : Passed}
    (isSize : buffer.length = maxLine) (ok : fp.Ok)
    (isIn : passed ∈ processLoop fuel noFill buffer fp) :
    ∃ stale, (passed.text ++ 0 :: stale).length = maxLine ∧
      passed.words = (split (passed.text ++ 0 :: stale)).map Prod.fst := by
  induction fuel generalizing noFill buffer fp with
  | zero => cases isIn
  | succ fuel ih =>
      rcases fgets_spec ok isSize with ⟨isStored, isOk, _, isSize'⟩
      rcases isFgets : fp.fgets maxLine with ⟨⟨stored, isNull⟩, fp'⟩
      rw [isFgets] at isStored isOk
      cases isStored
      rw [processLoop, isFgets] at isIn
      dsimp only at isIn
      generalize isBuffer' : lineOf 1023 fp.rest ++ [0] ++
        buffer.drop (lineOf 1023 fp.rest ++ [0]).length = buffer' at isIn isSize'
      split at isIn
      · cases isIn
      · split at isIn
        · exact ih isSize' isOk isIn
        · have hasNul : 0 ∈ buffer' := by
            rw [← isBuffer']
            exact List.mem_append_left _ (List.mem_append_right _ (List.mem_singleton_self 0))
          rcases exists_stale hasNul with ⟨stale, isString⟩
          rcases isSplit : split buffer' with _ | ⟨words, after⟩
          · rw [isSplit] at isIn
            rw [List.mem_singleton] at isIn
            rw [isIn]
            refine ⟨stale, ?_, ?_⟩
            · rw [← isString]
              exact isSize'
            · rw [← isString, isSplit]
              rfl
          · rw [isSplit] at isIn
            rcases List.mem_cons.mp isIn with isFirst | isLater
            · rw [isFirst]
              refine ⟨stale, ?_, ?_⟩
              · rw [← isString]
                exact isSize'
              · rw [← isString, isSplit]
                rfl
            · split at isLater
              · cases isLater
              · exact ih ((length_splitLoop isSplit).trans isSize') isOk isLater

/-! ## Lines on their own -/

theorem lineOf_line (isLine : IsLine line) (left : ℕ) (isLong : line.length ≤ left) :
    lineOf left line = line := by
  have noNewline := isLine.oneLine
  clear isLine
  induction left generalizing line with
  | zero =>
      rw [List.length_eq_zero_iff.mp (Nat.le_zero.mp isLong)]
      rfl
  | succ left ih =>
      cases line with
      | nil => rfl
      | cons c line =>
          rw [List.length_cons] at isLong
          rw [lineOf]
          split
          · rename_i isNewline
            cases line with
            | nil => rfl
            | cons d line => exact absurd isNewline (noNewline c List.mem_cons_self)
          · congr 1
            apply ih (by omega)
            intro d isIn
            cases line with
            | nil => cases isIn
            | cons e line => exact noNewline d (List.mem_cons_of_mem c isIn)

/-- A line may come after any contents of the buffer. -/
theorem exists_passed (isLine : IsLine line) {stale : List Byte}
    (isSize : (line ++ 0 :: stale).length = maxLine) :
    ∃ buffer fp, buffer.length = maxLine ∧ fp.Ok ∧ ∃ passed ∈ processFile buffer fp,
      passed.text = line ∧ passed.words = (split (line ++ 0 :: stale)).map Prod.fst := by
  have isLong := List.length_pos_iff.mpr isLine.notEmpty
  have short := isLine.short
  have inChunk : line.length ≤ bufsiz := by
    rw [maxLine] at short
    rw [bufsiz]
    omega
  have isRest : (Input.fresh (fun _ => 0) [⟨line, isLong, inChunk⟩]).rest = line := by
    change [] ++ (line ++ []) = line
    rw [List.nil_append, List.append_nil]
  have ok : (Input.fresh (fun _ => 0) [⟨line, isLong, inChunk⟩]).Ok := (by rintro ⟨⟩)
  refine ⟨line ++ 0 :: stale, _, isSize, ok, ?_⟩
  rcases fgets_spec ok isSize with ⟨isStored, _⟩
  rw [isRest, lineOf_line isLine 1023 (by rw [maxLine] at short; omega)] at isStored
  rcases isFgets : (Input.fresh (fun _ => 0) [⟨line, isLong, inChunk⟩]).fgets maxLine with
    ⟨⟨stored, isNull⟩, fp'⟩
  rw [isFgets] at isStored
  cases isStored
  have isBuffer : line ++ [0] ++ (line ++ 0 :: stale).drop (line ++ [0]).length =
      line ++ 0 :: stale := by
    rw [List.append_cons line 0 stale, List.drop_left]
  have isText : (line ++ 0 :: stale).takeWhile (· ≠ 0) = line := by
    rw [List.takeWhile_append_of_pos, List.takeWhile_cons_of_neg (by decide), List.append_nil]
    intro c isIn
    exact decide_eq_true (isLine.noNul c isIn)
  rw [processFile, processLoop, isFgets]
  dsimp only
  rw [isBuffer, isText, if_neg (by simpa using isLine.notEmpty), if_neg Bool.false_ne_true]
  rcases split (line ++ 0 :: stale) with _ | ⟨words, after⟩
  · exact ⟨_, List.mem_singleton_self _, rfl, rfl⟩
  · exact ⟨_, List.mem_cons_self, rfl, rfl⟩

/-- So a line is on its own if its words do not depend on what is behind it. -/
theorem onItsOwn_iff_stale (isLine : IsLine line) :
    OnItsOwn line ↔ ∃ words : List (List Byte), words.length < maxWords ∧
      ∀ stale, (line ++ 0 :: stale).length = maxLine →
        (split (line ++ 0 :: stale)).map Prod.fst = some words := by
  constructor
  · rintro ⟨words, few, same⟩
    refine ⟨words, few, fun stale isSize => ?_⟩
    rcases exists_passed isLine isSize with
      ⟨buffer, fp, isBuffer, ok, passed, isIn, isText, isWords⟩
    rw [← isWords]
    exact same buffer fp isBuffer ok passed isIn isText
  · rintro ⟨words, few, same⟩
    refine ⟨words, few, fun buffer fp isBuffer ok passed isIn isText => ?_⟩
    rcases passed_spec isBuffer ok isIn with ⟨stale, isSize, isWords⟩
    rw [isText] at isSize isWords
    rw [isWords, same stale isSize]

/-- Something that is no space is the beginning of a word. -/
theorem splitLoop_ne_nil {first : Byte} {rest after : List Byte} (notSpace : isspace first = false)
    (notNul : first ≠ 0)
    (isSplit : splitLoop fuel w (first :: rest) = some (words, after)) : words ≠ [] := by
  cases fuel with
  | zero => cases isSplit
  | succ fuel =>
      rw [splitLoop, List.dropWhile_cons_of_neg (Bool.eq_false_iff.mp notSpace)] at isSplit
      dsimp only at isSplit
      rw [if_neg notNul] at isSplit
      split at isSplit
      · cases isSplit
      · split at isSplit
        · cases isSplit
        · simp only [Option.bind_eq_bind, Option.bind_eq_some_iff] at isSplit
          rcases isSplit with ⟨⟨words', after'⟩, _, isResult⟩
          cases isResult
          rintro ⟨⟩

/-- A line that ends in the middle of a word is split on behind its terminator. -/
theorem not_onItsOwn_of_cut (isLine : IsLine line) (scans : Scans line words true) :
    ¬OnItsOwn line := by
  intro onItsOwn
  rcases (onItsOwn_iff_stale isLine).mp onItsOwn with ⟨own, _, same⟩
  have short := isLine.short
  have loop : ∀ stale, (line ++ 0 :: stale).length = maxLine → ∃ fuel w,
      (splitLoop (fuel + 1) w stale).map (fun result => words ++ result.1) = some own := by
    intro stale isSize
    have isWords := same stale isSize
    rcases splitLoop_scans scans isLine.noNul (show line.length < maxLine + 1 by omega)
      (Nat.zero_le maxWords) stale with ⟨fuel, isEnough, isLoop⟩
    rw [split, isSize, isLoop] at isWords
    split at isWords
    · cases isWords
    · rw [if_pos rfl] at isWords
      refine ⟨fuel - 1, 0 + words.length, ?_⟩
      rw [Nat.sub_add_cancel (by omega)]
      exact isWords
  rcases isRoom : maxLine - line.length - 1 with _ | room
  · -- the next character is not in the buffer
    rcases loop [] (by rw [List.length_append, List.length_singleton]; omega) with
      ⟨fuel, w, isLoop⟩
    cases isLoop
  · have isSize : ∀ c, (line ++ 0 :: c :: List.replicate room 0).length = maxLine := by
      intro c
      rw [List.length_append, List.length_cons, List.length_cons, List.length_replicate]
      omega
    rcases loop _ (isSize 0) with ⟨fuel, w, isLoop⟩
    rcases loop _ (isSize (byteOf 'x')) with ⟨fuel', w', isLoop'⟩
    rw [splitLoop, List.dropWhile_cons_of_neg (by decide)] at isLoop
    change some (words ++ []) = some own at isLoop
    rcases isSplit : splitLoop (fuel' + 1) w' (byteOf 'x' :: List.replicate room 0) with
      _ | ⟨more, after⟩
    · rw [isSplit] at isLoop'
      cases isLoop'
    · rw [isSplit] at isLoop'
      have isLonger := Option.some.inj (isLoop.trans isLoop'.symm)
      exact splitLoop_ne_nil (by decide) (by decide) isSplit (List.append_cancel_left isLonger).symm

/--
The words of a line are its own exactly if each of them ends before the terminator, and there are
less than 256.
-/
theorem roff_onItsOwn_iff (isLine : IsLine line) :
    OnItsOwn line ↔ ∃ words, Splits line words ∧ words.length < maxWords := by
  rcases exists_scans line isLine.noNul with ⟨words, isCut, scans⟩
  have short := isLine.short
  have splits : ∀ words, Splits line words → ∀ stale, (line ++ 0 :: stale).length = maxLine →
      (split (line ++ 0 :: stale)).map Prod.fst =
        if maxWords < words.length then none else some words := by
    intro words splits stale isSize
    rcases splitLoop_scans splits isLine.noNul (show line.length < maxLine + 1 by omega)
      (Nat.zero_le maxWords) stale with ⟨fuel, _, isLoop⟩
    rw [split, isSize, isLoop, Nat.zero_add]
    rfl
  constructor
  · intro onItsOwn
    cases isCut with
    | true => exact absurd onItsOwn (not_onItsOwn_of_cut isLine scans)
    | false =>
        rcases (onItsOwn_iff_stale isLine).mp onItsOwn with ⟨own, few, same⟩
        have isSize : (line ++ 0 :: List.replicate (maxLine - line.length - 1) 0).length =
            maxLine := by
          rw [List.length_append, List.length_cons, List.length_replicate]
          omega
        have isOwn := (splits words scans _ isSize).symm.trans (same _ isSize)
        split at isOwn
        · cases isOwn
        · cases isOwn
          exact ⟨words, scans, few⟩
  · rintro ⟨words, isSplit, few⟩
    refine (onItsOwn_iff_stale isLine).mpr ⟨words, few, fun stale isSize => ?_⟩
    rw [splits words isSplit stale isSize, if_neg (by omega)]

end

/-- A line with a quoted word. -/
theorem roff_onItsOwn_quoted : OnItsOwn (text ".B \"a b\"\n") := by
  have isLine : IsLine (text ".B \"a b\"\n") :=
    ⟨by decide, by decide, by decide, by decide⟩
  apply (roff_onItsOwn_iff isLine).mpr
  refine ⟨[text ".B", text "a b"], ?_, by decide⟩
  have newline : Scans (text "\n") [] false := .blank (by decide)
  have quoted := @Scans.word [] (text "a b") _ _ true false (byteOf '\"') nofun
    ⟨by decide, nofun, nofun⟩ rfl newline
  exact @Scans.word [] (text ".B") _ _ false false (byteOf ' ') nofun
    ⟨by decide, fun _ => nofun, fun _ => by decide⟩ rfl quoted

/-- The last line of a file without a newline at its end. -/
theorem not_roff_onItsOwn : IsLine (text "ab") ∧ ¬OnItsOwn (text "ab") := by
  have isLine : IsLine (text "ab") := ⟨by decide, by decide, by decide, by decide⟩
  have scans := @Scans.cut [] (text "ab") false nofun
    ⟨by decide, fun _ => nofun, fun _ => by decide⟩
  exact ⟨isLine, not_onItsOwn_of_cut isLine scans⟩

end Osix.Roff
