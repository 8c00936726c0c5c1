import Osix.User.Stdio

/-!
# Messages of the kernel

`printf` and `printn` of `sys/libkern/printf.c`. A `%s` calls `printf` again, with the string as
its format and no arguments. An argument that was not passed, or a byte behind the terminator of
the format, is `none`.
-/

namespace Osix.Printf

open Stdio (CString Word byteOf)

/-- An argument: a number or a pointer to a string. -/
inductive Arg where
  | word (w : Word)
  | string (s : CString)

/-- What stands after a `%`. -/
structure Spec where
  lflag : Bool
  width : ℕ
  conv : Byte

def isWidth (c : Byte) : Bool := byteOf '1' ≤ c ∧ c ≤ byteOf '9'

/-- The flags up to the conversion, and the rest of the format. -/
def parseSpec : List Byte → Option (Spec × List Byte)
  | [] => none
  | c :: rest =>
      if c = byteOf 'l' then
        match rest with
        | [] => none
        | d :: rest => some (⟨true, 0, d⟩, rest)
      else if c = byteOf '0' then
        match rest with
        | [] => none
        | d :: rest =>
            if isWidth d then
              match rest with
              | [] => none
              | e :: rest => some (⟨false, d.toNat - 0x30, e⟩, rest)
            else some (⟨false, 0, d⟩, rest)
      else
        some (⟨false, 0, c⟩, rest)

def printn (ul : Word) (base width : ℕ) (upper : Bool) : List Byte :=
  let digits := (Nat.toDigits base ul.toNat).map fun c => byteOf (if upper then c.toUpper else c)
  List.replicate (width - digits.length) (byteOf '0') ++ digits

/-- What the conversions of a number print. -/
def wordText (spec : Spec) (w : Word) : List Byte :=
  if spec.conv = byteOf 'd' then
    if w.toInt < 0 then byteOf '-' :: printn (-w) 10 (spec.width - 1) false
    else printn w 10 spec.width false
  else if spec.conv = byteOf 'x' then printn w 16 spec.width false
  else if spec.conv = byteOf 'X' then printn w 16 spec.width true
  else if spec.conv = byteOf 'c' then [w.setWidth 8 &&& 0x7f]
  else if spec.conv = byteOf 'o' then printn w 8 spec.width false
  else printn w 10 spec.width false

/-- The conversions of a number. -/
def takesWord (c : Byte) : Bool := c ∈ ['d', 'x', 'X', 'c', 'o', 'u'].map byteOf

/-- One conversion, where `nested` prints a string: what is printed, and the other arguments. -/
def convert (nested : List Byte → Option (List Byte)) (spec : Spec) (args : List Arg) :
    Option (List Byte × List Arg) :=
  if spec.conv = byteOf 's' then
    match args with
    | .string s :: args => (nested s.bytes).map fun text => (text, args)
    | _ => none
  else if takesWord spec.conv then
    match args with
    | .word w :: args => some (wordText spec w, args)
    | _ => none
  else if spec.conv = byteOf '%' then
    some ([byteOf '%'], args)
  else
    some (byteOf '%' :: ((if spec.lflag then [byteOf 'l'] else []) ++ [spec.conv]), args)

/-- The loop of `printf`, which takes something of the format at every turn. -/
def printfLoop (nested : List Byte → Option (List Byte)) :
    ℕ → List Byte → List Arg → Option (List Byte × List Arg)
  | _, [], args => some ([], args)
  | 0, _ :: _, _ => none
  | fuel + 1, c :: fmt, args =>
      if c = byteOf '%' then do
        let (spec, fmt) ← parseSpec fmt
        let (text, args) ← convert nested spec args
        let (rest, args) ← printfLoop nested fuel fmt args
        return (text ++ rest, args)
      else do
        let (rest, args) ← printfLoop nested fuel fmt args
        return (c :: rest, args)

/-- `printf`, whose calls are nested as deep as there is room on the stack. -/
def printf : ℕ → List Byte → List Arg → Option (List Byte × List Arg)
  | 0, _, _ => none
  | depth + 1, fmt, args =>
      printfLoop (fun s => (printf depth s []).map Prod.fst) fmt.length fmt args

/-! ## What a format stands for -/

/-- What a format stands for: each `%s` for the bytes of its string. -/
def formatted (fmt : List Byte) (args : List Arg) : Option (List Byte × List Arg) :=
  printfLoop some fmt.length fmt args

/-- What the format stands for is printed, and the same arguments are taken. -/
def Verbatim (depth : ℕ) (fmt : CString) (args : List Arg) : Prop :=
  ∀ result, formatted fmt.bytes args = some result → printf depth fmt.bytes args = some result

/-- The strings that the conversions of a format take, if it goes with its arguments. -/
def stringsLoop : ℕ → List Byte → List Arg → Option (List CString)
  | _, [], _ => some []
  | 0, _ :: _, _ => none
  | fuel + 1, c :: fmt, args =>
      if c = byteOf '%' then do
        let (spec, fmt) ← parseSpec fmt
        let (_, rest) ← convert some spec args
        let strings ← stringsLoop fuel fmt rest
        match args with
        | .string s :: _ => return if spec.conv = byteOf 's' then s :: strings else strings
        | _ => return strings
      else
        stringsLoop fuel fmt args

def strings (fmt : CString) (args : List Arg) : Option (List CString) :=
  stringsLoop fmt.bytes.length fmt.bytes args

/-- A character that is printed when it stands after a `%`, and after the `%` itself. -/
def isOther (c : Byte) : Bool := !takesWord c && c ≠ byteOf 's' && c ≠ byteOf '%'

/-- Every `%` of a string is followed by something that is no conversion and no flag `0`. -/
inductive Inert : List Byte → Prop where
  | nil : Inert []
  | char {c : Byte} {s : List Byte} (notPercent : c ≠ byteOf '%') (rest : Inert s) :
      Inert (c :: s)
  | other {c : Byte} {s : List Byte} (notLong : c ≠ byteOf 'l') (notZero : c ≠ byteOf '0')
      (isOther : isOther c = true) (rest : Inert s) : Inert (byteOf '%' :: c :: s)
  | long {c : Byte} {s : List Byte} (isOther : isOther c = true) (rest : Inert s) :
      Inert (byteOf '%' :: byteOf 'l' :: c :: s)

/-! ## Strings as formats -/

section

variable {nested : List Byte → Option (List Byte)} {s : List Byte}

theorem convert_other {spec : Spec} {args : List Arg} (other : isOther spec.conv = true) :
    convert nested spec args =
      some (byteOf '%' :: ((if spec.lflag then [byteOf 'l'] else []) ++ [spec.conv]), args) := by
  simp only [isOther, Bool.and_eq_true, Bool.not_eq_true', decide_eq_true_eq] at other
  obtain ⟨⟨notWord, notString⟩, notPercent⟩ := other
  unfold convert
  rw [if_neg notString, if_neg (by simp [notWord]), if_neg notPercent]

/-- Without arguments there is nothing to convert. -/
theorem convert_nil {spec : Spec} {text : List Byte} {args : List Arg}
    (converted : convert nested spec [] = some (text, args)) :
    args = [] ∧ (text = [byteOf '%'] ∨ isOther spec.conv = true ∧
      text = byteOf '%' :: ((if spec.lflag then [byteOf 'l'] else []) ++ [spec.conv])) := by
  unfold convert at converted
  split at converted
  · contradiction
  · rename_i notString
    split at converted
    · contradiction
    · rename_i notWord
      split at converted
      · cases converted
        exact ⟨rfl, Or.inl rfl⟩
      · rename_i notPercent
        cases converted
        refine ⟨rfl, Or.inr ⟨?_, rfl⟩⟩
        simp [isOther, notString, notWord, notPercent]

/-- The flags and the conversion; only a flag `0` is longer than what is made of it. -/
theorem parseSpec_length {spec : Spec} {rest : List Byte}
    (parsed : parseSpec s = some (spec, rest)) :
    rest.length + 1 + (if spec.lflag then 1 else 0) ≤ s.length ∧
      (rest.length + 1 + (if spec.lflag then 1 else 0) = s.length →
        isOther spec.conv = true → Inert rest → Inert (byteOf '%' :: s)) := by
  rcases s with _ | ⟨c, s⟩
  · contradiction
  · by_cases isLong : c = byteOf 'l'
    · rcases s with _ | ⟨d, s⟩
      · simp [parseSpec, isLong] at parsed
      · simp only [parseSpec, isLong, if_true, Option.some.injEq, Prod.mk.injEq] at parsed
        obtain ⟨rfl, rfl⟩ := parsed
        refine ⟨by simp, fun _ other isRest => ?_⟩
        rw [isLong]
        exact .long other isRest
    · by_cases isZero : c = byteOf '0'
      · rcases s with _ | ⟨d, s⟩
        · simp [parseSpec, isZero] at parsed
        · have notLong : byteOf '0' ≠ byteOf 'l' := by decide
          simp only [parseSpec, isZero, notLong, if_true, if_false] at parsed
          split at parsed
          · rcases s with _ | ⟨e, s⟩
            · contradiction
            · cases parsed
              simp only [List.length_cons, Bool.false_eq_true, if_false]
              omega
          · cases parsed
            simp only [List.length_cons, Bool.false_eq_true, if_false]
            omega
      · simp only [parseSpec, isLong, isZero, if_false, Option.some.injEq, Prod.mk.injEq] at parsed
        obtain ⟨rfl, rfl⟩ := parsed
        exact ⟨by simp, fun _ other isRest => .other isLong isZero other isRest⟩

/-- A string that is printed as a format gets shorter, unless it is inert. -/
theorem printfLoop_shorter {fuel : ℕ} {out : List Byte} {args : List Arg}
    (printed : printfLoop nested fuel s [] = some (out, args)) :
    out.length ≤ s.length ∧ (out.length = s.length → Inert s) := by
  induction fuel generalizing s out args with
  | zero =>
      cases s with
      | nil =>
          cases printed
          exact ⟨Nat.le_refl _, fun _ => .nil⟩
      | cons c s => contradiction
  | succ fuel ih =>
      cases s with
      | nil =>
          cases printed
          exact ⟨Nat.le_refl _, fun _ => .nil⟩
      | cons c s =>
          unfold printfLoop at printed
          split at printed
          case isTrue isPercent =>
            simp only [Option.bind_eq_bind, Option.bind_eq_some_iff, Prod.exists,
              Option.pure_def, Option.some.injEq, Prod.mk.injEq] at printed
            obtain ⟨spec, fmt, parsed, text, args', converted, rest, args'', printedRest, rfl, -⟩ :=
              printed
            obtain ⟨rfl, isText⟩ := convert_nil converted
            obtain ⟨shorter, sameRest⟩ := ih printedRest
            obtain ⟨fits, isInert⟩ := parseSpec_length parsed
            rw [isPercent, List.length_append, List.length_cons]
            rcases isText with rfl | ⟨other, rfl⟩
            · simp only [List.length_singleton]
              omega
            · have textLength : (if spec.lflag then [byteOf 'l'] else []).length =
                  if spec.lflag then 1 else 0 := by
                split <;> rfl
              simp only [List.length_cons, List.length_append, List.length_nil, textLength]
              refine ⟨by omega, fun same => ?_⟩
              exact isInert (by omega) other (sameRest (by omega))
          case isFalse notPercent =>
            simp only [Option.bind_eq_bind, Option.bind_eq_some_iff, Prod.exists,
              Option.pure_def, Option.some.injEq, Prod.mk.injEq] at printed
            obtain ⟨rest, args', printedRest, rfl, -⟩ := printed
            obtain ⟨shorter, sameRest⟩ := ih printedRest
            rw [List.length_cons, List.length_cons]
            refine ⟨Nat.succ_le_succ shorter, fun same => ?_⟩
            exact .char notPercent (sameRest (Nat.succ.inj same))

theorem printfLoop_inert {fuel : ℕ} (isInert : Inert s) (enough : s.length ≤ fuel) :
    printfLoop nested fuel s [] = some (s, []) := by
  induction isInert generalizing fuel with
  | nil => cases fuel <;> rfl
  | char notPercent _ ih =>
      obtain ⟨fuel, rfl⟩ := Nat.exists_eq_add_of_le' (Nat.le_trans (Nat.le_add_left 1 _) enough)
      have isRest := ih (Nat.le_of_succ_le_succ enough)
      simp [printfLoop, notPercent, isRest]
  | @other c s notLong notZero other _ ih =>
      obtain ⟨fuel, rfl⟩ := Nat.exists_eq_add_of_le' (Nat.le_trans (Nat.le_add_left 1 _) enough)
      simp only [List.length_cons] at enough
      have isRest := @ih fuel (by omega)
      have parsed : parseSpec (c :: s) = some (⟨false, 0, c⟩, s) := by
        simp [parseSpec, notLong, notZero]
      have converted := @convert_other nested ⟨false, 0, c⟩ [] other
      simp [printfLoop, parsed, converted, isRest]
  | @long c s other _ ih =>
      obtain ⟨fuel, rfl⟩ := Nat.exists_eq_add_of_le' (Nat.le_trans (Nat.le_add_left 1 _) enough)
      simp only [List.length_cons] at enough
      have isRest := @ih fuel (by omega)
      have parsed : parseSpec (byteOf 'l' :: c :: s) = some (⟨true, 0, c⟩, s) := by
        simp [parseSpec]
      have converted := @convert_other nested ⟨true, 0, c⟩ [] other
      simp [printfLoop, parsed, converted, isRest]

end

/-! ## Formats -/

section

variable {nested : List Byte → Option (List Byte)} {fuel : ℕ} {fmt : List Byte} {args : List Arg}

theorem convert_string {spec : Spec} {s : CString} (isString : spec.conv = byteOf 's') :
    convert nested spec (.string s :: args) = (nested s.bytes).map fun text => (text, args) := by
  unfold convert
  rw [if_pos isString]

/-- A conversion takes a string, or does not depend on how strings are printed. -/
theorem convert_cases (spec : Spec) (args : List Arg) {result : List Byte × List Arg}
    (converted : convert some spec args = some result) :
    (spec.conv = byteOf 's' ∧ ∃ s, args = .string s :: result.2 ∧ result.1 = s.bytes) ∨
      (spec.conv ≠ byteOf 's' ∧ ∀ nested, convert nested spec args = some result) := by
  by_cases isString : spec.conv = byteOf 's'
  · refine Or.inl ⟨isString, ?_⟩
    unfold convert at converted
    rw [if_pos isString] at converted
    split at converted
    · rename_i s rest
      cases converted
      exact ⟨s, rfl, rfl⟩
    · contradiction
  · refine Or.inr ⟨isString, fun nested => ?_⟩
    rw [← converted]
    unfold convert
    rw [if_neg isString, if_neg isString]

/-- A turn of the loop at a conversion. -/
theorem printfLoop_percent {spec : Spec} {rest : List Byte}
    (parsed : parseSpec fmt = some (spec, rest)) :
    printfLoop nested (fuel + 1) (byteOf '%' :: fmt) args =
      (convert nested spec args).bind fun converted =>
        (printfLoop nested fuel rest converted.2).map fun printed =>
          (converted.1 ++ printed.1, printed.2) := by
  simp only [printfLoop, if_true, parsed, Option.bind_eq_bind, Option.bind_some]
  rcases convert nested spec args with _ | converted
  · rfl
  · simp only [Option.bind_some]
    rcases printfLoop nested fuel rest converted.2 with _ | printed <;> rfl

theorem printfLoop_char {c : Byte} (notPercent : c ≠ byteOf '%') :
    printfLoop nested (fuel + 1) (c :: fmt) args =
      (printfLoop nested fuel fmt args).map fun printed => (c :: printed.1, printed.2) := by
  rw [printfLoop, if_neg notPercent]
  rcases printfLoop nested fuel fmt args with _ | printed <;> rfl

/--
What a format stands for goes along with the strings that it takes: it is printed if these are
inert, and something shorter or nothing otherwise.
-/
theorem printfLoop_formatted {result : List Byte × List Arg}
    (inertPrinted : ∀ s, Inert s → nested s = some s)
    (shorter : ∀ s text, nested s = some text →
      text.length ≤ s.length ∧ (text.length = s.length → Inert s))
    (isFormatted : printfLoop some fuel fmt args = some result) :
    ∃ strings, stringsLoop fuel fmt args = some strings ∧
      ((∀ s ∈ strings, Inert s.bytes) → printfLoop nested fuel fmt args = some result) ∧
      ∀ printed, printfLoop nested fuel fmt args = some printed →
        printed.1.length ≤ result.1.length ∧
          (printed.1.length = result.1.length → ∀ s ∈ strings, Inert s.bytes) := by
  induction fuel generalizing fmt args result with
  | zero =>
      cases fmt with
      | nil =>
          cases isFormatted
          refine ⟨[], rfl, fun _ => rfl, ?_⟩
          rintro printed ⟨⟩
          exact ⟨Nat.le_refl _, fun _ s isIn => absurd isIn List.not_mem_nil⟩
      | cons c fmt => contradiction
  | succ fuel ih =>
      cases fmt with
      | nil =>
          cases isFormatted
          refine ⟨[], rfl, fun _ => rfl, ?_⟩
          rintro printed ⟨⟩
          exact ⟨Nat.le_refl _, fun _ s isIn => absurd isIn List.not_mem_nil⟩
      | cons c fmt =>
          by_cases isPercent : c = byteOf '%'
          · subst isPercent
            rcases isParsed : parseSpec fmt with _ | ⟨spec, rest⟩
            · simp [printfLoop, isParsed] at isFormatted
            · rw [printfLoop_percent isParsed, Option.bind_eq_some_iff] at isFormatted
              obtain ⟨⟨text, args'⟩, converted, isFormatted⟩ := isFormatted
              rw [Option.map_eq_some_iff] at isFormatted
              obtain ⟨behind, isBehind, rfl⟩ := isFormatted
              obtain ⟨strings, areStrings, same, lengths⟩ := ih isBehind
              rcases convert_cases spec args converted with
                ⟨isString, s, rfl, rfl⟩ | ⟨notString, anyNested⟩
              · refine ⟨s :: strings, ?_, ?_, ?_⟩
                · simp [stringsLoop, isParsed, converted, areStrings, isString]
                · intro allInert
                  rw [List.forall_mem_cons] at allInert
                  rw [printfLoop_percent isParsed, convert_string isString,
                    inertPrinted s.bytes allInert.1, Option.map_some, Option.bind_some,
                    same allInert.2]
                  rfl
                · intro printed isPrinted
                  rw [printfLoop_percent isParsed, convert_string isString,
                    Option.bind_eq_some_iff] at isPrinted
                  obtain ⟨⟨text, args''⟩, isText, isPrinted⟩ := isPrinted
                  rw [Option.map_eq_some_iff] at isText isPrinted
                  obtain ⟨text, isNested, ⟨⟩⟩ := isText
                  obtain ⟨printed, isPrinted, rfl⟩ := isPrinted
                  obtain ⟨le, eq⟩ := lengths printed isPrinted
                  obtain ⟨textLe, textEq⟩ := shorter s.bytes text isNested
                  simp only [List.length_append, List.forall_mem_cons]
                  exact ⟨by omega, fun sameLength => ⟨textEq (by omega), eq (by omega)⟩⟩
              · refine ⟨strings, ?_, ?_, ?_⟩
                · rcases args with _ | ⟨_ | _, args⟩ <;>
                    simp [stringsLoop, isParsed, converted, areStrings, notString]
                · intro allInert
                  rw [printfLoop_percent isParsed, anyNested, Option.bind_some, same allInert]
                  rfl
                · intro printed isPrinted
                  rw [printfLoop_percent isParsed, anyNested, Option.bind_some,
                    Option.map_eq_some_iff] at isPrinted
                  obtain ⟨printed, isPrinted, rfl⟩ := isPrinted
                  obtain ⟨le, eq⟩ := lengths printed isPrinted
                  simp only [List.length_append]
                  exact ⟨by omega, fun sameLength => eq (by omega)⟩
          · rw [printfLoop_char isPercent, Option.map_eq_some_iff] at isFormatted
            obtain ⟨behind, isBehind, rfl⟩ := isFormatted
            obtain ⟨strings, areStrings, same, lengths⟩ := ih isBehind
            refine ⟨strings, ?_, ?_, ?_⟩
            · rw [stringsLoop, if_neg isPercent, areStrings]
            · intro allInert
              rw [printfLoop_char isPercent, same allInert]
              rfl
            · intro printed isPrinted
              rw [printfLoop_char isPercent, Option.map_eq_some_iff] at isPrinted
              obtain ⟨printed, isPrinted, rfl⟩ := isPrinted
              obtain ⟨le, eq⟩ := lengths printed isPrinted
              exact ⟨Nat.succ_le_succ le, fun sameLength => eq (Nat.succ.inj sameLength)⟩

end

/-- The strings are known only if the format goes with its arguments. -/
theorem formatted_of_strings {fuel : ℕ} {fmt : List Byte} {args : List Arg}
    {strings : List CString} (areStrings : stringsLoop fuel fmt args = some strings) :
    ∃ result, printfLoop some fuel fmt args = some result := by
  induction fuel generalizing fmt args strings with
  | zero =>
      cases fmt with
      | nil => exact ⟨_, rfl⟩
      | cons c fmt => contradiction
  | succ fuel ih =>
      cases fmt with
      | nil => exact ⟨_, rfl⟩
      | cons c fmt =>
          by_cases isPercent : c = byteOf '%'
          · subst isPercent
            simp only [stringsLoop, if_true, Option.bind_eq_bind, Option.bind_eq_some_iff,
              Prod.exists] at areStrings
            obtain ⟨spec, rest, parsed, text, args', converted, later, areLater, -⟩ := areStrings
            obtain ⟨result, isResult⟩ := ih areLater
            refine ⟨(text ++ result.1, result.2), ?_⟩
            rw [printfLoop_percent parsed, converted, Option.bind_some, isResult]
            rfl
          · rw [stringsLoop, if_neg isPercent] at areStrings
            obtain ⟨result, isResult⟩ := ih areStrings
            refine ⟨(c :: result.1, result.2), ?_⟩
            rw [printfLoop_char isPercent, isResult]
            rfl

/--
A format and its arguments are printed as they should if and only if every string that the
format takes is inert.
-/
theorem verbatim_iff (depth : ℕ) (fmt : CString) (args : List Arg) :
    Verbatim (depth + 2) fmt args ↔
      ∀ taken, strings fmt args = some taken → ∀ s ∈ taken, Inert s.bytes := by
  have inertPrinted : ∀ s, Inert s → (printf (depth + 1) s []).map Prod.fst = some s := by
    intro s isInert
    rw [printf, printfLoop_inert isInert (Nat.le_refl _)]
    rfl
  have shorter : ∀ s text, (printf (depth + 1) s []).map Prod.fst = some text →
      text.length ≤ s.length ∧ (text.length = s.length → Inert s) := by
    intro s text printed
    rw [Option.map_eq_some_iff] at printed
    obtain ⟨⟨out, args'⟩, printed, rfl⟩ := printed
    exact printfLoop_shorter printed
  constructor
  · intro verbatim taken areTaken
    obtain ⟨result, isResult⟩ := formatted_of_strings areTaken
    obtain ⟨strings', areStrings, -, lengths⟩ :=
      printfLoop_formatted inertPrinted shorter isResult
    cases areTaken.symm.trans areStrings
    exact (lengths result (verbatim result isResult)).2 rfl
  · intro allInert result isResult
    obtain ⟨strings', areStrings, same, -⟩ := printfLoop_formatted inertPrinted shorter isResult
    exact same (allInert strings' areStrings)

/-- What `udp_input` prints of a datagram. -/
def udpMessage : CString := ⟨"UDP: data: '%s'
".toList.map byteOf, by decide⟩

/-- A payload with a percent sign that is doubled. -/
def percents : CString := ⟨"100%%".toList.map byteOf, by decide⟩

theorem not_verbatim_all : ¬ ∀ (depth : ℕ) (fmt : CString) (args : List Arg),
    Verbatim (depth + 2) fmt args := by
  intro all
  have printed := congrArg (Option.map Prod.fst) (all 0 udpMessage [.string percents] _ rfl)
  exact absurd printed (by decide)

end Osix.Printf
