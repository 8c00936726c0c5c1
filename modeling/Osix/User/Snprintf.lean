import Osix.User.Stdio
import Mathlib.Data.List.GetD

/-!
# Formatting to memory

`snprintf` and `vsnprintf` of `lib/libc/printf.c`. A format with its arguments is a sequence of
pieces. Of each of them the stream without a descriptor takes what is put out, the count grows
by what is counted, and both are compared with the text that the piece stands for.
-/

namespace Osix.Stdio

/-- The padding of strings. -/
def space : Byte := byteOf ' '

/-- The text of a character or of a number, the piece `%%`, and a string with its width. -/
inductive Piece where
  | text (bytes : List Byte)
  | percent
  | string (s : List Byte) (width : ℕ)

namespace Piece

/-- The text that a piece stands for. -/
def formatted : Piece → List Byte
  | text bytes => bytes
  | percent => [byteOf '%']
  | string s width => s ++ List.replicate (width - s.length) space

/-- The string up to its first negative character, which `fputs` takes for `EOF`. -/
def putPart : List Byte → List Byte
  | [] => []
  | b :: s => if b.msb then [b] else b :: putPart s

/-- What is put out: `fputs` returns `-1` for a string that it has not put out to its end. -/
def emitted : Piece → List Byte
  | text bytes => bytes
  | percent => [byteOf '%']
  | string s width =>
      putPart s ++ List.replicate (if s.any BitVec.msb then width + 1 else width - s.length) space

/-- What is added to the count, to which `%%` adds nothing. -/
def counted : Piece → ℕ
  | text bytes => bytes.length
  | percent => 0
  | string s width => if s.any BitVec.msb then width else max s.length width

/-- The piece is no string with negative characters. -/
def Plain : Piece → Prop
  | string s _ => ∀ b ∈ s, b.msb = false
  | _ => True

end Piece

/-- The piece of a conversion. -/
def Spec.piece (spec : Spec) (args : List Arg) : Option (Piece × List Arg) :=
  if spec.conv = byteOf 's' then
    match args with
    | .text s :: args' => some (.string (s.getD nullText).bytes spec.width, args')
    | _ => none
  else if spec.conv = byteOf '%' then
    some (.percent, args)
  else
    (spec.wordText args).map fun result => (.text result.1, result.2.2)

/-- The pieces of a format with its arguments. -/
def piecesLoop : ℕ → List Byte → List Arg → Option (List Piece)
  | _, [], _ => some []
  | 0, _ :: _, _ => none
  | fuel + 1, c :: fmt, args =>
      if c = byteOf '%' then do
        let (spec, fmt) ← parseSpec fmt
        let (piece, args) ← spec.piece args
        let rest ← piecesLoop fuel fmt args
        return piece :: rest
      else do
        let rest ← piecesLoop fuel fmt args
        return .text [c] :: rest

def pieces (fmt : CString) (args : List Arg) : Option (List Piece) :=
  piecesLoop fmt.bytes.length fmt.bytes args

def formattedAll (ps : List Piece) : List Byte := ps.flatMap Piece.formatted

def emittedAll (ps : List Piece) : List Byte := ps.flatMap Piece.emitted

def countedAll (ps : List Piece) : ℕ := (ps.map Piece.counted).sum

/-! ## The text of a format -/

/-- The count of a conversion of a number is the length of its text. -/
theorem wordText_count {spec : Spec} {args args' : List Arg} {text : List Byte} {count : ℕ}
    (notPercent : spec.conv ≠ byteOf '%')
    (isText : spec.wordText args = some (text, count, args')) : count = text.length := by
  unfold Spec.wordText at isText
  rw [if_neg notPercent] at isText
  split at isText
  · split at isText
    · cases isText
      rfl
    · cases isText
  · cases isText
    rfl

theorem wordText_percent {spec : Spec} (args : List Arg) (isPercent : spec.conv = byteOf '%') :
    spec.wordText args = some ([byteOf '%'], 0, args) := by
  unfold Spec.wordText
  rw [if_pos isPercent]

theorem text_eq (spec : Spec) (args : List Arg) :
    spec.text args = (spec.piece args).map fun result => (result.1.formatted, result.2) := by
  unfold Spec.text Spec.piece
  split
  · cases args with
    | nil => rfl
    | cons arg args' =>
        cases arg with
        | word w => rfl
        | text s => rfl
  · split
    · rename_i isPercent
      rw [wordText_percent args isPercent]
      rfl
    · rw [Option.map_map]
      rfl

theorem formatLoop_eq (fuel : ℕ) (fmt : List Byte) (args : List Arg) :
    formatLoop fuel fmt args = (piecesLoop fuel fmt args).map formattedAll := by
  induction fuel generalizing fmt args with
  | zero =>
      cases fmt with
      | nil => rfl
      | cons c fmt => rfl
  | succ fuel ih =>
      cases fmt with
      | nil => rfl
      | cons c fmt =>
          rw [formatLoop, piecesLoop]
          split
          · rcases parseSpec fmt with _ | ⟨spec, fmt'⟩
            · rfl
            · simp only [Option.bind_eq_bind, Option.bind_some, text_eq]
              rcases spec.piece args with _ | ⟨piece, args'⟩
              · rfl
              · simp only [Option.map_some, Option.bind_some, ih]
                rcases piecesLoop fuel fmt' args' with _ | rest
                · rfl
                · rfl
          · rw [ih]
            rcases piecesLoop fuel fmt args with _ | rest
            · rfl
            · rfl

/-! ## A stream without a descriptor -/

namespace File

theorem store_isOpen {f f' : File} {b : Byte} (isStore : f.store b = some f') :
    f'.isOpen = f.isOpen := by
  rw [store] at isStore
  split at isStore
  · cases isStore
    rfl
  · cases isStore

theorem copy_isOpen {text : List Byte} {f f' : File} (isCopy : f.copy text = some f') :
    f'.isOpen = f.isOpen := by
  induction text generalizing f with
  | nil =>
      cases isCopy
      rfl
  | cons b text ih =>
      rw [copy, Option.bind_eq_some_iff] at isCopy
      rcases isCopy with ⟨stored, isStore, isRest⟩
      exact (ih isRest).trans (store_isOpen isStore)

theorem copy_append (text text' : List Byte) (f : File) :
    f.copy (text ++ text') = (f.copy text).bind (copy text') := by
  induction text generalizing f with
  | nil => rfl
  | cons b text ih =>
      rw [List.cons_append, copy, copy, Option.bind_assoc]
      congr 1
      funext stored
      exact ih stored

section

variable {f : File} (isClosed : f.isOpen = false)

include isClosed

/-- Nothing is flushed, so a character is just stored. -/
theorem fputc_closed (c : Word) :
    f.fputc c = (f.store (c.setWidth 8)).map fun f => (c, f) := by
  have notFlushed : f.fflush = f := by rw [fflush, if_neg (by simp [isClosed])]
  rw [fputc, notFlushed, ite_self]
  rcases isStore : f.store (c.setWidth 8) with _ | stored
  · simp
  · have isClosed' := (store_isOpen isStore).trans isClosed
    have notFlushed' : stored.fflush = stored := by rw [fflush, if_neg (by simp [isClosed'])]
    simp [notFlushed']

theorem emit_closed (text : List Byte) : f.emit text = f.copy text := by
  induction text generalizing f with
  | nil => rfl
  | cons b text ih =>
      rw [emit, copy, fputc_closed isClosed, setWidth_toInt]
      rcases isStore : f.store b with _ | stored
      · rfl
      · exact ih ((store_isOpen isStore).trans isClosed)

theorem fputsLoop_closed (text : List Byte) (count : ℕ) :
    fputsLoop count text f =
      (f.copy (Piece.putPart text)).map fun f =>
        (if text.any BitVec.msb then -1 else (count : ℤ) + text.length, f) := by
  induction text generalizing f count with
  | nil => simp [fputsLoop, Piece.putPart, copy]
  | cons b text ih =>
      rw [fputsLoop, fputc_closed isClosed, setWidth_toInt, Piece.putPart]
      by_cases negative : b.msb = true
      · have isEof : (toInt b).toInt < 0 := by
          have nonneg := @toInt_nonneg b
          rw [negative] at nonneg
          simpa using nonneg
        rcases isStore : f.store b with _ | stored
        · simp [negative, copy, isStore]
        · simp [negative, copy, isStore, isEof]
      · rw [Bool.not_eq_true] at negative
        have isChar : ¬(toInt b).toInt < 0 := Int.not_lt.mpr (toInt_nonneg.mpr negative)
        rcases isStore : f.store b with _ | stored
        · simp [negative, copy, isStore]
        · have rest := @ih stored ((store_isOpen isStore).trans isClosed) (count + 1)
          simp [negative, copy, isStore, isChar, rest, Int.add_assoc, Int.add_comm 1]

/-- What a conversion puts out and counts. -/
theorem convert_closed (spec : Spec) (args : List Arg) (bindex : ℤ) :
    f.convert spec args bindex =
      (spec.piece args).bind fun result =>
        (f.copy result.1.emitted).map fun f => (result.2, bindex + result.1.counted, f) := by
  unfold convert Spec.piece
  split
  · cases args with
    | nil => rfl
    | cons arg args' =>
        cases arg with
        | word w => rfl
        | text s =>
            simp only [fputs, fputsLoop_closed isClosed, Piece.emitted, Piece.counted,
              Option.bind_some, copy_append, Option.bind_eq_bind, Option.pure_def]
            rcases isPut : f.copy (Piece.putPart (s.getD nullText).bytes) with _ | put
            · rfl
            · have isClosed' := (copy_isOpen isPut).trans isClosed
              simp only [Option.map_some, Option.bind_some, emit_closed isClosed']
              by_cases negative : (s.getD nullText).bytes.any BitVec.msb = true
              · have spaces : ((spec.width : ℤ) - -1).toNat = spec.width + 1 := by omega
                rw [if_pos negative, if_pos negative, if_pos negative, spaces]
                change ((put.copy (List.replicate (spec.width + 1) space)).bind fun f =>
                  some (args', bindex + -1 + ((spec.width + 1 : ℕ) : ℤ), f)) = _
                rw [show bindex + -1 + ((spec.width + 1 : ℕ) : ℤ) = bindex + spec.width by omega]
                exact Option.map_eq_bind.symm
              · rw [if_neg negative, if_neg negative, if_neg negative]
                have spaces : ((spec.width : ℤ) -
                    ((0 : ℕ) + (s.getD nullText).bytes.length)).toNat =
                    spec.width - (s.getD nullText).bytes.length := by omega
                rw [spaces]
                change ((put.copy (List.replicate (spec.width - (s.getD nullText).bytes.length)
                  space)).bind fun f => some (args', bindex + ((0 : ℕ) +
                    (s.getD nullText).bytes.length) +
                    ((spec.width - (s.getD nullText).bytes.length : ℕ) : ℤ), f)) = _
                rw [show bindex + ((0 : ℕ) + (s.getD nullText).bytes.length) +
                  ((spec.width - (s.getD nullText).bytes.length : ℕ) : ℤ) =
                  bindex + (max (s.getD nullText).bytes.length spec.width : ℕ) by omega]
                exact Option.map_eq_bind.symm
  · by_cases isPercent : spec.conv = byteOf '%'
    · rw [if_pos isPercent, wordText_percent args isPercent]
      simp only [Option.bind_eq_bind, Option.bind_some, emit_closed isClosed, Option.pure_def]
      exact Option.map_eq_bind.symm
    · rw [if_neg isPercent]
      rcases isText : spec.wordText args with _ | ⟨text, count, args'⟩
      · rfl
      · have isCount := wordText_count isPercent isText
        subst isCount
        simp only [Option.bind_eq_bind, Option.bind_some, Option.map_some, emit_closed isClosed,
          Option.pure_def]
        exact Option.map_eq_bind.symm

/-- What a format puts out and counts, if it goes with its arguments. -/
theorem vfprintfLoop_closed (fuel : ℕ) (fmt : List Byte) (args : List Arg) (bindex : ℤ) :
    vfprintfLoop fuel fmt args bindex f =
      (piecesLoop fuel fmt args).bind fun ps =>
        (f.copy (emittedAll ps)).map fun f => (bindex + countedAll ps, f) := by
  induction fuel generalizing f fmt args bindex with
  | zero =>
      cases fmt with
      | nil => simp [vfprintfLoop, piecesLoop, emittedAll, countedAll, copy]
      | cons c fmt => rfl
  | succ fuel ih =>
      cases fmt with
      | nil => simp [vfprintfLoop, piecesLoop, emittedAll, countedAll, copy]
      | cons c fmt =>
          rw [vfprintfLoop, piecesLoop]
          split
          · rcases parseSpec fmt with _ | ⟨spec, fmt'⟩
            · rfl
            · simp only [Option.bind_eq_bind, Option.bind_some, convert_closed isClosed]
              rcases spec.piece args with _ | ⟨piece, args'⟩
              · rfl
              · simp only [Option.bind_some]
                rcases isPut : f.copy piece.emitted with _ | put
                · rcases piecesLoop fuel fmt' args' with _ | rest
                  · rfl
                  · simp [emittedAll, copy_append, isPut]
                · simp only [Option.map_some, Option.bind_some,
                    ih ((copy_isOpen isPut).trans isClosed)]
                  rcases piecesLoop fuel fmt' args' with _ | rest
                  · rfl
                  · simp [emittedAll, copy_append, isPut, countedAll, Int.add_assoc]
          · simp only [Option.bind_eq_bind, emit_closed isClosed]
            rcases isPut : f.copy [c] with _ | put
            · rcases piecesLoop fuel fmt args with _ | rest
              · rfl
              · simp only [Option.bind_none, Option.bind_some, Option.pure_def, emittedAll,
                  List.flatMap_cons, copy_append, Piece.emitted, isPut, Option.map_none]
            · simp only [Option.bind_some, ih ((copy_isOpen isPut).trans isClosed)]
              rcases piecesLoop fuel fmt args with _ | rest
              · rfl
              · simp only [Option.bind_some, Option.pure_def, emittedAll, List.flatMap_cons,
                  copy_append, Piece.emitted, isPut, countedAll, List.map_cons, List.sum_cons,
                  Piece.counted, List.length_singleton]
                push_cast
                rw [Int.add_assoc]

end

/-- What is stored in the memory of a stream. -/
theorem copy_eq (text : List Byte) {f : File} (inRoom : f.ptr + text.length ≤ f.room) :
    f.copy text = some { f with
      buf := fun i =>
        if f.ptr ≤ i ∧ i < f.ptr + text.length then text.getD (i - f.ptr) 0 else f.buf i
      ptr := f.ptr + text.length
      size := f.size + text.length } := by
  induction text generalizing f with
  | nil =>
      have nowhere : ∀ i, ¬(f.ptr ≤ i ∧ i < f.ptr + ([] : List Byte).length) := by
        intro i isThere
        rw [List.length_nil] at isThere
        omega
      simp only [copy, nowhere, if_false]
      rfl
  | cons b text ih =>
      rw [List.length_cons] at inRoom
      rw [copy, store, if_pos (by omega), Option.bind_some, ih (by simp only; omega)]
      simp only [List.length_cons, Option.some.injEq, File.mk.injEq, true_and, and_true]
      refine ⟨?_, by omega, by omega⟩
      funext i
      by_cases isFirst : i = f.ptr
      · subst isFirst
        rw [if_neg (by omega), if_pos (by omega), Function.update_self, Nat.sub_self]
        rfl
      · rw [Function.update_of_ne isFirst]
        by_cases isRest : f.ptr + 1 ≤ i ∧ i < f.ptr + 1 + text.length
        · rw [if_pos isRest, if_pos (by omega), show i - f.ptr = i - (f.ptr + 1) + 1 by omega]
          rfl
        · rw [if_neg isRest, if_neg (by omega)]

/-- `vsnprintf` with the arguments as a list; it does what `snprintf` does. -/
def vsnprintf (earlier : ℕ) (block : ℕ → Byte) (room bsize : ℕ) (fmt : CString)
    (args : List Arg) : Option (ℤ × File) := do
  let sntmpf : File := ⟨false, block, room, earlier, bsize, 0, false, []⟩
  let (count, f) ← sntmpf.vfprintf fmt args
  let last := if count < 0 then 0 else if count < bsize then count.toNat else bsize - 1
  if last < room then some (count, { f with buf := Function.update f.buf last 0 }) else none

/-- Where `snprintf` puts the terminating 0. -/
def lastPlace (count bsize : ℕ) : ℕ := if count < bsize then count else bsize - 1

/-- The stream `sntmpf` for a block of memory. -/
def sntmpf (earlier : ℕ) (block : ℕ → Byte) (room bsize : ℕ) : File :=
  ⟨false, block, room, earlier, bsize, 0, false, []⟩

variable {earlier room bsize : ℕ} {block : ℕ → Byte} {fmt : CString} {args : List Arg}
  {ps : List Piece}

theorem vfprintf_sntmpf :
    (sntmpf earlier block room bsize).vfprintf fmt args =
      (pieces fmt args).bind fun ps =>
        ((sntmpf earlier block room bsize).copy (emittedAll ps)).map fun f =>
          ((countedAll ps : ℤ), f) := by
  have isClosed : (sntmpf earlier block room bsize).isOpen = false := rfl
  simp only [vfprintf, vfprintfLoop_closed isClosed, Int.zero_add]
  rfl

theorem snprintf_unfold (isPieces : pieces fmt args = some ps) :
    snprintf earlier block room bsize fmt args =
      ((sntmpf earlier block room bsize).copy (emittedAll ps)).bind fun f =>
        if lastPlace (countedAll ps) bsize < room then
          some ((countedAll ps : ℤ),
            { f with buf := Function.update f.buf (lastPlace (countedAll ps) bsize) 0 })
        else none := by
  change ((sntmpf earlier block room bsize).vfprintf fmt args).bind _ = _
  rw [vfprintf_sntmpf, isPieces, Option.bind_some, Option.bind_map]
  congr 1
  funext f
  have isLast : (if (countedAll ps : ℤ) < 0 then 0 else if (countedAll ps : ℤ) < bsize then
      (countedAll ps : ℤ).toNat else bsize - 1) = lastPlace (countedAll ps) bsize := by
    rw [if_neg (by omega), lastPlace, Int.toNat_natCast]
    simp only [Int.ofNat_lt]
  simp only [Function.comp_apply, isLast]

/-- All that is put out is stored, and after that the terminating 0. -/
theorem snprintf_eq (isPieces : pieces fmt args = some ps)
    (fits : (emittedAll ps).length ≤ room) (inRoom : lastPlace (countedAll ps) bsize < room) :
    ∃ f : File, snprintf earlier block room bsize fmt args = some ((countedAll ps : ℤ), f) ∧
      ∀ i, f.buf i =
        if i = lastPlace (countedAll ps) bsize then 0
        else if i < (emittedAll ps).length then (emittedAll ps).getD i 0
        else block i := by
  rw [snprintf_unfold isPieces, copy_eq _ (by simpa [sntmpf] using fits), Option.bind_some,
    if_pos inRoom]
  refine ⟨_, rfl, ?_⟩
  intro i
  simp only [sntmpf, Nat.zero_le, true_and, Nat.zero_add, Nat.sub_zero, Function.update_apply]

theorem snprintf_none (isPieces : pieces fmt args = some ps)
    (tooLong : room < (emittedAll ps).length) :
    snprintf earlier block room bsize fmt args = none := by
  rw [snprintf_unfold isPieces, copy_none _ (by simpa [sntmpf] using tooLong) (Nat.zero_le _),
    Option.bind_none]

end File

/-! ## Pieces that are put out as they should be -/

/-- The length of the text is counted for this piece. -/
def Piece.Counts : Piece → Prop
  | .text _ => True
  | .percent => False
  | .string s width => (∀ b ∈ s, b.msb = false) ∨ s.length ≤ width

namespace Piece

theorem putPart_plain {s : List Byte} (plain : ∀ b ∈ s, b.msb = false) : putPart s = s := by
  induction s with
  | nil => rfl
  | cons b s ih =>
      rw [List.forall_mem_cons] at plain
      rw [putPart, plain.1, ih plain.2]
      rfl

/-- The first negative character is put out last. -/
theorem putPart_split {s : List Byte} (plain : ∀ c ∈ s, c.msb = false) {b : Byte}
    (negative : b.msb = true) (behind : List Byte) : putPart (s ++ b :: behind) = s ++ [b] := by
  induction s with
  | nil => rw [List.nil_append, putPart, if_pos negative, List.nil_append]
  | cons c s ih =>
      rw [List.forall_mem_cons] at plain
      rw [List.cons_append, putPart, plain.1, ih plain.2]
      rfl

theorem exists_negative {s : List Byte} (notPlain : ¬∀ b ∈ s, b.msb = false) :
    ∃ before b behind, s = before ++ b :: behind ∧ (∀ c ∈ before, c.msb = false) ∧
      b.msb = true := by
  induction s with
  | nil => exact absurd (fun b isIn => nomatch isIn) notPlain
  | cons b s ih =>
      by_cases negative : b.msb = true
      · exact ⟨[], b, s, rfl, fun c isIn => (nomatch isIn), negative⟩
      · rw [Bool.not_eq_true] at negative
        rw [List.forall_mem_cons, not_and] at notPlain
        rcases ih (notPlain negative) with ⟨before, c, behind, rfl, plain, isNegative⟩
        exact ⟨b :: before, c, behind, rfl, List.forall_mem_cons.mpr ⟨negative, plain⟩, isNegative⟩

theorem emitted_plain {piece : Piece} (plain : piece.Plain) : piece.emitted = piece.formatted := by
  cases piece with
  | text bytes => rfl
  | percent => rfl
  | string s width =>
      have plainBytes : ∀ b ∈ s, b.msb = false := plain
      rw [emitted, formatted, putPart_plain plain, if_neg (by simpa using plainBytes)]

theorem counted_le (piece : Piece) : piece.counted ≤ piece.formatted.length := by
  cases piece with
  | text bytes => exact le_rfl
  | percent => exact Nat.zero_le 1
  | string s width =>
      rw [counted, formatted, List.length_append, List.length_replicate]
      split <;> omega

theorem counted_eq_iff (piece : Piece) :
    piece.counted = piece.formatted.length ↔ piece.Counts := by
  cases piece with
  | text bytes => exact ⟨fun _ => trivial, fun _ => rfl⟩
  | percent => exact ⟨fun same => absurd same (by decide), fun counts => counts.elim⟩
  | string s width =>
      rw [counted, formatted, List.length_append, List.length_replicate, Counts]
      by_cases plain : ∀ b ∈ s, b.msb = false
      · rw [if_neg (by simpa using plain)]
        exact ⟨fun _ => Or.inl plain, fun _ => by omega⟩
      · rw [if_pos (by simpa using plain)]
        constructor
        · intro same
          exact Or.inr (by omega)
        · rintro (isPlain | short)
          · exact absurd isPlain plain
          · omega

/-- What is put out is at least as long as the text, and longer if the string is not plain. -/
theorem length_le_emitted {piece : Piece} (counts : piece.Counts) :
    piece.formatted.length ≤ piece.emitted.length ∧
      (piece.formatted.length = piece.emitted.length → piece.Plain) := by
  cases piece with
  | text bytes => exact ⟨le_rfl, fun _ => trivial⟩
  | percent => exact counts.elim
  | string s width =>
      by_cases plain : ∀ b ∈ s, b.msb = false
      · rw [@emitted_plain (.string s width) plain]
        exact ⟨le_rfl, fun _ => plain⟩
      · have short := counts.resolve_left plain
        rw [emitted, formatted, List.length_append, List.length_append, List.length_replicate,
          List.length_replicate, if_pos (by simpa using plain)]
        constructor <;> intros <;> omega

theorem emitted_split {s : List Byte} (plain : ∀ c ∈ s, c.msb = false) {b : Byte}
    (negative : b.msb = true) (behind : List Byte) (width : ℕ) :
    (string (s ++ b :: behind) width).emitted =
      (s ++ [b]) ++ List.replicate (width + 1) space := by
  rw [emitted, putPart_split plain negative, if_pos (by simp [negative])]

theorem exists_split {piece : Piece} (notPlain : ¬piece.Plain) :
    ∃ before b behind width, piece = .string (before ++ b :: behind) width ∧
      (∀ c ∈ before, c.msb = false) ∧ b.msb = true := by
  cases piece with
  | text bytes => exact absurd trivial notPlain
  | percent => exact absurd trivial notPlain
  | string s width =>
      rcases exists_negative notPlain with ⟨before, b, behind, rfl, plain, negative⟩
      exact ⟨before, b, behind, width, rfl, plain, negative⟩

end Piece

section

variable {ps : List Piece}

theorem formattedAll_cons (piece : Piece) (ps : List Piece) :
    formattedAll (piece :: ps) = piece.formatted ++ formattedAll ps := List.flatMap_cons

theorem emittedAll_cons (piece : Piece) (ps : List Piece) :
    emittedAll (piece :: ps) = piece.emitted ++ emittedAll ps := List.flatMap_cons

theorem formattedAll_append (ps qs : List Piece) :
    formattedAll (ps ++ qs) = formattedAll ps ++ formattedAll qs := List.flatMap_append

theorem emittedAll_append (ps qs : List Piece) :
    emittedAll (ps ++ qs) = emittedAll ps ++ emittedAll qs := List.flatMap_append

theorem emittedAll_plain (plain : ∀ p ∈ ps, p.Plain) : emittedAll ps = formattedAll ps :=
  List.flatMap_congr fun p isIn => Piece.emitted_plain (plain p isIn)

theorem countedAll_le (ps : List Piece) : countedAll ps ≤ (formattedAll ps).length := by
  induction ps with
  | nil => exact le_rfl
  | cons piece ps ih =>
      rw [formattedAll_cons, List.length_append, countedAll, List.map_cons, List.sum_cons]
      exact Nat.add_le_add piece.counted_le ih

/-- The count is the length of the text just if every piece is counted. -/
theorem countedAll_eq_iff (ps : List Piece) :
    countedAll ps = (formattedAll ps).length ↔ ∀ p ∈ ps, p.Counts := by
  induction ps with
  | nil => exact ⟨fun _ p isIn => (nomatch isIn), fun _ => rfl⟩
  | cons piece ps ih =>
      have first := piece.counted_le
      have rest := countedAll_le ps
      rw [formattedAll_cons, List.length_append, countedAll, List.map_cons, List.sum_cons,
        List.forall_mem_cons, ← ih, ← piece.counted_eq_iff]
      change piece.counted + countedAll ps = _ ↔ _
      omega

theorem length_le_emittedAll (counts : ∀ p ∈ ps, p.Counts) :
    (formattedAll ps).length ≤ (emittedAll ps).length ∧
      ((formattedAll ps).length = (emittedAll ps).length → ∀ p ∈ ps, p.Plain) := by
  induction ps with
  | nil => exact ⟨le_rfl, fun _ p isIn => nomatch isIn⟩
  | cons piece ps ih =>
      rw [List.forall_mem_cons] at counts
      have first := Piece.length_le_emitted counts.1
      have rest := ih counts.2
      rw [formattedAll_cons, emittedAll_cons, List.length_append, List.length_append,
        List.forall_mem_cons]
      exact ⟨by omega, fun same => ⟨first.2 (by omega), rest.2 (by omega)⟩⟩

/-! ## Text that is moved by spaces -/

/-- A text that does not change when spaces are put before it is all spaces. -/
theorem spaces_of_prefix {text more : List Byte} {k : ℕ} (someSpaces : 1 ≤ k)
    (isPrefix : text <+: List.replicate k space ++ (text ++ more)) : ∀ b ∈ text, b = space := by
  have atIndex : ∀ i (below : i < text.length), text[i] = space := by
    intro i
    induction i using Nat.strongRecOn with
    | ind i ih =>
        intro below
        rw [isPrefix.getElem below]
        by_cases inSpaces : i < k
        · rw [List.getElem_append_left (by simpa using inSpaces), List.getElem_replicate]
        · rw [List.getElem_append_right (by simpa using inSpaces),
            List.getElem_append_left (by rw [List.length_replicate]; omega)]
          exact ih _ (by rw [List.length_replicate]; omega) _
  intro b isIn
  rcases List.mem_iff_getElem.mp isIn with ⟨i, below, rfl⟩
  exact atIndex i below

theorem eq_replicate {text : List Byte} (spaces : ∀ b ∈ text, b = space) :
    text = List.replicate text.length space := List.eq_replicate_iff.mpr ⟨rfl, spaces⟩

/-- What follows misplaced spaces can only be spaces. -/
theorem plain_of_moved {k : ℕ} (someSpaces : 1 ≤ k)
    (isPrefix : formattedAll ps <+: List.replicate k space ++ emittedAll ps) :
    (∀ p ∈ ps, p.Plain) ∧ ∀ b ∈ formattedAll ps, b = space := by
  induction ps with
  | nil => exact ⟨fun p isIn => (nomatch isIn), fun b isIn => nomatch isIn⟩
  | cons piece ps ih =>
      rw [formattedAll_cons, emittedAll_cons] at isPrefix
      by_cases plain : piece.Plain
      · rw [Piece.emitted_plain plain] at isPrefix
        have spaces := spaces_of_prefix someSpaces ((List.prefix_append _ _).trans isPrefix)
        have moved : List.replicate k space ++ (piece.formatted ++ emittedAll ps) =
            piece.formatted ++ (List.replicate k space ++ emittedAll ps) := by
          rw [eq_replicate spaces, ← List.append_assoc, ← List.append_assoc,
            List.replicate_append_replicate, List.replicate_append_replicate, Nat.add_comm]
        rw [moved, List.prefix_append_right_inj] at isPrefix
        rcases ih isPrefix with ⟨plainRest, spacesRest⟩
        rw [List.forall_mem_cons, formattedAll_cons, List.forall_mem_append]
        exact ⟨⟨plain, plainRest⟩, spaces, spacesRest⟩
      · -- its negative character would have to be a space
        rcases Piece.exists_split plain with
          ⟨before, b, behind, width, rfl, plainFront, negative⟩
        have isFront : before ++ [b] <+:
            (Piece.string (before ++ b :: behind) width).formatted ++ formattedAll ps := by
          rw [Piece.formatted]
          simp
        rw [Piece.emitted_split plainFront negative, List.append_assoc] at isPrefix
        have isSpace := spaces_of_prefix someSpaces (isFront.trans isPrefix) b (by simp)
        rw [isSpace] at negative
        exact absurd negative (by decide)

end

/-! ## Exact results -/

/--
One string is not plain, but no longer than its width, and from its first negative character
on the text is nothing but spaces.
-/
structure Blanked (ps before : List Piece) (s : List Byte) (b : Byte) (behind : List Byte)
    (width : ℕ) (after : List Piece) : Prop where
  isPieces : ps = before ++ .string (s ++ b :: behind) width :: after
  plainBefore : ∀ p ∈ before, p.Plain
  plainAfter : ∀ p ∈ after, p.Plain
  plain : ∀ c ∈ s, c.msb = false
  negative : b.msb = true
  short : (s ++ b :: behind).length ≤ width
  spaces : ∀ c ∈ behind ++ formattedAll after, c = space

/--
There is no `%%`, and there is room for the text: for one without negative characters in its
strings, or for one that differs from such a text in a single place before nothing but spaces.
-/
def Exact (bsize : ℕ) (ps : List Piece) : Prop :=
  Piece.percent ∉ ps ∧
    ((∀ p ∈ ps, p.Plain) ∧ (formattedAll ps).length ≤ bsize ∨
      ∃ before s b behind width after, Blanked ps before s b behind width after ∧
        (formattedAll ps).length + s.length + 2 ≤ bsize)

theorem Blanked.cons {ps before : List Piece} {s : List Byte} {b : Byte} {behind : List Byte}
    {width : ℕ} {after : List Piece} (blanked : Blanked ps before s b behind width after)
    {piece : Piece} (plain : piece.Plain) :
    Blanked (piece :: ps) (piece :: before) s b behind width after := by
  refine ⟨by rw [blanked.isPieces]; rfl, ?_, blanked.plainAfter, blanked.plain, blanked.negative,
    blanked.short, blanked.spaces⟩
  rw [List.forall_mem_cons]
  exact ⟨plain, blanked.plainBefore⟩

/-- What is put out for a blanked string is its text with more spaces. -/
theorem Blanked.emitted {ps before : List Piece} {s : List Byte} {b : Byte} {behind : List Byte}
    {width : ℕ} {after : List Piece} (blanked : Blanked ps before s b behind width after) :
    emittedAll ps = formattedAll ps ++ List.replicate (s.length + 2) space := by
  have short := blanked.short
  rw [List.length_append, List.length_cons] at short
  have spaces := List.forall_mem_append.mp blanked.spaces
  have sameSpaces : List.replicate (width + 1) space ++ formattedAll after =
      behind ++ List.replicate (width - (s.length + (behind.length + 1))) space ++
        formattedAll after ++ List.replicate (s.length + 2) space := by
    rw [eq_replicate spaces.1, eq_replicate spaces.2]
    simp only [List.replicate_append_replicate, List.length_replicate]
    congr 1
    omega
  rw [blanked.isPieces, emittedAll_append, emittedAll_cons, emittedAll_plain blanked.plainBefore,
    emittedAll_plain blanked.plainAfter, Piece.emitted_split blanked.plain blanked.negative,
    formattedAll_append, formattedAll_cons, Piece.formatted, List.append_assoc, sameSpaces,
    List.length_append, List.length_cons]
  simp only [List.append_assoc, List.cons_append, List.nil_append]

theorem Blanked.counts {ps before : List Piece} {s : List Byte} {b : Byte} {behind : List Byte}
    {width : ℕ} {after : List Piece} (blanked : Blanked ps before s b behind width after)
    (noPercent : Piece.percent ∉ ps) : ∀ p ∈ ps, p.Counts := by
  intro p isIn
  cases p with
  | text bytes => trivial
  | percent => exact noPercent isIn
  | string t w =>
      rw [blanked.isPieces, List.mem_append, List.mem_cons] at isIn
      rcases isIn with isBefore | isString | isAfter
      · exact Or.inl (blanked.plainBefore _ isBefore)
      · cases isString
        exact Or.inr blanked.short
      · exact Or.inl (blanked.plainAfter _ isAfter)

/-- Pieces that are counted and put out from the beginning of the text. -/
theorem plain_or_blanked {ps : List Piece} (counts : ∀ p ∈ ps, p.Counts)
    (isPrefix : formattedAll ps <+: emittedAll ps) :
    (∀ p ∈ ps, p.Plain) ∨ ∃ before s b behind width after,
      Blanked ps before s b behind width after := by
  induction ps with
  | nil => exact Or.inl fun p isIn => nomatch isIn
  | cons piece ps ih =>
      rw [List.forall_mem_cons] at counts
      rw [formattedAll_cons, emittedAll_cons] at isPrefix
      by_cases plain : piece.Plain
      · rw [Piece.emitted_plain plain, List.prefix_append_right_inj] at isPrefix
        rcases ih counts.2 isPrefix with plainRest | ⟨before, s, b, behind, width, after, blanked⟩
        · exact Or.inl (List.forall_mem_cons.mpr ⟨plain, plainRest⟩)
        · exact Or.inr ⟨piece :: before, s, b, behind, width, after, blanked.cons plain⟩
      · right
        rcases Piece.exists_split plain with
          ⟨s, b, behind, width, rfl, plainFront, negative⟩
        have short : (s ++ b :: behind).length ≤ width :=
          counts.1.resolve_left fun plainString => plain plainString
        -- the string is put out with `s.length + 2` spaces more than its text has
        obtain ⟨tail, isTail⟩ : ∃ tail, tail = behind ++
          List.replicate (width - (s ++ b :: behind).length) space := ⟨_, rfl⟩
        have isFront : (s ++ b :: behind) ++
            List.replicate (width - (s ++ b :: behind).length) space ++ formattedAll ps =
            (s ++ [b]) ++ (tail ++ formattedAll ps) := by
          rw [isTail]
          simp only [List.append_assoc, List.cons_append, List.nil_append]
        have moreSpaces : List.replicate (width + 1) space =
            List.replicate tail.length space ++ List.replicate (s.length + 2) space := by
          rw [List.length_append, List.length_cons] at short
          rw [List.replicate_append_replicate, isTail, List.length_append, List.length_replicate,
            List.length_append, List.length_cons]
          congr 1
          omega
        rw [Piece.emitted_split plainFront negative, Piece.formatted, isFront, moreSpaces,
          List.append_assoc (s ++ [b]), List.prefix_append_right_inj] at isPrefix
        rcases isPrefix with ⟨rest, isRest⟩
        rw [List.append_assoc, List.append_assoc] at isRest
        rcases List.append_inj isRest List.length_replicate.symm with ⟨isSpaces, isMoved⟩
        rcases plain_of_moved (Nat.le_add_left 1 (s.length + 1)) ⟨rest, isMoved⟩ with
          ⟨plainAfter, spacesAfter⟩
        refine ⟨[], s, b, behind, width, ps, rfl, fun p isIn => (nomatch isIn), plainAfter,
          plainFront, negative, short, List.forall_mem_append.mpr ⟨?_, spacesAfter⟩⟩
        intro c isIn
        apply List.eq_of_mem_replicate
        rw [← isSpaces, isTail]
        exact List.mem_append_left _ isIn

/-! ## The buffer -/

namespace File

variable {earlier bsize : ℕ} {block : ℕ → Byte} {fmt : CString} {args : List Arg}
  {ps : List Piece}

/--
A call prints to a buffer as it should: nothing is stored outside of its `bsize` bytes, the
count is the length of the formatted text, and the buffer has the text as far as there is room
for it and a 0.
-/
def Prints (print : ℕ → (ℕ → Byte) → ℕ → ℕ → CString → List Arg → Option (ℤ × File))
    (earlier : ℕ) (block : ℕ → Byte) (bsize : ℕ) (fmt : CString) (args : List Arg) : Prop :=
  ∃ text, ∃ f : File, format fmt args = some text ∧
    print earlier block bsize bsize fmt args = some ((text.length : ℤ), f) ∧
    (∀ i < min text.length (bsize - 1), f.buf i = text.getD i 0) ∧
    f.buf (min text.length (bsize - 1)) = 0

theorem format_eq (isPieces : pieces fmt args = some ps) :
    format fmt args = some (formattedAll ps) := by
  rw [pieces] at isPieces
  rw [format, formatLoop_eq, isPieces, Option.map_some]

theorem lastPlace_eq {count : ℕ} (someRoom : 1 ≤ bsize) :
    lastPlace count bsize = min count (bsize - 1) := by
  rw [lastPlace]
  split <;> omega

/-- Counted pieces that are put out from the beginning of the text are printed as they should. -/
theorem prints_of_prefix (isPieces : pieces fmt args = some ps) (someRoom : 1 ≤ bsize)
    (counts : ∀ p ∈ ps, p.Counts) (fits : (emittedAll ps).length ≤ bsize)
    (isPrefix : formattedAll ps <+: emittedAll ps) :
    Prints snprintf earlier block bsize fmt args := by
  have isCount := (countedAll_eq_iff ps).mpr counts
  have isLast := @lastPlace_eq bsize (countedAll ps) someRoom
  rcases @snprintf_eq earlier bsize bsize block fmt args ps isPieces fits
    (by rw [isLast]; omega) with ⟨f, isPrint, isBuf⟩
  rw [isLast, isCount] at isBuf
  rw [isCount] at isPrint
  refine ⟨_, f, format_eq isPieces, isPrint, ?_, ?_⟩
  · intro i below
    have longer := isPrefix.length_le
    rw [isBuf, if_neg (by omega), if_pos (by omega), List.getD_eq_getElem _ _ (by omega),
      List.getD_eq_getElem _ _ (by omega), isPrefix.getElem]
  · rw [isBuf, if_pos rfl]

theorem prints_of_exact (isPieces : pieces fmt args = some ps) (someRoom : 1 ≤ bsize)
    (exact : Exact bsize ps) : Prints snprintf earlier block bsize fmt args := by
  rcases exact with ⟨noPercent, ⟨plain, fits⟩ | ⟨before, s, b, behind, width, after, blanked, fits⟩⟩
  · apply prints_of_prefix isPieces someRoom
    · intro p isIn
      cases p with
      | text bytes => trivial
      | percent => exact noPercent isIn
      | string t w => exact Or.inl (plain _ isIn)
    · rwa [emittedAll_plain plain]
    · rw [emittedAll_plain plain]
  · apply prints_of_prefix isPieces someRoom (blanked.counts noPercent)
    · rw [blanked.emitted, List.length_append, List.length_replicate]
      omega
    · rw [blanked.emitted]
      exact List.prefix_append _ _

theorem exact_of_prints (isPieces : pieces fmt args = some ps) (someRoom : 1 ≤ bsize)
    (prints : Prints snprintf earlier block bsize fmt args) : Exact bsize ps := by
  rcases prints with ⟨text, f, isText, isPrint, isFront, -⟩
  obtain rfl : formattedAll ps = text := Option.some.inj ((format_eq isPieces).symm.trans isText)
  have fits : (emittedAll ps).length ≤ bsize := by
    by_contra tooLong
    rw [snprintf_none isPieces (by omega)] at isPrint
    cases isPrint
  have isLast := @lastPlace_eq bsize (countedAll ps) someRoom
  rcases @snprintf_eq earlier bsize bsize block fmt args ps isPieces fits
    (by rw [isLast]; omega) with ⟨f', isPrint', isBuf⟩
  rw [isPrint', Option.some.injEq, Prod.mk.injEq] at isPrint
  rcases isPrint with ⟨sameCount, rfl⟩
  have isCount : countedAll ps = (formattedAll ps).length := Int.ofNat.inj sameCount
  have counts := (countedAll_eq_iff ps).mp isCount
  rcases length_le_emittedAll counts with ⟨longer, plainOf⟩
  refine ⟨fun isIn => counts _ isIn, ?_⟩
  by_cases isFull : bsize ≤ (formattedAll ps).length
  · exact Or.inl ⟨plainOf (by omega), by omega⟩
  · have isPrefix : formattedAll ps <+: emittedAll ps := by
      rw [List.prefix_iff_eq_take]
      apply List.ext_getElem
      · rw [List.length_take, Nat.min_eq_left longer]
      · intro i below _
        have inBuffer := isFront i (by omega)
        rw [isBuf, isLast, isCount, if_neg (by omega), if_pos (by omega),
          List.getD_eq_getElem _ _ (by omega), List.getD_eq_getElem _ _ below] at inBuffer
        rw [List.getElem_take, inBuffer]
    rcases plain_or_blanked counts isPrefix with
      plain | ⟨before, s, b, behind, width, after, blanked⟩
    · exact Or.inl ⟨plain, by omega⟩
    · refine Or.inr ⟨before, s, b, behind, width, after, blanked, ?_⟩
      rw [blanked.emitted, List.length_append, List.length_replicate] at fits
      omega

/--
`snprintf` and `vsnprintf` print to a buffer as they should just if the format has no `%%`, the
text is no longer than the buffer, and no string has negative characters, unless nothing but
spaces and some room are behind the first of them.
-/
theorem snprintf_prints_iff (earlier : ℕ) (block : ℕ → Byte) {fmt : CString} {args : List Arg}
    {ps : List Piece} (isPieces : pieces fmt args = some ps) {bsize : ℕ} (someRoom : 1 ≤ bsize) :
    (Prints snprintf earlier block bsize fmt args ↔ Exact bsize ps) ∧
      (Prints vsnprintf earlier block bsize fmt args ↔ Exact bsize ps) := by
  have sameCalls : vsnprintf = snprintf := rfl
  have isExact : Prints snprintf earlier block bsize fmt args ↔ Exact bsize ps :=
    ⟨exact_of_prints isPieces someRoom, prints_of_exact isPieces someRoom⟩
  exact ⟨isExact, by rw [sameCalls]; exact isExact⟩

/-- `"%d-%s"`. -/
def numberFormat : CString := ⟨"%d-%s".toList.map byteOf, by decide⟩

theorem snprintf_prints_number :
    Prints snprintf 5 (fun _ => 0x2e) 4 numberFormat
      [.word 7, .text (some ⟨[0x61, 0x62], by decide⟩)] := by
  have isPieces : pieces numberFormat [.word 7, .text (some ⟨[0x61, 0x62], by decide⟩)] =
      some [.text [0x37], .text [0x2d], .string [0x61, 0x62] 0] := by rfl
  apply (snprintf_prints_iff 5 (fun _ => 0x2e) isPieces (by decide)).1.mpr
  refine ⟨?_, Or.inl ⟨?_, by decide⟩⟩
  · simp
  · intro p isIn
    have plain : ∀ b ∈ [(0x61 : Byte), 0x62], b.msb = false := by decide
    simp only [List.mem_cons, List.not_mem_nil, or_false] at isIn
    rcases isIn with rfl | rfl | rfl
    · trivial
    · trivial
    · exact plain

/-- `"abc"`. -/
def threeChars : CString := ⟨"abc".toList.map byteOf, by decide⟩

/-- Three characters are stored though the buffer has room for two bytes. -/
theorem not_snprintf_prints : ¬ ∀ earlier block fmt args bsize,
    (format fmt args).isSome = true → 1 ≤ bsize → Prints snprintf earlier block bsize fmt args := by
  intro all
  rcases all 0 (fun _ => 0) threeChars [] 2 rfl (by decide) with ⟨text, f, -, isPrint, -⟩
  have isNone : snprintf 0 (fun _ => 0) 2 2 threeChars [] = none := rfl
  rw [isNone] at isPrint
  cases isPrint

end File

end Osix.Stdio
