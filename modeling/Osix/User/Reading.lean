import Osix.User.Sort

/-!
# Programs that read

The loops of programs such as `while (fgets(buf, sizeof buf, f) != NULL)` and
`while ((c = getc(f)) != EOF)`: a reader is called until it fails, and something is done with what
it delivers. Whatever the chunks are in which the input comes, such a loop goes over the pieces
into which the reader cuts the text, and what each turn of it keeps holds at the end.
-/

namespace Osix.Stdio

universe u

variable {σ : Type u} {call : Read} {f : Input} {text : List Byte}

instance : (reply : Reply) → Decidable reply.Failed
  | .char c => inferInstanceAs (Decidable (c = none))
  | .items count _ => inferInstanceAs (Decidable (count = 0))
  | .line _ isNull => inferInstanceAs (Decidable (isNull = true))

/--
The loop, with so many turns at most. The body gets what is delivered and says if it leaves the
loop.
-/
def whileRead (call : Read) (body : List Byte → σ → Option (Bool × σ)) :
    ℕ → Input → σ → Option (Input × σ)
  | 0, _, _ => none
  | fuel + 1, f, s =>
      let (reply, f) := f.read call
      if reply.Failed then some (f, s)
      else do
        let (leaves, s) ← body reply.piece s
        if leaves then some (f, s) else whileRead call body fuel f s

/-- The loop. Every turn takes something away, so there are no more of them than bytes. -/
def readLoop (call : Read) (body : List Byte → σ → Option (Bool × σ)) (f : Input) (s : σ) :
    Option (Input × σ) :=
  whileRead call body (f.rest.length + 1) f s

/-- The pieces that successive calls deliver, so many at most. -/
def Read.cut (call : Read) : ℕ → List Byte → List (List Byte)
  | 0, _ => []
  | left + 1, text =>
      let piece := (call.reply text).piece
      if piece = [] then [] else piece :: call.cut left (text.drop piece.length)

/-- All pieces of a text. -/
def Read.pieces (call : Read) (text : List Byte) : List (List Byte) := call.cut text.length text

/-! ## Pieces -/

theorem failed_iff (call : Read) (text : List Byte) :
    (call.reply text).Failed ↔ (call.reply text).piece = [] := by
  cases call with
  | fgetc => cases text <;> simp [Read.reply, Reply.Failed, Reply.piece]
  | fread count =>
      simp only [Read.reply, Reply.Failed, Reply.piece, List.take_eq_nil_iff]
      constructor
      · exact Or.inl
      · rintro (none | none | none)
        · exact none
        · simp [none]
        · simp [none]
  | fgets size atLeast =>
      simp only [Read.reply, Reply.Failed, Reply.piece, decide_eq_true_eq, List.dropLast_concat]
      split
      · simp_all
      · rfl

/-- A piece is the front of the text. -/
theorem piece_append (call : Read) (text : List Byte) :
    (call.reply text).piece ++ text.drop (call.reply text).piece.length = text := by
  cases call with
  | fgetc => cases text <;> rfl
  | fread count =>
      simp only [Read.reply, Reply.piece]
      rw [List.take_of_length_le (by rw [List.length_take]), List.length_take]
      rcases Nat.le_total count text.length with below | above
      · rw [Nat.min_eq_left below, List.take_append_drop]
      · rw [Nat.min_eq_right above, List.take_of_length_le above, List.drop_length, List.append_nil]
  | fgets size atLeast =>
      simp only [Read.reply, Reply.piece, decide_eq_true_eq, List.dropLast_concat]
      split
      · rfl
      · exact Input.lineOf_append (size - 1) text

theorem length_drop_piece (some : (call.reply text).piece ≠ []) :
    (text.drop (call.reply text).piece.length).length < text.length := by
  have positive := List.length_pos_iff.mpr some
  have isText := congrArg List.length (piece_append call text)
  rw [List.length_append] at isText
  omega

/-- More than enough turns make no difference. -/
theorem Read.cut_eq {left : ℕ} (enough : text.length ≤ left) : call.cut left text =
    call.pieces text := by
  induction left using Nat.strong_induction_on generalizing text with
  | _ left ih =>
      rcases left with _ | left
      · rw [Read.pieces, Nat.le_zero.mp enough]
      · rcases isLength : text.length with _ | length
        · rw [Read.pieces, isLength, List.length_eq_zero_iff.mp isLength, Read.cut, Read.cut]
          have isNil : (call.reply []).piece = [] := by
            simpa using piece_append call []
          rw [if_pos isNil]
        · rw [Read.pieces, isLength, Read.cut, Read.cut]
          by_cases isNil : (call.reply text).piece = []
          · rw [if_pos isNil, if_pos isNil]
          · rw [if_neg isNil, if_neg isNil]
            have shorter := length_drop_piece isNil
            rw [ih left (Nat.lt_succ_self left) (by omega), ih length (by omega) (by omega)]

theorem Read.pieces_cons (some : (call.reply text).piece ≠ []) :
    call.pieces text =
      (call.reply text).piece :: call.pieces (text.drop (call.reply text).piece.length) := by
  have shorter := length_drop_piece some
  obtain ⟨left, isLength⟩ := Nat.exists_eq_add_of_le' (show 1 ≤ text.length by omega)
  rw [Read.pieces, isLength, Read.cut, if_neg some, Read.cut_eq (by omega)]

theorem Read.pieces_nil (none : (call.reply text).piece = []) : call.pieces text = [] := by
  rw [Read.pieces]
  cases text.length with
  | zero => rfl
  | succ left => rw [Read.cut, if_pos none]

/-- The pieces make up the text, unless nothing is asked for. -/
theorem Read.flatten_pieces (asks : call ≠ .fread 0) (text : List Byte) :
    (call.pieces text).flatten = text := by
  induction isLength : text.length using Nat.strong_induction_on generalizing text with
  | _ length ih =>
      by_cases isNil : (call.reply text).piece = []
      · rw [Read.pieces_nil isNil]
        rcases Input.failed_reply ((failed_iff call text).mpr isNil) with rfl | isZero
        · rfl
        · exact absurd isZero asks
      · rw [Read.pieces_cons isNil, List.flatten_cons,
          ih _ (isLength ▸ length_drop_piece isNil) _ rfl, piece_append]

theorem Read.ne_nil_of_mem_pieces {piece : List Byte} (isPiece : piece ∈ call.pieces text) :
    piece ≠ [] := by
  induction isLength : text.length using Nat.strong_induction_on generalizing text with
  | _ length ih =>
      by_cases isNil : (call.reply text).piece = []
      · rw [Read.pieces_nil isNil] at isPiece
        cases isPiece
      · rw [Read.pieces_cons isNil, List.mem_cons] at isPiece
        rcases isPiece with rfl | isPiece
        · exact isNil
        · exact ih _ (isLength ▸ length_drop_piece isNil) isPiece rfl

theorem Read.length_pieces_le (call : Read) (text : List Byte) :
    (call.pieces text).length ≤ text.length := by
  have few : ∀ left text, (call.cut left text).length ≤ left := by
    intro left
    induction left with
    | zero => exact fun _ => le_rfl
    | succ left ih =>
        intro text
        simp only [Read.cut]
        split
        · exact Nat.zero_le _
        · exact Nat.succ_le_succ (ih _)
  exact few text.length text

/-! ## The loop -/

/-- A call takes its piece away. -/
theorem rest_read (ok : f.Ok) (call : Read) :
    (f.read call).2.rest = f.rest.drop (call.reply f.rest).piece.length := by
  rcases Input.read_spec ok call with ⟨isReply, isRest, _⟩
  rw [isReply] at isRest
  apply (List.append_right_inj (call.reply f.rest).piece).mp
  rw [isRest, piece_append]

/--
What holds before the loop and is kept by every turn, holds of all pieces behind the loop; and if
a turn leaves it, then what that turn makes hold.
-/
theorem readLoop_spec (call : Read) (body : List Byte → σ → Option (Bool × σ))
    (Keeps Leaves : List (List Byte) → List (List Byte) → σ → Prop) (s : σ) (ok : f.Ok)
    (start : Keeps [] (call.pieces f.rest) s)
    (turn : ∀ done piece left s, Keeps done (piece :: left) s → ∃ leaves s',
      body piece s = some (leaves, s') ∧
        if leaves then Leaves (done ++ [piece]) left s' else Keeps (done ++ [piece]) left s') :
    ∃ f' s', readLoop call body f s = some (f', s') ∧ f'.Ok ∧
      (Keeps (call.pieces f.rest) [] s' ∨ ∃ done,
        call.pieces f.rest = done ++ call.pieces f'.rest ∧
          Leaves done (call.pieces f'.rest) s') := by
  have loop : ∀ fuel done f s, f.Ok → f.rest.length < fuel → Keeps done (call.pieces f.rest) s →
      ∃ f' s', whileRead call body fuel f s = some (f', s') ∧ f'.Ok ∧
        (Keeps (done ++ call.pieces f.rest) [] s' ∨ ∃ more,
          call.pieces f.rest = more ++ call.pieces f'.rest ∧
            Leaves (done ++ more) (call.pieces f'.rest) s') := by
    intro fuel
    induction fuel with
    | zero =>
        intro _ _ _ _ enough
        exact absurd enough (Nat.not_lt_zero _)
    | succ fuel ih =>
        intro done f s ok enough keeps
        rcases Input.read_spec ok call with ⟨isReply, _, isOk⟩
        have restDrop := rest_read ok call
        simp only [whileRead, isReply]
        by_cases isNil : (call.reply f.rest).piece = []
        · rw [if_pos ((failed_iff call f.rest).mpr isNil)]
          rw [Read.pieces_nil isNil] at keeps ⊢
          exact ⟨_, s, rfl, isOk, Or.inl (by simpa using keeps)⟩
        · rw [if_neg (mt (failed_iff call f.rest).mp isNil)]
          have shorter := length_drop_piece isNil
          rw [Read.pieces_cons isNil] at keeps ⊢
          rcases turn done _ _ s keeps with ⟨leaves, s', isBody, after⟩
          simp only [isBody, Option.bind_eq_bind, Option.bind_some]
          cases leaves with
          | true =>
              refine ⟨_, s', rfl, isOk, Or.inr ⟨[(call.reply f.rest).piece], ?_, ?_⟩⟩
              · rw [restDrop]
                rfl
              · rw [restDrop]
                exact after
          | false =>
              rw [← restDrop] at after ⊢
              rcases ih (done ++ [(call.reply f.rest).piece]) _ s' isOk
                (by rw [restDrop]; omega) after with ⟨f', s'', isLoop, isOk', outcome⟩
              refine ⟨f', s'', isLoop, isOk', ?_⟩
              rw [List.append_cons]
              rcases outcome with kept | ⟨more, isMore, left⟩
              · exact Or.inl kept
              · refine Or.inr ⟨(call.reply f.rest).piece :: more, ?_, ?_⟩
                · rw [isMore, List.cons_append]
                · rwa [List.append_cons]
  have all := loop (f.rest.length + 1) [] f s ok (Nat.lt_succ_self _) start
  simp only [List.nil_append] at all
  exact all

/-- A loop that is never left goes over all pieces. -/
theorem readLoop_all (call : Read) (body : List Byte → σ → Option (Bool × σ))
    (Keeps : List (List Byte) → σ → Prop) (s : σ) (ok : f.Ok) (start : Keeps [] s)
    (turn : ∀ done piece left s, call.pieces f.rest = done ++ piece :: left → Keeps done s →
      ∃ s', body piece s = some (false, s') ∧ Keeps (done ++ [piece]) s') :
    ∃ f' s', readLoop call body f s = some (f', s') ∧ f'.Ok ∧ Keeps (call.pieces f.rest) s' := by
  rcases readLoop_spec call body
    (fun done left s => Keeps done s ∧ call.pieces f.rest = done ++ left)
    (fun _ _ _ => False) s ok ⟨start, rfl⟩ (by
      rintro done piece left s ⟨keeps, isAll⟩
      rcases turn done piece left s isAll keeps with ⟨s', isBody, keeps'⟩
      exact ⟨false, s', isBody, keeps', by rw [isAll, List.append_cons]⟩) with
    ⟨f', s', isLoop, ok', kept | ⟨_, _, isFalse⟩⟩
  · exact ⟨f', s', isLoop, ok', kept.1⟩
  · exact isFalse.elim

/-- What every turn that succeeds keeps holds behind a loop that succeeds, if none leaves it. -/
theorem readLoop_of_some (call : Read) (body : List Byte → σ → Option (Bool × σ))
    (Keeps : List (List Byte) → σ → Prop) (s : σ) (ok : f.Ok) (start : Keeps [] s)
    (turn : ∀ done piece left s leaves s', call.pieces f.rest = done ++ piece :: left →
      Keeps done s → body piece s = some (leaves, s') →
        leaves = false ∧ Keeps (done ++ [piece]) s')
    {f' : Input} {s' : σ} (isLoop : readLoop call body f s = some (f', s')) :
    Keeps (call.pieces f.rest) s' := by
  have loop : ∀ fuel done g s, g.Ok → call.pieces f.rest = done ++ call.pieces g.rest →
      Keeps done s → whileRead call body fuel g s = some (f', s') →
        Keeps (call.pieces f.rest) s' := by
    intro fuel
    induction fuel with
    | zero =>
        intro _ _ _ _ _ _ isLoop
        cases isLoop
    | succ fuel ih =>
        intro done g s ok isAll keeps isLoop
        rcases Input.read_spec ok call with ⟨isReply, _, isOk⟩
        have restDrop := rest_read ok call
        simp only [whileRead, isReply] at isLoop
        by_cases isNil : (call.reply g.rest).piece = []
        · rw [if_pos ((failed_iff call g.rest).mpr isNil)] at isLoop
          cases isLoop
          rw [Read.pieces_nil isNil, List.append_nil] at isAll
          rwa [isAll]
        · rw [if_neg (mt (failed_iff call g.rest).mp isNil)] at isLoop
          rw [Read.pieces_cons isNil, ← restDrop] at isAll
          cases isBody : body (call.reply g.rest).piece s with
          | none =>
              rw [isBody] at isLoop
              cases isLoop
          | some next =>
              rcases turn done _ _ s next.1 next.2 isAll keeps isBody with ⟨stays, keeps'⟩
              simp only [isBody, Option.bind_eq_bind, Option.bind_some, stays, Bool.false_eq_true,
                if_false] at isLoop
              rw [List.append_cons] at isAll
              exact ih _ _ _ isOk isAll keeps' isLoop
  exact loop (f.rest.length + 1) [] f s ok rfl start isLoop

/-! ## The pieces of the readers -/

theorem Read.pieces_fgetc (text : List Byte) :
    Read.fgetc.pieces text = text.map fun c => [c] := by
  induction text with
  | nil => rfl
  | cons c text ih =>
      have isPiece : (Read.fgetc.reply (c :: text)).piece = [c] := rfl
      rw [Read.pieces_cons (by rw [isPiece]; exact List.cons_ne_nil _ _), isPiece, List.map_cons]
      exact congrArg _ ih

/-- Every piece of `fgetc` is a character. -/
theorem Read.exists_char {piece : List Byte} {done left : List (List Byte)}
    (isAll : Read.fgetc.pieces text = done ++ piece :: left) : ∃ c, piece = [c] := by
  rw [Read.pieces_fgetc] at isAll
  have isPiece : piece ∈ text.map fun c => [c] := by simp [isAll]
  rcases List.mem_map.mp isPiece with ⟨c, _, isChar⟩
  exact ⟨c, isChar.symm⟩

theorem piece_fgets {size : ℕ} (atLeast : 2 ≤ size) (text : List Byte) :
    ((Read.fgets size atLeast).reply text).piece = lineOf (size - 1) text := by
  simp only [Read.reply, Reply.piece, decide_eq_true_eq, List.dropLast_concat]
  split
  · rename_i isNil
    exact isNil.symm
  · rfl

/-- Lines that fit into the buffer are read as they are. -/
theorem Read.pieces_fgets {size : ℕ} (atLeast : 2 ≤ size) {text : List Byte}
    (short : ∀ line ∈ Sort.splitLines text, line.length < size) :
    (Read.fgets size atLeast).pieces text = Sort.splitLines text := by
  induction isLines : Sort.splitLines text generalizing text with
  | nil =>
      have isNil : lineOf (size - 1) [] = [] := by
        cases size - 1 <;> rfl
      rw [Sort.splitLines_eq_nil isLines, Read.pieces_nil ((piece_fgets atLeast []).trans isNil)]
  | cons line lines ih =>
      rw [isLines] at short
      have fits := short line List.mem_cons_self
      rcases Sort.splitLines_cons isLines (show line.length ≤ size - 1 by omega) with
        ⟨isLine, notEmpty, isBehind⟩
      have isPiece := (piece_fgets atLeast text).trans isLine
      rw [Read.pieces_cons (by rwa [isPiece]), isPiece, ih _ isBehind]
      rw [isBehind]
      exact fun other isIn => short other (List.mem_cons_of_mem _ isIn)

/-- A newline can stand at the end of a line only. -/
theorem newline_notMem_dropLast (left : ℕ) (text : List Byte) :
    byteOf '\n' ∉ (lineOf left text).dropLast := by
  induction left generalizing text with
  | zero => simp [lineOf]
  | succ left ih =>
      cases text with
      | nil => simp [lineOf]
      | cons c text =>
          rw [lineOf]
          split
          · simp
          · rename_i notNewline
            cases isLine : lineOf left text with
            | nil => simp
            | cons d line =>
                rw [List.dropLast_cons_cons, List.mem_cons, not_or, ← isLine]
                exact ⟨Ne.symm notNewline, ih text⟩

theorem Read.newline_notMem_pieces {size : ℕ} (atLeast : 2 ≤ size) {text piece : List Byte}
    (isPiece : piece ∈ (Read.fgets size atLeast).pieces text) : byteOf '\n' ∉ piece.dropLast := by
  induction isLength : text.length using Nat.strong_induction_on generalizing text with
  | _ length ih =>
      by_cases isNil : ((Read.fgets size atLeast).reply text).piece = []
      · rw [Read.pieces_nil isNil] at isPiece
        cases isPiece
      · rw [Read.pieces_cons isNil, List.mem_cons] at isPiece
        rcases isPiece with rfl | isPiece
        · rw [piece_fgets]
          exact newline_notMem_dropLast _ _
        · exact ih _ (isLength ▸ length_drop_piece isNil) isPiece rfl

/-! ## Texts -/

theorem ok_fresh (buf : ℕ → Byte) (chunks : List Chunk) : (Input.fresh buf chunks).Ok := by
  intro isEnd
  cases isEnd

/-- All characters are of seven bits, and none is 0. -/
def IsText (text : List Byte) : Prop := ∀ b ∈ text, b.msb = false ∧ b ≠ 0

/-- A stream with a text whose lines fit into a buffer. -/
structure Readable (f : Input) : Prop where
  ok : f.Ok
  isText : IsText f.rest
  short : ∀ line ∈ Sort.splitLines f.rest, line.length < bufsiz
  inMemory : f.rest.length < 2 ^ 31

theorem Readable.length_lines {f : Input} (readable : Readable f) :
    (Sort.splitLines f.rest).length < 2 ^ 31 := by
  have atLeast : 2 ≤ bufsiz := by decide
  have few := Read.length_pieces_le (.fgets bufsiz atLeast) f.rest
  rw [Read.pieces_fgets atLeast readable.short] at few
  exact few.trans_lt readable.inMemory

/-- The characters of a piece are characters of the text. -/
theorem IsText.piece (isText : IsText text) (asks : call ≠ .fread 0) {piece : List Byte}
    (isPiece : piece ∈ call.pieces text) : IsText piece := fun b isIn => isText b (by
  rw [← Read.flatten_pieces asks text]
  exact List.mem_flatten_of_mem isPiece isIn)

/-- `b` and `a` can be read. -/
theorem readable_twoLines : Readable (Input.fresh (fun _ => 0) [Sort.twoLines]) where
  ok := ok_fresh _ _
  isText := by
    have isText : ∀ b ∈ Sort.twoLines.bytes, b.msb = false ∧ b ≠ 0 := by decide
    exact isText
  short := by
    have short : ∀ line ∈ Sort.splitLines Sort.twoLines.bytes, line.length < bufsiz := by decide
    exact short
  inMemory := by
    have few : Sort.twoLines.bytes.length < 2 ^ 31 := by decide
    exact few

/-! ## Printing -/

section

variable {out : File} {bytes : List Byte}

/-- A format with one string, printed. -/
theorem call_string (holds : out.Holds bytes) {fmt s : CString} {printed : List Byte}
    (plain : Sort.Plain s.bytes) (isText : format fmt [.text (some s)] = some printed) :
    ∃ out', out.call (.fprintf fmt [.text (some s)]) = some out' ∧
      out'.Holds (bytes ++ printed) := by
  have plainArgs : File.PlainArgs [.text (some s)] := by
    intro t isIn
    rw [List.mem_singleton, Arg.text.injEq] at isIn
    subst isIn
    exact plain
  have heeds : out.Heeds (.fprintf fmt [.text (some s)]) :=
    ⟨plainArgs, by rw [isText]; rfl⟩
  rcases File.call_spec holds heeds with ⟨out', given, isCall, isGiven, holds'⟩
  rw [Call.given, isText, Option.some.injEq] at isGiven
  subst isGiven
  exact ⟨out', isCall, holds'⟩

theorem format_string (s : CString) :
    format Sort.lineFormat [.text (some s)] = some s.bytes := by
  have isFormat : format Sort.lineFormat [.text (some s)] =
      some (s.bytes ++ List.replicate (0 - s.bytes.length) (byteOf ' ') ++ []) := rfl
  rw [isFormat, Nat.zero_sub, List.replicate_zero, List.append_nil, List.append_nil]

/-- Once the output is flushed, everything is written. -/
theorem written_of_holds (holds : out.Holds bytes) : out.fflush.written = bytes := by
  rcases File.holds_fflush holds with ⟨flushed, isEmpty⟩
  have isWritten := flushed.bytes
  rw [File.pending, isEmpty] at isWritten
  simpa using isWritten

end

end Osix.Stdio
