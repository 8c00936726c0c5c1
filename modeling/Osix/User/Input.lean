import Osix.User.Stdio

/-!
# Buffered input

The input half of `lib/libc/stdio.c`. What can be read comes in chunks, one for each call of
`read`, of any sizes up to that of the buffer, and after the last one `read` returns 0 for
ever. Whatever the chunks are, the readers see one stream of bytes: each of them returns
what it should return of the rest of the stream, and takes just that away.
-/

namespace Osix.Stdio

/-- What one call of `read` returns. -/
structure Chunk where
  bytes : List Byte
  notEmpty : 1 ≤ bytes.length
  fits : bytes.length ≤ bufsiz

/-- A `FILE` that is read, with `_IOEOF` and the chunks to come. -/
structure Input where
  file : File
  eof : Bool
  chunks : List Chunk

namespace Input

/-- What `fdopen` returns. -/
def fresh (buf : ℕ → Byte) (chunks : List Chunk) : Input := ⟨File.fresh buf, false, chunks⟩

/-- `_filebuf`. -/
def filebuf (f : Input) : Input :=
  match f.chunks with
  | [] => { f with file := { f.file with ptr := 0, size := 0 }, eof := true }
  | chunk :: rest =>
      { f with
        file := { f.file with
          ptr := 0
          size := chunk.bytes.length
          buf := fun i => if i < chunk.bytes.length then chunk.bytes.getD i 0 else f.file.buf i }
        chunks := rest }

/-- The bytes in the buffer that are not yet read. -/
def buffered (f : Input) : List Byte :=
  (List.range f.file.size).map fun i => f.file.buf (f.file.ptr + i)

/-- So many bytes are taken from the buffer. -/
def advance (f : Input) (count : ℕ) : Input :=
  { f with file := { f.file with ptr := f.file.ptr + count, size := f.file.size - count } }

/--
The loop of `fread` for items of one byte: the count that it returns, the bytes that it has
stored, and the stream. Every turn but the last one reads something, so `fuel` is at first
the number of bytes to read.
-/
def freadLoop : ℕ → ℕ → List Byte → Input → (ℕ × List Byte) × Input
  | 0, _, got, f => ((got.length, got), f)
  | fuel + 1, total, got, f =>
      if total = 0 then
        ((got.length, got), f)
      else if f.file.size = 0 ∧ f.eof then
        ((0, got), f)
      else
        let filled := if f.file.size = 0 then filebuf { f with file := f.file.fflush } else f
        if filled.file.size = 0 then
          ((got.length, got), filled)
        else
          let segment := min total filled.file.size
          freadLoop fuel (total - segment) (got ++ filled.buffered.take segment)
            (filled.advance segment)

/-- `fread` with items of one byte. -/
def fread (f : Input) (count : ℕ) : (ℕ × List Byte) × Input := freadLoop count count [] f

/-- `fgetc`: a character, or `EOF`. -/
def fgetc (f : Input) : Option Byte × Input :=
  let ((len, stored), f) := f.fread 1
  (if len = 1 then stored.head? else none, f)

/-- The loop of `fgets`, for so many characters. -/
def fgetsLoop : ℕ → List Byte → Input → List Byte × Input
  | 0, got, f => (got, f)
  | left + 1, got, f =>
      let filled := if f.file.size = 0 then f.filebuf else f
      if filled.file.size = 0 then
        (got, filled)
      else
        let c := filled.file.buf filled.file.ptr
        if c = byteOf '\n' then (got ++ [c], filled.advance 1)
        else fgetsLoop left (got ++ [c]) (filled.advance 1)

/-- `fgets`: what it stores, and if it returns `NULL`. -/
def fgets (f : Input) (size : ℕ) : (List Byte × Bool) × Input :=
  if size = 0 then
    (([], true), f)
  else
    let (got, f) := fgetsLoop (size - 1) [] f
    ((got ++ [0], got = []), f)

end Input

/-! ## The stream -/

/-- The calls that read something. -/
inductive Read where
  | fgetc
  | fread (count : ℕ)
  | fgets (size : ℕ) (atLeast : 2 ≤ size)

/-- What a call returns and stores. -/
inductive Reply where
  | char (c : Option Byte)
  | items (count : ℕ) (stored : List Byte)
  | line (stored : List Byte) (isNull : Bool)

/-- The bytes that a call delivers. -/
def Reply.piece : Reply → List Byte
  | .char c => c.toList
  | .items count stored => stored.take count
  | .line stored isNull => if isNull then [] else stored.dropLast

/-- The call returns `EOF`, 0 or `NULL`. -/
def Reply.Failed : Reply → Prop
  | .char c => c = none
  | .items count _ => count = 0
  | .line _ isNull => isNull = true

/-- The first line, newline included, or so many characters of it. -/
def lineOf : ℕ → List Byte → List Byte
  | 0, _ => []
  | _ + 1, [] => []
  | left + 1, c :: rest => if c = byteOf '\n' then [c] else c :: lineOf left rest

/-- What a call is to return for the rest of the stream. -/
def Read.reply : Read → List Byte → Reply
  | .fgetc, rest => .char rest.head?
  | .fread count, rest => .items (min count rest.length) (rest.take count)
  | .fgets size _, rest =>
      .line (lineOf (size - 1) rest ++ [0]) (lineOf (size - 1) rest = [])

namespace Input

def read (f : Input) : Read → Reply × Input
  | .fgetc => (.char f.fgetc.1, f.fgetc.2)
  | .fread count => (.items (f.fread count).1.1 (f.fread count).1.2, (f.fread count).2)
  | .fgets size _ => (.line (f.fgets size).1.1 (f.fgets size).1.2, (f.fgets size).2)

/-- A sequence of calls, with what they return. -/
def reads : Input → List Read → List Reply × Input
  | f, [] => ([], f)
  | f, call :: calls =>
      let (reply, f) := f.read call
      let (replies, f) := f.reads calls
      (reply :: replies, f)

/-- The rest of the stream: what is in the buffer and what is to come. -/
def rest (f : Input) : List Byte := f.buffered ++ f.chunks.flatMap Chunk.bytes

/-- The end of the file was seen only if nothing is left. -/
def Ok (f : Input) : Prop := f.eof = true → f.rest = []

/-! ## The buffer -/

section

variable {f : Input}

@[simp]
theorem length_buffered (f : Input) : f.buffered.length = f.file.size := by
  simp [buffered]

theorem buffered_of_size (isEmpty : f.file.size = 0) : f.buffered = [] := by
  simp [buffered, isEmpty]

/-- What is taken from the buffer is its front. -/
theorem buffered_advance (f : Input) (count : ℕ) :
    (f.advance count).buffered = f.buffered.drop count := by
  apply List.ext_getElem
  · simp [advance, buffered]
  · intro i _ _
    simp [advance, buffered, Nat.add_assoc]

theorem rest_advance {count : ℕ} (inBuffer : count ≤ f.file.size) :
    (f.advance count).rest = f.rest.drop count := by
  rw [rest, rest, buffered_advance,
    List.drop_append_of_le_length (by rw [length_buffered]; exact inBuffer)]
  rfl

theorem take_rest {count : ℕ} (inBuffer : count ≤ f.file.size) :
    f.rest.take count = f.buffered.take count := by
  rw [rest, List.take_append_of_le_length (by rw [length_buffered]; exact inBuffer)]

/-- `_filebuf` of an empty buffer: the rest stays, and the buffer is empty only at its end. -/
theorem filebuf_spec (isEmpty : f.file.size = 0) :
    f.filebuf.rest = f.rest ∧ (f.filebuf.file.size = 0 → f.rest = []) ∧ (f.Ok → f.filebuf.Ok) := by
  rw [Ok, Ok, rest, rest, buffered_of_size isEmpty, filebuf]
  split
  · rename_i noChunk
    simp [buffered, noChunk]
  · rename_i chunk chunks isChunks
    have isBuffered : ∀ g : Input, g.file.ptr = 0 → g.file.size = chunk.bytes.length →
        (∀ i < chunk.bytes.length, g.file.buf i = chunk.bytes.getD i 0) →
        g.buffered = chunk.bytes := by
      intro g isPtr isSize isBuf
      apply List.ext_getElem
      · simp [isSize]
      · intro i inBuffered inChunk
        simp [buffered, isPtr, isBuf i inChunk, inChunk]
    rw [isBuffered _ rfl rfl fun i inChunk => if_pos inChunk, isChunks]
    refine ⟨by simp, ?_, ?_⟩
    · intro noBytes
      exact absurd chunk.notEmpty (by simp only at noBytes; omega)
    · intro ok isEof
      simpa using ok isEof

/-- Before `fread` fills an empty buffer it flushes it, which changes nothing. -/
theorem fflush_spec (isEmpty : f.file.size = 0) :
    ({ f with file := f.file.fflush } : Input).file.size = 0 ∧
      ({ f with file := f.file.fflush } : Input).rest = f.rest := by
  have isZero : f.file.fflush.size = 0 := by
    rw [File.fflush]
    split
    · rfl
    · exact isEmpty
  refine ⟨isZero, ?_⟩
  rw [rest, rest, buffered_of_size isEmpty, buffered_of_size isZero]

/-- The stream is ready to be read: its buffer is empty only at the end. -/
structure Filled (f filled : Input) : Prop where
  rest : filled.rest = f.rest
  ok : filled.Ok
  atEnd : filled.file.size = 0 → f.rest = []

theorem filled_filebuf (ok : f.Ok) (isEmpty : f.file.size = 0) : Filled f f.filebuf := by
  rcases filebuf_spec isEmpty with ⟨sameRest, atEnd, keeps⟩
  exact ⟨sameRest, keeps ok, atEnd⟩

theorem filled_fgets (ok : f.Ok) : Filled f (if f.file.size = 0 then f.filebuf else f) := by
  split
  · rename_i isEmpty
    exact filled_filebuf ok isEmpty
  · rename_i notEmpty
    exact ⟨rfl, ok, fun isEmpty => absurd isEmpty notEmpty⟩

theorem filled_fread (ok : f.Ok) :
    Filled f (if f.file.size = 0 then filebuf { f with file := f.file.fflush } else f) := by
  split
  · rename_i isEmpty
    rcases fflush_spec isEmpty with ⟨isZero, sameRest⟩
    have okFlushed : ({ f with file := f.file.fflush } : Input).Ok := by
      intro isEof
      rw [sameRest]
      exact ok isEof
    have filled := filled_filebuf okFlushed isZero
    exact ⟨filled.rest.trans sameRest, filled.ok, fun atEnd => sameRest ▸ filled.atEnd atEnd⟩
  · rename_i notEmpty
    exact ⟨rfl, ok, fun isEmpty => absurd isEmpty notEmpty⟩

/-- While something is in the buffer, the end of the file has not been seen. -/
theorem not_eof (ok : f.Ok) (notEmpty : f.file.size ≠ 0) : f.eof = false := by
  by_contra isEof
  have noRest := ok (by simpa using isEof)
  rw [rest, List.append_eq_nil_iff] at noRest
  apply notEmpty
  rw [← length_buffered, noRest.1, List.length_nil]

theorem ok_advance (ok : f.Ok) {count : ℕ} (inBuffer : count ≤ f.file.size) :
    (f.advance count).Ok := by
  intro isEof
  rw [rest_advance inBuffer, ok isEof, List.drop_nil]

/-! ## The readers -/

theorem freadLoop_spec (fuel : ℕ) {total : ℕ} (enough : total ≤ fuel) (got : List Byte) (ok : f.Ok)
    (first : f.eof = true → got = []) :
    (freadLoop fuel total got f).1 =
        (got.length + min total f.rest.length, got ++ f.rest.take total) ∧
      (freadLoop fuel total got f).2.rest = f.rest.drop total ∧
      (freadLoop fuel total got f).2.Ok := by
  induction fuel generalizing f total got with
  | zero =>
      have isZero : total = 0 := by omega
      subst isZero
      simpa [freadLoop] using ok
  | succ fuel ih =>
      simp only [freadLoop]
      by_cases isZero : total = 0
      · subst isZero
        simpa using ok
      rw [if_neg isZero]
      by_cases seen : f.file.size = 0 ∧ f.eof = true
      · -- the end was seen in an earlier call, so nothing has been read in this one
        rw [if_pos seen, ok seen.2, first seen.2]
        exact ⟨by simp, by simp, ok⟩
      rw [if_neg seen]
      have isFilled := filled_fread ok
      generalize (if f.file.size = 0 then filebuf { f with file := f.file.fflush } else f) =
        filled at isFilled
      by_cases isEmpty : filled.file.size = 0
      · rw [if_pos isEmpty]
        have atEnd := isFilled.atEnd isEmpty
        rw [isFilled.rest, atEnd]
        exact ⟨by simp, by simp, isFilled.ok⟩
      · rw [if_neg isEmpty]
        have inBuffer : min total filled.file.size ≤ filled.file.size := Nat.min_le_right _ _
        have inRest : min total filled.file.size ≤ f.rest.length := by
          rw [← isFilled.rest, rest, List.length_append, length_buffered]
          omega
        have notSeen : (filled.advance (min total filled.file.size)).eof = false :=
          show filled.eof = false from not_eof isFilled.ok isEmpty
        rcases ih (show total - min total filled.file.size ≤ fuel by omega)
          (got ++ filled.buffered.take (min total filled.file.size))
          (ok_advance isFilled.ok inBuffer) (fun isEof => by rw [notSeen] at isEof; cases isEof)
          with ⟨isResult, isRest, isOk⟩
        rw [rest_advance inBuffer, isFilled.rest] at isResult isRest
        refine ⟨isResult.trans ?_, isRest.trans ?_, isOk⟩
        · rw [← take_rest inBuffer, isFilled.rest, List.append_assoc, ← List.take_add,
            Nat.add_sub_of_le (Nat.min_le_left _ _), List.length_append, List.length_take,
            List.length_drop]
          congr 1
          omega
        · rw [List.drop_drop, Nat.add_sub_of_le (Nat.min_le_left _ _)]

theorem fread_spec (ok : f.Ok) (count : ℕ) :
    (f.fread count).1 = (min count f.rest.length, f.rest.take count) ∧
      (f.fread count).2.rest = f.rest.drop count ∧ (f.fread count).2.Ok := by
  simpa [fread] using freadLoop_spec count le_rfl [] ok fun _ => rfl

theorem fgetc_spec (ok : f.Ok) :
    f.fgetc.1 = f.rest.head? ∧ f.fgetc.2.rest = f.rest.drop 1 ∧ f.fgetc.2.Ok := by
  rcases fread_spec ok 1 with ⟨isResult, isRest, isOk⟩
  refine ⟨?_, isRest, isOk⟩
  simp only [fgetc, isResult]
  cases f.rest with
  | nil => rfl
  | cons c rest => simp

theorem fgetsLoop_spec (left : ℕ) (got : List Byte) (ok : f.Ok) :
    (fgetsLoop left got f).1 = got ++ lineOf left f.rest ∧
      (fgetsLoop left got f).2.rest = f.rest.drop (lineOf left f.rest).length ∧
      (fgetsLoop left got f).2.Ok := by
  induction left generalizing f got with
  | zero => simpa [fgetsLoop, lineOf] using ok
  | succ left ih =>
      simp only [fgetsLoop]
      have isFilled := filled_fgets ok
      generalize (if f.file.size = 0 then f.filebuf else f) = filled at isFilled
      by_cases isEmpty : filled.file.size = 0
      · rw [if_pos isEmpty]
        have atEnd := isFilled.atEnd isEmpty
        rw [isFilled.rest, atEnd]
        exact ⟨by simp [lineOf], by simp, isFilled.ok⟩
      · rw [if_neg isEmpty]
        have inBuffer : 1 ≤ filled.file.size := by omega
        have isRest : f.rest =
            filled.file.buf filled.file.ptr :: (filled.advance 1).rest := by
          rw [rest_advance inBuffer, ← isFilled.rest, ← List.take_append_drop 1 filled.rest,
            take_rest inBuffer]
          obtain ⟨size, isSize⟩ := Nat.exists_eq_add_of_le' inBuffer
          simp [buffered, isSize, List.range_succ_eq_map]
        have isOk := ok_advance isFilled.ok inBuffer
        rw [isRest]
        by_cases isNewline : filled.file.buf filled.file.ptr = byteOf '\n'
        · rw [if_pos isNewline, lineOf, if_pos isNewline]
          exact ⟨rfl, by simp, isOk⟩
        · rw [if_neg isNewline, lineOf, if_neg isNewline]
          rcases ih (got ++ [filled.file.buf filled.file.ptr]) isOk with ⟨isLine, isRest', isOk'⟩
          exact ⟨by rw [isLine]; simp, by rw [isRest']; simp, isOk'⟩

/-- A line is the front of the text. -/
theorem lineOf_append (left : ℕ) (text : List Byte) :
    lineOf left text ++ text.drop (lineOf left text).length = text := by
  induction left generalizing text with
  | zero => rfl
  | succ left ih =>
      cases text with
      | nil => rfl
      | cons c text =>
          rw [lineOf]
          split
          · rfl
          · simpa using ih text

/-- Each reader returns what it should, and takes away just what it delivers. -/
theorem read_spec (ok : f.Ok) (call : Read) :
    (f.read call).1 = call.reply f.rest ∧
      (f.read call).1.piece ++ (f.read call).2.rest = f.rest ∧ (f.read call).2.Ok := by
  cases call with
  | fgetc =>
      rcases fgetc_spec ok with ⟨isResult, isRest, isOk⟩
      refine ⟨by rw [read, isResult]; rfl, ?_, isOk⟩
      simp only [read, Reply.piece, isResult, isRest]
      cases f.rest with
      | nil => rfl
      | cons c rest => rfl
  | fread count =>
      rcases fread_spec ok count with ⟨isResult, isRest, isOk⟩
      refine ⟨by rw [read, isResult]; rfl, ?_, isOk⟩
      simp only [read, Reply.piece, isResult, isRest]
      rw [List.take_of_length_le (by rw [List.length_take]), List.take_append_drop]
  | fgets size atLeast =>
      rcases fgetsLoop_spec (size - 1) [] ok with ⟨isLine, isRest, isOk⟩
      have notZero : ¬size = 0 := by omega
      simp only [read, fgets, if_neg notZero, isLine, List.nil_append]
      refine ⟨rfl, ?_, isOk⟩
      rw [isRest, Reply.piece, List.dropLast_concat]
      split
      · rename_i isNil
        rw [decide_eq_true_eq] at isNil
        rw [isNil]
        rfl
      · exact lineOf_append (size - 1) f.rest

/-- What a sequence of calls delivers. -/
def delivered (replies : List Reply) : List Byte := replies.flatMap Reply.piece

theorem reads_spec (calls : List Read) (ok : f.Ok) :
    delivered (f.reads calls).1 ++ (f.reads calls).2.rest = f.rest ∧ (f.reads calls).2.Ok := by
  induction calls generalizing f with
  | nil => exact ⟨rfl, ok⟩
  | cons call calls ih =>
      rcases read_spec ok call with ⟨_, isRest, isOk⟩
      rcases ih isOk with ⟨isRest', isOk'⟩
      refine ⟨?_, isOk'⟩
      simp only [reads, delivered, List.flatMap_cons, List.append_assoc]
      rw [← isRest, ← isRest']
      rfl

theorem reads_append (before after : List Read) (f : Input) :
    (f.reads (before ++ after)).1 = (f.reads before).1 ++ ((f.reads before).2.reads after).1 := by
  induction before generalizing f with
  | nil => rfl
  | cons call before ih => simp [reads, ih]

end

/-- A call fails only at the end, or if nothing is asked for. -/
theorem failed_reply {call : Read} {text : List Byte} (failed : (call.reply text).Failed) :
    text = [] ∨ call = .fread 0 := by
  cases call with
  | fgetc =>
      left
      exact List.head?_eq_none_iff.mp failed
  | fread count =>
      have isZero : min count text.length = 0 := failed
      rcases Nat.eq_zero_or_pos count with rfl | some
      · exact Or.inr rfl
      · left
        apply List.length_eq_zero_iff.mp
        omega
  | fgets size atLeast =>
      left
      have isNil : lineOf (size - 1) text = [] := of_decide_eq_true failed
      obtain ⟨left, isLeft⟩ := Nat.exists_eq_add_of_le' (show 1 ≤ size - 1 by omega)
      rw [isLeft] at isNil
      cases text with
      | nil => rfl
      | cons c text =>
          rw [lineOf] at isNil
          split at isNil
          · cases isNil
          · cases isNil

/--
However the bytes are split, the calls deliver the stream from its beginning: each of them
returns what it should for the rest of the stream, and fails only at the end of it or if
nothing is asked for.
-/
theorem input_exact (buf : ℕ → Byte) (chunks : List Chunk) (calls : List Read) :
    delivered ((fresh buf chunks).reads calls).1 <+: chunks.flatMap Chunk.bytes ∧
      ∀ before call after, calls = before ++ call :: after →
        ∃ reply text, ((fresh buf chunks).reads (before ++ [call])).1 =
            ((fresh buf chunks).reads before).1 ++ [reply] ∧
          delivered ((fresh buf chunks).reads before).1 ++ text = chunks.flatMap Chunk.bytes ∧
          reply = call.reply text ∧ (reply.Failed → text = [] ∨ call = .fread 0) := by
  have ok : (fresh buf chunks).Ok := by
    intro isEof
    cases isEof
  have isRest : (fresh buf chunks).rest = chunks.flatMap Chunk.bytes := rfl
  refine ⟨?_, ?_⟩
  · rw [← isRest, ← (reads_spec calls ok).1]
    exact List.prefix_append _ _
  · rintro before call after rfl
    rcases reads_spec before ok with ⟨isBefore, isOk⟩
    have isReply := (read_spec isOk call).1
    refine ⟨call.reply _, _, ?_, isBefore, rfl, failed_reply⟩
    rw [reads_append, ← isReply]
    rfl

/-- A read of no items returns 0 though there is more to read. -/
theorem fread_zero : ∃ chunks : List Chunk, ∃ call : Read,
    ((fresh (fun _ => 0) chunks).read call).1.Failed ∧ (fresh (fun _ => 0) chunks).rest ≠ [] := by
  refine ⟨[⟨[0x61], by decide, by decide⟩], .fread 0, rfl, ?_⟩
  decide

end Input

end Osix.Stdio
