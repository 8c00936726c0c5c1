import Osix.Basic
import Mathlib.Data.BitVec
import Mathlib.Data.Fintype.Basic
import Mathlib.Data.List.TakeWhile

/-!
# Streams of the C library

The output half of `lib/libc/stdio.c` and `lib/libc/printf.c`. A `FILE` is a buffer with a
pointer into it; `write` accepts everything, and the bytes passed to it are collected. A
store outside of the memory that the pointer belongs to is `none`, and so is a format that
does not go with its arguments.

A `char` is signed, so a byte from `0x80` on is a negative `int`: `fputc` returns it, and
`fputs` takes it for `EOF`.
-/

namespace Osix.Stdio

abbrev Word := BitVec 32

/-- `sizeof(f->buf)`. -/
def bufsiz : ℕ := 1024

def byteOf (c : Char) : Byte := BitVec.ofNat 8 c.toNat

/-- A `char` as an `int`. -/
def toInt (b : Byte) : Word := b.signExtend 32

/-- A string up to its terminating 0. -/
structure CString where
  bytes : List Byte
  noNul : ∀ b ∈ bytes, b ≠ 0

/-- A string in a buffer, up to its terminating 0. -/
def stringIn (buffer : List Byte) : CString where
  bytes := buffer.takeWhile (· ≠ 0)
  noNul := by
    intro b isIn
    simpa using List.mem_takeWhile_imp isIn

/-- The text for a null pointer. -/
def nullText : CString := ⟨"(null)".toList.map byteOf, by decide⟩

/--
A `FILE`. `buf` is the memory that `ptr` points into, with `room` bytes; `isOpen` says that
`fd` is not `-1`, and `written` are the bytes passed to `write` so far.
-/
structure File where
  isOpen : Bool
  buf : ℕ → Byte
  room : ℕ
  size : ℕ
  bufSize : ℕ
  ptr : ℕ
  inUse : Bool
  written : List Byte

namespace File

/-- What `fdopen` and `fopen` return, with a buffer of any contents. -/
def fresh (buf : ℕ → Byte) : File where
  isOpen := true
  buf := buf
  room := bufsiz
  size := 0
  bufSize := bufsiz
  ptr := 0
  inUse := true
  written := []

/-- The bytes in the buffer that are not yet written. -/
def pending (f : File) : List Byte := (List.range f.size).map f.buf

/-- `fflush`, which always returns 0 here. -/
def fflush (f : File) : File :=
  if f.isOpen then { f with ptr := 0, size := 0, written := f.written ++ f.pending } else f

/-- `*f->ptr++ = c; ++f->size`. -/
def store (f : File) (b : Byte) : Option File :=
  if f.ptr < f.room then
    some { f with buf := Function.update f.buf f.ptr b, ptr := f.ptr + 1, size := f.size + 1 }
  else
    none

def fputc (f : File) (c : Word) : Option (Word × File) := do
  let flushed := if f.bufSize ≤ f.size then f.fflush else f
  let stored ← flushed.store (c.setWidth 8)
  return (c, if c = toInt (byteOf '\n') then stored.fflush else stored)

/-- The loop of `fputs`: the count, or `EOF`. -/
def fputsLoop (count : ℕ) : List Byte → File → Option (ℤ × File)
  | [], f => some (count, f)
  | b :: rest, f => do
      let (result, f) ← f.fputc (toInt b)
      if result.toInt < 0 then return (-1, f) else fputsLoop (count + 1) rest f

def fputs (f : File) (s : Option CString) : Option (ℤ × File) :=
  fputsLoop 0 (s.getD nullText).bytes f

/-- `memcpy` to the pointer. -/
def copy : List Byte → File → Option File
  | [], f => some f
  | b :: rest, f => (f.store b).bind (copy rest)

/-- The loop of `fwrite`, which copies at most `sizeof(f->buf)` bytes at a time. -/
def fwriteLoop : ℕ → List Byte → File → Option File
  | 0, _, f => some f
  | fuel + 1, src, f =>
      if src = [] then
        some f
      else
        let flushed := if bufsiz ≤ f.size then f.fflush else f
        (flushed.copy (src.take bufsiz)).bind (fwriteLoop fuel (src.drop bufsiz))

end File

/-- The items of an `fwrite`; they are in memory, so their size is a `size_t`. -/
structure Items where
  size : ℕ
  count : ℕ
  bytes : List Byte
  notEmpty : 1 ≤ size
  isLength : bytes.length = size * count
  inMemory : size * count < 2 ^ 32

namespace File

/-- `fwrite`, which goes on until nothing is left. -/
def fwrite (f : File) (items : Items) : Option (ℕ × File) :=
  (fwriteLoop items.bytes.length items.bytes f).map fun f =>
    (items.bytes.length / items.size, f)

/-- `fclose`, which does not flush. -/
def fclose (f : File) : File := if f.inUse then { f with isOpen := false, inUse := false } else f

end File

/-! ## Formats -/

/-- An argument of `fprintf`: a number or a pointer to a string. -/
inductive Arg where
  | word (w : Word)
  | text (s : Option CString)

/-- What stands after a `%`. The `fill` is used only if there is a width. -/
structure Spec where
  long : Bool
  fill : Byte
  width : ℕ
  conv : Byte

/-- The conversion character after the flags. -/
def Spec.finish (long : Bool) (fill : Byte) (width : ℕ) : List Byte → Option (Spec × List Byte)
  | [] => none
  | c :: rest => some (⟨long, fill, width, c⟩, rest)

def isWidth (c : Byte) : Bool := byteOf '1' ≤ c ∧ c ≤ byteOf '9'

def widthOf (c : Byte) : ℕ := c.toNat - 0x30

def parseSpec : List Byte → Option (Spec × List Byte)
  | [] => none
  | c :: rest =>
      if c = byteOf 'l' then
        Spec.finish true 0 0 rest
      else if c = byteOf '0' then
        match rest with
        | [] => none
        | d :: rest' =>
            if isWidth d then Spec.finish false (byteOf '0') (widthOf d) rest'
            else some (⟨false, byteOf '0', 0, d⟩, rest')
      else if isWidth c then
        Spec.finish false (byteOf ' ') (widthOf c) rest
      else
        some (⟨false, 0, 0, c⟩, rest)

/-- What `fprintn` puts out. -/
def numberText (ul : Word) (base : ℕ) (fill : Byte) (width : ℕ) (upper : Bool) : List Byte :=
  let digits := (Nat.toDigits base ul.toNat).map fun c => byteOf (if upper then c.toUpper else c)
  List.replicate (width - digits.length) fill ++ digits

/-- A signed number: its sign counts for the width. -/
def signedText (l : Word) (fill : Byte) (width : ℕ) : List Byte :=
  if l.toInt < 0 then byteOf '-' :: numberText (-l) 10 fill (width - 1) false
  else numberText l 10 fill width false

/-- The text of a conversion of a number, and the amount it adds to `bindex`. -/
def Spec.wordText (spec : Spec) : List Arg → Option (List Byte × ℕ × List Arg)
  | args =>
      if spec.conv = byteOf '%' then
        some ([byteOf '%'], 0, args)
      else if spec.conv ∈ ['d', 'x', 'X', 'c', 'o', 'u'].map byteOf then
        match args with
        | .word w :: args' =>
            let text :=
              if spec.conv = byteOf 'd' then signedText w spec.fill spec.width
              else if spec.conv = byteOf 'x' then numberText w 16 spec.fill spec.width false
              else if spec.conv = byteOf 'X' then numberText w 16 spec.fill spec.width true
              else if spec.conv = byteOf 'c' then [w.setWidth 8 &&& 0x7f]
              else if spec.conv = byteOf 'o' then numberText w 8 spec.fill spec.width false
              else numberText w 10 spec.fill spec.width false
            some (text, text.length, args')
        | _ => none
      else
        let text := byteOf '%' :: ((if spec.long then [byteOf 'l'] else []) ++ [spec.conv])
        some (text, text.length, args)

namespace File

/-- Characters put out by `fputc` one by one, whatever it returns. -/
def emit : List Byte → File → Option File
  | [], f => some f
  | b :: rest, f => (f.fputc (toInt b)).bind fun result => emit rest result.2

/-- One conversion of `vfprintf`. -/
def convert (f : File) (spec : Spec) (args : List Arg) (bindex : ℤ) :
    Option (List Arg × ℤ × File) :=
  if spec.conv = byteOf 's' then
    match args with
    | .text s :: args' => do
        let (i, f) ← f.fputs s
        let spaces := (spec.width - i).toNat
        let f ← f.emit (List.replicate spaces (byteOf ' '))
        return (args', bindex + i + spaces, f)
    | _ => none
  else do
    let (text, count, args') ← spec.wordText args
    let f ← f.emit text
    return (args', bindex + count, f)

/-- The loop of `vfprintf`. -/
def vfprintfLoop : ℕ → List Byte → List Arg → ℤ → File → Option (ℤ × File)
  | _, [], _, bindex, f => some (bindex, f)
  | 0, _ :: _, _, _, _ => none
  | fuel + 1, c :: fmt, args, bindex, f =>
      if c = byteOf '%' then do
        let (spec, fmt) ← parseSpec fmt
        let (args, bindex, f) ← f.convert spec args bindex
        vfprintfLoop fuel fmt args bindex f
      else do
        let f ← f.emit [c]
        vfprintfLoop fuel fmt args (bindex + 1) f

/-- `vfprintf`: the count and the stream. -/
def vfprintf (f : File) (fmt : CString) (args : List Arg) : Option (ℤ × File) :=
  vfprintfLoop fmt.bytes.length fmt.bytes args 0 f

/--
`snprintf` to a block of memory of `room` bytes: the count and the stream with the block. The
stream has no descriptor and keeps the size of earlier calls.
-/
def snprintf (earlier : ℕ) (block : ℕ → Byte) (room bsize : ℕ) (fmt : CString) (args : List Arg) :
    Option (ℤ × File) := do
  let sntmpf : File := ⟨false, block, room, earlier, bsize, 0, false, []⟩
  let (count, f) ← sntmpf.vfprintf fmt args
  let last := if count < 0 then 0 else if count < bsize then count.toNat else bsize - 1
  if last < room then some (count, { f with buf := Function.update f.buf last 0 }) else none

end File

/-! ## What is given to a stream -/

/-- The text of one conversion. -/
def Spec.text (spec : Spec) (args : List Arg) : Option (List Byte × List Arg) :=
  if spec.conv = byteOf 's' then
    match args with
    | .text s :: args' =>
        let bytes := (s.getD nullText).bytes
        some (bytes ++ List.replicate (spec.width - bytes.length) (byteOf ' '), args')
    | _ => none
  else
    (spec.wordText args).map fun result => (result.1, result.2.2)

/-- The text of a format with its arguments. -/
def formatLoop : ℕ → List Byte → List Arg → Option (List Byte)
  | _, [], _ => some []
  | 0, _ :: _, _ => none
  | fuel + 1, c :: fmt, args =>
      if c = byteOf '%' then do
        let (spec, fmt) ← parseSpec fmt
        let (text, args) ← spec.text args
        let rest ← formatLoop fuel fmt args
        return text ++ rest
      else do
        let rest ← formatLoop fuel fmt args
        return c :: rest

def format (fmt : CString) (args : List Arg) : Option (List Byte) :=
  formatLoop fmt.bytes.length fmt.bytes args

/-- The calls that put something out. -/
inductive Call where
  | fputc (c : Word)
  | fputs (s : Option CString)
  | fwrite (items : Items)
  | fprintf (fmt : CString) (args : List Arg)
  | fflush

/-- The bytes that a call gives to the stream; `none` for a format without its arguments. -/
def Call.given : Call → Option (List Byte)
  | .fputc c => some [c.setWidth 8]
  | .fputs s => some (s.getD nullText).bytes
  | .fwrite items => some items.bytes
  | .fprintf fmt args => format fmt args
  | .fflush => some []

namespace File

def call (f : File) : Call → Option File
  | .fputc c => (f.fputc c).map Prod.snd
  | .fputs s => (f.fputs s).map Prod.snd
  | .fwrite items => (f.fwrite items).map Prod.snd
  | .fprintf fmt args => (f.vfprintf fmt args).map Prod.snd
  | .fflush => some f.fflush

/-- A sequence of calls. -/
def calls : File → List Call → Option File
  | f, [] => some f
  | f, first :: rest => (f.call first).bind (calls · rest)

end File

/-! ## The buffer -/

theorem setWidth_toInt (b : Byte) : (toInt b).setWidth 8 = b := by
  apply BitVec.eq_of_getLsbD_eq
  intro i inByte
  simp only [toInt, BitVec.getLsbD_setWidth, BitVec.getLsbD_signExtend]
  simp [inByte, show i < 32 by omega]

/-- Bytes from `0x80` on are negative. -/
theorem toInt_nonneg {b : Byte} : 0 ≤ (toInt b).toInt ↔ b.msb = false := by
  rw [toInt, BitVec.toInt_signExtend_of_le (by decide), BitVec.msb_eq_toInt]
  simp

namespace File

/-- The stream holds these bytes, written or in its buffer. -/
structure Holds (f : File) (bytes : List Byte) : Prop where
  isOpen : f.isOpen = true
  room : f.room = bufsiz
  bufSize : f.bufSize = bufsiz
  size : f.size ≤ bufsiz
  ptr : f.ptr = f.size
  inUse : f.inUse = true
  bytes : f.written ++ f.pending = bytes

section

variable {f : File} {bytes : List Byte}

theorem holds_fresh (buf : ℕ → Byte) : Holds (fresh buf) [] :=
  ⟨rfl, rfl, rfl, Nat.zero_le _, rfl, rfl, rfl⟩

theorem holds_fflush (holds : Holds f bytes) : Holds f.fflush bytes ∧ f.fflush.size = 0 := by
  rw [fflush, if_pos holds.isOpen]
  refine ⟨⟨holds.isOpen, holds.room, holds.bufSize, Nat.zero_le _, rfl, holds.inUse, ?_⟩, rfl⟩
  simpa [pending] using holds.bytes

/-- A store appends to what is in the buffer. -/
theorem store_spec (holds : Holds f bytes) (notFull : f.size < bufsiz) (b : Byte) :
    ∃ f', f.store b = some f' ∧ Holds f' (bytes ++ [b]) ∧ f'.size = f.size + 1 := by
  have inRoom : f.ptr < f.room := by rw [holds.ptr, holds.room]; exact notFull
  rw [store, if_pos inRoom]
  refine ⟨_, rfl, ⟨holds.isOpen, holds.room, holds.bufSize, notFull, ?_, holds.inUse, ?_⟩, rfl⟩
  · simp [holds.ptr]
  · have before : ∀ i ∈ List.range f.size, Function.update f.buf f.ptr b i = f.buf i := by
      intro i isBefore
      rw [List.mem_range] at isBefore
      apply Function.update_of_ne
      rw [holds.ptr]
      omega
    rw [← holds.bytes]
    simp only [pending, List.range_succ, List.map_append, List.map_congr_left before]
    simp [holds.ptr]

/-- The stream with a buffer that is not full, flushed if need be. -/
theorem flushed_spec (holds : Holds f bytes) :
    Holds (if bufsiz ≤ f.size then f.fflush else f) bytes ∧
      (if bufsiz ≤ f.size then f.fflush else f).size < bufsiz := by
  split
  · refine ⟨(holds_fflush holds).1, ?_⟩
    rw [(holds_fflush holds).2]
    decide
  · rename_i notFull
    exact ⟨holds, by omega⟩

theorem fputc_spec (holds : Holds f bytes) (c : Word) :
    ∃ f', f.fputc c = some (c, f') ∧ Holds f' (bytes ++ [c.setWidth 8]) := by
  rcases flushed_spec holds with ⟨holdsFlushed, notFull⟩
  rcases store_spec holdsFlushed notFull (c.setWidth 8) with ⟨stored, isStored, holdsStored, _⟩
  rw [← holds.bufSize] at isStored
  refine ⟨if c = toInt (byteOf '\n') then stored.fflush else stored, ?_, ?_⟩
  · simp only [fputc, isStored, Option.bind_eq_bind, Option.bind_some, Option.pure_def]
  split
  · exact (holds_fflush holdsStored).1
  · exact holdsStored

theorem copy_spec (src : List Byte) (holds : Holds f bytes)
    (fits : f.size + src.length ≤ bufsiz) :
    ∃ f', f.copy src = some f' ∧ Holds f' (bytes ++ src) ∧ f'.size = f.size + src.length := by
  induction src generalizing f bytes with
  | nil => exact ⟨f, rfl, by simpa using holds, rfl⟩
  | cons b src ih =>
      rw [List.length_cons] at fits
      rcases store_spec holds (by omega) b with ⟨stored, isStored, holdsStored, isSize⟩
      rcases ih holdsStored (by omega) with ⟨f', isCopy, holds', isSize'⟩
      refine ⟨f', by rw [copy, isStored, Option.bind_some, isCopy], by simpa using holds', ?_⟩
      rw [isSize', isSize, List.length_cons]
      omega

/-- There is room for the items, or the buffer is empty once it is flushed. -/
def Fits (f : File) (count : ℕ) : Prop := f.size = 0 ∨ f.size = bufsiz ∨ f.size + count ≤ bufsiz

theorem fwriteLoop_spec (fuel : ℕ) (src : List Byte) (enough : src.length ≤ fuel)
    (holds : Holds f bytes) (fits : f.Fits src.length) :
    ∃ f', fwriteLoop fuel src f = some f' ∧ Holds f' (bytes ++ src) := by
  induction fuel generalizing f bytes src with
  | zero =>
      have isNil : src = [] := List.length_eq_zero_iff.mp (by omega)
      subst isNil
      exact ⟨f, rfl, by simpa using holds⟩
  | succ fuel ih =>
      simp only [fwriteLoop]
      by_cases isNil : src = []
      · rw [if_pos isNil, isNil]
        exact ⟨f, rfl, by simpa using holds⟩
      · rw [if_neg isNil]
        have notEmpty : 0 < src.length := List.length_pos_iff.mpr isNil
        rcases flushed_spec holds with ⟨holdsFlushed, _⟩
        have fitsFlushed : (if bufsiz ≤ f.size then f.fflush else f).size +
            (src.take bufsiz).length ≤ bufsiz ∧
            ((if bufsiz ≤ f.size then f.fflush else f).size = 0 ∨ src.length ≤ bufsiz) := by
          rw [List.length_take]
          split
          · rw [(holds_fflush holds).2]
            exact ⟨by omega, Or.inl rfl⟩
          · rename_i notFull
            rcases fits with isZero | isFull | fits
            · exact ⟨by omega, Or.inl isZero⟩
            · omega
            · exact ⟨by omega, Or.inr (by omega)⟩
        rcases copy_spec (src.take bufsiz) holdsFlushed fitsFlushed.1 with
          ⟨copied, isCopied, holdsCopied, isSize⟩
        rw [isCopied, Option.bind_some]
        have shorter : (src.drop bufsiz).length ≤ fuel := by
          rw [List.length_drop, bufsiz]
          omega
        have fitsNext : copied.Fits (src.drop bufsiz).length := by
          rw [Fits, isSize, List.length_drop, List.length_take]
          rcases fitsFlushed.2 with isZero | short
          · rw [isZero]
            omega
          · have below := fitsFlushed.1
            rw [List.length_take] at below
            omega
        rcases ih (src.drop bufsiz) shorter holdsCopied fitsNext with ⟨f', isLoop, holds'⟩
        refine ⟨f', isLoop, ?_⟩
        rwa [List.append_assoc, List.take_append_drop] at holds'

end

/-! ## Formatted output -/

/--
A stream that takes characters: `holds` says which ones it has taken, and it takes one more
as long as they are `ok`.
-/
structure Sink (holds : File → List Byte → Prop) (ok : List Byte → Prop) : Prop where
  put : ∀ f bytes c, holds f bytes → ok (bytes ++ [c.setWidth 8]) →
    ∃ f', f.fputc c = some (c, f') ∧ holds f' (bytes ++ [c.setWidth 8])
  shorter : ∀ before after, ok (before ++ after) → ok before

theorem sink_holds : Sink Holds fun _ => True :=
  ⟨fun _ _ c holds _ => fputc_spec holds c, fun _ _ _ => trivial⟩

/-- The characters of the string but the last are not negative. -/
def PlainButLast (text : List Byte) : Prop := ∀ b ∈ text.dropLast, b.msb = false

/-- The strings among the arguments have no negative characters. -/
def PlainArgs (args : List Arg) : Prop :=
  ∀ s, .text s ∈ args → ∀ b ∈ (s.getD nullText).bytes, b.msb = false

section

variable {f : File} {bytes : List Byte} {Has : File → List Byte → Prop} {ok : List Byte → Prop}

theorem Sink.putChar (sink : Sink Has ok) (has : Has f bytes) (b : Byte) (after : List Byte)
    (isOk : ok (bytes ++ b :: after)) :
    ∃ f', f.fputc (toInt b) = some (toInt b, f') ∧ Has f' (bytes ++ [b]) := by
  rw [List.append_cons] at isOk
  have putOne := sink.put f bytes (toInt b) has
  rw [setWidth_toInt] at putOne
  exact putOne (sink.shorter _ _ isOk)

theorem Sink.emit (sink : Sink Has ok) (text : List Byte) (has : Has f bytes)
    (isOk : ok (bytes ++ text)) : ∃ f', f.emit text = some f' ∧ Has f' (bytes ++ text) := by
  induction text generalizing f bytes with
  | nil => exact ⟨f, rfl, by simpa using has⟩
  | cons b text ih =>
      rcases sink.putChar has b text isOk with ⟨put, isPut, hasPut⟩
      rw [List.append_cons] at isOk ⊢
      rcases ih hasPut isOk with ⟨f', isEmit, has'⟩
      exact ⟨f', by rw [File.emit, isPut, Option.bind_some, isEmit], has'⟩

theorem Sink.fputsLoop (sink : Sink Has ok) (text : List Byte) (count : ℕ) (has : Has f bytes)
    (isOk : ok (bytes ++ text)) (plain : PlainButLast text) :
    ∃ result f', fputsLoop count text f = some (result, f') ∧ Has f' (bytes ++ text) ∧
      ((∀ b ∈ text, b.msb = false) → result = count + text.length) := by
  induction text generalizing f bytes count with
  | nil => exact ⟨count, f, rfl, by simpa using has, fun _ => by simp⟩
  | cons b text ih =>
      rcases sink.putChar has b text isOk with ⟨put, isPut, hasPut⟩
      rw [List.append_cons] at isOk ⊢
      simp only [File.fputsLoop, isPut, Option.bind_eq_bind, Option.bind_some]
      by_cases negative : (toInt b).toInt < 0
      · -- `fputs` gives up here, so nothing may be left
        rw [if_pos negative]
        have notPlain : b.msb ≠ false := fun msb => by
          have := toInt_nonneg.mpr msb
          omega
        have isLast : text = [] := by
          cases text with
          | nil => rfl
          | cons next rest => exact absurd (plain b (by simp)) notPlain
        subst isLast
        refine ⟨-1, put, rfl, by simpa using hasPut, ?_⟩
        intro allPlain
        exact absurd (allPlain b List.mem_cons_self) notPlain
      · rw [if_neg negative]
        have plainRest : PlainButLast text := by
          intro c isIn
          apply plain
          cases text with
          | nil => cases isIn
          | cons next rest => exact List.mem_cons_of_mem b isIn
        rcases ih (count + 1) hasPut isOk plainRest with ⟨result, f', isLoop, has', isCount⟩
        refine ⟨result, f', isLoop, has', ?_⟩
        intro allPlain
        rw [isCount fun c isIn => allPlain c (List.mem_cons_of_mem b isIn), List.length_cons]
        push_cast
        omega

theorem Sink.fputs (sink : Sink Has ok) (s : Option CString) (has : Has f bytes)
    (isOk : ok (bytes ++ (s.getD nullText).bytes)) (plain : PlainButLast (s.getD nullText).bytes) :
    ∃ result f', f.fputs s = some (result, f') ∧
      Has f' (bytes ++ (s.getD nullText).bytes) ∧
      ((∀ b ∈ (s.getD nullText).bytes, b.msb = false) →
        result = (s.getD nullText).bytes.length) := by
  rcases sink.fputsLoop _ 0 has isOk plain with ⟨result, f', isLoop, has', isCount⟩
  exact ⟨result, f', isLoop, has', fun allPlain => by simpa using isCount allPlain⟩

theorem wordText_args {spec : Spec} {args args' : List Arg} {text : List Byte} {count : ℕ}
    (isText : spec.wordText args = some (text, count, args')) : ∀ arg ∈ args', arg ∈ args := by
  unfold Spec.wordText at isText
  split at isText
  · cases isText
    exact fun _ isIn => isIn
  · by_cases isNumber : spec.conv ∈ ['d', 'x', 'X', 'c', 'o', 'u'].map byteOf
    · rw [if_pos isNumber] at isText
      cases args with
      | nil => cases isText
      | cons arg rest =>
          cases arg with
          | word w =>
              simp only [Option.some.injEq, Prod.mk.injEq] at isText
              rcases isText with ⟨_, _, rfl⟩
              exact fun _ isIn => List.mem_cons_of_mem _ isIn
          | text s => cases isText
    · rw [if_neg isNumber] at isText
      cases isText
      exact fun _ isIn => isIn

theorem Sink.convert (sink : Sink Has ok) {spec : Spec} {args args' : List Arg} {text : List Byte} 
    (bindex : ℤ) (has : Has f bytes) (plain : PlainArgs args)
    (isText : spec.text args = some (text, args')) (isOk : ok (bytes ++ text)) :
    ∃ bindex' f', f.convert spec args bindex = some (args', bindex', f') ∧
      Has f' (bytes ++ text) ∧ PlainArgs args' := by
  unfold Spec.text at isText
  unfold File.convert
  split at isText
  · rename_i isString
    rw [if_pos isString]
    split at isText
    · rename_i s rest
      cases isText
      have allPlain := plain s List.mem_cons_self
      rw [← List.append_assoc] at isOk ⊢
      rcases sink.fputs s has (sink.shorter _ _ isOk)
        fun b isIn => allPlain b (List.mem_of_mem_dropLast isIn) with
        ⟨result, put, isPut, hasPut, isCount⟩
      have spaces : ((spec.width : ℤ) - result).toNat =
          spec.width - (s.getD nullText).bytes.length := by
        rw [isCount allPlain]
        omega
      rw [← spaces] at isOk ⊢
      rcases sink.emit _ hasPut isOk with ⟨f', isEmit, has'⟩
      simp only [isPut, Option.bind_eq_bind, Option.bind_some, isEmit, Option.pure_def]
      exact ⟨_, f', rfl, has', fun t isIn => plain t (List.mem_cons_of_mem _ isIn)⟩
    · cases isText
  · rename_i notString
    rw [if_neg notString]
    rw [Option.map_eq_some_iff] at isText
    rcases isText with ⟨⟨word, count, rest⟩, isWord, pair⟩
    cases pair
    rcases sink.emit word has isOk with ⟨f', isEmit, has'⟩
    simp only [isWord, Option.bind_eq_bind, Option.bind_some, isEmit, Option.pure_def]
    exact ⟨_, f', rfl, has', fun t isIn => plain t (wordText_args isWord _ isIn)⟩

theorem Sink.vfprintfLoop (sink : Sink Has ok) (fuel : ℕ) {fmt : List Byte} {args : List Arg} 
    (bindex : ℤ) {text : List Byte} (has : Has f bytes) (plain : PlainArgs args)
    (isText : formatLoop fuel fmt args = some text) (isOk : ok (bytes ++ text)) :
    ∃ result f', vfprintfLoop fuel fmt args bindex f = some (result, f') ∧
      Has f' (bytes ++ text) := by
  induction fuel generalizing f bytes fmt args bindex text with
  | zero =>
      cases fmt with
      | nil =>
          cases isText
          exact ⟨bindex, f, rfl, by simpa using has⟩
      | cons c fmt => cases isText
  | succ fuel ih =>
      cases fmt with
      | nil =>
          cases isText
          exact ⟨bindex, f, rfl, by simpa using has⟩
      | cons c fmt =>
          rw [formatLoop] at isText
          rw [File.vfprintfLoop]
          split at isText
          · rename_i isPercent
            rw [if_pos isPercent]
            simp only [Option.bind_eq_bind, Option.bind_eq_some_iff, Option.pure_def,
              Option.some.injEq] at isText
            rcases isText with ⟨⟨spec, rest⟩, isSpec, ⟨first, args'⟩, isFirst, last, isLast, rfl⟩
            rw [← List.append_assoc] at isOk ⊢
            rcases sink.convert bindex has plain isFirst (sink.shorter _ _ isOk) with
              ⟨bindex', middle, isConvert, hasMiddle, plain'⟩
            rcases ih bindex' hasMiddle plain' isLast isOk with ⟨result, f', isLoop, has'⟩
            refine ⟨result, f', ?_, has'⟩
            simp only [isSpec, Option.bind_eq_bind, Option.bind_some, isConvert, isLoop]
          · rename_i notPercent
            rw [if_neg notPercent]
            simp only [Option.bind_eq_bind, Option.bind_eq_some_iff, Option.pure_def,
              Option.some.injEq] at isText
            rcases isText with ⟨last, isLast, rfl⟩
            rw [List.append_cons] at isOk ⊢
            rcases sink.emit [c] has (sink.shorter _ _ isOk) with ⟨middle, isEmit, hasMiddle⟩
            rcases ih (bindex + 1) hasMiddle plain isLast isOk with ⟨result, f', isLoop, has'⟩
            refine ⟨result, f', ?_, has'⟩
            simp only [isEmit, Option.bind_eq_bind, Option.bind_some, isLoop]

end

section

variable {f : File} {bytes : List Byte}

/-! ## Calls -/

/--
What a call must heed: no string has negative characters where `fputs` does not expect
them, the items of `fwrite` fit into the buffer or meet an empty or a full one, and a format
has its arguments.
-/
def Heeds (f : File) : Call → Prop
  | .fputc _ => True
  | .fputs s => PlainButLast (s.getD nullText).bytes
  | .fwrite items => f.Fits items.bytes.length
  | .fprintf fmt args => PlainArgs args ∧ (format fmt args).isSome = true
  | .fflush => True

theorem call_spec (holds : Holds f bytes) {call : Call} (heeds : f.Heeds call) :
    ∃ f' text, f.call call = some f' ∧ call.given = some text ∧ Holds f' (bytes ++ text) := by
  cases call with
  | fputc c =>
      rcases fputc_spec holds c with ⟨f', isPut, holds'⟩
      exact ⟨f', _, by rw [File.call, isPut, Option.map_some], rfl, holds'⟩
  | fputs s =>
      rcases sink_holds.fputs s holds trivial heeds with ⟨result, f', isPut, holds', _⟩
      exact ⟨f', _, by rw [File.call, isPut, Option.map_some], rfl, holds'⟩
  | fwrite items =>
      rcases fwriteLoop_spec _ items.bytes le_rfl holds heeds with ⟨f', isLoop, holds'⟩
      refine ⟨f', _, ?_, rfl, holds'⟩
      rw [File.call, fwrite, isLoop, Option.map_some, Option.map_some]
  | fprintf fmt args =>
      rcases Option.isSome_iff_exists.mp heeds.2 with ⟨text, isText⟩
      rcases sink_holds.vfprintfLoop _ 0 holds heeds.1 isText trivial with
        ⟨result, f', isLoop, holds'⟩
      exact ⟨f', text, by rw [File.call, vfprintf, isLoop, Option.map_some], isText, holds'⟩
  | fflush => exact ⟨f.fflush, [], rfl, rfl, by simpa using (holds_fflush holds).1⟩

/-- Every call of the sequence heeds the condition where it is made. -/
def HeedsAll : File → List Call → Prop
  | _, [] => True
  | f, first :: rest => f.Heeds first ∧ ∀ f', f.call first = some f' → HeedsAll f' rest

/-- All bytes given to the stream by a sequence of calls. -/
def givenAll (calls : List Call) : List Byte := calls.flatMap fun call => call.given.getD []

theorem calls_spec (sequence : List Call) (holds : Holds f bytes) (heeds : f.HeedsAll sequence) :
    ∃ f', f.calls sequence = some f' ∧ Holds f' (bytes ++ givenAll sequence) := by
  induction sequence generalizing f bytes with
  | nil => exact ⟨f, rfl, by simpa [givenAll] using holds⟩
  | cons first rest ih =>
      rcases call_spec holds heeds.1 with ⟨middle, text, isCall, isGiven, holdsMiddle⟩
      rcases ih holdsMiddle (heeds.2 middle isCall) with ⟨f', isCalls, holds'⟩
      refine ⟨f', by rw [calls, isCall, Option.bind_some, isCalls], ?_⟩
      simpa [givenAll, isGiven] using holds'

theorem heedsAll_append (before after : List Call) (heeds : f.HeedsAll (before ++ after)) :
    f.HeedsAll before := by
  induction before generalizing f with
  | nil => trivial
  | cons first rest ih => exact ⟨heeds.1, fun f' isCall => ih (heeds.2 f' isCall)⟩

end

/--
A sequence of calls that heeds the condition and leaves nothing in the buffer: all bytes
are written, in order, and before that the buffer is never overrun.
-/
theorem output_complete (buf : ℕ → Byte) (sequence : List Call)
    (heeds : (fresh buf).HeedsAll sequence)
    (flushed : ∀ f, (fresh buf).calls sequence = some f → f.size = 0) :
    (∃ f, (fresh buf).calls sequence = some f ∧ f.fclose.written = givenAll sequence) ∧
      ∀ before after, sequence = before ++ after → ∃ f, (fresh buf).calls before = some f ∧
        f.size ≤ bufsiz ∧ f.ptr = f.size := by
  refine ⟨?_, ?_⟩
  · rcases calls_spec sequence (holds_fresh buf) heeds with ⟨f, isCalls, holds⟩
    refine ⟨f, isCalls, ?_⟩
    have isBytes := holds.bytes
    rw [pending, flushed f isCalls] at isBytes
    rw [fclose, if_pos holds.inUse]
    simpa using isBytes
  · rintro before after rfl
    rcases calls_spec before (holds_fresh buf) (heedsAll_append before after heeds) with
      ⟨f, isCalls, holds⟩
    exact ⟨f, isCalls, holds.size, holds.ptr⟩

/-! ## Lost and misplaced bytes -/

/-- Items of one byte each. -/
def itemsOf (bytes : List Byte) (inMemory : bytes.length < 2 ^ 32) : Items :=
  ⟨1, bytes.length, bytes, le_rfl, (Nat.one_mul _).symm, by rwa [Nat.one_mul]⟩

/-- Characters, a block, a format and a line. -/
def someCalls : List Call :=
  [.fputc 0x61, .fwrite (itemsOf [0x62, 0x63] (by decide)),
    .fprintf ⟨"%d%s".toList.map byteOf, by decide⟩ [.word 7, .text (some ⟨[0x78], by decide⟩)],
    .fputs none, .fflush]

theorem plainNull : PlainButLast nullText.bytes := by
  unfold PlainButLast
  decide

theorem output_complete_someCalls :
    (∃ f, (fresh fun _ => 0).calls someCalls = some f ∧
      f.fclose.written = "abc7x(null)".toList.map byteOf) := by
  have heeds : (fresh fun _ => 0).HeedsAll someCalls := by
    refine ⟨trivial, ?_⟩
    intro f isCall
    have isSize : f.size = 1 := by
      cases isCall
      decide
    refine ⟨Or.inr (Or.inr (by rw [isSize]; decide)), ?_⟩
    intro f isCall
    refine ⟨⟨?_, by decide⟩, ?_⟩
    · intro s isIn
      simp only [List.mem_cons, reduceCtorEq, Arg.text.injEq, List.not_mem_nil, or_false,
        false_or] at isIn
      subst isIn
      decide
    · intro f isCall
      exact ⟨plainNull, fun _ _ => ⟨trivial, fun _ _ => trivial⟩⟩
  have flushed : ∀ f, (fresh fun _ => 0).calls someCalls = some f → f.size = 0 := by
    have atEnd : ((fresh fun _ => 0).calls someCalls).all (fun f => f.size == 0) = true := by
      decide
    intro f isCalls
    rw [isCalls] at atEnd
    simpa using atEnd
  rcases (output_complete (fun _ => 0) someCalls heeds flushed).1 with ⟨f, isCalls, isWritten⟩
  exact ⟨f, isCalls, isWritten.trans (by decide)⟩

theorem copy_none (src : List Byte) {f : File} (tooLong : f.room < f.ptr + src.length)
    (inRoom : f.ptr ≤ f.room) : f.copy src = none := by
  induction src generalizing f with
  | nil =>
      rw [List.length_nil] at tooLong
      omega
  | cons b src ih =>
      rw [List.length_cons] at tooLong
      by_cases notFull : f.ptr < f.room
      · rw [copy, store, if_pos notFull, Option.bind_some]
        exact ih (by simp only; omega) (by simp only; omega)
      · rw [copy, store, if_neg notFull, Option.bind_none]

/-- The items that do not fit overrun the buffer. -/
theorem fwriteLoop_none {f : File} {bytes src : List Byte} (holds : Holds f bytes)
    (misfit : ¬f.Fits src.length) (fuel : ℕ) : fwriteLoop (fuel + 1) src f = none := by
  rw [Fits, not_or, not_or] at misfit
  rcases misfit with ⟨notEmpty, notFull, tooLong⟩
  have inSize := holds.size
  have isNotNil : src ≠ [] := by
    rintro rfl
    rw [List.length_nil] at tooLong
    omega
  simp only [fwriteLoop, if_neg isNotNil, if_neg (show ¬bufsiz ≤ f.size by omega)]
  rw [copy_none, Option.bind_none]
  · rw [holds.ptr, holds.room, List.length_take]
    omega
  · rw [holds.ptr, holds.room]
    exact inSize

/--
The character of an unfinished line is lost when the stream is closed, what follows a
character from `0x80` on is not written, and a large block overruns a buffer in use.
-/
theorem bytes_lost :
    (∃ f, (fresh fun _ => 0).calls [.fputc 0x61] = some f ∧
      f.fclose.written ≠ givenAll [.fputc 0x61]) ∧
    (∃ s f, (fresh fun _ => 0).calls [.fputs (some s), .fflush] = some f ∧
      f.fclose.written ≠ givenAll [.fputs (some s), .fflush]) ∧
    ∃ items, (fresh fun _ => 0).calls [.fputc 0x61, .fwrite items] = none := by
  refine ⟨⟨_, rfl, by decide⟩, ⟨⟨[0xe9, 0x61], by decide⟩, _, rfl, by decide⟩, ?_⟩
  obtain ⟨block, isLength⟩ : ∃ block : List Byte, block.length = bufsiz :=
    ⟨List.replicate bufsiz 0, List.length_replicate⟩
  refine ⟨itemsOf block (by rw [isLength]; decide), ?_⟩
  rcases fputc_spec (holds_fresh fun _ => 0) 0x61 with ⟨f, isPut, holds⟩
  have isSize : f.size = 1 := by
    cases isPut
    decide
  have misfit : ¬f.Fits block.length := by
    rw [Fits, isSize, isLength]
    decide
  have isLoop : fwriteLoop block.length block f = none := by
    rw [isLength]
    exact fwriteLoop_none holds misfit 1023
  rw [calls, File.call, isPut, Option.map_some, Option.bind_some, calls, File.call, fwrite]
  simp [itemsOf, isLoop]

end File

end Osix.Stdio
