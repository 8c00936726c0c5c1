import Osix.User.Bc
import Osix.User.Sort

/-!
# The user database

`parsepwd`, `getpwuid` and `getpwnam` of `lib/libc/getpwuid.c`. The file is loaded into a block
of memory with a 0 behind it, and the fields are cut in place: a record has pointers into the
block, here indices. What is read or stored outside of the block is `none`, and so is `atoi` of
a null pointer.
-/

namespace Osix.Passwd

open Stdio

def colon : Byte := byteOf ':'
def newline : Byte := byteOf '\n'

/-- The characters of a field. -/
def inField (c : Byte) : Bool := c ≠ colon ∧ c ≠ newline ∧ c ≠ 0

def charOf (b : Byte) : Char := Char.ofNat b.toNat

def atoi (s : List Byte) : Word := Bc.atoi (s.map charOf)

/-- The string at an index of the block. -/
def stringAt (file : List Byte) (p : ℕ) : List Byte := (file.drop p).takeWhile (· ≠ 0)

/-! ## The program -/

/-- `struct passwd`. -/
structure Entry where
  pwName : Option ℕ
  pwPasswd : Option ℕ
  pwUid : Word
  pwGid : Word
  pwGecos : Option ℕ
  pwDir : Option ℕ
  pwShell : Option ℕ

/-- The loop that counts the entries, from a pointer on. -/
def countEntries : List Byte → Option ℕ
  | [] => none
  | c :: rest =>
      if c = 0 then
        some 0
      else do
        let next ← rest.head?
        let count ← countEntries rest
        return if c = newline then count + 1 else if next = 0 then count + 1 else count

/-- The loop over the fields of an entry, with the pointers to those that it has found. -/
def readFields : ℕ → List Byte → ℕ → Option (List ℕ × List Byte × ℕ)
  | 0, file, p => some ([], file, p)
  | left + 1, file, start => do
      let p := start + ((file.drop start).takeWhile inField).length
      let op ← file[p]?
      let file := file.set p 0
      if op = newline ∨ op = 0 then
        return ([start], file, p + 1)
      else
        let (fields, file, p) ← readFields left file (p + 1)
        return (start :: fields, file, p)

/-- One entry; the pointers to the fields that are missing are null. -/
def readEntry (file : List Byte) (p : ℕ) : Option (Entry × List Byte × ℕ) := do
  let (fields, file, p) ← readFields 7 file p
  let uid ← fields[2]?
  let gid ← fields[3]?
  return (⟨fields[0]?, fields[1]?, atoi (stringAt file uid), atoi (stringAt file gid), fields[4]?,
    fields[5]?, fields[6]?⟩, file, p)

/-- The loop over the entries. -/
def readEntries : ℕ → List Byte → ℕ → Option (List Entry × List Byte)
  | 0, file, _ => some ([], file)
  | left + 1, file, p => do
      let (entry, file, p) ← readEntry file p
      let (rest, file) ← readEntries left file p
      return (entry :: rest, file)

/-- The block with the file and the records. -/
structure Database where
  file : List Byte
  passwds : List Entry

/--
`parsepwd`, for the contents of the file if it can be read. The answer `-1` is `some none`.
-/
def parsepwd : Option (List Byte) → Option (Option Database)
  | none => some none
  | some contents =>
      if contents = [] then
        some none
      else do
        let file := contents ++ [0]
        let count ← countEntries file
        let (passwds, file) ← readEntries count file 0
        return some ⟨file, passwds⟩

/-- The database as it is known, or else from the file. -/
def load (known : Option Database) (contents : Option (List Byte)) : Option (Option Database) :=
  match known with
  | some database => some (some database)
  | none => parsepwd contents

def getpwuid (known : Option Database) (contents : Option (List Byte)) (uid : BitVec 16) :
    Option (Option Entry × Option Database) := do
  match ← load known contents with
  | none => return (none, none)
  | some database =>
      return (database.passwds.find? fun entry => entry.pwUid = uid.signExtend 32, some database)

/-- `strcmp(entry.pw_name, name) == 0`. -/
def hasName (file name : List Byte) (entry : Entry) : Bool :=
  entry.pwName.any fun p => Sort.strcmp (stringAt file p) name = 0

def getpwnam (known : Option Database) (contents : Option (List Byte)) (name : CString) :
    Option (Option Entry × Option Database) := do
  match ← load known contents with
  | none => return (none, none)
  | some database =>
      return (database.passwds.find? (hasName database.file name.bytes), some database)

/-! ## What the file says -/

/-- The lines of a file, without their newlines; the last newline is optional. -/
def fileLines : List Byte → List (List Byte)
  | [] => []
  | c :: rest =>
      if c = newline then [] :: fileLines rest
      else
        match fileLines rest with
        | [] => [[c]]
        | line :: lines => (c :: line) :: lines

def fieldsOf (line : List Byte) : List (List Byte) := line.splitOn colon

/-- The value of some digits. -/
def digitsValue (digits : List Char) : ℕ :=
  digits.foldl (fun value c => value * 10 + (c.toNat - '0'.toNat)) 0

def AreDigits (digits : List Char) : Prop := digits ≠ [] ∧ ∀ c ∈ digits, Ctype.isdigit c = true

/-- The field is a decimal number with this value. -/
def Decimal (field : List Byte) (value : ℤ) : Prop :=
  AreDigits (field.map charOf) ∧ value = digitsValue (field.map charOf) ∨
    ∃ digits, field.map charOf = '-' :: digits ∧ AreDigits digits ∧ value = -digitsValue digits

/-- The places of fields with a single character behind each of them. -/
def starts : ℕ → List (List Byte) → List ℕ
  | _, [] => []
  | start, field :: fields => start :: starts (start + field.length + 1) fields

/-- The number that stands in a field of a line. -/
def NumberOf (line : List Byte) (f : ℕ) (number : Word) : Prop :=
  ∃ field, (fieldsOf line)[f]? = some field ∧ number = atoi field ∧
    ∀ value, Decimal field value → number.toInt = value

/-- The record of a line: it points to the first seven fields, each of them ended by a 0. -/
structure RecordOf (file : List Byte) (start : ℕ) (line : List Byte) (entry : Entry) : Prop where
  pointers : [entry.pwName, entry.pwPasswd, entry.pwGecos, entry.pwDir, entry.pwShell] =
    [0, 1, 4, 5, 6].map fun (f : ℕ) => (starts start ((fieldsOf line).take 7))[f]?
  texts : ∀ f p : ℕ, (starts start ((fieldsOf line).take 7))[f]? = some p →
    (fieldsOf line)[f]? = some (stringAt file p)
  uid : NumberOf line 2 entry.pwUid
  gid : NumberOf line 3 entry.pwGid

/-- One record for each line. -/
def Records (file : List Byte) : ℕ → List (List Byte) → List Entry → Prop
  | _, [], [] => True
  | start, line :: lines, entry :: entries =>
      RecordOf file start line entry ∧ Records file (start + line.length + 1) lines entries
  | _, _, _ => False

/-- Some line has this login name. -/
def HasLogin (contents name : List Byte) : Prop :=
  ∃ line ∈ fileLines contents, (fieldsOf line)[0]? = some name

/-- Some line has this uid. -/
def HasUid (contents : List Byte) (uid : BitVec 16) : Prop :=
  ∃ line ∈ fileLines contents, NumberOf line 2 (uid.signExtend 32)

/--
The file is parsed as it should be: there is one record for each line, and the functions find
only records of lines with that name or uid, whether they load the file or know it already.
-/
def Parsed (contents : List Byte) : Prop :=
  ∃ database, parsepwd (some contents) = some (some database) ∧
    Records database.file 0 (fileLines contents) database.passwds ∧
    ∀ known, known = none ∨ known = some database →
      (∀ name entry next, getpwnam known (some contents) name = some (some entry, next) →
        HasLogin contents name.bytes) ∧
      ∀ uid entry next, getpwuid known (some contents) uid = some (some entry, next) →
        HasUid contents uid

/-- No zero byte is in the first seven fields, and the uid and the gid are in range. -/
structure Clean (line : List Byte) : Prop where
  noNul : ∀ field ∈ (fieldsOf line).take 7, (0 : Byte) ∉ field
  inRange : ∀ f ∈ [2, 3], ∀ field, (fieldsOf line)[f]? = some field →
    ∀ value, Decimal field value → -2 ^ 31 ≤ value ∧ value < 2 ^ 31

/-- All lines are clean, and those before the last one have no more than seven fields. -/
structure Regular (lines : List (List Byte)) : Prop where
  clean : ∀ line ∈ lines, Clean line
  short : ∀ line ∈ lines.dropLast, (fieldsOf line).length ≤ 7

/-! ## Lines and fields -/

theorem newline_ne_zero : newline ≠ 0 := by decide

theorem colon_ne_zero : colon ≠ 0 := by decide

theorem fileLines_eq_nil {contents : List Byte} (noLine : fileLines contents = []) :
    contents = [] := by
  cases contents with
  | nil => rfl
  | cons c rest =>
      rw [fileLines] at noLine
      split at noLine
      · cases noLine
      · split at noLine <;> cases noLine

/-- The first line is everything, or else a newline is behind it. -/
theorem fileLines_cons {contents line : List Byte} {lines : List (List Byte)}
    (isLines : fileLines contents = line :: lines) :
    newline ∉ line ∧ (contents = line ∧ lines = [] ∨
      ∃ rest, contents = line ++ newline :: rest ∧ fileLines rest = lines) := by
  induction contents generalizing line lines with
  | nil => cases isLines
  | cons c rest ih =>
      rw [fileLines] at isLines
      split at isLines
      · rename_i isNewline
        cases isLines
        exact ⟨List.not_mem_nil, Or.inr ⟨rest, by rw [isNewline]; rfl, rfl⟩⟩
      · rename_i notNewline
        split at isLines
        · rename_i noLine
          cases isLines
          rw [fileLines_eq_nil noLine]
          exact ⟨by simpa using Ne.symm notNewline, Or.inl ⟨rfl, rfl⟩⟩
        · rename_i line' lines' isRest
          cases isLines
          rcases ih isRest with ⟨noNewline, isContents⟩
          refine ⟨?_, ?_⟩
          · intro isIn
            rcases List.mem_cons.mp isIn with same | isIn
            · exact notNewline same.symm
            · exact noNewline isIn
          · rcases isContents with ⟨isAll, noLine⟩ | ⟨behind, isRest, isBehind⟩
            · exact Or.inl ⟨by rw [isAll], noLine⟩
            · exact Or.inr ⟨behind, by rw [isRest]; rfl, isBehind⟩

/-- What ends the first line in the block. -/
theorem fileLines_end {contents line : List Byte} {lines : List (List Byte)}
    (isLines : fileLines contents = line :: lines) :
    ∃ op more, contents ++ [0] = line ++ op :: more ∧ (op = newline ∨ op = 0) ∧
      (lines ≠ [] → ∃ rest, more = rest ++ [0] ∧ fileLines rest = lines) := by
  rcases (fileLines_cons isLines).2 with ⟨isAll, noLine⟩ | ⟨rest, isContents, isRest⟩
  · exact ⟨0, [], by rw [isAll], Or.inr rfl, fun more => absurd noLine more⟩
  · refine ⟨newline, rest ++ [0], ?_, Or.inl rfl, fun _ => ⟨rest, rfl, isRest⟩⟩
    rw [isContents, List.append_assoc, List.cons_append]

theorem fieldsOf_ne_nil (line : List Byte) : fieldsOf line ≠ [] := List.splitOn_ne_nil colon line

/-- The first field is everything, or else a colon is behind it. -/
theorem fieldsOf_cases (line : List Byte) :
    colon ∉ line ∧ fieldsOf line = [line] ∨
      ∃ field rest, colon ∉ field ∧ line = field ++ colon :: rest ∧
        fieldsOf line = field :: fieldsOf rest := by
  by_cases isIn : colon ∈ line
  · rcases List.eq_append_cons_of_mem isIn with ⟨field, rest, isLine, notIn⟩
    refine Or.inr ⟨field, rest, notIn, isLine, ?_⟩
    rw [isLine]
    exact List.splitOn_append_cons_self_of_not_mem notIn rest
  · exact Or.inl ⟨isIn, List.splitOn_eq_singleton isIn⟩

/-- The fields with a 0 behind each of them. -/
def cutFields (fields : List (List Byte)) : List Byte := fields.flatMap (· ++ [0])

@[simp]
theorem cutFields_nil : cutFields [] = [] := rfl

@[simp]
theorem cutFields_cons (field : List Byte) (fields : List (List Byte)) :
    cutFields (field :: fields) = field ++ 0 :: cutFields fields := by
  rw [cutFields, List.flatMap_cons, List.append_assoc]
  rfl

theorem cutFields_append (fields others : List (List Byte)) :
    cutFields (fields ++ others) = cutFields fields ++ cutFields others := by
  exact List.flatMap_append

theorem length_cutFields (line : List Byte) :
    (cutFields (fieldsOf line)).length = line.length + 1 := by
  induction isLength : line.length using Nat.strongRecOn generalizing line with
  | ind length ih =>
      rcases fieldsOf_cases line with ⟨_, isFields⟩ | ⟨field, rest, _, isLine, isFields⟩
      · rw [isFields, cutFields_cons, List.length_append, isLength]
        rfl
      · have isSum : field.length + (rest.length + 1) = length := by
          rw [← isLength, isLine, List.length_append, List.length_cons]
        rw [isFields, cutFields_cons, List.length_append, List.length_cons,
          ih rest.length (by omega) rest rfl]
        omega

/-- The first seven fields with what is behind them are as long as the line only if they are all. -/
theorem length_le_of_cutFields {line : List Byte} {left : ℕ}
    (isLength : (cutFields ((fieldsOf line).take left)).length = line.length + 1) :
    (fieldsOf line).length ≤ left := by
  have isAll := length_cutFields line
  rw [← List.take_append_drop left (fieldsOf line), cutFields_append, List.length_append,
    isLength] at isAll
  by_contra more
  rcases List.exists_cons_of_ne_nil (List.drop_eq_nil_iff.not.mpr more) with ⟨field, fields, isDrop⟩
  rw [isDrop, cutFields_cons, List.length_append, List.length_cons] at isAll
  omega

theorem mem_fieldsOf {line : List Byte} {c : Byte} (notColon : c ≠ colon) (isIn : c ∈ line) :
    ∃ field ∈ fieldsOf line, c ∈ field := by
  induction isLength : line.length using Nat.strongRecOn generalizing line with
  | ind length ih =>
      rcases fieldsOf_cases line with ⟨_, isFields⟩ | ⟨field, rest, _, isLine, isFields⟩
      · exact ⟨line, by rw [isFields]; exact List.mem_cons_self, isIn⟩
      · rw [isFields]
        rw [isLine, List.mem_append, List.mem_cons] at isIn
        rcases isIn with isIn | isColon | isIn
        · exact ⟨field, List.mem_cons_self, isIn⟩
        · exact absurd isColon notColon
        · have isShorter : rest.length < length := by
            rw [← isLength, isLine, List.length_append, List.length_cons]
            omega
          rcases ih rest.length isShorter isIn rfl with ⟨other, isField, isIn⟩
          exact ⟨other, List.mem_cons_of_mem field isField, isIn⟩

/-! ## The numbers -/

theorem addDigit_ofNat (value : ℕ) {c : Char} :
    Bc.addDigit (BitVec.ofNat 32 value) c =
      BitVec.ofNat 32 (value * 10 + (c.toNat - '0'.toNat)) := by
  rw [Bc.addDigit, BitVec.ofNat_add, BitVec.ofNat_mul]
  rfl

theorem foldl_addDigit (digits : List Char) (value : ℕ) :
    digits.foldl Bc.addDigit (BitVec.ofNat 32 value) =
      BitVec.ofNat 32 (digits.foldl (fun value c => value * 10 + (c.toNat - '0'.toNat)) value) := by
  induction digits generalizing value with
  | nil => rfl
  | cons c digits ih => rw [List.foldl_cons, addDigit_ofNat, ih, List.foldl_cons]

theorem atoiLoop_allDigits (neg : Bool) {digits : List Char}
    (areDigits : ∀ c ∈ digits, Ctype.isdigit c = true) (i : Word) :
    Bc.atoiLoop i neg digits =
      if neg then -digits.foldl Bc.addDigit i else digits.foldl Bc.addDigit i := by
  have isLoop := Bc.atoiLoop_digits digits areDigits i neg []
  rw [List.append_nil] at isLoop
  rw [isLoop, Bc.atoiLoop]

/-- `atoi` gives the value of a decimal number, modulo the size of an `int`. -/
theorem atoi_decimal {field : List Byte} {value : ℤ} (decimal : Decimal field value) :
    atoi field = BitVec.ofInt 32 value := by
  rcases decimal with ⟨⟨_, areDigits⟩, isValue⟩ | ⟨digits, isField, ⟨_, areDigits⟩, isValue⟩
  · rw [atoi, Bc.atoi, atoiLoop_allDigits false areDigits]
    change (field.map charOf).foldl Bc.addDigit (BitVec.ofNat 32 0) = _
    rw [foldl_addDigit, isValue, digitsValue, BitVec.ofInt_natCast]
  · rw [atoi, Bc.atoi, isField, Bc.atoiLoop, if_neg (by decide), if_pos ⟨rfl, rfl⟩,
      atoiLoop_allDigits true areDigits]
    change -digits.foldl Bc.addDigit (BitVec.ofNat 32 0) = _
    rw [foldl_addDigit, isValue, digitsValue, BitVec.ofInt_neg, BitVec.ofInt_natCast]

theorem toInt_atoi {field : List Byte} {value : ℤ} (decimal : Decimal field value)
    (inRange : -2 ^ 31 ≤ value ∧ value < 2 ^ 31) : (atoi field).toInt = value := by
  rw [atoi_decimal decimal]
  exact BitVec.toInt_ofInt_eq_self (by decide) inRange.1 inRange.2

/-! ## An entry -/

theorem takeWhile_inField {field : List Byte} {op : Byte} (noColon : colon ∉ field)
    (noNewline : newline ∉ field) (noNul : 0 ∉ field) (isEnd : inField op = false)
    (more : List Byte) : (field ++ op :: more).takeWhile inField = field := by
  rw [List.takeWhile_append_of_pos, List.takeWhile_cons_of_neg (by simp [isEnd]), List.append_nil]
  intro c isIn
  refine decide_eq_true ⟨?_, ?_, ?_⟩
  · exact fun same => noColon (same ▸ isIn)
  · exact fun same => noNewline (same ▸ isIn)
  · exact fun same => noNul (same ▸ isIn)

/-- One pass of the loop over the fields. -/
theorem readFields_step {field : List Byte} {op : Byte} (noColon : colon ∉ field)
    (noNewline : newline ∉ field) (noNul : 0 ∉ field) (isEnd : inField op = false) (left : ℕ)
    (done more : List Byte) :
    readFields (left + 1) (done ++ (field ++ op :: more)) done.length =
      if op = newline ∨ op = 0 then
        some ([done.length], done ++ (field ++ 0 :: more), done.length + field.length + 1)
      else
        (readFields left (done ++ (field ++ 0 :: more)) (done.length + field.length + 1)).bind
          fun result => some (done.length :: result.1, result.2) := by
  have isOp : (done ++ (field ++ op :: more))[done.length + field.length]? = some op := by
    rw [List.getElem?_append_right (by omega), Nat.add_sub_cancel_left,
      List.getElem?_append_right le_rfl, Nat.sub_self]
    rfl
  have isCut : (done ++ (field ++ op :: more)).set (done.length + field.length) 0 =
      done ++ (field ++ 0 :: more) := by
    rw [List.set_append_right _ _ (by omega), Nat.add_sub_cancel_left,
      List.set_append_right _ _ le_rfl, Nat.sub_self]
    rfl
  rw [readFields, List.drop_left, takeWhile_inField noColon noNewline noNul isEnd, isOp]
  simp only [Option.bind_eq_bind, Option.bind_some, isCut]
  rfl

theorem starts_cons (done field : List Byte) (fields : List (List Byte)) :
    starts done.length (field :: fields) =
      done.length :: starts (done ++ (field ++ [0])).length fields := by
  rw [starts, List.length_append, List.length_append]
  rfl

/--
The loop over the fields of a line cuts the first ones. Behind them is what follows the line,
if the line has no more.
-/
theorem readFields_line (left : ℕ) {line : List Byte} {op : Byte} (isEnd : op = newline ∨ op = 0)
    (noNewline : newline ∉ line) (noNul : ∀ field ∈ (fieldsOf line).take left, (0 : Byte) ∉ field)
    (done more : List Byte) :
    ∃ rest, readFields left (done ++ (line ++ op :: more)) done.length =
        some (starts done.length ((fieldsOf line).take left),
          done ++ (cutFields ((fieldsOf line).take left) ++ rest),
          (done ++ cutFields ((fieldsOf line).take left)).length) ∧
      ((fieldsOf line).length ≤ left → rest = more) := by
  induction left generalizing line done with
  | zero =>
      refine ⟨line ++ op :: more, ?_, ?_⟩
      · rw [List.take_zero, cutFields_nil, List.append_nil]
        rfl
      · intro few
        exact absurd (List.length_eq_zero_iff.mp (Nat.le_zero.mp few)) (fieldsOf_ne_nil line)
  | succ left ih =>
      rcases fieldsOf_cases line with ⟨noColon, isFields⟩ |
        ⟨field, behind, noColon, isLine, isFields⟩
      · rw [isFields] at noNul ⊢
        have notInField : inField op = false := by
          rcases isEnd with isEnd | isEnd <;> rw [isEnd] <;> rfl
        refine ⟨more, ?_, fun _ => rfl⟩
        rw [readFields_step noColon noNewline (noNul line List.mem_cons_self) notInField,
          if_pos isEnd, List.take_succ_cons, List.take_nil, cutFields_cons, cutFields_nil,
          List.append_assoc]
        congr 3
        rw [List.length_append, List.length_append]
        rfl
      · rw [isFields, List.take_succ_cons] at noNul ⊢
        rw [isLine, List.mem_append, List.mem_cons, not_or, not_or] at noNewline
        rcases ih noNewline.2.2 (fun other isIn => noNul other (List.mem_cons_of_mem field isIn))
          (done ++ (field ++ [0])) with ⟨rest, isRest, isMore⟩
        refine ⟨rest, ?_, ?_⟩
        · rw [isLine, List.append_assoc, List.cons_append,
            readFields_step noColon noNewline.1 (noNul field List.mem_cons_self) (by rfl),
            if_neg (by decide), starts_cons]
          have isPlace : done.length + field.length + 1 = (done ++ (field ++ [0])).length := by
            rw [List.length_append, List.length_append, Nat.add_assoc]
            rfl
          have isBlock : done ++ (field ++ 0 :: (behind ++ op :: more)) =
              done ++ (field ++ [0]) ++ (behind ++ op :: more) := by simp
          rw [isPlace, isBlock, isRest, Option.bind_some, cutFields_cons]
          simp
        · intro few
          exact isMore (Nat.le_of_succ_le_succ few)

theorem length_starts (start : ℕ) (fields : List (List Byte)) :
    (starts start fields).length = fields.length := by
  induction fields generalizing start with
  | nil => rfl
  | cons field fields ih => rw [starts, List.length_cons, ih, List.length_cons]

/-- The cut fields are read back. -/
theorem stringAt_starts {fields : List (List Byte)} (noNul : ∀ field ∈ fields, (0 : Byte) ∉ field)
    (done behind : List Byte) {f p : ℕ} (isStart : (starts done.length fields)[f]? = some p) :
    fields[f]? = some (stringAt (done ++ (cutFields fields ++ behind)) p) := by
  induction fields generalizing done f with
  | nil => cases isStart
  | cons field fields ih =>
      rw [starts_cons] at isStart
      rw [cutFields_cons]
      cases f with
      | zero =>
          cases isStart
          rw [stringAt, List.drop_left, List.append_assoc, List.cons_append,
            List.takeWhile_append_of_pos, List.takeWhile_cons_of_neg (by simp), List.append_nil]
          · rfl
          · exact fun c isIn =>
              decide_eq_true fun isZero => noNul field List.mem_cons_self (isZero ▸ isIn)
      | succ f =>
          rw [List.getElem?_cons_succ] at isStart ⊢
          rw [ih (fun other isIn => noNul other (List.mem_cons_of_mem field isIn)) _ isStart]
          simp

/-- The first fields of a line in the block. -/
theorem text_of_start {line done behind : List Byte} (clean : Clean line) {f p : ℕ}
    (isStart : (starts done.length ((fieldsOf line).take 7))[f]? = some p) :
    (fieldsOf line)[f]? =
      some (stringAt (done ++ (cutFields ((fieldsOf line).take 7) ++ behind)) p) := by
  have isText := stringAt_starts clean.noNul done behind isStart
  rw [List.getElem?_take] at isText
  split at isText
  · exact isText
  · cases isText

/-- `fields[2]` and `fields[3]` point somewhere. -/
theorem start_of_four {line : List Byte} (four : 4 ≤ (fieldsOf line).length) (start : ℕ) {f : ℕ}
    (below : f < 4) : ∃ p, (starts start ((fieldsOf line).take 7))[f]? = some p := by
  have inStarts : f < (starts start ((fieldsOf line).take 7)).length := by
    rw [length_starts, List.length_take]
    omega
  exact ⟨_, List.getElem?_eq_getElem inStarts⟩

/-- The number in a field of a clean line. -/
theorem numberOf_start {line done behind : List Byte} (clean : Clean line) {f p : ℕ}
    (isNumber : f ∈ [2, 3])
    (isStart : (starts done.length ((fieldsOf line).take 7))[f]? = some p) :
    NumberOf line f
      (atoi (stringAt (done ++ (cutFields ((fieldsOf line).take 7) ++ behind)) p)) := by
  refine ⟨_, text_of_start clean isStart, rfl, ?_⟩
  intro value decimal
  exact toInt_atoi decimal (clean.inRange f isNumber _ (text_of_start clean isStart) value decimal)

/-- The entry of a clean line is its record. -/
theorem readEntry_line {line : List Byte} {op : Byte} (isEnd : op = newline ∨ op = 0)
    (noNewline : newline ∉ line) (clean : Clean line) (four : 4 ≤ (fieldsOf line).length)
    (done more : List Byte) :
    ∃ entry rest, readEntry (done ++ (line ++ op :: more)) done.length =
        some (entry, done ++ (cutFields ((fieldsOf line).take 7) ++ rest),
          (done ++ cutFields ((fieldsOf line).take 7)).length) ∧
      ((fieldsOf line).length ≤ 7 → rest = more) ∧
      ∀ behind, RecordOf (done ++ (cutFields ((fieldsOf line).take 7) ++ behind)) done.length line
        entry := by
  rcases readFields_line 7 isEnd noNewline clean.noNul done more with ⟨rest, isRead, isMore⟩
  rcases start_of_four four done.length (show 2 < 4 by omega) with ⟨uid, isUid⟩
  rcases start_of_four four done.length (show 3 < 4 by omega) with ⟨gid, isGid⟩
  refine ⟨_, rest, by simp only [readEntry, isRead, isUid, isGid, Option.bind_eq_bind,
    Option.bind_some]; rfl, isMore, ?_⟩
  intro behind
  refine ⟨rfl, ?_, ?_, ?_⟩
  · intro f p isStart
    exact text_of_start clean isStart
  · exact numberOf_start clean (by simp) isUid
  · exact numberOf_start clean (by simp) isGid

theorem readFields_head {left p : ℕ} {file : List Byte} {result : List ℕ × List Byte × ℕ}
    (areRead : readFields (left + 1) file p = some result) : result.1[0]? = some p := by
  simp only [readFields, Option.bind_eq_bind, Option.bind_eq_some_iff] at areRead
  rcases areRead with ⟨op, _, areFields⟩
  split at areFields
  · cases areFields
    rfl
  · rw [Option.bind_eq_some_iff] at areFields
    rcases areFields with ⟨behind, _, areFields⟩
    cases areFields
    rfl

/-- An entry starts where it is read. -/
theorem readEntry_name {file file' : List Byte} {p p' : ℕ} {entry : Entry}
    (isRead : readEntry file p = some (entry, file', p')) : entry.pwName = some p := by
  simp only [readEntry, Option.bind_eq_bind, Option.bind_eq_some_iff] at isRead
  rcases isRead with ⟨⟨fields, cut, next⟩, areFields, uid, _, gid, _, isEntry⟩
  cases isEntry
  exact readFields_head areFields

/-! ## The entries -/

/-- The entries are the records of the lines if no line but the last has more fields. -/
theorem readEntries_records (lines : List (List Byte)) {contents : List Byte}
    (isLines : fileLines contents = lines) (clean : ∀ line ∈ lines, Clean line)
    (four : ∀ line ∈ lines, 4 ≤ (fieldsOf line).length)
    (short : ∀ line ∈ lines.dropLast, (fieldsOf line).length ≤ 7) (done : List Byte) :
    ∃ entries behind, readEntries lines.length (done ++ (contents ++ [0])) done.length =
        some (entries, done ++ behind) ∧
      Records (done ++ behind) done.length lines entries := by
  induction lines generalizing contents done with
  | nil => exact ⟨[], contents ++ [0], rfl, trivial⟩
  | cons line lines ih =>
      rcases fileLines_end isLines with ⟨op, more, isContents, isEnd, isMore⟩
      rcases readEntry_line isEnd (fileLines_cons isLines).1 (clean line List.mem_cons_self)
        (four line List.mem_cons_self) done more with ⟨entry, rest, isRead, isRest, isRecord⟩
      rw [isContents]
      rcases lines with _ | ⟨next, lines⟩
      · refine ⟨[entry], _, ?_, isRecord rest, trivial⟩
        simp only [readEntries, List.length_cons, List.length_nil, isRead, Option.bind_eq_bind,
          Option.bind_some]
        rfl
      · rcases isMore (List.cons_ne_nil next lines) with ⟨contents', isMore, isLines'⟩
        have few := short line (by rw [List.dropLast_cons_cons]; exact List.mem_cons_self)
        rcases ih isLines' (fun other isIn => clean other (List.mem_cons_of_mem line isIn))
          (fun other isIn => four other (List.mem_cons_of_mem line isIn))
          (fun other isIn => short other (by
            rw [List.dropLast_cons_cons]
            exact List.mem_cons_of_mem line isIn))
          (done ++ cutFields ((fieldsOf line).take 7)) with
          ⟨entries, behind, areRead, areRecords⟩
        rw [isRest few, isMore] at isRead
        rw [List.append_assoc] at areRead areRecords
        rw [List.append_assoc] at areRead
        refine ⟨entry :: entries, _, ?_, isRecord behind, ?_⟩
        · rw [isMore, List.length_cons, readEntries]
          simp only [isRead, areRead, Option.bind_eq_bind, Option.bind_some]
          rfl
        · rw [List.take_of_length_le few, List.length_append, length_cutFields,
            ← Nat.add_assoc] at areRecords
          rw [List.take_of_length_le few]
          exact areRecords

theorem readEntries_name {left p : ℕ} {file file' : List Byte} {entry : Entry}
    {entries : List Entry} (areRead : readEntries left file p = some (entry :: entries, file')) :
    entry.pwName = some p := by
  cases left with
  | zero => cases areRead
  | succ left =>
      simp only [readEntries, Option.bind_eq_bind, Option.bind_eq_some_iff] at areRead
      rcases areRead with ⟨⟨first, cut, next⟩, isRead, ⟨rest, file''⟩, _, isResult⟩
      cases isResult
      exact readEntry_name isRead

/-- The record of a line starts with the line. -/
theorem RecordOf.name {file line : List Byte} {start : ℕ} {entry : Entry}
    (isRecord : RecordOf file start line entry) : entry.pwName = some start := by
  have isFirst := (List.cons.inj isRecord.pointers).1
  rw [isFirst]
  rcases fieldsOf_cases line with ⟨_, isFields⟩ | ⟨field, rest, _, _, isFields⟩
  · rw [isFields]
    rfl
  · rw [isFields]
    rfl

/-- If the entries are the records of the lines, then only the last line may have more fields. -/
theorem short_of_records (lines : List (List Byte)) {contents done file : List Byte}
    {entries : List Entry} (isLines : fileLines contents = lines)
    (clean : ∀ line ∈ lines, Clean line) (four : ∀ line ∈ lines, 4 ≤ (fieldsOf line).length)
    (areRead : readEntries lines.length (done ++ (contents ++ [0])) done.length =
      some (entries, file))
    (areRecords : Records file done.length lines entries) :
    ∀ line ∈ lines.dropLast, (fieldsOf line).length ≤ 7 := by
  induction lines generalizing contents done entries with
  | nil => exact fun line isIn => absurd isIn List.not_mem_nil
  | cons line lines ih =>
      rcases fileLines_end isLines with ⟨op, more, isContents, isEnd, isMore⟩
      rcases readEntry_line isEnd (fileLines_cons isLines).1 (clean line List.mem_cons_self)
        (four line List.mem_cons_self) done more with ⟨entry, rest, isRead, isRest, isRecord⟩
      rcases lines with _ | ⟨next, lines⟩
      · exact fun other isIn => absurd isIn List.not_mem_nil
      · rcases isMore (List.cons_ne_nil next lines) with ⟨contents', isMore, isLines'⟩
        rw [isContents, List.length_cons, readEntries] at areRead
        simp only [isRead, Option.bind_eq_bind, Option.bind_some,
          Option.bind_eq_some_iff] at areRead
        rcases areRead with ⟨⟨entries', file'⟩, areRead, isResult⟩
        cases isResult
        have few : (fieldsOf line).length ≤ 7 := by
          apply length_le_of_cutFields
          rcases entries' with _ | ⟨entry', entries'⟩
          · exact areRecords.2.elim
          · have same : some (done ++ cutFields ((fieldsOf line).take 7)).length =
                some (done.length + line.length + 1) :=
              (readEntries_name areRead).symm.trans areRecords.2.1.name
            rw [Option.some.injEq, List.length_append] at same
            omega
        rw [isRest few, isMore, ← List.append_assoc] at areRead
        have isPlace : (done ++ cutFields ((fieldsOf line).take 7)).length =
            done.length + line.length + 1 := by
          rw [List.take_of_length_le few, List.length_append, length_cutFields, Nat.add_assoc]
        have areShort := ih isLines'
          (fun other isIn => clean other (List.mem_cons_of_mem line isIn))
          (fun other isIn => four other (List.mem_cons_of_mem line isIn)) areRead
          (by rw [isPlace]; exact areRecords.2)
        intro other isIn
        rw [List.dropLast_cons_cons] at isIn
        rcases List.mem_cons.mp isIn with isFirst | isBehind
        · rw [isFirst]
          exact few
        · exact areShort other isBehind

theorem length_readEntries {left p : ℕ} {file : List Byte} {result : List Entry × List Byte}
    (areRead : readEntries left file p = some result) : result.1.length = left := by
  induction left generalizing p file result with
  | zero =>
      cases areRead
      rfl
  | succ left ih =>
      simp only [readEntries, Option.bind_eq_bind, Option.bind_eq_some_iff] at areRead
      rcases areRead with ⟨⟨first, cut, next⟩, _, ⟨rest, file'⟩, isRest, isResult⟩
      cases isResult
      rw [List.length_cons, ih isRest]

theorem length_records {file : List Byte} {start : ℕ} {lines : List (List Byte)}
    {entries : List Entry} (areRecords : Records file start lines entries) :
    entries.length = lines.length := by
  induction lines generalizing start entries with
  | nil =>
      cases entries with
      | nil => rfl
      | cons entry entries => exact areRecords.elim
  | cons line lines ih =>
      cases entries with
      | nil => exact areRecords.elim
      | cons entry entries => rw [List.length_cons, ih areRecords.2, List.length_cons]

/-- Every entry is the record of some line. -/
theorem record_of_mem {file : List Byte} {start : ℕ} {lines : List (List Byte)}
    {entries : List Entry} (areRecords : Records file start lines entries) {entry : Entry}
    (isIn : entry ∈ entries) : ∃ line ∈ lines, ∃ place, RecordOf file place line entry := by
  induction lines generalizing start entries with
  | nil =>
      cases entries with
      | nil => exact absurd isIn List.not_mem_nil
      | cons first entries => exact areRecords.elim
  | cons line lines ih =>
      cases entries with
      | nil => exact areRecords.elim
      | cons first entries =>
          rcases List.mem_cons.mp isIn with isFirst | isBehind
          · exact ⟨line, List.mem_cons_self, start, isFirst ▸ areRecords.1⟩
          · rcases ih areRecords.2 isBehind with ⟨other, isLine, isRecord⟩
            exact ⟨other, List.mem_cons_of_mem line isLine, isRecord⟩

/-- Every line has a record. -/
theorem record_of_line {file : List Byte} {start : ℕ} {lines : List (List Byte)}
    {entries : List Entry} (areRecords : Records file start lines entries) {line : List Byte}
    (isIn : line ∈ lines) : ∃ entry place, RecordOf file place line entry := by
  induction lines generalizing start entries with
  | nil => exact absurd isIn List.not_mem_nil
  | cons first lines ih =>
      cases entries with
      | nil => exact areRecords.elim
      | cons entry entries =>
          rcases List.mem_cons.mp isIn with isFirst | isBehind
          · exact ⟨entry, start, isFirst ▸ areRecords.1⟩
          · exact ih areRecords.2 isBehind

/-- The line of a record is clean. -/
theorem RecordOf.clean {file line : List Byte} {start : ℕ} {entry : Entry}
    (isRecord : RecordOf file start line entry) : Clean line := by
  refine ⟨?_, ?_⟩
  · intro field isIn isZero
    rcases List.mem_iff_getElem?.mp isIn with ⟨f, isField⟩
    have inStarts : f < (starts start ((fieldsOf line).take 7)).length := by
      rw [length_starts]
      exact (List.getElem?_eq_some_iff.mp isField).1
    have isText := isRecord.texts f _ (List.getElem?_eq_getElem inStarts)
    rw [List.getElem?_take] at isField
    split at isField
    · cases isField.symm.trans isText
      simpa using List.mem_takeWhile_imp isZero
    · cases isField
  · intro f isNumber field isField value decimal
    have inRange : ∀ number : Word, NumberOf line f number → -2 ^ 31 ≤ value ∧ value < 2 ^ 31 := by
      intro number isNumber
      rcases isNumber with ⟨other, isOther, _, isValue⟩
      cases isField.symm.trans isOther
      rw [← isValue value decimal]
      exact ⟨BitVec.le_toInt number, BitVec.toInt_lt⟩
    rw [List.mem_cons, List.mem_singleton] at isNumber
    rcases isNumber with rfl | rfl
    · exact inRange _ isRecord.uid
    · exact inRange _ isRecord.gid

/-! ## Counting -/

/-- A character that is not the last one of its entry. -/
theorem countEntries_skip {c next : Byte} (notNul : c ≠ 0) (notNewline : c ≠ newline)
    (nextNotNul : next ≠ 0) (rest : List Byte) :
    countEntries (c :: next :: rest) = countEntries (next :: rest) := by
  rw [countEntries, if_neg notNul]
  simp only [List.head?_cons, Option.bind_eq_bind, Option.bind_some, if_neg notNewline,
    if_neg nextNotNul]
  cases countEntries (next :: rest) <;> rfl

/-- A line with its newline. -/
theorem countEntries_newline {line : List Byte} (noNul : 0 ∉ line) (noNewline : newline ∉ line)
    (more : List Byte) :
    countEntries (line ++ newline :: more) = (countEntries more).map (· + 1) := by
  induction line with
  | nil =>
      cases more with
      | nil => rfl
      | cons c more =>
          rw [List.nil_append, countEntries, if_neg newline_ne_zero]
          simp [Option.map_eq_bind]
  | cons c line ih =>
      rw [List.mem_cons, not_or] at noNul noNewline
      rw [← ih noNul.2 noNewline.2, List.cons_append]
      cases line with
      | nil => exact countEntries_skip (Ne.symm noNul.1) (Ne.symm noNewline.1) newline_ne_zero _
      | cons next line =>
          rw [List.mem_cons, not_or] at noNul
          exact countEntries_skip (Ne.symm noNul.1) (Ne.symm noNewline.1) (Ne.symm noNul.2.1) _

/-- A line without a newline, up to a 0. -/
theorem countEntries_last {line : List Byte} (notEmpty : line ≠ []) (noNul : 0 ∉ line)
    (noNewline : newline ∉ line) (more : List Byte) :
    countEntries (line ++ 0 :: more) = some 1 := by
  induction line with
  | nil => exact absurd rfl notEmpty
  | cons c line ih =>
      rw [List.mem_cons, not_or] at noNul noNewline
      cases line with
      | nil =>
          rw [List.singleton_append, countEntries, if_neg (Ne.symm noNul.1)]
          simp [countEntries]
      | cons next line =>
          rw [← ih (List.cons_ne_nil next line) noNul.2 noNewline.2]
          rw [List.mem_cons, not_or] at noNul
          exact countEntries_skip (Ne.symm noNul.1) (Ne.symm noNewline.1) (Ne.symm noNul.2.1) _

/-- A clean line that has no more than seven fields has no zero byte. -/
theorem Clean.noNul_of_short {line : List Byte} (clean : Clean line)
    (short : (fieldsOf line).length ≤ 7) : 0 ∉ line := by
  intro isIn
  rcases mem_fieldsOf (Ne.symm colon_ne_zero) isIn with ⟨field, isField, isZero⟩
  rw [← List.take_of_length_le short] at isField
  exact clean.noNul field isField isZero

/-- A clean line does not start with a zero byte, and is not empty. -/
theorem Clean.first_ne_zero {line : List Byte} (clean : Clean line)
    (four : 4 ≤ (fieldsOf line).length) : ∃ c rest, line = c :: rest ∧ c ≠ 0 := by
  rcases fieldsOf_cases line with ⟨_, isFields⟩ | ⟨field, behind, _, isLine, isFields⟩
  · rw [isFields, List.length_singleton] at four
    omega
  · cases field with
    | nil => exact ⟨colon, behind, isLine, colon_ne_zero⟩
    | cons c field =>
        refine ⟨c, field ++ colon :: behind, isLine, ?_⟩
        intro isZero
        apply clean.noNul (c :: field)
        · rw [isFields]
          exact List.mem_cons_self
        · rw [isZero]
          exact List.mem_cons_self

theorem Regular.tail {line : List Byte} {lines : List (List Byte)}
    (regular : Regular (line :: lines)) : Regular lines := by
  refine ⟨fun other isIn => regular.clean other (List.mem_cons_of_mem line isIn), ?_⟩
  cases lines with
  | nil => exact fun other isIn => absurd isIn List.not_mem_nil
  | cons next lines =>
      intro other isIn
      apply regular.short
      rw [List.dropLast_cons_cons]
      exact List.mem_cons_of_mem line isIn

/-- A line with a zero byte is the last one. -/
theorem Regular.eq_nil_of_zero {line : List Byte} {lines : List (List Byte)}
    (regular : Regular (line :: lines)) (isZero : 0 ∈ line) : lines = [] := by
  cases lines with
  | nil => rfl
  | cons next lines =>
      have short := regular.short line (by rw [List.dropLast_cons_cons]; exact List.mem_cons_self)
      exact absurd isZero ((regular.clean line List.mem_cons_self).noNul_of_short short)

/-- There are as many entries as lines. -/
theorem countEntries_lines (lines : List (List Byte)) {contents : List Byte}
    (isLines : fileLines contents = lines) (regular : Regular lines)
    (four : ∀ line ∈ lines, 4 ≤ (fieldsOf line).length) :
    countEntries (contents ++ [0]) = some lines.length := by
  induction lines generalizing contents with
  | nil =>
      rw [fileLines_eq_nil isLines]
      rfl
  | cons line lines ih =>
      rcases fileLines_cons isLines with ⟨noNewline, isContents⟩
      have clean := regular.clean line List.mem_cons_self
      rcases clean.first_ne_zero (four line List.mem_cons_self) with ⟨c, rest, isLine, notNul⟩
      by_cases noNul : 0 ∈ line
      · -- such a line is the last one, and the loop stops in it
        rw [regular.eq_nil_of_zero noNul]
        rcases fileLines_end isLines with ⟨op, more, isBlock, _⟩
        rcases List.eq_append_cons_of_mem noNul with ⟨text, behind, isText, noZero⟩
        rw [isBlock, isText, List.append_assoc, List.cons_append]
        apply countEntries_last
        · rintro rfl
          rw [isLine] at isText
          exact notNul (List.cons.inj isText).1
        · exact noZero
        · intro isIn
          exact noNewline (isText ▸ List.mem_append_left _ isIn)
      · rcases isContents with ⟨isAll, noLine⟩ | ⟨contents', isContents, isRest⟩
        · rw [isAll, noLine]
          exact countEntries_last (by rw [isLine]; exact List.cons_ne_nil c rest) noNul noNewline []
        · rw [isContents, List.append_assoc, List.cons_append,
            countEntries_newline noNul noNewline,
            ih isRest regular.tail fun other isIn => four other (List.mem_cons_of_mem line isIn)]
          rfl

/-! ## Looking up -/

theorem eq_of_strcmp {s t : List Byte} (noNul : ∀ b ∈ s, b ≠ 0) (noNul' : ∀ b ∈ t, b ≠ 0)
    (same : Sort.strcmp s t = 0) : s = t := by
  induction s generalizing t with
  | nil =>
      cases t with
      | nil => rfl
      | cons c t =>
          have notNul := noNul' c List.mem_cons_self
          rw [Sort.strcmp, List.headD_cons, if_neg notNul, Int.sub_eq_zero,
            BitVec.toInt_inj] at same
          exact absurd same.symm notNul
  | cons b s ih =>
      have notNul := noNul b List.mem_cons_self
      rw [Sort.strcmp] at same
      split at same
      · rename_i sameFirst
        cases t with
        | nil => exact absurd sameFirst notNul
        | cons c t =>
            rw [List.headD_cons] at sameFirst
            rw [sameFirst, ih (fun d isIn => noNul d (List.mem_cons_of_mem b isIn))
              (fun d isIn => noNul' d (List.mem_cons_of_mem c isIn)) same]
      · rename_i otherFirst
        rw [Int.sub_eq_zero, BitVec.toInt_inj] at same
        exact absurd same otherFirst

/-- What is found by its name is the record of a line with this name. -/
theorem hasLogin_of_find {contents file name : List Byte} {entries : List Entry}
    (areRecords : Records file 0 (fileLines contents) entries) (noNul : ∀ b ∈ name, b ≠ 0)
    {entry : Entry} (isFound : entries.find? (hasName file name) = some entry) :
    HasLogin contents name := by
  rcases record_of_mem areRecords (List.mem_of_find?_eq_some isFound) with
    ⟨line, isLine, start, isRecord⟩
  have isName := List.find?_some isFound
  rw [hasName, isRecord.name, Option.any_some, decide_eq_true_iff] at isName
  refine ⟨line, isLine, ?_⟩
  rw [← eq_of_strcmp (Stdio.stringIn (file.drop start)).noNul noNul isName]
  apply isRecord.texts
  rcases fieldsOf_cases line with ⟨_, isFields⟩ | ⟨field, rest, _, _, isFields⟩
  · rw [isFields]
    rfl
  · rw [isFields]
    rfl

theorem hasUid_of_find {contents file : List Byte} {uid : BitVec 16} {entries : List Entry}
    (areRecords : Records file 0 (fileLines contents) entries) {entry : Entry}
    (isFound : (entries.find? fun entry => entry.pwUid = uid.signExtend 32) = some entry) :
    HasUid contents uid := by
  rcases record_of_mem areRecords (List.mem_of_find?_eq_some isFound) with
    ⟨line, isLine, start, isRecord⟩
  have isUid := List.find?_some isFound
  rw [decide_eq_true_iff] at isUid
  exact ⟨line, isLine, isUid ▸ isRecord.uid⟩

/-! ## The file -/

theorem regular_of_parsed {contents : List Byte}
    (four : ∀ line ∈ fileLines contents, 4 ≤ (fieldsOf line).length)
    (parsed : Parsed contents) : Regular (fileLines contents) := by
  rcases parsed with ⟨database, isParsed, areRecords, _⟩
  have clean : ∀ line ∈ fileLines contents, Clean line := by
    intro line isIn
    rcases record_of_line areRecords isIn with ⟨entry, start, isRecord⟩
    exact isRecord.clean
  refine ⟨clean, ?_⟩
  rw [parsepwd] at isParsed
  split at isParsed
  · cases isParsed
  · simp only [Option.bind_eq_bind, Option.bind_eq_some_iff] at isParsed
    rcases isParsed with ⟨count, _, ⟨entries, file⟩, areRead, isDatabase⟩
    cases isDatabase
    have isCount : count = (fileLines contents).length :=
      (length_readEntries areRead).symm.trans (length_records areRecords)
    rw [isCount] at areRead
    exact @short_of_records _ contents [] file entries rfl clean four areRead areRecords

theorem parsed_of_regular {contents : List Byte} (notEmpty : contents ≠ [])
    (four : ∀ line ∈ fileLines contents, 4 ≤ (fieldsOf line).length)
    (regular : Regular (fileLines contents)) : Parsed contents := by
  rcases readEntries_records _ rfl regular.clean four regular.short [] with
    ⟨entries, file, areRead, areRecords⟩
  rw [List.nil_append] at areRead
  have isParsed : parsepwd (some contents) = some (some ⟨file, entries⟩) := by
    rw [parsepwd, if_neg notEmpty]
    simp only [countEntries_lines _ rfl regular four, Option.bind_eq_bind, Option.bind_some]
    rw [← List.nil_append (contents ++ [0])]
    exact congrArg (Option.bind · _) areRead
  refine ⟨⟨file, entries⟩, isParsed, areRecords, ?_⟩
  intro known isKnown
  have isLoaded : load known (some contents) = some (some ⟨file, entries⟩) := by
    rcases isKnown with rfl | rfl
    · exact isParsed
    · rfl
  refine ⟨?_, ?_⟩
  · intro name entry next isFound
    simp only [getpwnam, isLoaded, Option.bind_eq_bind, Option.bind_some] at isFound
    exact hasLogin_of_find areRecords name.noNul (Prod.mk.inj (Option.some.inj isFound)).1
  · intro uid entry next isFound
    simp only [getpwuid, isLoaded, Option.bind_eq_bind, Option.bind_some] at isFound
    exact hasUid_of_find areRecords (Prod.mk.inj (Option.some.inj isFound)).1

/--
A file whose lines have at least four fields is parsed as it should be exactly if its lines are
clean and only the last one may have more than seven fields.
-/
theorem parsepwd_records_iff {contents : List Byte} (notEmpty : contents ≠ [])
    (four : ∀ line ∈ fileLines contents, 4 ≤ (fieldsOf line).length) :
    Parsed contents ↔ Regular (fileLines contents) := by
  exact ⟨regular_of_parsed four, parsed_of_regular notEmpty four⟩

/-- The contents of a file. -/
def textOf (text : String) : List Byte := text.toList.map byteOf

/-- The file that is installed. -/
def etcPasswd : List Byte :=
  textOf "root:J4Scp1:0:0::/:/bin/sh\noed:JR9cp.:100:10::/usr/oed:/bin/sh\n"

theorem parsepwd_records_installed : ¬etcPasswd = [] ∧
    (Parsed etcPasswd ↔ Regular (fileLines etcPasswd)) := by
  have notEmpty : etcPasswd ≠ [] := by decide
  refine ⟨notEmpty, parsepwd_records_iff notEmpty ?_⟩
  decide

/-- An eighth field in the first line becomes the second record. -/
theorem not_parsepwd_records :
    ¬∀ contents, contents ≠ [] → (∀ line ∈ fileLines contents, 4 ≤ (fieldsOf line).length) →
      Parsed contents := by
  intro always
  have isIn : textOf "r:x:0:0:n:/:sh:e" ∈
      (fileLines (textOf "r:x:0:0:n:/:sh:e\no:y:1:1\n")).dropLast := by decide
  have four : ∀ line ∈ fileLines (textOf "r:x:0:0:n:/:sh:e\no:y:1:1\n"),
      4 ≤ (fieldsOf line).length := by decide
  have parsed := always (textOf "r:x:0:0:n:/:sh:e\no:y:1:1\n") (by decide) four
  have short := (regular_of_parsed four parsed).short _ isIn
  exact absurd short (by decide)

end Osix.Passwd
