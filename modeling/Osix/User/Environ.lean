import Osix.User.Stdio
import Osix.Lib.Transition

/-!
# The environment

`lib/libc/environ.c` over memory with locations. The variables and the vector that a program
starts with lie on the stack, above all frames; everything else is allocated, and `malloc`
may return any location that is not in use. What a call reads or stores outside of a block
is `none`, and so is a `free` of a block that is not there.
-/

namespace Osix.Environ

open Stdio Transition

/-- An address: on the stack above all frames, or on the heap. -/
inductive Loc where
  | stack (n : ℕ)
  | heap (n : ℕ)
deriving DecidableEq

/-- `(char *)&local > p`: the stack is above the heap. -/
def Loc.belowFrame : Loc → Bool
  | .stack _ => false
  | .heap _ => true

/-- A block of memory: characters or pointers. -/
inductive Block where
  | text (bytes : List Byte)
  | vector (slots : List (Option Loc))

/-- The memory, the variable `environ`, `errno`, and the size in the stream of `snprintf`. -/
structure Env where
  mem : Loc → Option Block
  environ : Loc
  errno : ℤ
  earlier : ℕ

/-- What `malloc` returns for a variable and for a vector, and what is in the block. -/
structure Malloc where
  var : Loc
  vec : Loc
  junk : ℕ → Byte

/-! ## Strings -/

def equals : Byte := byteOf '='

/-- `strncmp` of strings without their terminating 0. -/
def strncmp : ℕ → List Byte → List Byte → ℤ
  | 0, _, _ => 0
  | n + 1, s, t =>
      if s.headD 0 ≠ t.headD 0 then (s.headD 0).toInt - (t.headD 0).toInt
      else if s.headD 0 = 0 then 0
      else strncmp n s.tail t.tail

/-- The bytes that `strncpy` stores. -/
def strncpy (src : List Byte) (n : ℕ) : List Byte := (src ++ List.replicate n 0).take n

/-- `strncmp(name, s, name_len) == 0 && s[name_len] == '='`. -/
def isVar (name s : List Byte) : Bool :=
  strncmp name.length name s = 0 ∧ s.getD name.length 0 = equals

/-- The format `"%s=%s"`. -/
def varFormat : CString := ⟨"%s=%s".toList.map byteOf, by decide⟩

namespace Env

/-- The string at an address. -/
def string (env : Env) (loc : Loc) : Option (List Byte) :=
  match env.mem loc with
  | some (.text bytes) => if 0 ∈ bytes then some (bytes.takeWhile (· ≠ 0)) else none
  | _ => none

/-- The vector `environ`. -/
def slots (env : Env) : Option (List (Option Loc)) :=
  match env.mem env.environ with
  | some (.vector slots) => some slots
  | _ => none

def store (env : Env) (loc : Loc) (block : Block) : Env :=
  { env with mem := Function.update env.mem loc (some block) }

/-- `free`, of a block on the heap only. -/
def free (env : Env) (loc : Loc) : Option Env :=
  if loc.belowFrame then
    if (env.mem loc).isSome then some { env with mem := Function.update env.mem loc none } else none
  else
    some env

/-- Where the loop over the vector ends. -/
inductive Found where
  | at (index : ℕ) (loc : Loc) (string : List Byte)
  | missing (index : ℕ)

def scan (env : Env) (name : List Byte) : ℕ → List (Option Loc) → Option Found
  | _, [] => none
  | e, none :: _ => some (.missing e)
  | e, some loc :: rest => do
      let s ← env.string loc
      if isVar name s then some (.at e loc s) else scan env name (e + 1) rest

/-- The name is there, is not empty and has no `=`. -/
def validName : Option CString → Bool
  | none => false
  | some name => name.bytes ≠ [] ∧ equals ∉ name.bytes

/-- `getenv`: the value or `NULL`. -/
def getenv (env : Env) (name : Option CString) : Option (Option (List Byte) × Env) :=
  match name with
  | none => some (none, { env with errno := einval })
  | some name =>
      if validName (some name) then do
        let slots ← env.slots
        match ← env.scan name.bytes 0 slots with
        | .at _ _ s => return (some (s.drop (name.bytes.length + 1)), env)
        | .missing _ => return (none, env)
      else
        some (none, { env with errno := einval })

/-- A new block with `name=value`. -/
def newVar (env : Env) (fresh : Malloc) (name value : CString) : Option Env := do
  let total := name.bytes.length + value.bytes.length + 2
  let (_, f) ← Stdio.File.snprintf env.earlier fresh.junk total total varFormat
    [.text (some name), .text (some value)]
  return { env.store fresh.var (.text ((List.range total).map f.buf)) with earlier := f.size }

/-- The variable is there: its value is overwritten in place, or the variable is replaced. -/
def overwriteVar (env : Env) (name value : CString) (slots : List (Option Loc)) (index : ℕ)
    (loc : Loc) (s : List Byte) (fresh : Malloc) : Option Env :=
  let start := name.bytes.length + 1
  let old := s.drop start
  if value.bytes.length ≤ old.length then
    match env.mem loc with
    | some (.text bytes) => some (env.store loc (.text (bytes.take start ++
        strncpy value.bytes (old.length + 1) ++ bytes.drop (start + (old.length + 1)))))
    | _ => none
  else do
    let made ← env.newVar fresh name value
    let freed ← made.free loc
    return freed.store freed.environ (.vector (slots.set index (some fresh.var)))

/-- The variable is missing: a new vector with one more variable. -/
def addVar (env : Env) (name value : CString) (slots : List (Option Loc)) (index : ℕ)
    (fresh : Malloc) : Option Env := do
  let stored := env.store fresh.vec (.vector (slots.take index ++ [some fresh.var, none]))
  let made ← stored.newVar fresh name value
  let freed ← made.free made.environ
  return { freed with environ := fresh.vec }

/-- `setenv`, with what `malloc` returns if it is called. -/
def setenv (env : Env) (name value : Option CString) (overwrite : Bool) (fresh : Malloc) :
    Option (ℤ × Env) :=
  match name, value with
  | some name, some value =>
      if validName (some name) then do
        let slots ← env.slots
        match ← env.scan name.bytes 0 slots with
        | .at index loc s =>
            if overwrite then
              (env.overwriteVar name value slots index loc s fresh).map fun env => (0, env)
            else
              return (0, env)
        | .missing index =>
            (env.addVar name value slots index fresh).map fun env => (0, env)
      else
        some (-1, { env with errno := einval })
  | _, _ => some (-1, { env with errno := einval })

/-- The loop of `unsetenv` that closes the gap. -/
def closeGap : List (Option Loc) → Option (List (Option Loc))
  | [] => none
  | none :: rest => some (none :: rest)
  | some _ :: [] => none
  | some _ :: next :: rest => (closeGap (next :: rest)).map (next :: ·)

def unsetenv (env : Env) (name : Option CString) : Option (ℤ × Env) :=
  match name with
  | none => some (-1, { env with errno := einval })
  | some name =>
      if validName (some name) then do
        let slots ← env.slots
        match ← env.scan name.bytes 0 slots with
        | .at index loc _ =>
            let freed ← env.free loc
            let rest ← closeGap (slots.drop index)
            return (0, freed.store freed.environ (.vector (slots.take index ++ rest)))
        | .missing _ => return (0, env)
      else
        some (-1, { env with errno := einval })

end Env

/-! ## Formatting to memory -/

/-- The text is at the beginning of a block. -/
structure InBlock (room : ℕ) (f : Stdio.File) (text : List Byte) : Prop where
  isOpen : f.isOpen = false
  room : f.room = room
  ptr : f.ptr = text.length
  text : (List.range text.length).map f.buf = text

theorem map_range_update (buf : ℕ → Byte) (n : ℕ) (b : Byte) :
    (List.range (n + 1)).map (Function.update buf n b) = (List.range n).map buf ++ [b] := by
  have before : ∀ i ∈ List.range n, Function.update buf n b i = buf i := by
    intro i isBefore
    rw [List.mem_range] at isBefore
    exact Function.update_of_ne (by omega) _ _
  rw [List.range_succ, List.map_append, List.map_congr_left before]
  simp

theorem sink_inBlock (room : ℕ) :
    Stdio.File.Sink (InBlock room) fun text => text.length ≤ room := by
  refine ⟨?_, ?_⟩
  · intro f text c inBlock fits
    have inRoom : f.ptr < f.room := by
      rw [List.length_append, List.length_singleton] at fits
      rw [inBlock.ptr, inBlock.room]
      omega
    have isPut : f.fputc c = some (c, { f with
        buf := Function.update f.buf f.ptr (c.setWidth 8)
        ptr := f.ptr + 1
        size := f.size + 1 }) := by
      simp [Stdio.File.fputc, Stdio.File.fflush, Stdio.File.store, inBlock.isOpen, inRoom]
    refine ⟨_, isPut, inBlock.isOpen, inBlock.room, ?_, ?_⟩
    · simp [inBlock.ptr]
    · rw [List.length_append, List.length_singleton]
      simp only [inBlock.ptr]
      rw [map_range_update, inBlock.text]
  · intro before after fits
    rw [List.length_append] at fits
    omega

/-- `%s` with a string without negative characters. -/
theorem convert_string {room : ℕ} {f : Stdio.File} {before : List Byte}
    (inBlock : InBlock room f before)
    {s : CString} (fits : (before ++ s.bytes).length ≤ room)
    (plain : ∀ b ∈ s.bytes, b.msb = false) (args : List Arg) (bindex : ℤ) :
    ∃ f', f.convert ⟨false, 0, 0, byteOf 's'⟩ (.text (some s) :: args) bindex =
        some (args, bindex + s.bytes.length, f') ∧ InBlock room f' (before ++ s.bytes) := by
  rcases (sink_inBlock room).fputs (some s) inBlock fits
    fun b isIn => plain b (List.mem_of_mem_dropLast isIn) with ⟨count, f', isPut, inBlock', isCount⟩
  have isLength : count = s.bytes.length := isCount plain
  have noSpaces : (((0 : ℕ) : ℤ) - count).toNat = 0 := by
    rw [isLength]
    omega
  refine ⟨f', ?_, inBlock'⟩
  simp only [Stdio.File.convert, if_true, isPut, Option.bind_eq_bind, Option.bind_some, noSpaces,
    List.replicate_zero, Stdio.File.emit, Option.pure_def]
  simp [isLength]

/-- `vfprintf` of a variable. -/
theorem vfprintf_varFormat {room : ℕ} {f : Stdio.File} (inBlock : InBlock room f [])
    (name value : CString)
    (fits : name.bytes.length + value.bytes.length + 1 ≤ room)
    (plainName : ∀ b ∈ name.bytes, b.msb = false) (plainValue : ∀ b ∈ value.bytes, b.msb = false) :
    ∃ f', f.vfprintf varFormat [.text (some name), .text (some value)] =
        some (((name.bytes.length + 1 + value.bytes.length : ℕ) : ℤ), f') ∧
      InBlock room f' (name.bytes ++ equals :: value.bytes) := by
  rcases convert_string inBlock (by simp only [List.nil_append]; omega) plainName
    [.text (some value)] 0 with ⟨named, isNamed, inBlockNamed⟩
  rw [List.nil_append] at inBlockNamed
  rcases (sink_inBlock room).emit [equals] inBlockNamed
    (by rw [List.length_append, List.length_singleton]; omega) with ⟨middle, isMiddle, inBlockMiddle⟩
  rcases convert_string inBlockMiddle
    (by simp only [List.length_append, List.length_singleton]; omega) plainValue []
    (0 + name.bytes.length + 1) with ⟨f', isValued, inBlock'⟩
  have first : parseSpec [byteOf 's', equals, byteOf '%', byteOf 's'] =
      some (⟨false, 0, 0, byteOf 's'⟩, [equals, byteOf '%', byteOf 's']) := rfl
  have second : parseSpec [byteOf 's'] = some (⟨false, 0, 0, byteOf 's'⟩, []) := rfl
  have notPercent : ¬equals = byteOf '%' := by decide
  refine ⟨f', ?_, by simpa using inBlock'⟩
  show Stdio.File.vfprintfLoop 5 [byteOf '%', byteOf 's', equals, byteOf '%', byteOf 's'] _ 0 f = _
  simp only [Stdio.File.vfprintfLoop, if_true, first, second, if_neg notPercent,
    Option.bind_eq_bind,
    Option.bind_some, isNamed, isMiddle, isValued]
  simp

/-- The bytes of the variable `name=value`, without the terminating 0. -/
def varText (name value : List Byte) : List Byte := name ++ equals :: value

theorem snprintf_varFormat (earlier : ℕ) (junk : ℕ → Byte) (name value : CString) {total : ℕ}
    (isTotal : total = name.bytes.length + value.bytes.length + 2)
    (plainName : ∀ b ∈ name.bytes, b.msb = false) (plainValue : ∀ b ∈ value.bytes, b.msb = false) :
    ∃ count f, Stdio.File.snprintf earlier junk total total varFormat
        [.text (some name), .text (some value)] = some (count, f) ∧
      (List.range total).map f.buf = varText name.bytes value.bytes ++ [0] := by
  have start : InBlock total ⟨false, junk, total, earlier, total, 0, false, []⟩ [] :=
    ⟨rfl, rfl, rfl, rfl⟩
  rcases vfprintf_varFormat start name value (by omega) plainName plainValue with
    ⟨f, isPut, inBlock⟩
  obtain ⟨last, isLast⟩ : ∃ last, last = name.bytes.length + 1 + value.bytes.length := ⟨_, rfl⟩
  have isLength : (name.bytes ++ equals :: value.bytes).length = last := by
    rw [List.length_append, List.length_cons]
    omega
  rw [← isLast] at isPut
  refine ⟨last, { f with buf := Function.update f.buf last 0 }, ?_, ?_⟩
  · have isCount : (if (last : ℤ) < 0 then 0 else if (last : ℤ) < (total : ℕ) then
        (last : ℤ).toNat else total - 1) = last := by
      rw [if_neg (by omega), if_pos (by omega), Int.toNat_natCast]
    simp only [Stdio.File.snprintf, isPut, Option.bind_eq_bind, Option.bind_some, isCount]
    rw [if_pos (by omega)]
  · have atFront := inBlock.text
    rw [isLength] at atFront
    rw [show total = last + 1 by omega, map_range_update, atFront, varText]

theorem newVar_spec (env : Env) (fresh : Malloc) (name value : CString)
    (plainName : ∀ b ∈ name.bytes, b.msb = false) (plainValue : ∀ b ∈ value.bytes, b.msb = false) :
    ∃ earlier, env.newVar fresh name value =
      some { env.store fresh.var (.text (varText name.bytes value.bytes ++ [0])) with
        earlier := earlier } := by
  rcases snprintf_varFormat env.earlier fresh.junk name value rfl plainName plainValue with
    ⟨count, f, isPut, isText⟩
  refine ⟨f.size, ?_⟩
  simp only [Env.newVar, isPut, Option.bind_eq_bind, Option.bind_some, isText, Option.pure_def]

/-! ## Variables -/

theorem strncmp_eq_zero (name : List Byte) (noNul : ∀ b ∈ name, b ≠ 0) (s : List Byte) :
    strncmp name.length name s = 0 ↔ name <+: s := by
  induction name generalizing s with
  | nil => simp [strncmp]
  | cons c name ih =>
      have isChar := noNul c List.mem_cons_self
      have rest := ih (fun b isIn => noNul b (List.mem_cons_of_mem c isIn)) s.tail
      rw [List.length_cons, strncmp, List.headD_cons, List.tail_cons]
      by_cases same : c = s.headD 0
      · rw [if_neg (not_not.mpr same), if_neg isChar, rest]
        cases s with
        | nil => exact absurd same isChar
        | cons b s =>
            rw [List.headD_cons] at same
            simp [same]
      · rw [if_pos same]
        have different : c.toInt - (s.headD 0).toInt ≠ 0 := by
          intro isZero
          exact same (BitVec.eq_of_toInt_eq (by omega))
        refine ⟨fun isZero => absurd isZero different, ?_⟩
        rintro ⟨after, rfl⟩
        exact absurd rfl same

/-- `isVar` finds exactly the variables with this name. -/
theorem isVar_iff {name s : List Byte} (noNul : ∀ b ∈ name, b ≠ 0) :
    isVar name s = true ↔ (name ++ [equals]) <+: s := by
  rw [isVar, decide_eq_true_eq, strncmp_eq_zero name noNul]
  constructor
  · rintro ⟨⟨after, rfl⟩, isEquals⟩
    cases after with
    | nil =>
        have isZero : (0 : Byte) = equals := by simpa using isEquals
        exact absurd isZero (by decide)
    | cons b after =>
        have isHead : b = equals := by simpa using isEquals
        rw [isHead]
        exact ⟨after, by simp⟩
  · rintro ⟨after, rfl⟩
    refine ⟨⟨equals :: after, by simp⟩, ?_⟩
    simp

/-- A variable has a name without `=`, so it is found by this name only. -/
theorem isVar_varText {name other value : List Byte} (noNul : ∀ b ∈ name, b ≠ 0)
    (notIn : equals ∉ name) (notInOther : equals ∉ other) :
    isVar name (varText other value) = true ↔ name = other := by
  rw [isVar_iff noNul, varText]
  constructor
  · rintro ⟨after, same⟩
    rw [List.append_assoc, List.singleton_append] at same
    have split := List.append_eq_append_iff.mp same
    rcases split with ⟨middle, isOther, isRest⟩ | ⟨middle, isName, isRest⟩
    · cases middle with
      | nil => simpa using isOther.symm
      | cons b middle =>
          rw [List.cons_append, List.cons.injEq] at isRest
          rw [isOther, ← isRest.1] at notInOther
          simp at notInOther
    · cases middle with
      | nil => simpa using isName
      | cons b middle =>
          rw [List.cons_append, List.cons.injEq] at isRest
          rw [isName, ← isRest.1] at notIn
          simp at notIn
  · rintro rfl
    exact ⟨value, by simp⟩

/-- A variable of the environment. -/
structure Entry where
  loc : Loc
  name : List Byte
  value : List Byte

namespace Entry

/-- The name and the value are strings, and the name ends at the first `=`. -/
structure Valid (entry : Entry) : Prop where
  noEquals : equals ∉ entry.name
  nameNoNul : ∀ b ∈ entry.name, b ≠ 0
  valueNoNul : ∀ b ∈ entry.value, b ≠ 0

/-- The variable is in memory, perhaps with something behind it. -/
def Stored (entry : Entry) (mem : Loc → Option Block) : Prop :=
  ∃ behind, mem entry.loc = some (.text (varText entry.name entry.value ++ 0 :: behind))

theorem noNul {entry : Entry} (valid : entry.Valid) :
    ∀ b ∈ varText entry.name entry.value, b ≠ 0 := by
  intro b isIn
  rw [varText, List.mem_append, List.mem_cons] at isIn
  rcases isIn with isIn | rfl | isIn
  · exact valid.nameNoNul b isIn
  · decide
  · exact valid.valueNoNul b isIn

/-- The string of a variable. -/
theorem string_eq {entry : Entry} (valid : entry.Valid) {env : Env} (stored : entry.Stored env.mem) :
    env.string entry.loc = some (varText entry.name entry.value) := by
  rcases stored with ⟨behind, isStored⟩
  have isString : (varText entry.name entry.value ++ 0 :: behind).takeWhile (· ≠ 0) =
      varText entry.name entry.value := by
    rw [List.takeWhile_append_of_pos (by simpa using noNul valid)]
    simp
  simp only [Env.string, isStored]
  rw [if_pos (by simp), isString]

end Entry

/-- The value of a variable in a list of variables. -/
def valueOf (entries : List Entry) (name : List Byte) : Option (List Byte) :=
  (entries.find? fun entry => entry.name = name).map Entry.value

/-- The pointers to the variables. -/
def pointers (entries : List Entry) : List (Option Loc) := entries.map fun entry => some entry.loc

/-- The environment consists of these variables, with distinct names. -/
structure Inv (env : Env) (entries : List Entry) : Prop where
  valid : ∀ entry ∈ entries, entry.Valid
  stored : ∀ entry ∈ entries, entry.Stored env.mem
  slots : ∃ behind, env.mem env.environ = some (.vector (pointers entries ++ none :: behind))
  locs : (entries.map Entry.loc).Nodup
  names : (entries.map Entry.name).Nodup

/-- The loop over the vector ends at the variable with the name or at the terminating `NULL`. -/
theorem scan_entries {env : Env} {name : List Byte} (noNul : ∀ b ∈ name, b ≠ 0)
    (noEquals : equals ∉ name) (entries : List Entry) (valid : ∀ entry ∈ entries, entry.Valid)
    (stored : ∀ entry ∈ entries, entry.Stored env.mem) (behind : List (Option Loc)) (start : ℕ) :
    (∃ before entry after, entries = before ++ entry :: after ∧ entry.name = name ∧
        name ∉ before.map Entry.name ∧
        env.scan name start (pointers entries ++ none :: behind) =
          some (.at (start + before.length) entry.loc (varText name entry.value))) ∨
      (name ∉ entries.map Entry.name ∧
        env.scan name start (pointers entries ++ none :: behind) =
          some (.missing (start + entries.length))) := by
  induction entries generalizing start with
  | nil => exact Or.inr ⟨by simp, rfl⟩
  | cons entry entries ih =>
      have isValid := valid entry List.mem_cons_self
      have isString := entry.string_eq isValid (stored entry List.mem_cons_self)
      have isScan : env.scan name start (pointers (entry :: entries) ++ none :: behind) =
          if isVar name (varText entry.name entry.value) then
            some (.at start entry.loc (varText entry.name entry.value))
          else
            env.scan name (start + 1) (pointers entries ++ none :: behind) := by
        show env.scan name start (some entry.loc :: (pointers entries ++ none :: behind)) = _
        rw [Env.scan, isString]
        rfl
      rw [isScan]
      by_cases same : name = entry.name
      · left
        refine ⟨[], entry, entries, rfl, same.symm, by simp, ?_⟩
        rw [if_pos ((isVar_varText noNul noEquals isValid.noEquals).mpr same), same]
        rfl
      · rw [if_neg (mt (isVar_varText noNul noEquals isValid.noEquals).mp same)]
        rcases ih (fun other isIn => valid other (List.mem_cons_of_mem entry isIn))
          (fun other isIn => stored other (List.mem_cons_of_mem entry isIn)) (start + 1) with
          ⟨before, found, after, rfl, isName, notBefore, isFound⟩ | ⟨notIn, isMissing⟩
        · left
          refine ⟨entry :: before, found, after, rfl, isName, by simp [same, notBefore], ?_⟩
          rw [isFound, List.length_cons]
          congr 2
          omega
        · right
          refine ⟨by simp [same, notIn], ?_⟩
          rw [isMissing, List.length_cons]
          congr 2
          omega

/-! ## Values -/

section

variable {before after entries : List Entry} {entry : Entry} {name : List Byte}

theorem valueOf_append (notIn : name ∉ before.map Entry.name) :
    valueOf (before ++ after) name = valueOf after name := by
  have notFound : before.find? (fun entry => entry.name = name) = none := by
    rw [List.find?_eq_none]
    intro entry isIn same
    rw [decide_eq_true_eq] at same
    exact notIn (List.mem_map.mpr ⟨entry, isIn, same⟩)
  rw [valueOf, valueOf, List.find?_append, notFound, Option.none_or]

theorem valueOf_cons (entry : Entry) (after : List Entry) (name : List Byte) :
    valueOf (entry :: after) name =
      if entry.name = name then some entry.value else valueOf after name := by
  rw [valueOf, List.find?_cons]
  by_cases same : entry.name = name
  · simp [same]
  · simp [same, valueOf]

theorem valueOf_missing (notIn : name ∉ entries.map Entry.name) : valueOf entries name = none := by
  have isNil : valueOf (entries ++ []) name = valueOf [] name := valueOf_append notIn
  rwa [List.append_nil] at isNil

/-- A variable gets another value. -/
theorem valueOf_set (notBefore : entry.name ∉ before.map Entry.name) (loc : Loc)
    (value : List Byte) :
    valueOf (before ++ ⟨loc, entry.name, value⟩ :: after) =
      Function.update (valueOf (before ++ entry :: after)) entry.name (some value) := by
  funext name
  rcases eq_or_ne name entry.name with rfl | different
  · rw [Function.update_self, valueOf_append notBefore, valueOf_cons, if_pos rfl]
  · rw [Function.update_of_ne different]
    by_cases isBefore : name ∈ before.map Entry.name
    · have found : ∀ rest, valueOf (before ++ rest) name = valueOf before name := by
        intro rest
        rcases List.mem_map.mp isBefore with ⟨found, isIn, isName⟩
        have isSome : (before.find? fun entry => entry.name = name).isSome = true := by
          rw [List.find?_isSome]
          exact ⟨found, isIn, by simpa using isName⟩
        rw [valueOf, valueOf, List.find?_append, Option.or_of_isSome isSome]
      rw [found, found]
    · rw [valueOf_append isBefore, valueOf_append isBefore, valueOf_cons, valueOf_cons,
        if_neg (Ne.symm different), if_neg (Ne.symm different)]

/-- A variable is removed. -/
theorem valueOf_unset (notBefore : entry.name ∉ before.map Entry.name)
    (notAfter : entry.name ∉ after.map Entry.name) :
    valueOf (before ++ after) =
      Function.update (valueOf (before ++ entry :: after)) entry.name none := by
  funext name
  rcases eq_or_ne name entry.name with rfl | different
  · rw [Function.update_self]
    exact valueOf_missing (by simp [notBefore, notAfter])
  · rw [Function.update_of_ne different]
    simp only [valueOf, List.find?_append, List.find?_cons]
    simp [Ne.symm different]

/-- A variable is added at the end. -/
theorem valueOf_add (notIn : entry.name ∉ entries.map Entry.name) :
    valueOf (entries ++ [entry]) =
      Function.update (valueOf entries) entry.name (some entry.value) := by
  funext name
  rcases eq_or_ne name entry.name with rfl | different
  · rw [Function.update_self, valueOf_append notIn, valueOf_cons, if_pos rfl]
  · rw [Function.update_of_ne different]
    simp only [valueOf, List.find?_append, List.find?_cons]
    simp [Ne.symm different]

end

/-! ## The operations -/

section

variable {env : Env} {entries before after : List Entry} {entry : Entry}

theorem environ_ne (inv : Inv env entries) (isIn : entry ∈ entries) : entry.loc ≠ env.environ := by
  intro same
  rcases inv.stored entry isIn with ⟨_, isText⟩
  rcases inv.slots with ⟨_, isVector⟩
  rw [same, isVector] at isText
  cases isText

theorem slots_eq {behind : List (Option Loc)}
    (isVector : env.mem env.environ = some (.vector (pointers entries ++ none :: behind))) :
    env.slots = some (pointers entries ++ none :: behind) := by
  rw [Env.slots, isVector]

/-- The locations of different variables are different. -/
theorem loc_ne (inv : Inv env (before ++ entry :: after)) {other : Entry}
    (isIn : other ∈ before ++ after) : other.loc ≠ entry.loc := by
  have nodup := inv.locs
  rw [List.map_append, List.map_cons, List.nodup_middle, List.nodup_cons] at nodup
  intro same
  apply nodup.1
  rw [← same, ← List.map_append]
  exact List.mem_map_of_mem isIn

theorem name_notIn (inv : Inv env (before ++ entry :: after)) :
    entry.name ∉ before.map Entry.name ∧ entry.name ∉ after.map Entry.name := by
  have nodup := inv.names
  rw [List.map_append, List.map_cons, List.nodup_middle, List.nodup_cons, List.mem_append,
    not_or] at nodup
  exact nodup.1

/-- One variable of the environment is replaced. -/
theorem inv_replace (inv : Inv env (before ++ entry :: after)) {new : Entry} {env' : Env}
    (sameName : new.name = entry.name) (valid : new.Valid) (stored : new.Stored env'.mem)
    (others : ∀ other ∈ before ++ after, env'.mem other.loc = env.mem other.loc)
    (locNew : new.loc ∉ (before ++ after).map Entry.loc)
    (slots : ∃ behind, env'.mem env'.environ =
      some (.vector (pointers (before ++ new :: after) ++ none :: behind))) :
    Inv env' (before ++ new :: after) := by
  have isOther : ∀ other ∈ before ++ new :: after, other = new ∨ other ∈ before ++ after := by
    intro other isIn
    simp only [List.mem_append, List.mem_cons] at isIn ⊢
    tauto
  have wasIn : ∀ other ∈ before ++ after, other ∈ before ++ entry :: after := by
    intro other isIn
    simp only [List.mem_append, List.mem_cons] at isIn ⊢
    tauto
  refine ⟨?_, ?_, slots, ?_, ?_⟩
  · intro other isIn
    rcases isOther other isIn with rfl | isIn
    · exact valid
    · exact inv.valid other (wasIn other isIn)
  · intro other isIn
    rcases isOther other isIn with rfl | isIn
    · exact stored
    · rcases inv.stored other (wasIn other isIn) with ⟨behind, isStored⟩
      exact ⟨behind, by rw [others other isIn, isStored]⟩
  · have nodup := inv.locs
    rw [List.map_append, List.map_cons, List.nodup_middle, List.nodup_cons] at nodup ⊢
    exact ⟨by rwa [← List.map_append], nodup.2⟩
  · have nodup := inv.names
    rw [List.map_append, List.map_cons] at nodup ⊢
    rwa [sameName]

theorem pointers_append (before after : List Entry) :
    pointers (before ++ after) = pointers before ++ pointers after := List.map_append

theorem length_pointers (entries : List Entry) : (pointers entries).length = entries.length :=
  List.length_map _

/-- The value is overwritten in place. -/
theorem overwriteVar_inPlace (inv : Inv env (before ++ entry :: after)) {name value : CString}
    (isName : entry.name = name.bytes) (short : value.bytes.length ≤ entry.value.length)
    (slots : List (Option Loc)) (index : ℕ) (fresh : Malloc) :
    ∃ env', env.overwriteVar name value slots index entry.loc (varText entry.name entry.value)
        fresh = some env' ∧ Inv env' (before ++ ⟨entry.loc, entry.name, value.bytes⟩ :: after) := by
  have isIn : entry ∈ before ++ entry :: after := by simp
  rcases inv.stored entry isIn with ⟨behind, isStored⟩
  rcases inv.slots with ⟨rest, isVector⟩
  have isOld : (varText entry.name entry.value).drop (name.bytes.length + 1) = entry.value := by
    rw [varText, ← isName, ← List.drop_drop, List.drop_left, List.drop_one, List.tail_cons]
  have isFront : (varText entry.name entry.value ++ 0 :: behind).take (name.bytes.length + 1) =
      entry.name ++ [equals] := by
    rw [varText, ← isName, List.append_assoc, List.cons_append, List.append_cons]
    apply List.take_left'
    simp
  have isBehind : (varText entry.name entry.value ++ 0 :: behind).drop
      (name.bytes.length + 1 + (entry.value.length + 1)) = behind := by
    rw [← isName, List.append_cons]
    apply List.drop_left'
    simp [varText]
    omega
  have isCopy : strncpy value.bytes (entry.value.length + 1) =
      value.bytes ++ 0 :: List.replicate (entry.value.length - value.bytes.length) 0 := by
    rw [strncpy, List.take_append, List.take_of_length_le (by omega), List.take_replicate,
      ← List.replicate_succ]
    congr 2
    omega
  refine ⟨env.store entry.loc (.text (entry.name ++ [equals] ++ (value.bytes ++
    0 :: List.replicate (entry.value.length - value.bytes.length) 0) ++ behind)), ?_, ?_⟩
  · simp only [Env.overwriteVar, isOld, if_pos short, isStored, isFront, isBehind, isCopy]
  · apply inv_replace inv
    · rfl
    · have valid := inv.valid entry isIn
      exact ⟨valid.noEquals, valid.nameNoNul, value.noNul⟩
    · refine ⟨List.replicate (entry.value.length - value.bytes.length) 0 ++ behind, ?_⟩
      simp [Env.store, varText]
    · intro other otherIn
      exact Function.update_of_ne (loc_ne inv otherIn) _ _
    · intro locIn
      rcases List.mem_map.mp locIn with ⟨other, otherIn, same⟩
      exact loc_ne inv otherIn same
    · refine ⟨rest, ?_⟩
      show Function.update env.mem entry.loc _ env.environ = _
      rw [Function.update_of_ne (environ_ne inv isIn).symm, isVector]
      simp [pointers]

/-- A block that is in use can be freed, and no other block changes. -/
theorem free_spec {loc : Loc} (inUse : env.mem loc ≠ none) :
    ∃ mem, env.free loc = some { env with mem := mem } ∧
      ∀ other, other ≠ loc → mem other = env.mem other := by
  rw [Env.free]
  split
  · rw [if_pos (Option.isSome_iff_ne_none.mpr inUse)]
    exact ⟨_, rfl, fun other different => Function.update_of_ne different _ _⟩
  · exact ⟨env.mem, rfl, fun _ _ => rfl⟩

/-- `malloc` returns blocks that are not in use. -/
structure Fresh (env : Env) (fresh : Malloc) : Prop where
  var : env.mem fresh.var = none
  vec : env.mem fresh.vec = none
  different : fresh.var ≠ fresh.vec
  varOnHeap : fresh.var.belowFrame = true
  vecOnHeap : fresh.vec.belowFrame = true

theorem ne_of_inUse {loc fresh : Loc} (isFresh : env.mem fresh = none) (inUse : env.mem loc ≠ none) :
    loc ≠ fresh := by
  rintro rfl
  exact inUse isFresh

theorem entry_inUse (inv : Inv env entries) (isIn : entry ∈ entries) : env.mem entry.loc ≠ none := by
  rcases inv.stored entry isIn with ⟨_, isStored⟩
  rw [isStored]
  exact Option.some_ne_none _

theorem environ_inUse (inv : Inv env entries) : env.mem env.environ ≠ none := by
  rcases inv.slots with ⟨_, isVector⟩
  rw [isVector]
  exact Option.some_ne_none _

/-- The variable is replaced by a new one. -/
theorem overwriteVar_replaced (inv : Inv env (before ++ entry :: after)) {name value : CString}
    (isName : entry.name = name.bytes) (long : entry.value.length < value.bytes.length)
    (behind : List (Option Loc)) (plainName : ∀ b ∈ name.bytes, b.msb = false)
    (plainValue : ∀ b ∈ value.bytes, b.msb = false)
    {fresh : Malloc} (isFresh : Fresh env fresh) :
    ∃ env', env.overwriteVar name value (pointers (before ++ entry :: after) ++ none :: behind)
        before.length entry.loc (varText entry.name entry.value) fresh = some env' ∧
      Inv env' (before ++ ⟨fresh.var, entry.name, value.bytes⟩ :: after) := by
  have isIn : entry ∈ before ++ entry :: after := by simp
  have isOld : (varText entry.name entry.value).drop (name.bytes.length + 1) = entry.value := by
    rw [varText, ← isName, ← List.drop_drop, List.drop_left, List.drop_one, List.tail_cons]
  have otherIn : ∀ other ∈ before ++ after, other ∈ before ++ entry :: after := by
    intro other isOther
    simp only [List.mem_append, List.mem_cons] at isOther ⊢
    tauto
  rcases newVar_spec env fresh name value plainName plainValue with ⟨earlier, isNew⟩
  let made : Env := { env.store fresh.var (.text (varText name.bytes value.bytes ++ [0])) with
    earlier := earlier }
  have madeOther : ∀ loc, env.mem loc ≠ none → made.mem loc = env.mem loc :=
    fun loc inUse => Function.update_of_ne (ne_of_inUse isFresh.var inUse) _ _
  have madeVar : made.mem fresh.var = some (.text (varText name.bytes value.bytes ++ [0])) :=
    Function.update_self _ _ _
  have varNe : fresh.var ≠ entry.loc := (ne_of_inUse isFresh.var (entry_inUse inv isIn)).symm
  have varNotEnviron : fresh.var ≠ env.environ :=
    (ne_of_inUse isFresh.var (environ_inUse inv)).symm
  have stillInUse : made.mem entry.loc ≠ none := by
    rw [madeOther _ (entry_inUse inv isIn)]
    exact entry_inUse inv isIn
  rcases free_spec stillInUse with ⟨mem, isFreed, others⟩
  have isSet : (pointers (before ++ entry :: after) ++ none :: behind).set before.length
      (some fresh.var) =
      pointers (before ++ ⟨fresh.var, entry.name, value.bytes⟩ :: after) ++ none :: behind := by
    simp [pointers]
  refine ⟨{ made with mem := Function.update mem env.environ (some (.vector
    (pointers (before ++ ⟨fresh.var, entry.name, value.bytes⟩ :: after) ++ none :: behind))) },
    ?_, ?_⟩
  · simp only [Env.overwriteVar, isOld, if_neg (Nat.not_le_of_lt long), isNew, Option.bind_eq_bind,
      Option.bind_some, Option.pure_def, isSet]
    rw [isFreed]
    rfl
  · apply inv_replace inv
    · rfl
    · have valid := inv.valid entry isIn
      exact ⟨valid.noEquals, valid.nameNoNul, value.noNul⟩
    · refine ⟨[], ?_⟩
      show Function.update mem env.environ _ fresh.var = _
      rw [Function.update_of_ne varNotEnviron, others _ varNe, madeVar, isName]
    · intro other isOther
      show Function.update mem env.environ _ other.loc = _
      rw [Function.update_of_ne (environ_ne inv (otherIn other isOther)),
        others _ (loc_ne inv isOther), madeOther _ (entry_inUse inv (otherIn other isOther))]
    · intro locIn
      rcases List.mem_map.mp locIn with ⟨other, isOther, same⟩
      exact ne_of_inUse isFresh.var (entry_inUse inv (otherIn other isOther)) same
    · exact ⟨behind, Function.update_self _ _ _⟩

/-- A variable is added, in a new vector. -/
theorem addVar_spec (inv : Inv env entries) {name value : CString}
    (noEquals : equals ∉ name.bytes) (notIn : name.bytes ∉ entries.map Entry.name)
    (behind : List (Option Loc))
    (plainName : ∀ b ∈ name.bytes, b.msb = false) (plainValue : ∀ b ∈ value.bytes, b.msb = false)
    {fresh : Malloc} (isFresh : Fresh env fresh) :
    ∃ env', env.addVar name value (pointers entries ++ none :: behind) entries.length fresh =
        some env' ∧ Inv env' (entries ++ [⟨fresh.var, name.bytes, value.bytes⟩]) := by
  have isTake : (pointers entries ++ none :: behind).take entries.length = pointers entries := by
    rw [← length_pointers]
    exact List.take_left
  let stored := env.store fresh.vec (.vector (pointers entries ++ [some fresh.var, none]))
  rcases newVar_spec stored fresh name value plainName plainValue with ⟨earlier, isNew⟩
  let made : Env := { stored.store fresh.var (.text (varText name.bytes value.bytes ++ [0])) with
    earlier := earlier }
  have madeOther : ∀ loc, env.mem loc ≠ none → made.mem loc = env.mem loc := by
    intro loc inUse
    show Function.update (Function.update env.mem fresh.vec _) fresh.var _ loc = _
    rw [Function.update_of_ne (ne_of_inUse isFresh.var inUse),
      Function.update_of_ne (ne_of_inUse isFresh.vec inUse)]
  have madeVar : made.mem fresh.var = some (.text (varText name.bytes value.bytes ++ [0])) :=
    Function.update_self _ _ _
  have madeVec : made.mem fresh.vec =
      some (.vector (pointers entries ++ [some fresh.var, none])) := by
    show Function.update (Function.update env.mem fresh.vec _) fresh.var _ fresh.vec = _
    rw [Function.update_of_ne isFresh.different.symm, Function.update_self]
  have stillInUse : made.mem env.environ ≠ none := by
    rw [madeOther _ (environ_inUse inv)]
    exact environ_inUse inv
  rcases free_spec stillInUse with ⟨mem, isFreed, others⟩
  have varOther : fresh.var ≠ env.environ := (ne_of_inUse isFresh.var (environ_inUse inv)).symm
  have vecOther : fresh.vec ≠ env.environ := (ne_of_inUse isFresh.vec (environ_inUse inv)).symm
  refine ⟨{ made with mem := mem, environ := fresh.vec }, ?_, ?_⟩
  · simp only [Env.addVar, isTake, Option.bind_eq_bind, Option.pure_def]
    rw [isNew, Option.bind_some]
    show (made.free env.environ).bind _ = _
    rw [isFreed, Option.bind_some]
  · refine ⟨?_, ?_, ?_, ?_, ?_⟩
    · intro other isOther
      rw [List.mem_append, List.mem_singleton] at isOther
      rcases isOther with isOther | rfl
      · exact inv.valid other isOther
      · exact ⟨noEquals, name.noNul, value.noNul⟩
    · intro other isOther
      rw [List.mem_append, List.mem_singleton] at isOther
      rcases isOther with isOther | rfl
      · rcases inv.stored other isOther with ⟨rest, isStored⟩
        refine ⟨rest, ?_⟩
        show mem other.loc = _
        rw [others _ (environ_ne inv isOther), madeOther _ (entry_inUse inv isOther), isStored]
      · refine ⟨[], ?_⟩
        show mem fresh.var = _
        rw [others _ varOther, madeVar]
    · refine ⟨[], ?_⟩
      show mem fresh.vec = _
      rw [others _ vecOther, madeVec, pointers_append]
      simp [pointers]
    · rw [List.map_append, List.map_singleton, List.nodup_append]
      refine ⟨inv.locs, by simp, ?_⟩
      intro loc locIn other isOther
      rcases List.mem_map.mp locIn with ⟨found, isFound, rfl⟩
      rw [List.mem_singleton] at isOther
      rw [isOther]
      exact ne_of_inUse isFresh.var (entry_inUse inv isFound)
    · rw [List.map_append, List.map_singleton, List.nodup_append]
      refine ⟨inv.names, by simp, ?_⟩
      intro other isOther new isNew same
      rw [List.mem_singleton] at isNew
      rw [same, isNew] at isOther
      exact notIn isOther

theorem closeGap_spec (gone : Loc) (after : List Entry) (behind : List (Option Loc)) :
    Env.closeGap (some gone :: (pointers after ++ none :: behind)) =
      some (pointers after ++ none :: none :: behind) := by
  induction after generalizing gone with
  | nil => rfl
  | cons entry after ih =>
      show Env.closeGap (some gone :: some entry.loc :: (pointers after ++ none :: behind)) = _
      rw [Env.closeGap, ih]
      rfl

/-- The variable is removed. -/
theorem inv_unset (inv : Inv env (before ++ entry :: after)) {mem : Loc → Option Block}
    (others : ∀ other, other ≠ entry.loc → mem other = env.mem other)
    (behind : List (Option Loc)) :
    Inv (Env.store { env with mem := mem } env.environ
      (.vector (pointers (before ++ after) ++ none :: behind))) (before ++ after) := by
  have otherIn : ∀ other ∈ before ++ after, other ∈ before ++ entry :: after := by
    intro other isOther
    simp only [List.mem_append, List.mem_cons] at isOther ⊢
    tauto
  have fewer : List.Sublist (before ++ after) (before ++ entry :: after) :=
    (List.Sublist.refl before).append (List.sublist_cons_self entry after)
  refine ⟨?_, ?_, ⟨behind, Function.update_self _ _ _⟩, ?_, ?_⟩
  · intro other isOther
    exact inv.valid other (otherIn other isOther)
  · intro other isOther
    rcases inv.stored other (otherIn other isOther) with ⟨rest, isStored⟩
    refine ⟨rest, ?_⟩
    show Function.update mem env.environ _ other.loc = _
    rw [Function.update_of_ne (environ_ne inv (otherIn other isOther)),
      others _ (loc_ne inv isOther), isStored]
  · exact inv.locs.sublist (fewer.map _)
  · exact inv.names.sublist (fewer.map _)

end

/-! ## Runs -/

/-- The calls. -/
inductive Act where
  | setenv (name value : Option CString) (overwrite : Bool) (fresh : Malloc)
  | unsetenv (name : Option CString)
  | getenv (name : Option CString)

/-- A finite map from names to values. -/
abbrev Values := List Byte → Option (List Byte)

/-- What a call does to the map. -/
def Act.apply (values : Values) : Act → Values
  | .setenv (some name) (some value) overwrite _ =>
      if Env.validName (some name) ∧ (overwrite ∨ values name.bytes = none) then
        Function.update values name.bytes (some value.bytes)
      else
        values
  | .unsetenv (some name) =>
      if Env.validName (some name) then Function.update values name.bytes none else values
  | _ => values

/-- The environment with the map that it stands for. -/
structure Sys where
  env : Env
  values : Values

namespace Sys

def step (sys : Sys) (act : Act) : Option Sys :=
  let next := match act with
    | .setenv name value overwrite fresh =>
        (sys.env.setenv name value overwrite fresh).map Prod.snd
    | .unsetenv name => (sys.env.unsetenv name).map Prod.snd
    | .getenv name => (sys.env.getenv name).map Prod.snd
  next.map fun env => ⟨env, act.apply sys.values⟩

/-- The call needs no new variable: it is there, and its value stays or is overwritten. -/
def InPlace (sys : Sys) (name value : CString) (overwrite : Bool) : Prop :=
  ∃ old, sys.values name.bytes = some old ∧
    (overwrite = false ∨ value.bytes.length ≤ old.length)

/--
`malloc` returns fresh blocks, and the name and the value of a new variable have no
characters from `0x80` on.
-/
def Heeds (sys : Sys) : Act → Prop
  | .setenv (some name) (some value) overwrite fresh =>
      Fresh sys.env fresh ∧ (sys.InPlace name value overwrite ∨
        (∀ b ∈ name.bytes, b.msb = false) ∧ ∀ b ∈ value.bytes, b.msb = false)
  | _ => True

/-- The environment is a vector of variables with distinct names, and stands for the map. -/
def Refines (sys : Sys) : Prop :=
  ∃ entries, Inv sys.env entries ∧ valueOf entries = sys.values

section

variable {sys : Sys}

theorem inv_errno {env : Env} {entries : List Entry} (inv : Inv env entries) (errno : ℤ) :
    Inv { env with errno := errno } entries :=
  ⟨inv.valid, inv.stored, inv.slots, inv.locs, inv.names⟩

theorem getenv_spec (refines : sys.Refines) (name : Option CString) :
    ∃ env', sys.env.getenv name =
        some (name.bind fun name => if Env.validName (some name) then sys.values name.bytes
          else none, env') ∧ Refines ⟨env', sys.values⟩ := by
  rcases refines with ⟨entries, inv, isValues⟩
  cases name with
  | none => exact ⟨_, rfl, entries, inv_errno inv einval, isValues⟩
  | some name =>
      by_cases isValid : Env.validName (some name) = true
      · have isName := isValid
        rw [Env.validName, decide_eq_true_eq] at isName
        rcases inv.slots with ⟨behind, isVector⟩
        simp only [Env.getenv, if_pos isValid, slots_eq isVector, Option.bind_eq_bind,
          Option.bind_some, Option.pure_def]
        rcases scan_entries name.noNul isName.2 entries inv.valid inv.stored behind 0 with
          ⟨before, entry, after, rfl, sameName, notBefore, isFound⟩ | ⟨notIn, isMissing⟩
        · refine ⟨sys.env, ?_, _, inv, isValues⟩
          rw [isFound, ← isValues, valueOf_append notBefore, valueOf_cons, if_pos sameName]
          simp [varText]
        · refine ⟨sys.env, ?_, _, inv, isValues⟩
          rw [isMissing, ← isValues, valueOf_missing notIn]
          rfl
      · simp only [Env.getenv, Option.bind_some, if_neg isValid]
        exact ⟨_, rfl, entries, inv_errno inv einval, isValues⟩

theorem setenv_spec (refines : sys.Refines) {name value : Option CString} {overwrite : Bool}
    {fresh : Malloc} (heeds : sys.Heeds (.setenv name value overwrite fresh)) :
    ∃ result env', sys.env.setenv name value overwrite fresh = some (result, env') ∧
      Refines ⟨env', Act.apply sys.values (.setenv name value overwrite fresh)⟩ := by
  rcases refines with ⟨entries, inv, isValues⟩
  cases name with
  | none => exact ⟨-1, _, rfl, entries, inv_errno inv einval, isValues⟩
  | some name =>
      cases value with
      | none => exact ⟨-1, _, rfl, entries, inv_errno inv einval, isValues⟩
      | some value =>
          rcases heeds with ⟨isFresh, heeds⟩
          by_cases isValid : Env.validName (some name) = true
          · have isName := isValid
            rw [Env.validName, decide_eq_true_eq] at isName
            rcases inv.slots with ⟨behind, isVector⟩
            simp only [Env.setenv, Act.apply, if_pos isValid, slots_eq isVector,
              Option.bind_eq_bind, Option.bind_some, Option.pure_def]
            rcases scan_entries name.noNul isName.2 entries inv.valid inv.stored behind 0 with
              ⟨before, entry, after, rfl, sameName, notBefore, isFound⟩ | ⟨notIn, isMissing⟩
            · have isValue : sys.values name.bytes = some entry.value := by
                rw [← isValues, valueOf_append notBefore, valueOf_cons, if_pos sameName]
              rw [isFound, Option.bind_some, Nat.zero_add]
              cases overwrite with
              | false =>
                  refine ⟨0, sys.env, rfl, _, inv, ?_⟩
                  rw [if_neg (by simp [isValue])]
                  exact isValues
              | true =>
                  have isUpdated : ∀ loc, valueOf
                      (before ++ ⟨loc, entry.name, value.bytes⟩ :: after) =
                      if Env.validName (some name) = true ∧ (True ∨ sys.values name.bytes = none)
                      then Function.update sys.values name.bytes (some value.bytes)
                      else sys.values := by
                    intro loc
                    rw [if_pos ⟨isValid, Or.inl trivial⟩, ← isValues,
                      valueOf_set (by rw [sameName]; exact notBefore), sameName]
                  simp only [if_true]
                  rw [← sameName]
                  by_cases short : value.bytes.length ≤ entry.value.length
                  · rcases overwriteVar_inPlace inv sameName short
                      (pointers (before ++ entry :: after) ++ none :: behind) before.length fresh
                      with ⟨env', isDone, inv'⟩
                    refine ⟨0, env', by rw [isDone, Option.map_some], _, inv', ?_⟩
                    rw [isUpdated, sameName]
                  · have plain : (∀ b ∈ name.bytes, b.msb = false) ∧
                        ∀ b ∈ value.bytes, b.msb = false := by
                      rcases heeds with ⟨old, isOld, never | fits⟩ | plain
                      · cases never
                      · rw [isValue, Option.some.injEq] at isOld
                        exact absurd (isOld ▸ fits) short
                      · exact plain
                    rcases overwriteVar_replaced inv sameName (Nat.lt_of_not_le short) behind
                      plain.1 plain.2 isFresh with ⟨env', isDone, inv'⟩
                    refine ⟨0, env', by rw [isDone, Option.map_some], _, inv', ?_⟩
                    rw [isUpdated, sameName]
            · have isMissingValue : sys.values name.bytes = none := by
                rw [← isValues]
                exact valueOf_missing notIn
              have plain : (∀ b ∈ name.bytes, b.msb = false) ∧
                  ∀ b ∈ value.bytes, b.msb = false := by
                rcases heeds with ⟨old, isOld, _⟩ | plain
                · rw [isMissingValue] at isOld
                  cases isOld
                · exact plain
              rcases addVar_spec inv isName.2 notIn behind plain.1 plain.2 isFresh with
                ⟨env', isDone, inv'⟩
              rw [isMissing, Option.bind_some, Nat.zero_add]
              refine ⟨0, env', ?_, _, inv', ?_⟩
              · show Option.map _ (sys.env.addVar name value _ entries.length fresh) = _
                rw [isDone, Option.map_some]
              rw [valueOf_add notIn, isValues, if_pos ⟨isValid, Or.inr isMissingValue⟩]
          · simp only [Env.setenv, Act.apply, if_neg isValid]
            refine ⟨-1, _, rfl, entries, inv_errno inv einval, ?_⟩
            rw [if_neg (by simp [isValid])]
            exact isValues

theorem unsetenv_spec (refines : sys.Refines) (name : Option CString) :
    ∃ result env', sys.env.unsetenv name = some (result, env') ∧
      Refines ⟨env', Act.apply sys.values (.unsetenv name)⟩ := by
  rcases refines with ⟨entries, inv, isValues⟩
  cases name with
  | none => exact ⟨-1, _, rfl, entries, inv_errno inv einval, isValues⟩
  | some name =>
      by_cases isValid : Env.validName (some name) = true
      · have isName := isValid
        rw [Env.validName, decide_eq_true_eq] at isName
        rcases inv.slots with ⟨behind, isVector⟩
        simp only [Env.unsetenv, Act.apply, if_pos isValid, slots_eq isVector,
          Option.bind_eq_bind, Option.bind_some, Option.pure_def]
        rcases scan_entries name.noNul isName.2 entries inv.valid inv.stored behind 0 with
          ⟨before, entry, after, rfl, sameName, notBefore, isFound⟩ | ⟨notIn, isMissing⟩
        · have isIn : entry ∈ before ++ entry :: after := by simp
          rcases free_spec (entry_inUse inv isIn) with ⟨mem, isFreed, others⟩
          have isSplit : pointers (before ++ entry :: after) ++ none :: behind =
              pointers before ++ some entry.loc :: (pointers after ++ none :: behind) := by
            simp [pointers]
          have isTake : (pointers (before ++ entry :: after) ++ none :: behind).take
              before.length = pointers before := by
            rw [isSplit, ← length_pointers before, List.take_left]
          have isDrop : (pointers (before ++ entry :: after) ++ none :: behind).drop
              before.length = some entry.loc :: (pointers after ++ none :: behind) := by
            rw [isSplit, ← length_pointers before, List.drop_left]
          rw [isFound, Option.bind_some, Nat.zero_add]
          simp only [isFreed, Option.bind_some, isTake, isDrop, closeGap_spec]
          refine ⟨0, _, rfl, before ++ after, ?_, ?_⟩
          · have inv' := inv_unset inv others (none :: behind)
            rw [pointers_append, List.append_assoc] at inv'
            exact inv'
          · rw [valueOf_unset (name_notIn inv).1 (name_notIn inv).2, isValues, sameName]
        · rw [isMissing, Option.bind_some]
          refine ⟨0, sys.env, rfl, entries, inv, ?_⟩
          rw [← isValues, ← valueOf_missing notIn, Function.update_eq_self]
      · simp only [Env.unsetenv, Act.apply, if_neg isValid]
        exact ⟨-1, _, rfl, entries, inv_errno inv einval, isValues⟩

/-- Every call that heeds the condition succeeds and keeps the environment a map. -/
theorem step_spec (refines : sys.Refines) {act : Act} (heeds : sys.Heeds act) :
    ∃ sys', sys.step act = some sys' ∧ sys'.Refines := by
  cases act with
  | setenv name value overwrite fresh =>
      rcases setenv_spec refines heeds with ⟨result, env', isDone, refines'⟩
      exact ⟨_, by simp only [step, isDone, Option.map_some], refines'⟩
  | unsetenv name =>
      rcases unsetenv_spec refines name with ⟨result, env', isDone, refines'⟩
      exact ⟨_, by simp only [step, isDone, Option.map_some], refines'⟩
  | getenv name =>
      rcases getenv_spec refines name with ⟨env', isDone, refines'⟩
      refine ⟨⟨env', sys.values⟩, ?_, refines'⟩
      simp only [step, isDone, Option.map_some]
      rfl

end

/--
In every run the environment is a vector of variables with distinct names that stands for
the map of the last values: `getenv` returns these, and every call succeeds.
-/
theorem environ_refines {start sys : Sys} (init : start.Refines)
    (reach : Reach step Heeds start sys) :
    sys.Refines ∧
      (∀ name : CString, Env.validName (some name) = true →
        (sys.env.getenv (some name)).map Prod.fst = some (sys.values name.bytes)) ∧
      ∀ act, sys.Heeds act → (sys.step act).isSome = true := by
  have refines : sys.Refines := by
    apply reach.invariant init
    intro state state' act refines heeds stepped
    rcases step_spec refines heeds with ⟨next, isNext, refines'⟩
    rw [stepped, Option.some.injEq] at isNext
    exact isNext ▸ refines'
  refine ⟨refines, ?_, ?_⟩
  · intro name isValid
    rcases getenv_spec refines (some name) with ⟨env', isDone, _⟩
    rw [isDone, Option.map_some, Option.bind_some, if_pos isValid]
  · intro act heeds
    rcases step_spec refines heeds with ⟨next, isNext, _⟩
    rw [isNext]
    rfl

/-! ## A variable that is lost -/

def text (s : String) (noNul : ∀ b ∈ s.toList.map byteOf, b ≠ 0) : CString :=
  ⟨s.toList.map byteOf, noNul⟩

/-- A program that is started with the variable `A=x`. -/
def small : Sys where
  env :=
    { mem := fun loc =>
        if loc = .stack 0 then some (.vector [some (.stack 1), none])
        else if loc = .stack 1 then some (.text ("A=x".toList.map byteOf ++ [0]))
        else none
      environ := .stack 0
      errno := 0
      earlier := 0 }
  values := valueOf [⟨.stack 1, [byteOf 'A'], [byteOf 'x']⟩]

/-- Locations on the heap of the small program. -/
def smallFresh : Malloc := ⟨.heap 0, .heap 1, fun _ => 0⟩

theorem small_refines : small.Refines := by
  refine ⟨[⟨.stack 1, [byteOf 'A'], [byteOf 'x']⟩], ⟨?_, ?_, ⟨[], rfl⟩, by simp, by simp⟩, rfl⟩
  · intro entry isIn
    rw [List.mem_singleton] at isIn
    subst isIn
    exact ⟨by decide, by decide, by decide⟩
  · intro entry isIn
    rw [List.mem_singleton] at isIn
    subst isIn
    exact ⟨[], rfl⟩

theorem small_fresh : Fresh small.env smallFresh := ⟨rfl, rfl, by decide, rfl, rfl⟩

/-- A second variable, the name of the first one is a prefix of its name. -/
theorem environ_refines_second : ∃ sys : Sys,
    (sys.env.getenv (some (text "AB" (by decide)))).map Prod.fst =
      some (some ("yz".toList.map byteOf)) ∧
    (sys.env.getenv (some (text "A" (by decide)))).map Prod.fst =
      some (some ("x".toList.map byteOf)) := by
  let act : Act := .setenv (some (text "AB" (by decide))) (some (text "yz" (by decide))) true
    smallFresh
  have heeds : small.Heeds act :=
    ⟨small_fresh, Or.inr ⟨by unfold text; decide, by unfold text; decide⟩⟩
  rcases step_spec small_refines heeds with ⟨sys, stepped, _⟩
  have isValues : sys.values = act.apply small.values := by
    rw [step, Option.map_eq_some_iff] at stepped
    rcases stepped with ⟨env, _, rfl⟩
    rfl
  rcases environ_refines small_refines (Reach.start.next heeds stepped) with ⟨_, reads, _⟩
  refine ⟨sys, ?_, ?_⟩
  · rw [reads _ (by decide), isValues]
    decide
  · rw [reads _ (by decide), isValues]
    decide

/-- The value of a new variable is lost if it has a character from `0x80` on. -/
theorem value_lost : ∃ name value : CString, ∃ env : Env,
    (small.env.setenv (some name) (some value) true smallFresh) = some (0, env) ∧
      (env.getenv (some name)).map Prod.fst = some (some []) ∧ value.bytes = [0xe9, 0x62] := by
  refine ⟨text "B" (by decide), ⟨[0xe9, 0x62], by decide⟩, ?_⟩
  have isDone : ((small.env.setenv (some (text "B" (by decide))) (some ⟨[0xe9, 0x62], by decide⟩)
      true smallFresh).any fun result => decide (result.1 = 0 ∧
        (result.2.getenv (some (text "B" (by decide)))).map Prod.fst = some (some []))) = true := by
    decide
  rw [Option.any_eq_true] at isDone
  rcases isDone with ⟨⟨result, env⟩, isSet, both⟩
  rw [decide_eq_true_eq] at both
  rcases both with ⟨rfl, isLost⟩
  exact ⟨env, isSet, isLost, rfl⟩

end Sys

end Osix.Environ
