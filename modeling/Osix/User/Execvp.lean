import Osix.User.Environ
import Osix.User.Snprintf

/-!
# The search for a program

`execvp` of `lib/libc/exec.c`. It cuts the string of `PATH` in place at each directory, and the
results of `SYS_exec` are given by the environment. The strings of `environ` are lists of
bytes, each of them in memory of its own and followed by a 0 that is not part of the list.
-/

namespace Osix.Execvp

open Stdio

/-- `PATH_MAX`. -/
def pathMax : ℕ := 256

def slash : Byte := byteOf '/'
def dot : Byte := byteOf '.'
def colon : Byte := byteOf ':'

/-- `"PATH="`. -/
def pathPrefix : List Byte := "PATH=".toList.map byteOf

/-- The format `"%s/%s"`. -/
def pathFormat : CString := ⟨"%s/%s".toList.map byteOf, by decide⟩

/--
The strings of `environ`, `errno`, the size in the stream of `snprintf`, and the paths that
were passed to `SYS_exec` so far.
-/
structure Process where
  environ : List (List Byte)
  errno : ℤ
  earlier : ℕ
  tried : List (List Byte)

namespace Process

/-- The character at an index of a string of `environ`, which may be its terminating 0. -/
def charAt (proc : Process) (e p : ℕ) : Byte := (proc.environ.getD e []).getD p 0

/-- A store over such a character; over the terminating 0 only a 0 is ever stored. -/
def setChar (proc : Process) (e p : ℕ) (c : Byte) : Process :=
  { proc with environ := proc.environ.set e ((proc.environ.getD e []).set p c) }

/-- The string that starts at an index of a string of `environ`. -/
def stringAt (proc : Process) (e start : ℕ) : CString :=
  stringIn ((proc.environ.getD e []).drop start)

end Process

/-- What has become of a call: it has returned, the program is replaced, or it goes on. -/
inductive Search where
  | returned (ret : ℤ) (proc : Process)
  | replaced (proc : Process)
  | goesOn (proc : Process)

section

variable (kernel : ℕ → Option ℤ) (junk : ℕ → ℕ → Byte) (name : CString)

/--
`syscall(SYS_exec, ...)`. For each call the kernel has an error number, or `none` if the
program is replaced; then nothing is returned.
-/
def sysExec (proc : Process) (path : List Byte) : Option ℤ × Process :=
  let called := { proc with tried := proc.tried ++ [path] }
  match kernel proc.tried.length with
  | none => (none, called)
  | some error => (some (-1), { called with errno := error })

/-- The body of the loop between the cut and its undoing. -/
def attempt (dir : CString) (proc : Process) : Option Search := do
  let (_, f) ← Stdio.File.snprintf proc.earlier (junk proc.tried.length) pathMax pathMax pathFormat
    [.text (some dir), .text (some name)]
  let fullpath := (stringIn ((List.range pathMax).map f.buf)).bytes
  match sysExec kernel { proc with earlier := f.size } fullpath with
  | (none, proc) => return .replaced proc
  | (some ret, proc) =>
      if ret ≠ -1 ∨ proc.errno ≠ enoent then return .returned ret proc else return .goesOn proc

/-- The loop over a string `PATH=...`, at the index `e` of `environ`. -/
def searchLoop (e : ℕ) : ℕ → ℕ → ℕ → Process → Option Search
  | 0, _, _, _ => none
  | fuel + 1, p, start, proc =>
      let saved := proc.charAt e p
      if saved = colon ∨ saved = 0 then do
        let cut := proc.setChar e p 0
        match ← attempt kernel junk name (cut.stringAt e start) cut with
        | .goesOn proc =>
            let restored := proc.setChar e p saved
            if saved = 0 then return .goesOn restored
            else searchLoop e fuel (p + 1) (p + 1) restored
        | ended => return ended
      else
        searchLoop e fuel (p + 1) start proc

/-- The loop over `environ`, for so many strings up to its end. -/
def searchEnviron : ℕ → ℕ → Process → Option Search
  | 0, _, proc => some (.returned (-enoent) proc)
  | left + 1, e, proc =>
      let string := proc.environ.getD e []
      if Environ.strncmp 5 string pathPrefix = 0 then do
        match ← searchLoop kernel junk name e (string.length + 1) 5 5 proc with
        | .goesOn proc => searchEnviron left (e + 1) proc
        | ended => return ended
      else
        searchEnviron left (e + 1) proc

def execvp (proc : Process) : Option Search :=
  if name.bytes.headD 0 = slash ∨ name.bytes.headD 0 = dot then
    match sysExec kernel proc name.bytes with
    | (none, proc) => some (.replaced proc)
    | (some ret, proc) => some (.returned ret proc)
  else
    searchEnviron kernel junk name proc.environ.length 0 proc

end

/-! ## What should be tried -/

/-- The members of a list, with a mark for the last one. -/
def markLast {α : Type} : List α → List (α × Bool)
  | [] => []
  | [x] => [(x, true)]
  | x :: y :: rest => (x, false) :: markLast (y :: rest)

/-- The directories of `PATH`, each with a mark if it is the last one of its string. -/
def pathDirs (environ : List (List Byte)) : List (List Byte × Bool) :=
  environ.flatMap fun s => if pathPrefix <+: s then markLast ((s.drop 5).splitOn colon) else []

/-- The candidates up to the first one whose result is not the failure `ENOENT`. -/
def upToOther (kernel : ℕ → Option ℤ) : ℕ → List (List Byte) → List (List Byte)
  | _, [] => []
  | k, path :: rest =>
      if kernel k = some enoent then path :: upToOther kernel (k + 1) rest else [path]

/-- A name that is tried as it is. -/
def isDirect (name : CString) : Prop := name.bytes.headD 0 = slash ∨ name.bytes.headD 0 = dot

instance (name : CString) : Decidable (isDirect name) := inferInstanceAs (Decidable (_ ∨ _))

def candidate (name : CString) (dir : List Byte) : List Byte := dir ++ slash :: name.bytes

/-- The candidates that should be tried. -/
def expected (kernel : ℕ → Option ℤ) (name : CString) (environ : List (List Byte)) :
    List (List Byte) :=
  if isDirect name then [name.bytes]
  else upToOther kernel 0 ((pathDirs environ).map fun dir => candidate name dir.1)

/-- The path of the directory and the name fits into the buffer and has only plain characters. -/
structure Fits (name : CString) (dir : List Byte) : Prop where
  short : dir.length + name.bytes.length + 1 < pathMax
  plainDir : ∀ b ∈ dir, b.msb = false
  plainName : ∀ b ∈ name.bytes, b.msb = false

/--
What has to hold of the directories that are tried: their paths fit, and one whose failure is
not `ENOENT` is the last one of its string.
-/
def Undone (kernel : ℕ → Option ℤ) (name : CString) : ℕ → List (List Byte × Bool) → Prop
  | _, [] => True
  | k, dir :: rest =>
      Fits name dir.1 ∧
        match kernel k with
        | none => True
        | some error => if error = enoent then Undone kernel name (k + 1) rest else dir.2 = true

/-! ## The path of a candidate -/

theorem stringIn_of_noNul {text : List Byte} (noNul : ∀ b ∈ text, b ≠ 0) (rest : List Byte) :
    (stringIn (text ++ 0 :: rest)).bytes = text ∧ (stringIn text).bytes = text := by
  have positive : ∀ b ∈ text, decide (b ≠ 0) = true := by simpa using noNul
  refine ⟨?_, List.takeWhile_eq_self_iff.mpr positive⟩
  change (text ++ 0 :: rest).takeWhile (· ≠ 0) = text
  rw [List.takeWhile_append_of_pos positive]
  simp

/-- The string in a buffer that begins with a text and a 0. -/
theorem stringIn_buf {buf : ℕ → Byte} {text : List Byte} {n : ℕ} (inRoom : text.length < n)
    (noNul : ∀ b ∈ text, b ≠ 0) (isText : ∀ i < text.length, buf i = text.getD i 0)
    (atEnd : buf text.length = 0) : (stringIn ((List.range n).map buf)).bytes = text := by
  obtain ⟨more, rfl⟩ := Nat.exists_eq_add_of_lt inRoom
  have isFront : (List.range text.length).map buf = text := by
    apply List.ext_getElem
    · simp
    · intro i _ below
      rw [List.getElem_map, List.getElem_range, isText i below, List.getD_eq_getElem _ _ below]
  have isBuffer : (List.range (text.length + more + 1)).map buf = text ++
      0 :: (List.range more).map fun i => buf (text.length + (i + 1)) := by
    rw [Nat.add_assoc, List.range_add, List.map_append, isFront, List.range_succ_eq_map,
      List.map_cons, List.map_cons, List.map_map, List.map_map, Nat.add_zero, atEnd]
    rfl
  rw [isBuffer]
  exact (stringIn_of_noNul noNul _).1

/-- The string in a buffer ends at the first 0. -/
theorem length_stringIn_le {buf : ℕ → Byte} {n last : ℕ} (isNul : buf last = 0) :
    (stringIn ((List.range n).map buf)).bytes.length ≤ last := by
  by_contra longer
  have below : last < (stringIn ((List.range n).map buf)).bytes.length := by omega
  have isPrefix : (stringIn ((List.range n).map buf)).bytes <+: (List.range n).map buf :=
    List.takeWhile_prefix _
  have notNul := (stringIn ((List.range n).map buf)).noNul _ (List.getElem_mem below)
  rw [isPrefix.getElem below, List.getElem_map, List.getElem_range] at notNul
  exact notNul isNul

section

variable (kernel : ℕ → Option ℤ) (junk : ℕ → ℕ → Byte) (name : CString)

/-- The pieces of the path. -/
theorem pieces_path (dir : CString) :
    pieces pathFormat [.text (some dir), .text (some name)] =
      some [.string dir.bytes 0, .text [slash], .string name.bytes 0] := rfl

theorem formatted_path (dir : CString) :
    formattedAll [.string dir.bytes 0, .text [slash], .string name.bytes 0] =
      candidate name dir.bytes := by
  simp [formattedAll, Piece.formatted, candidate]

theorem exact_of_fits {dir : CString} (fits : Fits name dir.bytes) :
    Exact pathMax [.string dir.bytes 0, .text [slash], .string name.bytes 0] := by
  have short := fits.short
  refine ⟨by simp, Or.inl ⟨?_, ?_⟩⟩
  · intro p isIn
    simp only [List.mem_cons, List.not_mem_nil, or_false] at isIn
    rcases isIn with rfl | rfl | rfl
    · exact fits.plainDir
    · trivial
    · exact fits.plainName
  · rw [formatted_path, candidate, List.length_append, List.length_cons]
    omega

/-- A path that is as long as the candidate fits. -/
theorem fits_of_counted {dir : CString}
    (counted : (candidate name dir.bytes).length ≤ Stdio.File.lastPlace
      (countedAll [.string dir.bytes 0, .text [slash], .string name.bytes 0]) pathMax) :
    Fits name dir.bytes := by
  have atMost := countedAll_le [.string dir.bytes 0, .text [slash], .string name.bytes 0]
  rw [formatted_path] at atMost
  rw [Stdio.File.lastPlace_eq (by decide)] at counted
  have counts := (countedAll_eq_iff [.string dir.bytes 0, .text [slash], .string name.bytes 0]).mp
    (by rw [formatted_path]; omega)
  have isPlain : ∀ s : List Byte, (Piece.string s 0).Counts → ∀ b ∈ s, b.msb = false := by
    rintro s (plain | short)
    · exact plain
    · rw [List.length_eq_zero_iff.mp (Nat.le_zero.mp short)]
      exact fun b isIn => nomatch isIn
  refine ⟨?_, isPlain _ (counts _ (by simp)), isPlain _ (counts _ (by simp))⟩
  have positive : 1 ≤ pathMax := by decide
  rw [candidate, List.length_append, List.length_cons] at counted
  omega

theorem candidate_noNul (dir : CString) : ∀ b ∈ candidate name dir.bytes, b ≠ 0 := by
  have notNul : slash ≠ 0 := by decide
  intro b isIn
  rw [candidate, List.mem_append, List.mem_cons] at isIn
  rcases isIn with isDir | rfl | isName
  · exact dir.noNul b isDir
  · exact notNul
  · exact name.noNul b isName

/-- The path is the candidate just if it fits. -/
theorem path_iff {dir : CString} {earlier : ℕ} {block : ℕ → Byte} {count : ℤ} {f : Stdio.File}
    (isPrint : Stdio.File.snprintf earlier block pathMax pathMax pathFormat
      [.text (some dir), .text (some name)] = some (count, f)) :
    (stringIn ((List.range pathMax).map f.buf)).bytes = candidate name dir.bytes ↔
      Fits name dir.bytes := by
  have positive : 1 ≤ pathMax := by decide
  constructor
  · intro isPath
    have inRoom : (emittedAll [.string dir.bytes 0, .text [slash], .string name.bytes 0]).length ≤
        pathMax := by
      by_contra tooLong
      rw [Stdio.File.snprintf_none (pieces_path name dir) (by omega)] at isPrint
      cases isPrint
    rcases @Stdio.File.snprintf_eq earlier pathMax pathMax block pathFormat _ _
      (pieces_path name dir) inRoom (by rw [Stdio.File.lastPlace_eq positive]; omega) with
      ⟨f', isPrint', isBuf⟩
    rw [isPrint', Option.some.injEq, Prod.mk.injEq] at isPrint
    rcases isPrint with ⟨-, rfl⟩
    apply fits_of_counted
    rw [← isPath]
    apply length_stringIn_le
    rw [isBuf, if_pos rfl]
  · intro fits
    rcases @Stdio.File.prints_of_exact earlier pathMax block _ _ _ (pieces_path name dir) positive
      (exact_of_fits name fits) with ⟨text, f', isText, isPrint', isFront, atEnd⟩
    rw [Stdio.File.format_eq (pieces_path name dir), formatted_path, Option.some.injEq] at isText
    subst isText
    rw [isPrint', Option.some.injEq, Prod.mk.injEq] at isPrint
    rcases isPrint with ⟨-, rfl⟩
    have isLength : (candidate name dir.bytes).length =
        dir.bytes.length + name.bytes.length + 1 := by
      rw [candidate, List.length_append, List.length_cons]
      omega
    have short := fits.short
    rw [Nat.min_eq_left (by omega)] at isFront atEnd
    exact stringIn_buf (by omega) (candidate_noNul name dir) isFront atEnd

theorem path_none {dir : CString} {earlier : ℕ} {block : ℕ → Byte}
    (isNone : Stdio.File.snprintf earlier block pathMax pathMax pathFormat
      [.text (some dir), .text (some name)] = none) : ¬Fits name dir.bytes := by
  intro fits
  rcases @Stdio.File.prints_of_exact earlier pathMax block _ _ _ (pieces_path name dir) (by decide)
    (exact_of_fits name fits) with ⟨text, f, -, isPrint, -⟩
  rw [isNone] at isPrint
  cases isPrint

/-- What one candidate does: its path is passed to `SYS_exec`, and nothing else is changed. -/
theorem attempt_cases (dir : CString) (proc : Process) :
    attempt kernel junk name dir proc = none ∧ ¬Fits name dir.bytes ∨
    ∃ earlier path, (path = candidate name dir.bytes ↔ Fits name dir.bytes) ∧
      attempt kernel junk name dir proc = some
        (match kernel proc.tried.length with
        | none => .replaced { proc with earlier := earlier, tried := proc.tried ++ [path] }
        | some error =>
            if error = enoent then
              .goesOn { proc with
                earlier := earlier, errno := error, tried := proc.tried ++ [path] }
            else
              .returned (-1) { proc with
                earlier := earlier, errno := error, tried := proc.tried ++ [path] }) := by
  rcases isPrint : Stdio.File.snprintf proc.earlier (junk proc.tried.length) pathMax pathMax
    pathFormat [.text (some dir), .text (some name)] with _ | ⟨count, f⟩
  · left
    refine ⟨?_, path_none name isPrint⟩
    simp only [attempt, isPrint, Option.bind_eq_bind, Option.bind_none]
  · right
    refine ⟨f.size, _, path_iff name isPrint, ?_⟩
    simp only [attempt, isPrint, Option.bind_eq_bind, Option.bind_some, sysExec]
    rcases kernel proc.tried.length with _ | error
    · rfl
    · by_cases isMissing : error = enoent
      · simp [isMissing]
      · simp [isMissing]

/-! ## The places of the search -/

/-- A directory, the mark for the last one of its string, and `environ` while it is tried. -/
structure Place where
  dir : List Byte
  last : Bool
  cut : List (List Byte)

/-- The places of a string that is left to search, behind `before` and a part of a directory. -/
def placesIn (environ : List (List Byte)) (e : ℕ) :
    List Byte → List Byte → List Byte → List Place
  | _, dir, [] => [⟨dir, true, environ⟩]
  | before, dir, c :: rest =>
      if c = colon then
        ⟨dir, false, environ.set e (before ++ dir ++ 0 :: rest)⟩ ::
          placesIn environ e (before ++ dir ++ [c]) [] rest
      else
        placesIn environ e before (dir ++ [c]) rest

/-- Going on with the search after one string. -/
def andThen (next : Process → Option Search) : Search → Option Search
  | .goesOn proc => next proc
  | ended => some ended

/-- The places are tried one after the other, and then the search goes on. -/
def tryPlaces (next : Process → Option Search) : List Place → Process → Option Search
  | [], proc => next proc
  | place :: rest, proc =>
      (attempt kernel junk name (stringIn place.dir) { proc with environ := place.cut }).bind
        (andThen fun tried => tryPlaces next rest { tried with environ := proc.environ })

theorem cstring_eq {s t : CString} (same : s.bytes = t.bytes) : s = t := by
  cases s
  cases t
  cases same
  rfl

variable {kernel junk name} in
theorem attempt_environ {dir : CString} {proc tried : Process}
    (isTried : attempt kernel junk name dir proc = some (.goesOn tried)) :
    tried.environ = proc.environ := by
  rcases attempt_cases kernel junk name dir proc with ⟨isNone, -⟩ | ⟨earlier, path, -, isSome⟩
  · rw [isNone] at isTried
    cases isTried
  · rw [isSome, Option.some.injEq] at isTried
    split at isTried
    · cases isTried
    · split at isTried
      · cases isTried
        rfl
      · cases isTried

theorem set_getD {environ : List (List Byte)} {e : ℕ} (inEnviron : e < environ.length) :
    environ.set e (environ.getD e []) = environ := by
  rw [List.getD_eq_getElem _ _ inEnviron, List.set_getElem_self]

theorem colon_ne_zero : colon ≠ 0 := by decide

/-- A list whose member behind a front is replaced. -/
theorem set_behind (front rest : List Byte) (b c : Byte) :
    (front ++ b :: rest).set front.length c = front ++ c :: rest := by
  rw [List.set_append_right _ _ le_rfl, Nat.sub_self, List.set_cons_zero]

/-- The loop over a string tries its places and leaves `environ` as it was. -/
theorem searchLoop_eq (next : Process → Option Search) {e fuel : ℕ} {before dir rest : List Byte}
    {proc : Process} (inEnviron : e < proc.environ.length)
    (isString : proc.environ.getD e [] = before ++ dir ++ rest)
    (noNul : ∀ b ∈ before ++ dir ++ rest, b ≠ 0) (enough : rest.length < fuel) :
    (searchLoop kernel junk name e fuel (before ++ dir).length before.length proc).bind
        (andThen next) =
      tryPlaces kernel junk name next (placesIn proc.environ e before dir rest) proc := by
  induction rest generalizing before dir fuel proc with
  | nil =>
      obtain ⟨fuel, rfl⟩ := Nat.exists_eq_add_of_le' (show 1 ≤ fuel by omega)
      rw [List.append_nil] at isString
      have atEnd : proc.charAt e (before ++ dir).length = 0 := by
        rw [Process.charAt, isString]
        simp
      have sameEnviron : ∀ tried : Process, tried.environ = proc.environ →
          tried.setChar e (before ++ dir).length 0 = tried := by
        intro tried same
        have sameString : (before ++ dir).set (before ++ dir).length 0 = before ++ dir :=
          List.set_eq_of_length_le le_rfl
        rw [Process.setChar, same, isString, sameString, ← isString, set_getD inEnviron, ← same]
      have isDir : proc.stringAt e before.length = stringIn dir := by
        rw [Process.stringAt, isString, List.drop_left]
      simp only [searchLoop, atEnd, or_true, if_true, sameEnviron proc rfl, isDir,
        placesIn, tryPlaces]
      rcases isTried : attempt kernel junk name (stringIn dir) proc with _ | search
      · rfl
      · cases search with
        | returned ret tried => rfl
        | replaced tried => rfl
        | goesOn tried =>
            have same := attempt_environ isTried
            simp only [Option.bind_eq_bind, Option.bind_some, sameEnviron tried same, andThen]
            rw [← same]
            rfl
  | cons c rest ih =>
      obtain ⟨fuel, rfl⟩ := Nat.exists_eq_add_of_le' (show 1 ≤ fuel by omega)
      rw [List.length_cons] at enough
      have isChar : proc.charAt e (before ++ dir).length = c := by
        rw [Process.charAt, isString]
        simp
      have notNul : c ≠ 0 := noNul c (by simp)
      have isLonger : (before ++ dir).length + 1 = (before ++ dir ++ [c]).length := by
        rw [@List.length_append _ (before ++ dir), List.length_singleton]
      by_cases isColon : c = colon
      · have isCut : proc.setChar e (before ++ dir).length 0 =
            { proc with environ := proc.environ.set e (before ++ dir ++ 0 :: rest) } := by
          rw [Process.setChar, isString, set_behind]
        have isDir : (proc.setChar e (before ++ dir).length 0).stringAt e before.length =
            stringIn dir := by
          apply cstring_eq
          have noNulDir : ∀ b ∈ dir, b ≠ 0 := fun b isIn => noNul b (by simp [isIn])
          rw [isCut, Process.stringAt]
          simp only [List.getD_eq_getElem _ _ (by simpa using inEnviron : e <
            (proc.environ.set e (before ++ dir ++ 0 :: rest)).length), List.getElem_set_self]
          rw [List.append_assoc, List.drop_left, (stringIn_of_noNul noNulDir rest).1,
            (stringIn_of_noNul noNulDir []).2]
        have isRestored : ∀ tried : Process,
            tried.environ = proc.environ.set e (before ++ dir ++ 0 :: rest) →
            tried.setChar e (before ++ dir).length colon =
              { tried with environ := proc.environ } := by
          intro tried same
          rw [Process.setChar, same, List.getD_eq_getElem _ _ (by simpa using inEnviron),
            List.getElem_set_self, set_behind, List.set_set, ← isColon, ← isString,
            set_getD inEnviron]
        rw [isCut] at isDir
        simp only [searchLoop, isChar, isColon, true_or, if_true, isCut, isDir, placesIn,
          tryPlaces, if_neg colon_ne_zero]
        rcases isTried : attempt kernel junk name (stringIn dir) { proc with
          environ := proc.environ.set e (before ++ dir ++ 0 :: rest) } with _ | search
        · rfl
        · cases search with
          | returned ret tried => rfl
          | replaced tried => rfl
          | goesOn tried =>
              have same := attempt_environ isTried
              have isRest := @ih fuel (before ++ dir ++ [c]) []
                { tried with environ := proc.environ } inEnviron (by rw [isString]; simp)
                (by simpa using noNul) (by omega)
              rw [List.append_nil] at isRest
              simp only [Option.bind_eq_bind, Option.bind_some, isRestored tried same, andThen,
                isLonger]
              rw [isRest, isColon]
      · have isOther : ¬(c = colon ∨ c = 0) := by
          rintro (isThis | isNul)
          · exact isColon isThis
          · exact notNul isNul
        have isRest := @ih fuel before (dir ++ [c]) proc inEnviron (by rw [isString]; simp)
          (by simpa using noNul) (by omega)
        rw [← List.append_assoc] at isRest
        simp only [searchLoop, isChar, if_neg isOther, placesIn, if_neg isColon, isLonger]
        exact isRest

theorem tryPlaces_congr {next next' : Process → Option Search} (places : List Place)
    {proc : Process} (same : ∀ tried : Process, tried.environ = proc.environ →
      next tried = next' tried) :
    tryPlaces kernel junk name next places proc = tryPlaces kernel junk name next' places proc := by
  induction places generalizing proc with
  | nil => exact same proc rfl
  | cons place rest ih =>
      rw [tryPlaces, tryPlaces]
      congr 1
      funext search
      cases search with
      | returned ret tried => rfl
      | replaced tried => rfl
      | goesOn tried => exact ih same

theorem tryPlaces_append (next : Process → Option Search) (places more : List Place)
    (proc : Process) :
    tryPlaces kernel junk name next (places ++ more) proc =
      tryPlaces kernel junk name (tryPlaces kernel junk name next more) places proc := by
  induction places generalizing proc with
  | nil => rfl
  | cons place rest ih =>
      rw [List.cons_append, tryPlaces, tryPlaces]
      congr 1
      funext search
      cases search with
      | returned ret tried => rfl
      | replaced tried => rfl
      | goesOn tried => exact ih _

/-- The places of a string: only one that begins with `PATH=` has any. -/
def placesOf (environ : List (List Byte)) (e : ℕ) (s : List Byte) : List Place :=
  if pathPrefix <+: s then placesIn environ e pathPrefix [] (s.drop 5) else []

/-- The places of the strings from an index on. -/
def placesFrom (environ : List (List Byte)) : ℕ → List (List Byte) → List Place
  | _, [] => []
  | e, s :: rest => placesOf environ e s ++ placesFrom environ (e + 1) rest

theorem strncmp_eq_zero_comm (n : ℕ) (s t : List Byte) :
    Environ.strncmp n s t = 0 ↔ Environ.strncmp n t s = 0 := by
  induction n generalizing s t with
  | zero => exact Iff.rfl
  | succ n ih =>
      rw [Environ.strncmp, Environ.strncmp]
      by_cases same : s.headD 0 = t.headD 0
      · rw [if_neg (not_not.mpr same), if_neg (not_not.mpr same.symm), same]
        split
        · exact Iff.rfl
        · exact ih s.tail t.tail
      · rw [if_pos same, if_pos (Ne.symm same)]
        omega

theorem isPath_iff (s : List Byte) : Environ.strncmp 5 s pathPrefix = 0 ↔ pathPrefix <+: s := by
  have noNul : ∀ b ∈ pathPrefix, b ≠ 0 := by decide
  rw [strncmp_eq_zero_comm]
  exact Environ.strncmp_eq_zero pathPrefix noNul s

/-- What is returned if no candidate was found. -/
def finish (proc : Process) : Option Search := some (.returned (-enoent) proc)

/-- The loop over `environ` tries all places. -/
theorem searchEnviron_eq (left e : ℕ) {proc : Process} (isLeft : left = proc.environ.length - e)
    (noNul : ∀ s ∈ proc.environ, ∀ b ∈ s, b ≠ 0) :
    searchEnviron kernel junk name left e proc =
      tryPlaces kernel junk name finish
        (placesFrom proc.environ e (proc.environ.drop e)) proc := by
  induction left generalizing e proc with
  | zero =>
      rw [List.drop_of_length_le (by omega)]
      rfl
  | succ left ih =>
      have inEnviron : e < proc.environ.length := by omega
      have isString : proc.environ.getD e [] = proc.environ[e] := List.getD_eq_getElem _ _ inEnviron
      rw [List.drop_eq_getElem_cons inEnviron, placesFrom, tryPlaces_append, searchEnviron,
        isString]
      have isRest : ∀ tried : Process, tried.environ = proc.environ →
          searchEnviron kernel junk name left (e + 1) tried =
            tryPlaces kernel junk name finish
              (placesFrom proc.environ (e + 1) (proc.environ.drop (e + 1))) tried := by
        intro tried same
        rw [← same] at isLeft noNul ⊢
        exact ih (e + 1) (by omega) noNul
      by_cases isPath : pathPrefix <+: proc.environ[e]
      · have isAndThen : ∀ result : Option Search,
            (do
              match ← result with
              | .goesOn tried => searchEnviron kernel junk name left (e + 1) tried
              | ended => return ended) =
              result.bind (andThen (searchEnviron kernel junk name left (e + 1))) := by
          rintro (_ | _ | _ | _)
          · rfl
          · rfl
          · rfl
          · rfl
        rw [if_pos ((isPath_iff _).mpr isPath), placesOf, if_pos isPath]
        rcases isPath with ⟨value, isValue⟩
        have isSearch := @searchLoop_eq kernel junk name
          (searchEnviron kernel junk name left (e + 1)) e (proc.environ[e].length + 1)
          pathPrefix [] value _ inEnviron (by rw [isString, ← isValue, List.append_nil])
          (by rw [List.append_nil, isValue]; exact noNul _ (List.getElem_mem inEnviron))
          (by rw [← isValue, List.length_append]; omega)
        have isDropped : proc.environ[e].drop 5 = value := by
          rw [← isValue]
          rfl
        rw [isDropped, ← tryPlaces_congr kernel junk name _ isRest, ← isSearch]
        exact isAndThen _
      · rw [if_neg (mt (isPath_iff _).mp isPath), placesOf, if_neg isPath]
        exact isRest proc rfl

end

section

variable {environ : List (List Byte)} {e : ℕ}

theorem markLast_cons {α : Type} (x : α) {rest : List α} (notEmpty : rest ≠ []) :
    markLast (x :: rest) = (x, false) :: markLast rest := by
  cases rest with
  | nil => exact absurd rfl notEmpty
  | cons y rest => rfl

/-- The places of a string are its directories. -/
theorem dirs_placesIn (before : List Byte) {dir : List Byte} (noColon : colon ∉ dir)
    (rest : List Byte) :
    (placesIn environ e before dir rest).map (fun place => (place.dir, place.last)) =
      markLast ((dir ++ rest).splitOn colon) := by
  induction rest generalizing before dir with
  | nil =>
      rw [List.append_nil, List.splitOn_eq_singleton noColon]
      rfl
  | cons c rest ih =>
      rw [placesIn]
      split
      · rename_i isColon
        rw [isColon, List.splitOn_append_cons_self_of_not_mem noColon,
          markLast_cons _ (List.splitOn_ne_nil colon rest), List.map_cons,
          ih (before ++ dir ++ [colon]) List.not_mem_nil]
        rfl
      · rename_i notColon
        have noColon' : colon ∉ dir ++ [c] := by simpa [noColon] using Ne.symm notColon
        rw [ih before noColon', List.append_assoc]
        rfl

/-- Only at the last place of a string `environ` is not cut. -/
theorem cut_placesIn (inEnviron : e < environ.length) {before dir rest : List Byte}
    (isString : environ.getD e [] = before ++ dir ++ rest)
    (noNul : ∀ b ∈ before ++ dir ++ rest, b ≠ 0) :
    ∀ place ∈ placesIn environ e before dir rest, (place.cut = environ ↔ place.last = true) ∧
      ∀ b ∈ place.dir, b ≠ 0 := by
  induction rest generalizing before dir with
  | nil =>
      intro place isIn
      rw [placesIn, List.mem_singleton] at isIn
      subst isIn
      exact ⟨⟨fun _ => rfl, fun _ => rfl⟩, fun b isByte => noNul b (by simp [isByte])⟩
  | cons c rest ih =>
      rw [placesIn]
      split
      · rw [List.forall_mem_cons]
        refine ⟨⟨⟨?_, fun isLast => nomatch isLast⟩, ?_⟩, ?_⟩
        · intro same
          simp only at same
          have isCut : (environ.set e (before ++ dir ++ 0 :: rest)).getD e [] =
              before ++ dir ++ 0 :: rest := by
            rw [List.getD_eq_getElem _ _ (by simpa using inEnviron), List.getElem_set_self]
          rw [same, isString] at isCut
          exact absurd rfl (noNul 0 (by rw [isCut]; simp))
        · exact fun b isByte => noNul b (by simp [isByte])
        · apply ih
          · rw [isString]
            simp
          · simpa using noNul
      · apply ih
        · rw [isString]
          simp
        · simpa using noNul

/-- The places of all strings are the directories of `PATH`. -/
theorem dirs_placesFrom (strings : List (List Byte)) :
    (placesFrom environ e strings).map (fun place => (place.dir, place.last)) =
      pathDirs strings := by
  induction strings generalizing e with
  | nil => rfl
  | cons s rest ih =>
      have isFlat : pathDirs (s :: rest) =
          (if pathPrefix <+: s then markLast ((s.drop 5).splitOn colon) else []) ++
            pathDirs rest := List.flatMap_cons
      rw [placesFrom, List.map_append, ih, isFlat, placesOf]
      congr 1
      split
      · exact dirs_placesIn pathPrefix List.not_mem_nil _
      · rfl

theorem cut_placesFrom {strings : List (List Byte)} (isRest : strings = environ.drop e)
    (noNul : ∀ s ∈ environ, ∀ b ∈ s, b ≠ 0) :
    ∀ place ∈ placesFrom environ e strings, (place.cut = environ ↔ place.last = true) ∧
      ∀ b ∈ place.dir, b ≠ 0 := by
  induction strings generalizing e with
  | nil => exact fun place isIn => nomatch isIn
  | cons s rest ih =>
      have inEnviron : e < environ.length := by
        by_contra isBeyond
        rw [List.drop_of_length_le (by omega)] at isRest
        cases isRest
      rw [List.drop_eq_getElem_cons inEnviron, List.cons.injEq] at isRest
      intro place isIn
      rw [placesFrom, List.mem_append] at isIn
      rcases isIn with isFirst | isLater
      · rw [placesOf] at isFirst
        split at isFirst
        · rename_i isPath
          rcases isPath with ⟨value, isValue⟩
          have isString : environ.getD e [] = pathPrefix ++ [] ++ s.drop 5 := by
            rw [List.getD_eq_getElem _ _ inEnviron, ← isRest.1, ← isValue]
            rfl
          refine cut_placesIn inEnviron isString ?_ place isFirst
          rw [← isString, List.getD_eq_getElem _ _ inEnviron]
          exact noNul _ (List.getElem_mem inEnviron)
        · cases isFirst
      · exact ih isRest.2 place isLater

end

/-! ## The environment after the search -/

/-- How a call of `execvp` should end. -/
def Ends (environ tried : List (List Byte)) : Option Search → Prop
  | some (.returned _ final) => final.environ = environ ∧ final.tried = tried
  | some (.replaced final) => final.tried = tried
  | _ => False

section

variable (kernel : ℕ → Option ℤ) (junk : ℕ → ℕ → Byte) (name : CString)

/-- What was tried before stays. -/
theorem prefix_of_ends {environ tried : List (List Byte)} (places : List Place) {proc : Process}
    (ends : Ends environ tried (tryPlaces kernel junk name finish places proc)) :
    proc.tried <+: tried := by
  induction places generalizing proc with
  | nil =>
      rw [← ends.2]
  | cons place rest ih =>
      rw [tryPlaces] at ends
      rcases attempt_cases kernel junk name (stringIn place.dir) { proc with environ := place.cut }
        with ⟨isNone, -⟩ | ⟨earlier, path, -, isSome⟩
      · rw [isNone] at ends
        exact ends.elim
      · rw [isSome] at ends
        rcases isKernel : kernel proc.tried.length with _ | error
        · rw [isKernel] at ends
          exact ⟨[path], ends⟩
        · rw [isKernel] at ends
          simp only at ends
          split at ends
          · have isPrefix := ih ends
            exact (List.prefix_append _ _).trans isPrefix
          · exact ⟨[path], ends.2⟩

/-- The search ends as it should just if everything that is tried is undone. -/
theorem ends_tryPlaces_iff {environ : List (List Byte)} {places : List Place} {proc : Process}
    (isEnviron : proc.environ = environ)
    (valid : ∀ place ∈ places, (place.cut = environ ↔ place.last = true) ∧
      ∀ b ∈ place.dir, b ≠ 0) :
    Ends environ (proc.tried ++ upToOther kernel proc.tried.length
        (places.map fun place => candidate name place.dir))
        (tryPlaces kernel junk name finish places proc) ↔
      Undone kernel name proc.tried.length
        (places.map fun place => (place.dir, place.last)) := by
  induction places generalizing proc with
  | nil => exact ⟨fun _ => trivial, fun _ => ⟨isEnviron, by simp [upToOther]⟩⟩
  | cons place rest ih =>
      rw [List.forall_mem_cons] at valid
      rcases valid with ⟨⟨isCut, noNul⟩, validRest⟩
      have isDir : (stringIn place.dir).bytes = place.dir := (stringIn_of_noNul noNul []).2
      rw [tryPlaces, List.map_cons, List.map_cons, upToOther, Undone]
      rcases attempt_cases kernel junk name (stringIn place.dir) { proc with environ := place.cut }
        with ⟨isNone, notFits⟩ | ⟨earlier, path, isPath, isSome⟩
      · rw [isDir] at notFits
        rw [isNone]
        exact ⟨fun ends => ends.elim, fun undone => absurd undone.1 notFits⟩
      · rw [isDir] at isPath
        rw [isSome]
        simp only
        rcases isKernel : kernel proc.tried.length with _ | error
        · rw [if_neg (by simp), and_true, ← isPath]
          change proc.tried ++ [path] = proc.tried ++ [candidate name place.dir] ↔ _
          rw [List.append_right_inj, List.singleton_inj]
        · by_cases isMissing : error = enoent
          · simp only [isMissing, if_true, Option.bind_some, andThen, ← isPath]
            by_cases isRight : path = candidate name place.dir
            · have isRest := @ih { proc with
                errno := enoent, earlier := earlier, tried := proc.tried ++ [path] }
                isEnviron validRest
              simp only [List.length_append, List.length_singleton, List.append_assoc,
                List.singleton_append] at isRest
              rw [← isRight, isRest]
              exact ⟨fun undone => ⟨rfl, undone⟩, fun both => both.2⟩
            · refine ⟨fun ends => ?_, fun both => absurd both.1 isRight⟩
              have isPrefix := prefix_of_ends kernel junk name rest ends
              rw [List.prefix_append_right_inj, List.cons_prefix_cons] at isPrefix
              exact absurd isPrefix.1 isRight
          · have isOther : ¬some error = some enoent := by simpa using isMissing
            simp only [if_neg isMissing, if_neg isOther, Option.bind_some, andThen, ← isPath,
              ← isCut]
            change place.cut = environ ∧ proc.tried ++ [path] = proc.tried ++
              [candidate name place.dir] ↔ _
            rw [List.append_right_inj, List.singleton_inj, and_comm]

/-- `execvp` leaves the environment intact and tries what it should. -/
def LeavesIntact (environ : List CString) : Prop :=
  ∀ errno earlier, Ends (environ.map CString.bytes)
    (expected kernel name (environ.map CString.bytes))
    (execvp kernel junk name ⟨environ.map CString.bytes, errno, earlier, []⟩)

theorem leavesIntact_direct (environ : List CString) (direct : isDirect name) :
    LeavesIntact kernel junk name environ := by
  intro errno earlier
  have isCall : name.bytes.headD 0 = slash ∨ name.bytes.headD 0 = dot := direct
  rw [expected, if_pos direct, execvp, if_pos isCall]
  simp only [sysExec, List.length_nil]
  rcases kernel 0 with _ | error
  · exact rfl
  · exact ⟨rfl, rfl⟩

/-- A search for a name ends as it should just if everything that is tried is undone. -/
theorem ends_execvp_iff (environ : List CString) (search : ¬isDirect name) (errno : ℤ)
    (earlier : ℕ) :
    Ends (environ.map CString.bytes) (expected kernel name (environ.map CString.bytes))
        (execvp kernel junk name ⟨environ.map CString.bytes, errno, earlier, []⟩) ↔
      Undone kernel name 0 (pathDirs (environ.map CString.bytes)) := by
  have isSearch : ¬(name.bytes.headD 0 = slash ∨ name.bytes.headD 0 = dot) := search
  have noNul : ∀ s ∈ environ.map CString.bytes, ∀ b ∈ s, b ≠ 0 := by
    intro s isIn
    rcases List.mem_map.mp isIn with ⟨string, -, rfl⟩
    exact string.noNul
  have isIff := @ends_tryPlaces_iff kernel junk name _ _
    ⟨environ.map CString.bytes, errno, earlier, []⟩ rfl (cut_placesFrom (e := 0) rfl noNul)
  have isDirs := @dirs_placesFrom (environ.map CString.bytes) 0 (environ.map CString.bytes)
  have isCandidates : (placesFrom (environ.map CString.bytes) 0
      (environ.map CString.bytes)).map (fun place => candidate name place.dir) =
      (pathDirs (environ.map CString.bytes)).map fun dir => candidate name dir.1 := by
    rw [← isDirs, List.map_map]
    rfl
  simp only [List.drop_zero, List.length_nil, List.nil_append] at isIff
  rw [isDirs, isCandidates] at isIff
  rw [execvp, if_neg isSearch, searchEnviron_eq kernel junk name _ 0
    (Nat.sub_zero _).symm noNul, expected, if_neg search]
  exact isIff

/--
`execvp` leaves the environment intact and tries just the candidates that it should, unless it
searches for a name: then it does so just if all paths that are tried fit, and a candidate with
another failure than `ENOENT` is of the last directory of its string.
-/
theorem execvp_intact_iff (environ : List CString) :
    LeavesIntact kernel junk name environ ↔
      isDirect name ∨ Undone kernel name 0 (pathDirs (environ.map CString.bytes)) := by
  by_cases direct : isDirect name
  · exact ⟨fun _ => Or.inl direct, fun _ => leavesIntact_direct kernel junk name environ direct⟩
  · have isIff := ends_execvp_iff kernel junk name environ direct
    constructor
    · intro intact
      exact Or.inr ((isIff 0 0).mp (intact 0 0))
    · rintro (isDirect | undone)
      · exact absurd isDirect direct
      · exact fun errno earlier => (isIff errno earlier).mpr undone

end

/-- `"PATH=/a:/b"`. -/
def twoDirs : CString := ⟨"PATH=/a:/b".toList.map byteOf, by decide⟩

theorem shortName_noNul : ∀ b ∈ ([0x78] : List Byte), b ≠ 0 := by decide

/-- `"x"`. -/
def shortName : CString := ⟨[0x78], shortName_noNul⟩

/-- With `EACCES` for the first directory the variable stays cut. -/
theorem not_execvp_intact : ¬ ∀ kernel junk name environ,
    LeavesIntact kernel junk name environ := by
  intro all
  have isDirs : pathDirs ([twoDirs].map CString.bytes) =
      [([0x2f, 0x61], false), ([0x2f, 0x62], true)] := by decide
  have undone := (ends_execvp_iff (fun _ => some eacces) (fun _ _ => 0) shortName [twoDirs]
    (by decide) 0 0).mp (all _ _ _ _ 0 0)
  rw [isDirs, Undone] at undone
  simp [eacces, enoent] at undone

end Osix.Execvp
