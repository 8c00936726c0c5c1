import Osix.Lib.Covers
import Osix.User.Expand
import Osix.User.Snprintf

/-!
# Names with characters from `0x80` on

`explode_pattern` puts its names together with `snprintf`, which takes such a character for the
end of the output and counts nothing for its string. So the name of a file is lost, and for that
of a directory another one is read. The paths themselves never have such characters.

The names that are stored cover those that are meant. So they are the same exactly if no name with
such a character is among those that match (`legible_iff`).
-/

namespace Osix.Shell

open Covering

variable {dirs : List Char → Option (List Dirent)}

/-! ## The paths of the code -/

section

variable {base name : List Char}

theorem putString_plain (plain : name.any negative = false) : putString name = name := by
  induction name with
  | nil => rfl
  | cons c name ih =>
      rw [List.any_cons, Bool.or_eq_false_iff] at plain
      rw [putString, if_neg (Bool.eq_false_iff.mp plain.1), ih plain.2]

theorem countString_plain (plain : name.any negative = false) :
    countString name = name.length := by
  rw [countString, if_neg (Bool.eq_false_iff.mp plain)]

theorem countString_negative (lost : name.any negative = true) : countString name = 0 := by
  rw [countString, if_pos lost]

/-- The two spellings of names without negative characters are the same. -/
theorem fullname_plain (plainBase : base.any negative = false)
    (plain : name.any negative = false) : fullname base name = asNamed.name base name := by
  rw [fullname, asNamed]
  dsimp only
  rw [putString_plain plain, putString_plain plainBase, countString_plain plain,
    countString_plain plainBase]
  split
  · exact List.take_length
  · exact List.take_of_length_le (by rw [List.length_append, List.length_cons]; omega)

theorem nextBase_plain (plainBase : base.any negative = false)
    (plain : name.any negative = false) : nextBase base name = asNamed.base base name := by
  rw [nextBase, asNamed]
  dsimp only
  rw [putString_plain plain, putString_plain plainBase, countString_plain plain,
    countString_plain plainBase]
  split
  · exact List.take_length
  split
  · exact List.take_of_length_le (by rw [List.length_cons]; omega)
  · exact List.take_of_length_le (by rw [List.length_append, List.length_cons]; omega)

/-- Of a name with negative characters nothing is left. -/
theorem fullname_lost (plainBase : base.any negative = false) (lost : name.any negative = true) :
    fullname base name = if base = [] then [] else base ++ ['/'] := by
  rw [fullname, countString_negative lost, putString_plain plainBase, countString_plain plainBase]
  split
  · rfl
  · rw [List.take_length_add_append]
    rfl

theorem nextBase_lost (plainBase : base.any negative = false) (lost : name.any negative = true) :
    nextBase base name =
      if base = [] then [] else if base = ['/'] then ['/'] else base ++ ['/'] := by
  rw [nextBase, countString_negative lost, putString_plain plainBase, countString_plain plainBase]
  split
  · rfl
  split
  · rfl
  · rw [List.take_length_add_append]
    rfl

theorem any_negative_name :
    (asNamed.name base name).any negative = (base.any negative || name.any negative) := by
  have isSlash : negative '/' = false := rfl
  rw [asNamed]
  dsimp only
  split
  · rename_i isEmpty
    rw [isEmpty]
    rfl
  · rw [List.any_append, List.any_cons, isSlash, Bool.false_or]

theorem any_negative_base :
    (asNamed.base base name).any negative = (base.any negative || name.any negative) := by
  have isSlash : negative '/' = false := rfl
  rw [asNamed]
  dsimp only
  split
  · rename_i isEmpty
    rw [isEmpty]
    rfl
  split
  · rename_i isRoot
    rw [isRoot, List.any_cons, isSlash, Bool.false_or]
    rfl
  · rw [List.any_append, List.any_cons, isSlash, Bool.false_or]

/-- The code's paths never have negative characters. -/
theorem fullname_seven (plainBase : base.any negative = false) (name : List Char) :
    (fullname base name).any negative = false := by
  rcases isLost : name.any negative with _ | _
  · rw [fullname_plain plainBase isLost, any_negative_name, plainBase, isLost]
    rfl
  · rw [fullname_lost plainBase isLost]
    split
    · rfl
    · rw [List.any_append, plainBase]
      rfl

theorem nextBase_seven (plainBase : base.any negative = false) (name : List Char) :
    (nextBase base name).any negative = false := by
  rcases isLost : name.any negative with _ | _
  · rw [nextBase_plain plainBase isLost, any_negative_base, plainBase, isLost]
    rfl
  · rw [nextBase_lost plainBase isLost]
    split
    · rfl
    split
    · rfl
    · rw [List.any_append, plainBase]
      rfl

end

/-! ## What `snprintf` leaves -/

section

open Stdio

/-- The characters of a string. -/
def chars (s : List Byte) : List Char := s.map fun b => Char.ofNat b.toNat

theorem justName_noNul : ∀ b ∈ "%s".toList.map byteOf, b ≠ 0 := by decide
theorem inRoot_noNul : ∀ b ∈ "/%s".toList.map byteOf, b ≠ 0 := by decide
theorem inBase_noNul : ∀ b ∈ "%s/%s".toList.map byteOf, b ≠ 0 := by decide

/-- `"%s"`, `"/%s"` and `"%s/%s"`. -/
def justName : CString := ⟨"%s".toList.map byteOf, justName_noNul⟩
def inRoot : CString := ⟨"/%s".toList.map byteOf, inRoot_noNul⟩
def inBase : CString := ⟨"%s/%s".toList.map byteOf, inBase_noNul⟩

/-- The size of `fullname` and of `next_base`. -/
def pathSize (base name : CString) : ℕ := base.bytes.length + 1 + name.bytes.length + 1

/-- `snprintf` leaves a text in a buffer of a size. -/
def Leaves (bsize : ℕ) (fmt : CString) (args : List Arg) (text : List Char) : Prop :=
  ∀ earlier block, ∃ count, ∃ f : Stdio.File,
    File.snprintf earlier block bsize bsize fmt args = some (count, f) ∧
      chars ((List.range text.length).map f.buf) = text ∧ f.buf text.length = 0

theorem negative_ofNat (b : Byte) : negative (Char.ofNat b.toNat) = b.msb := by
  revert b
  decide

theorem any_negative_chars (s : List Byte) : (chars s).any negative = s.any BitVec.msb := by
  rw [chars, List.any_map]
  congr 1
  funext b
  exact negative_ofNat b

theorem putString_chars (s : List Byte) :
    putString (chars s) = chars (Piece.string s 0).emitted := by
  induction s with
  | nil => rfl
  | cons b s ih =>
      rw [Piece.emitted, Nat.zero_sub] at ih ⊢
      rw [chars, List.map_cons, putString, negative_ofNat, List.any_cons, Piece.putPart]
      rcases isNegative : b.msb with _ | _
      · rw [if_neg Bool.false_ne_true, if_neg Bool.false_ne_true, Bool.false_or]
        exact congrArg (_ :: ·) ih
      · rfl

theorem countString_chars (s : List Byte) :
    countString (chars s) = (Piece.string s 0).counted := by
  rw [countString, any_negative_chars, Piece.counted, Nat.max_zero, chars, List.length_map]

/-- The text is cut where the count says. -/
theorem leaves_of_pieces {bsize : ℕ} {fmt : CString} {args : List Arg} {ps : List Piece}
    (isPieces : pieces fmt args = some ps) (fits : (emittedAll ps).length ≤ bsize)
    (room : countedAll ps < bsize) (counted : countedAll ps ≤ (emittedAll ps).length) :
    Leaves bsize fmt args (chars ((emittedAll ps).take (countedAll ps))) := by
  intro earlier block
  have isLast : File.lastPlace (countedAll ps) bsize = countedAll ps := if_pos room
  rcases @File.snprintf_eq earlier bsize bsize block fmt args ps isPieces fits (by rwa [isLast])
    with ⟨f, isPrint, isBuf⟩
  have length : (chars ((emittedAll ps).take (countedAll ps))).length = countedAll ps := by
    rw [chars, List.length_map, List.length_take, Nat.min_eq_left counted]
  refine ⟨_, f, isPrint, ?_, ?_⟩
  · rw [length, chars, chars]
    congr 1
    apply List.ext_getElem
    · rw [List.length_map, List.length_range, List.length_take, Nat.min_eq_left counted]
    · intro i below _
      rw [List.length_map, List.length_range] at below
      rw [List.getElem_map, List.getElem_range, List.getElem_take, isBuf, isLast,
        if_neg (by omega), if_pos (by omega), List.getD_eq_getElem]
  · rw [length, isBuf, isLast, if_pos rfl]

/-- A string is counted no longer than it is put out, and takes one byte more at most. -/
theorem string_bounds (s : List Byte) :
    (Piece.string s 0).counted ≤ (Piece.string s 0).emitted.length ∧
      (Piece.string s 0).counted ≤ s.length ∧
        (Piece.string s 0).emitted.length ≤ s.length + 1 := by
  by_cases plain : (Piece.string s 0).Plain
  · have noneNegative : s.any BitVec.msb = false := by simpa [Piece.Plain] using plain
    rw [Piece.emitted_plain plain, Piece.counted, if_neg (Bool.eq_false_iff.mp noneNegative),
      Piece.formatted, Nat.zero_sub, List.replicate_zero, List.append_nil, Nat.max_zero]
    omega
  · rcases Piece.exists_split plain with ⟨before, b, behind, width, same, plainFront, negative⟩
    cases same
    rw [Piece.emitted_split plainFront negative, Piece.counted, if_pos (by simp [negative])]
    simp

theorem string_plain {s : List Byte} (plain : ∀ b ∈ s, b.msb = false) :
    (Piece.string s 0).emitted = s ∧ (Piece.string s 0).counted = s.length := by
  have noneNegative : s.any BitVec.msb = false := by simpa using plain
  constructor
  · have isPlain : (Piece.string s 0).Plain := plain
    rw [Piece.emitted_plain isPlain, Piece.formatted, Nat.zero_sub, List.replicate_zero,
      List.append_nil]
  · rw [Piece.counted, if_neg (Bool.eq_false_iff.mp noneNegative), Nat.max_zero]

/-- A name behind a text without negative characters. -/
theorem leaves_behind {bsize : ℕ} {fmt : CString} {args : List Arg} {ps : List Piece}
    (isPieces : pieces fmt args = some ps) {front name : List Byte}
    (emitted : emittedAll ps = front ++ (Piece.string name 0).emitted)
    (counted : countedAll ps = front.length + (Piece.string name 0).counted)
    (room : front.length + name.length + 1 ≤ bsize) :
    Leaves bsize fmt args
      ((chars front ++ putString (chars name)).take
        (front.length + countString (chars name))) := by
  have bounds := string_bounds name
  rw [putString_chars, countString_chars, ← counted, chars, chars, ← List.map_append, ← emitted,
    ← List.map_take]
  have length := congrArg List.length emitted
  rw [List.length_append] at length
  exact leaves_of_pieces isPieces (by omega) (by omega) (by omega)

theorem chars_empty_iff (s : List Byte) : chars s = [] ↔ s = [] := List.map_eq_nil_iff

theorem chars_root_iff (s : List Byte) : chars s = ['/'] ↔ s = [byteOf '/'] := by
  have isSlash : ∀ b : Byte, Char.ofNat b.toNat = '/' ↔ b = byteOf '/' := by decide
  rw [chars, List.map_eq_singleton_iff]
  constructor
  · rintro ⟨b, rfl, same⟩
    rw [(isSlash b).mp same]
  · rintro rfl
    exact ⟨_, rfl, rfl⟩

theorem chars_slash (s : List Byte) : chars (s ++ [byteOf '/']) = chars s ++ ['/'] := by
  rw [chars, List.map_append]
  rfl

section

variable {base : CString} (plainBase : ∀ b ∈ base.bytes, b.msb = false) (name : CString)

theorem leaves_name :
    Leaves (pathSize base name) justName [.text (some name)]
      ((putString (chars name.bytes)).take (countString (chars name.bytes))) := by
  have isPieces : pieces justName [.text (some name)] = some [.string name.bytes 0] := rfl
  have leaves := @leaves_behind (pathSize base name) _ _ _ isPieces [] name.bytes
    (List.append_nil _) (Nat.add_comm ..) (by rw [pathSize, List.length_nil]; omega)
  rwa [List.length_nil, Nat.zero_add] at leaves

theorem leaves_root (isRoot : base.bytes = [byteOf '/']) :
    Leaves (pathSize base name) inRoot [.text (some name)]
      (('/' :: putString (chars name.bytes)).take (1 + countString (chars name.bytes))) := by
  have isPieces : pieces inRoot [.text (some name)] =
      some [.text [byteOf '/'], .string name.bytes 0] := rfl
  exact @leaves_behind (pathSize base name) _ _ _ isPieces [byteOf '/'] name.bytes
    (by rw [emittedAll_cons, emittedAll_cons, emittedAll, List.flatMap_nil, List.append_nil]; rfl)
    rfl (by rw [pathSize, isRoot, List.length_singleton]; omega)

include plainBase

theorem leaves_base :
    Leaves (pathSize base name) inBase [.text (some base), .text (some name)]
      ((putString (chars base.bytes) ++ '/' :: putString (chars name.bytes)).take
        (countString (chars base.bytes) + (1 + countString (chars name.bytes)))) := by
  have isPieces : pieces inBase [.text (some base), .text (some name)] =
      some [.string base.bytes 0, .text [byteOf '/'], .string name.bytes 0] := rfl
  have isBase := string_plain plainBase
  have leaves := @leaves_behind (pathSize base name) _ _ _ isPieces
    (base.bytes ++ [byteOf '/']) name.bytes
    (by
      rw [emittedAll_cons, emittedAll_cons, emittedAll_cons, isBase.1, emittedAll,
        List.flatMap_nil, List.append_nil, List.append_assoc]
      rfl)
    (by
      rw [List.length_append, Nat.add_assoc, ← isBase.2]
      rfl)
    (by rw [pathSize, List.length_append, List.length_singleton])
  rw [chars_slash, List.length_append, List.length_singleton, Nat.add_assoc, List.append_assoc]
    at leaves
  rw [putString_chars, isBase.1, countString_chars, isBase.2]
  exact leaves

/-- `fullname` is what `snprintf` leaves in an array of its size. -/
theorem snprintf_fullname :
    if base.bytes = [] then
      Leaves (pathSize base name) justName [.text (some name)]
        (fullname (chars base.bytes) (chars name.bytes))
    else
      Leaves (pathSize base name) inBase [.text (some base), .text (some name)]
        (fullname (chars base.bytes) (chars name.bytes)) := by
  simp only [fullname, chars_empty_iff]
  split
  · exact leaves_name name
  · exact leaves_base plainBase name

/-- `next_base` is what `snprintf` leaves in an array of its size. -/
theorem snprintf_nextBase :
    if base.bytes = [] then
      Leaves (pathSize base name) justName [.text (some name)]
        (nextBase (chars base.bytes) (chars name.bytes))
    else if base.bytes = [byteOf '/'] then
      Leaves (pathSize base name) inRoot [.text (some name)]
        (nextBase (chars base.bytes) (chars name.bytes))
    else
      Leaves (pathSize base name) inBase [.text (some base), .text (some name)]
        (nextBase (chars base.bytes) (chars name.bytes)) := by
  simp only [nextBase, chars_empty_iff, chars_root_iff]
  split
  · exact leaves_name name
  split
  · rename_i isRoot
    exact leaves_root name isRoot
  · exact leaves_base plainBase name

end

end

/-! ## The names of the code -/

section

variable {base : List Char}

theorem namesIn_cons' (spelling : Spelling) (base component next : List Char)
    (rest : List (List Char)) :
    namesIn dirs spelling base (component :: next :: rest) =
      (matching dirs base component).flatMap fun dir =>
        namesIn dirs spelling (spelling.base base dir.name) (next :: rest) := by
  rw [namesIn]
  exact List.cons_ne_nil next rest

variable (dirs) in
/-- What is in a directory whose path has negative characters, has such a path. -/
theorem namesIn_lost (lost : base.any negative = true) (comps : List (List Char)) :
    ∀ name ∈ namesIn dirs asNamed base comps, name.any negative = true := by
  induction comps generalizing base with
  | nil => exact fun name isIn => nomatch isIn
  | cons component rest ih =>
      intro name isIn
      rcases rest with _ | ⟨next, rest⟩
      · rw [namesIn, List.mem_map] at isIn
        rcases isIn with ⟨dir, -, rfl⟩
        rw [any_negative_name, lost]
        rfl
      · rw [namesIn_cons', List.mem_flatMap] at isIn
        rcases isIn with ⟨dir, -, isIn⟩
        exact ih (by rw [any_negative_base, lost]; rfl) name isIn

variable (dirs) in
theorem namesIn_printed (plainBase : base.any negative = false) (comps : List (List Char)) :
    ∀ name ∈ namesIn dirs asPrinted base comps, name.any negative = false := by
  induction comps generalizing base with
  | nil => exact fun name isIn => nomatch isIn
  | cons component rest ih =>
      intro name isIn
      rcases rest with _ | ⟨next, rest⟩
      · rw [namesIn, List.mem_map] at isIn
        rcases isIn with ⟨dir, -, rfl⟩
        exact fullname_seven plainBase dir.name
      · rw [namesIn_cons', List.mem_flatMap] at isIn
        rcases isIn with ⟨dir, -, isIn⟩
        exact ih (nextBase_seven plainBase dir.name) name isIn

theorem countP_eq_zero_of_plain {l : List (List Char)}
    (plain : ∀ name ∈ l, name.any negative = false) : l.countP (List.any · negative) = 0 :=
  List.countP_eq_zero.mpr fun name isIn => Bool.eq_false_iff.mp (plain name isIn)

/-- What is stored for an entry covers what is in it, if this is so for every base. -/
theorem covers_below {comps : List (List Char)}
    (covers : ∀ base : List Char, base.any negative = false →
      Covers (List.any · negative) (namesIn dirs asPrinted base comps)
        (namesIn dirs asNamed base comps))
    (plainBase : base.any negative = false) (name : List Char) :
    Covers (List.any · negative) (namesIn dirs asPrinted (nextBase base name) comps)
      (namesIn dirs asNamed (asNamed.base base name) comps) := by
  have seven := nextBase_seven plainBase name
  rcases isLost : name.any negative with _ | _
  · rw [← nextBase_plain plainBase isLost]
    exact covers _ seven
  · have noneLost := countP_eq_zero_of_plain (namesIn_printed dirs seven comps)
    have isNegative : (asNamed.base base name).any negative = true := by
      rw [any_negative_base, isLost, Bool.or_true]
    have lost := namesIn_lost dirs isNegative comps
    constructor
    · exact noneLost ▸ Nat.zero_le _
    · rw [List.countP_eq_length.mpr lost, noneLost]
      omega

/-- A name is stored for every one that is not lost. -/
theorem namesIn_covers (plainBase : base.any negative = false) (comps : List (List Char)) :
    Covers (List.any · negative) (namesIn dirs asPrinted base comps)
      (namesIn dirs asNamed base comps) := by
  induction comps generalizing base with
  | nil => exact ⟨le_refl _, le_refl _⟩
  | cons component rest ih =>
      rcases rest with _ | ⟨next, rest⟩
      · have noneLost := countP_eq_zero_of_plain
          (namesIn_printed dirs plainBase [component])
        refine ⟨noneLost ▸ Nat.zero_le _, ?_⟩
        rw [noneLost, namesIn, namesIn, List.length_map, List.length_map]
        omega
      · rw [namesIn_cons', namesIn_cons']
        exact covers_flatMap fun dir _ => covers_below (fun base => ih) plainBase dir.name

/-- The names are stored as they are exactly if all are legible. -/
theorem legibleIn_iff (plainBase : base.any negative = false) (comps : List (List Char)) :
    LegibleIn dirs base comps ↔
      namesIn dirs asPrinted base comps = namesIn dirs asNamed base comps := by
  induction comps generalizing base with
  | nil => exact iff_of_true trivial rfl
  | cons component rest ih =>
      rcases rest with _ | ⟨next, rest⟩
      · rw [LegibleIn, namesIn, namesIn, List.map_inj_left]
        refine forall₂_congr fun dir _ => ?_
        constructor
        · exact fullname_plain plainBase
        · intro same
          have seven := fullname_seven plainBase dir.name
          rw [show fullname base dir.name = asNamed.name base dir.name from same,
            any_negative_name, plainBase] at seven
          exact seven
      · rw [namesIn_cons', namesIn_cons', LegibleIn]
        · have below : ∀ dir ∈ matching dirs base component,
              (if dir.name.any negative then
                namesIn dirs asNamed (asNamed.base base dir.name) (next :: rest) = [] ∧
                  namesIn dirs asPrinted (nextBase base dir.name) (next :: rest) = []
              else LegibleIn dirs (nextBase base dir.name) (next :: rest)) ↔
              namesIn dirs asPrinted (nextBase base dir.name) (next :: rest) =
                namesIn dirs asNamed (asNamed.base base dir.name) (next :: rest) := by
            intro dir _
            rcases isLost : dir.name.any negative with _ | _
            · rw [if_neg Bool.false_ne_true, ← nextBase_plain plainBase isLost]
              exact ih (nextBase_seven plainBase dir.name)
            · rw [if_pos rfl]
              constructor
              · rintro ⟨noNames, nothing⟩
                rw [noNames, nothing]
              · intro same
                have isNegative : (asNamed.base base dir.name).any negative = true := by
                  rw [any_negative_base, isLost, Bool.or_true]
                have lost := namesIn_lost dirs isNegative (next :: rest)
                have plain := namesIn_printed dirs
                  (nextBase_seven plainBase dir.name) (next :: rest)
                have isEmpty :
                    namesIn dirs asNamed (asNamed.base base dir.name) (next :: rest) = [] := by
                  rw [List.eq_nil_iff_forall_not_mem]
                  intro name isIn
                  have isPlain := plain name (same ▸ isIn)
                  rw [lost name isIn] at isPlain
                  contradiction
                exact ⟨isEmpty, same.trans isEmpty⟩
          constructor
          · intro legible
            exact List.flatMap_congr fun dir isIn => (below dir isIn).mp (legible dir isIn)
          · intro same dir isIn
            have covers : ∀ dir ∈ matching dirs base component,
                Covers (List.any · negative)
                  (namesIn dirs asPrinted (nextBase base dir.name) (next :: rest))
                  (namesIn dirs asNamed (asNamed.base base dir.name) (next :: rest)) :=
              fun dir _ => covers_below (fun _ plain => namesIn_covers plain _) plainBase dir.name
            exact (below dir isIn).mpr (eq_of_flatMap covers same dir isIn)
        · exact List.cons_ne_nil next rest

end

/-! ## What the code stores for arguments -/

theorem names_covers (arg : List Char) :
    Covers (List.any · negative) (names dirs asPrinted arg) (names dirs asNamed arg) := by
  rw [names, names]
  split
  · exact namesIn_covers rfl _
  · exact namesIn_covers rfl _

theorem names_printed (arg : List Char) :
    ∀ name ∈ names dirs asPrinted arg, name.any negative = false := by
  rw [names]
  split
  · exact namesIn_printed dirs rfl _
  · exact namesIn_printed dirs rfl _

/-- The names of an argument are stored exactly if it is legible. -/
theorem legible_iff (arg : List Char) :
    Legible dirs arg ↔ expansion dirs asPrinted false arg = expansion dirs asNamed false arg := by
  have sameNames : (if arg.head? = some '/' then
        LegibleIn dirs ['/'] (components (arg.dropWhile (· = '/')))
      else LegibleIn dirs [] (components arg)) ↔
      names dirs asPrinted arg = names dirs asNamed arg := by
    rw [names, names]
    split
    · exact legibleIn_iff rfl _
    · exact legibleIn_iff rfl _
  rw [Legible, sameNames, expansion, expansion]
  simp only [Bool.false_eq_true, false_or]
  rcases names dirs asPrinted arg with _ | ⟨stored, moreStored⟩ <;>
    rcases names dirs asNamed arg with _ | ⟨meant, moreMeant⟩
  · simp
  · simp [eq_comm]
  · simp
  · simp

theorem expansion_covers (quoted : Bool) (arg : List Char) :
    Covers (List.any · negative) (expansion dirs asPrinted quoted arg)
      (expansion dirs asNamed quoted arg) := by
  have covers := @names_covers dirs arg
  have noneLost := countP_eq_zero_of_plain (@names_printed dirs arg)
  have fewer := covers.fewer
  have longer := covers.longer
  rw [expansion, expansion]
  have atMostOne : [arg].countP (List.any · negative) ≤ 1 := List.countP_le_length
  by_cases itself : quoted = true ∨ names dirs asPrinted arg = []
  · rw [if_pos itself]
    split
    case isTrue => exact ⟨le_refl _, le_refl _⟩
    case isFalse some =>
      rw [not_or] at some
      have isEmpty := itself.resolve_left some.1
      have positive := List.length_pos_iff.mpr some.2
      rw [isEmpty, List.length_nil, List.countP_nil] at longer
      constructor
      · omega
      · rw [List.length_singleton]
        omega
  · rw [if_neg itself]
    rw [not_or] at itself
    have positive := List.length_pos_iff.mpr itself.2
    split
    case isTrue =>
      constructor
      · omega
      · rw [List.length_singleton]
        omega
    case isFalse => exact covers

theorem expansions_eq_flatMap (spelling : Spelling) (quoted : ℕ → Bool) (index : ℕ)
    (args : List (List Char)) :
    expansions dirs spelling quoted index args =
      (args.zipIdx index).flatMap fun arg => expansion dirs spelling (quoted arg.2) arg.1 := by
  induction args generalizing index with
  | nil => rfl
  | cons arg args ih => rw [expansions, ih, List.zipIdx_cons, List.flatMap_cons]

/-- Arguments are stored as they are exactly if each of them is. -/
theorem expansions_agree {quoted : ℕ → Bool} {index : ℕ} {args : List (List Char)} :
    expansions dirs asPrinted quoted index args = expansions dirs asNamed quoted index args ↔
      ∀ i arg, args[i]? = some arg → quoted (index + i) = false → Legible dirs arg := by
  rw [expansions_eq_flatMap, expansions_eq_flatMap]
  constructor
  · intro same i arg isArg notQuoted
    have agree := eq_of_flatMap (fun arg _ => expansion_covers (quoted arg.2) arg.1) same
      (arg, index + i) (List.mk_add_mem_zipIdx_iff_getElem?.mpr isArg)
    rw [legible_iff, ← notQuoted]
    exact agree
  · intro legible
    refine List.flatMap_congr fun arg isIn => ?_
    rcases List.mem_zipIdx_iff_le_and_getElem?_sub.mp isIn with ⟨below, isArg⟩
    rcases isQuoted : quoted arg.2 with _ | _
    · refine (legible_iff arg.1).mp (legible _ arg.1 isArg ?_)
      rw [Nat.add_sub_cancel' below, isQuoted]
    · rw [expansion, expansion, if_pos (Or.inl rfl), if_pos (Or.inl rfl)]

end Osix.Shell
