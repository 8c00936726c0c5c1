import Osix.Fs.Terminal
import Mathlib.Data.List.TakeWhile

/-!
# The keyboard

`sys/i386/kb.c`. The keyboard sends the code of a key when it goes down, and the code with the
top bit set when it comes up again. `kb_cook` keeps a flag for each of the four modifiers, which
every code of that key turns over, and sends the characters of the other keys to the console. The
tables have 127 entries, so that code 127 has no result here (`none`).
-/

namespace Osix.Kb

open Terminal

/-- `kb_map`. -/
def kbMap : List String :=
  ["", "\x1b", "1", "2", "3", "4", "5", "6", "7", "8", "9", "0", "+", "\\", "\x08", "\t", "q", "w",
    "e", "r", "t", "y", "u", "i", "o", "p", "", "", "\n", "", "a", "s", "d", "f", "g", "h", "j",
    "k", "l", "", "", "|", "", "\"", "z", "x", "c", "v", "b", "n", "m", ",", ".", "-", "", "", "",
    " ", "", "", "", "", "", "", "", "", "", "", "", "", "", "\x1b[H", "\x1b[A", "\x1b[5~", "",
    "\x1b[D", "", "\x1b[C", "", "\x1b[F", "\x1b[B", "\x1b[6~", "", "", "", "", "<", "", "", "", "",
    "", "", "", "", "", "", "", "", "", "", "", "", "", "", "", "", "", "", "", "", "", "", "", "",
    "", "", "", "", "", "", "", "", "", "", "", ""]

/-- `kb_map_shift`. -/
def kbMapShift : List String :=
  ["", "\x1b", "!", "'", "#", "$", "%", "&", "/", "(", ")", "=", "?", "`", "\x08", "\t", "Q", "W",
    "E", "R", "T", "Y", "U", "I", "O", "P", "", "", "\n", "", "A", "S", "D", "F", "G", "H", "J",
    "K", "L", "", "", "", "", "*", "Z", "X", "C", "V", "B", "N", "M", ";", ":", "_", "", "", "",
    " ", "", "", "", "", "", "", "", "", "", "", "", "", "", "", " ", "", "", "", "", "", "", "",
    "", "", "", "", "", "", ">", "", "", "", "", "", "", "", "", "", "", "", "", "", "", "", "", "",
    "", "", "", "", "", "", "", "", "", "", "", "", "", "", "", "", "", "", "", "", "", "", ""]

/-- `kb_map_ctrl`. -/
def kbMapCtrl : List String :=
  ["", "", "", "", "", "", "", "", "", "", "", "", "", "", "", "", "", "\x17", "", "", "", "",
    "\x15", "", "", "", "", "", "", "", "", "", "\x04", "", "", "\x08", "", "", "\x0c", "", "", "",
    "", "", "", "", "\x03", "", "", "", "", "", "", "", "", "", "", "", "", "", "", "", "", "", "",
    "", "", "", "", "", "", "", "", "", "", "", "", "", "", "", "", "", "", "", "", "", "", "", "",
    "", "", "", "", "", "", "", "", "", "", "", "", "", "", "", "", "", "", "", "", "", "", "", "",
    "", "", "", "", "", "", "", "", "", "", "", "", "", ""]

/-- The characters of a string before its NUL. -/
def chars (string : String) : List Byte :=
  (string.toList.map fun char => BitVec.ofNat 8 char.toNat).takeWhile (· ≠ 0)

/-- `kb_state_t`. -/
structure KbState where
  lshift : Bool
  rshift : Bool
  ctrl : Bool
  alt : Bool
deriving DecidableEq

/-- The variables of `kb.c`, and what `tty_input` works on. -/
structure Keyboard where
  kbBuffer : Byte → Byte
  kbHead : Byte
  kbTail : Byte
  kbState : KbState
  core : Core

/-- The terminal of the device `makedev(1, 0)`. -/
def console : TtyId := 0

/-- `kb_input` without the wake-up. -/
def kbInput (kb : Keyboard) (c : Byte) : Keyboard :=
  if c ≠ 0 then
    { kb with
      kbBuffer := Function.update kb.kbBuffer kb.kbHead c
      kbHead := kb.kbHead + 1
      kbTail := if kb.kbHead + 1 = kb.kbTail then kb.kbTail + 1 else kb.kbTail
      core := kb.core.ttyInput console c }
  else kb

/-- The table that the flags choose. -/
def KbState.map (state : KbState) : List String :=
  if state.lshift = true ∨ state.rshift = true then kbMapShift
  else if state.ctrl = true then kbMapCtrl
  else kbMap

/-- `kb_cook`. -/
def kbCook (kb : Keyboard) (raw : Byte) : Option Keyboard :=
  let state := kb.kbState
  if raw &&& 0x7F = 42 then some { kb with kbState := { state with lshift := !state.lshift } }
  else if raw &&& 0x7F = 54 then
    some { kb with kbState := { state with rshift := !state.rshift } }
  else if raw &&& 0x7F = 29 then some { kb with kbState := { state with ctrl := !state.ctrl } }
  else if raw &&& 0x7F = 56 then some { kb with kbState := { state with alt := !state.alt } }
  else if raw ≤ 0x7F then state.map[raw.toNat]?.map fun c => (chars c).foldl kbInput kb
  else some kb

/-- `kb_irq`, with the code that the controller holds, if it holds one. -/
def kbIrq (kb : Keyboard) : Option Byte → Option Keyboard
  | some raw => kbCook kb raw
  | none => some kb

/-- The state that `kb_init` leaves. -/
def KbState.released : KbState := ⟨false, false, false, false⟩

/-! ## The keys

The keys themselves: which of them are down after the codes that they have sent, and the text that
the codes stand for.
-/

/-- Which keys are down. -/
abbrev Keys := Byte → Bool

/-- No key is down. -/
def Keys.up : Keys := fun _ => false

/-- The key of a code. -/
def key (raw : Byte) : Byte := raw &&& 0x7F

/-- The code says that the key goes down. -/
def isDown (raw : Byte) : Bool := raw ≤ 0x7F

/-- The keys after an interrupt. -/
def Keys.strike (keys : Keys) : Option Byte → Keys
  | some raw => Function.update keys (key raw) (isDown raw)
  | none => keys

/-- The two shifts, the control key and the alternate key. -/
def modifiers : List Byte := [42, 54, 29, 56]

/-- The table for the modifiers that are held. -/
def Keys.map (keys : Keys) : List String :=
  if keys 42 = true ∨ keys 54 = true then kbMapShift
  else if keys 29 = true then kbMapCtrl
  else kbMap

/-- The text of an interrupt: a key that is no modifier types when it goes down. -/
def Keys.text (keys : Keys) : Option Byte → List Byte
  | some raw =>
      if isDown raw = true ∧ key raw ∉ modifiers then keys.map[raw.toNat]?.elim [] chars else []
  | none => []

/-- The text of a sequence of interrupts. -/
def Keys.typed (keys : Keys) : List (Option Byte) → List Byte
  | [] => []
  | input :: inputs => keys.text input ++ (keys.strike input).typed inputs

/-- A modifier goes down only when it is up, and comes up only when it is down. -/
def Keys.Turns (keys : Keys) : Option Byte → Prop
  | some raw => key raw ∈ modifiers → keys (key raw) = !isDown raw
  | none => True

/-- Every code of a sequence turns its modifier. -/
def Keys.TurnsAll (keys : Keys) : List (Option Byte) → Prop
  | [] => True
  | input :: inputs => keys.Turns input ∧ (keys.strike input).TurnsAll inputs

/-- The flag of a modifier. -/
def KbState.flag (state : KbState) (code : Byte) : Bool :=
  if code = 42 then state.lshift
  else if code = 54 then state.rshift
  else if code = 29 then state.ctrl
  else state.alt

/-- Turns over the flag of a modifier. -/
def KbState.toggle (state : KbState) (code : Byte) : KbState :=
  if code = 42 then { state with lshift := !state.lshift }
  else if code = 54 then { state with rshift := !state.rshift }
  else if code = 29 then { state with ctrl := !state.ctrl }
  else { state with alt := !state.alt }

/-- The flags say which modifiers are down. -/
def KbState.Agrees (state : KbState) (keys : Keys) : Prop :=
  ∀ code ∈ modifiers, state.flag code = keys code

/-- Enters a text at the console. -/
def enter (core : Core) (text : List Byte) : Core := text.foldl (·.ttyInput console ·) core

section

variable {kb : Keyboard} {state : KbState} {keys : Keys} {raw code : Byte} {input : Option Byte}
  {inputs : List (Option Byte)}

theorem KbState.agrees_released : KbState.released.Agrees .up := by
  intro code member
  simp [flag, released, Keys.up]

theorem KbState.Agrees.map_eq (agrees : state.Agrees keys) : state.map = keys.map := by
  have lshift := agrees 42 (by decide)
  have rshift := agrees 54 (by decide)
  have ctrl := agrees 29 (by decide)
  rw [flag] at lshift rshift ctrl
  simp only [KbState.map, Keys.map, ← lshift, ← rshift, ← ctrl]
  rfl

theorem KbState.flag_toggle (isKey : key raw ∈ modifiers) (isCode : code ∈ modifiers) :
    (state.toggle (key raw)).flag code =
      if code = key raw then !state.flag code else state.flag code := by
  simp only [modifiers, List.mem_cons, List.not_mem_nil, or_false] at isKey isCode
  rcases isKey with is | is | is | is <;> rw [is] <;>
    rcases isCode with rfl | rfl | rfl | rfl <;> rfl

/-- One turn of a modifier: its flag stays right if and only if the key has moved. -/
theorem KbState.Agrees.toggle_iff (agrees : state.Agrees keys) (isKey : key raw ∈ modifiers) :
    (state.toggle (key raw)).Agrees (keys.strike (some raw)) ↔ keys.Turns (some raw) := by
  constructor
  · intro after _
    have isFlag := after (key raw) isKey
    rw [flag_toggle isKey isKey, if_pos rfl, agrees _ isKey, Keys.strike,
      Function.update_self] at isFlag
    rw [← isFlag, Bool.not_not]
  · intro turns code isCode
    rw [flag_toggle isKey isCode, Keys.strike]
    split
    · rename_i isRaw
      subst isRaw
      rw [Function.update_self, agrees _ isKey, turns isKey, Bool.not_not]
    · rename_i different
      rw [Function.update_of_ne different, agrees _ isCode]

/-- The codes of other keys leave the modifiers alone. -/
theorem KbState.Agrees.strike (agrees : state.Agrees keys) (notKey : key raw ∉ modifiers) :
    state.Agrees (keys.strike (some raw)) := by
  intro code isCode
  have different : code ≠ key raw := by
    rintro rfl
    exact notKey isCode
  rw [Keys.strike, Function.update_of_ne different, agrees _ isCode]

theorem kbInput_state (text : List Byte) (kb : Keyboard) :
    (text.foldl kbInput kb).kbState = kb.kbState := by
  induction text generalizing kb with
  | nil => rfl
  | cons c text ih =>
      rw [List.foldl_cons, ih, kbInput]
      split <;> rfl

theorem kbInput_core {text : List Byte} (kb : Keyboard) (noNul : ∀ c ∈ text, c ≠ 0) :
    (text.foldl kbInput kb).core = enter kb.core text := by
  induction text generalizing kb with
  | nil => rfl
  | cons c text ih =>
      rw [List.forall_mem_cons] at noNul
      rw [List.foldl_cons, ih _ noNul.2, kbInput, if_pos noNul.1]
      rfl

theorem chars_ne_zero (string : String) : ∀ c ∈ chars string, c ≠ 0 := by
  intro c member
  have isChar := List.mem_takeWhile_imp member
  simpa using isChar

theorem kbCook_modifier (isKey : key raw ∈ modifiers) :
    kbCook kb raw = some { kb with kbState := kb.kbState.toggle (key raw) } := by
  simp only [modifiers, List.mem_cons, List.not_mem_nil, or_false] at isKey
  rw [kbCook]
  simp only [← key.eq_def]
  rcases isKey with is | is | is | is <;> rw [is] <;> rfl

theorem kbCook_other (notKey : key raw ∉ modifiers) :
    kbCook kb raw =
      if isDown raw = true then
        kb.kbState.map[raw.toNat]?.map fun c => (chars c).foldl kbInput kb
      else some kb := by
  simp only [modifiers, List.mem_cons, List.not_mem_nil, or_false, not_or] at notKey
  rcases notKey with ⟨notLshift, notRshift, notCtrl, notAlt⟩
  rw [key] at notLshift notRshift notCtrl notAlt
  rw [kbCook, if_neg notLshift, if_neg notRshift, if_neg notCtrl, if_neg notAlt, isDown]
  simp only [decide_eq_true_eq]

/-- The three tables have 127 entries. -/
theorem length_map (state : KbState) : state.map.length = 127 := by
  rw [KbState.map]
  split
  · rfl
  · split <;> rfl

/-- The one code that reads past the end of a table. -/
theorem kbCook_eq_none : kbCook kb raw = none ↔ raw = 127 := by
  by_cases isKey : key raw ∈ modifiers
  · rw [kbCook_modifier isKey]
    constructor
    · nofun
    · rintro rfl
      exact absurd isKey (by decide)
  · rw [kbCook_other isKey, isDown]
    split
    · rename_i low
      have bound : raw ≤ 0x7F := by simpa using low
      rw [Option.map_eq_none_iff, List.getElem?_eq_none_iff, length_map]
      bv_omega
    · rename_i high
      constructor
      · nofun
      · rintro rfl
        exact absurd rfl high

/-- What a code does, where the flags are right. -/
theorem kbCook_spec (agrees : kb.kbState.Agrees keys) (inTable : raw ≠ 127) :
    ∃ kb', kbCook kb raw = some kb' ∧ kb'.core = enter kb.core (keys.text (some raw)) ∧
      (kb'.kbState.Agrees (keys.strike (some raw)) ↔ keys.Turns (some raw)) := by
  by_cases isKey : key raw ∈ modifiers
  · refine ⟨_, kbCook_modifier isKey, ?_, agrees.toggle_iff isKey⟩
    rw [Keys.text, if_neg fun typing => typing.2 isKey]
    rfl
  · have turns : keys.Turns (some raw) := fun isModifier => absurd isModifier isKey
    have after := agrees.strike isKey
    cases low : isDown raw with
    | false =>
        refine ⟨kb, by rw [kbCook_other isKey, low]; rfl, ?_, iff_of_true after turns⟩
        rw [Keys.text, low, if_neg (by simp)]
        rfl
    | true =>
        have isSome : kbCook kb raw ≠ none := mt kbCook_eq_none.mp inTable
        rw [kbCook_other isKey, if_pos low] at isSome ⊢
        cases entry : kb.kbState.map[raw.toNat]? with
        | none => exact absurd (by rw [entry]; rfl) isSome
        | some string =>
            refine ⟨_, rfl, ?_, ?_⟩
            · rw [kbInput_core kb (chars_ne_zero string), Keys.text, if_pos ⟨low, isKey⟩,
                ← agrees.map_eq, entry]
              rfl
            · rw [kbInput_state]
              exact iff_of_true after turns

/-- What an interrupt does, where the flags are right. -/
theorem kbIrq_spec (agrees : kb.kbState.Agrees keys) (inTable : input ≠ some 127) :
    ∃ kb', kbIrq kb input = some kb' ∧ kb'.core = enter kb.core (keys.text input) ∧
      (kb'.kbState.Agrees (keys.strike input) ↔ keys.Turns input) := by
  cases input with
  | none => exact ⟨kb, rfl, rfl, iff_of_true agrees trivial⟩
  | some raw =>
      apply kbCook_spec agrees
      rintro rfl
      exact inTable rfl

/-! ## Runs -/

theorem enter_append (core : Core) (text text' : List Byte) :
    enter core (text ++ text') = enter (enter core text) text' := List.foldl_append

theorem irqs_cons (input : Option Byte) (inputs : List (Option Byte)) :
    (input :: inputs).foldlM kbIrq kb = (kbIrq kb input).bind (inputs.foldlM kbIrq ·) :=
  List.foldlM_cons

/-- What a run of interrupts does, where every code turns its modifier. -/
theorem irqs_spec (agrees : kb.kbState.Agrees keys) (inTable : some 127 ∉ inputs)
    (turns : keys.TurnsAll inputs) :
    ∃ kb', inputs.foldlM kbIrq kb = some kb' ∧ kb'.core = enter kb.core (keys.typed inputs) := by
  induction inputs generalizing kb keys with
  | nil => exact ⟨kb, rfl, rfl⟩
  | cons input inputs ih =>
      rw [List.mem_cons, not_or] at inTable
      rcases kbIrq_spec agrees (Ne.symm inTable.1) with ⟨middle, done, isText, stays⟩
      rcases ih (stays.mpr turns.1) inTable.2 turns.2 with ⟨last, rest, isTyped⟩
      refine ⟨last, ?_, ?_⟩
      · rw [irqs_cons, done]
        exact rest
      · rw [isTyped, isText, Keys.typed, enter_append]

/-- After every interrupt of the run the flags say which modifiers are down. -/
def AlwaysAgrees (kb : Keyboard) (keys : Keys) (inputs : List (Option Byte)) : Prop :=
  ∀ before, before <+: inputs → ∃ kb', before.foldlM kbIrq kb = some kb' ∧
    kb'.kbState.Agrees (before.foldl Keys.strike keys)

theorem alwaysAgrees_cons {middle : Keyboard} (agrees : kb.kbState.Agrees keys)
    (done : kbIrq kb input = some middle) :
    AlwaysAgrees kb keys (input :: inputs) ↔
      middle.kbState.Agrees (keys.strike input) ∧
        AlwaysAgrees middle (keys.strike input) inputs := by
  constructor
  · intro always
    have later : AlwaysAgrees middle (keys.strike input) inputs := by
      intro before isPrefix
      have after := always (input :: before) (List.cons_prefix_cons.mpr ⟨rfl, isPrefix⟩)
      rwa [irqs_cons, done, Option.bind_some, List.foldl_cons] at after
    rcases later [] List.nil_prefix with ⟨_, ⟨⟩, there⟩
    exact ⟨there, later⟩
  · rintro ⟨-, later⟩ before isPrefix
    rcases List.prefix_cons_iff.mp isPrefix with rfl | ⟨rest, rfl, restPrefix⟩
    · exact ⟨kb, rfl, agrees⟩
    · rw [irqs_cons, done, Option.bind_some, List.foldl_cons]
      exact later rest restPrefix

theorem alwaysAgrees_iff (agrees : kb.kbState.Agrees keys) (inTable : some 127 ∉ inputs) :
    AlwaysAgrees kb keys inputs ↔ keys.TurnsAll inputs := by
  induction inputs generalizing kb keys with
  | nil =>
      refine iff_of_true ?_ trivial
      intro before isPrefix
      rw [List.prefix_nil.mp isPrefix]
      exact ⟨kb, rfl, agrees⟩
  | cons input inputs ih =>
      rw [List.mem_cons, not_or] at inTable
      rcases kbIrq_spec agrees (Ne.symm inTable.1) with ⟨middle, done, -, stays⟩
      rw [alwaysAgrees_cons agrees done, Keys.TurnsAll, ← stays]
      apply and_congr_right
      intro there
      exact ih there inTable.2

/-- CTRL-c is no input; the other characters arrive one by one. -/
theorem unread_enter (core : Core) (text : List Byte) :
    ((enter core text).ttys console).unread =
      (text.filter (· ≠ 3)).foldl arrive (core.ttys console).unread := by
  induction text generalizing core with
  | nil => rfl
  | cons c text ih =>
      have isEnter : enter core (c :: text) = enter (core.ttyInput console c) text := rfl
      rw [isEnter, ih]
      by_cases isInterrupt : c = 3
      · have same : (core.ttyInput console c).ttys console = core.ttys console :=
          ttyInput_other core (by simp [isInterrupt])
        rw [same, List.filter_cons_of_neg (by simpa using isInterrupt)]
      · rw [unread_ttyInput core console isInterrupt,
          List.filter_cons_of_pos (by simpa using isInterrupt), List.foldl_cons]

end

/--
From the start on the flags are right after every interrupt, if and only if every code of a
modifier turns it: a modifier that repeats its code while it is held turns its flag over.
-/
theorem flags_right_iff (kb : Keyboard) (inputs : List (Option Byte))
    (released : kb.kbState = .released) (inTable : some 127 ∉ inputs) :
    AlwaysAgrees kb .up inputs ↔ Keys.up.TurnsAll inputs := by
  have agrees : kb.kbState.Agrees .up := by
    rw [released]
    exact KbState.agrees_released
  exact alwaysAgrees_iff agrees inTable

/-- The keyboard at the start. -/
def firstKeyboard : Keyboard := ⟨fun _ => 0, 0, 0, .released, smallCore⟩

/-- A shift that repeats its code. -/
theorem flags_right_iff_repeat : ¬AlwaysAgrees firstKeyboard .up [some 42, some 42] := by
  rw [flags_right_iff firstKeyboard _ rfl (by decide)]
  intro turns
  exact absurd (turns.2.1 (by decide)) (by decide)

/-- The text of the keys is entered at the console, and arrives in the ring of its terminal. -/
theorem console_receives (kb : Keyboard) (inputs : List (Option Byte))
    (released : kb.kbState = .released) (inTable : some 127 ∉ inputs)
    (turns : Keys.up.TurnsAll inputs) :
    ∃ kb', inputs.foldlM kbIrq kb = some kb' ∧
      kb'.core = enter kb.core (Keys.up.typed inputs) ∧
      (kb'.core.ttys console).unread =
        ((Keys.up.typed inputs).filter (· ≠ 3)).foldl arrive (kb.core.ttys console).unread := by
  have agrees : kb.kbState.Agrees .up := by
    rw [released]
    exact KbState.agrees_released
  rcases irqs_spec agrees inTable turns with ⟨kb', done, isTyped⟩
  refine ⟨kb', done, isTyped, ?_⟩
  rw [isTyped, unread_enter]

/-- The key `a` while a shift is held. -/
theorem console_receives_shifted :
    ∃ kb', [some 42, some 30, none, some 158, some 170].foldlM kbIrq firstKeyboard = some kb' ∧
      (kb'.core.ttys console).unread = [65] := by
  have notKey {raw : Byte} (other : key raw ∉ modifiers) {keys : Keys} : keys.Turns (some raw) :=
    fun isKey => absurd isKey other
  have turns : Keys.up.TurnsAll [some 42, some 30, none, some 158, some 170] :=
    ⟨fun _ => rfl, notKey (by decide), trivial, notKey (by decide), fun _ => rfl, trivial⟩
  rcases console_receives firstKeyboard _ rfl (by decide) turns with ⟨kb', done, -, isUnread⟩
  refine ⟨kb', done, ?_⟩
  have isText : Keys.up.typed [some 42, some 30, none, some 158, some 170] = [65] := by decide
  have empty : (firstKeyboard.core.ttys console).unread = [] := unread_nil rfl
  rw [isUnread, isText, empty]
  rfl

end Osix.Kb
