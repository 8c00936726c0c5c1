import Osix.Lib.Transition
import Mathlib.Algebra.GroupWithZero.Nat
import Mathlib.Data.Int.Notation
import Mathlib.Data.Nat.Notation
import Mathlib.Logic.Function.Basic

/-!
# The console

`sys/i386/cons.c` as it is built for the screen (`SERIAL_CONSOLE` is 0). `cn_putchar` takes the
output byte by byte: it moves a 16-bit cursor over the cells of the screen, and parses escape
sequences with up to four arguments. An access outside of the screen or of the arguments has no
result here (`none`). The registers of the hardware cursor are left out.
-/

namespace Osix.Cons

open Transition

/-- `VGA_WIDTH`. -/
def vgaWidth : ℕ := 80

/-- `VGA_HEIGHT`. -/
def vgaHeight : ℕ := 25

/-- `enum esc_state`. -/
inductive EscState where
  | normal
  | start
  | bracket
deriving DecidableEq

/-- The variables of `cons.c` and the static variables of `cn_putchar`. -/
structure Console where
  color : BitVec 16
  cursorPos : BitVec 16
  buffer : ℕ → BitVec 16
  state : EscState
  argsCount : ℤ
  args : ℕ → ℤ

/-- `int` arithmetic. -/
def toInt (n : ℤ) : ℤ := n.bmod (2 ^ 32)

/-- `isprint` and `isdigit` of `include/ctype.h`. -/
def isprint (c : ℤ) : Bool := 32 ≤ c ∧ c < 127
def isdigit (c : ℤ) : Bool := 48 ≤ c ∧ c ≤ 57

namespace Console

/-! ## Cells and arguments -/

/-- `cn_buffer[i]`. -/
def getCell (cn : Console) (i : ℕ) : Option (BitVec 16) :=
  if i < vgaWidth * vgaHeight then some (cn.buffer i) else none

/-- `cn_buffer[i] = cell`. -/
def setCell (cn : Console) (i : ℕ) (cell : BitVec 16) : Option Console :=
  if i < vgaWidth * vgaHeight then some { cn with buffer := Function.update cn.buffer i cell }
  else none

/-- `memmove` of cells of the screen. -/
def moveCells (cn : Console) (dst src count : ℕ) : Option Console :=
  if dst + count ≤ vgaWidth * vgaHeight ∧ src + count ≤ vgaWidth * vgaHeight then
    some { cn with
      buffer := fun i =>
        if dst ≤ i ∧ i < dst + count then cn.buffer (src + (i - dst)) else cn.buffer i }
  else none

/-- `args[i]`. -/
def getArg (cn : Console) (i : ℤ) : Option ℤ :=
  if 0 ≤ i ∧ i < 4 then some (cn.args i.toNat) else none

/-- `args[i] = value`. -/
def setArg (cn : Console) (i value : ℤ) : Option Console :=
  if 0 ≤ i ∧ i < 4 then some { cn with args := Function.update cn.args i.toNat value } else none

/-! ## The functions of `cons.c` -/

/-- The loop that clears the cells from `start` to the end. -/
def blank (cn : Console) (start : ℕ) : Option Console :=
  (List.range' start (vgaWidth * vgaHeight - start)).foldlM (fun cn i => cn.setCell i 0x20) cn

/-- The part of `cn_putchar_raw` that scrolls. -/
def scroll (cn : Console) : Option Console := do
  let cn ← cn.moveCells 0 vgaWidth (vgaWidth * (vgaHeight - 1))
  let cn := { cn with cursorPos := BitVec.ofNat 16 (vgaWidth * (vgaHeight - 1)) }
  cn.blank cn.cursorPos.toNat

/-- `cn_putchar_raw`. -/
def putcharRaw (cn : Console) (c : ℤ) : Option Console := do
  let cn ←
    if c = 13 then
      some { cn with cursorPos := BitVec.ofNat 16 (cn.cursorPos.toNat / vgaWidth * vgaWidth) }
    else if c = 10 then
      some { cn with
        cursorPos := BitVec.ofNat 16 (cn.cursorPos.toNat / vgaWidth * vgaWidth + vgaWidth) }
    else if c = 8 then some { cn with cursorPos := cn.cursorPos - 1 }
    else if c = 9 then some { cn with cursorPos := (cn.cursorPos + 8) &&& ~~~3 }
    else do
      let next ← cn.setCell cn.cursorPos.toNat (BitVec.ofInt 16 c ||| cn.color)
      some { next with cursorPos := cn.cursorPos + 1 }
  if vgaWidth * vgaHeight ≤ cn.cursorPos.toNat then cn.scroll else some cn

/-- `cn_buffer[i] &= 0xFF00`. -/
def eraseCell (cn : Console) (i : ℕ) : Option Console := do
  let cell ← cn.getCell i
  cn.setCell i (cell &&& 0xFF00)

/-- `cn_erase_line`. -/
def eraseLine (cn : Console) : Option Console :=
  let start := cn.cursorPos.toNat / vgaWidth * vgaWidth
  (List.range vgaWidth).foldlM (fun cn x => cn.eraseCell (x + start)) cn

/-- `cn_clear`. -/
def clear (cn : Console) : Option Console :=
  (List.range (vgaWidth * vgaHeight)).foldlM eraseCell cn

/-- `cn_goto`. -/
def goto (cn : Console) (x y : BitVec 32) : Console :=
  let x := x % BitVec.ofNat 32 vgaWidth
  let y := (y - 1) % BitVec.ofNat 32 vgaHeight
  { cn with cursorPos := (y * BitVec.ofNat 32 vgaWidth + x).setWidth 16 }

/-- A digit in `cn_putchar`. -/
def putDigit (cn : Console) (c : ℤ) : Option Console := do
  let cn := { cn with argsCount := if cn.argsCount = 0 then 1 else cn.argsCount }
  let value ← cn.getArg (cn.argsCount - 1)
  let cn ← cn.setArg (cn.argsCount - 1) (toInt (value * 10))
  let value ← cn.getArg (cn.argsCount - 1)
  cn.setArg (cn.argsCount - 1) (toInt (value + (c - 48)))

/-- The end of an escape sequence in `cn_putchar`. -/
def endEscape (cn : Console) (c : ℤ) : Option Console :=
  if c = 72 then some { cn with cursorPos := 0 }
  else if c = 74 then cn.clear
  else if c = 75 then if cn.argsCount = 1 then cn.eraseLine else some cn
  else if c = 102 then
    if cn.argsCount = 2 then do
      let x ← cn.getArg 1
      let y ← cn.getArg 0
      some (cn.goto (BitVec.ofInt 32 x) (BitVec.ofInt 32 y))
    else some cn
  else some cn

/-- `cn_putchar`. -/
def putchar (cn : Console) (c : ℤ) : Option Console :=
  match cn.state with
  | .normal =>
      if c = 27 then some { cn with state := .start, argsCount := 0, args := fun _ => 0 }
      else cn.putcharRaw c
  | .start =>
      if c = 91 then some { cn with state := .bracket }
      else do
        let cn ← { cn with state := .normal }.putcharRaw 27
        cn.putcharRaw c
  | .bracket =>
      if isprint c then
        if isdigit c then cn.putDigit c
        else if c = 59 then some { cn with argsCount := toInt (cn.argsCount + 1) }
        else do
          let cn ← cn.endEscape c
          some { cn with state := .normal }
      else some { cn with state := .normal }

/-- The cursor is on the screen. -/
def OnScreen (cn : Console) : Prop := cn.cursorPos.toNat < vgaWidth * vgaHeight

/-- All accesses are in bounds, and the cursor is on the screen after each byte. -/
def InBounds (cn : Console) (bytes : List ℤ) : Prop :=
  ∀ past rest, bytes = past ++ rest → ∃ after, run putchar cn past = some after ∧ after.OnScreen

end Console

/-! ## The parser of escape sequences -/

/-- What the parser keeps besides the values of the arguments. -/
structure Escape where
  state : EscState
  argsCount : ℤ

/-- The parser after a byte. -/
def Escape.next (esc : Escape) (c : ℤ) : Escape :=
  match esc.state with
  | .normal => if c = 27 then ⟨.start, 0⟩ else esc
  | .start => if c = 91 then ⟨.bracket, esc.argsCount⟩ else ⟨.normal, esc.argsCount⟩
  | .bracket =>
      if isprint c then
        if isdigit c then ⟨.bracket, if esc.argsCount = 0 then 1 else esc.argsCount⟩
        else if c = 59 then ⟨.bracket, toInt (esc.argsCount + 1)⟩
        else ⟨.normal, esc.argsCount⟩
      else ⟨.normal, esc.argsCount⟩

/-- A digit belongs to one of the first four arguments. -/
def Escape.Allows (esc : Escape) (c : ℤ) : Prop :=
  esc.state = .bracket → isdigit c = true → 0 ≤ esc.argsCount ∧ esc.argsCount ≤ 4

instance (esc : Escape) (c : ℤ) : Decidable (esc.Allows c) :=
  inferInstanceAs (Decidable (_ → _ → _))

/-- No escape sequence has a digit in a fifth argument. -/
def FewArgs (esc : Escape) : List ℤ → Prop
  | [] => True
  | c :: rest => esc.Allows c ∧ FewArgs (esc.next c) rest

namespace Console

/-- The parser of the console. -/
def escape (cn : Console) : Escape := ⟨cn.state, cn.argsCount⟩

/-- Only cells change. -/
structure Keeps (cn after : Console) : Prop where
  cursorPos : after.cursorPos = cn.cursorPos
  escape : after.escape = cn.escape

theorem Keeps.trans {cn middle after : Console} (first : Keeps cn middle)
    (second : Keeps middle after) : Keeps cn after :=
  ⟨second.cursorPos.trans first.cursorPos, second.escape.trans first.escape⟩

theorem Keeps.onScreen {cn after : Console} (keeps : Keeps cn after) (onScreen : cn.OnScreen) :
    after.OnScreen := by
  rw [OnScreen, keeps.cursorPos]
  exact onScreen

/-! ## Loops over cells -/

section

variable {cn : Console} {i : ℕ}

theorem setCell_keeps (inside : i < vgaWidth * vgaHeight) (cn : Console) (cell : BitVec 16) :
    ∃ after, cn.setCell i cell = some after ∧ Keeps cn after :=
  ⟨_, if_pos inside, rfl, rfl⟩

theorem eraseCell_keeps (inside : i < vgaWidth * vgaHeight) (cn : Console) :
    ∃ after, cn.eraseCell i = some after ∧ Keeps cn after := by
  rw [eraseCell, getCell, if_pos inside]
  exact setCell_keeps inside cn _

theorem foldlM_keeps {body : Console → ℕ → Option Console} {indices : List ℕ}
    (inside : ∀ i ∈ indices, ∀ cn, ∃ after, body cn i = some after ∧ Keeps cn after)
    (cn : Console) : ∃ after, indices.foldlM body cn = some after ∧ Keeps cn after := by
  induction indices generalizing cn with
  | nil => exact ⟨cn, rfl, rfl, rfl⟩
  | cons i rest ih =>
      rw [List.forall_mem_cons] at inside
      rcases inside.1 cn with ⟨middle, isMiddle, first⟩
      rcases ih inside.2 middle with ⟨after, isAfter, others⟩
      refine ⟨after, ?_, first.trans others⟩
      rw [List.foldlM_cons, isMiddle]
      exact isAfter

theorem eraseLine_keeps (onScreen : cn.OnScreen) :
    ∃ after, cn.eraseLine = some after ∧ Keeps cn after := by
  refine foldlM_keeps (fun x inLine cn' => eraseCell_keeps ?_ cn') cn
  rw [List.mem_range] at inLine
  unfold OnScreen at onScreen
  simp only [vgaWidth, vgaHeight] at *
  omega

theorem clear_keeps (cn : Console) : ∃ after, cn.clear = some after ∧ Keeps cn after :=
  foldlM_keeps (fun _ inside => eraseCell_keeps (List.mem_range.mp inside)) cn

theorem blank_keeps (cn : Console) (start : ℕ) :
    ∃ after, cn.blank start = some after ∧ Keeps cn after := by
  refine foldlM_keeps (fun i inLine cn => setCell_keeps ?_ cn _) cn
  rw [List.mem_range'_1] at inLine
  omega

theorem moveCells_keeps {dst src count : ℕ} (inside : dst + count ≤ vgaWidth * vgaHeight ∧
    src + count ≤ vgaWidth * vgaHeight) (cn : Console) :
    ∃ after, cn.moveCells dst src count = some after ∧ Keeps cn after :=
  ⟨_, if_pos inside, rfl, rfl⟩

/-- Scrolling puts the cursor at the start of the last line. -/
theorem scroll_spec (cn : Console) :
    ∃ after, cn.scroll = some after ∧ after.OnScreen ∧ after.escape = cn.escape := by
  have lastLine : (BitVec.ofNat 16 (vgaWidth * (vgaHeight - 1))).toNat < vgaWidth * vgaHeight := by
    decide
  unfold scroll
  rcases @moveCells_keeps 0 vgaWidth (vgaWidth * (vgaHeight - 1)) (by decide) cn with
    ⟨moved, isMoved, movedKeeps⟩
  rw [isMoved, Option.bind_eq_bind, Option.bind_some, ← movedKeeps.escape]
  generalize BitVec.ofNat 16 (vgaWidth * (vgaHeight - 1)) = cursorPos at lastLine ⊢
  rcases blank_keeps { moved with cursorPos := cursorPos } cursorPos.toNat with
    ⟨after, isAfter, keeps⟩
  refine ⟨after, isAfter, ?_, keeps.escape⟩
  rw [OnScreen, keeps.cursorPos]
  exact lastLine

/-- The end of `cn_putchar_raw`. -/
theorem settle_spec (cn : Console) :
    ∃ after, (if vgaWidth * vgaHeight ≤ cn.cursorPos.toNat then cn.scroll else some cn) =
      some after ∧ after.OnScreen ∧ after.escape = cn.escape := by
  split
  · exact scroll_spec cn
  · rename_i inside
    exact ⟨cn, rfl, Nat.lt_of_not_le inside, rfl⟩

theorem putcharRaw_spec (onScreen : cn.OnScreen) (c : ℤ) :
    ∃ after, cn.putcharRaw c = some after ∧ after.OnScreen ∧ after.escape = cn.escape := by
  unfold putcharRaw
  split
  · exact settle_spec _
  · split
    · exact settle_spec _
    · split
      · exact settle_spec _
      · split
        · exact settle_spec _
        · rcases setCell_keeps onScreen cn (BitVec.ofInt 16 c ||| cn.color) with
            ⟨next, isNext, keeps⟩
          rw [isNext, ← keeps.escape]
          exact settle_spec { next with cursorPos := cn.cursorPos + 1 }

theorem goto_onScreen (cn : Console) (x y : BitVec 32) : (cn.goto x y).OnScreen := by
  unfold goto OnScreen
  have width : (BitVec.ofNat 32 vgaWidth).toNat = 80 := rfl
  have height : (BitVec.ofNat 32 vgaHeight).toNat = 25 := rfl
  rw [BitVec.toNat_setWidth, BitVec.toNat_add, BitVec.toNat_mul, BitVec.toNat_umod,
    BitVec.toNat_umod, width, height]
  have column := Nat.mod_lt x.toNat (show 80 > 0 by decide)
  have line := Nat.mod_lt (y - 1).toNat (show 25 > 0 by decide)
  generalize x.toNat % 80 = x at column ⊢
  generalize (y - 1).toNat % 25 = y at line ⊢
  have isPlace : (y * 80 % 2 ^ 32 + x) % 2 ^ 32 % 2 ^ 16 = y * 80 + x := by omega
  rw [isPlace, vgaWidth, vgaHeight]
  omega

/-- A digit is stored if it belongs to one of the first four arguments. -/
theorem putDigit_spec (few : 0 ≤ cn.argsCount ∧ cn.argsCount ≤ 4) (c : ℤ) :
    ∃ after, cn.putDigit c = some after ∧ after.cursorPos = cn.cursorPos ∧
      after.escape = ⟨cn.state, if cn.argsCount = 0 then 1 else cn.argsCount⟩ := by
  have inside : 0 ≤ (if cn.argsCount = 0 then 1 else cn.argsCount) - 1 ∧
      (if cn.argsCount = 0 then 1 else cn.argsCount) - 1 < 4 := by
    split <;> omega
  unfold putDigit getArg setArg
  simp only [if_pos inside, Option.bind_eq_bind, Option.bind_some]
  exact ⟨_, rfl, rfl, rfl⟩

theorem putDigit_none (many : ¬(0 ≤ cn.argsCount ∧ cn.argsCount ≤ 4)) (c : ℤ) :
    cn.putDigit c = none := by
  have outside : ¬(0 ≤ (if cn.argsCount = 0 then 1 else cn.argsCount) - 1 ∧
      (if cn.argsCount = 0 then 1 else cn.argsCount) - 1 < 4) := by
    split <;> omega
  unfold putDigit getArg
  simp only [if_neg outside, Option.bind_eq_bind, Option.bind_none]

theorem endEscape_spec (onScreen : cn.OnScreen) (c : ℤ) :
    ∃ after, cn.endEscape c = some after ∧ after.OnScreen ∧ after.escape = cn.escape := by
  unfold endEscape
  split
  · exact ⟨_, rfl, show 0 < vgaWidth * vgaHeight by decide, rfl⟩
  split
  · rcases clear_keeps cn with ⟨after, isAfter, keeps⟩
    exact ⟨after, isAfter, keeps.onScreen onScreen, keeps.escape⟩
  split
  · split
    · rcases eraseLine_keeps onScreen with ⟨after, isAfter, keeps⟩
      exact ⟨after, isAfter, keeps.onScreen onScreen, keeps.escape⟩
    · exact ⟨cn, rfl, onScreen, rfl⟩
  split
  · split
    · exact ⟨_, rfl, goto_onScreen .., rfl⟩
    · exact ⟨cn, rfl, onScreen, rfl⟩
  · exact ⟨cn, rfl, onScreen, rfl⟩

end

/-! ## Sequences of bytes -/

section

variable {cn : Console}

/-- A byte that the parser allows is put in bounds. -/
theorem putchar_spec (onScreen : cn.OnScreen) {c : ℤ} (allows : cn.escape.Allows c) :
    ∃ after, cn.putchar c = some after ∧ after.OnScreen ∧
      after.escape = cn.escape.next c := by
  unfold putchar Escape.next
  cases isState : cn.state with
  | normal =>
      simp only [escape, isState]
      by_cases isEscape : c = 27
      · rw [if_pos isEscape, if_pos isEscape]
        exact ⟨_, rfl, onScreen, rfl⟩
      · rw [if_neg isEscape, if_neg isEscape]
        rcases putcharRaw_spec onScreen c with ⟨after, isAfter, isOn, same⟩
        rw [escape, escape, isState] at same
        exact ⟨after, isAfter, isOn, same⟩
  | start =>
      simp only [escape, isState]
      by_cases isBracket : c = 91
      · rw [if_pos isBracket, if_pos isBracket]
        exact ⟨_, rfl, onScreen, rfl⟩
      · rw [if_neg isBracket, if_neg isBracket]
        rcases @putcharRaw_spec { cn with state := .normal } onScreen 27 with
          ⟨first, isFirst, firstOn, firstSame⟩
        rcases putcharRaw_spec firstOn c with ⟨after, isAfter, isOn, same⟩
        rw [isFirst, Option.bind_eq_bind, Option.bind_some]
        exact ⟨after, isAfter, isOn, same.trans firstSame⟩
  | bracket =>
      have few := allows isState
      simp only [escape, isState]
      by_cases printable : isprint c = true
      · rw [if_pos printable, if_pos printable]
        by_cases digit : isdigit c = true
        · rw [if_pos digit, if_pos digit]
          rcases putDigit_spec (few digit) c with ⟨after, isAfter, sameCursor, same⟩
          rw [isState] at same
          refine ⟨after, isAfter, ?_, same⟩
          rw [OnScreen, sameCursor]
          exact onScreen
        · rw [if_neg digit, if_neg digit]
          by_cases separates : c = 59
          · rw [if_pos separates, if_pos separates]
            exact ⟨_, rfl, onScreen, rfl⟩
          · rw [if_neg separates, if_neg separates]
            rcases endEscape_spec onScreen c with ⟨after, isAfter, isOn, same⟩
            rw [isAfter, Option.bind_eq_bind, Option.bind_some]
            exact ⟨_, rfl, isOn, congrArg (Escape.mk .normal ·.argsCount) same⟩
      · rw [if_neg printable, if_neg printable]
        exact ⟨_, rfl, onScreen, rfl⟩

theorem putchar_none {c : ℤ} (forbids : ¬cn.escape.Allows c) : cn.putchar c = none := by
  unfold Escape.Allows escape at forbids
  dsimp only at forbids
  rw [Classical.not_imp, Classical.not_imp] at forbids
  rcases forbids with ⟨isState, digit, many⟩
  have printable : isprint c = true := by
    simp only [isdigit, isprint, Bool.decide_and, Bool.and_eq_true, decide_eq_true_eq] at digit ⊢
    omega
  simp only [putchar, isState, printable, digit, if_true]
  exact putDigit_none many c

/-- All bytes are put in bounds if and only if no digit belongs to a fifth argument. -/
theorem inBounds_iff (cn : Console) (onScreen : cn.OnScreen) (bytes : List ℤ) :
    cn.InBounds bytes ↔ FewArgs cn.escape bytes := by
  induction bytes generalizing cn with
  | nil =>
      refine ⟨fun _ => trivial, fun _ past rest isSplit => ?_⟩
      rcases List.append_eq_nil_iff.mp isSplit.symm with ⟨rfl, rfl⟩
      exact ⟨cn, rfl, onScreen⟩
  | cons c bytes ih =>
      by_cases allows : cn.escape.Allows c
      · rcases putchar_spec onScreen allows with ⟨next, isNext, onScreenNext, isEscape⟩
        rw [FewArgs, ← isEscape, ← ih next onScreenNext]
        constructor
        · intro inBounds
          refine ⟨allows, fun past rest isSplit => ?_⟩
          rcases inBounds (c :: past) rest (congrArg (c :: ·) isSplit) with ⟨after, isRun, isOn⟩
          rw [run, isNext] at isRun
          exact ⟨after, isRun, isOn⟩
        · rintro ⟨_, inBounds⟩ past rest isSplit
          cases past with
          | nil => exact ⟨cn, rfl, onScreen⟩
          | cons first past =>
              cases isSplit
              rcases inBounds past rest rfl with ⟨after, isRun, isOn⟩
              refine ⟨after, ?_, isOn⟩
              rw [run, isNext]
              exact isRun
      · refine iff_of_false (fun inBounds => ?_) fun few => allows few.1
        rcases inBounds [c] bytes rfl with ⟨after, isRun, _⟩
        rw [run, putchar_none allows] at isRun
        cases isRun

/-- The console with the cursor in the last cell, before any output. -/
def lastCell : Console := ⟨0x0A00, 1999, fun _ => 0, .normal, 0, fun _ => 0⟩

/-- `ESC [ 2 ; 5 f`. -/
theorem inBounds_iff_goto : lastCell.OnScreen ∧ (lastCell.InBounds [27, 91, 50, 59, 53, 102] ↔
    FewArgs lastCell.escape [27, 91, 50, 59, 53, 102]) := by
  have onScreen : lastCell.OnScreen := show 1999 < vgaWidth * vgaHeight by decide
  exact ⟨onScreen, inBounds_iff lastCell onScreen _⟩

/-- `ESC [ ; ; ; ; ; 1`. -/
theorem not_inBounds_all : ¬∀ (cn : Console) (bytes : List ℤ), cn.OnScreen → cn.InBounds bytes := by
  intro all
  have onScreen : lastCell.OnScreen := show 1999 < vgaWidth * vgaHeight by decide
  rcases all lastCell [27, 91, 59, 59, 59, 59, 59, 49] onScreen _ [] (List.append_nil _).symm with
    ⟨after, isRun, _⟩
  have isNone : run putchar lastCell [27, 91, 59, 59, 59, 59, 59, 49] = none := rfl
  rw [isNone] at isRun
  cases isRun

end

end Console

end Osix.Cons
