import Osix.Fs.Terminal

/-!
# Line editing

`tty_read` in canonical mode with echo. It edits the line in the buffer of the caller and sends
what it does to the terminal, character by character; CTRL-w goes by the character that it has
just removed. Both come to the same line as an editor of lists (`edit`): the buffer when
`tty_read` returns, and the screen after every key (`Shows`).
-/

namespace Osix.Terminal

open Program

/-! ## The editor -/

/-- CTRL-w: trailing spaces, the last word, and one space before it. -/
def killWord (line : List Byte) : List Byte :=
  (((line.reverse.dropWhile (· = 32)).dropWhile (· ≠ 32)).drop 1).reverse

/-- One key. -/
def editKey (line : List Byte) (key : Byte) : List Byte :=
  if key = 127 ∨ key = 8 then line.dropLast
  else if key = 23 then killWord line
  else if key = 21 then []
  else if key = 12 then line
  else line ++ [key]

/-- The line after some keys. -/
def edit (line keys : List Byte) : List Byte := keys.foldl editKey line

/-- The keys of the editor; CTRL-l is one only when the line is not empty. -/
def IsKey (line : List Byte) (key : Byte) : Prop :=
  (32 ≤ key ∧ key < 127) ∨ key = 8 ∨ key = 127 ∨ key = 23 ∨ key = 21 ∨ (key = 12 ∧ line ≠ [])

/-- Keys of the editor, and no line on the way has `count` characters or more. -/
def Types (count : ℕ) (line : List Byte) : List Byte → Prop
  | [] => line.length < count
  | key :: keys => line.length < count ∧ IsKey line key ∧ Types count (editKey line key) keys

/-! ## The screen -/

/-- A row of the screen: the cells before the cursor and those from it on. -/
structure Row where
  before : List Byte
  after : List Byte

/-- `'\\b'` moves the cursor back, other characters fill the cell under it. -/
def Row.put (row : Row) (char : Byte) : Row :=
  if char = 8 then ⟨row.before.dropLast, row.before.getLast?.toList ++ row.after⟩
  else ⟨row.before ++ [char], row.after.tail⟩

/-- An empty row after some output. -/
def screen (sent : List Byte) : Row := sent.foldl Row.put ⟨[], []⟩

/-- The row shows the line, the cursor is at its end, and the rest is blank. -/
def Row.Shows (row : Row) (line : List Byte) : Prop :=
  row.before = line ∧ ∀ cell ∈ row.after, cell = 32

section

variable {row : Row} {line : List Byte}

theorem Row.Shows.put (shows : row.Shows line) {char : Byte} (notBack : char ≠ 8) :
    (row.put char).Shows (line ++ [char]) := by
  rw [Row.put, if_neg notBack]
  exact ⟨by rw [shows.1], fun cell isIn => shows.2 cell (List.mem_of_mem_tail isIn)⟩

/-- `"\\b \\b"` erases one cell. -/
theorem Row.Shows.rubout (shows : row.Shows line) (nonempty : line ≠ []) :
    (Fs.rubout.foldl Row.put row).Shows line.dropLast := by
  rcases List.eq_nil_or_concat line with rfl | ⟨rest, last, rfl⟩
  · exact absurd rfl nonempty
  · rcases row with ⟨before, after⟩
    rcases shows with ⟨isLine, blank⟩
    dsimp only at isLine blank
    subst isLine
    have erased : Fs.rubout.foldl Row.put ⟨rest.concat last, after⟩ = ⟨rest, 32 :: after⟩ := by
      simp [Fs.rubout, Row.put]
    rw [erased]
    refine ⟨by simp, fun cell isIn => ?_⟩
    rcases List.mem_cons.mp isIn with rfl | isIn
    · rfl
    · exact blank cell isIn

/-- So many times `"\\b \\b"`. -/
def rubouts (count : ℕ) : List Byte := (List.replicate count Fs.rubout).flatten

theorem rubouts_one : rubouts 1 = Fs.rubout := rfl

theorem rubouts_add (first second : ℕ) :
    rubouts (first + second) = rubouts first ++ rubouts second := by
  rw [rubouts, List.replicate_add, List.flatten_append, rubouts, rubouts]

theorem Row.Shows.rubouts (count : ℕ) (shows : row.Shows line) (within : count ≤ line.length) :
    ((rubouts count).foldl Row.put row).Shows (line.take (line.length - count)) := by
  induction count generalizing row line with
  | zero => simpa [Terminal.rubouts] using shows
  | succ count ih =>
      have nonempty : line ≠ [] := by
        rintro rfl
        simp at within
      have rest := ih (shows.rubout nonempty) (by rw [List.length_dropLast]; omega)
      rw [List.length_dropLast, List.dropLast_eq_take, List.take_take] at rest
      rw [Nat.add_comm count 1, rubouts_add, rubouts_one, List.foldl_append]
      convert rest using 2
      omega

end

/-! ## Positions in the line -/

/-- Where the loops of CTRL-w stop. -/
def backOver (dest : ℕ → Byte) (kill : Byte → Bool) : ℕ → ℕ
  | 0 => 0
  | pos + 1 => if kill (dest (pos + 1)) then backOver dest kill pos else pos + 1

section

variable {dest : ℕ → Byte}

theorem backOver_le (dest : ℕ → Byte) (kill : Byte → Bool) (pos : ℕ) :
    backOver dest kill pos ≤ pos := by
  induction pos with
  | zero => exact le_rfl
  | succ pos ih =>
      rw [backOver]
      split
      · omega
      · exact le_rfl

theorem length_userBytes (dest : ℕ → Byte) (pos : ℕ) : (Fs.userBytes dest pos).length = pos := by
  simp [Fs.userBytes]

theorem userBytes_succ (dest : ℕ → Byte) (pos : ℕ) :
    Fs.userBytes dest (pos + 1) = Fs.userBytes dest pos ++ [dest pos] := by
  simp [Fs.userBytes, List.range_succ]

theorem take_userBytes (dest : ℕ → Byte) {pos pos' : ℕ} (atMost : pos' ≤ pos) :
    (Fs.userBytes dest pos).take pos' = Fs.userBytes dest pos' := by
  rw [Fs.userBytes, ← List.map_take, List.take_range, Nat.min_eq_left atMost, Fs.userBytes]

theorem userBytes_update (dest : ℕ → Byte) {pos pos' : ℕ} (below : pos' ≤ pos) (char : Byte) :
    Fs.userBytes (Function.update dest pos char) pos' = Fs.userBytes dest pos' := by
  apply List.map_congr_left
  intro i isIn
  rw [List.mem_range] at isIn
  exact Function.update_of_ne (by omega) _ _

theorem userBytes_put (dest : ℕ → Byte) (pos : ℕ) (char : Byte) :
    Fs.userBytes (Function.update dest pos char) (pos + 1) = Fs.userBytes dest pos ++ [char] := by
  rw [userBytes_succ, userBytes_update dest le_rfl, Function.update_self]

/-- The line backwards. -/
def backwards (dest : ℕ → Byte) (pos : ℕ) : List Byte := (Fs.userBytes dest pos).reverse

theorem backwards_succ (dest : ℕ → Byte) (pos : ℕ) :
    backwards dest (pos + 1) = dest pos :: backwards dest pos := by
  simp [backwards, userBytes_succ]

theorem backwards_zero (dest : ℕ → Byte) : backwards dest 0 = [] := rfl

/-- The loop over the word, with its last character removed: it also removes the space. -/
theorem backOver_word (dest : ℕ → Byte) (pos : ℕ) :
    backwards dest (backOver dest (· ≠ 32) pos) =
      ((backwards dest (pos + 1)).dropWhile (· ≠ 32)).drop 1 := by
  induction pos with
  | zero =>
      rw [backOver, backwards_succ, backwards_zero, List.dropWhile_cons]
      split <;> rfl
  | succ pos ih =>
      rw [backOver, backwards_succ dest (pos + 1), List.dropWhile_cons]
      split
      · exact ih
      · rfl

/-- The loop over trailing spaces, with the last character removed. -/
theorem backOver_spaces (dest : ℕ → Byte) (pos : ℕ) :
    ((backwards dest (backOver dest (· = 32) pos + 1)).dropWhile (· ≠ 32)).drop 1 =
      (((backwards dest (pos + 1)).dropWhile (· = 32)).dropWhile (· ≠ 32)).drop 1 := by
  induction pos with
  | zero =>
      rw [backOver, backwards_succ, backwards_zero]
      by_cases isSpace : dest 0 = 32
      · rw [List.dropWhile_cons, List.dropWhile_cons, if_pos (decide_eq_true isSpace),
          if_neg (by simp [isSpace])]
        rfl
      · rw [List.dropWhile_cons, if_pos (decide_eq_true isSpace), List.dropWhile_cons,
          if_neg (by simpa using isSpace), List.dropWhile_cons, if_pos (decide_eq_true isSpace)]
  | succ pos ih =>
      rw [backOver, backwards_succ dest (pos + 1)]
      split
      · rename_i isSpace
        rw [ih, List.dropWhile_cons, if_pos isSpace]
      · rename_i notSpace
        have kept : (dest (pos + 1) :: backwards dest (pos + 1)).dropWhile (· = 32) =
            dest (pos + 1) :: backwards dest (pos + 1) := by
          rw [List.dropWhile_cons, if_neg notSpace]
        rw [kept, backwards_succ]

/-- The three steps of CTRL-w remove what the editor removes. -/
theorem backOver_killWord (dest : ℕ → Byte) (pos : ℕ) :
    Fs.userBytes dest (backOver dest (· ≠ 32) (backOver dest (· = 32) pos)) =
      killWord (Fs.userBytes dest (pos + 1)) := by
  have same := backOver_word dest (backOver dest (· = 32) pos)
  rw [backOver_spaces] at same
  rw [killWord, ← backwards, ← same, backwards, List.reverse_reverse]

end

/-! ## Echo -/

/-- A terminal in canonical mode with echo, on a line that works, and no signal. -/
structure Serving (t : TtyId) (p : ProcId) (dev : Dev) (kernel : Kernel) : Prop where
  canonical : (kernel.core.ttys t).icanon = true
  echoes : (kernel.core.ttys t).echo = true
  port : minor dev < 2 ∧ kernel.core.uartPort (minor dev).toNat = true
  noSignal : (kernel.core.procs p).signalPending = false

/-- After some output. -/
def sends (kernel : Kernel) (dev : Dev) (sent : List Byte) : Kernel :=
  { kernel with
    core := { kernel.core with output := kernel.core.output ++ sent.map fun char => (dev, char) } }

/-- What a serial line sends for a character. -/
def wire (char : Byte) : List Byte := if char = 10 then [13, 10] else [char]

section

variable {t : TtyId} {p : ProcId} {dev : Dev} {kernel : Kernel}

theorem sends_nil (kernel : Kernel) (dev : Dev) : sends kernel dev [] = kernel := by
  simp [sends]

theorem sends_sends (kernel : Kernel) (dev : Dev) (first second : List Byte) :
    sends (sends kernel dev first) dev second = sends kernel dev (first ++ second) := by
  simp [sends]

theorem Serving.sends (serving : Serving t p dev kernel) (sent : List Byte) :
    Serving t p dev (sends kernel dev sent) :=
  ⟨serving.canonical, serving.echoes, serving.port, serving.noSignal⟩

theorem turn_ttyWrite (serving : Serving t p dev kernel) (bytes : List Byte) (count : ℤ)
    (positive : ∀ char ∈ bytes, 0 ≤ Fs.signedChar char) :
    turn (Kernel.handler p) (Fs.ttyWrite dev bytes count) kernel =
      .returned count (sends kernel dev (bytes.flatMap wire)) := by
  induction bytes generalizing kernel with
  | nil => rw [List.flatMap_nil, sends_nil]; rfl
  | cons char rest ih =>
      rw [List.forall_mem_cons] at positive
      have isPut : Kernel.handler p (FsOp.putchar dev char) kernel =
          .done (Fs.signedChar char) (sends kernel dev (wire char)) := by
        have isOutcome : Kernel.handler p (FsOp.putchar dev char) kernel =
          .done (kernel.core.putchar dev char).1
            { kernel with core := (kernel.core.putchar dev char).2 } := rfl
        rw [isOutcome, Core.putchar, if_pos serving.port, Terminal.sends, wire]
        split <;> rfl
      rw [Fs.ttyWrite]
      change turn _ (.perform (FsOp.putchar dev char) >>= _) _ = _
      rw [turn_perform, isPut]
      dsimp only
      rw [if_neg (not_lt.mpr positive.1), ih (serving.sends _) positive.2, sends_sends,
        List.flatMap_cons]

theorem turn_ttyEcho (serving : Serving t p dev kernel) (bytes : List Byte)
    (positive : ∀ char ∈ bytes, 0 ≤ Fs.signedChar char) :
    turn (Kernel.handler p) (Fs.ttyEcho t dev bytes) kernel =
      .returned () (sends kernel dev (bytes.flatMap wire)) := by
  rw [Fs.ttyEcho]
  change turn _ (if (kernel.core.ttys t).echo = true then _ else _) kernel = _
  rw [if_pos serving.echoes, turn_bind, turn_ttyWrite serving bytes _ positive]
  rfl

theorem turn_rubout (serving : Serving t p dev kernel) :
    turn (Kernel.handler p) (Fs.ttyEcho t dev Fs.rubout) kernel =
      .returned () (sends kernel dev Fs.rubout) :=
  turn_ttyEcho serving Fs.rubout (by decide)

theorem turn_ttyKill (serving : Serving t p dev kernel) (dest : ℕ → Byte) (kill : Byte → Bool)
    (pos : ℕ) :
    turn (Kernel.handler p) (Fs.ttyKill t dev dest kill pos) kernel =
      .returned (backOver dest kill pos)
        (sends kernel dev (rubouts (pos - backOver dest kill pos))) := by
  induction pos generalizing kernel with
  | zero =>
      have none : rubouts (0 - backOver dest kill 0) = [] := rfl
      rw [none, sends_nil]
      rfl
  | succ pos ih =>
      rw [Fs.ttyKill, backOver]
      split
      · have atMost := backOver_le dest kill pos
        have isFirst : rubouts (pos + 1 - backOver dest kill pos) =
            Fs.rubout ++ rubouts (pos - backOver dest kill pos) := by
          rw [← rubouts_one, ← rubouts_add]
          congr 1
          omega
        rw [turn_bind, turn_rubout serving]
        dsimp only
        rw [ih (serving.sends _), sends_sends, isFirst]
      · rw [Nat.sub_self, rubouts, List.replicate_zero, List.flatten_nil, sends_nil]
        rfl

theorem turn_ttyKillLine (serving : Serving t p dev kernel) (pos : ℕ) :
    turn (Kernel.handler p) (Fs.ttyKillLine t dev pos) kernel =
      .returned () (sends kernel dev (rubouts pos)) := by
  induction pos generalizing kernel with
  | zero =>
      have none : rubouts 0 = [] := rfl
      rw [none, sends_nil]
      rfl
  | succ pos ih =>
      have isFirst : rubouts (pos + 1) = Fs.rubout ++ rubouts pos := by
        rw [← rubouts_one, ← rubouts_add, Nat.add_comm]
      rw [Fs.ttyKillLine, turn_bind, turn_rubout serving]
      dsimp only
      rw [ih (serving.sends _), sends_sends, isFirst]

/-- One key: the buffer and the screen follow the editor. -/
structure Follows (t : TtyId) (p : ProcId) (dev : Dev) (kernel : Kernel) (dest : ℕ → Byte)
    (pos : ℕ) (key : Byte) (dest' : ℕ → Byte) (pos' : ℕ) (sent : List Byte) : Prop where
  turn : turn (Kernel.handler p) (Fs.ttyChar t dev dest pos key) kernel =
    .returned (.more dest' pos') (sends kernel dev sent)
  buffer : Fs.userBytes dest' pos' = editKey (Fs.userBytes dest pos) key
  shows : ∀ row : Row, row.Shows (Fs.userBytes dest pos) →
    (sent.foldl Row.put row).Shows (editKey (Fs.userBytes dest pos) key)

/-- `"\b \b"` for each character from a position on. -/
theorem shows_back (dest : ℕ → Byte) {pos pos' : ℕ} (atMost : pos' ≤ pos) {row : Row}
    (shows : row.Shows (Fs.userBytes dest pos)) :
    ((rubouts (pos - pos')).foldl Row.put row).Shows (Fs.userBytes dest pos') := by
  have erased := shows.rubouts (pos - pos') (by rw [length_userBytes]; omega)
  rw [length_userBytes, Nat.sub_sub_self atMost, take_userBytes dest atMost] at erased
  exact erased

theorem follows_backspace (serving : Serving t p dev kernel) (dest : ℕ → Byte) (pos : ℕ)
    {key : Byte} (isBack : key = 127 ∨ key = 8) :
    ∃ dest' pos' sent, Follows t p dev kernel dest pos key dest' pos' sent := by
  rcases Nat.eq_zero_or_pos pos with rfl | positive
  · refine ⟨dest, 0, [], ?_, ?_, ?_⟩
    · rw [Fs.ttyChar, if_pos isBack, if_neg (Nat.lt_irrefl 0), sends_nil]
      rfl
    · rw [editKey, if_pos isBack]
      rfl
    · intro row shows
      rwa [editKey, if_pos isBack]
  · have isDropped : editKey (Fs.userBytes dest pos) key = Fs.userBytes dest (pos - 1) := by
      rw [editKey, if_pos isBack, List.dropLast_eq_take, length_userBytes,
        take_userBytes dest (Nat.sub_le _ _)]
    refine ⟨Function.update dest (pos - 1) 0, pos - 1, Fs.rubout, ?_, ?_, ?_⟩
    · rw [Fs.ttyChar, if_pos isBack, if_pos positive, turn_bind, turn_rubout serving]
      rfl
    · rw [isDropped, userBytes_update dest le_rfl]
    · intro row shows
      have erased := shows_back dest (Nat.sub_le pos 1) shows
      rwa [Nat.sub_sub_self positive, rubouts_one, ← isDropped] at erased

theorem follows_killWord (serving : Serving t p dev kernel) (dest : ℕ → Byte) (pos : ℕ) :
    ∃ dest' pos' sent, Follows t p dev kernel dest pos 23 dest' pos' sent := by
  have notBack : ¬((23 : Byte) = 127 ∨ (23 : Byte) = 8) := by decide
  rcases pos with _ | pos
  · refine ⟨dest, 0, [], ?_, ?_, ?_⟩
    · rw [Fs.ttyChar, if_neg notBack, if_pos rfl, if_neg (Nat.lt_irrefl 0), sends_nil]
      rfl
    · rw [editKey, if_neg notBack, if_pos rfl]
      rfl
    · intro row shows
      rw [editKey, if_neg notBack, if_pos rfl]
      exact shows
  · have isKilled : editKey (Fs.userBytes dest (pos + 1)) 23 =
        Fs.userBytes dest (backOver dest (· ≠ 32) (backOver dest (· = 32) pos)) := by
      rw [editKey, if_neg notBack, if_pos rfl, backOver_killWord]
    have spaces := backOver_le dest (· = 32) pos
    have word := backOver_le dest (· ≠ 32) (backOver dest (· = 32) pos)
    have isSum : Fs.rubout ++ (rubouts (pos - backOver dest (· = 32) pos) ++
        rubouts (backOver dest (· = 32) pos -
          backOver dest (· ≠ 32) (backOver dest (· = 32) pos))) =
        rubouts (pos + 1 - backOver dest (· ≠ 32) (backOver dest (· = 32) pos)) := by
      rw [← rubouts_one, ← rubouts_add, ← rubouts_add]
      congr 1
      omega
    refine ⟨dest, backOver dest (· ≠ 32) (backOver dest (· = 32) pos),
      rubouts (pos + 1 - backOver dest (· ≠ 32) (backOver dest (· = 32) pos)), ?_,
      isKilled.symm, ?_⟩
    · rw [Fs.ttyChar, if_neg notBack, if_pos rfl, if_pos (Nat.succ_pos _), turn_bind,
        turn_rubout serving]
      dsimp only
      rw [turn_bind, turn_ttyKill (serving.sends _)]
      dsimp only
      rw [turn_bind, turn_ttyKill ((serving.sends _).sends _), sends_sends, sends_sends,
        Nat.add_sub_cancel, isSum]
      rfl
    · intro row shows
      rw [isKilled]
      exact shows_back dest (word.trans (spaces.trans (Nat.le_succ pos))) shows

theorem follows_char (serving : Serving t p dev kernel) (dest : ℕ → Byte) (pos : ℕ) {key : Byte}
    (printable : 32 ≤ key ∧ key < 127) :
    ∃ dest' pos' sent, Follows t p dev kernel dest pos key dest' pos' sent := by
  have notBack : ¬(key = 127 ∨ key = 8) := by bv_omega
  have notKill : key ≠ 23 := by bv_omega
  have notKillLine : key ≠ 21 := by bv_omega
  have notClear : key ≠ 12 := by bv_omega
  have notEnd : key ≠ 4 := by bv_omega
  have isAdded : editKey (Fs.userBytes dest pos) key = Fs.userBytes dest pos ++ [key] := by
    rw [editKey, if_neg notBack, if_neg notKill, if_neg notKillLine, if_neg notClear]
  have positive : ∀ char ∈ [key], 0 ≤ Fs.signedChar char := by
    intro char isIn
    rw [List.mem_singleton.mp isIn, Fs.signedChar, BitVec.toInt_eq_toNat_cond]
    have below : key.toNat < 127 := printable.2
    rw [if_pos (by omega)]
    omega
  have isSent : [key].flatMap wire = [key] := by
    have notNewline : key ≠ 10 := by bv_omega
    rw [List.flatMap_singleton, wire, if_neg notNewline]
  refine ⟨Function.update dest pos key, pos + 1, [key], ?_, ?_, ?_⟩
  · rw [Fs.ttyChar, if_neg notBack, if_neg notKill, if_neg notKillLine, if_neg notClear,
      if_neg notEnd, turn_bind, turn_ttyEcho serving [key] positive, isSent]
    rfl
  · rw [isAdded, userBytes_put]
  · intro row shows
    rw [isAdded]
    exact shows.put (by bv_omega)

/-- `tty_read` does with a key what the editor does, and so does the screen. -/
theorem follows_key (serving : Serving t p dev kernel) (dest : ℕ → Byte) (pos : ℕ) {key : Byte}
    (isKey : IsKey (Fs.userBytes dest pos) key) :
    ∃ dest' pos' sent, Follows t p dev kernel dest pos key dest' pos' sent := by
  rcases isKey with printable | rfl | rfl | rfl | rfl | ⟨rfl, nonempty⟩
  · exact follows_char serving dest pos printable
  · exact follows_backspace serving dest pos (Or.inr rfl)
  · exact follows_backspace serving dest pos (Or.inl rfl)
  · exact follows_killWord serving dest pos
  · refine ⟨dest, 0, rubouts pos, ?_, rfl, ?_⟩
    · have isTurn : turn (Kernel.handler p) (Fs.ttyChar t dev dest pos 21) kernel =
          turn (Kernel.handler p) (do
            Fs.ttyKillLine t dev pos
            return .more dest 0) kernel := rfl
      rw [isTurn, turn_bind, turn_ttyKillLine serving]
      rfl
    · exact fun row shows => shows_back dest (Nat.zero_le pos) shows
  · have notStart : pos ≠ 0 := by
      rintro rfl
      exact nonempty rfl
    refine ⟨dest, pos, [], ?_, rfl, fun row shows => shows⟩
    have isTurn : Fs.ttyChar t dev dest pos 12 =
        (if pos = 0 then _ else return .more dest pos : FsM BufId Fs.TtyLine) := rfl
    rw [isTurn, if_neg notStart, sends_nil]
    rfl

end

/-! ## The loop of `tty_read` -/

/-- `tty_read` runs, with the inode locked, and these characters in the ring. -/
structure Inside (t : TtyId) (p : ProcId) (i : InodeId) (dev : Dev) (kernel : Kernel)
    (queue : List Byte) : Prop where
  serving : Serving t p dev kernel
  awake : kernel.napping p = false
  locked : (kernel.core.inodes i).lock = true
  unread : (kernel.core.ttys t).unread = queue

/-- `tty_read` asleep in the middle of a line. -/
def sleeping (t : TtyId) (p : ProcId) (i : InodeId) (dev : Dev) (count rounds : ℕ)
    (dest : ℕ → Byte) (pos : ℕ) (char : Byte) : Reading := do
  Fs.sleep (.tty t)
  Fs.ilock i
  Fs.ttyReadLoop p i t dev count rounds dest pos char

/-- The process sleeps and the inode is unlocked. -/
structure Outside (t : TtyId) (p : ProcId) (i : InodeId) (dev : Dev) (kernel : Kernel)
    (queue : List Byte) : Prop where
  serving : Serving t p dev kernel
  napping : kernel.napping p = true
  unlocked : (kernel.core.inodes i).lock = false
  unread : (kernel.core.ttys t).unread = queue

/-- What the loop has sent takes the screen from one line to another. -/
def Draws (sent line line' : List Byte) : Prop :=
  ∀ row : Row, row.Shows line → (sent.foldl Row.put row).Shows line'

/-- The loop returns with the line. -/
def Returns (dev : Dev) (kernel : Kernel) (line line' : List Byte) (result : ReadTurn) : Prop :=
  ∃ sent kernel', Draws sent line line' ∧
    result = .returned ((line'.length : ℤ) + 1, line' ++ [10]) kernel' ∧
    kernel'.core.output =
      kernel.core.output ++ (sent ++ [13, 10]).map fun char => (dev, char)

/-- The loop has used up the ring and sleeps. -/
def Suspends (t : TtyId) (p : ProcId) (i : InodeId) (dev : Dev) (count : ℕ) (kernel : Kernel)
    (line line' : List Byte) (rounds : ℕ) (result : ReadTurn) : Prop :=
  ∃ sent kernel' dest pos char, Draws sent line line' ∧ Fs.userBytes dest pos = line' ∧
    (char ≠ 13 ∧ char ≠ 10) ∧ Outside t p i dev kernel' [] ∧
    result = .waits (sleeping t p i dev count rounds dest pos char) kernel' ∧
    kernel'.core.output = kernel.core.output ++ sent.map fun char => (dev, char)

section

variable {t : TtyId} {p : ProcId} {i : InodeId} {dev : Dev} {count : ℕ} {kernel : Kernel}
  {queue keys later more : List Byte} {ending : Byte}

theorem Draws.trans {sent sent' line line' line'' : List Byte} (first : Draws sent line line')
    (second : Draws sent' line' line'') : Draws (sent ++ sent') line line'' := by
  intro row shows
  rw [List.foldl_append]
  exact second _ (first row shows)

theorem IsKey.not_end {line : List Byte} {key : Byte} (isKey : IsKey line key) :
    key ≠ 13 ∧ key ≠ 10 := by
  rcases isKey with printable | rfl | rfl | rfl | rfl | ⟨rfl, _⟩
  · constructor <;> bv_omega
  all_goals decide

/-- With an empty ring the loop sleeps. -/
theorem suspends_loop {rounds : ℕ} {dest : ℕ → Byte} {pos : ℕ} {char : Byte}
    (inside : Inside t p i dev kernel []) (going : char ≠ 13 ∧ char ≠ 10) (room : pos < count) :
    Suspends t p i dev count kernel (Fs.userBytes dest pos) (Fs.userBytes dest pos) rounds
      (turn (Kernel.handler p) (Fs.ttyReadLoop p i t dev count (rounds + 1) dest pos char)
        kernel) := by
  have empty : (kernel.core.ttys t).rxHead = (kernel.core.ttys t).rxTail := by
    by_contra nonempty
    have isCons := unread_cons nonempty
    rw [inside.unread] at isCons
    cases isCons
  have noSignal : ¬(kernel.core.procs p).signalPending = true := by
    rw [inside.serving.noSignal]
    exact Bool.false_ne_true
  have notDone : ¬(count ≤ pos ∨ char = 13 ∨ char = 10) := by
    rintro (full | isReturn | isNewline)
    · omega
    · exact going.1 isReturn
    · exact going.2 isNewline
  have isUnlocked : Kernel.handler p (FsOp.iunlock i) kernel = .done ()
      (Kernel.dropLock { kernel with
        core := kernel.core.setInode i fun old => { old with lock := false, wanted := false } } p
        i) := by
    have isTable : Kernel.handler p (FsOp.iunlock i) kernel = kernel.table p (.iunlock i) := rfl
    rw [isTable]
    simp only [Kernel.table, Core.perform, inside.locked, if_true]
    rfl
  rw [Fs.ttyReadLoop, if_neg notDone]
  change Suspends _ _ _ _ _ _ _ _ _ (turn _ (if (kernel.core.ttys t).rxHead =
    (kernel.core.ttys t).rxTail then _ else _) kernel)
  rw [if_pos empty, if_neg noSignal]
  change Suspends _ _ _ _ _ _ _ _ _ (turn _ (.perform (FsOp.iunlock i) >>= _) kernel)
  rw [turn_perform, isUnlocked]
  dsimp only
  change Suspends _ _ _ _ _ _ _ _ _ (turn _ (.perform (FsOp.sleep (.tty t)) >>= _) _)
  generalize isKernel : Kernel.dropLock _ p i = unlocked
  have sameCore : unlocked.core =
      kernel.core.setInode i fun old => { old with lock := false, wanted := false } := by
    rw [← isKernel]
    rfl
  have awake : unlocked.napping p = false := by
    rw [← isKernel]
    exact inside.awake
  have isAsleep : Kernel.handler p (FsOp.sleep (.tty t)) unlocked =
      .wait { unlocked with napping := Function.update unlocked.napping p true } := by
    have isSleep : Kernel.handler p (FsOp.sleep (.tty t)) unlocked = unlocked.sleep p := rfl
    rw [isSleep, Kernel.sleep, awake]
    rfl
  rw [turn_perform, isAsleep]
  refine ⟨[], _, dest, pos, char, fun _ shows => shows, rfl, going, ?_, rfl, ?_⟩
  · constructor
    case serving =>
      have serving := inside.serving
      constructor
      all_goals
        dsimp only
        rw [sameCore]
      · exact serving.canonical
      · exact serving.echoes
      · exact serving.port
      · exact serving.noSignal
    case napping => exact Function.update_self ..
    case unlocked =>
      dsimp only
      rw [sameCore]
      simp [Core.setInode]
    case unread =>
      dsimp only
      rw [sameCore]
      exact inside.unread
  · dsimp only
    rw [sameCore, List.map_nil, List.append_nil]
    rfl

/-- A character is taken out of the ring and goes to the editor. -/
theorem loop_char (rounds : ℕ) (dest : ℕ → Byte) {pos : ℕ} {char key : Byte} {rest : List Byte}
    (inside : Inside t p i dev kernel (key :: rest)) (going : char ≠ 13 ∧ char ≠ 10)
    (room : pos < count) :
    ∃ kernel', Inside t p i dev kernel' rest ∧ kernel'.core.output = kernel.core.output ∧
      turn (Kernel.handler p) (Fs.ttyReadLoop p i t dev count (rounds + 1) dest pos char) kernel =
        turn (Kernel.handler p) (do
          match ← Fs.ttyChar t dev dest pos (if key = 13 then 10 else key) with
          | .more dest pos =>
              Fs.ttyReadLoop p i t dev count rounds dest pos (if key = 13 then 10 else key)
          | .ends dest pos => return ((pos : ℤ), Fs.userBytes dest pos)
          | .empty => return (0, [])) kernel' := by
  have nonempty : (kernel.core.ttys t).rxHead ≠ (kernel.core.ttys t).rxTail := by
    intro empty
    cases (unread_nil empty).symm.trans inside.unread
  have isCons := inside.unread
  rw [unread_cons nonempty] at isCons
  rcases List.cons.inj isCons with ⟨isKey, isRest⟩
  have notDone : ¬(count ≤ pos ∨ char = 13 ∨ char = 10) := by
    rintro (full | isReturn | isNewline)
    · omega
    · exact going.1 isReturn
    · exact going.2 isNewline
  refine ⟨{ kernel with
    core := kernel.core.setTty t fun old => { old with rxTail := old.rxTail + 1 } }, ?_, rfl, ?_⟩
  · have isTty : (kernel.core.setTty t fun old => { old with rxTail := old.rxTail + 1 }).ttys t =
        { kernel.core.ttys t with rxTail := (kernel.core.ttys t).rxTail + 1 } :=
      Function.update_self ..
    have serving := inside.serving
    refine ⟨⟨?_, ?_, serving.port, serving.noSignal⟩, inside.awake, inside.locked, ?_⟩
    · dsimp only
      rw [isTty]
      exact serving.canonical
    · dsimp only
      rw [isTty]
      exact serving.echoes
    · dsimp only
      rwa [isTty]
  · rw [Fs.ttyReadLoop, if_neg notDone]
    change turn _ (if (kernel.core.ttys t).rxHead = (kernel.core.ttys t).rxTail then _ else _)
      kernel = _
    rw [if_neg nonempty, inside.serving.canonical, if_pos rfl, isKey]
    rfl

/-- The end of the line: the loop echoes a newline and returns. -/
theorem returns_loop {rounds : ℕ} {dest : ℕ → Byte} {pos : ℕ} {char : Byte} {rest : List Byte}
    (inside : Inside t p i dev kernel (ending :: rest)) (ends : ending = 13 ∨ ending = 10)
    (going : char ≠ 13 ∧ char ≠ 10) (room : pos < count) :
    Returns dev kernel (Fs.userBytes dest pos) (Fs.userBytes dest pos)
      (turn (Kernel.handler p) (Fs.ttyReadLoop p i t dev count (rounds + 2) dest pos char)
        kernel) := by
  have isNewline : (if ending = 13 then 10 else ending) = 10 := by
    rcases ends with rfl | rfl <;> rfl
  rcases loop_char (rounds + 1) dest inside going room with
    ⟨taken, takenInside, sameOutput, isTurn⟩
  have isEcho : turn (Kernel.handler p) (Fs.ttyChar t dev dest pos 10) taken =
      .returned (.more (Function.update dest pos 10) (pos + 1)) (sends taken dev [13, 10]) := by
    have isElse : Fs.ttyChar t dev dest pos 10 = (do
        Fs.ttyEcho t dev [10]
        return .more (Function.update dest pos 10) (pos + 1) : FsM BufId Fs.TtyLine) := rfl
    rw [isElse, turn_bind, turn_ttyEcho takenInside.serving [10] (by decide)]
    rfl
  rw [isTurn, isNewline, turn_bind, isEcho]
  dsimp only
  rw [Fs.ttyReadLoop, if_pos (Or.inr (Or.inr rfl)), userBytes_put]
  refine ⟨[], sends taken dev [13, 10], fun _ shows => shows, ?_, ?_⟩
  · rw [length_userBytes, Nat.cast_succ]
    rfl
  · rw [List.nil_append, ← sameOutput]
    rfl

/-- The loop of `tty_read` on what is in the ring. -/
theorem edits_loop {rounds : ℕ} {dest : ℕ → Byte} {pos : ℕ} {char : Byte}
    (inside : Inside t p i dev kernel queue) (ends : ending = 13 ∨ ending = 10)
    (typed : Types count (Fs.userBytes dest pos) keys) (going : char ≠ 13 ∧ char ≠ 10)
    (input : queue ++ later = keys ++ ending :: more) (patient : queue.length + 2 ≤ rounds) :
    (keys.length < queue.length ∧
      Returns dev kernel (Fs.userBytes dest pos) (edit (Fs.userBytes dest pos) keys)
        (turn (Kernel.handler p) (Fs.ttyReadLoop p i t dev count rounds dest pos char) kernel)) ∨
    (∃ keys', keys = queue ++ keys' ∧
      Suspends t p i dev count kernel (Fs.userBytes dest pos) (edit (Fs.userBytes dest pos) queue)
        (rounds - (queue.length + 1))
        (turn (Kernel.handler p) (Fs.ttyReadLoop p i t dev count rounds dest pos char)
          kernel)) := by
  induction queue generalizing kernel rounds dest pos char keys with
  | nil =>
      obtain ⟨rounds, rfl⟩ : ∃ more, rounds = more + 1 := ⟨rounds - 1, by simp at patient; omega⟩
      have room : pos < count := by
        have short : (Fs.userBytes dest pos).length < count := by
          cases keys with
          | nil => exact typed
          | cons key keys => exact typed.1
        rwa [length_userBytes] at short
      exact Or.inr ⟨keys, rfl, suspends_loop inside going room⟩
  | cons key rest ih =>
      rw [List.length_cons] at patient
      cases keys with
      | nil =>
          have isEnd : key = ending := (List.cons.inj input).1
          have room : pos < count := by
            have short : (Fs.userBytes dest pos).length < count := typed
            rwa [length_userBytes] at short
          obtain ⟨rounds, rfl⟩ : ∃ more, rounds = more + 2 := ⟨rounds - 2, by omega⟩
          subst isEnd
          exact Or.inl ⟨Nat.succ_pos _, returns_loop inside ends going room⟩
      | cons key' keys =>
          rcases List.cons.inj input with ⟨rfl, inputRest⟩
          rcases typed with ⟨short, isKey, typedRest⟩
          have room : pos < count := by rwa [length_userBytes] at short
          obtain ⟨rounds, rfl⟩ : ∃ more, rounds = more + 1 := ⟨rounds - 1, by omega⟩
          rcases loop_char rounds dest inside going room with
            ⟨taken, takenInside, sameOutput, isTurn⟩
          rcases follows_key takenInside.serving dest pos isKey with
            ⟨dest', pos', sent, follows⟩
          rw [← follows.buffer] at typedRest
          have after : Inside t p i dev (sends taken dev sent) rest :=
            ⟨takenInside.serving.sends sent, takenInside.awake, takenInside.locked,
              takenInside.unread⟩
          have isSent : (sends taken dev sent).core.output =
              kernel.core.output ++ sent.map fun char => (dev, char) := by
            rw [← sameOutput]
            rfl
          have draws : Draws sent (Fs.userBytes dest pos) (Fs.userBytes dest' pos') := by
            intro row shows
            rw [follows.buffer]
            exact follows.shows row shows
          have isNext : turn (Kernel.handler p)
              (Fs.ttyReadLoop p i t dev count (rounds + 1) dest pos char) kernel =
              turn (Kernel.handler p) (Fs.ttyReadLoop p i t dev count rounds dest' pos' key)
                (sends taken dev sent) := by
            rw [isTurn, if_neg isKey.not_end.1, turn_bind, follows.turn]
          have isEdit : ∀ more, edit (Fs.userBytes dest pos) (key :: more) =
              edit (Fs.userBytes dest' pos') more := by
            intro more
            rw [follows.buffer]
            rfl
          rw [isNext, isEdit]
          have patientRest : rest.length + 2 ≤ rounds := by omega
          rcases ih after typedRest isKey.not_end inputRest patientRest with
            ⟨longer, sent', kernel', draws', returned, isOutput⟩ |
            ⟨keys', isPrefix, sent', kernel', dest'', pos'', char', draws', rest'⟩
          · refine Or.inl ⟨Nat.succ_lt_succ longer, sent ++ sent', kernel', draws.trans draws',
              returned, ?_⟩
            rw [isOutput, isSent]
            simp
          · rcases rest' with ⟨buffer, going', outside, waits, isOutput⟩
            refine Or.inr ⟨keys', by rw [isPrefix]; rfl, sent ++ sent', kernel', dest'', pos'',
              char', ?_, ?_, going', outside, ?_, ?_⟩
            · rw [isEdit]
              exact draws.trans draws'
            · rw [isEdit, buffer]
            · have same : rounds + 1 - (rest.length + 1 + 1) = rounds - (rest.length + 1) := by
                omega
              rw [waits, List.length_cons, same]
            · rw [isOutput, isSent]
              simp

end

/-! ## Runs -/

/-- No process starts a call, `p` receives no signal, and the ring does not overflow. -/
def Unsignalled (t : TtyId) (p : ProcId) (kernel : Kernel) : ReadAct → Prop
  | .start _ _ => False
  | .env event => ((Kernel.interrupt event kernel).core.procs p).signalPending = false ∧
      ∀ char, event = .ttyInput t char → (kernel.core.ttys t).unread.length < 255
  | _ => True

/-- `p` has just called `tty_read`. -/
def called (p : ProcId) (call : ReadCall) (kernel : Kernel) :
    Turns ProcId (FsOp BufId) FsOp.Reply Got Kernel where
  shared := kernel
  thread := Function.update (fun _ => none) p (some (readers.code p call))

/-- `tty_read` after `done` of the keys; nothing but the keys has been echoed. -/
inductive Progress (t : TtyId) (p : ProcId) (call : ReadCall) (first : Kernel)
    (turns : Turns ProcId (FsOp BufId) FsOp.Reply Got Kernel) (queue done : List Byte)
    (rounds : ℕ) : Prop where
  | fresh : turns.thread p = some (readers.code p call) →
      Inside t p call.i call.dev turns.shared queue → done = [] →
      turns.shared.core.output = first.core.output → rounds = turns.shared.core.patience →
      Progress t p call first turns queue done rounds
  | asleep {dest : ℕ → Byte} {pos : ℕ} {char : Byte} {sent : List Byte} :
      turns.thread p = some (sleeping t p call.i call.dev call.count rounds dest pos char) →
      Outside t p call.i call.dev turns.shared queue → Fs.userBytes dest pos = edit [] done →
      char ≠ 13 ∧ char ≠ 10 → Draws sent [] (edit [] done) →
      turns.shared.core.output =
        first.core.output ++ sent.map (fun char => (call.dev, char)) →
      Progress t p call first turns queue done rounds

section

variable {t : TtyId} {p : ProcId} {call : ReadCall} {first : Kernel}
  {turns turns' : Turns ProcId (FsOp BufId) FsOp.Reply Got Kernel}
  {queue done keys later more : List Byte} {ending : Byte} {rounds : ℕ} {act : ReadAct}
  {answer : Option Got}

/-- What an event of the environment leaves alone, and what it adds to the ring. -/
structure EnvKept (t : TtyId) (p : ProcId) (event : Interrupt) (kernel : Kernel) : Prop where
  output : (Kernel.interrupt event kernel).core.output = kernel.core.output
  patience : (Kernel.interrupt event kernel).core.patience = kernel.core.patience
  uartPort : (Kernel.interrupt event kernel).core.uartPort = kernel.core.uartPort
  napping : (Kernel.interrupt event kernel).napping = kernel.napping
  lflag : ((Kernel.interrupt event kernel).core.ttys t).lflag = (kernel.core.ttys t).lflag
  unread : ((Kernel.interrupt event kernel).core.ttys t).unread =
    (kernel.core.ttys t).unread ++ (arrival t (.env event)).toList

theorem envKept {kernel : Kernel} {event : Interrupt}
    (unsignalled : Unsignalled t p kernel (.env event)) : EnvKept t p event kernel := by
  cases event with
  | ttyInput u char =>
      have same : (core : Core) → core = kernel.core.ttyInput u char →
          core.output = kernel.core.output ∧ core.patience = kernel.core.patience ∧
            core.uartPort = kernel.core.uartPort := by
        rintro _ rfl
        unfold Core.ttyInput
        dsimp only
        split
        · split <;> exact ⟨rfl, rfl, rfl⟩
        · exact ⟨rfl, rfl, rfl⟩
      rcases same _ rfl with ⟨output, patience, uartPort⟩
      by_cases isInput : u = t ∧ char ≠ 3
      · rcases isInput with ⟨rfl, notInterrupt⟩
        have isChar : arrival u (.env (.ttyInput u char)) = some char :=
          if_pos ⟨rfl, notInterrupt⟩
        have room := unsignalled.2 char rfl
        refine ⟨output, patience, uartPort, rfl, ttyInput_lflag _ _ _, ?_⟩
        rw [isChar]
        refine (unread_ttyInput kernel.core u notInterrupt).trans ?_
        rw [arrive, if_neg (by omega)]
        rfl
      · have isOther := ttyInput_other kernel.core isInput
        have notChar : arrival t (.env (.ttyInput u char)) = none := if_neg isInput
        refine ⟨output, patience, uartPort, rfl, ?_, ?_⟩
        · exact congrArg Tty.lflag isOther
        · rw [notChar]
          exact (congrArg Tty.unread isOther).trans (List.append_nil _).symm
  | _ => exact ⟨rfl, rfl, rfl, rfl, rfl, (List.append_nil _).symm⟩

theorem Serving.env {kernel : Kernel} {event : Interrupt} {dev : Dev}
    (serving : Serving t p dev kernel) (unsignalled : Unsignalled t p kernel (.env event)) :
    Serving t p dev (Kernel.interrupt event kernel) := by
  have kept := envKept unsignalled
  refine ⟨?_, ?_, ?_, unsignalled.1⟩
  · rw [Tty.icanon, kept.lflag]
    exact serving.canonical
  · rw [Tty.echo, kept.lflag]
    exact serving.echoes
  · rw [kept.uartPort]
    exact serving.port

/-- Between turns the environment only adds to the ring. -/
theorem Progress.env {event : Interrupt}
    (progress : Progress t p call first turns queue done rounds)
    (unsignalled : Unsignalled t p turns.shared (.env event)) :
    Progress t p call first { turns with shared := Kernel.interrupt event turns.shared }
      (queue ++ (arrival t (.env event)).toList) done rounds := by
  have kept := envKept unsignalled
  have inodes := Kernel.interrupt_inodes event turns.shared
  cases progress with
  | fresh isThread inside isStart isOutput isRounds =>
      refine .fresh isThread ⟨inside.serving.env unsignalled, ?_, ?_, ?_⟩ isStart ?_ ?_
      · exact (congrFun kept.napping p).trans inside.awake
      · rw [inodes]
        exact inside.locked
      · rw [kept.unread, inside.unread]
      · exact kept.output.trans isOutput
      · exact isRounds.trans kept.patience.symm
  | asleep isThread outside buffer going draws isOutput =>
      refine .asleep isThread ⟨outside.serving.env unsignalled, ?_, ?_, ?_⟩ buffer going draws ?_
      · exact (congrFun kept.napping p).trans outside.napping
      · rw [inodes]
        exact outside.unlocked
      · rw [kept.unread, outside.unread]
      · exact kept.output.trans isOutput

/-- A turn of `p` is a turn of the loop. -/
theorem Progress.enters (progress : Progress t p call first turns queue done rounds)
    (onTty : Fs.ttyOf call.dev = some t) :
    ∃ rest dest pos char sent kernel, turns.thread p = some rest ∧
      Inside t p call.i call.dev kernel queue ∧ Fs.userBytes dest pos = edit [] done ∧
      (char ≠ 13 ∧ char ≠ 10) ∧ Draws sent [] (edit [] done) ∧
      kernel.core.output = first.core.output ++ sent.map (fun char => (call.dev, char)) ∧
      turn (Kernel.handler p) rest turns.shared =
        turn (Kernel.handler p)
          (Fs.ttyReadLoop p call.i t call.dev call.count rounds dest pos char) kernel := by
  cases progress with
  | fresh isThread inside isStart isOutput isRounds =>
      subst isStart isRounds
      generalize turns.shared = kernel at inside isOutput
      refine ⟨_, fun _ => 0, 0, 0, [], { kernel with core := kernel.core.setTty t fun old =>
        { old with pgrp := (kernel.core.procs p).pgrp } }, isThread, ?_, rfl, by decide,
        fun _ shows => shows, isOutput.trans (List.append_nil _).symm, ?_⟩
      · have isTty : (kernel.core.setTty t fun old =>
            { old with pgrp := (kernel.core.procs p).pgrp }).ttys t =
              { kernel.core.ttys t with pgrp := (kernel.core.procs p).pgrp } :=
          Function.update_self ..
        have serving := inside.serving
        refine ⟨⟨?_, ?_, serving.port, serving.noSignal⟩, inside.awake, inside.locked, ?_⟩
        · dsimp only
          rw [isTty]
          exact serving.canonical
        · dsimp only
          rw [isTty]
          exact serving.echoes
        · dsimp only
          rw [isTty]
          exact inside.unread
      · change turn _ (Fs.ttyRead p call.i call.dev call.count) kernel = _
        rw [Fs.ttyRead, onTty]
        rfl
  | asleep isThread outside buffer going draws isOutput =>
      rename_i dest pos char sent
      generalize turns.shared = kernel at outside isOutput
      have isAwake : Kernel.handler p (FsOp.sleep (.tty t)) kernel =
          .done () { kernel with napping := Function.update kernel.napping p false } := by
        have isSleep : Kernel.handler p (FsOp.sleep (.tty t)) kernel = kernel.sleep p := rfl
        rw [isSleep, Kernel.sleep, outside.napping]
        rfl
      generalize isKernel : { kernel with napping := Function.update kernel.napping p false } =
        awake at isAwake
      have sameCore : awake.core = kernel.core := by rw [← isKernel]
      have isLocked : Kernel.handler p (FsOp.ilock call.i) awake = .done ()
          (Kernel.addLock { awake with
            core := awake.core.setInode call.i fun old => { old with lock := true } } p
            call.i) := by
        have isTable : Kernel.handler p (FsOp.ilock call.i) awake =
          awake.table p (.ilock call.i) := rfl
        rw [isTable]
        simp only [Kernel.table, Core.perform, sameCore, outside.unlocked, Bool.false_eq_true,
          if_false]
        rfl
      refine ⟨_, dest, pos, char, sent, Kernel.addLock { awake with
        core := awake.core.setInode call.i fun old => { old with lock := true } } p call.i,
        isThread, ?_, buffer, going, draws, ?_, ?_⟩
      · have serving := outside.serving
        have coreOf : (Kernel.addLock { awake with
            core := awake.core.setInode call.i fun old => { old with lock := true } } p
            call.i).core = kernel.core.setInode call.i fun old => { old with lock := true } := by
          rw [← sameCore]
          rfl
        constructor
        case awake =>
          rw [← isKernel]
          exact Function.update_self ..
        case serving =>
          constructor
          all_goals rw [coreOf]
          · exact serving.canonical
          · exact serving.echoes
          · exact serving.port
          · exact serving.noSignal
        case locked =>
          rw [coreOf]
          simp [Core.setInode]
        case unread =>
          rw [coreOf]
          exact outside.unread
      · rw [← isOutput, ← sameCore]
        rfl
      · rw [sleeping]
        change turn _ (.perform (FsOp.sleep (.tty t)) >>= fun _ =>
          .perform (FsOp.ilock call.i) >>= fun _ => _) kernel = _
        rw [turn_perform, isAwake]
        dsimp only
        rw [turn_perform, isLocked]

/-- What `tty_read` is to return. -/
def lineOf (keys : List Byte) : Got :=
  (((edit [] keys).length : ℤ) + 1, edit [] keys ++ [10])

/-- What is to be on the screen when it has returned. -/
def Drawn (call : ReadCall) (first : Kernel) (keys : List Byte) (kernel : Kernel) : Prop :=
  ∃ sent, (screen sent).Shows (edit [] keys) ∧
    kernel.core.output =
      first.core.output ++ (sent ++ [13, 10]).map fun char => (call.dev, char)

/-- `tty_read` still reads, or it has returned with the line. -/
inductive Stage (t : TtyId) (p : ProcId) (call : ReadCall) (first : Kernel)
    (keys : List Byte) (ending : Byte) (later more : List Byte)
    (log : List (ReadAct × Option Got))
    (turns : Turns ProcId (FsOp BufId) FsOp.Reply Got Kernel) : Prop where
  | reads {queue done keys' : List Byte} {rounds : ℕ} : keys = done ++ keys' →
      queue ++ later = keys' ++ ending :: more → Types call.count (edit [] done) keys' →
      Progress t p call first turns queue done rounds →
      first.core.patience ≤ rounds + done.length + log.length →
      (∀ entry ∈ log, entry.2 = none) → (∀ q ≠ p, turns.thread q = none) →
      Stage t p call first keys ending later more log turns
  | returned : (∀ entry ∈ log, ∀ got, entry.2 = some got → got = lineOf keys) →
      (∃ entry ∈ log, entry.2 ≠ none) → Drawn call first keys turns.shared →
      (∀ q, turns.thread q = none) → Stage t p call first keys ending later more log turns

theorem Types.append {count : ℕ} {line done keys' : List Byte}
    (typed : Types count line (done ++ keys')) : Types count (edit line done) keys' := by
  induction done generalizing line with
  | nil => exact typed
  | cons key done ih => exact ih typed.2.2

theorem edit_append (line done keys' : List Byte) :
    edit line (done ++ keys') = edit (edit line done) keys' := List.foldl_append

/-- The result of a turn of `p`. -/
theorem Progress.turn (progress : Progress t p call first turns queue done rounds)
    (onTty : Fs.ttyOf call.dev = some t) (ends : ending = 13 ∨ ending = 10) {keys' : List Byte}
    (typed : Types call.count (edit [] done) keys')
    (input : queue ++ later = keys' ++ ending :: more) (patient : queue.length + 2 ≤ rounds) :
    ∃ rest, turns.thread p = some rest ∧
      ((keys'.length < queue.length ∧ ∃ kernel,
        turn (Kernel.handler p) rest turns.shared = .returned (lineOf (done ++ keys')) kernel ∧
          Drawn call first (done ++ keys') kernel) ∨
      ∃ keys'' rest' kernel, keys' = queue ++ keys'' ∧
        turn (Kernel.handler p) rest turns.shared = .waits rest' kernel ∧
        ∀ thread : ProcId → Option Reading, thread p = some rest' →
          Progress t p call first ⟨kernel, thread⟩ [] (done ++ queue)
            (rounds - (queue.length + 1))) := by
  rcases progress.enters onTty with
    ⟨rest, dest, pos, char, sent, kernel, isThread, inside, buffer, going, draws, isOutput, isTurn⟩
  refine ⟨rest, isThread, ?_⟩
  rw [isTurn]
  rw [← buffer] at typed
  rcases edits_loop inside ends typed going input patient with
    ⟨longer, sent', kernel', draws', returned, isOutput'⟩ |
    ⟨keys'', isPrefix, sent', kernel', dest', pos', char', draws', buffer', going', outside', waits,
      isOutput'⟩
  · rw [buffer] at draws' returned
    rw [← edit_append] at draws' returned
    refine Or.inl ⟨longer, kernel', returned, sent ++ sent', ?_, ?_⟩
    · exact draws.trans draws' ⟨[], []⟩ ⟨rfl, nofun⟩
    · rw [isOutput', isOutput]
      simp
  · rw [buffer] at draws' buffer'
    rw [← edit_append] at draws' buffer'
    refine Or.inr ⟨keys'', _, kernel', isPrefix, waits, fun thread isThread => ?_⟩
    refine .asleep isThread outside' buffer' going' (draws.trans draws') ?_
    rw [isOutput', isOutput]
    simp

theorem Progress.queue_le (progress : Progress t p call first turns queue done rounds) :
    queue.length ≤ 255 := by
  cases progress with
  | fresh _ inside => exact inside.unread ▸ length_unread_le _
  | asleep _ outside => exact outside.unread ▸ length_unread_le _

/-- One step of the run. -/
theorem Stage.step {log : List (ReadAct × Option Got)} (onTty : Fs.ttyOf call.dev = some t)
    (ends : ending = 13 ∨ ending = 10)
    (patient : keys.length + log.length + 257 ≤ first.core.patience)
    (stage : Stage t p call first keys ending ((arrival t act).toList ++ later) more log turns)
    (unsignalled : Unsignalled t p turns.shared act)
    (stepped : turns.step readers act = some (turns', answer)) :
    Stage t p call first keys ending later more (log ++ [(act, answer)]) turns' := by
  cases act with
  | start q other => exact unsignalled.elim
  | go => cases stepped
  | env event =>
      cases stepped
      cases stage with
      | reads isKeys input typed progress bound noAnswer others =>
          refine .reads isKeys (by rwa [List.append_assoc]) typed (progress.env unsignalled) ?_ ?_
            others
          · rw [List.length_append]
            omega
          · intro entry isIn
            rcases List.mem_append.mp isIn with isIn | isIn
            · exact noAnswer entry isIn
            · rw [List.mem_singleton.mp isIn]
      | returned answers answered drawn idle =>
          refine .returned ?_ ?_ ?_ idle
          · intro entry isIn got isGot
            rcases List.mem_append.mp isIn with isIn | isIn
            · exact answers entry isIn got isGot
            · rw [List.mem_singleton.mp isIn] at isGot
              cases isGot
          · rcases answered with ⟨entry, isIn, isSome⟩
            exact ⟨entry, List.mem_append_left _ isIn, isSome⟩
          · rcases drawn with ⟨sent, shows, isOutput⟩
            exact ⟨sent, shows, (envKept unsignalled).output.trans isOutput⟩
  | resume q =>
      simp only [Turns.step] at stepped
      cases stage with
      | returned answers answered drawn idle =>
          rw [idle q] at stepped
          cases stepped
      | reads isKeys input typed progress bound noAnswer others =>
          rename_i queue done keys' rounds
          have isReader : q = p := by
            by_contra different
            rw [others q different] at stepped
            cases stepped
          subst isReader
          have short := progress.queue_le
          have lengths := congrArg List.length isKeys
          rw [List.length_append] at lengths
          rcases progress.turn onTty ends typed input (by omega) with ⟨rest, isThread, result⟩
          rw [isThread] at stepped
          dsimp only at stepped
          change Turns.settle _ _ _ (Program.turn (Kernel.handler q) rest turns.shared) = _
            at stepped
          rcases result with ⟨_, kernel, isTurn, drawn⟩ |
            ⟨keys'', rest', kernel, isPrefix, isTurn, next⟩
          · rw [isTurn] at stepped
            cases stepped
            rw [← isKeys] at drawn
            refine .returned ?_ ?_ drawn ?_
            · intro entry isIn got isGot
              rcases List.mem_append.mp isIn with isIn | isIn
              · rw [noAnswer entry isIn] at isGot
                cases isGot
              · rw [List.mem_singleton.mp isIn] at isGot
                cases isGot
                rw [isKeys]
            · exact ⟨_, List.mem_append_right _ (List.mem_singleton.mpr rfl), (by rintro ⟨⟩)⟩
            · intro other
              rcases eq_or_ne other q with rfl | different
              · exact Function.update_self ..
              · exact (Function.update_of_ne different _ _).trans (others other different)
          · rw [isTurn] at stepped
            cases stepped
            subst isPrefix
            refine .reads (by rw [isKeys, List.append_assoc]) ?_ ?_
              (next _ (Function.update_self ..)) ?_ ?_ ?_
            · rw [List.append_assoc] at input
              exact List.append_cancel_left input
            · rw [edit_append]
              exact typed.append
            · rw [List.length_append, List.length_append]
              simp only [List.length_singleton]
              omega
            · intro entry isIn
              rcases List.mem_append.mp isIn with isIn | isIn
              · exact noAnswer entry isIn
              · rw [List.mem_singleton.mp isIn]
            · intro other different
              exact (Function.update_of_ne different _ _).trans (others other different)

theorem Stage.run {log : List (ReadAct × Option Got)} (onTty : Fs.ttyOf call.dev = some t)
    (ends : ending = 13 ∨ ending = 10) (typed : Types call.count [] keys)
    (inside : Inside t p call.i call.dev first (first.core.ttys t).unread)
    (logged : Turns.Logged readers (Unsignalled t p) (called p call first) log turns)
    (input : (first.core.ttys t).unread ++ arrived t log ++ later = keys ++ ending :: more)
    (patient : keys.length + log.length + 257 ≤ first.core.patience) :
    Stage t p call first keys ending later more log turns := by
  induction logged generalizing later with
  | start =>
      rw [arrived, List.filterMap_nil, List.append_nil] at input
      have isCalled : (called p call first).thread p = some (readers.code p call) := by
        dsimp only [called]
        rw [Function.update_self]
      refine .reads (List.nil_append _).symm input typed (.fresh isCalled inside rfl rfl rfl)
        (Nat.le_add_right _ _) (List.forall_mem_nil _) fun q different => ?_
      dsimp only [called]
      rw [Function.update_of_ne different]
  | next _ unsignalled stepped ih =>
      rw [arrived_append, ← List.append_assoc, List.append_assoc] at input
      rw [List.length_append, List.length_singleton] at patient
      exact (ih input (by omega)).step onTty ends (by omega) unsignalled stepped

end

/--
`tty_read` returns the line of the editor and a newline, and the screen shows that line; and
when all of the input has arrived, it returns at its next turn.
-/
theorem tty_read_edits (t : TtyId) (p : ProcId) (call : ReadCall) (keys : List Byte)
    (ending : Byte) (kernel : Kernel) (onTty : Fs.ttyOf call.dev = some t)
    (serving : Serving t p call.dev kernel) (awake : kernel.napping p = false)
    (locked : (kernel.core.inodes call.i).lock = true) (typed : Types call.count [] keys)
    (ends : ending = 13 ∨ ending = 10) (log : List (ReadAct × Option Got))
    (turns : Turns ProcId (FsOp BufId) FsOp.Reply Got Kernel)
    (logged : Turns.Logged readers (Unsignalled t p) (called p call kernel) log turns)
    (later more : List Byte)
    (input : (kernel.core.ttys t).unread ++ arrived t log ++ later = keys ++ ending :: more)
    (patient : keys.length + log.length + 257 ≤ kernel.core.patience) :
    (∀ entry ∈ log, ∀ got, entry.2 = some got →
      got = lineOf keys ∧ Drawn call kernel keys turns.shared) ∧
    ((∀ entry ∈ log, entry.2 = none) →
      (∃ rest, (kernel.core.ttys t).unread ++ arrived t log = keys ++ ending :: rest) →
      ∃ turns', turns.step readers (.resume p) = some (turns', some (lineOf keys)) ∧
        Drawn call kernel keys turns'.shared) := by
  have inside : Inside t p call.i call.dev kernel (kernel.core.ttys t).unread :=
    ⟨serving, awake, locked, rfl⟩
  have stage := Stage.run onTty ends typed inside logged input patient
  cases stage with
  | returned answers answered drawn idle =>
      refine ⟨fun entry isIn got isGot => ⟨answers entry isIn got isGot, drawn⟩, ?_⟩
      intro noAnswer
      rcases answered with ⟨entry, isIn, isSome⟩
      exact absurd (noAnswer entry isIn) isSome
  | reads isKeys inputLeft typedLeft progress bound noAnswer others =>
      rename_i queue done keys' rounds
      refine ⟨?_, fun _ arrivedAll => ?_⟩
      · intro entry isIn got isGot
        rw [noAnswer entry isIn] at isGot
        cases isGot
      · have short := progress.queue_le
        have lengths := congrArg List.length isKeys
        have wholes := congrArg List.length input
        have lefts := congrArg List.length inputLeft
        rcases arrivedAll with ⟨rest, isAll⟩
        have alls := congrArg List.length isAll
        simp only [List.length_append, List.length_cons] at lengths wholes lefts alls
        rcases progress.turn onTty ends typedLeft inputLeft (by omega) with
          ⟨prog, isThread, ⟨_, kernel', isTurn, drawn⟩ | ⟨keys'', _, _, isPrefix, _⟩⟩
        · rw [← isKeys] at isTurn drawn
          refine ⟨⟨kernel', Function.update turns.thread p none⟩, ?_, drawn⟩
          simp only [Turns.step, isThread]
          change Turns.settle _ _ _ (turn (Kernel.handler p) prog turns.shared) = _
          rw [isTurn]
          rfl
        · -- Not all of the input would have arrived.
          have longer := congrArg List.length isPrefix
          rw [List.length_append] at longer
          omega

/-- The first serial line as it is after `tty_init`, with a reader that has locked an inode. -/
def lineKernel : Kernel :=
  { Kernel.small with
    core := { smallCore with
      ttys := fun _ => ⟨fun _ => 0, 0, 0, 0, 264⟩
      uartPort := fun _ => true
      inodes := fun _ => { Inode.unused with lock := true }
      patience := 300 } }

/-- `"a"` and a carriage return are typed and read. -/
theorem tty_read_edits_a : ∃ log turns,
    Turns.Logged readers (Unsignalled 0 0) (called 0 ⟨0, 0x100, 80⟩ lineKernel) log turns ∧
      received log = [97, 10] ∧
      ∀ entry ∈ log, ∀ got, entry.2 = some got →
        got = lineOf [97] ∧ Drawn ⟨0, 0x100, 80⟩ lineKernel [97] turns.shared := by
  have first : Turns.Logged readers (Unsignalled 0 0) (called 0 ⟨0, 0x100, 80⟩ lineKernel)
      [(.env (.ttyInput 0 97), none)] _ :=
    Turns.Logged.start.next ⟨rfl, fun _ _ => by decide⟩ rfl
  have second := first.next (show Unsignalled 0 0 _ (.env (.ttyInput 0 13)) from
    ⟨rfl, fun _ _ => by decide⟩) rfl
  have third := second.next (show Unsignalled 0 0 _ (.resume 0) from trivial) rfl
  refine ⟨_, _, third, rfl, ?_⟩
  have onTty : Fs.ttyOf 0x100 = some 0 := by decide
  have typed : Types 80 [] [97] :=
    ⟨by decide, Or.inl (by decide), show (editKey [] 97).length < 80 by decide⟩
  exact (tty_read_edits 0 0 ⟨0, 0x100, 80⟩ [97] 13 lineKernel onTty
    ⟨rfl, rfl, by decide, rfl⟩ rfl rfl typed (Or.inl rfl) _ _ third [] [] rfl (by decide)).1

end Osix.Terminal
