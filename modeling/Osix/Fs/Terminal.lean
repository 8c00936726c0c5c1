import Osix.Fs.Kernel
import Osix.Lib.RingBuffer
import Osix.Lib.Turns

/-!
# The input ring of a terminal

`tty_input` and `tty_read` of `sys/kern/tty.c`. The two positions of the ring are bytes that
wrap around as the ring of 256 cells does, so that it holds at most 255 characters, and a
character that arrives when there are 255 pushes out the oldest one. Here any number of
processes read a terminal that is not in canonical mode, while its input arrives between their
turns.
-/

namespace Osix

open RingBuffer Program

/-- The characters that have not been read, the oldest first. -/
def Tty.unread (tty : Tty) : List Byte :=
  contents 256 (fun cell => tty.rxBuf (BitVec.ofNat 8 cell)) tty.rxTail tty.rxHead

namespace Terminal

/-- A queue of at most 255 characters after one more has arrived. -/
def arrive (queue : List Byte) (char : Byte) : List Byte :=
  (if queue.length = 255 then queue.tail else queue) ++ [char]

/-! ## The ring -/

section

variable {tty : Tty}

theorem length_unread (tty : Tty) : tty.unread.length = used tty.rxTail tty.rxHead :=
  length_contents

theorem length_unread_le (tty : Tty) : tty.unread.length ≤ 255 := by
  rw [length_unread, used]
  have bound := (tty.rxHead - tty.rxTail).isLt
  omega

theorem unread_nil (empty : tty.rxHead = tty.rxTail) : tty.unread = [] := by
  rw [Tty.unread, empty, contents_self]

/-- The cell of a position. -/
theorem ofNat_cell (position : BitVec 8) :
    BitVec.ofNat 8 (position.toNat % 256) = position := by
  rw [Nat.mod_eq_of_lt position.isLt, BitVec.ofNat_toNat, BitVec.setWidth_eq]

theorem unread_cons (nonempty : tty.rxHead ≠ tty.rxTail) :
    tty.unread = tty.rxBuf tty.rxTail :: { tty with rxTail := tty.rxTail + 1 }.unread := by
  rw [Tty.unread, contents_pop (Ne.symm nonempty), ofNat_cell, Tty.unread]

/-- A character is stored if the ring has a cell to spare. -/
theorem unread_store (tail : BitVec 8) (room : used tail tty.rxHead < 255) (char : Byte) :
    { tty with
      rxBuf := Function.update tty.rxBuf tty.rxHead char
      rxHead := tty.rxHead + 1
      rxTail := tail }.unread = { tty with rxTail := tail }.unread ++ [char] := by
  have sameCells : ∀ cell < 256,
      Function.update tty.rxBuf tty.rxHead char (BitVec.ofNat 8 cell) =
        Function.update (fun cell => tty.rxBuf (BitVec.ofNat 8 cell)) (tty.rxHead.toNat % 256) char
          cell := by
    intro cell inRing
    rcases eq_or_ne cell (tty.rxHead.toNat % 256) with rfl | different
    · rw [ofNat_cell, Function.update_self, Function.update_self]
    · rw [Function.update_of_ne different, Function.update_of_ne]
      rintro isHead
      apply different
      rw [← isHead, BitVec.toNat_ofNat, Nat.mod_mod, Nat.mod_eq_of_lt inRing]
  rw [Tty.unread, Tty.unread, contents_congr (by decide) sameCells]
  have fits : used tail tty.rxHead + 1 < 2 ^ 8 := by omega
  have inRing : used tail tty.rxHead < 256 := by omega
  exact contents_push (by decide) inRing fits char

theorem ttyInput_lflag (core : Core) (t : TtyId) (char : Byte) :
    ((core.ttyInput t char).ttys t).lflag = (core.ttys t).lflag := by
  unfold Core.ttyInput
  dsimp only
  split
  · split <;> rfl
  · simp [Core.setTty]

/-- CTRL-c and the input of other terminals leave a terminal alone. -/
theorem ttyInput_other (core : Core) {t u : TtyId} {char : Byte} (notInput : ¬(u = t ∧ char ≠ 3)) :
    (core.ttyInput u char).ttys t = core.ttys t := by
  unfold Core.ttyInput
  dsimp only
  split
  · split <;> rfl
  · rename_i notInterrupt
    have different : t ≠ u := fun same => notInput ⟨same.symm, notInterrupt⟩
    simp [Core.setTty, different]

/-- `tty_input` appends a character; of 255 unread ones the oldest makes room for it. -/
theorem unread_ttyInput (core : Core) (t : TtyId) {char : Byte} (notInterrupt : char ≠ 3) :
    ((core.ttyInput t char).ttys t).unread = arrive (core.ttys t).unread char := by
  simp only [Core.ttyInput, if_neg notInterrupt, Core.setTty, Function.update_self]
  generalize core.ttys t = tty
  have succ : tty.rxHead + 1 = tty.rxTail ↔ used tty.rxTail tty.rxHead = 255 := by
    rw [used]
    constructor
    · intro isTail
      rw [← isTail]
      bv_omega
    · intro full
      bv_omega
  by_cases full : tty.rxHead + 1 = tty.rxTail
  · have isFull := succ.mp full
    have nonempty : tty.rxTail ≠ tty.rxHead := by
      intro isHead
      rw [used_eq_zero.mpr isHead] at isFull
      omega
    have popped := used_pop nonempty
    rw [if_pos full, unread_store (tty.rxTail + 1) (by omega), arrive, length_unread,
      if_pos isFull, unread_cons nonempty.symm, List.tail_cons]
  · have notFull := mt succ.mpr full
    have bound := length_unread_le tty
    rw [length_unread] at bound
    rw [if_neg full, unread_store tty.rxTail (by omega), arrive, length_unread, if_neg notFull]

end

/-! ## Readers -/

/-- A call of `tty_read`. -/
structure ReadCall where
  i : InodeId
  dev : Dev
  count : ℕ

/-- The value that `tty_read` returns, and the bytes in the buffer. -/
abbrev Got := ℤ × List Byte

/-- Processes that read terminals. -/
def readers : System ProcId (FsOp BufId) FsOp.Reply Got Kernel Stop ReadCall Interrupt where
  handler := Kernel.handler
  code p call := Fs.ttyRead p call.i call.dev call.count
  ready kernel p := (kernel.core.procs p).live
  ends _ kernel := kernel
  env := Kernel.interrupt

abbrev ReadAct := PoolAct ProcId ReadCall Interrupt

/-- A program that runs in `tty_read`. -/
abbrev Reading := Prog (FsOp BufId) FsOp.Reply Got

abbrev ReadTurn := Turn (FsOp BufId) FsOp.Reply Got Kernel Stop

/-- Every call reads this terminal. -/
def OnTty (t : TtyId) (_ : Kernel) : ReadAct → Prop
  | .start _ call => Fs.ttyOf call.dev = some t
  | _ => True

/-- `tty_read` asleep, before it has got a character. -/
def Asleep (t : TtyId) (p : ProcId) (rest : Reading) : Prop :=
  ∃ i dev count rounds dest, 0 < count ∧ rest = (do
    Fs.sleep (.tty t)
    Fs.ilock i
    Fs.ttyReadLoop p i t dev count rounds dest 0 0)

/-- A terminal that is not in canonical mode, with its unread characters. -/
def Raw (t : TtyId) (kernel : Kernel) (queue : List Byte) : Prop :=
  (kernel.core.ttys t).icanon = false ∧ (kernel.core.ttys t).unread = queue

/-- The signals that are pending for the processes. -/
def signals (kernel : Kernel) (p : ProcId) : Bool := (kernel.core.procs p).signalPending

/-- What a reader finds in the course of a turn: the queue, its signals, and who else sleeps. -/
structure Finds (t : TtyId) (p : ProcId) (signalled : Bool) (napping : ProcId → Bool)
    (queue : List Byte) (kernel : Kernel) : Prop where
  raw : Raw t kernel queue
  signal : signals kernel p = signalled
  others : ∀ q ≠ p, kernel.napping q = napping q

/--
What a turn of a reader that asks for characters comes to. It returns with the oldest character;
if there is none, a signal interrupts it, or it sleeps.
-/
inductive Reads (t : TtyId) (p : ProcId) (signalled : Bool) (napping : ProcId → Bool) :
    List Byte → ReadTurn → Prop where
  | char {kernel : Kernel} {char : Byte} {rest : List Byte} :
      Finds t p signalled napping rest kernel →
      Reads t p signalled napping (char :: rest) (.returned (1, [char]) kernel)
  | interrupted {kernel : Kernel} : signalled = true → Finds t p signalled napping [] kernel →
      Reads t p signalled napping [] (.returned (-eintr, []) kernel)
  | waits {kernel : Kernel} {rest : Reading} : signalled = false → Asleep t p rest →
      kernel.napping p = true → Finds t p signalled napping [] kernel →
      Reads t p signalled napping [] (.waits rest kernel)
  | stopped {queue : List Byte} (why : Stop) : Reads t p signalled napping queue (.stopped why)

section

variable {t : TtyId} {p : ProcId} {signalled : Bool} {napping : ProcId → Bool}
  {queue : List Byte} {kernel kernel' : Kernel}

theorem Raw.congr (raw : Raw t kernel queue) (same : kernel'.core.ttys t = kernel.core.ttys t) :
    Raw t kernel' queue := by
  rwa [Raw, same]

/-- A change of a terminal that leaves its mode alone. -/
theorem Raw.setTty (raw : Raw t kernel queue) {change : Tty → Tty} (rest : List Byte)
    (sameMode : (change (kernel.core.ttys t)).lflag = (kernel.core.ttys t).lflag)
    (isRest : (change (kernel.core.ttys t)).unread = rest) :
    Raw t { kernel with core := kernel.core.setTty t change } rest := by
  have isChanged : (kernel.core.setTty t change).ttys t = change (kernel.core.ttys t) :=
    Function.update_self ..
  rw [Raw]
  dsimp only
  rw [isChanged, Tty.icanon, sameMode]
  exact ⟨raw.1, isRest⟩

/-- `iunlock` and `ilock` leave the terminals alone, if they do not panic. -/
theorem reads_lock (i : InodeId) {next : Unit → Reading}
    (finds : Finds t p signalled napping queue kernel)
    (rest : ∀ kernel', Finds t p signalled napping queue kernel' →
      Reads t p signalled napping queue (turn (Kernel.handler p) (next ()) kernel')) :
    Reads t p signalled napping queue
      (turn (Kernel.handler p) (Fs.ilock i >>= next) kernel) := by
  have isTable : Kernel.handler p (.ilock i) kernel = kernel.table p (.ilock i) := rfl
  change Reads t p signalled napping queue (turn _ (.perform (.ilock i) >>= next) kernel)
  rw [turn_perform, isTable]
  cases locked : (kernel.core.inodes i).lock with
  | true =>
      simp only [Kernel.table, Core.perform, locked, if_true]
      exact .stopped _
  | false =>
      simp only [Kernel.table, Core.perform, locked, Bool.false_eq_true, if_false]
      exact rest _ ⟨finds.raw.congr rfl, finds.signal, finds.others⟩

theorem reads_unlock (i : InodeId) {next : Unit → Reading}
    (finds : Finds t p signalled napping queue kernel)
    (rest : ∀ kernel', Finds t p signalled napping queue kernel' →
      Reads t p signalled napping queue (turn (Kernel.handler p) (next ()) kernel')) :
    Reads t p signalled napping queue
      (turn (Kernel.handler p) (Fs.iunlock i >>= next) kernel) := by
  have isTable : Kernel.handler p (.iunlock i) kernel = kernel.table p (.iunlock i) := rfl
  change Reads t p signalled napping queue (turn _ (.perform (.iunlock i) >>= next) kernel)
  rw [turn_perform, isTable]
  cases locked : (kernel.core.inodes i).lock with
  | true =>
      simp only [Kernel.table, Core.perform, locked, if_true]
      exact rest _ ⟨finds.raw.congr rfl, finds.signal, finds.others⟩
  | false =>
      simp only [Kernel.table, Core.perform, locked, Bool.false_eq_true, if_false]
      exact .stopped _

/-- A reader that was asleep goes on with the loop. -/
theorem reads_woken {i : InodeId} {dev : Dev} {count rounds : ℕ} {dest : ℕ → Byte}
    (woken : kernel.napping p = true)
    (loop : ∀ kernel', Finds t p signalled napping queue kernel' →
      Reads t p signalled napping queue
        (turn (Kernel.handler p) (Fs.ttyReadLoop p i t dev count rounds dest 0 0) kernel'))
    (finds : Finds t p signalled napping queue kernel) :
    Reads t p signalled napping queue (turn (Kernel.handler p) (do
      Fs.sleep (.tty t)
      Fs.ilock i
      Fs.ttyReadLoop p i t dev count rounds dest 0 0) kernel) := by
  change Reads t p signalled napping queue
    (turn _ (.perform (.sleep (.tty t)) >>= fun _ => Fs.ilock i >>= _) kernel)
  have isSleep : Kernel.handler p (.sleep (.tty t)) kernel = kernel.sleep p := rfl
  rw [turn_perform, isSleep]
  simp only [Kernel.sleep, woken, if_true]
  refine reads_lock i ⟨finds.raw.congr rfl, finds.signal, ?_⟩ loop
  intro q different
  exact (Function.update_of_ne different _ _).trans (finds.others q different)

/-- A reader that finds the ring empty sleeps, or goes on if a wake-up is still to come. -/
theorem reads_asleep {i : InodeId} {dev : Dev} {count rounds : ℕ} {dest : ℕ → Byte}
    (asks : 0 < count) (quiet : signalled = false)
    (loop : ∀ kernel', Finds t p signalled napping [] kernel' →
      Reads t p signalled napping []
        (turn (Kernel.handler p) (Fs.ttyReadLoop p i t dev count rounds dest 0 0) kernel'))
    (finds : Finds t p signalled napping [] kernel) :
    Reads t p signalled napping [] (turn (Kernel.handler p) (do
      Fs.sleep (.tty t)
      Fs.ilock i
      Fs.ttyReadLoop p i t dev count rounds dest 0 0) kernel) := by
  cases woken : kernel.napping p with
  | true => exact reads_woken woken loop finds
  | false =>
      change Reads t p signalled napping []
        (turn _ (.perform (.sleep (.tty t)) >>= fun _ => Fs.ilock i >>= _) kernel)
      have isSleep : Kernel.handler p (.sleep (.tty t)) kernel = kernel.sleep p := rfl
      rw [turn_perform, isSleep]
      simp only [Kernel.sleep, woken, Bool.false_eq_true, if_false]
      refine .waits quiet ⟨i, dev, count, rounds, dest, asks, rfl⟩ (Function.update_self ..)
        ⟨finds.raw.congr rfl, finds.signal, ?_⟩
      intro q different
      exact (Function.update_of_ne different _ _).trans (finds.others q different)

theorem goesOn {count : ℕ} (asks : 0 < count) :
    ¬(count ≤ 0 ∨ (0 : Byte) = 13 ∨ (0 : Byte) = 10) := by
  rintro (none | isReturn | isNewline)
  · omega
  · cases isReturn
  · cases isNewline

/-- The loop returns at once if there is a character. -/
theorem turn_loop_char (i : InodeId) (dev : Dev) {count : ℕ} (asks : 0 < count) (rounds : ℕ)
    (dest : ℕ → Byte) {char : Byte} {rest : List Byte} (raw : Raw t kernel (char :: rest)) :
    ∃ kernel', turn (Kernel.handler p) (Fs.ttyReadLoop p i t dev count (rounds + 1) dest 0 0)
        kernel = .returned (1, [char]) kernel' ∧ Raw t kernel' rest ∧
      signals kernel' = signals kernel ∧ kernel'.napping = kernel.napping := by
  have nonempty : (kernel.core.ttys t).rxHead ≠ (kernel.core.ttys t).rxTail := by
    intro empty
    have isQueue := raw.2
    rw [unread_nil empty] at isQueue
    cases isQueue
  have isQueue := raw.2
  rw [unread_cons nonempty, List.cons.injEq] at isQueue
  rcases isQueue with ⟨rfl, isRest⟩
  have after : Raw t { kernel with core := kernel.core.setTty t fun old =>
      { old with rxTail := old.rxTail + 1 } } rest := raw.setTty rest rfl isRest
  refine ⟨_, ?_, after, rfl, rfl⟩
  unfold Fs.ttyReadLoop
  rw [if_neg (goesOn asks)]
  change turn (Kernel.handler p)
    (if (kernel.core.ttys t).rxHead = (kernel.core.ttys t).rxTail then _ else _) kernel = _
  rw [if_neg nonempty, raw.1, if_neg Bool.false_ne_true]
  rfl

/-- What the loop of `tty_read` does before the first character. -/
theorem reads_loop (i : InodeId) (dev : Dev) {count : ℕ} (asks : 0 < count) (rounds : ℕ)
    (dest : ℕ → Byte) (finds : Finds t p signalled napping queue kernel) :
    Reads t p signalled napping queue
      (turn (Kernel.handler p) (Fs.ttyReadLoop p i t dev count rounds dest 0 0) kernel) := by
  induction rounds generalizing kernel with
  | zero => exact .stopped _
  | succ rounds ih =>
      cases queue with
      | cons char rest =>
          rcases turn_loop_char i dev asks rounds dest finds.raw with
            ⟨kernel', isTurn, raw, sameSignals, sameNapping⟩
          rw [isTurn]
          refine .char ⟨raw, ?_, ?_⟩
          · rw [sameSignals, finds.signal]
          · rw [sameNapping]
            exact finds.others
      | nil =>
          have empty : (kernel.core.ttys t).rxHead = (kernel.core.ttys t).rxTail := by
            by_contra nonempty
            have isQueue := finds.raw.2
            rw [unread_cons nonempty] at isQueue
            cases isQueue
          unfold Fs.ttyReadLoop
          rw [if_neg (goesOn asks)]
          change Reads t p signalled napping [] (turn (Kernel.handler p)
            (if (kernel.core.ttys t).rxHead = (kernel.core.ttys t).rxTail then _ else _) kernel)
          rw [if_pos empty]
          split
          · rename_i pending
            exact .interrupted (finds.signal.symm.trans pending) finds
          · rename_i notPending
            have quiet : signalled = false := by
              rw [← finds.signal]
              exact Bool.eq_false_iff.mpr notPending
            exact reads_unlock i finds fun kernel' => reads_asleep asks quiet fun kernel'' => ih

/-- A whole turn of a call that asks for characters. -/
theorem reads_ttyRead (i : InodeId) {dev : Dev} {count : ℕ} (onTty : Fs.ttyOf dev = some t)
    (asks : 0 < count) (finds : Finds t p signalled napping queue kernel) :
    Reads t p signalled napping queue
      (turn (Kernel.handler p) (Fs.ttyRead p i dev count) kernel) := by
  unfold Fs.ttyRead
  rw [onTty]
  exact reads_loop i dev asks _ _
    ⟨finds.raw.setTty _ rfl finds.raw.2, finds.signal, finds.others⟩

/-- A call that asks for no character. -/
theorem turn_ttyRead_nothing (i : InodeId) {dev : Dev} (onTty : Fs.ttyOf dev = some t)
    (finds : Finds t p signalled napping queue kernel) :
    (∃ why, turn (Kernel.handler p) (Fs.ttyRead p i dev 0) kernel = .stopped why) ∨
      ∃ kernel', turn (Kernel.handler p) (Fs.ttyRead p i dev 0) kernel =
        .returned (0, []) kernel' ∧ Finds t p signalled napping queue kernel' := by
  unfold Fs.ttyRead
  rw [onTty]
  cases isPatience : kernel.core.patience with
  | zero =>
      refine Or.inl ⟨.outOfPatience, ?_⟩
      change turn (Kernel.handler p) (Fs.ttyReadLoop p i t dev 0 kernel.core.patience _ 0 0) _ = _
      rw [isPatience]
      rfl
  | succ rounds =>
      have raw : Raw t { kernel with core := kernel.core.setTty t fun old =>
          { old with pgrp := (kernel.core.procs p).pgrp } } queue :=
        finds.raw.setTty _ rfl finds.raw.2
      refine Or.inr ⟨_, ?_, raw, finds.signal, finds.others⟩
      · change turn (Kernel.handler p) (Fs.ttyReadLoop p i t dev 0 kernel.core.patience _ 0 0) _ = _
        rw [isPatience]
        rfl

end

/-! ## Runs -/

/-- The character that an act puts into the ring. -/
def arrival (t : TtyId) : ReadAct → Option Byte
  | .env (.ttyInput u char) => if u = t ∧ char ≠ 3 then some char else none
  | _ => none

/-- A reader takes the oldest character; without one, a signal interrupts it, or it sleeps. -/
def take (signalled : Bool) : List Byte → Option Got × List Byte
  | char :: rest => (some (1, [char]), rest)
  | [] => (if signalled then some (-eintr, []) else none, [])

/-- What an act does to the queue, and the value that a call returns in it. -/
def serve (t : TtyId) (signalled : ProcId → Bool) (act : ReadAct) (queue : List Byte) :
    Option Got × List Byte :=
  match act with
  | .start p call => if call.count = 0 then (some (0, []), queue) else take (signalled p) queue
  | .resume p => take (signalled p) queue
  | .env _ => (none, (arrival t act).elim queue (arrive queue))
  | .go => (none, queue)

/-- The input of a run. -/
def arrived (t : TtyId) (log : List (ReadAct × Option Got)) : List Byte :=
  log.filterMap fun entry => arrival t entry.1

/-- What the readers have got in a run. -/
def received (log : List (ReadAct × Option Got)) : List Byte :=
  log.flatMap fun entry => entry.2.elim [] Prod.snd

/-- The characters that have left the queue, each with whether a reader got it. -/
def Accounted (t : TtyId) (first : List Byte) (log : List (ReadAct × Option Got))
    (queue : List Byte) : Prop :=
  ∃ removed : List (Byte × Bool), removed.map Prod.fst ++ queue = first ++ arrived t log ∧
    (removed.filter Prod.snd).map Prod.fst = received log

section

variable {t : TtyId} {first queue queue' : List Byte} {log : List (ReadAct × Option Got)}
  {act : ReadAct} {answer : Option Got} {signalled : ProcId → Bool}

theorem arrived_append (t : TtyId) (log : List (ReadAct × Option Got))
    (entry : ReadAct × Option Got) :
    arrived t (log ++ [entry]) = arrived t log ++ (arrival t entry.1).toList := by
  rw [arrived, List.filterMap_append, ← arrived]
  cases isArrival : arrival t entry.1 <;> simp [isArrival]

/-- What one act leaves of the queue: input, a character for a reader, or nothing new. -/
theorem serve_cases (serves : serve t signalled act queue = (answer, queue')) :
    (∃ char, arrival t act = some char ∧ answer = none ∧ queue' = arrive queue char) ∨
    (∃ char, arrival t act = none ∧ answer = some (1, [char]) ∧ queue = char :: queue') ∨
    (arrival t act = none ∧ answer.elim [] Prod.snd = [] ∧ queue' = queue) := by
  have taken : ∀ {waiting : Bool}, arrival t act = none →
      take waiting queue = (answer, queue') →
      (∃ char, arrival t act = none ∧ answer = some (1, [char]) ∧ queue = char :: queue') ∨
        (arrival t act = none ∧ answer.elim [] Prod.snd = [] ∧ queue' = queue) := by
    intro waiting notInput isTake
    cases queue with
    | cons char rest =>
        cases isTake
        exact Or.inl ⟨char, notInput, rfl, rfl⟩
    | nil =>
        cases isTake
        refine Or.inr ⟨notInput, ?_, rfl⟩
        split <;> rfl
  cases act with
  | start p call =>
      rw [serve] at serves
      split at serves
      · cases serves
        exact Or.inr (Or.inr ⟨rfl, rfl, rfl⟩)
      · exact Or.inr (taken rfl serves)
  | resume p => exact Or.inr (taken rfl serves)
  | env event =>
      rw [serve] at serves
      cases serves
      cases isArrival : arrival t (.env event) with
      | some char => exact Or.inl ⟨char, rfl, rfl, rfl⟩
      | none => exact Or.inr (Or.inr ⟨rfl, rfl, rfl⟩)
  | go =>
      cases serves
      exact Or.inr (Or.inr ⟨rfl, rfl, rfl⟩)

/-- Every character is read, lost, or still there, in the order in which they arrived. -/
theorem Accounted.next (accounted : Accounted t first log queue)
    (serves : serve t signalled act queue = (answer, queue')) :
    Accounted t first (log ++ [(act, answer)]) queue' := by
  rcases accounted with ⟨removed, inOrder, isReceived⟩
  have isGot : received (log ++ [(act, answer)]) = received log ++ answer.elim [] Prod.snd := by
    simp [received]
  rw [Accounted, arrived_append, isGot, ← isReceived, ← List.append_assoc, ← inOrder]
  rcases serve_cases serves with ⟨char, isChar, rfl, rfl⟩ | ⟨char, notInput, rfl, rfl⟩ |
    ⟨notInput, gotNothing, rfl⟩
  · rw [isChar, arrive]
    split
    · rename_i full
      -- The oldest character is lost.
      rcases queue with _ | ⟨oldest, rest⟩
      · cases full
      · exact ⟨removed ++ [(oldest, false)], by simp, by simp⟩
    · exact ⟨removed, by simp, by simp⟩
  · rw [notInput]
    exact ⟨removed ++ [(char, true)], by simp, by simp⟩
  · rw [notInput, gotNothing]
    exact ⟨removed, by simp, by simp⟩

end

section

variable {t : TtyId} {first queue : List Byte} {log : List (ReadAct × Option Got)}
  {start turns turns' : Turns ProcId (FsOp BufId) FsOp.Reply Got Kernel} {act : ReadAct}
  {answer : Option Got}

/-- Between turns: the readers that have not returned sleep, and the queue has this content. -/
structure Waits (t : TtyId) (turns : Turns ProcId (FsOp BufId) FsOp.Reply Got Kernel)
    (queue : List Byte) : Prop where
  raw : Raw t turns.shared queue
  asleep : ∀ p rest, turns.thread p = some rest →
    Asleep t p rest ∧ turns.shared.napping p = true

/-- The other readers sleep on after a turn of `p`. -/
theorem Waits.others {p : ProcId} {kernel : Kernel} {signalled : Bool} {queue' : List Byte}
    (waits : Waits t turns queue)
    (finds : Finds t p signalled turns.shared.napping queue' kernel) {rest : Option Reading}
    (own : ∀ prog, rest = some prog → Asleep t p prog ∧ kernel.napping p = true) :
    Waits t ⟨kernel, Function.update turns.thread p rest⟩ queue' := by
  refine ⟨finds.raw, ?_⟩
  intro q prog isThread
  change Function.update turns.thread p rest q = some prog at isThread
  rcases eq_or_ne q p with rfl | different
  · exact own prog (by rwa [Function.update_self] at isThread)
  · rw [Function.update_of_ne different] at isThread
    rcases waits.asleep q prog isThread with ⟨asleep, napping⟩
    exact ⟨asleep, (finds.others q different).trans napping⟩

theorem Waits.settle {p : ProcId} {signalled : Bool} {result : ReadTurn}
    (waits : Waits t turns queue)
    (reads : Reads t p signalled turns.shared.napping queue result)
    (settled : Turns.settle readers turns.thread p result = some (turns', answer)) :
    ∃ queue', take signalled queue = (answer, queue') ∧ Waits t turns' queue' := by
  cases reads with
  | char finds =>
      cases settled
      exact ⟨_, rfl, waits.others finds nofun⟩
  | interrupted pending finds =>
      cases settled
      exact ⟨[], by rw [take, if_pos pending], waits.others finds nofun⟩
  | waits quiet asleep napping finds =>
      cases settled
      refine ⟨[], by rw [take, if_neg (Bool.eq_false_iff.mp quiet)], waits.others finds ?_⟩
      rintro prog ⟨⟩
      exact ⟨asleep, napping⟩
  | stopped why => cases settled

theorem interrupt_napping (event : Interrupt) (kernel : Kernel) :
    (Kernel.interrupt event kernel).napping = kernel.napping := by
  cases event <;> rfl

/-- The environment touches a terminal by its input only. -/
theorem Waits.env (waits : Waits t turns queue) (event : Interrupt) :
    Waits t { turns with shared := Kernel.interrupt event turns.shared }
      ((arrival t (.env event)).elim queue (arrive queue)) := by
  have asleep : ∀ p rest, turns.thread p = some rest →
      Asleep t p rest ∧ (Kernel.interrupt event turns.shared).napping p = true := by
    rw [interrupt_napping]
    exact waits.asleep
  have quiet : arrival t (.env event) = none →
      (Kernel.interrupt event turns.shared).core.ttys t = turns.shared.core.ttys t →
      Waits t { turns with shared := Kernel.interrupt event turns.shared }
        ((arrival t (.env event)).elim queue (arrive queue)) := by
    intro notInput same
    rw [notInput]
    exact ⟨waits.raw.congr same, asleep⟩
  cases event with
  | ttyInput u char =>
      by_cases isInput : u = t ∧ char ≠ 3
      · rcases isInput with ⟨rfl, notInterrupt⟩
        have isChar : arrival u (.env (.ttyInput u char)) = some char :=
          if_pos ⟨rfl, notInterrupt⟩
        rw [isChar]
        refine ⟨⟨?_, ?_⟩, asleep⟩
        · dsimp only [Kernel.interrupt]
          rw [Tty.icanon, ttyInput_lflag]
          exact waits.raw.1
        · rw [Option.elim_some, ← waits.raw.2]
          exact unread_ttyInput _ u notInterrupt
      · exact quiet (if_neg isInput) (ttyInput_other _ isInput)
  | _ => exact quiet rfl rfl

/-- Every step does to the queue what it is to do, and answers accordingly. -/
theorem Waits.step (waits : Waits t turns queue) (onTty : OnTty t turns.shared act)
    (stepped : turns.step readers act = some (turns', answer)) :
    ∃ queue', serve t (signals turns.shared) act queue = (answer, queue') ∧
      Waits t turns' queue' := by
  have finds : ∀ p, Finds t p (signals turns.shared p) turns.shared.napping queue turns.shared :=
    fun p => ⟨waits.raw, rfl, fun _ _ => rfl⟩
  cases act with
  | start p call =>
      simp only [Turns.step] at stepped
      split at stepped
      · rw [serve]
        by_cases nothing : call.count = 0
        · have isCode : readers.code p call = Fs.ttyRead p call.i call.dev 0 := by
            rw [← nothing]
            rfl
          rw [if_pos nothing]
          rw [isCode] at stepped
          rcases turn_ttyRead_nothing call.i onTty (finds p) with ⟨why, isTurn⟩ |
            ⟨kernel, isTurn, after⟩
          · change Turns.settle readers turns.thread p (turn (Kernel.handler p) _ _) = _ at stepped
            rw [isTurn] at stepped
            cases stepped
          · change Turns.settle readers turns.thread p (turn (Kernel.handler p) _ _) = _ at stepped
            rw [isTurn] at stepped
            cases stepped
            exact ⟨queue, rfl, waits.others after fun _ isThread => absurd isThread (by simp)⟩
        · rw [if_neg nothing]
          exact waits.settle (reads_ttyRead call.i onTty (Nat.pos_of_ne_zero nothing) (finds p))
            stepped
      · cases stepped
  | resume p =>
      simp only [Turns.step] at stepped
      split at stepped
      · rename_i rest isThread
        rcases waits.asleep p rest isThread with
          ⟨⟨i, dev, count, rounds, dest, asks, rfl⟩, napping⟩
        exact waits.settle (reads_woken napping (fun _ => reads_loop i dev asks rounds dest)
          (finds p)) stepped
      · cases stepped
  | env event =>
      cases stepped
      exact ⟨_, rfl, waits.env event⟩
  | go => cases stepped

theorem Waits.logged (waits : Waits t start first)
    (logged : Turns.Logged readers (OnTty t) start log turns) :
    ∃ queue, Accounted t first log queue ∧ Waits t turns queue := by
  induction logged with
  | start => exact ⟨first, ⟨[], by simp [arrived], by simp [received]⟩, waits⟩
  | next _ onTty stepped ih =>
      rcases ih with ⟨queue, accounted, there⟩
      rcases there.step onTty stepped with ⟨queue', serves, after⟩
      exact ⟨queue', accounted.next serves, after⟩

/-- A call that asks for characters returns if there is one. -/
theorem Waits.returns (waits : Waits t turns queue) {p : ProcId} {call : ReadCall}
    (onTty : Fs.ttyOf call.dev = some t) (asks : 0 < call.count) (notEmpty : queue ≠ [])
    (ready : (turns.shared.core.procs p).live = true) (idle : turns.thread p = none)
    (patient : 0 < turns.shared.core.patience) :
    (turns.step readers (.start p call)).isSome = true := by
  obtain ⟨rounds, isPatience⟩ := Nat.exists_eq_succ_of_ne_zero (Nat.ne_of_gt patient)
  rcases queue with _ | ⟨char, rest⟩
  · exact absurd rfl notEmpty
  have raw : Raw t { turns.shared with core := turns.shared.core.setTty t fun old =>
      { old with pgrp := (turns.shared.core.procs p).pgrp } } (char :: rest) :=
    waits.raw.setTty _ rfl waits.raw.2
  rcases turn_loop_char (p := p) call.i call.dev asks rounds (fun _ => 0) raw with
    ⟨kernel', isTurn, _⟩
  have isCall : turn (Kernel.handler p) (Fs.ttyRead p call.i call.dev call.count) turns.shared =
      .returned (1, [char]) kernel' := by
    unfold Fs.ttyRead
    rw [onTty]
    change turn (Kernel.handler p) (Fs.ttyReadLoop p call.i t call.dev call.count
      turns.shared.core.patience _ 0 0) _ = _
    rw [isPatience]
    exact isTurn
  have possible : ((turns.thread p).isNone && readers.ready turns.shared p) = true := by
    rw [idle]
    exact ready
  rw [Turns.step, if_pos possible]
  change (Turns.settle readers turns.thread p (turn (Kernel.handler p)
    (Fs.ttyRead p call.i call.dev call.count) turns.shared)).isSome = true
  rw [isCall]
  rfl

end

/--
In every run in which processes read a terminal that is not in canonical mode, the ring is a
queue of at most 255 characters, and every character is read, lost or still in the ring, in the
order of arrival. Every step does to the queue what `serve` says: input is appended, and pushes
out the oldest character if there are 255; a call that asks for characters returns with the
oldest one, and only if there is none a signal interrupts it or it sleeps. A call on a ring that
is not empty does return.
-/
theorem ring_is_queue (t : TtyId) (kernel : Kernel)
    (raw : (kernel.core.ttys t).icanon = false) (log : List (ReadAct × Option Got))
    (turns : Turns ProcId (FsOp BufId) FsOp.Reply Got Kernel)
    (logged : Turns.Logged readers (OnTty t) (.idle kernel) log turns) :
    (turns.shared.core.ttys t).unread.length ≤ 255 ∧
      Accounted t (kernel.core.ttys t).unread log (turns.shared.core.ttys t).unread ∧
      (∀ act turns' answer, OnTty t turns.shared act →
        turns.step readers act = some (turns', answer) →
        serve t (signals turns.shared) act (turns.shared.core.ttys t).unread =
          (answer, (turns'.shared.core.ttys t).unread)) ∧
      ∀ p call, Fs.ttyOf call.dev = some t → 0 < call.count →
        (turns.shared.core.ttys t).unread ≠ [] →
        (turns.shared.core.procs p).live = true → turns.thread p = none →
        0 < turns.shared.core.patience → (turns.step readers (.start p call)).isSome = true := by
  have waits : Waits t (.idle kernel) (kernel.core.ttys t).unread := ⟨⟨raw, rfl⟩, nofun⟩
  rcases waits.logged logged with ⟨queue, accounted, there⟩
  rw [there.raw.2]
  refine ⟨?_, accounted, ?_, fun p call => there.returns⟩
  · rw [← there.raw.2]
    exact length_unread_le _
  · intro act turns' answer onTty stepped
    rcases there.step onTty stepped with ⟨queue', serves, after⟩
    rw [serves, after.raw.2]

/-- The first serial line is not in canonical mode, and its inode is locked for the reader. -/
def rawKernel : Kernel :=
  { Kernel.small with
    core := { smallCore with
      inodes := fun i => { smallCore.inodes i with lock := true }
      ttys := fun _ => ⟨fun _ => 0, 0, 0, 0, 0⟩ } }

/-- Two characters arrive, and two processes read them; a third call has to wait. -/
theorem ring_is_queue_read : ∃ log turns,
    Turns.Logged readers (OnTty 0) (.idle rawKernel) log turns ∧ received log = [97, 98] ∧
      (turns.thread 1).isSome = true ∧
      (turns.shared.core.ttys 0).unread.length ≤ 255 ∧
      Accounted 0 (rawKernel.core.ttys 0).unread log (turns.shared.core.ttys 0).unread := by
  have onTty (p : ProcId) (kernel : Kernel) : OnTty 0 kernel (.start p ⟨0, 0x100, 1⟩) := by
    change Fs.ttyOf 0x100 = some 0
    decide
  have first : Turns.Logged readers (OnTty 0) (.idle rawKernel)
      [(.env (.ttyInput 0 97), none)] _ := Turns.Logged.start.next trivial rfl
  have second : Turns.Logged readers (OnTty 0) (.idle rawKernel)
      [(.env (.ttyInput 0 97), none), (.env (.ttyInput 0 98), none)] _ := first.next trivial rfl
  have read := second.next (onTty 0 _) rfl
  have readOther := read.next (onTty 1 _) rfl
  have waits := readOther.next (onTty 1 _) rfl
  have isQueue := ring_is_queue 0 rawKernel rfl _ _ waits
  exact ⟨_, _, waits, rfl, rfl, isQueue.1, isQueue.2.1⟩

/-- The same in the pool of processes, whose steps are single operations. -/
theorem ring_between_turns (t : TtyId) {kernel : Kernel}
    {pool : Pool ProcId (FsOp BufId) FsOp.Reply Got Kernel Stop}
    (raw : (kernel.core.ttys t).icanon = false)
    (reach : Transition.Reach (Pool.step readers) (fun pool act => OnTty t pool.shared act)
      (Pool.idle kernel) pool)
    (quiet : pool.quiet = true) :
    ∃ log, Accounted t (kernel.core.ttys t).unread log (pool.shared.core.ttys t).unread := by
  rcases Turns.logged_of_pool reach quiet with ⟨log, logged⟩
  have waits : Waits t (.idle kernel) (kernel.core.ttys t).unread := ⟨⟨raw, rfl⟩, nofun⟩
  rcases waits.logged logged with ⟨queue, accounted, there⟩
  exact ⟨log, there.raw.2 ▸ accounted⟩

end Terminal

end Osix
