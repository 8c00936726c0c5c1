import Osix.Kern.Basic

/-!
# Timed sleep

`sys_sleep` of `sys/kern/proc.c` and `pit_irq` of `sys/i386/pit.c`. A process that sleeps for
some seconds sleeps on the number of the timer tick that is to wake it, a 32-bit word that wraps
around; the channels of all other sleepers are addresses. When it runs again it compares the
tick counter with that number as unsigned words. `timed_iff` says when this comes out right.
-/

namespace Osix.Clock

open Kern

/-- The fields of `struct proc` that `sleep` and `wakeup` use; a channel is any word. -/
structure Proc where
  state : Kern.State
  wchan : Kern.Word
deriving DecidableEq

/-- The process table and the variables of the timer. -/
structure Sys where
  proc : Kern.Slot → Proc
  pitTicks : Kern.Word
  pitTicksLoop : Kern.Word
  pitTime : Kern.Word

/-- `PIT_FREQ`. -/
def pitFreq : Kern.Word := 20

namespace Sys

/-- `wakeup`. -/
def wakeup (sys : Sys) (wchan : Kern.Word) : Sys :=
  { sys with
    proc := fun p =>
      if (sys.proc p).state = .sleep ∧ (sys.proc p).wchan = wchan then ⟨.running, 0⟩
      else sys.proc p }

/-- `sleep` of process `p`, up to the switch. -/
def sleep (sys : Sys) (p : Kern.Slot) (wchan : Kern.Word) : Sys :=
  { sys with proc := Function.update sys.proc p ⟨.sleep, wchan⟩ }

/-- `pit_irq`, up to the switch. -/
def pitIrq (sys : Sys) : Sys :=
  let sys := { sys with pitTicks := sys.pitTicks + 1 }
  let sys := sys.wakeup sys.pitTicks
  if pitFreq ≤ sys.pitTicksLoop + 1 then
    { sys with pitTicksLoop := 0, pitTime := sys.pitTime + 1 }
  else
    { sys with pitTicksLoop := sys.pitTicksLoop + 1 }

/-- `wakeup_time` in `sys_sleep`. -/
def wakeupTime (sys : Sys) (seconds : Kern.Word) : Kern.Word := sys.pitTicks + pitFreq * seconds

/-- `sys_sleep` up to its sleep. -/
def sysSleep (sys : Sys) (p : Kern.Slot) (seconds : Kern.Word) : Sys :=
  sys.sleep p (sys.wakeupTime seconds)

/-- What `sys_sleep` returns when the process runs again. -/
def remaining (sys : Sys) (wakeupTime : Kern.Word) : Kern.Word :=
  (if sys.pitTicks < wakeupTime then wakeupTime - sys.pitTicks else 0) / pitFreq

end Sys

/-- What happens while a process sleeps: `change` is whatever other processes do in the table. -/
inductive Event where
  | tick
  | wakeup (wchan : Kern.Word)
  | change (q : Kern.Slot) (entry : Proc)
deriving DecidableEq

/-- One event. -/
def Sys.after (sys : Sys) : Event → Sys
  | .tick => sys.pitIrq
  | .wakeup wchan => sys.wakeup wchan
  | .change q entry => { sys with proc := Function.update sys.proc q entry }

/-- The number of timer interrupts. -/
def ticks (events : List Event) : ℕ := events.count .tick

/-- Nothing but a wake-up touches the entry of `p`; it receives no signal. -/
def Spares (p : Kern.Slot) (events : List Event) : Prop :=
  ∀ q entry, .change q entry ∈ events → q ≠ p

/-- At every moment `p` sleeps as long as it asked for, and would return 0 after that. -/
def Timed (sys : Sys) (p : Kern.Slot) (seconds : Kern.Word) (events : List Event) : Prop :=
  ∀ past rest, events = past ++ rest →
    let after := past.foldl Sys.after (sys.sysSleep p seconds)
    ((after.proc p).state = .sleep ↔ ticks past < pitFreq.toNat * seconds.toNat) ∧
      ((after.proc p).state ≠ .sleep → after.remaining (sys.wakeupTime seconds) = 0)

/--
The condition: the process asks for a second or more, nobody else uses the number of the tick as
a channel before that tick, and it runs again before the counter gets to 0 (or the number is
that of one of the first ticks).
-/
structure OnTime (sys : Sys) (seconds : Kern.Word) (events : List Event) : Prop where
  notZero : seconds ≠ 0
  ownChannel : ∀ past rest, events = past ++ .wakeup (sys.wakeupTime seconds) :: rest →
    pitFreq.toNat * seconds.toNat ≤ ticks past
  notLate : (sys.wakeupTime seconds).toNat + ticks events <
      pitFreq.toNat * seconds.toNat + 2 ^ 32 ∨
    sys.wakeupTime seconds < pitFreq

section

variable {sys sys' : Sys} {p : Kern.Slot} {seconds wakeupTime : Kern.Word} {events : List Event}

theorem pitIrq_proc (sys : Sys) :
    sys.pitIrq.proc = (sys.wakeup (sys.pitTicks + 1)).proc := by
  unfold Sys.pitIrq
  dsimp only
  split <;> rfl

theorem pitIrq_pitTicks (sys : Sys) : sys.pitIrq.pitTicks = sys.pitTicks + 1 := by
  unfold Sys.pitIrq
  dsimp only
  split <;> rfl

theorem ticks_tick (rest : List Event) : ticks (.tick :: rest) = ticks rest + 1 :=
  List.count_cons_self

theorem ticks_of_ne {event : Event} (notTick : event ≠ .tick) (rest : List Event) :
    ticks (event :: rest) = ticks rest := List.count_cons_of_ne notTick

/-- The tick counter counts the ticks. -/
theorem pitTicks_after (events : List Event) (sys : Sys) :
    (events.foldl Sys.after sys).pitTicks = sys.pitTicks + BitVec.ofNat 32 (ticks events) := by
  induction events generalizing sys with
  | nil => simp [ticks]
  | cons event rest ih =>
      rw [List.foldl_cons, ih]
      cases event with
      | tick =>
          rw [Sys.after, pitIrq_pitTicks, ticks_tick]
          bv_omega
      | wakeup wchan => rfl
      | change q entry => rfl

theorem ticks_append (past rest : List Event) :
    ticks (past ++ rest) = ticks past + ticks rest := List.count_append

/-- Every number of ticks on the way is that of some moment. -/
theorem exists_moment (events : List Event) {count : ℕ} (within : count ≤ ticks events) :
    ∃ past rest, events = past ++ rest ∧ ticks past = count := by
  induction events generalizing count with
  | nil => exact ⟨[], [], rfl, (Nat.le_zero.mp within).symm⟩
  | cons event events ih =>
      rcases Nat.eq_zero_or_pos count with rfl | positive
      · exact ⟨[], event :: events, rfl, rfl⟩
      · by_cases isTick : event = .tick
        · subst isTick
          rw [ticks_tick] at within
          rcases ih (show count - 1 ≤ ticks events by omega) with ⟨past, rest, rfl, isCount⟩
          refine ⟨.tick :: past, rest, rfl, ?_⟩
          rw [ticks_tick, isCount]
          omega
        · rw [ticks_of_ne isTick] at within
          rcases ih within with ⟨past, rest, rfl, isCount⟩
          refine ⟨event :: past, rest, rfl, ?_⟩
          rw [ticks_of_ne isTick, isCount]

/-- A wake-up leaves alone who does not sleep, and who sleeps on another channel. -/
theorem wakeup_other {wchan : Kern.Word}
    (notWoken : ¬((sys.proc p).state = .sleep ∧ (sys.proc p).wchan = wchan)) :
    (sys.wakeup wchan).proc p = sys.proc p := if_neg notWoken

/-- With `left` ticks to go the process sleeps on the number of the last of them. -/
structure Sleeps (p : Kern.Slot) (wakeupTime : Kern.Word) (left : ℕ) (sys : Sys) : Prop where
  asleep : 0 < left → sys.proc p = ⟨.sleep, wakeupTime⟩
  awake : left = 0 → (sys.proc p).state ≠ .sleep
  due : 0 < left → sys.pitTicks + BitVec.ofNat 32 left = wakeupTime
  bound : left < 2 ^ 31

/-- The entry of the process stays as it is, or the last tick wakes it. -/
theorem Sleeps.tick {left : ℕ} (sleeps : Sleeps p wakeupTime left sys) :
    Sleeps p wakeupTime (left - 1) sys.pitIrq := by
  have bound := sleeps.bound
  constructor
  case bound => omega
  case asleep =>
    intro more
    have due := sleeps.due (by omega)
    have notWoken : sys.pitTicks + 1 ≠ wakeupTime := by
      rw [← due]
      bv_omega
    rw [pitIrq_proc, wakeup_other, sleeps.asleep (by omega)]
    rw [sleeps.asleep (by omega)]
    exact fun woken => notWoken woken.2.symm
  case awake =>
    intro last
    rw [pitIrq_proc]
    rcases Nat.eq_zero_or_pos left with isZero | positive
    · rw [wakeup_other fun woken => sleeps.awake isZero woken.1]
      exact sleeps.awake isZero
    · have isOne : left = 1 := by omega
      have due := sleeps.due positive
      have woken : (sys.proc p).state = .sleep ∧ (sys.proc p).wchan = sys.pitTicks + 1 := by
        rw [sleeps.asleep positive, ← due, isOne]
        exact ⟨rfl, rfl⟩
      rw [Sys.wakeup]
      dsimp only
      rw [if_pos woken]
      exact nofun
  case due =>
    intro more
    rw [pitIrq_pitTicks, ← sleeps.due (by omega)]
    bv_omega

theorem Sleeps.wakeup {left : ℕ} {wchan : Kern.Word} (sleeps : Sleeps p wakeupTime left sys)
    (other : wchan = wakeupTime → left = 0) : Sleeps p wakeupTime left (sys.wakeup wchan) := by
  have same : (sys.wakeup wchan).proc p = sys.proc p := by
    apply wakeup_other
    rintro ⟨isAsleep, isChannel⟩
    rcases Nat.eq_zero_or_pos left with isZero | positive
    · exact sleeps.awake isZero isAsleep
    · rw [sleeps.asleep positive] at isChannel
      exact absurd (other isChannel.symm) (Nat.ne_of_gt positive)
  constructor
  case asleep => exact fun more => same.trans (sleeps.asleep more)
  case awake => exact fun last => same ▸ sleeps.awake last
  case due => exact sleeps.due
  case bound => exact sleeps.bound

/-- A run in which nobody else wakes the process before its tick. -/
theorem Sleeps.run {left : ℕ} (sleeps : Sleeps p wakeupTime left sys) (spares : Spares p events)
    (ownChannel : ∀ past rest, events = past ++ .wakeup wakeupTime :: rest → left ≤ ticks past) :
    Sleeps p wakeupTime (left - ticks events) (events.foldl Sys.after sys) := by
  induction events generalizing sys left with
  | nil => exact sleeps
  | cons event rest ih =>
      have sparesRest : Spares p rest :=
        fun q entry isIn => spares q entry (List.mem_cons_of_mem _ isIn)
      rw [List.foldl_cons]
      by_cases isTick : event = .tick
      · subst isTick
        have isLess : left - ticks (.tick :: rest) = left - 1 - ticks rest := by
          rw [ticks_tick]
          omega
        rw [isLess]
        apply ih sleeps.tick sparesRest
        rintro past rest' rfl
        have within := ownChannel (.tick :: past) rest' rfl
        rw [ticks_tick] at within
        omega
      · have isSame : ticks (event :: rest) = ticks rest := ticks_of_ne isTick rest
        have ownChannelRest : ∀ past rest', rest = past ++ .wakeup wakeupTime :: rest' →
            left ≤ ticks past := by
          rintro past rest' rfl
          have within := ownChannel (event :: past) rest' rfl
          rwa [ticks_of_ne isTick] at within
        rw [isSame]
        refine ih ?_ sparesRest ownChannelRest
        cases event with
        | tick => exact absurd rfl isTick
        | wakeup wchan =>
            apply sleeps.wakeup
            rintro rfl
            exact Nat.le_zero.mp (ownChannel [] rest rfl)
        | change q entry =>
            have different := spares q entry (List.mem_cons_self ..)
            have same : (sys.after (.change q entry)).proc p = sys.proc p :=
              Function.update_of_ne different.symm _ _
            exact ⟨fun more => same.trans (sleeps.asleep more),
              fun last => same ▸ sleeps.awake last, sleeps.due, sleeps.bound⟩

/-- As long as the process sleeps it sleeps on the channel of its call. -/
theorem wchan_of_asleep (spares : Spares p events)
    (own : (sys.proc p).state = .sleep → (sys.proc p).wchan = wakeupTime)
    (isAsleep : ((events.foldl Sys.after sys).proc p).state = .sleep) :
    ((events.foldl Sys.after sys).proc p).wchan = wakeupTime := by
  have woken : ∀ (sys : Sys) wchan,
      ((sys.proc p).state = .sleep → (sys.proc p).wchan = wakeupTime) →
      ((sys.wakeup wchan).proc p).state = .sleep →
        ((sys.wakeup wchan).proc p).wchan = wakeupTime := by
    intro sys wchan own isAsleep
    simp only [Sys.wakeup] at isAsleep ⊢
    split at isAsleep
    · cases isAsleep
    · rename_i notWoken
      rw [if_neg notWoken]
      exact own isAsleep
  induction events generalizing sys with
  | nil => exact own isAsleep
  | cons event rest ih =>
      have sparesRest : Spares p rest :=
        fun q entry isIn => spares q entry (List.mem_cons_of_mem _ isIn)
      refine ih sparesRest ?_ isAsleep
      cases event with
      | tick =>
          rw [Sys.after, pitIrq_proc]
          exact woken sys _ own
      | wakeup wchan => exact woken sys _ own
      | change q entry =>
          have different := spares q entry (List.mem_cons_self ..)
          rw [Sys.after]
          dsimp only
          rw [Function.update_of_ne different.symm]
          exact own

theorem remaining_eq_zero (sys : Sys) (wakeupTime : Kern.Word) :
    sys.remaining wakeupTime = 0 ↔
      wakeupTime.toNat < sys.pitTicks.toNat + pitFreq.toNat := by
  have freq : pitFreq.toNat = 20 := rfl
  have isZero : ∀ word : Kern.Word, word / pitFreq = 0 ↔ word.toNat < 20 := by
    intro word
    rw [← BitVec.toNat_inj, BitVec.toNat_udiv, freq]
    simp only [BitVec.ofNat_eq_ofNat, BitVec.toNat_zero]
    omega
  rw [Sys.remaining, isZero, freq]
  split
  · rename_i before
    rw [BitVec.lt_def] at before
    rw [BitVec.toNat_sub_of_le (BitVec.le_of_lt before)]
    omega
  · rename_i after
    rw [BitVec.lt_def] at after
    simp only [BitVec.ofNat_eq_ofNat, BitVec.toNat_zero]
    omega

theorem sysSleep_proc (sys : Sys) (p : Kern.Slot) (seconds : Kern.Word) :
    (sys.sysSleep p seconds).proc p = ⟨.sleep, sys.wakeupTime seconds⟩ :=
  Function.update_self ..

/-- The tick counter at a moment after the wake-up time. -/
theorem pitTicks_late {late : ℕ}
    (isLate : ticks events = pitFreq.toNat * seconds.toNat + late) :
    ((events.foldl Sys.after (sys.sysSleep p seconds)).pitTicks).toNat =
      ((sys.wakeupTime seconds).toNat + late) % 2 ^ 32 := by
  have freq : pitFreq.toNat = 20 := rfl
  have isTime : (sys.wakeupTime seconds).toNat =
      (sys.pitTicks.toNat + 20 * seconds.toNat) % 2 ^ 32 := by
    rw [Sys.wakeupTime, BitVec.toNat_add, BitVec.toNat_mul, freq]
    omega
  have counts := congrArg BitVec.toNat (pitTicks_after events (sys.sysSleep p seconds))
  rw [BitVec.toNat_add, BitVec.toNat_ofNat, isLate, freq] at counts
  have same : (sys.sysSleep p seconds).pitTicks = sys.pitTicks := rfl
  rw [counts, same, isTime]
  omega

/-- A run on time is right. -/
theorem OnTime.timed (onTime : OnTime sys seconds events) (spares : Spares p events)
    (small : pitFreq.toNat * seconds.toNat < 2 ^ 31) : Timed sys p seconds events := by
  rintro past rest rfl
  have freq : pitFreq.toNat = 20 := rfl
  have positive : 0 < pitFreq.toNat * seconds.toNat := by
    have notZero : seconds.toNat ≠ 0 := fun isZero => onTime.notZero (BitVec.eq_of_toNat_eq isZero)
    rw [freq]
    omega
  have begins : Sleeps p (sys.wakeupTime seconds) (pitFreq.toNat * seconds.toNat)
      (sys.sysSleep p seconds) := by
    refine ⟨fun _ => sysSleep_proc .., fun isZero => absurd isZero (Nat.ne_of_gt positive), ?_,
      small⟩
    intro _
    have same : (sys.sysSleep p seconds).pitTicks = sys.pitTicks := rfl
    rw [same, Sys.wakeupTime, BitVec.ofNat_mul, BitVec.ofNat_toNat, BitVec.ofNat_toNat,
      BitVec.setWidth_eq, BitVec.setWidth_eq]
  have sparesPast : Spares p past :=
    fun q entry isIn => spares q entry (List.mem_append_left _ isIn)
  have sleeps := begins.run sparesPast fun before between isPast =>
    onTime.ownChannel before (between ++ rest) (by rw [isPast]; simp)
  have isAsleep : ((past.foldl Sys.after (sys.sysSleep p seconds)).proc p).state = .sleep ↔
      ticks past < pitFreq.toNat * seconds.toNat := by
    constructor
    · intro isAsleep
      by_contra notBefore
      exact sleeps.awake (by omega) isAsleep
    · intro before
      rw [sleeps.asleep (by omega)]
  refine ⟨isAsleep, fun isAwake => ?_⟩
  rw [ne_eq, isAsleep, not_lt] at isAwake
  obtain ⟨late, isLate⟩ := Nat.exists_eq_add_of_le isAwake
  have notLate := onTime.notLate
  have timeBound := (sys.wakeupTime seconds).isLt
  rw [freq] at small isLate
  rw [ticks_append, BitVec.lt_def, freq] at notLate
  rw [remaining_eq_zero, pitTicks_late isLate, freq]
  omega

/-- A run that is right is on time. -/
theorem Timed.onTime (timed : Timed sys p seconds events) (spares : Spares p events)
    (small : pitFreq.toNat * seconds.toNat < 2 ^ 31) : OnTime sys seconds events := by
  have freq : pitFreq.toNat = 20 := rfl
  constructor
  case notZero =>
    rintro rfl
    have atStart := (timed [] events rfl).1.mp (by rw [List.foldl_nil, sysSleep_proc])
    simp at atStart
  case ownChannel =>
    rintro past rest rfl
    by_contra before
    -- The process sleeps on the channel, is woken, and would still have to sleep.
    have sparesPast : Spares p past :=
      fun q entry isIn => spares q entry (List.mem_append_left _ isIn)
    have isAsleep := (timed past _ rfl).1.mpr (by omega)
    have isChannel := wchan_of_asleep sparesPast
      (fun _ => congrArg Proc.wchan (sysSleep_proc sys p seconds)) isAsleep
    have next := timed (past ++ [.wakeup (sys.wakeupTime seconds)]) rest (by simp)
    have stillAsleep := next.1.mpr (by rw [ticks_append]; exact Nat.lt_of_not_le before)
    rw [List.foldl_append, List.foldl_cons, List.foldl_nil, Sys.after, Sys.wakeup] at stillAsleep
    dsimp only at stillAsleep
    rw [if_pos ⟨isAsleep, isChannel⟩] at stillAsleep
    cases stillAsleep
  case notLate =>
    by_contra tooLate
    rw [not_or, BitVec.lt_def, freq] at tooLate
    have timeBound := (sys.wakeupTime seconds).isLt
    -- The moment at which the counter is 0 again.
    have reached : pitFreq.toNat * seconds.toNat +
        (2 ^ 32 - (sys.wakeupTime seconds).toNat) ≤ ticks events := by
      rw [freq]
      omega
    rcases exists_moment events reached with ⟨past, rest, isSplit, isCount⟩
    have now := timed past rest isSplit
    have isAwake := mt now.1.mp (by omega)
    have isZero := now.2 isAwake
    rw [remaining_eq_zero, pitTicks_late isCount, freq] at isZero
    omega

/--
`sys_sleep` sleeps for as long as it is asked for and returns 0 if and only if it is asked for a
second or more, its channel is its own, and the process is not scheduled too late.
-/
theorem timed_iff (sys : Sys) (p : Kern.Slot) (seconds : Kern.Word) (events : List Event)
    (spares : Spares p events) (small : pitFreq.toNat * seconds.toNat < 2 ^ 31) :
    Timed sys p seconds events ↔ OnTime sys seconds events :=
  ⟨fun timed => timed.onTime spares small, fun onTime => onTime.timed spares small⟩

/-- No process sleeps, and the counter is at 7. -/
def quietSys : Sys := ⟨fun _ => ⟨.null, 0⟩, 7, 0, 0⟩

theorem timed_iff_second : Spares 0 (List.replicate 20 .tick) ∧
    (Timed quietSys 0 1 (List.replicate 20 .tick) ↔
      OnTime quietSys 1 (List.replicate 20 .tick)) := by
  have spares : Spares 0 (List.replicate 20 .tick) := by
    intro q entry isIn
    cases List.eq_of_mem_replicate isIn
  exact ⟨spares, timed_iff quietSys 0 1 _ spares (by decide)⟩

/-- A sleep of no seconds lasts until the counter comes round. -/
theorem not_timed_all : ¬∀ (sys : Sys) (p : Kern.Slot) (seconds : Kern.Word) (events : List Event),
    Spares p events → pitFreq.toNat * seconds.toNat < 2 ^ 31 → Timed sys p seconds events := by
  intro all
  have atStart := (all quietSys 0 0 [] nofun (by decide) [] [] rfl).1.mp rfl
  exact absurd atStart (by decide)

end

end Osix.Clock
