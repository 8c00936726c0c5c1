import Osix.Lib.Pool

/-!
# A turn at a time

The pool of processes with whole turns as its steps: a process that starts a call or resumes
runs until its program waits or returns. No other process and no event of the environment comes
in between, so that nothing is lost (`logged_of_pool`), and the value that a program returns
can be seen (`Logged`).
-/

namespace Program

open Transition

/-- What a turn comes to; a program that waits performs the same operation again. -/
inductive Turn (Op : Type) (Reply : Op → Type) (α State Stop : Type) where
  | returned (value : α) (state : State)
  | waits (rest : Prog Op Reply α) (state : State)
  | stopped (why : Stop)

variable {Pid Op : Type} {Reply : Op → Type} {α β State Stop Call Env : Type}

/-- Runs a program until it waits. -/
def turn (handler : Handler Op Reply State Stop) :
    Prog Op Reply α → State → Turn Op Reply α State Stop
  | .pure value, state => .returned value state
  | .op operation next, state =>
      match handler operation state with
      | .done reply state' => turn handler (next reply) state'
      | .wait state' => .waits (.op operation next) state'
      | .stop why => .stopped why

theorem turn_bind (handler : Handler Op Reply State Stop) (prog : Prog Op Reply α)
    (next : α → Prog Op Reply β) (state : State) :
    turn handler (prog >>= next) state =
      match turn handler prog state with
      | .returned value state' => turn handler (next value) state'
      | .waits rest state' => .waits (rest >>= next) state'
      | .stopped why => .stopped why := by
  simp only [Prog.bind_eq]
  induction prog generalizing state with
  | pure value => rfl
  | op operation rest ih =>
      simp only [Prog.bind, turn]
      cases handler operation state with
      | done reply middle => exact ih reply middle
      | wait middle => rfl
      | stop why => rfl

theorem turn_perform (handler : Handler Op Reply State Stop) (operation : Op)
    (next : Reply operation → Prog Op Reply β) (state : State) :
    turn handler (.perform operation >>= next) state =
      match handler operation state with
      | .done reply state' => turn handler (next reply) state'
      | .wait state' => .waits (.perform operation >>= next) state'
      | .stop why => .stopped why := by
  rw [turn_bind]
  simp only [Prog.perform, turn]
  cases handler operation state <;> rfl

/-- The processes between turns. -/
structure Turns (Pid Op : Type) (Reply : Op → Type) (α State : Type) where
  shared : State
  thread : Pid → Option (Prog Op Reply α)

namespace Turns

variable [DecidableEq Pid]

/-- Idle processes. -/
def idle (state : State) : Turns Pid Op Reply α State := ⟨state, fun _ => none⟩

/-- After a turn of `pid`, with the value that its program has returned. -/
def settle (sys : System Pid Op Reply α State Stop Call Env)
    (thread : Pid → Option (Prog Op Reply α)) (pid : Pid) :
    Turn Op Reply α State Stop → Option (Turns Pid Op Reply α State × Option α)
  | .returned value state =>
      some (⟨sys.ends pid state, Function.update thread pid none⟩, some value)
  | .waits rest state => some (⟨state, Function.update thread pid (some rest)⟩, none)
  | .stopped _ => none

/-- One turn, or one event of the environment. -/
def step (sys : System Pid Op Reply α State Stop Call Env) (turns : Turns Pid Op Reply α State) :
    PoolAct Pid Call Env → Option (Turns Pid Op Reply α State × Option α)
  | .start pid call =>
      if (turns.thread pid).isNone && sys.ready turns.shared pid then
        settle sys turns.thread pid (turn (sys.handler pid) (sys.code pid call) turns.shared)
      else none
  | .resume pid =>
      match turns.thread pid with
      | some prog => settle sys turns.thread pid (turn (sys.handler pid) prog turns.shared)
      | none => none
  | .env event => some ({ turns with shared := sys.env event turns.shared }, none)
  | .go => none

/-- The runs of acts that satisfy `ok`, with the values that programs have returned. -/
inductive Logged (sys : System Pid Op Reply α State Stop Call Env)
    (ok : State → PoolAct Pid Call Env → Prop) (first : Turns Pid Op Reply α State) :
    List (PoolAct Pid Call Env × Option α) → Turns Pid Op Reply α State → Prop where
  | start : Logged sys ok first [] first
  | next {log : List (PoolAct Pid Call Env × Option α)} {turns turns' : Turns Pid Op Reply α State}
      {act : PoolAct Pid Call Env} {answer : Option α} : Logged sys ok first log turns →
      ok turns.shared act → turns.step sys act = some (turns', answer) →
      Logged sys ok first (log ++ [(act, answer)]) turns'

variable {sys : System Pid Op Reply α State Stop Call Env}
  {ok : State → PoolAct Pid Call Env → Prop}

theorem settle_update (thread : Pid → Option (Prog Op Reply α)) (pid : Pid)
    (prog : Option (Prog Op Reply α)) (result : Turn Op Reply α State Stop) :
    settle sys (Function.update thread pid prog) pid result = settle sys thread pid result := by
  cases result <;> simp [settle]

/-- A pool that has stopped does not go on. -/
theorem not_stopped {pool pool' : Pool Pid Op Reply α State Stop} {act : PoolAct Pid Call Env}
    (stepped : pool.step sys act = some pool') : pool.stopped = none := by
  cases act with
  | go =>
      simp only [Pool.step] at stepped
      split at stepped
      · assumption
      · cases stepped
  | _ =>
      simp only [Pool.step] at stepped
      split at stepped
      · rename_i possible
        simp only [Bool.and_eq_true, Pool.quiet_iff] at possible
        simp only [possible]
      · cases stepped

/-- A state of the pool that belongs to a run of whole turns. -/
def Follows (sys : System Pid Op Reply α State Stop Call Env)
    (ok : State → PoolAct Pid Call Env → Prop) (first : Turns Pid Op Reply α State)
    (pool : Pool Pid Op Reply α State Stop) : Prop :=
  match pool.running with
  | none => ∃ log, Logged sys ok first log ⟨pool.shared, pool.thread⟩
  | some pid => ∃ log turns act prog, Logged sys ok first log turns ∧ ok turns.shared act ∧
      pool.thread pid = some prog ∧
      turns.step sys act =
        settle sys pool.thread pid (turn (sys.handler pid) prog pool.shared)

theorem follows_goStep {first : Turns Pid Op Reply α State}
    {pool pool' : Pool Pid Op Reply α State Stop} {pid : Pid} (running : pool.running = some pid)
    (notStopped : pool'.stopped = none) (follows : Follows sys ok first pool)
    (stepped : pool.goStep sys pid = some pool') : Follows sys ok first pool' := by
  unfold Follows at follows
  rw [running] at follows
  rcases follows with ⟨log, turns, act, prog, logged, allowed, isThread, isStep⟩
  unfold Pool.goStep at stepped
  rw [isThread] at stepped
  cases prog with
  | pure value =>
      cases stepped
      exact ⟨_, logged.next allowed isStep⟩
  | op operation rest =>
      cases happened : sys.handler pid operation pool.shared with
      | done reply state =>
          simp only [happened] at stepped
          cases stepped
          unfold Follows
          dsimp only
          rw [running]
          refine ⟨log, turns, act, rest reply, logged, allowed, Function.update_self .., ?_⟩
          rw [isStep, settle_update]
          simp only [turn, happened]
      | wait state =>
          simp only [happened] at stepped
          cases stepped
          simp only [turn, happened, settle, ← isThread, Function.update_eq_self] at isStep
          exact ⟨_, logged.next allowed isStep⟩
      | stop why =>
          simp only [happened] at stepped
          cases stepped
          cases notStopped

theorem follows_step {first : Turns Pid Op Reply α State}
    {pool pool' : Pool Pid Op Reply α State Stop} {act : PoolAct Pid Call Env}
    (allowed : ok pool.shared act)
    (notStopped : pool'.stopped = none) (follows : Follows sys ok first pool)
    (stepped : pool.step sys act = some pool') : Follows sys ok first pool' := by
  cases act with
  | start pid call =>
      simp only [Pool.step] at stepped
      split at stepped
      · rename_i possible
        rw [Bool.and_eq_true, Bool.and_eq_true, Pool.quiet_iff] at possible
        rcases possible with ⟨⟨⟨_, idle⟩, noThread⟩, ready⟩
        unfold Follows at follows
        rw [idle] at follows
        rcases follows with ⟨log, logged⟩
        cases stepped
        refine ⟨log, _, .start pid call, sys.code pid call, logged, allowed,
          Function.update_self .., ?_⟩
        rw [settle_update, step, if_pos (by rw [noThread, ready]; rfl)]
      · cases stepped
  | resume pid =>
      simp only [Pool.step] at stepped
      split at stepped
      · rename_i possible
        rw [Bool.and_eq_true, Pool.quiet_iff, Option.isSome_iff_exists] at possible
        rcases possible with ⟨⟨_, idle⟩, prog, isThread⟩
        unfold Follows at follows
        rw [idle] at follows
        rcases follows with ⟨log, logged⟩
        cases stepped
        refine ⟨log, _, .resume pid, prog, logged, allowed, isThread, ?_⟩
        simp only [step, isThread]
      · cases stepped
  | env event =>
      simp only [Pool.step] at stepped
      split at stepped
      · rename_i quiet
        rw [Pool.quiet_iff] at quiet
        unfold Follows at follows
        rw [quiet.2] at follows
        rcases follows with ⟨log, logged⟩
        cases stepped
        unfold Follows
        dsimp only
        rw [quiet.2]
        exact ⟨_, logged.next allowed rfl⟩
      · cases stepped
  | go =>
      simp only [Pool.step] at stepped
      split at stepped
      · rename_i pid _ running
        exact follows_goStep running notStopped follows stepped
      · cases stepped

theorem follows_of_reach {state : State} {pool : Pool Pid Op Reply α State Stop}
    (reach : Reach (Pool.step sys) (fun pool act => ok pool.shared act) (Pool.idle state) pool)
    (notStopped : pool.stopped = none) : Follows sys ok (idle state) pool := by
  induction reach with
  | start => exact ⟨[], .start⟩
  | next _ allowed stepped ih =>
      exact follows_step allowed notStopped (ih (not_stopped stepped)) stepped

/-- Between turns the pool is in a state that whole turns reach. -/
theorem logged_of_pool {state : State} {pool : Pool Pid Op Reply α State Stop}
    (reach : Reach (Pool.step sys) (fun pool act => ok pool.shared act) (Pool.idle state) pool)
    (quiet : pool.quiet = true) :
    ∃ log, Logged sys ok (idle state) log ⟨pool.shared, pool.thread⟩ := by
  rw [Pool.quiet_iff] at quiet
  have follows := follows_of_reach reach quiet.1
  unfold Follows at follows
  rwa [quiet.2] at follows

end Turns

end Program
