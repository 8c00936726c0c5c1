import Osix.Lib.Program
import Osix.Lib.Transition
import Mathlib.Logic.Function.Basic

/-!
# Processes that take turns

A pool of processes runs programs on a shared state, one process at a time. The running
process goes on until an operation has to wait or the program ends; only then another
process may start a call or resume, and only then the environment acts. A process that
waited performs the same operation again when it resumes.

`Rule` is the proof rule for properties of all interleavings: each process keeps to a
discipline on its own part of the shared state (`view`), and an invariant of the shared
state is kept by every single operation that follows the discipline. `Rule.reach` then
gives the invariant in every reachable state.
-/

namespace Program

open Transition

/-- What the processes run on. -/
structure System (Pid Op : Type) (Reply : Op → Type) (α State Stop Call Env : Type) where
  handler : Pid → Handler Op Reply State Stop
  code : Pid → Call → Prog Op Reply α
  ready : State → Pid → Bool
  ends : Pid → State → State
  env : Env → State → State

/-- The processes: at most one of them runs, the others are idle or wait. -/
structure Pool (Pid Op : Type) (Reply : Op → Type) (α State Stop : Type) where
  shared : State
  thread : Pid → Option (Prog Op Reply α)
  running : Option Pid
  stopped : Option Stop

/-- `go` is one operation of the running process, or the end of its program. -/
inductive PoolAct (Pid Call Env : Type) where
  | start (pid : Pid) (call : Call)
  | resume (pid : Pid)
  | go
  | env (event : Env)

variable {Pid Op : Type} {Reply : Op → Type} {α State Stop Call Env : Type}

namespace Pool

/-- The running process and the operation it performs next. -/
def next (pool : Pool Pid Op Reply α State Stop) : Option (Pid × Op) :=
  match pool.running with
  | none => none
  | some pid =>
      match pool.thread pid with
      | some (.op operation _) => some (pid, operation)
      | _ => none

/-- The pool has not stopped and no process runs. -/
def quiet (pool : Pool Pid Op Reply α State Stop) : Bool :=
  pool.stopped.isNone && pool.running.isNone

theorem quiet_iff (pool : Pool Pid Op Reply α State Stop) :
    pool.quiet = true ↔ pool.stopped = none ∧ pool.running = none := by
  simp [quiet]

variable [DecidableEq Pid]

/-- A pool of idle processes. -/
def idle (state : State) : Pool Pid Op Reply α State Stop where
  shared := state
  thread := fun _ => none
  running := none
  stopped := none

/-- One operation of process `pid`, or the end of its program. -/
def goStep (sys : System Pid Op Reply α State Stop Call Env)
    (pool : Pool Pid Op Reply α State Stop) (pid : Pid) :
    Option (Pool Pid Op Reply α State Stop) :=
  match pool.thread pid with
  | none => none
  | some (.pure _) =>
      some { pool with
        shared := sys.ends pid pool.shared
        thread := Function.update pool.thread pid none
        running := none }
  | some (.op operation rest) =>
      match sys.handler pid operation pool.shared with
      | .done reply state =>
          some { pool with
            shared := state
            thread := Function.update pool.thread pid (some (rest reply)) }
      | .wait state => some { pool with shared := state, running := none }
      | .stop why => some { pool with stopped := some why }

def step (sys : System Pid Op Reply α State Stop Call Env)
    (pool : Pool Pid Op Reply α State Stop) :
    PoolAct Pid Call Env → Option (Pool Pid Op Reply α State Stop)
  | .start pid call =>
      if pool.quiet && (pool.thread pid).isNone && sys.ready pool.shared pid then
        some { pool with
          thread := Function.update pool.thread pid (some (sys.code pid call))
          running := some pid }
      else none
  | .resume pid =>
      if pool.quiet && (pool.thread pid).isSome then some { pool with running := some pid }
      else none
  | .env event =>
      if pool.quiet then some { pool with shared := sys.env event pool.shared } else none
  | .go =>
      match pool.stopped, pool.running with
      | none, some pid => goStep sys pool pid
      | _, _ => none

end Pool

/--
A discipline and an invariant. `view` is the part of the shared state that belongs to a
process, `spec` says how its operations may use it, and `Inv` is the invariant, told which
process runs.
-/
structure Rule [DecidableEq Pid] (sys : System Pid Op Reply α State Stop Call Env)
    (ok : Pool Pid Op Reply α State Stop → PoolAct Pid Call Env → Prop) where
  Local : Type
  spec : Pid → Spec Op Reply Local
  outside : Local
  Final : Local → Prop
  view : State → Pid → Local
  Inv : State → Option Pid → Prop
  Allowed : Stop → Prop
  codes : ∀ pid call, wp (spec pid) (sys.code pid call) (fun _ own => Final own) outside
  resume : ∀ {state pid}, Inv state none → Inv state (some pid)
  finish : ∀ {state pid}, Final (view state pid) → Inv state (some pid) →
    Inv (sys.ends pid state) none ∧ view (sys.ends pid state) pid = outside ∧
      ∀ other, other ≠ pid → view (sys.ends pid state) other = view state other
  env : ∀ {state event}, Inv state none →
    Inv (sys.env event state) none ∧ ∀ other, view (sys.env event state) other = view state other
  done : ∀ {pool : Pool Pid Op Reply α State Stop} {pid operation reply state post},
    ok pool .go → pool.next = some (pid, operation) → Inv pool.shared (some pid) →
    (spec pid).before operation post (view pool.shared pid) →
    sys.handler pid operation pool.shared = .done reply state →
    post reply (view state pid) ∧ Inv state (some pid) ∧
      ∀ other, other ≠ pid → view state other = view pool.shared other
  wait : ∀ {pool : Pool Pid Op Reply α State Stop} {pid operation state post},
    ok pool .go → pool.next = some (pid, operation) → Inv pool.shared (some pid) →
    (spec pid).before operation post (view pool.shared pid) →
    sys.handler pid operation pool.shared = .wait state →
    Inv state none ∧ ∀ other, view state other = view pool.shared other
  stop : ∀ {pool : Pool Pid Op Reply α State Stop} {pid operation why post},
    ok pool .go → pool.next = some (pid, operation) → Inv pool.shared (some pid) →
    (spec pid).before operation post (view pool.shared pid) →
    sys.handler pid operation pool.shared = .stop why → Allowed why

namespace Rule

variable [DecidableEq Pid] {sys : System Pid Op Reply α State Stop Call Env}
  {ok : Pool Pid Op Reply α State Stop → PoolAct Pid Call Env → Prop}

/-- What remains of a program keeps to the discipline; outside of calls nothing is held. -/
def Disciplined (rule : Rule sys ok) (thread : Pid → Option (Prog Op Reply α)) (state : State)
    (pid : Pid) : Prop :=
  match thread pid with
  | none => rule.view state pid = rule.outside
  | some prog => wp (rule.spec pid) prog (fun _ own => rule.Final own) (rule.view state pid)

/-- The states of the pool that the rule allows. -/
def Good (rule : Rule sys ok) (pool : Pool Pid Op Reply α State Stop) : Prop :=
  match pool.stopped with
  | some why => rule.Allowed why
  | none =>
      rule.Inv pool.shared pool.running ∧
        ∀ pid, rule.Disciplined pool.thread pool.shared pid

theorem Disciplined.of_view {rule : Rule sys ok} {thread : Pid → Option (Prog Op Reply α)}
    {state state' : State} {pid : Pid} (disciplined : rule.Disciplined thread state pid)
    (same : rule.view state' pid = rule.view state pid) :
    rule.Disciplined thread state' pid := by
  unfold Disciplined at disciplined ⊢
  rw [same]
  exact disciplined

theorem Disciplined.update_of_ne {rule : Rule sys ok}
    {thread : Pid → Option (Prog Op Reply α)} {state : State} {pid other : Pid}
    (disciplined : rule.Disciplined thread state other) (ne : other ≠ pid)
    (prog : Option (Prog Op Reply α)) :
    rule.Disciplined (Function.update thread pid prog) state other := by
  unfold Disciplined at disciplined ⊢
  rwa [Function.update_of_ne ne]

theorem Good.of_quiet {rule : Rule sys ok} {pool : Pool Pid Op Reply α State Stop}
    (good : rule.Good pool) (quiet : pool.quiet = true) :
    rule.Inv pool.shared none ∧ ∀ pid, rule.Disciplined pool.thread pool.shared pid := by
  rw [Pool.quiet_iff] at quiet
  unfold Good at good
  rwa [quiet.1, quiet.2] at good

/-- The next operation of the running process keeps to the discipline. -/
theorem Good.next {rule : Rule sys ok} {pool : Pool Pid Op Reply α State Stop} {pid : Pid}
    {operation : Op} (good : rule.Good pool) (notStopped : pool.stopped = none)
    (isNext : pool.next = some (pid, operation)) :
    rule.Inv pool.shared (some pid) ∧
      ∃ post, (rule.spec pid).before operation post (rule.view pool.shared pid) := by
  unfold Good at good
  rw [notStopped] at good
  rcases good with ⟨inv, disciplined⟩
  unfold Pool.next at isNext
  split at isNext
  · cases isNext
  rename_i runner running
  split at isNext <;> cases isNext
  rename_i rest isThread
  rw [running] at inv
  have own := disciplined pid
  unfold Disciplined at own
  rw [isThread] at own
  exact ⟨inv, _, own⟩

theorem good_of_inv {rule : Rule sys ok} {pool : Pool Pid Op Reply α State Stop}
    (notStopped : pool.stopped = none) (inv : rule.Inv pool.shared pool.running)
    (disciplined : ∀ pid, rule.Disciplined pool.thread pool.shared pid) : rule.Good pool := by
  unfold Good
  rw [notStopped]
  exact ⟨inv, disciplined⟩

theorem good_start (rule : Rule sys ok) {pool pool' : Pool Pid Op Reply α State Stop}
    {pid : Pid} {call : Call} (good : rule.Good pool)
    (stepped : pool.step sys (.start pid call) = some pool') : rule.Good pool' := by
  simp only [Pool.step] at stepped
  split at stepped
  · rename_i possible
    rw [Bool.and_eq_true, Bool.and_eq_true, Option.isNone_iff_eq_none] at possible
    rcases possible with ⟨⟨quiet, noThread⟩, -⟩
    cases stepped
    rcases good.of_quiet quiet with ⟨inv, disciplined⟩
    refine good_of_inv (pool.quiet_iff.mp quiet).1 (rule.resume inv) fun other => ?_
    rcases eq_or_ne other pid with rfl | ne
    · have own := disciplined other
      unfold Disciplined at own ⊢
      rw [noThread] at own
      dsimp only
      rw [Function.update_self, own]
      exact rule.codes other call
    · exact (disciplined other).update_of_ne ne _
  · cases stepped

/-- The end of a program and each outcome of an operation keep the pool good. -/
theorem good_goStep (rule : Rule sys ok) {pool pool' : Pool Pid Op Reply α State Stop}
    {pid : Pid} (notStopped : pool.stopped = none) (running : pool.running = some pid)
    (good : rule.Good pool) (allowed : ok pool .go)
    (stepped : pool.goStep sys pid = some pool') : rule.Good pool' := by
  unfold Good at good
  rw [notStopped, running] at good
  rcases good with ⟨inv, disciplined⟩
  have own := disciplined pid
  unfold Disciplined at own
  unfold Pool.goStep at stepped
  cases isThread : pool.thread pid with
  | none =>
      rw [isThread] at stepped
      cases stepped
  | some prog =>
      rw [isThread] at stepped own
      cases prog with
      | pure value =>
          cases stepped
          rcases rule.finish own inv with ⟨inv', outside, same⟩
          refine good_of_inv notStopped inv' fun other => ?_
          rcases eq_or_ne other pid with rfl | ne
          · unfold Disciplined
            dsimp only
            rwa [Function.update_self]
          · exact ((disciplined other).of_view (same other ne)).update_of_ne ne _
      | op operation rest =>
          have isNext : pool.next = some (pid, operation) := by
            simp [Pool.next, running, isThread]
          cases happened : sys.handler pid operation pool.shared with
          | done reply state =>
              simp only [happened] at stepped
              cases stepped
              rcases rule.done allowed isNext inv own happened with ⟨ownRest, inv', same⟩
              refine good_of_inv notStopped (by rwa [running]) fun other => ?_
              rcases eq_or_ne other pid with rfl | ne
              · unfold Disciplined
                dsimp only
                rw [Function.update_self]
                exact ownRest
              · exact ((disciplined other).of_view (same other ne)).update_of_ne ne _
          | wait state =>
              simp only [happened] at stepped
              cases stepped
              rcases rule.wait allowed isNext inv own happened with ⟨inv', same⟩
              exact good_of_inv notStopped inv' fun other => (disciplined other).of_view (same other)
          | stop why =>
              simp only [happened] at stepped
              cases stepped
              exact rule.stop allowed isNext inv own happened

theorem good_step (rule : Rule sys ok) {pool pool' : Pool Pid Op Reply α State Stop}
    {act : PoolAct Pid Call Env} (good : rule.Good pool) (allowed : ok pool act)
    (stepped : pool.step sys act = some pool') : rule.Good pool' := by
  cases act with
  | start pid call => exact rule.good_start good stepped
  | go =>
      simp only [Pool.step] at stepped
      split at stepped
      · rename_i pid notStopped running
        exact rule.good_goStep notStopped running good allowed stepped
      · cases stepped
  | resume pid =>
      simp only [Pool.step] at stepped
      split at stepped
      · rename_i possible
        rw [Bool.and_eq_true] at possible
        cases stepped
        rcases good.of_quiet possible.1 with ⟨inv, disciplined⟩
        exact good_of_inv (pool.quiet_iff.mp possible.1).1 (rule.resume inv) disciplined
      · cases stepped
  | env event =>
      simp only [Pool.step] at stepped
      split at stepped
      · rename_i quiet
        cases stepped
        rcases good.of_quiet quiet with ⟨inv, disciplined⟩
        rcases rule.env inv with ⟨inv', same⟩
        have isQuiet := pool.quiet_iff.mp quiet
        refine good_of_inv isQuiet.1 ?_ fun other => (disciplined other).of_view (same other)
        dsimp only
        rwa [isQuiet.2]
      · cases stepped

/-- Every state that the pool reaches from idle processes is one that the rule allows. -/
theorem reach (rule : Rule sys ok) {state : State} {pool : Pool Pid Op Reply α State Stop}
    (inv : rule.Inv state none) (idle : ∀ pid, rule.view state pid = rule.outside)
    (reached : Reach (Pool.step sys) ok (Pool.idle state) pool) : rule.Good pool :=
  reached.invariant ⟨inv, idle⟩ fun good allowed stepped => rule.good_step good allowed stepped

end Rule

end Program
