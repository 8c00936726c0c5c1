import Osix.Lib.Turns
import Mathlib.Algebra.BigOperators.Fin
import Mathlib.Algebra.BigOperators.Group.Finset.Basic
import Mathlib.Tactic.Abel

/-!
# Accounts of processes that take turns

A quantity of the shared state, its `balance`, is to be zero whenever no process is in the
middle of something. Each process has an account of what its own operations have added to the
balance since its call began. The balance is then the sum of the accounts, and it is zero if
every call ends with an empty account.

`spec` follows the account of one process through its program. Where the program may wait, the
others can have changed the state as far as `Kept` allows. `Tracked` remembers the call that a
process is in and the state in which it began, and `Ledger.reach` is the rule for all
interleavings.
-/

namespace Program

open Transition

variable {Pid Op : Type} {Reply : Op → Type} {α β State Stop Call Env View M : Type}

/-- What a process sees of the state, and what it has added to the balance. -/
structure Account (View M : Type) where
  view : View
  owed : M

/--
How a system is seen by its accounts. `Kept q` relates the views before and after what others
than `q` do, `switches` says which operations may wait, and `does` what an operation can do to
the view.
-/
structure Ledger (sys : System Pid Op Reply α State Stop Call Env) (View M : Type)
    [AddCommGroup M] where
  look : State → View
  balance : View → M
  Kept : Pid → View → View → Prop
  switches : Op → Bool
  does : (operation : Op) → View → Reply operation → View → Prop
  kept_refl : ∀ pid view, Kept pid view view
  kept_trans : ∀ {pid view view' view''},
    Kept pid view view' → Kept pid view' view'' → Kept pid view view''
  done : ∀ {pid operation state reply state'},
    sys.handler pid operation state = .done reply state' →
      does operation (look state) reply (look state')
  wait : ∀ {pid operation state state'}, sys.handler pid operation state = .wait state' →
    switches operation = true ∧ balance (look state') = balance (look state) ∧
      ∀ other, Kept other (look state) (look state')
  ends : ∀ pid state, look (sys.ends pid state) = look state
  env : ∀ event state, balance (look (sys.env event state)) = balance (look state) ∧
    ∀ pid, Kept pid (look state) (look (sys.env event state))

namespace Ledger

variable [AddCommGroup M] {sys : System Pid Op Reply α State Stop Call Env}

/-- After an operation of `pid`, which must keep what belongs to the others. -/
def After (ledger : Ledger sys View M) (pid : Pid) (operation : Op) (view : View) (owed : M)
    (post : Reply operation → Account View M → Prop) : Prop :=
  ∀ reply view', ledger.does operation view reply view' →
    (∀ other, other ≠ pid → ledger.Kept other view view') ∧
      post reply ⟨view', owed + (ledger.balance view' - ledger.balance view)⟩

/-- The account of a process; at a switch it must satisfy `owes`. -/
def spec (ledger : Ledger sys View M) (owes : M → Prop) (pid : Pid) :
    Spec Op Reply (Account View M) where
  before operation post account :=
    if ledger.switches operation = true then
      owes account.owed ∧ ∀ view, ledger.Kept pid account.view view →
        ledger.After pid operation view account.owed post
    else ledger.After pid operation account.view account.owed post
  mono {operation post post' account} weaker holds := by
    split at holds
    · rename_i isSwitch
      rw [if_pos isSwitch]
      refine ⟨holds.1, fun view kept reply view' isDone => ?_⟩
      exact (holds.2 view kept reply view' isDone).imp_right (weaker _ _)
    · rename_i notSwitch
      rw [if_neg notSwitch]
      intro reply view' isDone
      exact (holds reply view' isDone).imp_right (weaker _ _)

theorem before_of_switch {ledger : Ledger sys View M} {owes : M → Prop} {pid : Pid}
    {operation : Op} {post : Reply operation → Account View M → Prop} {view : View} {owed : M}
    (isSwitch : ledger.switches operation = true) :
    (ledger.spec owes pid).before operation post ⟨view, owed⟩ ↔
      owes owed ∧ ∀ view', ledger.Kept pid view view' →
        ledger.After pid operation view' owed post := by
  simp only [spec, if_pos isSwitch]

theorem before_of_not_switch {ledger : Ledger sys View M} {owes : M → Prop} {pid : Pid}
    {operation : Op} {post : Reply operation → Account View M → Prop} {view : View} {owed : M}
    (notSwitch : ledger.switches operation = false) :
    (ledger.spec owes pid).before operation post ⟨view, owed⟩ ↔
      ledger.After pid operation view owed post := by
  simp only [spec, notSwitch, Bool.false_eq_true, if_false]

/--
The account of a process that is judged under an assumption about what remains of its program
and the view. The assumption is only made where the program does not wait.
-/
def Settles (ledger : Ledger sys View M) (assume : Prog Op Reply β → View → Prop)
    (owes : M → Prop) (pid : Pid) :
    Prog Op Reply β → (β → Account View M → Prop) → Account View M → Prop
  | .pure value, post, account => post value account
  | .op operation next, post, account =>
      (ledger.switches operation = false → assume (.op operation next) account.view) →
        (ledger.spec owes pid).before operation
          (fun reply account' => ledger.Settles assume owes pid (next reply) post account') account

section

variable {ledger : Ledger sys View M} {owes : M → Prop} {pid : Pid} {account : Account View M}

theorem Settles.of_wp {assume : Prog Op Reply β → View → Prop} {prog : Prog Op Reply β}
    {post : β → Account View M → Prop} (holds : wp (ledger.spec owes pid) prog post account) :
    ledger.Settles assume owes pid prog post account := by
  induction prog generalizing account with
  | pure value => exact holds
  | op operation next ih =>
      intro _
      exact (ledger.spec owes pid).mono (fun reply account' => ih reply) holds

theorem Settles.assuming {assume : Prog Op Reply β → View → Prop} {operation : Op}
    {next : Reply operation → Prog Op Reply β} {post : β → Account View M → Prop}
    (notSwitch : ledger.switches operation = false)
    (holds : assume (.op operation next) account.view →
      wp (ledger.spec owes pid) (.op operation next) post account) :
    ledger.Settles assume owes pid (.op operation next) post account := by
  intro assumed
  exact (ledger.spec owes pid).mono (fun reply account' => Settles.of_wp)
    (holds (assumed notSwitch))

/-- The assumption is only needed at the end of a sequence. -/
theorem Settles.bind {γ : Type} {assume : Prog Op Reply β → View → Prop}
    {prog : Prog Op Reply γ} {next : γ → Prog Op Reply β} {post : β → Account View M → Prop}
    (holds : wp (ledger.spec owes pid) prog
      (fun value account' => ledger.Settles assume owes pid (next value) post account') account) :
    ledger.Settles assume owes pid (prog >>= next) post account := by
  induction prog generalizing account with
  | pure value => exact holds
  | op operation rest ih =>
      intro _
      exact (ledger.spec owes pid).mono (fun reply account' => ih reply) holds

/-- A process that waits may see another view when it goes on. -/
theorem Settles.stable {assume : Prog Op Reply β → View → Prop} {operation : Op}
    {next : Reply operation → Prog Op Reply β} {post : β → Account View M → Prop}
    (isSwitch : ledger.switches operation = true) {view view' : View} {owed : M}
    (kept : ledger.Kept pid view view')
    (settles : ledger.Settles assume owes pid (.op operation next) post ⟨view, owed⟩) :
    ledger.Settles assume owes pid (.op operation next) post ⟨view', owed⟩ := by
  intro _
  have before := settles fun notSwitch => absurd (isSwitch.symm.trans notSwitch) nofun
  rw [before_of_switch isSwitch] at before ⊢
  exact ⟨before.1, fun view'' kept' => before.2 view'' (ledger.kept_trans kept kept')⟩

end

end Ledger

/-! ## The calls that the processes are in -/

/-- A pool with the last call of every process and the state in which it began. -/
structure Tracked (Pid Op : Type) (Reply : Op → Type) (α State Stop Call : Type) where
  pool : Pool Pid Op Reply α State Stop
  last : Pid → Option (Call × State)

namespace Tracked

variable [DecidableEq Pid]

def idle (state : State) : Tracked Pid Op Reply α State Stop Call := ⟨.idle state, fun _ => none⟩

/-- The calls after an act in some state. -/
def remember (state : State) (last : Pid → Option (Call × State)) :
    PoolAct Pid Call Env → Pid → Option (Call × State)
  | .start pid call => Function.update last pid (some (call, state))
  | .resume _ => last
  | .go => last
  | .env _ => last

def step (sys : System Pid Op Reply α State Stop Call Env)
    (tracked : Tracked Pid Op Reply α State Stop Call) (act : PoolAct Pid Call Env) :
    Option (Tracked Pid Op Reply α State Stop Call) :=
  (tracked.pool.step sys act).map fun pool =>
    ⟨pool, remember tracked.pool.shared tracked.last act⟩

/-- A process makes its call in a state in which it is ready. -/
theorem ready_of_last {sys : System Pid Op Reply α State Stop Call Env} {state : State}
    {ok : Tracked Pid Op Reply α State Stop Call → PoolAct Pid Call Env → Prop}
    {tracked : Tracked Pid Op Reply α State Stop Call}
    (reach : Reach (step sys) ok (idle state) tracked) {pid : Pid} {call : Call} {before : State}
    (isLast : tracked.last pid = some (call, before)) : sys.ready before pid = true := by
  induction reach with
  | start => cases isLast
  | next _ _ stepped ih =>
      rename_i earlier _ act _ _
      rw [step, Option.map_eq_some_iff] at stepped
      rcases stepped with ⟨pool, stepped, rfl⟩
      cases act with
      | start caller call' =>
          simp only [remember] at isLast
          rcases eq_or_ne pid caller with rfl | isOther
          · rw [Function.update_self] at isLast
            cases isLast
            simp only [Pool.step] at stepped
            split at stepped
            · rename_i possible
              rw [Bool.and_eq_true] at possible
              exact possible.2
            · cases stepped
          · rw [Function.update_of_ne isOther] at isLast
            exact ih isLast
      | resume | go | env => exact ih isLast

end Tracked

/-! ## All interleavings -/

namespace Ledger

variable [AddCommGroup M] [DecidableEq Pid] [Fintype Pid]
  {sys : System Pid Op Reply α State Stop Call Env}

/--
The terms on which calls are made: what a process may owe while its call waits, what holds when
the call returns, and what may be assumed on the way.
-/
structure Terms (ledger : Ledger sys View M) where
  owes : Call → M → Prop
  Final : Pid → Call → View → α → Account View M → Prop
  assume : Pid → Prog Op Reply α → View → Prop
  empty : ∀ {pid call view value account}, Final pid call view value account → account.owed = 0
  codes : ∀ {pid call state}, sys.ready state pid = true →
    ledger.Settles (assume pid) (owes call) pid (sys.code pid call)
      (Final pid call (ledger.look state)) ⟨ledger.look state, 0⟩

/-- The account of a process that is in a call. -/
def Terms.Settled {ledger : Ledger sys View M} (terms : ledger.Terms)
    (last : Pid → Option (Call × State)) (pid : Pid) (prog : Prog Op Reply α)
    (account : Account View M) : Prop :=
  ∃ call state, last pid = some (call, state) ∧
    ledger.Settles (terms.assume pid) (terms.owes call) pid prog
      (terms.Final pid call (ledger.look state)) account

/-- The account of a process that does not run. -/
def Terms.Rests {ledger : Ledger sys View M} (terms : ledger.Terms)
    (last : Pid → Option (Call × State)) (view : View) (pid : Pid) :
    Option (Prog Op Reply α) → M → Prop
  | none, owed => owed = 0
  | some (.pure _), _ => False
  | some (.op operation next), owed =>
      ledger.switches operation = true ∧
        terms.Settled last pid (.op operation next) ⟨view, owed⟩

/-- The balance is the sum of the accounts. -/
structure Terms.Good {ledger : Ledger sys View M} (terms : ledger.Terms)
    (tracked : Tracked Pid Op Reply α State Stop Call) (owed : Pid → M) : Prop where
  sum : ledger.balance (ledger.look tracked.pool.shared) = ∑ pid, owed pid
  rests : ∀ pid, tracked.pool.running ≠ some pid →
    terms.Rests tracked.last (ledger.look tracked.pool.shared) pid (tracked.pool.thread pid)
      (owed pid)
  runs : ∀ pid, tracked.pool.running = some pid → ∃ prog, tracked.pool.thread pid = some prog ∧
    terms.Settled tracked.last pid prog ⟨ledger.look tracked.pool.shared, owed pid⟩

variable {ledger : Ledger sys View M} {terms : ledger.Terms}
  {tracked : Tracked Pid Op Reply α State Stop Call} {owed : Pid → M} {pid : Pid}

omit [DecidableEq Pid] [Fintype Pid] in
theorem Terms.Rests.of_kept {last : Pid → Option (Call × State)} {view view' : View}
    {thread : Option (Prog Op Reply α)} {mine : M} (kept : ledger.Kept pid view view')
    (rests : terms.Rests last view pid thread mine) : terms.Rests last view' pid thread mine := by
  match thread, rests with
  | none, isZero => exact isZero
  | some (.op operation next), ⟨isSwitch, call, state, isLast, settles⟩ =>
      exact ⟨isSwitch, call, state, isLast, settles.stable isSwitch kept⟩

omit [DecidableEq Pid] [Fintype Pid] in
theorem Terms.Rests.of_last {last last' : Pid → Option (Call × State)} {view : View}
    {thread : Option (Prog Op Reply α)} {mine : M} (same : last' pid = last pid)
    (rests : terms.Rests last view pid thread mine) : terms.Rests last' view pid thread mine := by
  match thread, rests with
  | none, isZero => exact isZero
  | some (.op operation next), ⟨isSwitch, call, state, isLast, settles⟩ =>
      exact ⟨isSwitch, call, state, same.trans isLast, settles⟩

theorem Terms.Good.start {call : Call} {pool : Pool Pid Op Reply α State Stop}
    (good : terms.Good tracked owed)
    (stepped : tracked.pool.step sys (.start pid call) = some pool) :
    terms.Good
      ⟨pool, Function.update tracked.last pid (some (call, tracked.pool.shared))⟩ owed := by
  simp only [Pool.step] at stepped
  split at stepped
  · rename_i possible
    rw [Bool.and_eq_true, Bool.and_eq_true, Option.isNone_iff_eq_none] at possible
    rcases possible with ⟨⟨quiet, noThread⟩, isReady⟩
    cases stepped
    have notRunning := (Pool.quiet_iff _).mp quiet
    have isZero := good.rests pid (by rw [notRunning.2]; rintro ⟨⟩)
    rw [noThread] at isZero
    refine ⟨good.sum, ?_, ?_⟩
    · intro other isOther
      have ne : other ≠ pid := fun same => isOther (same ▸ rfl)
      have rests := good.rests other (by rw [notRunning.2]; rintro ⟨⟩)
      dsimp only
      rw [Function.update_of_ne ne]
      exact rests.of_last (Function.update_of_ne ne _ _)
    · intro runner isRunner
      cases isRunner
      refine ⟨_, Function.update_self _ _ _, call, _, Function.update_self _ _ _, ?_⟩
      rw [show owed pid = 0 from isZero]
      exact terms.codes isReady
  · cases stepped

theorem Terms.Good.resume {pool : Pool Pid Op Reply α State Stop} (good : terms.Good tracked owed)
    (stepped : tracked.pool.step sys (.resume pid) = some pool) :
    terms.Good ⟨pool, tracked.last⟩ owed := by
  simp only [Pool.step] at stepped
  split at stepped
  · rename_i possible
    rw [Bool.and_eq_true] at possible
    cases stepped
    have notRunning := (Pool.quiet_iff _).mp possible.1
    refine ⟨good.sum, fun other _ => good.rests other (by rw [notRunning.2]; rintro ⟨⟩), ?_⟩
    intro runner isRunner
    cases isRunner
    have rests := good.rests pid (by rw [notRunning.2]; rintro ⟨⟩)
    dsimp only
    rcases isThread : tracked.pool.thread pid with _ | thread
    · rw [isThread] at possible
      cases possible.2
    · rw [isThread] at rests
      cases thread with
      | pure value => exact rests.elim
      | op operation next => exact ⟨_, rfl, rests.2⟩
  · cases stepped

theorem Terms.Good.env {event : Env} {pool : Pool Pid Op Reply α State Stop}
    (good : terms.Good tracked owed)
    (stepped : tracked.pool.step sys (.env event) = some pool) :
    terms.Good ⟨pool, tracked.last⟩ owed := by
  simp only [Pool.step] at stepped
  split at stepped
  · rename_i quiet
    cases stepped
    rcases ledger.env event tracked.pool.shared with ⟨same, kept⟩
    have notRunning := (Pool.quiet_iff _).mp quiet
    refine ⟨same.trans good.sum, fun other isOther => (good.rests other isOther).of_kept
      (kept other), ?_⟩
    intro runner isRunner
    exact absurd (notRunning.2.symm.trans isRunner) (by rintro ⟨⟩)
  · cases stepped

omit sys ledger terms in
/-- The sum of the accounts when something is added to one of them. -/
theorem sum_update_add (owed : Pid → M) (pid : Pid) (added : M) :
    ∑ other, Function.update owed pid (owed pid + added) other = ∑ other, owed other + added := by
  rw [Finset.sum_update_of_mem (Finset.mem_univ pid),
    Finset.sum_eq_add_sum_sdiff_singleton_of_mem (Finset.mem_univ pid) owed]
  abel

/-- One operation of the running process, or the end of its program. -/
theorem Terms.Good.go {pool : Pool Pid Op Reply α State Stop} (good : terms.Good tracked owed)
    (assumed : ∀ pid prog, tracked.pool.running = some pid → tracked.pool.thread pid = some prog →
      terms.assume pid prog (ledger.look tracked.pool.shared))
    (running : tracked.pool.running = some pid)
    (stepped : tracked.pool.goStep sys pid = some pool) (notStopped : pool.stopped = none) :
    ∃ owed', terms.Good ⟨pool, tracked.last⟩ owed' := by
  rcases good.runs pid running with ⟨prog, isThread, call, state, isLast, settles⟩
  have allowed := assumed pid prog running isThread
  have restsOf : ∀ other, other ≠ pid → terms.Rests tracked.last
      (ledger.look tracked.pool.shared) other (tracked.pool.thread other) (owed other) := by
    intro other isOther
    apply good.rests
    rw [running]
    exact fun same => isOther (Option.some.inj same).symm
  unfold Pool.goStep at stepped
  rw [isThread] at stepped
  cases prog with
  | pure value =>
      cases stepped
      refine ⟨owed, ?_, ?_, nofun⟩
      · dsimp only
        rw [ledger.ends]
        exact good.sum
      · intro other _
        dsimp only
        rw [ledger.ends]
        rcases eq_or_ne other pid with rfl | isOther
        · rw [Function.update_self]
          exact terms.empty settles
        · rw [Function.update_of_ne isOther]
          exact restsOf other isOther
  | op operation next =>
      have before := settles fun _ => allowed
      cases happened : sys.handler pid operation tracked.pool.shared with
      | done reply state' =>
          simp only [happened] at stepped
          cases stepped
          have after : ledger.After pid operation (ledger.look tracked.pool.shared) (owed pid)
              fun reply account' => ledger.Settles (terms.assume pid) (terms.owes call) pid
                (next reply) (terms.Final pid call (ledger.look state)) account' := by
            cases isSwitch : ledger.switches operation with
            | true =>
                rw [before_of_switch isSwitch] at before
                exact before.2 _ (ledger.kept_refl pid _)
            | false =>
                rw [before_of_not_switch isSwitch] at before
                exact before
          rcases after reply _ (ledger.done happened) with ⟨kept, settles'⟩
          refine ⟨Function.update owed pid (owed pid + (ledger.balance (ledger.look state') -
              ledger.balance (ledger.look tracked.pool.shared))), ?_, ?_, ?_⟩
          · rw [sum_update_add, ← good.sum]
            abel
          · intro other isOther
            have ne : other ≠ pid := fun same => isOther (same ▸ running)
            dsimp only
            rw [Function.update_of_ne ne, Function.update_of_ne ne]
            exact (restsOf other ne).of_kept (kept other ne)
          · intro runner isRunner
            dsimp only at isRunner
            cases running.symm.trans isRunner
            refine ⟨_, Function.update_self _ _ _, call, state, isLast, ?_⟩
            rw [Function.update_self]
            exact settles'
      | wait state' =>
          simp only [happened] at stepped
          cases stepped
          rcases ledger.wait happened with ⟨isSwitch, same, kept⟩
          refine ⟨owed, same.trans good.sum, ?_, nofun⟩
          intro other _
          rcases eq_or_ne other pid with rfl | isOther
          · dsimp only
            rw [isThread]
            exact ⟨isSwitch, call, state, isLast, settles.stable isSwitch (kept other)⟩
          · exact (restsOf other isOther).of_kept (kept other)
      | stop why =>
          simp only [happened] at stepped
          cases stepped
          cases notStopped

/-- In every state that is reached, the balance is the sum of the accounts. -/
theorem Terms.reach {state : State} {tracked : Tracked Pid Op Reply α State Stop Call}
    {ok : Pool Pid Op Reply α State Stop → PoolAct Pid Call Env → Prop}
    (terms : ledger.Terms)
    (assumed : ∀ pool pid prog, ok pool .go → pool.running = some pid →
      pool.thread pid = some prog → terms.assume pid prog (ledger.look pool.shared))
    (balanced : ledger.balance (ledger.look state) = 0)
    (reach : Reach (Tracked.step sys) (fun tracked act => ok tracked.pool act)
      (Tracked.idle state) tracked) (notStopped : tracked.pool.stopped = none) :
    ∃ owed, terms.Good tracked owed := by
  induction reach with
  | start =>
      refine ⟨0, ?_, fun _ _ => rfl, nofun⟩
      exact balanced.trans (Finset.sum_eq_zero fun _ _ => rfl).symm
  | next _ allowed stepped ih =>
      rename_i before after act _
      rw [Tracked.step, Option.map_eq_some_iff] at stepped
      rcases stepped with ⟨pool, stepped, rfl⟩
      rcases ih (Turns.not_stopped stepped) with ⟨owed, good⟩
      cases act with
      | start pid call => exact ⟨owed, good.start stepped⟩
      | resume pid => exact ⟨owed, good.resume stepped⟩
      | env event => exact ⟨owed, good.env stepped⟩
      | go =>
          simp only [Pool.step] at stepped
          split at stepped
          · rename_i pid _ running
            exact good.go (fun pid prog => assumed _ pid prog allowed) running stepped notStopped
          · cases stepped

end Ledger

end Program
