/-!
# Programs over a signature of operations

A program is a tree: it returns, or performs an operation and goes on with a program that
depends on the reply. The tree leaves open what the operations do, so that one program
can be run on a machine (`exec`) and judged by rules that only see a part of the machine
(`wp`).

A `Spec` gives each operation its weakest precondition; `wp` extends it to programs, and
`wp_bind`, `wp_mono` are the rules by which programs are put together. `exec_ends` and
`exec_checked` say that a program judged by the rules of a machine behaves on that machine as
judged.
-/

namespace Program

variable {Op : Type} {Reply : Op → Type} {α β State Stop : Type}

/-- A program that performs operations from `Op` and returns a value of type `α`. -/
inductive Prog (Op : Type) (Reply : Op → Type) (α : Type) where
  | pure (value : α)
  | op (operation : Op) (next : Reply operation → Prog Op Reply α)

namespace Prog

def bind (prog : Prog Op Reply α) (next : α → Prog Op Reply β) : Prog Op Reply β :=
  match prog with
  | .pure value => next value
  | .op operation rest => .op operation fun reply => (rest reply).bind next

instance : Monad (Prog Op Reply) where
  pure := .pure
  bind := bind

/-- The program that performs one operation and returns its reply. -/
def perform (operation : Op) : Prog Op Reply (Reply operation) :=
  .op operation .pure

/-- Runs a program only if a condition holds. -/
def when (condition : Prop) [Decidable condition] (prog : Prog Op Reply Unit) :
    Prog Op Reply Unit :=
  if condition then prog else .pure ()

/-- Runs a program on a value if there is one. -/
def whenSome (value : Option β) (prog : β → Prog Op Reply Unit) : Prog Op Reply Unit :=
  match value with
  | none => .pure ()
  | some present => prog present

theorem bind_eq (prog : Prog Op Reply α) (next : α → Prog Op Reply β) :
    prog >>= next = prog.bind next := rfl

end Prog

/--
For each operation a predicate transformer: what must hold before it for the
postcondition to hold of every possible reply and local state after it.
-/
structure Spec (Op : Type) (Reply : Op → Type) (State : Type) where
  before : (operation : Op) → (Reply operation → State → Prop) → State → Prop
  mono : ∀ {operation : Op} {post post' : Reply operation → State → Prop} {state : State},
    (∀ reply state', post reply state' → post' reply state') →
      before operation post state → before operation post' state

/-- The weakest precondition of a program under the rules of `spec`. -/
def wp (spec : Spec Op Reply State) :
    Prog Op Reply α → (α → State → Prop) → State → Prop
  | .pure value, post, state => post value state
  | .op operation next, post, state =>
      spec.before operation (fun reply state' => wp spec (next reply) post state') state

section

variable {spec : Spec Op Reply State} {state : State}

@[simp]
theorem wp_pure (value : α) (post : α → State → Prop) :
    wp spec (pure value : Prog Op Reply α) post state ↔ post value state := Iff.rfl

@[simp]
theorem wp_perform (operation : Op) (post : Reply operation → State → Prop) :
    wp spec (.perform operation) post state ↔ spec.before operation post state := Iff.rfl

theorem wp_bind_eq (prog : Prog Op Reply α) (next : α → Prog Op Reply β)
    (post : β → State → Prop) (state : State) :
    wp spec (prog.bind next) post state =
      wp spec prog (fun value state' => wp spec (next value) post state') state := by
  induction prog generalizing state with
  | pure value => rfl
  | op operation rest ih =>
      simp only [Prog.bind, wp]
      congr 1
      funext reply state'
      exact ih reply state'

@[simp]
theorem wp_bind (prog : Prog Op Reply α) (next : α → Prog Op Reply β)
    (post : β → State → Prop) :
    wp spec (prog >>= next) post state ↔
      wp spec prog (fun value state' => wp spec (next value) post state') state := by
  rw [Prog.bind_eq, wp_bind_eq]

@[simp]
theorem wp_map (prog : Prog Op Reply α) (change : α → β) (post : β → State → Prop) :
    wp spec (change <$> prog) post state ↔
      wp spec prog (fun value state' => post (change value) state') state :=
  wp_bind prog (fun value => pure (change value)) post

theorem wp_when {condition : Prop} [Decidable condition] (prog : Prog Op Reply Unit)
    (post : Unit → State → Prop) :
    wp spec (.when condition prog) post state ↔
      if condition then wp spec prog post state else post () state := by
  unfold Prog.when
  split <;> exact Iff.rfl

theorem wp_whenSome_none (prog : β → Prog Op Reply Unit) (post : Unit → State → Prop) :
    wp spec (.whenSome none prog) post state ↔ post () state := Iff.rfl

theorem wp_whenSome_some (value : β) (prog : β → Prog Op Reply Unit)
    (post : Unit → State → Prop) :
    wp spec (.whenSome (some value) prog) post state ↔ wp spec (prog value) post state := Iff.rfl

theorem wp_mono {prog : Prog Op Reply α} {post post' : α → State → Prop}
    (weaker : ∀ value state', post value state' → post' value state')
    (holds : wp spec prog post state) : wp spec prog post' state := by
  induction prog generalizing state with
  | pure value => exact weaker value state holds
  | op operation rest ih => exact spec.mono (fun reply state' => ih reply) holds

end

/-! ## Programs that only use some operations -/

/-- Every operation that a program may perform satisfies `allowed`. -/
def Only (allowed : Op → Prop) : Prog Op Reply α → Prop
  | .pure _ => True
  | .op operation next => allowed operation ∧ ∀ reply, Only allowed (next reply)

namespace Only

variable {allowed allowed' : Op → Prop}

theorem pure (value : α) : Only allowed (Pure.pure value : Prog Op Reply α) := trivial

theorem op {operation : Op} {next : Reply operation → Prog Op Reply α}
    (holds : allowed operation) (rest : ∀ reply, Only allowed (next reply)) :
    Only allowed (.op operation next) :=
  ⟨holds, rest⟩

theorem perform {operation : Op} (holds : allowed operation) :
    Only allowed (.perform operation : Prog Op Reply (Reply operation)) :=
  op holds fun _ => trivial

theorem bind {prog : Prog Op Reply α} {next : α → Prog Op Reply β} (first : Only allowed prog)
    (second : ∀ value, Only allowed (next value)) : Only allowed (prog >>= next) := by
  induction prog with
  | pure value => exact second value
  | op operation rest ih => exact ⟨first.1, fun reply => ih reply (first.2 reply)⟩

theorem map {prog : Prog Op Reply α} (only : Only allowed prog) (change : α → β) :
    Only allowed (change <$> prog) :=
  only.bind fun _ => pure _

theorem when {condition : Prop} [Decidable condition] {prog : Prog Op Reply Unit}
    (only : Only allowed prog) : Only allowed (Prog.when condition prog) := by
  unfold Prog.when
  split
  · exact only
  · exact pure ()

theorem whenSome {value : Option β} {prog : β → Prog Op Reply Unit}
    (only : ∀ present, Only allowed (prog present)) :
    Only allowed (Prog.whenSome value prog) := by
  unfold Prog.whenSome
  split
  · exact pure ()
  · exact only _

theorem mono {prog : Prog Op Reply α} (only : Only allowed prog)
    (weaker : ∀ operation, allowed operation → allowed' operation) : Only allowed' prog := by
  induction prog with
  | pure value => trivial
  | op operation rest ih =>
      exact ⟨weaker operation only.1, fun reply => ih reply (only.2 reply)⟩

/-- What every allowed operation keeps, a program of allowed operations keeps. -/
theorem wp {spec : Spec Op Reply State} {prog : Prog Op Reply α} {post : α → State → Prop}
    {state : State} (only : Only allowed prog) (inv : State → Prop)
    (kept : ∀ {operation : Op} {post : Reply operation → State → Prop} {state : State},
      allowed operation → inv state → (∀ reply state', inv state' → post reply state') →
        spec.before operation post state)
    (start : inv state) (final : ∀ value state', inv state' → post value state') :
    Program.wp spec prog post state := by
  induction prog generalizing state with
  | pure value => exact final value state start
  | op operation rest ih =>
      exact kept only.1 start fun reply state' inv' => ih reply (only.2 reply) inv'

end Only

-- The rules above are all that is used of it; unfolding would run the program.
attribute [irreducible] Only

/-! ## Machines -/

/-- What performing an operation comes to on a machine. -/
inductive Outcome (Reply State Stop : Type) where
  | done (reply : Reply) (state : State)
  | wait (state : State)
  | stop (why : Stop)

/-- The state after an operation, unless the machine has stopped. -/
def Outcome.after {Reply State Stop : Type} : Outcome Reply State Stop → Option State
  | .done _ state => some state
  | .wait state => some state
  | .stop _ => none

/-- A machine that performs the operations. -/
abbrev Handler (Op : Type) (Reply : Op → Type) (State Stop : Type) :=
  (operation : Op) → State → Outcome (Reply operation) State Stop

/-- What a whole program comes to; a stop happens in the state before the operation. -/
inductive Result (α State Stop : Type) where
  | returned (value : α) (state : State)
  | asleep (state : State)
  | stopped (why : Stop) (state : State)

/-- A check of what a program has returned. -/
def Result.check {α State Stop : Type} (result : Result α State Stop)
    (test : α → State → Bool) : Bool :=
  match result with
  | .returned value state => test value state
  | .asleep _ => false
  | .stopped _ _ => false

theorem Result.returned_of_check {α State Stop : Type} {result : Result α State Stop}
    {test : α → State → Bool} (checked : result.check test = true) :
    ∃ value state, result = .returned value state ∧ test value state = true := by
  cases result with
  | returned value state => exact ⟨value, state, rfl, checked⟩
  | asleep state => cases checked
  | stopped why state => cases checked

/-- Runs a program on a machine by itself. -/
def exec (handler : Handler Op Reply State Stop) :
    Prog Op Reply α → State → Result α State Stop
  | .pure value, state => .returned value state
  | .op operation next, state =>
      match handler operation state with
      | .done reply state' => exec handler (next reply) state'
      | .wait state' => .asleep state'
      | .stop why => .stopped why state

theorem exec_bind {handler : Handler Op Reply State Stop} (prog : Prog Op Reply α)
    (next : α → Prog Op Reply β) (state : State) :
    exec handler (prog >>= next) state =
      match exec handler prog state with
      | .returned value state' => exec handler (next value) state'
      | .asleep state' => .asleep state'
      | .stopped why state' => .stopped why state' := by
  rw [Prog.bind_eq]
  induction prog generalizing state with
  | pure value => rfl
  | op operation rest ih =>
      simp only [Prog.bind, exec]
      cases handler operation state with
      | done reply middle => exact ih reply middle
      | wait middle => rfl
      | stop why => rfl

theorem exec_bind_of_returned {handler : Handler Op Reply State Stop} {prog : Prog Op Reply α}
    {next : α → Prog Op Reply β} {state middle : State} {result : α}
    (returned : exec handler prog state = .returned result middle) :
    exec handler (prog >>= next) state = exec handler (next result) middle := by
  rw [exec_bind, returned]

/-- A sequence returns when its parts do. -/
theorem exec_bind_returned {handler : Handler Op Reply State Stop} {prog : Prog Op Reply α}
    {next : α → Prog Op Reply β} {state state' : State} {value : β} :
    exec handler (prog >>= next) state = .returned value state' ↔
      ∃ result middle, exec handler prog state = .returned result middle ∧
        exec handler (next result) middle = .returned value state' := by
  rw [exec_bind]
  constructor
  · intro returned
    cases first : exec handler prog state with
    | returned result middle =>
        rw [first] at returned
        exact ⟨result, middle, rfl, returned⟩
    | asleep middle =>
        rw [first] at returned
        cases returned
    | stopped why middle =>
        rw [first] at returned
        cases returned
  · rintro ⟨result, middle, first, returned⟩
    rw [first]
    exact returned

/-- `ok` holds of every operation that the run of a program performs. -/
def Along (handler : Handler Op Reply State Stop) (ok : Op → State → Prop) :
    Prog Op Reply α → State → Prop
  | .pure _, _ => True
  | .op operation next, state =>
      ok operation state ∧
        match handler operation state with
        | .done reply state' => Along handler ok (next reply) state'
        | .wait _ => True
        | .stop _ => True

/--
The rules of a machine for runs that have to end well: the postcondition has to hold of the
machine's reply, and it may stop or fall asleep only as `allowed` and `sleeps` say.
-/
def Handler.rules (handler : Handler Op Reply State Stop) (ok : Op → State → Prop)
    (allowed : Stop → State → Prop) (sleeps : State → Prop) : Spec Op Reply State where
  before operation post state :=
    ok operation state →
      match handler operation state with
      | .done reply state' => post reply state'
      | .wait state' => sleeps state'
      | .stop why => allowed why state
  mono {operation post post' state} weaker holds := by
    intro good
    have kept := holds good
    revert kept
    cases handler operation state with
    | done reply state' => exact weaker reply state'
    | wait state' => exact id
    | stop why => exact id

/-- What a run has come to, with nothing said about operations in between. -/
def Result.Ends (result : Result α State Stop) (post : α → State → Prop)
    (allowed : Stop → State → Prop) (sleeps : State → Prop) : Prop :=
  match result with
  | .returned value state => post value state
  | .asleep state => sleeps state
  | .stopped why state => allowed why state

theorem exec_ends {handler : Handler Op Reply State Stop} {ok : Op → State → Prop}
    {allowed : Stop → State → Prop} {sleeps : State → Prop} {prog : Prog Op Reply α}
    {post : α → State → Prop} {state : State}
    (judged : wp (handler.rules ok allowed sleeps) prog post state)
    (along : Along handler ok prog state) :
    (exec handler prog state).Ends post allowed sleeps := by
  induction prog generalizing state with
  | pure value => exact judged
  | op operation next ih =>
      unfold Along at along
      rcases along with ⟨good, rest⟩
      have kept := judged good
      unfold exec
      cases happened : handler operation state with
      | done reply state' =>
          rw [happened] at rest kept
          exact ih reply kept rest
      | wait state' =>
          rw [happened] at kept
          exact kept
      | stop why =>
          rw [happened] at kept
          exact kept

/--
The rules of a machine for runs with obligations: each operation has to satisfy `must`, the
postcondition has to hold of the machine's reply, and it may stop or fall asleep only as
`allowed` and `sleeps` say.
-/
def Handler.checks (handler : Handler Op Reply State Stop) (must : Op → State → Prop)
    (allowed : Stop → State → Prop) (sleeps : State → Prop) : Spec Op Reply State where
  before operation post state :=
    must operation state ∧
      match handler operation state with
      | .done reply state' => post reply state'
      | .wait state' => sleeps state'
      | .stop why => allowed why state
  mono {operation post post' state} weaker holds := by
    rcases holds with ⟨met, kept⟩
    refine ⟨met, ?_⟩
    revert kept
    cases handler operation state with
    | done reply state' => exact weaker reply state'
    | wait state' => exact id
    | stop why => exact id

theorem exec_checked {handler : Handler Op Reply State Stop} {must : Op → State → Prop}
    {allowed : Stop → State → Prop} {sleeps : State → Prop} {prog : Prog Op Reply α}
    {post : α → State → Prop} {state : State}
    (judged : wp (handler.checks must allowed sleeps) prog post state) :
    Along handler must prog state ∧ (exec handler prog state).Ends post allowed sleeps := by
  induction prog generalizing state with
  | pure value => exact ⟨trivial, judged⟩
  | op operation next ih =>
      rcases judged with ⟨met, kept⟩
      unfold Along exec
      cases happened : handler operation state with
      | done reply state' =>
          rw [happened] at kept
          rcases ih reply kept with ⟨along, ends⟩
          exact ⟨⟨met, along⟩, ends⟩
      | wait state' =>
          rw [happened] at kept
          exact ⟨⟨met, trivial⟩, kept⟩
      | stop why =>
          rw [happened] at kept
          exact ⟨⟨met, trivial⟩, kept⟩

/-- What every allowed operation keeps holds in the state in which a program returns. -/
theorem Only.returned {handler : Handler Op Reply State Stop} {allowed : Op → Prop}
    {prog : Prog Op Reply α} {state state' : State} {value : α} (only : Only allowed prog)
    (inv : State → Prop)
    (kept : ∀ {operation : Op} {reply : Reply operation} {state state' : State},
      allowed operation → inv state → handler operation state = .done reply state' → inv state')
    (start : inv state) (returned : exec handler prog state = .returned value state') :
    inv state' := by
  have judged : Program.wp (handler.checks (fun _ _ => True) (fun _ _ => True) fun _ => True) prog
      (fun _ => inv) state := by
    refine only.wp inv ?_ start fun _ _ => id
    intro operation post state isAllowed holds next
    refine ⟨trivial, ?_⟩
    cases happened : handler operation state with
    | done reply state' => exact next reply state' (kept isAllowed holds happened)
    | wait state' => trivial
    | stop why => trivial
  have ends := (exec_checked judged).2
  rw [returned] at ends
  exact ends

/-- A condition that always holds does so along every run. -/
theorem along_of_forall {handler : Handler Op Reply State Stop} {ok : Op → State → Prop}
    (always : ∀ operation state, ok operation state) (prog : Prog Op Reply α) (state : State) :
    Along handler ok prog state := by
  induction prog generalizing state with
  | pure value => trivial
  | op operation next ih =>
      unfold Along
      refine ⟨always operation state, ?_⟩
      cases handler operation state with
      | done reply state' => exact ih reply state'
      | wait state' => trivial
      | stop why => trivial

/-- A decidable form of a condition along a run. -/
def checkAlong (handler : Handler Op Reply State Stop) (check : Op → State → Bool) :
    Prog Op Reply α → State → Bool
  | .pure _, _ => true
  | .op operation next, state =>
      check operation state &&
        match handler operation state with
        | .done reply state' => checkAlong handler check (next reply) state'
        | .wait _ => true
        | .stop _ => true

theorem along_of_checkAlong {handler : Handler Op Reply State Stop} {ok : Op → State → Prop}
    {check : Op → State → Bool} {prog : Prog Op Reply α} {state : State}
    (sound : ∀ operation state, check operation state = true → ok operation state)
    (checked : checkAlong handler check prog state = true) : Along handler ok prog state := by
  induction prog generalizing state with
  | pure value => trivial
  | op operation next ih =>
      rw [checkAlong, Bool.and_eq_true] at checked
      unfold Along
      refine ⟨sound operation state checked.1, ?_⟩
      cases happened : handler operation state with
      | done reply state' =>
          rw [happened] at checked
          exact ih reply checked.2
      | wait state' => trivial
      | stop why => trivial

/-- A condition holds along a sequence if it does along both parts. -/
theorem along_bind {handler : Handler Op Reply State Stop} {ok : Op → State → Prop}
    (prog : Prog Op Reply α) (next : α → Prog Op Reply β) (state : State) :
    Along handler ok (prog >>= next) state ↔
      Along handler ok prog state ∧ ∀ value state',
        exec handler prog state = .returned value state' → Along handler ok (next value) state' := by
  rw [Prog.bind_eq]
  induction prog generalizing state with
  | pure value =>
      refine ⟨fun along => ⟨trivial, ?_⟩, fun both => both.2 value state rfl⟩
      rintro _ _ ⟨⟩
      exact along
  | op operation rest ih =>
      simp only [Prog.bind, Along, exec]
      cases handler operation state with
      | done reply middle =>
          dsimp only
          rw [ih reply middle, and_assoc]
      | wait middle => simp
      | stop why => simp

/-! ## Runs that stop for one reason -/

/-- Operations that satisfy a condition and do not stop for the reason. -/
theorem Only.avoids {handler : Handler Op Reply State Stop} {ok : Op → State → Prop} {bad : Stop}
    {allowed : Op → Prop} {prog : Prog Op Reply α} (only : Only allowed prog)
    (good : ∀ operation state, allowed operation → ok operation state)
    (goes : ∀ operation state, allowed operation → handler operation state ≠ .stop bad)
    (state : State) :
    (∀ state', exec handler prog state ≠ .stopped bad state') ∧ Along handler ok prog state := by
  have judged : Program.wp (handler.checks ok (fun why _ => why ≠ bad) fun _ => True) prog
      (fun _ _ => True) state := by
    refine only.wp (fun _ => True) ?_ trivial fun _ _ _ => trivial
    intro operation post state isAllowed _ kept
    refine ⟨good operation state isAllowed, ?_⟩
    cases happened : handler operation state with
    | done reply state' => exact kept reply state' trivial
    | wait state' => trivial
    | stop why =>
        rintro rfl
        exact goes operation state isAllowed happened
  have checked := exec_checked judged
  refine ⟨fun state' stopped => ?_, checked.1⟩
  have ends := checked.2
  rw [stopped] at ends
  exact ends rfl

/-- The runs of the program stop with `bad` exactly if they do not satisfy `ok`. -/
def StopsUnless (handler : Handler Op Reply State Stop) (ok : Op → State → Prop) (bad : Stop)
    (prog : Prog Op Reply α) : Prop :=
  ∀ state, (∀ state', exec handler prog state ≠ .stopped bad state') ↔
    Along handler ok prog state

namespace StopsUnless

variable {handler : Handler Op Reply State Stop} {ok : Op → State → Prop} {bad : Stop}

theorem pure (value : α) : StopsUnless handler ok bad (Pure.pure value : Prog Op Reply α) :=
  fun _ => iff_of_true (fun _ => nofun) trivial

theorem bind {prog : Prog Op Reply α} {next : α → Prog Op Reply β}
    (first : StopsUnless handler ok bad prog)
    (second : ∀ value, StopsUnless handler ok bad (next value)) :
    StopsUnless handler ok bad (prog >>= next) := by
  intro state
  rw [along_bind, ← first state, exec_bind]
  cases exec handler prog state with
  | returned value middle =>
      dsimp only
      rw [second value middle]
      constructor
      · refine fun along => ⟨fun _ => nofun, ?_⟩
        rintro _ _ ⟨⟩
        exact along
      · exact fun both => both.2 value middle rfl
  | asleep middle => exact iff_of_true (fun _ => nofun) ⟨fun _ => nofun, fun _ _ => nofun⟩
  | stopped why middle =>
      refine ⟨fun avoids => ⟨?_, fun _ _ => nofun⟩, fun both => ?_⟩
      · rintro state' ⟨⟩
        exact avoids middle rfl
      · rintro state' ⟨⟩
        exact both.1 middle rfl

end StopsUnless

/-- A run that may neither stop nor fall asleep returns. -/
theorem exec_returns {handler : Handler Op Reply State Stop} {ok : Op → State → Prop}
    {prog : Prog Op Reply α} {post : α → State → Prop} {state : State}
    (judged : wp (handler.rules ok (fun _ _ => False) fun _ => False) prog post state)
    (along : Along handler ok prog state) :
    ∃ value state', exec handler prog state = .returned value state' ∧ post value state' := by
  have ends := exec_ends judged along
  cases result : exec handler prog state with
  | returned value state' =>
      rw [result] at ends
      exact ⟨value, state', rfl, ends⟩
  | asleep state' =>
      rw [result] at ends
      exact ends.elim
  | stopped why state' =>
      rw [result] at ends
      exact ends.elim

/-- The rules that let nothing go wrong say exactly that the program returns as judged. -/
theorem wp_iff_exec {handler : Handler Op Reply State Stop} {ok : Op → State → Prop}
    (always : ∀ operation state, ok operation state) {prog : Prog Op Reply α}
    {post : α → State → Prop} {state : State} :
    wp (handler.rules ok (fun _ _ => False) fun _ => False) prog post state ↔
      ∃ value state', exec handler prog state = .returned value state' ∧ post value state' := by
  refine ⟨fun judged => exec_returns judged (along_of_forall always prog state), ?_⟩
  induction prog generalizing state with
  | pure value =>
      rintro ⟨_, _, returned, holds⟩
      cases returned
      exact holds
  | op operation next ih =>
      rintro ⟨value, state', returned, holds⟩
      unfold exec at returned
      intro _
      cases happened : handler operation state with
      | done reply middle =>
          rw [happened] at returned
          exact ih reply ⟨value, state', returned, holds⟩
      | wait middle =>
          rw [happened] at returned
          cases returned
      | stop why =>
          rw [happened] at returned
          cases returned

/-- Rules about a part of the machine carry over to any rules that only look at more of it. -/
theorem wp_of_related {Local : Type} {spec : Spec Op Reply Local} {spec' : Spec Op Reply State}
    (related : State → Local → Prop)
    (sound : ∀ {operation : Op} {post : Reply operation → Local → Prop}
      {post' : Reply operation → State → Prop} {state : State} {own : Local}, related state own →
        spec.before operation post own →
        (∀ reply state' own', related state' own' → post reply own' → post' reply state') →
          spec'.before operation post' state)
    {prog : Prog Op Reply α} {post : α → Local → Prop} {post' : α → State → Prop} {own : Local}
    {state : State} (judged : wp spec prog post own) (start : related state own)
    (final : ∀ value state' own', related state' own' → post value own' → post' value state') :
    wp spec' prog post' state := by
  induction prog generalizing state own with
  | pure value => exact final value state own start judged
  | op operation next ih =>
      exact sound start judged fun reply state' own' related' rest => ih reply rest related'

/--
Rules about a part of the machine that is only related to its state: what they say of a program
holds of every run that returns.
-/
theorem returned_of_related {Local : Type} {spec : Spec Op Reply Local}
    {handler : Handler Op Reply State Stop} (related : State → Local → Prop)
    (sound : ∀ {operation : Op} {post : Reply operation → Local → Prop} {state : State}
      {own : Local}, related state own → spec.before operation post own →
        ∀ {reply : Reply operation} {state' : State}, handler operation state = .done reply state' →
          ∃ own', related state' own' ∧ post reply own')
    {prog : Prog Op Reply α} {post : α → Local → Prop} {own : Local} {state state' : State}
    {value : α} (judged : wp spec prog post own) (start : related state own)
    (returned : exec handler prog state = .returned value state') :
    ∃ own', related state' own' ∧ post value own' := by
  induction prog generalizing state own with
  | pure result =>
      cases returned
      exact ⟨own, start, judged⟩
  | op operation next ih =>
      unfold exec at returned
      cases happened : handler operation state with
      | done reply middle =>
          rw [happened] at returned
          rcases sound start judged happened with ⟨own', related', rest⟩
          exact ih reply rest related' returned
      | wait middle =>
          rw [happened] at returned
          cases returned
      | stop why =>
          rw [happened] at returned
          cases returned

end Program
