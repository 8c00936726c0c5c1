import Mathlib.Data.Fintype.Basic
import Mathlib.Data.Nat.Notation
import Osix.Lib.Transition

/-!
# Round-robin scheduling

A scheduler looks at `n` processes in turn and gives the processor to those that can run; after a
round in which none could, the processor halts until the next interrupt. A process works until it
gives the processor up.

The one assumption on the processes is that none of them takes from another what it needs to run
(`Considerate`). Then the processor halts only when no process can run (`idle_of_reach`), and a
process that can run is given the processor before any other is given it twice, after `n + 1` looks
at the latest (`served`).
-/

namespace RoundRobin

open Transition

universe u v

/-- What the processes and the interrupts do to the state. The second component of `work` says that
the process gives the processor up. -/
structure Machine (n : ℕ) (State : Type u) (Event : Type v) where
  runnable : State → Fin n → Bool
  work : Fin n → State → Event → Option (State × Bool)
  interrupt : State → Event → Option State

/-- Where the scheduler is. `scan i served` is about to look at process `i`, after `served` processes
in this round. -/
inductive Place (n : ℕ) where
  | scan (i served : ℕ)
  | running (p : Fin n) (served : ℕ)
  | halted

/-- The state of the processes, the place of the scheduler, and which processes have been given the
processor, the latest first, in how many looks. -/
structure Cpu (n : ℕ) (State : Type u) where
  state : State
  place : Place n
  given : List (Fin n)
  looks : ℕ

inductive Act (Event : Type v) where
  | look
  | work (event : Event)
  | interrupt (event : Event)

variable {n : ℕ} {State : Type u} {Event : Type v} (m : Machine n State Event)

/-- One look of the scheduler. -/
def look (cpu : Cpu n State) (i served : ℕ) : Cpu n State :=
  if inside : i < n then
    if m.runnable cpu.state ⟨i, inside⟩ then
      ⟨cpu.state, .running ⟨i, inside⟩ (served + 1), ⟨i, inside⟩ :: cpu.given, cpu.looks + 1⟩
    else ⟨cpu.state, .scan (i + 1) served, cpu.given, cpu.looks + 1⟩
  else if served = 0 then ⟨cpu.state, .halted, cpu.given, cpu.looks + 1⟩
  else ⟨cpu.state, .scan 0 0, cpu.given, cpu.looks + 1⟩

/-- The process has worked, and gives the processor up if it says so. -/
def worked (cpu : Cpu n State) (p : Fin n) (served : ℕ) (r : State × Bool) : Cpu n State :=
  { cpu with state := r.1, place := if r.2 then .scan (p + 1) served else .running p served }

def interrupted (cpu : Cpu n State) (state : State) : Cpu n State :=
  { cpu with state := state, place := .scan 0 0 }

def step (cpu : Cpu n State) : Act Event → Option (Cpu n State)
  | .look =>
      match cpu.place with
      | .scan i served => some (look m cpu i served)
      | _ => none
  | .work event =>
      match cpu.place with
      | .running p served => (m.work p cpu.state event).map (worked cpu p served)
      | _ => none
  | .interrupt event =>
      match cpu.place with
      | .halted => (m.interrupt cpu.state event).map (interrupted cpu)
      | _ => none

/-- No process takes from another what it needs to run. -/
def Considerate : Prop :=
  ∀ {p q : Fin n} {state : State} {event : Event} {r : State × Bool}, q ≠ p →
    m.work p state event = some r → m.runnable state q = true → m.runnable r.1 q = true

/-! ## Halting -/

/-- Nothing can run that has been passed in a round in which nothing ran. -/
def Idle (cpu : Cpu n State) : Prop :=
  match cpu.place with
  | .scan i served => served = 0 → ∀ p : Fin n, p < i → m.runnable cpu.state p = false
  | .running _ served => 0 < served
  | .halted => ∀ p, m.runnable cpu.state p = false

variable {m} {cpu cpu' cpu₀ : Cpu n State} {act : Act Event} {q : Fin n}

theorem idle_look {i served : ℕ} (idle : Idle m cpu) (place : cpu.place = .scan i served) :
    Idle m (look m cpu i served) := by
  simp only [Idle, place] at idle
  rw [look]
  split_ifs with inside can none
  · exact Nat.succ_pos served
  · intro zero p before
    rcases Nat.lt_or_eq_of_le (Nat.le_of_lt_succ before) with earlier | here
    · exact idle zero p earlier
    · have same : p = ⟨i, inside⟩ := Fin.ext here
      rw [same]
      exact Bool.eq_false_iff.mpr can
  · intro p
    exact idle none p (by omega)
  · intro _ p before
    exact absurd before (Nat.not_lt_zero _)

/-- What one step can be. -/
theorem step_cases (stepped : step m cpu act = some cpu') :
    (∃ i served, cpu.place = .scan i served ∧ cpu' = look m cpu i served) ∨
      (∃ p served event r, cpu.place = .running p served ∧ m.work p cpu.state event = some r ∧
        cpu' = worked cpu p served r) ∨
      ∃ state, cpu.place = .halted ∧ cpu' = interrupted cpu state := by
  rcases act with _ | event | event <;> rcases place : cpu.place with ⟨i, served⟩ | ⟨p, served⟩ | _
  all_goals simp only [step, place, Option.some.injEq, Option.map_eq_some_iff, reduceCtorEq]
    at stepped
  · exact Or.inl ⟨i, served, rfl, stepped.symm⟩
  · rcases stepped with ⟨r, done, rfl⟩
    exact Or.inr (Or.inl ⟨p, served, event, r, rfl, done, rfl⟩)
  · rcases stepped with ⟨state, _, rfl⟩
    exact Or.inr (Or.inr ⟨state, rfl, rfl⟩)

theorem idle_step (idle : Idle m cpu) (stepped : step m cpu act = some cpu') : Idle m cpu' := by
  rcases step_cases stepped with ⟨i, served, place, rfl⟩ | ⟨p, served, event, r, place, _, rfl⟩ |
    ⟨state, place, rfl⟩
  · exact idle_look idle place
  · simp only [Idle, place] at idle
    rcases r with ⟨state, gone⟩
    cases gone with
    | false => exact idle
    | true => exact fun zero => absurd zero (Nat.ne_of_gt idle)
  · exact fun _ p before => absurd before (Nat.not_lt_zero _)

/-- A scheduler that begins its first round. -/
def Starts (cpu : Cpu n State) : Prop := cpu.place = .scan 0 0

theorem idle_of_reach (starts : Starts cpu₀) (reach : Reach (step m) Always cpu₀ cpu) :
    Idle m cpu := by
  apply reach.invariant
  · simp only [Starts] at starts
    simp only [Idle, starts]
    exact fun _ p before => absurd before (Nat.not_lt_zero _)
  · exact fun idle _ stepped => idle_step idle stepped

/-! ## Waiting -/

/-- How many looks it takes to come to the process. -/
def distance (q : Fin n) : Place n → ℕ
  | .scan i _ => if i ≤ q then q - i else n - i + 1 + q
  | .running p _ => if p < q then q - (p + 1) else n - p + q
  | .halted => 0

/-- The processes that come before `q`. -/
def Ahead (q r : Fin n) : Place n → Prop
  | .scan i _ => if i ≤ q then i ≤ r.val ∧ r < q else i ≤ r.val ∨ r < q
  | .running p _ => if p < q then p < r ∧ r < q else p < r ∨ r < q
  | .halted => False

/-- Since `q` could run first, nothing has been given the processor twice, what comes before `q` has
not been given it at all, and `q` is coming closer. -/
structure Waiting (m : Machine n State Event) (q : Fin n) (cpu : Cpu n State) : Prop where
  can : m.runnable cpu.state q = true
  other : ∀ served, cpu.place ≠ .running q served
  once : cpu.given.Nodup
  behind : ∀ r ∈ cpu.given, ¬Ahead q r cpu.place
  closer : cpu.looks + distance q cpu.place ≤ n
  there : ∀ i served, cpu.place = .scan i served → i ≤ n
  idle : Idle m cpu

theorem distance_le {place : Place n} (there : ∀ i served, place = .scan i served → i ≤ n) :
    distance q place ≤ n := by
  have small := q.isLt
  cases place with
  | scan i served =>
      have inside := there i served rfl
      simp only [distance]
      split_ifs <;> omega
  | running p served =>
      simp only [distance, Fin.lt_def]
      split_ifs <;> omega
  | halted => exact Nat.zero_le n

theorem waiting_look {i served : ℕ} (waiting : Waiting m q cpu)
    (place : cpu.place = .scan i served) (notGiven : q ∉ (look m cpu i served).given) :
    Waiting m q (look m cpu i served) := by
  have idle := idle_look waiting.idle place
  have inside := waiting.there i served place
  have closer := waiting.closer
  have behind := waiting.behind
  have small := q.isLt
  rw [place, distance] at closer
  simp only [place, Ahead] at behind
  rw [look] at notGiven idle ⊢
  split_ifs at notGiven idle ⊢ with before can none
  · -- process `i` is given the processor, and it is not `q`
    have different : i ≠ q := by
      rintro rfl
      exact notGiven List.mem_cons_self
    refine ⟨waiting.can, ?_, ?_, ?_, ?_, by simp, idle⟩
    · intro served' same
      rw [Place.running.injEq] at same
      exact different (congrArg Fin.val same.1)
    · refine List.nodup_cons.mpr ⟨fun mem => ?_, waiting.once⟩
      have passed := behind _ mem
      simp only [Fin.lt_def] at passed
      split_ifs at passed <;> omega
    · intro r mem
      simp only [Ahead, Fin.lt_def]
      rcases List.mem_cons.mp mem with rfl | old
      · split_ifs <;> simp only <;> omega
      · have passed := behind r old
        simp only [Fin.lt_def] at passed
        split_ifs at passed ⊢ <;> omega
    · simp only [distance, Fin.lt_def]
      split_ifs at closer ⊢ <;> omega
  · -- process `i` cannot run, so it is not `q`
    have different : i ≠ q := by
      rintro rfl
      exact can waiting.can
    refine ⟨waiting.can, by simp, waiting.once, ?_, ?_, ?_, idle⟩
    · intro r mem
      have passed := behind r mem
      simp only [Ahead, Fin.lt_def] at passed ⊢
      split_ifs at passed ⊢ <;> omega
    · simp only [distance]
      split_ifs at closer ⊢ <;> omega
    · intro i' served' same
      rw [Place.scan.injEq] at same
      omega
  · have cannot := idle q
    simp only [waiting.can] at cannot
    cases cannot
  · refine ⟨waiting.can, by simp, waiting.once, ?_, ?_, ?_, idle⟩
    · intro r mem
      have passed := behind r mem
      simp only [Ahead, Fin.lt_def] at passed ⊢
      split_ifs at passed ⊢ <;> omega
    · simp only [distance]
      split_ifs at closer ⊢ <;> omega
    · intro i' served' same
      rw [Place.scan.injEq] at same
      omega

theorem waiting_worked {p : Fin n} {served : ℕ} {event : Event} {r : State × Bool}
    (considerate : Considerate m) (waiting : Waiting m q cpu)
    (place : cpu.place = .running p served) (done : m.work p cpu.state event = some r)
    (idle : Idle m (worked cpu p served r)) : Waiting m q (worked cpu p served r) := by
  have different : q ≠ p := by
    rintro rfl
    exact waiting.other served place
  have can := considerate different done waiting.can
  have closer := waiting.closer
  have behind := waiting.behind
  have apart : q.val ≠ p.val := fun same => different (Fin.ext same)
  rw [place] at closer
  simp only [place] at behind
  rcases r with ⟨state, gone⟩
  cases gone with
  | false =>
      refine ⟨can, ?_, waiting.once, behind, closer, by simp [worked], idle⟩
      intro served' running
      exact waiting.other served' (place.trans running)
  | true =>
      refine ⟨can, by simp [worked], waiting.once, ?_, ?_, ?_, idle⟩
      · intro r mem
        have passed := behind r mem
        simp only [worked, if_true, Ahead, Fin.lt_def] at passed ⊢
        split_ifs at passed ⊢ <;> omega
      · simp only [worked, if_true, distance, Fin.lt_def] at closer ⊢
        split_ifs at closer ⊢ <;> omega
      · intro i served' same
        have inside := p.isLt
        simp only [worked, if_true, Place.scan.injEq] at same
        omega

theorem given_subset (stepped : step m cpu act = some cpu') : cpu.given ⊆ cpu'.given := by
  rcases step_cases stepped with ⟨i, served, _, rfl⟩ | ⟨p, served, event, r, _, _, rfl⟩ |
    ⟨state, _, rfl⟩
  · rw [look]
    split_ifs
    · exact List.subset_cons_self _ _
    · exact List.Subset.refl _
    · exact List.Subset.refl _
    · exact List.Subset.refl _
  · exact List.Subset.refl _
  · exact List.Subset.refl _

theorem waiting_step (considerate : Considerate m) (waiting : Waiting m q cpu)
    (stepped : step m cpu act = some cpu') (notGiven : q ∉ cpu'.given) : Waiting m q cpu' := by
  have idle := idle_step waiting.idle stepped
  rcases step_cases stepped with ⟨i, served, place, rfl⟩ |
    ⟨p, served, event, r, place, done, rfl⟩ | ⟨state, place, rfl⟩
  · exact waiting_look waiting place notGiven
  · exact waiting_worked considerate waiting place done idle
  · have cannot := waiting.idle
    simp only [Idle, place] at cannot
    have can := waiting.can
    rw [cannot q] at can
    cases can

theorem there_step (there : ∀ i served, cpu.place = .scan i served → i ≤ n)
    (stepped : step m cpu act = some cpu') :
    ∀ i served, cpu'.place = .scan i served → i ≤ n := by
  intro i' served' place'
  rcases step_cases stepped with ⟨i, served, place, rfl⟩ |
    ⟨p, served, event, r, place, done, rfl⟩ | ⟨state, place, rfl⟩
  · have inside := there i served place
    rw [look] at place'
    split_ifs at place' <;> simp only [Place.scan.injEq] at place' <;> omega
  · have inside := p.isLt
    simp only [worked] at place'
    split_ifs at place'
    simp only [Place.scan.injEq] at place'
    omega
  · simp only [interrupted, Place.scan.injEq] at place'
    omega

/-- The counts begin anew. -/
def counted (cpu : Cpu n State) : Cpu n State := { cpu with given := [], looks := 0 }

/-- From when a process can run until it is given the processor, no other is given it twice, and
there are at most `n` looks. -/
theorem served (considerate : Considerate m) (starts : Starts cpu₀)
    (reach : Reach (step m) Always cpu₀ cpu) (can : m.runnable cpu.state q = true)
    (other : ∀ served, cpu.place ≠ .running q served)
    (later : Reach (step m) Always (counted cpu) cpu') (notGiven : q ∉ cpu'.given) :
    m.runnable cpu'.state q = true ∧ cpu'.given.Nodup ∧ cpu'.looks ≤ n := by
  have there : ∀ i served, cpu.place = .scan i served → i ≤ n := by
    apply reach.invariant
    · intro i served place
      rw [starts, Place.scan.injEq] at place
      omega
    · exact fun there _ stepped => there_step there stepped
  have idle : Idle m cpu := idle_of_reach starts reach
  have near : distance q cpu.place ≤ n := distance_le there
  have waiting : Waiting m q cpu' := by
    induction later with
    | start =>
        refine ⟨can, other, List.nodup_nil, fun r mem => absurd mem List.not_mem_nil, ?_, there,
          idle⟩
        exact (Nat.zero_add _).trans_le near
    | next _ _ stepped ih =>
        have before := ih fun mem => notGiven (given_subset stepped mem)
        exact waiting_step considerate before stepped notGiven
  exact ⟨waiting.can, waiting.once, Nat.le_of_add_right_le waiting.closer⟩

end RoundRobin
