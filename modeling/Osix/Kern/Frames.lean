import Osix.Kern.Signals

/-!
# The registers that a signal interrupts

`postsig` saves the interrupted registers in the one frame that a process has for that
purpose, and `sigreturn` restores them from it. The frame is that of the signal delivered
last: `sigreturn` restores the right registers when its signal was the last one delivered
to the process itself and its handler is still running. A signal delivered inside the
handler of another one, a fork inside a handler and a `sigreturn` outside every handler
lead to other runs.
-/

namespace Osix.Kern

open Transition

namespace Sys

/--
`sigreturn` restores the registers that the running delivery of its signal interrupted,
and leaves the registers alone when no handler is running.
-/
def Restores (sys : Sys) (p : Slot) (frame : Frame) (sig : ℤ) (sys' : Sys) : Prop :=
  (∀ delivery ∈ sys.past.running p, (delivery.sig : ℤ) = sig →
    (sys'.proc p).context = delivery.frame) ∧
  (sys.past.running p = [] → (sys'.proc p).context = frame)

/-- The last signal delivered to the process is this one, and its handler is running. -/
def LastDelivered (sys : Sys) (p : Slot) (sig : ℤ) : Prop :=
  (sys.past.delivered p).head?.map (fun delivery => (delivery.sig : ℤ)) = some sig ∧
  ∃ delivery ∈ sys.past.running p, (delivery.sig : ℤ) = sig

instance (sys : Sys) (p : Slot) (sig : ℤ) : Decidable (sys.LastDelivered p sig) :=
  inferInstanceAs (Decidable (_ ∧ _))

/-- Every `sigreturn` is that of the last signal delivered. -/
def ReturnsFromLast (sys : Sys) (act : Act) : Prop :=
  ∀ p frame sig, act = .trap p frame (.sigreturn sig) → sys.LastDelivered p sig

/-! ## The saved frame -/

/-- The signal state of one process. -/
structure FrameInv (sys : Sys) (p : Slot) : Prop where
  valid : ∀ delivery ∈ sys.past.running p, IsSignal delivery.sig
  masked : ∀ delivery ∈ sys.past.running p, (sys.proc p).Masked delivery.sig
  saved : ∀ delivery, (sys.past.delivered p).head? = some delivery →
    (sys.proc p).sigact.context = delivery.frame
  once : ∀ delivery, (sys.past.delivered p).head? = some delivery →
    ∀ other ∈ sys.past.running p, other.sig = delivery.sig → other = delivery

/-- The signal state of every process. -/
def Framed (sys : Sys) : Prop := ∀ p, (sys.proc p).state ≠ .null → FrameInv sys p

/-- A step that delivers no signal and returns from none. -/
structure Calm (sys sys' : Sys) : Prop where
  alive : ∀ p, (sys'.proc p).state ≠ .null → (sys.proc p).state ≠ .null
  mask : ∀ p, (sys'.proc p).sigMask = (sys.proc p).sigMask
  saved : ∀ p, (sys'.proc p).sigact.context = (sys.proc p).sigact.context
  delivered : sys'.past.delivered = sys.past.delivered
  running : sys'.past.running = sys.past.running

theorem Calm.trans {sys sys' sys'' : Sys} (first : Calm sys sys') (second : Calm sys' sys'') :
    Calm sys sys'' where
  alive p live := first.alive p (second.alive p live)
  mask p := (second.mask p).trans (first.mask p)
  saved p := (second.saved p).trans (first.saved p)
  delivered := second.delivered.trans first.delivered
  running := second.running.trans first.running

theorem FrameInv.calm {sys sys' : Sys} {p : Slot} (inv : FrameInv sys p) (calm : Calm sys sys') :
    FrameInv sys' p := by
  refine ⟨?_, ?_, ?_, ?_⟩
  · simpa [calm.running] using inv.valid
  · simpa [calm.running, Proc.Masked, calm.mask] using inv.masked
  · simpa [calm.delivered, calm.saved] using inv.saved
  · simpa [calm.running, calm.delivered] using inv.once

theorem Framed.calm {sys sys' : Sys} (framed : Framed sys) (calm : Calm sys sys') :
    Framed sys' := by
  intro p live
  exact (framed p (calm.alive p live)).calm calm

theorem calm_set (sys : Sys) (p : Slot) {change : Proc → Proc}
    (alive : (change (sys.proc p)).state ≠ .null → (sys.proc p).state ≠ .null)
    (mask : (change (sys.proc p)).sigMask = (sys.proc p).sigMask)
    (saved : (change (sys.proc p)).sigact.context = (sys.proc p).sigact.context) :
    Calm sys (sys.set p change) where
  alive q := by
    rcases eq_or_ne q p with rfl | different
    · simpa [set] using alive
    · simp [set, Function.update_of_ne different]
  mask q := by
    rcases eq_or_ne q p with rfl | different
    · simpa [set] using mask
    · simp [set, Function.update_of_ne different]
  saved q := by
    rcases eq_or_ne q p with rfl | different
    · simpa [set] using saved
    · simp [set, Function.update_of_ne different]
  delivered := rfl
  running := rfl

theorem calm_wakeup (sys : Sys) (wchan : Slot) : Calm sys (sys.wakeup wchan) where
  alive p := by
    simp only [wakeup]
    split
    · rename_i asleep
      simp [asleep.1]
    · exact id
  mask p := by
    simp only [wakeup]
    split <;> rfl
  saved p := by
    simp only [wakeup]
    split <;> rfl
  delivered := rfl
  running := rfl

/-- Only the entries, the pid counter and the place of the processes are as before. -/
theorem Calm.congr {sys sys' sys'' : Sys} (calm : Calm sys sys') (proc : sys''.proc = sys'.proc)
    (delivered : sys''.past.delivered = sys'.past.delivered)
    (running : sys''.past.running = sys'.past.running) : Calm sys sys'' where
  alive p := by
    rw [proc]
    exact calm.alive p
  mask p := by
    rw [proc]
    exact calm.mask p
  saved p := by
    rw [proc]
    exact calm.saved p
  delivered := delivered.trans calm.delivered
  running := running.trans calm.running

theorem Calm.refl (sys : Sys) : Calm sys sys := ⟨fun _ => id, fun _ => rfl, fun _ => rfl, rfl, rfl⟩

theorem calm_returns (sys : Sys) (p : Slot) (value : Word) : Calm sys (sys.returns p value) := by
  have set : Calm sys
      (sys.set p fun old => { old with context := { old.context with eax := value } }) :=
    sys.calm_set p id rfl rfl
  exact set.congr rfl rfl rfl

theorem calm_kill (sys : Sys) (pid sig : ℤ) : Calm sys (sys.kill pid sig).1 := by
  simp only [kill, killpgrp]
  split
  · exact .refl sys
  · split
    · refine ⟨?_, ?_, ?_, rfl, rfl⟩
      all_goals
        intro p
        dsimp only
        split
        · simp [Proc.killproc]
        · simp
    · split
      · rename_i p _
        have killed : Calm sys (sys.set p (·.killproc sig)) := sys.calm_set p id rfl rfl
        exact killed
      · exact .refl sys

theorem calm_exitOrphans (p : Slot) (slots : List Slot) (sys : Sys) :
    Calm sys (exitOrphans p slots sys) := by
  induction slots generalizing sys with
  | nil => exact .refl sys
  | cons i rest ih =>
      simp only [exitOrphans]
      split
      · have adopted : Calm sys (sys.set i fun old => { old with parent := some 0 }) :=
          sys.calm_set i id rfl rfl
        split
        · exact (adopted.trans (calm_wakeup _ 0)).trans (ih _)
        · exact adopted.trans (ih _)
      · exact ih sys

theorem calm_procExit {sys sys' : Sys} {p : Slot} {status : ℤ} (alive : (sys.proc p).state ≠ .null)
    (exited : sys.procExit p status = some sys') : Calm sys sys' := by
  simp only [procExit] at exited
  split at exited
  · cases exited
  · rename_i parent _
    cases exited
    have orphaned := calm_exitOrphans p (List.finRange nproc) sys
    have woken := orphaned.trans (calm_wakeup _ parent)
    refine ⟨?_, ?_, ?_, rfl, rfl⟩
    · intro q live
      rcases eq_or_ne q p with rfl | different
      · exact alive
      · apply woken.alive q
        simpa [set, Function.update_of_ne different] using live
    · intro q
      rw [← woken.mask q]
      rcases eq_or_ne q p with rfl | different
      · simp [set]
      · simp [set, Function.update_of_ne different]
    · intro q
      rw [← woken.saved q]
      rcases eq_or_ne q p with rfl | different
      · simp [set]
      · simp [set, Function.update_of_ne different]

theorem framed_fork {sys : Sys} {p : Slot} (framed : Framed sys)
    (alive : (sys.proc p).state ≠ .null) : Framed (sys.fork p).1 := by
  rcases sys.fork_cases alive with ⟨same, _⟩ | ⟨child, _, cleared, _⟩ | ⟨child, free, _, forked, _⟩
  · rwa [same]
  · rw [cleared]
    intro q live
    rcases eq_or_ne q child with rfl | different
    · simp [set, Proc.zero] at live
    · simp only [set, Function.update_of_ne different] at live
      have inv := framed q live
      refine ⟨inv.valid, ?_, ?_, inv.once⟩
      · simpa [set, Function.update_of_ne different] using inv.masked
      · simpa [set, Function.update_of_ne different] using inv.saved
  · rw [forked]
    intro q live
    rcases eq_or_ne q child with rfl | different
    · have inv := framed p alive
      refine ⟨?_, ?_, ?_, ?_⟩
      · simpa using inv.valid
      · simpa [Proc.inherit, Proc.Masked] using inv.masked
      · simp
      · simp
    · simp only [Function.update_of_ne different] at live
      have inv := framed q live
      refine ⟨?_, ?_, ?_, ?_⟩
      · simpa [Function.update_of_ne different] using inv.valid
      · simpa [Function.update_of_ne different] using inv.masked
      · simpa [Function.update_of_ne different] using inv.saved
      · simpa [Function.update_of_ne different] using inv.once

theorem calm_wait (sys : Sys) {p : Slot} (alive : (sys.proc p).state ≠ .null) :
    Calm sys (sys.wait p) := by
  simp only [wait]
  split
  · rename_i child _
    have freed : Calm sys (sys.set child fun old => { old with state := .null }) :=
      sys.calm_set child (by simp) rfl rfl
    exact (freed.trans (calm_returns _ p _)).congr rfl rfl rfl
  · split
    · split
      · exact calm_returns sys p _
      · have asleep : Calm sys
            (sys.set p fun old => { old with wchan := some p, state := .sleep }) :=
          sys.calm_set p (fun _ => alive) rfl rfl
        exact asleep.congr rfl rfl rfl
    · exact calm_returns sys p _

/-- After a return from the last signal delivered the other handlers are still masked. -/
theorem framed_sigreturn {sys : Sys} {p : Slot} {sig : ℤ} (framed : Framed sys)
    (last : sys.LastDelivered p sig) : Framed (sys.sigreturn p sig) := by
  intro q live
  rcases eq_or_ne q p with rfl | different
  · have alive : (sys.proc q).state ≠ .null := by
      simpa [sigreturn, set, Proc.sigreturn] using live
    have inv := framed q alive
    rcases last.2 with ⟨returned, returnedRunning, rfl⟩
    have returnedValid := inv.valid returned returnedRunning
    refine ⟨?_, ?_, ?_, ?_⟩
    · intro delivery member
      simp only [sigreturn, Function.update_self, List.mem_filter] at member
      exact inv.valid delivery member.1
    · intro delivery member
      simp only [sigreturn, Function.update_self, List.mem_filter, decide_eq_true_eq] at member
      have valid := inv.valid delivery member.1
      have masked := inv.masked delivery member.1
      have notReturned : delivery.sig ≠ returned.sig := by
        intro same
        exact member.2 (by exact_mod_cast same)
      have small : delivery.sig - 1 < 32 := by
        simp only [IsSignal, nsig] at valid
        omega
      simp only [Proc.Masked] at masked ⊢
      simp only [sigreturn, set, Function.update_self, Proc.sigreturn, BitVec.getLsbD_and,
        BitVec.getLsbD_not, sigBit_getLsbD returnedValid valid, masked]
      simp [small, notReturned]
    · simpa [sigreturn, set, Proc.sigreturn] using inv.saved
    · intro delivery latest other member same
      simp only [sigreturn, Function.update_self, List.mem_filter] at member
      exact inv.once delivery latest other member.1 same
  · have alive : (sys.proc q).state ≠ .null := by
      simpa [sigreturn, set, Function.update_of_ne different] using live
    have inv := framed q alive
    refine ⟨?_, ?_, ?_, ?_⟩
    · simpa [sigreturn, Function.update_of_ne different] using inv.valid
    · simpa [sigreturn, set, Function.update_of_ne different] using inv.masked
    · simpa [sigreturn, set, Function.update_of_ne different] using inv.saved
    · simpa [sigreturn, Function.update_of_ne different] using inv.once

/-- The check for signals posts none, or ends the process, or starts a handler. -/
theorem leave_cases {sys sys' : Sys} {p : Slot} (left : sys.leave p = some sys') :
    sys' = { sys with curProc := none } ∨
    (∃ sig : ℕ, { sys with curProc := none }.procExit p sig = some sys') ∨
    ∃ sig ∈ (sys.proc p).deliverables, (sys.proc p).action sig = .handled ∧
      sys' =
        { sys.set p fun old => (old.postsig sig).1 with
          curProc := none
          past :=
            { sys.past with
              delivered := Function.update sys.past.delivered p
                (⟨sig, (sys.proc p).context⟩ :: sys.past.delivered p)
              running := Function.update sys.past.running p
                (⟨sig, (sys.proc p).context⟩ :: sys.past.running p) } } := by
  simp only [leave] at left
  split at left
  · rcases (sys.proc p).issignal_cases with ⟨_, called⟩ | ⟨sig, posted, _, called⟩
    · rw [called] at left
      exact Or.inl (Option.some.inj left).symm
    · rw [called] at left
      rcases taken : (sys.proc p).action sig with _ | _ | _
      · rw [taken] at left
        exact Or.inl (Option.some.inj left).symm
      · rw [taken] at left
        exact Or.inr (Or.inl ⟨sig, left⟩)
      · rw [taken] at left
        exact Or.inr (Or.inr ⟨sig, posted, taken, (Option.some.inj left).symm⟩)
  · exact Or.inl (Option.some.inj left).symm

theorem framed_leave {sys sys' : Sys} {p : Slot} (framed : Framed sys)
    (alive : (sys.proc p).state ≠ .null) (left : sys.leave p = some sys') : Framed sys' := by
  rcases leave_cases left with rfl | ⟨sig, exited⟩ | ⟨sig, posted, handled, rfl⟩
  · exact framed.calm ((Calm.refl sys).congr rfl rfl rfl)
  · have left : Calm sys { sys with curProc := none } := (Calm.refl sys).congr rfl rfl rfl
    exact framed.calm (left.trans (calm_procExit alive exited))
  · rw [Proc.mem_deliverables] at posted
    rcases posted with ⟨valid, _, unmasked⟩
    intro q live
    rcases eq_or_ne q p with rfl | different
    · have inv := framed q alive
      refine ⟨?_, ?_, ?_, ?_⟩
      · intro delivery member
        simp only [Function.update_self, List.mem_cons] at member
        rcases member with rfl | earlier
        · exact valid
        · exact inv.valid delivery earlier
      · intro delivery member
        simp only [Function.update_self, List.mem_cons] at member
        simp only [set, Function.update_self, Proc.postsig_handled handled, Proc.Masked,
          BitVec.getLsbD_or, Bool.or_eq_true]
        rcases member with rfl | earlier
        · right
          simp [sigBit_getLsbD valid valid]
        · left
          exact inv.masked delivery earlier
      · intro delivery latest
        simp only [Function.update_self, List.head?_cons, Option.some.injEq] at latest
        simp [set, Proc.postsig_handled handled, ← latest]
      · intro delivery latest other member same
        simp only [Function.update_self, List.head?_cons, Option.some.injEq] at latest
        simp only [Function.update_self, List.mem_cons] at member
        rcases member with rfl | earlier
        · exact latest
        · -- The handler of a masked signal is not started again.
          have masked := inv.masked other earlier
          rw [same, ← latest] at masked
          exact absurd masked unmasked
    · have inv := framed q (by simpa [set, Function.update_of_ne different] using live)
      refine ⟨?_, ?_, ?_, ?_⟩
      · simpa [Function.update_of_ne different] using inv.valid
      · simpa [set, Function.update_of_ne different] using inv.masked
      · simpa [set, Function.update_of_ne different] using inv.saved
      · simpa [Function.update_of_ne different] using inv.once

/-! ## Runs -/

theorem framed_sysent {sys sys' : Sys} {p : Slot} {call : Call} (framed : Framed sys)
    (alive : (sys.proc p).state ≠ .null)
    (last : ∀ sig, call = .sigreturn sig → sys.LastDelivered p sig)
    (called : sys.sysent p call = some sys') : Framed sys' := by
  cases call with
  | fork =>
      cases called
      exact (framed_fork framed alive).calm (calm_returns _ p _)
  | exit status => exact framed.calm (calm_procExit alive called)
  | wait =>
      cases called
      exact framed.calm (calm_wait sys alive)
  | kill pid sig =>
      cases called
      exact framed.calm ((sys.calm_kill pid sig).trans (calm_returns _ p _))
  | signal sig handler sigDispatcher =>
      cases called
      have installed : Calm sys
          (sys.set p fun _ => ((sys.proc p).kernSignal sig handler sigDispatcher).1) := by
        simp only [Proc.kernSignal]
        split
        · exact sys.calm_set p id rfl rfl
        · exact sys.calm_set p id rfl rfl
      exact framed.calm (installed.trans (calm_returns _ p _))
  | sigreturn sig =>
      cases called
      exact framed_sigreturn framed (last sig rfl)

theorem Runnable.live {sys : Sys} {p : Slot} (runnable : sys.Runnable p) : (sys.proc p).Live := by
  rcases runnable with running | ⟨asleep, _⟩
  · simp [Proc.Live, running]
  · simp [Proc.Live, asleep]

/-- A process whose call is finished is neither free nor a zombie. -/
def CurLive (sys : Sys) : Prop := ∀ p, sys.curProc = some p → (sys.proc p).Live

theorem curLive_returns {sys : Sys} {p : Slot} (live : (sys.proc p).Live) (value : Word) :
    CurLive (sys.returns p value) := by
  rintro q ⟨⟩
  simpa [returns, set, Proc.Live] using live

theorem curLive_wait {sys : Sys} {p : Slot} (live : (sys.proc p).Live) : CurLive (sys.wait p) := by
  simp only [wait]
  split
  · rename_i child found
    have zombie : (sys.proc child).state = .zombie := by
      have chosen := List.find?_some found
      simp_all
    have different : p ≠ child := by
      rintro rfl
      exact live.2 zombie
    rintro q ⟨⟩
    simpa [returns, set, Function.update_of_ne different, Proc.Live] using live
  · split
    · split
      · exact curLive_returns live _
      · rintro q ⟨⟩
    · exact curLive_returns live _

theorem curLive_procExit {sys sys' : Sys} {p : Slot} {status : ℤ}
    (exited : sys.procExit p status = some sys') : CurLive sys' := by
  simp only [procExit] at exited
  split at exited
  · cases exited
  · cases exited
    rintro q ⟨⟩

theorem curLive_sysent {sys sys' : Sys} {p : Slot} {call : Call} (live : (sys.proc p).Live)
    (called : sys.sysent p call = some sys') : CurLive sys' := by
  cases call with
  | fork =>
      cases called
      apply curLive_returns
      rcases sys.fork_cases live.1 with
        ⟨same, _⟩ | ⟨child, free, cleared, _⟩ | ⟨child, free, _, forked, _⟩
      · rwa [same]
      all_goals
        have different : p ≠ child := by
          rintro rfl
          exact live.1 free
      · simpa [cleared, set, Function.update_of_ne different] using live
      · simpa [forked, Function.update_of_ne different] using live
  | exit status => exact curLive_procExit called
  | wait =>
      cases called
      exact curLive_wait live
  | kill pid sig =>
      cases called
      apply curLive_returns
      simp only [kill, killpgrp]
      split
      · exact live
      · split
        · dsimp only
          split
          · exact live
          · exact live
        · split
          · rename_i killed _
            rcases eq_or_ne p killed with rfl | different
            · simpa [set, Proc.killproc, Proc.Live] using live
            · simpa [set, Function.update_of_ne different] using live
          · exact live
  | signal sig handler sigDispatcher =>
      cases called
      apply curLive_returns
      simp only [Proc.kernSignal]
      split
      · simpa [set] using live
      · simpa [set, Proc.Live] using live
  | sigreturn sig =>
      cases called
      rintro q ⟨⟩
      simpa [sigreturn, set, Proc.sigreturn, Proc.Live] using live

theorem curLive_step {sys sys' : Sys} {act : Act} (stepped : sys.step act = some sys') :
    CurLive sys' := by
  cases act with
  | trap p frame call =>
      simp only [step] at stepped
      split at stepped
      · rename_i ready
        apply curLive_sysent _ stepped
        simpa [set, Proc.Live] using ready.2.2.live
      · cases stepped
  | resume p =>
      simp only [step] at stepped
      split at stepped
      · rename_i ready
        cases stepped
        exact curLive_wait ready.2.2.live
      · cases stepped
  | leave =>
      simp only [step] at stepped
      split at stepped
      · cases stepped
      · rcases leave_cases stepped with rfl | ⟨sig, exited⟩ | ⟨sig, posted, handled, rfl⟩
        · rintro q ⟨⟩
        · exact curLive_procExit exited
        · rintro q ⟨⟩
  | interrupt pid sig =>
      simp only [step] at stepped
      split at stepped
      · rename_i nobody
        cases stepped
        intro q current
        have same : (sys.kill pid sig).1.curProc = sys.curProc := by
          simp only [kill, killpgrp]
          split
          · rfl
          · split
            · rfl
            · split <;> rfl
        rw [same, nobody] at current
        cases current
      · cases stepped

theorem framed_step {sys sys' : Sys} {act : Act} (framed : Framed sys) (curLive : CurLive sys)
    (allowed : sys.ReturnsFromLast act) (stepped : sys.step act = some sys') : Framed sys' := by
  cases act with
  | trap p frame call =>
      simp only [step] at stepped
      split at stepped
      · rename_i ready
        have live := ready.2.2.live
        have entered : Calm sys (sys.set p fun old => { old with context := frame }) :=
          sys.calm_set p id rfl rfl
        apply framed_sysent (framed.calm entered) _ _ stepped
        · simpa [set] using live.1
        · rintro sig rfl
          exact allowed p frame sig rfl
      · cases stepped
  | resume p =>
      simp only [step] at stepped
      split at stepped
      · rename_i ready
        cases stepped
        exact framed.calm (calm_wait sys ready.2.2.live.1)
      · cases stepped
  | leave =>
      simp only [step] at stepped
      split at stepped
      · cases stepped
      · rename_i p current
        exact framed_leave framed (curLive p current).1 stepped
  | interrupt pid sig =>
      simp only [step] at stepped
      split at stepped
      · cases stepped
        exact framed.calm (sys.calm_kill pid sig)
      · cases stepped

theorem framed_boot (userEsp : Word) : Framed (boot userEsp) := by
  intro p _
  refine ⟨?_, ?_, ?_, ?_⟩
  all_goals simp [boot]

theorem framed_reach {userEsp : Word} {sys : Sys}
    (reach : Reach step ReturnsFromLast (boot userEsp) sys) : Framed sys ∧ CurLive sys := by
  apply reach.invariant
  · exact ⟨framed_boot userEsp, fun p current => by cases current⟩
  · intro state state' act inv allowed stepped
    exact ⟨framed_step inv.1 inv.2 allowed stepped, curLive_step stepped⟩

/--
In every run in which each `sigreturn` is that of the last signal delivered to its caller,
whose handler is still running, it restores the registers that this signal interrupted.
-/
theorem sigreturn_restores {userEsp : Word} {sys sys' : Sys} {p : Slot} {frame : Frame} {sig : ℤ}
    (reach : Reach step ReturnsFromLast (boot userEsp) sys)
    (allowed : sys.ReturnsFromLast (.trap p frame (.sigreturn sig)))
    (stepped : sys.step (.trap p frame (.sigreturn sig)) = some sys') :
    sys.Restores p frame sig sys' := by
  have last := allowed p frame sig rfl
  rcases last with ⟨latestSig, running⟩
  rcases Option.map_eq_some_iff.mp latestSig with ⟨latest, head, rfl⟩
  simp only [step, sysent] at stepped
  split at stepped
  · rename_i ready
    cases stepped
    have inv := (framed_reach reach).1 p ready.2.2.live.1
    refine ⟨?_, ?_⟩
    · intro delivery member same
      have latestRunning := inv.once latest head delivery member (by exact_mod_cast same)
      rw [latestRunning, ← inv.saved latest head]
      simp [sigreturn, set, Proc.sigreturn]
    · intro none
      rcases running with ⟨delivery, member, _⟩
      simp [none] at member
  · cases stepped

/-! ## Two runs of init -/

/-- The registers at an address of the program. -/
def atEip (eip : Word) : Frame := { userContext 0 with eip := eip }

/-- Init installs handlers for two signals and sends itself the first one. -/
def inHandler : List Act :=
  [.trap 0 (atEip 0x100010) (.signal 1 0x100100 0x100080), .leave,
    .trap 0 (atEip 0x100020) (.signal 2 0x100200 0x100080), .leave,
    .trap 0 (atEip 0x100030) (.kill 1 1), .leave]

/-- In the handler init sends itself the second signal and returns from its handler. -/
def nestedHandler : List Act :=
  [.trap 0 (atEip 0x100110) (.kill 1 2), .leave, .trap 0 (atEip 0x100090) (.sigreturn 2), .leave]

/-- A decidable form of the condition. -/
def returnsFromLast (sys : Sys) : Act → Bool
  | .trap p _ (.sigreturn sig) => decide (sys.LastDelivered p sig)
  | _ => true

theorem returnsFromLast_sound (sys : Sys) (act : Act) (checked : sys.returnsFromLast act = true) :
    sys.ReturnsFromLast act := by
  rintro p frame sig rfl
  exact of_decide_eq_true checked

theorem sigreturn_restores_first :
    ∃ sys sys', Reach step ReturnsFromLast (boot 0) sys ∧
      sys.step (.trap 0 (atEip 0x100090) (.sigreturn 1)) = some sys' ∧
      sys.Restores 0 (atEip 0x100090) 1 sys' := by
  have observed : (runChecked step returnsFromLast (boot 0) inHandler).any (fun sys =>
      sys.returnsFromLast (.trap 0 (atEip 0x100090) (.sigreturn 1)) &&
        (sys.step (.trap 0 (atEip 0x100090) (.sigreturn 1))).isSome) = true := by decide
  rcases reach_of_observedChecked returnsFromLast_sound observed with ⟨sys, reach, checked⟩
  rw [Bool.and_eq_true, Option.isSome_iff_exists] at checked
  rcases checked with ⟨allowed, sys', stepped⟩
  have allowedStep := returnsFromLast_sound sys _ allowed
  exact ⟨sys, sys', reach, stepped, sigreturn_restores reach allowedStep stepped⟩

/-- The return from the outer of two handlers goes to where the inner one was started. -/
theorem not_restores_nested :
    ∃ sys sys', Reach step Always (boot 0) sys ∧
      sys.step (.trap 0 (atEip 0x100090) (.sigreturn 1)) = some sys' ∧
      ¬sys.Restores 0 (atEip 0x100090) 1 sys' := by
  have observed : (run step (boot 0) (inHandler ++ nestedHandler)).any (fun sys =>
      (sys.step (.trap 0 (atEip 0x100090) (.sigreturn 1))).any fun sys' =>
        decide (∃ delivery ∈ sys.past.running 0, (delivery.sig : ℤ) = 1 ∧
          (sys'.proc 0).context ≠ delivery.frame)) = true := by decide +kernel
  rcases reach_of_observed observed with ⟨sys, reach, checked⟩
  rw [Option.any_eq_true] at checked
  rcases checked with ⟨sys', stepped, wrong⟩
  rcases of_decide_eq_true wrong with ⟨delivery, member, same, different⟩
  refine ⟨sys, sys', reach, stepped, ?_⟩
  intro restores
  exact different (restores.1 delivery member same)

end Sys

end Osix.Kern
