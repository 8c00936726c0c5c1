import Osix.Kern.Basic
import Mathlib.Data.Finset.Card
import Mathlib.Order.Interval.Finset.Nat

/-!
# Pending signals

`issignal` posts the lowest signal that is pending and not masked. A signal with a handler
is then no longer pending, one with the default action ends the process, but one that is
ignored stays pending: it is found again by every later call, and no higher signal is
posted any more. A process consumes its pending signals exactly when below each ignored
one there is one that ends the process.
-/

namespace Osix.Kern

/-- The signals of `issignal`'s loop. -/
def IsSignal (sig : ℕ) : Prop := 1 ≤ sig ∧ sig < nsig

instance (sig : ℕ) : Decidable (IsSignal sig) := inferInstanceAs (Decidable (_ ∧ _))

/-! ## Signal sets -/

theorem sigBit_eq {sig : ℕ} (valid : IsSignal sig) : sigBit sig = BitVec.twoPow 32 (sig - 1) := by
  have small : ((sig : ℤ) - 1) % 32 = ((sig - 1 : ℕ) : ℤ) := by
    simp only [IsSignal, nsig] at valid
    omega
  rw [sigBit, small, Int.toNat_natCast, BitVec.twoPow_eq]

theorem sigBit_getLsbD {sig other : ℕ} (valid : IsSignal sig) (otherValid : IsSignal other) :
    (sigBit sig).getLsbD (other - 1) = decide (other = sig) := by
  rw [sigBit_eq valid, BitVec.getLsbD_twoPow]
  simp only [IsSignal, nsig] at valid otherValid
  have small : sig - 1 < 32 := by omega
  have same : sig - 1 = other - 1 ↔ other = sig := by omega
  simp [small, same]

theorem and_sigBit_ne_zero {word : Word} {sig : ℕ} (valid : IsSignal sig) :
    word &&& sigBit sig ≠ 0 ↔ word.getLsbD (sig - 1) = true := by
  rw [sigBit_eq valid, BitVec.and_twoPow]
  simp only [IsSignal, nsig] at valid
  split
  · rename_i set
    simp only [set, iff_true]
    intro zero
    have bit := congrArg (BitVec.getLsbD · (sig - 1)) zero
    simp at bit
    omega
  · rename_i clear
    simp [clear]

namespace Proc

/-- The signal is pending. -/
def Pending (p : Proc) (sig : ℕ) : Prop := p.sigPending.getLsbD (sig - 1) = true

/-- The signal is masked. -/
def Masked (p : Proc) (sig : ℕ) : Prop := p.sigMask.getLsbD (sig - 1) = true

instance (p : Proc) (sig : ℕ) : Decidable (p.Pending sig) := inferInstanceAs (Decidable (_ = _))

instance (p : Proc) (sig : ℕ) : Decidable (p.Masked sig) := inferInstanceAs (Decidable (_ = _))

/-- The signals that `issignal` can post. -/
def deliverables (p : Proc) : Finset ℕ := (Finset.Ico 1 nsig).filter fun sig => p.deliverable sig

theorem mem_deliverables {p : Proc} {sig : ℕ} :
    sig ∈ p.deliverables ↔ IsSignal sig ∧ p.Pending sig ∧ ¬p.Masked sig := by
  simp only [deliverables, Finset.mem_filter, Finset.mem_Ico]
  apply and_congr_right
  intro valid
  rw [deliverable, decide_eq_true_iff, and_sigBit_ne_zero valid]
  have small : sig - 1 < 32 := by
    simp only [nsig] at valid
    omega
  simp [Pending, Masked, small]

theorem card_deliverables_le (p : Proc) : p.deliverables.card ≤ nsig := by
  have bounded := Finset.card_filter_le (Finset.Ico 1 nsig) fun sig => p.deliverable sig = true
  have size : (Finset.Ico 1 nsig).card = nsig - 1 := Nat.card_Ico 1 nsig
  apply bounded.trans
  omega

/-! ## One call of `issignal` -/

/-- The handler of a signal. -/
def handler (p : Proc) (sig : ℕ) : Word := p.sigact.handlers (sig - 1)

/-- The action that the handler table gives for a signal. -/
def action (p : Proc) (sig : ℕ) : Posted :=
  if p.handler sig = sigIgn then .ignored else if p.handler sig = sigDfl then .sigexit else .handled

theorem postsig_action (p : Proc) (sig : ℕ) : (p.postsig sig).2 = p.action sig := by
  by_cases ignored : p.handler sig = sigIgn
  · simp_all [postsig, action, handler]
  · by_cases default : p.handler sig = sigDfl
    · simp_all [postsig, action, handler]
    · simp_all [postsig, action, handler]

theorem postsig_unhandled {p : Proc} {sig : ℕ} (unhandled : p.action sig ≠ .handled) :
    (p.postsig sig).1 = p := by
  simp only [postsig, action, handler] at unhandled ⊢
  split
  · rfl
  · split
    · rfl
    · simp_all

theorem postsig_handled {p : Proc} {sig : ℕ} (handled : p.action sig = .handled) :
    (p.postsig sig).1 =
      { p with
        sigact := { p.sigact with context := p.context }
        context :=
          { p.context with
            eip := p.sigact.dispatcher
            ecx := BitVec.ofNat 32 sig
            edx := p.sigact.handlers (sig - 1) }
        sigMask := p.sigMask ||| sigBit sig
        sigPending := p.sigPending &&& ~~~sigBit sig
        state := .running } := by
  simp only [postsig, action, handler] at handled ⊢
  split
  · simp_all
  · split
    · simp_all
    · rfl

/-- `issignal` posts the lowest signal it can. -/
theorem issignal_cases (p : Proc) :
    (p.deliverables = ∅ ∧ p.issignal = (p, none)) ∨
    ∃ sig ∈ p.deliverables, (∀ lower ∈ p.deliverables, sig ≤ lower) ∧
      p.issignal = ((p.postsig sig).1, some (sig, p.action sig)) := by
  have range : ∀ sig, sig ∈ List.range' 1 (nsig - 1) ↔ 1 ≤ sig ∧ sig < nsig := by
    intro sig
    simp only [List.mem_range'_1, nsig]
  rcases found : (List.range' 1 (nsig - 1)).find? p.deliverable with _ | sig
  · left
    refine ⟨?_, by simp [issignal, found]⟩
    apply Finset.filter_eq_empty_iff.mpr
    intro sig member
    apply List.find?_eq_none.mp found
    rw [range]
    exact Finset.mem_Ico.mp member
  · right
    rw [List.find?_range'_eq_some] at found
    rcases found with ⟨posted, member, lowest⟩
    refine ⟨sig, ?_, ?_, ?_⟩
    · rw [deliverables, Finset.mem_filter, Finset.mem_Ico]
      exact ⟨(range sig).mp member, posted⟩
    · intro lower lowerMember
      rw [deliverables, Finset.mem_filter, Finset.mem_Ico] at lowerMember
      by_contra below
      have notPosted := lowest lower lowerMember.1.1 (by omega)
      simp [lowerMember.2] at notPosted
    · rw [issignal, List.find?_range'_eq_some.mpr ⟨posted, member, lowest⟩]
      simp [postsig_action]

/-! ## A handler and its return -/

/-- A signal is posted to its handler, and the handler ends with `sigreturn`. -/
def handle (p : Proc) (sig : ℕ) : Proc := (p.postsig sig).1.sigreturn sig

theorem handle_pending {p : Proc} {sig other : ℕ} (handled : p.action sig = .handled)
    (valid : IsSignal sig) (otherValid : IsSignal other) :
    (p.handle sig).Pending other ↔ p.Pending other ∧ other ≠ sig := by
  have small : other - 1 < 32 := by
    simp only [IsSignal, nsig] at otherValid
    omega
  simp only [Pending, handle, postsig_handled handled, sigreturn, BitVec.getLsbD_and,
    BitVec.getLsbD_not, sigBit_getLsbD valid otherValid]
  simp [small]

theorem handle_masked {p : Proc} {sig other : ℕ} (handled : p.action sig = .handled)
    (valid : IsSignal sig) (otherValid : IsSignal other) (unmasked : ¬p.Masked sig) :
    (p.handle sig).Masked other ↔ p.Masked other := by
  have small : other - 1 < 32 := by
    simp only [IsSignal, nsig] at otherValid
    omega
  simp only [Masked] at unmasked ⊢
  simp only [handle, postsig_handled handled, sigreturn, BitVec.getLsbD_and, BitVec.getLsbD_or,
    BitVec.getLsbD_not, sigBit_getLsbD valid otherValid]
  rcases eq_or_ne other sig with rfl | different
  · simp_all
  · simp [different, small]

theorem handle_action {p : Proc} {sig : ℕ} (handled : p.action sig = .handled) (other : ℕ) :
    (p.handle sig).action other = p.action other := by
  have same : (p.handle sig).handler other = p.handler other := by
    simp [handler, handle, postsig_handled handled, sigreturn]
  simp only [action, same]

theorem handle_deliverables {p : Proc} {sig : ℕ} (handled : p.action sig = .handled)
    (posted : sig ∈ p.deliverables) :
    (p.handle sig).deliverables = p.deliverables.erase sig := by
  rw [mem_deliverables] at posted
  rcases posted with ⟨valid, _, unmasked⟩
  ext other
  rw [Finset.mem_erase, mem_deliverables, mem_deliverables]
  constructor
  · rintro ⟨otherValid, pending, notMasked⟩
    rw [handle_pending handled valid otherValid] at pending
    rw [handle_masked handled valid otherValid unmasked] at notMasked
    exact ⟨pending.2, otherValid, pending.1, notMasked⟩
  · rintro ⟨different, otherValid, pending, notMasked⟩
    rw [handle_pending handled valid otherValid,
      handle_masked handled valid otherValid unmasked]
    exact ⟨otherValid, ⟨pending, different⟩, notMasked⟩

/-! ## Repeated calls of `issignal` -/

/--
A number of calls of `issignal`, with the signals posted and the actions taken for them.
A handler ends with `sigreturn` before the next call; after `sigexit` there is no further
call.
-/
def drain : ℕ → Proc → Proc × List (ℕ × Posted)
  | 0, p => (p, [])
  | calls + 1, p =>
      match p.issignal with
      | (after, none) => drain calls after
      | (after, some (sig, .sigexit)) => (after, [(sig, .sigexit)])
      | (after, some (sig, .handled)) =>
          let rest := drain calls (after.sigreturn sig)
          (rest.1, (sig, .handled) :: rest.2)
      | (after, some (sig, .ignored)) =>
          let rest := drain calls after
          (rest.1, (sig, .ignored) :: rest.2)

/-- The process has been ended by a signal. -/
def Exited (posted : List (ℕ × Posted)) : Prop := ∃ sig, (sig, Posted.sigexit) ∈ posted

/--
Within `nsig` calls every signal that could be posted has been, exactly once, and is no
longer pending, unless a signal has ended the process; and `SIGKILL` ends it.
-/
def Consumes (p : Proc) : Prop :=
  let calls := drain nsig p
  (Exited calls.2 ∨
    ∀ sig ∈ p.deliverables, (calls.2.map Prod.fst).count sig = 1 ∧ ¬calls.1.Pending sig) ∧
  (sigkill ∈ p.deliverables → Exited calls.2)

/-- Below every ignored signal that can be posted there is one that ends the process. -/
def NoneIgnored (p : Proc) : Prop :=
  ∀ sig ∈ p.deliverables, p.action sig = .ignored →
    ∃ lower ∈ p.deliverables, lower < sig ∧ p.action lower = .sigexit

instance (p : Proc) : Decidable p.NoneIgnored :=
  inferInstanceAs (Decidable (∀ sig ∈ p.deliverables, p.action sig = .ignored →
    ∃ lower ∈ p.deliverables, lower < sig ∧ p.action lower = .sigexit))

theorem drain_nothing {p : Proc} (nothing : p.deliverables = ∅) (calls : ℕ) :
    drain calls p = (p, []) := by
  induction calls with
  | zero => rfl
  | succ calls ih =>
      rcases p.issignal_cases with ⟨_, same⟩ | ⟨sig, posted, _⟩
      · simp only [drain, same, ih]
      · simp [nothing] at posted

/-- What the first of several calls does, when there is a signal to post. -/
theorem drain_cases {p : Proc} (some : p.deliverables ≠ ∅) (calls : ℕ) :
    ∃ sig ∈ p.deliverables, (∀ lower ∈ p.deliverables, sig ≤ lower) ∧
      ((p.action sig = .sigexit ∧ drain (calls + 1) p = (p, [(sig, .sigexit)])) ∨
      (p.action sig = .ignored ∧
        drain (calls + 1) p = ((drain calls p).1, (sig, .ignored) :: (drain calls p).2)) ∨
      (p.action sig = .handled ∧
        drain (calls + 1) p = ((drain calls (p.handle sig)).1,
          (sig, .handled) :: (drain calls (p.handle sig)).2))) := by
  rcases p.issignal_cases with ⟨nothing, _⟩ | ⟨sig, posted, lowest, called⟩
  · exact absurd nothing some
  · refine ⟨sig, posted, lowest, ?_⟩
    rcases taken : p.action sig with _ | _ | _
    · right
      left
      have same : (p.postsig sig).1 = p := postsig_unhandled (by simp [taken])
      simp [drain, called, taken, same]
    · left
      have same : (p.postsig sig).1 = p := postsig_unhandled (by simp [taken])
      simp [drain, called, taken, same]
    · right
      right
      simp [drain, called, taken, handle]

/-- Only signals that can be posted are posted, each with the action of its handler. -/
theorem drain_posted {calls : ℕ} {p : Proc} {sig : ℕ} {taken : Posted}
    (posted : (sig, taken) ∈ (drain calls p).2) : sig ∈ p.deliverables ∧ taken = p.action sig := by
  induction calls generalizing p with
  | zero => simp [drain] at posted
  | succ calls ih =>
      rcases eq_or_ne p.deliverables ∅ with nothing | some
      · simp [drain_nothing nothing] at posted
      · rcases drain_cases some calls with
          ⟨first, deliverable, _, ⟨action, drained⟩ | ⟨action, drained⟩ | ⟨action, drained⟩⟩
        all_goals
          rw [drained] at posted
          simp only [List.mem_cons, List.not_mem_nil, or_false, Prod.mk.injEq] at posted
        · rcases posted with ⟨rfl, rfl⟩
          exact ⟨deliverable, action.symm⟩
        · rcases posted with ⟨rfl, rfl⟩ | later
          · exact ⟨deliverable, action.symm⟩
          · exact ih later
        · rcases posted with ⟨rfl, rfl⟩ | later
          · exact ⟨deliverable, action.symm⟩
          · rcases ih later with ⟨member, same⟩
            rw [handle_deliverables action deliverable] at member
            rw [handle_action action] at same
            exact ⟨Finset.mem_of_mem_erase member, same⟩

/-- No call makes a signal pending. -/
theorem drain_pending {calls : ℕ} {p : Proc} {sig : ℕ} (valid : IsSignal sig)
    (pending : (drain calls p).1.Pending sig) : p.Pending sig := by
  induction calls generalizing p with
  | zero => exact pending
  | succ calls ih =>
      rcases eq_or_ne p.deliverables ∅ with nothing | some
      · simpa [drain_nothing nothing] using pending
      · rcases drain_cases some calls with
          ⟨first, deliverable, _, ⟨action, drained⟩ | ⟨action, drained⟩ | ⟨action, drained⟩⟩
        all_goals rw [drained] at pending
        · exact pending
        · exact ih pending
        · have handled := ih pending
          rw [handle_pending action (mem_deliverables.mp deliverable).1 valid] at handled
          exact handled.1

theorem drain_consumes {calls : ℕ} {p : Proc} (enough : p.deliverables.card ≤ calls)
    (noneIgnored : p.NoneIgnored) :
    Exited (drain calls p).2 ∨
      ∀ sig ∈ p.deliverables,
        ((drain calls p).2.map Prod.fst).count sig = 1 ∧ ¬(drain calls p).1.Pending sig := by
  induction calls generalizing p with
  | zero =>
      right
      have nothing := Finset.card_eq_zero.mp (Nat.le_zero.mp enough)
      simp [nothing]
  | succ calls ih =>
      rcases eq_or_ne p.deliverables ∅ with nothing | some
      · simp [nothing]
      rcases drain_cases some calls with
        ⟨first, deliverable, lowest, ⟨action, drained⟩ | ⟨action, drained⟩ | ⟨action, drained⟩⟩
      · left
        rw [drained]
        exact ⟨first, List.mem_singleton_self _⟩
      · -- The lowest signal has none below it.
        rcases noneIgnored first deliverable action with ⟨lower, lowerMember, below, _⟩
        have notBelow := lowest lower lowerMember
        omega
      · have erased := handle_deliverables action deliverable
        have fewer : (p.handle first).deliverables.card ≤ calls := by
          rw [erased, Finset.card_erase_of_mem deliverable]
          omega
        have stillNone : (p.handle first).NoneIgnored := by
          intro sig member ignored
          rw [erased] at member
          rw [handle_action action] at ignored
          rcases noneIgnored sig (Finset.mem_of_mem_erase member) ignored with
            ⟨lower, lowerMember, below, exits⟩
          refine ⟨lower, ?_, below, ?_⟩
          · rw [erased, Finset.mem_erase]
            refine ⟨?_, lowerMember⟩
            rintro rfl
            simp [action] at exits
          · rw [handle_action action, exits]
        rw [drained]
        rcases ih fewer stillNone with ⟨sig, exited⟩ | consumed
        · exact Or.inl ⟨sig, List.mem_cons_of_mem _ exited⟩
        · right
          intro sig member
          rcases eq_or_ne sig first with rfl | different
          · have notLater : sig ∉ (drain calls (p.handle sig)).2.map Prod.fst := by
              intro later
              rcases List.mem_map.mp later with ⟨⟨_, taken⟩, posted, rfl⟩
              have stillDeliverable := (drain_posted posted).1
              simp [erased] at stillDeliverable
            have valid := (mem_deliverables.mp member).1
            refine ⟨?_, ?_⟩
            · simp [List.count_eq_zero_of_not_mem notLater]
            · intro pending
              have handled := drain_pending valid pending
              rw [handle_pending action valid valid] at handled
              exact handled.2 rfl
          · have later : sig ∈ (p.handle first).deliverables := by
              rw [erased, Finset.mem_erase]
              exact ⟨different, member⟩
            rcases consumed sig later with ⟨once, cleared⟩
            refine ⟨?_, cleared⟩
            simpa [List.count_cons, different.symm] using once

/-- An ignored signal with none below it that ends the process stays pending for ever. -/
theorem drain_stuck (calls : ℕ) {p : Proc} {sig : ℕ} (deliverable : sig ∈ p.deliverables)
    (ignored : p.action sig = .ignored)
    (noneBelow : ∀ lower ∈ p.deliverables, lower < sig → p.action lower ≠ .sigexit) :
    ¬Exited (drain calls p).2 ∧ (drain calls p).1.Pending sig := by
  induction calls generalizing p with
  | zero => exact ⟨by simp [drain, Exited], (mem_deliverables.mp deliverable).2.1⟩
  | succ calls ih =>
      have some : p.deliverables ≠ ∅ := Finset.ne_empty_of_mem deliverable
      rcases drain_cases some calls with
        ⟨first, posted, lowest, ⟨action, drained⟩ | ⟨action, drained⟩ | ⟨action, drained⟩⟩
      all_goals
        rw [drained]
        have below := lowest sig deliverable
      · rcases below.lt_or_eq with lower | rfl
        · exact absurd action (noneBelow first posted lower)
        · simp [ignored] at action
      · rcases ih deliverable ignored noneBelow with ⟨notExited, pending⟩
        refine ⟨?_, pending⟩
        rintro ⟨other, exited⟩
        simp only [List.mem_cons, Prod.mk.injEq, reduceCtorEq, and_false, false_or] at exited
        exact notExited ⟨other, exited⟩
      · have different : sig ≠ first := by
          rintro rfl
          simp [ignored] at action
        have erased := handle_deliverables action posted
        have notExited_pending := ih (p := p.handle first)
          (by rw [erased]; exact Finset.mem_erase.mpr ⟨different, deliverable⟩)
          (by rw [handle_action action, ignored])
          (by
            intro lower member lowerThan
            rw [erased] at member
            rw [handle_action action]
            exact noneBelow lower (Finset.mem_of_mem_erase member) lowerThan)
        refine ⟨?_, notExited_pending.2⟩
        rintro ⟨other, exited⟩
        simp only [List.mem_cons, Prod.mk.injEq, reduceCtorEq, and_false, false_or] at exited
        exact notExited_pending.1 ⟨other, exited⟩

/--
A process consumes its pending signals exactly when below every ignored signal that can
be posted there is one that ends the process.
-/
theorem consumes_iff (p : Proc) (killDefault : p.handler sigkill = sigDfl) :
    p.Consumes ↔ p.NoneIgnored := by
  constructor
  · rintro ⟨consumed, _⟩ sig deliverable ignored
    by_contra noneBelow
    push Not at noneBelow
    rcases drain_stuck nsig deliverable ignored noneBelow with ⟨notExited, pending⟩
    rcases consumed with exited | cleared
    · exact notExited exited
    · exact (cleared sig deliverable).2 pending
  · intro noneIgnored
    have consumed := drain_consumes p.card_deliverables_le noneIgnored
    refine ⟨consumed, ?_⟩
    intro killed
    rcases consumed with exited | cleared
    · exact exited
    · have posted : sigkill ∈ (drain nsig p).2.map Prod.fst := by
        apply List.count_pos_iff.mp
        rw [(cleared sigkill killed).1]
        omega
      rcases List.mem_map.mp posted with ⟨⟨_, taken⟩, member, rfl⟩
      have byHandler := (drain_posted member).2
      have exits : p.action sigkill = .sigexit := by
        simp [action, killDefault, sigDfl, sigIgn]
      rw [byHandler, exits] at member
      exact ⟨_, member⟩

/-- A process with `SIGINT` and `SIGKILL` pending. -/
def interrupted (onInterrupt : Word) : Proc :=
  { Proc.zero with
    state := .running
    sigact := ⟨Function.update (fun _ => sigDfl) (sigint - 1) onInterrupt, .zero, 0x100000⟩
    sigPending := sigBit sigint ||| sigBit sigkill }

theorem consumes_interrupted : (interrupted 0x100100).Consumes :=
  (consumes_iff (interrupted 0x100100) (by decide)).mpr (by decide)

/-- An ignored `SIGINT` keeps `SIGKILL` from ending the process. -/
theorem not_consumes_interrupted :
    (interrupted sigIgn).handler sigkill = sigDfl ∧ ¬(interrupted sigIgn).Consumes := by
  refine ⟨by decide, ?_⟩
  rintro ⟨_, killed⟩
  have stuck := drain_stuck nsig (show sigint ∈ (interrupted sigIgn).deliverables by decide)
    (by decide) (by decide)
  exact stuck.1 (killed (by decide))

end Proc

end Osix.Kern
