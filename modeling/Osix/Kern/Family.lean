import Osix.Kern.Frames

/-!
# Parents, children and `wait`

The invariant of the process table under all interleavings of `fork`, `exit` and `wait`,
as long as init does not exit. A process that exits gives its children to init, wakes init
for the zombies among them, wakes its own parent and becomes a zombie, all without a
switch in between; `wait` sleeps only after a scan that found no zombie. So a process that
sleeps in `wait` has no zombie child.
-/

namespace Osix.Kern

open Transition

namespace Sys

/-- The pids that calls of `wait` returned. -/
def reapedPids (sys : Sys) : List ℤ := sys.past.reaped.map Reaped.pid

/-- The pids of the processes that exited. -/
def exitPids (sys : Sys) : List ℤ := sys.past.exits.map Prod.fst

/-- `p` has no zombie to wait for. -/
def NoZombie (sys : Sys) (p : Slot) : Prop :=
  ∀ child, (sys.proc child).parent = some p → (sys.proc child).state ≠ .zombie

/-- The process table between two steps. -/
structure Family (sys : Sys) : Prop where
  init : (sys.proc 0).Live
  parents : ∀ p, p ≠ 0 → (sys.proc p).state ≠ .null →
    ∃ parent, (sys.proc p).parent = some parent ∧ (sys.proc parent).Live
  bornOnce : sys.past.born.Nodup
  bornRange : ∀ pid ∈ sys.past.born, 0 < pid ∧ pid < sys.nextpid
  nextPositive : 0 < sys.nextpid
  pids : ∀ p, (sys.proc p).state ≠ .null → (sys.proc p).pid ∈ sys.past.born
  distinct : ∀ p q, (sys.proc p).state ≠ .null → (sys.proc q).state ≠ .null →
    (sys.proc p).pid = (sys.proc q).pid → p = q
  exitsOnce : sys.exitPids.Nodup
  exitsBorn : ∀ pid ∈ sys.exitPids, pid ∈ sys.past.born
  notExited : ∀ p, (sys.proc p).Live → (sys.proc p).pid ∉ sys.exitPids
  exited : ∀ p, (sys.proc p).state = .zombie →
    ((sys.proc p).pid, (sys.proc p).exitStatus) ∈ sys.past.exits
  reapedOnce : sys.reapedPids.Nodup
  reapedExited : ∀ reaped ∈ sys.past.reaped, (reaped.pid, reaped.status) ∈ sys.past.exits
  notReaped : ∀ p, (sys.proc p).state ≠ .null → (sys.proc p).pid ∉ sys.reapedPids
  waits : ∀ p, sys.inWait p = true → (sys.proc p).state = .sleep →
    (sys.proc p).wchan = some p ∧ sys.NoZombie p

/-! ## Steps that keep the family -/

/-- A step that makes no process and ends none; a process may be woken or go to sleep. -/
structure Kept (sys sys' : Sys) : Prop where
  pid : ∀ p, (sys.proc p).state ≠ .null → (sys'.proc p).pid = (sys.proc p).pid
  parent : ∀ p, (sys.proc p).state ≠ .null → (sys'.proc p).parent = (sys.proc p).parent
  exitStatus : ∀ p, (sys.proc p).state ≠ .null → (sys'.proc p).exitStatus = (sys.proc p).exitStatus
  state : ∀ p, (sys'.proc p).state = (sys.proc p).state ∨ (sys.proc p).Live ∧ (sys'.proc p).Live
  waits : ∀ p, sys'.inWait p = true → (sys'.proc p).state = .sleep →
    sys.inWait p = true ∧ (sys.proc p).state = .sleep ∧
      (sys'.proc p).wchan = (sys.proc p).wchan ∨
    (sys'.proc p).wchan = some p ∧ sys.NoZombie p
  nextpid : sys'.nextpid = sys.nextpid
  born : sys'.past.born = sys.past.born
  exits : sys'.past.exits = sys.past.exits
  reaped : sys'.past.reaped = sys.past.reaped

namespace Kept

theorem refl (sys : Sys) : Kept sys sys :=
  ⟨fun _ _ => rfl, fun _ _ => rfl, fun _ _ => rfl, fun _ => Or.inl rfl,
    fun _ inside asleep => Or.inl ⟨inside, asleep, rfl⟩, rfl, rfl, rfl, rfl⟩

variable {sys sys' sys'' : Sys}

theorem live (kept : Kept sys sys') (p : Slot) : (sys'.proc p).Live ↔ (sys.proc p).Live := by
  rcases kept.state p with same | ⟨before, after⟩
  · simp only [Proc.Live, same]
  · simp only [before, after]

theorem null (kept : Kept sys sys') (p : Slot) :
    (sys'.proc p).state = .null ↔ (sys.proc p).state = .null := by
  rcases kept.state p with same | ⟨before, after⟩
  · rw [same]
  · simp [before.1, after.1]

theorem zombie (kept : Kept sys sys') (p : Slot) :
    (sys'.proc p).state = .zombie ↔ (sys.proc p).state = .zombie := by
  rcases kept.state p with same | ⟨before, after⟩
  · rw [same]
  · simp [before.2, after.2]

theorem noZombie (kept : Kept sys sys') (p : Slot) : sys'.NoZombie p ↔ sys.NoZombie p := by
  apply forall_congr'
  intro child
  rw [Ne, kept.zombie, ← Ne]
  by_cases zombie : (sys.proc child).state = .zombie
  · rw [kept.parent child (by rw [zombie]; nofun)]
  · simp [zombie]

theorem trans (first : Kept sys sys') (second : Kept sys' sys'') : Kept sys sys'' where
  pid p used := (second.pid p (mt (first.null p).mp used)).trans (first.pid p used)
  parent p used := (second.parent p (mt (first.null p).mp used)).trans (first.parent p used)
  exitStatus p used :=
    (second.exitStatus p (mt (first.null p).mp used)).trans (first.exitStatus p used)
  state p := by
    rcases second.state p with same | ⟨before, after⟩
    · rcases first.state p with firstSame | ⟨before, after⟩
      · exact Or.inl (same.trans firstSame)
      · exact Or.inr ⟨before, (second.live p).mpr after⟩
    · exact Or.inr ⟨(first.live p).mp before, after⟩
  waits p inside asleep := by
    rcases second.waits p inside asleep with ⟨wasInside, wasAsleep, same⟩ | ⟨channel, noZombie⟩
    · rw [same]
      exact first.waits p wasInside wasAsleep
    · exact Or.inr ⟨channel, (first.noZombie p).mp noZombie⟩
  nextpid := second.nextpid.trans first.nextpid
  born := second.born.trans first.born
  exits := second.exits.trans first.exits
  reaped := second.reaped.trans first.reaped

/-- The current process, the places and the signal history do not matter. -/
theorem congr (kept : Kept sys sys') (proc : sys''.proc = sys'.proc)
    (inWait : ∀ p, sys''.inWait p = true → sys'.inWait p = true)
    (nextpid : sys''.nextpid = sys'.nextpid) (born : sys''.past.born = sys'.past.born)
    (exits : sys''.past.exits = sys'.past.exits) (reaped : sys''.past.reaped = sys'.past.reaped) :
    Kept sys sys'' where
  pid p := by simpa [proc] using kept.pid p
  parent p := by simpa [proc] using kept.parent p
  exitStatus p := by simpa [proc] using kept.exitStatus p
  state p := by simpa [proc] using kept.state p
  waits p inside asleep := by
    rw [proc] at asleep ⊢
    exact kept.waits p (inWait p inside) asleep
  nextpid := nextpid.trans kept.nextpid
  born := born.trans kept.born
  exits := exits.trans kept.exits
  reaped := reaped.trans kept.reaped

end Kept

theorem Family.kept {sys sys' : Sys} (family : Family sys) (kept : Kept sys sys') :
    Family sys' := by
  have reapedSame : sys'.reapedPids = sys.reapedPids := by simp [reapedPids, kept.reaped]
  have exitsSame : sys'.exitPids = sys.exitPids := by simp [exitPids, kept.exits]
  have used : ∀ p, (sys'.proc p).state ≠ .null → (sys.proc p).state ≠ .null :=
    fun p => mt (kept.null p).mpr
  refine
    { init := (kept.live 0).mpr family.init
      parents := ?_
      bornOnce := by simpa [kept.born] using family.bornOnce
      bornRange := by simpa [kept.born, kept.nextpid] using family.bornRange
      nextPositive := by simpa [kept.nextpid] using family.nextPositive
      pids := ?_
      distinct := ?_
      exitsOnce := by simpa [exitsSame] using family.exitsOnce
      exitsBorn := by simpa [exitsSame, kept.born] using family.exitsBorn
      notExited := ?_
      exited := ?_
      reapedOnce := by simpa [reapedSame] using family.reapedOnce
      reapedExited := by simpa [kept.reaped, kept.exits] using family.reapedExited
      notReaped := ?_
      waits := ?_ }
  · intro p notInit notNull
    rw [kept.parent p (used p notNull)]
    rcases family.parents p notInit (used p notNull) with ⟨parent, same, live⟩
    exact ⟨parent, same, (kept.live parent).mpr live⟩
  · intro p notNull
    rw [kept.pid p (used p notNull), kept.born]
    exact family.pids p (used p notNull)
  · intro p q pNotNull qNotNull
    rw [kept.pid p (used p pNotNull), kept.pid q (used q qNotNull)]
    exact family.distinct p q (used p pNotNull) (used q qNotNull)
  · intro p live
    rw [kept.pid p (used p live.1), exitsSame]
    exact family.notExited p ((kept.live p).mp live)
  · intro p zombie
    rw [kept.zombie] at zombie
    have notNull : (sys.proc p).state ≠ .null := by
      rw [zombie]
      nofun
    rw [kept.pid p notNull, kept.exitStatus p notNull, kept.exits]
    exact family.exited p zombie
  · intro p notNull
    rw [kept.pid p (used p notNull), reapedSame]
    exact family.notReaped p (used p notNull)
  · intro p inside asleep
    rw [kept.noZombie]
    rcases kept.waits p inside asleep with ⟨wasInside, wasAsleep, same⟩ | fresh
    · rw [same]
      exact family.waits p wasInside wasAsleep
    · exact fresh

/-- What the loop of `proc_exit` has done after some entries. -/
structure Orphaned (p : Slot) (slots : List Slot) (sys sys' : Sys) : Prop where
  pid : ∀ q, (sys'.proc q).pid = (sys.proc q).pid
  exitStatus : ∀ q, (sys'.proc q).exitStatus = (sys.proc q).exitStatus
  parent : ∀ q, (sys'.proc q).parent =
    if q ∈ slots ∧ (sys.proc q).parent = some p then some 0 else (sys.proc q).parent
  state : ∀ q,
    (sys'.proc q).state = (sys.proc q).state ∧ (sys'.proc q).wchan = (sys.proc q).wchan ∨
    (sys.proc q).state = .sleep ∧ (sys'.proc q).state = .running
  woken : ∀ q, (sys'.proc q).state = .sleep → (sys.proc q).wchan = some 0 →
    ∀ child ∈ slots, (sys.proc child).parent = some p → (sys.proc child).state ≠ .zombie

theorem Orphaned.zombie {p : Slot} {slots : List Slot} {sys sys' : Sys}
    (orphaned : Orphaned p slots sys sys') (q : Slot) :
    (sys'.proc q).state = .zombie ↔ (sys.proc q).state = .zombie := by
  rcases orphaned.state q with ⟨same, _⟩ | ⟨asleep, running⟩
  · rw [same]
  · simp [asleep, running]

/-- The entry of a zombie is freed and its pid and status are recorded as returned. -/
def reap (sys : Sys) (p child : Slot) : Sys :=
  { sys.set child fun old => { old with state := .null } with
    past :=
      { sys.past with
        reaped := ⟨p, (sys.proc child).pid, (sys.proc child).exitStatus⟩ :: sys.past.reaped } }

end Sys

end Osix.Kern
