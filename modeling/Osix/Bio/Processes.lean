import Osix.Bio.Invariant
import Osix.Lib.Transition

/-!
# Several processes on the buffer cache

Control passes from one process to another only in `sleep`, so the code of the cache
between two sleeps is one step. A process sleeps at two places: in `getblk` on a busy
buffer, after which the search starts again, and in the driver's read function called by
`bread`. Interrupts come between the steps.

`holds` lists who holds which buffer, once for each `getblk` not yet matched by a
`brelse`; a process may only release, write or change a buffer it holds.
-/

namespace Osix

/-- Where a process stands with respect to the buffer cache. -/
inductive BioPhase where
  | idle
  | waiting (dev : Dev) (blockNo : ℕ) (read : Bool)
  | reading (buf : BufId)
deriving DecidableEq

/-- The cache with the processes that use it. -/
structure BioSys (Pid : Type) where
  bio : Bio
  phase : Pid → BioPhase
  holds : List (Pid × BufId)

/-- `getblk` stands for a call of `getblk`, or of `bread` when `read` is set. -/
inductive BioAct (Pid : Type) where
  | getblk (pid : Pid) (dev : Dev) (blockNo : ℕ) (read : Bool)
  | readReturns (pid : Pid)
  | store (pid : Pid) (buf : BufId) (data : Block)
  | setDirty (pid : Pid) (buf : BufId)
  | bwrite (pid : Pid) (buf : BufId)
  | brelse (pid : Pid) (buf : BufId)
  | readIntr (buf : BufId)
  | writeIntr (buf : BufId)

namespace BioSys

variable {Pid : Type}

/-- After `buf_init`, which finds `bcache` zeroed because it is static storage. -/
def boot (disk : Dev → ℕ → Block) (online : Dev → Bool) : BioSys Pid where
  bio := Bio.bufInit
    { bcache := fun _ => ⟨0, 0, .none, 0, fun _ => 0⟩
      bfreelist := .empty
      disk := disk
      online := online }
  phase := fun _ => .idle
  holds := []

def setPhase [DecidableEq Pid] (sys : BioSys Pid) (pid : Pid) (phase : BioPhase) : BioSys Pid :=
  { sys with phase := Function.update sys.phase pid phase }

/-- `bread` after `getblk` has returned `buf`, or the return from a plain `getblk`. -/
def acquired [DecidableEq Pid] (sys : BioSys Pid) (pid : Pid) (dev : Dev) (read : Bool)
    (buf : BufId) (bio : Bio) : Option (BioSys Pid) :=
  let sys := { sys with bio := bio, holds := (pid, buf) :: sys.holds }
  if read then
    match bio.breadFound dev buf with
    | .error _ => none
    | .ok (.returned, bio) => some ({ sys with bio := bio }.setPhase pid .idle)
    | .ok (.asleep, bio) => some ({ sys with bio := bio }.setPhase pid (.reading buf))
  else
    some (sys.setPhase pid .idle)

/-- A step of the holder `pid` of `buf`. -/
def whenHeld [DecidableEq Pid] (sys : BioSys Pid) (pid : Pid) (buf : BufId)
    (next : Option (BioSys Pid)) : Option (BioSys Pid) :=
  if sys.phase pid = .idle ∧ (pid, buf) ∈ sys.holds then next else none

/-- One step; there is none when the action is not possible or the kernel panics. -/
def step [DecidableEq Pid] (sys : BioSys Pid) : BioAct Pid → Option (BioSys Pid)
  | .getblk pid dev blockNo read =>
      if sys.phase pid = .idle ∨ sys.phase pid = .waiting dev blockNo read then
        match sys.bio.getblk dev blockNo with
        | .error _ => none
        | .ok (.sleep _ bio) =>
            some ({ sys with bio := bio }.setPhase pid (.waiting dev blockNo read))
        | .ok (.found buf bio) => sys.acquired pid dev read buf bio
      else none
  | .readReturns pid =>
      match sys.phase pid with
      | .reading _ => some (sys.setPhase pid .idle)
      | _ => none
  | .store pid buf data =>
      sys.whenHeld pid buf
        (some { sys with bio := sys.bio.setBuf buf fun old => { old with data := data } })
  | .setDirty pid buf =>
      sys.whenHeld pid buf
        (some { sys with bio := sys.bio.setFlags buf fun flags => { flags with dirty := true } })
  | .bwrite pid buf =>
      sys.whenHeld pid buf
        ((sys.bio.bwrite buf).toOption.map fun bio => { sys with bio := bio })
  | .brelse pid buf =>
      sys.whenHeld pid buf ((sys.bio.brelse buf).toOption.map fun bio =>
        { sys with bio := bio, holds := sys.holds.erase (pid, buf) })
  | .readIntr buf => some { sys with bio := sys.bio.readIntr buf }
  | .writeIntr buf => some { sys with bio := sys.bio.iodone buf }

/-- How many times `buf` is held. -/
def holdCount (holds : List (Pid × BufId)) (buf : BufId) : ℕ :=
  holds.countP fun hold => decide (hold.2 = buf)

/-- The cache is well formed and its reference counts are the numbers of holds. -/
structure Consistent (sys : BioSys Pid) : Prop where
  wellFormed : sys.bio.WellFormed
  counted : ∀ buf, (sys.bio.bcache buf).refCount = holdCount sys.holds buf

theorem holdCount_cons (holds : List (Pid × BufId)) (pid : Pid) (buf other : BufId) :
    holdCount ((pid, buf) :: holds) other =
      holdCount holds other + if other = buf then 1 else 0 := by
  simp [holdCount, List.countP_cons, eq_comm]

theorem holdCount_erase [DecidableEq Pid] {holds : List (Pid × BufId)} {pid : Pid} {buf : BufId}
    (held : (pid, buf) ∈ holds) (other : BufId) :
    holdCount holds other =
      holdCount (holds.erase (pid, buf)) other + if other = buf then 1 else 0 := by
  rw [← holdCount_cons _ pid]
  exact (List.perm_cons_erase held).countP_eq _

theorem Consistent.referenced [DecidableEq Pid] {sys : BioSys Pid} (consistent : sys.Consistent)
    {pid : Pid} {buf : BufId} (held : (pid, buf) ∈ sys.holds) : (sys.bio.bcache buf).refCount ≠ 0 := by
  rw [consistent.counted buf, holdCount_erase held buf]
  simp

theorem Consistent.of_keeps {sys : BioSys Pid} (consistent : sys.Consistent) {bio : Bio}
    (keeps : sys.bio.Keeps bio) (phase : Pid → BioPhase) :
    BioSys.Consistent { bio := bio, phase := phase, holds := sys.holds } where
  wellFormed := consistent.wellFormed.of_keeps keeps
  counted buf := (keeps.refCount buf).trans (consistent.counted buf)

theorem Consistent.of_acquired {sys : BioSys Pid} (consistent : sys.Consistent) {bio : Bio}
    {dev : Dev} {blockNo : ℕ} {buf : BufId} (acquired : sys.bio.Acquired bio dev blockNo buf)
    (pid : Pid) (phase : Pid → BioPhase) :
    BioSys.Consistent { bio := bio, phase := phase, holds := (pid, buf) :: sys.holds } where
  wellFormed := acquired.wellFormed
  counted other := by
    rw [holdCount_cons, ← consistent.counted other]
    rcases eq_or_ne other buf with rfl | ne
    · simp [acquired.refCount]
    · simp [acquired.others other ne, ne]

theorem Consistent.of_store {sys : BioSys Pid} (consistent : sys.Consistent) (buf : BufId)
    (change : Block → Block) :
    BioSys.Consistent
      { sys with bio := sys.bio.setBuf buf fun old => { old with data := change old.data } } := by
  refine consistent.of_keeps ?_ _
  exact Bio.keeps_setBuf (fun _ => rfl) (fun _ => rfl) (fun _ => rfl) (fun _ => id) (fun _ => id)

theorem consistent_boot (disk : Dev → ℕ → Block) (online : Dev → Bool) :
    (boot disk online : BioSys Pid).Consistent where
  wellFormed := Bio.wellFormed_bufInit fun _ => rfl
  counted buf := ((Bio.bufInit_represents _).2 buf).1

variable [DecidableEq Pid]

theorem whenHeld_some {sys sys' : BioSys Pid} {pid : Pid} {buf : BufId}
    {next : Option (BioSys Pid)} (stepped : sys.whenHeld pid buf next = some sys') :
    (pid, buf) ∈ sys.holds ∧ next = some sys' := by
  unfold whenHeld at stepped
  split at stepped
  · rename_i held
    exact ⟨held.2, stepped⟩
  · cases stepped

theorem consistent_acquired {sys sys' : BioSys Pid} (consistent : sys.Consistent) {bio : Bio}
    {pid : Pid} {dev : Dev} {blockNo : ℕ} {read : Bool} {buf : BufId}
    (acquired : sys.bio.Acquired bio dev blockNo buf)
    (stepped : sys.acquired pid dev read buf bio = some sys') : sys'.Consistent := by
  have held := fun phase => consistent.of_acquired acquired pid phase
  unfold BioSys.acquired at stepped
  dsimp only at stepped
  split at stepped
  · split at stepped
    · cases stepped
    · rename_i bio' readDone
      cases stepped
      exact (held sys.phase).of_keeps (Bio.keeps_breadFound readDone) _
    · rename_i bio' readDone
      cases stepped
      exact (held sys.phase).of_keeps (Bio.keeps_breadFound readDone) _
  · cases stepped
    exact held _

theorem Consistent.of_setDirty {sys : BioSys Pid} (consistent : sys.Consistent) {pid : Pid}
    {buf : BufId} (held : (pid, buf) ∈ sys.holds) :
    BioSys.Consistent
      { sys with bio := sys.bio.setFlags buf fun flags => { flags with dirty := true } } := by
  refine ⟨consistent.wellFormed.setDirty (consistent.referenced held), fun other => ?_⟩
  rw [← consistent.counted other]
  rcases eq_or_ne other buf with rfl | ne
  · simp [Bio.setFlags]
  · rw [Bio.setFlags, Bio.setBuf_bcache_of_ne _ _ ne]

theorem Consistent.of_brelse {sys : BioSys Pid} (consistent : sys.Consistent) {pid : Pid}
    {buf : BufId} {bio : Bio} (held : (pid, buf) ∈ sys.holds)
    (released : sys.bio.brelse buf = .ok bio) :
    BioSys.Consistent { sys with bio := bio, holds := sys.holds.erase (pid, buf) } := by
  rcases Bio.brelse_ok consistent.wellFormed released with ⟨wellFormed, own, others⟩
  refine ⟨wellFormed, fun other => ?_⟩
  have counted := consistent.counted other
  rw [holdCount_erase held other] at counted
  rcases eq_or_ne other buf with rfl | ne
  · simp only [if_true] at counted
    dsimp only
    omega
  · simpa [others other ne, ne] using counted

/-- Every step of every process and every interrupt keeps the cache consistent. -/
theorem consistent_step {sys sys' : BioSys Pid} {act : BioAct Pid} (consistent : sys.Consistent)
    (stepped : sys.step act = some sys') : sys'.Consistent := by
  cases act with
  | getblk pid dev blockNo read =>
      simp only [step] at stepped
      split at stepped
      · split at stepped
        · cases stepped
        · rename_i waited bio asleep
          cases stepped
          rcases Bio.getblk_cases consistent.wellFormed asleep with
            ⟨_, _, sleepEq, keeps⟩ | ⟨_, _, foundEq, _, _⟩
          · cases sleepEq
            exact consistent.of_keeps keeps _
          · cases foundEq
        · rename_i got bio found
          rcases Bio.getblk_cases consistent.wellFormed found with
            ⟨_, _, sleepEq, _⟩ | ⟨_, _, foundEq, acquired, _⟩
          · cases sleepEq
          · cases foundEq
            exact consistent_acquired consistent acquired stepped
      · cases stepped
  | readReturns pid =>
      simp only [step] at stepped
      split at stepped
      · cases stepped
        exact consistent.of_keeps (Bio.Keeps.rfl _) _
      · cases stepped
  | store pid buf data =>
      rcases whenHeld_some stepped with ⟨_, next⟩
      cases next
      exact consistent.of_store buf fun _ => data
  | setDirty pid buf =>
      rcases whenHeld_some stepped with ⟨held, next⟩
      cases next
      exact consistent.of_setDirty held
  | bwrite pid buf =>
      rcases whenHeld_some stepped with ⟨_, next⟩
      cases written : sys.bio.bwrite buf with
      | error panic =>
          rw [written] at next
          cases next
      | ok bio =>
          rw [written] at next
          cases next
          exact consistent.of_keeps (Bio.keeps_bwrite written).1 _
  | brelse pid buf =>
      rcases whenHeld_some stepped with ⟨held, next⟩
      cases released : sys.bio.brelse buf with
      | error panic =>
          rw [released] at next
          cases next
      | ok bio =>
          rw [released] at next
          cases next
          exact consistent.of_brelse held released
  | readIntr buf =>
      cases stepped
      exact consistent.of_keeps (Bio.keeps_readIntr _ buf) _
  | writeIntr buf =>
      cases stepped
      exact consistent.of_keeps (Bio.keeps_iodone _ buf) _

open Transition

/--
From `buf_init` on, in every interleaving of `getblk`, `bread`, `bwrite`, `brelse` and
`iodone`, the free list is a well-formed circular doubly linked list of exactly the
unreferenced buffers, no buffer on it is dirty or busy, and no block is cached twice.
-/
theorem wellFormed_of_reach {disk : Dev → ℕ → Block} {online : Dev → Bool} {sys : BioSys Pid}
    (reach : Reach step Always (boot disk online) sys) : sys.bio.WellFormed := by
  have consistent : sys.Consistent := reach.invariant (consistent_boot disk online)
    fun consistent _ stepped => consistent_step consistent stepped
  exact consistent.wellFormed

/-- One process sleeps on the block another one is reading and gets it after its release. -/
def sharedRead : List (BioAct Bool) :=
  [.getblk true 1 5 true, .getblk false 1 5 true, .readIntr 0, .readReturns true,
    .setDirty true 0, .brelse true 0, .getblk false 1 5 true, .readIntr 0,
    .readReturns false, .brelse false 0]

theorem wellFormed_sharedRead :
    ∃ sys, run step (boot (fun _ _ _ => 0) fun _ => true) sharedRead = some sys ∧
      sys.bio.WellFormed := by
  have possible : (run step (boot (fun _ _ _ => 0) fun _ => true) sharedRead).isSome = true := by
    decide
  rcases Option.isSome_iff_exists.mp possible with ⟨sys, done⟩
  exact ⟨sys, done, wellFormed_of_reach (reach_of_run .start done)⟩

end BioSys

end Osix
