import Osix.Bio.Invariant
import Osix.Lib.Transition

/-!
# The buffer cache against a flat disk

A single process reads blocks, changes their data, writes them or marks them dirty and
releases them. `flat` is the specification: the disk on which every change takes effect
at once. The cache may reuse buffers, delay writes and see the completion of a write at
any later moment; none of this should be visible in what `bread` returns, nor on the
device once every buffer is released.

It is visible in one situation. `bwrite` clears `B_DONE` until the completion arrives,
and `bread` fetches the block again from the device whenever `B_DONE` is clear, also when
the process still holds the buffer and has changed it since. `Client.Fresh` excludes
exactly this, and under it the cache is transparent.
-/

namespace Osix

open CircularList Transition

/-- One process on the cache, with the flat disk it is compared to. -/
structure Client where
  bio : Bio
  flat : Dev → ℕ → Block
  /-- The buffer was changed and neither written nor marked dirty since. -/
  unsaved : BufId → Bool

inductive ClientAct where
  | bread (dev : Dev) (blockNo : ℕ)
  | modify (buf : BufId) (data : Block)
  | setDirty (buf : BufId)
  | bwrite (buf : BufId)
  | brelse (buf : BufId)
  | iodone (buf : BufId)

namespace Client

/-- After `buf_init`, on a device that accepts every transfer. -/
def boot (disk : Dev → ℕ → Block) : Client where
  bio := Bio.bufInit
    { bcache := fun _ => ⟨0, 0, .none, 0, fun _ => 0⟩
      bfreelist := .empty
      disk := disk
      online := fun _ => true }
  flat := disk
  unsaved := fun _ => false

/--
A whole call of `bread`: with a single process the read's interrupt is the next thing
that happens. There is no result when the process sleeps on a buffer it keeps busy
itself.
-/
def bread (client : Client) (dev : Dev) (blockNo : ℕ) : Option (BufId × Client) :=
  match client.bio.getblk dev blockNo with
  | .error _ => none
  | .ok (.sleep _ _) => none
  | .ok (.found buf bio) =>
      match bio.breadFound dev buf with
      | .error _ => none
      | .ok (.returned, bio) => some (buf, { client with bio := bio })
      | .ok (.asleep, bio) => some (buf, { client with bio := bio.readIntr buf })

def setFlat (client : Client) (buf : BufId) (data : Block) : Dev → ℕ → Block :=
  let old := client.bio.bcache buf
  Function.update client.flat old.dev (Function.update (client.flat old.dev) old.blockNo data)

/-- Only held buffers are used, and none is given up with an unsaved change. -/
def step (client : Client) : ClientAct → Option Client
  | .bread dev blockNo => (client.bread dev blockNo).map Prod.snd
  | .modify buf data =>
      if (client.bio.bcache buf).refCount = 0 then none
      else some
        { bio := client.bio.setBuf buf fun old => { old with data := data }
          flat := client.setFlat buf data
          unsaved := Function.update client.unsaved buf true }
  | .setDirty buf =>
      if (client.bio.bcache buf).refCount = 0 then none
      else some { client with
        bio := client.bio.setFlags buf fun flags => { flags with dirty := true }
        unsaved := Function.update client.unsaved buf false }
  | .bwrite buf =>
      if (client.bio.bcache buf).refCount = 0 then none
      else (client.bio.bwrite buf).toOption.map fun bio =>
        { client with bio := bio, unsaved := Function.update client.unsaved buf false }
  | .brelse buf =>
      if (client.bio.bcache buf).refCount = 0 ∨
          (client.bio.bcache buf).refCount = 1 ∧ client.unsaved buf then none
      else (client.bio.brelse buf).toOption.map fun bio => { client with bio := bio }
  | .iodone buf => some { client with bio := client.bio.iodone buf }

/--
The block is not cached, or `B_DONE` is set, or the buffer holds what is on the device:
no change waits in a buffer whose last `bwrite` is still incomplete.
-/
def Fresh (client : Client) (dev : Dev) (blockNo : ℕ) : Prop :=
  ∀ buf, client.bio.find dev blockNo = some buf → (client.bio.bcache buf).flags.done = false →
    (client.bio.bcache buf).data = client.bio.disk dev blockNo

/-- The condition on a run: every `bread` is of a fresh block. -/
def FreshReads (client : Client) : ClientAct → Prop
  | .bread dev blockNo => client.Fresh dev blockNo
  | _ => True

/-- The simulation relation between the cache with its device and the flat disk. -/
structure Simulates (client : Client) : Prop where
  wellFormed : client.bio.WellFormed
  online : ∀ dev, client.bio.online dev = true
  used : ∀ buf, (client.bio.bcache buf).refCount ≠ 0 →
    ¬numBdev ≤ major (client.bio.bcache buf).dev
  cached : ∀ buf, (client.bio.bcache buf).dev ≠ -1 → (client.bio.bcache buf).data =
    client.flat (client.bio.bcache buf).dev (client.bio.bcache buf).blockNo
  stored : ∀ dev blockNo, client.bio.disk dev blockNo = client.flat dev blockNo ∨
    ∃ buf, (client.bio.bcache buf).dev = dev ∧ (client.bio.bcache buf).blockNo = blockNo ∧
      (client.bio.bcache buf).refCount ≠ 0 ∧
      (client.unsaved buf = true ∨ (client.bio.bcache buf).flags.dirty = true)

theorem readIntr_others (bio : Bio) {buf other : BufId} (ne : other ≠ buf) :
    (bio.readIntr buf).bcache other = bio.bcache other := by
  simp [Bio.readIntr, Bio.iodone, Bio.setFlags, Bio.setBuf_bcache_of_ne _ _ ne]

/-- What `bread` does to the buffer that `getblk` has returned. -/
structure Filled (bio bio' : Bio) (buf : BufId) : Prop where
  keeps : bio.Keeps bio'
  disk : bio'.disk = bio.disk
  online : bio'.online = bio.online
  others : ∀ other, other ≠ buf → bio'.bcache other = bio.bcache other
  dirty : (bio'.bcache buf).flags.dirty = (bio.bcache buf).flags.dirty
  data : (bio'.bcache buf).data = if (bio.bcache buf).flags.done then (bio.bcache buf).data
    else bio.disk (bio.bcache buf).dev (bio.bcache buf).blockNo

/-- On a device that accepts every transfer, `bread` is `getblk` and then a fill. -/
theorem bread_cases {client client' : Client} {dev : Dev} {blockNo : ℕ} {buf : BufId}
    (simulates : client.Simulates) (done : client.bread dev blockNo = some (buf, client')) :
    ∃ bio bio', client.bio.Acquired bio dev blockNo buf ∧ ¬numBdev ≤ major dev ∧
      Filled bio bio' buf ∧ client' = { client with bio := bio' } := by
  unfold bread at done
  split at done
  · cases done
  · cases done
  rename_i got bio found
  rcases Bio.getblk_cases simulates.wellFormed found with
    ⟨_, _, sleepEq, _⟩ | ⟨_, _, foundEq, acquired, known⟩
  · cases sleepEq
  cases foundEq
  have online : bio.online (bio.bcache got).dev = true := by
    rw [acquired.online]
    exact simulates.online _
  unfold Bio.breadFound at done
  by_cases valid : (bio.bcache got).flags.done = true
  · simp only [valid, if_true] at done
    cases done
    refine ⟨bio, bio, acquired, known, ?_, rfl⟩
    exact ⟨Bio.Keeps.rfl bio, rfl, rfl, fun _ _ => rfl, rfl, by simp [valid]⟩
  · simp only [valid, known, if_false] at done
    set cleared := bio.setFlags got fun flags => { flags with error := false } with clearedEq
    have own : cleared.bcache got =
        { bio.bcache got with flags := { (bio.bcache got).flags with error := false } } := by
      simp [clearedEq, Bio.setFlags]
    have onlineCleared : cleared.online (cleared.bcache got).dev = true := by
      rw [own]
      exact online
    rw [Bio.wdRead, if_pos onlineCleared] at done
    cases done
    refine ⟨bio, cleared.readIntr buf, acquired, known, ⟨?_, rfl, rfl, ?_, ?_, ?_⟩, rfl⟩
    · refine Bio.Keeps.trans ?_ (Bio.keeps_readIntr _ buf)
      exact Bio.keeps_setFlags (fun _ => id) (fun _ => id)
    · intro other ne
      rw [readIntr_others _ ne, clearedEq, Bio.setFlags, Bio.setBuf_bcache_of_ne _ _ ne]
    · simp [Bio.readIntr, Bio.iodone, Bio.setFlags, own]
    · simp [Bio.readIntr, Bio.iodone, Bio.setFlags, valid, clearedEq]

theorem known_ne_unused {dev : Dev} (known : ¬numBdev ≤ major dev) : dev ≠ -1 := by
  rintro rfl
  exact known numBdev_le_major_unused

/-- A block without a buffer is up to date on the device. -/
theorem Simulates.stored_of_find_none {client : Client} (simulates : client.Simulates)
    {dev : Dev} {blockNo : ℕ} (missing : client.bio.find dev blockNo = none) :
    client.bio.disk dev blockNo = client.flat dev blockNo := by
  rcases simulates.stored dev blockNo with same | ⟨buf, devEq, blockNoEq, _⟩
  · exact same
  · exact absurd ⟨devEq, blockNoEq⟩ (Bio.find_none missing buf)

/-- The data that `bread` returns is the flat disk's exactly when the block is fresh. -/
theorem bread_data {client client' : Client} {dev : Dev} {blockNo : ℕ} {buf : BufId}
    (simulates : client.Simulates) (done : client.bread dev blockNo = some (buf, client')) :
    (client'.bio.bcache buf).data = client'.flat dev blockNo ↔ client.Fresh dev blockNo := by
  rcases bread_cases simulates done with ⟨bio, bio', acquired, known, filled, rfl⟩
  rw [filled.data, acquired.devEq, acquired.blockNoEq, acquired.disk]
  rcases acquired.origin with ⟨hit, own⟩ | ⟨missing, _, flags⟩
  · have cached := simulates.cached buf (by
      rw [(Bio.find_some hit).1]
      exact known_ne_unused known)
    rw [(Bio.find_some hit).1, (Bio.find_some hit).2] at cached
    rw [own]
    by_cases valid : (client.bio.bcache buf).flags.done = true
    · simp only [valid, if_true, cached, true_iff]
      intro other otherHit notDone
      cases hit.symm.trans otherHit
      rw [valid] at notDone
      cases notDone
    · simp only [valid, Bool.false_eq_true, if_false]
      constructor
      · intro same other otherHit _
        cases hit.symm.trans otherHit
        rw [cached, same]
      · intro fresh
        rw [← fresh buf hit (by simpa using valid), cached]
  · rw [flags]
    simp only [BufFlags.none, Bool.false_eq_true, if_false]
    refine iff_of_true (simulates.stored_of_find_none missing) ?_
    intro other hit
    rw [missing] at hit
    cases hit

theorem simulates_bread {client client' : Client} {dev : Dev} {blockNo : ℕ} {buf : BufId}
    (simulates : client.Simulates) (fresh : client.Fresh dev blockNo)
    (done : client.bread dev blockNo = some (buf, client')) : client'.Simulates := by
  have dataEq := (bread_data simulates done).mpr fresh
  rcases bread_cases simulates done with ⟨bio, bio', acquired, known, filled, rfl⟩
  have others : ∀ other, other ≠ buf → bio'.bcache other = client.bio.bcache other :=
    fun other ne => (filled.others other ne).trans (acquired.others other ne)
  have devEq : (bio'.bcache buf).dev = dev := (filled.keeps.dev buf).trans acquired.devEq
  have blockNoEq : (bio'.bcache buf).blockNo = blockNo :=
    (filled.keeps.blockNo buf).trans acquired.blockNoEq
  refine ⟨acquired.wellFormed.of_keeps filled.keeps, ?_, ?_, ?_, ?_⟩
  · intro device
    rw [filled.online, acquired.online]
    exact simulates.online device
  · intro other referenced
    rcases eq_or_ne other buf with rfl | ne
    · dsimp only
      rwa [devEq]
    · dsimp only at referenced ⊢
      rw [others other ne] at referenced ⊢
      exact simulates.used other referenced
  · intro other used
    rcases eq_or_ne other buf with rfl | ne
    · dsimp only at dataEq ⊢
      rw [dataEq, devEq, blockNoEq]
    · dsimp only at used ⊢
      rw [others other ne] at used ⊢
      exact simulates.cached other used
  · have kept : ∀ holder, (client.bio.bcache holder).refCount ≠ 0 →
        (bio'.bcache holder).dev = (client.bio.bcache holder).dev ∧
        (bio'.bcache holder).blockNo = (client.bio.bcache holder).blockNo ∧
        (bio'.bcache holder).refCount ≠ 0 ∧
        (bio'.bcache holder).flags.dirty = (client.bio.bcache holder).flags.dirty := by
      intro holder referenced
      rcases eq_or_ne holder buf with rfl | ne
      · rcases acquired.origin with ⟨_, own⟩ | ⟨_, unreferenced, _⟩
        · rw [filled.keeps.dev, filled.keeps.blockNo, filled.keeps.refCount, filled.dirty, own]
          simp
        · exact absurd unreferenced referenced
      · rw [others holder ne]
        exact ⟨rfl, rfl, referenced, rfl⟩
    intro device block
    dsimp only
    rw [filled.disk, acquired.disk]
    rcases simulates.stored device block with same | ⟨holder, holderDev, holderBlock, referenced,
      pending⟩
    · exact Or.inl same
    · rcases kept holder referenced with ⟨devKept, blockKept, stillReferenced, dirtyKept⟩
      exact Or.inr ⟨holder, devKept.trans holderDev, blockKept.trans holderBlock, stillReferenced,
        by rwa [dirtyKept]⟩

/-- The buffer was changed since its last `bwrite`. -/
def Pending (client : Client) (buf : BufId) : Prop :=
  client.unsaved buf = true ∨ (client.bio.bcache buf).flags.dirty = true

/--
When no block moves and no data changes, it is enough that every change still waits in
its buffer or has reached the device.
-/
theorem Simulates.of_kept {client client' : Client} (simulates : client.Simulates)
    (flatEq : client'.flat = client.flat) (wellFormed : client'.bio.WellFormed)
    (online : client'.bio.online = client.bio.online)
    (devEq : ∀ buf, (client'.bio.bcache buf).dev = (client.bio.bcache buf).dev)
    (blockNoEq : ∀ buf, (client'.bio.bcache buf).blockNo = (client.bio.bcache buf).blockNo)
    (dataEq : ∀ buf, (client'.bio.bcache buf).data = (client.bio.bcache buf).data)
    (referenced : ∀ buf, (client'.bio.bcache buf).refCount ≠ 0 →
      (client.bio.bcache buf).refCount ≠ 0)
    (diskEq : ∀ dev blockNo, client'.bio.disk dev blockNo = client.bio.disk dev blockNo ∨
      client'.bio.disk dev blockNo = client.flat dev blockNo)
    (pendingKept : ∀ buf, (client.bio.bcache buf).refCount ≠ 0 → client.Pending buf →
      (client'.bio.bcache buf).refCount ≠ 0 ∧ client'.Pending buf ∨
      client'.bio.disk (client.bio.bcache buf).dev (client.bio.bcache buf).blockNo =
        (client.bio.bcache buf).data) : client'.Simulates where
  wellFormed := wellFormed
  online dev := by rw [online]; exact simulates.online dev
  used buf still := by rw [devEq]; exact simulates.used buf (referenced buf still)
  cached buf used := by
    rw [devEq] at used
    rw [devEq, blockNoEq, dataEq, flatEq]
    exact simulates.cached buf used
  stored dev blockNo := by
    rw [flatEq]
    rcases simulates.stored dev blockNo with same | ⟨buf, rfl, rfl, held, pending⟩
    · rcases diskEq dev blockNo with unchanged | written
      · exact Or.inl (unchanged.trans same)
      · exact Or.inl written
    · rcases pendingKept buf held pending with ⟨stillHeld, stillPending⟩ | written
      · exact Or.inr ⟨buf, devEq buf, blockNoEq buf, stillHeld, stillPending⟩
      · have used := known_ne_unused (simulates.used buf held)
        exact Or.inl (written.trans (simulates.cached buf used))

/-- `bwrite` to a device that accepts it. -/
structure Written (bio bio' : Bio) (buf : BufId) : Prop where
  own : bio'.bcache buf = { bio.bcache buf with
    flags := { (bio.bcache buf).flags with dirty := false, done := false, error := false } }
  others : ∀ other, other ≠ buf → bio'.bcache other = bio.bcache other
  online : bio'.online = bio.online
  disk : bio'.disk = Function.update bio.disk (bio.bcache buf).dev
    (Function.update (bio.disk (bio.bcache buf).dev) (bio.bcache buf).blockNo
      (bio.bcache buf).data)

theorem written_bwrite {bio bio' : Bio} {buf : BufId}
    (online : bio.online (bio.bcache buf).dev = true) (done : bio.bwrite buf = .ok bio') :
    Written bio bio' buf := by
  have others := fun other (ne : other ≠ buf) => Bio.bwrite_others done ne
  unfold Bio.bwrite at done
  dsimp only at done
  split at done
  · cases done
  set cleared := bio.setFlags buf fun flags =>
    { flags with dirty := false, done := false, error := false } with clearedEq
  have own : cleared.bcache buf = { bio.bcache buf with
      flags := { (bio.bcache buf).flags with dirty := false, done := false, error := false } } := by
    simp [clearedEq, Bio.setFlags]
  have onlineCleared : cleared.online (cleared.bcache buf).dev = true := by
    rw [own]
    exact online
  rw [Bio.wdWrite, if_pos onlineCleared] at done
  cases done
  exact ⟨own, others, rfl, by rw [own]; rfl⟩

theorem Written.disk_self {bio bio' : Bio} {buf : BufId} (written : Written bio bio' buf) :
    bio'.disk (bio.bcache buf).dev (bio.bcache buf).blockNo = (bio.bcache buf).data := by
  simp [written.disk]

theorem Written.disk_cases {bio bio' : Bio} {buf : BufId} (written : Written bio bio' buf)
    (dev : Dev) (blockNo : ℕ) :
    bio'.disk dev blockNo = bio.disk dev blockNo ∨
      dev = (bio.bcache buf).dev ∧ blockNo = (bio.bcache buf).blockNo := by
  rw [written.disk]
  by_cases sameDev : dev = (bio.bcache buf).dev
  · subst sameDev
    by_cases sameBlock : blockNo = (bio.bcache buf).blockNo
    · exact Or.inr ⟨rfl, sameBlock⟩
    · simp [Function.update_of_ne sameBlock]
  · simp [Function.update_of_ne sameDev]

theorem simulates_boot (disk : Dev → ℕ → Block) : (boot disk).Simulates where
  wellFormed := Bio.wellFormed_bufInit fun _ => rfl
  online dev := congrFun (Bio.bufInit_device _).2 dev
  used buf referenced := absurd ((Bio.bufInit_represents _).2 buf).1 referenced
  cached buf used := absurd ((Bio.bufInit_represents _).2 buf).2.2 used
  stored dev blockNo := Or.inl (congrFun (congrFun (Bio.bufInit_device _).1 dev) blockNo)

theorem simulates_modify {client : Client} (simulates : client.Simulates) {buf : BufId}
    (data : Block) (held : (client.bio.bcache buf).refCount ≠ 0) :
    Simulates
      { bio := client.bio.setBuf buf fun old => { old with data := data }
        flat := client.setFlat buf data
        unsaved := Function.update client.unsaved buf true } := by
  set bio' := client.bio.setBuf buf fun old => { old with data := data } with bioEq
  have keeps : client.bio.Keeps bio' :=
    Bio.keeps_setBuf (fun _ => rfl) (fun _ => rfl) (fun _ => rfl) (fun _ => id) (fun _ => id)
  have others : ∀ other, other ≠ buf → bio'.bcache other = client.bio.bcache other :=
    fun other ne => Bio.setBuf_bcache_of_ne _ _ ne
  have own : bio'.bcache buf = { client.bio.bcache buf with data := data } := by
    simp [bioEq]
  have flatOwn : client.setFlat buf data (client.bio.bcache buf).dev
      (client.bio.bcache buf).blockNo = data := by
    simp [setFlat]
  have flatOther : ∀ dev blockNo, ¬(dev = (client.bio.bcache buf).dev ∧
      blockNo = (client.bio.bcache buf).blockNo) →
      client.setFlat buf data dev blockNo = client.flat dev blockNo := by
    intro dev blockNo apart
    unfold setFlat
    by_cases sameDev : dev = (client.bio.bcache buf).dev
    · subst sameDev
      simp [Function.update_of_ne (fun sameBlock => apart ⟨rfl, sameBlock⟩)]
    · simp [Function.update_of_ne sameDev]
  have used := known_ne_unused (simulates.used buf held)
  refine ⟨simulates.wellFormed.of_keeps keeps, simulates.online, ?_, ?_, ?_⟩
  · intro other referenced
    dsimp only at referenced ⊢
    rw [keeps.refCount] at referenced
    rw [keeps.dev]
    exact simulates.used other referenced
  · intro other otherUsed
    dsimp only at otherUsed ⊢
    rcases eq_or_ne other buf with rfl | ne
    · rw [own]
      exact flatOwn.symm
    · rw [others other ne] at otherUsed ⊢
      rw [flatOther _ _ (simulates.wellFormed.ne_block ne used)]
      exact simulates.cached other otherUsed
  · intro dev blockNo
    dsimp only
    by_cases same : dev = (client.bio.bcache buf).dev ∧ blockNo = (client.bio.bcache buf).blockNo
    · refine Or.inr ⟨buf, ?_, ?_, ?_, Or.inl (by simp)⟩
      · rw [own, same.1]
      · rw [own, same.2]
      · rw [own]
        exact held
    · rw [flatOther dev blockNo same]
      rcases simulates.stored dev blockNo with stored | ⟨holder, devEq, blockEq, holds, pending⟩
      · exact Or.inl stored
      · have ne : holder ≠ buf := by
          rintro rfl
          exact same ⟨devEq.symm, blockEq.symm⟩
        refine Or.inr ⟨holder, ?_⟩
        rw [others holder ne, Function.update_of_ne ne]
        exact ⟨devEq, blockEq, holds, pending⟩

/-- A change of flags that forgets no unsaved modification. -/
theorem simulates_setFlags {client : Client} (simulates : client.Simulates) {buf : BufId}
    {change : BufFlags → BufFlags} {unsaved : BufId → Bool}
    (wellFormed : (client.bio.setFlags buf change).WellFormed)
    (own : client.Pending buf →
      unsaved buf = true ∨ (change (client.bio.bcache buf).flags).dirty = true)
    (others : ∀ other, other ≠ buf → unsaved other = client.unsaved other) :
    Simulates { client with bio := client.bio.setFlags buf change, unsaved := unsaved } := by
  have bcacheEq : ∀ other, (client.bio.setFlags buf change).bcache other =
      { client.bio.bcache other with
          flags := if other = buf then change (client.bio.bcache other).flags
            else (client.bio.bcache other).flags } := by
    intro other
    rcases eq_or_ne other buf with rfl | ne
    · simp [Bio.setFlags]
    · simp [Bio.setFlags, Bio.setBuf_bcache_of_ne _ _ ne, ne]
  refine simulates.of_kept rfl wellFormed rfl (fun other => by dsimp only; rw [bcacheEq])
    (fun other => by dsimp only; rw [bcacheEq]) (fun other => by dsimp only; rw [bcacheEq])
    (fun other => by dsimp only; rw [bcacheEq]; exact id) (fun _ _ => Or.inl rfl) ?_
  intro other referenced pending
  left
  unfold Pending
  dsimp only
  rw [bcacheEq]
  refine ⟨referenced, ?_⟩
  rcases eq_or_ne other buf with rfl | ne
  · simpa using own pending
  · rw [others other ne]
    simpa [ne] using show client.unsaved other = true ∨ _ from pending

theorem simulates_bwrite {client : Client} (simulates : client.Simulates) {bio : Bio} {buf : BufId}
    (done : client.bio.bwrite buf = .ok bio) (held : (client.bio.bcache buf).refCount ≠ 0) :
    Simulates { client with bio := bio, unsaved := Function.update client.unsaved buf false } := by
  have keeps := (Bio.keeps_bwrite done).1
  have written := written_bwrite (simulates.online _) done
  have used := known_ne_unused (simulates.used buf held)
  refine simulates.of_kept rfl (simulates.wellFormed.of_keeps keeps) written.online keeps.dev
    keeps.blockNo ?_ ?_ ?_ ?_
  · intro other
    rcases eq_or_ne other buf with rfl | ne
    · dsimp only
      rw [written.own]
    · dsimp only
      rw [written.others other ne]
  · intro other referenced
    rwa [← keeps.refCount]
  · intro dev blockNo
    rcases written.disk_cases dev blockNo with same | ⟨rfl, rfl⟩
    · exact Or.inl same
    · exact Or.inr (written.disk_self.trans (simulates.cached buf used))
  · intro other referenced pending
    rcases eq_or_ne other buf with rfl | ne
    · exact Or.inr written.disk_self
    · refine Or.inl ⟨by dsimp only; rwa [written.others other ne], ?_⟩
      unfold Pending at pending ⊢
      dsimp only
      rwa [written.others other ne, Function.update_of_ne ne]

theorem simulates_brelse {client : Client} (simulates : client.Simulates) {bio : Bio} {buf : BufId}
    (saved : (client.bio.bcache buf).refCount = 1 → client.unsaved buf = false)
    (done : client.bio.brelse buf = .ok bio) : Simulates { client with bio := bio } := by
  have released := Bio.brelse_ok simulates.wellFormed done
  have dropped : (client.bio.dropRef buf).bcache buf =
      { client.bio.bcache buf with
          flags := { (client.bio.bcache buf).flags with wanted := false, busy := false },
          refCount := (client.bio.bcache buf).refCount - 1 } := by
    simp [Bio.dropRef, Bio.setFlags]
  have held : (client.bio.bcache buf).refCount ≠ 0 := by omega
  have used := known_ne_unused (simulates.used buf held)
  -- The last release of a dirty buffer writes it; every other one leaves the device alone.
  have result : (∃ stored, Written (client.bio.dropRef buf) stored buf ∧
        bio = { stored with bfreelist := stored.bfreelist.pushBack buf }) ∨
      bio.bcache buf = (client.bio.dropRef buf).bcache buf ∧ bio.disk = client.bio.disk ∧
        bio.online = client.bio.online ∧
        ((bio.bcache buf).refCount = 0 → ¬client.Pending buf) := by
    rcases Bio.brelse_cases done with ⟨shared, rfl⟩ | ⟨last, stored, dirty | clean, rfl⟩
    · refine Or.inr ⟨rfl, rfl, rfl, ?_⟩
      rw [dropped]
      dsimp only
      omega
    · refine Or.inl ⟨stored, written_bwrite ?_ dirty.2, rfl⟩
      exact simulates.online _
    · rcases clean with ⟨notDirty, rfl⟩
      refine Or.inr ⟨rfl, rfl, rfl, fun _ pending => ?_⟩
      rcases pending with unsaved | isDirty
      · rw [saved last] at unsaved
        cases unsaved
      · rw [notDirty] at isDirty
        cases isDirty
  have fields : (bio.bcache buf).dev = (client.bio.bcache buf).dev ∧
      (bio.bcache buf).blockNo = (client.bio.bcache buf).blockNo ∧
      (bio.bcache buf).data = (client.bio.bcache buf).data := by
    rcases result with ⟨stored, written, rfl⟩ | ⟨own, _⟩
    · dsimp only
      rw [written.own, dropped]
      exact ⟨rfl, rfl, rfl⟩
    · rw [own, dropped]
      exact ⟨rfl, rfl, rfl⟩
  have everywhere : ∀ other, (bio.bcache other).dev = (client.bio.bcache other).dev ∧
      (bio.bcache other).blockNo = (client.bio.bcache other).blockNo ∧
      (bio.bcache other).data = (client.bio.bcache other).data := by
    intro other
    rcases eq_or_ne other buf with rfl | ne
    · exact fields
    · rw [released.2.2 other ne]
      exact ⟨rfl, rfl, rfl⟩
  refine simulates.of_kept rfl released.1 ?_ (fun other => (everywhere other).1)
    (fun other => (everywhere other).2.1) (fun other => (everywhere other).2.2) ?_ ?_ ?_
  · rcases result with ⟨stored, written, rfl⟩ | ⟨_, _, online, _⟩
    · exact written.online
    · exact online
  · intro other referenced
    rcases eq_or_ne other buf with rfl | ne
    · exact held
    · dsimp only at referenced
      rwa [released.2.2 other ne] at referenced
  · intro dev blockNo
    rcases result with ⟨stored, written, rfl⟩ | ⟨_, disk, _⟩
    · rcases written.disk_cases dev blockNo with same | ⟨devEq, blockEq⟩
      · exact Or.inl same
      · right
        rw [devEq, blockEq]
        dsimp only
        rw [written.disk_self, dropped]
        exact simulates.cached buf used
    · exact Or.inl (congrFun (congrFun disk dev) blockNo)
  · intro other referenced pending
    rcases eq_or_ne other buf with rfl | ne
    · rcases result with ⟨stored, written, rfl⟩ | ⟨own, _, _, notPending⟩
      · right
        have self := written.disk_self
        rw [dropped] at self
        exact self
      · left
        refine ⟨fun last => notPending last pending, ?_⟩
        unfold Pending at pending ⊢
        dsimp only
        rw [own, dropped]
        exact pending
    · left
      unfold Pending at pending ⊢
      dsimp only
      rw [released.2.2 other ne]
      exact ⟨referenced, pending⟩

theorem simulates_step {client client' : Client} {act : ClientAct} (simulates : client.Simulates)
    (fresh : client.FreshReads act) (stepped : client.step act = some client') :
    client'.Simulates := by
  cases act with
  | bread dev blockNo =>
      rcases Option.map_eq_some_iff.mp stepped with ⟨⟨buf, after⟩, done, rfl⟩
      exact simulates_bread simulates fresh done
  | modify buf data =>
      simp only [step] at stepped
      split at stepped
      · cases stepped
      · rename_i held
        cases stepped
        exact simulates_modify simulates data held
  | setDirty buf =>
      simp only [step] at stepped
      split at stepped
      · cases stepped
      · rename_i held
        cases stepped
        exact simulates_setFlags simulates (simulates.wellFormed.setDirty held)
          (fun _ => Or.inr rfl) (fun other ne => Function.update_of_ne ne _ _)
  | bwrite buf =>
      simp only [step] at stepped
      split at stepped
      · cases stepped
      · rename_i held
        cases written : client.bio.bwrite buf with
        | error panic =>
            rw [written] at stepped
            cases stepped
        | ok bio =>
            rw [written] at stepped
            cases stepped
            exact simulates_bwrite simulates written held
  | brelse buf =>
      simp only [step] at stepped
      split at stepped
      · cases stepped
      · rename_i allowed
        cases released : client.bio.brelse buf with
        | error panic =>
            rw [released] at stepped
            cases stepped
        | ok bio =>
            rw [released] at stepped
            cases stepped
            refine simulates_brelse simulates (fun last => ?_) released
            by_contra unsaved
            exact allowed (Or.inr ⟨last, by simpa using unsaved⟩)
  | iodone buf =>
      cases stepped
      exact simulates_setFlags simulates
        (simulates.wellFormed.of_keeps (Bio.keeps_iodone _ buf)) id (fun _ _ => rfl)

/-- Once nothing is held, every change is on the device. -/
theorem Simulates.disk_eq_flat {client : Client} (simulates : client.Simulates)
    (released : ∀ buf, (client.bio.bcache buf).refCount = 0) : client.bio.disk = client.flat := by
  funext dev blockNo
  rcases simulates.stored dev blockNo with same | ⟨buf, _, _, referenced, _⟩
  · exact same
  · exact absurd (released buf) referenced

/--
In every run whose reads are of fresh blocks, the cache is transparent: the next `bread`
returns what the flat disk holds exactly when its block is fresh, and once every buffer
is released the device holds all changes.
-/
theorem transparent_of_freshReads {disk : Dev → ℕ → Block} {client : Client}
    (reach : Reach step FreshReads (boot disk) client) :
    (∀ dev blockNo buf client', client.bread dev blockNo = some (buf, client') →
      ((client'.bio.bcache buf).data = client'.flat dev blockNo ↔ client.Fresh dev blockNo)) ∧
    ((∀ buf, (client.bio.bcache buf).refCount = 0) → client.bio.disk = client.flat) := by
  have simulates : client.Simulates := reach.invariant (simulates_boot disk)
    fun simulates fresh stepped => simulates_step simulates fresh stepped
  exact ⟨fun _ _ _ _ done => bread_data simulates done, simulates.disk_eq_flat⟩

/-- A block is read, changed and written, and released once its write has completed. -/
def changedOnce : List ClientAct :=
  [.bread 1 5, .modify 0 fun _ => 1, .bwrite 0, .iodone 0, .bread 1 6, .brelse 0, .brelse 1]

/-- A sufficient test for the condition on a run: `B_DONE` is set in every cached buffer read. -/
def readsDone (client : Client) : ClientAct → Bool
  | .bread dev blockNo => (client.bio.find dev blockNo).all fun buf =>
      (client.bio.bcache buf).flags.done
  | _ => true

theorem freshReads_of_readsDone (client : Client) (act : ClientAct)
    (check : client.readsDone act = true) : client.FreshReads act := by
  cases act with
  | bread dev blockNo =>
      intro buf hit notDone
      simp [readsDone, hit, notDone] at check
  | _ => trivial

set_option maxRecDepth 4000 in
theorem transparent_changedOnce :
    ∃ client, Reach step FreshReads (boot fun _ _ _ => 0) client ∧
      client.bio.disk = client.flat ∧ client.flat 1 5 0 = 1 := by
  have observed : (runChecked step readsDone (boot fun _ _ _ => 0) changedOnce).any (fun client =>
      decide ((∀ buf, (client.bio.bcache buf).refCount = 0) ∧ client.flat 1 5 0 = 1)) = true := by
    decide
  simp only [Option.any_eq_true, decide_eq_true_eq] at observed
  rcases observed with ⟨client, done, released, changed⟩
  have reach := reach_of_runChecked freshReads_of_readsDone .start done
  exact ⟨client, reach, (transparent_of_freshReads reach).2 released, changed⟩

/-- A block is changed and written, then changed again before the write completes. -/
def changedTwice : List ClientAct :=
  [.bread 1 5, .brelse 0, .bread 1 5, .modify 0 fun _ => 1, .bwrite 0, .modify 0 fun _ => 2]

/-- The second change is written and all holds are given up. -/
def releasedAll : List ClientAct :=
  [.bwrite 0, .brelse 0, .brelse 0]

/--
Reading the block again after `changedTwice` returns the first change instead of the
second, and the second one never reaches the device.
-/
theorem change_lost_by_nested_bread :
    ∃ client buf client' final,
      run step (boot fun _ _ _ => 0) changedTwice = some client ∧
      client.bread 1 5 = some (buf, client') ∧
      (client'.bio.bcache buf).data ≠ client'.flat 1 5 ∧
      run step client' releasedAll = some final ∧
      (∀ buf, (final.bio.bcache buf).refCount = 0) ∧
      final.bio.disk 1 5 ≠ final.flat 1 5 := by
  have observed : (run step (boot fun _ _ _ => 0) changedTwice).any (fun client =>
      (client.bread 1 5).any fun read =>
        decide ((read.2.bio.bcache read.1).data 0 ≠ read.2.flat 1 5 0) &&
        (run step read.2 releasedAll).any fun final =>
          decide ((∀ buf, (final.bio.bcache buf).refCount = 0) ∧
            final.bio.disk 1 5 0 ≠ final.flat 1 5 0)) = true := by
    decide +kernel
  simp only [Option.any_eq_true, Bool.and_eq_true, decide_eq_true_eq] at observed
  rcases observed with ⟨client, changed, ⟨buf, client'⟩, read, wrong, final, released, free, lost⟩
  exact ⟨client, buf, client', final, changed, read, fun same => wrong (congrFun same 0),
    released, free, fun same => lost (congrFun same 0)⟩

end Client

end Osix
