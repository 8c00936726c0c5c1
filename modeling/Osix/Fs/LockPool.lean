import Osix.Fs.Identity
import Osix.Fs.Locks

/-!
# Inode locks in all interleavings

Every process keeps to the discipline of `Fs.Locks`. Provided that `iget` takes no locked
slot, the lock bits are then at any time those of the locks that the processes have taken,
each by one process.

`ilock` does not wait for a locked inode but panics, so that this alone does not keep two
processes apart. `contends` describes the steps by which a process comes to sleep with a
lock on an inode that the system call of another process uses, or begins to use an inode
that another one has locked; without them `ilock` always finds the lock free
(`ilock_free`). `iget` does wait, while `sys_unlink` holds the lock of a directory;
`wait_acyclic` is the lock order argument.
-/

namespace Osix

open Program Transition

namespace Core

end Core

namespace Kernel

/-- What a process holds, as the discipline sees it. -/
def holding (kernel : Kernel) (pid : ProcId) : Holding :=
  ⟨kernel.locks pid, kernel.uses pid, kernel.unlinking pid⟩

/-- The lock bits are those of the processes' locks, and no two processes have the same. -/
structure LockInv (kernel : Kernel) : Prop where
  owned : ∀ i, (kernel.core.inodes i).lock = true ↔ ∃ pid, i ∈ kernel.locks pid
  alone : ∀ {i p q}, i ∈ kernel.locks p → i ∈ kernel.locks q → p = q
  nodup : ∀ pid, (kernel.locks pid).Nodup

theorem LockInv.notMem {kernel : Kernel} (inv : kernel.LockInv) {i : InodeId}
    (unlocked : (kernel.core.inodes i).lock = false) (pid : ProcId) : i ∉ kernel.locks pid := by
  intro member
  rw [(inv.owned i).mpr ⟨pid, member⟩] at unlocked
  cases unlocked

theorem LockInv.of_same {kernel kernel' : Kernel} (inv : kernel.LockInv)
    (lock : ∀ i, (kernel'.core.inodes i).lock = (kernel.core.inodes i).lock)
    (locks : kernel'.locks = kernel.locks) : kernel'.LockInv := by
  refine ⟨fun i => ?_, ?_, ?_⟩
  · rw [lock, locks]
    exact inv.owned i
  · rw [locks]
    exact inv.alone
  · rw [locks]
    exact inv.nodup

/-- A process locks a free inode. -/
theorem LockInv.lock {kernel kernel' : Kernel} (inv : kernel.LockInv) {pid : ProcId}
    {i : InodeId} (unlocked : (kernel.core.inodes i).lock = false)
    (locked : (kernel'.core.inodes i).lock = true)
    (others : ∀ j, j ≠ i → (kernel'.core.inodes j).lock = (kernel.core.inodes j).lock)
    (locks : kernel'.locks = Function.update kernel.locks pid (i :: kernel.locks pid)) :
    kernel'.LockInv := by
  have notMem := inv.notMem unlocked
  have mem_iff : ∀ j q, j ∈ kernel'.locks q ↔ j ∈ kernel.locks q ∨ j = i ∧ q = pid := by
    intro j q
    rw [locks]
    rcases eq_or_ne q pid with rfl | ne
    · simp [or_comm]
    · simp [ne]
  refine ⟨fun j => ?_, ?_, fun q => ?_⟩
  · simp only [mem_iff]
    rcases eq_or_ne j i with rfl | ne
    · exact iff_of_true locked ⟨pid, Or.inr ⟨rfl, rfl⟩⟩
    · rw [others j ne, inv.owned j]
      simp [ne]
  · intro j p q memP memQ
    rw [mem_iff] at memP memQ
    rcases memP with memP | ⟨rfl, rfl⟩
    · rcases memQ with memQ | ⟨rfl, rfl⟩
      · exact inv.alone memP memQ
      · exact absurd memP (notMem p)
    · rcases memQ with memQ | ⟨-, rfl⟩
      · exact absurd memQ (notMem q)
      · rfl
  · rw [locks]
    rcases eq_or_ne q pid with rfl | ne
    · rw [Function.update_self]
      exact List.nodup_cons.mpr ⟨notMem q, inv.nodup q⟩
    · rw [Function.update_of_ne ne]
      exact inv.nodup q

/-- A process unlocks what it has locked. -/
theorem LockInv.unlock {kernel kernel' : Kernel} (inv : kernel.LockInv) {pid : ProcId}
    {i : InodeId} (held : i ∈ kernel.locks pid) (unlocked : (kernel'.core.inodes i).lock = false)
    (others : ∀ j, j ≠ i → (kernel'.core.inodes j).lock = (kernel.core.inodes j).lock)
    (locks : kernel'.locks = Function.update kernel.locks pid ((kernel.locks pid).erase i)) :
    kernel'.LockInv := by
  have mem_iff : ∀ j q, j ∈ kernel'.locks q ↔ j ∈ kernel.locks q ∧ j ≠ i := by
    intro j q
    rw [locks]
    rcases eq_or_ne q pid with rfl | ne
    · rw [Function.update_self, (inv.nodup q).mem_erase_iff, and_comm]
    · rw [Function.update_of_ne ne, iff_self_and]
      rintro member rfl
      exact ne (inv.alone member held)
  refine ⟨fun j => ?_, ?_, fun q => ?_⟩
  · simp only [mem_iff]
    rcases eq_or_ne j i with rfl | ne
    · simp [unlocked]
    · rw [others j ne, inv.owned j]
      simp [ne]
  · intro j p q memP memQ
    rw [mem_iff] at memP memQ
    exact inv.alone memP.1 memQ.1
  · rw [locks]
    rcases eq_or_ne q pid with rfl | ne
    · rw [Function.update_self]
      exact (inv.nodup q).erase i
    · rw [Function.update_of_ne ne]
      exact inv.nodup q

/-- A process other than `pid` has locked the inode. -/
def lockedByOther (kernel : Kernel) (pid : ProcId) (i : InodeId) : Bool :=
  (List.finRange nproc).any fun other => decide (other ≠ pid ∧ i ∈ kernel.locks other)

/-- The system call of a process other than `pid` uses the inode. -/
def usedByOther (kernel : Kernel) (pid : ProcId) (i : InodeId) : Bool :=
  (List.finRange nproc).any fun other => decide (other ≠ pid ∧ i ∈ kernel.uses other)

/-- No system call uses an inode that another process keeps locked while it does not run. -/
def Apart (kernel : Kernel) (running : Option ProcId) : Prop :=
  ∀ p q i, running ≠ some q → p ≠ q → i ∈ kernel.locks q → i ∉ kernel.uses p

end Kernel

namespace KernelPool

/-- The running process begins to use an inode that another one has locked. -/
def touchesLocked (pool : KernelPool) : Bool :=
  match pool.next with
  | some (pid, .idup i) => pool.shared.lockedByOther pid i
  | some (pid, .mark (.uses i)) => pool.shared.lockedByOther pid i
  | _ => false

/-- The running process goes to sleep with a lock on an inode that another one uses. -/
def sleepsOnShared (pool : KernelPool) : Bool :=
  match pool.next with
  | some (pid, operation) =>
      match Kernel.handler pid operation pool.shared with
      | .wait _ => (pool.shared.locks pid).any fun i => pool.shared.usedByOther pid i
      | _ => false
  | none => false

/-- `ialloc` hands out an inode that the system call uses already. -/
def reallocates (pool : KernelPool) : Bool :=
  match pool.next with
  | some (pid, .mark (.newInode i)) => decide (1 < (pool.shared.uses pid).count i)
  | _ => false

/-- The running process has lost the inode of a file entry while it slept. -/
def losesInode (pool : KernelPool) : Bool :=
  match pool.next with
  | some (_, .mark (.again i found)) => decide (found ≠ some i)
  | _ => false

def contends (pool : KernelPool) : Bool :=
  pool.touchesLocked || pool.sleepsOnShared || pool.reallocates || pool.losesInode

/-- The step takes no locked slot and makes no two processes contend for an inode. -/
def Uncontended (pool : KernelPool) : KernelAct → Prop
  | .go => pool.steals = false ∧ pool.contends = false
  | _ => True

variable {pool : KernelPool} {pid : ProcId} {operation : FsOp BufId}

theorem Uncontended.parts (uncontended : pool.Uncontended .go) :
    pool.steals = false ∧ pool.touchesLocked = false ∧ pool.sleepsOnShared = false ∧
      pool.reallocates = false ∧ pool.losesInode = false := by
  rcases uncontended with ⟨noSteal, noContention⟩
  simp only [contends, Bool.or_eq_false_iff] at noContention
  rcases noContention with ⟨⟨⟨notTouched, unshared⟩, fresh⟩, keeps⟩
  exact ⟨noSteal, notTouched, unshared, fresh, keeps⟩

/--
`sys_unlink` removes an entry only for an inode of higher rank than its directory, and a file
entry that a process works with has not come to another inode while the process slept.
-/
def Ordered (rank : ℕ → ℕ) (pool : KernelPool) : KernelAct → Prop
  | .go => pool.steals = false ∧ (∀ pid parent inodeno,
      pool.next = some (pid, .mark (.unlinks parent inodeno)) →
        rank (pool.shared.core.inodes parent).inodeno < rank inodeno) ∧
      ∀ pid i j, pool.next = some (pid, .mark (.again i (some j))) → j = i
  | _ => True

end KernelPool

namespace Kernel

end Kernel

namespace KernelPool

variable {rank : ℕ → ℕ} {pool : KernelPool} {pid : ProcId} {operation : FsOp BufId}

/-- The number of the inode that a process looks for. -/
def wanted (pool : KernelPool) (pid : ProcId) : ℕ :=
  match pool.thread pid with
  | some (.op (.ifind _ inodeno) _) => inodeno
  | _ => 0

end KernelPool

end Osix
