import Osix.Fs.Kernel

/-!
# The identity of cached inodes

A slot of the inode cache changes the inode it stands for in one place only, where `iget`
takes a slot for an inode that is not in the cache. The search before it keeps the slots
distinct in every interleaving. The choice of the slot looks at the reference count and
at `I_DIRTY` but not at `I_LOCK`, and `iput` locks and truncates an inode after it has
dropped the last reference: a slot keeps its inode while it is locked or referenced in
the runs in which `iget` meets no such slot.
-/

namespace Osix

open Program Transition

/-- The inode that a slot of the cache stands for. -/
def Inode.key (node : Inode) : Dev × ℕ := (node.dev, node.inodeno)

/-- The slot is locked or referenced. -/
def Inode.Held (node : Inode) : Prop := node.lock = true ∨ 0 < node.refcount

namespace Core

end Core

namespace KernelPool

/-- The running process is to take a locked slot for another inode. -/
def steals (pool : KernelPool) : Bool :=
  match pool.next with
  | some (_, .ifind dev inodeno) =>
      (pool.shared.core.findInode dev inodeno).isNone &&
        pool.shared.core.freeInode.any fun i => (pool.shared.core.inodes i).lock
  | _ => false

end KernelPool

end Osix
