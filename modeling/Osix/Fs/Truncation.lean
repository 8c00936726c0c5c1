import Osix.Fs.Allocator
import Osix.Fs.Records
import Osix.Fs.Trunc

/-!
# What truncation frees

`itrunc_exact` is about files and directories: in a file system whose zones have one owner each,
exactly the bits of the zones of the inode are cleared, and no other inode record is touched.
-/

namespace Osix

open Program Fs

section

variable {Key : Type} {nodes : Key → InodeData} {key : Key} {i : InodeId} {flat flat' : Flat}
  {ninodes : ℕ}

/--
The slot of an inode of a consistent file system with `ninodes` inodes: no zone of `nodes`, the
inodes of the file system, is held twice, and the inode table is in front of the zones.
-/
structure Truncatable (ninodes : ℕ) (nodes : Key → InodeData) (key : Key) (flat : Flat)
    (i : InodeId) : Prop where
  zones : Zones flat.core.super flat.root nodes
  layout : flat.core.super.Layout
  isSlot : nodes key = (flat.core.inodes i).toInodeData
  isRoot : (flat.core.inodes i).dev = rootDev
  locked : (flat.core.inodes i).lock = true
  typed : (flat.core.inodes i).Typed
  small : ninodes < 2 ^ 16
  positive : 1 ≤ (flat.core.inodes i).inodeno
  atMost : (flat.core.inodes i).inodeno ≤ ninodes

/-- What `itrunc` has to do to the maps, the records and the inode. -/
structure Erased (ninodes : ℕ) (flat : Flat) (i : InodeId) (flat' : Flat) : Prop where
  map : ∀ bit < flat.core.super.zmapBlocks * blockBits,
    flat.core.super.zmap flat'.root bit = true ↔
      flat.core.super.zmap flat.root bit = true ∧
        ∀ place, flat.names i place ≠ some (flat.core.super.zoneOf bit)
  records : ∀ other, 1 ≤ other → other ≤ ninodes → other ≠ (flat.core.inodes i).inodeno →
    ∀ byte < recordSize, flat'.recordByte rootDev other byte = flat.recordByte rootDev other byte
  core : flat'.core = flat.core.setInode i fun old =>
    { old with size := 0, direct := fun _ => 0, indirect := 0, dirty := false }
  onDisk : OnDisk flat' i
  recordZero :
    let record := InodeData.ofDisk
      (flat'.root (inodeBlock flat.core.super (flat.core.inodes i).inodeno))
      (inodeOffset (flat.core.inodes i).inodeno)
    record.size = 0 ∧ (∀ index, record.direct index = 0) ∧ record.indirect = 0

/-- A record is not in the zone map. -/
theorem Cleared.recordByte {bits : Set ℕ} (cleared : Cleared bits flat flat')
    (inodeno byte : ℕ) :
    flat'.recordByte rootDev inodeno byte = flat.recordByte rootDev inodeno byte := by
  have sameBlock := cleared.blocks (inodeBlock flat.core.super inodeno)
    fun bit inMap => inodeBlock_ne_zmapBlock inMap
  unfold Flat.recordByte
  rw [cleared.sameSuper]
  exact congrFun sameBlock _

theorem Truncatable.erased (truncatable : Truncatable ninodes nodes key flat i) {next : Flat}
    (cleared : Cleared (bitsOf flat i Set.univ) flat next)
    (isCore : next.core = flat.core.setInode i fun old => { old with
      size := 0, direct := fun _ => 0, indirect := 0, dirty := true }) :
    Erased ninodes flat i (next.saved i) := by
  have isNode : next.core.inodes i = { flat.core.inodes i with
      size := 0, direct := fun _ => 0, indirect := 0, dirty := true } := by
    simp [isCore, Core.setInode]
  have sameNumber : (next.core.inodes i).inodeno = (flat.core.inodes i).inodeno := by
    rw [isNode]
  have isRoot : (next.core.inodes i).dev = rootDev := by
    rw [isNode]
    exact truncatable.isRoot
  have isDirty : (next.core.inodes i).dirty = true := by rw [isNode]
  have saves : exec Flat.handler (iupdate i) next = .returned () (next.saved i) := by
    rw [Flat.exec_iupdate, if_pos isDirty]
  have typed := truncatable.typed
  have typedNext : (next.core.inodes i).Typed := by
    rw [isNode]
    exact ⟨typed.mode, typed.nlinks, typed.uid, typed.gid, typed.time, isLong_zero,
      fun _ => Nat.two_pow_pos 16, Nat.two_pow_pos 16, typed.dblindirect⟩
  have unsaved : (next.core.inodes i).dirty = false → OnDisk next i := by
    rw [isDirty]
    intro clean
    cases clean
  have isBlock : next.recordBlock i =
      (rootDev, inodeBlock flat.core.super (flat.core.inodes i).inodeno) := by
    rw [Flat.recordBlock, isRoot, sameNumber, cleared.sameSuper]
  refine ⟨?_, ?_, ?_, ?_, ?_⟩
  · intro bit inMap
    have sameBit : flat.core.super.zmap (next.saved i).root bit =
        flat.core.super.zmap next.root bit := by
      have notBlock := (@inodeBlock_ne_zmapBlock _ (flat.core.inodes i).inodeno _ inMap).symm
      unfold Super.zmap Flat.saved
      rw [isBlock]
      exact congrArg (Block.getBit · _) (Flat.root_setBlock_of_ne notBlock)
    rw [sameBit, cleared.map bit inMap]
    simp [bitsOf]
  · intro other positive atMost different byte inside
    rw [← sameNumber] at different
    have sameByte := recordByte_iupdate_of_ne truncatable.small
      (sameNumber.symm ▸ truncatable.positive) (sameNumber.symm ▸ truncatable.atMost) saves positive
      atMost different inside
    rw [isRoot] at sameByte
    rw [sameByte]
    exact cleared.recordByte other byte
  · simp only [Flat.saved, Flat.setInode, Flat.setBlock, isCore, Core.setInode_setInode]
    exact Core.setInode_congr rfl
  · intro byte inside
    have isByte := onDisk_iupdate unsaved saves byte inside
    simpa [Flat.saved] using isByte
  · have isRecord := ofDisk_evicted typedNext unsaved saves
      (evicted_emptied (isRoot.symm ▸ by decide) (next.core.inodes i).inodeno (next.saved i))
    rw [isRoot, sameNumber] at isRecord
    have sameSuper : (next.saved i).core.super = flat.core.super := cleared.sameSuper
    change InodeData.ofDisk ((next.saved i).root
      (inodeBlock (next.saved i).core.super (flat.core.inodes i).inodeno)) _ = _ at isRecord
    rw [sameSuper] at isRecord
    rw [isRecord, isNode]
    exact ⟨rfl, fun _ => rfl, rfl⟩

/--
`itrunc` of a file or directory returns, clears exactly the bits of the zones that the inode
names, leaves the records of other inodes alone, and leaves the inode without zones.
-/
theorem itrunc_exact (truncatable : Truncatable ninodes nodes key flat i) :
    ∃ flat', exec Flat.handler (itrunc i) flat = .returned () flat' ∧
      Erased ninodes flat i flat' := by
  have judged : wp Flat.surely (itrunc i) (fun _ flat' => Erased ninodes flat i flat') flat :=
    wp_itrunc_cleared truncatable.zones truncatable.layout truncatable.isSlot truncatable.isRoot
      truncatable.locked fun next cleared isCore => truncatable.erased cleared isCore
  rcases Flat.returns_of_surely judged with ⟨_, flat', returned, erased⟩
  exact ⟨flat', returned, erased⟩

end

/--
Inode 1, locked in slot 0, is a file of eight blocks with a hole: it holds the zones 5 and 7, the
latter in its indirect zone 6. Inode 2 holds zone 8.
-/
def withIndirect : Flat where
  core :=
    { Core.init ⟨16, 1, 1, 5⟩ with
      inodes := fun i =>
        if i = 0 then
          { Inode.unused with
            dev := rootDev, inodeno := 1, refcount := 1, nlinks := 1, lock := true
            size := 8 * 1024, direct := fun index => if index = 0 then 5 else 0, indirect := 6 }
        else if i = 1 then
          { Inode.unused with
            dev := rootDev, inodeno := 2, refcount := 1, nlinks := 1
            direct := fun index => if index = 0 then 8 else 0 }
        else .unused }
  disk := fun _ block offset => if block = 6 then if offset = 0 then 7 else 0 else 0xFF

def withIndirectNodes (first : Bool) : InodeData :=
  (withIndirect.core.inodes (if first then 0 else 1)).toInodeData

/-- Who holds one of the zones. -/
def withIndirectHolder : ℕ → Bool × Place
  | 5 => (true, .direct 0)
  | 6 => (true, .indirect)
  | 7 => (true, .entry 0)
  | _ => (false, .direct 0)

theorem withIndirect_holds {holder : Bool × Place} {zone : ℕ}
    (held : holdsZone withIndirect.root withIndirectNodes holder = some zone) :
    holder = withIndirectHolder zone ∧ 5 ≤ zone ∧ zone ≤ 8 := by
  rw [holdsZone_eq_some] at held
  rcases holder with ⟨first, place⟩
  rcases held with ⟨isZone, notZero⟩
  cases place with
  | direct index =>
      by_cases isFirst : index = 0
      · subst isFirst
        cases first <;> subst isZone <;> exact ⟨rfl, by decide, by decide⟩
      · have isZero : (withIndirectNodes first).direct index = 0 := by
          cases first <;> exact if_neg isFirst
        exact absurd (isZone.symm.trans isZero) notZero
  | indirect =>
      cases first with
      | false => exact absurd isZone.symm notZero
      | true =>
          subst isZone
          exact ⟨rfl, by decide, by decide⟩
  | entry index =>
      cases first with
      | false => exact absurd isZone.symm notZero
      | true =>
          by_cases isFirst : index = 0
          · subst isFirst
            subst isZone
            exact ⟨rfl, by decide, by decide⟩
          · have positive : 0 < index.val :=
              Nat.pos_of_ne_zero fun isNull => isFirst (Fin.ext isNull)
            have isZero : (withIndirect.root 6).get16 (2 * index) = 0 := by
              simp [Block.get16, Flat.root, withIndirect, positive.ne']
            exact absurd (isZone.symm.trans isZero) notZero

theorem truncatable_withIndirect : Truncatable 2 withIndirectNodes true withIndirect 0 where
  zones := by
    have allSet : ∀ bit < 1 * blockBits,
        withIndirect.core.super.zmap withIndirect.root bit = true := by
      intro bit inMap
      have isBlock : withIndirect.core.super.zmapBlock bit ≠ 6 := by
        have inBlock : bit / blockBits = 0 := Nat.div_eq_of_lt (by omega)
        rw [Super.zmapBlock, inBlock]
        decide
      have isByte : withIndirect.root (withIndirect.core.super.zmapBlock bit) = fun _ => 0xFF :=
        funext fun offset => if_neg isBlock
      rw [Super.zmap, isByte]
      exact byte_full.mp rfl _ (Nat.mod_lt _ (by decide))
    refine ⟨?_, fun _ bit inMap _ => allSet bit inMap, ?_, ?_⟩
    · intro first second zone heldFirst heldSecond
      rw [(withIndirect_holds heldFirst).1, (withIndirect_holds heldSecond).1]
    · intro holder zone held
      have bounds := (withIndirect_holds held).2
      exact ⟨bounds.1, Nat.lt_of_le_of_lt bounds.2 (by decide)⟩
    · intro bit inMap isClear
      rw [allSet bit inMap] at isClear
      cases isClear
  layout := by constructor <;> decide
  isSlot := rfl
  isRoot := rfl
  locked := rfl
  typed := ⟨Nat.two_pow_pos 16, (by decide : 1 < 2 ^ 16), Nat.two_pow_pos 16, Nat.two_pow_pos 16,
    isLong_zero, (by unfold IsLong; decide : IsLong (8 * 1024)), by decide,
    (by decide : 6 < 2 ^ 16), Nat.two_pow_pos 16⟩
  small := by decide
  positive := by decide
  atMost := by decide

theorem itrunc_exact_withIndirect :
    ∃ flat', exec Flat.handler (itrunc 0) withIndirect = .returned () flat' ∧
      Erased 2 withIndirect 0 flat' :=
  itrunc_exact truncatable_withIndirect

end Osix
