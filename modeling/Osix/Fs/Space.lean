import Osix.Fs.Contents
import Mathlib.Data.List.Find

/-!
# Free zones

`balloc` takes the free zones in the order of the zone map. With the list of free zones at
hand one can say exactly what `bmap` does when it has to take a zone, and when it finds none.

The results are about all rules that let the marked points of `balloc` and `bmap` pass.
-/

namespace Osix

open Program Ownership

namespace Super

/-- The bits of the free zones in the order in which `balloc` takes them. -/
def freeBits (super : Super) (disk : ℕ → Block) : List ℕ :=
  (List.range (super.zmapBlocks * blockBits)).filter fun bit => !super.zmap disk bit

theorem mem_freeBits {super : Super} {disk : ℕ → Block} {bit : ℕ} :
    bit ∈ super.freeBits disk ↔
      bit < super.zmapBlocks * blockBits ∧ super.zmap disk bit = false := by
  simp [freeBits]

theorem freeBits_congr {super : Super} {disk disk' : ℕ → Block}
    (same : ∀ bit < super.zmapBlocks * blockBits, super.zmap disk' bit = super.zmap disk bit) :
    super.freeBits disk' = super.freeBits disk := by
  apply List.filter_congr
  intro bit isIn
  rw [same bit (List.mem_range.mp isIn)]

/-- The first free zone is taken. -/
theorem freeBits_tail {super : Super} {disk disk' : ℕ → Block} {bit : ℕ} {rest : List ℕ}
    (isFree : super.freeBits disk = bit :: rest)
    (taken : ∀ other < super.zmapBlocks * blockBits,
      super.zmap disk' other = (decide (other = bit) || super.zmap disk other)) :
    super.freeBits disk' = rest := by
  have noDuplicate : (bit :: rest).Nodup := by
    rw [← isFree]
    exact List.nodup_range.filter _
  have isFilter : super.freeBits disk' = (super.freeBits disk).filter (· ≠ bit) := by
    unfold freeBits
    rw [List.filter_filter]
    apply List.filter_congr
    intro other isIn
    rw [taken other (List.mem_range.mp isIn)]
    by_cases same : other = bit
    · simp [same]
    · simp [same]
  rw [isFilter, isFree, List.filter_cons_of_neg (by simp), List.filter_eq_self]
  intro other isIn
  have different : other ≠ bit := by
    rintro rfl
    exact (List.nodup_cons.mp noDuplicate).1 isIn
  simpa using different

end Super

namespace Flat

open Fs

/-- Rules for which a marked point is nothing special, unless data is written there. -/
class Silent (spec : Spec (FsOp FlatBuf) FsOp.Reply Flat) : Prop where
  mark : ∀ {event : Event} {post : Unit → Flat → Prop} {flat : Flat},
    (∀ dev blockNo, event ≠ .writesData dev blockNo) →
      (wp spec (Fs.mark event) post flat ↔ post () flat)

variable {spec : Spec (FsOp FlatBuf) FsOp.Reply Flat} {allowed : Stop → Flat → Prop}
  [judges : Judges spec allowed] [silent : Silent spec] {flat : Flat}

include judges silent

/-- `balloc` takes the first free zone. -/
theorem wp_balloc_first {post : ℕ → Flat → Prop} (layout : flat.core.super.Layout) :
    wp spec (balloc rootDev) post flat ↔
      match flat.core.super.freeBits flat.root with
      | bit :: _ => post (flat.core.super.zoneOf bit) (flat.setZmap bit)
      | [] => post 0 flat := by
  rw [wp_balloc_find layout.geometry, findClear, ← List.head?_filter]
  have areFree : ((List.range (flat.core.super.zmapBlocks * blockBits)).filter fun bit =>
      !flat.core.super.zmap flat.root bit) = flat.core.super.freeBits flat.root := rfl
  rcases isFree : flat.core.super.freeBits flat.root with _ | ⟨bit, rest⟩
  · rw [isFree] at areFree
    erw [areFree]
    exact Silent.mark (by simp)
  · rw [isFree] at areFree
    erw [areFree]
    rfl

end Flat

/-! ## What an inode names -/

namespace Flat

/-- The zone that the inode in a slot names at a place. -/
def names (flat : Flat) (i : InodeId) (place : Place) : Option ℕ :=
  let zone := (flat.core.inodes i).zoneAt flat.root place
  if zone = 0 then none else some zone

/-- A zone is taken for a direct block. -/
def takeDirect (flat : Flat) (i : InodeId) (index : Fin ndirect) (bit : ℕ) : Flat :=
  ((flat.setZmap bit).setData i fun old =>
    { old with
      direct := Function.update old.direct index (toUshort (flat.core.super.zoneOf bit)) }).setInode i
        fun old => { old with dirty := true }

/-- A zone is taken for the indirect block. -/
def takeIndirect (flat : Flat) (i : InodeId) (bit : ℕ) : Flat :=
  ((flat.setZmap bit).setData i fun old =>
    { old with indirect := toUshort (flat.core.super.zoneOf bit) }).setInode i
      fun old => { old with dirty := true }

/-- A zone is taken for an entry of the indirect block. -/
def takeEntry (flat : Flat) (i : InodeId) (entry bit : ℕ) : Flat :=
  (flat.setZmap bit).setBlock (rootDev, (flat.core.inodes i).indirect)
    (((flat.setZmap bit).root (flat.core.inodes i).indirect).copy (2 * entry)
      (bytes16 (flat.core.super.zoneOf bit)))

theorem names_eq_some {flat : Flat} {i : InodeId} {place : Place} {zone : ℕ} :
    flat.names i place = some zone ↔
      (flat.core.inodes i).zoneAt flat.root place = zone ∧ zone ≠ 0 :=
  @holdsZone_eq_some InodeId flat.root (fun j => (flat.core.inodes j).toInodeData) (i, place) zone

theorem names_eq_none {flat : Flat} {i : InodeId} {place : Place} :
    flat.names i place = none ↔ (flat.core.inodes i).zoneAt flat.root place = 0 := by
  simp [names]

theorem names_ne_zero {flat : Flat} {i : InodeId} {place : Place} :
    flat.names i place ≠ some 0 := by
  intro named
  exact (names_eq_some.mp named).2 rfl

/-- What an inode names depends on its zones only. -/
theorem names_congr {flat flat' : Flat} {i : InodeId}
    (sameDirect : (flat'.core.inodes i).direct = (flat.core.inodes i).direct)
    (sameIndirect : (flat'.core.inodes i).indirect = (flat.core.inodes i).indirect)
    (sameRoot : flat'.root = flat.root) : flat'.names i = flat.names i := by
  funext place
  have sameZone : (flat'.core.inodes i).zoneAt flat'.root place =
      (flat.core.inodes i).zoneAt flat.root place := by
    rw [sameRoot]
    cases place <;> simp only [InodeData.zoneAt, sameDirect, sameIndirect]
  rw [names, sameZone]
  rfl

section

variable {Key : Type} {nodes : Key → InodeData} {key : Key} {flat : Flat} {i : InodeId}

theorem holdsZone_slot (isSlot : nodes key = (flat.core.inodes i).toInodeData) (place : Place) :
    holdsZone flat.root nodes (key, place) = flat.names i place := by
  simp [holdsZone, names, isSlot]

theorem holdsZone_withSlot [DecidableEq Key] (place : Place) :
    holdsZone flat.root (withSlot nodes key flat i) (key, place) = flat.names i place :=
  holdsZone_slot (withSlot_self ..) place

end

/-! ## What `bmap` does with the free zones -/

section

open Fs

variable {spec : Spec (FsOp FlatBuf) FsOp.Reply Flat} {allowed : Stop → Flat → Prop}
  [judges : Judges spec allowed] [silent : Silent spec] {flat : Flat} {i : InodeId} {index : ℕ}
  {post : ℕ → Flat → Prop}

theorem entryPlace (notDirect : ¬index < ndirect) (inFile : index < maxBlocks) :
    ∃ less : index - ndirect < nindirect, blockPlace index = .entry ⟨index - ndirect, less⟩ := by
  have less : index - ndirect < nindirect := by
    unfold maxBlocks at inFile
    omega
  refine ⟨less, ?_⟩
  rw [blockPlace, dif_neg notDirect]
  congr 1
  exact Fin.ext (Nat.mod_eq_of_lt less)

theorem directPlace (isDirect : index < ndirect) :
    blockPlace index = .direct ⟨index, isDirect⟩ :=
  dif_pos isDirect

include judges silent

omit silent in
theorem wp_bmapIndirect_named {entry : Fin nindirect} {zone : ℕ}
    (isRoot : (flat.core.inodes i).dev = rootDev) (named : flat.names i (.entry entry) = some zone)
    (holds : post zone flat) : wp spec (bmapIndirect i entry) post flat := by
  obtain ⟨isZone, notZero⟩ := names_eq_some.mp named
  have hasIndirect : (flat.core.inodes i).indirect ≠ 0 := by
    intro isZero
    rw [InodeData.zoneAt, if_pos isZero] at isZone
    exact notZero isZone.symm
  rw [InodeData.zoneAt, if_neg hasIndirect] at isZone
  have isEntry : (flat.disk rootDev (flat.core.inodes i).indirect).get16 (2 * entry) = zone :=
    isZone
  simp only [bmapIndirect, wp_bind, wp_getInode, hasIndirect, ne_eq, not_false_eq_true, if_true,
    wp_bread, wp_bdata, wp_when, wp_brelse, wp_pure, isRoot, isEntry, notZero, if_false]
  exact holds

/-- An entry of the indirect block names no zone yet. -/
theorem wp_bmapIndirect_unnamed {entry : Fin nindirect} (layout : flat.core.super.Layout)
    (isRoot : (flat.core.inodes i).dev = rootDev)
    (hasIndirect : (flat.core.inodes i).indirect ≠ 0)
    (unnamed : flat.names i (.entry entry) = none)
    (full : flat.core.super.freeBits flat.root = [] → ∀ flat', post 0 flat')
    (holds : ∀ bit rest, flat.core.super.freeBits flat.root = bit :: rest →
      post (((flat.takeEntry i entry bit).root (flat.core.inodes i).indirect).get16 (2 * entry))
        (flat.takeEntry i entry bit)) :
    wp spec (bmapIndirect i entry) post flat := by
  have isFree := names_eq_none.mp unnamed
  rw [InodeData.zoneAt, if_neg hasIndirect] at isFree
  have isEntry : (flat.disk rootDev (flat.core.inodes i).indirect).get16 (2 * entry) = 0 := isFree
  simp only [bmapIndirect, wp_bind, wp_getInode, hasIndirect, ne_eq, not_false_eq_true, if_true,
    wp_bread, wp_bdata, wp_when, wp_brelse, wp_pure, isRoot, isEntry]
  rw [wp_balloc_first layout]
  cases free : flat.core.super.freeBits flat.root with
  | nil =>
      simp only [wp_bstore, wp_bwrite]
      have isStored : ((flat.setBlock (rootDev, (flat.core.inodes i).indirect)
          ((flat.disk rootDev (flat.core.inodes i).indirect).copy (2 * entry) (bytes16 0))).disk
            rootDev (flat.core.inodes i).indirect).get16 (2 * entry) = 0 := by
        rw [setBlock_self flat (rootDev, (flat.core.inodes i).indirect)]
        exact Block.get16_copy_self _ _ (by decide)
      rw [isStored]
      exact full free _
  | cons bit rest =>
      simp only [wp_bstore, wp_bwrite]
      exact holds bit rest free

/-- `bmap` of a block that has a zone. -/
theorem wp_bmap_named {write : Bool} {zone : ℕ} (isRoot : (flat.core.inodes i).dev = rootDev)
    (locked : (flat.core.inodes i).lock = true) (inFile : index < maxBlocks)
    (named : flat.names i (blockPlace index) = some zone) (holds : post zone flat) :
    wp spec (bmap i index write) post flat := by
  have notWritten : ∀ dev blockNo, Event.bmapped i index zone ≠ .writesData dev blockNo := by simp
  simp only [bmap, wp_bind, wp_getInode, locked, Bool.not_true, Bool.false_eq_true, if_false]
  by_cases isDirect : index < ndirect
  · rw [directPlace isDirect, names_eq_some, InodeData.zoneAt] at named
    simp only [isDirect, dif_pos, wp_bind, wp_when, wp_getInode, wp_pure, named.1, named.2,
      and_false, if_false]
    exact (Silent.mark notWritten).mpr holds
  · obtain ⟨less, isPlace⟩ := entryPlace isDirect inFile
    rw [isPlace] at named
    have hasIndirect : (flat.core.inodes i).indirect ≠ 0 := by
      intro isZero
      have noZone := names_eq_some.mp named
      rw [InodeData.zoneAt, if_pos isZero] at noZone
      exact noZone.2 noZone.1.symm
    have inFile' : index < ndirect + nindirect := inFile
    simp only [isDirect, dif_neg, not_false_eq_true, inFile', if_true, hasIndirect, and_false,
      wp_bind, wp_when, if_false, wp_pure]
    apply @wp_bmapIndirect_named _ _ _ _ _ _ ⟨index - ndirect, less⟩ _ isRoot named
    exact (Silent.mark notWritten).mpr holds

/-- `bmap` of a direct block that has no zone. -/
theorem wp_bmap_direct (layout : flat.core.super.Layout)
    (isRoot : (flat.core.inodes i).dev = rootDev) (locked : (flat.core.inodes i).lock = true)
    (isDirect : index < ndirect) (unnamed : flat.names i (blockPlace index) = none)
    (full : flat.core.super.freeBits flat.root = [] → ∀ flat', post 0 flat')
    (holds : ∀ bit rest, flat.core.super.freeBits flat.root = bit :: rest →
      post (toUshort (flat.core.super.zoneOf bit)) (flat.takeDirect i ⟨index, isDirect⟩ bit)) :
    wp spec (bmap i index true) post flat := by
  rw [directPlace isDirect, names_eq_none, InodeData.zoneAt] at unnamed
  simp only [bmap, wp_bind, wp_getInode, locked, Bool.not_true, Bool.false_eq_true, if_false,
    isDirect, dif_pos, wp_when, unnamed, and_self, if_true, wp_pure, isRoot]
  rw [wp_balloc_first layout]
  cases free : flat.core.super.freeBits flat.root with
  | nil =>
      simp only [wp_setData, wp_setDirty]
      rw [Silent.mark (by simp)]
      simp only [setData, setInode_self, Function.update_self]
      exact full free _
  | cons bit rest =>
      simp only [wp_setData, wp_setDirty]
      rw [Silent.mark (by simp)]
      simp only [setData, setInode_self, Function.update_self]
      exact holds bit rest free

/-- `bmap` of a block behind the direct ones, for an inode without an indirect block. -/
theorem wp_bmap_indirect (layout : flat.core.super.Layout)
    (isRoot : (flat.core.inodes i).dev = rootDev) (locked : (flat.core.inodes i).lock = true)
    (notDirect : ¬index < ndirect) (inFile : index < maxBlocks)
    (noIndirect : (flat.core.inodes i).indirect = 0)
    (full : flat.core.super.freeBits flat.root = [] → ∀ flat', post 0 flat')
    (holds : ∀ bit rest, flat.core.super.freeBits flat.root = bit :: rest →
      wp spec (bmapIndirect i (index - ndirect)) post (flat.takeIndirect i bit)) :
    wp spec (bmap i index true) post flat := by
  have inFile' : index < ndirect + nindirect := inFile
  have notMarked : ∀ zone flat, post zone flat →
      wp spec (do
        mark (.bmapped i index zone)
        return zone) post flat := by
    intro zone flat holds
    rw [wp_bind, Silent.mark (by simp)]
    exact holds
  simp only [bmap, wp_bind, wp_getInode, locked, Bool.not_true, Bool.false_eq_true, if_false,
    notDirect, dif_neg, not_false_eq_true, inFile', if_true, noIndirect, and_self, wp_when, isRoot]
  rw [wp_balloc_first layout]
  cases free : flat.core.super.freeBits flat.root with
  | nil =>
      simp only [wp_setData, wp_setDirty]
      rw [Silent.mark (by simp)]
      have isZero : toUshort 0 = 0 := by decide
      simp only [bmapIndirect, wp_bind, wp_getInode, setData, setInode_self, Nat.cast_zero, isZero,
        ne_eq, not_true_eq_false, if_false, wp_pure]
      have holds' := notMarked 0 _ (full free (((flat.setInode i fun old =>
        { old with indirect := 0 }).setInode i fun old => { old with dirty := true })))
      simpa using holds'
  | cons bit rest =>
      simp only [wp_setData, wp_setDirty]
      rw [Silent.mark (by simp)]
      apply wp_mono _ (holds bit rest free)
      intro zone flat' holds'
      have isMarked := notMarked zone flat' holds'
      simpa using isMarked

/-- `bmap` of a block behind the direct ones, for an inode with an indirect block. -/
theorem wp_bmap_entry {write : Bool} (locked : (flat.core.inodes i).lock = true)
    (notDirect : ¬index < ndirect) (inFile : index < maxBlocks)
    (hasIndirect : (flat.core.inodes i).indirect ≠ 0)
    (holds : wp spec (bmapIndirect i (index - ndirect)) post flat) :
    wp spec (bmap i index write) post flat := by
  have inFile' : index < ndirect + nindirect := inFile
  simp only [bmap, wp_bind, wp_getInode, locked, Bool.not_true, Bool.false_eq_true, if_false,
    notDirect, dif_neg, not_false_eq_true, inFile', if_true, hasIndirect, and_false, wp_when]
  apply wp_mono _ holds
  intro zone flat' holds'
  rw [Silent.mark (by simp)]
  exact holds'

omit silent in
/-- `bmap` of a block that no indirect block can name. -/
theorem wp_bmap_beyond {write : Bool} (locked : (flat.core.inodes i).lock = true)
    (beyond : maxBlocks ≤ index) (holds : allowed (.panic .doubleIndirect) flat) :
    wp spec (bmap i index write) post flat := by
  have notDirect : ¬index < ndirect := by
    unfold maxBlocks at beyond
    omega
  have notIndirect : ¬index < ndirect + nindirect := by
    unfold maxBlocks at beyond
    omega
  simp only [bmap, wp_bind, wp_getInode, locked, Bool.not_true, Bool.false_eq_true, if_false,
    notDirect, dif_neg, not_false_eq_true, notIndirect, wp_panic]
  exact holds

end

end Flat

end Osix
