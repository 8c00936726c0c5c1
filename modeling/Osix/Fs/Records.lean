import Osix.Fs.Zones
import Osix.Fs.Cache

/-!
# Inode records

`iupdate` copies the fields of an inode into its `struct minix_inode` and `iget` copies them back.
The record keeps the group and the number of links in one byte each, where the inode has 16 bits:
`inode_records` says that an inode comes back from the disk as it was exactly when these two fit,
and that the record of one inode does not reach into that of another.
-/

namespace Osix

open Program Fs

/-- The fields have values of their C types. -/
structure InodeData.Typed (node : InodeData) : Prop where
  mode : node.mode < 2 ^ 16
  nlinks : node.nlinks < 2 ^ 16
  uid : node.uid < 2 ^ 16
  gid : node.gid < 2 ^ 16
  time : IsLong node.time
  size : IsLong node.size
  direct : ∀ index, node.direct index < 2 ^ 16
  indirect : node.indirect < 2 ^ 16
  dblindirect : node.dblindirect < 2 ^ 16

/-- The size of a `struct minix_inode`. -/
def recordSize : ℕ := 32

theorem InodeData.toDisk_length (node : InodeData) : node.toDisk.length = recordSize := rfl

/-- What is left of an inode in its record. -/
def InodeData.recorded (node : InodeData) : InodeData :=
  { node with gid := node.gid % 256, nlinks := node.nlinks % 256 }

theorem Block.get16_copy (data : Block) (base : ℕ) {bytes : List Byte} {offset : ℕ}
    (inside : offset + 1 < bytes.length) :
    (data.copy base bytes).get16 (base + offset) =
      bytes[offset].toNat + 256 * bytes[offset + 1].toNat := by
  have low := @Block.copy_of_mem data base offset bytes (by omega)
  have high := @Block.copy_of_mem data base (offset + 1) bytes inside
  rw [Block.get16, low, Nat.add_assoc, high]

theorem toLong_toUint {value : ℤ} (isLong : IsLong value) : toLong (toUint value : ℤ) = value := by
  have isUint : ((toUint value : ℕ) : ℤ) = value % ((2 ^ 32 : ℕ) : ℤ) := by
    unfold toUint
    omega
  rw [isUint, toLong, Int.emod_bmod]
  exact toLong_of_isLong isLong

/-- A word that was stored with its low byte first. -/
theorem word_eq {value : ℕ} (small : value < 2 ^ 16) :
    (BitVec.ofNat 8 value).toNat + 256 * (BitVec.ofNat 8 (value / 256)).toNat = value := by
  rw [BitVec.toNat_ofNat, BitVec.toNat_ofNat]
  omega

/-- A word of a record that has been copied into a block. -/
theorem get16_toDisk (data : Block) (base : ℕ) (node : InodeData) (offset : ℕ) {value : ℕ}
    (inside : offset + 1 < node.toDisk.length) (low : node.toDisk[offset] = BitVec.ofNat 8 value)
    (high : node.toDisk[offset + 1] = BitVec.ofNat 8 (value / 256)) (small : value < 2 ^ 16) :
    (data.copy base node.toDisk).get16 (base + offset) = value := by
  rw [Block.get16_copy data base inside, low, high]
  exact word_eq small

/-- A double word of a record that has been copied into a block. -/
theorem get32_toDisk (data : Block) (base : ℕ) (node : InodeData) (offset : ℕ) {value : ℕ}
    (inside : offset + 3 < node.toDisk.length)
    (first : node.toDisk[offset] = BitVec.ofNat 8 value)
    (second : node.toDisk[offset + 1] = BitVec.ofNat 8 (value / 256))
    (third : node.toDisk[offset + 2] = BitVec.ofNat 8 (value / 65536))
    (fourth : node.toDisk[offset + 3] = BitVec.ofNat 8 (value / 65536 / 256))
    (small : value < 2 ^ 32) :
    (data.copy base node.toDisk).get32 (base + offset) = value := by
  have low := @Block.get16_copy data base node.toDisk offset (by omega)
  have high := @get16_toDisk data base node (offset + 2) (value / 65536) inside third fourth
    (by omega)
  rw [Block.get32, Nat.add_assoc base, high, low, first, second, BitVec.toNat_ofNat,
    BitVec.toNat_ofNat]
  omega

/-- A byte of a record that has been copied into a block. -/
theorem byte_toDisk (data : Block) (base : ℕ) (node : InodeData) (offset : ℕ) {value : ℕ}
    (inside : offset < node.toDisk.length) (isByte : node.toDisk[offset] = BitVec.ofNat 8 value) :
    (data.copy base node.toDisk (base + offset)).toNat = value % 256 := by
  rw [@Block.copy_of_mem data base offset node.toDisk inside, isByte, BitVec.toNat_ofNat]

section

variable (data : Block) (base : ℕ) (node : InodeData)

theorem lt_toDisk_length {node : InodeData} {offset : ℕ} (less : offset < 32) :
    offset < node.toDisk.length :=
  less

theorem get16_direct (index : Fin ndirect) (small : node.direct index < 2 ^ 16) :
    (data.copy base node.toDisk).get16 (base + 14 + 2 * index) = node.direct index := by
  rw [Nat.add_assoc]
  have less := index.isLt
  match index with
  | 0 | 1 | 2 | 3 | 4 | 5 | 6 =>
      exact get16_toDisk data base node _ (lt_toDisk_length (by decide)) rfl rfl small

end

/-- A record reads back as what is left of the inode. -/
theorem ofDisk_toDisk (data : Block) (index : ℕ) {node : InodeData} (typed : node.Typed) :
    InodeData.ofDisk (data.copy (index * 32) node.toDisk) index = node.recorded := by
  have uintLt : ∀ value : ℤ, toUint value < 2 ^ 32 := by
    intro value
    unfold toUint
    omega
  unfold InodeData.ofDisk InodeData.recorded
  generalize index * 32 = base
  have mode := get16_toDisk data base node 0 (lt_toDisk_length (by decide)) rfl rfl typed.mode
  have uid := get16_toDisk data base node 2 (lt_toDisk_length (by decide)) rfl rfl typed.uid
  have size := get32_toDisk data base node 4 (lt_toDisk_length (by decide)) rfl rfl rfl rfl
    (uintLt node.size)
  have time := get32_toDisk data base node 8 (lt_toDisk_length (by decide)) rfl rfl rfl rfl
    (uintLt node.time)
  have gid : _ = node.gid % 256 :=
    byte_toDisk data base node 12 (lt_toDisk_length (by decide)) rfl
  have nlinks : _ = node.nlinks % 256 :=
    byte_toDisk data base node 13 (lt_toDisk_length (by decide)) rfl
  have direct : (fun zone : Fin ndirect =>
      (data.copy base node.toDisk).get16 (base + 14 + 2 * zone)) = node.direct :=
    funext fun zone => get16_direct data base node zone (typed.direct zone)
  have indirect := get16_toDisk data base node 28 (lt_toDisk_length (by decide)) rfl rfl
    typed.indirect
  have dblindirect := get16_toDisk data base node 30 (lt_toDisk_length (by decide)) rfl rfl
    typed.dblindirect
  rw [Nat.add_zero] at mode
  simp only [mode, uid, size, time, gid, nlinks, direct, indirect, dblindirect,
    toLong_toUint typed.size, toLong_toUint typed.time]

/-! ## From the cache to the disk and back -/

/-- The inode has left the cache; the disk and the super block are as they were. -/
structure Evicted (dev : Dev) (inodeno : ℕ) (flat flat' : Flat) : Prop where
  disk : flat'.disk = flat.disk
  sameSuper : flat'.core.super = flat.core.super
  missing : flat'.core.findInode dev inodeno = none

/-- `iupdate`, eviction and `iget` give an inode back as it was. -/
def RoundTrips (flat : Flat) (i : InodeId) : Prop :=
  let node := flat.core.inodes i
  ∃ flat₁, exec Flat.handler (iupdate i) flat = .returned () flat₁ ∧
    ∀ flat₂ j, Evicted node.dev node.inodeno flat₁ flat₂ → flat₂.core.freeInode = some j →
      ∃ flat₃, exec Flat.handler (iget node.dev node.inodeno) flat₂ = .returned j flat₃ ∧
        (flat₃.core.inodes j).toInodeData = node.toInodeData

/-- The record on the disk is the one that `iupdate` makes of the inode. -/
def OnDisk (flat : Flat) (i : InodeId) : Prop :=
  let node := flat.core.inodes i
  ∀ byte < recordSize,
    node.toDisk[byte]? = some (flat.recordByte node.dev node.inodeno byte)

section

variable {flat flat' : Flat} {i : InodeId}

/-- Only the bytes of a record are read from its block. -/
theorem ofDisk_congr {data data' : Block} {index : ℕ}
    (same : ∀ byte < recordSize, data (index * 32 + byte) = data' (index * 32 + byte)) :
    InodeData.ofDisk data index = InodeData.ofDisk data' index := by
  have word : ∀ offset, offset + 1 < 32 →
      data.get16 (index * 32 + offset) = data'.get16 (index * 32 + offset) := by
    intro offset inside
    rw [Block.get16, Block.get16, same offset (Nat.lt_of_succ_lt inside), Nat.add_assoc,
      same (offset + 1) inside]
  have double : ∀ offset, offset + 3 < 32 →
      data.get32 (index * 32 + offset) = data'.get32 (index * 32 + offset) := by
    intro offset inside
    rw [Block.get32, Block.get32, word offset (by omega), Nat.add_assoc, word (offset + 2) inside]
  have direct : ∀ zone : Fin ndirect, data.get16 (index * 32 + 14 + 2 * zone) =
      data'.get16 (index * 32 + 14 + 2 * zone) := by
    intro zone
    have less : (zone : ℕ) < 7 := zone.isLt
    rw [Nat.add_assoc]
    exact word _ (by omega)
  have mode := word 0 (by decide)
  rw [Nat.add_zero] at mode
  unfold InodeData.ofDisk
  simp only [mode, word 2 (by decide), double 4 (by decide), double 8 (by decide),
    same 12 (by decide), same 13 (by decide), direct, word 28 (by decide), word 30 (by decide)]

theorem recorded_eq_self {node : InodeData} :
    node.recorded = node ↔ node.gid < 256 ∧ node.nlinks < 256 := by
  refine ⟨fun same => ?_, fun small => ?_⟩
  · have sameGid : node.gid % 256 = node.gid := congrArg InodeData.gid same
    have sameNlinks : node.nlinks % 256 = node.nlinks := congrArg InodeData.nlinks same
    omega
  · rw [InodeData.recorded, Nat.mod_eq_of_lt small.1, Nat.mod_eq_of_lt small.2]

/-- After `iupdate` the record is the one of the inode. -/
theorem onDisk_iupdate (inode : (flat.core.inodes i).dirty = false → OnDisk flat i)
    (returned : exec Flat.handler (iupdate i) flat = .returned () flat') (byte : ℕ)
    (inside : byte < recordSize) :
    (flat.core.inodes i).toDisk[byte]? =
      some (flat'.recordByte (flat.core.inodes i).dev (flat.core.inodes i).inodeno byte) := by
  rw [Flat.exec_iupdate] at returned
  cases returned
  split
  · have isBlock := Flat.setBlock_self flat (flat.recordBlock i)
      ((flat.disk (flat.recordBlock i).1 (flat.recordBlock i).2).copy
        (inodeOffset (flat.core.inodes i).inodeno * 32) (flat.core.inodes i).toDisk)
    change _ = some ((flat.setBlock (flat.recordBlock i) _).disk (flat.recordBlock i).1
      (flat.recordBlock i).2 _)
    rw [isBlock, Block.copy_of_mem inside]
    exact List.getElem?_eq_getElem inside
  · rename_i clean
    exact inode (by simpa using clean) byte inside

/-- What `iget` reads of an inode that has left the cache. -/
theorem ofDisk_evicted (typed : (flat.core.inodes i).Typed)
    (inode : (flat.core.inodes i).dirty = false → OnDisk flat i)
    (returned : exec Flat.handler (iupdate i) flat = .returned () flat') {flat₂ : Flat}
    (evicted : Evicted (flat.core.inodes i).dev (flat.core.inodes i).inodeno flat' flat₂) :
    InodeData.ofDisk (flat₂.disk (flat.core.inodes i).dev
        (inodeBlock flat₂.core.super (flat.core.inodes i).inodeno))
      (inodeOffset (flat.core.inodes i).inodeno) = (flat.core.inodes i).recorded := by
  rw [evicted.disk, evicted.sameSuper]
  rw [← ofDisk_toDisk (flat'.disk (flat.core.inodes i).dev
    (inodeBlock flat'.core.super (flat.core.inodes i).inodeno)) _ typed]
  apply ofDisk_congr
  intro byte inside
  have isByte := onDisk_iupdate inode returned byte inside
  rw [List.getElem?_eq_getElem inside] at isByte
  rw [Block.copy_of_mem inside]
  exact (Option.some.inj isByte).symm

/-- The cache with every slot unused, over the disk of a state. -/
def Flat.emptied (flat : Flat) : Flat where
  core := { flat.core with inodes := fun _ => .unused }
  disk := flat.disk

theorem evicted_emptied {dev : Dev} (isDevice : dev ≠ -1) (inodeno : ℕ) (flat : Flat) :
    Evicted dev inodeno flat flat.emptied where
  disk := rfl
  sameSuper := rfl
  missing := by
    refine List.find?_eq_none.mpr fun i _ => ?_
    have different : ¬((-1 : Dev) = dev ∧ 0 = inodeno) := fun same => isDevice same.1.symm
    exact fun isThere => different (of_decide_eq_true isThere)

theorem roundTrips_iff (typed : (flat.core.inodes i).Typed)
    (isDevice : (flat.core.inodes i).dev ≠ -1)
    (inode : (flat.core.inodes i).dirty = false → OnDisk flat i) :
    RoundTrips flat i ↔ (flat.core.inodes i).gid < 256 ∧ (flat.core.inodes i).nlinks < 256 := by
  rw [← recorded_eq_self]
  refine ⟨?_, fun same => ⟨_, Flat.exec_iupdate flat i, fun flat₂ j evicted free => ?_⟩⟩
  · rintro ⟨flat₁, returned, trips⟩
    have evicted := evicted_emptied isDevice (flat.core.inodes i).inodeno flat₁
    have free : flat₁.emptied.core.freeInode = some 0 := rfl
    rcases trips _ 0 evicted free with ⟨flat₃, got, same⟩
    rw [Flat.exec_iget_fresh evicted.missing free] at got
    cases got
    rw [Flat.setInode_self] at same
    exact (ofDisk_evicted typed inode returned evicted).symm.trans same
  · refine ⟨_, Flat.exec_iget_fresh evicted.missing free, ?_⟩
    rw [Flat.setInode_self]
    exact (ofDisk_evicted typed inode (Flat.exec_iupdate flat i) evicted).trans same

/-! ## The place of a record -/

/-- The inode table of a file system with `ninodes` inodes holds the record of an inode. -/
structure InTable (super : Super) (ninodes inodeno : ℕ) : Prop where
  first : firstBlk + super.imapBlocks + super.zmapBlocks ≤ inodeBlock super inodeno
  last : inodeBlock super inodeno <
    firstBlk + super.imapBlocks + super.zmapBlocks + (ninodes + 31) / 32
  inBlock : inodeOffset inodeno * 32 + recordSize ≤ blockSize

variable {ninodes : ℕ}

theorem toUint_pred {inodeno : ℕ} (positive : 1 ≤ inodeno) (small : inodeno < 2 ^ 16) :
    toUint ((inodeno : ℤ) - 1) = inodeno - 1 := by
  unfold toUint
  omega

theorem inTable_of_range (small : ninodes < 2 ^ 16) {inodeno : ℕ} (positive : 1 ≤ inodeno)
    (atMost : inodeno ≤ ninodes) (super : Super) : InTable super ninodes inodeno := by
  have isPred := toUint_pred positive (lt_of_le_of_lt atMost small)
  refine ⟨?_, ?_, ?_⟩
  · exact Nat.le_add_right _ _
  · unfold inodeBlock inodesPerBlock
    rw [isPred]
    omega
  · unfold inodeOffset inodesPerBlock recordSize blockSize
    omega

/-- Records of different inodes are in different blocks or in different places of one. -/
theorem record_disjoint (small : ninodes < 2 ^ 16) {inodeno other : ℕ} (positive : 1 ≤ inodeno)
    (atMost : inodeno ≤ ninodes) (positive' : 1 ≤ other) (atMost' : other ≤ ninodes)
    (different : other ≠ inodeno) (super : Super) :
    inodeBlock super other ≠ inodeBlock super inodeno ∨
      inodeOffset other * 32 + recordSize ≤ inodeOffset inodeno * 32 ∨
      inodeOffset inodeno * 32 + recordSize ≤ inodeOffset other * 32 := by
  have isPred := toUint_pred positive (lt_of_le_of_lt atMost small)
  have isPred' := toUint_pred positive' (lt_of_le_of_lt atMost' small)
  unfold inodeBlock inodeOffset inodesPerBlock recordSize
  rw [isPred, isPred']
  omega

theorem recordByte_iupdate_of_ne (small : ninodes < 2 ^ 16)
    (positive : 1 ≤ (flat.core.inodes i).inodeno) (atMost : (flat.core.inodes i).inodeno ≤ ninodes)
    (returned : exec Flat.handler (iupdate i) flat = .returned () flat') {other byte : ℕ}
    (positive' : 1 ≤ other) (atMost' : other ≤ ninodes)
    (different : other ≠ (flat.core.inodes i).inodeno) (inside : byte < recordSize) :
    flat'.recordByte (flat.core.inodes i).dev other byte =
      flat.recordByte (flat.core.inodes i).dev other byte := by
  rw [Flat.exec_iupdate] at returned
  cases returned
  split
  · change (flat.setBlock (flat.recordBlock i) _).disk (flat.core.inodes i).dev
      (inodeBlock flat.core.super other) _ = _
    have apart := record_disjoint small positive atMost positive' atMost' different flat.core.super
    by_cases sameBlock : inodeBlock flat.core.super other =
        inodeBlock flat.core.super (flat.core.inodes i).inodeno
    · have isBlock := Flat.setBlock_self flat (flat.recordBlock i)
        ((flat.disk (flat.recordBlock i).1 (flat.recordBlock i).2).copy
          (inodeOffset (flat.core.inodes i).inodeno * 32) (flat.core.inodes i).toDisk)
      unfold Flat.recordByte
      rw [sameBlock]
      change (flat.setBlock (flat.recordBlock i) _).disk (flat.recordBlock i).1
        (flat.recordBlock i).2 _ = _
      rw [isBlock]
      rcases apart with otherBlock | before | behind
      · exact absurd sameBlock otherBlock
      · exact Block.copy_of_lt (by omega)
      · refine Block.copy_of_ge ?_
        rw [InodeData.toDisk_length]
        omega
    · rw [Flat.setBlock_of_ne]
      · rfl
      · intro same
        exact sameBlock (congrArg Prod.snd same)
  · rfl

/--
An inode whose record is the one that `iupdate` makes of it, or that is yet to be written, comes
back from the disk as it was exactly when its group and its number of links fit into a byte. The
record stays inside the inode table and leaves the records of the other inodes alone.
-/
theorem inode_records (small : ninodes < 2 ^ 16) (typed : (flat.core.inodes i).Typed)
    (isDevice : (flat.core.inodes i).dev ≠ -1)
    (inode : (flat.core.inodes i).dirty = false → OnDisk flat i)
    (positive : 1 ≤ (flat.core.inodes i).inodeno)
    (atMost : (flat.core.inodes i).inodeno ≤ ninodes) :
    (RoundTrips flat i ↔ (flat.core.inodes i).gid < 256 ∧ (flat.core.inodes i).nlinks < 256) ∧
    (∀ flat', exec Flat.handler (iupdate i) flat = .returned () flat' →
      ∀ other, 1 ≤ other → other ≤ ninodes → other ≠ (flat.core.inodes i).inodeno →
        ∀ byte < recordSize, flat'.recordByte (flat.core.inodes i).dev other byte =
          flat.recordByte (flat.core.inodes i).dev other byte) ∧
    ∀ other, 1 ≤ other → other ≤ ninodes → InTable flat.core.super ninodes other := by
  refine ⟨roundTrips_iff typed isDevice inode, ?_, ?_⟩
  · intro flat' returned other positive' atMost' different byte inside
    exact recordByte_iupdate_of_ne small positive atMost returned positive' atMost' different inside
  · intro other positive' atMost'
    exact inTable_of_range small positive' atMost' flat.core.super

end

/-- Inode 1 of a group in a slot of the cache, yet to be written. -/
def changedInode (gid : ℕ) : Flat where
  core :=
    { Core.init ⟨8, 1, 1, 5⟩ with
      inodes := fun i =>
        if i = 0 then
          { Inode.unused with
            dev := rootDev, inodeno := 1, refcount := 1, nlinks := 1, gid := gid, dirty := true }
        else .unused }
  disk := fun _ _ _ => 0

theorem changedInode_typed {gid : ℕ} (small : gid < 2 ^ 16) :
    ((changedInode gid).core.inodes 0).Typed where
  mode := Nat.two_pow_pos 16
  nlinks := (by decide : 1 < 2 ^ 16)
  uid := Nat.two_pow_pos 16
  gid := small
  time := (by decide : -2 ^ 31 ≤ (0 : ℤ) ∧ (0 : ℤ) < 2 ^ 31)
  size := (by decide : -2 ^ 31 ≤ (0 : ℤ) ∧ (0 : ℤ) < 2 ^ 31)
  direct _ := Nat.two_pow_pos 16
  indirect := Nat.two_pow_pos 16
  dblindirect := Nat.two_pow_pos 16

theorem inode_records_changedInode : RoundTrips (changedInode 7) 0 :=
  (@inode_records (changedInode 7) 0 1 (by decide) (changedInode_typed (by decide)) (by decide)
    (fun clean => by cases clean) (by decide) (by decide)).1.mpr ⟨by decide, by decide⟩

/-- Group 256 comes back as group 0. -/
theorem not_roundTrips : ¬RoundTrips (changedInode 256) 0 := by
  rw [roundTrips_iff (changedInode_typed (by decide)) (by decide) fun clean => by cases clean]
  decide

end Osix
