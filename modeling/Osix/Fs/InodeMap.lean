import Osix.Fs.Allocator
import Osix.Fs.Cache

/-!
# The inode map

In a MINIX file system bit `n` of the inode map stands for inode `n`, and bit 0 for no inode.
`ialloc` starts to count at inode 1 with bit 0, and `ifree` takes bit `n - 1` for inode `n`: the
two agree with each other, but not with the map that `mkfs.minix` makes.
`inodeMap_right_iff` says that every call that does anything works on the wrong bit.
-/

namespace Osix

open Program Fs Transition

/-! ## The search of `ialloc` -/

/-- `ialloc` once it has found a clear bit, for the number that it has counted to. -/
def iallocSlot (p : ProcId) (mode inodeno : ℕ) : FsM FlatBuf (Option InodeId) := do
  let i ← iget rootDev inodeno
  mark (.newInode i)
  let core ← getCore
  setData i fun _ => newInode core p mode
  setDirty i true
  return some i

/-- The loop of `ialloc` as the source has it, byte by byte. -/
def iallocScan (p : ProcId) (mode : ℕ) : ℕ → ℕ → ℕ → FsM FlatBuf (Option InodeId)
  | 0, _, _ => return none
  | blocks + 1, imapBlock, inodeno => do
      let buf ← bread rootDev imapBlock
      match scanBytes (← bdata buf) inodeno (List.range blockSize) with
      | .found index ibit inodeno =>
          bstore buf fun imap => Function.update imap index (imap index ||| (1#8 <<< ibit))
          bdirty buf
          brelse buf
          iallocSlot p mode inodeno
      | .missed inodeno =>
          brelse buf
          iallocScan p mode blocks (imapBlock + 1) inodeno

seal blockSize in
theorem iallocScan_succ (p : ProcId) (mode blocks imapBlock inodeno : ℕ) :
    iallocScan p mode (blocks + 1) imapBlock inodeno = (do
      let buf ← bread rootDev imapBlock
      match scanBytes (← bdata buf) inodeno (List.range blockSize) with
      | .found index ibit inodeno =>
          bstore buf fun imap => Function.update imap index (imap index ||| (1#8 <<< ibit))
          bdirty buf
          brelse buf
          iallocSlot p mode inodeno
      | .missed inodeno =>
          brelse buf
          iallocScan p mode blocks (imapBlock + 1) inodeno) := rfl

seal blockBits in
theorem iallocLoop_succ (p : ProcId) (mode blocks imapBlock inodeno : ℕ) :
    (iallocLoop p mode (blocks + 1) imapBlock inodeno : FsM FlatBuf (Option InodeId)) = (do
      let buf ← bread rootDev imapBlock
      match (← bdata buf).firstClear with
      | some bit =>
          bstore buf fun imap => imap.setBit bit
          bdirty buf
          brelse buf
          iallocSlot p mode (inodeno + bit)
      | none =>
          brelse buf
          iallocLoop p mode blocks (imapBlock + 1) (inodeno + blockBits)) := rfl

/-- The search of the source is the search by bit numbers. -/
theorem iallocLoop_eq_scan (p : ProcId) (mode blocks imapBlock inodeno : ℕ) :
    iallocLoop p mode blocks imapBlock inodeno = iallocScan p mode blocks imapBlock inodeno := by
  induction blocks generalizing imapBlock inodeno with
  | zero => rfl
  | succ blocks ih =>
      rw [iallocLoop_succ, iallocScan_succ]
      refine congrArg _ (funext fun buf => congrArg _ (funext fun imap => ?_))
      rw [scanBytes_block]
      cases imap.firstClear with
      | some bit => simp only [Scan.ofBit, Block.setBit]
      | none => simp only [Scan.ofBit, ih]

/-! ## What `ialloc` and `ifree` do -/

section

variable {ok : Event → Flat → Prop} {allowed : Stop → Flat → Prop} {sleeps : Flat → Prop}
  {flat : Flat} {p : ProcId} {mode : ℕ}

theorem wp_iallocLoop_find {post : Option InodeId → Flat → Prop} {blocks imapBlock inodeno : ℕ} :
    wp (Flat.rules ok allowed sleeps) (iallocLoop p mode blocks imapBlock inodeno) post flat ↔
      match findClear (flat.disk rootDev) imapBlock blocks with
      | some bit => wp (Flat.rules ok allowed sleeps) (iallocSlot p mode (inodeno + bit)) post
          (flat.setMap rootDev imapBlock bit)
      | none => post none flat := by
  induction blocks generalizing imapBlock inodeno with
  | zero =>
      have isEmpty : findClear (flat.disk rootDev) imapBlock 0 = none := by simp [findClear]
      rw [isEmpty]
      exact Iff.rfl
  | succ blocks ih =>
      rw [iallocLoop_succ, findClear_succ]
      simp only [wp_bind, Flat.wp_bread, Flat.wp_bdata]
      cases found : (flat.disk rootDev imapBlock).firstClear with
      | some bit =>
          rcases Block.firstClear_some found with ⟨less, -⟩
          simp only [wp_bind, Flat.wp_bstore, Flat.wp_bdirty, Flat.wp_brelse]
          rw [Flat.setMap_of_lt less]
      | none =>
          simp only [wp_bind, Flat.wp_brelse, ih]
          cases findClear (flat.disk rootDev) (imapBlock + 1) blocks with
          | some bit =>
              simp only [Option.map_some]
              rw [Flat.setMap_succ, Nat.add_assoc]
          | none => rfl

/-- The slot of a new inode has the number that `ialloc` has counted to. -/
theorem wp_iallocSlot {inodeno : ℕ} {post : Option InodeId → Flat → Prop}
    (waits : ∀ flat', sleeps flat') (stops : ∀ why flat', allowed why flat')
    (holds : ∀ i flat', flat'.disk = flat.disk → flat'.core.super = flat.core.super →
      (flat'.core.inodes i).inodeno = inodeno → post (some i) flat') :
    wp (Flat.rules ok allowed sleeps) (iallocSlot p mode inodeno) post flat := by
  have settles : ∀ i (flat' : Flat), flat'.disk = flat.disk →
      flat'.core.super = flat.core.super → (flat'.core.inodes i).inodeno = inodeno →
      wp (Flat.rules ok allowed sleeps) (do
        mark (.newInode i)
        let core ← getCore
        setData i fun _ => newInode core p mode
        setDirty i true
        return some i) post flat' := by
    intro i flat' sameDisk sameSuper isNumber
    simp only [wp_bind, Flat.wp_mark, Flat.wp_getCore, Flat.wp_setData, Flat.wp_setDirty, wp_pure]
    intro _
    refine holds i _ sameDisk sameSuper ?_
    simpa [Flat.setData] using isNumber
  unfold iallocSlot
  rw [wp_bind]
  refine Flat.wp_iget (fun _ _ _ => waits _) (fun i found _ => ?_) (fun i _ _ => ?_)
    fun _ _ => stops _ _
  · have isKey := List.find?_some found
    have isNumber := of_decide_eq_true isKey
    exact settles i _ rfl rfl (by simpa using isNumber.2)
  · exact settles i _ rfl rfl (by simp [Flat.fresh, Inode.taken])

/-- `ialloc` takes the first clear bit of the map, and counts inodes from bit 0 on. -/
theorem wp_ialloc {post : Option InodeId → Flat → Prop} (waits : ∀ flat', sleeps flat')
    (stops : ∀ why flat', allowed why flat')
    (full : findClear (flat.disk rootDev) 2 flat.core.super.imapBlocks = none → post none flat)
    (holds : ∀ bit i flat', findClear (flat.disk rootDev) 2 flat.core.super.imapBlocks = some bit →
      flat'.disk = (flat.setMap rootDev 2 bit).disk → flat'.core.super = flat.core.super →
      (flat'.core.inodes i).inodeno = bit + 1 → post (some i) flat') :
    wp (Flat.rules ok allowed sleeps) (ialloc p mode) post flat := by
  simp only [ialloc, wp_bind, Flat.wp_getCore]
  rw [wp_iallocLoop_find]
  cases found : findClear (flat.disk rootDev) 2 flat.core.super.imapBlocks with
  | some bit =>
      refine wp_iallocSlot waits stops fun i flat' sameDisk sameSuper isNumber => ?_
      exact holds bit i flat' found sameDisk sameSuper (by omega)
  | none => exact full found

/-- `ifree` clears the bit before the number of the inode, if it is set. -/
theorem wp_ifree {inodeno : ℕ} {post : Unit → Flat → Prop}
    (stops : ∀ why flat', allowed why flat')
    (holds : 0 < inodeno → mapBit (flat.disk rootDev) 2 (inodeno - 1) = true →
      post () (flat.clearMap rootDev 2 (inodeno - 1))) :
    wp (Flat.rules ok allowed sleeps) (ifree rootDev inodeno) post flat := by
  rw [Flat.wp_ifree_iff]
  split
  · exact stops _ _
  split
  · exact stops _ _
  split
  · rename_i isSet
    exact holds (by omega) isSet
  · exact stops _ _

end

/-! ## Sequences of calls -/

/-- A call of the inode allocator. -/
inductive InodeCall where
  | ialloc (p : ProcId) (mode : ℕ)
  | ifree (inodeno : ℕ)

namespace InodeCall

/-- A call that returns. -/
def step (flat : Flat) : InodeCall → Option Flat
  | .ialloc p mode =>
      match exec Flat.handler (Fs.ialloc p mode) flat with
      | .returned _ flat' => some flat'
      | _ => none
  | .ifree inodeno =>
      match exec Flat.handler (Fs.ifree rootDev inodeno) flat with
      | .returned _ flat' => some flat'
      | _ => none

end InodeCall

/-- Bit `inodeno` of the inode map. -/
def Flat.imap (flat : Flat) (inodeno : ℕ) : Bool := mapBit flat.root 2 inodeno

/-- The inode map as `mkfs.minix` makes it for a number of inodes. -/
structure MinixMap (ninodes : ℕ) (flat : Flat) : Prop where
  reserved : flat.imap 0 = true
  beyond : ∀ inodeno < flat.core.super.imapBlocks * blockBits, ninodes < inodeno →
    flat.imap inodeno = true
  covers : ninodes < flat.core.super.imapBlocks * blockBits

/-- One bit of the inode map gets a value, and the others stay as they are. -/
def ImapChanged (flat flat' : Flat) (inodeno : ℕ) (value : Bool) : Prop :=
  flat'.imap inodeno = value ∧ ∀ other ≠ inodeno, flat'.imap other = flat.imap other

/-- What a call has to do on a map in which bit `n` stands for inode `n`. -/
def InodeCall.Right (ninodes : ℕ) (flat : Flat) : InodeCall → Prop
  | .ialloc p mode =>
      ∃ slot flat', exec Flat.handler (Fs.ialloc p mode) flat = .returned slot flat' ∧
        match slot with
        | some i =>
            let inodeno := (flat'.core.inodes i).inodeno
            1 ≤ inodeno ∧ inodeno ≤ ninodes ∧ flat.imap inodeno = false ∧
              ImapChanged flat flat' inodeno true
        | none => ∀ inodeno, 1 ≤ inodeno → inodeno ≤ ninodes → flat.imap inodeno = true
  | .ifree inodeno =>
      ∃ flat', exec Flat.handler (Fs.ifree rootDev inodeno) flat = .returned () flat' ∧
        ImapChanged flat flat' inodeno false

/-- The calls that do nothing: `ialloc` when every bit of the map is set. -/
def InodeCall.Idle (flat : Flat) : InodeCall → Prop
  | .ialloc _ _ => ∀ bit < flat.core.super.imapBlocks * blockBits, flat.imap bit = true
  | .ifree _ => False

section

variable {flat flat' : Flat} {ninodes : ℕ}

/-- How a call of `ialloc` changes the map. -/
structure Iallocated (flat : Flat) (slot : Option InodeId) (flat' : Flat) : Prop where
  sameSuper : flat'.core.super = flat.core.super
  ends : (slot = none ∧ findClear flat.root 2 flat.core.super.imapBlocks = none) ∨
    ∃ i bit, slot = some i ∧ (flat'.core.inodes i).inodeno = bit + 1 ∧
      flat.imap bit = false ∧ ImapChanged flat flat' bit true

/-- How a call of `ifree` changes the map. -/
structure Ifreed (flat : Flat) (inodeno : ℕ) (flat' : Flat) : Prop where
  sameSuper : flat'.core.super = flat.core.super
  positive : 0 < inodeno
  wasSet : flat.imap (inodeno - 1) = true
  changed : ImapChanged flat flat' (inodeno - 1) false

theorem ialloc_returned {p : ProcId} {mode : ℕ} {slot : Option InodeId}
    (returned : exec Flat.handler (ialloc p mode) flat = .returned slot flat') :
    Iallocated flat slot flat' := by
  have judged : wp Flat.partly (ialloc p mode) (Iallocated flat) flat := by
    refine wp_ialloc (fun _ => trivial) (fun _ _ => trivial) ?_ ?_
    · intro full
      exact ⟨rfl, Or.inl ⟨rfl, full⟩⟩
    · intro bit i flat₁ found sameDisk sameSuper isNumber
      refine ⟨sameSuper, Or.inr ⟨i, bit, rfl, isNumber, (findClear_some found).2, ?_⟩⟩
      have changed := @BitChanged.setMap rootDev flat bit 2
      unfold ImapChanged Flat.imap Flat.root
      rw [sameDisk]
      exact ⟨changed.self, changed.bits⟩
  exact Flat.returned_of_partly judged returned

theorem ifree_returned {inodeno : ℕ}
    (returned : exec Flat.handler (ifree rootDev inodeno) flat = .returned () flat') :
    Ifreed flat inodeno flat' := by
  have judged : wp Flat.partly (ifree rootDev inodeno) (fun _ => Ifreed flat inodeno) flat := by
    refine wp_ifree (fun _ _ => trivial) fun positive isSet => ?_
    have changed := @BitChanged.clearMap rootDev flat (inodeno - 1) 2
    exact ⟨rfl, positive, isSet, changed.self, changed.bits⟩
  exact @Flat.returned_of_partly flat flat' Unit _ _ () judged returned

/-- A full map makes `ialloc` return `NULL`. -/
theorem exec_ialloc_full {p : ProcId} {mode : ℕ}
    (full : findClear flat.root 2 flat.core.super.imapBlocks = none) :
    exec Flat.handler (ialloc p mode) flat = .returned none flat := by
  have judged : wp Flat.surely (ialloc p mode) (fun slot flat' => slot = none ∧ flat' = flat) flat := by
    simp only [ialloc, wp_bind, Flat.wp_getCore]
    rw [wp_iallocLoop_find]
    change match findClear flat.root 2 flat.core.super.imapBlocks with | some _ => _ | none => _
    rw [full]
    exact ⟨rfl, rfl⟩
  rcases Flat.returns_of_surely judged with
    ⟨_, _, returned, rfl, rfl⟩
  exact returned

/-- A clear bit and a slot for an inode that is not in the cache make `ialloc` return it. -/
theorem exec_ialloc_fresh {p : ProcId} {m bit : ℕ} {i : InodeId}
    (found : findClear flat.root 2 flat.core.super.imapBlocks = some bit)
    (missing : flat.core.findInode rootDev (1 + bit) = none)
    (free : flat.core.freeInode = some i) :
    ∃ flat', exec Flat.handler (ialloc p m) flat = .returned (some i) flat' ∧
      (flat'.core.inodes i).inodeno = 1 + bit := by
  have judged : wp Flat.surely (ialloc p m)
      (fun slot flat' => slot = some i ∧ (flat'.core.inodes i).inodeno = 1 + bit) flat := by
    simp only [ialloc, wp_bind, Flat.wp_getCore, wp_iallocLoop_find]
    change match findClear flat.root 2 flat.core.super.imapBlocks with | some _ => _ | none => _
    rw [found]
    simp only [iallocSlot, wp_bind]
    refine Flat.wp_iget (fun _ isIn => ?_) (fun _ isIn => ?_) (fun j _ isFree => ?_)
      fun _ noFree => ?_
    · cases missing.symm.trans isIn
    · cases missing.symm.trans isIn
    · cases free.symm.trans isFree
      simp only [Flat.wp_mark, Flat.wp_getCore, Flat.wp_setData, Flat.wp_setDirty, wp_pure]
      intro _
      exact ⟨trivial, by simp [Flat.setData, Flat.fresh, Inode.taken]⟩
    · cases free.symm.trans noFree
  rcases Flat.returns_of_surely judged with ⟨_, flat', returned, rfl, isNumber⟩
  exact ⟨flat', returned, isNumber⟩

namespace InodeCall

theorem step_super {call : InodeCall} (stepped : step flat call = some flat') :
    flat'.core.super = flat.core.super := by
  cases call with
  | ialloc p mode =>
      simp only [step] at stepped
      split at stepped <;> cases stepped
      rename_i returned
      exact (ialloc_returned returned).sameSuper
  | ifree inodeno =>
      simp only [step] at stepped
      split at stepped <;> cases stepped
      rename_i returned
      exact (ifree_returned returned).sameSuper

theorem right_of_idle {call : InodeCall} (covers : ninodes < flat.core.super.imapBlocks * blockBits)
    (idle : call.Idle flat) : call.Right ninodes flat := by
  cases call with
  | ialloc p mode =>
      have full : findClear flat.root 2 flat.core.super.imapBlocks = none := by
        refine List.find?_eq_none.mpr fun bit isIn => ?_
        have isSet : mapBit flat.root 2 bit = true := idle bit (List.mem_range.mp isIn)
        simp [isSet]
      refine ⟨none, flat, exec_ialloc_full full, fun inodeno _ atMost => idle inodeno ?_⟩
      exact lt_of_le_of_lt atMost covers
  | ifree inodeno => exact idle.elim

theorem not_right_of_busy {call : InodeCall} (busy : ¬call.Idle flat) :
    ¬call.Right ninodes flat := by
  cases call with
  | ialloc p mode =>
      rintro ⟨slot, flat', returned, right⟩
      rcases (ialloc_returned returned).ends with ⟨rfl, full⟩ | ⟨i, bit, rfl, isNumber, -, changed⟩
      · exact busy fun bit inMap => findClear_none full inMap
      · rcases right with ⟨-, -, wasClear, isSet, -⟩
        rw [isNumber] at wasClear isSet
        rw [changed.2 (bit + 1) (by omega), wasClear] at isSet
        cases isSet
  | ifree inodeno =>
      rintro ⟨flat', returned, -, same⟩
      have freed := ifree_returned returned
      have positive := freed.positive
      have isClear := freed.changed.1
      rw [same (inodeno - 1) (by omega), freed.wasSet] at isClear
      cases isClear

/--
After any sequence of calls on a file system of `mkfs.minix`, a call does what the format asks
for exactly when it is a call of `ialloc` that finds the map full.
-/
theorem inodeMap_right_iff {start : Flat} (minix : MinixMap ninodes start)
    (reach : Reach step Always start flat) (call : InodeCall) :
    call.Right ninodes flat ↔ call.Idle flat := by
  have sameSuper : flat.core.super = start.core.super := by
    induction reach with
    | start => rfl
    | next _ _ stepped ih => exact (step_super stepped).trans ih
  refine ⟨fun right => ?_, fun idle => right_of_idle (sameSuper ▸ minix.covers) idle⟩
  by_contra busy
  exact not_right_of_busy busy right

end InodeCall

end

/-- A file system whose only free inode is inode 3, of three. -/
def lastFree : Flat where
  core := Core.init ⟨8, 1, 1, 5⟩
  disk := fun _ _ byte => if byte = 0 then 0xF7 else 0xFF

theorem minixMap_lastFree : MinixMap 3 lastFree where
  reserved := by decide
  beyond := by
    intro inodeno inMap beyond
    have less : inodeno < blockBits := (Nat.one_mul blockBits).symm ▸ inMap
    change (if inodeno % blockBits / 8 = 0 then 0xF7#8 else 0xFF#8).getLsbD
      (inodeno % blockBits % 8) = true
    rw [Nat.mod_eq_of_lt less]
    by_cases first : inodeno / 8 = 0
    · rw [if_pos first]
      have lessByte : inodeno < 8 := by omega
      interval_cases inodeno <;> decide
    · rw [if_neg first]
      exact byte_full.mp rfl _ (Nat.mod_lt inodeno (by decide))
  covers := by decide

theorem inodeMap_right_lastFree : ¬(InodeCall.ialloc 0 0).Right 3 lastFree := by
  rw [InodeCall.inodeMap_right_iff minixMap_lastFree .start]
  intro idle
  exact absurd (idle 3 (by decide)) (by decide)

/-- With inode 3 free, `ialloc` hands out inode 4, whose record is not one of the three. -/
theorem ialloc_lastFree :
    ∃ i flat', exec Flat.handler (ialloc 0 0) lastFree = .returned (some i) flat' ∧
      (flat'.core.inodes i).inodeno = 4 ∧ lastFree.imap 3 = false ∧ lastFree.imap 4 = true ∧
      ¬(InodeCall.ialloc 0 0).Right 3 lastFree := by
  have found : findClear lastFree.root 2 lastFree.core.super.imapBlocks = some 3 := by
    rw [findClear, List.find?_range_eq_some]
    refine ⟨by decide, List.mem_range.mpr (by decide), ?_⟩
    intro bit less
    interval_cases bit <;> decide
  have isBusy : ¬(InodeCall.ialloc 0 0).Idle lastFree := fun idle =>
    absurd (idle 3 (by decide)) (by decide)
  have missing : lastFree.core.findInode rootDev 4 = none := by decide
  have free : lastFree.core.freeInode = some 0 := by decide
  rcases exec_ialloc_fresh (p := 0) (m := 0) found missing free with ⟨flat', returned, isNumber⟩
  exact ⟨0, flat', returned, isNumber, by decide, by decide, InodeCall.not_right_of_busy isBusy⟩

end Osix
