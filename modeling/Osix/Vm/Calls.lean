import Osix.Lib.Transition
import Osix.Vm.Creation

/-!
# Sequences of calls to the page table functions

For any sequence of calls, `pmap_extract` finds the page that was entered last for an address
and has not been removed, in each address space on its own. Two kinds of calls are left out:
those that write to a page directory or a page table as to any other page, and those for
addresses at `PTE_MAP` or above, where the page tables are.
-/

namespace Osix.Vm

open Ownership

namespace Machine

section

variable {mapping : Mapping} {m m' : Machine} {pmap other : PmapId} {vpage pdIndex index page
  table : ℕ}

/-! ## Looking up a mapping -/

def pageMask : Word := 0xfffff000

/-- `pmap_extract` with its changes of `cur_pmap`: the physical address. -/
def extracting (m : Machine) (pmap : PmapId) (vaddr : Word) : Option (Word × Machine) := do
  let there := m.activate pmap
  let pde ← there.load pgDir (pageAt vaddr / tableLen)
  if pde &&& pagePresent = 0 then
    return (0, there.activate m.cur)
  else
    let pte ← there.load (pteMap (pageAt vaddr / tableLen)) (pageAt vaddr % tableLen)
    if pte &&& pagePresent = 0 then
      return (0, there.activate m.cur)
    else
      return (pte &&& pageMask, there.activate m.cur)

/-- The physical address of a page. -/
def physical (page : ℕ) : Word := BitVec.ofNat 32 (page * 4096)

theorem physical_zero : physical 0 = 0 := by decide

theorem and_pageMask {word : Word} (isTarget : target word = some page) :
    word &&& pageMask = physical page := by
  rw [target] at isTarget
  split at isTarget
  · rw [Option.some.injEq] at isTarget
    subst isTarget
    have mask : ∀ i < 32, pageMask.getLsbD i = decide (12 ≤ i) := by decide
    have shifted : word.toNat / 4096 * 4096 = word.toNat / 2 ^ 12 * 2 ^ 12 := rfl
    apply BitVec.eq_of_getLsbD_eq
    intro i inWord
    rw [BitVec.getLsbD_and, mask i inWord, physical, BitVec.getLsbD_ofNat, shifted,
      Nat.testBit_mul_two_pow, Nat.testBit_div_two_pow, BitVec.getLsbD]
    by_cases high : 12 ≤ i
    · simp [high, inWord, Nat.sub_add_cancel high]
    · simp [high]
  · cases isTarget

theorem Translates.extracting (translates : Translates mapping m) (used : m.inUse pmap = true)
    {vaddr : Word} (user : pageAt vaddr < userPages) :
    m.extracting pmap vaddr = some (physical ((mapping pmap (pageAt vaddr)).getD 0), m) := by
  have there := translates.activate used
  have own := ownIndex_of_user user
  have inDir : pageAt vaddr / tableLen < tableLen := lt_trans own.1 (by decide)
  have loaded : (m.activate pmap).load pgDir (pageAt vaddr / tableLen) =
      some (m.mem (m.dirs pmap) (pageAt vaddr / tableLen)) := there.roots.load_pgDir used _
  have walked : (m.activate pmap).walk (pteMap (pageAt vaddr / tableLen)) =
      m.tableAt pmap (pageAt vaddr / tableLen) := there.roots.walk_pteMap used inDir
  rw [← translates.agrees pmap used _ user, frameOf]
  simp only [Machine.extracting, loaded, Option.bind_eq_bind, Option.bind_some, Option.pure_def]
  split
  · rename_i absent
    have noTable : m.tableAt pmap (pageAt vaddr / tableLen) = none := target_eq_none.mpr absent
    rw [noTable, Option.bind_none, Option.getD_none, physical_zero]
    rfl
  · rename_i present
    cases isTable : m.tableAt pmap (pageAt vaddr / tableLen) with
    | none => exact absurd (target_eq_none.mp isTable) present
    | some table =>
        rw [isTable] at walked
        simp only [load, walked, Option.map_some, Option.bind_some]
        split
        · rename_i absent
          have noPage : target (m.mem table (pageAt vaddr % tableLen)) = none :=
            target_eq_none.mpr absent
          rw [noPage, Option.getD_none, physical_zero]
          rfl
        · rename_i presentPage
          cases isPage : target (m.mem table (pageAt vaddr % tableLen)) with
          | none => exact absurd (target_eq_none.mp isPage) presentPage
          | some page =>
              have isPhysical := and_pageMask isPage
              exact congrArg (fun word => some (word, m)) isPhysical

/-! ## Any sequence of calls -/

/-- A call with physical addresses that are page aligned. -/
inductive PmapCall where
  | create (pmap : PmapId)
  | destroy (pmap : PmapId)
  | enter (pmap : PmapId) (vaddr : Word) (page : BitVec 20) (writable : Bool)
  | remove (pmap : PmapId) (start stop : Word)
  | kenter (vaddr : Word) (page : BitVec 20) (writable : Bool)
  | kremove (start stop : Word)
  | zeroPage (page : BitVec 20)
  | copyPage (src dst : BitVec 20)

namespace PmapCall

def perform (m : Machine) : PmapCall → Option Machine
  | create pmap => m.create pmap
  | destroy pmap => m.destroy pmap
  | enter pmap vaddr page writable => m.enter pmap (pageAt vaddr) page.toNat writable
  | remove pmap start stop => m.removeRange pmap start stop
  | kenter vaddr page writable => m.enter .kernel (pageAt vaddr) page.toNat writable
  | kremove start stop => m.removeRange .kernel start stop
  | zeroPage page => m.zeroPage page.toNat
  | copyPage src dst => m.copyPage src.toNat dst.toNat

/-- The address space that the call is about. -/
def space : PmapCall → Option PmapId
  | create pmap => some pmap
  | destroy pmap => some pmap
  | enter pmap _ _ _ => some pmap
  | remove pmap _ _ => some pmap
  | kenter _ _ _ => some .kernel
  | kremove _ _ => some .kernel
  | zeroPage _ => none
  | copyPage _ _ => none

/-- The address space exists, and so do the page tables of a range that is removed. -/
def Asked (m : Machine) : PmapCall → Prop
  | create pmap => m.inUse pmap = false
  | destroy pmap => m.inUse pmap = true ∧ pmap ≠ .kernel ∧ pmap ≠ m.cur
  | enter pmap _ _ _ => m.inUse pmap = true
  | remove pmap start stop =>
      m.inUse pmap = true ∧ m.HasTables pmap (pageAt start) (pagesBetween start stop)
  | kenter _ _ _ => True
  | kremove start stop => m.HasTables .kernel (pageAt start) (pagesBetween start stop)
  | zeroPage _ => True
  | copyPage _ _ => True

/-- No address is at `PTE_MAP` or above, where the page tables are. -/
def Low : PmapCall → Prop
  | enter _ vaddr _ _ => vaddr.toNat < pteMapAddr.toNat
  | remove _ start stop => start.toNat ≤ pteMapAddr.toNat ∧ stop.toNat ≤ pteMapAddr.toNat
  | kenter vaddr _ _ => vaddr.toNat < pteMapAddr.toNat
  | kremove start stop => start.toNat ≤ pteMapAddr.toNat ∧ stop.toNat ≤ pteMapAddr.toNat
  | _ => True

/-- No page directory or page table is overwritten as a page. -/
def Spares (m : Machine) : PmapCall → Prop
  | zeroPage page => Unheld m.spots page.toNat
  | copyPage _ dst => Unheld m.spots dst.toNat
  | _ => True

/-- What a call does to the mappings that have been asked for. -/
def mapped (mapping : Mapping) : PmapCall → Mapping
  | create pmap => mapping.clear pmap
  | destroy _ => mapping
  | enter pmap vaddr page _ => mapping.put pmap (pageAt vaddr) 1 (some page.toNat)
  | remove pmap start stop => mapping.put pmap (pageAt start) (pagesBetween start stop) none
  | kenter vaddr page _ => mapping.put .kernel (pageAt vaddr) 1 (some page.toNat)
  | kremove start stop => mapping.put .kernel (pageAt start) (pagesBetween start stop) none
  | zeroPage _ => mapping
  | copyPage _ _ => mapping

/-- The address spaces after a call. -/
def spaces (used : PmapId → Bool) : PmapCall → PmapId → Bool
  | create pmap => Function.update used pmap true
  | destroy pmap => Function.update used pmap false
  | _ => used

/-- The address spaces after calls, latest first. -/
def allSpaces (used : PmapId → Bool) : List PmapCall → PmapId → Bool
  | [] => used
  | call :: earlier => call.spaces (allSpaces used earlier)

/-- For each page the last that was entered and has not been removed, by calls latest first. -/
def lastEntered : List PmapCall → Mapping
  | [] => fun _ _ => none
  | call :: earlier => call.mapped (lastEntered earlier)

/-- A call is performed and remembered. -/
def step (state : Machine × List PmapCall) (call : PmapCall) :
    Option (Machine × List PmapCall) :=
  (call.perform state.1).map fun m => (m, call :: state.2)

end PmapCall

theorem below_of_low {vaddr : Word} (low : vaddr.toNat < pteMapAddr.toNat) :
    Below (pageAt vaddr) := by
  have isMap : pteMapAddr.toNat = 4290772992 := rfl
  simp only [Below, pageAt, pteMapIndex, tableLen]
  omega

theorem freePages_pos_of_allocPage (isAllocated : m.allocPage = some (page, m')) :
    0 < m.vmm.freePages := by
  rw [allocPage, Option.map_eq_some_iff] at isAllocated
  rcases isAllocated with ⟨⟨found, vmm⟩, isFound, _⟩
  rcases Vmm.allocPage_spec isFound with ⟨free, added⟩
  have inRange := Vmm.lt_of_allocated ((added found).mpr (Or.inr rfl))
  have less := Vmm.freePages_of_added inRange free added
  omega

theorem freePages_pos_of_create (created : m.create pmap = some m') : 0 < m.vmm.freePages := by
  simp only [Machine.create, Option.bind_eq_bind, Option.bind_eq_some_iff] at created
  rcases created with ⟨⟨dir, allocated⟩, isAllocated, _⟩
  exact freePages_pos_of_allocPage isAllocated

/-- If `pmap_enter` returns then there was a page table, or a page for one. -/
theorem Translates.room_of_enter (translates : Translates mapping m)
    (used : m.inUse pmap = true) {writable : Bool}
    (entered : m.enter pmap vpage page writable = some m') :
    m.tableAt pmap (vpage / tableLen) ≠ none ∨ 0 < m.vmm.freePages := by
  have loaded : (m.activate pmap).load pgDir (vpage / tableLen) =
      some (m.mem (m.dirs pmap) (vpage / tableLen)) :=
    (translates.activate used).roots.load_pgDir used _
  simp only [Machine.enter, enterUsing, loaded, Option.bind_eq_bind, Option.bind_some] at entered
  split at entered
  · simp only [Machine.newTable, Option.bind_eq_bind, Option.bind_eq_some_iff] at entered
    rcases entered with ⟨_, ⟨⟨table, allocated⟩, isAllocated, _⟩, _⟩
    have positive := freePages_pos_of_allocPage isAllocated
    exact Or.inr positive
  · rename_i present
    exact Or.inl fun isNone => present (target_eq_none.mp isNone)

/-- A call that is asked for returns unless it needs a page and there is none. -/
theorem Translates.perform (translates : Translates mapping m) {call : PmapCall}
    (asked : call.Asked m) (low : call.Low) (spares : call.Spares m)
    (room : 0 < m.vmm.freePages ∨ ∃ m', call.perform m = some m') :
    ∃ m', call.perform m = some m' ∧ Translates (call.mapped mapping) m' ∧
      m'.inUse = call.spaces m.inUse ∧ m'.cur = m.cur := by
  have enters : ∀ pmap vaddr (page : BitVec 20) writable, m.inUse pmap = true →
      vaddr.toNat < pteMapAddr.toNat →
      (0 < m.vmm.freePages ∨ ∃ m', m.enter pmap (pageAt vaddr) page.toNat writable = some m') →
      ∃ m', m.enter pmap (pageAt vaddr) page.toNat writable = some m' ∧
        Translates (mapping.put pmap (pageAt vaddr) 1 (some page.toNat)) m' ∧
          m'.inUse = m.inUse ∧ m'.cur = m.cur := by
    intro pmap vaddr page writable used lowHere roomHere
    refine translates.enter used (below_of_low lowHere) page.isLt writable ?_
    rcases roomHere with positive | ⟨m', entered⟩
    · exact Or.inr positive
    · exact translates.room_of_enter used entered
  cases call with
  | create pmap =>
      refine translates.create asked ?_
      rcases room with positive | ⟨m', created⟩
      · exact positive
      · exact freePages_pos_of_create created
  | destroy pmap => exact translates.destroy asked.1 asked.2.1 asked.2.2
  | enter pmap vaddr page writable => exact enters pmap vaddr page writable asked low room
  | remove pmap start stop =>
      exact translates.removeRange asked.1 low.1 low.2 asked.2
  | kenter vaddr page writable =>
      exact enters .kernel vaddr page writable translates.roots.kernelValid low room
  | kremove start stop =>
      exact translates.removeRange translates.roots.kernelValid low.1 low.2 asked
  | zeroPage page =>
      rcases translates.fillTmp page.isLt spares fun _ => 0 with
        ⟨m', isZeroed, translates', aside, _, cur, _⟩
      exact ⟨m', isZeroed, translates', funext aside.inUse, cur⟩
  | copyPage src dst =>
      exact translates.copyPage src.isLt dst.isLt spares

theorem Translates.of_perform (translates : Translates mapping m) {call : PmapCall}
    (asked : call.Asked m) (low : call.Low) (spares : call.Spares m)
    (performed : call.perform m = some m') :
    Translates (call.mapped mapping) m' ∧ m'.inUse = call.spaces m.inUse ∧ m'.cur = m.cur := by
  rcases translates.perform asked low spares (Or.inr ⟨m', performed⟩) with
    ⟨_, isPerformed, translates', rest⟩
  rw [performed, Option.some.injEq] at isPerformed
  subst isPerformed
  exact ⟨translates', rest⟩

/-- The page tables are in line with the calls so far, and `cur_pmap` is as at the start. -/
structure Follows (start : Machine) (state : Machine × List PmapCall) : Prop where
  translates : Translates (PmapCall.lastEntered state.2) state.1
  inUse : state.1.inUse = PmapCall.allSpaces start.inUse state.2
  cur : state.1.cur = start.cur

theorem Follows.step {start : Machine} {state state' : Machine × List PmapCall}
    {call : PmapCall} (follows : Follows start state)
    (allowed : call.Asked state.1 ∧ call.Low ∧ call.Spares state.1)
    (stepped : PmapCall.step state call = some state') : Follows start state' := by
  rw [PmapCall.step, Option.map_eq_some_iff] at stepped
  rcases stepped with ⟨m', performed, rfl⟩
  rcases follows.translates.of_perform allowed.1 allowed.2.1 allowed.2.2 performed with
    ⟨translates', inUse, cur⟩
  rw [follows.inUse] at inUse
  exact ⟨translates', inUse, cur.trans follows.cur⟩

theorem Mapping.put_other {mapping : Mapping} {first count : ℕ} {frame : Option ℕ}
    (different : some pmap ≠ some other) (vpage : ℕ) :
    mapping.put pmap first count frame other vpage = mapping other vpage := by
  rw [Mapping.put, if_neg]
  rintro ⟨rfl, -⟩
  exact different rfl

theorem PmapCall.spaces_other {used : PmapId → Bool} {call : PmapCall} {other : PmapId}
    (notOn : call.space ≠ some other) : call.spaces used other = used other := by
  cases call with
  | create pmap => exact Function.update_of_ne (fun same => notOn (congrArg some same.symm)) _ _
  | destroy pmap => exact Function.update_of_ne (fun same => notOn (congrArg some same.symm)) _ _
  | _ => rfl

theorem PmapCall.mapped_other {mapping : Mapping} {call : PmapCall} {other : PmapId}
    (notOn : call.space ≠ some other) (vpage : ℕ) :
    call.mapped mapping other vpage = mapping other vpage := by
  cases call with
  | create pmap =>
      rw [mapped, Mapping.clear, if_neg]
      rintro rfl
      exact notOn rfl
  | destroy pmap => rfl
  | enter pmap vaddr page writable => exact Mapping.put_other notOn vpage
  | remove pmap start stop => exact Mapping.put_other notOn vpage
  | kenter vaddr page writable => exact Mapping.put_other notOn vpage
  | kremove start stop => exact Mapping.put_other notOn vpage
  | zeroPage page => rfl
  | copyPage src dst => rfl

/-- `SYS_VADDR`. -/
def sysVaddr : Word := 0x80000000

theorem user_of_lt {vaddr : Word} (user : vaddr < sysVaddr) : pageAt vaddr < userPages := by
  have isSys : sysVaddr.toNat = 2147483648 := rfl
  rw [BitVec.lt_def] at user
  simp only [pageAt, userPages, sysIndex, tableLen]
  omega

/--
In every run of calls that satisfy a condition, `pmap_extract` finds for a user address what
was entered last, and no call changes `cur_pmap` or the mappings of another address space.
-/
def FollowsCalls (ok : Machine → PmapCall → Prop) : Prop :=
  ∀ (start m : Machine) (history : List PmapCall), Translates (fun _ _ => none) start →
    Transition.Reach PmapCall.step (fun state => ok state.1) (start, []) (m, history) →
      (∀ pmap, PmapCall.allSpaces start.inUse history pmap = true → ∀ vaddr < sysVaddr,
        m.extracting pmap vaddr =
          some (physical ((PmapCall.lastEntered history pmap (pageAt vaddr)).getD 0), m)) ∧
      ∀ call, ok m call →
        (0 < m.vmm.freePages → ∃ m', call.perform m = some m') ∧
        ∀ m', call.perform m = some m' → m'.cur = m.cur ∧
          ∀ other, call.space ≠ some other →
            PmapCall.allSpaces start.inUse history other = true → ∀ vaddr < sysVaddr,
              (m'.extracting other vaddr).map Prod.fst = (m.extracting other vaddr).map Prod.fst

/-- The address spaces are maps from pages to pages. -/
theorem followsCalls :
    FollowsCalls fun m call => call.Asked m ∧ call.Low ∧ call.Spares m := by
  intro start m history translates reach
  have follows : Follows start (m, history) :=
    reach.invariant ⟨translates, rfl, rfl⟩ fun follows allowed stepped =>
      follows.step allowed stepped
  refine ⟨?_, ?_⟩
  · intro pmap used vaddr user
    rw [← follows.inUse] at used
    exact follows.translates.extracting used (user_of_lt user)
  · rintro call ⟨asked, low, spares⟩
    refine ⟨?_, ?_⟩
    · intro positive
      rcases follows.translates.perform asked low spares (Or.inl positive) with
        ⟨m', performed, _⟩
      exact ⟨m', performed⟩
    · intro m' performed
      rcases follows.translates.of_perform asked low spares performed with
        ⟨translates', inUse, cur⟩
      refine ⟨cur, ?_⟩
      intro other notOn used vaddr user
      rw [← follows.inUse] at used
      have stillUsed : m'.inUse other = true := by
        rw [inUse, PmapCall.spaces_other notOn]
        exact used
      rw [translates'.extracting stillUsed (user_of_lt user),
        follows.translates.extracting used (user_of_lt user), PmapCall.mapped_other notOn]
      rfl

/-! ## Address spaces without pages -/

/-- The address spaces have page directories of their own, and no page tables. -/
structure Bare (m : Machine) : Prop where
  noTable : ∀ pmap, m.inUse pmap = true → ∀ pdIndex, OwnIndex pdIndex →
    m.tableAt pmap pdIndex = none
  apart : ∀ pmap other, m.inUse pmap = true → m.inUse other = true →
    m.dirs pmap = m.dirs other → pmap = other
  allocated : ∀ pmap, m.inUse pmap = true → m.vmm.Allocated (m.dirs pmap)
  system : m.vmm.Allocated 0 ∧ m.vmm.Allocated m.sysTable ∧ m.sysTable ≠ 0
  roots : Roots m.inUse m
  current : m.inUse m.cur = true

theorem Bare.spots (bare : Bare m) {spot : Spot} (isSpot : m.spots spot = some page) :
    (spot = .sysTable ∧ m.sysTable = page) ∨
      ∃ pmap, spot = .dir pmap ∧ m.inUse pmap = true ∧ m.dirs pmap = page := by
  cases spot with
  | sysTable => exact Or.inl ⟨rfl, Option.some.inj isSpot⟩
  | dir pmap =>
      rcases spots_dir_iff.mp isSpot with ⟨used, isDir⟩
      exact Or.inr ⟨pmap, rfl, used, isDir⟩
  | table pmap pdIndex =>
      rcases spots_table_iff.mp isSpot with ⟨used, own, isTable⟩
      rw [bare.noTable pmap used pdIndex own] at isTable
      cases isTable

theorem Bare.translates (bare : Bare m) : Translates (fun _ _ => none) m where
  exclusive a b page isA isB := by
    rcases bare.spots isA with ⟨rfl, isPage⟩ | ⟨pmap, rfl, used, isPage⟩ <;>
      rcases bare.spots isB with ⟨rfl, isPage'⟩ | ⟨pmap', rfl, used', isPage'⟩
    · rfl
    · exact absurd (isPage'.trans isPage.symm) (bare.roots.apart pmap' used')
    · exact absurd (isPage.trans isPage'.symm) (bare.roots.apart pmap used)
    · rw [bare.apart pmap pmap' used used' (isPage.trans isPage'.symm)]
  allocated spot page isSpot := by
    rcases bare.spots isSpot with ⟨-, rfl⟩ | ⟨pmap, -, used, rfl⟩
    · exact bare.system.2.1
    · exact bare.allocated pmap used
  zero := bare.system.1
  notZero spot isSpot := by
    rcases bare.spots isSpot with ⟨-, isZero⟩ | ⟨pmap, -, used, isZero⟩
    · exact bare.system.2.2 isZero
    · exact inUse_iff.mp used isZero
  roots := bare.roots
  current := bare.current
  agrees pmap used vpage user := by
    rw [frameOf, bare.noTable pmap used _ (ownIndex_of_user user)]
    rfl

/-! ## The machine after `pmap_init` -/

/-- Frames 1 and 2 are the page directory and the page table of the kernel. -/
def bootMachine : Machine where
  mem page index :=
    if page = 1 ∧ index = sysIndex then entry 2 3
    else if page = 1 ∧ index = pteMapIndex then entry 1 3
    else 0
  vmm := ⟨fun byte => if byte = 0 then 0x07 else 0, 0⟩
  cur := .kernel
  dirs pmap := if pmap = .kernel then 1 else 0
  sysTable := 2

theorem tableAt_boot {pmap : PmapId} {pdIndex : ℕ} (own : OwnIndex pdIndex) :
    bootMachine.tableAt pmap pdIndex = none := by
  simp [tableAt, bootMachine, own.1.ne, own.2]

theorem inUse_boot {pmap : PmapId} (used : bootMachine.inUse pmap = true) : pmap = .kernel := by
  rw [inUse_iff] at used
  by_contra other
  exact used (if_neg other)

theorem translates_boot : Translates (fun _ _ => none) bootMachine :=
  Bare.translates {
    noTable := fun _ _ _ own => tableAt_boot own
    apart := fun pmap other used usedOther _ => (inUse_boot used).trans (inUse_boot usedOther).symm
    allocated := fun pmap used => by
      obtain rfl := inUse_boot used
      decide
    system := by decide
    roots := by
      refine ⟨by decide, ?_, ?_, ?_⟩ <;>
        · intro pmap used
          obtain rfl := inUse_boot used
          decide
    current := by decide }

/-- Frames 3 and 4 are the page directories of two processes. -/
def twoSpaces : Machine where
  mem page index :=
    if page ∈ [1, 3, 4] then
      if index = sysIndex then entry 2 3 else if index = pteMapIndex then entry page 3 else 0
    else 0
  vmm := ⟨fun byte => if byte = 0 then 0x1f else 0, 0⟩
  cur := .kernel
  dirs
    | .kernel => 1
    | .proc p => if p = 0 then 3 else if p = 1 then 4 else 0
  sysTable := 2

theorem tableAt_twoSpaces {pmap : PmapId} {pdIndex : ℕ} (own : OwnIndex pdIndex) :
    twoSpaces.tableAt pmap pdIndex = none := by
  simp [tableAt, twoSpaces, own.1.ne, own.2]

theorem inUse_twoSpaces {pmap : PmapId} (used : twoSpaces.inUse pmap = true) :
    pmap = .kernel ∨ pmap = .proc 0 ∨ pmap = .proc 1 := by
  rw [inUse_iff] at used
  cases pmap with
  | kernel => exact Or.inl rfl
  | proc p =>
      right
      by_contra other
      rw [not_or, PmapId.proc.injEq, PmapId.proc.injEq] at other
      exact used ((if_neg other.1).trans (if_neg other.2))

theorem translates_twoSpaces : Translates (fun _ _ => none) twoSpaces :=
  Bare.translates {
    noTable := fun _ _ _ own => tableAt_twoSpaces own
    apart := fun pmap other used usedOther => by
      rcases inUse_twoSpaces used with rfl | rfl | rfl <;>
        rcases inUse_twoSpaces usedOther with rfl | rfl | rfl <;> decide
    allocated := fun pmap used => by
      rcases inUse_twoSpaces used with rfl | rfl | rfl <;> decide
    system := by decide
    roots := by
      refine ⟨by decide, ?_, ?_, ?_⟩ <;>
        · intro pmap used
          rcases inUse_twoSpaces used with rfl | rfl | rfl <;> decide
    current := by decide }

/-- The calls that enter a page for the kernel or zero a page. -/
def kernelCall (low zero : Bool) : Machine × List PmapCall → PmapCall → Bool
  | state, .enter pmap vaddr _ _ =>
      state.1.inUse pmap && (!low || decide (vaddr.toNat < pteMapAddr.toNat))
  | _, .zeroPage _ => zero
  | _, _ => false

theorem kernelCall_sound {low zero : Bool} {state : Machine × List PmapCall} {call : PmapCall}
    (isCall : kernelCall low zero state call = true) :
    call.Asked state.1 ∧ (low = true → call.Low) ∧ (zero = false → call.Spares state.1) := by
  cases call with
  | enter pmap vaddr page writable =>
      simp only [kernelCall, Bool.and_eq_true, Bool.or_eq_true, decide_eq_true_eq] at isCall
      refine ⟨isCall.1, ?_, fun _ => trivial⟩
      rintro rfl
      exact isCall.2.resolve_left (by decide)
  | zeroPage page =>
      refine ⟨trivial, fun _ => trivial, ?_⟩
      rintro rfl
      cases isCall
  | _ => cases isCall

/-- Address 0 of the kernel is not mapped, although page 7 was entered and not removed. -/
def losesPage (state : Machine × List PmapCall) : Bool :=
  decide ((state.1.extracting .kernel 0).map Prod.fst = some 0) &&
    PmapCall.allSpaces bootMachine.inUse state.2 .kernel &&
    decide (PmapCall.lastEntered state.2 .kernel 0 = some 7)

theorem not_followsCalls_of_run {ok : Machine → PmapCall → Prop}
    {check : Machine × List PmapCall → PmapCall → Bool} {calls : List PmapCall}
    (sound : ∀ state call, check state call = true → ok state.1 call)
    (loses : (Transition.runChecked PmapCall.step check (bootMachine, []) calls).any losesPage =
      true) : ¬FollowsCalls ok := by
  intro follows
  rw [Option.any_eq_true] at loses
  rcases loses with ⟨⟨m, history⟩, isRun, observed⟩
  have reach : Transition.Reach PmapCall.step (fun state => ok state.1) (bootMachine, [])
      (m, history) := Transition.reach_of_runChecked sound .start isRun
  simp only [losesPage, Bool.and_eq_true, decide_eq_true_eq] at observed
  rcases observed with ⟨⟨extracted, used⟩, entered⟩
  have found := (follows bootMachine m history translates_boot reach).1 .kernel used 0 (by decide)
  have isFirst : pageAt 0 = 0 := rfl
  rw [found, isFirst, entered, Option.map_some, Option.some.injEq] at extracted
  change physical 7 = 0 at extracted
  exact absurd extracted (by decide)

/--
Neither condition can be left out: a page table may be overwritten as a page, and the entries
of page directories are pages at `PTE_MAP`.
-/
theorem not_followsCalls :
    ¬(FollowsCalls fun m call => call.Asked m) ∧
      ¬(FollowsCalls fun m call => call.Asked m ∧ call.Low) ∧
      ¬FollowsCalls fun m call => call.Asked m ∧ call.Spares m := by
  refine ⟨?_, ?_, ?_⟩
  · have loses : (Transition.runChecked PmapCall.step (kernelCall true true) (bootMachine, [])
        [.enter .kernel 0 7 true, .zeroPage 3]).any losesPage = true := by decide +kernel
    exact not_followsCalls_of_run (fun _ _ isCall => (kernelCall_sound isCall).1) loses
  · have loses : (Transition.runChecked PmapCall.step (kernelCall true true) (bootMachine, [])
        [.enter .kernel 0 7 true, .zeroPage 3]).any losesPage = true := by decide +kernel
    refine not_followsCalls_of_run (fun _ _ isCall => ?_) loses
    exact ⟨(kernelCall_sound isCall).1, (kernelCall_sound isCall).2.1 rfl⟩
  · have loses : (Transition.runChecked PmapCall.step (kernelCall false false) (bootMachine, [])
        [.enter .kernel 0 7 true, .enter .kernel 0xffc00000 9 true]).any losesPage = true := by
      decide +kernel
    refine not_followsCalls_of_run (fun _ _ isCall => ?_) loses
    exact ⟨(kernelCall_sound isCall).1, (kernelCall_sound isCall).2.2 rfl⟩

/-- The calls that map and unmap pages of an address space. -/
def userCall : Machine × List PmapCall → PmapCall → Bool
  | state, .enter pmap vaddr _ _ =>
      state.1.inUse pmap && decide (vaddr.toNat < pteMapAddr.toNat)
  | state, .remove pmap start stop =>
      state.1.inUse pmap && ((List.range (pagesBetween start stop)).all fun offset =>
        (state.1.tableAt pmap ((pageAt start + offset) / tableLen)).isSome) &&
        decide (start.toNat ≤ pteMapAddr.toNat) && decide (stop.toNat ≤ pteMapAddr.toNat)
  | _, _ => false

theorem userCall_sound {state : Machine × List PmapCall} {call : PmapCall}
    (isCall : userCall state call = true) :
    call.Asked state.1 ∧ call.Low ∧ call.Spares state.1 := by
  cases call with
  | enter pmap vaddr page writable =>
      simp only [userCall, Bool.and_eq_true, decide_eq_true_eq] at isCall
      exact ⟨isCall.1, isCall.2, trivial⟩
  | remove pmap start stop =>
      simp only [userCall, Bool.and_eq_true, decide_eq_true_eq, List.all_eq_true] at isCall
      rcases isCall with ⟨⟨⟨used, tables⟩, startLow⟩, stopLow⟩
      refine ⟨⟨used, fun vpage first last => ?_⟩, ⟨startLow, stopLow⟩, trivial⟩
      have isTable := tables (vpage - pageAt start) (List.mem_range.mpr (by omega))
      rw [Nat.add_sub_cancel' first, Option.isSome_iff_ne_none] at isTable
      exact isTable
  | _ => cases isCall

/-- Both processes have a page at the same address, and one of them loses it again. -/
def mapAndUnmap : List PmapCall :=
  [.enter (.proc 0) 0x1000 7 true, .enter (.proc 1) 0x1000 9 true,
    .remove (.proc 0) 0x1000 0x2000]

set_option maxRecDepth 1000 in
/-- The other process keeps its page. -/
theorem followsCalls_mapAndUnmap : ∃ m history,
    Transition.Reach PmapCall.step
      (fun state call => call.Asked state.1 ∧ call.Low ∧ call.Spares state.1) (twoSpaces, [])
      (m, history) ∧
    m.extracting (.proc 0) 0x1000 = some (0, m) ∧
    m.extracting (.proc 1) 0x1000 = some (physical 9, m) := by
  have observed : (Transition.runChecked PmapCall.step userCall (twoSpaces, []) mapAndUnmap).any
      (fun state => PmapCall.allSpaces twoSpaces.inUse state.2 (.proc 0) &&
        PmapCall.allSpaces twoSpaces.inUse state.2 (.proc 1) &&
        decide (PmapCall.lastEntered state.2 (.proc 0) 1 = none) &&
        decide (PmapCall.lastEntered state.2 (.proc 1) 1 = some 9)) = true := by
    decide +kernel
  rcases Transition.reach_of_observedChecked (fun _ _ => userCall_sound) observed with
    ⟨⟨m, history⟩, reach, isObserved⟩
  simp only [Bool.and_eq_true, decide_eq_true_eq] at isObserved
  rcases isObserved with ⟨⟨⟨usedFirst, usedSecond⟩, removed⟩, entered⟩
  have found := (followsCalls twoSpaces m history translates_twoSpaces reach).1
  have isPage : pageAt 0x1000 = 1 := rfl
  have first := found (.proc 0) usedFirst 0x1000 (by decide)
  have second := found (.proc 1) usedSecond 0x1000 (by decide)
  rw [isPage, removed, Option.getD_none, physical_zero] at first
  rw [isPage, entered, Option.getD_some] at second
  exact ⟨m, history, reach, first, second⟩

end

end Machine

end Osix.Vm
