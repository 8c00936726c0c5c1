import Osix.Vm.Translation

/-!
# New and old address spaces

A new page directory maps no user page, and an address space that goes away takes its page
directory and its page tables with it. The others keep their mappings.
-/

namespace Osix.Vm

open Ownership

namespace Machine

section

variable {mapping : Mapping} {m m' : Machine} {pmap other : PmapId} {vpage pdIndex index page
  table : ℕ}

/-! ## `pmap_create` -/

/-- A new page directory that maps the kernel, itself and nothing else. -/
structure NewDir (pmap : PmapId) (dir : ℕ) (m m' : Machine) : Prop where
  dirs : m'.dirs = Function.update m.dirs pmap dir
  sysTable : m'.sysTable = m.sysTable
  cur : m'.cur = m.cur
  mem : ∀ page, page ≠ dir → page ≠ m.sysTable → m'.mem page = m.mem page
  empty : ∀ pdIndex, OwnIndex pdIndex → target (m'.mem dir pdIndex) = none
  kernel : target (m'.mem dir sysIndex) = some m.sysTable
  self : target (m'.mem dir pteMapIndex) = some dir

theorem NewDir.dirs_other {dir : ℕ} (new : NewDir pmap dir m m') (different : other ≠ pmap) :
    m'.dirs other = m.dirs other := by
  rw [new.dirs, Function.update_of_ne different]

theorem NewDir.dirs_self {dir : ℕ} (new : NewDir pmap dir m m') : m'.dirs pmap = dir := by
  rw [new.dirs, Function.update_self]

theorem NewDir.inUse_other {dir : ℕ} (new : NewDir pmap dir m m') (different : other ≠ pmap) :
    m'.inUse other = m.inUse other := by
  rw [inUse, inUse, new.dirs_other different]

theorem NewDir.inUse_eq {dir : ℕ} (new : NewDir pmap dir m m') (notZero : dir ≠ 0) :
    m'.inUse = Function.update m.inUse pmap true := by
  funext other
  rcases eq_or_ne other pmap with rfl | different
  · rw [Function.update_self, inUse_iff, new.dirs_self]
    exact notZero
  · rw [Function.update_of_ne different, new.inUse_other different]

/-- The other page directories and page tables are as before. -/
theorem NewDir.mem_spot {dir : ℕ} (new : NewDir pmap dir m m') (tabled : Tabled m)
    (unheld : Unheld m.spots dir) {spot : Spot} (notSys : spot ≠ .sysTable)
    (isSpot : m.spots spot = some page) : m'.mem page = m.mem page := by
  apply new.mem
  · rintro rfl
    exact unheld spot isSpot
  · exact tabled.ne_of_spots isSpot (b := .sysTable) rfl notSys

theorem NewDir.tableAt_other {dir : ℕ} (new : NewDir pmap dir m m') (tabled : Tabled m)
    (unheld : Unheld m.spots dir) (different : other ≠ pmap) (used : m.inUse other = true)
    (pdIndex : ℕ) : m'.tableAt other pdIndex = m.tableAt other pdIndex := by
  rw [tableAt, tableAt, new.dirs_other different,
    new.mem_spot tabled unheld (by simp) (spots_dir used)]

theorem NewDir.spots {dir : ℕ} (new : NewDir pmap dir m m') (tabled : Tabled m)
    (unused : m.inUse pmap = false) (unheld : Unheld m.spots dir) (notZero : dir ≠ 0) :
    m'.spots = Function.update m.spots (.dir pmap) (some dir) := by
  have usedNow : m'.inUse pmap = true := by
    rw [inUse_iff, new.dirs_self]
    exact notZero
  funext spot
  cases spot with
  | sysTable => simp only [Machine.spots, new.sysTable, Function.update_of_ne, ne_eq,
      reduceCtorEq, not_false_eq_true]
  | dir q =>
      rcases eq_or_ne q pmap with rfl | different
      · rw [Function.update_self, spots_dir usedNow, new.dirs_self]
      · rw [Function.update_of_ne (by simpa using different)]
        simp only [Machine.spots, new.inUse_other different, new.dirs_other different]
  | table q i =>
      rw [Function.update_of_ne (by simp)]
      rcases eq_or_ne q pmap with rfl | different
      · simp only [Machine.spots, unused, usedNow, true_and, Bool.false_eq_true, false_and,
          if_false, ite_eq_right_iff]
        intro own
        rw [tableAt, new.dirs_self]
        exact new.empty i own
      · simp only [Machine.spots, new.inUse_other different]
        split
        · rename_i isOwn
          exact new.tableAt_other tabled unheld different isOwn.1 i
        · rfl

theorem Translates.newDir {dir : ℕ} (translates : Translates mapping m)
    (new : NewDir pmap dir m m') (unused : m.inUse pmap = false) (unheld : Unheld m.spots dir)
    (notZero : dir ≠ 0) (isAdded : m'.vmm.Allocated dir)
    (vmm : ∀ page, m.vmm.Allocated page → m'.vmm.Allocated page) :
    Translates (mapping.clear pmap) m' := by
  have spots := new.spots translates.toTabled unused unheld notZero
  have before : ∀ other, other ≠ pmap → m'.inUse other = true → m.inUse other = true := by
    intro other different used
    rwa [new.inUse_other different] at used
  have sameDir : ∀ other, other ≠ pmap → m'.inUse other = true →
      m'.mem (m'.dirs other) = m.mem (m.dirs other) := by
    intro other different used
    rw [new.dirs_other different]
    exact new.mem_spot translates.toTabled unheld (by simp)
      (spots_dir (before other different used))
  have notPmap : m.cur ≠ pmap := by
    rintro rfl
    rw [translates.current] at unused
    cases unused
  refine ⟨⟨?_, ?_, vmm 0 translates.zero, ?_, ⟨?_, ?_, ?_, ?_⟩, ?_⟩, ?_⟩
  · rw [spots]
    exact translates.exclusive.give unheld
  · intro spot page isSpot
    rw [spots, Function.update_apply] at isSpot
    split at isSpot
    · cases isSpot
      exact isAdded
    · exact vmm page (translates.allocated spot page isSpot)
  · rw [spots]
    exact translates.notZero.give notZero.symm
  · have different : PmapId.kernel ≠ pmap := by
      rintro rfl
      rw [translates.roots.kernelValid] at unused
      cases unused
    rw [new.inUse_other different]
    exact translates.roots.kernelValid
  · intro other used
    rcases eq_or_ne other pmap with rfl | different
    · rw [new.dirs_self, new.sysTable]
      exact new.kernel
    · rw [sameDir other different used, new.sysTable]
      exact translates.roots.kernel other (before other different used)
  · intro other used
    rcases eq_or_ne other pmap with rfl | different
    · rw [new.dirs_self]
      exact new.self
    · rw [sameDir other different used, new.dirs_other different]
      exact translates.roots.self other (before other different used)
  · intro other used
    rw [new.sysTable]
    rcases eq_or_ne other pmap with rfl | different
    · rw [new.dirs_self]
      rintro rfl
      exact unheld .sysTable rfl
    · rw [new.dirs_other different]
      exact translates.roots.apart other (before other different used)
  · rw [new.cur, new.inUse_other notPmap]
    exact translates.current
  · intro other used v user
    rcases eq_or_ne other pmap with rfl | different
    · rw [Mapping.clear, if_pos rfl, frameOf, tableAt, new.dirs_self,
        new.empty _ (ownIndex_of_user user)]
      rfl
    · have usedBefore := before other different used
      rw [Mapping.clear, if_neg different, ← translates.agrees other usedBefore v user, frameOf,
        frameOf, new.tableAt_other translates.toTabled unheld different usedBefore]
      cases isTable : m.tableAt other (v / tableLen) with
      | none => rfl
      | some table =>
          rw [Option.bind_some, Option.bind_some,
            new.mem_spot translates.toTabled unheld (by simp)
              ((spots_table usedBefore (ownIndex_of_user user)).trans isTable)]

/-- `pmap_create` of an address space that has no page directory. -/
theorem Translates.create (translates : Translates mapping m) (unused : m.inUse pmap = false)
    (positive : 0 < m.vmm.freePages) :
    ∃ m', m.create pmap = some m' ∧ Translates (mapping.clear pmap) m' ∧
      m'.inUse = Function.update m.inUse pmap true ∧ m'.cur = m.cur := by
  rcases allocPage_exists positive with ⟨dir, allocated, isAllocated⟩
  have obtained := translates.allocPage isAllocated
  have only := obtained.only
  have notSys : dir ≠ m.sysTable := fun same => obtained.unheld .sysTable (by rw [same]; rfl)
  have notZero := obtained.notZero translates.toTabled
  have sysSmall : m.sysTable < 2 ^ 20 :=
    lt_of_pageCount (translates.lt_pageCount (show m.spots .sysTable = some m.sysTable from rfl))
  have isCreated := translates.roots.create_eq translates.current unused isAllocated
    obtained.small (notDir_of_unheld obtained.unheld) notSys
  have new : NewDir pmap dir m (({ allocated with
      dirs := Function.update allocated.dirs pmap dir }.poke allocated.sysTable 1
        (kernelEntry dir true)).writeDir dir
      (entry m.sysTable (pagePresent ||| pageWritable ||| pageUser))
      (entry dir (pagePresent ||| pageWritable ||| pageUser))) := by
    refine ⟨?_, only.sysTable, only.cur, ?_, ?_, ?_, ?_⟩
    · change Function.update allocated.dirs pmap dir = _
      rw [only.dirs]
    · intro page notDir notSys
      simp [writeDir, Machine.poke, Machine.fillPage, notDir, only.mem, only.sysTable, notSys]
    · intro pdIndex own
      simp [writeDir, Machine.poke, Machine.fillPage, notSys, only.sysTable, own.1.ne, own.2]
    · have isEntry : target (entry m.sysTable (pagePresent ||| pageWritable ||| pageUser)) =
          some m.sysTable := target_entry sysSmall (by decide) (by decide)
      simpa [writeDir, Machine.poke, Machine.fillPage, notSys, only.sysTable, sysIndex,
        pteMapIndex] using isEntry
    · have isEntry : target (entry dir (pagePresent ||| pageWritable ||| pageUser)) = some dir :=
        target_entry obtained.small (by decide) (by decide)
      simpa [writeDir, Machine.poke, Machine.fillPage, notSys, only.sysTable] using isEntry
  exact ⟨_, isCreated, translates.newDir new unused obtained.unheld notZero obtained.allocated
    obtained.others, new.inUse_eq notZero, only.cur⟩

/-! ## `pmap_destroy` -/

/-- An address space loses its page directory, and only its own pages become free. -/
structure Dropped (pmap : PmapId) (m m' : Machine) : Prop where
  dirs : m'.dirs = Function.update m.dirs pmap 0
  sysTable : m'.sysTable = m.sysTable
  cur : m'.cur = m.cur
  mem : m'.mem = m.mem
  allocated : ∀ page, m.vmm.Allocated page →
    (∀ spot, m.spots spot = some page → spot ≠ .dir pmap ∧ ∀ i, spot ≠ .table pmap i) →
      m'.vmm.Allocated page

theorem Dropped.inUse (dropped : Dropped pmap m m') :
    m'.inUse other = true ↔ other ≠ pmap ∧ m.inUse other = true := by
  rw [inUse_iff, inUse_iff, dropped.dirs, Function.update_apply]
  split
  · rename_i same
    simp [same]
  · rename_i different
    simp [different]

theorem Dropped.inUse_eq (dropped : Dropped pmap m m') :
    m'.inUse = Function.update m.inUse pmap false := by
  funext other
  rw [Bool.eq_iff_iff, dropped.inUse, Function.update_apply]
  split
  · rename_i same
    simp [same]
  · rename_i different
    simp [different]

theorem Dropped.dirs_other (dropped : Dropped pmap m m') (different : other ≠ pmap) :
    m'.dirs other = m.dirs other := by
  rw [dropped.dirs, Function.update_of_ne different]

theorem Dropped.spots (dropped : Dropped pmap m m') {spot : Spot}
    (isSpot : m'.spots spot = some page) :
    m.spots spot = some page ∧ spot ≠ .dir pmap ∧ ∀ i, spot ≠ .table pmap i := by
  cases spot with
  | sysTable =>
      rw [Machine.spots, dropped.sysTable] at isSpot
      exact ⟨isSpot, by simp, by simp⟩
  | dir q =>
      rw [spots_dir_iff, dropped.inUse] at isSpot
      rcases isSpot with ⟨⟨different, used⟩, isDir⟩
      rw [dropped.dirs_other different] at isDir
      exact ⟨spots_dir_iff.mpr ⟨used, isDir⟩, by simpa using different, by simp⟩
  | table q i =>
      rw [spots_table_iff, dropped.inUse] at isSpot
      rcases isSpot with ⟨⟨different, used⟩, own, isTable⟩
      rw [tableAt, dropped.dirs_other different, dropped.mem] at isTable
      exact ⟨spots_table_iff.mpr ⟨used, own, isTable⟩, by simp, fun _ => by simp [different]⟩

theorem Translates.dropped (translates : Translates mapping m) (dropped : Dropped pmap m m')
    (notKernel : pmap ≠ .kernel) (notCur : pmap ≠ m.cur) (zero : m'.vmm.Allocated 0) :
    Translates mapping m' := by
  refine ⟨⟨?_, ?_, zero, ?_, ⟨?_, ?_, ?_, ?_⟩, ?_⟩, ?_⟩
  · intro a b page isA isB
    exact translates.exclusive a b page (dropped.spots isA).1 (dropped.spots isB).1
  · intro spot page isSpot
    rcases dropped.spots isSpot with ⟨wasSpot, notOwn⟩
    refine dropped.allocated page (translates.allocated spot page wasSpot) ?_
    intro other isOther
    rwa [translates.exclusive other spot page isOther wasSpot]
  · intro spot isSpot
    exact translates.notZero spot (dropped.spots isSpot).1
  · exact dropped.inUse.mpr ⟨notKernel.symm, translates.roots.kernelValid⟩
  · intro other used
    rcases dropped.inUse.mp used with ⟨different, usedBefore⟩
    rw [dropped.dirs_other different, dropped.mem, dropped.sysTable]
    exact translates.roots.kernel other usedBefore
  · intro other used
    rcases dropped.inUse.mp used with ⟨different, usedBefore⟩
    rw [dropped.dirs_other different, dropped.mem]
    exact translates.roots.self other usedBefore
  · intro other used
    rcases dropped.inUse.mp used with ⟨different, usedBefore⟩
    rw [dropped.dirs_other different, dropped.sysTable]
    exact translates.roots.apart other usedBefore
  · rw [dropped.cur]
    exact dropped.inUse.mpr ⟨notCur.symm, translates.current⟩
  · intro other used v user
    rcases dropped.inUse.mp used with ⟨different, usedBefore⟩
    rw [← translates.agrees other usedBefore v user, frameOf, frameOf, tableAt, tableAt,
      dropped.dirs_other different, dropped.mem]

/-- `pmap_destroy` of an address space that is not active. -/
theorem Translates.destroy (translates : Translates mapping m) (used : m.inUse pmap = true)
    (notKernel : pmap ≠ .kernel) (notCur : pmap ≠ m.cur) :
    ∃ m', m.destroy pmap = some m' ∧ Translates mapping m' ∧
      m'.inUse = Function.update m.inUse pmap false ∧ m'.cur = m.cur := by
  have own : ∀ i ∈ List.range sysIndex, OwnIndex i := by
    intro i isIn
    rw [List.mem_range] at isIn
    simp only [OwnIndex, sysIndex, pteMapIndex] at isIn ⊢
    omega
  have isSpot : ∀ i ∈ List.range sysIndex, ∀ page, target (m.mem (m.dirs pmap) i) = some page →
      m.spots (.table pmap i) = some page :=
    fun i isIn page isTable => spots_table_iff.mpr ⟨used, own i isIn, isTable⟩
  have freeable : Freeable (m.activate pmap) (List.range sysIndex) := by
    refine ⟨translates.roots.self pmap used, List.nodup_range, ?_, ?_⟩
    · intro i isIn j isIn' page isI isJ
      have same := translates.exclusive _ _ page (isSpot i isIn page isI) (isSpot j isIn' page isJ)
      simpa using same
    · intro i isIn page isTable
      exact translates.allocated _ page (isSpot i isIn page isTable)
  rcases freeTables_exists freeable with ⟨freed, isFreed⟩
  rcases freeTables_spec _ freeable.self isFreed with ⟨only, stillAllocated⟩
  have dirAllocated : freed.vmm.Allocated (m.dirs pmap) := by
    refine (stillAllocated _).mpr ⟨translates.allocated _ _ (spots_dir used), ?_⟩
    intro i isIn isTable
    exact translates.ne_of_spots (isSpot i isIn _ isTable) (spots_dir used) (by simp) rfl
  rcases Vmm.freePage_isSome dirAllocated with ⟨vmm, isLast⟩
  have removed := (Vmm.freePage_spec isLast).2
  have others : ∀ page, m.vmm.Allocated page →
      (∀ spot, m.spots spot = some page → spot ≠ .dir pmap ∧ ∀ i, spot ≠ .table pmap i) →
        vmm.Allocated page := by
    intro page wasAllocated notOwn
    refine (removed page).mpr ⟨(stillAllocated page).mpr ⟨wasAllocated, ?_⟩, ?_⟩
    · intro i isIn isTable
      exact (notOwn _ (isSpot i isIn page isTable)).2 i rfl
    · rintro rfl
      exact (notOwn _ (spots_dir used)).1 rfl
  have zero : vmm.Allocated 0 := by
    refine others 0 translates.zero ?_
    intro spot isZero
    exact absurd isZero (translates.notZero spot)
  have lastFreed : (freed.activate m.cur).freePage (m.dirs pmap) =
      some { freed with vmm := vmm, cur := m.cur } := by
    rw [freePage, show (freed.activate m.cur).vmm = freed.vmm from rfl, isLast, Option.map_some]
    rfl
  have dropped : Dropped pmap m { freed with
      vmm := vmm, cur := m.cur, dirs := Function.update freed.dirs pmap 0 } := by
    refine ⟨?_, only.sysTable, rfl, only.mem, others⟩
    rw [only.dirs]
    rfl
  refine ⟨_, ?_, translates.dropped dropped notKernel notCur zero, dropped.inUse_eq, rfl⟩
  simp only [Machine.destroy, isFreed, lastFreed, Option.bind_eq_bind, Option.bind_some,
    Option.pure_def]

end

end Machine

end Osix.Vm
