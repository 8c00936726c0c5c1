import Osix.Vm.Pmap

/-!
# The entries that every page directory has

The page table functions work through two entries of the active page directory: the one for
the kernel, which all directories share, and the last one, which points to the directory
itself. As long as the directories have both, a page of the kernel is found in the kernel's
page table, and the window at `PTE_MAP` shows the active directory and its page tables.
-/

namespace Osix.Vm

namespace Machine

/-! ## Entries -/

@[simp]
theorem target_zero : target 0#32 = none := by simp [target]

/-- An entry points to its page. -/
theorem target_entry {page : ℕ} {flags : Word} (small : page < 2 ^ 20)
    (present : flags &&& pagePresent ≠ 0) (low : flags.toNat < 4096) :
    target (entry page flags) = some page := by
  have isPresent : entry page flags &&& pagePresent ≠ 0 := by
    intro zero
    apply present
    have split : entry page flags &&& pagePresent =
        (BitVec.ofNat 32 (page * 4096) &&& pagePresent) ||| (flags &&& pagePresent) := by
      rw [entry, BitVec.and_comm, BitVec.and_or_distrib_left, BitVec.and_comm,
        BitVec.and_comm pagePresent flags]
    rw [zero] at split
    apply BitVec.eq_of_getLsbD_eq
    intro i inWord
    have atBit := congrArg (BitVec.getLsbD · i) split
    simp only [BitVec.getLsbD_or] at atBit
    have both := Bool.or_eq_false_iff.mp (atBit.symm.trans (by simp))
    rw [both.2]
    simp
  rw [target, if_pos isPresent, entry, BitVec.toNat_or, BitVec.toNat_ofNat,
    Nat.mod_eq_of_lt (by omega)]
  have shifted : (page * 4096 ||| flags.toNat) / 2 ^ 12 = page := by
    rw [← Nat.shiftRight_eq_div_pow, Nat.shiftRight_or_distrib, Nat.shiftRight_eq_div_pow,
      Nat.shiftRight_eq_div_pow, Nat.div_eq_of_lt (show flags.toNat < 2 ^ 12 by omega),
      Nat.or_zero]
    omega
  exact congrArg some shifted

theorem present_of_target {word : Word} {page : ℕ} (isTarget : target word = some page) :
    ¬word &&& pagePresent = 0 := by
  rw [target] at isTarget
  split at isTarget
  · assumption
  · cases isTarget

theorem target_eq_none {word : Word} : target word = none ↔ word &&& pagePresent = 0 := by
  rw [target]
  split
  · rename_i present
    simpa using present
  · rename_i absent
    simpa using absent

theorem index_div {pdIndex index : ℕ} (inTable : index < tableLen) :
    (pdIndex * tableLen + index) / tableLen = pdIndex := by
  simp only [tableLen] at inTable ⊢
  omega

theorem index_mod {pdIndex index : ℕ} (inTable : index < tableLen) :
    (pdIndex * tableLen + index) % tableLen = index := by
  simp only [tableLen] at inTable ⊢
  omega

/-- The entry that `pmap_kenter` writes. -/
def kernelEntry (page : ℕ) (writable : Bool) : Word :=
  entry page (pagePresent ||| (if writable then pageWritable else 0) ||| 0)

theorem target_kernelEntry {page : ℕ} (small : page < 2 ^ 20) (writable : Bool) :
    target (kernelEntry page writable) = some page := by
  cases writable with
  | true => exact target_entry small (by decide) (by decide)
  | false => exact target_entry small (by decide) (by decide)

/-! ## Page directories -/

/--
The page directories that can be activated map the kernel and themselves, and none of them
is the kernel's page table.
-/
structure Roots (valid : PmapId → Bool) (m : Machine) : Prop where
  kernelValid : valid .kernel = true
  kernel : ∀ pmap, valid pmap = true → target (m.mem (m.dirs pmap) sysIndex) = some m.sysTable
  self : ∀ pmap, valid pmap = true →
    target (m.mem (m.dirs pmap) pteMapIndex) = some (m.dirs pmap)
  apart : ∀ pmap, valid pmap = true → m.dirs pmap ≠ m.sysTable

section

variable {valid : PmapId → Bool} {m : Machine} {page index : ℕ}

/-- The page is not a page directory. -/
def NotDir (valid : PmapId → Bool) (m : Machine) (page : ℕ) : Prop :=
  ∀ pmap, valid pmap = true → m.dirs pmap ≠ page

theorem Roots.notDir_sysTable (roots : Roots valid m) : NotDir valid m m.sysTable := roots.apart

/-- Pages that are not page directories may change. -/
theorem Roots.of_mem (roots : Roots valid m) {m' : Machine}
    (dirs : ∀ pmap, valid pmap = true → m'.dirs pmap = m.dirs pmap)
    (sysTable : m'.sysTable = m.sysTable)
    (mem : ∀ pmap, valid pmap = true → m'.mem (m.dirs pmap) = m.mem (m.dirs pmap)) :
    Roots valid m' where
  kernelValid := roots.kernelValid
  kernel pmap isValid := by
    rw [dirs pmap isValid, sysTable, mem pmap isValid]
    exact roots.kernel pmap isValid
  self pmap isValid := by
    rw [dirs pmap isValid, mem pmap isValid]
    exact roots.self pmap isValid
  apart pmap isValid := by
    rw [dirs pmap isValid, sysTable]
    exact roots.apart pmap isValid

theorem Roots.activate (roots : Roots valid m) (pmap : PmapId) : Roots valid (m.activate pmap) :=
  roots.of_mem (fun _ _ => rfl) rfl fun _ _ => rfl

theorem Roots.poke (roots : Roots valid m) (notDir : NotDir valid m page) (index : ℕ)
    (word : Word) : Roots valid (m.poke page index word) := by
  refine roots.of_mem (fun _ _ => rfl) rfl ?_
  intro pmap isValid
  simp [Machine.poke, notDir pmap isValid]

theorem Roots.fillPage (roots : Roots valid m) (notDir : NotDir valid m page)
    (words : ℕ → Word) : Roots valid (m.fillPage page words) := by
  refine roots.of_mem (fun _ _ => rfl) rfl ?_
  intro pmap isValid
  simp [Machine.fillPage, notDir pmap isValid]

/-- The page directory that is active, through its entry for itself. -/
theorem Roots.walk_pteMap (roots : Roots valid m) (isValid : valid m.cur = true) {pdIndex : ℕ}
    (inDir : pdIndex < tableLen) :
    m.walk (pteMap pdIndex) = target (m.mem (m.dirs m.cur) pdIndex) := by
  rw [walk, pteMap, index_div inDir, index_mod inDir, roots.self m.cur isValid, Option.bind_some]

theorem Roots.load_pgDir (roots : Roots valid m) (isValid : valid m.cur = true) (index : ℕ) :
    m.load pgDir index = some (m.mem (m.dirs m.cur) index) := by
  rw [load, pgDir, roots.walk_pteMap isValid (by decide), roots.self m.cur isValid,
    Option.map_some]

/-- A page of the kernel, through the page table that all address spaces share. -/
theorem Roots.walk_sys (roots : Roots valid m) (isValid : valid m.cur = true)
    (inTable : index < tableLen) :
    m.walk (sysIndex * tableLen + index) = target (m.mem m.sysTable index) := by
  rw [walk, index_div inTable, index_mod inTable, roots.kernel m.cur isValid, Option.bind_some]

/-! ## The kernel's windows -/

theorem Roots.kenter_eq (roots : Roots valid m) (inTable : index < tableLen) (page : ℕ)
    (writable : Bool) :
    m.kenter (sysIndex * tableLen + index) page writable =
      some (m.poke m.sysTable index (kernelEntry page writable)) := by
  have isTable := roots.kernel .kernel roots.kernelValid
  have present := present_of_target isTable
  have there := roots.activate .kernel
  have loaded := there.load_pgDir roots.kernelValid sysIndex
  have walked := there.walk_pteMap roots.kernelValid (show sysIndex < tableLen by decide)
  simp only [Machine.activate] at loaded walked
  rw [isTable] at walked
  simp only [kenter, enterUsing, index_div inTable, index_mod inTable, Machine.activate, loaded,
    Option.bind_eq_bind, Option.bind_some, if_neg present, enterRaw, store, walked,
    Option.map_some, if_true]
  rfl

theorem Roots.kremove_eq (roots : Roots valid m) (inTable : index < tableLen) :
    m.kremove (sysIndex * tableLen + index) = some (m.poke m.sysTable index 0) := by
  have walked := (roots.activate .kernel).walk_pteMap roots.kernelValid
    (show sysIndex < tableLen by decide)
  simp only [Machine.activate] at walked
  rw [roots.kernel .kernel roots.kernelValid] at walked
  simp only [kremove, remove, index_div inTable, index_mod inTable, store, Machine.activate,
    walked, Option.map_some]
  rfl

/-- A page that is overwritten through the window at `SYS_VADDR_TMP`. -/
theorem Roots.fillTmp_eq (roots : Roots valid m) (isValid : valid m.cur = true)
    (small : page < 2 ^ 20) (notDir : NotDir valid m page) (words : ℕ → Word) :
    m.fillTmp page words = some (((m.poke m.sysTable 1 (kernelEntry page true)).fillPage page
      words).poke m.sysTable 1 0) := by
  have inTable : 1 < tableLen := by decide
  have entered := roots.poke roots.notDir_sysTable 1 (kernelEntry page true)
  have walked : (m.poke m.sysTable 1 (kernelEntry page true)).walk tmpPage = some page := by
    rw [tmpPage, entered.walk_sys isValid inTable]
    simp [Machine.poke, target_kernelEntry small]
  have filled := entered.fillPage notDir words
  simp only [fillTmp, Option.bind_eq_bind]
  rw [tmpPage, roots.kenter_eq inTable, Option.bind_some, ← tmpPage, fill, walked,
    Option.map_some, Option.bind_some, tmpPage, filled.kremove_eq inTable]
  rfl

/-- Two pages in the two windows. -/
def openWindows (m : Machine) (src dst : ℕ) : Machine :=
  (m.poke m.sysTable 1 (kernelEntry src false)).poke m.sysTable 2 (kernelEntry dst true)

/-- A page of memory is copied through the two windows. -/
theorem Roots.copyPage_eq (roots : Roots valid m) (isValid : valid m.cur = true) {src dst : ℕ}
    (smallSrc : src < 2 ^ 20) (smallDst : dst < 2 ^ 20) (notDir : NotDir valid m dst) :
    m.copyPage src dst = some ((((m.openWindows src dst).fillPage dst
      ((m.openWindows src dst).mem src)).poke m.sysTable 1 0).poke m.sysTable 2 0) := by
  have inTable : 1 < tableLen := by decide
  have inTable2 : 2 < tableLen := by decide
  have entered := roots.poke roots.notDir_sysTable 1 (kernelEntry src false)
  have both : Roots valid (m.openWindows src dst) :=
    entered.poke entered.notDir_sysTable 2 (kernelEntry dst true)
  have walkedSrc : (m.openWindows src dst).walk tmpPage = some src := by
    rw [tmpPage, both.walk_sys isValid inTable]
    simp [openWindows, Machine.poke, target_kernelEntry smallSrc]
  have walkedDst : (m.openWindows src dst).walk tmpPage2 = some dst := by
    rw [tmpPage2, both.walk_sys isValid inTable2]
    simp [openWindows, Machine.poke, target_kernelEntry smallDst]
  have filled := both.fillPage notDir ((m.openWindows src dst).mem src)
  have removed := filled.poke filled.notDir_sysTable 1 0
  have isOpen : (m.poke m.sysTable 1 (kernelEntry src false)).poke
      (m.poke m.sysTable 1 (kernelEntry src false)).sysTable 2 (kernelEntry dst true) =
      m.openWindows src dst := rfl
  simp only [copyPage, Option.bind_eq_bind]
  rw [tmpPage, roots.kenter_eq inTable, Option.bind_some, tmpPage2, entered.kenter_eq inTable2,
    Option.bind_some, isOpen, ← tmpPage, walkedSrc, Option.bind_some, fill, ← tmpPage2, walkedDst,
    Option.map_some, Option.bind_some, tmpPage, filled.kremove_eq inTable, Option.bind_some,
    tmpPage2, removed.kremove_eq inTable2]
  rfl

/-- A page directory as `pmap_create` writes it through the window, which is closed again. -/
def writeDir (m : Machine) (dir : ℕ) (kernel self : Word) : Machine :=
  (((m.fillPage dir fun _ => 0).poke dir sysIndex kernel).poke dir pteMapIndex self).poke
    m.sysTable 1 0

/-- The page in the window at `SYS_VADDR_TMP`. -/
theorem Roots.walk_window (roots : Roots valid m) (isValid : valid m.cur = true)
    (small : page < 2 ^ 20) (window : m.mem m.sysTable 1 = kernelEntry page true) :
    m.walk tmpPage = some page := by
  rw [tmpPage, roots.walk_sys isValid (by decide), window, target_kernelEntry small]

/-- The words that `pmap_create` writes to a page directory in the window. -/
theorem Roots.writeDir_eq (roots : Roots valid m) (isValid : valid m.cur = true) {dir : ℕ}
    (small : dir < 2 ^ 20) (window : m.mem m.sysTable 1 = kernelEntry dir true)
    (notDir : NotDir valid m dir) (notSys : dir ≠ m.sysTable) (kernel self : Word) :
    ((m.fill tmpPage fun _ => 0).bind fun zeroed =>
      (zeroed.store tmpPage sysIndex kernel).bind fun withKernel =>
        (withKernel.store tmpPage pteMapIndex self).bind fun recursive =>
          recursive.kremove tmpPage) = some (m.writeDir dir kernel self) := by
  have roots1 := roots.fillPage notDir fun _ => 0
  have roots2 := roots1.poke notDir sysIndex kernel
  have roots3 := roots2.poke notDir pteMapIndex self
  have walked1 := roots1.walk_window isValid small (by
    simp [Machine.fillPage, notSys.symm, window])
  have walked2 := roots2.walk_window isValid small (by
    simp [Machine.poke, Machine.fillPage, notSys.symm, window])
  rw [fill, roots.walk_window isValid small window, Option.map_some, Option.bind_some, store,
    walked1, Option.map_some, Option.bind_some, store, walked2, Option.map_some,
    Option.bind_some, tmpPage, roots3.kremove_eq (by decide)]
  rfl

/-- A page directory that is not activated may be another page. -/
theorem Roots.named (roots : Roots valid m) {pmap : PmapId} (unused : valid pmap = false)
    (dir : ℕ) : Roots valid { m with dirs := Function.update m.dirs pmap dir } := by
  refine roots.of_mem ?_ rfl fun _ _ => rfl
  intro other isValid
  apply Function.update_of_ne
  rintro rfl
  rw [unused] at isValid
  cases isValid

/-- `pmap_create` with a frame for the page directory. -/
theorem Roots.create_eq (roots : Roots valid m) (isValid : valid m.cur = true) {pmap : PmapId}
    (unused : valid pmap = false) {dir : ℕ} {allocated : Machine}
    (isAllocated : m.allocPage = some (dir, allocated)) (small : dir < 2 ^ 20)
    (notDir : NotDir valid m dir) (notSys : dir ≠ m.sysTable) :
    m.create pmap = some (({ allocated with
      dirs := Function.update allocated.dirs pmap dir }.poke allocated.sysTable 1
        (kernelEntry dir true)).writeDir dir
      (entry m.sysTable (pagePresent ||| pageWritable ||| pageUser))
      (entry dir (pagePresent ||| pageWritable ||| pageUser))) := by
  have unwrapped := isAllocated
  rw [allocPage, Option.map_eq_some_iff] at unwrapped
  rcases unwrapped with ⟨⟨_, vmm⟩, _, pair⟩
  have isMachine : allocated = { m with vmm := vmm } := (congrArg Prod.snd pair).symm
  subst isMachine
  have rootsAllocated : Roots valid { m with vmm := vmm } :=
    roots.of_mem (fun _ _ => rfl) rfl fun _ _ => rfl
  have named := rootsAllocated.named unused dir
  have entered := named.poke named.notDir_sysTable 1 (kernelEntry dir true)
  have notDirEntered : NotDir valid ({ m with
      vmm := vmm, dirs := Function.update m.dirs pmap dir }.poke m.sysTable 1
      (kernelEntry dir true)) dir := by
    intro other otherValid
    have different : other ≠ pmap := by
      rintro rfl
      rw [unused] at otherValid
      cases otherValid
    change Function.update m.dirs pmap dir other ≠ dir
    rw [Function.update_of_ne different]
    exact notDir other otherValid
  have written := entered.writeDir_eq isValid small (by simp [Machine.poke]) notDirEntered notSys
    (entry m.sysTable (pagePresent ||| pageWritable ||| pageUser))
    (entry dir (pagePresent ||| pageWritable ||| pageUser))
  simp only [create, isAllocated, Option.bind_eq_bind, Option.bind_some]
  rw [show tmpPage = sysIndex * tableLen + 1 from rfl] at written ⊢
  rw [named.kenter_eq (by decide), Option.bind_some]
  exact written

end

end Machine

end Osix.Vm
