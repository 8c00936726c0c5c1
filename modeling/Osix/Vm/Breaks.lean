import Osix.Vm.Frames
import Osix.Vm.Progress

/-!
# The system call `brk`

What `proc_break` does to the address space of a process whose pages are those from
`USER_TEXT` to its break and the page of its stack, for every argument. Rounding up to a page
wraps around for the last arguments, the heap may run over the stack, and a heap beyond the
stack may need a new page table, which shows up in the window at `PTE_MAP`.
-/

namespace Osix.Vm

open Ownership

namespace Machine

/-- The frame that an address of the process is mapped to. -/
def translate (m : Machine) (p : ProcId) (vpage : ℕ) : Option ℕ :=
  (m.activate (.proc p)).walk vpage

/-- The user pages of a process are exactly those below its break and its stack. -/
structure Image (m : Machine) (p : ProcId) (brk : ℕ) : Prop where
  atLeast : userText ≤ brk
  mapped : ∀ v, (∃ frame, m.pageOf p v = some frame) ↔
    userText ≤ v ∧ v < brk ∨ v = userStack

/--
A process that makes the call: the page tables are sound, `SYS_VADDR_TMP` is not in use, and
the page directory has no other entries than those for user pages, the kernel and itself.
-/
structure Calling (view : View) (m : Machine) (p : ProcId) (brk : ℕ) : Prop where
  sound : Sound view m
  current : view.valid m.cur = true
  alive : view.alive p = true
  image : Image m p brk
  window : target (m.mem m.sysTable 1) = none
  noOther : ∀ pdIndex, sysIndex < pdIndex → pdIndex < pteMapIndex →
    target (m.mem (m.dirs (.proc p)) pdIndex) = none

/-- The larger of the argument and `USER_TEXT`, rounded up to a page. -/
def roundedBreak (brk : Word) : ℕ := (max brk.toNat (userText * 4096) + 4095) / 4096

/--
`proc_break` returns with an address space that is as before or again well formed, with the
same stack, the same mapping above `SYS_VADDR`, and only frames free that were mapped.
-/
def KeepsSpace (m : Machine) (p : ProcId) (old : ℕ) (brk : Word) : Prop :=
  ∃ m' new, m.procBreak (.proc p) old brk = some (m', new) ∧
    (m' = m ∧ new = old ∨ Image m' p new ∧ new = roundedBreak brk) ∧
    m'.pageOf p userStack = m.pageOf p userStack ∧
    (∀ v, userPages ≤ v → v < 2 ^ 20 → m'.translate p v = m.translate p v) ∧
    ∀ frame, m.vmm.Allocated frame → ¬m'.vmm.Allocated frame → ∃ v, m.pageOf p v = some frame

/--
The argument does not wrap around, the stack is not between the two breaks, the pages in
between have their page tables, and there are enough frames for them.
-/
structure Fits (m : Machine) (p : ProcId) (old : ℕ) (brk : Word) : Prop where
  noWrap : brk.toNat ≤ 0xfffff000
  stack : ¬(min old (roundedBreak brk) ≤ userStack ∧ userStack < max old (roundedBreak brk))
  tables : ∀ v, old ≤ v → v < roundedBreak brk → ∃ table, m.tableOf p (v / tableLen) = some table
  frames : roundedBreak brk - old ≤ m.vmm.freePages

theorem breakPage_eq {brk : Word} (noWrap : brk.toNat ≤ 0xfffff000) :
    breakPage brk = roundedBreak brk := by
  have isText : userText * 4096 = 1048576 := rfl
  rw [breakPage, roundedBreak, isText]
  split
  · rename_i below
    rw [Nat.max_eq_right (by omega)]
    rfl
  · rename_i atLeast
    rw [Nat.max_eq_left (by omega), BitVec.toNat_add, BitVec.toNat_ofNat]
    omega

theorem breakPage_wraps {brk : Word} (wraps : 0xfffff000 < brk.toNat) : breakPage brk = 0 := by
  have isWord := brk.isLt
  have isText : userText * 4096 = 1048576 := rfl
  rw [breakPage, isText, if_neg (by omega), BitVec.toNat_add, BitVec.toNat_ofNat]
  omega

section

variable {view : View} {m m' : Machine} {p : ProcId} {vpage page : ℕ}

/-! ## The part above `SYS_VADDR` -/

/-- The page directory is the same and so are the pages of the kernel. -/
structure Above (p : ProcId) (m m' : Machine) : Prop where
  dirs : m'.dirs = m.dirs
  sysTable : m'.sysTable = m.sysTable
  dir : m'.mem (m.dirs (.proc p)) = m.mem (m.dirs (.proc p))
  kernel : ∀ index, target (m'.mem m.sysTable index) = target (m.mem m.sysTable index)

theorem Above.refl (p : ProcId) (m : Machine) : Above p m m := ⟨rfl, rfl, rfl, fun _ => rfl⟩

theorem Above.trans {m'' : Machine} (first : Above p m m') (second : Above p m' m'') :
    Above p m m'' where
  dirs := second.dirs.trans first.dirs
  sysTable := second.sysTable.trans first.sysTable
  dir := by
    have later := second.dir
    rw [first.dirs] at later
    exact later.trans first.dir
  kernel index := by
    have later := second.kernel index
    rw [first.sysTable] at later
    exact later.trans (first.kernel index)

theorem above_onlyVmm (only : OnlyVmm m m') : Above p m m' where
  dirs := only.dirs
  sysTable := only.sysTable
  dir := by rw [only.mem]
  kernel index := by rw [only.mem]

theorem above_poke {index : ℕ} {word : Word} (notDir : m.dirs (.proc p) ≠ page)
    (notSys : m.sysTable ≠ page) : Above p m (m.poke page index word) where
  dirs := rfl
  sysTable := rfl
  dir := by simp [poke, notDir]
  kernel other := by simp [poke, notSys]

/-- The window at `SYS_VADDR_TMP` is closed again. -/
theorem above_fillTmp {word : Word} {words : ℕ → Word} (window : target (m.mem m.sysTable 1) = none)
    (notDir : m.dirs (.proc p) ≠ page) (notSys : m.sysTable ≠ page)
    (dirNotSys : m.dirs (.proc p) ≠ m.sysTable) :
    Above p m (((m.poke m.sysTable 1 word).fillPage page words).poke m.sysTable 1 0) where
  dirs := rfl
  sysTable := rfl
  dir := by simp [poke, fillPage, notDir, dirNotSys]
  kernel index := by
    rcases eq_or_ne index 1 with rfl | other
    · simp [poke, window]
    · simp [poke, fillPage, notSys, other]

theorem Above.tableOf (above : Above p m m') (pdIndex : ℕ) :
    m'.tableOf p pdIndex = m.tableOf p pdIndex := by
  simp only [Machine.tableOf, above.dirs, above.dir]

/-- Addresses above `SYS_VADDR` are mapped as before. -/
theorem Above.translate {brk : ℕ} (calling : Calling view m p brk) (above : Above p m m') {v : ℕ}
    (atLeast : userPages ≤ v) (inSpace : v < 2 ^ 20) : m'.translate p v = m.translate p v := by
  have valid : view.valid (.proc p) = true := calling.alive
  have low : sysIndex ≤ v / tableLen := by
    simp only [userPages, sysIndex, tableLen] at atLeast ⊢
    omega
  have high : v / tableLen ≤ pteMapIndex := by
    simp only [pteMapIndex, tableLen]
    omega
  simp only [Machine.translate, walk, activate, above.dirs, above.dir]
  rcases eq_or_ne (v / tableLen) sysIndex with isSys | notSys
  · rw [isSys, calling.sound.kernel (.proc p) valid, Option.bind_some, Option.bind_some,
      above.kernel]
  rcases eq_or_ne (v / tableLen) pteMapIndex with isSelf | notSelf
  · rw [isSelf, calling.sound.self (.proc p) valid, Option.bind_some, Option.bind_some, above.dir]
  · rw [calling.noOther _ (by omega) (by omega), Option.bind_none, Option.bind_none]

/-! ## The loops return -/

theorem dir_ne_sysTable (sound : Sound view m) (alive : view.alive p = true) :
    m.dirs (.proc p) ≠ m.sysTable :=
  ne_of_holders sound (holds_dir alive) (show m.holds view .sysTable = some m.sysTable from rfl)
    (by simp)

/-- A frame of a page table is not the page directory and not the table of the kernel. -/
theorem above_pokeTable (sound : Sound view m) (alive : view.alive p = true) {pdIndex table : ℕ}
    (isTable : m.tableOf p pdIndex = some table) (index : ℕ) (word : Word) :
    Above p m (m.poke table index word) := by
  have held : m.holds view (.table p pdIndex) = some table := holds_table.mpr ⟨alive, isTable⟩
  apply above_poke
  · exact not_dir_of_table sound alive isTable alive
  · exact ne_of_holders sound (show m.holds view .sysTable = some m.sysTable from rfl) held
      (by simp)

/-- One more page, if there are a frame for it and its page table. -/
theorem growOne_exists (sound : Sound view m) (valid : view.valid m.cur = true)
    (alive : view.alive p = true) (user : vpage < userPages)
    (window : target (m.mem m.sysTable 1) = none) {table : ℕ}
    (isTable : m.tableOf p (vpage / tableLen) = some table) (positive : 0 < m.vmm.freePages) :
    ∃ frame allocated zeroed entered, m.allocPage = some (frame, allocated) ∧
      allocated.zeroPage frame = some zeroed ∧
      zeroed.enter (.proc p) vpage frame true = some entered ∧ Above p m entered ∧
      entered.vmm.freePages + 1 = m.vmm.freePages := by
  rcases allocPage_exists positive with ⟨frame, allocated, isAllocated⟩
  rcases allocPage_spec sound isAllocated with ⟨soundAllocated, only, free, added⟩
  have isAdded : allocated.vmm.Allocated frame := (added frame).mpr (Or.inr rfl)
  have inRange := Vmm.lt_of_allocated isAdded
  have unheld : Unheld (allocated.holds view) frame := by
    rw [only.holds]
    exact unheld_of_free sound free
  have notSys : allocated.sysTable ≠ frame := fun same => unheld .sysTable (by rw [← same]; rfl)
  have notDir : allocated.dirs (.proc p) ≠ frame :=
    fun same => unheld (.dir p) (by rw [holds_dir alive, same])
  have validAllocated : view.valid allocated.cur = true := by rwa [only.cur]
  have notWalked := notWalked_of_unheld unheld
  have zeroed := fillTmp_eq soundAllocated validAllocated (lt_of_pageCount inRange) notWalked
    fun _ => 0
  have keeps := (fillTmp_spec soundAllocated validAllocated (lt_of_pageCount inRange) notWalked
    notSys.symm zeroed).1
  have soundZeroed := sound_keeps soundAllocated keeps
  have aboveAllocated : Above p m allocated := above_onlyVmm only
  have windowAllocated : target (allocated.mem allocated.sysTable 1) = none := by
    rw [aboveAllocated.sysTable, aboveAllocated.kernel, window]
  have aboveZeroed := aboveAllocated.trans (@above_fillTmp _ p _ (kernelEntry frame true)
    (fun _ => 0) windowAllocated notDir notSys (dir_ne_sysTable soundAllocated alive))
  have isTableZeroed := (aboveZeroed.tableOf (vpage / tableLen)).trans isTable
  refine ⟨frame, allocated, _, _, isAllocated, zeroed,
    enter_eq soundZeroed alive user isTableZeroed frame,
    aboveZeroed.trans (above_pokeTable soundZeroed alive isTableZeroed _ _), ?_⟩
  exact Vmm.freePages_of_added inRange free added

/-- The loop that increases the size, if there are the frames and the page tables. -/
theorem grow_exists (count : ℕ) {first : ℕ} (sound : Sound view m)
    (valid : view.valid m.cur = true) (alive : view.alive p = true)
    (mapped : MappedTo view m p first) (window : target (m.mem m.sysTable 1) = none)
    (tables : ∀ v, first ≤ v → v < first + count →
      ∃ table, m.tableOf p (v / tableLen) = some table)
    (enough : count ≤ m.vmm.freePages) :
    ∃ m', grow (.proc p) count first m = some m' ∧ Above p m m' := by
  induction count generalizing first m with
  | zero => exact ⟨m, rfl, .refl p m⟩
  | succ count ih =>
      have user := lt_userPages sound mapped
      rcases tables first le_rfl (by omega) with ⟨table, isTable⟩
      rcases growOne_exists sound valid alive user window isTable (by omega) with
        ⟨frame, allocated, zeroed, entered, isAllocated, isZeroed, isEntered, above, less⟩
      rcases growOne_spec sound valid alive user isAllocated isZeroed isEntered with
        ⟨soundOne, one⟩
      rcases ih soundOne (by rwa [one.cur]) (mappedTo_succ mapped one)
        (by rw [above.sysTable, above.kernel, window])
        (by
          intro v atLeast below
          rw [above.tableOf]
          exact tables v (by omega) (by omega))
        (by omega) with ⟨m', isGrown, aboveRest⟩
      refine ⟨m', ?_, above.trans aboveRest⟩
      simp only [grow, isAllocated, isZeroed, isEntered, Option.bind_eq_bind, Option.bind_some]
      exact isGrown

/-- The loop that decreases the size. -/
theorem shrink_exists (count : ℕ) {first : ℕ} (sound : Sound view m) (alive : view.alive p = true)
    (user : first + count ≤ userPages)
    (mapped : ∀ v, first ≤ v → v < first + count → ∃ frame, m.pageOf p v = some frame) :
    ∃ m', shrink (.proc p) count first m = some m' ∧ Above p m m' := by
  induction count generalizing first m with
  | zero => exact ⟨m, rfl, .refl p m⟩
  | succ count ih =>
      rcases mapped first le_rfl (by omega) with ⟨frame, isFrame⟩
      have held : m.holds view (.page p first) = some frame := holds_page.mpr ⟨alive, isFrame⟩
      have isTable := isFrame
      rw [pageOf, Option.bind_eq_some_iff] at isTable
      rcases isTable with ⟨table, isTable, _⟩
      have isRemoved := remove_eq sound alive (show first < userPages by omega) isTable
      rcases remove_spec sound alive (by omega) isRemoved with ⟨soundRemoved, holdsRemoved, vmm, _⟩
      have unheld : Unheld ((m.poke table (first % tableLen) 0).holds view) frame := by
        rw [holdsRemoved]
        exact sound.exclusive.unheld_take held
      rcases @freePage_exists (m.poke table (first % tableLen) 0) frame
        (sound.allocated _ _ held) with ⟨freed, isFreed⟩
      rcases freePage_spec soundRemoved unheld isFreed with ⟨soundFreed, only, _⟩
      have above := (above_pokeTable sound alive isTable (first % tableLen) 0).trans
        (above_onlyVmm only)
      have mappedRest : ∀ v, first + 1 ≤ v → v < first + 1 + count →
          ∃ frame, freed.pageOf p v = some frame := by
        intro v atLeast below
        rcases mapped v (by omega) (by omega) with ⟨other, isOther⟩
        have heldOther : freed.holds view (.page p v) = some other := by
          rw [only.holds, holdsRemoved, Function.update_of_ne (by simp; omega)]
          exact holds_page.mpr ⟨alive, isOther⟩
        exact ⟨other, (holds_page.mp heldOther).2⟩
      rcases ih soundFreed (by omega) mappedRest with ⟨m', isShrunk, aboveRest⟩
      refine ⟨m', ?_, above.trans aboveRest⟩
      simp only [shrink, extract_eq sound alive (show first < userPages by omega) isFrame,
        isRemoved, isFreed, Option.bind_eq_bind, Option.bind_some]
      exact isShrunk

/-! ## `brk` -/

theorem Image.heap {brk : ℕ} (image : Image m p brk) (alive : view.alive p = true) :
    Heap view m p brk where
  atLeast := image.atLeast
  mapped v atLeast below := by
    rcases (image.mapped v).mpr (Or.inl ⟨atLeast, below⟩) with ⟨frame, isFrame⟩
    exact ⟨frame, holds_page.mpr ⟨alive, isFrame⟩⟩
  only v frame held := (image.mapped v).mp ⟨frame, (holds_page.mp held).2⟩

theorem Heap.image {brk : ℕ} (heap : Heap view m p brk)
    (stack : ∃ frame, m.pageOf p userStack = some frame) (alive : view.alive p = true) :
    Image m p brk where
  atLeast := heap.atLeast
  mapped v := by
    constructor
    · rintro ⟨frame, isFrame⟩
      exact heap.only v frame (holds_page.mpr ⟨alive, isFrame⟩)
    · rintro (⟨atLeast, below⟩ | rfl)
      · rcases heap.mapped v atLeast below with ⟨frame, held⟩
        exact ⟨frame, (holds_page.mp held).2⟩
      · exact stack

theorem pageOf_congr {v : ℕ} (alive : view.alive p = true)
    (same : m'.holds view (.page p v) = m.holds view (.page p v)) :
    m'.pageOf p v = m.pageOf p v := by
  simpa [holds, alive] using same

/-- Enough frames were free for the pages that are new. -/
theorem Grown.le_freePages {first count : ℕ} (sound : Sound view m')
    (grown : Grown view p first count m m') : count ≤ m.vmm.freePages := by
  have isMapped : ∀ i : Fin count, ∃ frame, m'.holds view (.page p (first + i)) = some frame ∧
      ¬m.vmm.Allocated frame := by
    intro i
    exact grown.mapped (first + i) (by omega) (by omega)
  choose frame held free using isMapped
  have injective : Function.Injective frame := by
    intro i j same
    have heldI := held i
    rw [same] at heldI
    have sameHolder := sound.exclusive _ _ _ heldI (held j)
    simp only [Holder.page.injEq, Nat.add_left_cancel_iff, true_and] at sameHolder
    exact Fin.ext sameHolder
  have card := Finset.card_le_card_of_injOn (s := Finset.univ)
    (t := (Finset.range pageCount).filter fun page => ¬m.vmm.Allocated page) frame (by
      intro i _
      simp only [Finset.coe_filter, Finset.mem_range, Set.mem_ofPred_eq]
      exact ⟨lt_pageCount sound (held i), free i⟩) injective.injOn
  rwa [Finset.card_univ, Fintype.card_fin] at card

/-- The window at `PTE_MAP` shows the page tables. -/
theorem translate_pteMap (sound : Sound view m) (alive : view.alive p = true) {pdIndex : ℕ}
    (user : pdIndex < sysIndex) : m.translate p (pteMap pdIndex) = m.tableOf p pdIndex := by
  have inDir : pdIndex < tableLen := by
    simp only [sysIndex, tableLen] at user ⊢
    omega
  rw [translate, walk_pteMap_activate sound (.proc p) alive inDir, tableOf, if_pos user]

theorem fits_of_keepsSpace {old : ℕ} {brk : Word} (calling : Calling view m p old)
    (notZero : brk ≠ 0) (keeps : KeepsSpace m p old brk) : Fits m p old brk := by
  rcases keeps with ⟨m', new, result, _, sameStack, sameAbove, _⟩
  have alive := calling.alive
  rcases procBreak_spec calling.sound calling.current alive (calling.image.heap alive) result with
    ⟨sound', heap', broken⟩
  have isNew := procBreak_new notZero result
  have noWrap : brk.toNat ≤ 0xfffff000 := by
    by_contra wraps
    have atLeast := heap'.atLeast
    rw [isNew, breakPage_wraps (by omega)] at atLeast
    simp [userText] at atLeast
  rw [breakPage_eq noWrap] at isNew
  subst isNew
  rcases (calling.image.mapped userStack).mpr (Or.inr rfl) with ⟨stack, isStack⟩
  have heldStack : m.holds view (.page p userStack) = some stack :=
    holds_page.mpr ⟨alive, isStack⟩
  have heldStack' : m'.holds view (.page p userStack) = some stack :=
    holds_page.mpr ⟨alive, sameStack.trans isStack⟩
  cases broken with
  | same =>
      refine ⟨noWrap, ?_, ?_, ?_⟩
      · omega
      · intro v atLeast below
        omega
      · omega
  | grown larger grown =>
      refine ⟨noWrap, ?_, ?_, ?_⟩
      · rintro ⟨low, high⟩
        rcases grown.mapped userStack (by omega) (by omega) with ⟨frame, held, free⟩
        rw [heldStack', Option.some.injEq] at held
        rw [← held] at free
        exact free (calling.sound.allocated _ _ heldStack)
      · intro v atLeast below
        rcases grown.mapped v atLeast (by omega) with ⟨frame, held, _⟩
        have isPage := (holds_page.mp held).2
        rw [pageOf, Option.bind_eq_some_iff] at isPage
        rcases isPage with ⟨table, isTable, _⟩
        have user : v / tableLen < sysIndex := by
          by_contra notUser
          rw [tableOf, if_neg notUser] at isTable
          cases isTable
        refine ⟨table, ?_⟩
        rw [← translate_pteMap calling.sound alive user, ← sameAbove, translate_pteMap sound' alive
          user, isTable]
        · simp only [userPages, sysIndex, tableLen, pteMap, pteMapIndex]
          omega
        · simp only [sysIndex, tableLen, pteMap, pteMapIndex] at user ⊢
          omega
      · exact grown.le_freePages sound'
  | shrunk atLeast smaller shrunk =>
      refine ⟨noWrap, ?_, ?_, ?_⟩
      · rintro ⟨low, high⟩
        rw [shrunk.pages userStack (by omega) (by omega)] at heldStack'
        cases heldStack'
      · intro v atLeastV below
        omega
      · omega

theorem keepsSpace_of_fits {old : ℕ} {brk : Word} (calling : Calling view m p old)
    (notZero : brk ≠ 0) (fits : Fits m p old brk) : KeepsSpace m p old brk := by
  have alive := calling.alive
  have sound := calling.sound
  have heap : Heap view m p old := calling.image.heap alive
  have stack := (calling.image.mapped userStack).mpr (Or.inr rfl)
  have isNew := breakPage_eq fits.noWrap
  have notStack := fits.stack
  by_cases larger : old < roundedBreak brk
  · rcases grow_exists (roundedBreak brk - old) sound calling.current alive heap.mapped
      calling.window (fun v atLeast below => fits.tables v atLeast (by omega)) fits.frames with
      ⟨m', isGrown, above⟩
    rcases grow_spec _ sound calling.current alive heap.mapped isGrown with ⟨sound', grown⟩
    have sameStack : m'.pageOf p userStack = m.pageOf p userStack :=
      pageOf_congr alive (grown.pages userStack (by omega))
    refine ⟨m', roundedBreak brk, ?_, Or.inr ⟨?_, rfl⟩, sameStack, ?_, ?_⟩
    · rw [procBreak, if_neg notZero, isNew, if_pos larger, isGrown, Option.map_some]
    · exact (heap_grown heap larger grown).image (by rwa [sameStack]) alive
    · intro v atLeast inSpace
      exact above.translate calling atLeast inSpace
    · intro frame allocated freed
      exact absurd (grown.mono frame allocated) freed
  · have inUser := lt_userPages sound heap.mapped
    have atLeast : userText ≤ roundedBreak brk := by
      rw [roundedBreak]
      omega
    have isOld : roundedBreak brk + (old - roundedBreak brk) = old := by omega
    have mapped : ∀ v, roundedBreak brk ≤ v → v < roundedBreak brk + (old - roundedBreak brk) →
        ∃ frame, m.pageOf p v = some frame :=
      fun v low high => (calling.image.mapped v).mpr (Or.inl ⟨by omega, by omega⟩)
    rcases shrink_exists (old - roundedBreak brk) sound alive (by omega) mapped with
      ⟨m', isShrunk, above⟩
    rcases shrink_spec _ sound alive (by omega) (by
      intro v low high
      rcases mapped v low high with ⟨frame, isFrame⟩
      exact ⟨frame, holds_page.mpr ⟨alive, isFrame⟩⟩) isShrunk with ⟨sound', shrunk⟩
    have sameStack : m'.pageOf p userStack = m.pageOf p userStack :=
      pageOf_congr alive (shrunk_page shrunk (by omega))
    refine ⟨m', roundedBreak brk, ?_, Or.inr ⟨?_, rfl⟩, sameStack, ?_, ?_⟩
    · rw [procBreak, if_neg notZero, isNew, if_neg larger, isShrunk, Option.map_some]
    · exact (heap_shrunk heap atLeast (by omega) shrunk).image (by rwa [sameStack]) alive
    · intro v atLeast inSpace
      exact above.translate calling atLeast inSpace
    · intro frame allocated freed
      by_contra notMapped
      apply freed
      rw [shrunk.allocated frame]
      refine ⟨allocated, ?_⟩
      intro v _ _ held
      exact notMapped ⟨v, (holds_page.mp held).2⟩

/-- When `brk` keeps the address space well formed. -/
theorem brk_keeps_space {old : ℕ} (brk : Word) (calling : Calling view m p old)
    (notZero : brk ≠ 0) : KeepsSpace m p old brk ↔ Fits m p old brk :=
  ⟨fits_of_keepsSpace calling notZero, keepsSpace_of_fits calling notZero⟩

end

/-! ## A small machine -/

/-- The first process with nothing but its stack. -/
def smallView : View where
  alive p := decide (p = 0)
  pending _ := none

/--
Frames 1 and 2 are the page directory and the page table of the kernel, frames 3, 4 and 5 the
page directory, the page table and the stack of the process.
-/
def smallMachine : Machine where
  mem page index :=
    if page = 1 ∧ index = sysIndex then entry 2 3
    else if page = 1 ∧ index = pteMapIndex then entry 1 3
    else if page = 3 ∧ index = 0 then entry 4 7
    else if page = 3 ∧ index = sysIndex then entry 2 7
    else if page = 3 ∧ index = pteMapIndex then entry 3 7
    else if page = 4 ∧ index = userStack then entry 5 7
    else 0
  vmm := ⟨fun byte => if byte = 0 then 0x3f else 0, 0⟩
  cur := .proc 0
  dirs pmap := if pmap = .kernel then 1 else if pmap = .proc 0 then 3 else 0
  sysTable := 2

theorem tableOf_small {pdIndex : ℕ} :
    smallMachine.tableOf 0 pdIndex = if pdIndex = 0 then some 4 else none := by
  rw [tableOf]
  split
  · rename_i user
    have notSys : pdIndex ≠ sysIndex := by omega
    have notSelf : pdIndex ≠ pteMapIndex := by
      simp only [sysIndex, pteMapIndex] at user ⊢
      omega
    rcases eq_or_ne pdIndex 0 with rfl | other
    · decide
    · simp [smallMachine, notSys, notSelf, other]
  · rename_i notUser
    rw [if_neg]
    rintro rfl
    exact notUser (by decide)

theorem pageOf_small {vpage : ℕ} :
    smallMachine.pageOf 0 vpage = if vpage = userStack then some 5 else none := by
  rw [pageOf, tableOf_small]
  split
  · rename_i isFirst
    have small : vpage < tableLen := by
      rw [Nat.div_eq_zero_iff] at isFirst
      simpa [tableLen] using isFirst
    rw [Option.bind_some, Nat.mod_eq_of_lt small]
    rcases eq_or_ne vpage userStack with rfl | other
    · decide
    · simp [smallMachine, other]
  · rename_i notFirst
    rw [if_neg]
    · rfl
    · rintro rfl
      exact notFirst (by decide)

theorem holds_small {holder : Holder} {frame : ℕ}
    (held : smallMachine.holds smallView holder = some frame) :
    (holder, frame) ∈ [(.zero, 0), (.sysDir, 1), (.sysTable, 2), (.dir 0, 3), (.table 0 0, 4),
      (.page 0 userStack, 5)] := by
  have isFirst : ∀ p, smallView.alive p = true → p = 0 := by
    intro p alive
    simpa [smallView] using alive
  cases holder with
  | zero => simpa [holds] using held.symm
  | sysDir => simpa [holds, smallMachine] using held.symm
  | sysTable => simpa [holds, smallMachine] using held.symm
  | dir p =>
      rw [holds, Option.ite_none_right_eq_some] at held
      obtain rfl := isFirst p held.1
      simpa [smallMachine] using held.2.symm
  | table p pdIndex =>
      rw [holds_table] at held
      obtain rfl := isFirst p held.1
      rw [tableOf_small, Option.ite_none_right_eq_some] at held
      rcases held with ⟨_, rfl, isFrame⟩
      simpa using isFrame.symm
  | page p vpage =>
      rw [holds_page] at held
      obtain rfl := isFirst p held.1
      rw [pageOf_small, Option.ite_none_right_eq_some] at held
      rcases held with ⟨_, rfl, isFrame⟩
      simpa using isFrame.symm
  | pending p => cases held

theorem sound_small : Sound smallView smallMachine where
  exclusive a b frame heldA heldB := by
    have isA := holds_small heldA
    have isB := holds_small heldB
    simp only [List.mem_cons, Prod.mk.injEq, List.not_mem_nil, or_false] at isA isB
    grind
  allocated holder frame held := by
    have isHolder := holds_small held
    simp only [List.mem_cons, Prod.mk.injEq, List.not_mem_nil, or_false] at isHolder
    rcases isHolder with ⟨-, rfl⟩ | ⟨-, rfl⟩ | ⟨-, rfl⟩ | ⟨-, rfl⟩ | ⟨-, rfl⟩ | ⟨-, rfl⟩ <;> decide
  kernel pmap valid := by
    cases pmap with
    | kernel => decide
    | proc p =>
        have isFirst : p = 0 := by simpa [View.valid, smallView] using valid
        subst isFirst
        decide
  self pmap valid := by
    cases pmap with
    | kernel => decide
    | proc p =>
        have isFirst : p = 0 := by simpa [View.valid, smallView] using valid
        subst isFirst
        decide

theorem calling_small : Calling smallView smallMachine 0 userText where
  sound := sound_small
  current := rfl
  alive := rfl
  image := by
    refine ⟨le_rfl, ?_⟩
    intro v
    rw [pageOf_small]
    constructor
    · rintro ⟨frame, isFrame⟩
      rw [Option.ite_none_right_eq_some] at isFrame
      exact Or.inr isFrame.1
    · rintro (⟨atLeast, below⟩ | isStack)
      · omega
      · exact ⟨5, by rw [if_pos isStack]⟩
  window := by decide
  noOther pdIndex low high := by
    have notZero : pdIndex ≠ 0 := by omega
    simp [smallMachine, notZero, low.ne', high.ne]

/-- Three pages more. -/
theorem brk_keeps_space_grown : KeepsSpace smallMachine 0 userText 0x103000 := by
  apply (brk_keeps_space 0x103000 calling_small (by decide)).mpr
  refine ⟨by decide, by decide, ?_, ?_⟩
  · intro v _ below
    have isFirst : v / tableLen = 0 := by
      have isBelow : v < 0x103 := below
      simp only [tableLen]
      omega
    exact ⟨4, by rw [isFirst, tableOf_small, if_pos rfl]⟩
  · have isSubset : ({6, 7, 8} : Finset ℕ) ⊆
        (Finset.range pageCount).filter fun page => ¬smallMachine.vmm.Allocated page := by
      intro page isIn
      simp only [Finset.mem_insert, Finset.mem_singleton] at isIn
      rcases isIn with rfl | rfl | rfl <;>
        exact Finset.mem_filter.mpr ⟨Finset.mem_range.mpr (by decide), by decide⟩
    have isThree : roundedBreak 0x103000 - userText = ({6, 7, 8} : Finset ℕ).card := by decide
    rw [isThree]
    exact Finset.card_le_card isSubset

/-- The last address wraps around to 0: a frame is freed that was not mapped. -/
theorem brk_wraps_around :
    ¬∀ (view : View) (m : Machine) (p : ProcId) (old : ℕ) (brk : Word),
      Calling view m p old → brk ≠ 0 → KeepsSpace m p old brk := by
  intro always
  have keeps := always smallView smallMachine 0 userText 0xffffffff calling_small (by decide)
  have noWrap := (fits_of_keepsSpace calling_small (by decide) keeps).noWrap
  revert noWrap
  decide

end Machine

end Osix.Vm
