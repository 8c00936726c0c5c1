import Osix.Vm.Breaks

/-!
# The memory of a child

What `fork` leaves in physical memory. Pages are copied through two windows of the kernel while
the page tables of the child are made, so every step comes with a frame rule (`Spares`): it writes
only to new frames, to the page table of the kernel, and to the directory and tables of the child.
-/

namespace Osix.Vm

open Ownership

namespace Machine

/-- A frame in use that is not for the translation of kernel addresses or of those of `p`. -/
structure Spared (view : View) (m : Machine) (p : ProcId) (frame : ℕ) : Prop where
  allocated : m.vmm.Allocated frame
  notSys : frame ≠ m.sysTable
  notDir : m.holds view (.dir p) ≠ some frame
  notTable : ∀ pdIndex, m.holds view (.table p pdIndex) ≠ some frame

/-- A step for the memory of `p` leaves the spared frames alone, with their contents. -/
structure Spares (view : View) (p : ProcId) (m m' : Machine) : Prop where
  sysTable : m'.sysTable = m.sysTable
  spared : ∀ frame, Spared view m p frame → Spared view m' p frame
  mem : ∀ frame, Spared view m p frame → m'.mem frame = m.mem frame

section

variable {view : View} {m m' : Machine} {p : ProcId} {vpage page : ℕ}

theorem Spares.trans {m'' : Machine} (first : Spares view p m m') (second : Spares view p m' m'') :
    Spares view p m m'' where
  sysTable := second.sysTable.trans first.sysTable
  spared frame isSpared := second.spared frame (first.spared frame isSpared)
  mem frame isSpared :=
    (second.mem frame (first.spared frame isSpared)).trans (first.mem frame isSpared)

theorem Spares.refl (view : View) (p : ProcId) (m : Machine) : Spares view p m m :=
  ⟨rfl, fun _ isSpared => isSpared, fun _ _ => rfl⟩

/-- The page of another holder is spared. -/
theorem spared_of_holds (sound : Sound view m) {holder : Holder}
    (held : m.holds view holder = some page) (notSys : holder ≠ .sysTable)
    (notDir : holder ≠ .dir p) (notTable : ∀ pdIndex, holder ≠ .table p pdIndex) :
    Spared view m p page where
  allocated := sound.allocated holder page held
  notSys := ne_of_holders sound held (b := .sysTable) rfl notSys
  notDir isDir := notDir (sound.exclusive _ _ _ held isDir)
  notTable pdIndex isTable := notTable pdIndex (sound.exclusive _ _ _ held isTable)

theorem spared_of_page (sound : Sound view m) {q : ProcId}
    (held : m.holds view (.page q vpage) = some page) : Spared view m p page :=
  spared_of_holds sound held (by simp) (by simp) (by simp)

/-! ## New frames -/

/-- A frame that is allocated and then filled through the window. -/
theorem spares_newPage (sound : Sound view m) (valid : view.valid m.cur = true) {words : ℕ → Word}
    {allocated : Machine} (isAllocated : m.allocPage = some (page, allocated))
    (filled : allocated.fillTmp page words = some m') : Spares view p m m' := by
  rcases allocPage_spec sound isAllocated with ⟨soundAllocated, only, free, added⟩
  have isAdded : allocated.vmm.Allocated page := (added page).mpr (Or.inr rfl)
  have unheld : Unheld (allocated.holds view) page := by
    rw [only.holds]
    exact unheld_of_free sound free
  have validAllocated : view.valid allocated.cur = true := by rwa [only.cur]
  have keeps := fillTmp_keeps soundAllocated validAllocated isAdded unheld filled
  have isFilled := fillTmp_eq soundAllocated validAllocated
    (lt_of_pageCount (Vmm.lt_of_allocated isAdded)) (notWalked_of_unheld unheld) words
  rw [filled, Option.some.injEq] at isFilled
  refine ⟨keeps.sysTable.trans only.sysTable, fun frame isSpared => ?_, fun frame isSpared => ?_⟩
  · refine ⟨?_, ?_, ?_, ?_⟩
    · rw [keeps.vmm]
      exact (added frame).mpr (Or.inl isSpared.allocated)
    · rw [keeps.sysTable, only.sysTable]
      exact isSpared.notSys
    · rw [keeps.holds, only.holds]
      exact isSpared.notDir
    · rw [keeps.holds, only.holds]
      exact isSpared.notTable
  · have notPage : frame ≠ page := by
      rintro rfl
      exact free isSpared.allocated
    have notSys : frame ≠ allocated.sysTable := by
      rw [only.sysTable]
      exact isSpared.notSys
    rw [isFilled]
    simp [poke, fillPage, notPage, notSys, only.mem]

/-- `vmm_alloc_page` alone writes to no frame. -/
theorem spares_allocPage (sound : Sound view m) (result : m.allocPage = some (page, m')) :
    Spares view p m m' := by
  rcases allocPage_spec sound result with ⟨_, only, _, added⟩
  refine ⟨only.sysTable, fun frame isSpared => ⟨?_, ?_, ?_, ?_⟩, fun _ _ => by rw [only.mem]⟩
  · exact (added frame).mpr (Or.inl isSpared.allocated)
  · rw [only.sysTable]
    exact isSpared.notSys
  · rw [only.holds]
    exact isSpared.notDir
  · rw [only.holds]
    exact isSpared.notTable

/-! ## `pmap_enter` -/

theorem ne_of_table (alive : view.alive p = true) {pdIndex table frame : ℕ}
    (isTable : m.tableOf p pdIndex = some table) (isSpared : Spared view m p frame) :
    frame ≠ table := by
  rintro rfl
  exact isSpared.notTable pdIndex (holds_table.mpr ⟨alive, isTable⟩)

/-- A new page table is empty, and its entry goes into the directory. -/
theorem mem_newTable (sound : Sound view m) (alive : view.alive p = true) {pdIndex : ℕ}
    (isCur : m.cur = .proc p) (made : newTable zeroPage m pdIndex = some m') {frame : ℕ}
    (isSpared : Spared view m p frame) : m'.mem frame = m.mem frame := by
  simp only [newTable, Option.bind_eq_bind, Option.bind_eq_some_iff] at made
  rcases made with ⟨⟨table, allocated⟩, isAllocated, zeroed, isZeroed, stored⟩
  have valid : view.valid m.cur = true := by rwa [isCur]
  have spares := spares_newPage (p := p) sound valid isAllocated isZeroed
  rcases allocPage_spec sound isAllocated with ⟨soundAllocated, only, free, added⟩
  have isAdded : allocated.vmm.Allocated table := (added table).mpr (Or.inr rfl)
  have unheld : Unheld (allocated.holds view) table := by
    rw [only.holds]
    exact unheld_of_free sound free
  have validAllocated : view.valid allocated.cur = true := by rwa [only.cur]
  have keeps := fillTmp_keeps soundAllocated validAllocated isAdded unheld isZeroed
  have soundZeroed := sound_keeps soundAllocated keeps
  have curZeroed : zeroed.cur = .proc p := by rw [keeps.cur, only.cur, isCur]
  rw [store, walk_pgDir soundZeroed (by rw [curZeroed]; exact alive), curZeroed, Option.map_some,
    Option.some.injEq] at stored
  have notDir : frame ≠ zeroed.dirs (.proc p) := by
    intro same
    apply (spares.spared frame isSpared).notDir
    rw [holds_dir alive, same]
  rw [← stored]
  exact (by simp [poke, notDir] : _ = zeroed.mem frame).trans (spares.mem frame isSpared)

theorem mem_enter (sound : Sound view m) (alive : view.alive p = true) (user : vpage < userPages)
    (entered : m.enter (.proc p) vpage page true = some m') {frame : ℕ}
    (isSpared : Spared view m p frame) : m'.mem frame = m.mem frame := by
  cases isTable : m.tableOf p (vpage / tableLen) with
  | some table =>
      rw [enter_eq sound alive user isTable, Option.some.injEq] at entered
      subst entered
      simp [poke, ne_of_table alive isTable isSpared]
  | none =>
      have there := sound_activate sound (.proc p)
      have absent := isTable
      rw [tableOf_eq user, target_eq_none] at absent
      simp only [enter, enterUsing, load_pgDir_activate sound (.proc p) alive,
        Option.bind_eq_bind, Option.bind_some, if_pos absent, Option.bind_eq_some_iff,
        Option.pure_def, Option.some.injEq] at entered
      rcases entered with ⟨withTable, isWith, raw, isRaw, rfl⟩
      rcases newTable_spec there alive (dir_of_proc user) rfl isTable isWith with
        ⟨soundWith, table, free, isNew, _, _, cur, _⟩
      have sparedNow : Spared view (m.activate (.proc p)) p frame :=
        ⟨isSpared.1, isSpared.2, isSpared.3, isSpared.4⟩
      have same := mem_newTable there alive rfl isWith sparedNow
      have isThere : withTable = withTable.activate (.proc p) := by
        change withTable = { withTable with cur := .proc p }
        rw [← show withTable.cur = .proc p from cur]
      rw [enterRaw, isThere] at isRaw
      rcases store_pteMap soundWith alive user isRaw with ⟨other, isOther, rfl⟩
      rw [isNew, Option.some.injEq] at isOther
      subst isOther
      have notTable : frame ≠ table := by
        rintro rfl
        exact free isSpared.allocated
      exact (by simp [poke, activate, notTable] : _ = withTable.mem frame).trans same

theorem spares_enter (sound : Sound view m) (alive : view.alive p = true)
    (user : vpage < userPages) (allocated : m.vmm.Allocated page)
    (unheld : Unheld (m.holds view) page)
    (entered : m.enter (.proc p) vpage page true = some m') : Spares view p m m' := by
  rcases enter_spec sound alive user allocated unheld entered with ⟨_, table, isEntered⟩
  have sysTable : m'.sysTable = m.sysTable := by
    have atSys := congrFun isEntered.holds .sysTable
    rw [Function.update_of_ne (by simp), Function.update_of_ne (by simp)] at atSys
    exact Option.some.inj atSys
  refine ⟨sysTable, fun frame isSpared => ⟨?_, ?_, ?_, ?_⟩, fun frame isSpared =>
    mem_enter sound alive user entered isSpared⟩
  · exact (isEntered.allocated frame).mpr (Or.inl isSpared.allocated)
  · rw [sysTable]
    exact isSpared.notSys
  · rw [isEntered.holds, Function.update_of_ne (by simp), Function.update_of_ne (by simp)]
    exact isSpared.notDir
  · intro pdIndex
    rw [isEntered.holds, Function.update_of_ne (by simp)]
    rcases eq_or_ne pdIndex (vpage / tableLen) with rfl | other
    · rw [Function.update_self]
      rintro isTable
      cases isTable
      rcases isEntered.table with isOld | isNew
      · exact isSpared.notTable _ isOld
      · exact isNew.2 isSpared.allocated
    · rw [Function.update_of_ne (by simpa using other)]
      exact isSpared.notTable pdIndex

/-! ## `proc_break` -/

theorem spares_grow (count : ℕ) {first : ℕ} (sound : Sound view m)
    (valid : view.valid m.cur = true) (alive : view.alive p = true)
    (mapped : MappedTo view m p first)
    (grown : grow (.proc p) count first m = some m') : Spares view p m m' := by
  induction count generalizing first m with
  | zero =>
      cases grown
      exact Spares.refl _ _ _
  | succ count ih =>
      simp only [grow, Option.bind_eq_bind, Option.bind_eq_some_iff] at grown
      rcases grown with ⟨⟨frame, allocated⟩, isAllocated, zeroed, isZeroed, entered, isEntered,
        rest⟩
      have user := lt_userPages sound mapped
      rcases growOne_spec sound valid alive user isAllocated isZeroed isEntered with
        ⟨soundEntered, one⟩
      rcases allocPage_spec sound isAllocated with ⟨soundAllocated, only, free, added⟩
      have isAdded : allocated.vmm.Allocated frame := (added frame).mpr (Or.inr rfl)
      have unheld : Unheld (allocated.holds view) frame := by
        rw [only.holds]
        exact unheld_of_free sound free
      have keeps := fillTmp_keeps soundAllocated (by rwa [only.cur]) isAdded unheld isZeroed
      have first := spares_newPage (p := p) sound valid isAllocated isZeroed
      have second := spares_enter (sound_keeps soundAllocated keeps) alive user
        (by rwa [keeps.vmm]) (by rwa [keeps.holds]) isEntered
      exact (first.trans second).trans
        (ih soundEntered (by rwa [one.cur]) (mappedTo_succ mapped one) rest)

/-! ## `pmap_create` -/

/-- A new page directory changes no frame that was in use, the window apart. -/
theorem mem_create (sound : Sound view m) (valid : view.valid m.cur = true)
    (dead : view.alive p = false) (created : m.create (.proc p) = some m') :
    m'.sysTable = m.sysTable ∧ ∀ frame, m.vmm.Allocated frame → frame ≠ m.sysTable →
      m'.mem frame = m.mem frame := by
  rcases created_of_create sound valid dead created with
    ⟨dir, allocated, isAllocated, keeps, isWritten⟩
  rcases allocPage_spec sound isAllocated with ⟨_, only, fresh, _⟩
  refine ⟨keeps.sysTable.trans only.sysTable, fun frame inUse notSys => ?_⟩
  have notDir : frame ≠ dir := by
    rintro rfl
    exact fresh inUse
  rw [← only.sysTable] at notSys
  rw [isWritten]
  simp [writeDir, poke, fillPage, notSys, notDir, only.mem]

/-! ## `copy_page` -/

/-- A page of memory is copied through the two windows. -/
theorem copyPage_eq (sound : Sound view m) (valid : view.valid m.cur = true) {src dst : ℕ}
    (smallSrc : src < 2 ^ 20) (smallDst : dst < 2 ^ 20) (notWalked : NotWalked view m dst) :
    m.copyPage src dst = some ((((m.openWindows src dst).fillPage dst
      ((m.openWindows src dst).mem src)).poke m.sysTable 1 0).poke m.sysTable 2 0) :=
  sound.roots.copyPage_eq valid smallSrc smallDst (notDir_of_notWalked notWalked)

theorem mem_copyPage (sound : Sound view m) (valid : view.valid m.cur = true) {src dst : ℕ}
    (smallSrc : src < 2 ^ 20) (smallDst : dst < 2 ^ 20) (notWalked : NotWalked view m dst)
    (srcNotSys : src ≠ m.sysTable) (dstNotSys : dst ≠ m.sysTable)
    (copied : m.copyPage src dst = some m') :
    m'.mem dst = m.mem src ∧
      ∀ frame, frame ≠ m.sysTable → frame ≠ dst → m'.mem frame = m.mem frame := by
  rw [copyPage_eq sound valid smallSrc smallDst notWalked, Option.some.injEq] at copied
  subst copied
  constructor
  · simp [openWindows, poke, fillPage, srcNotSys, dstNotSys]
  · intro frame notSys notDst
    simp [openWindows, poke, fillPage, notSys, notDst]

/-- So many pages of `src` have been copied to the same pages of `dst`. -/
structure CopiedTo (view : View) (src dst : ProcId) (first count : ℕ) (m m' : Machine) :
    Prop where
  keeps : Keeps view m m'
  copied : ∀ v, first ≤ v → v < first + count → ∀ source dest,
    m.holds view (.page src v) = some source → m.holds view (.page dst v) = some dest →
      m'.mem dest = m.mem source
  rest : ∀ frame, frame ≠ m.sysTable →
    (∀ v, first ≤ v → v < first + count → m.holds view (.page dst v) ≠ some frame) →
      m'.mem frame = m.mem frame

theorem copiedTo_refl (view : View) (src dst : ProcId) (first : ℕ) (m : Machine) :
    CopiedTo view src dst first 0 m m where
  keeps := ⟨rfl, rfl, fun _ _ => rfl, rfl, fun _ _ _ _ => rfl⟩
  copied _ atLeast below := absurd below (Nat.not_lt.mpr atLeast)
  rest _ _ _ := rfl

theorem copiedTo_copyUser (sound : Sound view m) (valid : view.valid m.cur = true)
    {src dst : ProcId} (aliveSrc : view.alive src = true) (aliveDst : view.alive dst = true)
    {source dest : ℕ} (isSource : m.holds view (.page src vpage) = some source)
    (isDest : m.holds view (.page dst vpage) = some dest)
    (copied : m.copyUser (.proc src) (.proc dst) vpage = some m') :
    CopiedTo view src dst vpage 1 m m' := by
  have keeps := copyUser_keeps sound valid aliveDst isDest copied
  simp only [copyUser] at copied
  split at copied
  · cases copied
  rename_i user
  simp only [Option.bind_eq_bind, Option.bind_eq_some_iff] at copied
  rcases copied with ⟨foundSource, isFoundSource, foundDest, isFoundDest, copied⟩
  have sameSource := extract_spec sound aliveSrc (by omega) isFoundSource
  have sameDest := extract_spec sound aliveDst (by omega) isFoundDest
  rw [isSource, Option.getD_some] at sameSource
  rw [isDest, Option.getD_some] at sameDest
  subst sameSource sameDest
  rcases mem_copyPage sound valid (lt_of_pageCount (lt_pageCount sound isSource))
    (lt_of_pageCount (lt_pageCount sound isDest)) (notWalked_of_holds sound isDest rfl)
    (ne_of_holders sound isSource (b := .sysTable) rfl (by simp))
    (ne_of_holders sound isDest (b := .sysTable) rfl (by simp)) copied with ⟨same, rest⟩
  refine ⟨keeps, ?_, ?_⟩
  · intro v atLeast below otherSource otherDest isOtherSource isOtherDest
    obtain rfl : v = vpage := by omega
    rw [isSource, Option.some.injEq] at isOtherSource
    rw [isDest, Option.some.injEq] at isOtherDest
    subst isOtherSource isOtherDest
    exact same
  · intro frame notSys notDest
    refine rest frame notSys ?_
    rintro rfl
    exact notDest vpage le_rfl (Nat.lt_succ_self _) isDest

theorem CopiedTo.trans {src dst : ProcId} {first count : ℕ} {middle : Machine}
    (sound : Sound view m) (different : src ≠ dst) (one : CopiedTo view src dst first 1 m middle)
    (rest : CopiedTo view src dst (first + 1) count middle m') :
    CopiedTo view src dst first (count + 1) m m' where
  keeps := one.keeps.trans rest.keeps
  copied v atLeast below source dest isSource isDest := by
    have sourceNotSys : source ≠ m.sysTable :=
      ne_of_holders sound isSource (b := .sysTable) rfl (by simp)
    have destNotSys : dest ≠ m.sysTable :=
      ne_of_holders sound isDest (b := .sysTable) rfl (by simp)
    rcases eq_or_ne v first with rfl | later
    · refine (rest.rest dest ?_ ?_).trans
        (one.copied v le_rfl (Nat.lt_succ_self _) source dest isSource isDest)
      · rw [one.keeps.sysTable]
        exact destNotSys
      · intro other after _ isOther
        rw [one.keeps.holds] at isOther
        have same := sound.exclusive _ _ _ isDest isOther
        simp only [Holder.page.injEq, true_and] at same
        omega
    · refine (rest.copied v (by omega) (by omega) source dest ?_ ?_).trans (one.rest source
        sourceNotSys ?_)
      · rw [one.keeps.holds]
        exact isSource
      · rw [one.keeps.holds]
        exact isDest
      · intro other _ _ isOther
        have same := sound.exclusive _ _ _ isSource isOther
        simp only [Holder.page.injEq] at same
        exact different same.1
  rest frame notSys notDest := by
    refine (rest.rest frame ?_ ?_).trans (one.rest frame notSys fun v atLeast below =>
      notDest v atLeast (by omega))
    · rw [one.keeps.sysTable]
      exact notSys
    · intro v atLeast below
      rw [one.keeps.holds]
      exact notDest v (by omega) (by omega)

/-- The loop of `fork` over the pages below the break. -/
theorem copiedTo_copyUsers (count : ℕ) {first : ℕ} (sound : Sound view m)
    (valid : view.valid m.cur = true) {src dst : ProcId} (different : src ≠ dst)
    (aliveSrc : view.alive src = true) (aliveDst : view.alive dst = true)
    (mappedSrc : ∀ v, first ≤ v → v < first + count →
      ∃ source, m.holds view (.page src v) = some source)
    (mappedDst : ∀ v, first ≤ v → v < first + count →
      ∃ dest, m.holds view (.page dst v) = some dest)
    (copied : copyUsers (.proc src) (.proc dst) count first m = some m') :
    CopiedTo view src dst first count m m' := by
  induction count generalizing first m with
  | zero =>
      cases copied
      exact copiedTo_refl view src dst first _
  | succ count ih =>
      rw [copyUsers, Option.bind_eq_some_iff] at copied
      rcases copied with ⟨middle, isCopied, rest⟩
      rcases mappedSrc first le_rfl (by omega) with ⟨source, isSource⟩
      rcases mappedDst first le_rfl (by omega) with ⟨dest, isDest⟩
      have one := copiedTo_copyUser sound valid aliveSrc aliveDst isSource isDest isCopied
      have later := ih (sound_keeps sound one.keeps) (by rwa [one.keeps.cur])
        (fun v atLeast below => by
          rw [one.keeps.holds]
          exact mappedSrc v (by omega) (by omega))
        (fun v atLeast below => by
          rw [one.keeps.holds]
          exact mappedDst v (by omega) (by omega)) rest
      exact one.trans sound different later

/-! ## `fork` -/

/-- The user pages of a process as its page directory translates them. -/
theorem translate_eq (user : vpage < userPages) : m.translate p vpage = m.pageOf p vpage := by
  rw [pageOf, tableOf_eq user]
  rfl

/--
The child has a copy of every user page of the parent in a frame of its own and no other user
page, and the parent has its pages as before.
-/
structure Forked (parent child : ProcId) (m m' : Machine) : Prop where
  copied : ∀ v < userPages, ∀ frame, m.translate parent v = some frame →
    ∃ copy, m'.translate child v = some copy ∧ copy ≠ frame ∧ m'.mem copy = m.mem frame
  only : ∀ v < userPages, ∀ copy, m'.translate child v = some copy →
    ∃ frame, m.translate parent v = some frame
  mappings : ∀ v < userPages, m'.translate parent v = m.translate parent v
  memory : ∀ v < userPages, ∀ frame, m.translate parent v = some frame →
    m'.mem frame = m.mem frame

theorem breakPage_page {brk : ℕ} (atLeast : userText ≤ brk) (below : brk ≤ userStack) :
    BitVec.ofNat 32 (brk * 4096) ≠ 0 ∧ breakPage (BitVec.ofNat 32 (brk * 4096)) = brk := by
  simp only [userText, userStack] at atLeast below
  have isNat : (BitVec.ofNat 32 (brk * 4096)).toNat = brk * 4096 := by
    rw [BitVec.toNat_ofNat, Nat.mod_eq_of_lt (by omega)]
  refine ⟨?_, ?_⟩
  · intro isZero
    rw [isZero] at isNat
    have zero : (0 : Word).toNat = 0 := rfl
    omega
  · rw [breakPage_eq (by rw [isNat]; omega), roundedBreak, isNat, userText]
    omega

/-- The break of the child is moved from `USER_TEXT` to that of the parent. -/
theorem procBreak_child (sound : Sound view m) (valid : view.valid m.cur = true)
    (alive : view.alive p = true) {brk new : ℕ} (atLeast : userText ≤ brk) (below : brk ≤ userStack)
    (result : m.procBreak (.proc p) userText (BitVec.ofNat 32 (brk * 4096)) = some (m', new)) :
    new = brk ∧ Sound view m' ∧ Spares view p m m' ∧
      Grown view p userText (brk - userText) m m' := by
  rcases breakPage_page atLeast below with ⟨notZero, isPage⟩
  simp only [procBreak, if_neg notZero, isPage] at result
  have mapped : MappedTo view m p userText := fun v low high => absurd high (Nat.not_lt.mpr low)
  split at result
  · rw [Option.map_eq_some_iff] at result
    rcases result with ⟨grown, isGrown, pair⟩
    cases pair
    rcases grow_spec _ sound valid alive mapped isGrown with ⟨soundGrown, hasGrown⟩
    exact ⟨rfl, soundGrown, spares_grow _ sound valid alive mapped isGrown, hasGrown⟩
  · obtain rfl : brk = userText := by omega
    rw [Nat.sub_self] at result ⊢
    cases result
    exact ⟨rfl, sound, Spares.refl _ _ _, Grown.refl _ _ _ _⟩

/-- The new stack of the child, with the directory and the table that it needs. -/
theorem forked_stack (sound : Sound view m) (valid : view.valid m.cur = true) {child : ProcId}
    (dead : view.alive child = false) {created allocated entered : Machine} {ustack : ℕ}
    (isCreated : m.create (.proc child) = some created)
    (isAllocated : created.allocPage = some (ustack, allocated))
    (isEntered : allocated.enter (.proc child) userStack ustack true = some entered) :
    Sound (view.setAlive child true) entered ∧ entered.cur = m.cur ∧
      entered.holds (view.setAlive child true) (.page child userStack) = some ustack ∧
      (∀ v, v ≠ userStack → entered.holds (view.setAlive child true) (.page child v) = none) ∧
      ∀ q v, q ≠ child → entered.holds (view.setAlive child true) (.page q v) =
        m.holds view (.page q v) ∧
        ∀ frame, m.holds view (.page q v) = some frame → entered.mem frame = m.mem frame := by
  have alive : (view.setAlive child true).alive child = true := by simp [View.setAlive]
  rcases create_spec sound valid dead isCreated with ⟨soundCreated, dir, free, _, holds, cur, _⟩
  rcases mem_create sound valid dead isCreated with ⟨sysTable, mem⟩
  rcases allocPage_spec soundCreated isAllocated with ⟨soundAllocated, only, freeStack, added⟩
  have unheld : Unheld (allocated.holds (view.setAlive child true)) ustack := by
    rw [only.holds]
    exact unheld_of_free soundCreated freeStack
  have user : userStack < userPages := by decide
  have isAdded := (added ustack).mpr (Or.inr rfl)
  rcases enter_spec soundAllocated alive user isAdded unheld isEntered with
    ⟨soundEntered, table, there⟩
  have spares := (spares_allocPage (p := child) soundCreated isAllocated).trans
    (spares_enter soundAllocated alive user isAdded unheld isEntered)
  refine ⟨soundEntered, ?_, ?_, ?_, ?_⟩
  · rw [there.cur, only.cur, cur]
  · rw [there.holds, Function.update_self]
  · intro v other
    rw [there.holds, Function.update_of_ne (by simpa using other), Function.update_of_ne (by simp),
      only.holds, holds, Function.update_of_ne (by simp)]
    simp [Machine.holds, dead]
  · intro q v other
    have sameCreated : created.holds (view.setAlive child true) (.page q v) =
        m.holds view (.page q v) := by
      rw [holds, Function.update_of_ne (by simp)]
    refine ⟨?_, fun frame held => ?_⟩
    · rw [there.holds, Function.update_of_ne (by simp [other]), Function.update_of_ne (by simp),
        only.holds, sameCreated]
    · rw [spares.mem frame (spared_of_page soundCreated (sameCreated.trans held))]
      exact mem frame (sound.allocated _ _ held)
        (ne_of_holders sound held (b := .sysTable) rfl (by simp))

/-- The child before the loop that copies: all its pages are there, and the stack is a copy. -/
structure Prepared (view : View) (parent child : ProcId) (brk : ℕ) (m grown : Machine) :
    Prop where
  sound : Sound (view.setAlive child true) grown
  cur : grown.cur = m.cur
  parentPages : ∀ v, grown.holds (view.setAlive child true) (.page parent v) =
    m.holds view (.page parent v)
  parentMem : ∀ v frame, m.holds view (.page parent v) = some frame →
    grown.mem frame = m.mem frame
  mapped : ∀ v, (∃ frame, grown.holds (view.setAlive child true) (.page child v) = some frame) ↔
    userText ≤ v ∧ v < brk ∨ v = userStack
  stack : ∀ stack ustack, m.holds view (.page parent userStack) = some stack →
    grown.holds (view.setAlive child true) (.page child userStack) = some ustack →
      grown.mem ustack = m.mem stack

theorem prepared_grown (sound : Sound view m) (valid : view.valid m.cur = true)
    {parent child : ProcId} (alive : view.alive parent = true) (dead : view.alive child = false)
    (different : parent ≠ child) {brk new : ℕ} (image : Image m parent brk)
    (below : brk ≤ userStack) {created allocated entered copied grown : Machine} {ustack : ℕ}
    (isCreated : m.create (.proc child) = some created)
    (isAllocated : created.allocPage = some (ustack, allocated))
    (isEntered : allocated.enter (.proc child) userStack ustack true = some entered)
    (isCopied : entered.copyUser (.proc parent) (.proc child) userStack = some copied)
    (isGrown : copied.procBreak (.proc child) userText (BitVec.ofNat 32 (brk * 4096)) =
      some (grown, new)) : new = brk ∧ Prepared view parent child brk m grown := by
  rcases forked_stack sound valid dead isCreated isAllocated isEntered with
    ⟨soundEntered, cur, atStack, noOther, others⟩
  have aliveParent : (view.setAlive child true).alive parent = true := by
    simpa [View.setAlive, different] using alive
  have aliveChild : (view.setAlive child true).alive child = true := by simp [View.setAlive]
  have validEntered : (view.setAlive child true).valid entered.cur = true := by
    rw [cur]
    exact valid_setAlive valid child
  rcases (image.mapped userStack).mpr (Or.inr rfl) with ⟨stack, isStack⟩
  have heldStack : m.holds view (.page parent userStack) = some stack :=
    holds_page.mpr ⟨alive, isStack⟩
  have one := copiedTo_copyUser soundEntered validEntered aliveParent aliveChild
    (((others parent userStack different).1).trans heldStack) atStack isCopied
  have soundCopied := sound_keeps soundEntered one.keeps
  have validCopied : (view.setAlive child true).valid copied.cur = true := by
    rwa [one.keeps.cur]
  rcases procBreak_child soundCopied validCopied aliveChild image.atLeast below isGrown with
    ⟨rfl, soundGrown, spares, hasGrown⟩
  have isText := image.atLeast
  have parentCopied : ∀ v, copied.holds (view.setAlive child true) (.page parent v) =
      m.holds view (.page parent v) := by
    intro v
    rw [one.keeps.holds, (others parent v different).1]
  have stackCopied : copied.holds (view.setAlive child true) (.page child userStack) =
      some ustack := by
    rw [one.keeps.holds, atStack]
  have stackGrown : grown.holds (view.setAlive child true) (.page child userStack) =
      some ustack := by
    rw [hasGrown.pages userStack (by omega), stackCopied]
  refine ⟨rfl, soundGrown, by rw [hasGrown.cur, one.keeps.cur, cur], ?_, ?_, ?_, ?_⟩
  · intro v
    rw [hasGrown.others _ (by simp [Holder.owner, different]), parentCopied]
  · intro v frame held
    have isEnteredFrame := ((others parent v different).1).trans held
    have notSys : frame ≠ entered.sysTable :=
      ne_of_holders soundEntered isEnteredFrame (b := .sysTable) rfl (by simp)
    calc grown.mem frame = copied.mem frame :=
          spares.mem frame (spared_of_page soundCopied ((parentCopied v).trans held))
      _ = entered.mem frame := one.rest frame notSys fun w _ _ isChild => by
          have same := soundEntered.exclusive _ _ _ isEnteredFrame isChild
          simp only [Holder.page.injEq] at same
          exact different same.1
      _ = m.mem frame := (others parent v different).2 frame held
  · intro v
    by_cases inHeap : userText ≤ v ∧ v < new
    · exact iff_of_true ((hasGrown.mapped v inHeap.1 (by omega)).imp fun _ held => held.1)
        (Or.inl inHeap)
    · rcases eq_or_ne v userStack with rfl | notStack
      · exact iff_of_true ⟨ustack, stackGrown⟩ (Or.inr rfl)
      · refine iff_of_false ?_ (by simp [inHeap, notStack])
        rintro ⟨frame, held⟩
        rw [hasGrown.pages v (by omega), one.keeps.holds, noOther v notStack] at held
        cases held
  · intro otherStack otherUstack isOther isOtherUstack
    rw [heldStack, Option.some.injEq] at isOther
    rw [stackGrown, Option.some.injEq] at isOtherUstack
    subst isOther isOtherUstack
    calc grown.mem ustack = copied.mem ustack :=
          spares.mem ustack (spared_of_page soundCopied stackCopied)
      _ = entered.mem stack := one.copied userStack le_rfl (Nat.lt_succ_self _) stack ustack
          (((others parent userStack different).1).trans heldStack) atStack
      _ = m.mem stack := (others parent userStack different).2 stack heldStack

/-- The loop copies the pages below the break. -/
theorem forked_of_prepared {parent child : ProcId} (valid : view.valid m.cur = true)
    (alive : view.alive parent = true) (different : parent ≠ child) {brk : ℕ}
    (image : Image m parent brk) (below : brk ≤ userStack) {grown done : Machine}
    (prepared : Prepared view parent child brk m grown)
    (isDone : copyUsers (.proc parent) (.proc child) (brk - userText) userText grown =
      some done) : Forked parent child m (done.activate (.proc parent)) := by
  have sound := prepared.sound
  have isText := image.atLeast
  have aliveParent : (view.setAlive child true).alive parent = true := by
    simpa [View.setAlive, different] using alive
  have aliveChild : (view.setAlive child true).alive child = true := by simp [View.setAlive]
  have validGrown : (view.setAlive child true).valid grown.cur = true := by
    rw [prepared.cur]
    exact valid_setAlive valid child
  have atParent : ∀ v frame, m.pageOf parent v = some frame →
      grown.holds (view.setAlive child true) (.page parent v) = some frame :=
    fun v frame isFrame => (prepared.parentPages v).trans (holds_page.mpr ⟨alive, isFrame⟩)
  have later := copiedTo_copyUsers _ sound validGrown different aliveParent aliveChild
    (fun v atLeast high => ((image.mapped v).mpr (Or.inl ⟨atLeast, by omega⟩)).imp
      fun frame isFrame => atParent v frame isFrame)
    (fun v atLeast high => (prepared.mapped v).mpr (Or.inl ⟨atLeast, by omega⟩)) isDone
  have notSys : ∀ {q : ProcId} {v frame : ℕ},
      grown.holds (view.setAlive child true) (.page q v) = some frame → frame ≠ grown.sysTable :=
    fun held => ne_of_holders sound held (b := .sysTable) rfl (by simp)
  have parentDone : ∀ v frame, m.pageOf parent v = some frame → done.mem frame = m.mem frame := by
    intro v frame isFrame
    have held := atParent v frame isFrame
    refine (later.rest frame (notSys held) fun w _ _ isChild => ?_).trans
      (prepared.parentMem v frame (holds_page.mpr ⟨alive, isFrame⟩))
    have same := sound.exclusive _ _ _ held isChild
    simp only [Holder.page.injEq] at same
    exact different same.1
  have pageChild : ∀ v, (done.activate (.proc parent)).pageOf child v =
      grown.holds (view.setAlive child true) (.page child v) := by
    intro v
    rw [← later.keeps.holds]
    simp only [Machine.holds, aliveChild, if_true]
    rfl
  have pageParent : ∀ v, (done.activate (.proc parent)).pageOf parent v = m.pageOf parent v := by
    intro v
    have sameHolds := prepared.parentPages v
    rw [← later.keeps.holds] at sameHolds
    simp only [Machine.holds, aliveParent, alive, if_true] at sameHolds
    exact sameHolds
  refine ⟨?_, ?_, ?_, ?_⟩
  · intro v user frame isFrame
    rw [translate_eq user] at isFrame
    have isMapped := (image.mapped v).mp ⟨frame, isFrame⟩
    rcases (prepared.mapped v).mpr isMapped with ⟨copy, isCopy⟩
    refine ⟨copy, by rw [translate_eq user, pageChild, isCopy], ?_, ?_⟩
    · rintro rfl
      have same := sound.exclusive _ _ _ isCopy (atParent v copy isFrame)
      simp only [Holder.page.injEq] at same
      exact different same.1.symm
    have held : m.holds view (.page parent v) = some frame := holds_page.mpr ⟨alive, isFrame⟩
    rcases isMapped with ⟨atLeast, high⟩ | rfl
    · exact (later.copied v atLeast (by omega) frame copy (atParent v frame isFrame) isCopy).trans
        (prepared.parentMem v frame held)
    · refine (later.rest copy (notSys isCopy) fun w _ high isChild => ?_).trans
        (prepared.stack frame copy held isCopy)
      have same := sound.exclusive _ _ _ isCopy isChild
      simp only [Holder.page.injEq, true_and] at same
      omega
  · intro v user copy isCopy
    rw [translate_eq user, pageChild] at isCopy
    rw [translate_eq user]
    exact (image.mapped v).mpr ((prepared.mapped v).mp ⟨copy, isCopy⟩)
  · intro v user
    rw [translate_eq user, translate_eq user, pageParent]
  · intro v user frame isFrame
    rw [translate_eq user] at isFrame
    exact parentDone v frame isFrame

/-- The memory of `fork`. -/
theorem forkMemory_forked (sound : Sound view m) (valid : view.valid m.cur = true)
    {parent child : ProcId} (alive : view.alive parent = true) (dead : view.alive child = false)
    {brk new : ℕ} (image : Image m parent brk) (below : brk ≤ userStack)
    (result : m.forkMemory (.proc parent) (.proc child) brk = some (m', new)) :
    new = brk ∧ Forked parent child m m' := by
  simp only [forkMemory, Option.bind_eq_bind, Option.bind_eq_some_iff, Option.pure_def,
    Option.some.injEq, Prod.mk.injEq] at result
  rcases result with ⟨created, isCreated, ⟨ustack, allocated⟩, isAllocated, entered, isEntered,
    copied, isCopied, ⟨grown, childBrk⟩, isGrown, done, isDone, rfl, rfl⟩
  have different : parent ≠ child := by
    rintro rfl
    rw [alive] at dead
    cases dead
  rcases prepared_grown sound valid alive dead different image below isCreated isAllocated
    isEntered isCopied isGrown with ⟨rfl, prepared⟩
  exact ⟨rfl, forked_of_prepared valid alive different image below prepared isDone⟩

/-- A page that both processes have can be copied. -/
theorem copyUser_exists (sound : Sound view m) (valid : view.valid m.cur = true)
    {src dst : ProcId} (aliveSrc : view.alive src = true) (aliveDst : view.alive dst = true)
    (user : vpage < userPages) {source dest : ℕ}
    (isSource : m.holds view (.page src vpage) = some source)
    (isDest : m.holds view (.page dst vpage) = some dest) :
    ∃ m', m.copyUser (.proc src) (.proc dst) vpage = some m' := by
  have isCopied := copyPage_eq sound valid (lt_of_pageCount (lt_pageCount sound isSource))
    (lt_of_pageCount (lt_pageCount sound isDest)) (notWalked_of_holds sound isDest rfl)
  apply Option.isSome_iff_exists.mp
  rw [copyUser, if_neg (by omega), extract_eq sound aliveSrc user (holds_page.mp isSource).2,
    extract_eq sound aliveDst user (holds_page.mp isDest).2]
  simp only [Option.bind_eq_bind, Option.bind_some, isCopied, Option.isSome_some]

/-- `pmap_enter` uses at most one frame. -/
theorem freePages_entered (sound : Sound view m) {table : ℕ}
    (entered : Entered view p vpage page table m m') :
    m.vmm.freePages ≤ m'.vmm.freePages + 1 := by
  rcases entered.table with isOld | ⟨_, free⟩
  · have inUse := sound.allocated _ _ isOld
    have notMore : m.vmm.freePages ≤ m'.vmm.freePages := by
      refine Finset.card_le_card (Finset.monotone_filter_right _ fun other _ free isThere => ?_)
      rcases (entered.allocated other).mp isThere with wasThere | rfl
      · exact free wasThere
      · exact free inUse
    omega
  · have inUse := (entered.allocated table).mpr (Or.inr rfl)
    have less := Vmm.freePages_of_added (Vmm.lt_of_allocated inUse) free entered.allocated
    omega

/-- A process without a heap can be forked if there are frames for a directory, a page table and
a stack. -/
theorem forkMemory_exists (sound : Sound view m) (valid : view.valid m.cur = true)
    {parent child : ProcId} (alive : view.alive parent = true) (dead : view.alive child = false)
    {stack : ℕ} (isStack : m.holds view (.page parent userStack) = some stack)
    (enough : 3 ≤ m.vmm.freePages) :
    ∃ m', m.forkMemory (.proc parent) (.proc child) userText = some (m', userText) ∧
      m.vmm.freePages ≤ m'.vmm.freePages + 3 := by
  have different : parent ≠ child := by
    rintro rfl
    rw [alive] at dead
    cases dead
  have user : userStack < userPages := by decide
  have aliveParent : (view.setAlive child true).alive parent = true := by
    simpa [View.setAlive, different] using alive
  have aliveChild : (view.setAlive child true).alive child = true := by simp [View.setAlive]
  rcases create_exists sound valid dead (by omega) with ⟨created, isCreated⟩
  have less := freePages_create sound valid dead isCreated
  have soundCreated := (create_spec sound valid dead isCreated).1
  rcases @allocPage_exists created (by omega) with ⟨ustack, allocated, isAllocated⟩
  have lessAllocated := freePages_allocPage soundCreated isAllocated
  rcases allocPage_spec soundCreated isAllocated with ⟨soundAllocated, only, free, added⟩
  rcases enter_exists soundAllocated aliveChild user (by omega) ustack with ⟨entered, isEntered⟩
  have unheld : Unheld (allocated.holds (view.setAlive child true)) ustack := by
    rw [only.holds]
    exact unheld_of_free soundCreated free
  rcases enter_spec soundAllocated aliveChild user ((added ustack).mpr (Or.inr rfl)) unheld
    isEntered with ⟨_, table, isThere⟩
  have lessEntered := freePages_entered soundAllocated isThere
  rcases forked_stack sound valid dead isCreated isAllocated isEntered with
    ⟨soundEntered, cur, atStack, _, others⟩
  have validEntered : (view.setAlive child true).valid entered.cur = true := by
    rw [cur]
    exact valid_setAlive valid child
  rcases copyUser_exists soundEntered validEntered aliveParent aliveChild user
    (((others parent userStack different).1).trans isStack) atStack with ⟨copied, isCopied⟩
  have keeps := copyUser_keeps soundEntered validEntered aliveChild atStack isCopied
  have isBreak : copied.procBreak (.proc child) userText (BitVec.ofNat 32 (userText * 4096)) =
      some (copied, userText) := rfl
  have isDone : copyUsers (.proc parent) (.proc child) (userText - userText) userText copied =
      some copied := rfl
  refine ⟨copied.activate (.proc parent), ?_, ?_⟩
  · simp only [forkMemory, isCreated, isAllocated, isEntered, isCopied, isBreak, isDone,
      Option.bind_eq_bind, Option.bind_some, Option.pure_def]
  · change m.vmm.freePages ≤ copied.vmm.freePages + 3
    rw [keeps.vmm]
    omega

/-- The first process, with an empty program, has a stack and no other page. -/
theorem createMemory_empty (sound : Sound view m) (valid : view.valid m.cur = true)
    (dead : view.alive p = false) {stack : ℕ → Word} {image : ℕ → ℕ → Word} {new : ℕ}
    (result : m.createMemory (.proc p) 0 stack image = some (m', new)) :
    new = userText ∧ (∃ ustack, m'.pageOf p userStack = some ustack) ∧
      m.vmm.freePages ≤ m'.vmm.freePages + 3 := by
  simp only [createMemory, Option.bind_eq_bind, Option.bind_eq_some_iff, Option.pure_def,
    Option.some.injEq, Prod.mk.injEq] at result
  rcases result with ⟨created, isCreated, ⟨ustack, allocated⟩, isAllocated, zeroed, isZeroed,
    prepared, isPrepared, entered, isEntered, ⟨grown, brk⟩, isGrown, loaded, isLoaded, rfl, rfl⟩
  have isBreak : entered.procBreak (.proc p) userText (BitVec.ofNat 32 (userText * 4096) + 0) =
      some (entered, userText) := rfl
  rw [isBreak] at isGrown
  cases isGrown
  have isRead : entered.readFile 0 image = some entered := rfl
  rw [isRead] at isLoaded
  cases isLoaded
  have alive : (view.setAlive p true).alive p = true := by simp [View.setAlive]
  have lessCreated := freePages_create sound valid dead isCreated
  have there := sound_activate (create_spec sound valid dead isCreated).1 (.proc p)
  have lessAllocated := freePages_allocPage there isAllocated
  rcases allocPage_spec there isAllocated with ⟨soundAllocated, only, free, added⟩
  have isAdded : allocated.vmm.Allocated ustack := (added ustack).mpr (Or.inr rfl)
  have unheld : Unheld (allocated.holds (view.setAlive p true)) ustack := by
    rw [only.holds]
    exact unheld_of_free there free
  have validAllocated : (view.setAlive p true).valid allocated.cur = true := by
    rw [only.cur]
    exact alive
  have keepsZeroed := fillTmp_keeps soundAllocated validAllocated isAdded unheld isZeroed
  have soundZeroed := sound_keeps soundAllocated keepsZeroed
  have keepsPrepared := fillTmp_keeps soundZeroed (by rwa [keepsZeroed.cur])
    (by rwa [keepsZeroed.vmm]) (by rwa [keepsZeroed.holds]) isPrepared
  have keeps := keepsZeroed.trans keepsPrepared
  have soundPrepared := sound_keeps soundAllocated keeps
  rcases enter_spec soundPrepared alive (show userStack < userPages by decide)
    (by rwa [keeps.vmm]) (by rwa [keeps.holds]) isEntered with ⟨_, table, isThere⟩
  have lessEntered := freePages_entered soundPrepared isThere
  rw [keeps.vmm] at lessEntered
  change allocated.vmm.freePages + 1 = created.vmm.freePages at lessAllocated
  refine ⟨rfl, ⟨ustack, ?_⟩, by omega⟩
  have atStack : entered.holds (view.setAlive p true) (.page p userStack) = some ustack := by
    rw [isThere.holds, Function.update_self]
  exact (holds_page.mp atStack).2

end

end Machine

end Osix.Vm
