import Osix.Vm.Spaces
import Osix.Lib.Transition

/-!
# Frames have one owner

In every run no page frame is held twice, and every frame that is held is marked allocated,
at each point where another process can run.
-/

namespace Osix.Vm

open Ownership Transition

namespace Machine

/-- What holds of the machine for a view and the breaks of the processes. -/
structure Fine (view : View) (m : Machine) (brk : ProcId → ℕ) : Prop where
  sound : Sound view m
  granted : Granted view m
  heap : ∀ p, view.alive p = true → Heap view m p (brk p)

section

variable {view : View} {m m' : Machine} {brk : ProcId → ℕ} {p : ProcId} {frame : ℕ}

/-! ## Steps that do not change the holders -/

theorem fine_congr (fine : Fine view m brk) (sound : Sound view m') (granted : Granted view m')
    (holds : m'.holds view = m.holds view) : Fine view m' brk :=
  ⟨sound, granted, fun p alive => (fine.heap p alive).congr fun v => by rw [holds]⟩

theorem fine_keeps (fine : Fine view m brk) (keeps : Keeps view m m') : Fine view m' brk :=
  fine_congr fine (sound_keeps fine.sound keeps) (granted_keeps keeps fine.granted) keeps.holds

theorem fine_activate (fine : Fine view m brk) (pmap : PmapId) : Fine view (m.activate pmap) brk :=
  ⟨sound_activate fine.sound pmap, fine.granted,
    fun p alive => (fine.heap p alive).congr fun _ => rfl⟩

/-- Overwriting a frame that nobody holds. -/
theorem fillTmp_keeps (sound : Sound view m) (valid : view.valid m.cur = true) {page : ℕ}
    (allocated : m.vmm.Allocated page) (unheld : Unheld (m.holds view) page) {words : ℕ → Word}
    (filled : m.fillTmp page words = some m') : Keeps view m m' := by
  have notSys : page ≠ m.sysTable := fun same => unheld .sysTable (by rw [same]; rfl)
  exact (fillTmp_spec sound valid (lt_of_pageCount (Vmm.lt_of_allocated allocated))
    (notWalked_of_unheld unheld) notSys filled).1

/-! ## `proc_break` -/

theorem fine_break (fine : Fine view m brk) (valid : view.valid m.cur = true)
    (alive : view.alive p = true) {arg : Word} {new : ℕ}
    (result : m.procBreak (.proc p) (brk p) arg = some (m', new)) :
    Fine view m' (Function.update brk p new) ∧ Broken view p (brk p) m new m' := by
  rcases procBreak_spec fine.sound valid alive (fine.heap p alive) result with
    ⟨sound, heap, broken⟩
  refine ⟨⟨sound, broken.granted fine.granted, ?_⟩, broken⟩
  intro q aliveQ
  rcases eq_or_ne q p with rfl | different
  · rw [Function.update_self]
    exact heap
  · rw [Function.update_of_ne different]
    apply (fine.heap q aliveQ).congr
    intro v
    apply broken.others
    simpa [Holder.owner] using different

/-! ## Stacks -/

/-- A page that was not mapped becomes the stack of a process. -/
theorem fine_entered (fine : Fine view m brk) (alive : view.alive p = true) {page : ℕ}
    (allocated : m.vmm.Allocated page) (unheld : Unheld (m.holds view) page)
    (entered : m.enter (.proc p) userStack page true = some m') :
    Fine view m' brk ∧ ∃ table, Entered view p userStack page table m m' := by
  rcases enter_spec fine.sound alive (by decide) allocated unheld entered with
    ⟨sound, table, isEntered⟩
  refine ⟨⟨sound, isEntered.granted fine.granted, ?_⟩, table, isEntered⟩
  intro q aliveQ
  rcases eq_or_ne q p with rfl | different
  · exact heap_entered (fine.heap q aliveQ) isEntered
  · apply (fine.heap q aliveQ).congr
    intro v
    rw [isEntered.holds, Function.update_of_ne (by simp [different]),
      Function.update_of_ne (by simp)]

theorem fine_unmapStack (fine : Fine view m brk) (alive : view.alive p = true)
    (low : brk p < userStack) (unmapped : unmapStack (.proc p) userStack m = some m') :
    Fine view m' brk ∧ m'.holds view = Function.update (m.holds view) (.page p userStack) none ∧
      m'.vmm = m.vmm ∧ m'.cur = m.cur := by
  have below : m.holds view (.page p (userStack - 1)) = none := by
    cases held : m.holds view (.page p (userStack - 1)) with
    | none => rfl
    | some page =>
        have isUser := (fine.heap p alive).only _ page held
        simp only [userStack] at isUser low
        omega
  rcases unmapStack_spec fine.sound alive below unmapped with
    ⟨sound, holds, vmm, cur, granted⟩
  refine ⟨⟨sound, granted fine.granted, ?_⟩, holds, vmm, cur⟩
  intro q aliveQ
  rcases eq_or_ne q p with rfl | different
  · exact heap_unmapStack (fine.heap q aliveQ) low.le holds
  · apply (fine.heap q aliveQ).congr
    intro v
    rw [holds, Function.update_of_ne (by simp [different])]

/-! ## Copies and programs -/

theorem copyUser_keeps (sound : Sound view m) (valid : view.valid m.cur = true)
    {src dst : ProcId} (alive : view.alive dst = true) {vpage page : ℕ}
    (held : m.holds view (.page dst vpage) = some page)
    (copied : m.copyUser (.proc src) (.proc dst) vpage = some m') : Keeps view m m' := by
  simp only [copyUser] at copied
  split at copied
  · cases copied
  · rename_i user
    simp only [Option.bind_eq_bind, Option.bind_eq_some_iff] at copied
    rcases copied with ⟨source, _, dest, isDest, copied⟩
    have isPage := extract_spec sound alive (by omega) isDest
    rw [held, Option.getD_some] at isPage
    subst isPage
    exact copyPage_spec sound valid (lt_of_pageCount (lt_pageCount sound held))
      (notWalked_of_holds sound held rfl) copied

theorem copyUsers_keeps (count : ℕ) {first : ℕ} (sound : Sound view m)
    (valid : view.valid m.cur = true) {src dst : ProcId} (alive : view.alive dst = true)
    (mapped : ∀ v, first ≤ v → v < first + count →
      ∃ page, m.holds view (.page dst v) = some page)
    (copied : copyUsers (.proc src) (.proc dst) count first m = some m') : Keeps view m m' := by
  induction count generalizing first m with
  | zero =>
      cases copied
      exact ⟨rfl, rfl, fun _ _ => rfl, rfl, fun _ _ _ _ => rfl⟩
  | succ count ih =>
      rw [copyUsers, Option.bind_eq_some_iff] at copied
      rcases copied with ⟨middle, isCopied, rest⟩
      rcases mapped first le_rfl (by omega) with ⟨page, held⟩
      have one := copyUser_keeps sound valid alive held isCopied
      apply one.trans
      apply ih (sound_keeps sound one) (by rwa [one.cur]) _ rest
      intro v atLeast below
      rw [one.holds]
      exact mapped v (by omega) (by omega)

/-- A user page of the running process is one of its own. -/
theorem notWalked_of_walk (sound : Sound view m) (alive : view.alive p = true)
    (isCur : m.cur = .proc p) {vpage page : ℕ} (user : vpage < userPages)
    (walked : m.walk vpage = some page) : NotWalked view m page := by
  have held : m.holds view (.page p vpage) = some page := by
    rw [holds_page]
    refine ⟨alive, ?_⟩
    rw [walk, isCur, ← tableOf_eq user] at walked
    exact walked
  exact notWalked_of_holds sound held rfl

theorem fill_keeps (sound : Sound view m) (alive : view.alive p = true) (isCur : m.cur = .proc p)
    {vpage : ℕ} (user : vpage < userPages) {words : ℕ → Word}
    (filled : m.fill vpage words = some m') : Keeps view m m' := by
  rw [fill, Option.map_eq_some_iff] at filled
  rcases filled with ⟨page, walked, rfl⟩
  exact keeps_fillPage (notWalked_of_walk sound alive isCur user walked) words

theorem readBlock_keeps (sound : Sound view m) (alive : view.alive p = true)
    (isCur : m.cur = .proc p) {size : Word} {block : ℕ} (inFile : block < maxFileBlocks)
    {image : ℕ → Word} (read : m.readBlock size block image = some m') : Keeps view m m' := by
  simp only [readBlock, Option.map_eq_some_iff] at read
  rcases read with ⟨page, walked, rfl⟩
  have user : userText + block / 4 < userPages := by
    simp only [maxFileBlocks, userText, userPages, sysIndex, tableLen] at inFile ⊢
    omega
  exact keeps_fillPage (notWalked_of_walk sound alive isCur user walked) _

/-- What the entries grant is a restriction of the translation. -/
theorem walk_of_walkWith {rights : Word} {vpage page : ℕ}
    (walked : m.walkWith rights vpage = some page) : m.walk vpage = some page := by
  rw [walkWith] at walked
  rw [walk]
  dsimp only at walked
  split at walked
  · rw [Option.bind_eq_some_iff] at walked ⊢
    rcases walked with ⟨table, isTable, isPage⟩
    refine ⟨table, isTable, ?_⟩
    split at isPage
    · exact isPage
    · cases isPage
  · cases walked

theorem touch_keeps (sound : Sound view m) (alive : view.alive p = true) (isCur : m.cur = .proc p)
    {vpage : ℕ} (user : vpage < userPages) {words : ℕ → Word}
    (touched : m.touch vpage words = some m') : Keeps view m m' := by
  rw [touch, Option.map_eq_some_iff] at touched
  rcases touched with ⟨page, walked, rfl⟩
  exact keeps_fillPage (notWalked_of_walk sound alive isCur user (walk_of_walkWith walked)) words

/-- An `int` that lies below `SYS_VADDR` is stored in pages of the process. -/
theorem storeInt_keeps (sound : Sound view m) (alive : view.alive p = true)
    (isCur : m.cur = .proc p) {vaddr value : Word} (user : vaddr.toNat + 3 < userPages * 4096)
    (stored : m.storeInt vaddr value = some m') : Keeps view m m' := by
  simp only [storeInt, Option.bind_eq_bind, Option.bind_eq_some_iff, Option.pure_def] at stored
  rcases stored with ⟨first, isFirst, last, isLast, stored⟩
  simp only [userPages, sysIndex, tableLen] at user
  have notFirst : NotWalked view m first := by
    refine notWalked_of_walk sound alive isCur ?_ (walk_of_walkWith isFirst)
    simp only [userPages, sysIndex, tableLen]
    omega
  have notLast : NotWalked view m last := by
    refine notWalked_of_walk sound alive isCur ?_ (walk_of_walkWith isLast)
    have three : (3 : Word).toNat = 3 := rfl
    rw [BitVec.toNat_add, three]
    simp only [userPages, sysIndex, tableLen]
    omega
  split at stored
  · cases stored
    exact keeps_poke notFirst _ _
  · cases stored
    have low := keeps_poke notFirst (vaddr.toNat % 4096 / 4)
    exact (low _).trans (keeps_poke (notWalked_keeps (low _) notLast) _ _)

theorem readProgram_keeps (count : ℕ) {first : ℕ} (sound : Sound view m)
    (alive : view.alive p = true) (isCur : m.cur = .proc p) (user : first + count ≤ userPages)
    {image : ℕ → ℕ → Word} (read : readProgram image count first m = some m') :
    Keeps view m m' := by
  induction count generalizing first m with
  | zero =>
      cases read
      exact ⟨rfl, rfl, fun _ _ => rfl, rfl, fun _ _ _ _ => rfl⟩
  | succ count ih =>
      rw [readProgram, Option.bind_eq_some_iff] at read
      rcases read with ⟨middle, filled, rest⟩
      have one := fill_keeps sound alive isCur (by omega) filled
      exact one.trans (ih (sound_keeps sound one) (by rw [one.cur, isCur]) (by omega) rest)

theorem readFile_keeps (sound : Sound view m) (alive : view.alive p = true)
    (isCur : m.cur = .proc p) {size : Word} {image : ℕ → ℕ → Word}
    (read : m.readFile size image = some m') :
    Keeps view m m' ∧ size.toNat ≤ maxFileSize := by
  rw [readFile] at read
  split at read
  · cases read
  · rename_i fits
    refine ⟨readProgram_keeps _ sound alive isCur ?_ read, not_lt.mp fits⟩
    rw [maxFileSize_eq] at fits
    simp only [programPages, userText, userPages, sysIndex, tableLen]
    omega

/-! ## Processes that come and go -/

theorem valid_setAlive {pmap : PmapId} (valid : view.valid pmap = true) (p : ProcId) :
    (view.setAlive p true).valid pmap = true := by
  cases pmap with
  | kernel => rfl
  | proc q =>
      rcases eq_or_ne q p with rfl | different
      · simp [View.valid, View.setAlive]
      · simpa [View.valid, View.setAlive, different] using valid

/-- A new process without pages. -/
theorem fine_create (fine : Fine view m brk) (valid : view.valid m.cur = true)
    (dead : view.alive p = false) (created : m.create (.proc p) = some m') :
    Fine (view.setAlive p true) m' (Function.update brk p userText) ∧ m'.cur = m.cur := by
  rcases create_spec fine.sound valid dead created with
    ⟨sound, dir, _, _, holds, cur, granted⟩
  have pages : ∀ q v, m'.holds (view.setAlive p true) (.page q v) = m.holds view (.page q v) := by
    intro q v
    rw [holds, Function.update_of_ne (by simp)]
  have noPages : ∀ v, m.holds view (.page p v) = none := by
    intro v
    simp [Machine.holds, dead]
  refine ⟨⟨sound, granted fine.granted, ?_⟩, cur⟩
  intro q aliveQ
  rcases eq_or_ne q p with rfl | different
  · rw [Function.update_self]
    refine ⟨le_rfl, ?_, ?_⟩
    · intro v atLeast below
      omega
    · intro v frame held
      rw [pages, noPages] at held
      cases held
  · rw [Function.update_of_ne different]
    have wasAlive : view.alive q = true := by
      simpa [View.setAlive, different] using aliveQ
    exact (fine.heap q wasAlive).congr fun v => pages q v

/-- The stack of a new process is a frame that was free. -/
theorem fine_newStack (fine : Fine view m brk) (alive : view.alive p = true) {page : ℕ}
    {allocated prepared : Machine}
    (isAllocated : m.allocPage = some (page, allocated)) (keeps : Keeps view allocated prepared)
    (isEntered : prepared.enter (.proc p) userStack page true = some m') :
    Fine view m' brk ∧ m'.cur = m.cur ∧ m'.holds view (.page p userStack) = some page := by
  rcases allocPage_spec fine.sound isAllocated with ⟨soundAllocated, only, free, added⟩
  have isAdded : prepared.vmm.Allocated page := by
    rw [keeps.vmm]
    exact (added page).mpr (Or.inr rfl)
  have sameHolds : prepared.holds view = m.holds view := by rw [keeps.holds, only.holds]
  have unheld : Unheld (prepared.holds view) page := by
    rw [sameHolds]
    exact unheld_of_free fine.sound free
  have finePrepared : Fine view prepared brk :=
    fine_congr fine (sound_keeps soundAllocated keeps)
      (granted_keeps keeps (only.granted fine.granted)) sameHolds
  rcases fine_entered finePrepared alive isAdded unheld isEntered with ⟨fineEntered, table, entered⟩
  refine ⟨fineEntered, ?_, ?_⟩
  · rw [entered.cur, keeps.cur, only.cur]
  · rw [entered.holds, Function.update_self]

/-- The memory of a forked process. -/
theorem forkMemory_spec (fine : Fine view m brk) (valid : view.valid m.cur = true)
    {parent child : ProcId} (dead : view.alive child = false) {old new : ℕ}
    (forked : m.forkMemory (.proc parent) (.proc child) old = some (m', new)) :
    Fine (view.setAlive child true) m' (Function.update brk child new) := by
  simp only [forkMemory, Option.bind_eq_bind, Option.bind_eq_some_iff, Option.pure_def,
    Option.some.injEq, Prod.mk.injEq] at forked
  rcases forked with ⟨created, isCreated, ⟨ustack, allocated⟩, isAllocated, entered, isEntered,
    copied, isCopied, ⟨grown, brk'⟩, isGrown, done, isDone, rfl, rfl⟩
  rcases fine_create fine valid dead isCreated with ⟨fineCreated, curCreated⟩
  have alive : (view.setAlive child true).alive child = true := by simp [View.setAlive]
  have valid' := valid_setAlive valid child
  have same : Keeps (view.setAlive child true) allocated allocated :=
    ⟨rfl, rfl, fun _ _ => rfl, rfl, fun _ _ _ _ => rfl⟩
  rcases fine_newStack fineCreated alive isAllocated same isEntered with
    ⟨fineEntered, curEntered, atStack⟩
  have validEntered : (view.setAlive child true).valid entered.cur = true := by
    rwa [curEntered, curCreated]
  have keepsCopied := copyUser_keeps fineEntered.sound validEntered alive atStack isCopied
  have fineCopied := fine_keeps fineEntered keepsCopied
  have validCopied : (view.setAlive child true).valid copied.cur = true := by rwa [keepsCopied.cur]
  have isOld : userText = Function.update brk child userText child := by rw [Function.update_self]
  rw [isOld] at isGrown
  rcases fine_break fineCopied validCopied alive isGrown with ⟨fineGrown, broken⟩
  have validGrown : (view.setAlive child true).valid grown.cur = true := by rwa [broken.cur]
  have heap := fineGrown.heap child alive
  rw [Function.update_self] at heap
  have keepsDone := copyUsers_keeps _ fineGrown.sound validGrown alive (by
    intro v atLeast below
    have low := heap.atLeast
    exact heap.mapped v atLeast (by omega)) isDone
  have fineDone := fine_activate (fine_keeps fineGrown keepsDone) (.proc parent)
  rwa [Function.update_idem] at fineDone

/-- The memory of the first process. -/
theorem createMemory_spec (fine : Fine view m brk) (valid : view.valid m.cur = true)
    (dead : view.alive p = false) {size : Word} {stack : ℕ → Word} {image : ℕ → ℕ → Word} {new : ℕ}
    (result : m.createMemory (.proc p) size stack image = some (m', new)) :
    Fine (view.setAlive p true) m' (Function.update brk p new) := by
  simp only [createMemory, Option.bind_eq_bind, Option.bind_eq_some_iff, Option.pure_def,
    Option.some.injEq, Prod.mk.injEq] at result
  rcases result with ⟨created, isCreated, ⟨ustack, allocated⟩, isAllocated, zeroed, isZeroed,
    prepared, isPrepared, entered, isEntered, ⟨grown, brk'⟩, isGrown, loaded, isLoaded, rfl, rfl⟩
  rcases fine_create fine valid dead isCreated with ⟨fineCreated, _⟩
  have alive : (view.setAlive p true).alive p = true := by simp [View.setAlive]
  have fineThere := fine_activate fineCreated (.proc p)
  rcases allocPage_spec fineThere.sound isAllocated with ⟨soundAllocated, only, free, added⟩
  have isAdded : allocated.vmm.Allocated ustack := (added ustack).mpr (Or.inr rfl)
  have unheld : Unheld (allocated.holds (view.setAlive p true)) ustack := by
    rw [only.holds]
    exact unheld_of_free fineThere.sound free
  have keepsZeroed := fillTmp_keeps soundAllocated (by rw [only.cur]; exact alive) isAdded unheld
    isZeroed
  have keepsPrepared := fillTmp_keeps (sound_keeps soundAllocated keepsZeroed)
    (by rw [keepsZeroed.cur, only.cur]; exact alive) (by rwa [keepsZeroed.vmm])
    (by rwa [keepsZeroed.holds]) isPrepared
  rcases fine_newStack fineThere alive isAllocated (keepsZeroed.trans keepsPrepared) isEntered
    with ⟨fineEntered, curEntered, _⟩
  have isOld : userText = Function.update brk p userText p := by rw [Function.update_self]
  rw [isOld] at isGrown
  rcases fine_break fineEntered (by rw [curEntered]; exact alive) alive isGrown with
    ⟨fineGrown, broken⟩
  have curGrown : grown.cur = .proc p := by
    rw [broken.cur, curEntered]
    rfl
  have fineLoaded := fine_keeps fineGrown (readFile_keeps fineGrown.sound alive curGrown isLoaded).1
  rwa [Function.update_idem] at fineLoaded

/-! ## `sys_exec` and `proc_exit` -/

theorem procBreak_new {pmap : PmapId} {old new : ℕ} {arg : Word} (notZero : arg ≠ 0)
    (result : m.procBreak pmap old arg = some (m', new)) : new = breakPage arg := by
  simp only [procBreak, if_neg notZero] at result
  split at result
  · rw [Option.map_eq_some_iff] at result
    rcases result with ⟨_, _, pair⟩
    cases pair
    rfl
  · rw [Option.map_eq_some_iff] at result
    rcases result with ⟨_, _, pair⟩
    cases pair
    rfl

/-- A program that `readi` can read ends below the stack. -/
theorem programBreak_lt {size : Word} (fits : size.toNat ≤ maxFileSize) :
    BitVec.ofNat 32 (userText * 4096) + size ≠ 0 ∧
      breakPage (BitVec.ofNat 32 (userText * 4096) + size) < userStack := by
  rw [maxFileSize_eq] at fits
  have sum : (BitVec.ofNat 32 (userText * 4096) + size).toNat = 0x100000 + size.toNat := by
    rw [BitVec.toNat_add, BitVec.toNat_ofNat, userText]
    omega
  refine ⟨?_, ?_⟩
  · intro zero
    have isZero : (0 : Word).toNat = 0 := rfl
    rw [zero, isZero] at sum
    omega
  · have notBelow : ¬(BitVec.ofNat 32 (userText * 4096) + size).toNat < userText * 4096 := by
      rw [sum, userText]
      omega
    rw [breakPage, if_neg notBelow, BitVec.toNat_add, sum, BitVec.toNat_ofNat, userStack]
    omega

theorem breakPage_userText : breakPage (BitVec.ofNat 32 (userText * 4096)) = userText := by
  decide

/-- Before the program is read the new stack has a frame but no page. -/
theorem execStart_spec (fine : Fine view m brk) (isCur : m.cur = .proc p)
    (alive : view.alive p = true) {stack : ℕ → Word} {new ustack : ℕ}
    (started : m.execStart (.proc p) (brk p) stack = some (m', new, ustack)) :
    Fine (view.setPending p (some ustack)) m' (Function.update brk p new) := by
  simp only [execStart, Option.bind_eq_bind, Option.bind_eq_some_iff, Option.pure_def,
    Option.some.injEq, Prod.mk.injEq] at started
  rcases started with ⟨⟨page, allocated⟩, isAllocated, prepared, isPrepared, ⟨emptied, low⟩,
    isEmptied, rfl, rfl, rfl⟩
  rcases allocPage_spec fine.sound isAllocated with ⟨soundAllocated, only, free, added⟩
  have isAdded : allocated.vmm.Allocated page := (added page).mpr (Or.inr rfl)
  have unheld : Unheld (allocated.holds view) page := by
    rw [only.holds]
    exact unheld_of_free fine.sound free
  have keeps := fillTmp_keeps soundAllocated (by rw [only.cur, isCur]; exact alive) isAdded unheld
    isPrepared
  have sameHolds : prepared.holds view = m.holds view := by rw [keeps.holds, only.holds]
  have holdsPending : prepared.holds (view.setPending p (some page)) =
      Function.update (m.holds view) (.pending p) (some page) := by
    rw [holds_setPending, sameHolds]
  have finePrepared : Fine (view.setPending p (some page)) prepared brk := by
    have granted : Granted view prepared := granted_keeps keeps (only.granted fine.granted)
    refine ⟨sound_setPending_some (sound_keeps soundAllocated keeps) p ?_ ?_, granted, ?_⟩
    · rwa [keeps.holds]
    · rwa [keeps.vmm]
    · intro q aliveQ
      apply (fine.heap q aliveQ).congr
      intro v
      rw [holdsPending, Function.update_of_ne (by simp)]
  have curPrepared : prepared.cur = .proc p := by rw [keeps.cur, only.cur, isCur]
  exact (fine_break finePrepared (by rw [curPrepared]; exact alive) alive isEmptied).1

/-- The pages for the program, which end below the stack if `readi` can read it. -/
theorem execSize_spec (fine : Fine view m brk) (isCur : m.cur = .proc p)
    (alive : view.alive p = true) {size : Word} {new : ℕ}
    (sized : m.execSize (.proc p) (brk p) size = some (m', new)) :
    Fine view m' (Function.update brk p new) ∧
      (size.toNat ≤ maxFileSize → new < userStack) := by
  rw [execSize] at sized
  refine ⟨(fine_break fine (by rw [isCur]; exact alive) alive sized).1, ?_⟩
  intro fits
  rcases programBreak_lt fits with ⟨notZero, below⟩
  rwa [procBreak_new notZero sized]

/-- The new stack takes the place of the old one, whose frame is not freed. -/
theorem execFinish_spec (fine : Fine view m brk) (alive : view.alive p = true) {ustack : ℕ}
    (pending : view.pending p = some ustack) (low : brk p < userStack)
    (finished : m.execFinish (.proc p) ustack = some m') :
    Fine (view.setPending p none) m' brk := by
  simp only [execFinish, Option.bind_eq_bind, Option.bind_eq_some_iff] at finished
  rcases finished with ⟨removed, isRemoved, isEntered⟩
  rcases fine_unmapStack fine alive low isRemoved with ⟨fineRemoved, holds, _, _⟩
  have heldPending : removed.holds view (.pending p) = some ustack := by
    rw [holds, Function.update_of_ne (by simp)]
    exact pending
  have isAllocated := fineRemoved.sound.allocated _ _ heldPending
  have taken := holds_setPending view removed p none
  have fineTaken : Fine (view.setPending p none) removed brk := by
    refine ⟨sound_setPending_none fineRemoved.sound p, fineRemoved.granted, ?_⟩
    intro q aliveQ
    apply (fineRemoved.heap q aliveQ).congr
    intro v
    rw [taken, Function.update_of_ne (by simp)]
  have unheld : Unheld (removed.holds (view.setPending p none)) ustack := by
    rw [taken]
    exact fineRemoved.sound.exclusive.unheld_take heldPending
  exact (fine_entered fineTaken alive isAllocated unheld isEntered).1

/-- A process that exits has no pages left. -/
theorem exitStart_spec (fine : Fine view m brk) (isCur : m.cur = .proc p)
    (alive : view.alive p = true) {new : ℕ}
    (started : m.exitStart (.proc p) (brk p) = some (m', new)) :
    Fine view m' (Function.update brk p new) := by
  simp only [exitStart, Option.bind_eq_bind, Option.bind_eq_some_iff, Option.pure_def,
    Option.some.injEq, Prod.mk.injEq] at started
  rcases started with ⟨⟨emptied, low⟩, isEmptied, removed, isRemoved, rfl, rfl⟩
  rcases fine_break fine (by rw [isCur]; exact alive) alive isEmptied with ⟨fineEmptied, _⟩
  have isLow : low = userText := by
    rw [procBreak_new (by decide) isEmptied, breakPage_userText]
  exact (fine_unmapStack fineEmptied alive (by rw [Function.update_self, isLow]; decide)
    isRemoved).1

theorem exitDestroy_spec (fine : Fine view m brk) (alive : view.alive p = true)
    (destroyed : m.destroy (.proc p) = some m') :
    Fine (view.setAlive p false) m' brk := by
  rcases destroy_spec fine.sound alive destroyed with
    ⟨sound, _, holds, _, granted⟩
  refine ⟨sound, granted fine.granted, ?_⟩
  intro q aliveQ
  have different : q ≠ p := by
    rintro rfl
    simp [View.setAlive] at aliveQ
  have wasAlive : view.alive q = true := by simpa [View.setAlive, different] using aliveQ
  apply (fine.heap q wasAlive).congr
  intro v
  rw [holds, if_neg (by simpa [Holder.owner] using different)]

end

end Machine

end Osix.Vm
