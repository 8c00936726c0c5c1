import Osix.Vm.Spaces

/-!
# When memory functions succeed

`vmm_alloc_page` succeeds as long as there is a free frame, and the functions of `pmap.c`
succeed for user pages whose page table exists. The lemmas here give the machine that they
leave, so that it can be compared with the one before word by word.
-/

namespace Osix.Vm

namespace Vmm

/-- If the search ends at a byte that is all allocated, then all the bytes before it are. -/
theorem full_of_scan {bitmap : Fin bitmapSize → BitVec 8} (count : ℕ) (index : Fin bitmapSize)
    (full : bitmap (scan bitmap count index) = 0xff) (k : ℕ) (within : k ≤ count) :
    bitmap (index + Fin.ofNat bitmapSize k) = 0xff := by
  induction count generalizing index k with
  | zero =>
      have isFirst : k = 0 := by omega
      rw [isFirst]
      simpa [scan] using full
  | succ count ih =>
      rw [scan] at full
      split at full
      · rename_i fullHere
        rcases k with _ | k
        · simpa using fullHere
        · have later := ih (index + 1) full k (by omega)
          have isNext : index + 1 + Fin.ofNat bitmapSize k =
              index + Fin.ofNat bitmapSize (k + 1) := by
            have isOne : ((1 : Fin bitmapSize) : ℕ) = 1 := rfl
            apply Fin.ext
            simp only [Fin.val_add, Fin.val_ofNat, isOne]
            simp only [bitmapSize]
            omega
          rwa [isNext] at later
      · rename_i notFull
        exact absurd full notFull

/-- A free page is found. -/
theorem allocPage_exists {vmm : Vmm} {page : ℕ} (inRange : page < pageCount)
    (free : ¬vmm.Allocated page) : ∃ found vmm', vmm.allocPage = some (found, vmm') := by
  by_cases full : vmm.bitmap (scan vmm.bitmap bitmapSize vmm.index) = 0xff
  · exfalso
    have inMap : page / 8 < bitmapSize := by
      simp only [pageCount, bitmapSize] at inRange ⊢
      omega
    have isFull : vmm.bitmap ⟨page / 8, inMap⟩ = 0xff := by
      have atByte := full_of_scan bitmapSize vmm.index full
        ((⟨page / 8, inMap⟩ : Fin bitmapSize) - vmm.index).val (Fin.is_lt _).le
      rwa [Fin.ofNat_val_eq_self, add_sub_cancel] at atByte
    apply free
    refine ⟨inMap, ?_⟩
    have allOnes : (0xff : BitVec 8) = BitVec.allOnes 8 := rfl
    rw [isFull, allOnes, BitVec.getLsbD_allOnes]
    simp only [decide_eq_true_eq]
    omega
  · exact ⟨_, _, by rw [allocPage, if_neg full]⟩

/-- The number of free pages. -/
def freePages (vmm : Vmm) : ℕ :=
  ((Finset.range pageCount).filter fun page => ¬vmm.Allocated page).card

theorem exists_free_of_pos {vmm : Vmm} (positive : 0 < vmm.freePages) :
    ∃ page < pageCount, ¬vmm.Allocated page := by
  rcases Finset.card_pos.mp positive with ⟨page, isIn⟩
  simp only [Finset.mem_filter, Finset.mem_range] at isIn
  exact ⟨page, isIn⟩

/-- One page less is free. -/
theorem freePages_of_added {vmm vmm' : Vmm} {page : ℕ} (inRange : page < pageCount)
    (free : ¬vmm.Allocated page)
    (added : ∀ other, vmm'.Allocated other ↔ vmm.Allocated other ∨ other = page) :
    vmm'.freePages + 1 = vmm.freePages := by
  have isErased : ((Finset.range pageCount).filter fun other => ¬vmm'.Allocated other) =
      ((Finset.range pageCount).filter fun other => ¬vmm.Allocated other).erase page := by
    ext other
    simp only [Finset.mem_filter, Finset.mem_erase, added other, not_or]
    constructor
    · rintro ⟨inMap, isFree, different⟩
      exact ⟨different, inMap, isFree⟩
    · rintro ⟨different, inMap, isFree⟩
      exact ⟨inMap, isFree, different⟩
  have isIn : page ∈ (Finset.range pageCount).filter fun other => ¬vmm.Allocated other := by
    simp only [Finset.mem_filter, Finset.mem_range]
    exact ⟨inRange, free⟩
  rw [freePages, freePages, isErased]
  exact Finset.card_erase_add_one isIn

end Vmm

namespace Machine

open Ownership

section

variable {view : View} {m m' : Machine} {p : ProcId} {vpage page : ℕ}

theorem allocPage_exists (positive : 0 < m.vmm.freePages) :
    ∃ found m', m.allocPage = some (found, m') := by
  rcases Vmm.exists_free_of_pos positive with ⟨page, inRange, free⟩
  rcases Vmm.allocPage_exists inRange free with ⟨found, vmm', isFound⟩
  exact ⟨found, _, by rw [allocPage, isFound, Option.map_some]⟩

theorem freePage_exists (allocated : m.vmm.Allocated page) : ∃ m', m.freePage page = some m' := by
  rcases Vmm.freePage_isSome allocated with ⟨vmm', isFreed⟩
  exact ⟨_, by rw [freePage, isFreed, Option.map_some]⟩

/-- The entry of `pmap_enter` for a user page. -/
def userEntry (page : ℕ) : Word := entry page (pagePresent ||| pageWritable ||| pageUser)

/-- `pmap_enter` if the page table exists. -/
theorem enter_eq (sound : Sound view m) (alive : view.alive p = true) (user : vpage < userPages)
    {table : ℕ} (isTable : m.tableOf p (vpage / tableLen) = some table) (page : ℕ) :
    m.enter (.proc p) vpage page true =
      some (m.poke table (vpage % tableLen) (userEntry page)) := by
  have inDir : vpage / tableLen < tableLen := by
    have below := dir_of_proc user
    simp only [sysIndex, tableLen] at below ⊢
    omega
  rw [tableOf_eq user] at isTable
  have walked := walk_pteMap_activate sound (.proc p) alive inDir
  rw [isTable] at walked
  simp only [enter, enterUsing, load_pgDir_activate sound (.proc p) alive, Option.bind_eq_bind,
    Option.bind_some, if_neg (present_of_target isTable), enterRaw, store, walked,
    Option.map_some, if_true, reduceCtorEq, if_false]
  rfl

/-- `pmap_remove` if the page table exists. -/
theorem remove_eq (sound : Sound view m) (alive : view.alive p = true) (user : vpage < userPages)
    {table : ℕ} (isTable : m.tableOf p (vpage / tableLen) = some table) :
    m.remove (.proc p) vpage = some (m.poke table (vpage % tableLen) 0) := by
  have inDir : vpage / tableLen < tableLen := by
    have below := dir_of_proc user
    simp only [sysIndex, tableLen] at below ⊢
    omega
  have walked := walk_pteMap_activate sound (.proc p) alive inDir
  rw [← tableOf_eq user, isTable] at walked
  simp only [remove, store, walked, Option.map_some]
  rfl

/-- `pmap_extract` of a page that is mapped. -/
theorem extract_eq (sound : Sound view m) (alive : view.alive p = true) (user : vpage < userPages)
    (held : m.pageOf p vpage = some page) : m.extract (.proc p) vpage = some page := by
  have inDir : vpage / tableLen < tableLen := by
    have below := dir_of_proc user
    simp only [sysIndex, tableLen] at below ⊢
    omega
  rw [pageOf, Option.bind_eq_some_iff] at held
  rcases held with ⟨table, isTable, isPage⟩
  rw [tableOf_eq user] at isTable
  have walked := walk_pteMap_activate sound (.proc p) alive inDir
  rw [isTable] at walked
  simp only [extract, load_pgDir_activate sound (.proc p) alive, Option.bind_eq_bind,
    Option.bind_some, if_neg (present_of_target isTable)]
  simp only [load, walked, Option.map_some, Option.bind_some]
  exact congrArg (fun target => some (target.getD 0)) isPage

/-! ## New page tables and page directories -/

/-- A page that nobody holds can be overwritten. -/
theorem fillTmp_exists (sound : Sound view m) (valid : view.valid m.cur = true)
    (allocated : m.vmm.Allocated page) (unheld : Unheld (m.holds view) page)
    (words : ℕ → Word) : ∃ m', m.fillTmp page words = some m' ∧ Keeps view m m' := by
  have small := lt_of_pageCount (Vmm.lt_of_allocated allocated)
  have notWalked := notWalked_of_unheld unheld
  have notSys : page ≠ m.sysTable := fun same => unheld .sysTable (by rw [same]; rfl)
  have isFilled := fillTmp_eq sound valid small notWalked words
  exact ⟨_, isFilled, (fillTmp_spec sound valid small notWalked notSys isFilled).1⟩

theorem newTable_exists (sound : Sound view m) (alive : view.alive p = true)
    (isCur : m.cur = .proc p) (positive : 0 < m.vmm.freePages) (pdIndex : ℕ) :
    ∃ m', newTable zeroPage m pdIndex = some m' := by
  rcases allocPage_exists positive with ⟨table, allocated, isAllocated⟩
  rcases allocPage_spec sound isAllocated with ⟨soundAllocated, only, fresh, added⟩
  have valid : view.valid allocated.cur = true := by
    rw [only.cur, isCur]
    exact alive
  have unheld : Unheld (allocated.holds view) table := by
    rw [only.holds]
    exact unheld_of_free sound fresh
  rcases fillTmp_exists soundAllocated valid ((added table).mpr (Or.inr rfl)) unheld
    (fun _ => 0) with ⟨zeroed, isZeroed, keeps⟩
  have walked := walk_pgDir (sound_keeps soundAllocated keeps) (by rwa [keeps.cur])
  apply Option.isSome_iff_exists.mp
  simp only [newTable, isAllocated, zeroPage, isZeroed, store, walked, Option.bind_eq_bind,
    Option.bind_some, Option.map_some, Option.isSome_some]

/-- `pmap_enter` if there is a frame for a page table. -/
theorem enter_exists (sound : Sound view m) (alive : view.alive p = true)
    (user : vpage < userPages) (positive : 0 < m.vmm.freePages) (page : ℕ) :
    ∃ m', m.enter (.proc p) vpage page true = some m' := by
  cases isTable : m.tableOf p (vpage / tableLen) with
  | some table => exact ⟨_, enter_eq sound alive user isTable page⟩
  | none =>
      have there := sound_activate sound (.proc p)
      have inDir : vpage / tableLen < tableLen := by
        have below := dir_of_proc user
        simp only [sysIndex, tableLen] at below ⊢
        omega
      have absent := isTable
      rw [tableOf_eq user, target_eq_none] at absent
      rcases newTable_exists there alive rfl positive (vpage / tableLen) with
        ⟨withTable, isWith⟩
      rcases newTable_spec there alive (dir_of_proc user) rfl isTable isWith with
        ⟨soundWith, table, _, isNew, _, _, cur, _⟩
      have isCur : withTable.cur = .proc p := cur
      have walked : withTable.walk (pteMap (vpage / tableLen)) = some table := by
        rw [walk_pteMap soundWith (by rw [isCur]; exact alive) inDir, isCur, ← tableOf_eq user,
          isNew]
      apply Option.isSome_iff_exists.mp
      simp only [enter, enterUsing, load_pgDir_activate sound (.proc p) alive, Option.bind_eq_bind,
        Option.bind_some]
      rw [if_pos absent, isWith]
      simp only [enterRaw, store, walked, Option.bind_some, Option.map_some, Option.pure_def,
        Option.isSome_some]

/-- `pmap_create` if there is a frame for the page directory. -/
theorem create_exists (sound : Sound view m) (valid : view.valid m.cur = true)
    (dead : view.alive p = false) (positive : 0 < m.vmm.freePages) :
    ∃ m', m.create (.proc p) = some m' := by
  rcases allocPage_exists positive with ⟨dir, allocated, isAllocated⟩
  rcases created_of_allocPage sound valid dead isAllocated with ⟨m', isCreated, _⟩
  exact ⟨m', isCreated⟩

/-- One frame less is free after an allocation. -/
theorem freePages_allocPage (sound : Sound view m) (result : m.allocPage = some (page, m')) :
    m'.vmm.freePages + 1 = m.vmm.freePages := by
  rcases allocPage_spec sound result with ⟨_, _, free, added⟩
  exact Vmm.freePages_of_added (Vmm.lt_of_allocated ((added page).mpr (Or.inr rfl))) free added

theorem freePages_create (sound : Sound view m) (valid : view.valid m.cur = true)
    (dead : view.alive p = false) (created : m.create (.proc p) = some m') :
    m'.vmm.freePages + 1 = m.vmm.freePages := by
  rcases create_spec sound valid dead created with ⟨_, dir, free, added, _, _⟩
  exact Vmm.freePages_of_added (Vmm.lt_of_allocated ((added dir).mpr (Or.inr rfl))) free added

/-- The memory of an empty program: a page directory, a page table and a stack. -/
theorem createMemory_exists (sound : Sound view m) (valid : view.valid m.cur = true)
    (dead : view.alive p = false) (enough : 3 ≤ m.vmm.freePages) (stack : ℕ → Word)
    (image : ℕ → ℕ → Word) :
    ∃ m' new, m.createMemory (.proc p) 0 stack image = some (m', new) := by
  have alive : (view.setAlive p true).alive p = true := by simp [View.setAlive]
  rcases create_exists sound valid dead (by omega) with ⟨created, isCreated⟩
  have less := freePages_create sound valid dead isCreated
  have soundCreated := (create_spec sound valid dead isCreated).1
  have there := sound_activate soundCreated (.proc p)
  rcases @allocPage_exists (created.activate (.proc p))
    (show 0 < created.vmm.freePages by omega) with ⟨ustack, allocated, isAllocated⟩
  have lessAllocated := freePages_allocPage there isAllocated
  rcases allocPage_spec there isAllocated with ⟨soundAllocated, only, free, added⟩
  have isAdded : allocated.vmm.Allocated ustack := (added ustack).mpr (Or.inr rfl)
  have unheld : Unheld (allocated.holds (view.setAlive p true)) ustack := by
    rw [only.holds]
    exact unheld_of_free there free
  have validAllocated : (view.setAlive p true).valid allocated.cur = true := by
    rw [only.cur]
    exact alive
  rcases fillTmp_exists soundAllocated validAllocated isAdded unheld (fun _ => 0) with
    ⟨zeroed, isZeroed, keepsZeroed⟩
  have soundZeroed := sound_keeps soundAllocated keepsZeroed
  rcases fillTmp_exists soundZeroed (by rwa [keepsZeroed.cur]) (by rwa [keepsZeroed.vmm])
    (by rwa [keepsZeroed.holds]) stack with ⟨prepared, isPrepared, keepsPrepared⟩
  have soundPrepared := sound_keeps soundZeroed keepsPrepared
  rcases enter_exists soundPrepared alive (show userStack < userPages by decide) (by
    rw [keepsPrepared.vmm, keepsZeroed.vmm]
    have isThere : (created.activate (.proc p)).vmm = created.vmm := rfl
    rw [isThere] at lessAllocated
    omega) ustack with ⟨entered, isEntered⟩
  have isBreak : entered.procBreak (.proc p) userText (BitVec.ofNat 32 (userText * 4096) + 0) =
      some (entered, userText) := rfl
  have isRead : entered.readFile 0 image = some entered := rfl
  refine ⟨entered, userText, ?_⟩
  simp only [createMemory, isCreated, isAllocated, zeroPage, isZeroed, isPrepared, isEntered,
    isBreak, isRead, Option.bind_eq_bind, Option.bind_some, Option.pure_def]

/-! ## Old address spaces -/

/-- Different entries of the active page directory point to different allocated pages. -/
structure Freeable (m : Machine) (pdIndexes : List ℕ) : Prop where
  self : target (m.mem (m.dirs m.cur) pteMapIndex) = some (m.dirs m.cur)
  nodup : pdIndexes.Nodup
  distinct : ∀ i ∈ pdIndexes, ∀ j ∈ pdIndexes, ∀ page,
    target (m.mem (m.dirs m.cur) i) = some page →
      target (m.mem (m.dirs m.cur) j) = some page → i = j
  allocated : ∀ i ∈ pdIndexes, ∀ page, target (m.mem (m.dirs m.cur) i) = some page →
    m.vmm.Allocated page

theorem freeTables_exists {pdIndexes : List ℕ} (freeable : Freeable m pdIndexes) :
    ∃ m', freeTables pdIndexes m = some m' := by
  induction pdIndexes generalizing m with
  | nil => exact ⟨m, rfl⟩
  | cons pdIndex rest ih =>
      have loaded : m.load pgDir pdIndex = some (m.mem (m.dirs m.cur) pdIndex) := by
        have isLast : pgDir / tableLen = pteMapIndex := by decide
        have last : pgDir % tableLen = pteMapIndex := by decide
        rw [load, walk, isLast, last, freeable.self, Option.bind_some, freeable.self,
          Option.map_some]
      have others : ∀ i, i ∈ rest → i ∈ pdIndex :: rest := fun i => List.mem_cons_of_mem pdIndex
      simp only [freeTables, loaded, Option.bind_eq_bind, Option.bind_some]
      cases isTable : target (m.mem (m.dirs m.cur) pdIndex) with
      | none =>
          exact ih ⟨freeable.self, freeable.nodup.of_cons,
            fun i isIn j isIn' => freeable.distinct i (others i isIn) j (others j isIn'),
            fun i isIn => freeable.allocated i (others i isIn)⟩
      | some table =>
          have wasAllocated := freeable.allocated pdIndex List.mem_cons_self table isTable
          rcases Vmm.freePage_isSome wasAllocated with ⟨vmm, isFreed⟩
          have freed : m.freePage table = some { m with vmm := vmm } := by
            rw [freePage, isFreed, Option.map_some]
          simp only [freed, Option.bind_some]
          refine @ih { m with vmm := vmm } ⟨freeable.self, freeable.nodup.of_cons,
            fun i isIn j isIn' => freeable.distinct i (others i isIn) j (others j isIn'), ?_⟩
          intro i isIn page isPage
          refine ((Vmm.freePage_spec isFreed).2 page).mpr
            ⟨freeable.allocated i (others i isIn) page isPage, ?_⟩
          rintro rfl
          have same := freeable.distinct i (others i isIn) pdIndex List.mem_cons_self page isPage
            isTable
          rw [same] at isIn
          exact (List.nodup_cons.mp freeable.nodup).1 isIn

end

end Machine

end Osix.Vm
