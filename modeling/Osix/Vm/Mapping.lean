import Osix.Vm.Holders

/-!
# What the page table functions do to the holders

One statement for each function of `pmap.c` and for `vmm_alloc_page` and `vmm_free_page`,
in terms of the holders: which holder gains or loses a frame and which frames become
allocated or free, and that new entries of page directories are open to user mode. From here
on nothing looks at the words of page tables.
-/

namespace Osix.Vm

open Ownership

namespace Machine

section

variable {view : View} {m m' : Machine} {p : ProcId} {page vpage : ℕ}

/-! ## Stores to page directories and page tables -/

theorem lt_pageCount (sound : Sound view m) {holder : Holder}
    (held : m.holds view holder = some page) : page < pageCount :=
  Vmm.lt_of_allocated (sound.allocated holder page held)

theorem unheld_of_free (sound : Sound view m) (free : ¬m.vmm.Allocated page) :
    Unheld (m.holds view) page :=
  fun holder held => free (sound.allocated holder page held)

/-- Two holders have different frames. -/
theorem ne_of_holders (sound : Sound view m) {a b : Holder} {pageA pageB : ℕ}
    (holdsA : m.holds view a = some pageA) (holdsB : m.holds view b = some pageB)
    (different : a ≠ b) : pageA ≠ pageB := by
  rintro rfl
  exact different (sound.exclusive a b pageA holdsA holdsB)

/-- A store to a page table changes the mapping of one page. -/
theorem holds_pokeTable (sound : Sound view m) (alive : view.alive p = true) {pdIndex table : ℕ}
    (isTable : m.tableOf p pdIndex = some table) {index : ℕ} (inTable : index < tableLen)
    (word : Word) :
    (m.poke table index word).holds view =
      Function.update (m.holds view) (.page p (pdIndex * tableLen + index)) (target word) := by
  have heldTable : m.holds view (.table p pdIndex) = some table := holds_table.mpr ⟨alive, isTable⟩
  have dirs : ∀ q, view.alive q = true → m.dirs (.proc q) ≠ table := fun q aliveQ =>
    ne_of_holders sound (holds_dir aliveQ) heldTable (by simp)
  have tables : ∀ q, view.alive q = true → ∀ pd, (m.poke table index word).tableOf q pd =
      m.tableOf q pd := by
    intro q aliveQ pd
    simp [tableOf, poke, dirs q aliveQ]
  have div : (pdIndex * tableLen + index) / tableLen = pdIndex := by
    simp only [tableLen] at inTable ⊢
    omega
  have mod : (pdIndex * tableLen + index) % tableLen = index := by
    simp only [tableLen] at inTable ⊢
    omega
  funext holder
  cases holder with
  | zero => simp [holds]
  | sysDir => simp [holds, poke]
  | sysTable => simp [holds, poke]
  | dir q => simp [holds, poke]
  | pending q => simp [holds]
  | table q pd =>
      rw [Function.update_of_ne (by simp)]
      by_cases aliveQ : view.alive q = true
      · simp only [holds, aliveQ, tables q aliveQ pd]
      · simp [holds, aliveQ]
  | page q v =>
      by_cases same : q = p ∧ v = pdIndex * tableLen + index
      · rcases same with ⟨rfl, rfl⟩
        rw [Function.update_self]
        simp only [holds, alive, if_true, pageOf, tables q alive, div, mod, isTable,
          Option.bind_some]
        simp [poke]
      · rw [Function.update_of_ne (by simpa using same)]
        by_cases aliveQ : view.alive q = true
        · simp only [holds, aliveQ, if_true, pageOf, tables q aliveQ]
          cases isOther : m.tableOf q (v / tableLen) with
          | none => rfl
          | some other =>
              simp only [Option.bind_some]
              by_cases sameTable : other = table
              · -- The same table, so another word of it.
                subst sameTable
                have heldOther : m.holds view (.table q (v / tableLen)) = some other :=
                  holds_table.mpr ⟨aliveQ, isOther⟩
                have sameHolder := sound.exclusive _ _ _ heldOther heldTable
                simp only [Holder.table.injEq] at sameHolder
                have otherIndex : v % tableLen ≠ index := by
                  intro sameIndex
                  apply same
                  refine ⟨sameHolder.1, ?_⟩
                  rw [← sameHolder.2, ← sameIndex]
                  exact (Nat.div_add_mod' v tableLen).symm
                simp [poke, otherIndex]
              · simp [poke, sameTable]
        · simp [holds, aliveQ]

/-- An empty page table that is stored in a page directory has no pages. -/
theorem holds_pokeDir (sound : Sound view m) (alive : view.alive p = true) {pdIndex table : ℕ}
    (user : pdIndex < sysIndex) (noTable : m.tableOf p pdIndex = none) {word : Word}
    (isTable : target word = some table) (unheld : Unheld (m.holds view) table)
    (empty : m.mem table = fun _ => 0) :
    (m.poke (m.dirs (.proc p)) pdIndex word).holds view =
      Function.update (m.holds view) (.table p pdIndex) (some table) := by
  have heldDir : m.holds view (.dir p) = some (m.dirs (.proc p)) := holds_dir alive
  have notDir : table ≠ m.dirs (.proc p) := fun same => unheld (.dir p) (by rw [heldDir, same])
  have dirs : ∀ q, view.alive q = true → q ≠ p → m.dirs (.proc q) ≠ m.dirs (.proc p) :=
    fun q aliveQ different =>
      ne_of_holders sound (holds_dir aliveQ) heldDir (by simpa using different)
  have tables : ∀ q, view.alive q = true → ∀ pd,
      (m.poke (m.dirs (.proc p)) pdIndex word).tableOf q pd =
        if q = p ∧ pd = pdIndex then some table else m.tableOf q pd := by
    intro q aliveQ pd
    rcases eq_or_ne q p with rfl | different
    · rcases eq_or_ne pd pdIndex with rfl | otherIndex
      · simp [tableOf, user, poke, isTable]
      · simp [tableOf, poke, otherIndex]
    · simp [tableOf, poke, dirs q aliveQ different, different]
  funext holder
  cases holder with
  | zero => simp [holds]
  | sysDir => simp [holds, poke]
  | sysTable => simp [holds, poke]
  | dir q => simp [holds, poke]
  | pending q => simp [holds]
  | table q pd =>
      by_cases same : q = p ∧ pd = pdIndex
      · rcases same with ⟨rfl, rfl⟩
        rw [Function.update_self]
        simp [holds, alive, tables q alive]
      · rw [Function.update_of_ne (by simpa using same)]
        by_cases aliveQ : view.alive q = true
        · simp only [holds, aliveQ, if_true, tables q aliveQ, if_neg same]
        · simp [holds, aliveQ]
  | page q v =>
      rw [Function.update_of_ne (by simp)]
      by_cases aliveQ : view.alive q = true
      · simp only [holds, aliveQ, if_true, pageOf, tables q aliveQ]
        split
        · rename_i same
          rcases same with ⟨rfl, isIndex⟩
          simp [isIndex, noTable, poke, notDir, empty]
        · cases isOther : m.tableOf q (v / tableLen) with
          | none => rfl
          | some other =>
              have heldOther : m.holds view (.table q (v / tableLen)) = some other :=
                holds_table.mpr ⟨aliveQ, isOther⟩
              have notSame : other ≠ m.dirs (.proc p) :=
                ne_of_holders sound heldOther heldDir (by simp)
              simp [poke, notSame]
      · simp [holds, aliveQ]

/-- A store to a page directory or page table leaves the entries for the kernel alone. -/
theorem sound_poke (sound : Sound view m) {target' index : ℕ} {word : Word}
    (exclusive : Exclusive ((m.poke target' index word).holds view))
    (allocated : ∀ holder page, (m.poke target' index word).holds view holder = some page →
      m.vmm.Allocated page)
    (entries : ∀ pmap, view.valid pmap = true → m.dirs pmap = target' → index < sysIndex) :
    Sound view (m.poke target' index word) := by
  have words : ∀ pmap, view.valid pmap = true → ∀ other, sysIndex ≤ other →
      (m.poke target' index word).mem (m.dirs pmap) other = m.mem (m.dirs pmap) other := by
    intro pmap valid other atLeast
    rcases eq_or_ne (m.dirs pmap) target' with same | different
    · have below := entries pmap valid same
      have otherIndex : other ≠ index := by omega
      simp [poke, same, otherIndex]
    · simp [poke, different]
  refine ⟨exclusive, allocated, ?_, ?_⟩
  · intro pmap valid
    have same := words pmap valid sysIndex le_rfl
    change target ((m.poke target' index word).mem (m.dirs pmap) sysIndex) = _
    rw [same]
    exact sound.kernel pmap valid
  · intro pmap valid
    have same := words pmap valid pteMapIndex (by decide)
    change target ((m.poke target' index word).mem (m.dirs pmap) pteMapIndex) = _
    rw [same]
    exact sound.self pmap valid

theorem grants_entry (page : ℕ) :
    Grants (entry page (pagePresent ||| pageWritable ||| pageUser)) := by
  have flags : ∀ i < 32, (pageWritable ||| pageUser).getLsbD i = true →
      (pagePresent ||| pageWritable ||| pageUser).getLsbD i = true := by decide
  apply BitVec.eq_of_getLsbD_eq
  intro i inWord
  rw [BitVec.getLsbD_and]
  cases isFlag : (pageWritable ||| pageUser).getLsbD i with
  | false => rw [Bool.and_false]
  | true => rw [entry, BitVec.getLsbD_or, flags i inWord isFlag, Bool.or_true, Bool.and_true]

/-! ## Allocating and freeing -/

/-- Only the bitmap has changed. -/
structure OnlyVmm (m m' : Machine) : Prop where
  mem : m'.mem = m.mem
  cur : m'.cur = m.cur
  dirs : m'.dirs = m.dirs
  sysTable : m'.sysTable = m.sysTable

theorem OnlyVmm.holds (only : OnlyVmm m m') : m'.holds view = m.holds view :=
  holds_congr (fun _ _ => by rw [only.dirs]) only.sysTable fun _ _ _ _ => by rw [only.mem]

theorem OnlyVmm.granted (only : OnlyVmm m m') (granted : Granted view m) : Granted view m' :=
  granted_congr (fun _ _ => by rw [only.dirs]) (fun _ _ => by rw [only.mem]) granted

/-- `vmm_alloc_page` gives out a frame that nobody holds. -/
theorem allocPage_spec (sound : Sound view m) (result : m.allocPage = some (page, m')) :
    Sound view m' ∧ OnlyVmm m m' ∧ ¬m.vmm.Allocated page ∧
      ∀ other, m'.vmm.Allocated other ↔ m.vmm.Allocated other ∨ other = page := by
  rw [allocPage, Option.map_eq_some_iff] at result
  rcases result with ⟨⟨found, vmm⟩, isResult, pair⟩
  cases pair
  rcases Vmm.allocPage_spec isResult with ⟨free, added⟩
  refine ⟨⟨sound.exclusive, ?_, sound.kernel, sound.self⟩, ⟨rfl, rfl, rfl, rfl⟩, free, added⟩
  intro holder other held
  exact (added other).mpr (Or.inl (sound.allocated holder other held))

/-- `vmm_free_page` of a frame that nobody holds. -/
theorem freePage_spec (sound : Sound view m) (unheld : Unheld (m.holds view) page)
    (result : m.freePage page = some m') :
    Sound view m' ∧ OnlyVmm m m' ∧
      ∀ other, m'.vmm.Allocated other ↔ m.vmm.Allocated other ∧ other ≠ page := by
  rw [freePage, Option.map_eq_some_iff] at result
  rcases result with ⟨vmm, isResult, rfl⟩
  rcases Vmm.freePage_spec isResult with ⟨_, removed⟩
  refine ⟨⟨sound.exclusive, ?_, sound.kernel, sound.self⟩, ⟨rfl, rfl, rfl, rfl⟩, removed⟩
  intro holder other held
  refine (removed other).mpr ⟨sound.allocated holder other held, ?_⟩
  rintro rfl
  exact unheld holder held

/-! ## Entering, removing and looking up mappings -/

theorem dir_of_proc (user : vpage < userPages) : vpage / tableLen < sysIndex := by
  simp only [userPages, sysIndex, tableLen] at user ⊢
  omega

theorem tableOf_eq (user : vpage < userPages) :
    m.tableOf p (vpage / tableLen) = target (m.mem (m.dirs (.proc p)) (vpage / tableLen)) := by
  rw [tableOf, if_pos (dir_of_proc user)]

/-- The page of a page table that `pmap_remove` and `pmap_enter` store to. -/
theorem store_pteMap (sound : Sound view m) (alive : view.alive p = true)
    (user : vpage < userPages) {word : Word}
    (stored : (m.activate (.proc p)).store (pteMap (vpage / tableLen)) (vpage % tableLen) word =
      some m') :
    ∃ table, m.tableOf p (vpage / tableLen) = some table ∧
      m' = (m.poke table (vpage % tableLen) word).activate (.proc p) := by
  have inDir : vpage / tableLen < tableLen := by
    have below := dir_of_proc user
    simp only [sysIndex, tableLen] at below ⊢
    omega
  rw [store, walk_pteMap_activate sound (.proc p) alive inDir, ← tableOf_eq user,
    Option.map_eq_some_iff] at stored
  rcases stored with ⟨table, isTable, rfl⟩
  exact ⟨table, isTable, rfl⟩

theorem poke_page (sound : Sound view m) (alive : view.alive p = true)
    {table : ℕ} (isTable : m.tableOf p (vpage / tableLen) = some table) (word : Word) :
    (m.poke table (vpage % tableLen) word).holds view =
      Function.update (m.holds view) (.page p vpage) (target word) := by
  rw [holds_pokeTable sound alive isTable (Nat.mod_lt _ (by decide)), Nat.div_add_mod']

theorem not_dir_of_table (sound : Sound view m) (alive : view.alive p = true) {pdIndex table : ℕ}
    (isTable : m.tableOf p pdIndex = some table) {pmap : PmapId} (valid : view.valid pmap = true) :
    m.dirs pmap ≠ table := by
  have heldTable : m.holds view (.table p pdIndex) = some table := holds_table.mpr ⟨alive, isTable⟩
  cases pmap with
  | kernel => exact ne_of_holders sound (a := .sysDir) rfl heldTable (by simp)
  | proc q => exact ne_of_holders sound (holds_dir valid) heldTable (by simp)

theorem granted_pokeTable (sound : Sound view m) (alive : view.alive p = true)
    {pdIndex table index : ℕ} {word : Word} (isTable : m.tableOf p pdIndex = some table)
    (granted : Granted view m) : Granted view (m.poke table index word) := by
  refine granted_congr (m := m) (fun _ _ => rfl) (fun q aliveQ => ?_) granted
  have notDir : m.dirs (.proc q) ≠ table :=
    not_dir_of_table sound alive isTable aliveQ
  simp [poke, notDir]

/-- `pmap_remove` takes away the mapping of one page. -/
theorem remove_spec (sound : Sound view m) (alive : view.alive p = true)
    (user : vpage < userPages) (removed : m.remove (.proc p) vpage = some m') :
    Sound view m' ∧ m'.holds view = Function.update (m.holds view) (.page p vpage) none ∧
      m'.vmm = m.vmm ∧ m'.cur = m.cur ∧ (Granted view m → Granted view m') := by
  rw [remove, Option.map_eq_some_iff] at removed
  rcases removed with ⟨stored, isStored, rfl⟩
  rcases store_pteMap sound alive user isStored with ⟨table, isTable, rfl⟩
  have changed : (m.poke table (vpage % tableLen) 0).holds view =
      Function.update (m.holds view) (.page p vpage) none := by
    rw [poke_page sound alive isTable]
    rfl
  have kept : Sound view (m.poke table (vpage % tableLen) 0) := by
    apply sound_poke sound
    · rw [changed]
      exact sound.exclusive.take
    · intro holder page held
      rw [changed] at held
      rcases eq_or_ne holder (.page p vpage) with rfl | different
      · simp at held
      · rw [Function.update_of_ne different] at held
        exact sound.allocated holder page held
    · intro pmap valid same
      exact absurd same (not_dir_of_table sound alive isTable valid)
  exact ⟨sound_activate (sound_activate kept (.proc p)) m.cur, changed, rfl, rfl,
    granted_pokeTable sound alive isTable⟩

/-- `pmap_extract` finds the frame of a page, or 0. -/
theorem extract_spec (sound : Sound view m) (alive : view.alive p = true)
    (user : vpage < userPages) (extracted : m.extract (.proc p) vpage = some page) :
    page = (m.holds view (.page p vpage)).getD 0 := by
  have inDir : vpage / tableLen < tableLen := by
    have below := dir_of_proc user
    simp only [sysIndex, tableLen] at below ⊢
    omega
  simp only [extract, load_pgDir_activate sound (.proc p) alive, Option.bind_eq_bind,
    Option.bind_some] at extracted
  split at extracted
  · rename_i absent
    have noTable : m.tableOf p (vpage / tableLen) = none := by
      rw [tableOf_eq user, target_eq_none]
      exact absent
    simp only [Option.pure_def, Option.some.injEq] at extracted
    simp [holds, alive, pageOf, noTable, ← extracted]
  · rw [load, walk_pteMap_activate sound (.proc p) alive inDir, ← tableOf_eq user,
      Option.bind_eq_some_iff] at extracted
    rcases extracted with ⟨pte, isPte, isPage⟩
    rw [Option.map_eq_some_iff] at isPte
    rcases isPte with ⟨table, isTable, rfl⟩
    simp only [Option.pure_def, Option.some.injEq] at isPage
    simp only [holds, alive, if_true, pageOf, isTable, Option.bind_some]
    exact isPage.symm

/-- A frame that is held is not frame 0, which `pmap_extract` takes for no mapping. -/
theorem ne_zero_of_holds (sound : Sound view m) {holder : Holder}
    (held : m.holds view holder = some page) (notZero : holder ≠ .zero) : page ≠ 0 :=
  ne_of_holders sound held (b := .zero) rfl notZero

theorem extract_eq_zero (sound : Sound view m) (alive : view.alive p = true)
    (user : vpage < userPages) (extracted : m.extract (.proc p) vpage = some 0) :
    m.holds view (.page p vpage) = none := by
  have isZero := extract_spec sound alive user extracted
  cases held : m.holds view (.page p vpage) with
  | none => rfl
  | some page =>
      rw [held, Option.getD_some] at isZero
      exact absurd isZero.symm (ne_zero_of_holds sound held (by simp))

/-- What `pmap_enter` does: the page, and perhaps a new page table for it. -/
structure Entered (view : View) (p : ProcId) (vpage page table : ℕ) (m m' : Machine) : Prop where
  holds : m'.holds view = Function.update (Function.update (m.holds view)
    (.table p (vpage / tableLen)) (some table)) (.page p vpage) (some page)
  allocated : ∀ other, m'.vmm.Allocated other ↔ m.vmm.Allocated other ∨ other = table
  table : m.holds view (.table p (vpage / tableLen)) = some table ∨
    m.holds view (.table p (vpage / tableLen)) = none ∧ ¬m.vmm.Allocated table
  cur : m'.cur = m.cur
  granted : Granted view m → Granted view m'

theorem lt_of_pageCount (small : page < pageCount) : page < 2 ^ 20 := by
  simp only [pageCount] at small
  omega

/-- The new page table of `pmap_enter`. -/
theorem newTable_spec (sound : Sound view m) (alive : view.alive p = true) {pdIndex : ℕ}
    (user : pdIndex < sysIndex) (isCur : m.cur = .proc p) (noTable : m.tableOf p pdIndex = none)
    (made : newTable zeroPage m pdIndex = some m') :
    Sound view m' ∧ ∃ table, ¬m.vmm.Allocated table ∧ m'.tableOf p pdIndex = some table ∧
      m'.holds view = Function.update (m.holds view) (.table p pdIndex) (some table) ∧
      (∀ other, m'.vmm.Allocated other ↔ m.vmm.Allocated other ∨ other = table) ∧
      m'.cur = m.cur ∧ (Granted view m → Granted view m') := by
  simp only [newTable, Option.bind_eq_bind, Option.bind_eq_some_iff] at made
  rcases made with ⟨⟨table, allocated⟩, isAllocated, zeroed, isZeroed, stored⟩
  rcases allocPage_spec sound isAllocated with ⟨soundAllocated, only, fresh, added⟩
  have isAdded : allocated.vmm.Allocated table := (added table).mpr (Or.inr rfl)
  have small := lt_of_pageCount (Vmm.lt_of_allocated isAdded)
  have unheld : Unheld (allocated.holds view) table := by
    rw [only.holds]
    exact unheld_of_free sound fresh
  have valid : view.valid allocated.cur = true := by
    rw [only.cur, isCur]
    exact alive
  have notSys : table ≠ allocated.sysTable := fun same => unheld .sysTable (by rw [same]; rfl)
  rcases fillTmp_spec soundAllocated valid small (notWalked_of_unheld unheld) notSys isZeroed with
    ⟨keeps, empty⟩
  have soundZeroed := sound_keeps soundAllocated keeps
  have unheldZeroed : Unheld (zeroed.holds view) table := by
    rw [keeps.holds]
    exact unheld
  have sameHolds : zeroed.holds view = m.holds view := by rw [keeps.holds, only.holds]
  have noTableZeroed : zeroed.tableOf p pdIndex = none := by
    have none : m.holds view (.table p pdIndex) = none := by simp [holds, noTable]
    rw [← sameHolds] at none
    simpa [holds, alive] using none
  have zeroedCur : zeroed.cur = .proc p := by rw [keeps.cur, only.cur, isCur]
  rw [store, walk_pgDir soundZeroed (by rw [zeroedCur]; exact alive), zeroedCur, Option.map_some,
    Option.some.injEq] at stored
  have isEntry : target (entry table (pagePresent ||| pageWritable ||| pageUser)) = some table :=
    target_entry small (by decide) (by decide)
  have changed := holds_pokeDir soundZeroed alive user noTableZeroed isEntry unheldZeroed empty
  rw [stored, sameHolds] at changed
  have soundStored : Sound view m' := by
    rw [← stored]
    apply sound_poke soundZeroed
    · rw [stored, changed]
      exact sound.exclusive.give (unheld_of_free sound fresh)
    · intro holder other held
      rw [stored, changed] at held
      rw [keeps.vmm]
      rcases eq_or_ne holder (.table p pdIndex) with rfl | different
      · rw [Function.update_self, Option.some.injEq] at held
        rwa [← held]
      · rw [Function.update_of_ne different] at held
        exact (added other).mpr (Or.inl (sound.allocated holder other held))
    · intro pmap valid same
      exact user
  have dirs : ∀ q, view.alive q = true → q ≠ p → zeroed.dirs (.proc q) ≠ zeroed.dirs (.proc p) :=
    fun q aliveQ different => ne_of_holders soundZeroed (holds_dir aliveQ) (holds_dir alive)
      (by simpa using different)
  refine ⟨soundStored, table, fresh, ?_, changed, ?_, ?_, ?_⟩
  · have held : m'.holds view (.table p pdIndex) = some table := by
      rw [changed, Function.update_self]
    exact (holds_table.mp held).2
  · intro other
    rw [← stored]
    change zeroed.vmm.Allocated other ↔ _
    rw [keeps.vmm]
    exact added other
  · rw [← stored]
    exact keeps.cur.trans only.cur
  · intro granted
    have grantedZeroed := granted_keeps keeps (only.granted granted)
    rw [← stored]
    intro q aliveQ index isOwn
    change (zeroed.poke _ pdIndex _).mem (zeroed.dirs (.proc q)) index &&& _ ≠ 0 →
      Grants ((zeroed.poke _ pdIndex _).mem (zeroed.dirs (.proc q)) index)
    rcases eq_or_ne q p with rfl | different
    · rcases eq_or_ne index pdIndex with rfl | otherIndex
      · intro _
        simpa [poke] using grants_entry table
      · simpa [poke, otherIndex] using grantedZeroed q aliveQ index isOwn
    · simpa [poke, dirs q aliveQ different] using grantedZeroed q aliveQ index isOwn

/-- The entry for a user page in a page table that exists. -/
theorem enterRaw_spec (sound : Sound view m) (alive : view.alive p = true)
    (user : vpage < userPages) (isCur : m.cur = .proc p) {table : ℕ}
    (isTable : m.tableOf p (vpage / tableLen) = some table) (allocated : m.vmm.Allocated page)
    (unheld : Unheld (m.holds view) page)
    (entered : m.enterRaw (.proc p) vpage page true = some m') :
    Sound view m' ∧ m'.holds view = Function.update (m.holds view) (.page p vpage) (some page) ∧
      m'.vmm = m.vmm ∧ m'.cur = m.cur ∧ (Granted view m → Granted view m') := by
  have activated : m = m.activate (.proc p) := by rw [activate, ← isCur]
  simp only [enterRaw, if_true, reduceCtorEq, if_false] at entered
  rw [activated] at entered
  rcases store_pteMap sound alive user entered with ⟨found, isFound, rfl⟩
  rw [isTable, Option.some.injEq] at isFound
  subst isFound
  have isEntry : target (entry page (pagePresent ||| pageWritable ||| pageUser)) = some page :=
    target_entry (lt_of_pageCount (Vmm.lt_of_allocated allocated)) (by decide) (by decide)
  have changed := poke_page sound alive isTable
    (entry page (pagePresent ||| pageWritable ||| pageUser))
  rw [isEntry] at changed
  refine ⟨sound_activate ?_ (.proc p), changed, rfl, isCur.symm,
    granted_pokeTable sound alive isTable⟩
  apply sound_poke sound
  · rw [changed]
    exact sound.exclusive.give unheld
  · intro holder other held
    rw [changed] at held
    rcases eq_or_ne holder (.page p vpage) with rfl | different
    · rw [Function.update_self, Option.some.injEq] at held
      rwa [← held]
    · rw [Function.update_of_ne different] at held
      exact sound.allocated holder other held
  · intro pmap valid same
    exact absurd same (not_dir_of_table sound alive isTable valid)

/-- `pmap_enter` of a frame that nobody holds. -/
theorem enter_spec (sound : Sound view m) (alive : view.alive p = true)
    (user : vpage < userPages) (allocated : m.vmm.Allocated page)
    (unheld : Unheld (m.holds view) page)
    (entered : m.enter (.proc p) vpage page true = some m') :
    Sound view m' ∧ ∃ table, Entered view p vpage page table m m' := by
  have there := sound_activate sound (.proc p)
  have dirIndex := dir_of_proc user
  simp only [enter, enterUsing, load_pgDir_activate sound (.proc p) alive, Option.bind_eq_bind,
    Option.bind_some, Option.pure_def] at entered
  split at entered
  · rename_i absent
    simp only [Option.bind_eq_some_iff, Option.some.injEq] at entered
    rcases entered with ⟨withTable, isWith, stored, isStored, rfl⟩
    have noTable : m.tableOf p (vpage / tableLen) = none := by
      rw [tableOf_eq user, target_eq_none]
      exact absent
    rcases newTable_spec there alive dirIndex rfl noTable isWith with
      ⟨soundWith, table, fresh, isTable, holdsWith, added, cur, grantedWith⟩
    have notTable : page ≠ table := by
      rintro rfl
      exact fresh allocated
    have unheldWith : Unheld (withTable.holds view) page := by
      rw [holdsWith]
      exact unheld.give notTable
    rcases enterRaw_spec soundWith alive user cur isTable ((added page).mpr (Or.inl allocated))
      unheldWith isStored with ⟨soundStored, holdsStored, vmm, _, grantedStored⟩
    refine ⟨sound_activate soundStored m.cur, table, ?_, ?_, ?_, rfl,
      fun granted => grantedStored (grantedWith granted)⟩
    · change stored.holds view = _
      rw [holdsStored, holdsWith]
      rfl
    · intro other
      change stored.vmm.Allocated other ↔ _
      rw [vmm]
      exact added other
    · right
      exact ⟨by simp [holds, noTable], fresh⟩
  · rename_i present
    simp only [Option.bind_eq_some_iff, Option.some.injEq] at entered
    rcases entered with ⟨stored, isStored, rfl⟩
    cases isTable : m.tableOf p (vpage / tableLen) with
    | none =>
        rw [tableOf_eq user, target_eq_none] at isTable
        exact absurd isTable present
    | some table =>
        rcases enterRaw_spec there alive user rfl isTable allocated unheld isStored with
          ⟨soundStored, holdsStored, vmm, _, grantedStored⟩
        have heldTable : m.holds view (.table p (vpage / tableLen)) = some table :=
          holds_table.mpr ⟨alive, isTable⟩
        refine ⟨sound_activate soundStored m.cur, table, ?_, ?_, Or.inl heldTable, rfl,
          grantedStored⟩
        · change stored.holds view = _
          rw [holdsStored, ← heldTable, Function.update_eq_self]
          rfl
        · intro other
          change stored.vmm.Allocated other ↔ _
          rw [vmm]
          constructor
          · exact Or.inl
          · rintro (before | rfl)
            · exact before
            · exact sound.allocated _ _ heldTable

/-! ## Address spaces -/

theorem holds_setPending (view : View) (m : Machine) (p : ProcId) (pending : Option ℕ) :
    m.holds (view.setPending p pending) =
      Function.update (m.holds view) (.pending p) pending := by
  funext holder
  cases holder with
  | pending q =>
      rcases eq_or_ne q p with rfl | different
      · simp [holds, View.setPending]
      · simp [holds, View.setPending, different]
  | _ =>
      rw [Function.update_of_ne (by simp)]
      rfl

theorem sound_setPending_none (sound : Sound view m) (p : ProcId) :
    Sound (view.setPending p none) m := by
  refine ⟨?_, ?_, sound.kernel, sound.self⟩
  · rw [holds_setPending]
    exact sound.exclusive.take
  · intro holder page held
    rw [holds_setPending] at held
    rcases eq_or_ne holder (.pending p) with rfl | different
    · simp at held
    · rw [Function.update_of_ne different] at held
      exact sound.allocated holder page held

theorem sound_setPending_some (sound : Sound view m) (p : ProcId)
    (unheld : Unheld (m.holds view) page) (allocated : m.vmm.Allocated page) :
    Sound (view.setPending p (some page)) m := by
  refine ⟨?_, ?_, sound.kernel, sound.self⟩
  · rw [holds_setPending]
    exact sound.exclusive.give unheld
  · intro holder other held
    rw [holds_setPending] at held
    rcases eq_or_ne holder (.pending p) with rfl | different
    · rw [Function.update_self, Option.some.injEq] at held
      rwa [← held]
    · rw [Function.update_of_ne different] at held
      exact sound.allocated holder other held

/-- A process that dies gives up all frames of its address space. -/
theorem holds_setDead (view : View) (m : Machine) (p : ProcId) (holder : Holder) :
    m.holds (view.setAlive p false) holder =
      if holder.owner = some p then none else m.holds view holder := by
  cases holder with
  | dir q =>
      rcases eq_or_ne q p with rfl | different
      · simp [holds, View.setAlive, Holder.owner]
      · simp [holds, View.setAlive, Holder.owner, different]
  | table q pdIndex =>
      rcases eq_or_ne q p with rfl | different
      · simp [holds, View.setAlive, Holder.owner]
      · simp [holds, View.setAlive, Holder.owner, different]
  | page q vpage =>
      rcases eq_or_ne q p with rfl | different
      · simp [holds, View.setAlive, Holder.owner]
      · simp [holds, View.setAlive, Holder.owner, different]
  | _ => simp [holds, View.setAlive, Holder.owner]

/-- A new page directory without user pages. -/
theorem holds_setAlive (dead : view.alive p = false)
    (empty : ∀ pdIndex < sysIndex, m.mem (m.dirs (.proc p)) pdIndex = 0#32) :
    m.holds (view.setAlive p true) =
      Function.update (m.holds view) (.dir p) (some (m.dirs (.proc p))) := by
  have noTable : ∀ pdIndex, m.tableOf p pdIndex = none := by
    intro pdIndex
    rw [tableOf]
    split
    · rename_i user
      rw [empty pdIndex user, target_zero]
    · rfl
  funext holder
  cases holder with
  | dir q =>
      rcases eq_or_ne q p with rfl | different
      · simp [holds, View.setAlive]
      · simp [holds, View.setAlive, different]
  | table q pdIndex =>
      rcases eq_or_ne q p with rfl | different
      · simp [holds, View.setAlive, noTable]
      · simp [holds, View.setAlive, different]
  | page q vpage =>
      rcases eq_or_ne q p with rfl | different
      · simp [holds, View.setAlive, pageOf, noTable]
      · simp [holds, View.setAlive, different]
  | _ => simp [holds, View.setAlive]

theorem sound_setAlive (sound : Sound view m) (dead : view.alive p = false)
    (empty : ∀ pdIndex < sysIndex, m.mem (m.dirs (.proc p)) pdIndex = 0#32)
    (allocated : m.vmm.Allocated (m.dirs (.proc p)))
    (unheld : Unheld (m.holds view) (m.dirs (.proc p)))
    (kernel : target (m.mem (m.dirs (.proc p)) sysIndex) = some m.sysTable)
    (self : target (m.mem (m.dirs (.proc p)) pteMapIndex) = some (m.dirs (.proc p))) :
    Sound (view.setAlive p true) m := by
  have before : ∀ pmap, (view.setAlive p true).valid pmap = true → pmap ≠ .proc p →
      view.valid pmap = true := by
    intro pmap valid different
    cases pmap with
    | kernel => rfl
    | proc q =>
        have other : q ≠ p := by simpa using different
        simpa [View.valid, View.setAlive, other] using valid
  refine ⟨?_, ?_, ?_, ?_⟩
  · rw [holds_setAlive dead empty]
    exact sound.exclusive.give unheld
  · intro holder page held
    rw [holds_setAlive dead empty] at held
    rcases eq_or_ne holder (.dir p) with rfl | different
    · rw [Function.update_self, Option.some.injEq] at held
      rwa [← held]
    · rw [Function.update_of_ne different] at held
      exact sound.allocated holder page held
  · intro pmap valid
    rcases eq_or_ne pmap (.proc p) with rfl | different
    · exact kernel
    · exact sound.kernel pmap (before pmap valid different)
  · intro pmap valid
    rcases eq_or_ne pmap (.proc p) with rfl | different
    · exact self
    · exact sound.self pmap (before pmap valid different)

theorem keeps_writeDir (sound : Sound view m) {dir : ℕ} (notWalked : NotWalked view m dir)
    (kernel self : Word) : Keeps view m (m.writeDir dir kernel self) := by
  have keeps1 := keeps_fillPage notWalked fun _ => 0
  have notWalked1 := notWalked_keeps keeps1 notWalked
  have keeps2 := keeps_poke notWalked1 sysIndex kernel
  have notWalked2 := notWalked_keeps keeps2 notWalked1
  have keeps3 := keeps_poke notWalked2 pteMapIndex self
  have sound3 := sound_keeps (sound_keeps (sound_keeps sound keeps1) keeps2) keeps3
  have keeps4 := keeps_poke (notWalked_sysTable sound3) 1 0
  exact ((keeps1.trans keeps2).trans keeps3).trans keeps4

/-- A page directory of a process that is not part of the view yet. -/
theorem keeps_named (dead : view.alive p = false) (m : Machine) (dir : ℕ) :
    Keeps view m { m with dirs := Function.update m.dirs (.proc p) dir } := by
  refine ⟨rfl, rfl, ?_, rfl, fun _ _ _ _ => rfl⟩
  intro pmap isValid
  have different : pmap ≠ .proc p := by
    rintro rfl
    rw [View.valid, dead] at isValid
    cases isValid
  exact Function.update_of_ne different _ _

/-- The frame for the new page directory, and how its words get there. -/
structure Created (view : View) (p : ProcId) (dir : ℕ) (m allocated m' : Machine) : Prop where
  isAllocated : m.allocPage = some (dir, allocated)
  keeps : Keeps view allocated m'
  written : m' = (({ allocated with dirs := Function.update allocated.dirs (.proc p) dir }.poke
    allocated.sysTable 1 (kernelEntry dir true)).writeDir dir
      (entry m.sysTable (pagePresent ||| pageWritable ||| pageUser))
      (entry dir (pagePresent ||| pageWritable ||| pageUser)))

/-- `pmap_create` with a frame for the page directory. -/
theorem created_of_allocPage (sound : Sound view m) (valid : view.valid m.cur = true)
    (dead : view.alive p = false) {dir : ℕ} {allocated : Machine}
    (isAllocated : m.allocPage = some (dir, allocated)) :
    ∃ m', m.create (.proc p) = some m' ∧ Created view p dir m allocated m' := by
  rcases allocPage_spec sound isAllocated with ⟨soundAllocated, only, fresh, added⟩
  have small := lt_of_pageCount (Vmm.lt_of_allocated ((added dir).mpr (Or.inr rfl)))
  have unheld := unheld_of_free sound fresh
  have notSys : dir ≠ m.sysTable := fun same => unheld .sysTable (by rw [same]; rfl)
  have named := keeps_named dead allocated dir
  have soundNamed := sound_keeps soundAllocated named
  have opened := keeps_poke (notWalked_sysTable soundNamed) 1 (kernelEntry dir true)
  have keeps := named.trans opened
  have notWalked : NotWalked view allocated dir := by
    apply notWalked_of_unheld
    rwa [only.holds]
  have unused : view.valid (.proc p) = false := dead
  refine ⟨_, sound.roots.create_eq valid unused isAllocated small
    (notDir_of_notWalked (notWalked_of_unheld unheld)) notSys, isAllocated, ?_, rfl⟩
  exact keeps.trans (keeps_writeDir (sound_keeps soundAllocated keeps)
    (notWalked_keeps keeps notWalked) _ _)

theorem created_of_create (sound : Sound view m) (valid : view.valid m.cur = true)
    (dead : view.alive p = false) (created : m.create (.proc p) = some m') :
    ∃ dir allocated, Created view p dir m allocated m' := by
  have unfolded := created
  simp only [create, Option.bind_eq_bind, Option.bind_eq_some_iff] at unfolded
  rcases unfolded with ⟨⟨dir, allocated⟩, isAllocated, _⟩
  rcases created_of_allocPage sound valid dead isAllocated with ⟨made, isMade, isCreated⟩
  rw [isMade, Option.some.injEq] at created
  rw [← created]
  exact ⟨dir, allocated, isCreated⟩

/-- `pmap_create` makes a page directory for a process that has none. -/
theorem create_spec (sound : Sound view m) (valid : view.valid m.cur = true)
    (dead : view.alive p = false) (created : m.create (.proc p) = some m') :
    Sound (view.setAlive p true) m' ∧ ∃ dir, ¬m.vmm.Allocated dir ∧
      (∀ other, m'.vmm.Allocated other ↔ m.vmm.Allocated other ∨ other = dir) ∧
      m'.holds (view.setAlive p true) = Function.update (m.holds view) (.dir p) (some dir) ∧
      m'.cur = m.cur ∧ (Granted view m → Granted (view.setAlive p true) m') := by
  rcases created_of_create sound valid dead created with
    ⟨dir, allocated, isAllocated, keeps, isWritten⟩
  rcases allocPage_spec sound isAllocated with ⟨soundAllocated, only, fresh, added⟩
  have isAdded : allocated.vmm.Allocated dir := (added dir).mpr (Or.inr rfl)
  have small := lt_of_pageCount (Vmm.lt_of_allocated isAdded)
  have sysSmall : m.sysTable < 2 ^ 20 :=
    lt_of_pageCount (lt_pageCount sound (show m.holds view .sysTable = some m.sysTable from rfl))
  have unheld : Unheld (allocated.holds view) dir := by
    rw [only.holds]
    exact unheld_of_free sound fresh
  have notSys : dir ≠ allocated.sysTable := fun same => unheld .sysTable (by rw [same]; rfl)
  have isDir : m'.dirs (.proc p) = dir := by
    rw [isWritten]
    exact Function.update_self ..
  have words : m'.mem dir = Function.update (Function.update (fun _ => 0) sysIndex
      (entry m.sysTable (pagePresent ||| pageWritable ||| pageUser))) pteMapIndex
      (entry dir (pagePresent ||| pageWritable ||| pageUser)) := by
    rw [isWritten]
    simp [writeDir, poke, fillPage, notSys]
  have soundWritten := sound_keeps soundAllocated keeps
  have sysTable : m'.sysTable = m.sysTable := by rw [keeps.sysTable, only.sysTable]
  have sameHolds : m'.holds view = m.holds view := by rw [keeps.holds, only.holds]
  have empty : ∀ pdIndex < sysIndex, m'.mem (m'.dirs (.proc p)) pdIndex = 0#32 := by
    intro pdIndex user
    have notSelf : pdIndex ≠ pteMapIndex := by
      simp only [sysIndex, pteMapIndex] at user ⊢
      omega
    rw [isDir, words, Function.update_of_ne notSelf, Function.update_of_ne (by omega)]
    rfl
  have finished : Sound (view.setAlive p true) m' := by
    apply sound_setAlive soundWritten dead empty
    · rw [isDir, keeps.vmm]
      exact isAdded
    · rw [isDir, sameHolds]
      exact unheld_of_free sound fresh
    · rw [isDir, words, Function.update_of_ne (by decide), Function.update_self, sysTable]
      exact target_entry sysSmall (by decide) (by decide)
    · rw [isDir, words, Function.update_self]
      exact target_entry small (by decide) (by decide)
  refine ⟨finished, dir, fresh, ?_, ?_, ?_, ?_⟩
  · intro other
    rw [keeps.vmm]
    exact added other
  · rw [holds_setAlive dead empty, isDir, sameHolds]
  · rw [keeps.cur, only.cur]
  · intro granted q aliveQ index isOwn present
    rcases eq_or_ne q p with rfl | different
    · rcases isOwn with user | rfl
      · rw [empty index user] at present
        exact absurd rfl present
      · rw [isDir, words, Function.update_self]
        exact grants_entry dir
    · have wasAlive : view.alive q = true := by simpa [View.setAlive, different] using aliveQ
      exact granted_keeps keeps (only.granted granted) q wasAlive index isOwn present

/-- The loop of `pmap_destroy` frees the page tables. -/
theorem freeTables_spec (pdIndexes : List ℕ)
    (self : target (m.mem (m.dirs m.cur) pteMapIndex) = some (m.dirs m.cur))
    (freed : freeTables pdIndexes m = some m') :
    OnlyVmm m m' ∧ ∀ other, m'.vmm.Allocated other ↔ m.vmm.Allocated other ∧
      ∀ pdIndex ∈ pdIndexes, target (m.mem (m.dirs m.cur) pdIndex) ≠ some other := by
  induction pdIndexes generalizing m with
  | nil =>
      cases freed
      exact ⟨⟨rfl, rfl, rfl, rfl⟩, by simp⟩
  | cons pdIndex rest ih =>
      have loaded : m.load pgDir pdIndex = some (m.mem (m.dirs m.cur) pdIndex) := by
        have index : pgDir / tableLen = pteMapIndex := by decide
        have last : pgDir % tableLen = pteMapIndex := by decide
        rw [load, walk, index, last, self, Option.bind_some, self, Option.map_some]
      simp only [freeTables, loaded, Option.bind_eq_bind, Option.bind_some] at freed
      split at freed
      · rename_i noTable
        rcases ih self freed with ⟨only, allocated⟩
        refine ⟨only, ?_⟩
        intro other
        rw [allocated other]
        simp [noTable]
      · rename_i table isTable
        rw [Option.bind_eq_some_iff] at freed
        rcases freed with ⟨middle, isFreed, freed⟩
        rw [freePage, Option.map_eq_some_iff] at isFreed
        rcases isFreed with ⟨vmm, isVmm, rfl⟩
        rcases Vmm.freePage_spec isVmm with ⟨_, removed⟩
        rcases @ih { m with vmm := vmm } self freed with ⟨only, allocated⟩
        refine ⟨⟨only.mem, only.cur, only.dirs, only.sysTable⟩, ?_⟩
        intro other
        rw [allocated other]
        change vmm.Allocated other ∧ _ ↔ _
        rw [removed other]
        simp only [List.mem_cons, forall_eq_or_imp, isTable, ne_eq, Option.some.injEq]
        constructor
        · rintro ⟨⟨was, notTable⟩, others⟩
          exact ⟨was, fun same => notTable same.symm, others⟩
        · rintro ⟨was, notTable, others⟩
          exact ⟨⟨was, fun same => notTable same.symm⟩, others⟩

/-- The page directory and the page tables of a process are gone. -/
structure Dead (view : View) (p : ProcId) (m m' : Machine) : Prop where
  mem : m'.mem = m.mem
  sysTable : m'.sysTable = m.sysTable
  dirs : ∀ pmap, pmap ≠ .proc p → m'.dirs pmap = m.dirs pmap
  allocated : ∀ other, m'.vmm.Allocated other ↔ m.vmm.Allocated other ∧
    m.holds view (.dir p) ≠ some other ∧ ∀ pdIndex, m.holds view (.table p pdIndex) ≠ some other

theorem valid_setDead {pmap : PmapId} (valid : (view.setAlive p false).valid pmap = true) :
    pmap ≠ .proc p ∧ view.valid pmap = true := by
  cases pmap with
  | kernel => exact ⟨by simp, rfl⟩
  | proc q =>
      have different : q ≠ p := by
        rintro rfl
        simp [View.valid, View.setAlive] at valid
      refine ⟨by simpa using different, ?_⟩
      simpa [View.valid, View.setAlive, different] using valid

theorem holds_dead (dead : Dead view p m m') (holder : Holder) :
    m'.holds (view.setAlive p false) holder =
      if holder.owner = some p then none else m.holds view holder := by
  rw [← holds_setDead]
  refine congrFun (holds_congr ?_ dead.sysTable ?_) holder
  · intro pmap valid
    exact dead.dirs pmap (valid_setDead valid).1
  · intro _ page _ _
    exact congrFun dead.mem page

theorem sound_dead (sound : Sound view m) (dead : Dead view p m m') :
    Sound (view.setAlive p false) m' where
  exclusive a b page holdsA holdsB := by
    rw [holds_dead dead] at holdsA holdsB
    split at holdsA
    · cases holdsA
    · split at holdsB
      · cases holdsB
      · exact sound.exclusive a b page holdsA holdsB
  allocated holder page held := by
    rw [holds_dead dead] at held
    split at held
    · cases held
    · rename_i notOwner
      refine (dead.allocated page).mpr ⟨sound.allocated holder page held, ?_, ?_⟩
      · intro isDir
        exact notOwner (by rw [sound.exclusive _ _ _ held isDir]; rfl)
      · intro pdIndex isTable
        exact notOwner (by rw [sound.exclusive _ _ _ held isTable]; rfl)
  kernel pmap valid := by
    rcases valid_setDead valid with ⟨different, wasValid⟩
    rw [dead.dirs pmap different, dead.mem, dead.sysTable]
    exact sound.kernel pmap wasValid
  self pmap valid := by
    rcases valid_setDead valid with ⟨different, wasValid⟩
    rw [dead.dirs pmap different, dead.mem]
    exact sound.self pmap wasValid

theorem granted_dead (dead : Dead view p m m') (granted : Granted view m) :
    Granted (view.setAlive p false) m' := by
  intro q aliveQ
  have valid : (view.setAlive p false).valid (.proc q) = true := aliveQ
  rcases valid_setDead valid with ⟨different, wasAlive⟩
  rw [dead.dirs _ different, dead.mem]
  exact granted q wasAlive

/-- `pmap_destroy` frees the page tables and the page directory of a process. -/
theorem destroy_spec (sound : Sound view m) (alive : view.alive p = true)
    (destroyed : m.destroy (.proc p) = some m') :
    Sound (view.setAlive p false) m' ∧
      (∀ other, m'.vmm.Allocated other ↔ m.vmm.Allocated other ∧
        m.holds view (.dir p) ≠ some other ∧
        ∀ pdIndex, m.holds view (.table p pdIndex) ≠ some other) ∧
      (∀ holder, m'.holds (view.setAlive p false) holder =
        if holder.owner = some p then none else m.holds view holder) ∧
      m'.cur = m.cur ∧ (Granted view m → Granted (view.setAlive p false) m') := by
  simp only [destroy, Option.bind_eq_bind, Option.bind_eq_some_iff, Option.pure_def,
    Option.some.injEq] at destroyed
  rcases destroyed with ⟨freed, isFreed, last, isLast, rfl⟩
  rcases freeTables_spec _ (sound.self (.proc p) alive) isFreed with ⟨only, tables⟩
  rw [freePage, Option.map_eq_some_iff] at isLast
  rcases isLast with ⟨vmm, isVmm, rfl⟩
  rcases Vmm.freePage_spec isVmm with ⟨_, removed⟩
  have allocated : ∀ other, vmm.Allocated other ↔ m.vmm.Allocated other ∧
      m.holds view (.dir p) ≠ some other ∧
      ∀ pdIndex, m.holds view (.table p pdIndex) ≠ some other := by
    intro other
    rw [removed other]
    change freed.vmm.Allocated other ∧ _ ↔ _
    rw [tables other, holds_dir alive]
    have sameTables : (∀ pdIndex ∈ List.range sysIndex,
        target (m.mem (m.dirs (.proc p)) pdIndex) ≠ some other) ↔
          ∀ pdIndex, m.holds view (.table p pdIndex) ≠ some other := by
      simp only [holds, alive, if_true, tableOf, List.mem_range]
      constructor
      · intro notTable pdIndex
        split
        · rename_i user
          exact notTable pdIndex user
        · simp
      · intro notTable pdIndex user
        have here := notTable pdIndex
        rwa [if_pos user] at here
    change (m.vmm.Allocated other ∧ ∀ pdIndex ∈ List.range sysIndex,
      target (m.mem (m.dirs (.proc p)) pdIndex) ≠ some other) ∧ other ≠ m.dirs (.proc p) ↔ _
    rw [sameTables, ne_eq, ne_eq, Option.some.injEq]
    constructor
    · rintro ⟨⟨was, notTable⟩, notDir⟩
      exact ⟨was, fun same => notDir same.symm, notTable⟩
    · rintro ⟨was, notDir, notTable⟩
      exact ⟨⟨was, notTable⟩, fun same => notDir same.symm⟩
  have dead : Dead view p m { freed.activate m.cur with
      vmm := vmm, dirs := Function.update freed.dirs (.proc p) 0 } := by
    refine ⟨only.mem, only.sysTable, ?_, allocated⟩
    intro pmap different
    change Function.update freed.dirs (.proc p) 0 pmap = m.dirs pmap
    rw [Function.update_of_ne different]
    exact congrFun only.dirs pmap
  exact ⟨sound_dead sound dead, allocated, holds_dead dead, rfl, granted_dead dead⟩

end

end Machine

end Osix.Vm
