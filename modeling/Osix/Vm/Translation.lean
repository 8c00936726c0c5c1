import Osix.Vm.Breaks

/-!
# Page tables as a map

What the functions of `pmap.c` do together, for any number of address spaces, with no
assumption on who uses a page for what: any page may be mapped any number of times. Each
address space is a map from user pages to pages of memory. Entering and removing mappings
changes this map at the pages asked for, and nothing else changes it, as long as nobody
writes to page directories and page tables in another way.
-/

namespace Osix.Vm

open Ownership

namespace Machine

/-! ## The pages that translate addresses -/

/-- The `pmap` has a page directory. -/
def inUse (m : Machine) (pmap : PmapId) : Bool := decide (m.dirs pmap ≠ 0)

/-- The entry of a page directory is neither the one for the kernel nor the last one. -/
def OwnIndex (pdIndex : ℕ) : Prop := pdIndex < pteMapIndex ∧ pdIndex ≠ sysIndex

instance (pdIndex : ℕ) : Decidable (OwnIndex pdIndex) :=
  inferInstanceAs (Decidable (_ ∧ _))

/-- The page table at an index of the page directory. -/
def tableAt (m : Machine) (pmap : PmapId) (pdIndex : ℕ) : Option ℕ :=
  target (m.mem (m.dirs pmap) pdIndex)

/-- The page that a virtual page is mapped to. -/
def frameOf (m : Machine) (pmap : PmapId) (vpage : ℕ) : Option ℕ :=
  (m.tableAt pmap (vpage / tableLen)).bind fun table => target (m.mem table (vpage % tableLen))

/-- What a page directory or a page table is for. -/
inductive Spot where
  | sysTable
  | dir (pmap : PmapId)
  | table (pmap : PmapId) (pdIndex : ℕ)
deriving DecidableEq

/-- The page directories and the page tables. -/
def spots (m : Machine) : Spot → Option ℕ
  | .sysTable => some m.sysTable
  | .dir pmap => if m.inUse pmap then some (m.dirs pmap) else none
  | .table pmap pdIndex =>
      if m.inUse pmap ∧ OwnIndex pdIndex then m.tableAt pmap pdIndex else none

/--
No page is a page directory or page table twice, all of them are allocated, and so is page 0,
which is none of them.
-/
structure Tabled (m : Machine) : Prop where
  exclusive : Exclusive m.spots
  allocated : ∀ spot page, m.spots spot = some page → m.vmm.Allocated page
  zero : m.vmm.Allocated 0
  notZero : Unheld m.spots 0
  roots : Roots m.inUse m
  current : m.inUse m.cur = true

/-- For each address space the page that a user page is mapped to. -/
abbrev Mapping := PmapId → ℕ → Option ℕ

/-- Pages in a row are mapped to a page, or to none. -/
def Mapping.put (mapping : Mapping) (pmap : PmapId) (first count : ℕ) (frame : Option ℕ) :
    Mapping := fun other vpage =>
  if other = pmap ∧ first ≤ vpage ∧ vpage < first + count then frame else mapping other vpage

/-- An address space without pages. -/
def Mapping.clear (mapping : Mapping) (pmap : PmapId) : Mapping := fun other vpage =>
  if other = pmap then none else mapping other vpage

/-- The page tables map the user pages as the mapping says. -/
structure Translates (mapping : Mapping) (m : Machine) : Prop extends Tabled m where
  agrees : ∀ pmap, m.inUse pmap = true → ∀ vpage < userPages,
    m.frameOf pmap vpage = mapping pmap vpage

section

variable {mapping : Mapping} {m m' : Machine} {pmap other : PmapId} {vpage pdIndex index page
  table : ℕ}

theorem inUse_iff : m.inUse pmap = true ↔ m.dirs pmap ≠ 0 := by simp [inUse]

theorem spots_dir (used : m.inUse pmap = true) : m.spots (.dir pmap) = some (m.dirs pmap) := by
  rw [spots, if_pos used]

theorem spots_table (used : m.inUse pmap = true) (own : OwnIndex pdIndex) :
    m.spots (.table pmap pdIndex) = m.tableAt pmap pdIndex := by
  rw [spots, if_pos ⟨used, own⟩]

theorem spots_dir_iff : m.spots (.dir pmap) = some page ↔
    m.inUse pmap = true ∧ m.dirs pmap = page := by
  simp [spots]

theorem spots_table_iff : m.spots (.table pmap pdIndex) = some page ↔
    m.inUse pmap = true ∧ OwnIndex pdIndex ∧ m.tableAt pmap pdIndex = some page := by
  simp [spots, and_assoc]

theorem ownIndex_of_user (user : vpage < userPages) : OwnIndex (vpage / tableLen) := by
  have below := dir_of_proc user
  simp only [OwnIndex, sysIndex, pteMapIndex] at below ⊢
  omega

theorem Tabled.lt_pageCount (tabled : Tabled m) {spot : Spot}
    (isSpot : m.spots spot = some page) : page < pageCount :=
  Vmm.lt_of_allocated (tabled.allocated spot page isSpot)

/-- Different page directories and page tables are different pages. -/
theorem Tabled.ne_of_spots (tabled : Tabled m) {a b : Spot} {pageA pageB : ℕ}
    (isA : m.spots a = some pageA) (isB : m.spots b = some pageB) (different : a ≠ b) :
    pageA ≠ pageB := by
  rintro rfl
  exact different (tabled.exclusive a b pageA isA isB)

theorem Tabled.unheld_of_free (tabled : Tabled m) (free : ¬m.vmm.Allocated page) :
    Unheld m.spots page :=
  fun spot isSpot => free (tabled.allocated spot page isSpot)

theorem notDir_of_unheld (unheld : Unheld m.spots page) : NotDir m.inUse m page := by
  rintro pmap used rfl
  exact unheld (.dir pmap) (spots_dir used)

theorem Tabled.activate (tabled : Tabled m) (used : m.inUse pmap = true) :
    Tabled (m.activate pmap) :=
  ⟨tabled.exclusive, tabled.allocated, tabled.zero, tabled.notZero, tabled.roots.activate pmap,
    used⟩

theorem Translates.activate (translates : Translates mapping m) (used : m.inUse pmap = true) :
    Translates mapping (m.activate pmap) :=
  ⟨translates.toTabled.activate used, translates.agrees⟩

/-! ## Changes elsewhere in memory -/

/-- No page directory or page table of an address space has changed. -/
structure Aside (m m' : Machine) : Prop where
  dirs : m'.dirs = m.dirs
  sysTable : m'.sysTable = m.sysTable
  mem : ∀ spot page, spot ≠ .sysTable → m.spots spot = some page → m'.mem page = m.mem page

theorem Aside.inUse (aside : Aside m m') (pmap : PmapId) : m'.inUse pmap = m.inUse pmap := by
  rw [Machine.inUse, Machine.inUse, aside.dirs]

theorem Aside.tableAt (aside : Aside m m') (used : m.inUse pmap = true) (pdIndex : ℕ) :
    m'.tableAt pmap pdIndex = m.tableAt pmap pdIndex := by
  rw [Machine.tableAt, Machine.tableAt, aside.dirs,
    aside.mem (.dir pmap) _ (by simp) (spots_dir used)]

theorem Aside.spots (aside : Aside m m') : m'.spots = m.spots := by
  funext spot
  cases spot with
  | sysTable => simp only [Machine.spots, aside.sysTable]
  | dir pmap => simp only [Machine.spots, aside.inUse, aside.dirs]
  | table pmap pdIndex =>
      simp only [Machine.spots, aside.inUse]
      split
      · rename_i isOwn
        exact aside.tableAt isOwn.1 pdIndex
      · rfl

theorem Aside.frameOf (aside : Aside m m') (used : m.inUse pmap = true)
    (user : vpage < userPages) : m'.frameOf pmap vpage = m.frameOf pmap vpage := by
  rw [Machine.frameOf, Machine.frameOf, aside.tableAt used]
  cases isTable : m.tableAt pmap (vpage / tableLen) with
  | none => rfl
  | some table =>
      have own := ownIndex_of_user user
      rw [Option.bind_some, Option.bind_some,
        aside.mem (.table pmap (vpage / tableLen)) table (by simp)
          (by rw [spots_table used own, isTable])]

theorem Aside.trans {m'' : Machine} (first : Aside m m') (second : Aside m' m'') :
    Aside m m'' where
  dirs := second.dirs.trans first.dirs
  sysTable := second.sysTable.trans first.sysTable
  mem spot page notSys isSpot := by
    rw [second.mem spot page notSys (by rwa [first.spots]), first.mem spot page notSys isSpot]

theorem Aside.translates (aside : Aside m m') (translates : Translates mapping m)
    (vmm : ∀ page, m.vmm.Allocated page → m'.vmm.Allocated page) (cur : m'.cur = m.cur) :
    Translates mapping m' where
  exclusive := by
    rw [aside.spots]
    exact translates.exclusive
  allocated spot page isSpot := by
    rw [aside.spots] at isSpot
    exact vmm page (translates.allocated spot page isSpot)
  zero := vmm 0 translates.zero
  notZero := by
    rw [aside.spots]
    exact translates.notZero
  roots := by
    have sameUse : m'.inUse = m.inUse := funext aside.inUse
    rw [sameUse]
    refine translates.roots.of_mem (fun pmap _ => by rw [aside.dirs]) aside.sysTable ?_
    intro pmap used
    exact aside.mem (.dir pmap) _ (by simp) (spots_dir used)
  current := by
    rw [aside.inUse, cur]
    exact translates.current
  agrees pmap used vpage user := by
    rw [aside.inUse] at used
    rw [aside.frameOf used user]
    exact translates.agrees pmap used vpage user

/-- A store to the kernel's page table. -/
theorem Tabled.aside_pokeSys (tabled : Tabled m) (index : ℕ) (word : Word) :
    Aside m (m.poke m.sysTable index word) := by
  refine ⟨rfl, rfl, ?_⟩
  intro spot page notSys isSpot
  have different : page ≠ m.sysTable := tabled.ne_of_spots isSpot (b := .sysTable) rfl notSys
  simp [poke, different]

theorem aside_fillPage (unheld : Unheld m.spots page) (words : ℕ → Word) :
    Aside m (m.fillPage page words) := by
  refine ⟨rfl, rfl, ?_⟩
  intro spot other _ isSpot
  have different : other ≠ page := by
    rintro rfl
    exact unheld spot isSpot
  simp [fillPage, different]

/-! ## Stores to page tables -/

/-- The page directories keep their entries when a page table is stored to. -/
theorem Tabled.tableAt_poke (tabled : Tabled m) {spot : Spot} (isSpot : m.spots spot = some page)
    (notDir : ∀ pmap, spot ≠ .dir pmap) (index : ℕ) (word : Word) (used : m.inUse pmap = true)
    (pdIndex : ℕ) : (m.poke page index word).tableAt pmap pdIndex = m.tableAt pmap pdIndex := by
  have different : m.dirs pmap ≠ page :=
    tabled.ne_of_spots (spots_dir used) isSpot (Ne.symm (notDir pmap))
  simp [tableAt, poke, different]

theorem Tabled.spots_poke (tabled : Tabled m) {spot : Spot} (isSpot : m.spots spot = some page)
    (notDir : ∀ pmap, spot ≠ .dir pmap) (index : ℕ) (word : Word) :
    (m.poke page index word).spots = m.spots := by
  funext spot
  cases spot with
  | sysTable => rfl
  | dir pmap => rfl
  | table pmap pdIndex =>
      by_cases isOwn : m.inUse pmap = true ∧ OwnIndex pdIndex
      · change (if m.inUse pmap = true ∧ OwnIndex pdIndex then _ else _) = _
        rw [if_pos isOwn, tabled.tableAt_poke isSpot notDir index word isOwn.1,
          spots_table isOwn.1 isOwn.2]
      · change (if m.inUse pmap = true ∧ OwnIndex pdIndex then _ else _) =
          (if m.inUse pmap = true ∧ OwnIndex pdIndex then _ else _)
        rw [if_neg isOwn, if_neg isOwn]

theorem Tabled.poke (tabled : Tabled m) {spot : Spot} (isSpot : m.spots spot = some page)
    (notDir : ∀ pmap, spot ≠ .dir pmap) (index : ℕ) (word : Word) :
    Tabled (m.poke page index word) where
  exclusive := by
    rw [tabled.spots_poke isSpot notDir]
    exact tabled.exclusive
  allocated := by
    rw [tabled.spots_poke isSpot notDir]
    exact tabled.allocated
  zero := tabled.zero
  notZero := by
    rw [tabled.spots_poke isSpot notDir]
    exact tabled.notZero
  roots := by
    refine tabled.roots.poke ?_ index word
    intro pmap used
    exact tabled.ne_of_spots (spots_dir used) isSpot (Ne.symm (notDir pmap))
  current := tabled.current

/-- A store to a page table of an address space changes the mapping of one page. -/
theorem Tabled.frameOf_poke (tabled : Tabled m) (used : m.inUse pmap = true)
    (own : OwnIndex (vpage / tableLen)) (isTable : m.tableAt pmap (vpage / tableLen) = some table)
    (word : Word) (usedOther : m.inUse other = true) {v : ℕ} (user : v < userPages) :
    (m.poke table (vpage % tableLen) word).frameOf other v =
      if other = pmap ∧ v = vpage then target word else m.frameOf other v := by
  have isSpot : m.spots (.table pmap (vpage / tableLen)) = some table := by
    rw [spots_table used own, isTable]
  rw [frameOf, frameOf, tabled.tableAt_poke isSpot (by simp) _ _ usedOther]
  split
  · rename_i same
    rcases same with ⟨rfl, rfl⟩
    rw [isTable]
    simp [Machine.poke]
  · rename_i notSame
    cases isOther : m.tableAt other (v / tableLen) with
    | none => rfl
    | some otherTable =>
        have otherSpot : m.spots (.table other (v / tableLen)) = some otherTable := by
          rw [spots_table usedOther (ownIndex_of_user user), isOther]
        rw [Option.bind_some, Option.bind_some]
        rcases eq_or_ne otherTable table with rfl | different
        · -- The same page table, so another word of it.
          have sameSpot := tabled.exclusive _ _ _ otherSpot isSpot
          simp only [Spot.table.injEq] at sameSpot
          have otherIndex : v % tableLen ≠ vpage % tableLen := by
            intro sameIndex
            apply notSame
            refine ⟨sameSpot.1, ?_⟩
            rw [← Nat.div_add_mod' v tableLen, sameSpot.2, sameIndex, Nat.div_add_mod']
          simp [Machine.poke, otherIndex]
        · simp [Machine.poke, different]

/-- The virtual page is below `PTE_MAP`. -/
def Below (vpage : ℕ) : Prop := vpage < pteMapIndex * tableLen

theorem lt_tableLen_of_below (below : Below vpage) : vpage / tableLen < tableLen := by
  simp only [Below, pteMapIndex, tableLen] at below ⊢
  omega

theorem ownIndex_of_below (below : Below vpage) (notSys : vpage / tableLen ≠ sysIndex) :
    OwnIndex (vpage / tableLen) := by
  refine ⟨?_, notSys⟩
  simp only [Below, pteMapIndex, tableLen] at below ⊢
  omega

theorem not_user_of_sys (isSys : vpage / tableLen = sysIndex) : ¬vpage < userPages := by
  intro user
  exact (ownIndex_of_user user).2 isSys

/-- A store to the page table entry of a page below `PTE_MAP`. -/
theorem Translates.pokeEntry (translates : Translates mapping m) (used : m.inUse pmap = true)
    (below : Below vpage) (isTable : m.tableAt pmap (vpage / tableLen) = some table)
    (word : Word) : Translates (mapping.put pmap vpage 1 (target word))
      (m.poke table (vpage % tableLen) word) := by
  rcases eq_or_ne (vpage / tableLen) sysIndex with isSys | notSys
  · -- The kernel's page table, which all address spaces share.
    rw [tableAt, isSys, translates.roots.kernel pmap used, Option.some.injEq] at isTable
    subst isTable
    have kept := (translates.aside_pokeSys (vpage % tableLen) word).translates translates
      (fun _ => id) rfl
    refine ⟨kept.toTabled, ?_⟩
    intro other usedOther v user
    rw [kept.agrees other usedOther v user, Mapping.put, if_neg]
    rintro ⟨-, atLeast, less⟩
    have same : v = vpage := by omega
    rw [same] at user
    exact not_user_of_sys isSys user
  · have own := ownIndex_of_below below notSys
    have isSpot : m.spots (.table pmap (vpage / tableLen)) = some table := by
      rw [spots_table used own, isTable]
    refine ⟨translates.toTabled.poke isSpot (by simp) _ word, ?_⟩
    intro other usedOther v user
    rw [translates.frameOf_poke used own isTable word usedOther user,
      translates.agrees other usedOther v user, Mapping.put]
    have sameRange : vpage ≤ v ∧ v < vpage + 1 ↔ v = vpage := by omega
    simp only [sameRange]

/-- A page table below `PTE_MAP` is the kernel's or one of the address space. -/
theorem Tabled.spot_of_tableAt (tabled : Tabled m) (used : m.inUse pmap = true)
    (below : Below vpage) (isTable : m.tableAt pmap (vpage / tableLen) = some table) :
    ∃ spot, m.spots spot = some table ∧ ∀ pmap, spot ≠ .dir pmap := by
  rcases eq_or_ne (vpage / tableLen) sysIndex with isSys | notSys
  · rw [tableAt, isSys, tabled.roots.kernel pmap used] at isTable
    exact ⟨.sysTable, isTable, by simp⟩
  · refine ⟨.table pmap (vpage / tableLen), ?_, by simp⟩
    rw [spots_table used (ownIndex_of_below below notSys), isTable]

/-- The page table entry of a page, through the window at `PTE_MAP`. -/
theorem Tabled.store_pteMap (tabled : Tabled m) (below : Below vpage) (word : Word) :
    m.store (pteMap (vpage / tableLen)) (vpage % tableLen) word =
      (m.tableAt m.cur (vpage / tableLen)).map fun table =>
        m.poke table (vpage % tableLen) word := by
  rw [store, tabled.roots.walk_pteMap tabled.current (lt_tableLen_of_below below), tableAt]

/-! ## New page tables -/

/-- An empty page table that is stored in a page directory maps nothing. -/
theorem Translates.pokeDir (translates : Translates mapping m) (used : m.inUse pmap = true)
    (own : OwnIndex pdIndex) (noTable : m.tableAt pmap pdIndex = none) {word : Word}
    (isTable : target word = some table) (unheld : Unheld m.spots table)
    (notZero : table ≠ 0) (allocated : m.vmm.Allocated table)
    (empty : m.mem table = fun _ => 0) :
    Translates mapping (m.poke (m.dirs pmap) pdIndex word) ∧
      (m.poke (m.dirs pmap) pdIndex word).tableAt pmap pdIndex = some table := by
  have isDir := spots_dir used
  have notDir : table ≠ m.dirs pmap := fun same => unheld (.dir pmap) (by rw [isDir, same])
  have tables : ∀ q, m.inUse q = true → ∀ i, (m.poke (m.dirs pmap) pdIndex word).tableAt q i =
      if q = pmap ∧ i = pdIndex then some table else m.tableAt q i := by
    intro q usedQ i
    rcases eq_or_ne q pmap with rfl | different
    · rcases eq_or_ne i pdIndex with rfl | otherIndex
      · simp [tableAt, poke, isTable]
      · simp [tableAt, poke, otherIndex]
    · have otherDir : m.dirs q ≠ m.dirs pmap :=
        translates.ne_of_spots (spots_dir usedQ) isDir (by simpa using different)
      simp [tableAt, poke, otherDir, different]
  have changed : (m.poke (m.dirs pmap) pdIndex word).spots =
      Function.update m.spots (.table pmap pdIndex) (some table) := by
    funext spot
    cases spot with
    | sysTable => rfl
    | dir q => rfl
    | table q i =>
        by_cases isOwn : m.inUse q = true ∧ OwnIndex i
        · change (if m.inUse q = true ∧ OwnIndex i then _ else _) = _
          rw [if_pos isOwn, tables q isOwn.1, Function.update_apply, spots_table isOwn.1 isOwn.2]
          simp only [Spot.table.injEq]
        · have different : Spot.table q i ≠ .table pmap pdIndex := by
            intro same
            simp only [Spot.table.injEq] at same
            exact isOwn ⟨same.1 ▸ used, same.2 ▸ own⟩
          rw [Function.update_of_ne different]
          change (if m.inUse q = true ∧ OwnIndex i then _ else _) =
            (if m.inUse q = true ∧ OwnIndex i then _ else _)
          rw [if_neg isOwn, if_neg isOwn]
  have words : ∀ q i, ¬OwnIndex i →
      (m.poke (m.dirs pmap) pdIndex word).mem (m.dirs q) i = m.mem (m.dirs q) i := by
    intro q i notOwn
    have otherIndex : i ≠ pdIndex := by
      rintro rfl
      exact notOwn own
    rcases eq_or_ne (m.dirs q) (m.dirs pmap) with same | different
    · simp [poke, same, otherIndex]
    · simp [poke, different]
  refine ⟨⟨⟨?_, ?_, translates.zero, ?_, ⟨translates.roots.kernelValid, ?_, ?_,
    translates.roots.apart⟩, translates.current⟩, ?_⟩, ?_⟩
  · rw [changed]
    exact translates.exclusive.give unheld
  · intro spot page isSpot
    rw [changed, Function.update_apply] at isSpot
    split at isSpot
    · cases isSpot
      exact allocated
    · exact translates.allocated spot page isSpot
  · rw [changed]
    exact translates.notZero.give notZero.symm
  · intro q usedQ
    have same := words q sysIndex (by decide)
    exact (congrArg target same).trans (translates.roots.kernel q usedQ)
  · intro q usedQ
    have same := words q pteMapIndex (by decide)
    exact (congrArg target same).trans (translates.roots.self q usedQ)
  · intro q usedQ v user
    rw [← translates.agrees q usedQ v user, frameOf, frameOf, tables q usedQ]
    split
    · rename_i same
      rcases same with ⟨rfl, isIndex⟩
      simp [isIndex, noTable, poke, notDir, empty]
    · cases isOther : m.tableAt q (v / tableLen) with
      | none => rfl
      | some otherTable =>
          have otherSpot : m.spots (.table q (v / tableLen)) = some otherTable := by
            rw [@spots_table m _ _ usedQ (ownIndex_of_user user), isOther]
          have different : otherTable ≠ m.dirs pmap :=
            translates.ne_of_spots otherSpot isDir (by simp)
          simp [poke, different]
  · rw [tables pmap used, if_pos ⟨rfl, rfl⟩]

/-- A page that `vmm_alloc_page` gave out. -/
structure Obtained (mapping : Mapping) (page : ℕ) (m m' : Machine) : Prop where
  translates : Translates mapping m'
  only : OnlyVmm m m'
  free : ¬m.vmm.Allocated page
  unheld : Unheld m.spots page
  allocated : m'.vmm.Allocated page
  others : ∀ other, m.vmm.Allocated other → m'.vmm.Allocated other

theorem OnlyVmm.aside (only : OnlyVmm m m') : Aside m m' :=
  ⟨only.dirs, only.sysTable, fun _ _ _ _ => by rw [only.mem]⟩

/-- `vmm_alloc_page` gives a page that is neither a page directory nor a page table. -/
theorem Translates.allocPage (translates : Translates mapping m)
    (isAllocated : m.allocPage = some (page, m')) : Obtained mapping page m m' := by
  rw [Machine.allocPage, Option.map_eq_some_iff] at isAllocated
  rcases isAllocated with ⟨⟨found, vmm⟩, isFound, pair⟩
  cases pair
  rcases Vmm.allocPage_spec isFound with ⟨free, added⟩
  have only : OnlyVmm m { m with vmm := vmm } := ⟨rfl, rfl, rfl, rfl⟩
  have others : ∀ other, m.vmm.Allocated other → vmm.Allocated other :=
    fun other wasAllocated => (added other).mpr (Or.inl wasAllocated)
  exact ⟨only.aside.translates translates others rfl, only, free,
    translates.unheld_of_free free, (added found).mpr (Or.inr rfl), others⟩

theorem Obtained.notZero (obtained : Obtained mapping page m m') (tabled : Tabled m) :
    page ≠ 0 := by
  rintro rfl
  exact obtained.free tabled.zero

theorem Obtained.small (obtained : Obtained mapping page m m') : page < 2 ^ 20 :=
  lt_of_pageCount (Vmm.lt_of_allocated obtained.allocated)

/-- `pmap_zero_page` and the window that it uses. -/
theorem Translates.fillTmp (translates : Translates mapping m) (small : page < 2 ^ 20)
    (unheld : Unheld m.spots page) (words : ℕ → Word) :
    ∃ m', m.fillTmp page words = some m' ∧ Translates mapping m' ∧ Aside m m' ∧
      m'.vmm = m.vmm ∧ m'.cur = m.cur ∧ m'.mem page = words := by
  have opened := translates.aside_pokeSys 1 (kernelEntry page true)
  have openedTranslates := opened.translates translates (fun _ => id) rfl
  have filled := aside_fillPage (m := m.poke m.sysTable 1 (kernelEntry page true))
    (by rwa [opened.spots]) words
  have filledTranslates := filled.translates openedTranslates (fun _ => id) rfl
  have closed := filledTranslates.aside_pokeSys 1 0
  have notSys : page ≠ m.sysTable := fun same => unheld .sysTable (by rw [same]; rfl)
  refine ⟨_, translates.roots.fillTmp_eq translates.current small (notDir_of_unheld unheld)
    words, closed.translates filledTranslates (fun _ => id) rfl,
    (opened.trans filled).trans closed, rfl, rfl, ?_⟩
  simp [Machine.poke, Machine.fillPage, notSys]

/-- `pmap_copy_page`. -/
theorem Translates.copyPage (translates : Translates mapping m) {src dst : ℕ}
    (smallSrc : src < 2 ^ 20) (smallDst : dst < 2 ^ 20) (unheld : Unheld m.spots dst) :
    ∃ m', m.copyPage src dst = some m' ∧ Translates mapping m' ∧ m'.inUse = m.inUse ∧
      m'.cur = m.cur := by
  have opened := translates.aside_pokeSys 1 (kernelEntry src false)
  have openedTranslates := opened.translates translates (fun _ => id) rfl
  have both := openedTranslates.aside_pokeSys 2 (kernelEntry dst true)
  have bothTranslates : Translates mapping (m.openWindows src dst) :=
    both.translates openedTranslates (fun _ => id) rfl
  have asideBoth : Aside m (m.openWindows src dst) := opened.trans both
  have unheldBoth : Unheld (m.openWindows src dst).spots dst := by rwa [asideBoth.spots]
  have filled := aside_fillPage unheldBoth ((m.openWindows src dst).mem src)
  have filledTranslates := filled.translates bothTranslates (fun _ => id) rfl
  have closed := filledTranslates.aside_pokeSys 1 0
  have closedTranslates := closed.translates filledTranslates (fun _ => id) rfl
  have closed2 := closedTranslates.aside_pokeSys 2 0
  exact ⟨_, translates.roots.copyPage_eq translates.current smallSrc smallDst
    (notDir_of_unheld unheld), closed2.translates closedTranslates (fun _ => id) rfl, rfl, rfl⟩

/-! ## The functions -/

/-- The new page table of `pmap_enter`. -/
theorem Translates.newTable (translates : Translates mapping m)
    (own : OwnIndex pdIndex) (noTable : m.tableAt m.cur pdIndex = none)
    (positive : 0 < m.vmm.freePages) :
    ∃ m' table, newTable zeroPage m pdIndex = some m' ∧ Translates mapping m' ∧
      m'.tableAt m.cur pdIndex = some table ∧ m'.cur = m.cur ∧ m'.inUse = m.inUse := by
  rcases allocPage_exists positive with ⟨table, allocated, isAllocated⟩
  have obtained := translates.allocPage isAllocated
  have aside := obtained.only.aside
  rcases obtained.translates.fillTmp obtained.small
    (by rw [aside.spots]; exact obtained.unheld) fun _ => 0 with
    ⟨zeroed, isZeroed, translatesZeroed, asideZeroed, vmm, curZeroed, empty⟩
  have both := aside.trans asideZeroed
  have used : zeroed.inUse m.cur = true := by
    rw [both.inUse]
    exact translates.current
  have isCur : zeroed.cur = m.cur := curZeroed.trans obtained.only.cur
  have walked : zeroed.walk pgDir = some (zeroed.dirs m.cur) := by
    rw [pgDir, translatesZeroed.roots.walk_pteMap translatesZeroed.current (by decide),
      translatesZeroed.roots.self _ translatesZeroed.current, isCur]
  have stillNone : zeroed.tableAt m.cur pdIndex = none := by
    rw [both.tableAt translates.current, noTable]
  have isEntry : target (entry table (pagePresent ||| pageWritable ||| pageUser)) = some table :=
    target_entry obtained.small (by decide) (by decide)
  rcases translatesZeroed.pokeDir used own stillNone isEntry
    (by rw [both.spots]; exact obtained.unheld) (obtained.notZero translates.toTabled)
    (by rw [vmm]; exact obtained.allocated) empty with
    ⟨translatesPoked, isTable⟩
  refine ⟨_, table, ?_, translatesPoked, isTable, isCur, funext both.inUse⟩
  simp only [Machine.newTable, isAllocated, zeroPage, isZeroed, store, walked,
    Option.bind_eq_bind, Option.bind_some, Option.map_some]

/-- The entry that `pmap_enter_raw` writes. -/
theorem target_rawEntry (small : page < 2 ^ 20) (pmap : PmapId) (writable : Bool) :
    target (entry page (pagePresent ||| (if writable then pageWritable else 0) |||
      (if pmap = .kernel then 0 else pageUser))) = some page := by
  by_cases isKernel : pmap = .kernel
  · rw [if_pos isKernel]
    exact target_kernelEntry small writable
  · rw [if_neg isKernel]
    cases writable with
    | true => exact target_entry small (by decide) (by decide)
    | false => exact target_entry small (by decide) (by decide)

/-- `pmap_enter_raw`. -/
theorem Translates.enterRaw (translates : Translates mapping m) (below : Below vpage)
    (small : page < 2 ^ 20) (isTable : m.tableAt m.cur (vpage / tableLen) = some table)
    (pmap : PmapId) (writable : Bool) :
    ∃ m', m.enterRaw pmap vpage page writable = some m' ∧
      Translates (mapping.put m.cur vpage 1 (some page)) m' ∧ m'.inUse = m.inUse := by
  have poked := translates.pokeEntry translates.current below isTable
    (entry page (pagePresent ||| (if writable then pageWritable else 0) |||
      (if pmap = .kernel then 0 else pageUser)))
  rw [target_rawEntry small] at poked
  refine ⟨_, ?_, poked, rfl⟩
  rw [Machine.enterRaw, translates.store_pteMap below, isTable, Option.map_some]

/-- `pmap_enter`. -/
theorem Translates.enter (translates : Translates mapping m) (used : m.inUse pmap = true)
    (below : Below vpage) (small : page < 2 ^ 20) (writable : Bool)
    (room : m.tableAt pmap (vpage / tableLen) ≠ none ∨ 0 < m.vmm.freePages) :
    ∃ m', m.enter pmap vpage page writable = some m' ∧
      Translates (mapping.put pmap vpage 1 (some page)) m' ∧ m'.inUse = m.inUse ∧
      m'.cur = m.cur := by
  have there := translates.activate used
  have loaded : (m.activate pmap).load pgDir (vpage / tableLen) =
      some (m.mem (m.dirs pmap) (vpage / tableLen)) := there.roots.load_pgDir used _
  simp only [Machine.enter, enterUsing, loaded, Option.bind_eq_bind, Option.bind_some,
    Option.pure_def]
  split
  · rename_i absent
    have noTable : m.tableAt pmap (vpage / tableLen) = none := target_eq_none.mpr absent
    have positive : 0 < m.vmm.freePages := room.resolve_left (fun isThere => isThere noTable)
    have own : OwnIndex (vpage / tableLen) := by
      apply ownIndex_of_below below
      intro isSys
      rw [isSys, tableAt, translates.roots.kernel pmap used] at noTable
      cases noTable
    rcases there.newTable own noTable positive with
      ⟨withTable, table, isWith, translatesWith, isTable, cur, sameUse⟩
    rw [← cur] at isTable
    rcases translatesWith.enterRaw below small isTable pmap writable with
      ⟨entered, isEntered, translatesEntered, sameEntered⟩
    refine ⟨entered.activate m.cur, ?_, ?_, sameEntered.trans sameUse, rfl⟩
    · rw [isWith, Option.bind_some, isEntered, Option.bind_some]
    · rw [cur] at translatesEntered
      apply translatesEntered.activate
      rw [sameEntered, sameUse]
      exact translates.current
  · rename_i present
    cases isTable : m.tableAt pmap (vpage / tableLen) with
    | none => exact absurd (target_eq_none.mp isTable) present
    | some table =>
        rcases there.enterRaw below small isTable pmap writable with
          ⟨entered, isEntered, translatesEntered, sameEntered⟩
        refine ⟨entered.activate m.cur, ?_, ?_, sameEntered, rfl⟩
        · rw [isEntered, Option.bind_some]
        · apply translatesEntered.activate
          rw [sameEntered]
          exact translates.current

/-- The loop of `pmap_remove`; the directory index of an address is never out of range. -/
def removeLoop : ℕ → Machine → Word → Word → Option Machine
  | 0, _, _, _ => none
  | fuel + 1, m, vaddr, stop =>
      if vaddr + 4096 ≤ stop then
        (m.store (pteMap (vaddr.toNat / 4096 / tableLen)) (vaddr.toNat / 4096 % tableLen)
          0).bind fun removed => removeLoop fuel removed (vaddr + 4096) stop
      else
        some m

/-- The pages of the address space; a loop that goes on longer never ends. -/
def pageLimit : ℕ := 2 ^ 20

/-- `pmap_remove`. -/
def removeRange (m : Machine) (pmap : PmapId) (start stop : Word) : Option Machine :=
  (removeLoop (pageLimit + 1) (m.activate pmap) start stop).map fun removed =>
    removed.activate m.cur

/-- The page of an address. -/
def pageAt (vaddr : Word) : ℕ := vaddr.toNat / 4096

/-- The number of whole pages between two addresses. -/
def pagesBetween (start stop : Word) : ℕ := (stop.toNat - start.toNat) / 4096

/-- `PTE_MAP`. -/
def pteMapAddr : Word := 0xffc00000

/-- The page tables of the pages from an address on exist. -/
def HasTables (m : Machine) (pmap : PmapId) (first count : ℕ) : Prop :=
  ∀ vpage, first ≤ vpage → vpage < first + count → m.tableAt pmap (vpage / tableLen) ≠ none

theorem Mapping.put_none (mapping : Mapping) (pmap : PmapId) (first count : ℕ)
    (frame : Option ℕ) : (mapping.put pmap first 1 frame).put pmap (first + 1) count frame =
      mapping.put pmap first (count + 1) frame := by
  funext other vpage
  simp only [Mapping.put]
  by_cases same : other = pmap
  · simp only [same, true_and]
    split
    · rw [if_pos (by omega)]
    · split
      · rw [if_pos (by omega)]
      · rw [if_neg (by omega)]
  · simp [same]

theorem Mapping.put_zero (mapping : Mapping) (pmap : PmapId) (first : ℕ) (frame : Option ℕ) :
    mapping.put pmap first 0 frame = mapping := by
  funext other vpage
  rw [Mapping.put, if_neg]
  omega

theorem toNat_nextPage {vaddr : Word} (low : vaddr.toNat ≤ pteMapAddr.toNat) :
    (vaddr + 4096).toNat = vaddr.toNat + 4096 := by
  have isMap : pteMapAddr.toNat = 4290772992 := rfl
  have isPage : (4096 : Word).toNat = 4096 := rfl
  rw [BitVec.toNat_add, isPage]
  omega

/-- The loop of `pmap_remove` takes away the mappings of whole pages. -/
theorem Translates.removeLoop (count : ℕ) {fuel : ℕ} {start stop : Word}
    (translates : Translates mapping m) (isCount : pagesBetween start stop = count)
    (enough : count < fuel) (startLow : start.toNat ≤ pteMapAddr.toNat)
    (stopLow : stop.toNat ≤ pteMapAddr.toNat)
    (tables : m.HasTables m.cur (pageAt start) count) :
    ∃ m', removeLoop fuel m start stop = some m' ∧
      Translates (mapping.put m.cur (pageAt start) count none) m' ∧ m'.cur = m.cur ∧
      m'.inUse = m.inUse := by
  induction count generalizing fuel start m mapping with
  | zero =>
      rcases fuel with _ | fuel
      · omega
      have isNext := toNat_nextPage startLow
      have done : ¬start + 4096 ≤ stop := by
        rw [BitVec.le_def, isNext]
        simp only [pagesBetween] at isCount
        omega
      refine ⟨m, by rw [Machine.removeLoop, if_neg done], ?_, rfl, rfl⟩
      rwa [Mapping.put_zero]
  | succ count ih =>
      rcases fuel with _ | fuel
      · omega
      have isNext := toNat_nextPage startLow
      have inRange : start.toNat + 4096 ≤ stop.toNat := by
        simp only [pagesBetween] at isCount
        omega
      have more : start + 4096 ≤ stop := by
        rw [BitVec.le_def, isNext]
        exact inRange
      have below : Below (pageAt start) := by
        have isMap : pteMapAddr.toNat = 4290772992 := rfl
        simp only [Below, pageAt, pteMapIndex, tableLen]
        omega
      have nextLow : (start + 4096).toNat ≤ pteMapAddr.toNat := by omega
      have nextPage : pageAt (start + 4096) = pageAt start + 1 := by
        rw [pageAt, pageAt, isNext]
        omega
      have nextCount : pagesBetween (start + 4096) stop = count := by
        simp only [pagesBetween, isNext] at isCount ⊢
        omega
      rcases Option.ne_none_iff_exists'.mp (tables (pageAt start) le_rfl (by omega)) with
        ⟨table, isTable⟩
      rcases translates.spot_of_tableAt translates.current below isTable with
        ⟨spot, isSpot, notDir⟩
      have poked := translates.pokeEntry translates.current below isTable 0
      rw [show target 0 = none from target_zero] at poked
      have stillTables : (m.poke table (pageAt start % tableLen) 0).HasTables m.cur
          (pageAt (start + 4096)) count := by
        intro vpage atLeast less
        rw [translates.tableAt_poke isSpot notDir _ _ translates.current]
        apply tables vpage
        · omega
        · omega
      rcases ih poked nextCount (show count < fuel by omega) nextLow stillTables with
        ⟨m', isRemoved, translates', cur, sameUse⟩
      refine ⟨m', ?_, ?_, cur, sameUse⟩
      · have isStored := translates.store_pteMap below 0
        rw [isTable, Option.map_some] at isStored
        rw [Machine.removeLoop, if_pos more]
        exact (congrArg (Option.bind · _) isStored).trans isRemoved
      · rw [nextPage] at translates'
        rwa [← Mapping.put_none]

/-- `pmap_remove`. -/
theorem Translates.removeRange (translates : Translates mapping m) (used : m.inUse pmap = true)
    {start stop : Word} (startLow : start.toNat ≤ pteMapAddr.toNat)
    (stopLow : stop.toNat ≤ pteMapAddr.toNat)
    (tables : m.HasTables pmap (pageAt start) (pagesBetween start stop)) :
    ∃ m', m.removeRange pmap start stop = some m' ∧
      Translates (mapping.put pmap (pageAt start) (pagesBetween start stop) none) m' ∧
      m'.inUse = m.inUse ∧ m'.cur = m.cur := by
  have enough : pagesBetween start stop < pageLimit + 1 := by
    have isMap : pteMapAddr.toNat = 4290772992 := rfl
    simp only [pagesBetween, pageLimit]
    omega
  rcases (translates.activate used).removeLoop _ rfl enough startLow stopLow tables with
    ⟨removed, isRemoved, translatesRemoved, cur, sameUse⟩
  refine ⟨removed.activate m.cur, ?_, ?_, sameUse, rfl⟩
  · rw [Machine.removeRange, isRemoved, Option.map_some]
  · apply translatesRemoved.activate
    rw [sameUse]
    exact translates.current

end

end Machine

end Osix.Vm
