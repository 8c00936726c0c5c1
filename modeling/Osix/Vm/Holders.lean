import Osix.Lib.Ownership
import Osix.Vm.Process
import Osix.Vm.Roots

/-!
# Who holds a page frame

Every page frame in use is held for one purpose: as the page directory of a process, as one
of its page tables, as one of its mapped pages, as a stack that is not yet mapped, or by the
kernel. The holders are read off physical memory, and the lemmas here say how a store to
memory changes them, provided that no frame has two holders.
-/

namespace Osix.Vm

open Ownership

/-- What a page frame is held for. -/
inductive Holder where
  | zero
  | sysDir
  | sysTable
  | dir (p : ProcId)
  | table (p : ProcId) (pdIndex : ℕ)
  | page (p : ProcId) (vpage : ℕ)
  | pending (p : ProcId)
deriving DecidableEq

/-- The frame is read by the translation of user addresses. -/
def Holder.walked : Holder → Bool
  | .sysDir => true
  | .dir _ => true
  | .table _ _ => true
  | _ => false

/-- The process whose address space the frame belongs to. -/
def Holder.owner : Holder → Option ProcId
  | .dir p => some p
  | .table p _ => some p
  | .page p _ => some p
  | _ => none

/-- The processes with an address space, and the stacks that are not yet mapped. -/
@[ext]
structure View where
  alive : ProcId → Bool
  pending : ProcId → Option ℕ

/-- The page directory is one that can be activated. -/
def View.valid (view : View) : PmapId → Bool
  | .kernel => true
  | .proc p => view.alive p

def View.setAlive (view : View) (p : ProcId) (alive : Bool) : View :=
  { view with alive := Function.update view.alive p alive }

def View.setPending (view : View) (p : ProcId) (pending : Option ℕ) : View :=
  { view with pending := Function.update view.pending p pending }

namespace Machine

/-- The page table for user pages at an index of the page directory. -/
def tableOf (m : Machine) (p : ProcId) (pdIndex : ℕ) : Option ℕ :=
  if pdIndex < sysIndex then target (m.mem (m.dirs (.proc p)) pdIndex) else none

/-- The frame that a user page is mapped to. -/
def pageOf (m : Machine) (p : ProcId) (vpage : ℕ) : Option ℕ :=
  (m.tableOf p (vpage / tableLen)).bind fun table => target (m.mem table (vpage % tableLen))

/-- The frame that a holder holds. -/
def holds (view : View) (m : Machine) : Holder → Option ℕ
  | .zero => some 0
  | .sysDir => some (m.dirs .kernel)
  | .sysTable => some m.sysTable
  | .dir p => if view.alive p then some (m.dirs (.proc p)) else none
  | .table p pdIndex => if view.alive p then m.tableOf p pdIndex else none
  | .page p vpage => if view.alive p then m.pageOf p vpage else none
  | .pending p => view.pending p

/-- No frame has two holders, and every page directory maps the kernel and itself. -/
structure Sound (view : View) (m : Machine) : Prop where
  exclusive : Exclusive (m.holds view)
  allocated : ∀ holder page, m.holds view holder = some page → m.vmm.Allocated page
  kernel : ∀ pmap, view.valid pmap = true →
    target (m.mem (m.dirs pmap) sysIndex) = some m.sysTable
  self : ∀ pmap, view.valid pmap = true →
    target (m.mem (m.dirs pmap) pteMapIndex) = some (m.dirs pmap)

/-- User mode may write where the entry points to. -/
def Grants (word : Word) : Prop :=
  word &&& (pageWritable ||| pageUser) = pageWritable ||| pageUser

/-- The entries of processes for page tables and for the page directory itself are open. -/
def Granted (view : View) (m : Machine) : Prop :=
  ∀ p, view.alive p = true → ∀ pdIndex, pdIndex < sysIndex ∨ pdIndex = pteMapIndex →
    m.mem (m.dirs (.proc p)) pdIndex &&& pagePresent ≠ 0 →
      Grants (m.mem (m.dirs (.proc p)) pdIndex)

/-! ## Changes of memory -/

section

variable {view : View} {m m' : Machine} {p : ProcId}

theorem holds_table {pdIndex page : ℕ} :
    m.holds view (.table p pdIndex) = some page ↔
      view.alive p = true ∧ m.tableOf p pdIndex = some page := by
  simp only [holds]
  split
  · rename_i alive
    simp [alive]
  · rename_i dead
    simp [dead]

theorem holds_page {vpage page : ℕ} :
    m.holds view (.page p vpage) = some page ↔
      view.alive p = true ∧ m.pageOf p vpage = some page := by
  simp only [holds]
  split
  · rename_i alive
    simp [alive]
  · rename_i dead
    simp [dead]

theorem holds_dir (alive : view.alive p = true) :
    m.holds view (.dir p) = some (m.dirs (.proc p)) := by
  simp [holds, alive]

/-- A page is not used to translate addresses. -/
def NotWalked (view : View) (m : Machine) (page : ℕ) : Prop :=
  ∀ holder, holder.walked = true → m.holds view holder ≠ some page

theorem notWalked_of_unheld {page : ℕ} (unheld : Unheld (m.holds view) page) :
    NotWalked view m page :=
  fun holder _ => unheld holder

theorem notWalked_of_holds (sound : Sound view m) {holder : Holder} {page : ℕ}
    (held : m.holds view holder = some page) (notWalked : holder.walked = false) :
    NotWalked view m page := by
  intro other walked heldOther
  have same := sound.exclusive other holder page heldOther held
  rw [same, notWalked] at walked
  cases walked

/-- Nothing that the translation of addresses depends on has changed. -/
structure Keeps (view : View) (m m' : Machine) : Prop where
  vmm : m'.vmm = m.vmm
  cur : m'.cur = m.cur
  dirs : ∀ pmap, view.valid pmap = true → m'.dirs pmap = m.dirs pmap
  sysTable : m'.sysTable = m.sysTable
  mem : ∀ holder page, holder.walked = true → m.holds view holder = some page →
    m'.mem page = m.mem page

theorem holds_congr (dirs : ∀ pmap, view.valid pmap = true → m'.dirs pmap = m.dirs pmap)
    (sysTable : m'.sysTable = m.sysTable)
    (mem : ∀ holder page, holder.walked = true → m.holds view holder = some page →
      m'.mem page = m.mem page) : m'.holds view = m.holds view := by
  have tables : ∀ p, view.alive p = true → ∀ pdIndex, m'.tableOf p pdIndex =
      m.tableOf p pdIndex := by
    intro p alive pdIndex
    simp only [tableOf, dirs (.proc p) alive, mem (.dir p) _ rfl (holds_dir alive)]
  funext holder
  cases holder with
  | zero => rfl
  | sysDir => simp only [holds, dirs .kernel rfl]
  | sysTable => simp only [holds, sysTable]
  | dir p =>
      simp only [holds]
      split
      · rename_i alive
        rw [dirs (.proc p) alive]
      · rfl
  | table p pdIndex =>
      simp only [holds]
      split
      · rename_i alive
        exact tables p alive pdIndex
      · rfl
  | page p vpage =>
      simp only [holds]
      split
      · rename_i alive
        simp only [pageOf, tables p alive]
        cases isTable : m.tableOf p (vpage / tableLen) with
        | none => rfl
        | some table =>
            simp only [Option.bind_some,
              mem (.table p _) table rfl (holds_table.mpr ⟨alive, isTable⟩)]
      · rfl
  | pending p => rfl

theorem Keeps.holds (keeps : Keeps view m m') : m'.holds view = m.holds view :=
  holds_congr keeps.dirs keeps.sysTable keeps.mem

theorem Keeps.trans {m'' : Machine} (first : Keeps view m m') (second : Keeps view m' m'') :
    Keeps view m m'' where
  vmm := second.vmm.trans first.vmm
  cur := second.cur.trans first.cur
  dirs pmap valid := (second.dirs pmap valid).trans (first.dirs pmap valid)
  sysTable := second.sysTable.trans first.sysTable
  mem holder page walked held := by
    rw [second.mem holder page walked (by rwa [first.holds]), first.mem holder page walked held]

theorem keeps_of_notWalked {page : ℕ} (notWalked : NotWalked view m page)
    (vmm : m'.vmm = m.vmm) (cur : m'.cur = m.cur)
    (dirs : ∀ pmap, view.valid pmap = true → m'.dirs pmap = m.dirs pmap)
    (sysTable : m'.sysTable = m.sysTable)
    (mem : ∀ other, other ≠ page → m'.mem other = m.mem other) : Keeps view m m' where
  vmm := vmm
  cur := cur
  dirs := dirs
  sysTable := sysTable
  mem holder other walked held := by
    apply mem
    rintro rfl
    exact notWalked holder walked held

/-- The page directories of the kernel and of the processes are walked. -/
theorem holds_of_valid {pmap : PmapId} (valid : view.valid pmap = true) :
    ∃ holder, holder.walked = true ∧ m.holds view holder = some (m.dirs pmap) := by
  cases pmap with
  | kernel => exact ⟨.sysDir, rfl, rfl⟩
  | proc p => exact ⟨.dir p, rfl, holds_dir valid⟩

theorem sound_keeps (sound : Sound view m) (keeps : Keeps view m m') : Sound view m' where
  exclusive := by
    rw [keeps.holds]
    exact sound.exclusive
  allocated holder page held := by
    rw [keeps.holds] at held
    rw [keeps.vmm]
    exact sound.allocated holder page held
  kernel pmap valid := by
    rcases holds_of_valid (m := m) valid with ⟨holder, walked, held⟩
    rw [keeps.dirs pmap valid, keeps.mem holder _ walked held, keeps.sysTable]
    exact sound.kernel pmap valid
  self pmap valid := by
    rcases holds_of_valid (m := m) valid with ⟨holder, walked, held⟩
    rw [keeps.dirs pmap valid, keeps.mem holder _ walked held]
    exact sound.self pmap valid

/-- The page directories of processes are as before. -/
theorem granted_congr (dirs : ∀ q, view.alive q = true → m'.dirs (.proc q) = m.dirs (.proc q))
    (mem : ∀ q, view.alive q = true → m'.mem (m.dirs (.proc q)) = m.mem (m.dirs (.proc q)))
    (granted : Granted view m) : Granted view m' := by
  intro q alive
  rw [dirs q alive, mem q alive]
  exact granted q alive

theorem granted_keeps (keeps : Keeps view m m') (granted : Granted view m) : Granted view m' :=
  granted_congr (fun q alive => keeps.dirs (.proc q) alive)
    (fun _ alive => keeps.mem _ _ rfl (holds_dir alive)) granted

theorem notWalked_keeps (keeps : Keeps view m m') {page : ℕ} (notWalked : NotWalked view m page) :
    NotWalked view m' page := by
  intro holder walked
  rw [keeps.holds]
  exact notWalked holder walked

/-! ## The kernel's windows -/

/-- Sound page tables have the entries that the kernel's windows depend on. -/
theorem Sound.roots (sound : Sound view m) : Roots view.valid m where
  kernelValid := rfl
  kernel := sound.kernel
  self := sound.self
  apart pmap valid same := by
    rcases holds_of_valid (m := m) valid with ⟨holder, walked, held⟩
    rw [same] at held
    have isSys : holder = .sysTable := sound.exclusive _ _ _ held rfl
    rw [isSys] at walked
    cases walked

theorem notDir_of_notWalked {page : ℕ} (notWalked : NotWalked view m page) :
    NotDir view.valid m page := by
  rintro pmap valid rfl
  rcases holds_of_valid (m := m) valid with ⟨holder, walked, held⟩
  exact notWalked holder walked held

theorem walk_pteMap (sound : Sound view m) (valid : view.valid m.cur = true) {pdIndex : ℕ}
    (inDir : pdIndex < tableLen) :
    m.walk (pteMap pdIndex) = target (m.mem (m.dirs m.cur) pdIndex) :=
  sound.roots.walk_pteMap valid inDir

theorem walk_pgDir (sound : Sound view m) (valid : view.valid m.cur = true) :
    m.walk pgDir = some (m.dirs m.cur) := by
  rw [pgDir, walk_pteMap sound valid (by decide), sound.self m.cur valid]

theorem sound_activate (sound : Sound view m) (pmap : PmapId) : Sound view (m.activate pmap) :=
  ⟨sound.exclusive, sound.allocated, sound.kernel, sound.self⟩

/-- The page directory of a `pmap` that has been activated. -/
theorem walk_pteMap_activate (sound : Sound view m) (pmap : PmapId)
    (valid : view.valid pmap = true) {pdIndex : ℕ} (inDir : pdIndex < tableLen) :
    (m.activate pmap).walk (pteMap pdIndex) = target (m.mem (m.dirs pmap) pdIndex) :=
  walk_pteMap (sound_activate sound pmap) valid inDir

theorem load_pgDir_activate (sound : Sound view m) (pmap : PmapId)
    (valid : view.valid pmap = true) (index : ℕ) :
    (m.activate pmap).load pgDir index = some (m.mem (m.dirs pmap) index) :=
  (sound_activate sound pmap).roots.load_pgDir valid index

theorem walk_sys (sound : Sound view m) (valid : view.valid m.cur = true) {index : ℕ}
    (inTable : index < tableLen) :
    m.walk (sysIndex * tableLen + index) = target (m.mem m.sysTable index) :=
  sound.roots.walk_sys valid inTable

theorem notWalked_sysTable (sound : Sound view m) : NotWalked view m m.sysTable :=
  notWalked_of_holds sound (show m.holds view .sysTable = some m.sysTable from rfl) rfl

theorem keeps_poke {page : ℕ} (notWalked : NotWalked view m page) (index : ℕ) (word : Word) :
    Keeps view m (m.poke page index word) := by
  refine keeps_of_notWalked notWalked rfl rfl (fun _ _ => rfl) rfl ?_
  intro other different
  simp [poke, different]

theorem keeps_fillPage {page : ℕ} (notWalked : NotWalked view m page) (words : ℕ → Word) :
    Keeps view m (m.fillPage page words) := by
  refine keeps_of_notWalked notWalked rfl rfl (fun _ _ => rfl) rfl ?_
  intro other different
  simp [fillPage, different]

theorem kenter_eq (sound : Sound view m) {index : ℕ} (inTable : index < tableLen) (page : ℕ)
    (writable : Bool) :
    m.kenter (sysIndex * tableLen + index) page writable =
      some (m.poke m.sysTable index (kernelEntry page writable)) :=
  sound.roots.kenter_eq inTable page writable

theorem kremove_eq (sound : Sound view m) {index : ℕ} (inTable : index < tableLen) :
    m.kremove (sysIndex * tableLen + index) = some (m.poke m.sysTable index 0) :=
  sound.roots.kremove_eq inTable

theorem fillTmp_eq (sound : Sound view m) (valid : view.valid m.cur = true) {page : ℕ}
    (small : page < 2 ^ 20) (notWalked : NotWalked view m page) (words : ℕ → Word) :
    m.fillTmp page words = some (((m.poke m.sysTable 1 (kernelEntry page true)).fillPage page
      words).poke m.sysTable 1 0) :=
  sound.roots.fillTmp_eq valid small (notDir_of_notWalked notWalked) words

theorem fillTmp_spec (sound : Sound view m) (valid : view.valid m.cur = true) {page : ℕ}
    (small : page < 2 ^ 20) (notWalked : NotWalked view m page) (notSys : page ≠ m.sysTable)
    {words : ℕ → Word} (filled : m.fillTmp page words = some m') :
    Keeps view m m' ∧ m'.mem page = words := by
  have entered := keeps_poke (notWalked_sysTable sound) 1 (kernelEntry page true)
  have soundEntered := sound_keeps sound entered
  have overwritten := keeps_fillPage (notWalked_keeps entered notWalked) words
  have soundFilled := sound_keeps soundEntered overwritten
  have removed := keeps_poke (notWalked_sysTable soundFilled) 1 0
  rw [fillTmp_eq sound valid small notWalked, Option.some.injEq] at filled
  subst filled
  refine ⟨(entered.trans overwritten).trans removed, ?_⟩
  simp [poke, fillPage, notSys]

/-- A page that is copied to through the windows changes nothing else. -/
theorem copyPage_spec (sound : Sound view m) (valid : view.valid m.cur = true) {src dst : ℕ}
    (small : dst < 2 ^ 20) (notWalked : NotWalked view m dst)
    (copied : m.copyPage src dst = some m') : Keeps view m m' := by
  have index : 1 < tableLen := by decide
  have index2 : 2 < tableLen := by decide
  have entered := keeps_poke (notWalked_sysTable sound) 1 (kernelEntry src false)
  have soundEntered := sound_keeps sound entered
  have both := keeps_poke (notWalked_sysTable soundEntered) 2 (kernelEntry dst true)
  have soundBoth := sound_keeps soundEntered both
  have notWalkedBoth := notWalked_keeps both (notWalked_keeps entered notWalked)
  simp only [copyPage, Option.bind_eq_bind] at copied
  rw [tmpPage, kenter_eq sound index, Option.bind_some, tmpPage2, kenter_eq soundEntered index2,
    Option.bind_some, Option.bind_eq_some_iff] at copied
  rcases copied with ⟨source, _, copied⟩
  have walked : ((m.poke m.sysTable 1 (kernelEntry src false)).poke
      (m.poke m.sysTable 1 (kernelEntry src false)).sysTable 2 (kernelEntry dst true)).walk
      (sysIndex * tableLen + 2) = some dst := by
    rw [walk_sys soundBoth valid index2]
    simp [poke, target_kernelEntry small]
  rw [fill, walked, Option.map_some, Option.bind_some] at copied
  have filled := keeps_fillPage notWalkedBoth (((m.poke m.sysTable 1 (kernelEntry src false)).poke
    (m.poke m.sysTable 1 (kernelEntry src false)).sysTable 2 (kernelEntry dst true)).mem source)
  have soundFilled := sound_keeps soundBoth filled
  rw [kremove_eq soundFilled index, Option.bind_some] at copied
  have removed := keeps_poke (notWalked_sysTable soundFilled) 1 0
  rw [kremove_eq (sound_keeps soundFilled removed) index2, Option.some.injEq] at copied
  subst copied
  have removed2 := keeps_poke (notWalked_sysTable (sound_keeps soundFilled removed)) 2 0
  exact (((entered.trans both).trans filled).trans removed).trans removed2

end

end Machine

end Osix.Vm
