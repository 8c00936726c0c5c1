import Osix.Fs.Basic
import Osix.Vm.Bitmap

/-!
# Page tables

`sys/i386/pmap.c` over physical memory. Page directories and page tables are pages of
physical memory like any other, and the kernel reaches them, as the source does, through
virtual memory: the last entry of every page directory points to the directory itself.
Physical addresses are page numbers here, since all of them are page aligned; virtual
addresses are page numbers with the index of a word. A panic and a page fault of the kernel
are `none`. The variables of the kernel are fields of their own and no words of memory.
-/

namespace Osix.Vm

abbrev Word := BitVec 32

/-! ## Page table entries -/

/-- An entry for a page: its address with flags in the low bits. -/
def entry (page : ℕ) (flags : Word) : Word := BitVec.ofNat 32 (page * 4096) ||| flags

def pagePresent : Word := 1
def pageWritable : Word := 2
def pageUser : Word := 4

/-- The page that an entry points to if it is present. -/
def target (word : Word) : Option ℕ :=
  if word &&& pagePresent ≠ 0 then some (word.toNat / 4096) else none

/-- The words of a page table. -/
def tableLen : ℕ := 1024

/-- `SYS_VADDR_INDEX`, the first entry of a page directory that is not for user pages. -/
def sysIndex : ℕ := 512

/-- The pages below `SYS_VADDR`. -/
def userPages : ℕ := sysIndex * tableLen

/-- `SYS_VADDR_TMP` and `SYS_VADDR_TMP2`. -/
def tmpPage : ℕ := sysIndex * tableLen + 1
def tmpPage2 : ℕ := sysIndex * tableLen + 2

/-- `PTE_MAP_INDEX`. -/
def pteMapIndex : ℕ := 1023

/-- The virtual page of `pte_map[pd_index]`. -/
def pteMap (pdIndex : ℕ) : ℕ := pteMapIndex * tableLen + pdIndex

/-- The virtual page of `pg_dir`. -/
def pgDir : ℕ := pteMap pteMapIndex

/-! ## The machine -/

inductive PmapId where
  | kernel
  | proc (p : ProcId)
deriving DecidableEq

/--
Physical memory, the page bitmap, `cur_pmap`, the page directory of each `struct pmap`
(0 for `NULL`) and the page of the kernel's page table `sys_pg_table`.
-/
structure Machine where
  mem : ℕ → ℕ → Word
  vmm : Vmm
  cur : PmapId
  dirs : PmapId → ℕ
  sysTable : ℕ

namespace Machine

/-- The translation of a virtual page by the memory management unit. -/
def walk (m : Machine) (vpage : ℕ) : Option ℕ :=
  (target (m.mem (m.dirs m.cur) (vpage / tableLen))).bind fun table =>
    target (m.mem table (vpage % tableLen))

/-- The translation for an access that needs these rights in both entries. -/
def walkWith (m : Machine) (rights : Word) (vpage : ℕ) : Option ℕ :=
  let pde := m.mem (m.dirs m.cur) (vpage / tableLen)
  if pde &&& rights = rights then
    (target pde).bind fun table =>
      let pte := m.mem table (vpage % tableLen)
      if pte &&& rights = rights then target pte else none
  else
    none

def load (m : Machine) (vpage index : ℕ) : Option Word :=
  (m.walk vpage).map fun page => m.mem page index

/-- A word of physical memory is changed. -/
def poke (m : Machine) (page index : ℕ) (word : Word) : Machine :=
  { m with mem := Function.update m.mem page (Function.update (m.mem page) index word) }

/-- A page of physical memory is overwritten. -/
def fillPage (m : Machine) (page : ℕ) (words : ℕ → Word) : Machine :=
  { m with mem := Function.update m.mem page words }

def store (m : Machine) (vpage index : ℕ) (word : Word) : Option Machine :=
  (m.walk vpage).map fun page => m.poke page index word

/-- `memset` or `memcpy` to a whole virtual page. -/
def fill (m : Machine) (vpage : ℕ) (words : ℕ → Word) : Option Machine :=
  (m.walk vpage).map fun page => m.fillPage page words

/--
The kernel stores an `int` at an address that it was given. The bytes may lie in two words
and in two pages, and both pages must be writable (`entry.S` sets the bit WP of cr0).
-/
def storeInt (m : Machine) (vaddr value : Word) : Option Machine := do
  let shift := 8 * (vaddr.toNat % 4)
  let first ← m.walkWith pageWritable (vaddr.toNat / 4096)
  let last ← m.walkWith pageWritable ((vaddr + 3).toNat / 4096)
  let index := vaddr.toNat % 4096 / 4
  if shift = 0 then
    return m.poke first index value
  else
    let low := m.poke first index
      (m.mem first index &&& ~~~(BitVec.allOnes 32 <<< shift) ||| value <<< shift)
    let next := (vaddr + 3).toNat % 4096 / 4
    return low.poke last next
      (low.mem last next &&& ~~~(BitVec.allOnes 32 >>> (32 - shift)) ||| value >>> (32 - shift))

/-- A process overwrites a page that user mode may write to. -/
def touch (m : Machine) (vpage : ℕ) (words : ℕ → Word) : Option Machine :=
  (m.walkWith (pageWritable ||| pageUser) vpage).map fun page => m.fillPage page words

/-- `pmap_activate_pmap`. -/
def activate (m : Machine) (pmap : PmapId) : Machine := { m with cur := pmap }

/-- `vmm_alloc_page`. -/
def allocPage (m : Machine) : Option (ℕ × Machine) :=
  m.vmm.allocPage.map fun result => (result.1, { m with vmm := result.2 })

/-- `vmm_free_page`. -/
def freePage (m : Machine) (page : ℕ) : Option Machine :=
  (m.vmm.freePage page).map fun vmm => { m with vmm := vmm }

/-! ## Entering and removing mappings -/

/-- `pmap_enter_raw`. -/
def enterRaw (m : Machine) (pmap : PmapId) (vpage page : ℕ) (writable : Bool) : Option Machine :=
  m.store (pteMap (vpage / tableLen)) (vpage % tableLen)
    (entry page (pagePresent ||| (if writable then pageWritable else 0) |||
      (if pmap = .kernel then 0 else pageUser)))

/-- The new page table of `pmap_enter` if the directory has none. -/
def newTable (zeroPage : Machine → ℕ → Option Machine) (m : Machine) (pdIndex : ℕ) :
    Option Machine := do
  let (table, allocated) ← m.allocPage
  let zeroed ← zeroPage allocated table
  zeroed.store pgDir pdIndex (entry table (pagePresent ||| pageWritable ||| pageUser))

/-- `pmap_enter`, with the `pmap_zero_page` that it uses. -/
def enterUsing (zeroPage : Machine → ℕ → Option Machine) (m : Machine) (pmap : PmapId)
    (vpage page : ℕ) (writable : Bool) : Option Machine := do
  let there := m.activate pmap
  let pde ← there.load pgDir (vpage / tableLen)
  let withTable ←
    if pde &&& pagePresent = 0 then newTable zeroPage there (vpage / tableLen) else some there
  let entered ← withTable.enterRaw pmap vpage page writable
  return entered.activate m.cur

/--
`pmap_kenter`. The kernel's page table is there: without it `pmap_enter` and
`pmap_zero_page` would call each other for ever.
-/
def kenter (m : Machine) (vpage page : ℕ) (writable : Bool) : Option Machine :=
  enterUsing (fun _ _ => none) m .kernel vpage page writable

/-- `pmap_remove` of one page. -/
def remove (m : Machine) (pmap : PmapId) (vpage : ℕ) : Option Machine :=
  ((m.activate pmap).store (pteMap (vpage / tableLen)) (vpage % tableLen) 0).map
    fun removed => removed.activate m.cur

/-- `pmap_kremove` of one page. -/
def kremove (m : Machine) (vpage : ℕ) : Option Machine := m.remove .kernel vpage

/-- A page is mapped at `SYS_VADDR_TMP`, overwritten and unmapped. -/
def fillTmp (m : Machine) (page : ℕ) (words : ℕ → Word) : Option Machine := do
  let entered ← m.kenter tmpPage page true
  let filled ← entered.fill tmpPage words
  filled.kremove tmpPage

/-- `pmap_zero_page`. -/
def zeroPage (m : Machine) (page : ℕ) : Option Machine := m.fillTmp page fun _ => 0

/-- `pmap_enter`. -/
def enter (m : Machine) (pmap : PmapId) (vpage page : ℕ) (writable : Bool) : Option Machine :=
  enterUsing zeroPage m pmap vpage page writable

/-- `pmap_copy_page`. -/
def copyPage (m : Machine) (src dst : ℕ) : Option Machine := do
  let entered ← m.kenter tmpPage src false
  let both ← entered.kenter tmpPage2 dst true
  let source ← both.walk tmpPage
  let copied ← both.fill tmpPage2 (both.mem source)
  let removed ← copied.kremove tmpPage
  removed.kremove tmpPage2

/-- `pmap_extract`: the page that a virtual page is mapped to, or 0. -/
def extract (m : Machine) (pmap : PmapId) (vpage : ℕ) : Option ℕ := do
  let there := m.activate pmap
  let pde ← there.load pgDir (vpage / tableLen)
  if pde &&& pagePresent = 0 then
    return 0
  else
    let pte ← there.load (pteMap (vpage / tableLen)) (vpage % tableLen)
    return (target pte).getD 0

/-! ## Address spaces -/

/-- `pmap_create`. -/
def create (m : Machine) (pmap : PmapId) : Option Machine := do
  let (dir, allocated) ← m.allocPage
  let entered ←
    { allocated with dirs := Function.update allocated.dirs pmap dir }.kenter tmpPage dir true
  let zeroed ← entered.fill tmpPage fun _ => 0
  let withKernel ← zeroed.store tmpPage sysIndex
    (entry m.sysTable (pagePresent ||| pageWritable ||| pageUser))
  let recursive ← withKernel.store tmpPage pteMapIndex
    (entry dir (pagePresent ||| pageWritable ||| pageUser))
  recursive.kremove tmpPage

/-- The loop of `pmap_destroy` over the page tables of user pages. -/
def freeTables : List ℕ → Machine → Option Machine
  | [], m => some m
  | pdIndex :: rest, m => do
      let pde ← m.load pgDir pdIndex
      match target pde with
      | none => freeTables rest m
      | some table => (m.freePage table).bind (freeTables rest)

/-- `pmap_destroy`. -/
def destroy (m : Machine) (pmap : PmapId) : Option Machine := do
  let freed ← freeTables (List.range sysIndex) (m.activate pmap)
  let last ← (freed.activate m.cur).freePage (m.dirs pmap)
  return { last with dirs := Function.update last.dirs pmap 0 }

end Machine

end Osix.Vm
