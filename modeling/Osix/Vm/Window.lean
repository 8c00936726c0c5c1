import Osix.Vm.Copies
import Osix.Vm.Owners

/-!
# The window at `PTE_MAP`

Frames have one owner in every run in which processes write to user pages. The kernel does
not see to that: the entries of page directories are open to user mode, and the one for the
directory itself makes a window of all page tables. A process may write there itself, or let
`wait` store the exit status of a child there, and so map any frame.
-/

namespace Osix.Vm

open Ownership Transition

namespace Machine

section

variable {view : View} {m : Machine} {p : ProcId} {vpage pdIndex table : ℕ}

/-! ## Stores in the window -/

theorem Grants.rights {word rights : Word} (grants : Grants word)
    (within : (pageWritable ||| pageUser) &&& rights = rights) : word &&& rights = rights := by
  calc word &&& rights = word &&& ((pageWritable ||| pageUser) &&& rights) := by rw [within]
    _ = rights := by rw [← BitVec.and_assoc, grants, within]

/-- A page table of the running process, with all rights that the entries grant. -/
theorem walkWith_pteMap (sound : Sound view m) (granted : Granted view m)
    (alive : view.alive p = true) (isCur : m.cur = .proc p)
    (isTable : m.tableOf p pdIndex = some table) {rights : Word}
    (within : (pageWritable ||| pageUser) &&& rights = rights) :
    m.walkWith rights (pteMap pdIndex) = some table := by
  rw [tableOf] at isTable
  split at isTable
  · rename_i user
    have inDir : pdIndex < tableLen := by
      simp only [sysIndex, tableLen] at user ⊢
      omega
    have isSelf := sound.self (.proc p) alive
    have self := granted p alive pteMapIndex (Or.inr rfl) (present_of_target isSelf)
    have isOpen := granted p alive pdIndex (Or.inl user) (present_of_target isTable)
    simp only [walkWith, isCur, pteMap, index_div inDir, index_mod inDir, self.rights within,
      isSelf, Option.bind_some, isOpen.rights within, if_true, isTable]
  · cases isTable

end

end Machine

namespace Sys

open Machine

section

variable {sys : Sys} {p child : ProcId} {vpage table : ℕ}

/-- A process that writes in the window itself maps any frames. -/
theorem touch_maps (inv : Inv sys) (running : (sys.procs p).place = .running)
    (user : vpage < userPages) (isTable : sys.machine.tableOf p (vpage / tableLen) = some table)
    (words : ℕ → Word) :
    ∃ machine, sys.step (.touch p (pteMap (vpage / tableLen)) words) =
        some { sys with machine := machine } ∧
      machine.pageOf p vpage = target (words (vpage % tableLen)) := by
  have alive := alive_of_running running
  have switched := inv_switch inv p
  have walked := walkWith_pteMap switched.fine.sound switched.fine.granted alive rfl isTable
    (show (pageWritable ||| pageUser) &&& (pageWritable ||| pageUser) = _ by decide)
  have inSpace : pteMap (vpage / tableLen) < tableLen * tableLen := by
    simp only [userPages, sysIndex, tableLen] at user
    simp only [pteMap, pteMapIndex, tableLen]
    omega
  have notDir : sys.machine.dirs (.proc p) ≠ table :=
    not_dir_of_table inv.fine.sound alive isTable alive
  refine ⟨(sys.switch p).machine.fillPage table words, ?_, ?_⟩
  · rw [step, if_pos ⟨running, inSpace⟩, touch, walked]
    rfl
  · have sameTable : ((sys.switch p).machine.fillPage table words).tableOf p (vpage / tableLen) =
        some table := by
      rw [← isTable]
      simp [tableOf, fillPage, switch, activate, notDir]
    rw [pageOf, sameTable, Option.bind_some]
    simp only [fillPage, Function.update_self]

/-! ## Small runs -/

/-- The first process is created, with an empty program. -/
theorem create_first (boot : Boot) (enough : 3 ≤ boot.machine.vmm.freePages) :
    ∃ init, (start boot).step (.create 0 (fun _ => 0) (fun _ _ => 0)) = some init ∧
      init.procs =
        Function.update (fun _ => ⟨.free, none, 0, 0⟩) 0 ⟨.running, none, userText, 0⟩ ∧
      init.nextpid = 2 ∧ (∃ stack, init.machine.pageOf 0 userStack = some stack) ∧
      boot.machine.vmm.freePages ≤ init.machine.vmm.freePages + 3 := by
  have found : (start boot).procAlloc = some 0 := rfl
  have valid : (start boot).view.valid boot.machine.cur = true := by
    rw [boot.cur]
    rfl
  have onDirectory : (start boot).onDirectory = true := by
    have isCur : (start boot).machine.cur = .kernel := boot.cur
    rw [Sys.onDirectory, isCur]
  rcases @createMemory_exists (start boot).view boot.machine 0 (sound_start boot) valid rfl
    enough (fun _ => 0) (fun _ _ => 0) with ⟨machine, brk, isCreated⟩
  rcases createMemory_empty (sound_start boot) valid rfl isCreated with ⟨rfl, stack, less⟩
  have isMachine : (start boot).machine = boot.machine := rfl
  refine ⟨⟨machine, Function.update (start boot).procs 0 ⟨.running, none, userText, 0⟩, 2⟩, ?_,
    rfl, rfl, stack, less⟩
  rw [step, if_pos onDirectory]
  simp only [create, found, isMachine, isCreated, Option.bind_eq_bind, Option.bind_some,
    Option.pure_def]
  rfl

end

/-- A machine with the frames of the kernel: 1 is its page directory and 2 its page table. -/
def smallBoot : Boot where
  machine :=
    { mem := fun page index =>
        if page = 1 ∧ index = sysIndex then entry 2 3
        else if page = 1 ∧ index = pteMapIndex then entry 1 3
        else 0
      vmm := ⟨fun byte => if byte = 0 then 7 else 0, 0⟩
      cur := .kernel
      dirs := fun pmap => if pmap = .kernel then 1 else 0
      sysTable := 2 }
  cur := rfl
  kernel := by decide
  self := by decide
  dirNotTable := by decide
  dirNotZero := by decide
  tableNotZero := by decide
  zeroAllocated := by decide
  dirAllocated := by decide
  tableAllocated := by decide

theorem freePages_smallBoot : 8 ≤ smallBoot.machine.vmm.freePages := by
  have isSubset : ({3, 4, 5, 6, 7, 8, 9, 10} : Finset ℕ) ⊆ (Finset.range pageCount).filter
      fun page => ¬smallBoot.machine.vmm.Allocated page := by
    intro page isIn
    simp only [Finset.mem_insert, Finset.mem_singleton] at isIn
    rcases isIn with rfl | rfl | rfl | rfl | rfl | rfl | rfl | rfl <;>
      exact Finset.mem_filter.mpr ⟨Finset.mem_range.mpr (by decide), by decide⟩
  exact Finset.card_le_card isSubset

end Sys

end Osix.Vm
