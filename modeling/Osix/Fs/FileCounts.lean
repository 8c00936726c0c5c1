import Osix.Fs.Descriptors
import Osix.Fs.Kernel
import Osix.Lib.Counting
import Osix.Lib.Ledger
import Mathlib.Algebra.Group.Pi.Lemmas

/-!
# Reference counts of open files

`ref_count` of a file entry is to be the number of descriptors of live processes that point to
it. Between the calls of a process that is so if every call ends with as many descriptors more
or less as it has added to the reference counts, whatever other processes do while it waits.

`sys_open` takes a file entry before it looks for a descriptor, and forgets the entry when there
is none. All other calls that fail give back what they have taken.
-/

namespace Osix

open Program Fs Transition Counting

/-! ## Descriptors and counts -/

/-- The open files of a process that is alive. -/
def Proc.held (proc : Proc) : Fin nfile → Option FileId :=
  if proc.live then proc.ofile else fun _ => none

namespace Core

/-- The descriptors of all live processes. -/
def slots (core : Core) (place : ProcId × Fin nfile) : Option FileId :=
  (core.procs place.1).held place.2

/-- Every reference count is the number of descriptors. -/
def Counted (core : Core) : Prop :=
  ∀ f, (core.files f).refCount = count core.slots f

/-- By how much the reference counts exceed the number of descriptors. -/
def surplus (core : Core) (f : FileId) : ℤ := (core.files f).refCount - count core.slots f

theorem counted_iff_surplus (core : Core) : core.Counted ↔ core.surplus = 0 := by
  constructor
  · intro counted
    funext f
    exact Int.sub_eq_zero.mpr (counted f)
  · intro isZero f
    exact Int.sub_eq_zero.mp (congrFun isZero f)

theorem count_slots (core : Core) (f : FileId) :
    count core.slots f = ∑ p, count (core.procs p).held f := by
  rw [count_eq_sum, Fintype.sum_prod_type]
  apply Finset.sum_congr rfl
  intro p _
  rw [count_eq_sum]
  rfl

theorem surplus_congr {core core' : Core} (files : core'.files = core.files)
    (procs : core'.procs = core.procs) : core'.surplus = core.surplus := by
  funext f
  rw [surplus, surplus, files, count_slots, count_slots, procs]

/-- A change of one file. -/
theorem surplus_setFile (core : Core) (f : FileId) (change : File → File) :
    (core.setFile f change).surplus - core.surplus =
      Pi.single f ((change (core.files f)).refCount - (core.files f).refCount) := by
  funext g
  rw [Pi.sub_apply, surplus, surplus]
  have sameSlots : (core.setFile f change).slots = core.slots := rfl
  have isUpdate : (core.setFile f change).files =
      Function.update core.files f (change (core.files f)) := rfl
  rw [sameSlots, isUpdate]
  rcases eq_or_ne g f with rfl | isOther
  · rw [Pi.single_eq_same, Function.update_self]
    omega
  · rw [Pi.single_eq_of_ne isOther, Function.update_of_ne isOther]
    omega

/-- A change of one process. -/
theorem surplus_setProc (core : Core) (p : ProcId) (change : Proc → Proc) :
    (core.setProc p change).surplus - core.surplus =
      fun g => count (core.procs p).held g - count (change (core.procs p)).held g := by
  funext g
  rw [Pi.sub_apply, surplus, surplus, count_slots, count_slots]
  have sameFiles : (core.setProc p change).files = core.files := rfl
  have isUpdate : (fun q => count ((core.setProc p change).procs q).held g) =
      Function.update (fun q => count (core.procs q).held g) p
        (count (change (core.procs p)).held g) := by
    exact Function.comp_update (fun proc : Proc => count proc.held g) core.procs p _
  rw [sameFiles, isUpdate, Finset.sum_update_of_mem (Finset.mem_univ p),
    Finset.sum_eq_add_sum_sdiff_singleton_of_mem (Finset.mem_univ p)
      (fun q => count (core.procs q).held g)]
  omega

/-- What others leave alone for a live process. -/
structure Owns (p : ProcId) (core core' : Core) : Prop where
  live : (core'.procs p).live = true
  ofile : (core'.procs p).ofile = (core.procs p).ofile

def Kept (p : ProcId) (core core' : Core) : Prop := (core.procs p).live = true → Owns p core core'

theorem setProc_self (core : Core) (p : ProcId) (change : Proc → Proc) :
    (core.setProc p change).procs p = change (core.procs p) :=
  Function.update_self _ _ _

theorem Kept.of_procs {p : ProcId} {core core' : Core} (same : core'.procs p = core.procs p) :
    Kept p core core' := by
  intro live
  exact ⟨by rw [same, live], by rw [same]⟩

theorem Kept.trans {p : ProcId} {core core' core'' : Core} (first : Kept p core core')
    (second : Kept p core' core'') : Kept p core core'' := by
  intro live
  have owns := first live
  have owns' := second owns.live
  exact ⟨owns'.live, owns'.ofile.trans owns.ofile⟩

theorem Kept.setProc {core : Core} {p : ProcId} {change : Proc → Proc}
    (keeps : (core.procs p).live = true →
      (change (core.procs p)).live = true ∧ (change (core.procs p)).ofile = (core.procs p).ofile)
    (other : ProcId) : Kept other core (core.setProc p change) := by
  have isUpdate : (core.setProc p change).procs =
      Function.update core.procs p (change (core.procs p)) := rfl
  rcases eq_or_ne other p with rfl | isOther
  · intro live
    refine ⟨?_, ?_⟩
    · rw [isUpdate, Function.update_self]
      exact (keeps live).1
    · rw [isUpdate, Function.update_self]
      exact (keeps live).2
  · apply Kept.of_procs
    rw [isUpdate, Function.update_of_ne isOther]

/-- Operations of other kinds leave the tables of files and processes alone. -/
theorem perform_tables {H : Type} {core core' : Core} {operation : FsOp H}
    (notFiles : operation.kind ≠ .files)
    (happened : (core.perform operation).after = some core') :
    core'.files = core.files ∧ core'.procs = core.procs := by
  cases operation with
  | setFile | setProc => exact absurd rfl notFiles
  | ifind dev inodeno =>
      rcases core.ifind_cases dev inodeno with
        ⟨i, -, -, found⟩ | ⟨i, -, -, found⟩ | ⟨i, -, -, found⟩ | ⟨-, -, found⟩ <;>
        simp only [perform, found, Outcome.after, Option.some.injEq, reduceCtorEq] at happened <;>
        subst happened <;> exact ⟨rfl, rfl⟩
  | putchar dev char =>
      simp only [perform, Outcome.after, Option.some.injEq] at happened
      subst happened
      unfold Core.putchar
      split <;> exact ⟨rfl, rfl⟩
  | ilock | iunlock | iunref =>
      simp only [perform] at happened
      split at happened <;> cases happened
      exact ⟨rfl, rfl⟩
  | _ =>
      cases happened
      try exact ⟨rfl, rfl⟩

end Core

/-! ## The accounts -/

/-- The operations that may wait. -/
def FsOp.switches {H : Type} : FsOp H → Bool
  | .bread _ _ => true
  | .ifind _ _ => true
  | .sleep _ => true
  | _ => false

/-- What an operation does to the tables. -/
def Core.Does (operation : FsOp BufId) (core : Core) (reply : operation.Reply) (core' : Core) :
    Prop :=
  core' = core ∧ (operation.kind = .buffer ∨ operation.kind = .sleep) ∨
    core.perform operation = .done reply core'

namespace Kernel

theorem perform_buffer {operation : FsOp BufId} (core : Core)
    (below : operation.kind = .buffer ∨ operation.kind = .sleep) :
    (core.perform operation).after = none := by
  cases operation with
  | mark event => cases event <;> rcases below with below | below <;> cases below
  | bread | bdata | bstore | bdirty | bwrite | brelse | sleep | stop => rfl
  | _ => rcases below with below | below <;> cases below

theorem handler_does {pid : ProcId} {operation : FsOp BufId} {kernel kernel' : Kernel}
    {reply : operation.Reply} (happened : handler pid operation kernel = .done reply kernel') :
    Core.Does operation kernel.core reply kernel'.core := by
  by_cases below : operation.kind = .buffer ∨ operation.kind = .sleep
  · refine Or.inl ⟨?_, below⟩
    rcases handler_core (by rw [happened]; rfl) with same | performed
    · exact same
    · rw [perform_buffer kernel.core below] at performed
      cases performed
  · rw [not_or] at below
    rw [handler_eq_table below.1 below.2, table] at happened
    split at happened <;> cases happened
    rename_i performed
    rw [record_core]
    exact Or.inr performed

theorem handler_switches {pid : ProcId} {operation : FsOp BufId} {kernel kernel' : Kernel}
    (happened : handler pid operation kernel = .wait kernel') : operation.switches = true := by
  cases operation with
  | bread | ifind | sleep => rfl
  | bwrite buf =>
      change kernel.bwrite buf = _ at happened
      unfold bwrite at happened
      split at happened <;> cases happened
  | brelse buf =>
      change kernel.brelse pid buf = _ at happened
      unfold brelse at happened
      split at happened <;> cases happened
  | ilock i | iunlock i | iunref i =>
      simp only [handler, table, Core.perform] at happened
      split at happened
      · cases happened
      · rename_i performed
        split at performed <;> cases performed
      · cases happened
  | _ => cases happened

theorem handler_wait {pid : ProcId} {operation : FsOp BufId} {kernel kernel' : Kernel}
    (happened : handler pid operation kernel = .wait kernel') :
    kernel'.core.files = kernel.core.files ∧ kernel'.core.procs = kernel.core.procs := by
  have isSwitch := handler_switches happened
  rcases handler_core (by rw [happened]; rfl) with same | performed
  · rw [same]
    exact ⟨rfl, rfl⟩
  · refine Core.perform_tables ?_ performed
    intro isFiles
    cases operation with
    | bread | ifind | sleep => cases isFiles
    | _ => cases isSwitch

theorem interrupt_files (event : Interrupt) (kernel : Kernel) :
    (interrupt event kernel).core.files = kernel.core.files := by
  cases event with
  | ttyInput t char =>
      simp only [interrupt, Core.ttyInput]
      split
      · split <;> rfl
      · rfl
  | _ => rfl

theorem interrupt_proc (event : Interrupt) (kernel : Kernel) (p : ProcId) :
    ((interrupt event kernel).core.procs p).live = (kernel.core.procs p).live ∧
      ((interrupt event kernel).core.procs p).ofile = (kernel.core.procs p).ofile := by
  cases event with
  | ttyInput t char =>
      simp only [interrupt, Core.ttyInput]
      split
      · split
        · dsimp only
          split
          · exact ⟨rfl, rfl⟩
          · exact ⟨rfl, rfl⟩
        · exact ⟨rfl, rfl⟩
      · exact ⟨rfl, rfl⟩
  | signal q signals =>
      simp only [interrupt, Core.setProc]
      rcases eq_or_ne p q with rfl | isOther
      · rw [Function.update_self]
        exact ⟨rfl, rfl⟩
      · rw [Function.update_of_ne isOther]
        exact ⟨rfl, rfl⟩
  | _ => exact ⟨rfl, rfl⟩

theorem interrupt_surplus (event : Interrupt) (kernel : Kernel) :
    (interrupt event kernel).core.surplus = kernel.core.surplus := by
  funext f
  rw [Core.surplus, Core.surplus, interrupt_files, Core.count_slots, Core.count_slots]
  congr 1
  apply Finset.sum_congr rfl
  intro p _
  rcases interrupt_proc event kernel p with ⟨sameLive, sameOfile⟩
  rw [Proc.held, Proc.held, sameLive, sameOfile]

/-- The accounts of open files. -/
def fileLedger : Ledger system Core (FileId → ℤ) where
  look := Kernel.core
  balance := Core.surplus
  Kept := Core.Kept
  switches := FsOp.switches
  does := Core.Does
  kept_refl _ _ := Core.Kept.of_procs rfl
  kept_trans first second := first.trans second
  done := handler_does
  wait happened := by
    rcases handler_wait happened with ⟨files, procs⟩
    exact ⟨handler_switches happened, Core.surplus_congr files procs,
      fun p => Core.Kept.of_procs (congrFun procs p)⟩
  ends _ _ := rfl
  env event kernel := by
    refine ⟨interrupt_surplus event kernel, fun p live => ?_⟩
    rcases interrupt_proc event kernel p with ⟨sameLive, sameOfile⟩
    exact ⟨sameLive.trans live, sameOfile⟩

end Kernel

theorem Core.Does.tables {operation : FsOp BufId} {core core' : Core} {reply : operation.Reply}
    (does : Does operation core reply core') (notFiles : operation.kind ≠ .files) :
    core'.files = core.files ∧ core'.procs = core.procs := by
  rcases does with ⟨same, -⟩ | performed
  · rw [same]
    exact ⟨rfl, rfl⟩
  · exact perform_tables notFiles (by rw [performed]; rfl)

theorem Core.Does.perform {operation : FsOp BufId} {core core' : Core} {reply : operation.Reply}
    (does : Does operation core reply core') (notBuffer : operation.kind ≠ .buffer)
    (notSleep : operation.kind ≠ .sleep) : core.perform operation = .done reply core' := by
  rcases does with ⟨-, below | below⟩ | performed
  · exact absurd below notBuffer
  · exact absurd below notSleep
  · exact performed

/--
The operation changes neither the reference count of a file nor the descriptors of a process.
-/
structure Modest (operation : FsOp BufId) : Prop where
  file : ∀ f change, operation = .setFile f change →
    ∀ old, (change old).refCount = old.refCount
  proc : ∀ p change, operation = .setProc p change →
    ∀ old, (change old).live = old.live ∧ (change old).ofile = old.ofile

namespace Modest

variable {α : Type} {operation : FsOp BufId}

theorem of_kind (notFiles : operation.kind ≠ .files) : Modest operation where
  file f change isOp := absurd (by rw [isOp]; rfl) notFiles
  proc p change isOp := absurd (by rw [isOp]; rfl) notFiles

theorem of_uses {kinds : List OpKind} {prog : FsM BufId α} (uses : Uses kinds prog)
    (free : kinds.contains .files = false) : Only Modest prog := by
  apply uses.mono
  intro operation isKind
  apply of_kind
  intro isFiles
  rw [isFiles, ← List.contains_iff_mem, free] at isKind
  cases isKind

theorem does {core core' : Core} {reply : operation.Reply} (isModest : Modest operation)
    (does : Core.Does operation core reply core') :
    core'.surplus = core.surplus ∧ ∀ p, Core.Kept p core core' := by
  by_cases notFiles : operation.kind ≠ .files
  · rcases does.tables notFiles with ⟨files, procs⟩
    exact ⟨Core.surplus_congr files procs, fun p => Core.Kept.of_procs (congrFun procs p)⟩
  · rw [not_not] at notFiles
    have performed := does.perform (by rw [notFiles]; nofun) (by rw [notFiles]; nofun)
    cases operation with
    | setFile f change =>
        cases performed
        refine ⟨sub_eq_zero.mp ?_, fun p => Core.Kept.of_procs rfl⟩
        rw [Core.surplus_setFile, isModest.file f change rfl, sub_self, Pi.single_zero]
    | setProc p change =>
        cases performed
        rcases isModest.proc p change rfl (core.procs p) with ⟨live, ofile⟩
        refine ⟨sub_eq_zero.mp ?_, Core.Kept.setProc fun isLive => ⟨live.trans isLive, ofile⟩⟩
        rw [Core.surplus_setProc, Proc.held, Proc.held, live, ofile]
        exact funext fun g => Int.sub_self _
    | mark event =>
        cases performed
        exact ⟨rfl, fun p => Core.Kept.of_procs rfl⟩
    | stop why => exact reply.elim
    | _ => cases notFiles

end Modest

variable {α β : Type}

/-- The program of `p` leaves its account as `post` says. -/
def Settles (owes : (FileId → ℤ) → Prop) (p : ProcId) (core : Core) (owed : FileId → ℤ)
    (prog : FsM BufId α) (post : α → Core → (FileId → ℤ) → Prop) : Prop :=
  wp (Kernel.fileLedger.spec owes p) prog
    (fun value account => post value account.view account.owed) ⟨core, owed⟩

namespace Settles

variable {owes : (FileId → ℤ) → Prop} {p : ProcId} {core : Core} {owed : FileId → ℤ}

section

variable {post : α → Core → (FileId → ℤ) → Prop}

theorem pure {value : α} (holds : post value core owed) :
    Settles owes p core owed (Pure.pure value : FsM BufId α) post :=
  holds

theorem bind {prog : FsM BufId β} {next : β → FsM BufId α}
    (first : Settles owes p core owed prog fun value core' owed' =>
      Settles owes p core' owed' (next value) post) :
    Settles owes p core owed (prog >>= next) post :=
  (wp_bind prog next _).mpr first

theorem mono {prog : FsM BufId α} {post' : α → Core → (FileId → ℤ) → Prop}
    (weaker : ∀ value core' owed', post value core' owed' → post' value core' owed')
    (holds : Settles owes p core owed prog post) : Settles owes p core owed prog post' :=
  wp_mono (fun value account => weaker value account.view account.owed) holds

theorem stop {why : Stop} : Settles owes p core owed (Fs.stop why : FsM BufId α) post := by
  change (Kernel.fileLedger.spec owes p).before (.stop why) _ _
  rw [Ledger.before_of_not_switch rfl]
  exact fun empty => empty.elim

/-- An operation on the tables that does not wait. -/
theorem op {operation : FsOp BufId} {post : operation.Reply → Core → (FileId → ℤ) → Prop}
    (noSwitch : operation.switches = false) (notBuffer : operation.kind ≠ .buffer)
    (notSleep : operation.kind ≠ .sleep)
    (rest : ∀ reply core', core.perform operation = .done reply core' →
      (∀ other, other ≠ p → Core.Kept other core core') ∧
        post reply core' (owed + (core'.surplus - core.surplus))) :
    Settles owes p core owed (.perform operation) post := by
  change (Kernel.fileLedger.spec owes p).before operation _ _
  rw [Ledger.before_of_not_switch noSwitch]
  intro reply core' does
  exact rest reply core' (does.perform notBuffer notSleep)

/-- An operation that leaves files and processes alone and does not wait. -/
theorem other {operation : FsOp BufId} {post : operation.Reply → Core → (FileId → ℤ) → Prop}
    (noSwitch : operation.switches = false) (notFiles : operation.kind ≠ .files)
    (notBuffer : operation.kind ≠ .buffer) (notSleep : operation.kind ≠ .sleep)
    (rest : ∀ reply core', core.perform operation = .done reply core' →
      core'.files = core.files → core'.procs = core.procs → post reply core' owed) :
    Settles owes p core owed (.perform operation) post := by
  refine op noSwitch notBuffer notSleep fun reply core' performed => ?_
  rcases Core.perform_tables notFiles (by rw [performed]; rfl) with ⟨files, procs⟩
  refine ⟨fun other _ => Core.Kept.of_procs (congrFun procs other), ?_⟩
  rw [Core.surplus_congr files procs, sub_self, add_zero]
  exact rest reply core' performed files procs

theorem getCore {post : Core → Core → (FileId → ℤ) → Prop} (rest : post core core owed) :
    Settles owes p core owed (Fs.getCore : FsM BufId Core) post := by
  refine other rfl nofun nofun nofun fun reply core' performed _ _ => ?_
  cases performed
  exact rest

theorem getFile {f : FileId} {post : File → Core → (FileId → ℤ) → Prop}
    (rest : post (core.files f) core owed) :
    Settles owes p core owed (Fs.getFile f : FsM BufId File) post :=
  bind (getCore (pure rest))

theorem getProc {q : ProcId} {post : Proc → Core → (FileId → ℤ) → Prop}
    (rest : post (core.procs q) core owed) :
    Settles owes p core owed (Fs.getProc q : FsM BufId Proc) post :=
  bind (getCore (pure rest))

theorem mark {event : Event} {post : Unit → Core → (FileId → ℤ) → Prop}
    (rest : post () core owed) :
    Settles owes p core owed (Fs.mark event : FsM BufId Unit) post := by
  refine op rfl ?_ ?_ ?_
  · cases event <;> nofun
  · cases event <;> nofun
  · intro reply core' performed
    cases performed
    rw [sub_self, add_zero]
    exact ⟨fun other _ => Core.Kept.of_procs rfl, rest⟩

theorem setFile {f : FileId} {change : File → File} {post : Unit → Core → (FileId → ℤ) → Prop}
    (rest : post () (core.setFile f change)
      (owed + Pi.single f ((change (core.files f)).refCount - (core.files f).refCount))) :
    Settles owes p core owed (Fs.setFile f change : FsM BufId Unit) post := by
  refine op rfl nofun nofun fun reply core' performed => ?_
  cases performed
  rw [Core.surplus_setFile]
  exact ⟨fun other _ => Core.Kept.of_procs rfl, rest⟩

/-- Changes of a file that are not about its reference count. -/
theorem setFile_same {f : FileId} {change : File → File}
    {post : Unit → Core → (FileId → ℤ) → Prop}
    (same : (change (core.files f)).refCount = (core.files f).refCount)
    (rest : post () (core.setFile f change) owed) :
    Settles owes p core owed (Fs.setFile f change : FsM BufId Unit) post := by
  apply setFile
  rw [same, sub_self, Pi.single_zero, add_zero]
  exact rest

theorem touchFile {f : FileId} {change : File → File} {post : Unit → Core → (FileId → ℤ) → Prop}
    (same : ∀ old, (change old).refCount = old.refCount)
    (rest : ∀ core', core'.procs = core.procs → post () core' owed) :
    Settles owes p core owed (Fs.setFile f change : FsM BufId Unit) post :=
  setFile_same (same _) (rest _ rfl)

theorem setPipe {pipe : PipeId} {change : Pipe → Pipe} {post : Unit → Core → (FileId → ℤ) → Prop}
    (rest : post () (core.setPipe pipe change) owed) :
    Settles owes p core owed (Fs.setPipe pipe change : FsM BufId Unit) post := by
  refine other rfl nofun nofun nofun fun reply core' performed _ _ => ?_
  cases performed
  exact rest

theorem setProc {q : ProcId} {change : Proc → Proc} {post : Unit → Core → (FileId → ℤ) → Prop}
    (keeps : q = p ∨ ((core.procs q).live = true → (change (core.procs q)).live = true ∧
      (change (core.procs q)).ofile = (core.procs q).ofile))
    (rest : post () (core.setProc q change)
      (owed + fun g => count (core.procs q).held g - count (change (core.procs q)).held g)) :
    Settles owes p core owed (Fs.setProc q change : FsM BufId Unit) post := by
  refine op rfl nofun nofun fun reply core' performed => ?_
  cases performed
  rw [Core.surplus_setProc]
  refine ⟨fun other isOther => ?_, rest⟩
  rcases keeps with same | keeps
  · apply Core.Kept.of_procs
    exact Function.update_of_ne (same ▸ isOther) _ _
  · exact Core.Kept.setProc keeps other

/-- Changes of a process that are not about its descriptors. -/
theorem setProc_same {q : ProcId} {change : Proc → Proc}
    {post : Unit → Core → (FileId → ℤ) → Prop}
    (live : (change (core.procs q)).live = (core.procs q).live)
    (ofile : (change (core.procs q)).ofile = (core.procs q).ofile)
    (rest : post () (core.setProc q change) owed) :
    Settles owes p core owed (Fs.setProc q change : FsM BufId Unit) post := by
  refine setProc (Or.inr fun isLive => ⟨live.trans isLive, ofile⟩) ?_
  have sameHeld : (change (core.procs q)).held = (core.procs q).held := by
    rw [Proc.held, Proc.held, live, ofile]
  have isZero : (fun g => count (core.procs q).held g - count (core.procs q).held g) = 0 :=
    funext fun g => Int.sub_self _
  rw [sameHeld, isZero, add_zero]
  exact rest

/-- A program that works on pipes only. -/
theorem aside {prog : FsM BufId α} (uses : Uses [.data, .pipes] prog)
    (rest : ∀ value core', core'.procs = core.procs → post value core' owed) :
    Settles owes p core owed prog post := by
  refine uses.wp (fun account => account.view.procs = core.procs ∧ account.owed = owed) ?_
    ⟨rfl, rfl⟩ ?_
  · rintro operation post' ⟨core', owed'⟩ isKind ⟨procs, isOwed⟩ next
    dsimp only at procs isOwed
    rcases List.mem_pair.mp isKind with isKind | isKind <;>
    · have noSwitch : operation.switches = false := by
        cases operation <;> first | rfl | cases isKind
      rw [Ledger.before_of_not_switch noSwitch]
      intro reply view' does
      rcases Core.Does.tables does (by rw [isKind]; nofun) with ⟨files', procs'⟩
      refine ⟨fun other _ => Core.Kept.of_procs (congrFun procs' other),
        next reply _ ⟨procs'.trans procs, ?_⟩⟩
      have same : Kernel.fileLedger.balance view' = Kernel.fileLedger.balance core' :=
        Core.surplus_congr files' procs'
      rw [same, sub_self, add_zero]
      exact isOwed
  · rintro value ⟨core', owed'⟩ ⟨procs, isOwed⟩
    dsimp only at procs isOwed ⊢
    rw [isOwed]
    exact rest value core' procs

/-- A program of modest operations: others run while it waits. -/
theorem modest {prog : FsM BufId α} (only : Only Modest prog) (allowed : owes owed)
    (rest : ∀ value core', Core.Kept p core core' → post value core' owed) :
    Settles owes p core owed prog post := by
  refine only.wp (fun account => Core.Kept p core account.view ∧ account.owed = owed) ?_
    ⟨Core.Kept.of_procs rfl, rfl⟩ ?_
  · rintro operation post' ⟨core', owed'⟩ isModest ⟨kept, isOwed⟩ next
    dsimp only at kept isOwed
    have after : ∀ view, Core.Kept p core view →
        Kernel.fileLedger.After p operation view owed' post' := by
      intro view keptView reply view' does
      rcases isModest.does does with ⟨same, keeps⟩
      refine ⟨fun other _ => keeps other, next reply _ ⟨keptView.trans (keeps p), ?_⟩⟩
      have sameBalance : Kernel.fileLedger.balance view' = Kernel.fileLedger.balance view := same
      rw [sameBalance, sub_self, add_zero]
      exact isOwed
    cases isSwitch : operation.switches with
    | true =>
        rw [Ledger.before_of_switch isSwitch]
        exact ⟨isOwed ▸ allowed, fun view keptView => after view (kept.trans keptView)⟩
    | false =>
        rw [Ledger.before_of_not_switch isSwitch]
        exact after core' kept
  · rintro value ⟨core', owed'⟩ ⟨kept, isOwed⟩
    dsimp only at kept isOwed ⊢
    rw [isOwed]
    exact rest value core' kept

theorem below {prog : FsM BufId α} (isBelow : BelowTables prog) (allowed : owes owed)
    (rest : ∀ value core', Core.Kept p core core' → post value core' owed) :
    Settles owes p core owed prog post :=
  modest (Modest.of_uses isBelow rfl) allowed rest

theorem whenSome_some {value : β} {prog : β → FsM BufId Unit}
    {post : Unit → Core → (FileId → ℤ) → Prop}
    (holds : Settles owes p core owed (prog value) post) :
    Settles owes p core owed (Prog.whenSome (some value) prog) post :=
  holds

theorem when {condition : Prop} [Decidable condition] {prog : FsM BufId Unit}
    {post : Unit → Core → (FileId → ℤ) → Prop}
    (yes : condition → Settles owes p core owed prog post)
    (no : ¬condition → post () core owed) :
    Settles owes p core owed (Prog.when condition prog) post := by
  unfold Prog.when
  split
  · exact yes ‹_›
  · exact no ‹_›

theorem wp_self {prog : FsM BufId α} (settles : Settles owes p core owed prog post) :
    wp (Kernel.fileLedger.spec owes p) prog
      (fun value account => post value account.view account.owed) ⟨core, owed⟩ := settles

end

-- From here on the rules above are all that is used; unfolding would run the programs.
attribute [irreducible] Settles

/-! ## File entries and descriptors -/

theorem fileAlloc {post : Option FileId → Core → (FileId → ℤ) → Prop}
    (full : post none core owed)
    (found : ∀ f core', core'.procs = core.procs →
      post (some f) core' (owed + Pi.single f 1)) :
    Settles owes p core owed (Fs.fileAlloc : FsM BufId (Option FileId)) post := by
  refine bind (getCore ?_)
  split
  · rename_i f isFound
    have isFree : (core.files f).refCount = 0 := by simpa using List.find?_some isFound
    refine bind (setFile (pure ?_))
    rw [isFree]
    exact found f _ rfl
  · exact pure full

theorem fileDup {f : FileId} {post : Unit → Core → (FileId → ℤ) → Prop}
    (rest : post () (core.setFile f fun old => { old with refCount := old.refCount + 1 })
      (owed + Pi.single f 1)) :
    Settles owes p core owed (Fs.fileDup f : FsM BufId Unit) post := by
  apply setFile
  rw [add_sub_cancel_left]
  exact rest

/-- A change of one descriptor of a live process. -/
theorem setDescriptor (fd : Fin nfile) (entry : Option FileId) {change : Proc → Proc}
    {post : Unit → Core → (FileId → ℤ) → Prop} (live : (core.procs p).live = true)
    (stays : (change (core.procs p)).live = true)
    (isUpdate : (change (core.procs p)).ofile = Function.update (core.procs p).ofile fd entry)
    (rest : post () (core.setProc p change)
      (owed + fun g => share ((core.procs p).ofile fd) g - share entry g)) :
    Settles owes p core owed (Fs.setProc p change : FsM BufId Unit) post := by
  apply setProc (Or.inl rfl)
  have same : (fun g => count (core.procs p).held g - count (change (core.procs p)).held g) =
      fun g => share ((core.procs p).ofile fd) g - share entry g := by
    funext g
    rw [Proc.held, Proc.held, if_pos live, if_pos stays, isUpdate, count_update]
    omega
  rw [same]
  exact rest

end Settles

theorem share_eq_single (f : FileId) : (fun g => share (some f) g) = Pi.single f 1 := by
  funext g
  rcases eq_or_ne g f with rfl | isOther
  · rw [share_self, Pi.single_eq_same]
  · rw [share_of_ne (Ne.symm isOther), Pi.single_eq_of_ne isOther]

theorem ofile_eq_update (table : Fin nfile → Option FileId) (fd : Fin nfile)
    (entry : Option FileId) :
    (fun other : Fin nfile => if (other : ℤ) = (fd : ℕ) then entry else table other) =
      Function.update table fd entry := by
  funext other
  rcases eq_or_ne other fd with rfl | isOther
  · rw [if_pos rfl, Function.update_self]
  · rw [Function.update_of_ne isOther, if_neg]
    exact fun same => isOther (Fin.ext (Int.ofNat_inj.mp same))

namespace Settles

variable {owes : (FileId → ℤ) → Prop} {p : ProcId} {core : Core} {owed : FileId → ℤ}

theorem fileFdAlloc {f : FileId} {post : ℤ → Core → (FileId → ℤ) → Prop}
    (live : (core.procs p).live = true)
    (full : (∀ fd, (core.procs p).ofile fd ≠ none) → post (-emfile) core owed)
    (found : ∀ fd : Fin nfile, (core.procs p).ofile fd = none →
      post (fd : ℕ) (core.setProc p fun old =>
        { old with ofile := Function.update old.ofile fd (some f) }) (owed - Pi.single f 1)) :
    Settles owes p core owed (Fs.fileFdAlloc p f : FsM BufId ℤ) post := by
  refine bind (getProc ?_)
  split
  · rename_i fd isFound
    have isFree : (core.procs p).ofile fd = none := by simpa using List.find?_some isFound
    refine bind (setDescriptor fd (some f) live live rfl (pure ?_))
    have isMinus : (fun g => share ((core.procs p).ofile fd) g - share (some f) g) =
        -Pi.single f 1 := by
      rw [isFree, ← share_eq_single]
      funext g
      rw [share_none, Int.zero_sub]
      rfl
    rw [isMinus, ← sub_eq_add_neg]
    exact found fd isFree
  · rename_i notFound
    refine pure (full fun fd isFree => ?_)
    exact absurd isFree (by simpa using List.find?_eq_none.mp notFound fd (List.mem_finRange fd))

/-- `file_close` takes back one reference, and may wait once it has. -/
theorem fileClose {f : FileId} {post : Unit → Core → (FileId → ℤ) → Prop}
    (allowed : owes (owed - Pi.single f 1))
    (rest : ∀ core', Core.Kept p core core' → post () core' (owed - Pi.single f 1)) :
    Settles owes p core owed (Fs.fileClose f : FsM BufId Unit) post := by
  have isMinus : ∀ count : ℤ, owed + Pi.single f (count - 1 - count) = owed - Pi.single f 1 := by
    intro count
    rw [show count - 1 - count = -1 by omega, Pi.single_neg, sub_eq_add_neg]
  refine bind (getFile ?_)
  split
  · refine bind (getFile ?_)
    split
    · refine bind (setFile ?_)
      rw [isMinus]
      refine aside ?_ fun _ core' procs => rest core' (Core.Kept.of_procs (congrFun procs p))
      refine Uses.bind (Uses.when ?_) fun _ => ?_
      · refine Uses.bind (Uses.when (Uses.op rfl)) fun _ => ?_
        exact Uses.when (Uses.op rfl)
      · exact Uses.bind (Uses.op rfl) fun _ => Uses.when (Uses.op rfl)
    · exact stop
  · refine bind (getFile ?_)
    split
    · exact stop
    · refine bind (setFile ?_)
      rw [isMinus]
      refine when (fun _ => ?_) fun _ => rest _ (Core.Kept.of_procs rfl)
      cases (core.files f).inode with
      | none => exact pure (rest _ (Core.Kept.of_procs rfl))
      | some i =>
          refine whenSome_some (bind (below (Uses.iput i).below allowed fun _ core' kept => ?_))
          have keptFile : Core.Kept p core
              (core.setFile f fun old => { old with refCount := old.refCount - 1 }) :=
            Core.Kept.of_procs rfl
          have keptAll := keptFile.trans kept
          exact setFile_same rfl (rest _ (keptAll.trans (Core.Kept.of_procs rfl)))

/-! ## System calls -/

theorem openFile {fd : ℤ} {post : Option FileId → Core → (FileId → ℤ) → Prop}
    (missing : post none core owed)
    (found : ∀ (source : Fin nfile) (f : FileId), fd = (source : ℕ) →
      (core.procs p).ofile source = some f → post (some f) core owed) :
    Settles owes p core owed (Fs.openFile p fd : FsM BufId (Option FileId)) post := by
  unfold Fs.openFile
  split
  · exact pure missing
  · refine bind (mark (bind (getProc (pure ?_))))
    cases isOpen : (core.procs p).descriptor fd with
    | none => exact missing
    | some f =>
        rcases Proc.exists_of_descriptor isOpen with ⟨source, isFd, isSource⟩
        exact found source f isFd isSource

theorem looseOpenFile {fd : ℤ} {post : Slot → Core → (FileId → ℤ) → Prop}
    (missing : post .null core owed) (garbage : post .garbage core owed)
    (found : ∀ (source : Fin nfile) (f : FileId), fd = (source : ℕ) →
      (core.procs p).ofile source = some f → post (.file f) core owed) :
    Settles owes p core owed (Fs.looseOpenFile p fd : FsM BufId Slot) post := by
  unfold Fs.looseOpenFile
  split
  · exact pure missing
  · refine bind (mark (bind (getProc (pure ?_))))
    unfold Proc.looseDescriptor
    split
    · split
      · exact missing
      · exact garbage
    · cases isOpen : (core.procs p).descriptor fd with
      | none => exact missing
      | some f =>
          rcases Proc.exists_of_descriptor isOpen with ⟨source, isFd, isSource⟩
          exact found source f isFd isSource

/--
What a call of `p` ends with: nothing is owed, and if it fails the descriptors are as they were.
-/
structure Ends (p : ProcId) (start : Core) (value : ℤ) (core : Core) (owed : FileId → ℤ) :
    Prop where
  empty : owed = 0
  failed : value < 0 → Core.Owns p start core

theorem Ends.succeeded {p : ProcId} {start core : Core} {value : ℤ} {owed : FileId → ℤ}
    (empty : owed = 0) (notNegative : 0 ≤ value) : Ends p start value core owed :=
  ⟨empty, fun negative => absurd notNegative (by omega)⟩

/-- A call that may owe something while it waits. -/
def Pays (p : ProcId) (prog : FsM BufId ℤ) : Prop :=
  ∀ core, (core.procs p).live = true →
    Settles (fun _ => True) p core 0 prog (Ends p core)

theorem close (p : ProcId) (fd : ℤ) : Pays p (Fs.close p fd) := by
  intro core live
  refine bind (openFile (pure ⟨rfl, fun _ => ⟨live, rfl⟩⟩) fun source f isFd isSource => ?_)
  refine bind (fileClose trivial fun core' kept => ?_)
  have owns := kept live
  refine bind (setDescriptor source none owns.live owns.live ?_ ?_)
  · rw [isFd]
    exact ofile_eq_update _ source none
  · refine pure (Ends.succeeded ?_ le_rfl)
    rw [owns.ofile, isSource, zero_sub, ← share_eq_single]
    funext g
    simp

theorem dup (p : ProcId) (fd : ℤ) : Pays p (Fs.dup p fd) := by
  intro core live
  refine bind (looseOpenFile (pure ⟨rfl, fun _ => ⟨live, rfl⟩⟩) stop fun source f _ _ => ?_)
  refine bind (fileFdAlloc live (fun _ => ?_) fun newFd _ => ?_)
  · refine bind (when (fun notNegative => absurd notNegative (by decide)) fun _ => pure ?_)
    exact ⟨rfl, fun _ => ⟨live, rfl⟩⟩
  · refine bind (when (fun _ => fileDup (pure (Ends.succeeded ?_ (by omega)))) fun negative => ?_)
    · abel
    · exact absurd (Int.natCast_nonneg _) negative

/-- The first half of `dup2` closes the file at the new descriptor. -/
theorem closeTarget {p : ProcId} {target : Fin nfile} {core : Core}
    (live : (core.procs p).live = true) :
    Settles (fun _ => True) p core 0
      (Prog.whenSome ((core.procs p).ofile target) Fs.fileClose : FsM BufId Unit)
      fun _ core' owed => Core.Owns p core core' ∧
        owed = fun g => -share ((core.procs p).ofile target) g := by
  cases (core.procs p).ofile target with
  | none =>
      refine pure ⟨⟨live, rfl⟩, ?_⟩
      funext g
      rw [share_none]
      rfl
  | some f =>
      refine whenSome_some (fileClose trivial fun core' kept => ⟨kept live, ?_⟩)
      rw [zero_sub, ← share_eq_single]
      rfl

theorem dup2Files {p : ProcId} {source target : Fin nfile} {f : FileId} {core : Core}
    (live : (core.procs p).live = true) (isSource : (core.procs p).ofile source = some f) :
    Settles (fun _ => True) p core 0 (Fs.dup2Files p (source : ℕ) (target : ℕ) : FsM BufId ℤ)
      (Ends p core) := by
  refine bind (getProc ?_)
  rw [Proc.descriptor_natCast]
  refine bind (mono ?_ (closeTarget live))
  rintro _ core' owed ⟨owns, isOwed⟩
  refine bind (getProc ?_)
  rw [Proc.descriptor_natCast, owns.ofile, isSource]
  refine bind (fileDup (bind (setDescriptor target (some f) owns.live owns.live
    (ofile_eq_update _ target (some f)) (pure (Ends.succeeded ?_ (Int.natCast_nonneg _))))))
  change owed + Pi.single f 1 + (fun g => share ((core'.procs p).ofile target) g -
    share (some f) g) = 0
  rw [isOwed, owns.ofile, ← share_eq_single]
  funext g
  change -share ((core.procs p).ofile target) g + share (some f) g +
    (share ((core.procs p).ofile target) g - share (some f) g) = 0
  omega

theorem dup2 (p : ProcId) (oldFd newFd : ℤ) : Pays p (Fs.dup2 p oldFd newFd) := by
  intro core live
  refine bind (looseOpenFile (pure ⟨rfl, fun _ => ⟨live, rfl⟩⟩) stop
    fun source f isOld isSource => ?_)
  dsimp only
  split
  · exact pure ⟨rfl, fun _ => ⟨live, rfl⟩⟩
  · rename_i inRange
    refine bind (mark ?_)
    split
    · exact stop
    · rename_i notEnd
      have below : newFd.toNat < nfile := by omega
      have isNew : newFd = ((⟨newFd.toNat, below⟩ : Fin nfile) : ℕ) := by
        change newFd = (newFd.toNat : ℕ)
        omega
      rw [isOld, isNew]
      exact dup2Files live isSource

/-- Giving back both files of a pipe. -/
theorem closeEnds {p : ProcId} {readEnd writeEnd : FileId} {pipe : PipeId} {core start : Core}
    (live : (core.procs p).live = true) (same : (core.procs p).ofile = (start.procs p).ofile)
    {owed : FileId → ℤ} (isOwed : owed = Pi.single readEnd 1 + Pi.single writeEnd 1) :
    Settles (fun _ => True) p core owed
      (do
        Fs.fileClose readEnd
        Fs.fileClose writeEnd
        Fs.setPipe pipe fun _ => .zero
        return -emfile : FsM BufId ℤ) (Ends p start) := by
  refine bind (fileClose trivial fun core' kept => ?_)
  refine bind (fileClose trivial fun core'' kept' => ?_)
  refine bind (setPipe (pure ⟨?_, fun _ => ?_⟩))
  · rw [isOwed]
    abel
  · have owns := (kept.trans kept') live
    exact ⟨owns.live, owns.ofile.trans same⟩

/-- `sys_pipe` once it has both files and the pipe. -/
theorem pipeOpen {p : ProcId} {readEnd writeEnd : FileId} {pipe : PipeId} {core start : Core}
    (live : (core.procs p).live = true) (same : (core.procs p).ofile = (start.procs p).ofile) :
    Settles (fun _ => True) p core (Pi.single readEnd 1 + Pi.single writeEnd 1)
      (Fs.pipeOpen p readEnd writeEnd pipe : FsM BufId ℤ) (Ends p start) := by
  refine bind (touchFile (fun _ => rfl) fun core₁ procs₁ => ?_)
  refine bind (aside (Uses.op rfl) fun _ core₂ procs₂ => ?_)
  refine bind (touchFile (fun _ => rfl) fun core₃ procs₃ => ?_)
  refine bind (aside (Uses.op rfl) fun _ core' procs₄ => ?_)
  have procs := procs₄.trans (procs₃.trans (procs₂.trans procs₁))
  rw [← procs] at live same
  refine bind (fileFdAlloc live (fun full => ?_) fun readFd isFree => ?_)
  · -- no descriptor is free
    refine bind (fileFdAlloc live (fun _ => ?_) fun writeFd isFree => absurd isFree (full writeFd))
    rw [if_pos (Or.inl (by decide))]
    have isOfile : (fun fd : Fin nfile => if (fd : ℤ) = -emfile ∨ (fd : ℤ) = -emfile then none
        else (core'.procs p).ofile fd) = (core'.procs p).ofile := by
      funext fd
      apply if_neg
      simp only [emfile, or_self]
      omega
    refine bind (setProc_same rfl isOfile (closeEnds ?_ ?_ rfl))
    · rw [Core.setProc_self]
      exact live
    · rw [Core.setProc_self]
      exact isOfile.trans same
  · have isLive : ((core'.setProc p fun old =>
        { old with ofile := Function.update old.ofile readFd (some readEnd) }).procs p).live =
          true := by
      rw [Core.setProc_self]
      exact live
    refine bind (fileFdAlloc isLive (fun full => ?_) fun writeFd isFree' => ?_)
    · -- only one is
      rw [if_pos (Or.inr (by decide))]
      have isUpdate : ∀ table : Fin nfile → Option FileId,
          (fun fd : Fin nfile =>
            if (fd : ℤ) = (readFd : ℕ) ∨ (fd : ℤ) = -emfile then none else table fd) =
          Function.update table readFd none := by
        intro table
        rw [← ofile_eq_update table readFd none]
        funext fd
        have notError : ¬(fd : ℤ) = -emfile := by
          simp only [emfile]
          omega
        simp only [notError, or_false]
      have isBack : Function.update (Function.update (core'.procs p).ofile readFd (some readEnd))
          readFd none = (core'.procs p).ofile := by
        rw [Function.update_idem, ← isFree, Function.update_eq_self]
      refine bind (setDescriptor readFd none isLive isLive (isUpdate _) (closeEnds ?_ ?_ ?_))
      · rw [Core.setProc_self]
        exact isLive
      · rw [Core.setProc_self, Core.setProc_self]
        exact (isUpdate _).trans (isBack.trans same)
      · rw [Core.setProc_self]
        have isBorrowed : (fun g => share (some readEnd) g - share none g) =
            Pi.single readEnd 1 := by
          rw [← share_eq_single]
          funext g
          rw [share_none, Int.sub_zero]
        have isEntry : Function.update (core'.procs p).ofile readFd (some readEnd) readFd =
            some readEnd := Function.update_self _ _ _
        simp only [isEntry, isBorrowed]
        abel
    · rw [if_neg]
      · exact pure (Ends.succeeded (by abel) le_rfl)
      · rw [not_or]
        exact ⟨Int.not_lt.mpr (Int.natCast_nonneg _), Int.not_lt.mpr (Int.natCast_nonneg _)⟩

theorem pipeFiles (p : ProcId) : Pays p (Fs.pipeFiles p) := by
  intro start live
  have closes : ∀ {f : FileId} {core : Core} {owed : FileId → ℤ}, owed = Pi.single f 1 →
      core.procs = start.procs → Settles (fun _ => True) p core owed (do
        Fs.fileClose f
        return -enfile : FsM BufId ℤ) (Ends p start) := by
    rintro f core owed rfl procs
    rw [← procs] at live
    refine bind (fileClose trivial fun core' kept => pure ⟨sub_self _, fun _ => ?_⟩)
    have owns := kept live
    exact ⟨owns.live, by rw [owns.ofile, procs]⟩
  refine bind (fileAlloc ?_ fun readEnd core₁ procs₁ => ?_)
  · refine bind (fileAlloc (pure ⟨rfl, fun _ => ⟨live, rfl⟩⟩) fun writeEnd core₁ procs₁ => ?_)
    exact closes (zero_add _) procs₁
  · refine bind (fileAlloc (closes (zero_add _) procs₁) fun writeEnd core₂ procs₂ => ?_)
    refine bind (touchFile (fun _ => rfl) fun core₃ procs₃ => ?_)
    refine bind (touchFile (fun _ => rfl) fun core₄ procs₄ => ?_)
    have procs := procs₄.trans (procs₃.trans (procs₂.trans procs₁))
    refine bind (getCore ?_)
    split
    · refine bind (fileClose trivial fun core₅ kept => ?_)
      refine bind (fileClose trivial fun core₆ kept' => pure ⟨by abel, fun _ => ?_⟩)
      rw [← procs] at live
      have owns := (kept.trans kept') live
      exact ⟨owns.live, by rw [owns.ofile, procs]⟩
    · rw [zero_add]
      rw [← procs] at live
      exact pipeOpen live (by rw [procs])

theorem sysPipe (p : ProcId) (fd : ℤ) : Pays p (Fs.sysPipe p fd) := by
  unfold Fs.sysPipe
  split
  · exact fun core live => pure ⟨rfl, fun _ => ⟨live, rfl⟩⟩
  · exact pipeFiles p

end Settles

end Osix
