import Osix.Fs.FileCounts

/-!
# Open files in all interleavings

`sys_open` takes its file entry first and looks for a descriptor last, and what it does when
there is none is to leave the entry as it is. `Roomy` says of a step that no process comes to
that point without a free descriptor. Whatever else the processes do, in every state the
reference counts are then the numbers of descriptors, but for the processes that are in the
middle of a call that takes or gives back a file.
-/

namespace Osix

open Program Fs Transition Counting

variable {α β : Type}

/-! ## Calls that take no file and give none back -/

namespace Modest

theorem setFile {f : FileId} {change : File → File}
    (same : ∀ old, (change old).refCount = old.refCount) :
    Only Modest (Fs.setFile f change : FsM BufId Unit) := by
  refine Only.perform ⟨?_, nofun⟩
  rintro g change' isOp
  cases isOp
  exact same

theorem setProc {p : ProcId} {change : Proc → Proc}
    (same : ∀ old, (change old).live = old.live ∧ (change old).ofile = old.ofile) :
    Only Modest (Fs.setProc p change : FsM BufId Unit) := by
  refine Only.perform ⟨nofun, ?_⟩
  rintro q change' isOp
  cases isOp
  exact same

theorem mark (event : Event) : Only Modest (Fs.mark event : FsM BufId Unit) :=
  Only.perform ⟨nofun, nofun⟩

theorem op {operation : FsOp BufId} (notFiles : operation.kind ≠ .files) :
    Only Modest (.perform operation : FsM BufId operation.Reply) :=
  Only.perform (of_kind notFiles)

theorem getFile (f : FileId) : Only Modest (Fs.getFile f : FsM BufId File) :=
  of_uses (Uses.getFile rfl f : Uses [.data] _) rfl

theorem getInode (i : InodeId) : Only Modest (Fs.getInode i : FsM BufId Inode) :=
  of_uses (Uses.getInode rfl i : Uses [.data] _) rfl

theorem getProc (p : ProcId) : Only Modest (Fs.getProc p : FsM BufId Proc) :=
  of_uses (Uses.getProc rfl p : Uses [.data] _) rfl

theorem openFile (p : ProcId) (fd : ℤ) :
    Only Modest (Fs.openFile p fd : FsM BufId (Option FileId)) := by
  unfold Fs.openFile
  split
  · exact Only.pure _
  · exact Only.bind (mark _) fun _ => Only.bind (getProc p) fun _ => Only.pure _

theorem looseOpenFile (p : ProcId) (fd : ℤ) :
    Only Modest (Fs.looseOpenFile p fd : FsM BufId Slot) := by
  unfold Fs.looseOpenFile
  split
  · exact Only.pure _
  · exact Only.bind (mark _) fun _ => Only.bind (getProc p) fun _ => Only.pure _

theorem stop (why : Stop) : Only Modest (Fs.stop why : FsM BufId α) :=
  Only.op ⟨nofun, nofun⟩ fun empty => empty.elim

theorem fileInode (f : FileId) : Only Modest (Fs.fileInode f : FsM BufId InodeId) := by
  refine Only.bind (mark _) fun _ => Only.bind (getFile f) fun file => ?_
  split
  · exact stop _
  · exact Only.pure _

theorem of_into {inodep : Inodep} {prog : FsM BufId α} (into : Into inodep prog) :
    Only Modest prog := by
  refine into.mono fun operation allowed => ?_
  rcases allowed with isBelow | ⟨f, i, -, rfl⟩
  · refine of_kind fun isFiles => ?_
    simp [isFiles] at isBelow
  · refine ⟨?_, nofun⟩
    rintro g change ⟨⟩
    exact fun _ => rfl

/-- The end of `file_read` and `file_write`, where `file->inode` is read again. -/
theorem iunlockAgain (f : FileId) (i : InodeId) (result : α) :
    Only Modest (do
      Fs.iunlockPtr (← Fs.inodeAgain f i)
      return result : FsM BufId α) := by
  refine Only.bind (of_uses (Uses.inodeAgain f i) rfl) fun pointer => ?_
  exact Only.bind (of_uses (Uses.iunlockPtr pointer) rfl) fun _ => Only.pure _

theorem read (p : ProcId) (fd : ℤ) (nbytes : ℕ) :
    Only Modest (Fs.read p fd nbytes : FsM BufId (ℤ × List Byte)) := by
  refine Only.bind (openFile p fd) fun found => ?_
  split
  · exact Only.pure _
  refine Only.bind (getFile _) fun file => ?_
  split
  · refine Only.bind (fileInode _) fun i => Only.bind (mark _) fun _ => ?_
    refine Only.bind (op nofun) fun _ => Only.bind (getFile _) fun file => ?_
    refine Only.bind (of_uses (Uses.readi p i _ nbytes) rfl) fun result => ?_
    exact Only.bind (Only.when (setFile fun _ => rfl)) fun _ => iunlockAgain _ i result
  · exact of_uses (Uses.pipeRead _ nbytes) rfl

theorem write (p : ProcId) (fd : ℤ) (src : List Byte) :
    Only Modest (Fs.write p fd src : FsM BufId ℤ) := by
  refine Only.bind (openFile p fd) fun found => ?_
  split
  · exact Only.pure _
  refine Only.bind (getFile _) fun file => ?_
  split
  · refine Only.bind (fileInode _) fun i => Only.bind (mark _) fun _ => ?_
    refine Only.bind (op nofun) fun _ => Only.bind (getFile _) fun file => ?_
    refine Only.bind (of_uses (Uses.writei i src _) rfl) fun result => ?_
    exact Only.bind (Only.when (setFile fun _ => rfl)) fun _ => iunlockAgain _ i result
  · exact of_uses (Uses.pipeWrite _ src) rfl

theorem lseek (p : ProcId) (fd offset whence : ℤ) :
    Only Modest (Fs.lseek p fd offset whence : FsM BufId ℤ) := by
  refine Only.bind (openFile p fd) fun found => ?_
  split
  · exact Only.pure _
  unfold Fs.fileSeek
  split
  · exact Only.pure _
  refine Only.bind (fileInode _) fun i => Only.bind (getInode i) fun node => ?_
  refine Only.bind (getFile _) fun file => ?_
  dsimp only
  generalize (if whence = 0 then offset else _) = newOffset
  split
  · exact Only.pure _
  · exact Only.bind (setFile fun _ => rfl) fun _ => Only.pure _

theorem fstat (p : ProcId) (fd : ℤ) :
    Only Modest (Fs.fstat p fd : FsM BufId (ℤ × Option Stat)) := by
  refine Only.bind (looseOpenFile p fd) fun slot => ?_
  split
  · exact Only.pure _
  · exact stop _
  · refine Only.bind (fileInode _) fun i => Only.bind (mark _) fun _ => ?_
    refine Only.bind (op nofun) fun _ => Only.bind (getInode i) fun node => ?_
    exact Only.bind (op nofun) fun _ => Only.pure _

theorem setId {p : ProcId} {change : Proc → Proc}
    (same : ∀ old, (change old).live = old.live ∧ (change old).ofile = old.ofile) :
    Only Modest (Fs.setId p change : FsM BufId ℤ) := by
  refine Only.bind (getProc p) fun proc => ?_
  split
  · exact Only.pure _
  · exact Only.bind (setProc same) fun _ => Only.pure _

theorem ioctl (p : ProcId) (fd request : ℤ) (termios : Option ℕ) :
    Only Modest (Fs.ioctl p fd request termios : FsM BufId (ℤ × List Byte)) := by
  refine Only.bind (openFile p fd) fun found => ?_
  split
  · exact Only.pure _
  refine Only.bind (getFile _) fun file => ?_
  split
  · exact Only.pure _
  split
  · exact Only.pure _
  refine Only.bind (fileInode _) fun i => Only.bind (getInode i) fun node => ?_
  dsimp only
  generalize (if fileType node.mode = sIfchr then _ else _) = dev
  split
  · exact of_uses (Uses.ttyIoctl dev request termios) rfl
  · exact Only.pure _

theorem chdir (p : ProcId) (path : Option (List Byte)) :
    Only Modest (Fs.chdir p path : FsM BufId ℤ) := by
  have puts : ∀ i error, Only Modest (do
      Fs.iput i
      return error : FsM BufId ℤ) :=
    fun i error => Only.bind (of_uses (Uses.iput i) rfl) fun _ => Only.pure _
  cases path with
  | none => exact Only.pure _
  | some path =>
      refine Only.bind (of_uses (Uses.nameicore p path false false) rfl) fun found => ?_
      split
      · exact Only.pure _
      refine Only.bind (of_uses (Uses.denies rfl p _ _ : Uses [.data] _) rfl) fun denied => ?_
      split
      · exact puts _ _
      refine Only.bind (getInode _) fun node => ?_
      split
      · exact puts _ _
      refine Only.bind (getProc p) fun proc => ?_
      refine Only.bind (Only.whenSome fun cwd => of_uses (Uses.iput cwd) rfl) fun _ => ?_
      exact Only.bind (setProc fun _ => ⟨rfl, rfl⟩) fun _ => Only.pure _

end Modest

/-! ## Opening -/

theorem map_bind_eq {Op : Type} {Reply : Op → Type} {α β γ : Type} (change : β → γ)
    (prog : Prog Op Reply α) (next : α → Prog Op Reply β) :
    change <$> (prog >>= next) = prog >>= fun value => change <$> next value := by
  change (prog.bind next).bind _ = prog.bind fun value => (next value).bind _
  induction prog with
  | pure value => rfl
  | op operation rest ih =>
      simp only [Prog.bind]
      congr 1
      funext reply
      exact ih reply

/-- The point of `sys_open` where the process needs a free descriptor. -/
def NeedsDescriptor (p : ProcId) (prog : FsM BufId Answer) : Prop :=
  ∃ f, prog = Answer.ofValue <$> Fs.fileFdAlloc p f

def Provided (p : ProcId) (prog : FsM BufId Answer) (core : Core) : Prop :=
  NeedsDescriptor p prog → ∃ fd, (core.procs p).ofile fd = none

/-- The call ends with what it should, given that it finds a free descriptor. -/
def Opens (p : ProcId) (start core : Core) (owed : FileId → ℤ) (prog : FsM BufId ℤ) : Prop :=
  Kernel.fileLedger.Settles (Provided p) (fun _ => True) p (Answer.ofValue <$> prog)
    (fun answer account => Settles.Ends p start answer.value account.view account.owed)
    ⟨core, owed⟩

namespace Opens

variable {p : ProcId} {start core : Core} {owed : FileId → ℤ}

theorem bind {prog : FsM BufId β} {next : β → FsM BufId ℤ}
    (first : Settles (fun _ => True) p core owed prog fun value core' owed' =>
      Opens p start core' owed' (next value)) :
    Opens p start core owed (prog >>= next) := by
  rw [Opens, map_bind_eq]
  exact Ledger.Settles.bind first.wp_self

theorem of_settles {prog : FsM BufId ℤ}
    (settles : Settles (fun _ => True) p core owed prog (Settles.Ends p start)) :
    Opens p start core owed prog := by
  apply Ledger.Settles.of_wp
  rw [wp_map]
  exact settles.wp_self

/-- The end of `sys_open`. -/
theorem fileFdAlloc {f : FileId} (live : (core.procs p).live = true) :
    Opens p start core (Pi.single f 1) (Fs.fileFdAlloc p f) := by
  have isNeed : NeedsDescriptor p (Answer.ofValue <$> Fs.fileFdAlloc p f) := ⟨f, rfl⟩
  refine Ledger.Settles.assuming rfl fun provided => ?_
  rcases provided isNeed with ⟨fd, isFree⟩
  have settles : Settles (fun _ => True) p core (Pi.single f 1)
      (Fs.fileFdAlloc p f : FsM BufId ℤ) (Settles.Ends p start) := by
    refine Settles.fileFdAlloc live (fun full => absurd isFree (full fd)) fun newFd _ => ?_
    exact Settles.Ends.succeeded (sub_self _) (Int.natCast_nonneg _)
  change wp _ (Answer.ofValue <$> Fs.fileFdAlloc p f) _ _
  rw [wp_map]
  exact settles.wp_self

theorem openTrunc {f : FileId} {i : InodeId} {flags : ℕ}
    {post : Unit → Core → (FileId → ℤ) → Prop}
    (rest : ∀ core', Core.Kept p core core' → post () core' owed) :
    Settles (fun _ => True) p core owed (Fs.openTrunc f i flags : FsM BufId Unit) post := by
  unfold Fs.openTrunc
  split
  · refine Settles.below ?_ trivial fun _ core' kept => rest core' kept
    refine Uses.bind (Uses.op rfl) fun _ => ?_
    refine Uses.bind (Uses.op rfl) fun _ => ?_
    refine Uses.bind ((Uses.itrunc i).more (by simp)) fun _ => ?_
    refine Uses.bind ((Uses.inodeAgain f i).more (by simp)) fun pointer => ?_
    exact (Uses.iunlockPtr pointer).below
  · split
    · refine Settles.bind (Settles.below (Uses.getInode rfl i) trivial fun node core' kept => ?_)
      exact Settles.setFile_same rfl (rest _ (kept.trans (Core.Kept.of_procs rfl)))
    · exact Settles.pure (rest _ (Core.Kept.of_procs rfl))

/-- Giving up with the file entry given back. -/
theorem closed {f : FileId} {error : ℤ} (owns : Core.Owns p start core) :
    Opens p start core (Pi.single f 1) (do
      Fs.fileClose f
      return error) := by
  refine of_settles (Settles.bind (Settles.fileClose trivial fun core' kept => ?_))
  have owns' := kept owns.live
  exact Settles.pure ⟨sub_self _, fun _ => ⟨owns'.live, owns'.ofile.trans owns.ofile⟩⟩

theorem openInode {f : FileId} {flags : ℕ} (owns : Core.Owns p start core) :
    Opens p start core (Pi.single f 1) (Fs.openInode p f flags) := by
  refine bind (Settles.getFile ?_)
  split
  · exact closed owns
  · rename_i i _
    refine bind (Settles.below (Uses.denies rfl p i _) trivial fun refused core' kept => ?_)
    have owns' : Core.Owns p start core' :=
      ⟨(kept owns.live).live, (kept owns.live).ofile.trans owns.ofile⟩
    split
    · exact closed owns'
    · refine bind (openTrunc fun core'' kept' => ?_)
      exact fileFdAlloc (kept' owns'.live).live

theorem sysOpen (filename : List Byte) (flags mode : ℕ) (live : (start.procs p).live = true) :
    Opens p start start 0 (Fs.sysOpen p filename flags mode) := by
  unfold Fs.sysOpen
  split
  · exact of_settles (Settles.pure ⟨rfl, fun _ => ⟨live, rfl⟩⟩)
  refine bind (Settles.fileAlloc ?_ fun f core₀ procs₀ => ?_)
  · exact of_settles (Settles.pure ⟨rfl, fun _ => ⟨live, rfl⟩⟩)
  rw [zero_add]
  refine bind (Settles.touchFile (fun _ => rfl) fun core₁ procs₁ => ?_)
  have looksUp := Modest.of_into (Uses.nameicoreInto p filename false false (.file f))
  refine bind (Settles.modest looksUp trivial fun found core₂ kept₂ => ?_)
  have kept : Core.Kept p start core₂ :=
    (Core.Kept.of_procs (congrFun (procs₁.trans procs₀) p)).trans kept₂
  split
  · have creates := Modest.of_into (Uses.fileCreatInto p filename (mode ||| sIfreg) (.file f))
    refine bind (Settles.modest creates trivial fun created core₃ kept₃ => ?_)
    exact openInode ((kept.trans kept₃) live)
  · split
    · exact closed (kept live)
    · exact openInode (kept live)

end Opens

/-! ## Processes -/

namespace Settles

variable {owes : (FileId → ℤ) → Prop} {p child : ProcId} {core : Core} {owed : FileId → ℤ}

/-- A change of a process that is not alive before and after it. -/
theorem setDead {change : Proc → Proc} {post : Unit → Core → (FileId → ℤ) → Prop}
    (dead : (core.procs child).live = false) (stays : (change (core.procs child)).live = false)
    (rest : post () (core.setProc child change) owed) :
    Settles owes p core owed (Fs.setProc child change : FsM BufId Unit) post := by
  refine setProc (Or.inr fun live => absurd (dead.symm.trans live) nofun) ?_
  have same : (fun g => count (core.procs child).held g -
      count (change (core.procs child)).held g) = 0 := by
    funext g
    rw [Proc.held, Proc.held, dead, stays]
    exact Int.sub_self _
  rw [same, add_zero]
  exact rest

/-- The child that `fork` prepares is not alive, and has these descriptors. -/
structure Prepares (p child : ProcId) (start core : Core) (table : Fin nfile → Option FileId) :
    Prop where
  other : child ≠ p
  parent : core.procs p = start.procs p
  dead : (core.procs child).live = false
  ofile : (core.procs child).ofile = table

theorem Prepares.setProc {start : Core} {table table' : Fin nfile → Option FileId}
    (prepares : Prepares p child start core table) {change : Proc → Proc}
    (dead : (change (core.procs child)).live = false)
    (ofile : (change (core.procs child)).ofile = table') :
    Prepares p child start (core.setProc child change) table' where
  other := prepares.other
  parent := (Function.update_of_ne (Ne.symm prepares.other) _ _).trans prepares.parent
  dead := by
    rw [Core.setProc_self]
    exact dead
  ofile := by
    rw [Core.setProc_self]
    exact ofile

/-- A change of the child while it is not alive. -/
theorem setChild {start : Core} {table table' : Fin nfile → Option FileId} {change : Proc → Proc}
    {post : Unit → Core → (FileId → ℤ) → Prop} (prepares : Prepares p child start core table)
    (dead : (change (core.procs child)).live = false)
    (ofile : (change (core.procs child)).ofile = table')
    (rest : ∀ core', Prepares p child start core' table' → post () core' owed) :
    Settles owes p core owed (Fs.setProc child change : FsM BufId Unit) post :=
  setDead prepares.dead dead (rest _ (prepares.setProc dead ofile))

theorem Prepares.of_procs {start core' : Core} {table : Fin nfile → Option FileId}
    (prepares : Prepares p child start core table) (procs : core'.procs = core.procs) :
    Prepares p child start core' table where
  other := prepares.other
  parent := by
    rw [procs]
    exact prepares.parent
  dead := by
    rw [procs]
    exact prepares.dead
  ofile := by
    rw [procs]
    exact prepares.ofile

/-- `proc_alloc` clears an entry that no live process has. -/
theorem procAlloc {post : Option ProcId → Core → (FileId → ℤ) → Prop}
    (live : (core.procs p).live = true)
    (failed : ∀ core', core'.procs p = core.procs p → post none core' owed)
    (found : ∀ child core', Prepares p child core core' (fun _ => none) →
      post (some child) core' owed) :
    Settles owes p core owed (Fs.procAlloc : FsM BufId (Option ProcId)) post := by
  refine bind (getCore ?_)
  split
  · exact pure (failed _ rfl)
  · rename_i child isFound
    have isNull : (core.procs child).state = .null := by simpa using List.find?_some isFound
    have dead : (core.procs child).live = false := by
      rw [Proc.live, isNull]
      rfl
    have isOther : child ≠ p := by
      rintro rfl
      exact absurd (dead.symm.trans live) nofun
    have sameParent : ∀ change, (core.setProc child change).procs p = core.procs p :=
      fun change => Function.update_of_ne (Ne.symm isOther) _ _
    refine bind (setDead dead rfl ?_)
    split
    · exact pure (failed _ (sameParent _))
    · have prepares : Prepares p child core (core.setProc child fun _ => .zero) (fun _ => none) :=
        ⟨isOther, sameParent _, by rw [Core.setProc_self]; rfl, by rw [Core.setProc_self]; rfl⟩
      refine bind (aside (Uses.op rfl) fun pid core₁ procs₁ => ?_)
      have prepares₁ := prepares.of_procs procs₁
      exact bind (setChild prepares₁ rfl prepares₁.ofile fun core₂ prepares₂ =>
        pure (found child core₂ prepares₂))

/-- The child gets a reference to every open file of its parent. -/
theorem forkFiles {start : Core} (fds : List (Fin nfile)) {table : Fin nfile → Option FileId}
    (distinct : fds.Nodup) (free : ∀ fd ∈ fds, table fd = none)
    (prepares : Prepares p child start core table) (isOwed : owed = count table)
    {post : Unit → Core → (FileId → ℤ) → Prop}
    (rest : ∀ core', Prepares p child start core'
      (fun fd => if fd ∈ fds then (start.procs p).ofile fd else table fd) →
        post () core'
          (count fun fd => if fd ∈ fds then (start.procs p).ofile fd else table fd)) :
    Settles owes p core owed (Fs.forkFiles p child fds : FsM BufId Unit) post := by
  induction fds generalizing core owed table with
  | nil =>
      rw [isOwed]
      exact pure (rest core (by simpa using prepares))
  | cons fd fds ih =>
      rw [List.nodup_cons] at distinct
      refine bind (getProc ?_)
      rw [prepares.parent]
      have isTable : (fun other => if other ∈ fds then (start.procs p).ofile other
            else Function.update table fd ((start.procs p).ofile fd) other) =
          fun other => if other ∈ fd :: fds then (start.procs p).ofile other
            else table other := by
        funext other
        by_cases isIn : other ∈ fds
        · rw [if_pos isIn, if_pos (List.mem_cons_of_mem fd isIn)]
        · rw [if_neg isIn]
          rcases eq_or_ne other fd with rfl | isOther
          · rw [Function.update_self, if_pos List.mem_cons_self]
          · rw [Function.update_of_ne isOther,
              if_neg (fun inAll => (List.mem_cons.mp inAll).elim isOther isIn)]
      rw [← isTable] at rest
      have isFree := free fd List.mem_cons_self
      have stillFree : ∀ other ∈ fds,
          Function.update table fd ((start.procs p).ofile fd) other = none := by
        intro other isIn
        have isOther : other ≠ fd := by
          rintro rfl
          exact distinct.1 isIn
        rw [Function.update_of_ne isOther]
        exact free other (List.mem_cons_of_mem fd isIn)
      have added : ∀ f, (start.procs p).ofile fd = some f → owed + Pi.single f 1 =
          count (Function.update table fd ((start.procs p).ofile fd)) := by
        intro f isFile
        rw [isOwed, isFile, ← share_eq_single]
        funext g
        rw [count_update, isFree, share_none]
        change count table g + share (some f) g = _
        omega
      cases isFile : (start.procs p).ofile fd with
      | none =>
          have same : Function.update table fd ((start.procs p).ofile fd) = table := by
            rw [isFile, ← isFree, Function.update_eq_self]
          refine bind (pure (ih distinct.2 stillFree ?_ ?_ rest))
          · rw [same]
            exact prepares
          · rw [same]
            exact isOwed
      | some f =>
          have prepares₁ : Prepares p child start
              (core.setFile f fun old => { old with refCount := old.refCount + 1 }) table :=
            prepares.of_procs rfl
          refine bind (whenSome_some (bind (fileDup (setChild prepares₁ prepares₁.dead rfl
            fun core₂ prepares₂ => ?_))))
          refine ih distinct.2 stillFree ?_ (added f isFile) rest
          rw [isFile, ← prepares.ofile]
          exact prepares₂

theorem fork (p : ProcId) : Pays p (Fs.fork p) := by
  intro core live
  refine bind (procAlloc live ?_ fun child core₁ prepares₁ => ?_)
  · exact fun core' same => pure ⟨rfl, fun _ => ⟨by rw [same, live], by rw [same]⟩⟩
  refine bind (getProc (bind (setChild prepares₁ prepares₁.dead prepares₁.ofile
    fun core₂ prepares₂ => ?_)))
  cases (core₁.procs p).cwd with
  | none => exact stop
  | some cwd =>
      refine bind (other rfl nofun nofun nofun fun _ core₃ _ _ procs₃ => ?_)
      have prepares₃ := prepares₂.of_procs procs₃
      refine bind (setChild prepares₃ prepares₃.dead prepares₃.ofile fun core₄ prepares₄ => ?_)
      have isEmpty : (0 : FileId → ℤ) = count fun _ : Fin nfile => none := by
        funext g
        exact (count_empty g).symm
      refine bind (forkFiles _ (List.nodup_finRange nfile) (fun _ _ => rfl) prepares₄ isEmpty
        fun core₅ prepares₅ => ?_)
      -- the child comes to life with the files that have been counted
      refine bind (setProc (Or.inr fun isLive => ?_) ?_)
      · exact absurd (prepares₅.dead.symm.trans isLive) nofun
      refine bind (getProc (pure (Ends.succeeded ?_ (Int.natCast_nonneg _))))
      funext g
      have isDead : (core₅.procs child).held = fun _ => none := by
        rw [Proc.held, prepares₅.dead]
        rfl
      have isAlive : ({ core₅.procs child with state := .running } : Proc).held =
          (core₅.procs child).ofile := rfl
      rw [isDead, isAlive, prepares₅.ofile]
      change count _ g + (count (fun _ : Fin nfile => none) g - count _ g) = 0
      rw [count_empty]
      omega

/-! ### Exiting -/

theorem exitOrphans (children : List ProcId) {post : Unit → Core → (FileId → ℤ) → Prop}
    (rest : ∀ core', Core.Kept p core core' → post () core' owed) :
    Settles owes p core owed (Fs.exitOrphans p children : FsM BufId Unit) post := by
  induction children generalizing core with
  | nil => exact pure (rest core (Core.Kept.of_procs rfl))
  | cons child children ih =>
      refine bind (getProc (bind (when (fun _ => ?_) fun _ => ih rest)))
      refine setProc_same rfl rfl (ih fun core' kept => rest core' (Core.Kept.trans ?_ kept))
      exact Core.Kept.setProc (fun live => ⟨live, rfl⟩) p

/-- All files are closed, and the descriptors stay as they are. -/
theorem exitFiles {start : Core} (fds : List (Fin nfile)) (distinct : fds.Nodup)
    (owns : Core.Owns p start core) {table : Fin nfile → Option FileId}
    (isTable : ∀ fd ∈ fds, table fd = (start.procs p).ofile fd)
    (isOwed : owed = fun g => count table g - count (start.procs p).ofile g)
    {post : Unit → Core → (FileId → ℤ) → Prop}
    (rest : ∀ core', Core.Owns p start core' → post () core'
      (fun g => count (fun fd => if fd ∈ fds then none else table fd) g -
        count (start.procs p).ofile g)) :
    Settles (fun _ => True) p core owed (Fs.exitFiles p fds : FsM BufId Unit) post := by
  induction fds generalizing core owed table with
  | nil =>
      rw [isOwed]
      exact pure (rest core owns)
  | cons fd fds ih =>
      rw [List.nodup_cons] at distinct
      have isRest : (fun other => if other ∈ fds then none
            else Function.update table fd none other) =
          fun other => if other ∈ fd :: fds then none else table other := by
        funext other
        by_cases isIn : other ∈ fds
        · rw [if_pos isIn, if_pos (List.mem_cons_of_mem fd isIn)]
        · rw [if_neg isIn]
          rcases eq_or_ne other fd with rfl | isOther
          · rw [Function.update_self, if_pos List.mem_cons_self]
          · rw [Function.update_of_ne isOther,
              if_neg (fun inAll => (List.mem_cons.mp inAll).elim isOther isIn)]
      rw [← isRest] at rest
      have isFile := isTable fd List.mem_cons_self
      have stillTable : ∀ other ∈ fds,
          Function.update table fd none other = (start.procs p).ofile other := by
        intro other isIn
        have isOther : other ≠ fd := by
          rintro rfl
          exact distinct.1 isIn
        rw [Function.update_of_ne isOther]
        exact isTable other (List.mem_cons_of_mem fd isIn)
      refine bind (getProc ?_)
      rw [owns.ofile, ← isFile]
      cases isEntry : table fd with
      | none =>
          have same : Function.update table fd none = table := by
            rw [← isEntry, Function.update_eq_self]
          refine bind (pure (ih distinct.2 owns stillTable ?_ rest))
          rw [same]
          exact isOwed
      | some f =>
          refine bind (whenSome_some (fileClose trivial fun core' kept => ?_))
          have owns' := kept owns.live
          refine ih distinct.2 ⟨owns'.live, owns'.ofile.trans owns.ofile⟩ stillTable ?_ rest
          rw [isOwed, ← share_eq_single]
          funext g
          rw [count_update, isEntry, share_none]
          change count table g - _ - share (some f) g = _
          omega

theorem exit (p : ProcId) (status : ℤ) {start : Core} (live : (start.procs p).live = true) :
    Settles (fun _ => True) p start 0 (Fs.exit p status : FsM BufId Unit)
      fun _ _ owed => owed = 0 := by
  refine bind (exitOrphans _ fun core₁ kept₁ => ?_)
  have isEmpty : (0 : FileId → ℤ) =
      fun g => count (start.procs p).ofile g - count (start.procs p).ofile g :=
    funext fun g => (Int.sub_self _).symm
  refine bind (exitFiles _ (List.nodup_finRange nfile) (kept₁ live) (fun _ _ => rfl) isEmpty
    fun core₂ owns₂ => ?_)
  refine bind (getProc ?_)
  split
  · exact stop
  refine bind (modest (Modest.of_uses (Uses.iputPtr _) rfl) trivial fun _ core₃ kept₃ => ?_)
  · have owns₃ := kept₃ owns₂.live
    refine setProc (Or.inl rfl) ?_
    funext g
    have isAlive : (core₃.procs p).held = (start.procs p).ofile := by
      rw [Proc.held, owns₃.live, if_pos rfl, owns₃.ofile, owns₂.ofile]
    have isDead : ({ core₃.procs p with cwd := none, exitStatus := status, state := .zombie } :
        Proc).held = fun _ => none := rfl
    have allClosed : (fun fd => if fd ∈ List.finRange nfile then none
        else (start.procs p).ofile fd) = fun _ => none :=
      funext fun fd => if_pos (List.mem_finRange fd)
    rw [isAlive, isDead, allClosed]
    change count (fun _ : Fin nfile => none) g - count _ g +
      (count _ g - count (fun _ : Fin nfile => none) g) = 0
    omega

/-! ### Waiting -/

theorem waitLoop (rounds : ℕ) {start : Core} (owns : Core.Owns p start core) (allowed : owes owed)
    {post : ℤ → Core → (FileId → ℤ) → Prop}
    (rest : ∀ value core', Core.Owns p start core' → post value core' owed) :
    Settles owes p core owed (Fs.waitLoop p rounds : FsM BufId ℤ) post := by
  induction rounds generalizing core with
  | zero => exact stop
  | succ rounds ih =>
      refine bind (getCore ?_)
      dsimp only
      split
      · rename_i other isFound
        have isZombie : (core.procs other).state = .zombie := by
          have found := List.find?_some isFound
          simp only [decide_eq_true_eq] at found
          exact found.2
        have dead : (core.procs other).live = false := by
          rw [Proc.live, isZombie]
          rfl
        refine bind (setDead dead rfl (pure (rest _ _ ?_)))
        have kept := @Core.Kept.setProc core other (fun old => { old with state := .null })
          (fun live => absurd (dead.symm.trans live) nofun) p
        have owns' := kept owns.live
        exact ⟨owns'.live, owns'.ofile.trans owns.ofile⟩
      · split
        · split
          · exact pure (rest _ _ owns)
          · refine bind (modest (Modest.op nofun) allowed fun _ core' kept => ?_)
            have owns' := kept owns.live
            exact ih ⟨owns'.live, owns'.ofile.trans owns.ofile⟩
        · exact pure (rest _ _ owns)

end Settles

/-! ## The terms of the calls -/

/-- The calls that take or give back files. -/
def Call.takesFiles : Call → Bool
  | .open _ _ _ | .creat _ _ | .close _ | .dup _ | .dup2 _ _ | .pipe _ | .fork | .exit _ => true
  | _ => false

/-- What a process may owe while its call waits. -/
def Call.owes (call : Call) (owed : FileId → ℤ) : Prop := call.takesFiles = false → owed = 0

/-- A call that owes nothing while it waits. -/
theorem settles_modest {p : ProcId} {prog : FsM BufId α} {change : α → Answer} {call : Call}
    {core : Core} (live : (core.procs p).live = true) (only : Only Modest prog) :
    Kernel.fileLedger.Settles (Provided p) call.owes p (change <$> prog)
      (fun answer account => Settles.Ends p core answer.value account.view account.owed)
      ⟨core, 0⟩ := by
  apply Ledger.Settles.of_wp
  rw [wp_map]
  have settles : Settles call.owes p core 0 prog
      fun value core' owed => Settles.Ends p core (change value).value core' owed :=
    Settles.modest only (fun _ => rfl) fun value core' kept => ⟨rfl, fun _ => kept live⟩
  exact settles.wp_self

/-- A call that takes or gives back files. -/
theorem settles_pays {p : ProcId} {prog : FsM BufId ℤ} {call : Call} {core : Core}
    (live : (core.procs p).live = true) (takes : call.takesFiles = true)
    (pays : Settles.Pays p prog) :
    Kernel.fileLedger.Settles (Provided p) call.owes p (Answer.ofValue <$> prog)
      (fun answer account => Settles.Ends p core answer.value account.view account.owed)
      ⟨core, 0⟩ := by
  apply Ledger.Settles.of_wp
  rw [wp_map]
  have isAll : call.owes = fun _ => True :=
    funext fun owed => propext ⟨fun _ => trivial, fun _ notTakes =>
      absurd (takes.symm.trans notTakes) nofun⟩
  rw [isAll]
  exact (pays core live).wp_self

theorem sysent_settles (p : ProcId) (call : Call) {core : Core}
    (live : (core.procs p).live = true) :
    Kernel.fileLedger.Settles (Provided p) call.owes p (sysent p call)
      (fun answer account => Settles.Ends p core answer.value account.view account.owed)
      ⟨core, 0⟩ := by
  have isAll : ∀ {call : Call}, call.takesFiles = true → call.owes = fun _ => True :=
    fun takes => funext fun owed => propext ⟨fun _ => trivial, fun _ notTakes =>
      absurd (takes.symm.trans notTakes) nofun⟩
  cases call with
  | read fd nbytes => exact settles_modest live (Modest.read p fd nbytes)
  | write fd src => exact settles_modest live (Modest.write p fd src)
  | «open» filename flags mode =>
      rw [isAll rfl]
      exact Opens.sysOpen filename flags mode live
  | creat filename mode =>
      rw [isAll rfl]
      exact Opens.sysOpen filename _ mode live
  | close fd => exact settles_pays live rfl (Settles.close p fd)
  | dup fd => exact settles_pays live rfl (Settles.dup p fd)
  | dup2 oldFd newFd => exact settles_pays live rfl (Settles.dup2 p oldFd newFd)
  | pipe fd => exact settles_pays live rfl (Settles.sysPipe p fd)
  | lseek fd offset whence => exact settles_modest live (Modest.lseek p fd offset whence)
  | chdir path => exact settles_modest live (Modest.chdir p path)
  | stat path => exact settles_modest live (Modest.of_uses (Uses.stat p path) rfl)
  | fstat fd => exact settles_modest live (Modest.fstat p fd)
  | ioctl fd op termios => exact settles_modest live (Modest.ioctl p fd op termios)
  | utime filename times =>
      exact settles_modest live (Modest.of_uses (Uses.sysUtime p filename times) rfl)
  | unlink filepath => exact settles_modest live (Modest.of_uses (Uses.sysUnlink p filepath) rfl)
  | mkdir pathname mode =>
      exact settles_modest live (Modest.of_uses (Uses.sysMkdir p pathname mode) rfl)
  | exec pathname => exact settles_modest live (Modest.of_uses (Uses.sysExec p pathname) rfl)
  | fork => exact settles_pays live rfl (Settles.fork p)
  | exit status =>
      rw [isAll rfl]
      apply Ledger.Settles.of_wp
      have settles : Settles (fun _ => True) p core 0 (sysent p (.exit status))
          fun answer core' owed => Settles.Ends p core answer.value core' owed := by
        refine Settles.bind (Settles.mono ?_ (Settles.exit p status live))
        exact fun _ core' owed isZero => Settles.pure (Settles.Ends.succeeded isZero le_rfl)
      exact settles.wp_self
  | wait =>
      apply Ledger.Settles.of_wp
      rw [sysent, wp_map]
      have settles : Settles (Call.owes .wait) p core 0 (Fs.wait p : FsM BufId ℤ)
          fun value core' owed => Settles.Ends p core value core' owed := by
        refine Settles.bind (Settles.getCore ?_)
        exact Settles.waitLoop _ ⟨live, rfl⟩ (fun _ => rfl) fun _ _ owns => ⟨rfl, fun _ => owns⟩
      exact settles.wp_self
  | setuid uid => exact settles_modest live (Modest.setId fun _ => ⟨rfl, rfl⟩)
  | setgid gid => exact settles_modest live (Modest.setId fun _ => ⟨rfl, rfl⟩)

/-- The terms on which files are taken and given back. -/
def Kernel.fileTerms : fileLedger.Terms where
  owes := Call.owes
  Final p _ start answer account := Settles.Ends p start answer.value account.view account.owed
  assume := Provided
  empty ends := ends.empty
  codes ready := sysent_settles _ _ ready

/-! ## Runs -/

abbrev TrackedKernel := Tracked ProcId (FsOp BufId) FsOp.Reply Answer Kernel Stop Call

/-- No process comes to the end of `sys_open` without a free descriptor. -/
def Roomy (pool : KernelPool) (act : KernelAct) : Prop :=
  act = .go → ∀ p prog, pool.running = some p → pool.thread p = some prog →
    NeedsDescriptor p prog → ∃ fd, (pool.shared.core.procs p).ofile fd = none

namespace TrackedKernel

/-- The process is in the middle of a call that takes or gives back files. -/
def Busy (tracked : TrackedKernel) (p : ProcId) : Prop :=
  tracked.pool.thread p ≠ none ∧
    ∃ call start, tracked.last p = some (call, start) ∧ call.takesFiles = true

def core (tracked : TrackedKernel) : Core := tracked.pool.shared.core

end TrackedKernel

/-- The file entries that are in use. -/
def Core.inUse (core : Core) : Set FileId := {f | 0 < (core.files f).refCount}

/--
What is to hold in every state. When no process runs and none is in the middle of a call that
takes or gives back files, the reference counts are the numbers of descriptors. A call that fails
leaves its process with the descriptors that it had, and unless other processes have changed
theirs, the same file entries are in use as before it.
-/
structure Accounted (tracked : TrackedKernel) : Prop where
  counted : tracked.pool.running = none → (∀ p, ¬tracked.Busy p) → tracked.core.Counted
  failed : ∀ p answer, tracked.pool.running = some p →
    tracked.pool.thread p = some (.pure answer) → answer.value < 0 →
      ∃ call start, tracked.last p = some (call, start) ∧
        (tracked.core.procs p).held = (start.core.procs p).held ∧
        (start.core.Counted →
          (∀ other, other ≠ p → ¬tracked.Busy other ∧
            (tracked.core.procs other).held = (start.core.procs other).held) →
          tracked.core.Counted ∧ tracked.core.inUse = start.core.inUse)

/-- A process that is not busy owes nothing. -/
theorem owes_nothing {tracked : TrackedKernel} {owed : ProcId → FileId → ℤ}
    (good : Kernel.fileTerms.Good tracked owed) {p : ProcId}
    (notRunning : tracked.pool.running ≠ some p) (notBusy : ¬tracked.Busy p) : owed p = 0 := by
  have rests := good.rests p notRunning
  match isThread : tracked.pool.thread p with
  | none =>
      rw [isThread] at rests
      exact rests
  | some (.pure value) =>
      rw [isThread] at rests
      exact rests.elim
  | some (.op operation next) =>
      rw [isThread] at rests
      rcases rests with ⟨isSwitch, call, state, isLast, settles⟩
      have before := settles fun notSwitch => absurd (isSwitch.symm.trans notSwitch) nofun
      rw [Ledger.before_of_switch isSwitch] at before
      apply before.1
      cases takes : call.takesFiles with
      | false => rfl
      | true => exact absurd ⟨by rw [isThread]; nofun, call, state, isLast, takes⟩ notBusy

theorem Core.counted_of_sum {core : Core} {owed : ProcId → FileId → ℤ}
    (sum : core.surplus = ∑ p, owed p) (nothing : ∀ p, owed p = 0) : core.Counted := by
  rw [counted_iff_surplus, sum]
  exact Finset.sum_eq_zero fun p _ => nothing p

/-- The entries in use are those that a descriptor points to. -/
theorem Core.Counted.inUse_congr {core core' : Core} (counted : core.Counted)
    (counted' : core'.Counted) (same : ∀ p, (core'.procs p).held = (core.procs p).held) :
    core'.inUse = core.inUse := by
  have sameSlots : core'.slots = core.slots :=
    funext fun place => congrFun (same place.1) place.2
  apply Set.ext
  intro f
  change 0 < (core'.files f).refCount ↔ 0 < (core.files f).refCount
  rw [counted f, counted' f, sameSlots]

/--
In every run of all processes from a state in which the counts are right, in which `sys_open`
always finds a free descriptor where it needs one, the files are accounted for.
-/
theorem files_accounted {kernel : Kernel} {tracked : TrackedKernel}
    (counted : kernel.core.Counted)
    (reach : Reach (Tracked.step Kernel.system) (fun tracked act => Roomy tracked.pool act)
      (Tracked.idle kernel) tracked) (notStopped : tracked.pool.stopped = none) :
    Accounted tracked := by
  rcases Kernel.fileTerms.reach (fun pool p prog roomy running isThread =>
    roomy rfl p prog running isThread) ((Core.counted_iff_surplus _).mp counted) reach notStopped
    with ⟨owed, good⟩
  refine ⟨fun quiet notBusy => ?_, fun p answer running isThread failed => ?_⟩
  · apply Core.counted_of_sum good.sum
    intro p
    exact owes_nothing good (by rw [quiet]; rintro ⟨⟩) (notBusy p)
  · rcases good.runs p running with ⟨prog, isThread', call, start, isLast, ends⟩
    cases isThread.symm.trans isThread'
    change Settles.Ends p start.core answer.value tracked.core (owed p) at ends
    have owns := ends.failed failed
    have live : (start.core.procs p).live = true := Tracked.ready_of_last reach isLast
    have sameHeld : (tracked.core.procs p).held = (start.core.procs p).held := by
      rw [Proc.held, Proc.held, owns.live, live, owns.ofile]
    refine ⟨call, start, isLast, sameHeld, fun countedStart others => ?_⟩
    have countedNow : tracked.core.Counted := by
      apply Core.counted_of_sum good.sum
      intro q
      rcases eq_or_ne q p with rfl | isOther
      · exact ends.empty
      · refine owes_nothing good ?_ (others q isOther).1
        rw [running]
        exact fun same => isOther (Option.some.inj same).symm
    refine ⟨countedNow, countedStart.inUse_congr countedNow fun q => ?_⟩
    rcases eq_or_ne q p with rfl | isOther
    · exact sameHeld
    · exact (others q isOther).2

/-- The running process has a free descriptor. -/
def TrackedKernel.hasRoom (tracked : TrackedKernel) (_ : KernelAct) : Bool :=
  match tracked.pool.running with
  | some p => (List.finRange nfile).any fun fd => ((tracked.core.procs p).ofile fd).isNone
  | none => true

theorem roomy_of_hasRoom (tracked : TrackedKernel) (act : KernelAct)
    (hasRoom : tracked.hasRoom act = true) : Roomy tracked.pool act := by
  intro _ p prog running _ _
  rw [TrackedKernel.hasRoom, running] at hasRoom
  rcases List.any_eq_true.mp hasRoom with ⟨fd, _, isFree⟩
  exact ⟨fd, Option.isNone_iff_eq_none.mp isFree⟩

theorem counted_smallCore : smallCore.Counted := by
  intro f
  have noSlot : smallCore.slots = fun _ => none := by
    funext place
    change Proc.held (if place.1 < 2 then _ else _) place.2 = none
    split <;> rfl
  rw [noSlot, count_empty]
  rfl

/-- Process 0 opens `/`. -/
def openRoot : List KernelAct := .start 0 (.open [47] 0 0) :: List.replicate 11 .go

theorem files_accounted_openRoot :
    ∃ tracked : TrackedKernel,
      Reach (Tracked.step Kernel.system) (fun tracked act => Roomy tracked.pool act)
        (Tracked.idle .small) tracked ∧ (tracked.core.files 0).refCount = 1 ∧
          Accounted tracked := by
  have observed : (runChecked (Tracked.step Kernel.system) TrackedKernel.hasRoom
      (Tracked.idle .small) openRoot).any (fun tracked : TrackedKernel =>
        tracked.pool.stopped.isNone && decide ((tracked.core.files 0).refCount = 1)) = true := by
    decide +kernel
  rcases reach_of_observedChecked roomy_of_hasRoom observed with ⟨tracked, reach, seen⟩
  rw [Bool.and_eq_true, Option.isNone_iff_eq_none, decide_eq_true_eq] at seen
  exact ⟨tracked, reach, seen.2, files_accounted counted_smallCore reach seen.1⟩

/-- Process 0 opens `/`, fills its descriptors, and opens `/` again. -/
def openWhenFull : List KernelAct := List.flatten
  [openRoot, (List.replicate 31 (.start 0 (.dup 0) :: List.replicate 6 .go)).flatten,
    .start 0 (.open [47] 0 0) :: List.replicate 10 .go]

/-- No process is in a call, and there is a reference to file 1 but no descriptor of it. -/
def TrackedKernel.leaks (tracked : TrackedKernel) : Bool :=
  tracked.pool.running.isNone &&
    (List.finRange nproc).all (fun p => (tracked.pool.thread p).isNone) &&
    decide ((tracked.core.files 1).refCount = 1) &&
    (List.finRange nproc).all fun p => (List.finRange nfile).all fun fd =>
      decide (tracked.core.slots (p, fd) ≠ some 1)

theorem not_accounted_of_leaks {tracked : TrackedKernel} (leaks : tracked.leaks = true) :
    ¬Accounted tracked := by
  intro accounted
  simp only [TrackedKernel.leaks, Bool.and_eq_true, Option.isNone_iff_eq_none, List.all_eq_true,
    List.mem_finRange, true_imp_iff, decide_eq_true_eq] at leaks
  rcases leaks with ⟨⟨⟨quiet, noThread⟩, isOne⟩, noSlot⟩
  have counted := accounted.counted quiet (fun p busy => busy.1 (noThread p)) 1
  have isZero : count tracked.core.slots 1 = 0 := by
    rw [count_eq_sum]
    apply Finset.sum_eq_zero
    intro place _
    cases isSlot : tracked.core.slots place with
    | none => exact share_none 1
    | some f => exact share_of_ne fun same => noSlot place.1 place.2 (isSlot.trans (same ▸ rfl))
  rw [isOne, isZero] at counted
  cases counted

theorem not_files_accounted :
    Kernel.small.core.Counted ∧ ∃ tracked, Reach (Tracked.step Kernel.system) Always
      (Tracked.idle .small) tracked ∧ tracked.pool.stopped = none ∧ ¬Accounted tracked := by
  refine ⟨counted_smallCore, ?_⟩
  have observed : (run (Tracked.step Kernel.system) (Tracked.idle .small) openWhenFull).any
      (fun tracked => tracked.pool.stopped.isNone && TrackedKernel.leaks tracked) = true := by
    decide +kernel
  rcases reach_of_observed observed with ⟨tracked, reach, seen⟩
  rw [Bool.and_eq_true, Option.isNone_iff_eq_none] at seen
  exact ⟨tracked, reach, seen.1, not_accounted_of_leaks seen.2⟩

end Osix
