import Osix.Pipe.Wakeups

/-!
# The end counts of pipes

`readers` and `writers` of a pipe are meant to count its open read and write ends. Since
`O_RDONLY` is 0, the last close of a read end is not counted; and `dup2` of a descriptor
onto itself, if it is the only one, takes a writer back although the file stays open. The
counts are right as long as neither happens.
-/

namespace Osix.Pipes.Sys

open Counting Transition

/-- The pipes of the open files that were created with these flags. -/
def ends (sys : Sys) (flags : ℕ) (f : FileId) : Option PipeId :=
  if 0 < (sys.files f).refCount ∧ (sys.files f).type = .pipe ∧ (sys.files f).flags = flags then
    (sys.files f).pipe
  else
    none

/-- The number of open files that were created as such ends of the pipe. -/
def openEnds (sys : Sys) (flags : ℕ) (q : PipeId) : ℤ := count (sys.ends flags) q

/-- `readers` and `writers` count the open ends. -/
structure EndCounts (sys : Sys) : Prop where
  readers : ∀ q, (sys.pipes q).readers = sys.openEnds oRdonly q
  writers : ∀ q, (sys.pipes q).writers = sys.openEnds oWronly q

/--
The condition on the steps: the last reference of a read end is not dropped, and `dup2` does
not drop the last reference of a write end only to take it again.
-/
structure Balanced (sys : Sys) (act : Act) : Prop where
  readEnd : ∀ f q, sys.DropsLast act f → ¬sys.Duplicates act f → ¬sys.IsEnd oRdonly f q
  writeEnd : ∀ f q, sys.DropsLast act f → sys.Duplicates act f → ¬sys.IsEnd oWronly f q

section

variable {sys sys' : Sys} {p : ProcId} {q : PipeId} {f : FileId}

theorem ends_of_isEnd {flags : ℕ} (positive : 0 < (sys.files f).refCount)
    (isEnd : sys.IsEnd flags f q) : sys.ends flags f = some q := by
  simp [ends, positive, isEnd.1, isEnd.2.1, isEnd.2.2]

theorem ends_of_flags {flags : ℕ} (different : (sys.files f).flags ≠ flags) :
    sys.ends flags f = none := by
  simp [ends, different]

theorem ends_of_closed {flags : ℕ} (closed : (sys.files f).refCount ≤ 0) :
    sys.ends flags f = none := by
  have notOpen : ¬0 < (sys.files f).refCount := by omega
  simp [ends, notOpen]

theorem ends_congr (flags : ℕ) (same : sys'.files f = sys.files f) :
    sys'.ends flags f = sys.ends flags f := by
  simp only [ends, same]

theorem openEnds_congr {flags : ℕ} (same : ∀ f, sys'.ends flags f = sys.ends flags f)
    (q : PipeId) : sys'.openEnds flags q = sys.openEnds flags q := by
  rw [openEnds, openEnds, funext same]

/-- One file that changes. -/
theorem openEnds_update {flags : ℕ} {entry : Option PipeId}
    (others : ∀ other, other ≠ f → sys'.ends flags other = sys.ends flags other)
    (changed : sys'.ends flags f = entry) (q : PipeId) :
    sys'.openEnds flags q =
      sys.openEnds flags q - share (sys.ends flags f) q + share entry q := by
  have updated : sys'.ends flags = Function.update (sys.ends flags) f entry := by
    funext other
    rcases eq_or_ne other f with rfl | different
    · rw [changed, Function.update_self]
    · rw [others other different, Function.update_of_ne different]
  rw [openEnds, updated, count_update, openEnds]

theorem endCounts_same (counts : EndCounts sys)
    (files : ∀ flags f, sys'.ends flags f = sys.ends flags f)
    (readers : ∀ q, (sys'.pipes q).readers = (sys.pipes q).readers)
    (writers : ∀ q, (sys'.pipes q).writers = (sys.pipes q).writers) : EndCounts sys' where
  readers q := by
    rw [readers, counts.readers, openEnds_congr (files oRdonly)]
  writers q := by
    rw [writers, counts.writers, openEnds_congr (files oWronly)]

theorem endCounts_tables (counts : EndCounts sys) (files : sys'.files = sys.files)
    (pipes : sys'.pipes = sys.pipes) : EndCounts sys' :=
  endCounts_same counts (fun flags f => ends_congr flags (by rw [files])) (fun q => by rw [pipes])
    fun q => by rw [pipes]

/-! ## Closing -/

/-- A reference that is not the last one is not an end. -/
theorem ends_dropRef {flags : ℕ} (many : 1 < (sys.files f).refCount) (other : FileId) :
    (sys.dropRef f q).ends flags other = sys.ends flags other := by
  rcases eq_or_ne other f with rfl | different
  · have wasOpen : 0 < (sys.files other).refCount := by omega
    simp [ends, dropRef_file, many, wasOpen]
  · simp [ends, dropRef_file, different]

theorem ends_fileDup {flags : ℕ} (positive : 0 < (sys.files f).refCount) (other : FileId) :
    (sys.fileDup f).ends flags other = sys.ends flags other := by
  rcases eq_or_ne other f with rfl | different
  · have stillOpen : 0 < (sys.files other).refCount + 1 := by omega
    simp [ends, fileDup_file, stillOpen, positive]
  · simp [ends, fileDup_file, different]

theorem endCounts_fileDup (counts : EndCounts sys) (positive : 0 < (sys.files f).refCount) :
    EndCounts (sys.fileDup f) :=
  endCounts_same counts (fun _ other => ends_fileDup positive other) (fun _ => rfl) fun _ => rfl

/-- The last reference of a write end is an end less and a writer less. -/
theorem endCounts_dropRef (counts : EndCounts sys) (held : sys.Held f q)
    (notRead : (sys.files f).refCount = 1 → ¬sys.IsEnd oRdonly f q) :
    EndCounts (sys.dropRef f q) := by
  by_cases last : (sys.files f).refCount = 1
  · have flags : (sys.files f).flags = oWronly := by
      rcases held.flags with isRead | isWrite
      · exact absurd ⟨held.isPipe, held.ofPipe, isRead⟩ (notRead last)
      · exact isWrite
    have closed : ∀ flags, (sys.dropRef f q).ends flags f = none := by
      intro flags
      apply ends_of_closed
      simp [dropRef_file, last]
    have others : ∀ flags other, other ≠ f →
        (sys.dropRef f q).ends flags other = sys.ends flags other := by
      intro flags other different
      apply ends_congr
      simp [dropRef_file, different]
    refine ⟨?_, ?_⟩
    · intro other
      rw [(sys.dropRef_pipes f q other).1, counts.readers,
        openEnds_update (others oRdonly) (closed oRdonly), ends_of_flags (by rw [flags]; decide)]
      simp
    · intro other
      rw [openEnds_update (others oWronly) (closed oWronly),
        ends_of_isEnd held.positive ⟨held.isPipe, held.ofPipe, flags⟩, ← counts.writers]
      rcases eq_or_ne other q with rfl | different
      · simp [dropRef, setPipe, setFile, writersAfter, last, flags, oWronly]
      · simp [dropRef, setPipe, setFile, different, share_of_ne different.symm]
  · have many : 1 < (sys.files f).refCount := by
      have positive := held.positive
      omega
    apply endCounts_same counts (fun _ other => ends_dropRef many other)
    · intro other
      exact (sys.dropRef_pipes f q other).1
    · intro other
      exact sys.dropRef_writers fun _ isLast => last isLast.1

theorem endCounts_setOfile (counts : EndCounts sys) (p : ProcId) (fd : Fin nfile)
    (file : Option FileId) : EndCounts (sys.setOfile p fd file) :=
  endCounts_tables counts rfl rfl

theorem endCounts_returns (counts : EndCounts sys) (p : ProcId) (value : ℤ) :
    EndCounts (sys.returns p value) :=
  endCounts_tables counts rfl rfl

theorem endCounts_close (base : Base sys) (counts : EndCounts sys) (isLive : sys.live p = true)
    {fd value : ℤ} (balanced : Balanced sys (.call p (.close fd)))
    (called : sys.close p fd = some (sys', value)) : EndCounts sys' := by
  rcases close_cases base isLive called with rfl | ⟨slot, f, q, found, held, rfl⟩
  · exact counts
  · apply endCounts_setOfile
    apply endCounts_dropRef counts held
    intro last
    exact balanced.readEnd f q (dropsLast_close found last) (by simp [Duplicates])

theorem positive_of_descriptor (base : Base sys) (isLive : sys.live p = true) {fd : ℤ}
    {slot : Fin nfile} (found : sys.descriptor p fd = some (slot, f)) :
    0 < (sys.files f).refCount := by
  rcases held_of_stored base (descriptor_slot isLive found).1 with ⟨q, held, _⟩
  exact held.positive

theorem endCounts_dup (base : Base sys) (counts : EndCounts sys) (isLive : sys.live p = true)
    {fd value : ℤ} (called : sys.dup p fd = some (sys', value)) : EndCounts sys' := by
  rcases dup_cases isLive called with rfl | ⟨slot, newFd, f, stored, _, rfl⟩
  · exact counts
  · rcases held_of_stored base stored with ⟨q, held, _⟩
    apply endCounts_setOfile
    exact endCounts_fileDup counts held.positive

/-- The only reference of a read end is dropped and taken again. -/
theorem endCounts_renewed (counts : EndCounts sys) (q : PipeId)
    (isRead : (sys.files f).flags = oRdonly) : EndCounts ((sys.dropRef f q).fileDup f) := by
  apply endCounts_same counts
  · intro flags other
    apply ends_congr
    rw [fileDup_file, dropRef_file]
    simp
  · intro other
    exact (sys.dropRef_pipes f q other).1
  · intro other
    exact sys.dropRef_writers fun _ isLast => isLast.2 (by rw [isRead]; decide)

theorem endCounts_dup2 (base : Base sys) (counts : EndCounts sys) (isLive : sys.live p = true)
    {oldFd newFd value : ℤ} (balanced : Balanced sys (.call p (.dup2 oldFd newFd)))
    (called : sys.dup2 p oldFd newFd = some (sys', value)) : EndCounts sys' := by
  rcases dup2_cases base isLive called with
    rfl | ⟨slot, slot', f, found, ⟨_, rfl⟩ | ⟨old, q, foundOld, held, rfl⟩⟩
  · exact counts
  · apply endCounts_setOfile
    exact endCounts_fileDup counts (positive_of_descriptor base isLive found)
  · have positive := positive_of_descriptor base isLive found
    apply endCounts_setOfile
    by_cases renewed : f = old ∧ (sys.files old).refCount = 1
    · rcases renewed with ⟨rfl, last⟩
      apply endCounts_renewed counts q
      rcases held.flags with isRead | isWrite
      · exact isRead
      · exact absurd ⟨held.isPipe, held.ofPipe, isWrite⟩ (balanced.writeEnd f q
          (dropsLast_dup2 found foundOld last) (by simp [Duplicates, found]))
    · apply endCounts_fileDup
      · apply endCounts_dropRef counts held
        intro last
        have different : f ≠ old := fun same => renewed ⟨same, last⟩
        exact balanced.readEnd old q (dropsLast_dup2 found foundOld last)
          (by simp [Duplicates, found, different])
      · rw [dropRef_file]
        split
        · rename_i same
          have heldPositive := held.positive
          have notLast : (sys.files old).refCount ≠ 1 := fun last => renewed ⟨same, last⟩
          subst same
          simp only
          omega
        · simpa using positive

/-! ## Processes that come and go -/

theorem endCounts_forkFiles (counts : EndCounts sys) {child : ProcId} (different : p ≠ child)
    (fds : List (Fin nfile))
    (positive : ∀ fd f, (sys.procs p).ofile fd = some f → 0 < (sys.files f).refCount) :
    EndCounts (forkFiles p child fds sys) := by
  induction fds generalizing sys with
  | nil => exact counts
  | cons fd rest ih =>
      simp only [forkFiles]
      split
      · exact ih counts positive
      · rename_i f isFile
        apply ih
        · apply endCounts_setOfile
          exact endCounts_fileDup counts (positive fd f isFile)
        · intro other file isOther
          have before := positive other file
            (by simpa [setOfile, setProc, different, fileDup, setFile] using isOther)
          change 0 < ((sys.fileDup f).files file).refCount
          rw [fileDup_file]
          split
          · simp only
            omega
          · simpa using before

theorem endCounts_fork (base : Base sys) (counts : EndCounts sys) (isLive : sys.live p = true) :
    EndCounts (sys.fork p).1 := by
  rcases sys.fork_cases p with same | ⟨child, free, forked⟩
  · rw [same]
    exact counts
  · have different : p ≠ child := by
      rintro rfl
      simp [live, free] at isLive
    rw [forked]
    refine endCounts_forkFiles ?_ different _ ?_
    · exact endCounts_tables counts rfl rfl
    · intro fd f isFile
      have stored : sys.slots (p, fd) = some f := by
        simpa [slots, isLive, setProc, different] using isFile
      rcases held_of_stored base stored with ⟨q, held, _⟩
      exact held.positive

/-- What is left of the condition after some of the descriptors of `p` have been closed. -/
structure Balancing (sys : Sys) (p : ProcId) (fds : List (Fin nfile)) : Prop where
  counts : EndCounts sys
  readEnd : ∀ f q, 0 < (sys.files f).refCount →
    (sys.files f).refCount ≤ fds.countP (fun fd => (sys.procs p).ofile fd = some f) →
    ¬sys.IsEnd oRdonly f q

theorem balancing_skips {fd : Fin nfile} {rest : List (Fin nfile)}
    (balancing : Balancing sys p (fd :: rest)) (noFile : (sys.procs p).ofile fd = none) :
    Balancing sys p rest := by
  refine ⟨balancing.counts, ?_⟩
  intro f q positive atMost
  apply balancing.readEnd f q positive
  rw [List.countP_cons_of_neg (by simp [noFile])]
  exact atMost

theorem balancing_drops {fd : Fin nfile} {rest : List (Fin nfile)}
    (balancing : Balancing sys p (fd :: rest)) (isFile : (sys.procs p).ofile fd = some f)
    (held : sys.Held f q) : Balancing (sys.dropRef f q) p rest := by
  refine ⟨?_, ?_⟩
  · apply endCounts_dropRef balancing.counts held
    intro last
    apply balancing.readEnd f q held.positive
    rw [List.countP_cons_of_pos (by simp [isFile])]
    omega
  · intro other pipe positive atMost isEnd
    rcases refCount_of_dropRef isFile positive atMost with ⟨positive, atMost⟩
    exact balancing.readEnd other pipe positive atMost (isEnd_dropRef.mp isEnd)

theorem endCounts_exit (base : Base sys) (counts : EndCounts sys) (isLive : sys.live p = true)
    (balanced : Balanced sys (.call p .exit)) (exited : sys.exit p = some sys') :
    EndCounts sys' := by
  have start : Balancing sys p (List.finRange nfile) := by
    refine ⟨counts, ?_⟩
    intro f q positive atMost
    exact balanced.readEnd f q ⟨positive, atMost⟩ (by simp [Duplicates])
  rcases exit_rule (motive := fun fds later => Balancing later p fds) base isLive
    (fun fd rest later balancing noFile => balancing_skips balancing noFile)
    (fun fd rest later f q balancing isFile held => balancing_drops balancing isFile held)
    start exited with ⟨closed, balancing, rfl⟩
  exact endCounts_tables balancing.counts rfl rfl

/-! ## New pipes -/

theorem endCounts_pipeFails (counts : EndCounts sys) (fails : PipeFails sys sys') :
    EndCounts sys' := by
  apply endCounts_same counts
  · intro flags f
    rcases fails.files f with same | ⟨before, after⟩
    · exact ends_congr flags same
    · rw [ends_of_closed (by omega), ends_of_closed (by omega)]
  · intro q
    rcases fails.pipes q with ⟨same, _⟩ | ⟨readers, _, zero, _⟩
    · rw [same]
    · rw [zero, readers]
      rfl
  · intro q
    rcases fails.pipes q with ⟨same, _⟩ | ⟨_, writers, zero, _⟩
    · rw [same]
    · rw [zero, writers]
      rfl

/-- The two files of a new pipe are one end each. -/
theorem ends_pipeMade {made : Ends} (makes : PipeMade sys p made sys') (flags : ℕ) :
    sys'.ends flags = Function.update (Function.update (sys.ends flags) made.readEnd
      (if oRdonly = flags then some made.pipe else none)) made.writeEnd
      (if oWronly = flags then some made.pipe else none) := by
  funext f
  rw [makes.made]
  rcases eq_or_ne f made.writeEnd with rfl | notWrite
  · simp [ends, endFile]
  · rcases eq_or_ne f made.readEnd with rfl | notRead
    · simp [ends, endFile, notWrite]
    · simp [ends, notWrite, notRead]

theorem openEnds_pipeMade {made : Ends} (makes : PipeMade sys p made sys') (flags : ℕ)
    (q : PipeId) :
    sys'.openEnds flags q = sys.openEnds flags q +
      share (if oRdonly = flags then some made.pipe else none) q +
      share (if oWronly = flags then some made.pipe else none) q := by
  have readFree : sys.ends flags made.readEnd = none := by
    apply ends_of_closed
    rw [makes.readFree]
  have writeFree : sys.ends flags made.writeEnd = none := by
    apply ends_of_closed
    rw [makes.writeFree]
  rw [openEnds, ends_pipeMade makes, count_update, count_update,
    Function.update_of_ne makes.distinct.symm, readFree, writeFree, share_none, openEnds]
  omega

theorem endCounts_pipeMade (counts : EndCounts sys) {made : Ends}
    (makes : PipeMade sys p made sys') : EndCounts sys' := by
  refine ⟨?_, ?_⟩
  · intro q
    rw [openEnds_pipeMade makes, ← counts.readers, makes.made]
    rcases eq_or_ne q made.pipe with rfl | different
    · simp [oRdonly, oWronly, makes.readers]
    · simp [oRdonly, oWronly, different, share_of_ne different.symm]
  · intro q
    rw [openEnds_pipeMade makes, ← counts.writers, makes.made]
    rcases eq_or_ne q made.pipe with rfl | different
    · simp [oRdonly, oWronly, makes.writers]
    · simp [oRdonly, oWronly, different, share_of_ne different.symm]

/-! ## All runs -/

theorem endCounts_pipeRead (counts : EndCounts sys) (p : ProcId) (q : PipeId) (left : ℕ)
    (got : List Byte) : EndCounts (sys.pipeRead p q left got) := by
  have ends := readLoop_ends (sys.pipes q) got left
  have files : (sys.pipeRead p q left got).files = sys.files := by
    simp only [pipeRead]
    split
    · rfl
    · rfl
  apply endCounts_same counts
  · intro flags f
    exact ends_congr flags (by rw [files])
  · intro other
    rw [(sys.pipeRead_tables p q left got).1]
    rcases eq_or_ne other q with rfl | different
    · rw [Function.update_self, ends.1]
    · rw [Function.update_of_ne different]
  · intro other
    rw [(sys.pipeRead_tables p q left got).1]
    rcases eq_or_ne other q with rfl | different
    · rw [Function.update_self, ends.2]
    · rw [Function.update_of_ne different]

theorem endCounts_pipeWrite (counts : EndCounts sys) (p : ProcId) (q : PipeId) (nbytes : ℕ)
    (src : List Byte) : EndCounts (sys.pipeWrite p q nbytes src) := by
  have ends := writeLoop_ends (sys.pipes q) src
  have files : (sys.pipeWrite p q nbytes src).files = sys.files := by
    simp only [pipeWrite]
    split
    · rfl
    · rfl
  apply endCounts_same counts
  · intro flags f
    exact ends_congr flags (by rw [files])
  · intro other
    rw [(sys.pipeWrite_tables p q nbytes src).1]
    rcases eq_or_ne other q with rfl | different
    · rw [Function.update_self, ends.1]
    · rw [Function.update_of_ne different]
  · intro other
    rw [(sys.pipeWrite_tables p q nbytes src).1]
    rcases eq_or_ne other q with rfl | different
    · rw [Function.update_self, ends.2]
    · rw [Function.update_of_ne different]

theorem endCounts_sysent (base : Base sys) (counts : EndCounts sys) (isLive : sys.live p = true)
    {call : Call} (balanced : Balanced sys (.call p call))
    (called : sys.sysent p call = some sys') : EndCounts sys' := by
  cases call with
  | pipe =>
      rcases finish_cases called with ⟨middle, value, result, rfl⟩
      apply endCounts_returns
      rcases sysPipe_cases result with fails | ⟨made, makes⟩
      · exact endCounts_pipeFails counts fails
      · exact endCounts_pipeMade counts makes
  | read fd nbytes =>
      simp only [sysent] at called
      split at called
      · cases called
        exact endCounts_returns counts p _
      · rw [Option.map_eq_some_iff] at called
        rcases called with ⟨q, _, rfl⟩
        exact endCounts_pipeRead counts p q nbytes []
  | write fd src =>
      simp only [sysent] at called
      split at called
      · cases called
        exact endCounts_returns counts p _
      · rw [Option.map_eq_some_iff] at called
        rcases called with ⟨q, _, rfl⟩
        exact endCounts_pipeWrite counts p q src.length src
  | close fd =>
      rcases finish_cases called with ⟨middle, value, result, rfl⟩
      apply endCounts_returns
      exact endCounts_close base counts isLive balanced result
  | dup fd =>
      rcases finish_cases called with ⟨middle, value, result, rfl⟩
      apply endCounts_returns
      exact endCounts_dup base counts isLive result
  | dup2 oldFd newFd =>
      rcases finish_cases called with ⟨middle, value, result, rfl⟩
      apply endCounts_returns
      exact endCounts_dup2 base counts isLive balanced result
  | fork =>
      rcases finish_cases called with ⟨middle, value, result, rfl⟩
      have isMiddle : (sys.fork p).1 = middle := by rw [Option.some.inj result]
      apply endCounts_returns
      rw [← isMiddle]
      exact endCounts_fork base counts isLive
  | exit => exact endCounts_exit base counts isLive balanced called

theorem endCounts_step (base : Base sys) (counts : EndCounts sys) {act : Act}
    (balanced : Balanced sys act) (stepped : sys.step act = some sys') : EndCounts sys' := by
  cases act with
  | call p call =>
      simp only [step] at stepped
      split at stepped
      · rename_i isUser
        exact endCounts_sysent base counts (by simp [live, isUser]) balanced stepped
      · cases stepped
  | resume p =>
      simp only [step] at stepped
      split at stepped
      · rename_i q left got _
        cases stepped
        exact endCounts_pipeRead counts p q left got
      · rename_i q nbytes src _
        cases stepped
        exact endCounts_pipeWrite counts p q nbytes src
      · cases stepped
  | reap p =>
      simp only [step] at stepped
      split at stepped
      · cases stepped
        exact endCounts_tables counts rfl rfl
      · cases stepped

theorem openEnds_boot (flags : ℕ) (q : PipeId) : boot.openEnds flags q = 0 := by
  have noEnds : boot.ends flags = fun _ => none := by
    funext f
    apply ends_of_closed
    exact le_refl 0
  rw [openEnds, noEnds, count_empty]

theorem endCounts_boot : EndCounts boot where
  readers q := by
    rw [openEnds_boot]
    rfl
  writers q := by
    rw [openEnds_boot]
    rfl

/-- The invariant makes `pipe_create` see exactly the pipes to which no open file refers. -/
theorem free_iff (base : Base sys) (counts : EndCounts sys) (q : PipeId) :
    ((sys.pipes q).readers = 0 ∧ (sys.pipes q).writers = 0) ↔
      ∀ f, 0 < (sys.files f).refCount → (sys.files f).type = .pipe → (sys.files f).pipe ≠ some q := by
  rw [counts.readers, counts.writers]
  constructor
  · rintro ⟨noReader, noWriter⟩ f positive isPipe ofPipe
    rw [base.counted f] at positive
    rcases exists_of_count_pos positive with ⟨slot, stored⟩
    have isOpen : 0 < (sys.files f).refCount := by rwa [base.counted f]
    rcases base.flags slot f stored with flags | flags
    · have counted := count_pos (ends_of_isEnd isOpen ⟨isPipe, ofPipe, flags⟩)
      rw [openEnds] at noReader
      omega
    · have counted := count_pos (ends_of_isEnd isOpen ⟨isPipe, ofPipe, flags⟩)
      rw [openEnds] at noWriter
      omega
  · intro unused
    have noEnds : ∀ flags, sys.openEnds flags q = 0 := by
      intro flags
      by_contra some
      have positive : 0 < count (sys.ends flags) q := lt_of_le_of_ne (count_nonneg _ _) (Ne.symm some)
      rcases exists_of_count_pos positive with ⟨f, isEnd⟩
      simp only [ends] at isEnd
      split at isEnd
      · rename_i isOpen
        exact unused f isOpen.1 isOpen.2.1 isEnd
      · cases isEnd
    exact ⟨noEnds oRdonly, noEnds oWronly⟩

/--
As long as no last reference of a read end is dropped, and none of a write end by `dup2` onto
itself, the counts are right, a pipe is free exactly when no open file refers to it, a pipe
that is handed out is empty, and without descriptors all pipes are free.
-/
theorem end_counts (reach : Reach step Balanced boot sys) :
    (∀ q, (sys.pipes q).readers = sys.openEnds oRdonly q ∧
      (sys.pipes q).writers = sys.openEnds oWronly q) ∧
    (∀ q, ((sys.pipes q).readers = 0 ∧ (sys.pipes q).writers = 0) ↔
      ∀ f, 0 < (sys.files f).refCount → (sys.files f).type = .pipe →
        (sys.files f).pipe ≠ some q) ∧
    (∀ q, sys.pipeCreate = some q → (sys.pipes q).readPos = (sys.pipes q).writePos) ∧
    ((∀ slot, sys.slots slot = none) →
      ∀ q, (sys.pipes q).readers = 0 ∧ (sys.pipes q).writers = 0) := by
  have invariant : Base sys ∧ EndCounts sys := by
    apply reach.invariant
    · exact ⟨base_boot, endCounts_boot⟩
    · intro sys sys' act inv balanced stepped
      exact ⟨base_step inv.1 stepped, endCounts_step inv.1 inv.2 balanced stepped⟩
  rcases invariant with ⟨base, counts⟩
  refine ⟨fun q => ⟨counts.readers q, counts.writers q⟩, free_iff base counts, ?_, ?_⟩
  · intro q found
    exact base.empty q (pipeCreate_some found).1
  · intro closed q
    rw [free_iff base counts]
    intro f positive
    rw [base.counted f, show sys.slots = fun _ => none from funext closed, count_empty] at positive
    omega

instance (sys : Sys) (act : Act) : Decidable (Balanced sys act) :=
  decidable_of_iff
    ((∀ f q, sys.DropsLast act f → ¬sys.Duplicates act f → ¬sys.IsEnd oRdonly f q) ∧
      ∀ f q, sys.DropsLast act f → sys.Duplicates act f → ¬sys.IsEnd oWronly f q)
    ⟨fun ⟨readEnd, writeEnd⟩ => ⟨readEnd, writeEnd⟩,
      fun balanced => ⟨balanced.readEnd, balanced.writeEnd⟩⟩

/-- A write end is duplicated and closed; its reader stays counted. -/
theorem end_counts_closedWriter : ∃ sys, Reach step Balanced boot sys ∧
    (sys.pipes 0).readers = 1 ∧ sys.openEnds oRdonly 0 = 1 ∧ sys.openEnds oWronly 0 = 0 := by
  have observed : (runChecked step (fun sys act => decide (Balanced sys act)) boot
      [.call 0 .pipe, .call 0 (.dup 1), .call 0 (.close 1), .call 0 (.close 2)]).any
      (fun sys => decide ((sys.pipes 0).readers = 1 ∧ (sys.pipes 0).writers = 0)) = true := by
    decide
  have sound : ∀ sys act, decide (Balanced sys act) = true → Balanced sys act :=
    fun _ _ => of_decide_eq_true
  rcases reach_of_observedChecked sound observed with ⟨sys, reach, checked⟩
  rw [decide_eq_true_eq] at checked
  rcases (end_counts reach).1 0 with ⟨readers, writers⟩
  rw [checked.1] at readers
  rw [checked.2] at writers
  exact ⟨sys, reach, checked.1, readers.symm, writers.symm⟩

/-- Both ends of a pipe are closed, but it keeps its reader and is lost for `pipe_create`. -/
theorem reader_leaks : ∃ sys, Reach step Always boot sys ∧
    (∀ f, (sys.files f).refCount = 0) ∧ (sys.pipes 0).readers = 1 := by
  have observed : (run step boot [.call 0 .pipe, .call 0 (.close 0), .call 0 (.close 1)]).any
      (fun sys => decide ((∀ f, (sys.files f).refCount = 0) ∧ (sys.pipes 0).readers = 1)) =
        true := by
    decide
  rcases reach_of_observed observed with ⟨sys, reach, checked⟩
  rw [decide_eq_true_eq] at checked
  exact ⟨sys, reach, checked⟩

end

end Osix.Pipes.Sys
