import Osix.Vm.Mapping
import Mathlib.Data.Fintype.EquivFin

/-!
# Address spaces that grow and shrink

What `proc_break` and the loops over stack pages do to the holders of frames. The pages of a
process are those from `USER_TEXT` to its break, all of them mapped, and perhaps the page
of its stack. The break cannot reach the kernel's part of the address space: there are not
enough frames for that, and `vmm_alloc_page` panics before.
-/

namespace Osix.Vm

open Ownership

namespace Machine

section

variable {view : View} {m m' : Machine} {p : ProcId} {vpage : ℕ}

/-- What the loop of `proc_break` does that maps new pages. -/
structure Grown (view : View) (p : ProcId) (first count : ℕ) (m m' : Machine) : Prop where
  cur : m'.cur = m.cur
  mono : ∀ frame, m.vmm.Allocated frame → m'.vmm.Allocated frame
  fresh : ∀ holder frame, m'.holds view holder = some frame →
    m.holds view holder = some frame ∨ ¬m.vmm.Allocated frame
  pages : ∀ v, ¬(first ≤ v ∧ v < first + count) →
    m'.holds view (.page p v) = m.holds view (.page p v)
  mapped : ∀ v, first ≤ v → v < first + count →
    ∃ frame, m'.holds view (.page p v) = some frame ∧ ¬m.vmm.Allocated frame
  others : ∀ holder, holder.owner ≠ some p → m'.holds view holder = m.holds view holder
  granted : Granted view m → Granted view m'

theorem Grown.refl (view : View) (p : ProcId) (first : ℕ) (m : Machine) :
    Grown view p first 0 m m where
  cur := rfl
  mono _ := id
  fresh _ _ := Or.inl
  pages _ _ := rfl
  mapped v atLeast below := by omega
  others _ _ := rfl
  granted := id

theorem Grown.trans {first count : ℕ} {middle : Machine} (one : Grown view p first 1 m middle)
    (rest : Grown view p (first + 1) count middle m') : Grown view p first (count + 1) m m' where
  cur := rest.cur.trans one.cur
  mono frame allocated := rest.mono frame (one.mono frame allocated)
  fresh holder frame held := by
    rcases rest.fresh holder frame held with before | free
    · exact one.fresh holder frame before
    · exact Or.inr (mt (one.mono frame) free)
  pages v outside := by
    rw [rest.pages v (by omega), one.pages v (by omega)]
  mapped v atLeast below := by
    rcases Nat.eq_or_lt_of_le atLeast with rfl | after
    · rcases one.mapped first le_rfl (by omega) with ⟨frame, held, free⟩
      exact ⟨frame, by rw [rest.pages first (by omega), held], free⟩
    · rcases rest.mapped v (by omega) (by omega) with ⟨frame, held, free⟩
      exact ⟨frame, held, mt (one.mono frame) free⟩
  others holder notOwner := by
    rw [rest.others holder notOwner, one.others holder notOwner]
  granted was := rest.granted (one.granted was)

/-- Entering a frame that was free before maps one page. -/
theorem grown_of_entered {middle : Machine} {frame table : ℕ}
    (holds : middle.holds view = m.holds view) (cur : middle.cur = m.cur)
    (granted : Granted view m → Granted view middle)
    (free : ¬m.vmm.Allocated frame)
    (allocated : ∀ other, middle.vmm.Allocated other ↔ m.vmm.Allocated other ∨ other = frame)
    (entered : Entered view p vpage frame table middle m') : Grown view p vpage 1 m m' := by
  have isNew : ∀ other, m'.vmm.Allocated other ↔
      m.vmm.Allocated other ∨ other = frame ∨ other = table := by
    intro other
    rw [entered.allocated other, allocated other, or_assoc]
  have oldTable : m.holds view (.table p (vpage / tableLen)) = some table ∨
      m.holds view (.table p (vpage / tableLen)) = none ∧ ¬m.vmm.Allocated table := by
    rcases entered.table with held | ⟨none, notAllocated⟩
    · rw [holds] at held
      exact Or.inl held
    · rw [holds] at none
      exact Or.inr ⟨none, fun was => notAllocated ((allocated table).mpr (Or.inl was))⟩
  have atPage : m'.holds view (.page p vpage) = some frame := by
    rw [entered.holds, Function.update_self]
  have atTable : m'.holds view (.table p (vpage / tableLen)) = some table := by
    rw [entered.holds, Function.update_of_ne (by simp), Function.update_self]
  have elsewhere : ∀ holder, holder ≠ .page p vpage → holder ≠ .table p (vpage / tableLen) →
      m'.holds view holder = m.holds view holder := by
    intro holder notPage notTable
    rw [entered.holds, Function.update_of_ne notPage, Function.update_of_ne notTable, holds]
  refine ⟨entered.cur.trans cur, fun other was => (isNew other).mpr (Or.inl was), ?_, ?_, ?_, ?_,
    fun was => entered.granted (granted was)⟩
  · intro holder other held
    by_cases isPage : holder = .page p vpage
    · subst isPage
      rw [atPage, Option.some.injEq] at held
      exact Or.inr (held ▸ free)
    · by_cases isTable : holder = .table p (vpage / tableLen)
      · subst isTable
        rw [atTable, Option.some.injEq] at held
        subst held
        rcases oldTable with before | ⟨_, notAllocated⟩
        · exact Or.inl before
        · exact Or.inr notAllocated
      · rw [elsewhere holder isPage isTable] at held
        exact Or.inl held
  · intro v outside
    apply elsewhere
    · simp only [ne_eq, Holder.page.injEq, true_and]
      omega
    · simp
  · intro v atLeast below
    have same : v = vpage := by omega
    exact ⟨frame, by rw [same, atPage], free⟩
  · intro holder notOwner
    apply elsewhere
    · rintro rfl
      exact notOwner rfl
    · rintro rfl
      exact notOwner rfl

/-- The pages from `USER_TEXT` to a break are mapped. -/
def MappedTo (view : View) (m : Machine) (p : ProcId) (brk : ℕ) : Prop :=
  ∀ v, userText ≤ v → v < brk → ∃ frame, m.holds view (.page p v) = some frame

/-- There are only so many frames. -/
theorem brk_le (sound : Sound view m) {brk : ℕ} (mapped : MappedTo view m p brk) :
    brk ≤ userText + pageCount := by
  by_contra tooLarge
  push Not at tooLarge
  have inRange : ∀ i : Fin (pageCount + 1), ∃ frame,
      m.holds view (.page p (userText + i)) = some frame := by
    intro i
    exact mapped (userText + i) (by omega) (by omega)
  choose frame held using inRange
  have injective : Function.Injective fun i : Fin (pageCount + 1) =>
      (⟨frame i, lt_pageCount sound (held i)⟩ : Fin pageCount) := by
    intro i j same
    have sameFrame : frame i = frame j := congrArg Fin.val same
    have heldI := held i
    rw [sameFrame] at heldI
    have sameHolder := sound.exclusive _ _ _ heldI (held j)
    simp only [Holder.page.injEq, Nat.add_left_cancel_iff, true_and] at sameHolder
    exact Fin.ext sameHolder
  have card := Fintype.card_le_of_injective _ injective
  simp only [Fintype.card_fin] at card
  omega

theorem lt_userPages (sound : Sound view m) (mapped : MappedTo view m p vpage) :
    vpage < userPages := by
  have bound := brk_le sound mapped
  simp only [userText, pageCount] at bound
  simp only [userPages, sysIndex, tableLen]
  omega

/-- One more page of the process. -/
theorem growOne_spec (sound : Sound view m) (valid : view.valid m.cur = true)
    (alive : view.alive p = true) (user : vpage < userPages) {frame : ℕ}
    {allocated zeroed : Machine} (isAllocated : m.allocPage = some (frame, allocated))
    (isZeroed : allocated.zeroPage frame = some zeroed)
    (isEntered : zeroed.enter (.proc p) vpage frame true = some m') :
    Sound view m' ∧ Grown view p vpage 1 m m' := by
  rcases allocPage_spec sound isAllocated with ⟨soundAllocated, only, free, added⟩
  have isAdded : allocated.vmm.Allocated frame := (added frame).mpr (Or.inr rfl)
  have unheld : Unheld (allocated.holds view) frame := by
    rw [only.holds]
    exact unheld_of_free sound free
  have notSys : frame ≠ allocated.sysTable := fun same => unheld .sysTable (by rw [same]; rfl)
  rcases fillTmp_spec soundAllocated (by rwa [only.cur])
    (lt_of_pageCount (Vmm.lt_of_allocated isAdded)) (notWalked_of_unheld unheld) notSys isZeroed with
    ⟨keeps, _⟩
  have soundZeroed := sound_keeps soundAllocated keeps
  rcases enter_spec soundZeroed alive user (by rwa [keeps.vmm]) (by rwa [keeps.holds]) isEntered with
    ⟨soundEntered, table, entered⟩
  refine ⟨soundEntered, grown_of_entered ?_ ?_ ?_ free ?_ entered⟩
  · rw [keeps.holds, only.holds]
  · rw [keeps.cur, only.cur]
  · exact fun was => granted_keeps keeps (only.granted was)
  · intro other
    rw [keeps.vmm]
    exact added other

theorem mappedTo_succ {first : ℕ} (mapped : MappedTo view m p first)
    (grown : Grown view p first 1 m m') : MappedTo view m' p (first + 1) := by
  intro v atLeast below
  by_cases isLast : v = first
  · rcases grown.mapped v (by omega) (by omega) with ⟨frame, held, _⟩
    exact ⟨frame, held⟩
  · rw [grown.pages v (by omega)]
    exact mapped v atLeast (by omega)

theorem grow_spec (count : ℕ) {first : ℕ} (sound : Sound view m) (valid : view.valid m.cur = true)
    (alive : view.alive p = true) (mapped : MappedTo view m p first)
    (grown : grow (.proc p) count first m = some m') :
    Sound view m' ∧ Grown view p first count m m' := by
  induction count generalizing first m with
  | zero =>
      cases grown
      exact ⟨sound, .refl view p first _⟩
  | succ count ih =>
      simp only [grow, Option.bind_eq_bind, Option.bind_eq_some_iff] at grown
      rcases grown with ⟨⟨frame, allocated⟩, isAllocated, zeroed, isZeroed, entered, isEntered, rest⟩
      rcases growOne_spec sound valid alive (lt_userPages sound mapped) isAllocated isZeroed
        isEntered with ⟨soundOne, one⟩
      rcases ih soundOne (by rwa [one.cur]) (mappedTo_succ mapped one) rest with ⟨soundRest, later⟩
      exact ⟨soundRest, one.trans later⟩

/-! ## Shrinking -/

/-- What the loop of `proc_break` does that unmaps and frees pages. -/
structure Shrunk (view : View) (p : ProcId) (first count : ℕ) (m m' : Machine) : Prop where
  cur : m'.cur = m.cur
  pages : ∀ v, first ≤ v → v < first + count → m'.holds view (.page p v) = none
  others : ∀ holder, (∀ v, first ≤ v → v < first + count → holder ≠ .page p v) →
    m'.holds view holder = m.holds view holder
  allocated : ∀ frame, m'.vmm.Allocated frame ↔ m.vmm.Allocated frame ∧
    ∀ v, first ≤ v → v < first + count → m.holds view (.page p v) ≠ some frame
  granted : Granted view m → Granted view m'

theorem shrink_spec (count : ℕ) {first : ℕ} (sound : Sound view m) (alive : view.alive p = true)
    (user : first + count ≤ userPages)
    (mapped : ∀ v, first ≤ v → v < first + count → ∃ frame, m.holds view (.page p v) = some frame)
    (shrunk : shrink (.proc p) count first m = some m') :
    Sound view m' ∧ Shrunk view p first count m m' := by
  induction count generalizing first m with
  | zero =>
      cases shrunk
      refine ⟨sound, rfl, ?_, fun _ _ => rfl, ?_, id⟩
      · intro v atLeast below
        omega
      · intro frame
        constructor
        · intro was
          exact ⟨was, fun v atLeast below => by omega⟩
        · exact And.left
  | succ count ih =>
      simp only [shrink, Option.bind_eq_bind, Option.bind_eq_some_iff] at shrunk
      rcases shrunk with ⟨page, isPage, removed, isRemoved, freed, isFreed, rest⟩
      rcases mapped first le_rfl (by omega) with ⟨frame, held⟩
      have isFrame := extract_spec sound alive (by omega) isPage
      rw [held, Option.getD_some] at isFrame
      subst isFrame
      rcases remove_spec sound alive (by omega) isRemoved with
        ⟨soundRemoved, holdsRemoved, vmm, curRemoved, granted⟩
      have unheld : Unheld (removed.holds view) page := by
        rw [holdsRemoved]
        exact sound.exclusive.unheld_take held
      rcases freePage_spec soundRemoved unheld isFreed with ⟨soundFreed, only, allocated⟩
      have holdsFreed : freed.holds view =
          Function.update (m.holds view) (.page p first) none := by
        rw [only.holds, holdsRemoved]
      have after : ∀ v, v ≠ first →
          freed.holds view (.page p v) = m.holds view (.page p v) := by
        intro v different
        rw [holdsFreed, Function.update_of_ne (by simpa using different)]
      rcases ih soundFreed (by omega) (by
        intro v atLeast below
        rw [after v (by omega)]
        exact mapped v (by omega) (by omega)) rest with ⟨soundRest, later⟩
      refine ⟨soundRest, ?_, ?_, ?_, ?_, fun was => later.granted (only.granted (granted was))⟩
      · rw [later.cur, only.cur, curRemoved]
      · intro v atLeast below
        by_cases isFirst : v = first
        · rw [later.others _ (by intro w atLeast' _; simp only [ne_eq, Holder.page.injEq]; omega),
            holdsFreed, isFirst, Function.update_self]
        · exact later.pages v (by omega) (by omega)
      · intro holder outside
        rw [later.others holder (fun v atLeast below => outside v (by omega) (by omega)), holdsFreed,
          Function.update_of_ne (outside first le_rfl (by omega))]
      · intro frame
        rw [later.allocated frame, allocated frame, vmm]
        constructor
        · rintro ⟨⟨was, notPage⟩, notLater⟩
          refine ⟨was, ?_⟩
          intro v atLeast below heldV
          by_cases isFirst : v = first
          · rw [isFirst, held, Option.some.injEq] at heldV
            exact notPage heldV.symm
          · exact notLater v (by omega) (by omega) (by rw [after v isFirst, heldV])
        · rintro ⟨was, notHeld⟩
          refine ⟨⟨was, ?_⟩, ?_⟩
          · rintro rfl
            exact notHeld first le_rfl (by omega) held
          · intro v atLeast below heldV
            rw [after v (by omega)] at heldV
            exact notHeld v (by omega) (by omega) heldV

theorem remove_vmm {pmap : PmapId} (removed : m.remove pmap vpage = some m') :
    m'.vmm = m.vmm := by
  rw [remove, Option.map_eq_some_iff] at removed
  rcases removed with ⟨stored, isStored, rfl⟩
  rw [store, Option.map_eq_some_iff] at isStored
  rcases isStored with ⟨page, _, rfl⟩
  rfl

/-- Two pages that are not mapped: the second `vmm_free_page` of page 0 panics. -/
theorem shrink_unmapped (sound : Sound view m) (alive : view.alive p = true) {first count : ℕ}
    (user : first + 1 < userPages) (none0 : m.holds view (.page p first) = none)
    (none1 : m.holds view (.page p (first + 1)) = none) :
    shrink (.proc p) (count + 2) first m = none := by
  by_contra returns
  rcases Option.ne_none_iff_exists'.mp returns with ⟨m', shrunk⟩
  simp only [shrink, Option.bind_eq_bind, Option.bind_eq_some_iff] at shrunk
  rcases shrunk with ⟨page, isPage, removed, isRemoved, freed, isFreed, page', isPage', removed',
    isRemoved', freed', isFreed', _⟩
  have isZero := extract_spec sound alive (by omega) isPage
  rw [none0, Option.getD_none] at isZero
  subst isZero
  rcases remove_spec sound alive (by omega) isRemoved with ⟨soundRemoved, holdsRemoved, _, _⟩
  rw [freePage, Option.map_eq_some_iff] at isFreed
  rcases isFreed with ⟨vmm, isVmm, rfl⟩
  have gone : ¬vmm.Allocated 0 := by
    rw [(Vmm.freePage_spec isVmm).2 0]
    simp
  -- The bitmap does not matter for the look-up.
  have isZero' := extract_spec soundRemoved alive user
    (show removed.extract (.proc p) (first + 1) = some page' from isPage')
  rw [holdsRemoved, Function.update_of_ne (by simp), none1, Option.getD_none] at isZero'
  subst isZero'
  rw [freePage, Option.map_eq_some_iff] at isFreed'
  rcases isFreed' with ⟨vmm', isVmm', _⟩
  have allocated := (Vmm.freePage_spec isVmm').1
  rw [remove_vmm isRemoved'] at allocated
  exact gone allocated

/-! ## `proc_break` -/

/-- The user pages of a process are those below its break and perhaps its stack. -/
structure Heap (view : View) (m : Machine) (p : ProcId) (brk : ℕ) : Prop where
  atLeast : userText ≤ brk
  mapped : MappedTo view m p brk
  only : ∀ v frame, m.holds view (.page p v) = some frame →
    userText ≤ v ∧ v < brk ∨ v = userStack

theorem Heap.congr {brk : ℕ} (heap : Heap view m p brk) {view' : View}
    (same : ∀ v, m'.holds view' (.page p v) = m.holds view (.page p v)) :
    Heap view' m' p brk where
  atLeast := heap.atLeast
  mapped v atLeast below := by
    rw [same]
    exact heap.mapped v atLeast below
  only v frame held := by
    rw [same] at held
    exact heap.only v frame held

theorem heap_grown {old new : ℕ} (heap : Heap view m p old) (larger : old < new)
    (grown : Grown view p old (new - old) m m') : Heap view m' p new where
  atLeast := heap.atLeast.trans larger.le
  mapped v atLeast below := by
    by_cases isNew : old ≤ v
    · rcases grown.mapped v isNew (by omega) with ⟨frame, held, _⟩
      exact ⟨frame, held⟩
    · rw [grown.pages v (by omega)]
      exact heap.mapped v atLeast (by omega)
  only v frame held := by
    by_cases isNew : old ≤ v ∧ v < new
    · have low := heap.atLeast
      left
      omega
    · rw [grown.pages v (by omega)] at held
      rcases heap.only v frame held with ⟨atLeast, below⟩ | isStack
      · left
        omega
      · exact Or.inr isStack

theorem shrunk_page {first count v : ℕ} (shrunk : Shrunk view p first count m m')
    (outside : ¬(first ≤ v ∧ v < first + count)) :
    m'.holds view (.page p v) = m.holds view (.page p v) := by
  apply shrunk.others
  intro w atLeast below same
  simp only [Holder.page.injEq, true_and] at same
  omega

theorem heap_shrunk {old new : ℕ} (heap : Heap view m p old) (atLeast : userText ≤ new)
    (smaller : new ≤ old) (shrunk : Shrunk view p new (old - new) m m') : Heap view m' p new where
  atLeast := atLeast
  mapped v atLeastV below := by
    rw [shrunk_page shrunk (by omega)]
    exact heap.mapped v atLeastV (by omega)
  only v frame held := by
    by_cases isGone : new ≤ v ∧ v < old
    · rw [shrunk.pages v isGone.1 (by omega)] at held
      cases held
    · rw [shrunk_page shrunk (by omega)] at held
      rcases heap.only v frame held with ⟨low, below⟩ | isStack
      · left
        omega
      · exact Or.inr isStack

/-- Rounding up to a page may wrap around to 0. -/
theorem breakPage_cases (brk : Word) : breakPage brk = 0 ∨ userText ≤ breakPage brk := by
  rw [breakPage]
  split
  · right
    decide
  · rename_i atLeast
    rw [BitVec.toNat_add, BitVec.toNat_ofNat]
    rw [userText] at atLeast ⊢
    omega

/-- What `proc_break` does: nothing, or the pages up to the new break, or those above it. -/
inductive Broken (view : View) (p : ProcId) (old : ℕ) (m : Machine) : ℕ → Machine → Prop where
  | same : Broken view p old m old m
  | grown {new : ℕ} {m' : Machine} (larger : old < new)
      (grown : Grown view p old (new - old) m m') : Broken view p old m new m'
  | shrunk {new : ℕ} {m' : Machine} (atLeast : userText ≤ new) (smaller : new ≤ old)
      (shrunk : Shrunk view p new (old - new) m m') : Broken view p old m new m'

theorem procBreak_spec {old new : ℕ} {brk : Word} (sound : Sound view m)
    (valid : view.valid m.cur = true) (alive : view.alive p = true) (heap : Heap view m p old)
    (result : m.procBreak (.proc p) old brk = some (m', new)) :
    Sound view m' ∧ Heap view m' p new ∧ Broken view p old m new m' := by
  have inUser := lt_userPages sound heap.mapped
  simp only [procBreak] at result
  split at result
  · cases result
    exact ⟨sound, heap, .same⟩
  · split at result
    · rename_i larger
      rw [Option.map_eq_some_iff] at result
      rcases result with ⟨grown, isGrown, pair⟩
      cases pair
      rcases grow_spec _ sound valid alive heap.mapped isGrown with ⟨soundGrown, isGrown⟩
      exact ⟨soundGrown, heap_grown heap larger isGrown, .grown larger isGrown⟩
    · rename_i notLarger
      rw [Option.map_eq_some_iff] at result
      rcases result with ⟨shrunk, isShrunk, pair⟩
      cases pair
      rcases breakPage_cases brk with isZero | atLeast
      · -- The first pages of the address space are never mapped.
        have low := heap.atLeast
        simp only [userText] at low
        have count : old - 0 = (old - 2) + 2 := by omega
        rw [isZero, count, shrink_unmapped sound alive (by decide)] at isShrunk
        · cases isShrunk
        · cases held : m.holds view (.page p 0) with
          | none => rfl
          | some frame =>
              have isUser := heap.only 0 frame held
              simp only [userText, userStack] at isUser
              omega
        · cases held : m.holds view (.page p (0 + 1)) with
          | none => rfl
          | some frame =>
              have isUser := heap.only (0 + 1) frame held
              simp only [userText, userStack] at isUser
              omega
      · have smaller : breakPage brk ≤ old := by omega
        rcases shrink_spec _ sound alive (by omega) (by
          intro v atLeastV below
          exact heap.mapped v (by omega) (by omega)) isShrunk with ⟨soundShrunk, isShrunk⟩
        exact ⟨soundShrunk, heap_shrunk heap atLeast smaller isShrunk,
          .shrunk atLeast smaller isShrunk⟩

theorem Broken.cur {old new : ℕ} (broken : Broken view p old m new m') : m'.cur = m.cur := by
  cases broken with
  | same => rfl
  | grown _ grown => exact grown.cur
  | shrunk _ _ shrunk => exact shrunk.cur

theorem Broken.granted {old new : ℕ} (broken : Broken view p old m new m')
    (was : Granted view m) : Granted view m' := by
  cases broken with
  | same => exact was
  | grown _ grown => exact grown.granted was
  | shrunk _ _ shrunk => exact shrunk.granted was

/-- `proc_break` changes only the address space of its process. -/
theorem Broken.others {old new : ℕ} (broken : Broken view p old m new m') {holder : Holder}
    (notOwner : holder.owner ≠ some p) : m'.holds view holder = m.holds view holder := by
  cases broken with
  | same => rfl
  | grown _ grown => exact grown.others holder notOwner
  | shrunk _ _ shrunk =>
      apply shrunk.others
      rintro v _ _ rfl
      exact notOwner rfl

/-! ## The stack -/

/-- The stack loop unmaps the stack page if the page below it is not mapped. -/
theorem unmapStack_spec (sound : Sound view m) (alive : view.alive p = true)
    (below : m.holds view (.page p (userStack - 1)) = none)
    (unmapped : unmapStack (.proc p) userStack m = some m') :
    Sound view m' ∧ m'.holds view = Function.update (m.holds view) (.page p userStack) none ∧
      m'.vmm = m.vmm ∧ m'.cur = m.cur ∧ (Granted view m → Granted view m') := by
  have user : userStack < userPages := by decide
  have user' : userStack - 1 < userPages := by decide
  rw [show userStack = (userStack - 1) + 1 from rfl, unmapStack, Option.bind_eq_bind,
    Option.bind_eq_some_iff] at unmapped
  rcases unmapped with ⟨page, isPage, unmapped⟩
  split at unmapped
  · rename_i isZero
    cases unmapped
    subst isZero
    have none := extract_eq_zero sound alive user isPage
    refine ⟨sound, ?_, rfl, rfl, id⟩
    rw [← none, Function.update_eq_self]
  · rw [Option.bind_eq_some_iff] at unmapped
    rcases unmapped with ⟨removed, isRemoved, unmapped⟩
    rcases remove_spec sound alive user isRemoved with
      ⟨soundRemoved, holdsRemoved, vmm, cur, granted⟩
    have belowRemoved : removed.holds view (.page p (userStack - 1)) = none := by
      rw [holdsRemoved, Function.update_of_ne (by simp [userStack]), below]
    rw [show userStack - 1 = (userStack - 2) + 1 from rfl, unmapStack, Option.bind_eq_bind,
      Option.bind_eq_some_iff] at unmapped
    rcases unmapped with ⟨page', isPage', unmapped⟩
    have isZero := extract_spec soundRemoved alive user' isPage'
    rw [belowRemoved, Option.getD_none] at isZero
    subst isZero
    rw [if_pos rfl, Option.some.injEq] at unmapped
    subst unmapped
    exact ⟨soundRemoved, holdsRemoved, vmm, cur, granted⟩

theorem heap_unmapStack {brk : ℕ} (heap : Heap view m p brk) (low : brk ≤ userStack)
    (holds : m'.holds view = Function.update (m.holds view) (.page p userStack) none) :
    Heap view m' p brk where
  atLeast := heap.atLeast
  mapped v atLeast below := by
    rw [holds, Function.update_of_ne (by simp; omega)]
    exact heap.mapped v atLeast below
  only v frame held := by
    rw [holds] at held
    by_cases isStack : v = userStack
    · exact Or.inr isStack
    · rw [Function.update_of_ne (by simpa using isStack)] at held
      exact heap.only v frame held

/-- The frame of a new stack. -/
theorem heap_entered {brk frame table : ℕ} (heap : Heap view m p brk)
    (entered : Entered view p userStack frame table m m') : Heap view m' p brk where
  atLeast := heap.atLeast
  mapped v atLeast below := by
    rw [entered.holds]
    by_cases isStack : v = userStack
    · exact ⟨frame, by rw [isStack, Function.update_self]⟩
    · rw [Function.update_of_ne (by simpa using isStack), Function.update_of_ne (by simp)]
      exact heap.mapped v atLeast below
  only v frame' held := by
    by_cases isStack : v = userStack
    · exact Or.inr isStack
    · rw [entered.holds, Function.update_of_ne (by simpa using isStack),
        Function.update_of_ne (by simp)] at held
      exact heap.only v frame' held

end

end Machine

end Osix.Vm
