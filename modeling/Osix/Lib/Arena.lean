import Mathlib.Algebra.Group.Int.Defs
import Mathlib.Algebra.GroupWithZero.Nat
import Mathlib.Data.List.Nodup
import Mathlib.Data.List.Perm.Subperm
import Mathlib.Data.Nat.Notation
import Mathlib.Logic.Function.Basic

/-!
# Arenas cut into extents

An extent is a run of consecutive places. Extents tile an arena if every place of the arena lies in
exactly one of them and they hold no other place. Tilings are counted place by place, so that the
order of the extents does not matter, and cutting an extent or joining two neighbours is one rule.

Extents in ascending order that leave a gap between neighbours are spaced; where spaced extents and
some others tile an arena, each gap begins in another one of the others (`Tiles.length_le`).

A thread is a list of extents that is stored in records, one at the start of each extent: the
record holds the size of the extent and the start of the next one.
-/

namespace Arena

/-- `size` places from `start` on. -/
structure Extent where
  start : ℕ
  size : ℕ
deriving DecidableEq, Repr

namespace Extent

/-- The first place behind the extent. -/
def stop (e : Extent) : ℕ := e.start + e.size

/-- The place lies in the extent. -/
def Holds (e : Extent) (a : ℕ) : Prop := e.start ≤ a ∧ a < e.stop

instance (e : Extent) (a : ℕ) : Decidable (e.Holds a) :=
  inferInstanceAs (Decidable (e.start ≤ a ∧ a < e.stop))

theorem holds_start {e : Extent} (sized : 0 < e.size) : e.Holds e.start := by
  simp only [Holds, stop]
  omega

end Extent

/-- The number of extents that hold the place. -/
def cover (a : ℕ) (es : List Extent) : ℕ := es.countP fun e => decide (e.Holds a)

@[simp]
theorem cover_nil (a : ℕ) : cover a [] = 0 := rfl

@[simp]
theorem cover_cons (a : ℕ) (e : Extent) (es : List Extent) :
    cover a (e :: es) = (if e.Holds a then 1 else 0) + cover a es := by
  simp only [cover, List.countP_cons, decide_eq_true_eq]
  omega

@[simp]
theorem cover_append (a : ℕ) (es fs : List Extent) :
    cover a (es ++ fs) = cover a es + cover a fs := by
  simp [cover]

theorem cover_perm {a : ℕ} {es fs : List Extent} (perm : es.Perm fs) : cover a es = cover a fs :=
  perm.countP_eq _

theorem cover_pos {a : ℕ} {es : List Extent} : 0 < cover a es ↔ ∃ e ∈ es, e.Holds a := by
  simp [cover, List.countP_pos_iff]

/-- Every place from `lo` to below `hi` lies in one extent, and no other place in any. -/
def Tiles (lo hi : ℕ) (es : List Extent) : Prop :=
  ∀ a, cover a es = if lo ≤ a ∧ a < hi then 1 else 0

namespace Tiles

variable {lo hi : ℕ} {e f : Extent} {es fs gs : List Extent}

theorem nil (lo : ℕ) : Tiles lo lo [] := by
  intro a
  rw [cover_nil, if_neg (by omega)]

theorem perm (tiles : Tiles lo hi es) (perm : es.Perm fs) : Tiles lo hi fs := by
  intro a
  rw [← cover_perm perm, tiles a]

theorem of_cover (tiles : Tiles lo hi es) (same : ∀ a, cover a fs = cover a es) :
    Tiles lo hi fs := by
  intro a
  rw [same, tiles a]

/-- The arena grows by an extent at its end. -/
theorem grow (tiles : Tiles lo hi es) (ordered : lo ≤ hi) (size : ℕ) :
    Tiles lo (hi + size) (⟨hi, size⟩ :: es) := by
  intro a
  rw [cover_cons, tiles a]
  simp only [Extent.Holds, Extent.stop]
  grind

theorem mem_iff (tiles : Tiles lo hi es) (a : ℕ) :
    (lo ≤ a ∧ a < hi) ↔ ∃ e ∈ es, e.Holds a := by
  rw [← cover_pos, tiles a]
  split_ifs with inside
  · simpa using inside
  · simpa using inside

theorem bounds (tiles : Tiles lo hi es) (mem : e ∈ es) (sized : 0 < e.size) :
    lo ≤ e.start ∧ e.stop ≤ hi := by
  have first := (tiles.mem_iff e.start).mpr ⟨e, mem, Extent.holds_start sized⟩
  have last := (tiles.mem_iff (e.stop - 1)).mpr ⟨e, mem, by
    simp only [Extent.Holds, Extent.stop]
    omega⟩
  simp only [Extent.stop] at last ⊢
  omega

/-- Two extents of a tiling have no place in common. -/
theorem apart (tiles : Tiles lo hi (e :: es)) (mem : f ∈ es) (a : ℕ) :
    ¬(e.Holds a ∧ f.Holds a) := by
  rintro ⟨here, there⟩
  have twice : 0 < cover a es := cover_pos.mpr ⟨f, mem, there⟩
  have once := tiles a
  rw [cover_cons, if_pos here] at once
  split_ifs at once
  · omega
  · omega

/-- One of two extents of a tiling ends before the other begins. -/
theorem ordered (tiles : Tiles lo hi (e :: es)) (mem : f ∈ es) (sized : 0 < e.size)
    (sized' : 0 < f.size) : e.stop ≤ f.start ∨ f.stop ≤ e.start := by
  have first := tiles.apart mem e.start
  have second := tiles.apart mem f.start
  simp only [Extent.Holds, Extent.stop] at first second ⊢
  omega

theorem starts_ne (tiles : Tiles lo hi (e :: es)) (mem : f ∈ es) (sized : 0 < e.size)
    (sized' : 0 < f.size) : e.start ≠ f.start := by
  intro same
  have apart := tiles.apart mem e.start
  simp only [Extent.Holds, Extent.stop] at apart
  omega

end Tiles

/-- Cutting an extent in two, or joining two neighbours, covers the same places. -/
theorem cover_join (a start size size' : ℕ) :
    (if Extent.Holds ⟨start, size⟩ a then 1 else 0) +
        (if Extent.Holds ⟨start + size, size'⟩ a then 1 else 0) =
      if Extent.Holds ⟨start, size + size'⟩ a then 1 else 0 := by
  simp only [Extent.Holds, Extent.stop]
  grind

/-- An extent without places. -/
@[simp]
theorem not_holds_empty (start a : ℕ) : ¬Extent.Holds ⟨start, 0⟩ a := by
  simp [Extent.Holds, Extent.stop]

/-! ## Spaced extents -/

/-- The extents ascend, and there is a gap between neighbours. -/
def Spaced (es : List Extent) : Prop := es.Pairwise fun e f => e.stop < f.start

/-- Spaced extents that tile an arena are one extent, or none if the arena is empty. -/
theorem Spaced.eq_of_tiles {lo hi : ℕ} {es : List Extent} (spaced : Spaced es)
    (sized : ∀ e ∈ es, 0 < e.size) (tiles : Tiles lo hi es) :
    hi ≤ lo ∧ es = [] ∨ es = [⟨lo, hi - lo⟩] := by
  rcases es with _ | ⟨e, _ | ⟨f, es⟩⟩
  · left
    refine ⟨?_, rfl⟩
    by_contra nonempty
    rcases (tiles.mem_iff lo).mp ⟨Nat.le_refl lo, by omega⟩ with ⟨e, mem, _⟩
    exact List.not_mem_nil mem
  · right
    rcases e with ⟨start, size⟩
    have sizedFirst : 0 < size := sized _ List.mem_cons_self
    have inside := tiles.bounds List.mem_cons_self sizedFirst
    simp only [Extent.stop] at inside
    have first := (tiles.mem_iff lo).mp ⟨Nat.le_refl lo, by omega⟩
    have last := (tiles.mem_iff (hi - 1)).mp ⟨by omega, by omega⟩
    simp only [List.mem_singleton, exists_eq_left, Extent.Holds, Extent.stop] at first last
    have startEq : start = lo := by omega
    have sizeEq : size = hi - lo := by omega
    rw [startEq, sizeEq]
  · exfalso
    rw [Spaced, List.pairwise_cons] at spaced
    have gap := spaced.1 f List.mem_cons_self
    have sizedFirst := sized e List.mem_cons_self
    have sizedSecond := sized f (by simp)
    have inside := tiles.bounds List.mem_cons_self sizedFirst
    have insideSecond := tiles.bounds (e := f) (by simp) sizedSecond
    -- the place at which the first extent stops is in no extent
    have uncovered := (tiles.mem_iff e.stop).mp (by
      simp only [Extent.stop] at inside insideSecond gap ⊢
      omega)
    rcases uncovered with ⟨g, mem, holds⟩
    rcases List.mem_cons.mp mem with rfl | later
    · simp only [Extent.Holds] at holds
      omega
    · have after := spaced.1 g later
      simp only [Extent.Holds] at holds
      omega

namespace Spaced

variable {es : List Extent} {e f : Extent}

theorem not_holds_stop (spaced : Spaced es) (mem : e ∈ es) (mem' : f ∈ es) :
    ¬f.Holds e.stop := by
  have ahead : es.Pairwise fun e f => ¬f.Holds e.stop := by
    refine List.Pairwise.imp ?_ spaced
    intro e f before
    simp only [Extent.Holds]
    omega
  have behind : es.Pairwise fun e f => ¬e.Holds f.stop := by
    refine List.Pairwise.imp ?_ spaced
    intro e f before
    simp only [Extent.Holds, Extent.stop] at before ⊢
    omega
  have itself : ∀ e ∈ es, ¬e.Holds e.stop := by
    intro e _
    simp [Extent.Holds]
  exact ahead.forall_of_forall_of_flip itself behind mem mem'

theorem start_lt (spaced : Spaced (e :: es)) (mem : f ∈ es) : e.start < f.start := by
  have before := (List.pairwise_cons.mp spaced).1 f mem
  simp only [Extent.stop] at before
  omega

/-- The extents on either side of a place at which none of them starts. -/
theorem exists_split (spaced : Spaced (e :: es)) {a : ℕ} (after : e.start < a)
    (free : ∀ f ∈ es, f.start ≠ a) :
    ∃ front f back, e :: es = front ++ f :: back ∧ f.start < a ∧ ∀ b ∈ back, a < b.start := by
  induction es generalizing e with
  | nil => exact ⟨[], e, [], rfl, after, by simp⟩
  | cons f es ih =>
      rw [Spaced, List.pairwise_cons] at spaced
      have different := free f List.mem_cons_self
      rcases Nat.lt_or_ge f.start a with before | behind
      · rcases ih spaced.2 before fun g mem => free g (List.mem_cons_of_mem f mem) with
          ⟨front, g, back, split, below, above⟩
        exact ⟨e :: front, g, back, by rw [split, List.cons_append], below, above⟩
      · refine ⟨[], e, f :: es, rfl, after, ?_⟩
        intro b mem
        rcases List.mem_cons.mp mem with rfl | later
        · omega
        · have further := start_lt spaced.2 later
          omega

theorem stops_nodup (spaced : Spaced es) : (es.map Extent.stop).Nodup := by
  rw [List.Nodup, List.pairwise_map]
  refine List.Pairwise.imp ?_ spaced
  intro e f before
  simp only [Extent.stop] at before ⊢
  omega

/-- An extent makes way for others inside it. -/
theorem replace {mid fs : List Extent} (spaced : Spaced (es ++ e :: fs)) (spacedMid : Spaced mid)
    (inside : ∀ f ∈ mid, e.start ≤ f.start ∧ f.stop ≤ e.stop) : Spaced (es ++ (mid ++ fs)) := by
  rw [Spaced, List.pairwise_append, List.pairwise_cons] at spaced
  refine List.pairwise_append.mpr ⟨spaced.1, List.pairwise_append.mpr ⟨spacedMid, ?_, ?_⟩, ?_⟩
  · exact spaced.2.1.2
  · intro f mem g later
    have within := inside f mem
    have above := spaced.2.1.1 g later
    omega
  · intro f mem g later
    rcases List.mem_append.mp later with memMid | memFs
    · have within := inside g memMid
      have below := spaced.2.2 f mem e List.mem_cons_self
      omega
    · exact spaced.2.2 f mem g (List.mem_cons_of_mem e memFs)

end Spaced

/-- Behind every spaced extent but the last one, one of the others begins. -/
theorem Tiles.next_start {lo hi : ℕ} {e : Extent} {es fs : List Extent}
    (tiles : Tiles lo hi (es ++ fs)) (spaced : Spaced es) (sized : ∀ e ∈ es, 0 < e.size)
    (mem : e ∈ es.dropLast) : ∃ g ∈ fs, g.start = e.stop := by
  have nonempty : es ≠ [] := by
    rintro rfl
    simp at mem
  have memFree : e ∈ es := List.dropLast_subset es mem
  have gap : e.stop < (es.getLast nonempty).start := by
    have split := List.dropLast_append_getLast nonempty
    rw [Spaced, ← split, List.pairwise_append] at spaced
    exact spaced.2.2 e mem _ (by simp)
  have lastMem := List.getLast_mem nonempty
  have inside := tiles.bounds (List.mem_append_left fs memFree) (sized e memFree)
  have insideLast := tiles.bounds (List.mem_append_left fs lastMem) (sized _ lastMem)
  have covered := (tiles.mem_iff e.stop).mp (by
    simp only [Extent.stop] at inside insideLast gap ⊢
    omega)
  rcases covered with ⟨g, memBlock, holds⟩
  rcases List.mem_append.mp memBlock with memFree' | memOther
  · exact absurd holds (spaced.not_holds_stop memFree memFree')
  · refine ⟨g, memOther, ?_⟩
    -- the two have no place in common, in particular not the last one of the first
    have parted := tiles.perm ((List.perm_cons_erase memFree).append_right fs)
    have apart := parted.apart (List.mem_append_right _ memOther) (e.stop - 1)
    have positive := sized e memFree
    simp only [Extent.Holds, Extent.stop] at apart holds ⊢
    omega

/-- There is at most one spaced extent more than there are others. -/
theorem Tiles.length_le {lo hi : ℕ} {es fs : List Extent} (tiles : Tiles lo hi (es ++ fs))
    (spaced : Spaced es) (sized : ∀ e ∈ es, 0 < e.size) : es.length ≤ fs.length + 1 := by
  have distinct : (es.dropLast.map Extent.stop).Nodup :=
    spaced.stops_nodup.sublist ((List.dropLast_sublist es).map Extent.stop)
  have among : es.dropLast.map Extent.stop ⊆ fs.map Extent.start := by
    intro a mem
    rcases List.mem_map.mp mem with ⟨e, memFree, rfl⟩
    rcases tiles.next_start spaced sized memFree with ⟨g, memOther, same⟩
    exact List.mem_map.mpr ⟨g, memOther, same⟩
  have shorter := (distinct.subperm among).length_le
  simp only [List.length_map, List.length_dropLast] at shorter
  omega

/-! ## Threads -/

/-- The start of the first extent, or what stands behind the last one. -/
def first (last : ℕ) : List Extent → ℕ
  | [] => last
  | e :: _ => e.start

/-- The records at the starts of the extents hold their sizes and lead from one to the next. -/
def Threaded (next size : ℕ → ℕ) (last : ℕ) : List Extent → Prop
  | [] => True
  | e :: es => next e.start = first last es ∧ size e.start = e.size ∧ Threaded next size last es

/-- The start of the last extent, or what stands before the first one. -/
def lastStart (before : ℕ) : List Extent → ℕ
  | [] => before
  | e :: es => lastStart e.start es

@[simp]
theorem first_append (last : ℕ) (es fs : List Extent) :
    first last (es ++ fs) = first (first last fs) es := by
  cases es with
  | nil => rfl
  | cons e es => rfl

theorem lastStart_append (before : ℕ) (es fs : List Extent) :
    lastStart before (es ++ fs) = lastStart (lastStart before es) fs := by
  induction es generalizing before with
  | nil => rfl
  | cons e es ih => exact ih e.start

theorem exists_lastStart (e : Extent) (es : List Extent) :
    ∃ f ∈ e :: es, f.start = lastStart e.start es := by
  induction es generalizing e with
  | nil => exact ⟨e, List.mem_cons_self, rfl⟩
  | cons g es ih =>
      rcases ih g with ⟨f, mem, same⟩
      exact ⟨f, List.mem_cons_of_mem e mem, same⟩

theorem threaded_append {next size : ℕ → ℕ} {last : ℕ} {es fs : List Extent} :
    Threaded next size last (es ++ fs) ↔
      Threaded next size (first last fs) es ∧ Threaded next size last fs := by
  induction es with
  | nil => simp [Threaded]
  | cons e es ih => simp [Threaded, ih, and_assoc]

/-- A thread depends on the records of its extents only. -/
theorem Threaded.congr {next size next' size' : ℕ → ℕ} {last : ℕ} {es : List Extent}
    (threaded : Threaded next size last es)
    (same : ∀ e ∈ es, next' e.start = next e.start ∧ size' e.start = size e.start) :
    Threaded next' size' last es := by
  induction es with
  | nil => trivial
  | cons e es ih =>
      have here := same e List.mem_cons_self
      refine ⟨here.1.trans threaded.1, here.2.trans threaded.2.1, ?_⟩
      exact ih threaded.2.2 fun f mem => same f (List.mem_cons_of_mem e mem)

/-- The last record of a thread is made to lead elsewhere. -/
theorem Threaded.retarget {next size : ℕ → ℕ} {last : ℕ} {e : Extent} {es : List Extent}
    (threaded : Threaded next size last (e :: es)) (spaced : Spaced (e :: es)) (last' : ℕ) :
    Threaded (Function.update next (lastStart e.start es) last') size last' (e :: es) := by
  induction es generalizing e with
  | nil => exact ⟨by simp [lastStart, first], threaded.2.1, trivial⟩
  | cons f es ih =>
      rcases exists_lastStart f es with ⟨g, mem, same⟩
      have before := Spaced.start_lt spaced mem
      refine ⟨?_, threaded.2.1, ih threaded.2.2 (List.pairwise_cons.mp spaced).2⟩
      rw [lastStart, Function.update_of_ne (by omega)]
      exact threaded.1

end Arena
