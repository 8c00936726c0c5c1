import Mathlib.Data.Int.Notation
import Mathlib.Logic.Function.Basic
import Osix.Lib.Arena
import Osix.Lib.Transition

/-!
# The storage allocator

`malloc`, `free` and `morecore` of `malloc.c`, with `sbrk` of `brk.c`. Addresses are counted in
headers of eight bytes. The free blocks are a ring in the order of their addresses that begins and
ends at `base`, a block without a unit that lies below the arena.

The program that uses the allocator calls `malloc` and `free` in any order and writes what it likes
into its blocks.
-/

namespace Osix.Malloc

open Arena Transition

/-- The memory as headers, `freep` (`0` for `NULL`) and the program break. -/
structure Heap where
  ptr : ℕ → ℕ
  size : ℕ → ℕ
  freep : ℕ
  brk : ℕ

namespace Heap

def setPtr (h : Heap) (a ptr : ℕ) : Heap := { h with ptr := Function.update h.ptr a ptr }

def setSize (h : Heap) (a size : ℕ) : Heap := { h with size := Function.update h.size a size }

end Heap

/-- `NALLOC`. -/
def nalloc : ℕ := 1024

/-- `(nbytes+sizeof(Header)-1)/sizeof(Header) + 1`, in unsigned arithmetic. -/
def unitsFor (nbytes : ℕ) : ℕ := (nbytes + 7) % 2 ^ 32 / 8 + 1

/-- The argument of `sbrk` is an `int` of bytes. -/
def increment (nu : ℕ) : ℤ := (nu : ℤ).bmod (2 ^ 29)

/-- `sbrk`: the kernel is asked for the new break, unless that is the old one. -/
def sbrk (kernel : ℤ → Bool) (h : Heap) (nu : ℕ) : Option (ℕ × Heap) :=
  if kernel (h.brk + increment nu) = true ∨ increment nu = 0 then
    some (h.brk, { h with brk := (h.brk + increment nu).toNat })
  else none

/-- The loop of `free`: the block before the place of `bp` in the ring. -/
def findPlace (h : Heap) (bp : ℕ) : ℕ → ℕ → Option ℕ
  | 0, _ => none
  | fuel + 1, p =>
      if p < bp ∧ bp < h.ptr p then some p
      else if h.ptr p ≤ p ∧ (p < bp ∨ bp < h.ptr p) then some p
      else findPlace h bp fuel (h.ptr p)

/-- Joins the block to its upper neighbour, or links it to the next free block. -/
def joinUpper (h : Heap) (bp p : ℕ) : Heap :=
  if bp + h.size bp = h.ptr p then
    (h.setSize bp (h.size bp + h.size (h.ptr p))).setPtr bp (h.ptr (h.ptr p))
  else h.setPtr bp (h.ptr p)

/-- Joins the block to its lower neighbour, or links it behind that. -/
def joinLower (h : Heap) (bp p : ℕ) : Heap :=
  if p + h.size p = bp then (h.setSize p (h.size p + h.size bp)).setPtr p (h.ptr bp)
  else h.setPtr p bp

def free (h : Heap) (fuel ap : ℕ) : Option Heap :=
  (findPlace h (ap - 1) fuel h.freep).map fun p =>
    { joinLower (joinUpper h (ap - 1) p) (ap - 1) p with freep := p }

/-- `morecore`, which returns `0` for `NULL`. -/
def morecore (kernel : ℤ → Bool) (h : Heap) (fuel nu : ℕ) : Option (ℕ × Heap) :=
  match sbrk kernel h (max nu nalloc) with
  | none => some (0, h)
  | some (up, h) => (free (h.setSize up (max nu nalloc)) fuel (up + 1)).map fun h => (h.freep, h)

/-- What `malloc` does at a block that is big enough. -/
def take (h : Heap) (nunits prevp p : ℕ) : ℕ × Heap :=
  if h.size p = nunits then (p + 1, { h.setPtr prevp (h.ptr p) with freep := prevp })
  else
    (p + (h.size p - nunits) + 1,
      { (h.setSize p (h.size p - nunits)).setSize (p + (h.size p - nunits)) nunits with
        freep := prevp })

/-- The loop of `malloc`. -/
def mallocLoop (kernel : ℤ → Bool) (nunits : ℕ) : ℕ → Heap → ℕ → ℕ → Option (ℕ × Heap)
  | 0, _, _, _ => none
  | fuel + 1, h, prevp, p =>
      if nunits ≤ h.size p then some (take h nunits prevp p)
      else if p = h.freep then
        match morecore kernel h fuel nunits with
        | none => none
        | some (p, h) => if p = 0 then some (0, h) else mallocLoop kernel nunits fuel h p (h.ptr p)
      else mallocLoop kernel nunits fuel h p (h.ptr p)

/-- `malloc` makes the ring when there is none yet. -/
def started (base : ℕ) (h : Heap) : Heap :=
  if h.freep = 0 then { (h.setPtr base base).setSize base 0 with freep := base } else h

def malloc (base : ℕ) (kernel : ℤ → Bool) (h : Heap) (fuel nbytes : ℕ) : Option (ℕ × Heap) :=
  let h := started base h
  mallocLoop kernel (unitsFor nbytes) fuel h h.freep (h.ptr h.freep)

/-! ## Programs that use the allocator -/

/-- The heap, and the blocks that have been handed out. -/
structure Sys where
  heap : Heap
  live : List Extent

/-- A call of the allocator, or a store of the program into its memory. -/
inductive Act where
  | malloc (kernel : ℤ → Bool) (fuel nbytes : ℕ)
  | free (fuel ap : ℕ)
  | store (a ptr size : ℕ)

def step (base : ℕ) (s : Sys) : Act → Option Sys
  | .malloc kernel fuel nbytes =>
      (malloc base kernel s.heap fuel nbytes).map fun r =>
        ⟨r.2, if r.1 = 0 then s.live else ⟨r.1 - 1, unitsFor nbytes⟩ :: s.live⟩
  | .free fuel ap =>
      (free s.heap fuel ap).map fun heap =>
        ⟨heap, s.live.eraseP fun b => decide (b.start + 1 = ap)⟩
  | .store a ptr size => some ⟨(s.heap.setPtr a ptr).setSize a size, s.live⟩

/-- The program asks for less than 2 GiB, frees what it was given and writes into its blocks. -/
def Proper (s : Sys) : Act → Prop
  | .malloc _ _ nbytes => nbytes + 16 ≤ 2 ^ 31
  | .free _ ap => ∃ b ∈ s.live, b.start + 1 = ap
  | .store a _ _ => ∃ b ∈ s.live, b.start < a ∧ a < b.stop

/-- Nothing has been asked for yet, and the arena is empty. -/
def Fresh (lo : ℕ) (s : Sys) : Prop := s.heap.freep = 0 ∧ s.heap.brk = lo ∧ s.live = []

/-- The free blocks, in the order of the ring behind `base`. -/
structure FreeList (base : ℕ) (h : Heap) (free : List Extent) : Prop where
  threaded : Threaded h.ptr h.size base (⟨base, 0⟩ :: free)
  freep : ∃ b ∈ (⟨base, 0⟩ : Extent) :: free, b.start = h.freep

/-- The free blocks ascend with gaps between them, they and the blocks of the program make up the
arena, and the headers of the program's blocks hold their sizes. -/
structure Sound (base lo : ℕ) (h : Heap) (live free : List Extent) : Prop where
  list : FreeList base h free
  spaced : Spaced (⟨base, 0⟩ :: free)
  sized : ∀ b ∈ free ++ live, 0 < b.size
  tiles : Tiles lo h.brk (free ++ live)
  kept : ∀ b ∈ live, h.size b.start = b.size
  ordered : 0 < base ∧ base < lo ∧ lo ≤ h.brk

/-! ## Looking for the place of a block -/

section FindPlace

variable {base bp : ℕ} {h : Heap} {P : Extent} {es back : List Extent}

/-- From a block below the place, the walk goes up to the place. -/
theorem findPlace_up (fuel : ℕ)
    (threaded : Threaded h.ptr h.size base (es ++ P :: back))
    (spaced : Spaced (es ++ P :: back)) (before : P.start < bp)
    (behind : ∀ b ∈ back, bp < b.start) (wraps : base ≤ P.start) :
    findPlace h bp (fuel + es.length + 1) (first base (es ++ P :: back)) = some P.start := by
  induction es with
  | nil =>
      rw [List.nil_append, Threaded] at threaded
      cases back with
      | nil =>
          have next : h.ptr P.start = base := threaded.1
          simp only [List.nil_append, first, findPlace, next, List.length_nil, Nat.add_zero]
          rw [if_neg (by omega), if_pos (by omega)]
      | cons b back =>
          have next : h.ptr P.start = b.start := threaded.1
          have above := behind b List.mem_cons_self
          simp only [List.nil_append, first, findPlace, next, List.length_nil, Nat.add_zero]
          rw [if_pos ⟨before, above⟩]
  | cons Q es ih =>
      rw [List.cons_append] at threaded spaced
      rw [Spaced, List.pairwise_cons] at spaced
      have next : h.ptr Q.start = first base (es ++ P :: back) := threaded.1
      have up : Q.start < first base (es ++ P :: back) ∧ first base (es ++ P :: back) < bp := by
        cases es with
        | nil =>
            have above := spaced.1 P (by simp)
            simp only [List.nil_append, first, Extent.stop] at above ⊢
            omega
        | cons R es =>
            have above := spaced.1 R (by simp)
            have below := Spaced.start_lt (f := P) spaced.2 (by simp)
            simp only [List.cons_append, first, Extent.stop] at above ⊢
            omega
      have rest := ih threaded.2.2 spaced.2
      rw [List.length_cons, ← Nat.add_assoc, List.cons_append, first, findPlace, next,
        if_neg (by omega), if_neg (by omega)]
      exact rest

/-- From a block above the place, the walk goes on to the end of the ring. -/
theorem findPlace_around (fuel : ℕ) (threaded : Threaded h.ptr h.size base es)
    (spaced : Spaced es) (above : ∀ b ∈ es, bp < b.start) (below : base < bp) :
    findPlace h bp (fuel + es.length) (first base es) = findPlace h bp fuel base := by
  induction es with
  | nil => rfl
  | cons Q es ih =>
      rw [Spaced, List.pairwise_cons] at spaced
      have next : h.ptr Q.start = first base es := threaded.1
      have high := above Q List.mem_cons_self
      have apart : first base es = base ∨ Q.start < first base es := by
        cases es with
        | nil => exact Or.inl rfl
        | cons R es =>
            right
            have later := spaced.1 R List.mem_cons_self
            simp only [first, Extent.stop] at later ⊢
            omega
      have rest := ih threaded.2.2 spaced.2 fun b mem => above b (List.mem_cons_of_mem Q mem)
      rw [List.length_cons, ← Nat.add_assoc, first, findPlace, next, if_neg (by omega),
        if_neg (by omega)]
      exact rest

/-- The loop of `free` ends at the last free block below the block, wherever it starts. -/
theorem findPlace_eq {fuel : ℕ} {front free : List Extent}
    (ring : (⟨base, 0⟩ : Extent) :: free = front ++ P :: back) (list : FreeList base h free)
    (spaced : Spaced (⟨base, 0⟩ :: free)) (before : P.start < bp)
    (behind : ∀ b ∈ back, bp < b.start) (enough : 2 * free.length + 2 ≤ fuel) :
    findPlace h bp fuel h.freep = some P.start := by
  have wraps : base ≤ P.start := by
    cases front with
    | nil =>
        rw [List.nil_append, List.cons.injEq] at ring
        exact Nat.le_of_eq (congrArg Extent.start ring.1)
    | cons Q front =>
        rw [List.cons_append, List.cons.injEq] at ring
        have above := Spaced.start_lt (f := P) spaced (by rw [ring.2]; simp)
        exact Nat.le_of_lt above
  have lengths : free.length = front.length + back.length := by
    have same := congrArg List.length ring
    simp only [List.length_cons, List.length_append] at same
    omega
  rcases list with ⟨threaded, F, memF, start⟩
  have fromBase : ∀ fuel, front.length < fuel → findPlace h bp fuel base = some P.start := by
    intro fuel enough
    rcases Nat.exists_eq_add_of_lt enough with ⟨more, rfl⟩
    have up := findPlace_up more (ring ▸ threaded) (ring ▸ spaced) before behind wraps
    rw [← ring, first, Nat.add_comm more] at up
    exact up
  rw [← start]
  rw [ring, List.mem_append, List.mem_cons] at memF
  rw [ring] at threaded spaced
  rcases memF with memFront | rfl | memBack
  · rcases List.append_of_mem memFront with ⟨pre, mid, rfl⟩
    rw [List.append_assoc] at threaded spaced
    have up := findPlace_up (fuel - mid.length - 2) (threaded_append.mp threaded).2
      (List.pairwise_append.mp spaced).2.1 before behind wraps
    simp only [List.length_append, List.length_cons] at lengths
    have same : fuel - mid.length - 2 + (F :: mid).length + 1 = fuel := by
      simp only [List.length_cons]
      omega
    rwa [same] at up
  · have here : Threaded h.ptr h.size base ([] ++ F :: back) := (threaded_append.mp threaded).2
    have up := findPlace_up (fuel - 1) here (List.pairwise_append.mp spaced).2.1 before behind
      wraps
    have same : fuel - 1 + ([] : List Extent).length + 1 = fuel := by
      simp only [List.length_nil]
      omega
    rwa [same] at up
  · rcases List.append_of_mem memBack with ⟨pre, mid, rfl⟩
    have tail : front ++ P :: (pre ++ F :: mid) = (front ++ P :: pre) ++ F :: mid := by simp
    rw [tail] at threaded spaced
    simp only [List.length_append, List.length_cons] at lengths
    have below : base < bp := by omega
    have around := findPlace_around (fuel - mid.length - 1) (threaded_append.mp threaded).2
      (List.pairwise_append.mp spaced).2.1
      (fun b mem => behind b (List.mem_append_right pre mem)) below
    have same : fuel - mid.length - 1 + (F :: mid).length = fuel := by
      simp only [List.length_cons]
      omega
    rw [same, first] at around
    rw [around]
    exact fromBase _ (by omega)

end FindPlace

/-! ## Freeing a block -/

/-- The headers at the places other than those are the same. -/
def SameBut (changed : ℕ → Prop) (h h' : Heap) : Prop :=
  h'.brk = h.brk ∧ ∀ a, ¬changed a → h'.ptr a = h.ptr a ∧ h'.size a = h.size a

theorem SameBut.threaded {changed : ℕ → Prop} {h h' : Heap} (same : SameBut changed h h')
    {last : ℕ} {es : List Extent} (threaded : Threaded h.ptr h.size last es)
    (apart : ∀ e ∈ es, ¬changed e.start) : Threaded h'.ptr h'.size last es :=
  threaded.congr fun e mem => same.2 e.start (apart e mem)

section Join

variable {base bp n : ℕ} {h : Heap} {P N : Extent} {back rest : List Extent}

theorem joinUpper_same (h : Heap) (bp p : ℕ) : SameBut (· = bp) h (joinUpper h bp p) := by
  unfold joinUpper
  split_ifs <;>
    exact ⟨rfl, fun a away => by simp [Heap.setPtr, Heap.setSize, Function.update_of_ne away]⟩

theorem joinLower_same (h : Heap) (bp p : ℕ) : SameBut (· = p) h (joinLower h bp p) := by
  unfold joinLower
  split_ifs <;>
    exact ⟨rfl, fun a away => by simp [Heap.setPtr, Heap.setSize, Function.update_of_ne away]⟩

/-- The block, joined to its upper neighbour if that is free, is threaded before the free blocks
above it. -/
theorem joinUpper_threaded (threaded : Threaded h.ptr h.size base (P :: back))
    (size : h.size bp = n) (spaced : Spaced back) (above : ∀ b ∈ back, bp + n ≤ b.start)
    (below : base < bp) (sized : 0 < n) :
    ∃ N rest, N.start = bp ∧ n ≤ N.size ∧ (∀ b ∈ rest, b ∈ back) ∧
      (∀ a, cover a (N :: rest) = cover a (⟨bp, n⟩ :: back)) ∧ Spaced (N :: rest) ∧
      Threaded (joinUpper h bp P.start).ptr (joinUpper h bp P.start).size base (N :: rest) := by
  have next : h.ptr P.start = first base back := threaded.1
  have same := joinUpper_same h bp P.start
  have apart : ∀ b ∈ back, b.start ≠ bp := by
    intro b mem
    have higher := above b mem
    omega
  have kept := same.threaded threaded.2.2 apart
  by_cases joins : bp + n = h.ptr P.start
  · cases back with
    | nil =>
        rw [next, first] at joins
        omega
    | cons U back =>
        rw [next, first] at joins
        have upper : h.ptr U.start = first base back ∧ h.size U.start = U.size :=
          ⟨threaded.2.2.1, threaded.2.2.2.1⟩
        rw [Spaced, List.pairwise_cons] at spaced
        refine ⟨⟨bp, n + U.size⟩, back, rfl, Nat.le_add_right n U.size,
          fun b mem => List.mem_cons_of_mem U mem, ?_, ?_, ?_⟩
        · intro a
          have joined := cover_join a bp n U.size
          rw [joins] at joined
          simp only [cover_cons]
          rw [← joined]
          exact Nat.add_assoc _ _ _
        · refine List.pairwise_cons.mpr ⟨?_, spaced.2⟩
          intro b mem
          have later := spaced.1 b mem
          simp only [Extent.stop] at later ⊢
          omega
        · refine ⟨?_, ?_, kept.2.2⟩
          · simp [joinUpper, size, next, first, joins, Heap.setPtr, Heap.setSize, upper.1]
          · simp [joinUpper, size, next, first, joins, Heap.setPtr, Heap.setSize, upper.2]
  · refine ⟨⟨bp, n⟩, back, rfl, Nat.le_refl n, fun b mem => mem, fun a => rfl, ?_, ?_, ?_, kept⟩
    · refine List.pairwise_cons.mpr ⟨?_, spaced⟩
      intro b mem
      -- the first free block above does not begin where the block ends, the others are behind it
      cases back with
      | nil => simp at mem
      | cons U back =>
          rw [next, first] at joins
          have upper := above U List.mem_cons_self
          rcases List.mem_cons.mp mem with rfl | later
          · simp only [Extent.stop]
            omega
          · have behind := Spaced.start_lt spaced later
            simp only [Extent.stop]
            omega
    · rw [next] at joins
      simp [joinUpper, size, joins, Heap.setPtr, next]
    · simp [joinUpper, size, joins, Heap.setPtr]

/-- The free block below, joined to the block if they are neighbours. -/
theorem joinLower_threaded {p : ℕ} (threaded : Threaded h.ptr h.size base (N :: rest))
    (start : N.start = bp) (size : h.size P.start = P.size) (below : P.stop ≤ bp)
    (apart : P.start < bp) (spaced : Spaced (N :: rest)) (isP : p = P.start) :
    ∃ P' rest', P'.start = P.start ∧ P.size ≤ P'.size ∧ (P.stop ≠ bp → P' = P) ∧
      (∃ b ∈ P' :: rest', N.size ≤ b.size) ∧ (∀ b ∈ rest', b ∈ N :: rest) ∧
      (∀ a, cover a (P' :: rest') = cover a (P :: N :: rest)) ∧ Spaced (P' :: rest') ∧
      Threaded (joinLower h bp p).ptr (joinLower h bp p).size base (P' :: rest') := by
  subst isP
  have same := joinLower_same h bp P.start
  have away : ∀ b ∈ N :: rest, b.start ≠ P.start := by
    intro b mem
    rcases List.mem_cons.mp mem with rfl | later
    · omega
    · have behind := Spaced.start_lt spaced later
      omega
  have kept := same.threaded threaded away
  have header : h.ptr bp = first base rest ∧ h.size bp = N.size := by
    rw [← start]
    exact ⟨threaded.1, threaded.2.1⟩
  have further := List.pairwise_cons.mp spaced
  by_cases joins : P.start + P.size = bp
  · refine ⟨⟨P.start, P.size + N.size⟩, rest, rfl, Nat.le_add_right _ _, ?_, ?_,
      fun b mem => List.mem_cons_of_mem N mem, ?_, ?_, ?_, ?_, kept.2.2⟩
    · intro different
      exact absurd joins different
    · exact ⟨_, List.mem_cons_self, Nat.le_add_left N.size P.size⟩
    · intro a
      have joined := cover_join a P.start P.size N.size
      rw [joins, ← start] at joined
      simp only [cover_cons]
      rw [← joined]
      exact Nat.add_assoc _ _ _
    · refine List.pairwise_cons.mpr ⟨?_, further.2⟩
      intro b mem
      have later := further.1 b mem
      simp only [Extent.stop] at later ⊢
      omega
    · simp [joinLower, size, joins, Heap.setPtr, Heap.setSize, header.1, first]
    · simp [joinLower, size, joins, Heap.setPtr, Heap.setSize, header.2]
  · refine ⟨P, N :: rest, rfl, Nat.le_refl _, fun _ => rfl, ⟨N, by simp, Nat.le_refl _⟩,
      fun b mem => mem, fun a => rfl, ?_, ?_, ?_, kept⟩
    · refine List.pairwise_cons.mpr ⟨?_, spaced⟩
      intro b mem
      simp only [Extent.stop] at below ⊢
      rcases List.mem_cons.mp mem with rfl | later
      · omega
      · have behind := Spaced.start_lt spaced later
        omega
    · simp [joinLower, size, joins, Heap.setPtr, first, start]
    · simp [joinLower, size, joins, Heap.setPtr]

end Join

/-- The contents of the extents stay as they are. -/
def KeepsData (es : List Extent) (h h' : Heap) : Prop :=
  ∀ e ∈ es, ∀ a, e.Holds a → h'.ptr a = h.ptr a ∧ h'.size a = h.size a

section Sound

variable {base lo : ℕ} {h : Heap} {live free : List Extent}

theorem Sound.head_lt (sound : Sound base lo h live free) {b : Extent} (mem : b ∈ free ++ live) :
    base < b.start ∧ lo ≤ b.start := by
  have inside := sound.tiles.bounds mem (sound.sized b mem)
  have ordered := sound.ordered
  exact ⟨by omega, inside.1⟩

/-- There is at most one free block more than the program has blocks. -/
theorem Sound.length_le (sound : Sound base lo h live free) : free.length ≤ live.length + 1 := by
  apply sound.tiles.length_le (List.pairwise_cons.mp sound.spaced).2
  exact fun b mem => sound.sized b (List.mem_append_left live mem)

/-! ### Freeing -/

variable {live' front back rest free' : List Extent} {L P P' : Extent} {h' : Heap}

theorem Sound.tiles_cons (sound : Sound base lo h live free) (perm : live.Perm (L :: live')) :
    Tiles lo h.brk (L :: (free ++ live')) :=
  sound.tiles.perm ((perm.append_left free).trans List.perm_middle)

theorem Sound.sized_rest (sound : Sound base lo h live free) (perm : live.Perm (L :: live')) :
    ∀ b ∈ free ++ live', 0 < b.size := by
  intro b mem
  apply sound.sized b
  rcases List.mem_append.mp mem with memFree | memLive
  · exact List.mem_append_left live memFree
  · exact List.mem_append_right free (perm.mem_iff.mpr (List.mem_cons_of_mem L memLive))

/-- The place of the block `L` in the ring: behind `P` and in front of the blocks of `back`. -/
structure Place (base : ℕ) (free front back : List Extent) (P L : Extent) : Prop where
  ring : ⟨base, 0⟩ :: free = front ++ P :: back
  before : P.start < L.start
  below : P.stop ≤ L.start
  behind : ∀ b ∈ back, L.start < b.start
  above : ∀ b ∈ back, L.start + L.size ≤ b.start
  member : P = ⟨base, 0⟩ ∨ P ∈ free
  backFree : ∀ b ∈ back, b ∈ free

/-- A block of the program has a place in the ring. -/
theorem Sound.exists_place (sound : Sound base lo h live free)
    (perm : live.Perm (L :: live')) : ∃ front P back, Place base free front back P L := by
  have memL : L ∈ live := perm.mem_iff.mpr List.mem_cons_self
  have tiles := sound.tiles_cons perm
  have sized := sound.sized_rest perm
  have sizedL := sound.sized L (List.mem_append_right free memL)
  have low := sound.head_lt (List.mem_append_right free memL)
  rcases sound.spaced.exists_split low.1 (fun f mem =>
      (tiles.starts_ne (List.mem_append_left live' mem) sizedL
        (sized f (List.mem_append_left live' mem))).symm) with
    ⟨front, P, back, ring, before, behind⟩
  have inFree : ∀ b, b ∈ front ++ P :: back → b ≠ ⟨base, 0⟩ → b ∈ free := by
    intro b mem other
    rw [← ring, List.mem_cons] at mem
    exact mem.resolve_left other
  have backFree : ∀ b ∈ back, b ∈ free := by
    intro b mem
    apply inFree b (by simp [mem])
    rintro rfl
    have higher := behind _ mem
    simp only at higher
    omega
  have member : P = ⟨base, 0⟩ ∨ P ∈ free := by
    by_cases isBase : P = ⟨base, 0⟩
    · exact Or.inl isBase
    · exact Or.inr (inFree P (by simp) isBase)
  refine ⟨front, P, back, ring, before, ?_, behind, ?_, member, backFree⟩
  · rcases member with rfl | memFree
    · exact Nat.le_of_lt before
    · have memFree := List.mem_append_left live' memFree
      have apart := tiles.ordered memFree sizedL (sized P memFree)
      simp only [Extent.stop] at apart ⊢
      omega
  · intro b mem
    have memFree := List.mem_append_left live' (backFree b mem)
    have apart := tiles.ordered memFree sizedL (sized b memFree)
    have higher := behind b mem
    simp only [Extent.stop] at apart
    omega

/--
What the two joins leave of a ring into which `L` has been put behind `P`: `P'` is in the place
of `P`, and the free blocks are those of `free'`.
-/
structure Joined (base : ℕ) (h h' : Heap) (free free' front rest : List Extent)
    (L P P' : Extent) : Prop where
  ring : ⟨base, 0⟩ :: free' = front ++ P' :: rest
  start : P'.start = P.start
  spaced : Spaced (P' :: rest)
  threaded : Threaded h'.ptr h'.size base (P' :: rest)
  sized : ∀ b ∈ free', 0 < b.size
  cover : ∀ a, cover a free' = cover a (L :: free)
  big : ∃ b ∈ free', L.size ≤ b.size
  brk : h'.brk = h.brk
  data : ∀ a, a ≠ L.start → a ≠ P.start → h'.ptr a = h.ptr a ∧ h'.size a = h.size a

/-- The block is joined to the free block above, the free block below to both. -/
theorem Place.joined (place : Place base free front back P L)
    (threaded : Threaded h.ptr h.size base (P :: back)) (spaced : Spaced (P :: back))
    (header : h.size L.start = L.size) (low : base < L.start) (sizedL : 0 < L.size)
    (sized : ∀ b ∈ free, 0 < b.size) :
    ∃ free' rest P', Joined base h (joinLower (joinUpper h L.start P.start) L.start P.start)
      free free' front rest L P P' := by
  have before := place.before
  rcases joinUpper_threaded threaded header (List.pairwise_cons.mp spaced).2 place.above low
    sizedL with ⟨N, rest, startN, sizeN, restBack, coverN, spacedN, threadedN⟩
  have same := joinUpper_same h L.start P.start
  have sizeP : (joinUpper h L.start P.start).size P.start = P.size := by
    rw [(same.2 P.start (by omega)).2]
    exact threaded.2.1
  rcases joinLower_threaded (p := P.start) threadedN startN sizeP place.below before spacedN rfl
    with ⟨P', rest', startP', growsP', stillP', bigP', restN, coverP', spacedP', threadedP'⟩
  have same' := joinLower_same (joinUpper h L.start P.start) L.start P.start
  have ring := place.ring
  -- the base has no size, so nothing is joined to it and the ring still begins with it
  have newRing : ∃ free', front ++ P' :: rest' = ⟨base, 0⟩ :: free' ∧
      ∀ b ∈ free', b ∈ free ∨ b = P' ∧ P ∈ free ∨ b ∈ N :: rest := by
    cases front with
    | nil =>
        rw [List.nil_append, List.cons.injEq] at ring
        have still := stillP' (by rw [← ring.1]; simp only [Extent.stop]; omega)
        refine ⟨rest', by rw [List.nil_append, still, ring.1], ?_⟩
        exact fun b mem => Or.inr (Or.inr (restN b mem))
    | cons Q front =>
        rw [List.cons_append, List.cons.injEq] at ring
        refine ⟨front ++ P' :: rest', by rw [List.cons_append, ring.1], ?_⟩
        intro b mem
        rw [List.mem_append, List.mem_cons] at mem
        rcases mem with memFront | rfl | memRest
        · exact Or.inl (by rw [ring.2]; exact List.mem_append_left _ memFront)
        · exact Or.inr (Or.inl ⟨rfl, by rw [ring.2]; simp⟩)
        · exact Or.inr (Or.inr (restN b memRest))
  rcases newRing with ⟨free', ring', mem'⟩
  refine ⟨free', rest', P', ring'.symm, startP', spacedP', threadedP', ?_, ?_, ?_,
    same'.1.trans same.1, ?_⟩
  · intro b mem
    rcases mem' b mem with old | ⟨rfl, memP⟩ | new
    · exact sized b old
    · exact Nat.lt_of_lt_of_le (sized P memP) growsP'
    · rcases List.mem_cons.mp new with rfl | later
      · omega
      · exact sized b (place.backFree b (restBack b later))
  · intro a
    have first := congrArg (cover a) ring'
    have second := congrArg (cover a) place.ring
    have third := coverP' a
    have fourth : cover a (N :: rest) = cover a (L :: back) := coverN a
    simp only [cover_append, cover_cons, not_holds_empty, if_false, Nat.zero_add] at *
    omega
  · rcases bigP' with ⟨b, mem, big⟩
    have memRing : b ∈ (⟨base, 0⟩ : Extent) :: free' := by
      rw [← ring']
      exact List.mem_append_right front mem
    refine ⟨b, ?_, Nat.le_trans sizeN big⟩
    rcases List.mem_cons.mp memRing with rfl | memFree
    · simp only at big
      omega
    · exact memFree
  · intro a notL notP
    have one := same.2 a notL
    have two := same'.2 a notP
    exact ⟨two.1.trans one.1, two.2.trans one.2⟩

/-- The joins write to the headers of free blocks only. -/
theorem Joined.keeps (joined : Joined base h h' free free' front rest L P P')
    (sound : Sound base lo h live free) (perm : live.Perm (L :: live'))
    (member : P = ⟨base, 0⟩ ∨ P ∈ free) : KeepsData live' h { h' with freep := P.start } := by
  intro b mem a holds
  have memL : L ∈ live := perm.mem_iff.mpr List.mem_cons_self
  have memLive := perm.mem_iff.mpr (List.mem_cons_of_mem L mem)
  have sizedL := sound.sized L (List.mem_append_right free memL)
  have apartL := (sound.tiles_cons perm).apart (List.mem_append_right free mem) a
  apply joined.data a
  · rintro rfl
    exact apartL ⟨Extent.holds_start sizedL, holds⟩
  · rintro rfl
    rcases member with rfl | memFree
    · have higher := sound.head_lt (List.mem_append_right free memLive)
      simp only [Extent.Holds] at holds
      omega
    · have parted := sound.tiles.perm ((List.perm_cons_erase memFree).append_right live)
      have apart := parted.apart (List.mem_append_right _ memLive) P.start
      have sizedP := sound.sized P (List.mem_append_left live memFree)
      exact apart ⟨Extent.holds_start sizedP, holds⟩

/-- The free list with the block on it. -/
theorem Joined.freeList (joined : Joined base h h' free free' front rest L P P')
    (place : Place base free front back P L)
    (threaded : Threaded h.ptr h.size (first base (P :: back)) front)
    (lower : ∀ e ∈ front, e.stop < P.start) :
    FreeList base { h' with freep := P.start } free' := by
  refine ⟨?_, P', ?_, joined.start⟩
  · rw [joined.ring]
    refine threaded_append.mpr ⟨?_, joined.threaded⟩
    rw [first, joined.start]
    rw [first] at threaded
    refine threaded.congr ?_
    intro e mem
    have before := place.before
    have lowerE := lower e mem
    simp only [Extent.stop] at lowerE
    exact joined.data e.start (by omega) (by omega)
  · rw [joined.ring]
    exact List.mem_append_right front List.mem_cons_self

/-- The ring with the block in it is spaced. -/
theorem Joined.spaced_ring (joined : Joined base h h' free free' front rest L P P')
    (spaced : Spaced front) (lower : ∀ e ∈ front, e.stop < P.start) :
    Spaced (⟨base, 0⟩ :: free') := by
  rw [joined.ring]
  refine List.pairwise_append.mpr ⟨spaced, joined.spaced, ?_⟩
  intro e mem f memTail
  have isStart := joined.start
  have lowerE := lower e mem
  rcases List.mem_cons.mp memTail with rfl | later
  · omega
  · have higher := Spaced.start_lt joined.spaced later
    omega

/-- `free` puts a block of the program back on the list. -/
theorem free_spec {fuel : ℕ}
    (sound : Sound base lo h live free) (perm : live.Perm (L :: live'))
    (enough : 2 * free.length + 2 ≤ fuel) :
    ∃ h' free', Malloc.free h fuel (L.start + 1) = some h' ∧ Sound base lo h' live' free' ∧
      h'.brk = h.brk ∧ h'.freep ≠ 0 ∧ (∃ b ∈ free', L.size ≤ b.size) ∧ KeepsData live' h h' := by
  have memL : L ∈ live := perm.mem_iff.mpr List.mem_cons_self
  have memLive : ∀ b ∈ live', b ∈ live := fun b mem =>
    perm.mem_iff.mpr (List.mem_cons_of_mem L mem)
  have sized := sound.sized_rest perm
  have sizedL := sound.sized L (List.mem_append_right free memL)
  have low := sound.head_lt (List.mem_append_right free memL)
  rcases sound.exists_place perm with ⟨front, P, back, place⟩
  have isPlace := findPlace_eq place.ring sound.list sound.spaced place.before place.behind enough
  have threads := threaded_append.mp (place.ring ▸ sound.list.threaded)
  have spaces := List.pairwise_append.mp (place.ring ▸ sound.spaced)
  have lower : ∀ e ∈ front, e.stop < P.start := fun e mem => spaces.2.2 e mem P List.mem_cons_self
  rcases place.joined threads.2 spaces.2.1 (sound.kept L memL) low.1 sizedL
    (fun b mem => sized b (List.mem_append_left live' mem)) with ⟨free', rest, P', joined⟩
  have keeps := joined.keeps sound perm place.member
  refine ⟨_, free', ?_, ⟨joined.freeList place threads.1 lower, joined.spaced_ring spaces.1 lower,
    ?_, ?_, ?_, ?_⟩, joined.brk, ?_, joined.big, keeps⟩
  · rw [Malloc.free, Nat.add_sub_cancel, isPlace, Option.map_some]
  · intro b mem
    rcases List.mem_append.mp mem with memFree | memRest
    · exact joined.sized b memFree
    · exact sized b (List.mem_append_right free memRest)
  · simp only [joined.brk]
    refine (sound.tiles_cons perm).of_cover fun a => ?_
    rw [cover_append, joined.cover a, cover_cons, cover_cons, cover_append]
    omega
  · intro b mem
    have holds := Extent.holds_start (sized b (List.mem_append_right free mem))
    exact (keeps b mem b.start holds).2.trans (sound.kept b (memLive b mem))
  · simp only [joined.brk]
    exact sound.ordered
  · change P.start ≠ 0
    have ordered := sound.ordered
    rcases place.member with rfl | memFree
    · exact Nat.ne_of_gt ordered.1
    · have higher := sound.head_lt (List.mem_append_left live memFree)
      omega

end Sound

/-! ## Looking for a block that is big enough -/

section Scan

variable {base last n fuel : ℕ} {h : Heap} {free es : List Extent}

/-- The first block that is big enough. -/
theorem first_fit (n : ℕ) (es : List Extent) :
    (∀ b ∈ es, b.size < n) ∨
      ∃ mid X rest, es = mid ++ X :: rest ∧ (∀ b ∈ mid, b.size < n) ∧ n ≤ X.size := by
  induction es with
  | nil => exact Or.inl (by simp)
  | cons e es ih =>
      rcases Nat.lt_or_ge e.size n with small | big
      · rcases ih with none | ⟨mid, X, rest, rfl, before, fits⟩
        · left
          intro b mem
          rcases List.mem_cons.mp mem with rfl | later
          · exact small
          · exact none b later
        · refine Or.inr ⟨e :: mid, X, rest, rfl, ?_, fits⟩
          intro b mem
          rcases List.mem_cons.mp mem with rfl | later
          · exact small
          · exact before b later
      · exact Or.inr ⟨[], e, es, rfl, by simp, big⟩

/-- Blocks that are too small are passed. -/
theorem mallocLoop_skip (kernel : ℤ → Bool) (fuel prevp : ℕ)
    (threaded : Threaded h.ptr h.size last es) (small : ∀ b ∈ es, b.size < n)
    (away : ∀ b ∈ es, b.start ≠ h.freep) :
    mallocLoop kernel n (fuel + es.length) h prevp (first last es) =
      mallocLoop kernel n fuel h (lastStart prevp es) last := by
  induction es generalizing prevp with
  | nil => rfl
  | cons e es ih =>
      have tooSmall := small e List.mem_cons_self
      have other := away e List.mem_cons_self
      have rest := ih e.start threaded.2.2
        (fun b mem => small b (List.mem_cons_of_mem e mem))
        (fun b mem => away b (List.mem_cons_of_mem e mem))
      rw [List.length_cons, ← Nat.add_assoc, first, mallocLoop, threaded.2.1,
        if_neg (by omega), if_neg other, threaded.1]
      exact rest

theorem mallocLoop_take {kernel : ℤ → Bool} {prevp : ℕ} {X : Extent}
    (size : h.size X.start = X.size) (fits : n ≤ X.size) :
    mallocLoop kernel n (fuel + 1) h prevp X.start = some (take h n prevp X.start) := by
  rw [mallocLoop, size, if_pos fits]

/-- One lap around the ring finds the first block that is big enough and the one before it, or
comes back to where it began. -/
theorem mallocLoop_lap (kernel : ℤ → Bool) (list : FreeList base h free)
    (spaced : Spaced (⟨base, 0⟩ :: free)) (positive : 0 < n) (enough : free.length + 1 ≤ fuel) :
    (∃ A X B, free = A ++ X :: B ∧ n ≤ X.size ∧
        mallocLoop kernel n fuel h h.freep (h.ptr h.freep) =
          some (take h n (lastStart base A) X.start)) ∨
      (∀ b ∈ free, b.size < n) ∧ ∃ more prevp, fuel ≤ more + free.length + 1 ∧
        mallocLoop kernel n fuel h h.freep (h.ptr h.freep) =
          mallocLoop kernel n (more + 1) h prevp h.freep := by
  rcases list with ⟨threaded, F, memF, start⟩
  rcases List.append_of_mem memF with ⟨front, back, ring⟩
  have lengths : free.length = front.length + back.length := by
    have same := congrArg List.length ring
    simp only [List.length_cons, List.length_append] at same
    omega
  have threads : Threaded h.ptr h.size F.start front ∧ Threaded h.ptr h.size base (F :: back) :=
    threaded_append.mp (ring ▸ threaded)
  have spaces := List.pairwise_append.mp (ring ▸ spaced)
  have next : h.ptr F.start = first base back := threads.2.1
  have awayBack : ∀ b ∈ back, b.start ≠ h.freep := by
    intro b mem
    have behind := Spaced.start_lt spaces.2.1 mem
    omega
  have awayFront : ∀ b ∈ front, b.start ≠ h.freep := by
    intro b mem
    have before := spaces.2.2 b mem F List.mem_cons_self
    simp only [Extent.stop] at before
    omega
  rw [← start, next]
  rcases first_fit n back with smallBack | ⟨mid, X, rest, rfl, small, fits⟩
  · -- on to the base
    have around : ∀ more, mallocLoop kernel n (more + back.length) h F.start (first base back) =
        mallocLoop kernel n more h (lastStart F.start back) base := fun more =>
      mallocLoop_skip kernel more F.start threads.2.2.2 smallBack awayBack
    have begins : first F.start front = base := by
      have same := congrArg (first base) ring
      rw [first_append, first, first] at same
      exact same.symm
    have fuelEq : fuel = fuel - back.length + back.length := by omega
    rw [fuelEq, around]
    rcases first_fit n front with smallFront | ⟨mid, X, rest, rfl, small, fits⟩
    · have lap := mallocLoop_skip kernel (fuel - back.length - front.length)
        (lastStart F.start back) threads.1 smallFront awayFront
      rw [begins, Nat.sub_add_cancel (by omega)] at lap
      rw [lap]
      have atF : fuel - back.length - front.length =
          fuel - back.length - front.length - 1 + 1 := by omega
      rw [atF]
      rcases Nat.lt_or_ge F.size n with smallF | fits
      · right
        refine ⟨?_, fuel - back.length - front.length - 1,
          lastStart (lastStart F.start back) front, by omega, rfl⟩
        intro b mem
        have memRing : b ∈ front ++ F :: back := by
          rw [← ring]
          exact List.mem_cons_of_mem _ mem
        rcases List.mem_append.mp memRing with memFront | memBack
        · exact smallFront b memFront
        · rcases List.mem_cons.mp memBack with rfl | memBack
          · exact smallF
          · exact smallBack b memBack
      · left
        cases front with
        | nil =>
            rw [List.nil_append, List.cons.injEq] at ring
            rw [← ring.1] at fits
            simp only at fits
            omega
        | cons Q front =>
            rw [List.cons_append, List.cons.injEq] at ring
            refine ⟨front, F, back, ring.2, fits, ?_⟩
            rw [mallocLoop_take threads.2.2.1 fits, lastStart, ← ring.1]
    · left
      cases mid with
      | nil =>
          rw [List.nil_append, List.cons_append, List.cons.injEq] at ring
          rw [← ring.1] at fits
          simp only at fits
          omega
      | cons Q mid =>
          have inner := threaded_append.mp threads.1
          simp only [List.length_append, List.length_cons] at lengths
          have skip := mallocLoop_skip kernel (fuel - back.length - (Q :: mid).length)
            (lastStart F.start back) inner.1 small
            fun b mem => awayFront b (List.mem_append_left _ mem)
          rw [← first_append, begins, Nat.sub_add_cancel (by
            simp only [List.length_cons]
            omega)] at skip
          rw [skip, first]
          have atX : fuel - back.length - (Q :: mid).length =
              fuel - back.length - (Q :: mid).length - 1 + 1 := by
            simp only [List.length_cons]
            omega
          rw [List.append_assoc, List.cons_append, List.cons_append, List.cons.injEq] at ring
          refine ⟨mid, X, rest ++ F :: back, ring.2, fits, ?_⟩
          rw [atX, mallocLoop_take inner.2.2.1 fits, lastStart, ← ring.1]
  · left
    have inner := threaded_append.mp threads.2.2.2
    simp only [List.length_append, List.length_cons] at lengths
    have skip := mallocLoop_skip kernel (fuel - mid.length) F.start inner.1 small
      fun b mem => awayBack b (List.mem_append_left _ mem)
    rw [← first_append, Nat.sub_add_cancel (by omega)] at skip
    rw [skip, first]
    have atX : fuel - mid.length = fuel - mid.length - 1 + 1 := by omega
    cases front with
    | nil =>
        rw [List.nil_append, List.cons.injEq] at ring
        refine ⟨mid, X, rest, ring.2, fits, ?_⟩
        rw [atX, mallocLoop_take inner.2.2.1 fits, ← ring.1]
    | cons Q front =>
        rw [List.cons_append, List.cons.injEq] at ring
        refine ⟨front ++ F :: mid, X, rest, by rw [ring.2]; simp, fits, ?_⟩
        rw [atX, mallocLoop_take inner.2.2.1 fits, lastStart_append, lastStart]

end Scan

/-! ## Taking a block -/

section Take

variable {base lo n : ℕ} {h h' : Heap} {live A B mid : List Extent} {X taken : Extent}

/-- A free block makes way for a block of the program and what is left of it. -/
theorem Sound.replace (sound : Sound base lo h live (A ++ X :: B))
    (threaded : Threaded h'.ptr h'.size base ((⟨base, 0⟩ :: A) ++ (mid ++ B)))
    (freep : h'.freep = lastStart base A) (spacedMid : Spaced mid)
    (inside : ∀ b ∈ mid, X.start ≤ b.start ∧ b.stop ≤ X.stop)
    (sized : ∀ b ∈ taken :: mid, 0 < b.size)
    (covered : ∀ a, cover a (taken :: mid) = cover a [X]) (brk : h'.brk = h.brk)
    (header : h'.size taken.start = taken.size) (keeps : KeepsData live h h') :
    Sound base lo h' (taken :: live) (A ++ (mid ++ B)) := by
  refine ⟨⟨threaded, ?_⟩, ?_, ?_, ?_, ?_, ?_⟩
  · rcases exists_lastStart ⟨base, 0⟩ A with ⟨b, mem, same⟩
    exact ⟨b, List.mem_append_left (mid ++ B) mem, same.trans freep.symm⟩
  · have split : Spaced ((⟨base, 0⟩ :: A) ++ X :: B) := sound.spaced
    exact split.replace spacedMid inside
  · have old := sound.sized
    simp only [List.mem_append, List.mem_cons] at old sized ⊢
    grind
  · rw [brk]
    refine sound.tiles.of_cover fun a => ?_
    have same := covered a
    simp only [cover_append, cover_cons, cover_nil] at same ⊢
    omega
  · intro b mem
    rcases List.mem_cons.mp mem with rfl | memLive
    · exact header
    · have positive := sound.sized b (List.mem_append_right _ memLive)
      exact (keeps b memLive _ (Extent.holds_start positive)).2.trans (sound.kept b memLive)
  · rw [brk]
    exact sound.ordered

/-- The places of a free block belong to no block of the program. -/
theorem Sound.keeps (sound : Sound base lo h live (A ++ X :: B))
    (same : ∀ a, ¬X.Holds a → a ∉ (⟨base, 0⟩ :: A : List Extent).map Extent.start →
      h'.ptr a = h.ptr a ∧ h'.size a = h.size a) : KeepsData live h h' := by
  intro b mem a holds
  have apart : ∀ f ∈ A ++ X :: B, ¬f.Holds a := by
    intro f memFree inFree
    have parted := sound.tiles.perm ((List.perm_cons_erase memFree).append_right live)
    exact parted.apart (List.mem_append_right _ mem) a ⟨inFree, holds⟩
  refine same a (apart X (by simp)) ?_
  intro isStart
  rcases List.mem_map.mp isStart with ⟨f, memF, rfl⟩
  rcases List.mem_cons.mp memF with rfl | memA
  · have low := sound.head_lt (List.mem_append_right _ mem)
    simp only [Extent.Holds] at holds
    omega
  · have memFree : f ∈ A ++ X :: B := List.mem_append_left _ memA
    exact apart f memFree (Extent.holds_start (sound.sized f (List.mem_append_left live memFree)))

/-- What `malloc` takes becomes a block of the program. -/
theorem take_spec (sound : Sound base lo h live (A ++ X :: B)) (fits : n ≤ X.size)
    (positive : 0 < n) :
    (take h n (lastStart base A) X.start).1 ≠ 0 ∧
      (take h n (lastStart base A) X.start).2.brk = h.brk ∧
      KeepsData live h (take h n (lastStart base A) X.start).2 ∧
      ∃ free', Sound base lo (take h n (lastStart base A) X.start).2
        (⟨(take h n (lastStart base A) X.start).1 - 1, n⟩ :: live) free' := by
  have threaded : Threaded h.ptr h.size base ((⟨base, 0⟩ :: A) ++ X :: B) := sound.list.threaded
  have threads := threaded_append.mp threaded
  have spaced : Spaced ((⟨base, 0⟩ :: A) ++ X :: B) := sound.spaced
  have spaces := List.pairwise_append.mp spaced
  have spacesX := List.pairwise_cons.mp spaces.2.1
  have sizeX : h.size X.start = X.size := threads.2.2.1
  have nextX : h.ptr X.start = first base B := threads.2.1
  have below : ∀ e ∈ (⟨base, 0⟩ : Extent) :: A, e.stop < X.start := fun e mem =>
    spaces.2.2 e mem X List.mem_cons_self
  have above : ∀ e ∈ B, X.stop < e.start := spacesX.1
  rcases exists_lastStart ⟨base, 0⟩ A with ⟨Y, memY, startY⟩
  have beforeX := below Y memY
  by_cases exact : X.size = n
  · have taken : take h n (lastStart base A) X.start =
        (X.start + 1, { h.setPtr (lastStart base A) (first base B) with
          freep := lastStart base A }) := by
      rw [take, sizeX, if_pos exact, nextX]
    rw [taken]
    have keeps : KeepsData live h { h.setPtr (lastStart base A) (first base B) with
        freep := lastStart base A } := by
      refine sound.keeps fun a _ notStart => ?_
      have away : a ≠ lastStart base A := by
        rintro rfl
        exact notStart (List.mem_map.mpr ⟨Y, memY, startY⟩)
      exact ⟨Function.update_of_ne away _ _, rfl⟩
    refine ⟨Nat.succ_ne_zero _, rfl, keeps, A ++ ([] ++ B), ?_⟩
    refine sound.replace ?_ ?_ ?_ ?_ ?_ ?_ ?_ ?_ ?_
    · refine threaded_append.mpr ⟨?_, ?_⟩
      · exact threads.1.retarget spaces.1 (first base B)
      · refine threads.2.2.2.congr fun e mem => ⟨Function.update_of_ne ?_ _ _, rfl⟩
        have higher := above e mem
        simp only [Extent.stop] at higher beforeX startY
        omega
    · rfl
    · exact List.Pairwise.nil
    · simp
    · simpa using positive
    · intro a
      rw [Nat.add_sub_cancel, ← exact]
    · rfl
    · simpa [Heap.setPtr, exact] using sizeX
    · exact keeps
  · have taken : take h n (lastStart base A) X.start =
        (X.start + (X.size - n) + 1,
          { (h.setSize X.start (X.size - n)).setSize (X.start + (X.size - n)) n with
            freep := lastStart base A }) := by
      rw [take, sizeX, if_neg exact]
    rw [taken]
    have heldX : ∀ a, X.start ≤ a → a < X.stop → ¬X.Holds a → False := fun a low high none =>
      none ⟨low, high⟩
    have sizes : ∀ a, ¬X.Holds a →
        Function.update (Function.update h.size X.start (X.size - n)) (X.start + (X.size - n)) n a =
          h.size a := by
      intro a outside
      simp only [Extent.Holds, Extent.stop] at outside
      rw [Function.update_of_ne (by omega), Function.update_of_ne (by omega)]
    have keeps : KeepsData live h
        { (h.setSize X.start (X.size - n)).setSize (X.start + (X.size - n)) n with
          freep := lastStart base A } :=
      sound.keeps fun a outside _ => ⟨rfl, sizes a outside⟩
    refine ⟨Nat.succ_ne_zero _, rfl, keeps, A ++ ([⟨X.start, X.size - n⟩] ++ B), ?_⟩
    refine sound.replace ?_ ?_ ?_ ?_ ?_ ?_ ?_ ?_ ?_
    · refine threaded_append.mpr ⟨threads.1.congr fun e mem => ⟨rfl, ?_⟩, nextX, ?_, ?_⟩
      · have lower := below e mem
        apply sizes
        simp only [Extent.Holds, Extent.stop] at lower ⊢
        omega
      · change Function.update (Function.update h.size X.start (X.size - n))
          (X.start + (X.size - n)) n X.start = X.size - n
        rw [Function.update_of_ne (by omega), Function.update_self]
      · refine threads.2.2.2.congr fun e mem => ⟨rfl, sizes _ ?_⟩
        have higher := above e mem
        simp only [Extent.Holds, Extent.stop] at higher ⊢
        omega
    · rfl
    · exact List.pairwise_singleton _ _
    · intro b mem
      rw [List.mem_singleton.mp mem]
      simp only [Extent.stop]
      omega
    · intro b mem
      simp only [List.mem_cons, List.not_mem_nil, or_false] at mem
      rcases mem with rfl | rfl
      · exact positive
      · simp only
        omega
    · intro a
      have joined := cover_join a X.start (X.size - n) n
      have whole : cover a [⟨X.start, X.size⟩] = cover a [X] := rfl
      rw [Nat.sub_add_cancel fits] at joined
      rw [← whole]
      simp only [cover_cons, cover_nil, Nat.add_sub_cancel]
      omega
    · rfl
    · simp [Heap.setSize]
    · exact keeps

end Take

/-! ## The calls -/

section Calls

variable {base lo n nbytes fuel : ℕ} {h : Heap} {live free : List Extent}

theorem unitsFor_eq (proper : nbytes + 16 ≤ 2 ^ 31) : unitsFor nbytes = (nbytes + 7) / 8 + 1 := by
  have small : nbytes + 7 < 2 ^ 32 := by omega
  rw [unitsFor, Nat.mod_eq_of_lt small]

theorem unitsFor_lt (proper : nbytes + 16 ≤ 2 ^ 31) : unitsFor nbytes < 2 ^ 28 := by
  have units := unitsFor_eq proper
  omega

theorem increment_eq {nu : ℕ} (small : nu < 2 ^ 28) : increment nu = nu := by
  apply Int.bmod_eq_of_le_mul_two
  · omega
  · norm_cast
    omega

theorem Sound.freep_ne_zero (sound : Sound base lo h live free) : h.freep ≠ 0 := by
  rcases sound.list.freep with ⟨b, mem, start⟩
  have ordered := sound.ordered
  rcases List.mem_cons.mp mem with rfl | memFree
  · simp only at start
    omega
  · have low := sound.head_lt (List.mem_append_left live memFree)
    omega

/-- The memory that the kernel adds is a block like those of the program. -/
theorem Sound.grow (sound : Sound base lo h live free) (nu : ℕ) (positive : 0 < nu) :
    Sound base lo (Heap.setSize { h with brk := h.brk + nu } h.brk nu) (⟨h.brk, nu⟩ :: live)
      free := by
  have away : ∀ b ∈ free ++ live, b.start ≠ h.brk := by
    intro b mem
    have inside := sound.tiles.bounds mem (sound.sized b mem)
    have sized := sound.sized b mem
    simp only [Extent.stop] at inside
    omega
  have ordered := sound.ordered
  refine ⟨⟨?_, sound.list.freep⟩, sound.spaced, ?_, ?_, ?_, ?_⟩
  · refine sound.list.threaded.congr fun e mem => ⟨rfl, Function.update_of_ne ?_ _ _⟩
    rcases List.mem_cons.mp mem with rfl | memFree
    · simp only
      omega
    · exact away e (List.mem_append_left live memFree)
  · have old := sound.sized
    simp only [List.mem_append, List.mem_cons] at old ⊢
    grind
  · exact (sound.tiles.grow ordered.2.2 nu).perm List.perm_middle.symm
  · intro b mem
    rcases List.mem_cons.mp mem with rfl | memLive
    · exact Function.update_self _ _ _
    · exact (Function.update_of_ne (away b (List.mem_append_right free memLive)) _ _).trans
        (sound.kept b memLive)
  · exact ⟨ordered.1, ordered.2.1, Nat.le_add_right_of_le ordered.2.2⟩

/-- `morecore` adds a block that is big enough to the list, if the kernel has the memory. -/
theorem morecore_spec (kernel : ℤ → Bool) (sound : Sound base lo h live free)
    (positive : 0 < n) (small : n < 2 ^ 28) (enough : 2 * free.length + 2 ≤ fuel) :
    (kernel (h.brk + max n nalloc : ℕ) = false ∧ morecore kernel h fuel n = some (0, h)) ∨
      ∃ h' free', morecore kernel h fuel n = some (h'.freep, h') ∧ Sound base lo h' live free' ∧
        (∃ b ∈ free', n ≤ b.size) ∧ KeepsData live h h' := by
  have bound : max n nalloc < 2 ^ 28 := by
    simp only [nalloc]
    omega
  have request : (h.brk : ℤ) + increment (max n nalloc) = ((h.brk + max n nalloc : ℕ) : ℤ) := by
    rw [increment_eq bound]
    omega
  have notZero : increment (max n nalloc) ≠ 0 := by
    rw [increment_eq bound]
    omega
  cases granted : kernel (h.brk + max n nalloc : ℕ) with
  | false =>
      refine Or.inl ⟨rfl, ?_⟩
      have asked : sbrk kernel h (max n nalloc) = none := by
        rw [sbrk, request, if_neg]
        rintro (yes | zero)
        · rw [granted] at yes
          cases yes
        · exact notZero zero
      rw [morecore, asked]
  | true =>
      right
      have grown := sound.grow (max n nalloc) (by omega)
      rcases free_spec grown (List.Perm.refl _) enough with
        ⟨h', free', freed, sound', _, notNull, big, keeps⟩
      refine ⟨h', free', ?_, sound', ?_, ?_⟩
      · have asked : sbrk kernel h (max n nalloc) =
            some (h.brk, { h with brk := h.brk + max n nalloc }) := by
          rw [sbrk, request, if_pos (Or.inl granted), Int.toNat_natCast]
        rw [morecore, asked]
        exact congrArg (Option.map fun h => (h.freep, h)) freed
      · rcases big with ⟨b, mem, fits⟩
        exact ⟨b, mem, Nat.le_trans (Nat.le_max_left n nalloc) fits⟩
      · intro b mem a holds
        have inside := sound.tiles.bounds (List.mem_append_right free mem)
          (sound.sized b (List.mem_append_right free mem))
        have same := keeps b mem a holds
        have away : a ≠ h.brk := by
          simp only [Extent.Holds] at holds
          omega
        exact ⟨same.1, same.2.trans (Function.update_of_ne away _ _)⟩

/-- `malloc` returns a block with the units asked for, or `NULL` when no free block is big enough
and the kernel has no more memory. -/
theorem mallocLoop_spec (kernel : ℤ → Bool) (sound : Sound base lo h live free)
    (positive : 0 < n) (small : n < 2 ^ 28) (enough : 3 * live.length + 6 ≤ fuel) :
    ∃ r, mallocLoop kernel n fuel h h.freep (h.ptr h.freep) = some r ∧ KeepsData live h r.2 ∧
      ((r.1 ≠ 0 ∧ ∃ free', Sound base lo r.2 (⟨r.1 - 1, n⟩ :: live) free') ∨
        (r = (0, h) ∧ (∀ b ∈ free, b.size < n) ∧
          kernel (h.brk + max n nalloc : ℕ) = false)) := by
  have few := sound.length_le
  have long : free.length + 1 ≤ fuel := by omega
  rcases mallocLoop_lap kernel sound.list sound.spaced positive long with
    ⟨A, X, B, rfl, fits, found⟩ | ⟨none, more, prevp, left, lap⟩
  · rcases take_spec sound fits positive with ⟨notNull, _, keeps, sound'⟩
    exact ⟨_, found, keeps, Or.inl ⟨notNull, sound'⟩⟩
  · have tooSmall : ¬n ≤ h.size h.freep := by
      rcases sound.list.freep with ⟨b, mem, start⟩
      rcases List.append_of_mem mem with ⟨front, back, ring⟩
      have threaded : Threaded h.ptr h.size base (front ++ b :: back) :=
        ring ▸ sound.list.threaded
      rw [← start, (threaded_append.mp threaded).2.2.1]
      rcases List.mem_cons.mp mem with rfl | memFree
      · simp only
        omega
      · have short := none b memFree
        omega
    rw [lap, mallocLoop, if_neg tooSmall, if_pos rfl]
    have long' : 2 * free.length + 2 ≤ more := by omega
    rcases morecore_spec kernel sound positive small long' with
      ⟨refused, null⟩ | ⟨h', free', got, sound', ⟨b, mem, fits⟩, keeps⟩
    · rw [null]
      refine ⟨(0, h), rfl, ?_, Or.inr ⟨rfl, none, refused⟩⟩
      exact fun b mem a holds => ⟨rfl, rfl⟩
    · have few' := sound'.length_le
      rw [got]
      simp only [if_neg sound'.freep_ne_zero]
      have long'' : free'.length + 1 ≤ more := by omega
      rcases mallocLoop_lap kernel sound'.list sound'.spaced positive long'' with
        ⟨A, X, B, rfl, fits', found⟩ | ⟨none', _⟩
      · rcases take_spec sound' fits' positive with ⟨notNull, _, keeps', sound''⟩
        refine ⟨_, found, ?_, Or.inl ⟨notNull, sound''⟩⟩
        intro b mem a holds
        have first := keeps b mem a holds
        have second := keeps' b mem a holds
        exact ⟨second.1.trans first.1, second.2.trans first.2⟩
      · have short := none' b mem
        omega

end Calls

/-! ## More fuel gives the same result -/

section Fuel

variable {base bp n nbytes fuel ap : ℕ} {kernel : ℤ → Bool} {h : Heap}

theorem findPlace_more (more : ℕ) {p q : ℕ} (found : findPlace h bp fuel p = some q) :
    findPlace h bp (fuel + more) p = some q := by
  induction fuel generalizing p with
  | zero => cases found
  | succ fuel ih =>
      rw [Nat.add_right_comm, findPlace]
      rw [findPlace] at found
      split_ifs at found ⊢
      · exact found
      · exact found
      · exact ih found

theorem free_more (more : ℕ) {h' : Heap} (done : Malloc.free h fuel ap = some h') :
    Malloc.free h (fuel + more) ap = some h' := by
  rw [Malloc.free, Option.map_eq_some_iff] at done ⊢
  rcases done with ⟨p, found, same⟩
  exact ⟨p, findPlace_more more found, same⟩

theorem morecore_more (more : ℕ) {r : ℕ × Heap} (done : morecore kernel h fuel n = some r) :
    morecore kernel h (fuel + more) n = some r := by
  rw [morecore] at done ⊢
  cases asked : sbrk kernel h (max n nalloc) with
  | none =>
      rw [asked] at done
      exact done
  | some got =>
      rw [asked] at done
      rw [Option.map_eq_some_iff] at done ⊢
      rcases done with ⟨h', freed, same⟩
      exact ⟨h', free_more more freed, same⟩

theorem mallocLoop_more (more : ℕ) {prevp p : ℕ} {r : ℕ × Heap}
    (done : mallocLoop kernel n fuel h prevp p = some r) :
    mallocLoop kernel n (fuel + more) h prevp p = some r := by
  induction fuel generalizing h prevp p with
  | zero => cases done
  | succ fuel ih =>
      rw [Nat.add_right_comm, mallocLoop]
      rw [mallocLoop] at done
      by_cases big : n ≤ h.size p
      · rw [if_pos big] at done ⊢
        exact done
      · rw [if_neg big] at done ⊢
        by_cases lap : p = h.freep
        · rw [if_pos lap] at done ⊢
          cases asked : morecore kernel h fuel n with
          | none =>
              rw [asked] at done
              cases done
          | some got =>
              rw [asked] at done
              rw [morecore_more more asked]
              simp only at done ⊢
              split_ifs at done ⊢ with null
              · exact done
              · exact ih done
        · rw [if_neg lap] at done ⊢
          exact ih done

end Fuel

/-! ## Runs -/

section Runs

variable {base lo : ℕ} {s s' s₀ : Sys} {act : Act}

/-- Before the first call there is no ring yet. -/
def Inv (base lo : ℕ) (s : Sys) : Prop :=
  Fresh lo s ∨ ∃ free, Sound base lo s.heap s.live free

theorem sound_started (above : 0 < base ∧ base < lo) (inv : Inv base lo s) :
    (∃ free, Sound base lo (started base s.heap) s.live free) ∧
      KeepsData s.live s.heap (started base s.heap) ∧ (started base s.heap).brk = s.heap.brk := by
  rcases inv with ⟨null, brk, none⟩ | ⟨free, sound⟩
  · rw [none, started, if_pos null]
    refine ⟨⟨[], ⟨⟨⟨?_, ?_, trivial⟩, ?_⟩, ?_, ?_, ?_, ?_, ?_⟩⟩, ?_, rfl⟩
    · simp [Heap.setPtr, Heap.setSize, first]
    · simp [Heap.setPtr, Heap.setSize]
    · exact ⟨⟨base, 0⟩, List.mem_cons_self, rfl⟩
    · exact List.pairwise_singleton _ _
    · simp
    · have empty := Tiles.nil lo
      rwa [← brk] at empty ⊢
    · simp
    · exact ⟨above.1, above.2, Nat.le_of_eq brk.symm⟩
    · exact fun b mem => absurd mem List.not_mem_nil
  · rw [started, if_neg sound.freep_ne_zero]
    exact ⟨⟨free, sound⟩, fun b mem a holds => ⟨rfl, rfl⟩, rfl⟩

theorem perm_eraseP {live : List Extent} {b : Extent} (mem : b ∈ live) {ap : ℕ}
    (start : b.start + 1 = ap) :
    ∃ L, L.start + 1 = ap ∧ live.Perm (L :: live.eraseP fun b => decide (b.start + 1 = ap)) := by
  have found := List.exists_of_eraseP (p := fun b : Extent => decide (b.start + 1 = ap)) mem
    (decide_eq_true start)
  rcases found with ⟨L, front, back, _, isL, split, erased⟩
  refine ⟨L, of_decide_eq_true isL, ?_⟩
  rw [erased, split]
  exact List.perm_middle

/-- `malloc` returns; what it hands out has room for the bytes asked for, and `NULL` means that no
free block is big enough and that the kernel has no more memory. -/
theorem malloc_serves (kernel : ℤ → Bool) {nbytes : ℕ} (above : 0 < base ∧ base < lo)
    (inv : Inv base lo s) (proper : nbytes + 16 ≤ 2 ^ 31) :
    ∃ enough s', (∀ fuel ≥ enough, step base s (.malloc kernel fuel nbytes) = some s') ∧
      Inv base lo s' ∧ KeepsData s.live s.heap s'.heap ∧
      ((∃ b, s'.live = b :: s.live ∧ nbytes ≤ 8 * (b.size - 1)) ∨
        s'.live = s.live ∧ kernel (s.heap.brk + max (unitsFor nbytes) nalloc : ℕ) = false ∧
          ∃ free, FreeList base s'.heap free ∧ ∀ b ∈ free, b.size < unitsFor nbytes) := by
  rcases sound_started above inv with ⟨⟨free, sound⟩, keepsFirst, brk⟩
  have positive : 0 < unitsFor nbytes := Nat.succ_pos _
  rcases mallocLoop_spec kernel sound positive (unitsFor_lt proper)
    (Nat.le_refl (3 * s.live.length + 6)) with ⟨r, done, keeps, outcome⟩
  refine ⟨3 * s.live.length + 6,
    ⟨r.2, if r.1 = 0 then s.live else ⟨r.1 - 1, unitsFor nbytes⟩ :: s.live⟩, ?_, ?_, ?_, ?_⟩
  · intro fuel enough
    rcases Nat.exists_eq_add_of_le enough with ⟨more, rfl⟩
    exact congrArg (Option.map _) (mallocLoop_more more done)
  · rcases outcome with ⟨notNull, free', sound'⟩ | ⟨rfl, _⟩
    · rw [if_neg notNull]
      exact Or.inr ⟨free', sound'⟩
    · exact Or.inr ⟨free, sound⟩
  · intro b mem a holds
    have first := keepsFirst b mem a holds
    have second := keeps b mem a holds
    exact ⟨second.1.trans first.1, second.2.trans first.2⟩
  · rcases outcome with ⟨notNull, free', sound'⟩ | ⟨rfl, none, refused⟩
    · left
      refine ⟨⟨r.1 - 1, unitsFor nbytes⟩, if_neg notNull, ?_⟩
      have units := unitsFor_eq proper
      simp only [units]
      omega
    · rw [brk] at refused
      exact Or.inr ⟨by simp, refused, free, sound.list, none⟩

/-- `free` returns, and only the block that is freed is taken from the program. -/
theorem free_returns {b : Extent} {ap : ℕ} (inv : Inv base lo s) (mem : b ∈ s.live)
    (start : b.start + 1 = ap) :
    ∃ enough s', (∀ fuel ≥ enough, step base s (.free fuel ap) = some s') ∧ Inv base lo s' ∧
      KeepsData s'.live s.heap s'.heap ∧ ∃ L, L.start + 1 = ap ∧ s.live.Perm (L :: s'.live) := by
  rcases inv with ⟨_, _, none⟩ | ⟨free, sound⟩
  · rw [none] at mem
    cases mem
  · rcases perm_eraseP mem start with ⟨L, rfl, perm⟩
    rcases free_spec sound perm (Nat.le_refl _) with
      ⟨h', free', freed, sound', _, _, _, keeps⟩
    refine ⟨2 * free.length + 2, ⟨h', _⟩, ?_, Or.inr ⟨free', sound'⟩, keeps, L, rfl, perm⟩
    intro fuel enough
    rcases Nat.exists_eq_add_of_le enough with ⟨more, rfl⟩
    exact congrArg (Option.map _) (free_more more freed)

/-- The program does not write into headers. -/
theorem store_inv {a ptr size : ℕ} (inv : Inv base lo s)
    (inside : ∃ b ∈ s.live, b.start < a ∧ a < b.stop) :
    Inv base lo ⟨(s.heap.setPtr a ptr).setSize a size, s.live⟩ := by
  rcases inside with ⟨b, mem, low, high⟩
  rcases inv with ⟨_, _, none⟩ | ⟨free, sound⟩
  · rw [none] at mem
    cases mem
  · have perm : (free ++ s.live).Perm (b :: (free ++ s.live).erase b) :=
      List.perm_cons_erase (List.mem_append_right free mem)
    have tiles := sound.tiles.perm perm
    have away : ∀ e ∈ free ++ s.live, e.start ≠ a := by
      intro e memE
      rcases List.mem_cons.mp (perm.mem_iff.mp memE) with rfl | other
      · omega
      · rintro rfl
        have apart := tiles.apart other e.start
        exact apart ⟨⟨Nat.le_of_lt low, high⟩, Extent.holds_start (sound.sized e memE)⟩
    refine Or.inr ⟨free, ⟨⟨?_, sound.list.freep⟩, sound.spaced, sound.sized, sound.tiles, ?_,
      sound.ordered⟩⟩
    · refine sound.list.threaded.congr fun e memE => ?_
      have other : e.start ≠ a := by
        rcases List.mem_cons.mp memE with rfl | memFree
        · have above := sound.head_lt (List.mem_append_right free mem)
          simp only
          omega
        · exact away e (List.mem_append_left s.live memFree)
      exact ⟨Function.update_of_ne other _ _, Function.update_of_ne other _ _⟩
    · intro e memE
      have other := away e (List.mem_append_right free memE)
      exact (Function.update_of_ne other _ _).trans (sound.kept e memE)

/-- A call keeps the contents of the blocks that the program has before and after it. -/
theorem step_spec (above : 0 < base ∧ base < lo) (inv : Inv base lo s) (proper : Proper s act)
    (stepped : step base s act = some s') :
    Inv base lo s' ∧ ∀ b ∈ s.live, (∀ fuel, act ≠ .free fuel (b.start + 1)) →
      b ∈ s'.live ∧ ∀ a, b.Holds a → (∀ ptr size, act ≠ .store a ptr size) →
        s'.heap.ptr a = s.heap.ptr a ∧ s'.heap.size a = s.heap.size a := by
  cases act with
  | malloc kernel fuel nbytes =>
      rcases malloc_serves kernel above inv proper with
        ⟨enough, s'', served, inv', keeps, outcome⟩
      have more := served (fuel + enough) (Nat.le_add_left _ _)
      have same : s' = s'' := by
        rw [step, Option.map_eq_some_iff] at stepped more
        rcases stepped with ⟨r, done, rfl⟩
        rcases more with ⟨r', done', rfl⟩
        have longer := mallocLoop_more enough done
        rw [malloc] at done'
        rw [longer, Option.some.injEq] at done'
        rw [done']
      rw [same]
      refine ⟨inv', fun b mem _ => ⟨?_, fun a holds _ => keeps b mem a holds⟩⟩
      rcases outcome with ⟨c, grown, _⟩ | ⟨still, _⟩
      · rw [grown]
        exact List.mem_cons_of_mem c mem
      · rw [still]
        exact mem
  | free fuel ap =>
      rcases proper with ⟨b, mem, start⟩
      rcases free_returns inv mem start with
        ⟨enough, s'', served, inv', keeps, L, startL, perm⟩
      have more := served (fuel + enough) (Nat.le_add_left _ _)
      have same : s' = s'' := by
        rw [step, Option.map_eq_some_iff] at stepped more
        rcases stepped with ⟨h', done, rfl⟩
        rcases more with ⟨h'', done', rfl⟩
        have longer := free_more enough done
        rw [longer, Option.some.injEq] at done'
        rw [done']
      rw [same]
      refine ⟨inv', fun c memC other => ?_⟩
      have stays : c ∈ s''.live := by
        rcases List.mem_cons.mp (perm.mem_iff.mp memC) with rfl | later
        · exact absurd (congrArg (Act.free fuel) startL.symm) (other fuel)
        · exact later
      exact ⟨stays, fun a holds _ => keeps c stays a holds⟩
  | store a ptr size =>
      rw [step, Option.some.injEq] at stepped
      rw [← stepped]
      refine ⟨store_inv inv proper, fun b mem _ => ⟨mem, fun a' _ other => ?_⟩⟩
      have away : a' ≠ a := by
        rintro rfl
        exact other ptr size rfl
      exact ⟨Function.update_of_ne away _ _, Function.update_of_ne away _ _⟩

theorem inv_of_reach (above : 0 < base ∧ base < lo) (fresh : Fresh lo s₀)
    (reach : Reach (step base) Proper s₀ s) : Inv base lo s :=
  reach.invariant (Or.inl fresh) fun inv proper stepped => (step_spec above inv proper stepped).1

/-- In every state of every run the free list is in order, and the free blocks and the blocks of
the program make up the arena. -/
theorem heap_sound (above : 0 < base ∧ base < lo) (fresh : Fresh lo s₀)
    (reach : Reach (step base) Proper s₀ s) :
    Fresh lo s ∨ ∃ free, Sound base lo s.heap s.live free :=
  inv_of_reach above fresh reach

/-- Every call returns. A block that is handed out has room for what was asked for; `NULL` is
returned only where no free block is big enough and the kernel refuses. -/
theorem calls_return (above : 0 < base ∧ base < lo) (fresh : Fresh lo s₀)
    (reach : Reach (step base) Proper s₀ s) :
    (∀ kernel nbytes, nbytes + 16 ≤ 2 ^ 31 → ∃ enough s',
      (∀ fuel ≥ enough, step base s (.malloc kernel fuel nbytes) = some s') ∧
        ((∃ b, s'.live = b :: s.live ∧ nbytes ≤ 8 * (b.size - 1)) ∨
          s'.live = s.live ∧ kernel (s.heap.brk + max (unitsFor nbytes) nalloc : ℕ) = false ∧
            ∃ free, FreeList base s'.heap free ∧ ∀ b ∈ free, b.size < unitsFor nbytes)) ∧
      ∀ b ∈ s.live, ∃ enough s', ∀ fuel ≥ enough,
        step base s (.free fuel (b.start + 1)) = some s' := by
  have inv := inv_of_reach above fresh reach
  refine ⟨fun kernel nbytes proper => ?_, fun b mem => ?_⟩
  · rcases malloc_serves kernel above inv proper with
      ⟨enough, s', served, _, _, outcome⟩
    exact ⟨enough, s', served, outcome⟩
  · rcases free_returns inv mem rfl with ⟨enough, s', served, _⟩
    exact ⟨enough, s', served⟩

/-- A kernel with memory for everything, and the memory before the first call. -/
def generous : ℤ → Bool := fun _ => true

def untouched : Sys := ⟨⟨fun _ => 0, fun _ => 0, 0, 2⟩, []⟩

theorem proper_ten (s : Sys) : Proper s (.malloc generous 3 10) := by
  change 10 + 16 ≤ 2 ^ 31
  decide

theorem reach_ten {s : Sys} (stepped : step 1 untouched (.malloc generous 3 10) = some s) :
    Reach (step 1) Proper untouched s :=
  Reach.start.next (proper_ten untouched) stepped

theorem heap_sound_oneBlock : ∃ s, step 1 untouched (.malloc generous 3 10) = some s ∧
    (Fresh 2 s ∨ ∃ free, Sound 1 2 s.heap s.live free) :=
  ⟨_, rfl, heap_sound ⟨by decide, by decide⟩ ⟨rfl, rfl, rfl⟩
    (reach_ten rfl)⟩

theorem calls_return_oneBlock : ∃ s, step 1 untouched (.malloc generous 3 10) = some s ∧
    ∀ b ∈ s.live, ∃ enough s', ∀ fuel ≥ enough,
      step 1 s (.free fuel (b.start + 1)) = some s' :=
  ⟨_, rfl, (calls_return ⟨by decide, by decide⟩ ⟨rfl, rfl, rfl⟩
    (reach_ten rfl)).2⟩

/-- The run neither frees the block nor stores at the place. -/
def Spares (b : Extent) (a : ℕ) (s : Sys) (act : Act) : Prop :=
  Proper s act ∧ (∀ fuel, act ≠ .free fuel (b.start + 1)) ∧ ∀ ptr size, act ≠ .store a ptr size

/-- What the program has written into a block is there until it writes there again or frees the
block, whatever else it allocates, frees and writes. -/
theorem data_survives (above : 0 < base ∧ base < lo) (fresh : Fresh lo s₀)
    (reach : Reach (step base) Proper s₀ s) {b : Extent} {a : ℕ} (mem : b ∈ s.live)
    (holds : b.Holds a) (later : Reach (step base) (Spares b a) s s') :
    b ∈ s'.live ∧ s'.heap.ptr a = s.heap.ptr a ∧ s'.heap.size a = s.heap.size a := by
  have inv := inv_of_reach above fresh reach
  have kept : Inv base lo s' ∧ b ∈ s'.live ∧ s'.heap.ptr a = s.heap.ptr a ∧
      s'.heap.size a = s.heap.size a := by
    induction later with
    | start => exact ⟨inv, mem, rfl, rfl⟩
    | next _ spares stepped ih =>
        rcases ih with ⟨inv, mem, ptr, size⟩
        have spec := step_spec above inv spares.1 stepped
        have same := spec.2 b mem spares.2.1
        have data := same.2 a holds spares.2.2
        exact ⟨spec.1, same.1, data.1.trans ptr, data.2.trans size⟩
  exact kept.2

theorem data_survives_second : ∃ s s', step 1 untouched (.malloc generous 3 10) = some s ∧
    step 1 s (.malloc generous 3 10) = some s' ∧ s'.heap.ptr 1024 = s.heap.ptr 1024 := by
  refine ⟨_, _, rfl, rfl, ?_⟩
  have spares : ∀ s, Spares ⟨1023, 3⟩ 1024 s (.malloc generous 3 10) := fun s =>
    ⟨proper_ten s, by simp, by simp⟩
  exact (data_survives ⟨by decide, by decide⟩ ⟨rfl, rfl, rfl⟩ (reach_ten rfl) (b := ⟨1023, 3⟩)
    (by decide) (by decide) (Reach.start.next (spares _) rfl)).2.1

/-- The free blocks are joined: there is at most one more of them than the program has blocks, and
when the program has freed everything the arena is one free block, or has never had a byte. -/
theorem free_blocks_joined (above : 0 < base ∧ base < lo) (fresh : Fresh lo s₀)
    (reach : Reach (step base) Proper s₀ s) (used : s.heap.freep ≠ 0) :
    ∃ free, FreeList base s.heap free ∧ free.length ≤ s.live.length + 1 ∧
      (s.live = [] → s.heap.brk = lo ∧ free = [] ∨ free = [⟨lo, s.heap.brk - lo⟩]) := by
  rcases inv_of_reach above fresh reach with ⟨null, _⟩ | ⟨free, sound⟩
  · exact absurd null used
  · refine ⟨free, sound.list, sound.length_le, fun none => ?_⟩
    have tiles := sound.tiles
    rw [none, List.append_nil] at tiles
    have spaced : Spaced free := (List.pairwise_cons.mp sound.spaced).2
    have sized : ∀ b ∈ free, 0 < b.size := fun b mem => sound.sized b (List.mem_append_left _ mem)
    rcases spaced.eq_of_tiles sized tiles with ⟨empty, isNil⟩ | isBlock
    · exact Or.inl ⟨Nat.le_antisymm empty sound.ordered.2.2, isNil⟩
    · exact Or.inr isBlock

theorem free_blocks_joined_oneBlock : ∃ s s', step 1 untouched (.malloc generous 3 10) = some s ∧
    step 1 s (.free 3 1024) = some s' ∧
    FreeList 1 s'.heap [⟨2, 1024⟩] := by
  refine ⟨_, _, rfl, rfl, ?_⟩
  have proper : ∀ s, ⟨1023, 3⟩ ∈ s.live → Proper s (.free 3 1024) := fun s mem => ⟨_, mem, rfl⟩
  rcases free_blocks_joined ⟨by decide, by decide⟩ ⟨rfl, rfl, rfl⟩
    ((reach_ten rfl).next (proper _ (by decide)) rfl) (by decide) with ⟨free, list, _, joined⟩
  rcases joined rfl with ⟨empty, _⟩ | isBlock
  · exact absurd empty (by decide)
  · exact isBlock ▸ list

end Runs

end Osix.Malloc
