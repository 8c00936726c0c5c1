import Mathlib.Data.List.Nodup
import Mathlib.Logic.Function.Basic

/-!
# Circular doubly linked lists

An intrusive list is a pair of link fields in every element together with a header
node. A node is `none` for the header and `some a` for the element `a`. The two
operations are the pointer assignments that every such implementation performs:
`unlink` takes an element out wherever it stands, `pushBack` adds one before the
header.

`Represents links elems` says that walking the `next` links from the header visits
exactly `elems`, in that order, and comes back to the header, and that the `prev`
links undo each of these steps.
-/

namespace CircularList

universe u

variable {Elem : Type u}

/-- The link fields of all nodes; `none` is the header. -/
structure Links (Elem : Type u) where
  next : Option Elem → Option Elem
  prev : Option Elem → Option Elem

namespace Links

/-- A header that points to itself. -/
def empty : Links Elem where
  next := fun _ => none
  prev := fun _ => none

/-- `elem.prev.next = elem.next; elem.next.prev = elem.prev`. -/
def unlink [DecidableEq Elem] (links : Links Elem) (elem : Elem) : Links Elem :=
  let next := Function.update links.next (links.prev (some elem)) (links.next (some elem))
  { next := next
    prev := Function.update links.prev (next (some elem)) (links.prev (some elem)) }

/--
`elem.next = header; elem.prev = header.prev; header.prev.next = elem;
header.prev = elem`.
-/
def pushBack [DecidableEq Elem] (links : Links Elem) (elem : Elem) : Links Elem :=
  let next := Function.update links.next (some elem) none
  let prev := Function.update links.prev (some elem) (links.prev none)
  { next := Function.update next (prev none) (some elem)
    prev := Function.update prev none (some elem) }

/-- The links lead from `start` through `elems` to `stop`, in both directions. -/
def Path (links : Links Elem) : Option Elem → List Elem → Option Elem → Prop
  | start, [], stop => links.next start = stop ∧ links.prev stop = start
  | start, elem :: elems, stop =>
      links.next start = some elem ∧ links.prev (some elem) = start ∧
        links.Path (some elem) elems stop

theorem path_append {links : Links Elem} {start stop : Option Elem}
    {front back : List Elem} {elem : Elem} :
    links.Path start (front ++ elem :: back) stop ↔
      links.Path start front (some elem) ∧ links.Path (some elem) back stop := by
  induction front generalizing start with
  | nil => simp [Path, and_assoc]
  | cons head tail ih => simp [Path, ih, and_assoc]

/-- A path survives every change to links that it does not use. -/
theorem path_congr {links links' : Links Elem} {start stop : Option Elem}
    {elems : List Elem}
    (nextEq : ∀ node, node = start ∨ node ∈ elems.map some → links'.next node = links.next node)
    (prevEq : ∀ node, node = stop ∨ node ∈ elems.map some → links'.prev node = links.prev node)
    (path : links.Path start elems stop) : links'.Path start elems stop := by
  induction elems generalizing start with
  | nil =>
      exact ⟨(nextEq start (Or.inl rfl)).trans path.1, (prevEq stop (Or.inl rfl)).trans path.2⟩
  | cons head tail ih =>
      rcases path with ⟨toHead, fromHead, rest⟩
      refine ⟨(nextEq start (Or.inl rfl)).trans toHead,
        (prevEq (some head) (Or.inr (by simp))).trans fromHead, ih ?_ ?_ rest⟩
      · rintro node (rfl | member)
        · exact nextEq (some head) (Or.inr (by simp))
        · exact nextEq node (Or.inr (List.mem_cons_of_mem _ member))
      · rintro node (rfl | member)
        · exact prevEq node (Or.inl rfl)
        · exact prevEq node (Or.inr (List.mem_cons_of_mem _ member))

/--
Redirecting the last link of a path gives a path to the new target. The last node is
`links.prev stop`, so only its `next` link and the `prev` link of the target change.
-/
theorem path_retarget {links links' : Links Elem} {start stop target : Option Elem}
    {elems : List Elem} (path : links.Path start elems stop)
    (distinct : (start :: elems.map some).Nodup)
    (lastNext : links'.next (links.prev stop) = target)
    (targetPrev : links'.prev target = links.prev stop)
    (nextEq : ∀ node ∈ start :: elems.map some, node ≠ links.prev stop →
      links'.next node = links.next node)
    (prevEq : ∀ node ∈ elems.map some, links'.prev node = links.prev node) :
    links'.Path start elems target := by
  rcases List.eq_nil_or_concat elems with rfl | ⟨front, last, rfl⟩
  · have lastStart : links.prev stop = start := path.2
    rw [lastStart] at lastNext targetPrev
    exact ⟨lastNext, targetPrev⟩
  · rw [List.concat_eq_append] at path distinct prevEq ⊢
    rcases path_append.mp path with ⟨frontPath, _, lastPrev⟩
    rw [lastPrev] at lastNext targetPrev nextEq
    refine path_append.mpr ⟨path_congr ?_ ?_ frontPath, lastNext, targetPrev⟩
    · intro node member
      refine nextEq node (by simpa [← or_assoc] using Or.inl member) ?_
      rintro rfl
      rw [List.map_append, ← List.cons_append, List.nodup_append] at distinct
      exact distinct.2.2 (some last) (by simpa [eq_comm] using member) (some last) (by simp) rfl
    · intro node member
      apply prevEq
      simpa [or_comm, eq_comm] using member

/-- The circular list holds exactly `elems`, in this order and each once. -/
structure Represents (links : Links Elem) (elems : List Elem) : Prop where
  path : links.Path none elems none
  nodup : elems.Nodup

theorem represents_empty : (empty : Links Elem).Represents [] :=
  ⟨by simp [Path, empty], List.nodup_nil⟩

/-- The header node followed by the elements has no repetition. -/
theorem Represents.nodup_nodes {links : Links Elem} {elems : List Elem}
    (represents : links.Represents elems) : ((none : Option Elem) :: elems.map some).Nodup := by
  refine List.nodup_cons.mpr ⟨by simp, ?_⟩
  exact List.Nodup.map (fun _ _ => Option.some.inj) represents.nodup

/-- The first element is the one the header's `next` link points to. -/
theorem Represents.next_header {links : Links Elem} {elems : List Elem}
    (represents : links.Represents elems) : links.next none = elems.head? := by
  cases elems with
  | nil => exact represents.path.1
  | cons head tail => exact represents.path.1

/-- The element's own `next` link is still intact when `unlink` reads it again. -/
theorem unlink_eq [DecidableEq Elem] (links : Links Elem) (elem : Elem) :
    links.unlink elem =
      { next := Function.update links.next (links.prev (some elem)) (links.next (some elem))
        prev := Function.update links.prev (links.next (some elem)) (links.prev (some elem)) } := by
  unfold unlink
  by_cases own : some elem = links.prev (some elem)
  · simp [← own]
  · simp [Function.update_of_ne own]

theorem represents_unlink [DecidableEq Elem] {links : Links Elem} {front back : List Elem}
    {elem : Elem} (represents : links.Represents (front ++ elem :: back)) :
    (links.unlink elem).Represents (front ++ back) := by
  have distinct := represents.nodup_nodes
  rcases path_append.mp represents.path with ⟨frontPath, backPath⟩
  rw [List.map_append, List.map_cons, ← List.cons_append, List.nodup_append] at distinct
  rcases distinct with ⟨frontDistinct, backDistinct, apart⟩
  refine ⟨?_, ?_⟩
  · rw [unlink_eq]
    have leftMem : links.prev (some elem) ∈ none :: front.map some := by
      rcases List.eq_nil_or_concat front with rfl | ⟨init, last, rfl⟩
      · simp [frontPath.2]
      · rw [List.concat_eq_append] at frontPath ⊢
        rw [(path_append.mp frontPath).2.2]
        simp
    cases back with
    | nil =>
        rw [List.append_nil, backPath.1]
        refine path_retarget frontPath frontDistinct (by simp) (by simp) ?_ ?_
        · intro node _ notLast
          exact Function.update_of_ne notLast _ _
        · intro node member
          refine Function.update_of_ne ?_ _ _
          rintro rfl
          simp at member
    | cons head tail =>
        rcases backPath with ⟨toHead, _, tailPath⟩
        rw [toHead]
        refine path_append.mpr ⟨?_, ?_⟩
        · refine path_retarget frontPath frontDistinct (by simp) (by simp) ?_ ?_
          · intro node _ notLast
            exact Function.update_of_ne notLast _ _
          · intro node member
            refine Function.update_of_ne ?_ _ _
            rintro rfl
            exact apart (some head) (List.mem_cons_of_mem _ member) (some head) (by simp) rfl
        · refine path_congr ?_ ?_ tailPath
          · intro node member
            refine Function.update_of_ne ?_ _ _
            rintro rfl
            exact apart _ leftMem _ (by simp_all) rfl
          · intro node member
            refine Function.update_of_ne ?_ _ _
            rintro rfl
            rcases member with isHeader | inTail
            · simp at isHeader
            · simp at inTail backDistinct
              exact backDistinct.2.1 inTail
  · have nodup := represents.nodup
    rw [List.nodup_append] at nodup ⊢
    refine ⟨nodup.1, (List.nodup_cons.mp nodup.2.1).2, ?_⟩
    intro left leftMem right rightMem
    exact nodup.2.2 left leftMem right (List.mem_cons_of_mem _ rightMem)

theorem represents_pushBack [DecidableEq Elem] {links : Links Elem} {elems : List Elem}
    {elem : Elem} (represents : links.Represents elems) (fresh : elem ∉ elems) :
    (links.pushBack elem).Represents (elems ++ [elem]) := by
  have lastMem : links.prev none ∈ none :: elems.map some := by
    rcases List.eq_nil_or_concat elems with rfl | ⟨init, last, rfl⟩
    · simp [represents.path.2]
    · have path := represents.path
      rw [List.concat_eq_append] at path ⊢
      rw [(path_append.mp path).2.2]
      simp
  have lastNe : links.prev none ≠ some elem := by
    intro same
    rw [same] at lastMem
    simp [fresh] at lastMem
  have pushed : links.pushBack elem =
      { next := Function.update (Function.update links.next (some elem) none)
          (links.prev none) (some elem)
        prev := Function.update (Function.update links.prev (some elem) (links.prev none))
          none (some elem) } := by
    simp [pushBack]
  refine ⟨?_, ?_⟩
  · rw [pushed]
    refine path_append.mpr ⟨?_, ?_, ?_⟩
    · refine path_retarget represents.path represents.nodup_nodes (by simp) (by simp) ?_ ?_
      · intro node member notLast
        dsimp only
        rw [Function.update_of_ne notLast, Function.update_of_ne]
        rintro rfl
        simp [fresh] at member
      · intro node member
        dsimp only
        rw [Function.update_of_ne, Function.update_of_ne]
        · rintro rfl
          simp [fresh] at member
        · rintro rfl
          simp at member
    · simp [Function.update_of_ne lastNe.symm]
    · simp
  · rw [List.nodup_append]
    refine ⟨represents.nodup, by simp, ?_⟩
    rintro left leftMem right rightMem rfl
    simp only [List.mem_singleton] at rightMem
    exact fresh (rightMem ▸ leftMem)

end Links

end CircularList
