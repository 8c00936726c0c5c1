import Osix.Kern.Ustack

/-!
# Passing the vectors on

A program that calls `exec` with the `argv` and `environ` it has received gives addresses in its
first stack page to `proc_init_ustack`, which reads both vectors up to a `NULL`. It has written
one after the environment only. What follows the arguments are the bytes of the last string that
was pushed before them, or the environment vector if there was none.
-/

namespace Osix.Ustack

open PushDown

/-- A string in memory, with its terminating 0. -/
def StringHeld (mem : ℕ → Byte) (addr : ℕ) (str : List Byte) : Prop :=
  Holds mem addr (str ++ [0]) ∧ 0 ∉ str

/-- What the loops of `proc_init_ustack` read as a vector of strings: it ends at the `NULL`. -/
def VectorHeld (mem : ℕ → Byte) (addr : ℕ) (strs : List (List Byte)) : Prop :=
  ∃ ptrs, Holds mem addr (words (ptrs ++ [0])) ∧ (∀ ptr ∈ ptrs, ptr ≠ 0 ∧ ptr < 2 ^ 32) ∧
    List.Forall₂ (StringHeld mem) ptrs strs

/-- `main` gets these arguments and this environment. -/
structure Decodes (argv envp : List (List Byte)) (main : ℕ → Byte) (esp : ℕ) : Prop where
  argc : mainArgc main esp = argv.length
  argv : (argPtrs main esp).map (readString main) = argv
  envp : (envPtrs main esp).map (readString main) = envp

/-- The memory of a program that has not changed its page above the first word. -/
def Untouched (mem : ℕ → Byte) (argv envp : List (List Byte)) (main : ℕ → Byte) : Prop :=
  ∀ addr, (procInitUstack mem argv envp).2 + 4 ≤ addr →
    main addr = userMem (procInitUstack mem argv envp).1 addr

/--
The program whose `main` runs in this memory passes its vectors to `exec`: the stack that is
built from what they are read as decodes to the same arguments and environment.
-/
def Reexecs (argv envp : List (List Byte)) (main : ℕ → Byte) (esp : ℕ) : Prop :=
  ∃ argv' envp', VectorHeld main (mainArgv main esp) argv' ∧
    VectorHeld main (mainEnvp main esp) envp' ∧ layoutSize argv' envp' ≤ pageSize ∧
    ∀ mem main', Untouched mem argv' envp' main' →
      Decodes argv envp main' (procInitUstack mem argv' envp').2

section

variable {mem main : ℕ → Byte} {addr : ℕ} {argv envp strs : List (List Byte)} {ptrs : List ℕ}

theorem words_append (first second : List ℕ) :
    words (first ++ second) = words first ++ words second := List.flatMap_append

/-- The stack decodes to what it has been built from. -/
theorem decodes_procInitUstack (nulFree : ∀ str ∈ argv ++ envp, 0 ∉ str)
    (fits : layoutSize argv envp ≤ pageSize) (untouched : Untouched mem argv envp main) :
    Decodes argv envp main (procInitUstack mem argv envp).2 := by
  rcases procInitUstack_contents fits untouched with ⟨start, isTop, _, isEsp, contents⟩
  have places := places_layout argv envp start
  have inPage := inPage_layout isTop fits places
  have decoded := decoded_of_contents isTop fits places contents inPage.final
  rw [List.forall_mem_append] at nulFree
  rw [isEsp]
  refine ⟨decoded.argc, ?_, ?_⟩
  · rw [decoded.argPtrs]
    exact map_readString contents.arg nulFree.1
  · rw [decoded.envPtrs]
    exact map_readString contents.env nulFree.2

theorem stringHeld_of_stringAt {str : List Byte} {ptr : ℕ} (isString : StringAt mem str ptr)
    (nulFree : 0 ∉ str) : StringHeld mem ptr str := by
  rcases padded_eq str with ⟨zeros, isPadded⟩
  have holds := isString.holds
  have isSplit : str ++ 0 :: List.replicate zeros 0 = (str ++ [0]) ++ List.replicate zeros 0 := by
    simp
  rw [isPadded, isSplit, Holds.append] at holds
  exact ⟨holds.1, nulFree⟩

/-- A vector of the page that a `NULL` follows. -/
theorem vectorHeld_of_strings (strings : List.Forall₂ (StringAt mem) strs ptrs)
    (nulFree : ∀ str ∈ strs, 0 ∉ str) (holds : Holds mem addr (words (ptrs ++ [0]))) :
    VectorHeld mem addr strs := by
  refine ⟨ptrs, holds, fun ptr isIn => ?_, ?_⟩
  · have inside := pointers_of_strings strings ptr isIn
    simp only [userUstack, pageSize] at inside
    omega
  · clear holds
    induction strings with
    | nil => exact .nil
    | cons isString _ ih =>
        rw [List.forall_mem_cons] at nulFree
        exact .cons (stringHeld_of_stringAt isString nulFree.1) (ih nulFree.2)

theorem VectorHeld.nulFree (held : VectorHeld mem addr strs) : ∀ str ∈ strs, 0 ∉ str := by
  rcases held with ⟨ptrs, holds, small, strings⟩
  clear holds small
  induction strings with
  | nil => exact List.forall_mem_nil _
  | cons isString _ ih => exact List.forall_mem_cons.mpr ⟨isString.2, ih⟩

/-- The word after a vector is 0. -/
theorem VectorHeld.terminated (held : VectorHeld mem addr strs) :
    Block.get32 mem (addr + 4 * strs.length) = 0 := by
  rcases held with ⟨ptrs, holds, small, strings⟩
  rw [← strings.length_eq, get32_words holds ?_ ptrs.length (by simp)]
  · simp
  · refine List.forall_mem_append.mpr ⟨fun ptr isIn => (small ptr isIn).2, ?_⟩
    exact List.forall_mem_singleton.mpr (by decide)

theorem first_of_get32 (isZero : Block.get32 mem addr = 0) : mem addr = 0 := by
  apply BitVec.eq_of_toNat_eq
  simp only [Block.get32, Block.get16] at isZero
  simp only [BitVec.ofNat_eq_ofNat, BitVec.toNat_zero]
  omega

end

/-! ## What follows the arguments -/

section

variable {main : ℕ → Byte} {argv envp : List (List Byte)} {start : Stack Byte}

/-- The last argument is right above the vector. -/
theorem last_stringAt {first : List (List Byte)} {last : List Byte}
    (contents : Contents (first ++ [last]) envp (layout (first ++ [last]) envp start) main) :
    StringAt main last (layout (first ++ [last]) envp start).arg.sp := by
  have strings := contents.arg
  have isConcat : (layout (first ++ [last]) envp start).argPtrs =
      (layout first envp start).argPtrs ++ [(layout (first ++ [last]) envp start).arg.sp] := by
    have concat := pushAll_concat (layout first envp start).envVector (first.map padded)
      (padded last)
    simp only [layout, List.map_append, List.map_cons, List.map_nil] at concat ⊢
    exact concat
  rw [isConcat, ← List.forall₂_reverse_iff, List.reverse_append, List.reverse_append] at strings
  cases strings with
  | cons isLast _ => exact isLast

theorem above_argVector {built : Layout} (places : Places argv envp start built)
    (inPage : InPage built) : built.argVector.sp + 4 * argv.length = built.arg.sp := by
  have bottom := inPage.bottom
  have isFinal := inPage.final
  have isHeader := inPage.header
  have isArgVector := places.argVector
  simp only [userUstack] at bottom
  omega

/-- What makes the word after the arguments a `NULL`: there is no string at all, or the last
argument is empty. -/
def EndsInNull (argv envp : List (List Byte)) : Prop :=
  argv = [] ∧ envp = [] ∨ argv.getLast? = some []

theorem null_of_endsInNull (contents : Contents argv envp (layout argv envp start) main)
    (ends : EndsInNull argv envp) : Holds main (layout argv envp start).arg.sp (words [0]) := by
  rcases ends with ⟨rfl, rfl⟩ | isLast
  · exact contents.envVector
  · rcases List.getLast?_eq_some_iff.mp isLast with ⟨first, rfl⟩
    exact (last_stringAt contents).holds

theorem endsInNull_of_null (contents : Contents argv envp (layout argv envp start) main)
    (nulFree : ∀ str ∈ argv, 0 ∉ str)
    (isNull : Block.get32 main (layout argv envp start).arg.sp = 0) : EndsInNull argv envp := by
  rcases argv.eq_nil_or_concat' with rfl | ⟨first, last, rfl⟩
  · -- The vector of the environment follows, whose first pointer would be `NULL`.
    refine .inl ⟨rfl, ?_⟩
    have strings := contents.env
    have vector := contents.envVector
    generalize (layout [] envp start).envPtrs = ptrs at strings vector
    cases strings with
    | nil => rfl
    | @cons str ptr _ _ isString _ =>
        rw [List.cons_append, words, List.flatMap_cons, Holds.append] at vector
        have inside := isString.above
        have below := isString.below
        have isPtr := get32_of_holds vector.1 (by simp only [userUstack, pageSize] at below; omega)
        have isZero : ptr = 0 := isPtr.symm.trans isNull
        rw [isZero] at inside
        exact absurd inside (by decide)
  · -- The bytes of the last argument follow.
    refine .inr ?_
    cases last with
    | nil => exact List.getLast?_concat
    | cons byte rest =>
        have isString := (last_stringAt contents).holds
        rcases padded_eq (byte :: rest) with ⟨zeros, isPadded⟩
        rw [isPadded] at isString
        have isFirst := isString 0 (by simp)
        rw [Nat.add_zero, first_of_get32 isNull] at isFirst
        have isZero : byte = 0 := isFirst.symm
        exact absurd (by rw [isZero]; exact List.mem_cons_self) (nulFree (byte :: rest) (by simp))

/-- With a `NULL` after the arguments both vectors are read as they were written. -/
theorem reexecs_of_endsInNull {mem : ℕ → Byte} (nulFree : ∀ str ∈ argv ++ envp, 0 ∉ str)
    (fits : layoutSize argv envp ≤ pageSize) (untouched : Untouched mem argv envp main)
    (ends : EndsInNull argv envp) :
    Reexecs argv envp main (procInitUstack mem argv envp).2 := by
  rcases procInitUstack_contents fits untouched with ⟨start, isTop, _, isEsp, contents⟩
  have places := places_layout argv envp start
  have inPage := inPage_layout isTop fits places
  have decoded := decoded_of_contents isTop fits places contents inPage.final
  have parts := List.forall_mem_append.mp nulFree
  have isAfter := above_argVector places inPage
  refine ⟨argv, envp, ?_, ?_, fits, fun _ _ again => decodes_procInitUstack nulFree fits again⟩
  · rw [isEsp, decoded.argv]
    refine vectorHeld_of_strings contents.arg parts.1 ?_
    rw [words_append, Holds.append, length_words, places.argLength, isAfter]
    exact ⟨contents.argVector, null_of_endsInNull contents ends⟩
  · rw [isEsp, decoded.envp]
    exact vectorHeld_of_strings contents.env parts.2 contents.envVector

theorem endsInNull_of_reexecs {mem : ℕ → Byte} (nulFree : ∀ str ∈ argv ++ envp, 0 ∉ str)
    (fits : layoutSize argv envp ≤ pageSize) (untouched : Untouched mem argv envp main)
    (reexecs : Reexecs argv envp main (procInitUstack mem argv envp).2) :
    EndsInNull argv envp := by
  rcases procInitUstack_contents fits untouched with ⟨start, isTop, _, isEsp, contents⟩
  have places := places_layout argv envp start
  have inPage := inPage_layout isTop fits places
  have decoded := decoded_of_contents isTop fits places contents inPage.final
  rcases reexecs with ⟨argv', envp', isArgv, isEnvp, fits', again⟩
  -- Both decodings are of the same page.
  have untouched' : Untouched mem argv' envp' (userMem (procInitUstack mem argv' envp').1) :=
    fun _ _ => rfl
  have decodes := decodes_procInitUstack
    (List.forall_mem_append.mpr ⟨isArgv.nulFree, isEnvp.nulFree⟩) fits' untouched'
  have same : argv' = argv := decodes.argv.symm.trans (again mem _ untouched').argv
  subst same
  have isNull := isArgv.terminated
  rw [isEsp, decoded.argv] at isNull
  rw [above_argVector places inPage] at isNull
  exact endsInNull_of_null contents (List.forall_mem_append.mp nulFree).1 isNull

/--
The vectors of a stack can be passed on if and only if there are neither arguments nor environment
or the last argument is empty: for nothing else a `NULL` follows the arguments.
-/
theorem reexecs_iff (mem : ℕ → Byte) (argv envp : List (List Byte))
    (nulFree : ∀ str ∈ argv ++ envp, 0 ∉ str) (fits : layoutSize argv envp ≤ pageSize)
    (main : ℕ → Byte) (untouched : Untouched mem argv envp main) :
    Reexecs argv envp main (procInitUstack mem argv envp).2 ↔ EndsInNull argv envp :=
  ⟨endsInNull_of_reexecs nulFree fits untouched, reexecs_of_endsInNull nulFree fits untouched⟩

/-- `echo ""`. -/
theorem reexecs_iff_echo :
    layoutSize [[101, 99, 104, 111], []] [] ≤ pageSize ∧
      (Reexecs [[101, 99, 104, 111], []] []
        (userMem (procInitUstack (fun _ => 0) [[101, 99, 104, 111], []] []).1)
        (procInitUstack (fun _ => 0) [[101, 99, 104, 111], []] []).2 ↔
          EndsInNull [[101, 99, 104, 111], []] []) :=
  ⟨by decide, reexecs_iff (fun _ => 0) _ _ (by decide) (by decide) _ (fun _ _ => rfl)⟩

/-- A program that has been started with the one argument `a`. -/
theorem not_reexecs_all : ¬∀ (mem : ℕ → Byte) (argv envp : List (List Byte)),
    (∀ str ∈ argv ++ envp, 0 ∉ str) → layoutSize argv envp ≤ pageSize →
    ∀ main, Untouched mem argv envp main →
      Reexecs argv envp main (procInitUstack mem argv envp).2 := by
  intro all
  have nulFree : ∀ str ∈ [[(97 : Byte)]] ++ [], 0 ∉ str := by decide
  have fits : layoutSize [[97]] [] ≤ pageSize := by decide
  have untouched : Untouched (fun _ => 0) [[97]] []
      (userMem (procInitUstack (fun _ => 0) [[97]] []).1) := fun _ _ => rfl
  have reexecs := all (fun _ => 0) [[97]] [] nulFree fits _ untouched
  rcases endsInNull_of_reexecs nulFree fits untouched reexecs with ⟨noArgs, _⟩ | isEmpty
  · cases noArgs
  · simp at isEmpty

end

end Osix.Ustack
