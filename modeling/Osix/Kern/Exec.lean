import Osix.Kern.Ustack

/-!
# Where exec stores

`sys_exec` of `sys/kern/kern_exec.c`, with the stores that `proc_init_ustack` makes through the
stack pointer. The stack pointer is a 32-bit word that starts at the end of the new page and only
falls; nothing compares it with the start of the page.
-/

namespace Osix.Exec

open PushDown Ustack

/-- The bytes that one `memset`, `strncpy` or `memcpy` stores. -/
structure Store where
  addr : BitVec 32
  size : BitVec 32
deriving DecidableEq

/-- The store lies in the page that is mapped at `SYS_VADDR_TMP`. -/
def Store.Inside (store : Store) : Prop :=
  sysVaddrTmp ≤ store.addr.toNat ∧
    store.addr.toNat + store.size.toNat ≤ sysVaddrTmp + pageSize

instance (store : Store) : Decidable store.Inside := inferInstanceAs (Decidable (_ ∧ _))

/-- The stack pointer, and what has been stored so far. -/
structure Pushes where
  esp : BitVec 32
  stores : List Store

/-- `esp -= size` and the copy to `esp`. -/
def Pushes.push (pushes : Pushes) (size : BitVec 32) : Pushes where
  esp := pushes.esp - size
  stores := pushes.stores ++ [⟨pushes.esp - size, size⟩]

/-- `env_stack_len` and `arg_stack_len`. -/
def stackSize (str : List Byte) : BitVec 32 := (BitVec.ofNat 32 str.length + 4) &&& ~~~3

/-- After `memset`. -/
def cleared : Pushes where
  esp := BitVec.ofNat 32 sysVaddrTmp + BitVec.ofNat 32 pageSize
  stores := [⟨BitVec.ofNat 32 sysVaddrTmp, BitVec.ofNat 32 pageSize⟩]

/-- The stores of `proc_init_ustack`, in their order. -/
def stackStores (argv envp : List (List Byte)) : List Store :=
  let env := envp.foldl (fun pushes str => pushes.push (stackSize str)) cleared
  let envVector := env.push (4 * (BitVec.ofNat 32 envp.length + 1))
  let arg := argv.foldl (fun pushes str => pushes.push (stackSize str)) envVector
  let argVector := arg.push (4 * BitVec.ofNat 32 argv.length)
  ((((argVector.push 4).push 4).push 4).push 4).stores

/-- What the pushes take, as the code computes their sizes. -/
def stackSpace (argv envp : List (List Byte)) : ℕ :=
  (envp.map fun str => (stackSize str).toNat).sum +
    (4 * (BitVec.ofNat 32 envp.length + 1)).toNat +
    (argv.map fun str => (stackSize str).toNat).sum +
    (4 * BitVec.ofNat 32 argv.length).toNat + 16

/-- What `nameiname` and the reads from the file give. -/
structure Lookup where
  error : ℤ
  command : List Byte
  nread : ℤ
  magic : List Byte
  contents : List Byte

/-- The process image. -/
structure Image where
  command : List Byte
  contents : List Byte
  ustack : ℕ → Byte
  userEsp : ℕ
  dispatcher : ℕ
  handlers : ℕ → ℕ

/-- What `sys_exec` does; it does not return when it starts the program. -/
structure Result where
  ret : Option ℤ
  image : Image
  stores : List Store

/-- `PROC_NAME_LEN`. -/
def procNameLen : ℕ := 16

/-- `sys_exec`, in the kernel memory `mem`. -/
def sysExec (lookup : Lookup) (mem : ℕ → Byte) (image : Image) (argv envp : List (List Byte)) :
    Result :=
  if lookup.error ≠ 0 then
    ⟨some lookup.error, image, []⟩
  else if lookup.nread ≠ 2 ∨ lookup.magic[0]? ≠ some 0xb8 ∨ lookup.magic[1]? ≠ some 0x0b then
    ⟨some (-enoexec), image, []⟩
  else
    let (page, userEsp) := procInitUstack mem argv envp
    { ret := none
      image :=
        { command := strncpy lookup.command (procNameLen - 1) ++ [0]
          contents := lookup.contents
          ustack := userMem page
          userEsp := userEsp
          dispatcher := 0
          handlers := fun _ => 0 }
      stores := stackStores argv envp }

/-- An error leaves the image as it is; otherwise all stores lie in the new page. -/
def Contained (lookup : Lookup) (mem : ℕ → Byte) (image : Image) (argv envp : List (List Byte)) :
    Prop :=
  let result := sysExec lookup mem image argv envp
  (∃ error, result.ret = some error ∧ error ≠ 0 ∧ result.image = image) ∨
    ∀ store ∈ result.stores, store.Inside

section

variable {pushes : Pushes} {argv envp : List (List Byte)}

/-- A push stays in the page if and only if the page has room for it. -/
theorem inside_push_iff {esp size : BitVec 32} (above : sysVaddrTmp ≤ esp.toNat)
    (below : esp.toNat ≤ sysVaddrTmp + pageSize) :
    Store.Inside ⟨esp - size, size⟩ ↔ sysVaddrTmp + size.toNat ≤ esp.toNat := by
  have sizeBound := size.isLt
  unfold Store.Inside
  simp only [BitVec.toNat_sub, sysVaddrTmp, pageSize] at *
  omega

theorem mem_foldl_push {store : Store} (sizes : List (BitVec 32)) (isIn : store ∈ pushes.stores) :
    store ∈ (sizes.foldl Pushes.push pushes).stores := by
  induction sizes generalizing pushes with
  | nil => exact isIn
  | cons size rest ih => exact ih (List.mem_append_left _ isIn)

/-- All pushes stay in the page if and only if it has room for all of them. -/
theorem inside_foldl_iff (sizes : List (BitVec 32)) (above : sysVaddrTmp ≤ pushes.esp.toNat)
    (below : pushes.esp.toNat ≤ sysVaddrTmp + pageSize)
    (inside : ∀ store ∈ pushes.stores, store.Inside) :
    (∀ store ∈ (sizes.foldl Pushes.push pushes).stores, store.Inside) ↔
      sysVaddrTmp + (sizes.map BitVec.toNat).sum ≤ pushes.esp.toNat := by
  induction sizes generalizing pushes with
  | nil => exact ⟨fun _ => above, fun _ => inside⟩
  | cons size rest ih =>
      have pushed := @inside_push_iff pushes.esp size above below
      rw [List.foldl_cons, List.map_cons, List.sum_cons]
      by_cases fits : sysVaddrTmp + size.toNat ≤ pushes.esp.toNat
      · have isEsp : (pushes.push size).esp.toNat = pushes.esp.toNat - size.toNat :=
          BitVec.toNat_sub_of_le (by rw [BitVec.le_def]; omega)
        rw [ih (by omega) (by omega) (List.forall_mem_append.mpr
          ⟨inside, List.forall_mem_singleton.mpr (pushed.mpr fits)⟩)]
        omega
      · have isPushed : ⟨pushes.esp - size, size⟩ ∈ (pushes.push size).stores :=
          List.mem_append_right _ (List.mem_singleton_self _)
        have isStored := mem_foldl_push rest isPushed
        refine ⟨fun allInside => absurd (pushed.mp (allInside _ isStored)) fits, fun _ => ?_⟩
        omega

/-- The sizes of all pushes. -/
def pushSizes (argv envp : List (List Byte)) : List (BitVec 32) :=
  envp.map stackSize ++ 4 * (BitVec.ofNat 32 envp.length + 1) ::
    (argv.map stackSize ++ [4 * BitVec.ofNat 32 argv.length, 4, 4, 4, 4])

theorem stackStores_eq (argv envp : List (List Byte)) :
    stackStores argv envp = ((pushSizes argv envp).foldl Pushes.push cleared).stores := by
  simp only [stackStores, pushSizes, List.foldl_append, List.foldl_cons, List.foldl_nil,
    List.foldl_map]

theorem sum_pushSizes (argv envp : List (List Byte)) :
    ((pushSizes argv envp).map BitVec.toNat).sum = stackSpace argv envp := by
  simp only [pushSizes, stackSpace, List.map_append, List.map_cons, List.map_map, List.map_nil,
    List.sum_append, List.sum_cons, List.sum_nil, Function.comp_def]
  have four : (4 : BitVec 32).toNat = 4 := rfl
  rw [four]
  omega

theorem inside_stackStores_iff (argv envp : List (List Byte)) :
    (∀ store ∈ stackStores argv envp, store.Inside) ↔ stackSpace argv envp ≤ pageSize := by
  have isTop : cleared.esp.toNat = sysVaddrTmp + pageSize := by decide
  rw [stackStores_eq, inside_foldl_iff, sum_pushSizes, isTop, Nat.add_le_add_iff_left]
  · rw [isTop]
    exact Nat.le_add_right _ _
  · exact isTop.le
  · decide

/--
`sys_exec` stays inside the new page if and only if it fails before it builds the stack, or the
strings and vectors fit into the page.
-/
theorem contained_iff (lookup : Lookup) (mem : ℕ → Byte) (image : Image)
    (argv envp : List (List Byte)) :
    Contained lookup mem image argv envp ↔
      lookup.error ≠ 0 ∨ lookup.nread ≠ 2 ∨ lookup.magic[0]? ≠ some 0xb8 ∨
        lookup.magic[1]? ≠ some 0x0b ∨ stackSpace argv envp ≤ pageSize := by
  unfold Contained sysExec
  by_cases missing : lookup.error ≠ 0
  · rw [if_pos missing]
    exact ⟨fun _ => .inl missing, fun _ => .inl ⟨_, rfl, missing, rfl⟩⟩
  rw [if_neg missing]
  by_cases noBinary : lookup.nread ≠ 2 ∨ lookup.magic[0]? ≠ some 0xb8 ∨
      lookup.magic[1]? ≠ some 0x0b
  · rw [if_pos noBinary]
    refine ⟨fun _ => .inr ?_, fun _ => .inl ⟨_, rfl, by decide, rfl⟩⟩
    rcases noBinary with short | first | second
    · exact .inl short
    · exact .inr (.inl first)
    · exact .inr (.inr (.inl second))
  rw [if_neg noBinary]
  simp only [reduceCtorEq, false_and, exists_false, false_or]
  rw [inside_stackStores_iff]
  constructor
  · exact fun fits => .inr (.inr (.inr (.inr fits)))
  · rintro (isMissing | isShort | isFirst | isSecond | fits)
    · exact absurd isMissing missing
    · exact absurd (.inl isShort) noBinary
    · exact absurd (.inr (.inl isFirst)) noBinary
    · exact absurd (.inr (.inr isSecond)) noBinary
    · exact fits

/-- A program with one argument of 5000 letters. -/
theorem not_contained_all : ¬∀ (lookup : Lookup) (mem : ℕ → Byte) (image : Image)
    (argv envp : List (List Byte)), Contained lookup mem image argv envp := by
  intro all
  have contained := all ⟨0, [], 2, [0xb8, 0x0b], []⟩ (fun _ => 0)
    ⟨[], [], fun _ => 0, 0, 0, fun _ => 0⟩ [List.replicate 5000 97] []
  rcases contained with ⟨_, isError, _⟩ | inside
  · cases isError
  · change ∀ store ∈ stackStores [List.replicate 5000 97] [], store.Inside at inside
    rw [inside_stackStores_iff] at inside
    simp only [stackSpace, stackSize, List.map_cons, List.map_nil, List.length_replicate,
      List.length_nil, List.length_cons] at inside
    exact absurd inside (by decide)

end

/-! ## The stores and the memory -/

section

variable {argv envp strs : List (List Byte)} {stack : Stack Byte}

theorem toNat_stackSize {str : List Byte} (short : str.length + 4 < 2 ^ 32) :
    (stackSize str).toNat = stackLen str := by
  have isAligned : stackSize str = ((BitVec.ofNat 32 str.length + 4) >>> 2) <<< 2 := by
    unfold stackSize
    generalize BitVec.ofNat 32 str.length + 4 = length
    ext index inside
    rw [BitVec.getElem_and, BitVec.getElem_not, BitVec.getElem_shiftLeft]
    rcases Nat.lt_or_ge index 2 with low | high
    · have isSet : (3#32)[index] = true := by
        rw [BitVec.getElem_eq_testBit_toNat]
        rcases (show index = 0 ∨ index = 1 by omega) with isZero | isOne
        · rw [isZero]
          rfl
        · rw [isOne]
          rfl
      simp only [BitVec.ofNat_eq_ofNat, isSet, low, decide_true, Bool.not_true, Bool.and_false,
        Bool.false_and]
    · have isClear : (3#32)[index] = false := by
        rw [BitVec.getElem_eq_testBit_toNat]
        exact Nat.testBit_lt_two_pow ((show 3 < 2 ^ 2 by decide).trans_le
          (Nat.pow_le_pow_right (by decide) high))
      have isSame : 2 + (index - 2) = index := by omega
      simp only [BitVec.ofNat_eq_ofNat, isClear, Nat.not_lt.mpr high, decide_false, Bool.not_false,
        Bool.and_true, Bool.true_and, BitVec.getElem_ushiftRight, isSame,
        BitVec.getLsbD_eq_getElem inside]
  rw [isAligned, stackLen, BitVec.toNat_shiftLeft, BitVec.toNat_ushiftRight, BitVec.toNat_add,
    BitVec.toNat_ofNat, Nat.shiftLeft_eq, Nat.shiftRight_eq_div_pow]
  have four : (4 : BitVec 32).toNat = 4 := rfl
  rw [four]
  omega

theorem stackSpace_eq (short : ∀ str ∈ argv ++ envp, str.length + 4 < 2 ^ 32)
    (few : ∀ strs ∈ [argv, envp], 4 * (strs.length + 1) < 2 ^ 32) :
    stackSpace argv envp = layoutSize argv envp := by
  rw [List.forall_mem_append] at short
  have sameSizes : ∀ strs : List (List Byte), (∀ str ∈ strs, str.length + 4 < 2 ^ 32) →
      strs.map (fun str => (stackSize str).toNat) = strs.map stackLen := fun strs short =>
    List.map_congr_left fun str isIn => toNat_stackSize (short str isIn)
  simp only [List.forall_mem_cons] at few
  have envSize : (4 * (BitVec.ofNat 32 envp.length + 1)).toNat = 4 * (envp.length + 1) := by
    bv_omega
  have argSize : (4 * BitVec.ofNat 32 argv.length).toNat = 4 * argv.length := by bv_omega
  rw [stackSpace, layoutSize, sameSizes _ short.1, sameSizes _ short.2, envSize, argSize]

theorem confined_pushStrings {espOffset : ℕ} (fits : (strs.map stackLen).sum ≤ stack.sp) :
    Confined stack (pushStrings espOffset strs stack).1 := by
  induction strs generalizing stack with
  | nil => exact Confined.refl stack
  | cons str rest ih =>
      rw [List.map_cons, List.sum_cons] at fits
      have first : Confined stack (stack.push (padded str)) :=
        confined_push (by rw [length_padded]; omega)
      exact first.trans (ih (by rw [push_sp, length_padded]; omega))

/-- When everything fits, nothing outside the page changes. -/
theorem procInitUstack_outside (fits : layoutSize argv envp ≤ pageSize) (mem : ℕ → Byte) {addr : ℕ}
    (outside : addr < sysVaddrTmp ∨ sysVaddrTmp + pageSize ≤ addr) :
    (procInitUstack mem argv envp).1 addr = mem addr := by
  simp only [procInitUstack]
  generalize sysVaddrTmp - userUstack = espOffset
  generalize isCleared : (fun addr => if sysVaddrTmp ≤ addr ∧ addr < sysVaddrTmp + pageSize then 0
    else mem addr : ℕ → Byte) = cleared
  have same : cleared addr = mem addr := by
    rw [← isCleared]
    exact if_neg (by omega)
  have isTmp : pageSize ≤ sysVaddrTmp := by decide
  unfold layoutSize at fits
  generalize isTop : (⟨cleared, sysVaddrTmp + pageSize⟩ : Stack Byte) = top
  have topSp : top.sp = sysVaddrTmp + pageSize := by rw [← isTop]
  have envSp := pushStrings_sp espOffset envp top
  have envLength := pushStrings_length espOffset envp top
  have envConfined := @confined_pushStrings envp top espOffset (by omega)
  generalize pushStrings espOffset envp top = env at envSp envLength envConfined ⊢
  have vectorLength : (words (env.2 ++ [0])).length = 4 * (envp.length + 1) := by
    rw [length_words, List.length_append, envLength, List.length_singleton]
  have vectorConfined : Confined env.1 (env.1.push (words (env.2 ++ [0]))) :=
    confined_push (by rw [vectorLength]; omega)
  have vectorSp := push_sp env.1 (words (env.2 ++ [0]))
  rw [vectorLength] at vectorSp
  generalize env.1.push (words (env.2 ++ [0])) = vector at vectorConfined vectorSp ⊢
  have argSp := pushStrings_sp espOffset argv vector
  have argLength := pushStrings_length espOffset argv vector
  have argConfined := @confined_pushStrings argv vector espOffset (by omega)
  generalize pushStrings espOffset argv vector = arg at argSp argLength argConfined ⊢
  have argVectorConfined : Confined arg.1 (arg.1.push (words arg.2)) :=
    confined_push (by rw [length_words, argLength]; omega)
  have argVectorSp := push_sp arg.1 (words arg.2)
  rw [length_words, argLength] at argVectorSp
  generalize arg.1.push (words arg.2) = argVector at argVectorConfined argVectorSp ⊢
  have header : ∀ a b c d : ℕ, Confined argVector
      ((((argVector.push (words [a])).push (words [b])).push (words [c])).push (words [d])) := by
    intro a b c d
    refine (confined_push ?_).trans ((confined_push ?_).trans
      ((confined_push ?_).trans (confined_push ?_))) <;>
      simp only [push_sp, length_words, List.length_singleton] <;> omega
  have vectors := (envConfined.trans vectorConfined).trans (argConfined.trans argVectorConfined)
  have whole := vectors.trans (header (vector.sp - espOffset) (argVector.sp - espOffset)
    argv.length (vector.sp - espOffset))
  refine Eq.trans ?_ ((congrArg (fun stack => Stack.mem stack addr) isTop).symm.trans same)
  rcases outside with isBelow | isAbove
  · refine whole.beneath addr ?_
    simp only [push_sp, length_words, List.length_singleton]
    omega
  · exact whole.above addr (topSp.le.trans isAbove)

end

end Osix.Exec
