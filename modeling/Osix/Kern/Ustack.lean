import Osix.Fs.Basic
import Osix.Lib.PushDown

/-!
# The stack of a new program

`proc_init_ustack` of `sys/kern/proc.c` builds the first page of a user stack, and `start` in
`lib/crt0.S` and the C calling convention take it apart again. The kernel writes the page through
a temporary mapping, so all pointers in it are moved to where the program will see them.
-/

namespace Osix.Ustack

open PushDown

/-- `PAGE_SIZE`. -/
def pageSize : ℕ := 4096

/-- `SYS_VADDR_TMP`. -/
def sysVaddrTmp : ℕ := 0x80001000

/-- `USER_USTACK`. -/
def userUstack : ℕ := 0x1FF000

/-! ## Building the page -/

/-- The bytes that `strncpy` stores. -/
def strncpy (src : List Byte) (n : ℕ) : List Byte := (src.take n).rightpad n 0

/-- `(len + sizeof(uintptr_t)) & ~(sizeof(uintptr_t) - 1)` for the length of a string. -/
def stackLen (str : List Byte) : ℕ := (str.length + 4) / 4 * 4

/-- The bytes of a string on the stack. -/
def padded (str : List Byte) : List Byte := strncpy str (stackLen str)

/-- The bytes of a vector of pointers or of a single word. -/
def words (values : List ℕ) : List Byte := values.flatMap bytes32

/-- The loop that copies the strings of a vector, with the addresses it stores in the copy. -/
def pushStrings (espOffset : ℕ) : List (List Byte) → Stack Byte → Stack Byte × List ℕ
  | [], stack => (stack, [])
  | str :: rest, stack =>
      let pushed := stack.push (padded str)
      let result := pushStrings espOffset rest pushed
      (result.1, (pushed.sp - espOffset) :: result.2)

/-- `proc_init_ustack`: the kernel's memory and the stack pointer of the program. -/
def procInitUstack (mem : ℕ → Byte) (argv envp : List (List Byte)) : (ℕ → Byte) × ℕ :=
  let cleared : ℕ → Byte := fun addr =>
    if sysVaddrTmp ≤ addr ∧ addr < sysVaddrTmp + pageSize then 0 else mem addr
  let espOffset := sysVaddrTmp - userUstack
  let (env, envPtrs) := pushStrings espOffset envp ⟨cleared, sysVaddrTmp + pageSize⟩
  let envVector := env.push (words (envPtrs ++ [0]))
  let envpAddr := envVector.sp - espOffset
  let (arg, argPtrs) := pushStrings espOffset argv envVector
  let argVector := arg.push (words argPtrs)
  let argpAddr := argVector.sp - espOffset
  let final := (((argVector.push (words [envpAddr])).push (words [argpAddr])).push
    (words [argv.length])).push (words [envpAddr])
  (final.mem, final.sp - espOffset)

/-- What the strings and vectors take of the page. -/
def layoutSize (argv envp : List (List Byte)) : ℕ :=
  (envp.map stackLen).sum + 4 * (envp.length + 1) + (argv.map stackLen).sum + 4 * argv.length + 16

/-! ## Taking it apart -/

/-- The program's memory once the page is mapped at `USER_USTACK`. -/
def userMem (mem : ℕ → Byte) (addr : ℕ) : Byte := mem (addr + (sysVaddrTmp - userUstack))

/-- A string up to its terminating 0, which has to come before the end of the page. -/
def readString (mem : ℕ → Byte) (addr : ℕ) : List Byte :=
  ((List.range (userUstack + pageSize - addr)).map fun index => mem (addr + index)).takeWhile (· ≠ 0)

/-- A vector of pointers up to its terminating `NULL`. -/
def readVector (mem : ℕ → Byte) : ℕ → ℕ → List ℕ
  | 0, _ => []
  | fuel + 1, addr =>
      if Block.get32 mem addr = 0 then []
      else Block.get32 mem addr :: readVector mem fuel (addr + 4)

/-- `start` pops the first word into `environ`. -/
def environ (mem : ℕ → Byte) (esp : ℕ) : ℕ := Block.get32 mem esp

/-- The parameters of `main`, above the return address, which is where `environ` was. -/
def mainArgc (mem : ℕ → Byte) (esp : ℕ) : ℕ := Block.get32 mem (esp + 4)
def mainArgv (mem : ℕ → Byte) (esp : ℕ) : ℕ := Block.get32 mem (esp + 8)
def mainEnvp (mem : ℕ → Byte) (esp : ℕ) : ℕ := Block.get32 mem (esp + 12)

/-- The pointers `argv[0]` to `argv[argc - 1]`. -/
def argPtrs (mem : ℕ → Byte) (esp : ℕ) : List ℕ :=
  (List.range (mainArgc mem esp)).map fun index => Block.get32 mem (mainArgv mem esp + 4 * index)

/-- The pointers `envp[0]` up to the `NULL`. -/
def envPtrs (mem : ℕ → Byte) (esp : ℕ) : List ℕ := readVector mem pageSize (mainEnvp mem esp)

/-! ## The page as the program sees it -/

theorem length_padded (str : List Byte) : (padded str).length = stackLen str := by
  unfold padded strncpy stackLen
  rw [List.length_rightpad, List.length_take]
  omega

theorem length_words (values : List ℕ) : (words values).length = 4 * values.length := by
  induction values with
  | nil => rfl
  | cons value rest ih =>
      rw [words, List.flatMap_cons, List.length_append, ← words, ih, List.length_cons]
      change 4 + _ = _
      omega

theorem total_padded (strs : List (List Byte)) :
    total (strs.map padded) = (strs.map stackLen).sum := by
  unfold total
  rw [List.map_map]
  congr 2
  funext str
  exact length_padded str

theorem pushStrings_sp (espOffset : ℕ) (strs : List (List Byte)) (stack : Stack Byte) :
    (pushStrings espOffset strs stack).1.sp = stack.sp - (strs.map stackLen).sum := by
  induction strs generalizing stack with
  | nil => rfl
  | cons str rest ih =>
      simp only [pushStrings, ih, push_sp, length_padded, List.map_cons, List.sum_cons]
      omega

theorem pushStrings_length (espOffset : ℕ) (strs : List (List Byte)) (stack : Stack Byte) :
    (pushStrings espOffset strs stack).2.length = strs.length := by
  induction strs generalizing stack with
  | nil => rfl
  | cons str rest ih => simp only [pushStrings, List.length_cons, ih]

/-- Seen by the program, the loop pushes the strings and notes where they are. -/
theorem pushStrings_moved {espOffset : ℕ} {strs : List (List Byte)} {stack : Stack Byte}
    (fits : espOffset + total (strs.map padded) ≤ stack.sp) :
    ((pushStrings espOffset strs stack).1.moved espOffset, (pushStrings espOffset strs stack).2) =
      (stack.moved espOffset).pushAll (strs.map padded) := by
  induction strs generalizing stack with
  | nil => rfl
  | cons str rest ih =>
      rw [List.map_cons, total_cons] at fits
      have fitsFirst : espOffset + (padded str).length ≤ stack.sp := by omega
      have fitsRest : espOffset + total (rest.map padded) ≤ (stack.push (padded str)).sp := by
        rw [push_sp]
        omega
      have restMoved := ih fitsRest
      rw [moved_push fitsFirst] at restMoved
      have isFirst := congrArg Prod.fst restMoved
      have isSecond := congrArg Prod.snd restMoved
      simp only [List.map_cons, pushStrings, Stack.pushAll]
      dsimp only at isFirst isSecond
      rw [isFirst, isSecond]
      rw [push_sp, push_sp]
      exact congrArg (Prod.mk _) (congrArg (· :: _) (Nat.sub_right_comm ..))

/-- What `proc_init_ustack` builds, at the addresses of the program. -/
structure Layout where
  env : Stack Byte
  envPtrs : List ℕ
  envVector : Stack Byte
  arg : Stack Byte
  argPtrs : List ℕ
  argVector : Stack Byte
  header : Stack Byte
  final : Stack Byte

/-- The pushes of `proc_init_ustack`. -/
def layout (argv envp : List (List Byte)) (stack : Stack Byte) : Layout :=
  let env := stack.pushAll (envp.map padded)
  let envVector := env.1.push (words (env.2 ++ [0]))
  let arg := envVector.pushAll (argv.map padded)
  let argVector := arg.1.push (words arg.2)
  let header := ((argVector.push (words [envVector.sp])).push (words [argVector.sp])).push
    (words [argv.length])
  { env := env.1
    envPtrs := env.2
    envVector := envVector
    arg := arg.1
    argPtrs := arg.2
    argVector := argVector
    header := header
    final := header.push (words [envVector.sp]) }

/-- Seen by the program, `proc_init_ustack` has pushed everything at the program's addresses. -/
theorem procInitUstack_moved {argv envp : List (List Byte)}
    (fits : layoutSize argv envp ≤ pageSize) (mem : ℕ → Byte) :
    ∃ start : Stack Byte, start.sp = userUstack + pageSize ∧
      userMem (procInitUstack mem argv envp).1 = (layout argv envp start).final.mem ∧
      (procInitUstack mem argv envp).2 = (layout argv envp start).final.sp := by
  simp only [procInitUstack]
  unfold userMem
  generalize isOffset : sysVaddrTmp - userUstack = espOffset
  have isTop : sysVaddrTmp + pageSize = espOffset + (userUstack + pageSize) := by
    rw [← isOffset]
    decide
  generalize (fun addr => if sysVaddrTmp ≤ addr ∧ addr < sysVaddrTmp + pageSize then 0
    else mem addr : ℕ → Byte) = cleared
  generalize isStart : (⟨cleared, sysVaddrTmp + pageSize⟩ : Stack Byte) = top
  have topSp : top.sp = espOffset + (userUstack + pageSize) := by
    rw [← isStart]
    exact isTop
  have room : layoutSize argv envp ≤ userUstack + pageSize := fits.trans (Nat.le_add_left _ _)
  unfold layoutSize at room
  have envMoved := @pushStrings_moved espOffset envp top
    (by rw [topSp, total_padded]; omega)
  have envSp := pushStrings_sp espOffset envp top
  refine ⟨top.moved espOffset, ?_, ?_⟩
  · change top.sp - espOffset = _
    rw [topSp, Nat.add_sub_cancel_left]
  simp only [layout]
  rw [← envMoved]
  have envLength := pushStrings_length espOffset envp top
  generalize pushStrings espOffset envp top = env at envSp envLength ⊢
  have vectorLength : (words (env.2 ++ [0])).length = 4 * (envp.length + 1) := by
    rw [length_words, List.length_append, envLength, List.length_singleton]
  have vectorMoved : (env.1.push (words (env.2 ++ [0]))).moved espOffset =
      (env.1.moved espOffset).push (words (env.2 ++ [0])) :=
    moved_push (by rw [vectorLength, envSp, topSp]; omega)
  have vectorSp : (env.1.push (words (env.2 ++ [0]))).sp =
      espOffset + (userUstack + pageSize) - (envp.map stackLen).sum - 4 * (envp.length + 1) := by
    rw [push_sp, vectorLength, envSp, topSp]
  rw [← vectorMoved]
  generalize env.1.push (words (env.2 ++ [0])) = vector at vectorSp ⊢
  have argMoved := @pushStrings_moved espOffset argv vector
    (by rw [vectorSp, total_padded]; omega)
  have argSp := pushStrings_sp espOffset argv vector
  have argLength := pushStrings_length espOffset argv vector
  rw [← argMoved]
  generalize pushStrings espOffset argv vector = arg at argSp argLength ⊢
  have argVectorMoved : (arg.1.push (words arg.2)).moved espOffset =
      (arg.1.moved espOffset).push (words arg.2) :=
    moved_push (by rw [length_words, argLength, argSp, vectorSp]; omega)
  have argVectorSp : (arg.1.push (words arg.2)).sp = espOffset + (userUstack + pageSize) -
      (envp.map stackLen).sum - 4 * (envp.length + 1) - (argv.map stackLen).sum -
        4 * argv.length := by
    rw [push_sp, length_words, argLength, argSp, vectorSp]
  rw [← argVectorMoved]
  generalize arg.1.push (words arg.2) = argVector at argVectorSp ⊢
  have header : ∀ a b c d : ℕ,
      ((((argVector.push (words [a])).push (words [b])).push (words [c])).push
        (words [d])).moved espOffset =
      ((((argVector.moved espOffset).push (words [a])).push (words [b])).push (words [c])).push
        (words [d]) := by
    intro a b c d
    rw [moved_push, moved_push, moved_push, moved_push] <;>
      simp only [push_sp, length_words, List.length_singleton, argVectorSp] <;> omega
  have isFinal := header (vector.sp - espOffset) (argVector.sp - espOffset) argv.length
    (vector.sp - espOffset)
  exact ⟨congrArg Stack.mem isFinal, congrArg Stack.sp isFinal⟩

/-! ## Reading the page -/

section

variable {mem : ℕ → Byte} {addr : ℕ}

theorem get32_of_holds {value : ℕ} (holds : Holds mem addr (bytes32 value))
    (small : value < 2 ^ 32) : Block.get32 mem addr = value := by
  have byte : ∀ index (inside : index < 4), mem (addr + index) =
      [BitVec.ofNat 8 value, BitVec.ofNat 8 (value / 256), BitVec.ofNat 8 (value / 65536),
        BitVec.ofNat 8 (value / 65536 / 256)][index] := holds
  have first := byte 0 (by decide)
  have second := byte 1 (by decide)
  have third := byte 2 (by decide)
  have fourth := byte 3 (by decide)
  simp only [Nat.add_zero] at first
  simp only [Block.get32, Block.get16, Nat.add_assoc, first, second, third, fourth, Nat.reduceAdd]
  simp only [List.getElem_cons_zero, List.getElem_cons_succ, BitVec.toNat_ofNat]
  omega

/-- A word of a vector. -/
theorem get32_words {values : List ℕ} (holds : Holds mem addr (words values))
    (small : ∀ value ∈ values, value < 2 ^ 32) (index : ℕ) (inside : index < values.length) :
    Block.get32 mem (addr + 4 * index) = values[index] := by
  induction values generalizing addr index with
  | nil => cases inside
  | cons value rest ih =>
      rw [words, List.flatMap_cons, Holds.append] at holds
      cases index with
      | zero => exact get32_of_holds holds.1 (small value List.mem_cons_self)
      | succ index =>
          have atRest := ih holds.2 (fun other isIn => small other (List.mem_cons_of_mem _ isIn))
            index (Nat.lt_of_succ_lt_succ inside)
          have sameAddr : addr + 4 * (index + 1) = addr + (bytes32 value).length + 4 * index := by
            change _ = addr + 4 + 4 * index
            omega
          rw [sameAddr]
          exact atRest

theorem padded_eq (str : List Byte) :
    ∃ zeros, padded str = str ++ 0 :: List.replicate zeros 0 := by
  refine ⟨stackLen str - str.length - 1, ?_⟩
  have room : str.length + 1 ≤ stackLen str := by
    unfold stackLen
    omega
  unfold padded strncpy
  rw [List.take_of_length_le (by omega), List.rightpad, ← List.replicate_succ]
  congr 2
  omega

/-- A string is read back up to its terminating 0. -/
theorem readString_of_holds {str : List Byte} (holds : Holds mem addr (padded str))
    (nulFree : 0 ∉ str) (inside : addr + stackLen str ≤ userUstack + pageSize) :
    readString mem addr = str := by
  have room : str.length + 1 ≤ stackLen str := by
    unfold stackLen
    omega
  rcases padded_eq str with ⟨zeros, isPadded⟩
  rw [isPadded, Holds.append] at holds
  have isEnd := holds.2 0 (by simp)
  rw [Nat.add_zero, List.getElem_cons_zero] at isEnd
  have isLength : userUstack + pageSize - addr =
      str.length + (userUstack + pageSize - addr - str.length - 1 + 1) := by
    omega
  unfold readString
  rw [isLength, List.range_add, List.map_append, holds.1.map_range, List.takeWhile_append_of_pos,
    List.range_succ_eq_map]
  · simp [isEnd]
  · intro byte isIn
    simp only [ne_eq, decide_not, Bool.not_eq_eq_eq_not, Bool.not_true, decide_eq_false_iff_not]
    rintro rfl
    exact nulFree isIn

/-- A vector of pointers is read back up to its `NULL`. -/
theorem readVector_of_holds {ptrs : List ℕ} (holds : Holds mem addr (words (ptrs ++ [0])))
    (small : ∀ ptr ∈ ptrs, ptr ≠ 0 ∧ ptr < 2 ^ 32) {fuel : ℕ} (enough : ptrs.length < fuel) :
    readVector mem fuel addr = ptrs := by
  induction ptrs generalizing addr fuel with
  | nil =>
      cases fuel with
      | zero => cases enough
      | succ fuel =>
          have isNull := get32_of_holds (show Holds mem addr (bytes32 0) from holds) (by decide)
          rw [readVector, if_pos isNull]
  | cons ptr rest ih =>
      cases fuel with
      | zero => cases enough
      | succ fuel =>
          rw [List.cons_append, words, List.flatMap_cons, Holds.append] at holds
          rcases small ptr List.mem_cons_self with ⟨notNull, isSmall⟩
          have isPtr := get32_of_holds holds.1 isSmall
          have isRest := ih holds.2 (fun other isIn => small other (List.mem_cons_of_mem _ isIn))
            (Nat.lt_of_succ_lt_succ enough)
          rw [readVector, isPtr, if_neg notNull]
          exact congrArg (ptr :: ·) isRest

end

/-! ## What lies where -/

theorem pushAll_length (stack : Stack Byte) (lists : List (List Byte)) :
    (stack.pushAll lists).2.length = lists.length := by
  induction lists generalizing stack with
  | nil => rfl
  | cons items rest ih => simp only [Stack.pushAll, List.length_cons, ih]

section

variable {argv envp : List (List Byte)} {start : Stack Byte}

/-- Where the parts of the layout begin. -/
structure Places (argv envp : List (List Byte)) (start : Stack Byte) (built : Layout) : Prop where
  env : built.env.sp = start.sp - (envp.map stackLen).sum
  envVector : built.envVector.sp = built.env.sp - 4 * (envp.length + 1)
  arg : built.arg.sp = built.envVector.sp - (argv.map stackLen).sum
  argVector : built.argVector.sp = built.arg.sp - 4 * argv.length
  header : built.header.sp = built.argVector.sp - 12
  final : built.final.sp = built.header.sp - 4
  envLength : built.envPtrs.length = envp.length
  argLength : built.argPtrs.length = argv.length

theorem places_layout (argv envp : List (List Byte)) (start : Stack Byte) :
    Places argv envp start (layout argv envp start) := by
  have envLength : (layout argv envp start).envPtrs.length = envp.length :=
    (pushAll_length _ _).trans (List.length_map ..)
  have argLength : (layout argv envp start).argPtrs.length = argv.length :=
    (pushAll_length _ _).trans (List.length_map ..)
  have vectorLength : (words ((layout argv envp start).envPtrs ++ [0])).length =
      4 * (envp.length + 1) := by
    rw [length_words, List.length_append, envLength, List.length_singleton]
  have argVectorLength : (words (layout argv envp start).argPtrs).length = 4 * argv.length := by
    rw [length_words, argLength]
  refine ⟨?_, ?_, ?_, ?_, ?_, ?_, envLength, argLength⟩
  · exact (pushAll_sp _ _).trans (by rw [total_padded])
  · exact congrArg ((layout argv envp start).env.sp - ·) vectorLength
  · exact (pushAll_sp _ _).trans (by rw [total_padded]; rfl)
  · exact congrArg ((layout argv envp start).arg.sp - ·) argVectorLength
  · change (layout argv envp start).argVector.sp - _ - _ - _ = _
    simp only [length_words, List.length_singleton]
    omega
  · change (layout argv envp start).header.sp - _ = _
    rw [length_words, List.length_singleton]

/-- One part of the layout is pushed on top of the other. -/
structure Chain (start : Stack Byte) (built : Layout) : Prop where
  env : PushDown.Grown start built.env
  envVector : PushDown.Grown built.env built.envVector
  arg : PushDown.Grown built.envVector built.arg
  argVector : PushDown.Grown built.arg built.argVector
  header : PushDown.Grown built.argVector built.header
  final : PushDown.Grown built.header built.final

theorem chain_layout (fits : layoutSize argv envp ≤ start.sp) :
    Chain start (layout argv envp start) := by
  have places := places_layout argv envp start
  unfold layoutSize at fits
  have envSp := places.env
  have envVectorSp := places.envVector
  have argSp := places.arg
  have argVectorSp := places.argVector
  have headerSp := places.header
  refine ⟨?_, ?_, ?_, ?_, ?_, ?_⟩
  · exact grown_pushAll (by rw [total_padded]; omega)
  · apply grown_push
    rw [length_words, List.length_append]
    change 4 * ((layout argv envp start).envPtrs.length + 1) ≤ (layout argv envp start).env.sp
    rw [places.envLength]
    omega
  · apply grown_pushAll
    rw [total_padded]
    omega
  · apply grown_push
    rw [length_words]
    change 4 * (layout argv envp start).argPtrs.length ≤ (layout argv envp start).arg.sp
    rw [places.argLength]
    omega
  · have room : 12 ≤ (layout argv envp start).argVector.sp := by omega
    refine (grown_push ?_).trans ((grown_push ?_).trans (grown_push ?_)) <;>
      simp only [push_sp, length_words, List.length_singleton]
    · exact le_trans (by decide) room
    · omega
    · omega
  · apply grown_push
    change 4 ≤ (layout argv envp start).header.sp
    omega

/-- A string of the page with all its padding. -/
structure StringAt (mem : ℕ → Byte) (str : List Byte) (ptr : ℕ) : Prop where
  holds : Holds mem ptr (padded str)
  above : userUstack ≤ ptr
  below : ptr + stackLen str ≤ userUstack + pageSize

/-- What the program finds in its memory. -/
structure Contents (argv envp : List (List Byte)) (built : Layout) (mem : ℕ → Byte) : Prop where
  env : List.Forall₂ (StringAt mem) envp built.envPtrs
  envVector : Holds mem built.envVector.sp (words (built.envPtrs ++ [0]))
  arg : List.Forall₂ (StringAt mem) argv built.argPtrs
  argVector : Holds mem built.argVector.sp (words built.argPtrs)
  header : Holds mem built.header.sp (words [argv.length, built.argVector.sp, built.envVector.sp])

/-- The three words below the vector of arguments. -/
theorem holds_header (room : 12 ≤ (layout argv envp start).argVector.sp) :
    Holds (layout argv envp start).header.mem (layout argv envp start).header.sp
      (words [argv.length, (layout argv envp start).argVector.sp,
        (layout argv envp start).envVector.sp]) := by
  generalize isBuilt : layout argv envp start = built at room
  have isHeader : built.header = ((built.argVector.push (words [built.envVector.sp])).push
      (words [built.argVector.sp])).push (words [argv.length]) := by
    rw [← isBuilt]
    rfl
  have isOne : built.header =
      built.argVector.push (words [argv.length, built.argVector.sp, built.envVector.sp]) := by
    rw [isHeader, push_push, push_push]
    · rfl
    · simp only [List.length_append, length_words, List.length_singleton]
      omega
    · simp only [push_sp, length_words, List.length_singleton]
      omega
  rw [isOne]
  exact holds_push _ _

/-- Everything above the first word stays until `main` runs. -/
theorem contents_layout (isTop : start.sp = userUstack + pageSize)
    (fits : layoutSize argv envp ≤ pageSize) {main : Stack Byte}
    (kept : PushDown.Grown (layout argv envp start).header main) :
    Contents argv envp (layout argv envp start) main.mem := by
  have places := places_layout argv envp start
  have chain := @chain_layout argv envp start (by omega)
  unfold layoutSize at fits
  have envSp := places.env
  have envVectorSp := places.envVector
  have argSp := places.arg
  have argVectorSp := places.argVector
  have fromArgVector := chain.header.trans kept
  have fromArg := chain.argVector.trans fromArgVector
  have fromEnvVector := chain.arg.trans fromArg
  have fromEnv := chain.envVector.trans fromEnvVector
  refine ⟨?_, ?_, ?_, ?_, ?_⟩
  · have holds := @holds_pushAll _ start (envp.map padded) (by rw [total_padded]; omega)
    rw [List.forall₂_map_left_iff] at holds
    refine holds.imp fun str ptr isHeld => ⟨isHeld.1.grown isHeld.2.1 fromEnv, ?_, ?_⟩
    · have isAbove : (layout argv envp start).env.sp ≤ ptr := isHeld.2.1
      omega
    · have isBelow := isHeld.2.2
      rw [length_padded] at isBelow
      exact isBelow.trans isTop.le
  · exact (holds_push _ _).grown le_rfl fromEnvVector
  · have holds := @holds_pushAll _ (layout argv envp start).envVector (argv.map padded)
      (by rw [total_padded]; omega)
    rw [List.forall₂_map_left_iff] at holds
    refine holds.imp fun str ptr isHeld => ⟨isHeld.1.grown isHeld.2.1 fromArg, ?_, ?_⟩
    · have isAbove : (layout argv envp start).arg.sp ≤ ptr := isHeld.2.1
      omega
    · have isBelow := isHeld.2.2
      rw [length_padded] at isBelow
      omega
  · exact (holds_push _ _).grown le_rfl fromArgVector
  · exact (holds_header (by omega)).grown le_rfl kept

end

/-! ## Round trip -/

/-- The regions of strings with their terminating 0. -/
def stringRegions (mem : ℕ → Byte) (ptrs : List ℕ) : List (ℕ × ℕ) :=
  ptrs.map fun ptr => (ptr, (readString mem ptr).length + 1)

/-- The regions of all strings and vectors and of the words that `start` and `main` read. -/
def regions (mem : ℕ → Byte) (esp : ℕ) : List (ℕ × ℕ) :=
  stringRegions mem (envPtrs mem esp) ++
    (mainEnvp mem esp, 4 * ((envPtrs mem esp).length + 1)) ::
      (stringRegions mem (argPtrs mem esp) ++
        [(mainArgv mem esp, 4 * mainArgc mem esp), (esp, 16)])

/-- All pointers of the page. -/
def pointers (page main : ℕ → Byte) (esp : ℕ) : List ℕ :=
  esp :: environ page esp :: mainArgv main esp :: mainEnvp main esp ::
    (argPtrs main esp ++ envPtrs main esp)

/-- A page, and the memory of `main`, give arguments and environment back. -/
structure Encodes (argv envp : List (List Byte)) (page main : ℕ → Byte) (esp : ℕ) : Prop where
  environ : environ page esp = mainEnvp main esp
  argc : mainArgc main esp = argv.length
  argv : (argPtrs main esp).map (readString main) = argv
  envp : (envPtrs main esp).map (readString main) = envp
  pointers : ∀ ptr ∈ pointers page main esp, userUstack ≤ ptr ∧ ptr < userUstack + pageSize
  apart : (regions main esp).Pairwise Apart

section

variable {mem : ℕ → Byte} {strs : List (List Byte)} {ptrs : List ℕ}

theorem map_readString (strings : List.Forall₂ (StringAt mem) strs ptrs)
    (nulFree : ∀ str ∈ strs, 0 ∉ str) : ptrs.map (readString mem) = strs := by
  induction strings with
  | nil => rfl
  | cons isString _ ih =>
      rw [List.forall_mem_cons] at nulFree
      rw [List.map_cons, readString_of_holds isString.holds nulFree.1 isString.below,
        ih nulFree.2]

theorem stringRegions_eq (isRead : ptrs.map (readString mem) = strs) :
    stringRegions mem ptrs = ptrs.zip (strs.map fun str => str.length + 1) := by
  subst isRead
  induction ptrs with
  | nil => rfl
  | cons ptr rest ih => exact congrArg _ ih

theorem pointers_of_strings (strings : List.Forall₂ (StringAt mem) strs ptrs) :
    ∀ ptr ∈ ptrs, userUstack ≤ ptr ∧ ptr < userUstack + pageSize := by
  induction strings with
  | nil => exact List.forall_mem_nil _
  | @cons str ptr _ _ isString _ ih =>
      refine List.forall_mem_cons.mpr ⟨⟨isString.above, ?_⟩, ih⟩
      have isBelow := isString.below
      unfold stackLen at isBelow
      omega

end

section

variable {argv envp : List (List Byte)} {built : Layout} {start : Stack Byte} {mem : ℕ → Byte}
  {esp : ℕ}

/-- The words for `start` and the vectors lie in the page. -/
structure InPage (built : Layout) : Prop where
  bottom : userUstack ≤ built.final.sp
  final : built.final.sp + 4 = built.header.sp
  header : built.header.sp + 12 = built.argVector.sp
  argVector : built.argVector.sp ≤ built.envVector.sp
  envVector : built.envVector.sp + 4 ≤ userUstack + pageSize

theorem inPage_layout (isTop : start.sp = userUstack + pageSize)
    (fits : layoutSize argv envp ≤ pageSize) (places : Places argv envp start built) :
    InPage built := by
  have envSp := places.env
  have envVectorSp := places.envVector
  have argSp := places.arg
  have argVectorSp := places.argVector
  have headerSp := places.header
  have finalSp := places.final
  unfold layoutSize at fits
  have isUstack : userUstack = 2093056 := rfl
  have isPage : pageSize = 4096 := rfl
  constructor <;> omega

/-- What `main` gets, in terms of the layout. -/
structure Decoded (argv : List (List Byte)) (built : Layout) (mem : ℕ → Byte) (esp : ℕ) :
    Prop where
  argc : mainArgc mem esp = argv.length
  argv : mainArgv mem esp = built.argVector.sp
  envp : mainEnvp mem esp = built.envVector.sp
  argPtrs : argPtrs mem esp = built.argPtrs
  envPtrs : envPtrs mem esp = built.envPtrs

theorem decoded_of_contents (isTop : start.sp = userUstack + pageSize)
    (fits : layoutSize argv envp ≤ pageSize) (places : Places argv envp start built)
    (contents : Contents argv envp built mem) (isEsp : esp + 4 = built.header.sp) :
    Decoded argv built mem esp := by
  have isHeader := contents.header
  rw [← isEsp] at isHeader
  have small : ∀ value ∈ [argv.length, built.argVector.sp, built.envVector.sp],
      value < 2 ^ 32 := by
    rcases inPage_layout isTop fits places with ⟨_, _, _, _, _⟩
    unfold layoutSize at fits
    simp only [List.forall_mem_cons, List.not_mem_nil, false_implies, implies_true, and_true]
    simp only [userUstack, pageSize] at *
    omega
  have isArgc : mainArgc mem esp = argv.length := get32_words isHeader small 0 (by simp)
  have isArgv : mainArgv mem esp = built.argVector.sp := get32_words isHeader small 1 (by simp)
  have isEnvp : mainEnvp mem esp = built.envVector.sp := get32_words isHeader small 2 (by simp)
  have argInside := pointers_of_strings contents.arg
  have envInside := pointers_of_strings contents.env
  refine ⟨isArgc, isArgv, isEnvp, ?_, ?_⟩
  · have argSmall : ∀ ptr ∈ built.argPtrs, ptr < 2 ^ 32 := fun ptr isIn =>
      (argInside ptr isIn).2.trans (by decide)
    unfold argPtrs
    rw [isArgc, isArgv, ← places.argLength]
    apply List.ext_getElem
    · simp
    · intro index _ inside
      rw [List.getElem_map, List.getElem_range, get32_words contents.argVector argSmall]
  · unfold envPtrs
    rw [isEnvp]
    refine readVector_of_holds contents.envVector (fun ptr isIn => ⟨?_, ?_⟩) ?_
    · have isAbove := (envInside ptr isIn).1
      rintro rfl
      exact absurd isAbove (by decide)
    · exact (envInside ptr isIn).2.trans (by decide)
    · rw [places.envLength]
      unfold layoutSize at fits
      omega

theorem descends_layout (fits : layoutSize argv envp ≤ start.sp) :
    Descends start.sp
      ((layout argv envp start).envPtrs.zip (envp.map fun str => str.length + 1) ++
        ((layout argv envp start).envVector.sp, 4 * (envp.length + 1)) ::
          ((layout argv envp start).argPtrs.zip (argv.map fun str => str.length + 1) ++
            [((layout argv envp start).argVector.sp, 4 * argv.length),
              ((layout argv envp start).final.sp, 16)]))
      (layout argv envp start).final.sp := by
  have places := places_layout argv envp start
  unfold layoutSize at fits
  have envSp := places.env
  have envVectorSp := places.envVector
  have argSp := places.arg
  have argVectorSp := places.argVector
  have headerSp := places.header
  have finalSp := places.final
  have smaller : ∀ strs : List (List Byte), List.Forall₂ (fun items size => size ≤ items.length)
      (strs.map padded) (strs.map fun str => str.length + 1) := by
    intro strs
    rw [List.forall₂_map_left_iff, List.forall₂_map_right_iff, List.forall₂_same]
    intro str _
    rw [length_padded, stackLen]
    omega
  have env := @descends_pushAll _ start (envp.map padded) (by rw [total_padded]; omega) _
    (smaller envp)
  have arg := @descends_pushAll _ (layout argv envp start).envVector (argv.map padded)
    (by rw [total_padded]; omega) _ (smaller argv)
  refine env.append ⟨?_, arg.append ⟨?_, ?_, le_rfl⟩⟩
  · change _ ≤ (layout argv envp start).env.sp
    dsimp only
    omega
  · change _ ≤ (layout argv envp start).arg.sp
    dsimp only
    omega
  · dsimp only
    omega

/-- What the program finds in its memory until `main` runs. -/
theorem procInitUstack_contents (fits : layoutSize argv envp ≤ pageSize) {main : ℕ → Byte}
    (kept : ∀ addr, (procInitUstack mem argv envp).2 + 4 ≤ addr →
      main addr = userMem (procInitUstack mem argv envp).1 addr) :
    ∃ start : Stack Byte, start.sp = userUstack + pageSize ∧
      userMem (procInitUstack mem argv envp).1 = (layout argv envp start).final.mem ∧
      (procInitUstack mem argv envp).2 = (layout argv envp start).final.sp ∧
      Contents argv envp (layout argv envp start) main := by
  rcases procInitUstack_moved fits mem with ⟨start, isTop, isMem, isEsp⟩
  have chain := @chain_layout argv envp start (by omega)
  have inPage := inPage_layout isTop fits (places_layout argv envp start)
  rw [isMem, isEsp, inPage.final] at kept
  have mainKept : PushDown.Grown (layout argv envp start).header
      ⟨main, (layout argv envp start).header.sp⟩ := by
    refine ⟨le_rfl, fun addr above => ?_⟩
    exact (kept addr above).trans (chain.final.above addr above)
  exact ⟨start, isTop, isMem, isEsp, contents_layout isTop fits mainKept⟩

/-- Arguments and environment are read back from the page that `proc_init_ustack` builds. What
runs before `main` writes only to the first word of the page and below. -/
theorem exec_stack_encodes (mem : ℕ → Byte) (argv envp : List (List Byte))
    (nulFree : ∀ str ∈ argv ++ envp, 0 ∉ str) (fits : layoutSize argv envp ≤ pageSize)
    (main : ℕ → Byte)
    (kept : ∀ addr, (procInitUstack mem argv envp).2 + 4 ≤ addr →
      main addr = userMem (procInitUstack mem argv envp).1 addr) :
    Encodes argv envp (userMem (procInitUstack mem argv envp).1) main
      (procInitUstack mem argv envp).2 := by
  rcases procInitUstack_contents fits kept with ⟨start, isTop, isMem, isEsp, contents⟩
  have places := places_layout argv envp start
  have descends := @descends_layout argv envp start (by omega)
  rw [isMem, isEsp]
  have inPage := inPage_layout isTop fits places
  have decoded := decoded_of_contents isTop fits places contents inPage.final
  have isEnviron : environ (layout argv envp start).final.mem (layout argv envp start).final.sp =
      (layout argv envp start).envVector.sp := by
    refine get32_of_holds (holds_push _ _) ?_
    exact (Nat.le_of_add_right_le inPage.envVector).trans_lt (by decide)
  rw [List.forall_mem_append] at nulFree
  have argRead := map_readString contents.arg nulFree.1
  have envRead := map_readString contents.env nulFree.2
  refine ⟨?_, decoded.argc, ?_, ?_, ?_, ?_⟩
  · rw [isEnviron, decoded.envp]
  · rw [decoded.argPtrs]
    exact argRead
  · rw [decoded.envPtrs]
    exact envRead
  · rw [pointers, isEnviron, decoded.argPtrs, decoded.envPtrs, decoded.argv, decoded.envp]
    rcases inPage with ⟨bottom, isFinal, isHeader, isBelow, isTop⟩
    refine List.forall_mem_cons.mpr ⟨by omega, List.forall_mem_cons.mpr ⟨by omega,
      List.forall_mem_cons.mpr ⟨by omega, List.forall_mem_cons.mpr ⟨by omega, ?_⟩⟩⟩⟩
    exact List.forall_mem_append.mpr
      ⟨pointers_of_strings contents.arg, pointers_of_strings contents.env⟩
  · unfold regions
    rw [decoded.argPtrs, decoded.envPtrs, decoded.argv, decoded.envp, decoded.argc,
      places.envLength, stringRegions_eq envRead, stringRegions_eq argRead]
    exact descends.apart

end

set_option maxRecDepth 2000 in
/-- `echo hi` with one environment variable. -/
theorem exec_stack_encodes_echo :
    layoutSize [[101, 99, 104, 111], [104, 105]] [[65, 61, 49]] = 48 ∧
      Encodes [[101, 99, 104, 111], [104, 105]] [[65, 61, 49]]
        (userMem (procInitUstack (fun _ => 0) [[101, 99, 104, 111], [104, 105]] [[65, 61, 49]]).1)
        (userMem (procInitUstack (fun _ => 0) [[101, 99, 104, 111], [104, 105]] [[65, 61, 49]]).1)
        (procInitUstack (fun _ => 0) [[101, 99, 104, 111], [104, 105]] [[65, 61, 49]]).2 :=
  ⟨by decide, exec_stack_encodes (fun _ => 0) _ _ (by decide) (by decide) _ (fun _ _ => rfl)⟩

end Osix.Ustack
