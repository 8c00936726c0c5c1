import Osix.User.Spellings

/-!
# The expansion of pipelines

A pipeline keeps all its arguments if every argument is stored as what it stands for, and none is
stored over another one.
-/

namespace Osix.Shell

section

variable {dirs : List Char → Option (List Dirent)}

theorem argvOf_injective {args others : List (List Char)} (same : argvOf args = argvOf others) :
    args = others :=
  List.ext_getElem? fun index => congrFun same index

/-- A legible argument is stored as the names it stands for, if it stands for any. -/
theorem names_few {arg : List Char} (legible : Legible dirs arg) :
    (names dirs asPrinted arg).length ≤ 1 ↔ (names dirs asNamed arg).length ≤ 1 := by
  have same := (legible_iff arg).mp legible
  rw [expansion, expansion] at same
  simp only [Bool.false_eq_true, false_or] at same
  split at same <;> split at same
  · simp [*]
  · rename_i isEmpty _
    simp [isEmpty, ← same]
  · rename_i _ isEmpty
    simp [isEmpty, same]
  · rw [same]

section

variable {quoted : ℕ → Bool} {args : List (List Char)}

/-- What is said of the arguments of a command, is said of those behind its name. -/
theorem forall_args {property : ℕ → List Char → Prop} :
    (∀ index arg, 0 < index → args[index]? = some arg → quoted index = false →
      property index arg) ↔
      ∀ i arg, (args.drop 1)[i]? = some arg → quoted (1 + i) = false → property (1 + i) arg := by
  constructor
  · intro each i arg isArg notQuoted
    rw [List.getElem?_drop] at isArg
    exact each (1 + i) arg (by omega) isArg notQuoted
  · intro each index arg positive isArg notQuoted
    rcases Nat.exists_eq_add_of_le positive with ⟨i, isIndex⟩
    rw [Nat.succ_eq_add_one, Nat.zero_add] at isIndex
    rw [isIndex] at isArg notQuoted ⊢
    rw [← List.getElem?_drop] at isArg
    exact each i arg isArg notQuoted

theorem single_iff (legible : ∀ i arg, (args.drop 1)[i]? = some arg → quoted (1 + i) = false →
    Legible dirs arg) :
    Single dirs quoted 1 (args.drop 1) ↔
      ∀ i arg, (args.drop 1)[i]? = some arg → quoted (1 + i) = false →
        1 + i + 1 < args.length → (names dirs asNamed arg).length ≤ 1 := by
  rw [Single]
  refine forall₄_congr fun i arg isArg notQuoted => ?_
  rw [names_few (legible i arg isArg notQuoted), List.length_drop,
    show i + 1 < args.length - 1 ↔ 1 + i + 1 < args.length by omega]

/-- Arguments that can be expanded are. -/
theorem leftBy_of_expandable (expandable : Expandable dirs quoted args)
    (room : (expanded dirs quoted args).length < maxArgs) :
    leftBy dirs quoted 0 1 (args.drop 1) =
      some (expansions dirs asNamed quoted 1 (args.drop 1)) := by
  rw [Expandable, forall_args] at expandable
  have legible := fun i arg isArg notQuoted => (expandable i arg isArg notQuoted).2.1
  have same := expansions_agree.mpr legible
  rw [← same]
  refine leftBy_of_single quoted 1 ?_ ?_ ?_
  · exact fun i arg isArg notQuoted => (expandable i arg isArg notQuoted).1
  · exact (single_iff legible).mpr fun i arg isArg notQuoted =>
      (expandable i arg isArg notQuoted).2.2
  · rw [same]
    rw [expanded, List.length_append] at room
    rcases args with _ | ⟨name, args⟩
    · simp [expansions, maxArgs]
    · simpa [Nat.add_comm] using room

/-- Arguments that are expanded can be, unless something lost and something taken cancel out. -/
theorem expandable_of_leftBy
    (isLeft : leftBy dirs quoted 0 1 (args.drop 1) =
      some (expansions dirs asNamed quoted 1 (args.drop 1)))
    (separate : ¬Entangled dirs quoted args) : Expandable dirs quoted args := by
  -- Either nothing is lost, or no place is taken; in both cases the names are stored as they are.
  have agree : expansions dirs asPrinted quoted 1 (args.drop 1) =
      expansions dirs asNamed quoted 1 (args.drop 1) := by
    rw [Entangled, not_and_or] at separate
    rcases separate with noneLost | noneTaken
    · refine expansions_agree.mpr (forall_args.mp (?_ : ∀ index arg, _ → _ → _ → Legible dirs arg))
      intro index arg positive isArg notQuoted
      by_contra illegible
      exact noneLost ⟨index, arg, positive, isArg, notQuoted, illegible⟩
    · have single : Single dirs quoted 1 (args.drop 1) := by
        intro i arg isArg notQuoted some
        rw [List.getElem?_drop] at isArg
        rw [List.length_drop] at some
        by_contra several
        exact noneTaken ⟨1 + i, arg, by omega, isArg, notQuoted, by omega, by omega⟩
      exact (leftBy_single quoted 1 single isLeft).symm
  have legible := expansions_agree.mp agree
  rw [← agree] at isLeft
  rcases single_of_leftBy quoted 1 isLeft with ⟨allFit, single⟩
  rw [Expandable, forall_args]
  intro i arg isArg notQuoted
  exact ⟨allFit i arg isArg notQuoted, legible i arg isArg notQuoted,
    (single_iff legible).mp single i arg isArg notQuoted⟩

end

variable (dirs) in
/-- A command after the loop. -/
theorem globLoop_command (command : Command) (args : List (List Char))
    (isArgs : command.argv = argvOf args) :
    ∃ bound, ∀ fuel ≥ bound,
      globLoop dirs fuel 1 command =
        (leftBy dirs command.quoted 0 1 (args.drop 1)).map fun left =>
          { command with argv := argvOf (args.take 1 ++ left) } := by
  rcases args with _ | ⟨name, args⟩
  · refine ⟨1, fun fuel enough => ?_⟩
    rcases fuel with _ | fuel
    · omega
    · have isNull : command.argv 1 = none := by
        simp [isArgs, argvOf]
      rw [globLoop, if_pos (by decide), isNull]
      change _ = some { command with argv := argvOf [] }
      rw [← isArgs]
  · have inArray : [name].length < maxArgs := by simp [maxArgs]
    exact globLoop_leaves command 0 [name] args isArgs rfl inArray

section

variable {fuel : ℕ} {pipeline : Pipeline}

/-- A turn of `glob`. -/
def globCommand (dirs : List Char → Option (List Dirent)) (fuel : ℕ) (pipeline : Pipeline) (c : ℕ) :
    Option Pipeline :=
  if c < maxCmds then
    (globLoop dirs fuel 1 (pipeline.cmds c)).map fun command =>
      { pipeline with cmds := Function.update pipeline.cmds c command }
  else
    none

/-- Every command is expanded on its own. -/
theorem foldlM_globCommand {n : ℕ} (fits : n ≤ maxCmds) :
    (∀ after, (List.range n).foldlM (globCommand dirs fuel) pipeline = some after →
      (∀ c < n, globLoop dirs fuel 1 (pipeline.cmds c) = some (after.cmds c)) ∧
      ∀ c ≥ n, after.cmds c = pipeline.cmds c) ∧
    ((∀ c < n, ∃ command, globLoop dirs fuel 1 (pipeline.cmds c) = some command) →
      ∃ after, (List.range n).foldlM (globCommand dirs fuel) pipeline = some after) := by
  induction n with
  | zero =>
      constructor
      · rintro after isAfter
        cases isAfter
        exact ⟨fun c isBelow => absurd isBelow (Nat.not_lt_zero c), fun _ _ => rfl⟩
      · intro _
        exact ⟨pipeline, rfl⟩
  | succ n ih =>
      rcases ih (by omega) with ⟨expands, succeeds⟩
      rw [List.range_succ, List.foldlM_append]
      simp only [List.foldlM_cons, List.foldlM_nil, bind_pure]
      constructor
      · intro after isAfter
        rcases Option.bind_eq_some_iff.mp isAfter with ⟨before, isBefore, isLast⟩
        rcases expands before isBefore with ⟨expanded, same⟩
        rw [globCommand, if_pos (by omega), same n (le_refl n)] at isLast
        rcases Option.map_eq_some_iff.mp isLast with ⟨command, isCommand, rfl⟩
        constructor
        · intro c isBelow
          dsimp only
          rcases Nat.lt_succ_iff_lt_or_eq.mp isBelow with isBefore | rfl
          · rw [Function.update_of_ne isBefore.ne, expanded c isBefore]
          · rw [Function.update_self, isCommand]
        · intro c isBehind
          dsimp only
          rw [Function.update_of_ne (by omega), same c (by omega)]
      · intro each
        rcases succeeds fun c isBelow => each c (by omega) with ⟨before, isBefore⟩
        rcases each n (Nat.lt_succ_self n) with ⟨command, isCommand⟩
        rw [isBefore, Option.bind_eq_bind, Option.bind_some, globCommand, if_pos (by omega),
          (expands before isBefore).2 n (le_refl n), isCommand]
        exact ⟨_, rfl⟩

end

section

variable {pipeline : Pipeline} {args : ℕ → List (List Char)} (fits : pipeline.count ≤ maxCmds)
  (isArgs : ∀ c < pipeline.count, ∀ index, (pipeline.cmds c).argv index = (args c)[index]?)

include fits isArgs

/-- What the loop leaves for a command, if all commands get the arguments that theirs stand for. -/
theorem leftBy_of_globs (globs : Globs dirs pipeline args) :
    ∀ c < pipeline.count,
      leftBy dirs (pipeline.cmds c).quoted 0 1 ((args c).drop 1) =
        some (expansions dirs asNamed (pipeline.cmds c).quoted 1 ((args c).drop 1)) := by
  rcases globs with ⟨bound, globs⟩
  intro c isCmd
  rcases globLoop_command dirs _ _ (funext (isArgs c isCmd)) with ⟨boundLoop, loop⟩
  rcases globs (max bound boundLoop) (le_max_left ..) with ⟨after, isAfter, isExpanded⟩
  have isLoop := ((foldlM_globCommand fits).1 after isAfter).1 c isCmd
  rw [loop _ (le_max_right ..)] at isLoop
  rcases Option.map_eq_some_iff.mp isLoop with ⟨left, isLeft, isCommand⟩
  rw [isLeft]
  have same : argvOf ((args c).take 1 ++ left) =
      argvOf (expanded dirs (pipeline.cmds c).quoted (args c)) := by
    funext index
    rw [argvOf.eq_def (expanded ..), ← isExpanded c isCmd index, ← isCommand]
  rw [List.append_cancel_left (argvOf_injective same)]

theorem globs_of_expandable
    (room : ∀ c < pipeline.count,
      (expanded dirs (pipeline.cmds c).quoted (args c)).length < maxArgs)
    (expandable : ∀ c < pipeline.count, Expandable dirs (pipeline.cmds c).quoted (args c)) :
    Globs dirs pipeline args := by
  rcases exists_bound (l := List.range pipeline.count) fun c isIn =>
    globLoop_command dirs _ _ (funext (isArgs c (List.mem_range.mp isIn))) with ⟨bound, loops⟩
  refine ⟨bound, fun fuel enough => ?_⟩
  have isLoop : ∀ c < pipeline.count, globLoop dirs fuel 1 (pipeline.cmds c) =
      some { pipeline.cmds c with
        argv := argvOf (expanded dirs (pipeline.cmds c).quoted (args c)) } := by
    intro c isCmd
    rw [loops fuel enough c (List.mem_range.mpr isCmd),
      leftBy_of_expandable (expandable c isCmd) (room c isCmd)]
    rfl
  rcases (foldlM_globCommand fits).2 fun c isCmd => ⟨_, isLoop c isCmd⟩ with ⟨after, isAfter⟩
  refine ⟨after, isAfter, fun c isCmd index => ?_⟩
  have isCommand := ((foldlM_globCommand fits).1 after isAfter).1 c isCmd
  rw [isLoop c isCmd] at isCommand
  rw [← Option.some.inj isCommand]
  rfl

end

end

/--
All arguments of a pipeline are kept if those that are not quoted have components that fit, no
name with characters from `0x80` on is stored, and only the last one of a command matches several
names. And only then, except where names of both kinds of failure are entangled.
-/
theorem globs_iff (dirs : List Char → Option (List Dirent)) (pipeline : Pipeline)
    (args : ℕ → List (List Char)) (fits : pipeline.count ≤ maxCmds)
    (isArgs : ∀ c < pipeline.count, ∀ index, (pipeline.cmds c).argv index = (args c)[index]?)
    (room : ∀ c < pipeline.count,
      (expanded dirs (pipeline.cmds c).quoted (args c)).length < maxArgs) :
    ((∀ c < pipeline.count, Expandable dirs (pipeline.cmds c).quoted (args c)) →
      Globs dirs pipeline args) ∧
    (Globs dirs pipeline args → ∀ c < pipeline.count,
      Expandable dirs (pipeline.cmds c).quoted (args c) ∨
        Entangled dirs (pipeline.cmds c).quoted (args c)) := by
  refine ⟨globs_of_expandable fits isArgs room, fun globs c isCmd => ?_⟩
  by_cases entangled : Entangled dirs (pipeline.cmds c).quoted (args c)
  · exact Or.inr entangled
  · exact Or.inl (expandable_of_leftBy (leftBy_of_globs fits isArgs globs c isCmd) entangled)

/-! ## Two files -/

/-- A directory with the files `a` and `b`. -/
def twoFiles (path : List Char) : Option (List Dirent) :=
  if path = ['.'] then some [⟨1, ['.']⟩, ⟨2, ['a']⟩, ⟨3, ['b']⟩] else none

/-- A pipeline of one command with these arguments, none of which is quoted. -/
def onlyCommand (args : List (List Char)) : Pipeline :=
  ⟨fun _ => { Command.empty with argv := argvOf args }, 1⟩

theorem names_star : names twoFiles asNamed ['*'] = [['a'], ['b']] := by
  rw [names, if_neg (by decide), components_last (by decide)]
  decide

theorem names_file : names twoFiles asNamed ['c'] = [] := by
  rw [names, if_neg (by decide), components_last (by decide)]
  decide

theorem legible_twoFiles {arg : List Char} (isArg : arg = ['*'] ∨ arg = ['c']) :
    Legible twoFiles arg := by
  rcases isArg with rfl | rfl
  · rw [Legible, if_neg (by decide), components_last (by decide)]
    exact Or.inl (by decide)
  · rw [Legible, if_neg (by decide), components_last (by decide)]
    exact Or.inl (by decide)

/-- The names that the last argument stands for are stored behind the others. -/
theorem globs_lastArgument :
    Globs twoFiles (onlyCommand [['l', 's'], ['c'], ['*']])
      (fun _ => [['l', 's'], ['c'], ['*']]) := by
  refine (globs_iff _ _ _ ?_ ?_ ?_).1 ?_
  · decide
  · intro c isCmd index
    rfl
  · intro c isCmd
    simp [onlyCommand, Command.empty, expanded, expansions, expansion, names_star, names_file,
      maxArgs]
  · rintro c isCmd (_ | _ | _ | index) arg positive isArg notQuoted
    · contradiction
    · cases isArg
      refine ⟨?_, legible_twoFiles (Or.inr rfl), ?_⟩
      · rw [ComponentsFit, if_neg (by decide), components_last (by decide)]
        decide
      · rw [names_file]
        decide
    · cases isArg
      refine ⟨?_, legible_twoFiles (Or.inl rfl), fun notLast => absurd notLast (by decide)⟩
      rw [ComponentsFit, if_neg (by decide), components_last (by decide)]
      decide
    · contradiction

/-- The second name takes the place of the argument behind the pattern. -/
theorem not_globs :
    ¬Globs twoFiles (onlyCommand [['c', 'p'], ['*'], ['c']])
      (fun _ => [['c', 'p'], ['*'], ['c']]) := by
  intro globs
  have isLeft := leftBy_of_globs (by decide) (fun _ _ _ => rfl) globs 0 Nat.zero_lt_one
  have expandable := expandable_of_leftBy isLeft (by
    rintro ⟨⟨index, arg, positive, isArg, -, illegible⟩, -⟩
    rcases index with _ | _ | _ | index
    · contradiction
    · cases isArg
      exact illegible (legible_twoFiles (Or.inl rfl))
    · cases isArg
      exact illegible (legible_twoFiles (Or.inr rfl))
    · contradiction)
  have few := (expandable 1 ['*'] Nat.zero_lt_one rfl rfl).2.2 (by decide)
  rw [names_star] at few
  exact absurd few (by decide)

end Osix.Shell
