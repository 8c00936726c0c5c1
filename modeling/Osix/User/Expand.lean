import Osix.User.Glob
import Osix.User.Shell
import Mathlib.Data.List.Infix

/-!
# Expansion of patterns

`explode_pattern` and `glob` of `bin/sh.c`. What can be read from a path, as records of a directory,
is a parameter; `none` stands for a path that cannot be opened. A store outside of the array of
arguments or of the buffer for a component is `none`, and so is a loop that has run out of fuel.

The names that match a pattern are found component by component. `snprintf` puts them together,
and loses those with characters from `0x80` on. `glob` stores the names from the position of the
pattern on, and goes on behind them, so all but the first take the places of arguments.
-/

namespace Osix.Shell

/-- `PATH_MAX`. -/
def pathMax : ℕ := 256

/-- `struct dirent`; the name is the string in its field. -/
structure Dirent where
  ino : ℕ
  name : List Char

/-- The entry is in use, and its name does not begin with a dot. -/
def Dirent.visible (dir : Dirent) : Bool := dir.ino ≠ 0 ∧ dir.name.head? ≠ some '.'

/-- The path that is opened for a base. -/
def openedFor (base : List Char) : List Char := if base = [] then ['.'] else base

/-- The character is negative as a `char`. -/
def negative (c : Char) : Bool := 128 ≤ c.toNat

/--
What `snprintf` puts out for `%s`: `fputs` takes a negative character for `EOF`, and a space makes
up for its answer `-1`.
-/
def putString : List Char → List Char
  | [] => []
  | c :: s => if negative c then [c, ' '] else c :: putString s

/-- What `snprintf` counts for `%s`. -/
def countString (s : List Char) : ℕ := if s.any negative then 0 else s.length

/-- `fullname`; an entry of the root gets two slashes. The text ends where the count says. -/
def fullname (base name : List Char) : List Char :=
  if base = [] then (putString name).take (countString name)
  else (putString base ++ '/' :: putString name).take (countString base + (1 + countString name))

/-- `next_base`. -/
def nextBase (base name : List Char) : List Char :=
  if base = [] then (putString name).take (countString name)
  else if base = ['/'] then ('/' :: putString name).take (1 + countString name)
  else (putString base ++ '/' :: putString name).take (countString base + (1 + countString name))

/-- `argc` and `argv`. -/
abbrev Args := ℕ × (ℕ → Option (List Char))

/-- A name is stored behind the arguments. -/
def storeName (args : Args) (name : List Char) : Option Args :=
  if args.1 < maxArgs then some (args.1 + 1, Function.update args.2 args.1 (some name)) else none

section

variable (dirs : List Char → Option (List Dirent))

/-- `explode_pattern`. -/
def explodePattern : ℕ → List Char → List Char → Args → Option Args
  | 0, _, _, _ => none
  | fuel + 1, base, pattern, args =>
      if pattern.head? = some '/' then
        explodePattern fuel ['/'] (pattern.dropWhile (· = '/')) args
      else
        let current := pattern.takeWhile (· ≠ '/')
        let p := pattern.dropWhile (· ≠ '/')
        if current.length < pathMax then
          match dirs (openedFor base) with
          | none => some args
          | some entries =>
              entries.foldlM (fun args dir => do
                if dir.visible then
                  if ← patternMatch fuel current dir.name then
                    if p = [] then storeName args (fullname base dir.name)
                    else
                      explodePattern fuel (nextBase base dir.name) (p.dropWhile (· = '/')) args
                  else return args
                else return args) args
        else
          none

/-- The loop of `glob` over the arguments of a command. -/
def globLoop : ℕ → ℕ → Command → Option Command
  | 0, _, _ => none
  | fuel + 1, a, command =>
      if a < maxArgs then
        match command.argv a with
        | none => some command
        | some arg => do
            let (argc, argv) ← if command.quoted a then some (a, command.argv)
              else explodePattern dirs fuel [] arg (a, command.argv)
            globLoop fuel (if argc = a then argc + 1 else argc) { command with argv := argv }
      else
        none

/-- `glob`. -/
def glob (fuel : ℕ) (pipeline : Pipeline) : Option Pipeline :=
  (List.range pipeline.count).foldlM (fun pipeline c =>
    if c < maxCmds then
      (globLoop dirs fuel 1 (pipeline.cmds c)).map fun command =>
        { pipeline with cmds := Function.update pipeline.cmds c command }
    else
      none) pipeline

end

/-! ## The names that match -/

instance decidableMatches : ∀ pattern s : List Char, Decidable (Matches pattern s)
  | [], s => decidable_of_iff (s = []) matches_nil_left.symm
  | p :: pattern, s =>
      have := decidableMatches pattern
      if isStar : p = '*' then
        decidable_of_iff (∃ rest ∈ s.tails, Matches pattern rest) (by
          subst isStar
          rw [matches_star]
          constructor
          · rintro ⟨rest, isTail, isMatch⟩
            rcases (List.mem_tails ..).mp isTail with ⟨skipped, isText⟩
            exact ⟨skipped, rest, isText.symm, isMatch⟩
          · rintro ⟨skipped, rest, isText, isMatch⟩
            exact ⟨rest, (List.mem_tails ..).mpr ⟨skipped, isText.symm⟩, isMatch⟩)
      else
        match s with
        | [] => isFalse (by
            rw [matches_cons isStar]
            rintro ⟨_, _, isText, -⟩
            exact List.cons_ne_nil _ _ isText.symm)
        | c :: s => decidable_of_iff ((p = c ∨ p = '?') ∧ Matches pattern s) (by
            rw [matches_cons isStar]
            constructor
            · rintro ⟨stands, isMatch⟩
              exact ⟨c, s, rfl, ⟨isStar, stands⟩, isMatch⟩
            · rintro ⟨_, _, isText, ⟨-, stands⟩, isMatch⟩
              cases isText
              exact ⟨stands, isMatch⟩)

/-- The components of a pattern that does not begin with a slash. -/
def components (pattern : List Char) : List (List Char) :=
  pattern.takeWhile (· ≠ '/') ::
    match isRest : pattern.dropWhile (· ≠ '/') with
    | [] => []
    | _ :: rest =>
        have shorter : (rest.dropWhile (· = '/')).length < pattern.length := by
          have restLength := (rest.dropWhile_sublist (· = '/')).length_le
          have length := (pattern.dropWhile_sublist (· ≠ '/')).length_le
          rw [isRest, List.length_cons] at length
          omega
        components (rest.dropWhile (· = '/'))
termination_by pattern.length

section

variable (dirs : List Char → Option (List Dirent))

/-- The entries of a directory that match a component. -/
def matching (base component : List Char) : List Dirent :=
  ((dirs (openedFor base)).getD []).filter fun dir => dir.visible ∧ Matches component dir.name

/-- How the path of an entry is put together, as a name and as the base of what is in it. -/
structure Spelling where
  name : List Char → List Char → List Char
  base : List Char → List Char → List Char

/-- The paths of entries; as in the code, an entry of the root gets two slashes. -/
def asNamed : Spelling where
  name base name := if base = [] then name else base ++ '/' :: name
  base base name := if base = [] then name else if base = ['/'] then '/' :: name
    else base ++ '/' :: name

/-- The paths that the code puts together. -/
def asPrinted : Spelling := ⟨fullname, nextBase⟩

/-- The names that match a sequence of components. -/
def namesIn (spelling : Spelling) (base : List Char) : List (List Char) → List (List Char)
  | [] => []
  | [component] => (matching dirs base component).map fun dir => spelling.name base dir.name
  | component :: rest =>
      (matching dirs base component).flatMap fun dir =>
        namesIn spelling (spelling.base base dir.name) rest

/-- The names that match a pattern. -/
def names (spelling : Spelling) (pattern : List Char) : List (List Char) :=
  if pattern.head? = some '/' then
    namesIn dirs spelling ['/'] (components (pattern.dropWhile (· = '/')))
  else namesIn dirs spelling [] (components pattern)

/-- The components that are compared with names fit into their buffer. -/
def FitIn (base : List Char) : List (List Char) → Prop
  | [] => True
  | component :: rest =>
      component.length < pathMax ∧
        ∀ dir ∈ matching dirs base component, FitIn (nextBase base dir.name) rest

instance decidableFitIn : ∀ base components, Decidable (FitIn dirs base components)
  | _, [] => isTrue trivial
  | base, component :: rest =>
      have := fun base => decidableFitIn base rest
      inferInstanceAs (Decidable (component.length < pathMax ∧
        ∀ dir ∈ matching dirs base component, FitIn dirs (nextBase base dir.name) rest))

def ComponentsFit (pattern : List Char) : Prop :=
  if pattern.head? = some '/' then FitIn dirs ['/'] (components (pattern.dropWhile (· = '/')))
  else FitIn dirs [] (components pattern)

instance decidableComponentsFit (pattern : List Char) : Decidable (ComponentsFit dirs pattern) :=
  inferInstanceAs (Decidable (ite _ _ _))

/--
The entries that match have names without negative characters. Such a name may only be that of a
directory in which nothing matches, neither there nor where its path leads to.
-/
def LegibleIn (base : List Char) : List (List Char) → Prop
  | [] => True
  | [component] => ∀ dir ∈ matching dirs base component, dir.name.any negative = false
  | component :: rest =>
      ∀ dir ∈ matching dirs base component,
        if dir.name.any negative then
          namesIn dirs asNamed (asNamed.base base dir.name) rest = [] ∧
            namesIn dirs asPrinted (nextBase base dir.name) rest = []
        else LegibleIn (nextBase base dir.name) rest

instance decidableLegibleIn : ∀ base components, Decidable (LegibleIn dirs base components)
  | _, [] => isTrue trivial
  | base, [component] => inferInstanceAs (Decidable (∀ dir ∈ matching dirs base component, _))
  | base, component :: next :: rest =>
      have := fun base => decidableLegibleIn base (next :: rest)
      inferInstanceAs (Decidable (∀ dir ∈ matching dirs base component, ite _ _ _))

/-- Nothing that matches a pattern is lost, or it is only a name that is the pattern itself. -/
def Legible (pattern : List Char) : Prop :=
  (if pattern.head? = some '/' then LegibleIn dirs ['/'] (components (pattern.dropWhile (· = '/')))
    else LegibleIn dirs [] (components pattern)) ∨
  names dirs asNamed pattern ++ names dirs asPrinted pattern = [pattern]

instance decidableLegible (pattern : List Char) : Decidable (Legible dirs pattern) :=
  inferInstanceAs (Decidable (ite _ _ _ ∨ _))

/-- What an argument stands for: the names that match it, or itself. -/
def expansion (spelling : Spelling) (quoted : Bool) (arg : List Char) : List (List Char) :=
  if quoted ∨ names dirs spelling arg = [] then [arg] else names dirs spelling arg

/-- What arguments stand for, the first of which has an index. -/
def expansions (spelling : Spelling) (quoted : ℕ → Bool) : ℕ → List (List Char) → List (List Char)
  | _, [] => []
  | index, arg :: args =>
      expansion dirs spelling (quoted index) arg ++ expansions spelling quoted (index + 1) args

/-- The arguments after `glob`: the name of the command, and what the others stand for. -/
def expanded (quoted : ℕ → Bool) (args : List (List Char)) : List (List Char) :=
  args.take 1 ++ expansions dirs asNamed quoted 1 (args.drop 1)

/-- All commands get the arguments that theirs stand for. -/
def Globs (pipeline : Pipeline) (args : ℕ → List (List Char)) : Prop :=
  ∃ bound, ∀ fuel ≥ bound, ∃ after, glob dirs fuel pipeline = some after ∧
    ∀ c < pipeline.count, ∀ index,
      (after.cmds c).argv index = (expanded dirs (pipeline.cmds c).quoted (args c))[index]?

/--
An argument is quoted, or its components fit, no name is lost and it does not match several names,
unless it is the last one.
-/
def Expandable (quoted : ℕ → Bool) (args : List (List Char)) : Prop :=
  ∀ index arg, 0 < index → args[index]? = some arg → quoted index = false →
    ComponentsFit dirs arg ∧ Legible dirs arg ∧
      (index + 1 < args.length → (names dirs asNamed arg).length ≤ 1)

/--
A name is lost in one argument, while another one that is not the last is stored as several names.
Then what takes the places of arguments may happen to be what these stand for.
-/
def Entangled (quoted : ℕ → Bool) (args : List (List Char)) : Prop :=
  (∃ index arg, 0 < index ∧ args[index]? = some arg ∧ quoted index = false ∧ ¬Legible dirs arg) ∧
    ∃ index arg, 0 < index ∧ args[index]? = some arg ∧ quoted index = false ∧
      index + 1 < args.length ∧ 1 < (names dirs asPrinted arg).length

end

/-! ## Components -/

theorem components_last {pattern : List Char} (isLast : pattern.dropWhile (· ≠ '/') = []) :
    components pattern = [pattern.takeWhile (· ≠ '/')] := by
  rw [components]
  congr 1
  split
  case h_1 => rfl
  case h_2 isCons =>
    rw [isLast] at isCons
    contradiction

theorem components_cons {pattern rest : List Char} {c : Char}
    (isRest : pattern.dropWhile (· ≠ '/') = c :: rest) :
    components pattern =
      pattern.takeWhile (· ≠ '/') :: components ((c :: rest).dropWhile (· = '/')) := by
  have isSlash : c = '/' := by
    have stops := List.head?_dropWhile_not (· ≠ '/') pattern
    rw [isRest] at stops
    simpa using stops
  rw [components, List.dropWhile_cons_of_pos (by simpa using isSlash)]
  congr 1
  split
  case h_1 isNil =>
    rw [isRest] at isNil
    contradiction
  case h_2 isCons =>
    rw [isRest] at isCons
    cases isCons
    rfl

theorem components_notEmpty (pattern : List Char) :
    ∃ component rest, components pattern = component :: rest := by
  rw [components]
  exact ⟨_, _, rfl⟩

/-- What is left behind slashes does not begin with one. -/
theorem dropWhile_slashes (pattern : List Char) :
    (pattern.dropWhile (· = '/')).head? ≠ some '/' := by
  intro begins
  have stops := List.head?_dropWhile_not (· = '/') pattern
  rw [begins] at stops
  simp at stops

/-- A slash is taken with every component but the last. -/
theorem rest_shorter {pattern rest : List Char} {c : Char}
    (relative : pattern.head? ≠ some '/') (isRest : pattern.dropWhile (· ≠ '/') = c :: rest) :
    ((c :: rest).dropWhile (· = '/')).length < pattern.length := by
  have restLength := ((c :: rest).dropWhile_sublist (· = '/')).length_le
  rcases pattern with _ | ⟨d, pattern⟩
  · contradiction
  · have notSlash : d ≠ '/' := by simpa using relative
    have length := (pattern.dropWhile_sublist (· ≠ '/')).length_le
    rw [List.dropWhile_cons_of_pos (by simpa using notSlash)] at isRest
    rw [isRest] at length
    rw [List.length_cons]
    omega

/-! ## Storing names -/

/-- The names are stored if everything fits. -/
structure Stores (result : Option Args) (fits : Prop) (stored : List (List Char)) (args : Args) :
    Prop where
  stores : fits → result = stored.foldlM storeName args
  stops : ¬fits → result = none

/-- What is right for every element of a list with enough fuel, is right for all with enough. -/
theorem exists_bound {α : Type*} {l : List α} {P : α → ℕ → Prop}
    (each : ∀ x ∈ l, ∃ bound, ∀ fuel ≥ bound, P x fuel) :
    ∃ bound, ∀ fuel ≥ bound, ∀ x ∈ l, P x fuel := by
  induction l with
  | nil => exact ⟨0, fun _ _ _ isIn => absurd isIn List.not_mem_nil⟩
  | cons x l ih =>
      rcases each x List.mem_cons_self with ⟨boundHead, head⟩
      rcases ih fun y isIn => each y (List.mem_cons_of_mem x isIn) with ⟨boundTail, tail⟩
      refine ⟨max boundHead boundTail, fun fuel enough y isIn => ?_⟩
      rcases List.mem_cons.mp isIn with rfl | isIn
      · exact head fuel (le_trans (le_max_left ..) enough)
      · exact tail fuel (le_trans (le_max_right ..) enough) y isIn

/-- Entry by entry, the names of those that match are stored. -/
theorem Stores.entries {f : Args → Dirent → Option Args} {selected : Dirent → Bool}
    {fits : Dirent → Prop} {stored : Dirent → List (List Char)} {entries : List Dirent}
    (matched : ∀ dir ∈ entries, ∀ args, selected dir →
      Stores (f args dir) (fits dir) (stored dir) args)
    (skipped : ∀ dir ∈ entries, ∀ args, ¬selected dir → f args dir = some args) (args : Args) :
    Stores (entries.foldlM f args) (∀ dir ∈ entries.filter selected, fits dir)
      ((entries.filter selected).flatMap stored) args := by
  induction entries generalizing args with
  | nil =>
      constructor
      · intro _
        rfl
      · intro notFits
        exact absurd (fun _ isIn => absurd isIn List.not_mem_nil) notFits
  | cons dir entries ih =>
      have rest := ih (fun dir isIn => matched dir (List.mem_cons_of_mem _ isIn))
        (fun dir isIn => skipped dir (List.mem_cons_of_mem _ isIn))
      rw [List.foldlM_cons]
      by_cases isSelected : selected dir
      · have here := matched dir List.mem_cons_self args isSelected
        rw [List.filter_cons_of_pos isSelected]
        constructor
        · intro fits
          rw [List.forall_mem_cons] at fits
          rw [here.stores fits.1, List.flatMap_cons, List.foldlM_append]
          rcases (stored dir).foldlM storeName args with _ | args'
          · rfl
          · exact (rest args').stores fits.2
        · intro notFits
          rw [List.forall_mem_cons, not_and] at notFits
          by_cases fitsHere : fits dir
          · rw [here.stores fitsHere]
            rcases (stored dir).foldlM storeName args with _ | args'
            · rfl
            · exact (rest args').stops (notFits fitsHere)
          · rw [here.stops fitsHere]
            rfl
      · rw [List.filter_cons_of_neg isSelected, skipped dir List.mem_cons_self args isSelected]
        exact rest args

section

variable {dirs : List Char → Option (List Dirent)}

theorem namesIn_cons (spelling : Spelling) (base component pattern : List Char) :
    namesIn dirs spelling base (component :: components pattern) =
      (matching dirs base component).flatMap fun dir =>
        namesIn dirs spelling (spelling.base base dir.name) (components pattern) := by
  rcases components_notEmpty pattern with ⟨next, rest, isRest⟩
  rw [isRest, namesIn]
  exact List.cons_ne_nil next rest

/-- An entry is passed over, or what it stands for is stored. -/
def explodeEntry (dirs : List Char → Option (List Dirent)) (fuel : ℕ)
    (base current p : List Char) (args : Args) (dir : Dirent) : Option Args := do
  if dir.visible then
    if ← patternMatch fuel current dir.name then
      if p = [] then storeName args (fullname base dir.name)
      else explodePattern dirs fuel (nextBase base dir.name) (p.dropWhile (· = '/')) args
    else return args
  else return args

theorem explodePattern_succ (fuel : ℕ) {base pattern : List Char} {args : Args}
    (relative : pattern.head? ≠ some '/') :
    explodePattern dirs (fuel + 1) base pattern args =
      if (pattern.takeWhile (· ≠ '/')).length < pathMax then
        ((dirs (openedFor base)).getD []).foldlM
          (explodeEntry dirs fuel base (pattern.takeWhile (· ≠ '/'))
            (pattern.dropWhile (· ≠ '/'))) args
      else none := by
  rw [explodePattern, if_neg relative]
  dsimp only
  congr 1
  rcases dirs (openedFor base) with _ | entries
  · rfl
  · rfl

/-- The entries that match are stored one after the other. -/
theorem explodeEntry_stores {base p : List Char} (current : List Char) {fits : Dirent → Prop}
    {stored : Dirent → List (List Char)} {dir : Dirent}
    (each : ∃ bound, ∀ fuel ≥ bound, ∀ args, Stores
      (if p = [] then storeName args (fullname base dir.name)
        else explodePattern dirs fuel (nextBase base dir.name) (p.dropWhile (· = '/')) args)
      (fits dir) (stored dir) args) :
    ∃ bound, ∀ fuel ≥ bound, ∀ args,
      (decide (dir.visible ∧ Matches current dir.name) →
        Stores (explodeEntry dirs fuel base current p args dir) (fits dir) (stored dir) args) ∧
      (¬decide (dir.visible ∧ Matches current dir.name) →
        explodeEntry dirs fuel base current p args dir = some args) := by
  rcases each with ⟨boundStore, stores⟩
  rcases patternMatch_matches current dir.name with ⟨boundMatch, decides⟩
  refine ⟨max boundStore boundMatch, fun fuel enough args => ?_⟩
  rcases decides fuel (le_trans (le_max_right ..) enough) with ⟨answer, isAnswer, isMatch⟩
  have storesHere := stores fuel (le_trans (le_max_left ..) enough) args
  simp only [explodeEntry, isAnswer, ← isMatch, decide_eq_true_eq]
  rcases dir.visible with _ | _
  · simp
  · rcases answer with _ | _
    · simp
    · simpa using storesHere

/-- A component is compared with the entries of its directory. -/
theorem explodePattern_component {base pattern : List Char} {fits : Dirent → Prop}
    {stored : Dirent → List (List Char)} (relative : pattern.head? ≠ some '/')
    (each : ∀ dir : Dirent, ∃ bound, ∀ fuel ≥ bound, ∀ args, Stores
      (if pattern.dropWhile (· ≠ '/') = [] then storeName args (fullname base dir.name)
        else explodePattern dirs fuel (nextBase base dir.name)
          ((pattern.dropWhile (· ≠ '/')).dropWhile (· = '/')) args)
      (fits dir) (stored dir) args) :
    ∃ bound, ∀ fuel ≥ bound, ∀ args, Stores (explodePattern dirs fuel base pattern args)
      ((pattern.takeWhile (· ≠ '/')).length < pathMax ∧
        ∀ dir ∈ matching dirs base (pattern.takeWhile (· ≠ '/')), fits dir)
      ((matching dirs base (pattern.takeWhile (· ≠ '/'))).flatMap stored) args := by
  rcases exists_bound (l := (dirs (openedFor base)).getD []) fun dir _ =>
    explodeEntry_stores (pattern.takeWhile (· ≠ '/')) (each dir) with ⟨bound, entries⟩
  refine ⟨bound + 1, fun fuel enough args => ?_⟩
  rcases fuel with _ | fuel
  · omega
  · have entriesHere := entries fuel (by omega)
    rw [explodePattern_succ fuel relative]
    by_cases short : (pattern.takeWhile (· ≠ '/')).length < pathMax
    · rw [if_pos short, and_iff_right short]
      exact Stores.entries (fun dir isIn args => (entriesHere dir isIn args).1)
        (fun dir isIn args => (entriesHere dir isIn args).2) args
    · rw [if_neg short]
      exact ⟨fun fits => absurd fits.1 short, fun _ => rfl⟩

variable (dirs) in
/-- The names that match the components of a pattern are stored. -/
theorem explodePattern_relative (base pattern : List Char) (relative : pattern.head? ≠ some '/') :
    ∃ bound, ∀ fuel ≥ bound, ∀ args,
      Stores (explodePattern dirs fuel base pattern args) (FitIn dirs base (components pattern))
        (namesIn dirs asPrinted base (components pattern)) args := by
  induction length : pattern.length using Nat.strong_induction_on generalizing base pattern with
  | h n ih =>
      rcases isRest : pattern.dropWhile (· ≠ '/') with _ | ⟨c, rest⟩
      · rw [components_last isRest, FitIn, namesIn, ← List.flatMap_pure_eq_map]
        apply explodePattern_component relative
        intro dir
        refine ⟨0, fun fuel _ args => ?_⟩
        rw [if_pos isRest]
        refine ⟨fun _ => ?_, fun notFits => absurd trivial notFits⟩
        exact (bind_pure _).symm
      · have shorter := rest_shorter relative isRest
        rw [length] at shorter
        rw [components_cons isRest, FitIn, namesIn_cons]
        apply explodePattern_component relative
        intro dir
        rcases ih _ shorter (nextBase base dir.name) _ (dropWhile_slashes _) rfl
          with ⟨bound, stores⟩
        refine ⟨bound, fun fuel enough args => ?_⟩
        rw [isRest, if_neg (List.cons_ne_nil c rest)]
        exact stores fuel enough args

variable (dirs) in
/-- The names that match a pattern are stored. -/
theorem explodePattern_names (pattern : List Char) :
    ∃ bound, ∀ fuel ≥ bound, ∀ args,
      Stores (explodePattern dirs fuel [] pattern args) (ComponentsFit dirs pattern)
        (names dirs asPrinted pattern) args := by
  rw [ComponentsFit, names]
  by_cases absolute : pattern.head? = some '/'
  · rw [if_pos absolute, if_pos absolute]
    rcases explodePattern_relative dirs ['/'] _ (dropWhile_slashes pattern)
      with ⟨bound, stores⟩
    refine ⟨bound + 1, fun fuel enough args => ?_⟩
    rcases fuel with _ | fuel
    · omega
    · rw [explodePattern, if_pos absolute]
      exact stores fuel (by omega) args
  · rw [if_neg absolute, if_neg absolute]
    exact explodePattern_relative dirs [] pattern absolute

/-! ## Arguments in the array -/

/-- The array of a list of arguments. -/
def argvOf (args : List (List Char)) (index : ℕ) : Option (List Char) := args[index]?

theorem argvOf_update (before after : List (List Char)) (name : List Char) :
    Function.update (argvOf (before ++ after)) before.length (some name) =
      argvOf (before ++ name :: after.drop 1) := by
  funext index
  simp only [argvOf, Function.update_apply, List.getElem?_append]
  rcases lt_trichotomy index before.length with isBefore | rfl | isBehind
  · rw [if_neg isBefore.ne, if_pos isBefore, if_pos isBefore]
  · simp
  · rw [if_neg isBehind.ne', if_neg isBehind.not_gt, if_neg isBehind.not_gt]
    rw [← Nat.succ_pred_eq_of_pos (Nat.sub_pos_of_lt isBehind), List.getElem?_cons_succ,
      List.getElem?_drop, Nat.add_comm]

/-- Names take the places of arguments. -/
theorem foldlM_storeName (stored before after : List (List Char))
    (room : before.length + stored.length ≤ maxArgs) :
    stored.foldlM storeName (before.length, argvOf (before ++ after)) =
      some (before.length + stored.length,
        argvOf (before ++ (stored ++ after.drop stored.length))) := by
  induction stored generalizing before after with
  | nil => rfl
  | cons name stored ih =>
      rw [List.length_cons] at room
      have isNext := ih (before ++ [name]) (after.drop 1) (by
        rw [List.length_append, List.length_singleton]
        omega)
      rw [List.length_append, List.length_singleton, List.append_assoc, List.append_assoc,
        List.drop_drop] at isNext
      rw [List.foldlM_cons, storeName, if_pos (by dsimp only; omega), argvOf_update]
      rw [Option.bind_eq_bind, Option.bind_some, List.length_cons, Nat.add_comm stored.length 1,
        ← Nat.add_assoc]
      exact isNext

/-! ## The loop over the arguments -/

/--
The arguments after the loop, where some are skipped first: an argument that stands for several
names takes the places of those behind it. A component that does not fit is `none`, and so is an
array that has no room for a null pointer behind the names.
-/
def leftBy (dirs : List Char → Option (List Dirent)) (quoted : ℕ → Bool) :
    ℕ → ℕ → List (List Char) → Option (List (List Char))
  | _, _, [] => some []
  | skipped + 1, index, _ :: args => leftBy dirs quoted skipped (index + 1) args
  | 0, index, arg :: args =>
      if (quoted index = true ∨ ComponentsFit dirs arg) ∧
          index + (expansion dirs asPrinted (quoted index) arg).length < maxArgs then
        (leftBy dirs quoted ((expansion dirs asPrinted (quoted index) arg).length - 1)
          (index + 1) args).map (expansion dirs asPrinted (quoted index) arg ++ ·)
      else none

variable (dirs) in
theorem expansion_notEmpty (spelling : Spelling) (quoted : Bool) (arg : List Char) :
    0 < (expansion dirs spelling quoted arg).length := by
  rw [expansion]
  split
  case isTrue => exact Nat.zero_lt_one
  case isFalse some =>
    exact List.length_pos_iff.mpr fun none => some (Or.inr none)

variable (dirs) in
/-- Without the first arguments there is less to be stored. -/
theorem expansions_drop (spelling : Spelling) (quoted : ℕ → Bool) (index skipped : ℕ)
    (args : List (List Char)) :
    (expansions dirs spelling quoted (index + skipped) (args.drop skipped)).length ≤
      (expansions dirs spelling quoted index args).length := by
  induction args generalizing index skipped with
  | nil => simp [expansions]
  | cons arg args ih =>
      rcases skipped with _ | skipped
      · exact le_refl _
      · have rest := ih (index + 1) skipped
        rw [Nat.add_assoc, Nat.add_comm 1] at rest
        rw [List.drop_succ_cons, expansions, List.length_append]
        omega

/-- Names that do not all fit into the array are not stored. -/
theorem foldlM_storeName_none (stored : List (List Char)) (args : Args)
    (inArray : args.1 ≤ maxArgs) (full : maxArgs < args.1 + stored.length) :
    stored.foldlM storeName args = none := by
  induction stored generalizing args with
  | nil => exact absurd full inArray.not_gt
  | cons name stored ih =>
      rw [List.length_cons] at full
      rw [List.foldlM_cons, storeName]
      split
      case isTrue room => exact ih _ room (by dsimp only; omega)
      case isFalse => rfl

/-- The loop does not go on behind the array. -/
theorem globLoop_full (fuel : ℕ) (command : Command) {a : ℕ} (full : maxArgs ≤ a) :
    globLoop dirs fuel a command = none := by
  rcases fuel with _ | fuel
  · rfl
  · rw [globLoop, if_neg (Nat.not_lt.mpr full)]

/-- An argument that stands for itself stays. -/
theorem globLoop_stays (fuel : ℕ) (command : Command) (before args : List (List Char))
    (arg : List Char) (isArgs : command.argv = argvOf (before ++ arg :: args))
    (room : before.length < maxArgs)
    (stays : command.quoted before.length = true ∨
      explodePattern dirs fuel [] arg (before.length, command.argv) =
        some (before.length, command.argv)) :
    globLoop dirs (fuel + 1) before.length command =
      globLoop dirs fuel (before.length + 1) command := by
  have isArg : command.argv before.length = some arg := by
    simp [isArgs, argvOf]
  rw [globLoop, if_pos room, isArg]
  dsimp only
  by_cases isQuoted : command.quoted before.length = true
  · rw [if_pos isQuoted, Option.bind_eq_bind, Option.bind_some]
    dsimp only
    rw [if_pos rfl]
  · rw [if_neg isQuoted, stays.resolve_left isQuoted, Option.bind_eq_bind, Option.bind_some]
    dsimp only
    rw [if_pos rfl]

/-- A component that does not fit stops the loop, and so does a full array. -/
theorem globLoop_stops (fuel : ℕ) (command : Command) (before args : List (List Char))
    (arg : List Char) (isArgs : command.argv = argvOf (before ++ arg :: args))
    (notQuoted : ¬command.quoted before.length = true)
    (stops : explodePattern dirs fuel [] arg (before.length, command.argv) = none) :
    globLoop dirs (fuel + 1) before.length command = none := by
  have isArg : command.argv before.length = some arg := by
    simp [isArgs, argvOf]
  rw [globLoop, isArg]
  dsimp only
  rw [if_neg notQuoted, stops]
  exact ite_self none

/-- A pattern that matches is replaced by names, if there is room for them. -/
theorem globLoop_stores (fuel : ℕ) (command : Command) (before args stored : List (List Char))
    (arg : List Char) (isArgs : command.argv = argvOf (before ++ arg :: args))
    (inArray : before.length < maxArgs)
    (notQuoted : ¬command.quoted before.length = true) (notEmpty : stored ≠ [])
    (stores : explodePattern dirs fuel [] arg (before.length, command.argv) =
      stored.foldlM storeName (before.length, command.argv)) :
    globLoop dirs (fuel + 1) before.length command =
      if before.length + stored.length ≤ maxArgs then
        globLoop dirs fuel (before ++ stored).length
          { command with argv := argvOf (before ++ stored ++ args.drop (stored.length - 1)) }
      else none := by
  have positive := List.length_pos_iff.mpr notEmpty
  split
  case isFalse full =>
    apply globLoop_stops fuel command before args arg isArgs notQuoted
    rw [stores]
    exact foldlM_storeName_none stored _ inArray.le (Nat.lt_of_not_le full)
  case isTrue room =>
    have isArg : command.argv before.length = some arg := by
      simp [isArgs, argvOf]
    rw [isArgs, foldlM_storeName _ _ _ room] at stores
    rw [globLoop, if_pos inArray, isArg]
    dsimp only
    rw [if_neg notQuoted, isArgs, stores, Option.bind_eq_bind, Option.bind_some]
    dsimp only
    rw [if_neg (by omega), List.length_append, List.append_assoc]
    have dropped : (arg :: args).drop stored.length = args.drop (stored.length - 1) := by
      rcases isLength : stored.length with _ | skipped
      · omega
      · rfl
    rw [dropped]

variable (dirs) in
/-- A turn of the loop takes an argument. -/
theorem globLoop_turn (command : Command) (before args : List (List Char)) (arg : List Char)
    (isArgs : command.argv = argvOf (before ++ arg :: args)) (inArray : before.length < maxArgs) :
    ∃ bound, ∀ fuel ≥ bound,
      globLoop dirs (fuel + 1) before.length command =
        if (command.quoted before.length = true ∨ ComponentsFit dirs arg) ∧
            before.length + (expansion dirs asPrinted (command.quoted before.length) arg).length <
              maxArgs then
          globLoop dirs fuel
            (before ++ expansion dirs asPrinted (command.quoted before.length) arg).length
            { command with argv := argvOf (before ++
              expansion dirs asPrinted (command.quoted before.length) arg ++
                args.drop
                  ((expansion dirs asPrinted (command.quoted before.length) arg).length - 1)) }
        else none := by
  rcases explodePattern_names dirs arg with ⟨bound, stores⟩
  refine ⟨bound, fun fuel enough => ?_⟩
  have storesHere := stores fuel enough (before.length, command.argv)
  by_cases fits : command.quoted before.length = true ∨ ComponentsFit dirs arg
  · simp only [and_iff_right fits]
    by_cases itself : command.quoted before.length = true ∨ names dirs asPrinted arg = []
    · have sameArgs :
          ({ command with argv := argvOf (before ++ [arg] ++ args.drop 0) } : Command) =
            command := by
        rw [List.drop_zero, List.append_assoc, List.singleton_append, ← isArgs]
      rw [expansion, if_pos itself, List.length_singleton, Nat.sub_self, sameArgs,
        List.length_append, List.length_singleton]
      have stays := globLoop_stays fuel command before args arg isArgs inArray (by
        by_cases isQuoted : command.quoted before.length = true
        · exact Or.inl isQuoted
        · right
          rw [storesHere.stores (fits.resolve_left isQuoted), itself.resolve_left isQuoted]
          rfl)
      rw [stays]
      split
      case isTrue => rfl
      case isFalse full => exact globLoop_full fuel command (Nat.le_of_not_lt full)
    · have notQuoted := fun isQuoted => itself (Or.inl isQuoted)
      have stores := globLoop_stores fuel command before args _ arg isArgs inArray notQuoted
        (fun isEmpty => itself (Or.inr isEmpty)) (storesHere.stores (fits.resolve_left notQuoted))
      rw [expansion, if_neg itself, stores]
      rcases Nat.lt_trichotomy (before.length + (names dirs asPrinted arg).length) maxArgs
        with room | full | tooMany
      · rw [if_pos room.le, if_pos room]
      · rw [if_pos full.le, if_neg (Nat.not_lt.mpr full.ge)]
        exact globLoop_full fuel _ (by rw [List.length_append, full])
      · rw [if_neg (Nat.not_le.mpr tooMany), if_neg tooMany.not_gt]
  · rw [if_neg fun both => fits both.1]
    rw [not_or] at fits
    exact globLoop_stops fuel command before args arg isArgs fits.1 (storesHere.stops fits.2)

/-- The loop leaves the arguments before its index, and what the others stand for. -/
theorem globLoop_leaves (command : Command) (skipped : ℕ) (before args : List (List Char))
    (isArgs : command.argv = argvOf (before ++ args.drop skipped)) {index : ℕ}
    (isIndex : before.length = index + skipped) (inArray : before.length < maxArgs) :
    ∃ bound, ∀ fuel ≥ bound,
      globLoop dirs fuel before.length command =
        (leftBy dirs command.quoted skipped index args).map fun left =>
          { command with argv := argvOf (before ++ left) } := by
  induction args generalizing command skipped before index with
  | nil =>
      refine ⟨1, fun fuel enough => ?_⟩
      rcases fuel with _ | fuel
      · omega
      · rw [List.drop_nil, List.append_nil] at isArgs
        have isNull : command.argv before.length = none := by
          simp [isArgs, argvOf]
        rw [globLoop, if_pos inArray, isNull, leftBy, Option.map_some, List.append_nil, ← isArgs]
  | cons arg args ih =>
      rcases skipped with _ | skipped
      · rw [Nat.add_zero] at isIndex
        rw [List.drop_zero] at isArgs
        rw [← isIndex, leftBy]
        rcases globLoop_turn dirs command before args arg isArgs inArray with ⟨boundTurn, turn⟩
        have positive := expansion_notEmpty dirs asPrinted (command.quoted before.length) arg
        by_cases goesOn : (command.quoted before.length = true ∨ ComponentsFit dirs arg) ∧
            before.length + (expansion dirs asPrinted (command.quoted before.length) arg).length <
              maxArgs
        · have newIndex :
              (before ++ expansion dirs asPrinted (command.quoted before.length) arg).length =
              before.length + 1 +
                ((expansion dirs asPrinted (command.quoted before.length) arg).length - 1) := by
            rw [List.length_append]
            omega
          rcases ih { command with argv := argvOf (before ++
            expansion dirs asPrinted (command.quoted before.length) arg ++ args.drop
              ((expansion dirs asPrinted (command.quoted before.length) arg).length - 1)) }
            ((expansion dirs asPrinted (command.quoted before.length) arg).length - 1)
            (before ++ expansion dirs asPrinted (command.quoted before.length) arg) rfl newIndex
            (by rw [List.length_append]; exact goesOn.2) with ⟨boundRest, rest⟩
          refine ⟨max boundTurn boundRest + 1, fun fuel enough => ?_⟩
          rcases fuel with _ | fuel
          · omega
          · rw [turn fuel (by omega), if_pos goesOn, if_pos goesOn, rest fuel (by omega),
              Option.map_map]
            congr 1
            funext left
            rw [Function.comp_apply, List.append_assoc]
        · refine ⟨boundTurn + 1, fun fuel enough => ?_⟩
          rcases fuel with _ | fuel
          · omega
          · rw [turn fuel (by omega), if_neg goesOn, if_neg goesOn]
            rfl
      · rw [List.drop_succ_cons] at isArgs
        rw [leftBy]
        exact ih command skipped before isArgs (by omega) inArray

/-! ## Nothing is skipped -/

theorem leftBy_length (quoted : ℕ → Bool) (skipped index : ℕ) (args left : List (List Char))
    (isLeft : leftBy dirs quoted skipped index args = some left) :
    left.length ≤
      (expansions dirs asPrinted quoted (index + skipped) (args.drop skipped)).length := by
  induction args generalizing skipped index left with
  | nil =>
      rw [leftBy] at isLeft
      cases isLeft
      exact Nat.zero_le _
  | cons arg args ih =>
      rcases skipped with _ | skipped
      · rw [leftBy] at isLeft
        split at isLeft
        case isFalse => contradiction
        case isTrue =>
          rcases Option.map_eq_some_iff.mp isLeft with ⟨rest, isRest, rfl⟩
          have restLength := ih _ _ _ isRest
          have fewer := expansions_drop dirs asPrinted quoted (index + 1)
            ((expansion dirs asPrinted (quoted index) arg).length - 1) args
          rw [Nat.add_zero, List.drop_zero, expansions, List.length_append, List.length_append]
          omega
      · rw [leftBy] at isLeft
        have restLength := ih _ _ _ isLeft
        rw [Nat.add_assoc, Nat.add_comm 1] at restLength
        rwa [List.drop_succ_cons]

/-- What is skipped is lost. -/
theorem leftBy_shorter (quoted : ℕ → Bool) {skipped index : ℕ} {args left : List (List Char)}
    (some_ : 0 < skipped) (isLeft : leftBy dirs quoted skipped index args = some left)
    (notEmpty : args ≠ []) :
    left.length < (expansions dirs asPrinted quoted index args).length := by
  rcases args with _ | ⟨arg, args⟩
  · contradiction
  · rcases skipped with _ | skipped
    · contradiction
    · rw [leftBy] at isLeft
      have restLength := leftBy_length quoted skipped (index + 1) args left isLeft
      have fewer := expansions_drop dirs asPrinted quoted (index + 1) skipped args
      have positive := expansion_notEmpty dirs asPrinted (quoted index) arg
      rw [expansions, List.length_append]
      omega

/-- No argument that is not quoted is stored as several names, unless it is the last one. -/
def Single (dirs : List Char → Option (List Dirent)) (quoted : ℕ → Bool) (index : ℕ)
    (args : List (List Char)) : Prop :=
  ∀ i arg, args[i]? = some arg → quoted (index + i) = false → i + 1 < args.length →
    (names dirs asPrinted arg).length ≤ 1

/-- The components of all arguments that are not quoted fit. -/
def AllFit (dirs : List Char → Option (List Dirent)) (quoted : ℕ → Bool) (index : ℕ)
    (args : List (List Char)) : Prop :=
  ∀ i arg, args[i]? = some arg → quoted (index + i) = false → ComponentsFit dirs arg

section

variable {quoted : ℕ → Bool} {index : ℕ} {arg : List Char} {args : List (List Char)}

theorem Single.tail (single : Single dirs quoted index (arg :: args)) :
    Single dirs quoted (index + 1) args := by
  intro i other isOther notQuoted some
  rw [Nat.add_assoc, Nat.add_comm 1] at notQuoted
  exact single (i + 1) other isOther notQuoted (Nat.succ_lt_succ some)

theorem AllFit.tail (allFit : AllFit dirs quoted index (arg :: args)) :
    AllFit dirs quoted (index + 1) args := by
  intro i other isOther notQuoted
  rw [Nat.add_assoc, Nat.add_comm 1] at notQuoted
  exact allFit (i + 1) other isOther notQuoted

theorem expansion_single (few : quoted index = false → (names dirs asPrinted arg).length ≤ 1) :
    (expansion dirs asPrinted (quoted index) arg).length = 1 := by
  have positive := expansion_notEmpty dirs asPrinted (quoted index) arg
  rw [expansion] at positive ⊢
  split
  case isTrue => rfl
  case isFalse itself =>
    rw [if_neg itself] at positive
    rw [not_or, Bool.not_eq_true] at itself
    have atMost := few itself.1
    omega

theorem single_of_expansion (one : (expansion dirs asPrinted (quoted index) arg).length = 1)
    (notQuoted : quoted index = false) : (names dirs asPrinted arg).length ≤ 1 := by
  rw [expansion, notQuoted] at one
  split at one
  case isTrue itself => simp [itself.resolve_left Bool.false_ne_true]
  case isFalse => exact one.le

end

/-- Where nothing is skipped, everything is expanded. -/
theorem leftBy_single (quoted : ℕ → Bool) (index : ℕ) {args left : List (List Char)}
    (single : Single dirs quoted index args)
    (isLeft : leftBy dirs quoted 0 index args = some left) :
    left = expansions dirs asPrinted quoted index args := by
  induction args generalizing index left with
  | nil => exact (Option.some.inj isLeft).symm
  | cons arg args ih =>
      rw [leftBy] at isLeft
      split at isLeft
      case isFalse => contradiction
      case isTrue =>
        rcases Option.map_eq_some_iff.mp isLeft with ⟨rest, isRest, rfl⟩
        rw [expansions]
        congr 1
        by_cases isEmpty : args = []
        · subst isEmpty
          rw [leftBy] at isRest
          exact (Option.some.inj isRest).symm
        · have one : (expansion dirs asPrinted (quoted index) arg).length = 1 :=
            expansion_single fun notQuoted => single 0 arg rfl notQuoted
              (Nat.succ_lt_succ (List.length_pos_iff.mpr isEmpty))
          rw [one] at isRest
          exact ih (index + 1) single.tail isRest

/-- All arguments are expanded only if all fit and only the last one stands for several. -/
theorem single_of_leftBy (quoted : ℕ → Bool) (index : ℕ) {args : List (List Char)}
    (isLeft : leftBy dirs quoted 0 index args =
      some (expansions dirs asPrinted quoted index args)) :
    AllFit dirs quoted index args ∧ Single dirs quoted index args := by
  induction args generalizing index with
  | nil => exact ⟨fun _ _ isArg => (nomatch isArg), fun _ _ isArg => nomatch isArg⟩
  | cons arg args ih =>
      rw [leftBy, expansions] at isLeft
      split at isLeft
      case isFalse => contradiction
      case isTrue fits =>
        rcases Option.map_eq_some_iff.mp isLeft with ⟨rest, isRest, same⟩
        rw [List.append_cancel_left_eq] at same
        have one : args ≠ [] → (expansion dirs asPrinted (quoted index) arg).length = 1 := by
          intro notEmpty
          have positive := expansion_notEmpty dirs asPrinted (quoted index) arg
          by_contra several
          have shorter := leftBy_shorter quoted (by omega) isRest notEmpty
          rw [same] at shorter
          exact lt_irrefl _ shorter
        have restLeft : leftBy dirs quoted 0 (index + 1) args =
            some (expansions dirs asPrinted quoted (index + 1) args) := by
          by_cases isEmpty : args = []
          · rw [isEmpty, leftBy, expansions]
          · rwa [one isEmpty, same] at isRest
        rcases ih (index + 1) restLeft with ⟨fitRest, singleRest⟩
        constructor
        · intro i other isOther notQuoted
          rcases i with _ | i
          · cases isOther
            exact fits.1.resolve_left (Bool.eq_false_iff.mp notQuoted)
          · rw [Nat.add_comm i, ← Nat.add_assoc] at notQuoted
            exact fitRest i other isOther notQuoted
        · intro i other isOther notQuoted some
          rcases i with _ | i
          · cases isOther
            exact single_of_expansion
              (one (List.length_pos_iff.mp (Nat.lt_of_succ_lt_succ some))) notQuoted
          · rw [Nat.add_comm i, ← Nat.add_assoc] at notQuoted
            exact singleRest i other isOther notQuoted (Nat.lt_of_succ_lt_succ some)

/-- All arguments are expanded if all fit, also into the array, and no place is taken. -/
theorem leftBy_of_single (quoted : ℕ → Bool) (index : ℕ) {args : List (List Char)}
    (allFit : AllFit dirs quoted index args) (single : Single dirs quoted index args)
    (room : index + (expansions dirs asPrinted quoted index args).length < maxArgs) :
    leftBy dirs quoted 0 index args = some (expansions dirs asPrinted quoted index args) := by
  induction args generalizing index with
  | nil => rfl
  | cons arg args ih =>
      have fits : quoted index = true ∨ ComponentsFit dirs arg := by
        rcases isQuoted : quoted index with _ | _
        · exact Or.inr (allFit 0 arg rfl isQuoted)
        · exact Or.inl rfl
      rw [expansions, List.length_append] at room
      have rest : leftBy dirs quoted
          ((expansion dirs asPrinted (quoted index) arg).length - 1) (index + 1) args =
          some (expansions dirs asPrinted quoted (index + 1) args) := by
        by_cases isEmpty : args = []
        · rw [isEmpty, leftBy, expansions]
        · have one : (expansion dirs asPrinted (quoted index) arg).length = 1 :=
            expansion_single fun notQuoted => single 0 arg rfl notQuoted
              (Nat.succ_lt_succ (List.length_pos_iff.mpr isEmpty))
          rw [one] at room ⊢
          exact ih (index + 1) allFit.tail single.tail (by omega)
      rw [leftBy, if_pos ⟨fits, by omega⟩, rest, expansions]
      rfl

end

end Osix.Shell
