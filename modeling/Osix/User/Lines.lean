import Osix.User.Tokens

/-!
# Every command line

The tables that the tokenizer leaves for any line whose redirections are delimited by spaces,
and when these are the tables that the line stands for.
-/

namespace Osix.Shell

open Ctype

variable {stack : UserStack 2} {getenv : List Char → Option (List Char)}

/-! ## The tables -/

/-- The pipelines have their place in the tables. -/
def Fits (pipes : List (List Cmd)) : Prop :=
  pipes.length ≤ maxPipes ∧
    ∀ cmds ∈ pipes, cmds.length ≤ maxCmds ∧ ∀ cmd ∈ cmds, cmd.argv.length ≤ maxArgs

instance (pipes : List (List Cmd)) : Decidable (Fits pipes) :=
  inferInstanceAs (Decidable (_ ∧ _))

theorem fits_append {pipes : List (List Cmd)} {cmds : List Cmd} :
    Fits (pipes ++ [cmds]) ↔ Fits pipes ∧ pipes.length < maxPipes ∧ cmds.length ≤ maxCmds ∧
      ∀ cmd ∈ cmds, cmd.argv.length ≤ maxArgs := by
  simp only [Fits, List.length_append, List.length_cons, List.length_nil, List.mem_append,
    List.mem_singleton]
  constructor
  · rintro ⟨lengths, each⟩
    refine ⟨⟨by omega, fun cmds isIn => each cmds (Or.inl isIn)⟩, by omega, each cmds (Or.inr rfl)⟩
  · rintro ⟨⟨-, each⟩, lengths, last⟩
    refine ⟨by omega, ?_⟩
    rintro cmds (isIn | rfl)
    · exact each cmds isIn
    · exact last

theorem fits_command {pipes : List (List Cmd)} {cmds : List Cmd} {cmd : Cmd} :
    Fits (pipes ++ [cmds ++ [cmd]]) ↔ Fits pipes ∧ pipes.length < maxPipes ∧
      cmds.length < maxCmds ∧ (∀ other ∈ cmds, other.argv.length ≤ maxArgs) ∧
        cmd.argv.length ≤ maxArgs := by
  rw [fits_append, List.length_append, List.length_singleton, Nat.add_one_le_iff]
  simp only [List.mem_append, List.mem_singleton, or_imp, forall_and, forall_eq]

theorem getElem_concat {α : Type} (xs : List α) (x : α) (index : ℕ) :
    (xs ++ [x])[index]? = if index = xs.length then some x else xs[index]? := by
  rcases lt_trichotomy index xs.length with less | rfl | greater
  · rw [if_neg less.ne, List.getElem?_append_left less]
  · simp
  · rw [if_neg greater.ne', List.getElem?_eq_none greater.le, List.getElem?_eq_none]
    simpa using Nat.succ_le_of_lt greater

section

variable (appended : Cmd → Bool)

theorem stored_append (pipes : List (List Cmd)) (cmds : List Cmd) :
    stored appended (pipes ++ [cmds]) =
      ⟨Function.update (stored appended pipes).pipelines pipes.length
        (storedPipeline appended cmds), pipes.length + 1⟩ := by
  simp only [stored, Tables.mk.injEq, List.length_append, List.length_cons, List.length_nil,
    and_true]
  funext index
  by_cases isLast : index = pipes.length <;> simp [getElem_concat, isLast]

theorem storedPipeline_append (cmds : List Cmd) (cmd : Cmd) :
    storedPipeline appended (cmds ++ [cmd]) =
      ⟨Function.update (storedPipeline appended cmds).cmds cmds.length (cmd.stored appended),
        cmds.length + 1⟩ := by
  simp only [storedPipeline, Pipeline.mk.injEq, List.length_append, List.length_cons,
    List.length_nil, and_true]
  funext index
  by_cases isLast : index = cmds.length <;> simp [getElem_concat, isLast]

end

theorem stored_beyond {pipes : List (List Cmd)} {index : ℕ} (beyond : pipes.length ≤ index) :
    (stored Cmd.appends pipes).pipelines index = storedPipeline Cmd.appends [] := by
  simp [stored, storedPipeline, Pipeline.empty, beyond]

theorem Word.not_quoted (word : Word) : word.text.head? ≠ some '\"' := by
  intro isQuote
  have plain := word.plain '\"' (List.mem_of_mem_head? isQuote)
  revert plain
  decide

theorem Cmd.stored_word (cmd : Cmd) (word : Word) :
    ({ cmd with argv := cmd.argv ++ [word.text] } : Cmd).stored Cmd.appends =
      { cmd.stored Cmd.appends with
        argv := Function.update (cmd.stored Cmd.appends).argv cmd.argv.length (some word.text)
        quoted := Function.update (cmd.stored Cmd.appends).quoted cmd.argv.length
          (word.text.head? = some '\"') } := by
  simp only [Cmd.stored, Command.mk.injEq]
  refine ⟨?_, ?_, rfl, rfl, rfl⟩
  · funext index
    by_cases isLast : index = cmd.argv.length <;> simp [getElem_concat, isLast]
  · funext index
    by_cases isLast : index = cmd.argv.length <;> simp [isLast, word.not_quoted]

theorem Cmd.stored_redir (cmd : Cmd) (op : Op) (target : List Char) :
    ({ cmd with redirs := cmd.redirs ++ [(op, target)] } : Cmd).stored Cmd.appends =
      (cmd.stored Cmd.appends).redirect target op := by
  cases op <;>
    simp [Cmd.stored, Command.redirect, Cmd.input, Cmd.output, Cmd.lastOutput, Cmd.appends]

/-! ## Where the tokenizer stands -/

/-- The variables and the tables of `tokenize` after some tokens. -/
def cursorOf (parts : Parts) : Cursor :=
  ⟨stored Cmd.appends parts.all, parts.pipes.length, parts.cmds.length, parts.last.argv.length,
    false⟩

section

variable {pipes : List (List Cmd)} {cmds : List Cmd} {cmd : Cmd}

theorem cursorOf_some : cursorOf ⟨pipes, cmds, some cmd⟩ =
    ⟨⟨Function.update (stored Cmd.appends pipes).pipelines pipes.length
        ⟨Function.update (storedPipeline Cmd.appends cmds).cmds cmds.length
          (cmd.stored Cmd.appends), cmds.length + 1⟩, pipes.length + 1⟩,
      pipes.length, cmds.length, cmd.argv.length, false⟩ := by
  simp [cursorOf, Parts.all, Parts.last, stored_append, storedPipeline_append]

theorem cursorOf_none : cursorOf ⟨pipes, cmds, none⟩ =
    ⟨⟨Function.update (stored Cmd.appends pipes).pipelines pipes.length
        (storedPipeline Cmd.appends cmds), if cmds = [] then pipes.length else pipes.length + 1⟩,
      pipes.length, cmds.length, 0, false⟩ := by
  by_cases isEmpty : cmds = []
  · subst isEmpty
    have noPipeline : storedPipeline Cmd.appends [] =
        (stored Cmd.appends pipes).pipelines pipes.length := by
      simp [stored, storedPipeline, Pipeline.empty]
    rw [noPipeline, Function.update_eq_self]
    simp [cursorOf, Parts.all, Parts.last, Cmd.empty, stored]
  · simp [cursorOf, Parts.all, Parts.last, Cmd.empty, isEmpty, stored_append]

/-- A word that is not the first of its command. -/
theorem storeToken_some {word : Word} (fits : Fits (Parts.all ⟨pipes, cmds, some cmd⟩))
    (begun : cmd.argv ≠ []) :
    (cursorOf ⟨pipes, cmds, some cmd⟩).storeToken word.text =
      if Fits (Parts.next ⟨pipes, cmds, some cmd⟩ (.word word.text)).all then
        some (cursorOf (Parts.next ⟨pipes, cmds, some cmd⟩ (.word word.text)))
      else none := by
  obtain ⟨pipesFit, pipePlace, cmdPlace, argPlaces, -⟩ := fits_command.mp fits
  have fitsNext : Fits (Parts.next ⟨pipes, cmds, some cmd⟩ (.word word.text)).all ↔
      cmd.argv.length < maxArgs := by
    simp only [Parts.next, Parts.all, Parts.last, Option.getD_some, fits_command,
      List.length_append, List.length_singleton]
    grind
  simp only [fitsNext]
  simp [Cursor.storeToken, word.notEmpty, Cursor.countCommand, cursorOf_some, begun,
    Cursor.setCommand, Cursor.command, pipePlace, cmdPlace, Parts.next, Parts.last,
    Cmd.stored_word, copyToken_word word.plain]

/-- The first word of a command counts it. -/
theorem countCommand_none :
    (cursorOf ⟨pipes, cmds, none⟩).countCommand =
      if pipes.length < maxPipes then
        some ⟨⟨Function.update (stored Cmd.appends pipes).pipelines pipes.length
          ⟨(storedPipeline Cmd.appends cmds).cmds, cmds.length + 1⟩, pipes.length + 1⟩,
          pipes.length, cmds.length, 0, false⟩
      else none := by
  have isCount : (storedPipeline Cmd.appends cmds).count = cmds.length := rfl
  rw [cursorOf_none, Cursor.countCommand, if_pos rfl]
  by_cases isEmpty : cmds = []
  · simp [isEmpty, Cursor.setCount, storedPipeline]
  · simp [isEmpty, Cursor.setCount, isCount]

theorem storeToken_none {word : Word} (fits : Fits (Parts.all ⟨pipes, cmds, none⟩)) :
    (cursorOf ⟨pipes, cmds, none⟩).storeToken word.text =
      if Fits (Parts.next ⟨pipes, cmds, none⟩ (.word word.text)).all then
        some (cursorOf (Parts.next ⟨pipes, cmds, none⟩ (.word word.text)))
      else none := by
  have places : Fits pipes ∧ ∀ other ∈ cmds, other.argv.length ≤ maxArgs := by
    by_cases isEmpty : cmds = []
    · simp_all [Parts.all]
    · rw [Parts.all, if_neg isEmpty, fits_append] at fits
      exact ⟨fits.1, fits.2.2.2⟩
  have fitsNext : Fits (Parts.next ⟨pipes, cmds, none⟩ (.word word.text)).all ↔
      pipes.length < maxPipes ∧ cmds.length < maxCmds := by
    simp only [Parts.next, Parts.all, Parts.last, Option.getD_none, fits_command]
    simp [places.1, Cmd.empty, maxArgs]
    exact fun _ _ => places.2
  have isEmpty : (storedPipeline Cmd.appends cmds).cmds cmds.length =
      Cmd.stored Cmd.appends Cmd.empty := by
    simp [storedPipeline, Cmd.stored, Cmd.empty, Command.empty, Cmd.input, Cmd.output,
      Cmd.lastOutput, Cmd.appends]
  have isWord := Cmd.stored_word ⟨[], []⟩ word
  simp only [List.nil_append, List.length_nil] at isWord
  simp only [fitsNext]
  rw [Cursor.storeToken, if_neg word.notEmpty, countCommand_none]
  by_cases pipePlace : pipes.length < maxPipes
  · by_cases cmdPlace : cmds.length < maxCmds
    · simp [pipePlace, cmdPlace, maxArgs, Cursor.setCommand, Cursor.command, isEmpty, Parts.next,
        Parts.last, cursorOf_some, isWord, copyToken_word word.plain, Cmd.empty]
    · simp [pipePlace, cmdPlace, maxArgs, Cursor.setCommand]
  · simp [pipePlace]

theorem cursorOf_pipe :
    { cursorOf ⟨pipes, cmds, some cmd⟩ with cmd := cmds.length + 1, arg := 0 } =
      cursorOf (Parts.next ⟨pipes, cmds, some cmd⟩ .pipe) := by
  simp [cursorOf, Parts.all, Parts.next, Parts.last, Cmd.empty]

theorem endPipeline_some (fits : Fits (Parts.all ⟨pipes, cmds, some cmd⟩)) :
    (cursorOf ⟨pipes, cmds, some cmd⟩).endPipeline =
      some (cursorOf (Parts.next ⟨pipes, cmds, some cmd⟩ .semi)) := by
  obtain ⟨-, place, -⟩ := fits_append.mp fits
  simp [Cursor.endPipeline, Cursor.setCount, cursorOf_some, cursorOf_none, Parts.next, Parts.last,
    place, stored_append, storedPipeline_append, stored_beyond]

theorem setCommand_some {op : Op} {target : List Char}
    (fits : Fits (Parts.all ⟨pipes, cmds, some cmd⟩)) :
    (cursorOf ⟨pipes, cmds, some cmd⟩).setCommand
        ((cursorOf ⟨pipes, cmds, some cmd⟩).command.redirect target op) =
      some (cursorOf (Parts.next ⟨pipes, cmds, some cmd⟩ (.redir op target))) := by
  obtain ⟨-, pipePlace, cmdPlace, -⟩ := fits_command.mp fits
  simp [Cursor.setCommand, Cursor.command, cursorOf_some, Parts.next, Parts.last, pipePlace,
    cmdPlace, Cmd.stored_redir]

end

/-! ## The tokens of a line -/

theorem grammatical_tail {inside : Bool} {token : Token} {rest : List Token}
    (grammatical : Grammatical inside (token :: rest)) :
    ∃ inside', Grammatical inside' rest ∧ (token.kind.event = .pipe ∨ token.kind.event = .semi ∨
      inside' = true) := by
  unfold Grammatical at grammatical
  cases isKind : token.kind <;> simp only [isKind] at grammatical
  all_goals exact ⟨_, grammatical.2, by simp [Kind.event]⟩

/-- The character behind the target of a redirection is a separator, and is lost. -/
def Token.lost (token : Token) : Bool :=
  token.before.text = [] ∧ (token.kind.event = .pipe ∨ token.kind.event = .semi)

def Token.isRedir (token : Token) : Bool :=
  match token.kind with
  | .redir _ _ _ => true
  | _ => false

/-- The last token of a line: the target of a redirection takes the newline if it follows. -/
def Token.lastEvent (trailing : Blanks) (token : Token) : Event :=
  match token.kind with
  | .redir op _ target => .redir op (target.text ++ if trailing.text = [] then ['\n'] else [])
  | kind => kind.event

/-- What the tokenizer sees of the tokens. -/
def effective (trailing : Blanks) : List Token → List Event
  | [] => []
  | [token] => [token.lastEvent trailing]
  | token :: next :: rest =>
      token.kind.event ::
        if token.isRedir && next.lost then effective trailing rest
        else effective trailing (next :: rest)

/-- How many redirections follow each other at once, from a token on. -/
def redirRun : List Token → ℕ
  | [] => 0
  | [token] => if token.isRedir then 1 else 0
  | token :: next :: rest =>
      if token.isRedir then
        if next.before.text = [] then redirRun (next :: rest) + 1 else 1
      else 0

/-- No more redirections follow each other at once than the stack has room for. -/
def Shallow (calls : ℕ) : List Token → Prop
  | [] => True
  | token :: rest => redirRun (token :: rest) ≤ calls ∧ Shallow calls rest

instance decidableShallow (calls : ℕ) : ∀ tokens, Decidable (Shallow calls tokens)
  | [] => isTrue trivial
  | token :: rest =>
      have := decidableShallow calls rest
      inferInstanceAs (Decidable (redirRun (token :: rest) ≤ calls ∧ Shallow calls rest))

/-- Only spaces stand behind a redirection, and no tab stands behind its target. -/
def Delimited (trailing : Blanks) : List Token → Prop
  | [] => True
  | token :: rest =>
      (match token.kind with
        | .redir _ after _ =>
            (∀ c ∈ after.text, c = ' ') ∧ (textOf trailing rest).head? ≠ some '\t'
        | _ => True) ∧
      Delimited trailing rest

section

variable {trailing : Blanks} {tokens rest : List Token} {token : Token} {parts : Parts}

theorem Blanks.isspace (blanks : Blanks) : ∀ c ∈ blanks.text, isspace c = true := by
  intro c isIn
  rcases blanks.blank c isIn with rfl | rfl <;> decide

theorem textOf_cons :
    textOf trailing (token :: rest) =
      token.before.text ++ (token.kind.text ++ textOf trailing rest) := by
  simp [textOf, Token.text]

theorem scan_token {cursor : Cursor} :
    scan stack getenv cursor (textOf trailing (token :: rest)) =
      scan stack getenv cursor (token.kind.text ++ textOf trailing rest) := by
  rw [textOf_cons, scan_spaces token.before.isspace]

theorem scan_end {cursor : Cursor} :
    scan stack getenv cursor (textOf trailing []) = some cursor := by
  have isText : textOf trailing [] = trailing.text ++ ['\n'] := rfl
  rw [isText, scan_spaces trailing.isspace, scan_space (by decide), scan_nil]

/-- What stands before the next token is blank. -/
theorem textOf_blank (isBlank : token.before.text ≠ []) :
    ∃ c behind, textOf trailing (token :: rest) = c :: behind ∧ (c = ' ' ∨ c = '\t') := by
  rcases isBefore : token.before.text with _ | ⟨c, before⟩
  · contradiction
  · refine ⟨c, before ++ (token.kind.text ++ textOf trailing rest), ?_, ?_⟩
    · rw [textOf_cons, isBefore, List.cons_append]
    · exact token.before.blank c (by simp [isBefore])

/-- A token of a command ends before the rest of the line. -/
theorem wordEnds_of_grammatical (grammatical : Grammatical true rest) :
    WordEnds (textOf trailing rest) := by
  rcases rest with _ | ⟨token, rest⟩
  · intro c isHead
    rcases isTrailing : trailing.text with _ | ⟨d, behind⟩
    · simp [textOf, isTrailing] at isHead
      exact isHead ▸ Or.inl (by decide)
    · simp [textOf, isTrailing] at isHead
      exact isHead ▸ Or.inl (trailing.isspace d (by simp [isTrailing]))
  · by_cases isBlank : token.before.text = []
    · rw [textOf_cons, isBlank, List.nil_append]
      unfold Grammatical at grammatical
      cases isKind : token.kind with
      | word arg => simp_all
      | redir op after target => cases op <;> simp [WordEnds, Kind.text, Op.text] <;> decide
      | pipe => simp [WordEnds, Kind.text, isOperator]
      | semi => simp [WordEnds, Kind.text, isOperator]
    · obtain ⟨c, behind, isText, blank⟩ := @textOf_blank trailing rest token isBlank
      rw [isText]
      intro d isHead
      cases isHead
      rcases blank with rfl | rfl <;> exact Or.inl (by decide)

theorem fits_of_next {event : Event} (fits : Fits (parts.next event).all) : Fits parts.all := by
  obtain ⟨pipes, cmds, _ | cmd⟩ := parts
  · -- Between two commands, whatever follows needs a place for them too.
    have pipesFit : Fits pipes ∧ pipes.length < maxPipes ∧ cmds.length < maxCmds ∧
        ∀ other ∈ cmds, other.argv.length ≤ maxArgs := by
      cases event <;> simp only [Parts.next, Parts.all, Parts.last, List.append_eq_nil_iff,
        List.cons_ne_self, and_false, if_true, if_false, fits_command] at fits <;> simp_all
    unfold Parts.all
    dsimp only
    split
    · exact pipesFit.1
    · exact fits_append.mpr ⟨pipesFit.1, pipesFit.2.1, pipesFit.2.2.1.le, pipesFit.2.2.2⟩
  · have isFit : Fits pipes ∧ pipes.length < maxPipes ∧ cmds.length < maxCmds ∧
        (∀ other ∈ cmds, other.argv.length ≤ maxArgs) ∧ cmd.argv.length ≤ maxArgs := by
      cases event <;> simp only [Parts.next, Parts.all, Parts.last, List.append_eq_nil_iff,
        List.cons_ne_self, and_false, if_true, if_false, fits_command, List.length_append,
        Option.getD_some] at fits <;> simp_all
      omega
    exact fits_command.mpr isFit

theorem fits_of_after {events : List Event} (fits : Fits (parts.after events).all) :
    Fits parts.all := by
  induction events generalizing parts with
  | nil => exact fits
  | cons event events ih => exact fits_of_next (ih fits)

theorem inTarget_of_isPlain {c : Char} (plain : isPlain c = true) : inTarget c = true := by
  obtain ⟨notSpace, notOperator, -⟩ := isPlain_iff.mp plain
  have isNot : c ≠ ' ' := by
    rintro rfl
    revert notSpace
    decide
  simp_all [inTarget, isOperator]

theorem Word.target (word : Word) : Target word.text := by
  refine ⟨fun c isIn => inTarget_of_isPlain (word.plain c isIn), ?_⟩
  rcases isText : word.text with _ | ⟨c, text⟩
  · exact absurd isText word.notEmpty
  · have plain := word.plain c (by simp [isText])
    exact ⟨c, text, rfl, (isPlain_iff.mp plain).2.2.2.2.2.1⟩

theorem Word.target_newline (word : Word) : Target (word.text ++ ['\n']) := by
  obtain ⟨goesOn, c, text, isText, notDollar⟩ := word.target
  refine ⟨?_, c, text ++ ['\n'], by rw [isText, List.cons_append], notDollar⟩
  intro d isIn
  rcases List.mem_append.mp isIn with isIn | isIn
  · exact goesOn d isIn
  · rw [List.mem_singleton.mp isIn]
    decide

/-- The last command has begun with a word. -/
def Parts.Begun (parts : Parts) : Prop := ∀ cmd ∈ parts.cur, cmd.argv ≠ []

theorem Parts.Begun.next (begun : parts.Begun) {event : Event}
    (inside : ∀ op target, event = .redir op target → parts.cur.isSome = true) :
    (parts.next event).Begun := by
  obtain ⟨pipes, cmds, cur⟩ := parts
  cases event with
  | word text => simp [Parts.Begun, Parts.next]
  | redir op target =>
      obtain ⟨cmd, rfl⟩ := Option.isSome_iff_exists.mp (inside op target rfl)
      have isBegun := begun cmd rfl
      simpa [Parts.Begun, Parts.next, Parts.last] using isBegun
  | pipe => simp [Parts.Begun, Parts.next]
  | semi => simp [Parts.Begun, Parts.next]

/-- Inside of a command only a word needs another place. -/
theorem fits_next {event : Event} (fits : Fits parts.all) (inside : parts.cur.isSome = true)
    (notWord : ∀ text, event ≠ .word text) : Fits (parts.next event).all := by
  obtain ⟨pipes, cmds, cur⟩ := parts
  obtain ⟨cmd, rfl⟩ := Option.isSome_iff_exists.mp inside
  cases event with
  | word text => exact absurd rfl (notWord text)
  | redir op target =>
      have places := fits_command.mp fits
      exact fits_command.mpr places
  | pipe => simpa [Parts.next, Parts.all, Parts.last] using fits
  | semi => simpa [Parts.next, Parts.all, Parts.last] using fits

theorem storeToken_word {word : Word} (fits : Fits parts.all) (begun : parts.Begun) :
    (cursorOf parts).storeToken word.text =
      if Fits (parts.next (.word word.text)).all then
        some (cursorOf (parts.next (.word word.text)))
      else none := by
  obtain ⟨pipes, cmds, _ | cmd⟩ := parts
  · exact storeToken_none fits
  · exact storeToken_some fits (begun cmd rfl)

theorem scan_pipe_parts {text : List Char} (inside : parts.cur.isSome = true) :
    scan stack getenv (cursorOf parts) ('|' :: text) =
      scan stack getenv (cursorOf (parts.next .pipe)) text := by
  obtain ⟨pipes, cmds, cur⟩ := parts
  obtain ⟨cmd, rfl⟩ := Option.isSome_iff_exists.mp inside
  rw [scan_pipe, ← cursorOf_pipe]
  rfl

theorem scan_semi_parts {text : List Char} (fits : Fits parts.all)
    (inside : parts.cur.isSome = true) :
    scan stack getenv (cursorOf parts) (';' :: text) =
      scan stack getenv (cursorOf (parts.next .semi)) text := by
  obtain ⟨pipes, cmds, cur⟩ := parts
  obtain ⟨cmd, rfl⟩ := Option.isSome_iff_exists.mp inside
  rw [scan_semi, endPipeline_some fits, Option.bind_some]

theorem scanRedirs_parts {calls : ℕ} {op : Op} {blanks target text : List Char}
    (fits : Fits parts.all) (inside : parts.cur.isSome = true) (spaces : ∀ c ∈ blanks, c = ' ')
    (isTarget : Target target) (ends : TargetEnds text) :
    scanRedirs stack getenv (calls + 1) (cursorOf parts) (op.text ++ (blanks ++ (target ++ text))) =
      if redirAhead text then
        scanRedirs stack getenv calls (cursorOf (parts.next (.redir op target))) text
      else scan stack getenv (cursorOf (parts.next (.redir op target))) (text.drop 1) := by
  obtain ⟨pipes, cmds, cur⟩ := parts
  obtain ⟨cmd, rfl⟩ := Option.isSome_iff_exists.mp inside
  rw [scanRedirs_succ calls spaces isTarget ends, setCommand_some fits, Option.bind_some]

/-- The tables after the tokens up to the end of the line, if they have a place for them. -/
def finish (parts : Parts) (events : List Event) : Option Cursor :=
  if Fits (parts.after events).all then some (cursorOf (parts.after events)) else none

theorem finish_cons {event : Event} {events : List Event} :
    finish parts (event :: events) = finish (parts.next event) events := rfl

theorem bind_scan {event : Event} {events : List Event} {text : List Char} {shallow : Prop}
    [Decidable shallow]
    (isRest : Fits (parts.next event).all →
      scan stack getenv (cursorOf (parts.next event)) text =
        if shallow then finish (parts.next event) events else none) :
    (if Fits (parts.next event).all then some (cursorOf (parts.next event)) else none).bind
        (scan stack getenv · text) = if shallow then finish parts (event :: events) else none := by
  by_cases fits : Fits (parts.next event).all
  · rw [if_pos fits, Option.bind_some, isRest fits]
    rfl
  · have noFit : ¬ Fits (parts.after (event :: events)).all :=
      fun fitsAfter => fits (@fits_of_after (parts.next event) events fitsAfter)
    rw [if_neg fits, Option.bind_none, finish, if_neg noFit, ite_self]

theorem effective_cons (notRedir : token.isRedir = false) :
    effective trailing (token :: rest) = token.kind.event :: effective trailing rest := by
  rcases rest with _ | ⟨next, rest⟩
  · cases isKind : token.kind <;> simp_all [effective, Token.lastEvent, Token.isRedir]
  · simp [effective, notRedir]

/-- A separator that is lost stands right behind a target. -/
theorem textOf_lost (lost : token.lost = true) (grammatical : Grammatical true (token :: rest)) :
    ∃ c, textOf trailing (token :: rest) = c :: textOf trailing rest ∧ (c = '|' ∨ c = ';') ∧
      Grammatical false rest := by
  rw [Token.lost, decide_eq_true_eq] at lost
  unfold Grammatical at grammatical
  rw [textOf_cons, lost.1]
  cases isKind : token.kind <;> simp_all [Kind.text, Kind.event]

/-- Any other token behind a redirection begins with a space, or is a redirection. -/
theorem textOf_follows (kept : ¬ token.lost = true)
    (grammatical : Grammatical true (token :: rest))
    (noTab : (textOf trailing (token :: rest)).head? ≠ some '\t') :
    (textOf trailing (token :: rest)).head? ∈ [some ' ', some '<', some '>'] := by
  by_cases isBlank : token.before.text = []
  · rw [Token.lost, decide_eq_true_eq] at kept
    unfold Grammatical at grammatical
    rw [textOf_cons, isBlank, List.nil_append]
    cases isKind : token.kind with
    | word arg => simp_all
    | redir op after target => cases op <;> simp [Kind.text, Op.text]
    | pipe => simp_all [Kind.event]
    | semi => simp_all [Kind.event]
  · obtain ⟨c, behind, isText, blank⟩ := @textOf_blank trailing rest token isBlank
    rw [isText] at noTab ⊢
    rcases blank with rfl | rfl
    · simp
    · simp at noTab

theorem textOf_end_follows (noTab : (textOf trailing []).head? ≠ some '\t')
    (isBlank : trailing.text ≠ []) :
    (textOf trailing []).head? ∈ [some ' ', some '<', some '>'] := by
  rcases isTrailing : trailing.text with _ | ⟨c, behind⟩
  · exact absurd isTrailing isBlank
  · have isHead : (textOf trailing []).head? = some c := by simp [textOf, isTrailing]
    rcases trailing.blank c (by simp [isTrailing]) with rfl | rfl
    · simp [isHead]
    · exact absurd isHead noTab

/-- A blank at the end of the line is a space, and the loop goes on behind it. -/
theorem textOf_end_space (noTab : (textOf trailing []).head? ≠ some '\t')
    (isBlank : trailing.text ≠ []) :
    ∃ behind, textOf trailing [] = ' ' :: behind ∧
      ∀ cursor, scan stack getenv cursor behind = some cursor := by
  have follows := textOf_end_follows noTab isBlank
  have isEnd : ∀ cursor, scan stack getenv cursor (textOf trailing []) = some cursor :=
    fun _ => scan_end
  rcases isTrailing : trailing.text with _ | ⟨c, behind⟩
  · exact absurd isTrailing isBlank
  · have isText : textOf trailing [] = c :: (behind ++ ['\n']) := by simp [textOf, isTrailing]
    have isSpace : c = ' ' := by
      rcases trailing.blank c (by simp [isTrailing]) with rfl | rfl
      · rfl
      · simp [isText] at noTab
    subst isSpace
    refine ⟨behind ++ ['\n'], isText, ?_⟩
    intro cursor
    have isScanned := isEnd cursor
    rwa [isText, scan_space (by decide)] at isScanned

/-- A redirection at the end of the line. -/
theorem scanRedirs_last {calls : ℕ} {op : Op} {blanks : List Char} {target : Word}
    (fits : Fits parts.all) (inside : parts.cur.isSome = true) (spaces : ∀ c ∈ blanks, c = ' ')
    (noTab : (textOf trailing []).head? ≠ some '\t') :
    scanRedirs stack getenv (calls + 1) (cursorOf parts)
        (op.text ++ (blanks ++ (target.text ++ textOf trailing []))) =
      finish parts
        [.redir op (target.text ++ if trailing.text = [] then ['\n'] else [])] := by
  have fitsNext : ∀ target, Fits (parts.next (.redir op target)).all :=
    fun _ => fits_next fits inside (by simp)
  have isFinish : ∀ target, finish parts [.redir op target] =
      some (cursorOf (parts.next (.redir op target))) := fun target => if_pos (fitsNext target)
  rw [isFinish]
  rcases isTrailing : trailing.text with _ | ⟨c, behind⟩
  · have isText : target.text ++ textOf trailing [] = (target.text ++ ['\n']) ++ [] := by
      simp [textOf, isTrailing]
    rw [isText, scanRedirs_parts fits inside spaces target.target_newline (by simp [TargetEnds])]
    simp [redirAhead, scan_nil]
  · obtain ⟨behind', isText, isEnd⟩ :=
      @textOf_end_space stack getenv trailing noTab (by simp [isTrailing])
    have ends : TargetEnds (textOf trailing []) := by
      rw [isText]
      simp [TargetEnds, inTarget]
    rw [scanRedirs_parts fits inside spaces target.target ends, isText]
    simp [redirAhead, isEnd]

/-- What the tokenizer makes of tokens, if the stack has room for their redirections. -/
def Scans (stack : UserStack 2) (getenv : List Char → Option (List Char)) (trailing : Blanks)
    (tokens : List Token) : Prop :=
  ∀ (inside : Bool) (parts : Parts), Grammatical inside tokens → Delimited trailing tokens →
    Fits parts.all → parts.Begun → (inside = true → parts.cur.isSome = true) →
    scan stack getenv (cursorOf parts) (textOf trailing tokens) =
      if Shallow stack.calls tokens then finish parts (effective trailing tokens) else none

/-- The same where redirections follow each other, with room for some more calls. -/
def ScansRedirs (stack : UserStack 2) (getenv : List Char → Option (List Char))
    (trailing : Blanks) (token : Token) (rest : List Token) : Prop :=
  ∀ (calls : ℕ) (parts : Parts), calls ≤ stack.calls → token.isRedir = true →
    Grammatical true (token :: rest) → Delimited trailing (token :: rest) →
    Fits parts.all → parts.Begun → parts.cur.isSome = true →
    scanRedirs stack getenv calls (cursorOf parts) (token.kind.text ++ textOf trailing rest) =
      if redirRun (token :: rest) ≤ calls ∧ Shallow stack.calls rest then
        finish parts (effective trailing (token :: rest))
      else none

theorem Token.exists_redir (isRedir : token.isRedir = true) :
    ∃ op after target, token.kind = .redir op after target := by
  unfold Token.isRedir at isRedir
  split at isRedir
  · exact ⟨_, _, _, ‹_›⟩
  · contradiction

theorem redirRun_pos (isRedir : token.isRedir = true) : 0 < redirRun (token :: rest) := by
  rcases rest with _ | ⟨next, rest⟩
  · simp [redirRun, isRedir]
  · simp only [redirRun, isRedir, if_true]
    split
    · exact Nat.succ_pos _
    · exact Nat.one_pos

/-- A token right behind a redirection is another one, if it is not lost. -/
theorem isRedir_of_adjacent (kept : ¬ token.lost = true)
    (grammatical : Grammatical true (token :: rest)) (adjacent : token.before.text = []) :
    token.isRedir = true := by
  rw [Token.lost, decide_eq_true_eq] at kept
  unfold Grammatical at grammatical
  cases isKind : token.kind <;> simp_all [Kind.event, Token.isRedir]

theorem redirAhead_adjacent (isRedir : token.isRedir = true)
    (adjacent : token.before.text = []) :
    redirAhead (textOf trailing (token :: rest)) = true ∧
      TargetEnds (textOf trailing (token :: rest)) ∧
      textOf trailing (token :: rest) = token.kind.text ++ textOf trailing rest := by
  obtain ⟨op, after, target, isKind⟩ := Token.exists_redir isRedir
  rw [textOf_cons, adjacent, List.nil_append, isKind]
  cases op <;> simp [Kind.text, Op.text, redirAhead, TargetEnds, inTarget]

theorem shallow_of_kept (kept : redirRun (token :: rest) = 0) {calls : ℕ} :
    Shallow calls (token :: rest) ↔ Shallow calls rest := by
  simp [Shallow, kept]

theorem redirRun_separated {next : Token} (isRedir : token.isRedir = true)
    (separated : next.before.text ≠ []) : redirRun (token :: next :: rest) = 1 := by
  simp [redirRun, isRedir, separated]

theorem redirRun_adjacent {next : Token} (isRedir : token.isRedir = true)
    (adjacent : next.before.text = []) :
    redirRun (token :: next :: rest) = redirRun (next :: rest) + 1 := by
  simp [redirRun, isRedir, adjacent]

theorem redirRun_notRedir (notRedir : token.isRedir = false) :
    redirRun (token :: rest) = 0 := by
  rcases rest with _ | ⟨next, rest⟩ <;> simp [redirRun, notRedir]

theorem Token.lost_iff : token.lost = true ↔
    token.before.text = [] ∧ (token.kind.event = .pipe ∨ token.kind.event = .semi) := by
  rw [Token.lost, decide_eq_true_eq]

theorem Token.not_isRedir_of_lost (lost : token.lost = true) : token.isRedir = false := by
  obtain ⟨-, isSeparator⟩ := Token.lost_iff.mp lost
  unfold Token.isRedir
  split
  · simp_all [Kind.event]
  · rfl

/-- A turn of the recursion, where other redirections may follow. -/
theorem scansRedirs_cons (scans : ∀ tokens : List Token, tokens.length ≤ rest.length →
      Scans stack getenv trailing tokens)
    (redirs : ∀ next behind, rest = next :: behind →
      ScansRedirs stack getenv trailing next behind) :
    ScansRedirs stack getenv trailing token rest := by
  intro calls parts inStack isRedir grammatical delimited fits begun inside
  obtain ⟨op, after, target, isKind⟩ := Token.exists_redir isRedir
  rcases calls with _ | calls
  · have isRun := @redirRun_pos rest token isRedir
    rw [if_neg (by omega), scanRedirs, parseRedir, Option.bind_none]
  unfold Grammatical at grammatical
  unfold Delimited at delimited
  simp only [isKind] at grammatical delimited
  obtain ⟨-, grammaticalRest⟩ := grammatical
  obtain ⟨⟨spaces, noTab⟩, delimitedRest⟩ := delimited
  have fitsNext : ∀ target, Fits (parts.next (.redir op target)).all :=
    fun _ => fits_next fits inside (by simp)
  have begunNext : ∀ target, (parts.next (.redir op target)).Begun :=
    fun _ => begun.next (fun _ _ _ => inside)
  rw [isKind, Kind.text, List.append_assoc, List.append_assoc]
  rcases rest with _ | ⟨next, rest⟩
  · have isRun : redirRun [token] ≤ calls + 1 ∧ Shallow stack.calls [] := by
      simp [redirRun, isRedir, Shallow]
    rw [scanRedirs_last fits inside spaces noTab, if_pos isRun, effective, Token.lastEvent, isKind]
  by_cases isLost : next.lost = true
  · obtain ⟨c, isText, isSeparator, grammaticalBehind⟩ :=
      @textOf_lost trailing rest next isLost grammaticalRest
    have ends : TargetEnds (c :: textOf trailing rest) := by
      rcases isSeparator with rfl | rfl <;> simp [TargetEnds, inTarget]
    have noRedir : redirAhead (c :: textOf trailing rest) = false := by
      rcases isSeparator with rfl | rfl <;> simp [redirAhead]
    have isRun : redirRun (token :: next :: rest) = 1 := by
      rw [redirRun_adjacent isRedir (Token.lost_iff.mp isLost).1,
        redirRun_notRedir (Token.not_isRedir_of_lost isLost)]
    have isRest := scans rest (by simp) false (parts.next (.redir op target.text))
      grammaticalBehind delimitedRest.2 (fitsNext _) (begunNext _) (by simp)
    rw [isText, scanRedirs_parts fits inside spaces target.target ends, noRedir,
      if_neg (by simp), List.drop_one, List.tail_cons, isRest, isRun,
      effective, isRedir, isLost, Bool.and_true, if_pos rfl, isKind, Kind.event]
    simp [finish_cons, shallow_of_kept (redirRun_notRedir (Token.not_isRedir_of_lost isLost))]
  · have isEffective : effective trailing (token :: next :: rest) =
        .redir op target.text :: effective trailing (next :: rest) := by
      rw [effective, isRedir, Bool.true_and, if_neg isLost, isKind, Kind.event]
    rw [isEffective]
    by_cases adjacent : next.before.text = []
    · have isNext := isRedir_of_adjacent isLost grammaticalRest adjacent
      obtain ⟨ahead, ends, isText⟩ := @redirAhead_adjacent trailing rest next isNext adjacent
      have isRest := redirs next rest rfl calls _ (by omega) isNext grammaticalRest delimitedRest
        (fitsNext target.text) (begunNext target.text) (by simp [Parts.next])
      rw [scanRedirs_parts fits inside spaces target.target ends, if_pos ahead, isText, isRest,
        redirRun_adjacent isRedir adjacent]
      -- Fewer calls are left than the stack has room for, so the shorter run fits as well.
      have sameRoom : redirRun (next :: rest) + 1 ≤ calls + 1 ∧ Shallow stack.calls (next :: rest) ↔
          redirRun (next :: rest) ≤ calls ∧ Shallow stack.calls rest := by
        simp only [Shallow, Nat.succ_le_succ_iff]
        exact ⟨fun room => ⟨room.1, room.2.2⟩, fun room => ⟨room.1, by omega, room.2⟩⟩
      simp only [sameRoom]
      rfl
    · have follows := textOf_follows isLost grammaticalRest noTab
      obtain ⟨c, behind, isText, blank⟩ := @textOf_blank trailing rest next adjacent
      have isSpace : c = ' ' := by
        rcases blank with rfl | rfl
        · rfl
        · simp [isText] at noTab
      subst isSpace
      have isRest := scans (next :: rest) le_rfl true (parts.next (.redir op target.text))
        grammaticalRest delimitedRest (fitsNext _) (begunNext _) (by simp [Parts.next])
      rw [isText, scan_space (by decide)] at isRest
      rw [isText, scanRedirs_parts fits inside spaces target.target
          (by simp [TargetEnds, inTarget]), if_neg (by simp [redirAhead]), List.drop_one,
        List.tail_cons, isRest, redirRun_separated isRedir adjacent]
      simp only [Nat.succ_le_succ_iff, Nat.zero_le, true_and]
      rfl

/-- Another token than a redirection, where the loop goes on with the rest. -/
theorem scans_cons (scans : Scans stack getenv trailing rest)
    (redirs : ScansRedirs stack getenv trailing token rest) :
    Scans stack getenv trailing (token :: rest) := by
  intro inside parts grammatical delimited fits begun isInside
  by_cases isRedir : token.isRedir = true
  · have isTrue : inside = true := by
      obtain ⟨op, after, target, isKind⟩ := Token.exists_redir isRedir
      unfold Grammatical at grammatical
      simp only [isKind] at grammatical
      exact grammatical.1
    subst isTrue
    have isRest := redirs stack.calls parts le_rfl isRedir grammatical delimited fits begun
      (isInside rfl)
    obtain ⟨op, after, target, isKind⟩ := Token.exists_redir isRedir
    rw [scan_token]
    rw [isKind, Kind.text] at isRest ⊢
    have isOp : ∃ c behind, op.text = c :: behind ∧ (c = '<' ∨ c = '>') := by
      cases op <;> simp [Op.text]
    obtain ⟨c, behind, isText, redir⟩ := isOp
    rw [isText, List.append_assoc, List.cons_append] at isRest ⊢
    rw [scan_redirOp redir, isRest]
    rfl
  · have notRedir : token.isRedir = false := by simpa using isRedir
    have sameRoom : Shallow stack.calls (token :: rest) ↔ Shallow stack.calls rest :=
      shallow_of_kept (redirRun_notRedir notRedir)
    unfold Grammatical at grammatical
    unfold Delimited at delimited
    simp only [sameRoom]
    rw [scan_token, effective_cons notRedir]
    cases isKind : token.kind with
    | word arg =>
        simp only [isKind] at grammatical
        rw [Kind.text, Kind.event, scan_word rfl (wordEnds_of_grammatical grammatical.2),
          storeToken_word fits begun]
        apply bind_scan
        intro fitsNext
        exact scans true _ grammatical.2 delimited.2 fitsNext (begun.next (by simp))
          (by simp [Parts.next])
    | redir op after target => simp [Token.isRedir, isKind] at notRedir
    | pipe =>
        simp only [isKind] at grammatical
        obtain ⟨rfl, grammaticalRest⟩ := grammatical
        rw [Kind.text, Kind.event, List.singleton_append, scan_pipe_parts (isInside rfl)]
        exact scans false _ grammaticalRest delimited.2 (fits_next fits (isInside rfl) (by simp))
          (begun.next (by simp)) (by simp)
    | semi =>
        simp only [isKind] at grammatical
        obtain ⟨rfl, grammaticalRest⟩ := grammatical
        rw [Kind.text, Kind.event, List.singleton_append, scan_semi_parts fits (isInside rfl)]
        exact scans false _ grammaticalRest delimited.2 (fits_next fits (isInside rfl) (by simp))
          (begun.next (by simp)) (by simp)

/-- What the tokenizer makes of the tokens that are left. -/
theorem scans_tokens (stack : UserStack 2) (getenv : List Char → Option (List Char))
    (trailing : Blanks) (tokens : List Token) :
    Scans stack getenv trailing tokens ∧
      ∀ token rest, tokens = token :: rest → ScansRedirs stack getenv trailing token rest := by
  induction isLength : tokens.length using Nat.strong_induction_on generalizing tokens with
  | h length ih =>
      subst isLength
      rcases tokens with _ | ⟨token, rest⟩
      · refine ⟨?_, by simp⟩
        intro inside parts _ _ fits _ _
        rw [scan_end, if_pos (show Shallow stack.calls [] from trivial), effective, finish, if_pos]
        · rfl
        · exact fits
      · have shorter : ∀ tokens : List Token, tokens.length ≤ rest.length →
            Scans stack getenv trailing tokens := by
          intro tokens atMost
          exact (ih _ (Nat.lt_succ_of_le atMost) tokens rfl).1
        have redirs : ScansRedirs stack getenv trailing token rest := by
          apply scansRedirs_cons shorter
          intro next behind isRest
          exact (ih _ (Nat.lt_succ_self _) rest rfl).2 next behind isRest
        refine ⟨scans_cons (shorter rest le_rfl) redirs, ?_⟩
        intro token' rest' isTokens
        cases isTokens
        exact redirs

/-! ## Lines that keep their structure -/

/-- The target of a redirection is followed by a space or by another redirection. -/
def Separated (trailing : Blanks) : List Token → Prop
  | [] => True
  | token :: rest =>
      (token.isRedir = true → (textOf trailing rest).head? ∈ [some ' ', some '<', some '>']) ∧
        Separated trailing rest

/-- The number of separators. -/
def separators (events : List Event) : ℕ := events.countP fun event => event = .pipe ∨ event = .semi

/-- The tokens are seen as they are, or the last target has a newline, or a separator is lost. -/
def Seen (trailing : Blanks) (tokens : List Token) : Prop :=
  (Separated trailing tokens ∧ effective trailing tokens = events tokens) ∨
    (∃ init op target, events tokens = init ++ [.redir op target] ∧
      effective trailing tokens = init ++ [.redir op (target ++ ['\n'])]) ∨
    separators (effective trailing tokens) < separators (events tokens)

theorem Seen.separators_le (seen : Seen trailing tokens) :
    separators (effective trailing tokens) ≤ separators (events tokens) := by
  rcases seen with ⟨-, isEvents⟩ | ⟨init, op, target, isEvents, isEffective⟩ | less
  · rw [isEvents]
  · simp [isEvents, isEffective, separators]
  · exact less.le

theorem Seen.cons (seen : Seen trailing rest)
    (isEffective : effective trailing (token :: rest) =
      token.kind.event :: effective trailing rest)
    (follows : token.isRedir = true →
      (textOf trailing rest).head? ∈ [some ' ', some '<', some '>']) :
    Seen trailing (token :: rest) := by
  have isEvents : events (token :: rest) = token.kind.event :: events rest := rfl
  rw [Seen, isEffective, isEvents]
  rcases seen with ⟨separated, same⟩ | ⟨init, op, target, isInit, isLast⟩ | less
  · exact Or.inl ⟨⟨follows, separated⟩, by rw [same]⟩
  · refine Or.inr (Or.inl ⟨token.kind.event :: init, op, target, ?_, ?_⟩)
    · rw [isInit, List.cons_append]
    · rw [isLast, List.cons_append]
  · right
    right
    simp only [separators, List.countP_cons] at less ⊢
    omega

theorem seen_last (isRedir : token.isRedir = true)
    (noTab : (textOf trailing []).head? ≠ some '\t') : Seen trailing [token] := by
  by_cases isBlank : trailing.text = []
  · unfold Token.isRedir at isRedir
    split at isRedir
    case h_2 => contradiction
    case h_1 op after target isKind =>
      refine Or.inr (Or.inl ⟨[], op, target.text, ?_, ?_⟩)
      · simp [events, isKind, Kind.event]
      · simp [effective, Token.lastEvent, isKind, isBlank]
  · refine Or.inl ⟨⟨fun _ => textOf_end_follows noTab isBlank, trivial⟩, ?_⟩
    cases isKind : token.kind <;>
      simp [effective, Token.lastEvent, isKind, isBlank, events, Kind.event]

theorem seen_of_delimited {inside : Bool} (grammatical : Grammatical inside tokens)
    (delimited : Delimited trailing tokens) : Seen trailing tokens := by
  induction isLength : tokens.length using Nat.strong_induction_on
    generalizing tokens inside with
  | h length ih =>
      rcases tokens with _ | ⟨token, rest⟩
      · exact Or.inl ⟨trivial, rfl⟩
      · subst isLength
        have shorter : rest.length < (token :: rest).length := Nat.lt_succ_self _
        obtain ⟨within, grammaticalRest, isWithin⟩ := grammatical_tail grammatical
        unfold Delimited at delimited
        by_cases isRedir : token.isRedir = true
        case neg =>
          apply (ih _ shorter grammaticalRest delimited.2 rfl).cons
          · exact effective_cons (by simpa using isRedir)
          · exact fun redir => absurd redir isRedir
        case pos =>
          have isWithin : within = true := by
            unfold Token.isRedir at isRedir
            cases isKind : token.kind <;> simp_all [Kind.event]
          subst isWithin
          have noTab : (textOf trailing rest).head? ≠ some '\t' := by
            unfold Token.isRedir at isRedir
            cases isKind : token.kind <;> simp_all
          rcases rest with _ | ⟨next, rest⟩
          · exact seen_last isRedir noTab
          · by_cases isLost : next.lost = true
            · obtain ⟨c, -, -, grammaticalBehind⟩ :=
                @textOf_lost trailing rest next isLost grammaticalRest
              have shorterBehind : rest.length < (token :: next :: rest).length := by
                simp only [List.length_cons]
                omega
              have seenRest := ih _ shorterBehind grammaticalBehind delimited.2.2 rfl
              have isEffective : effective trailing (token :: next :: rest) =
                  token.kind.event :: effective trailing rest := by
                simp [effective, isRedir, isLost]
              right
              right
              have atMost := seenRest.separators_le
              rw [Token.lost, decide_eq_true_eq] at isLost
              have isEvents : events (token :: next :: rest) =
                  token.kind.event :: next.kind.event :: events rest := rfl
              rw [isEffective, isEvents]
              simp only [separators, List.countP_cons, decide_eq_true_eq, isLost.2, if_true] at *
              omega
            · apply (ih _ shorter grammaticalRest delimited.2 rfl).cons
              · simp [effective, isLost]
              · exact fun _ => textOf_follows isLost grammaticalRest noTab

theorem not_lost {token : Token}
    (follows : (textOf trailing (token :: rest)).head? ∈ [some ' ', some '<', some '>']) :
    token.lost = false := by
  by_contra lost
  rw [Bool.not_eq_false, Token.lost, decide_eq_true_eq] at lost
  rw [textOf_cons, lost.1] at follows
  cases isKind : token.kind <;> simp_all [Kind.event, Kind.text]

theorem effective_of_separated (separated : Separated trailing tokens) :
    effective trailing tokens = events tokens := by
  induction tokens with
  | nil => rfl
  | cons token rest ih =>
      have isRest := ih separated.2
      have isEvents : events (token :: rest) = token.kind.event :: events rest := rfl
      by_cases isRedir : token.isRedir = true
      case neg => rw [effective_cons (by simpa using isRedir), isRest, isEvents]
      case pos =>
        have follows := separated.1 isRedir
        rcases rest with _ | ⟨next, rest⟩
        · have isBlank : trailing.text ≠ [] := by
            intro isEmpty
            simp [textOf, isEmpty] at follows
          rw [isEvents]
          cases isKind : token.kind <;>
            simp [effective, Token.lastEvent, isKind, isBlank, events, Kind.event]
        · rw [effective, not_lost follows, Bool.and_false, if_neg (by simp), isRest, isEvents]

/-- The commands that have begun or must begin. -/
def Parts.commands (parts : Parts) : ℕ :=
  parts.all.flatten.length + if parts.cur = none then 1 else 0

theorem Parts.commands_next (event : Event) :
    (parts.next event).commands = parts.commands + separators [event] := by
  obtain ⟨pipes, cmds, _ | cmd⟩ := parts <;> cases event <;> by_cases isEmpty : cmds = [] <;>
    simp [Parts.commands, Parts.next, Parts.all, Parts.last, separators, isEmpty] <;> omega

theorem Parts.commands_after (events : List Event) :
    (parts.after events).commands = parts.commands + separators events := by
  induction events generalizing parts with
  | nil => rfl
  | cons event events ih =>
      have isNext := @Parts.commands_next parts event
      have isRest := @ih (parts.next event)
      simp only [separators, List.countP_cons, List.countP_nil] at isNext isRest ⊢
      rw [Parts.after, List.foldl_cons, ← Parts.after, isRest]
      omega

theorem lengths_of_stored {appended appended' : Cmd → Bool} {pipes pipes' : List (List Cmd)}
    (same : stored appended pipes = stored appended' pipes') :
    pipes.map List.length = pipes'.map List.length := by
  have isCount : pipes.length = pipes'.length := congrArg Tables.count same
  apply List.ext_getElem
  · simpa using isCount
  · intro index less less'
    have isPipeline := congrArg (fun tables => (tables.pipelines index).count) same
    simp only [List.length_map] at less less'
    simpa [stored, storedPipeline, less, less'] using isPipeline

theorem cur_after {inside : Bool} (grammatical : Grammatical inside tokens)
    (isInside : inside = true → parts.cur.isSome = true) :
    (parts.after (events tokens)).cur.isSome = true := by
  induction tokens generalizing parts inside with
  | nil => exact isInside grammatical
  | cons token rest ih =>
      unfold Grammatical at grammatical
      have isEvents : events (token :: rest) = token.kind.event :: events rest := rfl
      rw [isEvents, Parts.after, List.foldl_cons, ← Parts.after]
      cases isKind : token.kind <;> simp only [isKind] at grammatical <;>
        exact ih grammatical.2 (by simp [Parts.next, Kind.event])

theorem stored_command {appended : Cmd → Bool} {pipes : List (List Cmd)} {cmds : List Cmd}
    {cmd : Cmd} {index cmdIndex : ℕ} (isPipe : pipes[index]? = some cmds)
    (isCmd : cmds[cmdIndex]? = some cmd) :
    ((stored appended pipes).pipelines index).cmds cmdIndex = cmd.stored appended := by
  simp [stored, storedPipeline, isPipe, isCmd]

/-- Tables with all the commands of the line come from as many separators. -/
theorem commands_of_stored {appended appended' : Cmd → Bool} {seen : List Event}
    (grammatical : Grammatical false tokens)
    (same : stored appended (Parts.start.after seen).all =
      stored appended' (Parts.start.after (events tokens)).all) :
    separators (events tokens) ≤ separators seen := by
  have lengths := congrArg List.sum (lengths_of_stored same)
  rw [← List.length_flatten, ← List.length_flatten] at lengths
  have isSeen := @Parts.commands_after Parts.start seen
  have isLine := @Parts.commands_after Parts.start (events tokens)
  have isSome := @cur_after tokens Parts.start false grammatical (by simp)
  have notNone : (Parts.start.after (events tokens)).cur ≠ none :=
    Option.isSome_iff_ne_none.mp isSome
  simp only [Parts.commands, notNone, if_false] at isSeen isLine
  omega

/-- Where no separator is lost, no target with a newline is stored as the one without it. -/
theorem newline_stored {init : List Event} {op : Op} {target : List Char}
    (same : stored Cmd.appends (Parts.start.after (init ++ [.redir op (target ++ ['\n'])])).all =
      stored Cmd.append (Parts.start.after (init ++ [.redir op target])).all) : False := by
  simp only [Parts.after, List.foldl_append, List.foldl_cons, List.foldl_nil, Parts.next,
    Parts.all] at same
  generalize init.foldl Parts.next Parts.start = parts at same
  have sameCommand := congrArg
    (fun tables => (tables.pipelines parts.pipes.length).cmds parts.cmds.length) same
  simp only [stored_command List.getElem?_concat_length List.getElem?_concat_length] at sameCommand
  have sameInput := congrArg Command.input sameCommand
  have sameOutput := congrArg Command.output sameCommand
  cases op <;> simp [Cmd.stored, Cmd.input, Cmd.output, Cmd.lastOutput] at sameInput sameOutput

theorem stored_append_eq {pipes : List (List Cmd)} :
    stored Cmd.appends pipes = stored Cmd.append pipes ↔
      ∀ cmds ∈ pipes, ∀ cmd ∈ cmds, cmd.appends = cmd.append := by
  constructor
  · intro same cmds isIn cmd isInCmds
    obtain ⟨index, isPipe⟩ := List.mem_iff_getElem?.mp isIn
    obtain ⟨cmdIndex, isCmd⟩ := List.mem_iff_getElem?.mp isInCmds
    have sameCommand := congrArg (fun tables => (tables.pipelines index).cmds cmdIndex) same
    simp only [stored_command isPipe isCmd] at sameCommand
    exact congrArg Command.append sameCommand
  · intro appending
    have samePipeline : ∀ cmds ∈ pipes,
        storedPipeline Cmd.appends cmds = storedPipeline Cmd.append cmds := by
      intro cmds isIn
      have sameCommand : ∀ cmd ∈ cmds, cmd.stored Cmd.appends = cmd.stored Cmd.append := by
        intro cmd isInCmds
        simp only [Cmd.stored, appending cmds isIn cmd isInCmds]
      simp only [storedPipeline, Pipeline.mk.injEq, and_true]
      funext index
      rw [Option.map_congr fun cmd isCmd => sameCommand cmd (List.mem_of_getElem? isCmd)]
    simp only [stored, Tables.mk.injEq, and_true]
    funext index
    rw [Option.map_congr fun cmds isPipe => samePipeline cmds (List.mem_of_getElem? isPipe)]

/-- If the last output is appended, then some redirection says so. -/
theorem Cmd.appends_of_append {cmd : Cmd} (isAppend : cmd.append = true) : cmd.appends = true := by
  simp only [Cmd.append, decide_eq_true_eq, Option.map_eq_some_iff] at isAppend
  obtain ⟨redir, isLast, isOp⟩ := isAppend
  have isIn := List.mem_of_getLast? isLast
  rw [List.mem_filter] at isIn
  exact List.any_eq_true.mpr ⟨redir, isIn.1, by simpa using isOp⟩

end

/--
The line keeps its structure: behind a redirection stand only spaces, behind its target stands a
space or another redirection, the last output of a command with `>>` is one with `>>`, there is a
place for everything in the tables, and no more than `calls` redirections follow each other at
once.
-/
structure Line.Kept (calls : ℕ) (line : Line) : Prop where
  delimited : Delimited line.trailing line.tokens
  separated : Separated line.trailing line.tokens
  appending : ∀ cmds ∈ line.pipelines, ∀ cmd ∈ cmds, cmd.appends = true → cmd.append = true
  fits : Fits line.pipelines
  shallow : Shallow calls line.tokens

theorem tokenize_delimited {line : Line} (delimited : Delimited line.trailing line.tokens) :
    tokenize stack getenv line.text =
      if Shallow stack.calls line.tokens then
        (finish Parts.start (effective line.trailing line.tokens)).map Cursor.tables
      else none := by
  have atStart : (⟨resetPipelines, 0, 0, 0, false⟩ : Cursor) = cursorOf Parts.start := by
    simp [cursorOf, Parts.start, Parts.all, Parts.last, Cmd.empty, stored, resetPipelines]
  have isScan : scan stack getenv (cursorOf Parts.start) (textOf line.trailing line.tokens) = _ :=
    (scans_tokens stack getenv line.trailing line.tokens).1 false Parts.start line.grammatical
      delimited (by decide) (by simp [Parts.Begun, Parts.start]) (by simp)
  rw [tokenize, atStart]
  change (scan stack getenv (cursorOf Parts.start) (textOf line.trailing line.tokens)).map _ = _
  rw [isScan]
  split <;> rfl

/--
The tokenizer leaves the tables that a line stands for if the line keeps its structure; and of
the lines with spaces around the targets of their redirections only for those.
-/
theorem tokenize_structure (stack : UserStack 2) (getenv : List Char → Option (List Char))
    (line : Line) :
    (line.Kept stack.calls → tokenize stack getenv line.text = some line.tables) ∧
      (Delimited line.trailing line.tokens → tokenize stack getenv line.text = some line.tables →
        line.Kept stack.calls) := by
  constructor
  · rintro ⟨delimited, separated, appending, fits, shallow⟩
    have isAppend : ∀ cmds ∈ line.pipelines, ∀ cmd ∈ cmds, cmd.appends = cmd.append := by
      intro cmds isIn cmd isInCmds
      exact Bool.eq_iff_iff.mpr ⟨appending cmds isIn cmd isInCmds, Cmd.appends_of_append⟩
    rw [Line.pipelines] at fits
    rw [tokenize_delimited delimited, if_pos shallow, effective_of_separated separated, finish,
      if_pos fits]
    exact congrArg some (stored_append_eq.mpr isAppend)
  · intro delimited isTables
    rw [tokenize_delimited delimited, finish] at isTables
    split at isTables
    case isFalse => contradiction
    case isTrue shallow =>
      split at isTables
      case isFalse => contradiction
      case isTrue fits =>
        have same : stored Cmd.appends
            (Parts.start.after (effective line.trailing line.tokens)).all =
              stored Cmd.append (Parts.start.after (events line.tokens)).all :=
          Option.some.inj isTables
        rcases seen_of_delimited line.grammatical delimited with
          ⟨separated, isEvents⟩ | ⟨init, op, target, isEvents, isEffective⟩ | less
        · rw [isEvents] at same fits
          have isAppend := stored_append_eq.mp same
          refine ⟨delimited, separated, ?_, fits, shallow⟩
          intro cmds isIn cmd isInCmds appends
          rw [← isAppend cmds isIn cmd isInCmds, appends]
        · rw [isEvents, isEffective] at same
          exact (newline_stored same).elim
        · exact absurd (commands_of_stored line.grammatical same) less.not_ge

/-- A command with a redirection at the end of the line, before some blanks. -/
def redirLine (trailing : Blanks) : Line where
  tokens := [⟨⟨[], by simp⟩, .word ⟨['a'], by simp, by simp [isPlain, isspace, isOperator]⟩⟩,
    ⟨⟨[' '], by simp⟩,
      .redir .output ⟨[], by simp⟩ ⟨['x'], by simp, by simp [isPlain, isspace, isOperator]⟩⟩]
  trailing := trailing
  grammatical := ⟨by decide, rfl, rfl⟩

/-- `a >x` with a space before the newline. -/
theorem tokenize_structure_space :
    tokenize (UserStack.page 2) (fun _ => none) (redirLine ⟨[' '], by simp⟩).text =
      some (redirLine ⟨[' '], by simp⟩).tables := by
  apply (tokenize_structure (UserStack.page 2) (fun _ => none) (redirLine ⟨[' '], by simp⟩)).1
  refine ⟨?_, ?_, by decide, by decide, by decide⟩
  · simp [redirLine, Delimited, textOf]
  · simp [redirLine, Separated, textOf, Token.isRedir]

/-- `a >x` and the newline: the output goes to a file with a newline in its name. -/
theorem newline_in_target :
    ¬ ∀ line : Line, line.text.length ≤ 1023 →
      tokenize (UserStack.page 2) (fun _ => none) line.text = some line.tables := by
  intro all
  have isTables := all (redirLine ⟨[], by simp⟩) (by decide)
  have seen : (tokenize (UserStack.page 2) (fun _ => none) (redirLine ⟨[], by simp⟩).text).map
      (fun tables => ((tables.pipelines 0).cmds 0).output) = some (some ['x', '\n']) := by
    decide
  have meant : ((((redirLine ⟨[], by simp⟩).tables.pipelines 0).cmds 0).output) = some ['x'] := by
    decide
  rw [isTables, Option.map_some, meant] at seen
  revert seen
  decide

end Osix.Shell
