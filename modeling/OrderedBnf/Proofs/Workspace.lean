import OrderedBnf.Proofs.Bnf.RoundTrip
import OrderedBnf.Proofs.Journal
import OrderedBnf.Workspace

/-!
# Work that goes in steps

`Changes` says once what a step can do to a workspace: it is refused or only asks,
it takes the table from a document or edits it, or it builds a parser from it. The
rest is about runs of steps, by induction on the run with what one step preserves.

A step that is refused changes nothing, so a run goes on as if it had been left out
(`run_of_refuses`). A parser keeps the table that it was built from, whatever becomes
of the table (`parse_run_of_built`), and every parser has one (`parserOfRules_run`).
A table that comes of documents and is never edited is written out and taken back as
it is (`step_recompile_run`). And the journal of a run has the sizes of the tables that
its answers have (`filter_journalAll`).
-/

namespace OrderedBnf

/-- A step that takes the table from elsewhere than a document. -/
def Step.Edits : Step → Prop
  | setRules _ | pushRule _ | removeRule _ => True
  | _ => False

/-- A step that builds a parser. -/
def Step.Builds : Step → Prop
  | build _ => True
  | _ => False

/-- A step that could not be carried out. -/
def Answer.Refuses : Answer → Prop
  | failed _ | noSuchRule | noParser => True
  | _ => False

/-- The size of the table that was taken from a document, if one was. -/
def Answer.size? : Answer → Option Nat
  | compiled rules | recompiled _ rules => some rules.length
  | _ => none

namespace Workspace

variable {w w' : Workspace} {s : Step} {a : Answer} {steps before after : List Step}
variable {rules : List Rule} {options : ParserOptions} {eol : EolStyle} {source text : String}
variable {start : Option String}

/-! ## What a step can do -/

/-- **What a step can do**, and how it is answered then. -/
inductive Changes (w : Workspace) : Step → Answer → Workspace → Prop
  /-- A step that is refused changes nothing, -/
  | refused {s : Step} {a : Answer} : a.Refuses → ¬ s.Builds → Changes w s a w
  /-- nor does one that only asks. -/
  | asked {s : Step} {a : Answer} : ¬ a.Refuses → ¬ s.Builds → Changes w s a w
  /-- The table is taken from a document, -/
  | compiled {s : Step} {a : Answer} {eol : EolStyle} {source : String} {rules : List Rule} :
      Bnf.compile eol source = .ok rules → ¬ a.Refuses → ¬ s.Builds →
      Changes w s a { w with table := rules }
  /-- or it is edited. -/
  | edited {s : Step} {a : Answer} {rules : List Rule} :
      s.Edits → ¬ a.Refuses → ¬ s.Builds → Changes w s a { w with table := rules }
  /-- A parser is built from the table as it is. -/
  | built {options : ParserOptions} :
      Changes w (.build options) (.options options)
        { w with parser := some (Parser.ofRules w.table options) }

theorem changes_take {answer : List Rule → Answer} (hs : ¬ s.Builds)
    (hanswer : ∀ rules, ¬ (answer rules).Refuses) :
    Changes w s (w.take answer (Bnf.compile eol source)).1
      (w.take answer (Bnf.compile eol source)).2 := by
  cases hcompile : Bnf.compile eol source with
  | ok rules => exact .compiled hcompile (hanswer rules) hs
  | error e => exact .refused trivial hs

theorem changes_step (w : Workspace) (s : Step) : Changes w s (w.step s).1 (w.step s).2 := by
  cases s with
  | compile | recompile =>
    rw [step]
    exact changes_take id fun _ => id
  | setRules | pushRule => exact .edited trivial id id
  | removeRule index =>
    rw [step]
    cases w.table[index]? with
    | some rule => exact .edited trivial id id
    | none => exact .refused trivial id
  | showRules | listUndefined => exact .asked id id
  | build options => exact .built
  | showOptions =>
    rw [step]
    cases w.parser with
    | some p => exact .asked id id
    | none => exact .refused trivial id
  | parse text start =>
    rw [step]
    cases w.parser with
    | some p => exact .asked id id
    | none => exact .refused trivial id

/-- A step that is refused leaves the workspace as it was, -/
theorem Changes.eq_of_refuses (h : Changes w s a w') (ha : a.Refuses) : w' = w := by
  cases h with
  | refused | asked => rfl
  | compiled _ hanswer | edited _ hanswer => exact absurd ha hanswer
  | built => exact ha.elim

/-- and one that builds no parser leaves the parser. -/
theorem Changes.parser_eq (h : Changes w s a w') (hs : ¬ s.Builds) : w'.parser = w.parser := by
  cases h with
  | refused | asked | compiled | edited => rfl
  | built => exact absurd trivial hs

/-! ## Runs -/

/-- The workspace behind some steps. -/
def run (w : Workspace) (steps : List Step) : Workspace :=
  steps.foldl (fun w s => (w.step s).2) w

@[simp] theorem run_nil (w : Workspace) : w.run [] = w := rfl

@[simp] theorem run_cons (w : Workspace) (s : Step) (steps : List Step) :
    w.run (s :: steps) = (w.step s).2.run steps := rfl

@[simp] theorem run_append (w : Workspace) (before after : List Step) :
    w.run (before ++ after) = (w.run before).run after := List.foldl_append

theorem answers_append (w : Workspace) (before after : List Step) :
    w.answers (before ++ after) = w.answers before ++ (w.run before).answers after := by
  induction before generalizing w with
  | nil => rfl
  | cons s before ih => rw [List.cons_append, answers, answers, ih, run_cons, List.cons_append]

theorem journalAll_append (w : Workspace) (before after : List Step) :
    w.journalAll (before ++ after) =
      w.journalAll before ++ (w.run before).journalAll after := by
  induction before generalizing w with
  | nil => rfl
  | cons s before ih =>
    rw [List.cons_append, journalAll, journalAll, ih, run_cons, List.append_assoc]

/-- **What every step preserves is so behind a run** of such steps. -/
theorem run_induction {P : Workspace → Prop} {A : Step → Prop}
    (hstep : ∀ w s, A s → P w → P (w.step s).2) (hsteps : ∀ s ∈ steps, A s)
    (hw : P w) : P (w.run steps) := by
  induction steps generalizing w with
  | nil => exact hw
  | cons s steps ih =>
    obtain ⟨hs, hsteps⟩ := List.forall_mem_cons.1 hsteps
    exact ih hsteps (hstep w s hs hw)

/-- **A run goes on behind a step that is refused as if that had been left out**, in what is
answered and in what is written down as well. -/
theorem run_of_refuses (h : ((w.run before).step s).1.Refuses) :
    w.run (before ++ s :: after) = w.run (before ++ after) ∧
    w.answers (before ++ s :: after) =
      w.answers before ++ ((w.run before).step s).1 :: (w.run before).answers after ∧
    w.journalAll (before ++ s :: after) =
      w.journalAll before ++ ((w.run before).journal s ++ (w.run before).journalAll after) := by
  have hsame : ((w.run before).step s).2 = w.run before := (changes_step _ s).eq_of_refuses h
  rw [run_append, run_append, run_cons, answers_append, answers, journalAll_append, journalAll,
    hsame]
  exact ⟨rfl, rfl, rfl⟩

/-! ## Parsers -/

theorem step_parse {p : Parser} (h : w.parser = some p) :
    w.step (.parse text start) = (.parsed (parseWith p text start), w) := by
  simp only [step, h]

/-- **A parser keeps the table that it was built from**, whatever is done before the next one
is built: a text is parsed as if the table had not changed since. -/
theorem parse_run_of_built (w : Workspace) (options : ParserOptions)
    (hsteps : ∀ s ∈ steps, ¬ s.Builds) (text : String) (start : Option String) :
    (((w.step (.build options)).2.run steps).step (.parse text start)).1 =
      .parsed (parseWith (Parser.ofRules w.table options) text start) := by
  have hparser : ((w.step (.build options)).2.run steps).parser =
      some (Parser.ofRules w.table options) :=
    run_induction (P := fun w' => w'.parser = some (Parser.ofRules w.table options))
      (fun w' s hs hw' => ((changes_step w' s).parser_eq hs).trans hw') hsteps rfl
  rw [step_parse hparser]

/-- A workspace whose parser comes of a table, if it has one. -/
def ParserOfRules (w : Workspace) : Prop :=
  ∀ p, w.parser = some p → ∃ rules options, p = Parser.ofRules rules options

theorem Changes.parserOfRules (h : Changes w s a w') (hw : w.ParserOfRules) :
    w'.ParserOfRules := by
  cases h with
  | refused | asked | compiled | edited => exact hw
  | built => exact fun p hp => ⟨_, _, (Option.some.inj hp).symm⟩

/-- Every parser comes of a table. -/
theorem parserOfRules_run (steps : List Step) : (empty.run steps).ParserOfRules :=
  run_induction (A := fun _ => True) (fun w s _ hw => (changes_step w s).parserOfRules hw)
    (fun _ _ => trivial) (by rintro p ⟨⟩)

/-! ## Tables -/

/-- A workspace whose table comes of a document, unless it has none yet. -/
def OfDocument (w : Workspace) : Prop :=
  w.table = [] ∨ ∃ eol source, Bnf.compile eol source = .ok w.table

theorem Changes.ofDocument (h : Changes w s a w') (hw : w.OfDocument) (hs : ¬ s.Edits) :
    w'.OfDocument := by
  cases h with
  | refused | asked | built => exact hw
  | compiled hcompile => exact .inr ⟨_, _, hcompile⟩
  | edited hedits => exact absurd hedits hs

theorem ofDocument_run (hsteps : ∀ s ∈ steps, ¬ s.Edits) : (empty.run steps).OfDocument :=
  run_induction (fun w s hs hw => (changes_step w s).ofDocument hw hs) hsteps (.inl rfl)

/-- A table of a document is written out and taken back as it is. -/
theorem step_recompile (h : w.OfDocument) (hcounted : Matcher.Counted w.table.length)
    (eol : EolStyle) : w.step (.recompile eol) = (.recompiled true w.table, w) := by
  obtain hempty | ⟨e, source, hcompile⟩ := h
  · rw [hempty] at hcounted
    exact absurd hcounted Matcher.not_counted_zero
  · have hagain := Bnf.compile_show_of_compile hcompile eol
    rw [if_pos hcounted] at hagain
    simp only [step, hagain, take, BEq.rfl]

/-- **A table that is never edited is written out and taken back as it is**, whatever else
was done, if its rules are counted. -/
theorem step_recompile_run (hsteps : ∀ s ∈ steps, ¬ s.Edits)
    (hcounted : Matcher.Counted (empty.run steps).table.length) (eol : EolStyle) :
    (empty.run steps).step (.recompile eol) =
      (.recompiled true (empty.run steps).table, empty.run steps) :=
  step_recompile (ofDocument_run hsteps) hcounted eol

/-! ## Journals -/

/-- What a parse notes is the tree, if there is one, and otherwise a warning at most. -/
theorem journal_parse {result : Option Parse}
    (h : (w.step (.parse text start)).1 = .parsed result) :
    w.journal (.parse text start) = result.toList.map (Journal.parsed text) ∨
      result = none ∧ ∃ name, w.journal (.parse text start) = [Journal.undefinedStart name] := by
  cases hparser : w.parser with
  | none =>
    simp only [step, hparser] at h
    cases h
  | some p =>
    rw [step_parse hparser] at h
    obtain rfl := Answer.parsed.inj h
    cases start with
    | some start =>
      simp only [journal, hparser, parseWith]
      exact (Journal.parsingFrom_eq_or p text start).imp_right fun h => ⟨h.1, start, h.2⟩
    | none =>
      simp only [journal, hparser, parseWith]
      cases hstart : p.start? with
      | none => simp [Journal.parsing, Parser.parse, hstart]
      | some start =>
        simp only [Journal.parsing, Parser.parse, hstart, Option.bind_some]
        exact (Journal.parsingFrom_eq_or p text start).imp_right fun h => ⟨h.1, start, h.2⟩

/-- A step notes the size of the table that its answer has, if it has one, and no other. -/
theorem filter_journal (w : Workspace) (s : Step) :
    (w.journal s).filter (Journal.IsSized ·) =
      (w.step s).1.size?.toList.map Journal.sized := by
  cases s with
  | compile eol source =>
    rw [journal, Journal.filter_compiling, step]
    cases Bnf.compile eol source <;> rfl
  | recompile eol =>
    rw [journal, Journal.filter_compiling, step]
    cases Bnf.compile eol (Rule.showTable w.table) <;> rfl
  | build options => exact Journal.filter_building w.table
  | parse text start =>
    cases hparser : w.parser with
    | none => simp only [journal, step, hparser]; rfl
    | some p =>
      have hstep : w.step (.parse text start) = _ := step_parse hparser
      have hjournal := journal_parse (congrArg Prod.fst hstep)
      rw [hstep]
      rcases hjournal with hjournal | ⟨-, name, hjournal⟩
      · rw [hjournal]
        cases parseWith p text start with
        | none => rfl
        | some parse => simp [Journal.not_isSized_parsed, Answer.size?]
      · simp [hjournal, Journal.not_isSized_undefinedStart, Answer.size?]
  | removeRule index =>
    rw [step]
    cases w.table[index]? <;> rfl
  | showOptions =>
    rw [step]
    cases w.parser <;> rfl
  | setRules | pushRule | showRules | listUndefined => rfl

/-- **The journal of a run has the sizes of the tables that its answers have**, in order. -/
theorem filter_journalAll (w : Workspace) (steps : List Step) :
    (w.journalAll steps).filter (Journal.IsSized ·) =
      (w.answers steps).filterMap fun a => a.size?.map Journal.sized := by
  induction steps generalizing w with
  | nil => rfl
  | cons s steps ih =>
    rw [journalAll, List.filter_append, filter_journal, ih, answers, List.filterMap_cons]
    cases (w.step s).1.size? <;> rfl

end Workspace

end OrderedBnf
