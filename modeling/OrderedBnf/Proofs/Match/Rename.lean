import Mathlib.Data.Set.Function
import OrderedBnf.Parse.Parser
import OrderedBnf.Proofs.Match.History

/-!
# Renaming the rules of a grammar

A grammar whose rules are given other names matches what it matched before: names are
looked up and compared and nothing else, so it is enough that no two of them fall
together. Only the shape of a tree depends on how the names are written. A rule that
becomes a fragment leaves its node out, and the nodes inside take its place
(`Node.hoist`).

The statement about a run (`Runs.rename`) has one case for each way to match. The node
of a rule is made in one place, where a rule has matched, and there alone something is
hoisted (`Match.wrap_rename`); everywhere else lists of nodes are put behind each other.
-/

namespace OrderedBnf

/-! ## Trees -/

namespace Node

mutual

/-- A tree with the kinds of its nodes renamed. -/
def rename (ρ : String → String) : Node → Node
  | ⟨kind, text, start, stop, children, errors⟩ =>
    ⟨ρ kind, text, start, stop, renameAll ρ children, errors⟩

/-- Several trees, renamed. -/
def renameAll (ρ : String → String) : List Node → List Node
  | [] => []
  | node :: rest => rename ρ node :: renameAll ρ rest

end

mutual

/-- What stands in the place of a node when fragments leave no node: what stands in the
place of its children if its kind is the name of a fragment, and otherwise the node,
over that. -/
def hoisted : Node → List Node
  | ⟨kind, text, start, stop, children, errors⟩ =>
    if Definition.isFragmentName kind then hoistedAll children
    else [⟨kind, text, start, stop, hoistedAll children, errors⟩]

/-- What stands in the place of several nodes. -/
def hoistedAll : List Node → List Node
  | [] => []
  | node :: rest => hoisted node ++ hoistedAll rest

end

/-- **A tree without nodes of fragments below its root.** The root is kept, whatever its
kind. -/
def hoist (root : Node) : Node := { root with children := hoistedAll root.children }

@[simp] theorem renameAll_append (ρ : String → String) (nodes later : List Node) :
    renameAll ρ (nodes ++ later) = renameAll ρ nodes ++ renameAll ρ later := by
  induction nodes with
  | nil => rfl
  | cons node nodes ih => simp [renameAll, ih]

@[simp] theorem hoistedAll_append (nodes later : List Node) :
    hoistedAll (nodes ++ later) = hoistedAll nodes ++ hoistedAll later := by
  induction nodes with
  | nil => rfl
  | cons node nodes ih => simp [hoistedAll, ih]

end Node

/-! ## Grammars -/

/-- A term with the name that it refers to renamed. -/
def Term.rename (ρ : String → String) (t : Term) : Term :=
  match t.symbol with
  | .literal _ => t
  | .reference name => ⟨.reference (ρ name), t.repetition, ρ name⟩

/-- A definition with its own name renamed, and the names that it refers to. -/
def Definition.rename (ρ : String → String) (d : Definition) : Definition :=
  ⟨ρ d.name, d.alternatives.map fun terms => terms.map (Term.rename ρ)⟩

/-- A grammar with all its names renamed. -/
def Grammar.rename (ρ : String → String) (g : Grammar) : Grammar := g.map (Definition.rename ρ)

namespace Term

variable {ρ : String → String} {t : Term} {text : List Char} {name : String}

@[simp] theorem repetition_rename (ρ : String → String) (t : Term) :
    (t.rename ρ).repetition = t.repetition := by
  unfold rename
  split <;> rfl

/-- A literal is not renamed. -/
theorem rename_of_literal (ht : t.symbol = .literal text) : t.rename ρ = t := by
  rw [rename, ht]

theorem rename_of_reference (ht : t.symbol = .reference name) :
    (t.rename ρ).symbol = .reference (ρ name) := by
  rw [rename, ht]

end Term

namespace Grammar

/-- The names of a grammar: those that it defines, and those that it refers to. -/
def names (g : Grammar) : Set String :=
  {name | (∃ d ∈ g, d.name = name) ∨ ∃ t, g.HasTerm t ∧ t.symbol = .reference name}

variable {ρ : String → String} {g : Grammar} {names : Set String} {name : String}

/-- **A name that is renamed stands for what it stood for**, renamed, if none of the names
that are defined falls together with it. -/
theorem find?_rename (hρ : Set.InjOn ρ names) (hg : ∀ d ∈ g, d.name ∈ names)
    (hname : name ∈ names) :
    (g.rename ρ).find? (ρ name) = (g.find? name).map (Definition.rename ρ) := by
  induction g with
  | nil => rfl
  | cons d g ih =>
    have hd : (ρ d.name == ρ name) = (d.name == name) := by
      rw [Bool.eq_iff_iff, beq_iff_eq, beq_iff_eq, hρ.eq_iff (hg d (by simp)) hname]
    have hlater := ih fun d hd => hg d (by simp [hd])
    rw [rename] at hlater
    simp only [rename, List.map_cons, Grammar.find?, hlater, Definition.rename, hd]
    cases Grammar.find? name g with
    | some found => rfl
    | none => cases d.name == name <;> rfl

end Grammar

/-! ## Runs -/

/-- A part of a grammar, renamed. -/
def Goal.rename (ρ : String → String) : Goal → Goal
  | symbol t => symbol (t.rename ρ)
  | loop t count => loop (t.rename ρ) count
  | term t => term (t.rename ρ)
  | sequence terms => sequence (terms.map (Term.rename ρ))
  | choice alternatives => choice (alternatives.map fun terms => terms.map (Term.rename ρ))
  | body d => body (d.rename ρ)
  | rule d => rule (d.rename ρ)

/-- A match with its nodes renamed, and the fragments among them hoisted. -/
def Match.rename (ρ : String → String) (m : Match) : Match :=
  ⟨m.stop, Node.hoistedAll (Node.renameAll ρ m.nodes)⟩

/-- An event, renamed. -/
def Event.rename (ρ : String → String) : Event → Event
  | enter rule offset => enter (ρ rule) offset
  | leave => leave
  | tooDeep rule offset => tooDeep (ρ rule) offset
  | miss offset source => miss offset source
  | unresolved name => unresolved (ρ name)

/-- **A renaming of a grammar that tells its names apart**, in which nothing but the
renaming makes fragments. -/
structure Grammar.Renames (ρ : String → String) (g : Grammar) (names : Set String) : Prop where
  /-- No two names fall together. -/
  injOn : Set.InjOn ρ names
  /-- The names of the grammar are among them. -/
  subset : g.names ⊆ names
  /-- No rule is a fragment as it stands. -/
  isFragment_eq : ∀ d ∈ g, d.isFragment = false

open Goal

variable {ρ : String → String} {g : Grammar} {names : Set String} {n : Nat} {x : Goal} {c : Cursor}
variable {o : Option Match} {events : List Event} {d : Definition}

theorem Grammar.Renames.find?_eq (hg : g.Renames ρ names) {name : String} (hname : name ∈ names) :
    (g.rename ρ).find? (ρ name) = (g.find? name).map (Definition.rename ρ) :=
  find?_rename hg.injOn (fun d hd => hg.subset (.inl ⟨d, hd, rfl⟩)) hname

/-- The node of a rule is renamed with its nodes, or else they are left in its place. -/
theorem Match.wrap_rename (hd : d.isFragment = false) (m : Match) (c : Cursor) :
    (m.rename ρ).wrap (d.rename ρ) c = (m.wrap d c).rename ρ := by
  rw [wrap, wrap, hd]
  by_cases hfragment : Definition.isFragmentName (ρ d.name) = true <;>
    simp [Match.rename, Node.renameAll, Node.rename, Node.hoistedAll, Node.hoisted,
      Definition.isFragment, Definition.rename, hfragment]

/-- **A renamed grammar runs as before**, with its nodes renamed and hoisted. -/
theorem Runs.rename (h : Runs g n x c o events) (hg : g.Renames ρ names) (hx : x.BelongsTo g) :
    Runs (g.rename ρ) n (x.rename ρ) c (o.map (Match.rename ρ)) (events.map (Event.rename ρ)) := by
  induction h with
  | literal ht hr ho =>
    refine .literal ?_ hr ho
    rwa [Term.rename_of_literal ht]
  | noLiteral ht hr =>
    rw [Goal.rename, Term.rename_of_literal ht]
    exact .noLiteral ht hr
  | @reference n t name d c o events ht hd _ ih =>
    have hname : name ∈ names := hg.subset (.inr ⟨t, hx t (List.mem_singleton_self t), ht⟩)
    have hforce := Grammar.find?_eq_some_iff.1 hd
    refine .reference (Term.rename_of_reference ht) ?_ (ih ?_)
    · rw [hg.find?_eq hname, hd, Option.map_some]
    · rwa [← hforce.name_eq] at hforce
  | @unresolved n t name c ht hd =>
    have hname : name ∈ names := hg.subset (.inr ⟨t, hx t (List.mem_singleton_self t), ht⟩)
    refine .unresolved (Term.rename_of_reference ht) ?_
    rw [hg.find?_eq hname, hd, Option.map_none]
  | loopStop _ ih =>
    rw [Matcher.map_verdict]
    exact (ih hx).loopStop
  | loopEmpty _ hstop ih =>
    rw [Matcher.map_verdict]
    exact (ih hx).loopEmpty hstop
  | loopMore _ hstop _ ih ihlater =>
    simpa [Goal.rename, Match.rename, Function.comp_def] using
      (ih hx).loopMore hstop (ihlater hx)
  | once ht _ ih => exact .once (by simpa using ht) (ih hx)
  | optional ht _ ih => exact .optional (by simpa using ht) (ih hx)
  | noOptional ht _ ih => exact .noOptional (by simpa using ht) (ih hx)
  | zeroOrMore ht _ ih => exact .zeroOrMore (by simpa using ht) (ih hx)
  | oneOrMore ht _ ih => exact .oneOrMore (by simpa using ht) (ih hx)
  | nil => exact .nil
  | cons _ _ ih ihlater =>
    obtain ⟨hfirst, hlater⟩ := forall_terms_sequence.1 hx
    simpa [Goal.rename, Match.rename] using (ih hfirst).cons (ihlater hlater)
  | consFirst _ ih => exact (ih (forall_terms_sequence.1 hx).1).consFirst
  | consLater _ _ ih ihlater =>
    obtain ⟨hfirst, hlater⟩ := forall_terms_sequence.1 hx
    simpa [Goal.rename] using (ih hfirst).consLater (ihlater hlater)
  | noChoice => exact .noChoice
  | first _ ih => exact (ih (forall_terms_choice.1 hx).1).first
  | later _ _ ih ihlater =>
    obtain ⟨hfirst, hlater⟩ := forall_terms_choice.1 hx
    simpa [Goal.rename] using (ih hfirst).later (ihlater hlater)
  | tooDeep => exact .tooDeep
  | body _ ih =>
    simpa [Goal.rename, Event.rename, Definition.rename] using (ih (belongsTo_choice hx)).body
  | noRule _ ih => exact (ih hx).noRule
  | @rule n d c m events _ ih =>
    rw [Option.map_some, ← Match.wrap_rename (hg.isFragment_eq d hx.mem)]
    exact (ih hx).rule

/-! ## Parses -/

/-- A parse of a grammar that is renamed. Its problems speak of literals, not of names. -/
def Parse.rename (ρ : String → String) (parse : Parse) : Parse :=
  ⟨{ (parse.root.rename ρ).hoist with errors := parse.problems }⟩

/-- The furthest failure is told alike. -/
theorem Progress.foldl_rename (ρ : String → String) (events : List Event) (p : Progress) :
    (events.map (Event.rename ρ)).foldl note p = events.foldl note p := by
  rw [List.foldl_map]
  congr 1
  funext p event
  cases event <;> rfl

theorem Parser.finish_rename (ρ : String → String) (limit : Nat) (text : List Char)
    (d : Definition) (m : Match) (p : Progress) :
    finish limit text (d.rename ρ) (m.rename ρ) p = (finish limit text d m p).rename ρ := by
  simp [finish, Parse.rename, Node.rename, Node.hoist, Match.rename, Definition.rename]

/-- **A renamed grammar parses as before**: it comes to a tree where it came to one, with
the same problems, and to that tree, renamed and hoisted. -/
theorem Parser.parseFrom_rename {p p' : Parser} (hp : p'.grammar = p.grammar.rename ρ)
    (hdepth : p'.options.maxDepth = p.options.maxDepth) (hg : p.grammar.Renames ρ names)
    {start : String} (hstart : start ∈ names) (text : String) :
    p'.parseFrom text (ρ start) = (p.parseFrom text start).map (Parse.rename ρ) := by
  rw [parseFrom, parseFrom, hp, hg.find?_eq hstart]
  cases hd : p.grammar.find? start with
  | none => rfl
  | some d =>
    have hforce := Grammar.find?_eq_some_iff.1 hd
    rw [← hforce.name_eq] at hforce
    obtain ⟨o, events, h⟩ :=
      exists_runs p.grammar p.options.maxDepth (body d) (Cursor.start text.toList)
    have hrun : p.run text.toList d = (o, events.foldl Progress.note .start) :=
      h.run Progress.note .start
    have hrun' : p'.run text.toList (d.rename ρ) =
        (o.map (Match.rename ρ), events.foldl Progress.note .start) := by
      rw [run, hp, hdepth, ← Progress.foldl_rename ρ]
      exact (h.rename hg hforce).run Progress.note .start
    simp only [Option.map_some, Option.bind_some, parseDefinition, hrun, hrun', hdepth]
    cases o with
    | none => rfl
    | some m => simp only [Option.map_some, finish_rename]

end OrderedBnf
