import Mathlib.Computability.ContextFreeGrammar
import OrderedBnf.Proofs.Bnf.RoundTrip
import OrderedBnf.Proofs.Match.Language
import OrderedBnf.Proofs.Parse.Tree

/-!
# The language of a document

A table that is written in BNF has no suffixes, so it is a context-free grammar
as it stands (`contextFree`): an alternative is the right side of a production,
with the characters of its literals for terminals and its references for
nonterminals, and a name has the productions of its last rule. What the matcher
generates with such a table, this grammar derives (`mem_contextFree_of_mem`).

So a parser built from a document finds no problem only with texts that are in
the language of the document.
-/

namespace OrderedBnf

open Goal

namespace Bnf

/-! ## Tables as context-free grammars -/

/-- **An alternative as a production.** -/
def production (name : String) (terms : List Term) : ContextFreeRule Char String :=
  ⟨name, terms.flatMap fun t =>
    match t.symbol with
    | .literal text => text.map .terminal
    | .reference name => [.nonterminal name]⟩

/-- The last rule of a name. -/
def lastRule? (rules : List Rule) (name : String) : Option Rule :=
  rules.reverse.find? (·.name == name)

/-- The productions of a table, without those of rules that are defined again. -/
def productions (rules : List Rule) : List (ContextFreeRule Char String) :=
  rules.flatMap fun rule =>
    if lastRule? rules rule.name = some rule then
      rule.alternatives.map fun terms => production rule.name (terms.map Term.ofSource)
    else []

/-- **The context-free grammar of a table without suffixes**, from the rule of a
name. -/
def contextFree (rules : List Rule) (start : String) : ContextFreeGrammar Char where
  NT := String
  initial := start
  rules := (productions rules).toFinset

variable {rules : List Rule} {rule : Rule} {name start : String} {terms : List Term} {t : Term}
variable {text later : List Char} {d : Definition} {x : Goal}

/-- The last rule of a name gives the definition in force. -/
theorem find?_ofRules (rules : List Rule) (name : String) :
    (Grammar.ofRules rules).find? name = (lastRule? rules name).map Definition.ofRule := by
  induction rules with
  | nil => rfl
  | cons rule rules ih =>
    change ((Grammar.ofRules rules).find? name).or _ = _
    rw [ih, lastRule?, lastRule?, List.reverse_cons, List.find?_append]
    cases (rules.reverse.find? (·.name == name)) with
    | some last => rfl
    | none => cases h : rule.name == name <;> simp [Definition.ofRule, h]

/-- **The alternatives of a definition in force are productions of its name.** -/
theorem production_mem (hd : (Grammar.ofRules rules).InForce name d)
    (hterms : terms ∈ d.alternatives) :
    production name terms ∈ (contextFree rules start).rules := by
  have hfind := Grammar.find?_eq_some_iff.2 hd
  rw [find?_ofRules] at hfind
  obtain ⟨rule, hlast, rfl⟩ := Option.map_eq_some_iff.1 hfind
  obtain rfl : rule.name = name := hd.name_eq
  obtain ⟨sources, hsources, rfl⟩ := List.mem_map.1 hterms
  have hrule : rule ∈ rules := List.mem_reverse.1 (List.mem_of_find?_eq_some hlast)
  change _ ∈ (productions rules).toFinset
  rw [List.mem_toFinset]
  refine List.mem_flatMap.2 ⟨rule, hrule, ?_⟩
  rw [if_pos hlast]
  exact List.mem_map_of_mem hsources

/-! ## Derivations -/

theorem derives_append {g : ContextFreeGrammar Char} {u v}
    (h : g.Derives u (text.map .terminal)) (h' : g.Derives v (later.map .terminal)) :
    g.Derives (u ++ v) ((text ++ later).map .terminal) := by
  rw [List.map_append]
  exact (h.append_right v).trans (h'.append_left (text.map .terminal))

/-- The right side of a production derives a text. -/
private abbrev Right (rules : List Rule) (start : String) (terms : List Term)
    (text : List Char) : Prop :=
  (contextFree rules start).Derives (production start terms).output (text.map .terminal)

/-- What it is for a part of a grammar to be derived: a sequence is the right side
of a production, and a definition is a name that it is in force for. Nothing is
said of repetitions. -/
private def Derived (rules : List Rule) (start : String) (text : List Char) : Goal → Prop
  | .symbol t => Right rules start [t] text
  | .term t => t.repetition = .once → Right rules start [t] text
  | .sequence terms => (∀ t ∈ terms, t.repetition = .once) → Right rules start terms text
  | .choice alternatives => (∀ terms ∈ alternatives, ∀ t ∈ terms, t.repetition = .once) →
      ∃ terms ∈ alternatives, Right rules start terms text
  | .rule d => ∀ name, (Grammar.ofRules rules).InForce name d →
      (contextFree rules start).Derives [.nonterminal name] (text.map .terminal)
  | .body _ => True
  | .loop _ _ => True

/-- A table without suffixes asks for no repetition. -/
theorem repetition_eq_once (h : IsPlainTable rules) (hd : d ∈ Grammar.ofRules rules)
    (hterms : terms ∈ d.alternatives) (ht : t ∈ terms) : t.repetition = .once := by
  obtain ⟨rule, hrule, rfl⟩ := List.mem_map.1 hd
  obtain ⟨sources, hsources, rfl⟩ := List.mem_map.1 hterms
  obtain ⟨source, hsource, rfl⟩ := List.mem_map.1 ht
  have hsplit : Term.splitChars source.toList = (source.toList, .once) := by
    rcases (h.isPlainRule rule hrule).isPlainTerm sources hsources source hsource with h | h
    · exact Term.splitChars_of_isLiteral (isLiteral_of_isLiteral h)
    · exact Term.splitChars_of_last (noSuffix_of_isName h)
  simp [Term.ofSource, Term.split, hsplit]

private theorem derived_of_generates (hplain : IsPlainTable rules)
    (h : Generates (Grammar.ofRules rules) x text) : Derived rules start text x := by
  induction h with
  | @literal t text ht =>
    have hright : (production start [t]).output = text.map .terminal := by simp [production, ht]
    change (contextFree rules start).Derives _ _
    rw [hright]
    exact .refl _
  | @reference t name d text ht hd _ ih =>
    have hright : (production start [t]).output = [.nonterminal name] := by simp [production, ht]
    change (contextFree rules start).Derives _ _
    rw [hright]
    exact ih name hd
  | manyNone => trivial
  | manyMore => trivial
  | once _ _ ih => exact fun _ => ih
  | optional ht => exact fun h => by rw [ht] at h; cases h
  | noOptional ht => exact fun h => by rw [ht] at h; cases h
  | zeroOrMore ht => exact fun h => by rw [ht] at h; cases h
  | oneOrMore ht => exact fun h => by rw [ht] at h; cases h
  | nil => exact fun _ => .refl _
  | @cons t terms text later _ _ ih ihlater =>
    intro honce
    have hright : (production start (t :: terms)).output =
        (production start [t]).output ++ (production start terms).output := by
      simp [production]
    change (contextFree rules start).Derives _ _
    rw [hright]
    exact derives_append (ih (honce t (by simp))) (ihlater fun t ht => honce t (by simp [ht]))
  | @choice terms alternatives text hterms _ ih =>
    exact fun honce => ⟨terms, hterms, ih (honce terms hterms)⟩
  | body => trivial
  | @rule d text _ ih =>
    intro name hd
    obtain ⟨terms, hterms, hright⟩ :=
      ih fun terms hterms t ht => repetition_eq_once hplain hd.mem hterms ht
    have hstep : (contextFree rules start).Produces [.nonterminal name]
        (production name terms).output :=
      ⟨production name terms, production_mem hd hterms, ContextFreeRule.Rewrites.input_output⟩
    exact hstep.trans_derives hright

/-- **What a table without suffixes generates, its grammar derives.** -/
theorem mem_contextFree_of_mem (hplain : IsPlainTable rules)
    (h : text ∈ (Grammar.ofRules rules).language start) :
    text ∈ (contextFree rules start).language := by
  obtain ⟨d, hd, htext⟩ := h
  exact derived_of_generates hplain htext start hd

/-! ## Parses -/

/-- **A tree in the language of a grammar**: what it took of a text is in the
language of its rule, and so is the text of each node in the language of its
kind. -/
structure IsGenerated (g : Grammar) (text start : String) (root : Node) : Prop where
  taken : ∃ part, slice? text 0 root.stop = some part ∧ part.toList ∈ g.language start
  nodes : ∀ depth node, (depth, node) ∈ root.preorder → node.text.toList ∈ g.language node.kind

theorem root_mem_preorder (root : Node) : (0, root) ∈ root.preorder := by
  rw [Node.preorder, Node.listing_eq]
  exact List.mem_cons_self ..

theorem isGenerated_of_parseFrom {p : Parser} {text : String} {parse : Parse}
    (h : p.parseFrom text start = some parse) : IsGenerated p.grammar text start parse.root := by
  obtain ⟨hkind, hstart, hall⟩ := Parser.matched_of_parseFrom h
  have hnodes : ∀ depth node, (depth, node) ∈ parse.root.preorder →
      node.text.toList ∈ p.grammar.language node.kind := by
    intro depth node hnode
    obtain ⟨n, d, -, -, hmatched⟩ := hall depth node hnode
    exact hmatched.mem_language
  refine ⟨⟨parse.root.text, ?_, hkind ▸ hnodes 0 _ (root_mem_preorder _)⟩, hnodes⟩
  obtain ⟨n, d, -, -, hmatched⟩ := hall 0 _ (root_mem_preorder _)
  rw [← hstart]
  exact hmatched.inText.slice_eq

/-- A parse without problems has the whole text. -/
theorem text_eq_of_problems_eq_nil {p : Parser} {text : String} {parse : Parse}
    (h : p.parseFrom text start = some parse) (hproblems : parse.problems = []) :
    parse.root.text = text := by
  obtain ⟨d, m, progress, hd, hrun, rfl⟩ := Parser.exists_run_of_parseFrom h
  obtain ⟨hstop, -⟩ := problems_eq_nil_iff.1 hproblems
  obtain ⟨taken, hr, ho⟩ := (Parser.admits_of_run (congrArg Prod.fst hrun)).reaches
  rw [hstop, List.append_nil] at hr
  change String.ofList ((Cursor.start text.toList).upTo m.stop.offset) = text
  rw [Cursor.upTo_of_rest (by rw [hstop, List.append_nil, hr]) ho, ← hr, Cursor.start,
    String.ofList_toList]

/-- What the parser of a document finds no problem with. -/
theorem mem_contextFree_of_parseFrom {eol : EolStyle} {source text : String}
    {options : ParserOptions} {p : Parser} {written : List Rule} {parse : Parse}
    (hwritten : WritesDocument written source.toList)
    (hp : p = Parser.ofRules (withEol eol written) options)
    (h : p.parseFrom text start = some parse) (hproblems : parse.problems = []) :
    text.toList ∈ (contextFree (withEol eol written) start).language := by
  subst hp
  obtain ⟨_, _, _, htable, _⟩ := hwritten
  refine mem_contextFree_of_mem (htable.isPlainTable.withEol eol) ?_
  have hroot := (isGenerated_of_parseFrom h).nodes 0 _ (root_mem_preorder _)
  obtain ⟨hkind, -, -⟩ := Parser.matched_of_parseFrom h
  rwa [hkind, text_eq_of_problems_eq_nil h hproblems] at hroot

theorem exists_document_of_buildParser {eol : EolStyle} {source : String}
    {options : ParserOptions} {p : Parser} (h : buildParser eol source options = .ok p) :
    ∃ written, WritesDocument written source.toList ∧
      p = Parser.ofRules (withEol eol written) options := by
  rw [buildParser] at h
  cases hcompile : compile eol source with
  | error e =>
    rw [hcompile] at h
    cases h
  | ok rules =>
    obtain ⟨written, hwritten, -, rfl⟩ := compile_eq_ok_iff.1 hcompile
    rw [hcompile] at h
    exact ⟨written, hwritten.writes, (Except.ok.inj h).symm⟩

/-- **Parses are sound.** Whatever the table, a tree from a rule has taken a text
of the language of that rule, and the text of each of its nodes is in the
language of the node's kind, also when the limit was reached; and a parser that
is built from a document finds no problem only with texts of the context-free
grammar that the document writes, with a rule for the end of a line when it has
none. -/
theorem mem_language_of_parse (options : ParserOptions) (text : String) :
    (∀ rules start parse, (Parser.ofRules rules options).parseFrom text start = some parse →
      IsGenerated (Grammar.ofRules rules) text start parse.root) ∧
    (∀ rules parse, (Parser.ofRules rules options).parse text = some parse →
      ∃ start, (Parser.ofRules rules options).start? = some start ∧
        IsGenerated (Grammar.ofRules rules) text start parse.root) ∧
    ∀ eol source p, buildParser eol source options = .ok p →
      ∃ written, WritesDocument written source.toList ∧
        (∀ start parse, p.parseFrom text start = some parse → parse.problems = [] →
          text.toList ∈ (contextFree (withEol eol written) start).language) ∧
        ∀ parse, p.parse text = some parse → parse.problems = [] →
          ∃ start, p.start? = some start ∧
            text.toList ∈ (contextFree (withEol eol written) start).language := by
  refine ⟨fun rules start parse h => isGenerated_of_parseFrom h, fun rules parse h => ?_,
    fun eol source p h => ?_⟩
  · obtain ⟨start, hstart, hparse⟩ := Option.bind_eq_some_iff.1 h
    exact ⟨start, hstart, isGenerated_of_parseFrom hparse⟩
  · obtain ⟨written, hwritten, hp⟩ := exists_document_of_buildParser h
    refine ⟨written, hwritten, fun start parse hparse => ?_, fun parse hparse hproblems => ?_⟩
    · exact mem_contextFree_of_parseFrom hwritten hp hparse
    · obtain ⟨start, hstart, hparse⟩ := Option.bind_eq_some_iff.1 hparse
      exact ⟨start, hstart, mem_contextFree_of_parseFrom hwritten hp hparse hproblems⟩

/-- Sums of digits, where the digits are given twice. -/
def sumTable : List Rule :=
  [⟨"s", [["n", "'+'", "s"], ["n"]]⟩, ⟨"n", [["'0'"]]⟩, ⟨"n", [["'1'"], ["'2'"]]⟩]

/-- Repetitions that go through levels. -/
def runsTable : List Rule := [⟨"s", [["\"x\"+", "s?"]]⟩]

/-- A sum is in the language of its table, written as a document, and of a table
with suffixes so is what was taken before the limit. -/
theorem mem_language_of_parse_sum :
    (∃ p parse written, buildParser .together (Rule.showTable sumTable) .standard = .ok p ∧
      p.parse "1+2" = some parse ∧ parse.problems = [] ∧
      WritesDocument written (Rule.showTable sumTable).toList ∧
      "1+2".toList ∈ (contextFree (withEol .together written) "s").language) ∧
    ∃ parse, (Parser.ofRules runsTable ⟨none, 1⟩).parse "xxy" = some parse ∧
      Problem.tooDeep 1 ∈ parse.problems ∧
      IsGenerated (Grammar.ofRules runsTable) "xxy" "s" parse.root := by
  constructor
  · have hplain : IsPlainTable sumTable := by decide +kernel
    have hdepth : WithinDepth sumTable := by decide +kernel
    have hbuild : buildParser .together (Rule.showTable sumTable) .standard =
        .ok (Parser.ofRules (withEol .together sumTable) .standard) := by
      rw [buildParser, compile_show hplain hdepth (by decide)]
      rfl
    obtain ⟨parse, hparse, hproblems⟩ : ∃ parse,
        (Parser.ofRules (withEol .together sumTable) .standard).parse "1+2" = some parse ∧
          parse.problems = [] := ⟨_, rfl, by decide +kernel⟩
    obtain ⟨written, hwritten, -, hall⟩ :=
      (mem_language_of_parse .standard "1+2").2.2 _ _ _ hbuild
    obtain ⟨start, hstart, hmem⟩ := hall parse hparse hproblems
    obtain rfl : "s" = start := Option.some.inj hstart
    exact ⟨_, parse, written, hbuild, hparse, hproblems, hwritten, hmem⟩
  · obtain ⟨parse, hparse, hlimit⟩ : ∃ parse,
        (Parser.ofRules runsTable ⟨none, 1⟩).parse "xxy" = some parse ∧
          Problem.tooDeep 1 ∈ parse.problems := ⟨_, rfl, by decide +kernel⟩
    obtain ⟨start, hstart, hgenerated⟩ :=
      (mem_language_of_parse ⟨none, 1⟩ "xxy").2.1 runsTable parse hparse
    obtain rfl : "s" = start := Option.some.inj hstart
    exact ⟨parse, hparse, hlimit, hgenerated⟩

end Bnf

end OrderedBnf
