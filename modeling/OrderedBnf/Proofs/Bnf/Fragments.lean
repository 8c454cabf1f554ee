import OrderedBnf.Proofs.Bnf.Scope
import OrderedBnf.Proofs.Bnf.Shown
import OrderedBnf.Proofs.Match.Rename

/-!
# What fragments do to a tree

Whether a rule is a fragment is a matter of how its name is written. So a table without
fragments can be given other names, some of them in capitals, and be compared with the
table that it was: the texts that are matched are the same, with the same problems, and
of a tree only the nodes of the new fragments are gone, their children being left where
they stood (`parseFrom_rename_table`).

The new names are names of BNF documents. Such a name does not begin with a quote and
ends in no suffix, so a term that it is put into is still a reference to it, with the
suffix that the term had.
-/

namespace OrderedBnf

/-- A term of a table with the name that it refers to renamed. A literal is left as it
is, and a suffix is kept. -/
def Rule.renameTerm (ρ : String → String) (term : String) : String :=
  match (Term.ofSource term).symbol with
  | .literal _ => term
  | .reference name => ρ name ++ (Term.ofSource term).repetition.suffix

/-- A rule with its own name renamed, and the names that it refers to. -/
def Rule.rename (ρ : String → String) (rule : Rule) : Rule :=
  ⟨ρ rule.name, rule.alternatives.map fun terms => terms.map (renameTerm ρ)⟩

/-- The names of a table: those that it defines, and those that it refers to. -/
def tableNames (rules : List Rule) : List String :=
  rules.map Rule.name ++ referencedNames rules

namespace Bnf

variable {ρ : String → String} {rules : List Rule} {rule : Rule} {name term : String}

/-! ## Terms -/

/-- **A name with a suffix is a reference to that name**, as often as the suffix asks for. -/
theorem ofSource_append_suffix (h : IsName name.toList) (r : Repetition) :
    Term.ofSource (name ++ r.suffix) = ⟨.reference name, r, name⟩ := by
  have hlast := noSuffix_of_isName h
  have hliteral := isLiteral_of_isName h
  have hbase : Term.isBase name.toList = true := by
    cases hchars : name.toList with
    | nil =>
      rw [hchars] at h
      cases h
    | cons a rest =>
      rw [hchars] at h
      simp [Term.isBase, isName, isQuote_of_isAlpha h.1]
  cases r with
  | once => simpa [Repetition.suffix] using Term.ofSource_of_name hliteral hlast
  | optional | zeroOrMore | oneOrMore =>
    simp [Term.ofSource, Term.split, Term.splitChars, Repetition.suffix, Repetition.ofSuffix?,
      hbase, Symbol.ofBase, hliteral]

/-- A term is taken apart alike when it is renamed. -/
theorem ofSource_renameTerm
    (h : ∀ name, (Term.ofSource term).symbol = .reference name → IsName (ρ name).toList) :
    Term.ofSource (Rule.renameTerm ρ term) = (Term.ofSource term).rename ρ := by
  simp only [Rule.renameTerm, Term.rename]
  cases hsymbol : (Term.ofSource term).symbol with
  | literal text => rfl
  | reference name => exact ofSource_append_suffix (h name hsymbol) _

/-! ## Tables -/

theorem mem_referencedNames_of_symbol (hterm : term ∈ allTerms rules)
    (h : (Term.ofSource term).symbol = .reference name) : name ∈ referencedNames rules :=
  List.mem_filterMap.2 ⟨term, hterm, referenceOf_eq_some_iff.2 h⟩

/-- **A table that is renamed has the grammar of the table, renamed.** -/
theorem ofRules_map_rename (h : ∀ name ∈ referencedNames rules, IsName (ρ name).toList) :
    Grammar.ofRules (rules.map (Rule.rename ρ)) = (Grammar.ofRules rules).rename ρ := by
  simp only [Grammar.ofRules, Grammar.rename, List.map_map, List.map_inj_left]
  intro rule hrule
  have hterms : ∀ terms ∈ rule.alternatives, ∀ term ∈ terms,
      Term.ofSource (Rule.renameTerm ρ term) = (Term.ofSource term).rename ρ := by
    intro terms hterms term hterm
    have hall : term ∈ allTerms rules :=
      List.mem_flatMap.2 ⟨rule, hrule, List.mem_flatten.2 ⟨terms, hterms, hterm⟩⟩
    exact ofSource_renameTerm fun name hname => h name (mem_referencedNames_of_symbol hall hname)
  simpa [Definition.ofRule, Rule.rename, Definition.rename] using hterms

theorem names_ofRules_subset (rules : List Rule) :
    (Grammar.ofRules rules).names ⊆ {name | name ∈ tableNames rules} := by
  rintro name (⟨d, hd, rfl⟩ | ⟨t, ⟨d, hd, ht⟩, hname⟩)
  · obtain ⟨rule, hrule, rfl⟩ := List.mem_map.1 hd
    exact List.mem_append_left _ (List.mem_map_of_mem hrule)
  · obtain ⟨rule, hrule, rfl⟩ := List.mem_map.1 hd
    exact List.mem_append_right _
      (mem_referencedNames_of_mem hrule (mem_referencedNames.2 ⟨t, ht, hname⟩))

/-- **Fragments only take nodes out of a tree.** Where no rule of a table is a fragment and
the names are renamed, no two to the same, the renamed table parses every text as the
table does, from the renamed start and with the same limit: to no tree or to a tree, with
the same problems. The tree is that of the table with its nodes renamed, and below the
root every node of a fragment has given place to its children. -/
theorem parseFrom_rename_table (ρ : String → String) {start : String}
    {options options' : ParserOptions} (hdepth : options'.maxDepth = options.maxDepth)
    (hrules : ∀ rule ∈ rules, Definition.isFragmentName rule.name = false)
    (hnames : ∀ name ∈ referencedNames rules, IsName (ρ name).toList)
    (hinj : Set.InjOn ρ {name | name ∈ start :: tableNames rules}) (text : String) :
    (Parser.ofRules (rules.map (Rule.rename ρ)) options').parseFrom text (ρ start) =
      ((Parser.ofRules rules options).parseFrom text start).map fun parse =>
        ⟨{ (parse.root.rename ρ).hoist with errors := parse.problems }⟩ := by
  have hsubset : {name | name ∈ tableNames rules} ⊆ {name | name ∈ start :: tableNames rules} :=
    fun _ hname => List.mem_cons_of_mem start hname
  have hg : (Grammar.ofRules rules).Renames ρ {name | name ∈ start :: tableNames rules} :=
    { injOn := hinj
      subset := (names_ofRules_subset rules).trans hsubset
      isFragment_eq := fun d hd => by
        obtain ⟨rule, hrule, rfl⟩ := List.mem_map.1 hd
        exact hrules rule hrule }
  exact Parser.parseFrom_rename (ofRules_map_rename hnames) hdepth hg List.mem_cons_self text

/-- A list of items with commas between them, -/
def itemTable : List Rule :=
  [⟨"list", [["item", "more?"]]⟩, ⟨"more", [["','", "list"]]⟩, ⟨"item", [["'x'"], ["'y'"]]⟩]

/-- of which only the items are to have nodes. -/
def itemsOnly (name : String) : String :=
  if name = "list" then "LIST" else if name = "more" then "MORE_1" else "item-2"

/-- The root stays, although it is a fragment, and of the two lists inside, nested in each
other, only the items are left. The input left over is reported alike. -/
theorem parseFrom_rename_table_items :
    (∀ rule ∈ itemTable, Definition.isFragmentName rule.name = false) ∧
    (∀ name ∈ referencedNames itemTable, IsName (itemsOnly name).toList) ∧
    Set.InjOn itemsOnly {name | name ∈ "list" :: tableNames itemTable} ∧
    (Parser.ofRules [⟨"LIST", [["item-2", "MORE_1?"]]⟩, ⟨"MORE_1", [["','", "LIST"]]⟩,
        ⟨"item-2", [["'x'"], ["'y'"]]⟩] .standard).parseFrom "x,y,x;" "LIST" =
      some ⟨⟨"LIST", "x,y,x", 0, 5, [⟨"item-2", "x", 0, 1, [], []⟩,
        ⟨"item-2", "y", 2, 3, [], []⟩, ⟨"item-2", "x", 4, 5, [], []⟩],
        [.unexpectedInput ⟨1, 6⟩ ";" ["','"]]⟩⟩ := by
  have hrules : ∀ rule ∈ itemTable, Definition.isFragmentName rule.name = false := by decide
  have hnames : ∀ name ∈ referencedNames itemTable, IsName (itemsOnly name).toList := by decide
  have hinj : Set.InjOn itemsOnly {name | name ∈ "list" :: tableNames itemTable} := by
    have hall : ∀ name ∈ "list" :: tableNames itemTable, ∀ other ∈ "list" :: tableNames itemTable,
        itemsOnly name = itemsOnly other → name = other := by decide
    exact fun name hname other hother => hall name hname other hother
  have hdepth : ParserOptions.standard.maxDepth = ParserOptions.standard.maxDepth := rfl
  have hparse := parseFrom_rename_table itemsOnly hdepth hrules hnames hinj "x,y,x;"
  have hplain : (Parser.ofRules itemTable .standard).parseFrom "x,y,x;" "list" =
      some ⟨⟨"list", "x,y,x", 0, 5, [⟨"item", "x", 0, 1, [], []⟩,
        ⟨"more", ",y,x", 1, 5, [⟨"list", "y,x", 2, 5, [⟨"item", "y", 2, 3, [], []⟩,
          ⟨"more", ",x", 3, 5, [⟨"list", "x", 4, 5, [⟨"item", "x", 4, 5, [], []⟩], []⟩], []⟩],
            []⟩], []⟩],
        [.unexpectedInput ⟨1, 6⟩ ";" ["','"]]⟩⟩ := by decide +kernel
  refine ⟨hrules, hnames, hinj, (hparse.trans (congrArg _ hplain)).trans ?_⟩
  decide +kernel

end Bnf

end OrderedBnf
