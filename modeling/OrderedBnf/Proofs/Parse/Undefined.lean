import OrderedBnf.Proofs.Parse.Furthest
import OrderedBnf.Proofs.Rule.References

/-!
# Parses and undefined names

A name that is looked up in vain in the course of a parse is referred to in the table and
defined nowhere in it, so it is among the `undefinedNames`. If there are none, every name
that is looked up is found, in every parse, and no match fails for the want of a definition
(`undefinedNames_agree`).
-/

namespace OrderedBnf

open Goal

variable {g : Grammar} {n : Nat} {x : Goal} {c : Cursor} {o : Option Match}
variable {events : List Event} {rules : List Rule} {name : String}

/-- **What is looked up in vain in a run** is what a term of the grammar refers to, and has
no definition. -/
theorem Runs.of_unresolved_mem (h : Runs g n x c o events) (hx : x.BelongsTo g)
    (he : .unresolved name ∈ events) :
    (∃ t, g.HasTerm t ∧ t.symbol = .reference name) ∧ g.find? name = none := by
  induction h with
  | literal | noLiteral | nil | noChoice | tooDeep => simp at he
  | @unresolved n t name' c ht hd =>
    obtain rfl : name = name' := by simpa using he
    exact ⟨⟨t, hx t (List.mem_singleton_self t), ht⟩, hd⟩
  | reference _ hd _ ih =>
    have hforce := Grammar.find?_eq_some_iff.1 hd
    rw [← hforce.name_eq] at hforce
    exact ih hforce he
  | loopStop _ ih | loopEmpty _ _ ih | once _ _ ih | optional _ _ ih | noOptional _ _ ih
  | zeroOrMore _ _ ih | oneOrMore _ _ ih => exact ih hx he
  | loopMore _ _ _ ih ihlater =>
    rcases List.mem_append.1 he with he | he
    · exact ih hx he
    · exact ihlater hx he
  | cons _ _ ih ihlater | consLater _ _ ih ihlater =>
    obtain ⟨hfirst, hlater⟩ := forall_terms_sequence.1 hx
    rcases List.mem_append.1 he with he | he
    · exact ih hfirst he
    · exact ihlater hlater he
  | consFirst _ ih => exact ih (forall_terms_sequence.1 hx).1 he
  | first _ ih => exact ih (forall_terms_choice.1 hx).1 he
  | later _ _ ih ihlater =>
    obtain ⟨hfirst, hlater⟩ := forall_terms_choice.1 hx
    rcases List.mem_append.1 he with he | he
    · exact ih hfirst he
    · exact ihlater hlater he
  | body _ ih => exact ih (belongsTo_choice hx) (by simpa using he)
  | noRule _ ih | rule _ ih => exact ih hx he

/-- A term of the grammar of a table stands somewhere in the table. -/
theorem exists_refersAt {t : Term} (h : (Grammar.ofRules rules).HasTerm t)
    (ht : t.symbol = .reference name) : ∃ place, RefersAt rules place name := by
  obtain ⟨d, hd, hmem⟩ := h
  obtain ⟨rule, hrule, rfl⟩ := List.mem_map.1 hd
  obtain ⟨terms, hterms, hmem⟩ := List.mem_flatten.1 hmem
  obtain ⟨sources, hsources, rfl⟩ := List.mem_map.1 hterms
  obtain ⟨source, hsource, rfl⟩ := List.mem_map.1 hmem
  obtain ⟨i, hi⟩ := List.mem_iff_getElem?.1 hrule
  obtain ⟨j, hj⟩ := List.mem_iff_getElem?.1 hsources
  obtain ⟨k, hk⟩ := List.mem_iff_getElem?.1 hsource
  exact ⟨⟨i, j, k⟩, source, ⟨rule, sources, hi, hj, hk⟩, ht⟩

/-- **What is looked up in vain in a parse is listed.** -/
theorem mem_undefinedNames_of_trace {options : ParserOptions} {start : String} {d : Definition}
    (hd : (Grammar.ofRules rules).find? start = some d) {text : List Char}
    (he : .unresolved name ∈ (Parser.ofRules rules options).trace text d) :
    name ∈ undefinedNames rules := by
  have hruns := Parser.runs_trace (Parser.ofRules rules options) text d
  have hforce := Grammar.find?_eq_some_iff.1 hd
  rw [← hforce.name_eq] at hforce
  obtain ⟨⟨t, ht, href⟩, hnone⟩ := hruns.of_unresolved_mem hforce he
  exact mem_undefinedNames_iff.2 ⟨exists_refersAt ht href, hnone⟩

/-- If nothing is listed, whatever a term of the grammar refers to has a definition. -/
theorem exists_definition_of_eq_nil {t : Term} (hnil : undefinedNames rules = [])
    (ht : (Grammar.ofRules rules).HasTerm t) (href : t.symbol = .reference name) :
    ∃ d, (Grammar.ofRules rules).find? name = some d := by
  refine Option.ne_none_iff_exists'.1 ?_
  intro hnone
  have hmem : name ∈ undefinedNames rules :=
    mem_undefinedNames_iff.2 ⟨exists_refersAt ht href, hnone⟩
  exact List.ne_nil_of_mem hmem hnil

/-- **The list of undefined names agrees with the matcher**, for every table. A name is in it
if and only if some term refers to it, in a rule that is in force or in one that is defined
again, and a grammar of the table has no definition of it. No name is in it twice, and the
names are in the order of the places where they are referred to first. If the list is empty,
whatever a term of the grammar refers to has a definition, and no name is looked up in vain
in the course of any parse. -/
theorem undefinedNames_agree (rules : List Rule) :
    (undefinedNames rules).Nodup ∧
    (∀ name, name ∈ undefinedNames rules ↔
      (∃ place, RefersAt rules place name) ∧ (Grammar.ofRules rules).find? name = none) ∧
    ((undefinedNames rules).Pairwise fun a b => ∃ place, RefersAt rules place a ∧
      ∀ place', RefersAt rules place' b → place.Before place') ∧
    (undefinedNames rules = [] →
      (∀ t name, (Grammar.ofRules rules).HasTerm t → t.symbol = .reference name →
        ∃ d, (Grammar.ofRules rules).find? name = some d) ∧
      ∀ (options : ParserOptions) (start : String) (d : Definition),
        (Grammar.ofRules rules).find? start = some d → ∀ (text : List Char) (name : String),
          .unresolved name ∉ (Parser.ofRules rules options).trace text d) := by
  refine ⟨nodup_undefinedNames rules, fun name => mem_undefinedNames_iff,
    pairwise_undefinedNames rules, ?_⟩
  intro hnil
  refine ⟨fun t name ht href => exists_definition_of_eq_nil hnil ht href, ?_⟩
  intro options start d hd text name he
  have hmem := mem_undefinedNames_of_trace hd he
  exact List.ne_nil_of_mem hmem hnil

/-- A rule that is defined again, with a quote that is not closed and a name in it that
nothing defines. -/
def openTable : List Rule :=
  [⟨"s", [["b+", "\"a"], ["'b'*", "c?"]]⟩, ⟨"s", [["t", "c"]]⟩, ⟨"t", [["b", "''+"]]⟩]

/-- The same table with definitions of all of these, which match nothing. -/
def closedTable : List Rule := openTable ++ [⟨"b", []⟩, ⟨"\"a", []⟩, ⟨"c", []⟩]

/-- The undefined names are listed in order, with the quote; with the definitions none is
looked up in vain. -/
theorem undefinedNames_agree_open :
    undefinedNames openTable = ["b", "\"a", "c"] ∧
    (∃ place, RefersAt openTable place "\"a") ∧
    undefinedNames closedTable = [] ∧
    ∃ d, (Grammar.ofRules closedTable).find? "s" = some d ∧
      .unresolved "b" ∉ (Parser.ofRules closedTable .standard).trace "x".toList d := by
  have hnames : undefinedNames openTable = ["b", "\"a", "c"] := by decide +kernel
  have hnone : undefinedNames closedTable = [] := by decide +kernel
  have hmem : "\"a" ∈ undefinedNames openTable := by
    rw [hnames]
    decide
  obtain ⟨hrefers, -⟩ := ((undefinedNames_agree openTable).2.1 "\"a").1 hmem
  obtain ⟨-, hnever⟩ := (undefinedNames_agree closedTable).2.2.2 hnone
  exact ⟨hnames, hrefers, hnone, _, rfl, hnever .standard "s" _ rfl "x".toList "b"⟩

end OrderedBnf
