import OrderedBnf.Proofs.Bnf.Language
import OrderedBnf.Proofs.Match.Scope
import OrderedBnf.Rule.References

/-!
# What a parse depends on

A parse from a name depends on the last rules of the names that can be reached from
it, and on nothing else (`sameFrom_of_agreeOn`). So it does not matter in what order
the rules of a table stand when no name is defined twice, whether rules are there
that are defined again, or rules that nothing refers to, or how a rule is written
that is not reached, such as the one for the end of a line (`parse_depends_on_reachable`).
-/

namespace OrderedBnf

open Goal

namespace Bnf

variable {rules rules' before after : List Rule} {rule : Rule} {name start : String}

/-! ## Last rules -/

theorem lastRule?_eq_some_imp (h : lastRule? rules name = some rule) :
    rule ∈ rules ∧ rule.name = name :=
  ⟨List.mem_reverse.1 (List.mem_of_find?_eq_some h), by simpa using List.find?_some h⟩

theorem lastRule?_append (before after : List Rule) (name : String) :
    lastRule? (before ++ after) name = (lastRule? after name).or (lastRule? before name) := by
  rw [lastRule?, List.reverse_append, List.find?_append]
  rfl

/-- A rule in the middle of a table, -/
theorem lastRule?_insert (before after : List Rule) (rule : Rule) (name : String) :
    lastRule? (before ++ rule :: after) name =
      (lastRule? after name).or
        ((if rule.name = name then some rule else none).or (lastRule? before name)) := by
  rw [lastRule?, List.reverse_append, List.reverse_cons, List.append_assoc, List.find?_append,
    List.find?_append]
  simp [lastRule?]

/-- which counts for its own name at most, -/
theorem lastRule?_insert_of_ne (h : rule.name ≠ name) :
    lastRule? (before ++ rule :: after) name = lastRule? (before ++ after) name := by
  rw [lastRule?_insert, lastRule?_append, if_neg h, Option.none_or]

/-- and for that only if no other follows. -/
theorem lastRule?_insert_of_mem (h : ∃ later ∈ after, later.name = rule.name) :
    lastRule? (before ++ rule :: after) name = lastRule? (before ++ after) name := by
  by_cases hname : rule.name = name
  · obtain ⟨later, hlater, hsame⟩ := h
    obtain ⟨last, hlast⟩ : ∃ last, lastRule? after name = some last := by
      rw [← Option.isSome_iff_exists, lastRule?, List.find?_isSome]
      exact ⟨later, List.mem_reverse.2 hlater, by simp [hsame, hname]⟩
    rw [lastRule?_insert, lastRule?_append, hlast, Option.some_or, Option.some_or]
  · exact lastRule?_insert_of_ne hname

/-- Rules of one name do not count for others. -/
theorem lastRule?_filter_ne {other : String} (h : name ≠ other) :
    lastRule? (rules.filter fun rule => rule.name != other) name = lastRule? rules name := by
  rw [lastRule?, lastRule?, ← List.filter_reverse, List.find?_filter]
  congr 1
  funext rule
  by_cases hname : rule.name = name
  · subst hname
    simp [h]
  · simp [hname]

/-- Where no name is defined twice every rule is the last of its name. -/
theorem lastRule?_eq_some_iff_of_nodup (hrules : (rules.map Rule.name).Nodup) :
    lastRule? rules name = some rule ↔ rule ∈ rules ∧ rule.name = name := by
  refine ⟨lastRule?_eq_some_imp, fun ⟨hmem, hname⟩ => ?_⟩
  obtain ⟨last, hlast⟩ : ∃ last, lastRule? rules name = some last := by
    rw [← Option.isSome_iff_exists, lastRule?, List.find?_isSome]
    exact ⟨rule, List.mem_reverse.2 hmem, by simp [hname]⟩
  obtain ⟨hmem', hname'⟩ := lastRule?_eq_some_imp hlast
  rw [hlast, List.inj_on_of_nodup_map hrules hmem' hmem (hname'.trans hname.symm)]

/-- So the order of such rules does not matter. -/
theorem lastRule?_perm (h : rules.Perm rules') (hrules : (rules.map Rule.name).Nodup) :
    lastRule? rules name = lastRule? rules' name := by
  have hrules' : (rules'.map Rule.name).Nodup := (h.map Rule.name).nodup_iff.1 hrules
  refine Option.ext fun rule => ?_
  rw [lastRule?_eq_some_iff_of_nodup hrules, lastRule?_eq_some_iff_of_nodup hrules', h.mem_iff]

/-! ## Names that are reached -/

/-- **A name that a parse may come to** from another: that name itself, or one that
the last rule of such a name refers to. -/
inductive Reachable (rules : List Rule) (start : String) : String → Prop
  | start : Reachable rules start start
  | refers {name next : String} {rule : Rule} :
      Reachable rules start name → lastRule? rules name = some rule →
      next ∈ referencedNames [rule] → Reachable rules start next

/-- A set of names that holds with a name all that its last rule refers to. -/
def IsClosed (rules : List Rule) (names : Set String) : Prop :=
  ∀ name ∈ names, ∀ rule, lastRule? rules name = some rule →
    ∀ next ∈ referencedNames [rule], next ∈ names

theorem isClosed_reachable (rules : List Rule) (start : String) :
    IsClosed rules {name | Reachable rules start name} :=
  fun _ hname _ hlast _ hnext => .refers hname hlast hnext

/-- What is reached is in every such set. -/
theorem Reachable.mem {names : Set String} (h : Reachable rules start name)
    (hnames : IsClosed rules names) (hstart : start ∈ names) : name ∈ names := by
  induction h with
  | start => exact hstart
  | refers _ hlast hnext ih => exact hnames _ ih _ hlast _ hnext

/-- What a rule refers to is what the terms of its definition refer to. -/
theorem mem_referencedNames : name ∈ referencedNames [rule] ↔
    ∃ t ∈ (Definition.ofRule rule).terms, t.symbol = .reference name := by
  simp only [referencedNames, allTerms, List.flatMap_cons, List.flatMap_nil, List.append_nil,
    List.mem_filterMap, Definition.terms, Definition.ofRule]
  rw [← List.map_flatten]
  simp only [List.mem_map, exists_exists_and_eq_and]
  exact exists_congr fun source => and_congr_right fun _ => referenceOf_eq_some_iff

theorem mem_referencedNames_of_mem (h : rule ∈ rules) (hname : name ∈ referencedNames [rule]) :
    name ∈ referencedNames rules := by
  simp only [referencedNames, allTerms, List.flatMap_cons, List.flatMap_nil, List.append_nil,
    List.mem_filterMap, List.mem_flatMap] at hname ⊢
  obtain ⟨source, hsource, href⟩ := hname
  exact ⟨source, ⟨rule, h, hsource⟩, href⟩

/-! ## Tables that parse alike -/

/-- **Two tables that parse alike** from a name: the same tree with the same problems,
or none, for every text and every limit. -/
def SameFrom (rules rules' : List Rule) (start : String) : Prop :=
  ∀ options options' : ParserOptions, options.maxDepth = options'.maxDepth → ∀ text,
    (Parser.ofRules rules options).parseFrom text start =
      (Parser.ofRules rules' options').parseFrom text start

/-- **Two tables that agree on a set of names**: neither defines a name of the set, or
both do, with the same alternatives in the end, and these refer to no name outside. -/
structure AgreeOn (rules rules' : List Rule) (names : Set String) : Prop where
  same : ∀ name ∈ names,
    (lastRule? rules name).map Rule.alternatives = (lastRule? rules' name).map Rule.alternatives
  closed : IsClosed rules names

theorem sameFrom_of_agreeOn {names : Set String} (h : AgreeOn rules rules' names)
    (hstart : start ∈ names) : SameFrom rules rules' start := by
  have hagree : (Grammar.ofRules rules).AgreeOn (Grammar.ofRules rules') names := by
    constructor
    · intro name hname
      rw [find?_ofRules, find?_ofRules]
      have hsame := h.same name hname
      cases hrule : lastRule? rules name with
      | none =>
        rw [hrule, Option.map_none, eq_comm, Option.map_eq_none_iff] at hsame
        rw [hsame]
      | some rule =>
        rw [hrule, Option.map_some, eq_comm, Option.map_eq_some_iff] at hsame
        obtain ⟨rule', hrule', halternatives⟩ := hsame
        have hnames : rule'.name = rule.name :=
          (lastRule?_eq_some_imp hrule').2.trans (lastRule?_eq_some_imp hrule).2.symm
        rw [hrule', Option.map_some, Option.map_some, Definition.ofRule, Definition.ofRule, hnames,
          halternatives]
    · intro name hname d hd t ht next hnext
      rw [find?_ofRules, Option.map_eq_some_iff] at hd
      obtain ⟨rule, hrule, rfl⟩ := hd
      exact h.closed name hname rule hrule next (mem_referencedNames.2 ⟨t, ht, hnext⟩)
  exact fun options options' hdepth text => Parser.parseFrom_congr hagree hdepth hstart text

/-- Tables with the same last rules parse alike from every name. -/
theorem sameFrom_of_lastRule? (h : ∀ name, lastRule? rules name = lastRule? rules' name) :
    SameFrom rules rules' start := by
  have hagree : AgreeOn rules rules' Set.univ :=
    ⟨fun name _ => by rw [h], fun _ _ _ _ _ _ => trivial⟩
  exact sameFrom_of_agreeOn hagree trivial

/-- What nothing refers to may be there or not. -/
theorem sameFrom_of_not_referenced (h : rule.name ∉ referencedNames (before ++ after))
    (hstart : start ≠ rule.name) :
    SameFrom (before ++ rule :: after) (before ++ after) start := by
  have hagree : AgreeOn (before ++ rule :: after) (before ++ after) {name | name ≠ rule.name} := by
    constructor
    · intro name hname
      rw [lastRule?_insert_of_ne (Ne.symm hname)]
    · rintro name hname last hlast next hnext rfl
      rw [lastRule?_insert_of_ne (Ne.symm hname)] at hlast
      exact h (mem_referencedNames_of_mem (lastRule?_eq_some_imp hlast).1 hnext)
  exact sameFrom_of_agreeOn hagree hstart

/-- What is not reached may be defined in any way. -/
theorem sameFrom_of_not_reachable (h : ¬ Reachable rules start name)
    (hrules : rules.filter (fun rule => rule.name != name) =
      rules'.filter fun rule => rule.name != name) : SameFrom rules rules' start := by
  have hagree : AgreeOn rules rules' {other | Reachable rules start other} := by
    constructor
    · intro other hother
      have hne : other ≠ name := fun heq => h (heq ▸ hother)
      rw [← lastRule?_filter_ne hne, hrules, lastRule?_filter_ne hne]
    · exact isClosed_reachable rules start
  exact sameFrom_of_agreeOn hagree .start

/-- The shape of the rule for the end of a line does not matter where it is not reached. -/
theorem sameFrom_withEol (rules : List Rule) (eol eol' : EolStyle)
    (h : ¬ Reachable (withEol eol rules) start eolName) :
    SameFrom (withEol eol rules) (withEol eol' rules) start := by
  have hfilter : ∀ eol, (withEol eol rules).filter (fun rule => rule.name != eolName) =
      rules.filter fun rule => rule.name != eolName := by
    intro eol
    unfold withEol
    split
    · rfl
    · cases eol <;> simp [eolRule]
  exact sameFrom_of_not_reachable h ((hfilter eol).trans (hfilter eol').symm)

/-- Without a choice of start a parse is from the name of the first rule, and that
means the last rule of that name. -/
theorem parse_of_start_eq_none (first : Rule) (rules : List Rule) {options : ParserOptions}
    (h : options.start = none) (text : String) :
    ∃ last, lastRule? (first :: rules) first.name = some last ∧
      (Parser.ofRules (first :: rules) options).parse text =
        (Parser.ofRules (first :: rules) options).parseFrom text first.name ∧
      (Parser.ofRules (first :: rules) options).parse text =
        (Parser.ofRules (first :: rules) options).parseDefinition text.toList
          (Definition.ofRule last) := by
  obtain ⟨last, hlast⟩ : ∃ last, lastRule? (first :: rules) first.name = some last := by
    rw [← Option.isSome_iff_exists, lastRule?, List.find?_isSome]
    exact ⟨first, by simp, by simp⟩
  have hparse : (Parser.ofRules (first :: rules) options).parse text =
      (Parser.ofRules (first :: rules) options).parseFrom text first.name := by
    simp [Parser.parse, Parser.start?, Parser.ofRules, h, Grammar.ofRules, Definition.ofRule]
  have hfind : (Parser.ofRules (first :: rules) options).grammar.find? first.name =
      some (Definition.ofRule last) := by
    rw [Parser.ofRules, find?_ofRules, hlast, Option.map_some]
  exact ⟨last, hlast, hparse, by rw [hparse, Parser.parseFrom, hfind, Option.bind_some]⟩

/-- **A parse depends on the last rules of the names that its start reaches, and on
nothing else.** Two tables that agree on a set of names parse alike from each of
them. So rules with distinct names may stand in any order; a rule that is defined
again later may be left out, and so may a rule that no other refers to; a rule that
is not reached may be any other, and the rule for the end of a line may be of either
shape. Without a choice of start a parse is from the name of the first rule, whichever
rule that stands for. -/
theorem parse_depends_on_reachable :
    (∀ rules rules' names start, AgreeOn rules rules' names → start ∈ names →
      SameFrom rules rules' start) ∧
    (∀ rules rules' start, rules.Perm rules' → (rules.map Rule.name).Nodup →
      SameFrom rules rules' start) ∧
    (∀ before (rule : Rule) after start, (∃ later ∈ after, later.name = rule.name) →
      SameFrom (before ++ rule :: after) (before ++ after) start) ∧
    (∀ before rule after start, rule.name ∉ referencedNames (before ++ after) →
      start ≠ rule.name → SameFrom (before ++ rule :: after) (before ++ after) start) ∧
    (∀ rules rules' start name, ¬ Reachable rules start name →
      rules.filter (fun rule => rule.name != name) =
        rules'.filter (fun rule => rule.name != name) → SameFrom rules rules' start) ∧
    (∀ rules eol eol' start, ¬ Reachable (withEol eol rules) start eolName →
      SameFrom (withEol eol rules) (withEol eol' rules) start) ∧
    ∀ first rules (options : ParserOptions), options.start = none → ∀ text,
      ∃ last, lastRule? (first :: rules) first.name = some last ∧
        (Parser.ofRules (first :: rules) options).parse text =
          (Parser.ofRules (first :: rules) options).parseFrom text first.name ∧
        (Parser.ofRules (first :: rules) options).parse text =
          (Parser.ofRules (first :: rules) options).parseDefinition text.toList
            (Definition.ofRule last) := by
  refine ⟨fun rules rules' names start h hstart => sameFrom_of_agreeOn h hstart,
    fun rules rules' start hperm hnodup => ?_, fun before rule after start hlater => ?_,
    fun before rule after start h hstart => sameFrom_of_not_referenced h hstart,
    fun rules rules' start name h hrules => sameFrom_of_not_reachable h hrules,
    fun rules eol eol' start h => sameFrom_withEol rules eol eol' h,
    fun first rules options h text => parse_of_start_eq_none first rules h text⟩
  · exact sameFrom_of_lastRule? fun name => lastRule?_perm hperm hnodup
  · exact sameFrom_of_lastRule? fun name => lastRule?_insert_of_mem hlater

/-- A table whose first rule is defined again, and which refers to a name that has no
rule. -/
def shadowTable : List Rule :=
  [⟨"x", [["'a'"]]⟩, ⟨"s", [["x", "'!'"], ["y"]]⟩, ⟨"x", [["'b'*"]]⟩]

/-- The same from `s`, with other rules and in another order. -/
def otherTable : List Rule :=
  [⟨"x", [["'b'*"]]⟩, ⟨"EOL", [["EOL", "s"]]⟩, ⟨"s", []⟩, ⟨"s", [["x", "'!'"], ["y"]]⟩]

theorem isClosed_shadowTable (eol : EolStyle) :
    IsClosed (withEol eol shadowTable) {name | name = "s" ∨ name = "x" ∨ name = "y"} := by
  rintro name hname rule hlast next hnext
  have hrule : name = "s" ∧ rule = ⟨"s", [["x", "'!'"], ["y"]]⟩ ∨
      name = "x" ∧ rule = ⟨"x", [["'b'*"]]⟩ := by
    rcases hname with rfl | rfl | rfl <;> cases eol <;>
      simp [lastRule?, withEol, definesEol, shadowTable, eolName, eolRule] at hlast <;>
      simp [hlast]
  rcases hrule with ⟨rfl, rfl⟩ | ⟨rfl, rfl⟩
  · have hnames : referencedNames [⟨"s", [["x", "'!'"], ["y"]]⟩] = ["x", "y"] := by decide
    simp_all
  · have hnames : referencedNames [⟨"x", [["'b'*"]]⟩] = [] := by decide
    simp_all

/-- Two tables that agree on `s`, `x` and `y` give the same tree of a text from `s`. The
first of them parses alike with its rules in another order, without the rule that is
defined again, without the one that nothing refers to, and with another end of a line;
and its first name stands for its last rule. -/
theorem parse_depends_on_reachable_shadow :
    AgreeOn (withEol .apart shadowTable) otherTable {name | name = "s" ∨ name = "x" ∨ name = "y"} ∧
    SameFrom (withEol .apart shadowTable) otherTable "s" ∧
    ((Parser.ofRules otherTable ⟨some "x", 3⟩).parseFrom "bb!" "s").map (·.root.stop) = some 3 ∧
    SameFrom shadowTable.tail shadowTable.tail.reverse "s" ∧
    SameFrom shadowTable shadowTable.tail "s" ∧
    SameFrom (shadowTable.take 2) (shadowTable.take 1) "x" ∧
    ¬ Reachable (withEol .together shadowTable) "s" eolName ∧
    SameFrom (withEol .together shadowTable) (shadowTable ++ [⟨eolName, [["s"]]⟩]) "s" ∧
    SameFrom (withEol .together shadowTable) (withEol .apart shadowTable) "s" ∧
    (Parser.ofRules shadowTable .standard).parse "bb" =
      (Parser.ofRules shadowTable .standard).parseDefinition "bb".toList
        (Definition.ofRule ⟨"x", [["'b'*"]]⟩) := by
  have hagree : AgreeOn (withEol .apart shadowTable) otherTable
      {name | name = "s" ∨ name = "x" ∨ name = "y"} := by
    refine ⟨?_, isClosed_shadowTable .apart⟩
    rintro name (rfl | rfl | rfl) <;> decide
  have heol : ¬ Reachable (withEol .together shadowTable) "s" eolName := by
    intro h
    have hname : eolName = "s" ∨ eolName = "x" ∨ eolName = "y" :=
      h.mem (isClosed_shadowTable .together) (.inl rfl)
    revert hname
    decide
  obtain ⟨hsame, hperm, hshadow, hunreferenced, hunreachable, hend, hfirst⟩ :=
    parse_depends_on_reachable
  obtain ⟨last, hlast, -, hparse⟩ :=
    hfirst ⟨"x", [["'a'"]]⟩ shadowTable.tail ParserOptions.standard rfl "bb"
  obtain rfl : ⟨"x", [["'b'*"]]⟩ = last := Option.some.inj hlast
  exact ⟨hagree, hsame _ _ _ _ hagree (.inl rfl), by decide +kernel,
    hperm _ _ _ (List.reverse_perm _).symm (by decide),
    hshadow [] _ _ _ ⟨_, .tail _ (.head _), rfl⟩,
    hunreferenced [⟨"x", [["'a'"]]⟩] ⟨"s", [["x", "'!'"], ["y"]]⟩ [] "x" (by decide) (by decide),
    heol, hunreachable _ _ _ eolName heol (by decide), hend _ _ _ _ heol, hparse⟩

end Bnf

end OrderedBnf
