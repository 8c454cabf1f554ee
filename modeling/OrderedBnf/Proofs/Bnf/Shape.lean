import Mathlib.Data.List.Forall2
import OrderedBnf.Proofs.Bnf.RoundTrip
import OrderedBnf.Proofs.Match.Bear
import OrderedBnf.Proofs.Parse.Tree

/-!
# The shape of documents

The trees that the parser of documents makes have one shape, whatever the source
and also when there are problems or the limit was reached: `IsDocument` down to
`IsTerm`. It is a matter of the grammar of BNF alone (`Bears`), in which a node
stands for a rule with nodes of its own and everything else is silent.

A tree of this shape can be read: no node is missing from it, a rule has an
alternative and an alternative a term (`IsDocument.exists_rules`).
-/

namespace OrderedBnf

/-- A rule with an alternative, and with a term in each. -/
structure Rule.IsFilled (rule : Rule) : Prop where
  alternatives_ne : rule.alternatives ≠ []
  terms_ne : ∀ terms ∈ rule.alternatives, terms ≠ []

namespace Bnf

open Goal

/-! ## Shapes -/

/-- A node with nothing below it. -/
structure IsLeaf (kind : String) (node : Node) : Prop where
  kind_eq : node.kind = kind
  children_eq : node.children = []

/-- A term is a literal or a name. -/
structure IsTerm (node : Node) : Prop where
  kind_eq : node.kind = "term"
  children : IsOne (fun child => IsLeaf "literal" child ∨ IsLeaf "rule-name" child) node.children

/-- A list is a term -/
inductive IsList : Node → Prop
  | last {node term : Node} :
      node.kind = "list" → node.children = [term] → IsTerm term → IsList node
  /-- and perhaps a list behind it. -/
  | more {node term chain : Node} :
      node.kind = "list" → node.children = [term, chain] → IsTerm term → IsList chain → IsList node

/-- An alternative is a list. -/
structure IsAlternative (kind : String) (node : Node) : Prop where
  kind_eq : node.kind = kind
  children : IsOne IsList node.children

/-- A rule is a name, a first alternative and any number of others. -/
structure IsRule (node : Node) : Prop where
  kind_eq : node.kind = "rule"
  children : ∃ name first later, node.children = name :: first :: later ∧
    IsLeaf "rule-name" name ∧ IsAlternative "firstExpression" first ∧
    ∀ other ∈ later, IsAlternative "otherExpression" other

/-- **A document is one rule or more.** -/
structure IsDocument (node : Node) : Prop where
  kind_eq : node.kind = "syntax"
  children_ne : node.children ≠ []
  rules : ∀ child ∈ node.children, IsRule child

variable {n : Nat} {t : Term} {source : String} {parse : Parse} {node : Node} {rules : List Rule}

/-! ## The shape of what is parsed -/

/-- No fragment of the grammar of BNF brings a node. -/
theorem fragmentsSilent : grammar.FragmentsSilent := by
  rw [grammar_eq]
  decide +kernel

/-- A rule of silent alternatives is a leaf. -/
theorem bears_leaf {kind : String} {d : Definition} (ht : t.symbol = .reference kind)
    (hd : grammar.find? kind = some d) (hd' : d.isFragment = false)
    (hsilent : AllSilent d.alternatives) :
    Bears grammar n (symbol t) (IsOne (IsLeaf kind)) :=
  .reference ht hd hd' (fun _ _ => .silent fragmentsSilent hsilent)
    fun _ hkind hchildren => ⟨hkind, hchildren⟩

theorem bears_literal (ht : t.symbol = .reference "literal") :
    Bears grammar n (symbol t) (IsOne (IsLeaf "literal")) :=
  bears_leaf ht find_literal (by decide) (by decide)

theorem bears_name (ht : t.symbol = .reference "rule-name") :
    Bears grammar n (symbol t) (IsOne (IsLeaf "rule-name")) :=
  bears_leaf ht find_name (by decide) (by decide)

theorem bears_term (ht : t.symbol = .reference "term") :
    Bears grammar n (symbol t) (IsOne IsTerm) := by
  have hbody : ∀ k < n, Bears grammar k (choice termDef.alternatives)
      (IsOne fun child => IsLeaf "literal" child ∨ IsLeaf "rule-name" child) := by
    intro k _
    refine .choice_two ?_ (.behind [mark '<' "\"<\""] fragmentsSilent (by decide) ?_)
    · refine .last fragmentsSilent (.once rfl ?_) (by decide)
      exact (bears_literal rfl).mono fun _ ⟨child, hnodes, h⟩ => ⟨child, hnodes, .inl h⟩
    · refine .last fragmentsSilent (.once rfl ?_) (by decide)
      exact (bears_name rfl).mono fun _ ⟨child, hnodes, h⟩ => ⟨child, hnodes, .inr h⟩
  exact .reference ht find_term (by decide) hbody fun _ hkind hchildren => ⟨hkind, hchildren⟩

/-- Below a list there are lists of one body less. -/
theorem bears_list (ht : t.symbol = .reference "list") :
    Bears grammar n (symbol t) (IsOne IsList) := by
  induction n using Nat.strongRecOn generalizing t with
  | _ n ih =>
    have hbody : ∀ k < n, Bears grammar k (choice listDef.alternatives)
        (fun nodes => ∃ node later, nodes = node :: later ∧ IsTerm node ∧
          (later = [] ∨ IsOne IsList later)) := by
      intro k hk
      have hterm : Bears grammar k (term (ref "term")) (IsOne IsTerm) := .once rfl (bears_term rfl)
      have hlater : Bears grammar k (term (ref "list")) (IsOne IsList) := .once rfl (ih k hk rfl)
      refine .choice_two ?_ ?_
      · refine (hterm.cons (.behind [spaces] fragmentsSilent (by decide)
          (.last fragmentsSilent hlater (by decide)))).mono ?_
        rintro _ ⟨node, later, rfl, hnode, hlater⟩
        exact ⟨node, later, rfl, hnode, .inr hlater⟩
      · refine (Bears.last fragmentsSilent hterm (by decide)).mono ?_
        rintro _ ⟨node, rfl, hnode⟩
        exact ⟨node, [], rfl, hnode, .inl rfl⟩
    refine .reference ht find_list (by decide) hbody ?_
    rintro node hkind ⟨first, later, hchildren, hfirst, rfl | ⟨chain, rfl, hchain⟩⟩
    · exact .last hkind hchildren hfirst
    · exact .more hkind hchildren hfirst hchain

/-- An alternative is silent up to its list. -/
theorem bears_alternative (before : List Term) {kind : String} {d : Definition}
    (ht : t.symbol = .reference kind) (hd : grammar.find? kind = some d)
    (hd' : d.isFragment = false) (halternatives : d.alternatives = [before ++ [ref "list"]])
    (hbefore : ∀ t ∈ before, t.isSilent = true) :
    Bears grammar n (symbol t) (IsOne (IsAlternative kind)) := by
  have hbody : ∀ k < n, Bears grammar k (choice d.alternatives) (IsOne IsList) := by
    intro k _
    rw [halternatives]
    exact .choice_one (.behind before fragmentsSilent hbefore
      (.last fragmentsSilent (.once rfl (bears_list rfl)) (by decide)))
  exact .reference ht hd hd' hbody fun _ hkind hchildren => ⟨hkind, hchildren⟩

theorem bears_first (ht : t.symbol = .reference "firstExpression") :
    Bears grammar n (symbol t) (IsOne (IsAlternative "firstExpression")) :=
  bears_alternative [spaces] ht find_first (by decide) rfl (by decide)

theorem bears_other (ht : t.symbol = .reference "otherExpression") :
    Bears grammar n (symbol t) (IsOne (IsAlternative "otherExpression")) :=
  bears_alternative [spaces, mark '|' "\"|\"", spaces] ht find_other (by decide) rfl (by decide)

theorem bears_rule (ht : t.symbol = .reference "rule") :
    Bears grammar n (symbol t) (IsOne IsRule) := by
  have hbody : ∀ k < n, Bears grammar k (choice ruleDef.alternatives)
      (fun nodes => ∃ name first later, nodes = name :: first :: later ∧
        IsLeaf "rule-name" name ∧ IsAlternative "firstExpression" first ∧
        ∀ other ∈ later, IsAlternative "otherExpression" other) := by
    intro k _
    have hname : Bears grammar k (term (ref "rule-name")) (IsOne (IsLeaf "rule-name")) :=
      .once rfl (bears_name rfl)
    have hfirst : Bears grammar k (term (ref "firstExpression"))
        (IsOne (IsAlternative "firstExpression")) := .once rfl (bears_first rfl)
    have hlater : Bears grammar k (term (refs "otherExpression" .zeroOrMore))
        (fun nodes => ∀ other ∈ nodes, IsAlternative "otherExpression" other) :=
      .zeroOrMore rfl (bears_other rfl)
    have hend : ∀ t ∈ [spaces, refs "RULE_EOL" .oneOrMore, spaces], t.isSilent = true := by decide
    have hbehind := hfirst.cons (hlater.last fragmentsSilent hend)
    have hrule := hname.cons
      (.behind [mark '>' "\">\"", spaces, becomes] fragmentsSilent (by decide) hbehind)
    refine (Bears.choice_one
      (.behind [spaces, mark '<' "\"<\""] fragmentsSilent (by decide) hrule)).mono ?_
    rintro _ ⟨name, _, rfl, hname, first, later, rfl, hfirst, hlater⟩
    exact ⟨name, first, later, rfl, hname, hfirst, hlater⟩
  exact .reference ht find_rule (by decide) hbody fun _ hkind hchildren => ⟨hkind, hchildren⟩

/-- What stands below the root of a document. -/
theorem bears_syntax : Bears grammar n (choice syntaxDef.alternatives)
    (fun nodes => nodes ≠ [] ∧ ∀ node ∈ nodes, IsRule node) :=
  .choice_one (.behind [refs "RULE_EOL" .zeroOrMore] fragmentsSilent (by decide)
    (.last fragmentsSilent (.oneOrMore rfl (bears_rule rfl)) (by decide)))

/-- **Every tree that the parser of documents makes is a document.** -/
theorem isDocument_of_parse (h : parser.parse source = some parse) : IsDocument parse.root := by
  rw [parse_eq, Parser.parseDefinition] at h
  rcases hrun : parser.run source.toList syntaxDef with ⟨_ | m, progress⟩
  · rw [hrun] at h
    cases h
  · rw [hrun] at h
    obtain rfl := Option.some.inj h
    have hbody : Admits grammar parser.options.maxDepth (body syntaxDef)
        (Cursor.start source.toList) m := Parser.admits_of_run (congrArg Prod.fst hrun)
    generalize parser.options.maxDepth = levels at hbody
    cases hbody with
    | body hchoice =>
      obtain ⟨hne, hrules⟩ := bears_syntax _ _ hchoice
      exact ⟨rfl, hne, hrules⟩

/-! ## Documents are read -/

/-- What can be read one by one can be read together. -/
theorem exists_mapM_ok {α β ε : Type} {f : α → Except ε β} {P : β → Prop} {as : List α}
    (h : ∀ a ∈ as, ∃ b, f a = .ok b ∧ P b) : ∃ bs, as.mapM f = .ok bs ∧ ∀ b ∈ bs, P b := by
  induction as with
  | nil => exact ⟨[], rfl, by simp⟩
  | cons a as ih =>
    obtain ⟨b, hb, hPb⟩ := h a (by simp)
    obtain ⟨bs, hbs, hPbs⟩ := ih fun a ha => h a (by simp [ha])
    exact ⟨b :: bs, mapM_cons_ok hb hbs, List.forall_mem_cons.2 ⟨hPb, hPbs⟩⟩

/-- And what is read together is read one by one. -/
theorem forall₂_of_mapM {α β ε : Type} {f : α → Except ε β} {as : List α} {bs : List β}
    (h : as.mapM f = .ok bs) : List.Forall₂ (fun a b => f a = .ok b) as bs := by
  induction as generalizing bs with
  | nil =>
    obtain rfl := Except.ok.inj h
    exact .nil
  | cons a as ih =>
    rw [List.mapM_cons] at h
    cases ha : f a with
    | error e => rw [ha] at h; cases h
    | ok b =>
      cases has : as.mapM f with
      | error e => rw [ha, has] at h; cases h
      | ok bs' =>
        rw [ha, has] at h
        obtain rfl := Except.ok.inj h
        exact .cons ha (ih has)

theorem IsTerm.exists_text (h : IsTerm node) : ∃ text, termText node = .ok text := by
  obtain ⟨child, hchildren, hliteral | hname⟩ := h.children
  · exact ⟨_, termText_literal hchildren hliteral.kind_eq⟩
  · exact ⟨_, termText_name hchildren hname.kind_eq⟩

theorem IsList.kind_eq (h : IsList node) : node.kind = "list" := by
  cases h <;> assumption

theorem IsList.exists_terms (h : IsList node) : ∃ as, terms node = .ok as ∧ as ≠ [] := by
  induction h with
  | last _ hchildren hterm =>
    obtain ⟨text, htext⟩ := hterm.exists_text
    exact ⟨_, terms_last hchildren hterm.kind_eq htext, by simp⟩
  | more _ hchildren hterm hchain ih =>
    obtain ⟨text, htext⟩ := hterm.exists_text
    obtain ⟨as, has, -⟩ := ih
    exact ⟨_, terms_more hchildren hterm.kind_eq htext hchain.kind_eq has, by simp⟩

theorem IsAlternative.exists_terms {kind : String} (h : IsAlternative kind node) :
    ∃ as, terms node = .ok as ∧ as ≠ [] := by
  obtain ⟨chain, hchildren, hchain⟩ := h.children
  obtain ⟨as, has, hne⟩ := hchain.exists_terms
  exact ⟨as, terms_inner hchildren hchain.kind_eq has, hne⟩

theorem IsRule.exists_rule (h : IsRule node) : ∃ rule, ruleOf node = .ok rule ∧ rule.IsFilled := by
  obtain ⟨name, first, later, hchildren, hname, hfirst, hlater⟩ := h.children
  obtain ⟨as, has, hne⟩ := hfirst.exists_terms
  obtain ⟨alternatives, hall, hnes⟩ :=
    exists_mapM_ok fun other hother => (hlater other hother).exists_terms
  exact ⟨_, ruleOf_eq hchildren hname.kind_eq hfirst.kind_eq
    (fun other hother => (hlater other hother).kind_eq) has hall,
    ⟨by simp, List.forall_mem_cons.2 ⟨hne, hnes⟩⟩⟩

/-- **No node is missing from a document.** -/
theorem IsDocument.exists_rules (h : IsDocument node) :
    ∃ rules, rulesOf node = .ok rules ∧ ∀ rule ∈ rules, rule.IsFilled := by
  have hkeep : node.childrenOfKind "rule" = node.children :=
    List.filter_eq_self.2 fun child hchild => by simp [(h.rules child hchild).kind_eq]
  rw [rulesOf, hkeep]
  exact exists_mapM_ok fun child hchild => (h.rules child hchild).exists_rule

/-- What is made of a document: a problem of its parse, or its rules. -/
theorem IsDocument.ofParse_cases (h : IsDocument parse.root) :
    (∃ problem : Problem, ofParse parse = .error ⟨problem.location, .rejected problem.message⟩) ∨
    ∃ rules, ofParse parse = .ok rules ∧ ∀ rule ∈ rules, rule.IsFilled := by
  unfold ofParse
  split
  · exact .inl ⟨_, rfl⟩
  · obtain ⟨rules, hrules, hfilled⟩ := h.exists_rules
    exact .inr ⟨rules, by rw [hrules]; rfl, hfilled⟩

theorem isFilled_withEol {eol : EolStyle} (h : ∀ rule ∈ rules, rule.IsFilled) :
    ∀ rule ∈ withEol eol rules, rule.IsFilled := by
  have heol : (eolRule eol).IsFilled := by
    cases eol <;> exact ⟨by decide, by decide⟩
  unfold withEol
  split
  · exact h
  · exact List.forall_mem_append.2 ⟨h, List.forall_mem_singleton.2 heol⟩

/-- What a source is compiled to: what is wrong with it, which is never a node that
is missing, or a table of rules with terms. -/
theorem compile_cases (eol : EolStyle) (source : String) :
    (∃ e, compile eol source = .error e ∧ ∀ kind, e.fault ≠ .missingNode kind) ∨
    ∃ rules, compile eol source = .ok rules ∧ ∀ rule ∈ rules, rule.IsFilled := by
  rw [compile, writtenRules]
  cases hparse : parser.parse source with
  | none => exact .inl ⟨_, rfl, fun _ h => by cases h⟩
  | some parse =>
    obtain ⟨problem, hproblem⟩ | ⟨rules, hrules, hfilled⟩ :=
      (isDocument_of_parse hparse).ofParse_cases
    · exact .inl ⟨_, by simp only [hproblem]; rfl, fun _ h => by cases h⟩
    · exact .inr ⟨_, by simp only [hrules]; rfl, isFilled_withEol hfilled⟩

/-- **No node is ever missing.** Whatever the source, a tree that the parser of
documents makes is a document, with problems or without; so no compilation fails
for want of a node, and in a table that is compiled every rule has an alternative
and every alternative a term. -/
theorem isDocument_and_isFilled (eol : EolStyle) (source : String) :
    (∀ parse, parser.parse source = some parse → IsDocument parse.root) ∧
    (∀ e kind, compile eol source = .error e → e.fault ≠ .missingNode kind) ∧
    ∀ rules, compile eol source = .ok rules → ∀ rule ∈ rules, rule.IsFilled := by
  refine ⟨fun parse => isDocument_of_parse, fun e kind h => ?_, fun rules h => ?_⟩
  · obtain ⟨e', he', hfault⟩ | ⟨rules, hrules, -⟩ := compile_cases eol source
    · obtain rfl : e = e' := Except.error.inj (h.symm.trans he')
      exact hfault kind
    · cases h.symm.trans hrules
  · obtain ⟨e, he, -⟩ | ⟨rules', hrules', hfilled⟩ := compile_cases eol source
    · cases h.symm.trans he
    · obtain rfl : rules = rules' := Except.ok.inj (h.symm.trans hrules')
      exact hfilled

/-- There is a tree of a rule that stands before the beginning of another, there is
none of the beginning alone, and a table that is shown is compiled. -/
theorem isDocument_and_isFilled_cut :
    (∃ parse, parser.parse "<a>::='b'\n<c" = some parse ∧ IsDocument parse.root) ∧
    (∃ e, compile .together "<c" = .error e ∧ e.fault ≠ .missingNode "rule") ∧
    ∃ rules, compile .together (Rule.showTable quotedTable) = .ok rules ∧
      ∀ rule ∈ rules, rule.IsFilled := by
  refine ⟨?_, ?_, ?_⟩
  · obtain ⟨parse, hparse⟩ : ∃ parse, parser.parse "<a>::='b'\n<c" = some parse :=
      Option.isSome_iff_exists.1 (by decide +kernel)
    exact ⟨parse, hparse, (isDocument_and_isFilled .together "<a>::='b'\n<c").1 parse hparse⟩
  · have hnone : parser.parse "<c" = none := Option.isNone_iff_eq_none.1 (by decide +kernel)
    have he : compile .together "<c" = .error ⟨.whole, .unreadable "<c"⟩ := by
      rw [compile, writtenRules, hnone]
      rfl
    exact ⟨_, he, (isDocument_and_isFilled .together "<c").2.1 _ "rule" he⟩
  · have hplain : IsPlainTable quotedTable := by decide +kernel
    have hdepth : WithinDepth quotedTable := by decide +kernel
    have hrules := compile_show hplain hdepth (by decide) .together
    exact ⟨_, hrules, (isDocument_and_isFilled .together _).2.2 _ hrules⟩

end Bnf

end OrderedBnf
