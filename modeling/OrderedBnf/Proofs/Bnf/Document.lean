import OrderedBnf.Proofs.Bnf.Counting

/-!
# Rules and documents

A rule is read on its line, with the ends of lines behind it and whatever
spaces come before the next rule. So a rule takes the indent of the one that
follows, and a table is read as if its lines had none (`CountsTable.strip`).

Levels are counted up to the whole document. Of alternatives and of rules the
deepest counts, so however many there are, they add nothing to each other.
-/

namespace OrderedBnf

namespace Bnf

open Goal

variable {t : Term} {c : Cursor} {rest text before after : List Char}
variable {as : List String} {alternatives : List (List String)}

/-! ## The alternatives of a rule -/

/-- What is read node by node is read from first to last. -/
theorem mapM_cons_ok {α β ε : Type} {f : α → Except ε β} {a : α} {b : β} {as : List α}
    {bs : List β} (h : f a = .ok b) (hs : as.mapM f = .ok bs) :
    (a :: as).mapM f = .ok (b :: bs) := by
  rw [List.mapM_cons, h, hs]
  rfl

/-- The levels that the alternatives of a rule take. Behind the last one there
is an attempt at another. -/
def alternativesLevels : List (List String) → Nat
  | [] => 1
  | as :: alternatives => max (listLevels as + 1) (alternativesLevels alternatives)

/-- The characters that an alternative can go on with. -/
def GoesOn (a : Char) : Prop := IsTermStart a ∨ a = '|'

/-- **The first alternative.** -/
theorem takes_first (ht : t.symbol = .reference "firstExpression") (hbefore : IsSpaces before)
    (h : WritesAlternative as text) (hc : c.rest = before ++ (text ++ rest))
    (hrest : Clear IsTermStart rest) :
    ∃ node, Takes grammar (symbol t) c rest [node] (listLevels as + 1) ∧
      node.kind = "firstExpression" ∧ terms node = .ok as := by
  obtain ⟨s₁, hs₁, h₁⟩ := takes_spaces hc hbefore (not_begins_space h.begins.append)
  obtain ⟨chain, ⟨s₂, hs₂, h₂⟩, hchain, hterms⟩ :=
    takes_list (t := ref "list") rfl h hs₁ hrest
  have hbody : Settles grammar (choice firstDef.alternatives) c (some ⟨s₂, [chain]⟩)
      (listLevels as) :=
    (h₁.sequence_some (h₂.once rfl).sequence_one).choice_some.of_eq rfl (by omega)
  obtain ⟨node, hnode, hnkind, -, hchildren⟩ :=
    takes_rule ht find_first (by decide) ⟨s₂, hs₂, hbody⟩
      (hc.trans (List.append_assoc before text rest).symm)
  exact ⟨node, hnode, hnkind, terms_inner hchildren hchain hterms⟩

/-- **Any other alternative**, with its bar. -/
theorem takes_other (ht : t.symbol = .reference "otherExpression") (hbefore : IsSpaces before)
    (hafter : IsSpaces after) (h : WritesAlternative as text)
    (hc : c.rest = before ++ '|' :: (after ++ (text ++ rest))) (hrest : Clear IsTermStart rest) :
    ∃ node, Takes grammar (symbol t) c rest [node] (listLevels as + 1) ∧
      node.kind = "otherExpression" ∧ terms node = .ok as := by
  obtain ⟨s₁, hs₁, h₁⟩ := takes_spaces hc hbefore (by rw [begins_cons]; decide)
  obtain ⟨s₂, hs₂, h₂⟩ := takes_mark "\"|\"" hs₁
  obtain ⟨s₃, hs₃, h₃⟩ := takes_spaces hs₂ hafter (not_begins_space h.begins.append)
  obtain ⟨chain, ⟨s₄, hs₄, h₄⟩, hchain, hterms⟩ :=
    takes_list (t := ref "list") rfl h hs₃ hrest
  have hbody : Settles grammar (choice otherDef.alternatives) c (some ⟨s₄, [chain]⟩)
      (listLevels as) :=
    (h₁.sequence_some (h₂.sequence_some (h₃.sequence_some
      (h₄.once rfl).sequence_one))).choice_some.of_eq rfl (by omega)
  have hc' : c.rest = before ++ '|' :: (after ++ text) ++ rest := by simp [hc]
  obtain ⟨node, hnode, hnkind, -, hchildren⟩ :=
    takes_rule ht find_other (by decide) ⟨s₄, hs₄, hbody⟩ hc'
  exact ⟨node, hnode, hnkind, terms_inner hchildren hchain hterms⟩

/-- Without a bar there is no other alternative. -/
theorem settles_other_none (ht : t.symbol = .reference "otherExpression")
    (hc : Clear (· = '|') c.rest) : Settles grammar (symbol t) c none 1 := by
  obtain ⟨space, rest, hspaces, hspace, hspace', hbar⟩ := hc
  obtain ⟨s, hs, h⟩ := takes_spaces hspaces hspace hspace'
  have hnone := settles_mark_none "\"|\"" (show ¬ Begins (· = '|') s.rest by rwa [hs])
  exact settles_rule_none ht find_other
    ((h.sequence_some hnone.sequence_none).choice_none .choice_nil)

theorem Clear.mono {p q : Char → Prop} (h : Clear p text) (hqp : ∀ a, q a → p a) :
    Clear q text := by
  obtain ⟨space, rest, htext, hspace, hspace', hp⟩ := h
  exact ⟨space, rest, htext, hspace, hspace', fun hq => hp (hq.mono hqp)⟩

/-- What follows an alternative is a bar, or else what follows the last one. -/
theorem WritesLater.clear (h : WritesLater alternatives text) (hrest : Clear GoesOn rest) :
    Clear IsTermStart (text ++ rest) := by
  cases h with
  | nil => exact hrest.mono fun _ => .inl
  | @cons before after text later as alternatives hbefore =>
    refine ⟨before, '|' :: (after ++ (text ++ later) ++ rest), by simp, hbefore, ?_, ?_⟩
    · rw [begins_cons]
      decide
    · rw [begins_cons]
      rintro (h | h) <;> cases h

/-- **All alternatives after the first.** -/
theorem takes_later (ht : t.symbol = .reference "otherExpression")
    (h : WritesLater alternatives text) (hc : c.rest = text ++ rest) (hrest : Clear GoesOn rest) :
    ∃ nodes, Takes grammar (many t) c rest nodes (alternativesLevels alternatives) ∧
      (∀ node ∈ nodes, node.kind = "otherExpression") ∧ nodes.mapM terms = .ok alternatives := by
  induction h generalizing c with
  | nil =>
    have hnone := settles_other_none ht (c := c) (by rw [hc]; exact hrest.mono fun _ => .inr)
    exact ⟨[], ⟨c, hc, hnone.many_none⟩, by simp, rfl⟩
  | @cons before after text later as alternatives hbefore hafter has hlater ih =>
    have hc' : c.rest = before ++ '|' :: (after ++ (text ++ (later ++ rest))) := by simp [hc]
    obtain ⟨node, ⟨s₁, hs₁, h₁⟩, hkind, hterms⟩ :=
      takes_other ht hbefore hafter has hc' (hlater.clear hrest)
    obtain ⟨nodes, ⟨s₂, hs₂, h₂⟩, hkinds, hall⟩ := ih hs₁
    have hmoved : s₁.offset ≠ c.offset := h₁.offset_ne (by
      simp only [hs₁, hc', List.length_append, List.length_cons]
      omega)
    refine ⟨node :: nodes, ⟨s₂, hs₂, h₁.many_some hmoved h₂⟩, ?_, ?_⟩
    · simpa [hkind] using hkinds
    · exact mapM_cons_ok hterms hall

/-! ## Rules -/

/-- The levels that a rule takes, its name included. -/
def ruleLevels (rule : Rule) : Nat := max 3 (alternativesLevels rule.alternatives) + 1

theorem ruleOf_eq {node name first : Node} {later : List Node}
    (h : node.children = name :: first :: later) (hname : name.kind = "rule-name")
    (hfirst : first.kind = "firstExpression")
    (hlater : ∀ child ∈ later, child.kind = "otherExpression") (hterms : terms first = .ok as)
    (hall : later.mapM terms = .ok alternatives) :
    ruleOf node = .ok ⟨name.text, as :: alternatives⟩ := by
  have hfilter : laterAlternatives node = later := by
    have hkeep : later.filter (·.kind == "otherExpression") = later :=
      List.filter_eq_self.2 fun child hchild => by simp [hlater child hchild]
    simp [laterAlternatives, Node.childrenOfKind, h, hname, hfirst, hkeep]
  have hname' : requiredChild node "rule-name" = .ok name := by
    simp [requiredChild, Node.childOfKind?, h, hname]
  have hfirst' : requiredChild node "firstExpression" = .ok first := by
    simp [requiredChild, Node.childOfKind?, h, hname, hfirst]
  rw [ruleOf, hname', hfirst', hfilter]
  simp [mapM_cons_ok hterms hall, bind, Except.bind, pure, Except.pure]

theorem not_begins_of_spaces {p : Char → Prop} (hp : ¬ p ' ') (hbefore : IsSpaces before)
    (hrest : ¬ Begins p rest) : ¬ Begins p (before ++ rest) := by
  cases before with
  | nil => exact hrest
  | cons b before =>
    rw [List.cons_append, begins_cons, hbefore b (by simp)]
    exact hp

theorem begins_of_lineEnds {ends : List Char} (hends : IsLineEnds ends) (hne : ends ≠ []) :
    Begins IsLineEnd (ends ++ rest) := by
  obtain ⟨a, ends, rfl⟩ := List.exists_cons_of_ne_nil hne
  exact begins_cons.2 (hends a (by simp))

theorem not_begins_of_lineEnd {p : Char → Prop} (hp : ∀ a, p a → ¬ IsLineEnd a)
    (h : Begins IsLineEnd rest) : ¬ Begins p rest := by
  obtain ⟨a, rest, rfl, ha⟩ := h
  rw [begins_cons]
  exact fun hpa => hp a hpa ha

/-- No alternative goes on at the end of a line. -/
theorem not_isLineEnd_of_goesOn {a : Char} (h : GoesOn a) : ¬ IsLineEnd a := by
  rintro (rfl | rfl) <;> rcases h with (h | h) | h <;> cases h

/-- **The line of a rule is read** up to its ends, which are attempted there. -/
theorem exists_front {indent name s₁ s₂ later s₃ : List Char} (hindent : IsSpaces indent)
    (hname : IsName name) (hs₁ : IsSpaces s₁) (hs₂ : IsSpaces s₂)
    (hfirst : WritesAlternative as text) (hlater : WritesLater alternatives later)
    (hs₃ : IsSpaces s₃)
    (hc : c.rest = indent ++ '<' :: (name ++ '>' :: (s₁ ++ ("::=".toList ++ (s₂ ++ (text ++
      (later ++ (s₃ ++ rest))))))))
    (hrest : Begins IsLineEnd rest) :
    ∃ c' nodes, c'.rest = rest ∧
      (∀ {o k}, Settles grammar (sequence [refs "RULE_EOL" .oneOrMore, spaces]) c' o k →
        Settles grammar (choice ruleDef.alternatives) c
          (o.map fun m => ⟨m.stop, nodes ++ m.nodes⟩)
          (max (max 3 (alternativesLevels (as :: alternatives))) k)) ∧
      ∀ node, node.children = nodes →
        ruleOf node = .ok ⟨String.ofList name, as :: alternatives⟩ := by
  -- what each part of the line is followed by, from the end of the line backwards
  have hspace : ¬ Begins (· = ' ') rest := not_begins_of_lineEnd (by rintro _ rfl; decide) hrest
  have hgap : Clear GoesOn (s₃ ++ rest) :=
    ⟨s₃, _, rfl, hs₃, hspace, not_begins_of_lineEnd (fun _ => not_isLineEnd_of_goesOn) hrest⟩
  have hsign : ∀ rest, ¬ Begins (· = ' ') ("::=".toList ++ rest) := by
    intro rest
    change ¬ Begins _ (':' :: _)
    rw [begins_cons]
    decide
  obtain ⟨c₁, hc₁, h₁⟩ := takes_spaces hc hindent (by rw [begins_cons]; decide)
  obtain ⟨c₂, hc₂, h₂⟩ := takes_mark "\"<\"" hc₁
  obtain ⟨nameNode, ⟨c₃, hc₃, h₃⟩, hnameKind, hnameText⟩ :=
    takes_name (t := ref "rule-name") rfl hc₂ hname (by rw [begins_cons]; decide)
  obtain ⟨c₄, hc₄, h₄⟩ := takes_mark "\">\"" hc₃
  obtain ⟨c₅, hc₅, h₅⟩ := takes_spaces hc₄ hs₁ (hsign _)
  obtain ⟨c₆, hc₆, h₆⟩ := takes_literal (g := grammar) (t := becomes) rfl rfl hc₅
  obtain ⟨firstNode, ⟨c₇, hc₇, h₇⟩, hfirstKind, hfirstTerms⟩ :=
    takes_first (t := ref "firstExpression") rfl hs₂ hfirst hc₆ (hlater.clear hgap)
  obtain ⟨laterNodes, ⟨c₈, hc₈, h₈⟩, hlaterKinds, hlaterTerms⟩ :=
    takes_later (t := refs "otherExpression" .zeroOrMore) rfl hlater hc₇ hgap
  obtain ⟨c₉, hc₉, h₉⟩ := takes_spaces hc₈ hs₃ hspace
  refine ⟨c₉, nameNode :: firstNode :: laterNodes, hc₉, fun {o k} hends => ?_,
    fun node hchildren => ?_⟩
  · have hseq := h₁.sequence_some (h₂.sequence_some ((h₃.once rfl).sequence_some
      (h₄.sequence_some (h₅.sequence_some (h₆.sequence_some ((h₇.once rfl).sequence_some
        ((h₈.zeroOrMore rfl).sequence_some (h₉.sequence_some hends))))))))
    cases o with
    | none =>
      exact (hseq.choice_none .choice_nil).of_eq rfl (by simp only [alternativesLevels]; omega)
    | some m =>
      exact hseq.choice_some.of_eq (by simp) (by simp only [alternativesLevels]; omega)
  · rw [← hnameText]
    exact ruleOf_eq hchildren hnameKind hfirstKind hlaterKinds hfirstTerms hlaterTerms

/-- **A rule is read on its line**, and with it the spaces before the next one, if the ends of
the line are counted; and otherwise it is not read. -/
theorem settles_line (ht : t.symbol = .reference "rule") {rule : Rule} (h : WritesRule rule text)
    (hafter : IsSpaces after) (hc : c.rest = text ++ (after ++ rest))
    (hrest : ¬ Begins (fun a => a = ' ' ∨ IsLineEnd a) rest) :
    (Matcher.Counted (countEnds text) → ∃ node,
      Takes grammar (symbol t) c rest [node] (ruleLevels rule) ∧ node.kind = "rule" ∧
        ruleOf node = .ok rule) ∧
    (¬ Matcher.Counted (countEnds text) →
      Settles grammar (symbol t) c none (ruleLevels rule)) := by
  cases h with
  | @line indent name s₁ s₂ text later s₃ ends s₄ first alternatives hindent hname hs₁ hs₂
      hfirst hlater hs₃ hends hne hs₄ =>
    have hc' : c.rest = indent ++ '<' :: (name ++ '>' :: (s₁ ++ ("::=".toList ++ (s₂ ++ (text ++
        (later ++ (s₃ ++ (ends ++ (s₄ ++ after ++ rest))))))))) := by
      rw [hc]
      simp only [List.append_assoc, List.cons_append]
    have hbegins : Begins IsLineEnd (ends ++ (s₄ ++ after ++ rest)) := begins_of_lineEnds hends hne
    have hlast : ¬ Begins IsLineEnd (s₄ ++ after ++ rest) :=
      not_begins_of_spaces (by decide) (hs₄.append hafter)
        fun h => hrest (h.mono fun _ => .inr)
    obtain ⟨c₉, nodes, hc₉, hfront, hrule⟩ :=
      exists_front hindent hname hs₁ hs₂ hfirst hlater hs₃ hc' hbegins
    rw [countEnds_rule hindent hname hs₁ hs₂ hfirst hlater hs₃ hends hs₄]
    have hreads := reads_lineEnd (t := refs "RULE_EOL" .oneOrMore) rfl
    constructor
    · intro hcounted
      obtain ⟨c₁₀, hc₁₀, h₁₀⟩ := hreads.oneOrMore rfl hcounted hc₉ hends hlast
      obtain ⟨c₁₁, hc₁₁, h₁₁⟩ := takes_spaces hc₁₀ (hs₄.append hafter)
        fun h => hrest (h.mono fun _ => .inl)
      have hbody : Settles grammar (choice ruleDef.alternatives) c (some ⟨c₁₁, nodes⟩)
          (max 3 (alternativesLevels (first :: alternatives))) :=
        (hfront (h₁₀.sequence_some h₁₁.sequence_one)).of_eq (by simp) (by omega)
      obtain ⟨node, hnode, hkind, -, hchildren⟩ :=
        takes_rule ht find_rule (by decide) ⟨c₁₁, hc₁₁, hbody⟩
          (hc.trans (List.append_assoc _ after rest).symm)
      exact ⟨node, hnode, hkind, hrule node hchildren⟩
    · intro hcounted
      have hnone := hreads.oneOrMore_none rfl hcounted hc₉ hends hlast
      exact (settles_rule_none ht find_rule (hfront hnone.sequence_none)).of_eq rfl
        (by simp only [ruleLevels]; omega)

/-- A rule that is counted is read. -/
theorem takes_line (ht : t.symbol = .reference "rule") {rule : Rule} (h : CountsRule rule text)
    (hafter : IsSpaces after) (hc : c.rest = text ++ (after ++ rest))
    (hrest : ¬ Begins (fun a => a = ' ' ∨ IsLineEnd a) rest) :
    ∃ node, Takes grammar (symbol t) c rest [node] (ruleLevels rule) ∧ node.kind = "rule" ∧
      ruleOf node = .ok rule :=
  (settles_line ht h.writes hafter hc hrest).1 h.counted

/-- Where nothing is left there is no further rule. -/
theorem settles_line_none (ht : t.symbol = .reference "rule") (hc : c.rest = []) :
    Settles grammar (symbol t) c none 1 := by
  obtain ⟨s, hs, h⟩ := takes_spaces hc isSpaces_nil begins_nil
  have hopen : Settles grammar (term (mark '<' "\"<\"")) s none 0 :=
    settles_mark_none _ (by rw [hs]; exact begins_nil)
  exact settles_rule_none ht find_rule
    ((h.sequence_some hopen.sequence_none).choice_none .choice_nil)

/-! ## Tables -/

/-- The levels that the rules of a table take. Behind the last one there is an
attempt at another. -/
def tableLevels : List Rule → Nat
  | [] => 1
  | first :: later => max (ruleLevels first) (tableLevels later)

/-- **A table is read to the end of the text**, one iteration for each of its rules, and its
nodes have the rules. -/
theorem loops_rules (ht : t.symbol = .reference "rule") {rules : List Rule}
    (h : CountsTable rules c.rest) :
    ∃ stop nodes, Loops grammar t c rules.length ⟨stop, nodes⟩ (tableLevels rules) ∧
      stop.rest = [] ∧ (∀ node ∈ nodes, node.kind = "rule") ∧ nodes.mapM ruleOf = .ok rules := by
  induction rules generalizing c with
  | nil =>
    -- behind the last rule one more is attempted
    have hnil : c.rest = [] := by
      generalize c.rest = text at h
      cases h
      rfl
    exact ⟨c, [], .stop (settles_line_none ht hnil), hnil, by simp, rfl⟩
  | cons rule rules ih =>
    obtain ⟨line, indent, rest, hc, hline, hindent, hrest, hrules⟩ := h.uncons
    obtain ⟨node, ⟨s₁, hs₁, h₁⟩, hkind, hrule⟩ := takes_line ht hline hindent hc hrest
    have hmoved : s₁.offset ≠ c.offset := h₁.offset_ne (by
      obtain ⟨_, line, rfl, -, ⟨_, _, rfl, -⟩, -⟩ := hline.strip
      simp only [hc, hs₁, List.length_append, List.length_cons]
      omega)
    obtain ⟨s₂, nodes, h₂, hs₂, hkinds, hall⟩ := ih (by rwa [hs₁])
    refine ⟨s₂, node :: nodes, h₂.more h₁ hmoved, hs₂, ?_, mapM_cons_ok hrule hall⟩
    simpa [hkind] using hkinds

/-! ## Documents -/

/-- The levels that a document takes. -/
def documentLevels (rules : List Rule) : Nat := max 1 (tableLevels rules) + 1

/-- **A document is read to its end**, in so many levels, and its nodes have the rules that it was
written with, if the rules are counted; and otherwise it is not read. -/
theorem settles_document {rules : List Rule} {ends table : List Char} (hends : IsLineEnds ends)
    (htable : CountsTable rules table) :
    ∃ stop nodes, Settles grammar (body syntaxDef) (Cursor.start (ends ++ table))
        (if Matcher.Counted rules.length then some ⟨stop, nodes⟩ else none)
        (documentLevels rules) ∧
      stop.rest = [] ∧ (∀ node ∈ nodes, node.kind = "rule") ∧ nodes.mapM ruleOf = .ok rules := by
  have hbegin : ¬ Begins IsLineEnd table := by
    obtain ⟨indent, body, rfl, hindent, hbody, -⟩ := htable.strip
    exact not_begins_of_spaces (by decide) hindent fun h => hbody (h.mono fun _ => .inr)
  obtain ⟨s₁, hs₁, h₁⟩ := (reads_lineEnd (t := refs "RULE_EOL" .zeroOrMore) rfl).zeroOrMore rfl
    (c := Cursor.start (ends ++ table)) rfl hends hbegin
  obtain ⟨stop, nodes, hloops, hstop, hkinds, hall⟩ :=
    loops_rules (t := refs "rule" .oneOrMore) rfl (hs₁.symm ▸ htable)
  have hbody : Settles grammar (choice syntaxDef.alternatives) (Cursor.start (ends ++ table))
      (if Matcher.Counted rules.length then some ⟨stop, nodes⟩ else none)
      (max 1 (tableLevels rules)) := by
    have hseq := h₁.sequence_some (hloops.oneOrMore rfl).sequence_one
    split at hseq
    · exact hseq.choice_some.of_eq (by simp [*]) rfl
    · exact (hseq.choice_none .choice_nil).of_eq (by simp [*]) (by omega)
  exact ⟨stop, nodes, hbody.body, hstop, hkinds, hall⟩

/-! ## What else is read -/

theorem yields_first (ht : t.symbol = .reference "firstExpression") (n : Nat) :
    Yields grammar (symbol t) (Joined IsSpaces fun text => ∃ as, WritesAlternative as text) n := by
  have hlist := (yields_list (t := ref "list") rfl n).once rfl
  exact ((yields_spaces n).andThen hlist.sequence_one).choice_one.reference ht find_first

theorem yields_later (ht : t.symbol = .reference "otherExpression")
    (hr : t.repetition = .zeroOrMore) (n : Nat) :
    Yields grammar (term t) (fun text => ∃ alternatives, WritesLater alternatives text) n := by
  have hlist := (yields_list (t := ref "list") rfl n).once rfl
  have hbar : Yields grammar (term (mark '|' "\"|\"")) (· = ['|']) n := .literal rfl rfl n
  have hseq := (yields_spaces n).andThen (hbar.andThen
    ((yields_spaces n).andThen hlist.sequence_one))
  refine ((hseq.choice_one.reference (d := otherDef) ht find_other).zeroOrMore hr).mono ?_
  rintro text ⟨k, htext⟩
  induction htext with
  | nil => exact ⟨[], .nil⟩
  | @cons _ _ later h _ ih =>
    obtain ⟨before, _, rfl, hbefore, _, _, rfl, rfl, after, text, rfl, hafter, as, has⟩ := h
    obtain ⟨alternatives, hlater⟩ := ih
    refine ⟨as :: alternatives, ?_⟩
    simpa using WritesLater.cons hbefore hafter has hlater

/-- **Nothing but a rule is read as one**, and one that is counted. -/
theorem yields_line (ht : t.symbol = .reference "rule") (n : Nat) :
    Yields grammar (symbol t) (fun text => ∃ rule, CountsRule rule text) n := by
  have hopen : Yields grammar (term (mark '<' "\"<\"")) (· = ['<']) n := .literal rfl rfl n
  have hname := (yields_name (t := ref "rule-name") rfl n).once rfl
  have hclose : Yields grammar (term (mark '>' "\">\"")) (· = ['>']) n := .literal rfl rfl n
  have hbecomes : Yields grammar (term becomes) (· = "::=".toList) n := .literal rfl rfl n
  have hfirst := (yields_first (t := ref "firstExpression") rfl n).once rfl
  have hlater := yields_later (t := refs "otherExpression" .zeroOrMore) rfl rfl n
  have hends := (reads_lineEnd (t := refs "RULE_EOL" .oneOrMore) rfl).yields_counted_run rfl n
  have hbehind := hlater.andThen ((yields_spaces n).andThen (hends.andThen
    (yields_spaces n).sequence_one))
  have hseq := (yields_spaces n).andThen (hopen.andThen (hname.andThen (hclose.andThen
    ((yields_spaces n).andThen (hbecomes.andThen (hfirst.andThen hbehind))))))
  refine (hseq.choice_one.reference (d := ruleDef) ht find_rule).mono ?_
  rintro _ ⟨indent, _, rfl, hindent, _, _, rfl, rfl, name, _, rfl, hname, _, _, rfl, rfl,
    s₁, _, rfl, hs₁, _, _, rfl, rfl, _, _, rfl, ⟨s₂, text, rfl, hs₂, first, hfirst⟩,
    later, _, rfl, ⟨alternatives, hlater⟩, s₃, _, rfl, hs₃, ends, s₄, rfl, ⟨hcounted, hends⟩, hs₄⟩
  have hrule := WritesRule.line hindent hname hs₁ hs₂ hfirst hlater hs₃ hends
    (ne_nil_of_counted hcounted) hs₄
  rw [← countEnds_rule hindent hname hs₁ hs₂ hfirst hlater hs₃ hends hs₄] at hcounted
  refine ⟨⟨String.ofList name, first :: alternatives⟩, ?_⟩
  simpa using CountsRule.mk hrule hcounted

/-- **Nothing but a document is read as one**, and one that is counted. -/
theorem yields_document (n : Nat) :
    Yields grammar (body syntaxDef) (fun text => ∃ rules, CountsDocument rules text) n := by
  have hends := (reads_lineEnd (t := refs "RULE_EOL" .zeroOrMore) rfl).yields_run rfl n
  have hrules := (yields_line (t := refs "rule" .oneOrMore) rfl n).oneOrMore rfl
  refine ((hends.andThen hrules.sequence_one).choice_one.body (d := syntaxDef)).mono ?_
  rintro _ ⟨ends, table, rfl, hends, k, hcounted, htable⟩
  obtain ⟨rules, hlength, htable⟩ : ∃ rules, rules.length = k ∧ CountsTable rules table := by
    clear hcounted
    induction htable with
    | nil => exact ⟨[], rfl, .nil⟩
    | cons h _ ih =>
      obtain ⟨rule, hrule⟩ := h
      obtain ⟨rules, rfl, hrules⟩ := ih
      exact ⟨rule :: rules, rfl, .cons hrule hrules⟩
  exact ⟨rules, hlength ▸ hcounted, ends, table, hends, htable, rfl⟩

end Bnf

end OrderedBnf
