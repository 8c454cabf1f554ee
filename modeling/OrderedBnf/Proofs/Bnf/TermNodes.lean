import OrderedBnf.Proofs.Bnf.Decoding
import OrderedBnf.Proofs.Bnf.Shape

/-!
# Terms in a document and in its table

The terms of a compiled table are those of the document, in its order, each as the node
of a term says it: a literal in the words of the document, or the name that stands
between brackets (`forall₂_rulesOf`). Whatever takes such a term apart later finds what
was written (`compile_terms`), a literal where there was a literal and a name where there
was a name; none of them finds a suffix. Besides there are only the literals of the rule
for the end of a line, if that was added.
-/

namespace OrderedBnf

/-- The nodes of a kind in a tree, in the order in which they are listed. -/
def Node.ofKind (tree : Node) (kind : String) : List Node :=
  (tree.preorder.map Prod.snd).filter (·.kind == kind)

namespace Node

variable {node : Node} {kind : String}

mutual

theorem map_snd_listing (depth depth' : Nat) :
    ∀ node : Node, (node.listing depth).map Prod.snd = (node.listing depth').map Prod.snd
  | ⟨_, _, _, _, children, _⟩ => by
    simp only [listing, List.map_cons, map_snd_listingAll (depth + 1) (depth' + 1) children]

/-- Which nodes are listed does not depend on the depth. -/
theorem map_snd_listingAll (depth depth' : Nat) :
    ∀ nodes, (listingAll depth nodes).map Prod.snd = (listingAll depth' nodes).map Prod.snd
  | [] => rfl
  | node :: rest => by
    simp only [listingAll, List.map_append, map_snd_listing depth depth' node,
      map_snd_listingAll depth depth' rest]

end

theorem filter_listingAll (depth : Nat) (nodes : List Node) (kind : String) :
    ((listingAll depth nodes).map Prod.snd).filter (·.kind == kind) =
      nodes.flatMap fun node => node.ofKind kind := by
  induction nodes with
  | nil => rfl
  | cons node nodes ih =>
    rw [listingAll, List.map_append, List.filter_append, ih, map_snd_listing depth 0 node]
    rfl

/-- A node counts, if it is of the kind, before what is below it. -/
theorem ofKind_eq (node : Node) (kind : String) : node.ofKind kind =
    (if node.kind == kind then [node] else []) ++
      node.children.flatMap fun child => child.ofKind kind := by
  rw [ofKind, preorder, listing_eq, List.map_cons, List.filter_cons, filter_listingAll]
  split <;> rfl

theorem mem_of_mem_ofKind {tree : Node} (h : node ∈ tree.ofKind kind) :
    node.kind = kind ∧ ∃ depth, (depth, node) ∈ tree.preorder := by
  obtain ⟨hlisted, hkind⟩ := List.mem_filter.1 h
  obtain ⟨⟨depth, _⟩, hmem, rfl⟩ := List.mem_map.1 hlisted
  exact ⟨eq_of_beq hkind, depth, hmem⟩

end Node

namespace Bnf

open Goal

variable {n : Nat} {t : Term} {terms : List Term} {c : Cursor} {m : Match} {d : Definition}
variable {taken : List Char} {node : Node} {rule : Rule} {rules : List Rule} {as : List String}
variable {name source : String} {parse : Parse}

/-! ## In order -/

/-- A node that is read as a term. -/
def ReadAs (node : Node) (a : String) : Prop := IsTerm node ∧ termText node = .ok a

/-- What corresponds wherever one by one is read corresponds in order. -/
theorem forall₂_flatMap_of_mapM {α β γ δ ε : Type} {R : γ → δ → Prop} {f : α → Except ε β}
    {g : α → List γ} {g' : β → List δ} {as : List α} {bs : List β}
    (h : ∀ a ∈ as, ∀ b, f a = .ok b → List.Forall₂ R (g a) (g' b)) (hall : as.mapM f = .ok bs) :
    List.Forall₂ R (as.flatMap g) (bs.flatMap g') := by
  have hread : List.Forall₂ (fun a b => List.Forall₂ R (g a) (g' b)) as bs :=
    forall₂_imp_of_mem (forall₂_of_mapM hall) fun a ha b _ => h a ha b
  exact List.rel_flatten (List.forall₂_map_left_iff.2 (List.forall₂_map_right_iff.2 hread))

theorem IsLeaf.ofKind_eq {kind : String} (h : IsLeaf kind node) (hkind : kind ≠ "term") :
    node.ofKind "term" = [] := by
  rw [Node.ofKind_eq, h.children_eq, h.kind_eq]
  simp [hkind]

/-- Below a term there is no other. -/
theorem IsTerm.ofKind_eq (h : IsTerm node) : node.ofKind "term" = [node] := by
  obtain ⟨child, hchildren, hchild⟩ := h.children
  have hnone : child.ofKind "term" = [] :=
    hchild.elim (fun h => h.ofKind_eq (by decide)) fun h => h.ofKind_eq (by decide)
  rw [Node.ofKind_eq, hchildren, h.kind_eq]
  simp [hnone]

/-- **The terms of a list** are those of its nodes, in order, -/
theorem IsList.forall₂_terms (h : IsList node) (has : Bnf.terms node = .ok as) :
    List.Forall₂ ReadAs (node.ofKind "term") as := by
  induction h generalizing as with
  | @last node child hkind hchildren hterm =>
    obtain ⟨text, htext⟩ := hterm.exists_text
    obtain rfl := Except.ok.inj (has.symm.trans (terms_last hchildren hterm.kind_eq htext))
    rw [Node.ofKind_eq, hchildren, hkind]
    simpa [hterm.ofKind_eq] using ⟨hterm, htext⟩
  | @more node child chain hkind hchildren hterm hchain ih =>
    obtain ⟨text, htext⟩ := hterm.exists_text
    obtain ⟨later, hlater, -⟩ := hchain.exists_terms
    obtain rfl := Except.ok.inj (has.symm.trans
      (terms_more hchildren hterm.kind_eq htext hchain.kind_eq hlater))
    rw [Node.ofKind_eq, hchildren, hkind]
    simpa [hterm.ofKind_eq] using ⟨⟨hterm, htext⟩, ih hlater⟩

/-- of an alternative, -/
theorem IsAlternative.forall₂_terms {kind : String} (h : IsAlternative kind node)
    (hkind : kind ≠ "term") (has : Bnf.terms node = .ok as) :
    List.Forall₂ ReadAs (node.ofKind "term") as := by
  obtain ⟨chain, hchildren, hchain⟩ := h.children
  obtain ⟨terms, hterms, -⟩ := hchain.exists_terms
  obtain rfl := Except.ok.inj (has.symm.trans (terms_inner hchildren hchain.kind_eq hterms))
  rw [Node.ofKind_eq, hchildren, h.kind_eq]
  simpa [hkind] using hchain.forall₂_terms hterms

/-- of a rule -/
theorem IsRule.forall₂_terms (h : IsRule node) (hrule : ruleOf node = .ok rule) :
    List.Forall₂ ReadAs (node.ofKind "term") rule.alternatives.flatten := by
  obtain ⟨name, first, later, hchildren, hname, hfirst, hlater⟩ := h.children
  obtain ⟨as, has, -⟩ := hfirst.exists_terms
  obtain ⟨alternatives, hall, -⟩ :=
    exists_mapM_ok fun other hother => (hlater other hother).exists_terms
  obtain rfl := Except.ok.inj (hrule.symm.trans (ruleOf_eq hchildren hname.kind_eq hfirst.kind_eq
    (fun other hother => (hlater other hother).kind_eq) has hall))
  have hothers : List.Forall₂ ReadAs (later.flatMap fun other => other.ofKind "term")
      (alternatives.flatMap id) :=
    forall₂_flatMap_of_mapM (fun other hother as has =>
      (hlater other hother).forall₂_terms (by decide) has) hall
  rw [Node.ofKind_eq, hchildren, h.kind_eq]
  simpa [hname.ofKind_eq] using List.rel_append (hfirst.forall₂_terms (by decide) has) hothers

/-- **and of a document.** -/
theorem forall₂_rulesOf (h : IsDocument node) (hrules : rulesOf node = .ok rules) :
    List.Forall₂ ReadAs (node.ofKind "term") (allTerms rules) := by
  have hkeep : node.childrenOfKind "rule" = node.children :=
    List.filter_eq_self.2 fun child hchild => by simp [(h.rules child hchild).kind_eq]
  rw [rulesOf, hkeep] at hrules
  rw [Node.ofKind_eq, h.kind_eq]
  exact forall₂_flatMap_of_mapM (fun child hchild rule hrule =>
    (h.rules child hchild).forall₂_terms hrule) hrules

/-! ## In the words of the document -/

/-- A mark is read as its character, and has no node. -/
theorem admits_mark {a : Char} {written : String}
    (h : Admits grammar n (term (mark a written)) c m) :
    m.nodes = [] ∧ c.rest = a :: m.stop.rest := by
  cases h with
  | once _ h =>
    cases h with
    | literal ht hr _ =>
      obtain rfl := Symbol.literal.inj ht
      exact ⟨rfl, hr⟩
    | reference ht => cases ht
  | _ => simp_all [mark]

/-- What is read begins with the character that is read first. -/
theorem begins_of_reaches {p : Char → Prop} {s stop : Cursor} {a : Char} (ha : p a)
    (hfirst : c.rest = a :: s.rest) (hlater : s.Reaches stop) (hr : c.rest = taken ++ stop.rest) :
    Begins p taken := by
  obtain ⟨rest, hrest, -⟩ := hlater
  have htaken : taken ++ stop.rest = a :: rest ++ stop.rest :=
    hr.symm.trans (hfirst.trans (congrArg (a :: ·) hrest))
  rw [List.append_cancel_right htaken]
  exact begins_cons.2 ha

/-- A reference is read as the rule that it stands for. -/
theorem admits_ref (hd : grammar.find? name = some d)
    (h : Admits grammar n (term (ref name)) c m) : Admits grammar n (Goal.rule d) c m := by
  cases h with
  | once _ h =>
    cases h with
    | literal ht => cases ht
    | reference ht hforce h =>
      obtain rfl := Symbol.reference.inj ht
      obtain rfl := Option.some.inj (hd.symm.trans (Grammar.find?_eq_some_iff.2 hforce))
      exact h
  | _ => simp_all [ref, refs]

/-- **A reference to a rule with a node has that node.** -/
theorem exists_node (hd : grammar.find? name = some d) (hf : d.isFragment = false)
    (h : Admits grammar n (term (ref name)) c m) :
    ∃ k inner taken, Admits grammar k (choice d.alternatives) c inner ∧ inner.stop = m.stop ∧
      c.rest = taken ++ m.stop.rest ∧
      m.nodes = [⟨name, String.ofList taken, c.offset, m.stop.offset, inner.nodes, []⟩] := by
  have hname := (Grammar.find?_eq_some_iff.1 hd).name_eq
  cases admits_ref hd h with
  | fragment hfragment => rw [hf] at hfragment; cases hfragment
  | node _ hinner hr => exact ⟨_, _, _, hinner, rfl, hr, by rw [hname]⟩

/-- A class of characters is read as one of them. -/
theorem admits_class {characters : String}
    (hd : grammar.find? name = some (classOf name characters))
    (hf : Definition.isFragmentName name = true) (h : Admits grammar n (term (ref name)) c m) :
    ∃ a ∈ characters.toList, c.rest = a :: m.stop.rest := by
  cases admits_ref hd h with
  | node hnode => rw [Definition.isFragment, classOf, hf] at hnode; cases hnode
  | fragment _ h =>
    cases h with
    | choice hterms h =>
      obtain ⟨a, ha, rfl⟩ := List.mem_map.1 hterms
      rw [ofSource_literalOf] at h
      cases h with
      | cons hmark hnil =>
        cases hnil
        exact ⟨a, ha, (admits_mark hmark).2⟩

/-- A literal begins with a quote, -/
theorem begins_quote (h : Admits grammar n (choice literalDef.alternatives) c m)
    (hr : c.rest = taken ++ m.stop.rest) : Begins (isQuote · = true) taken := by
  obtain ⟨a, written, later, ha, h⟩ : ∃ a written later, isQuote a = true ∧
      Admits grammar n (sequence (mark a written :: later)) c m := by
    cases h with
    | choice hterms h =>
      simp only [literalDef, List.mem_cons, List.not_mem_nil, or_false] at hterms
      rcases hterms with rfl | rfl
      · exact ⟨_, _, _, rfl, h⟩
      · exact ⟨_, _, _, rfl, h⟩
  cases h with
  | cons hfirst hlater => exact begins_of_reaches ha (admits_mark hfirst).2 hlater.reaches hr

/-- and a name with a letter. -/
theorem begins_letter (h : Admits grammar n (choice nameDef.alternatives) c m)
    (hr : c.rest = taken ++ m.stop.rest) : Begins (Char.isAlpha · = true) taken := by
  obtain ⟨inner, hletter, hlater⟩ : ∃ inner, Admits grammar n (term (ref "RULE_LETTER")) c inner ∧
      inner.stop.Reaches m.stop := by
    cases h with
    | choice hterms h =>
      obtain rfl := List.mem_singleton.1 hterms
      cases h with
      | cons hletter hlater => exact ⟨_, hletter, hlater.reaches⟩
  obtain ⟨a, ha, hfirst⟩ := admits_class find_letter (by decide) hletter
  exact begins_of_reaches (mem_letters.1 ha) hfirst hlater hr

/-- **A term has one node below it**, that of a literal with the text of the term, or that
of a name which the text has between brackets. -/
theorem exists_child (h : Admits grammar n (choice termDef.alternatives) c m)
    (hr : c.rest = taken ++ m.stop.rest) : ∃ child, m.nodes = [child] ∧
      ((child.kind = "literal" ∧ child.text.toList = taken ∧ Begins (isQuote · = true) taken) ∨
        (child.kind = "rule-name" ∧ taken = '<' :: (child.text.toList ++ ['>']) ∧
          Begins (Char.isAlpha · = true) child.text.toList)) := by
  cases h with
  | choice hterms h =>
    simp only [termDef, List.mem_cons, List.not_mem_nil, or_false] at hterms
    rcases hterms with rfl | rfl
    · cases h with
      | cons hliteral hnil =>
        cases hnil
        obtain ⟨k, inner, text, hinner, hstop, hr', hnodes⟩ :=
          exists_node find_literal (by decide) hliteral
        obtain rfl : text = taken := List.append_cancel_right (hr'.symm.trans hr)
        refine ⟨⟨"literal", String.ofList text, _, _, inner.nodes, []⟩,
          by rw [hnodes, List.append_nil], .inl ⟨rfl, String.toList_ofList, ?_⟩⟩
        exact begins_quote hinner (by rw [hstop]; exact hr')
    · cases h with
      | cons hopen h =>
        cases h with
        | cons hname h =>
          cases h with
          | cons hclose hnil =>
            cases hnil
            obtain ⟨hnone, hbefore⟩ := admits_mark hopen
            obtain ⟨hnone', hbehind⟩ := admits_mark hclose
            obtain ⟨k, inner, text, hinner, hstop, hr', hnodes⟩ :=
              exists_node find_name (by decide) hname
            have htaken : taken = '<' :: (text ++ ['>']) := by
              refine List.append_cancel_right (hr.symm.trans ?_)
              rw [hbefore, hr', hbehind]
              simp
            refine ⟨⟨"rule-name", String.ofList text, _, _, inner.nodes, []⟩,
              by rw [hnone, hnone', hnodes]; rfl, .inr ⟨rfl, ?_, ?_⟩⟩
            · rwa [String.toList_ofList]
            · rw [String.toList_ofList]
              exact begins_letter hinner (by rw [hstop]; exact hr')

/-- A node that is written as a literal: its text is that of the literal. -/
structure IsWrittenLiteral (node : Node) (a : String) : Prop where
  child : ∃ child, node.children = [child] ∧ child.kind = "literal" ∧ child.text = a
  text_eq : node.text = a

/-- A node that is written as a name, between brackets. -/
structure IsWrittenName (node : Node) (a : String) : Prop where
  child : ∃ child, node.children = [child] ∧ child.kind = "rule-name" ∧ child.text = a
  text_eq : node.text = "<" ++ a ++ ">"

/-- **A term is written as a literal or as a name.** -/
theorem ReadAs.cases {first : Cursor} {a : String} (h : ReadAs node a)
    (hmatched : Matched grammar first n d node) :
    (IsWrittenLiteral node a ∧ Begins (isQuote · = true) a.toList) ∨
      (IsWrittenName node a ∧ Begins (Char.isAlpha · = true) a.toList) := by
  obtain ⟨hterm, htext⟩ := h
  obtain ⟨hforce, c, m, taken, errors, -, hbody, hr, hnode⟩ := hmatched
  obtain rfl : d = termDef := by
    have hfind := Grammar.find?_eq_some_iff.2 hforce
    rw [hterm.kind_eq, find_term] at hfind
    exact (Option.some.inj hfind).symm
  obtain ⟨child, hchildren, ⟨hkind, hsame, hbegins⟩ | ⟨hkind, hsame, hbegins⟩⟩ :=
    exists_child hbody hr
  · have hchild : node.children = [child] := by rw [hnode, hchildren]
    obtain rfl := Except.ok.inj (htext.symm.trans (termText_literal hchild hkind))
    refine .inl ⟨⟨⟨child, hchild, hkind, rfl⟩, ?_⟩, hsame ▸ hbegins⟩
    rw [hnode, ← hsame, String.ofList_toList]
  · have hchild : node.children = [child] := by rw [hnode, hchildren]
    obtain rfl := Except.ok.inj (htext.symm.trans (termText_name hchild hkind))
    refine .inr ⟨⟨⟨child, hchild, hkind, rfl⟩, ?_⟩, hbegins⟩
    rw [hnode, hsame]
    exact String.toList_inj.1 (by simp)

/-! ## Terms of a table -/

/-- **What became of a term of a document**: its node lies in the source, and whoever takes
the term of the table apart finds a literal if a literal was written, and otherwise the
name that was written. -/
structure KeepsTerm (source : String) (node : Node) (a : String) : Prop where
  inText : node.InText source
  written : (IsWrittenLiteral node a ∧ StandsForLiteral a) ∨
    (IsWrittenName node a ∧ StandsForName a)

theorem KeepsTerm.of_readAs {a : String} (h : ReadAs node a)
    (hmatched : Matched grammar (Cursor.start source.toList) n d node) (hplain : IsPlainTerm a) :
    KeepsTerm source node a := by
  refine ⟨hmatched.inText, ?_⟩
  rcases h.cases hmatched with ⟨hwritten, b, rest, hb, hquote⟩ | ⟨hwritten, b, rest, hb, hletter⟩
  · refine .inl ⟨hwritten, standsForLiteral (hplain.resolve_right fun hname => ?_)⟩
    rw [hb] at hname
    rw [isQuote_of_isAlpha hname.1] at hquote
    cases hquote
  · refine .inr ⟨hwritten, standsForName (hplain.resolve_left fun hliteral => ?_)⟩
    obtain ⟨q, body, hq, -, ha⟩ := hliteral
    obtain ⟨rfl, -⟩ := List.cons.inj (hb.symm.trans ha)
    rw [isQuote_of_isAlpha hletter] at hq
    cases hq

/-- The terms that are added to a table are literals. -/
theorem exists_added (eol : EolStyle) (rules : List Rule) :
    ∃ added, allTerms (withEol eol rules) = allTerms rules ++ added ∧
      ∀ a ∈ added, StandsForLiteral a := by
  unfold withEol
  split
  · exact ⟨[], by simp, by simp⟩
  · refine ⟨allTerms [eolRule eol], by simp [allTerms], fun a ha => standsForLiteral ?_⟩
    have hall : ∀ a ∈ allTerms [eolRule eol], IsLiteral a.toList := by
      cases eol <;> decide
    exact hall a ha

/-- A source that is compiled has a tree, from which its rules are read. -/
theorem exists_parse_of_ok (h : writtenRules source = .ok rules) :
    ∃ parse, parser.parse source = some parse ∧ rulesOf parse.root = .ok rules := by
  rw [writtenRules] at h
  cases hparse : parser.parse source with
  | none =>
    rw [hparse] at h
    cases h
  | some parse =>
    simp only [hparse, ofParse] at h
    cases hproblems : parse.problems with
    | cons problem problems =>
      rw [hproblems] at h
      cases h
    | nil =>
      rw [hproblems] at h
      cases hrules : rulesOf parse.root with
      | error fault =>
        rw [hrules] at h
        cases h
      | ok rules' =>
        rw [hrules] at h
        obtain rfl := Except.ok.inj h
        exact ⟨parse, rfl, hrules⟩

/-- **Reading and decoding agree** for every source that is compiled. The term nodes of its
tree and the terms that are read from it correspond in order. A term that was written as
a literal is that literal wherever it is taken apart, with the pieces of its body made of
the items that the grammar reads; any other is the name that was written; and neither has
a suffix. The terms of the rule for the end of a line, if it is added, are literals too. -/
theorem compile_terms {eol : EolStyle} {table : List Rule} (h : compile eol source = .ok table) :
    ∃ parse written added, parser.parse source = some parse ∧ rulesOf parse.root = .ok written ∧
      table = withEol eol written ∧ allTerms table = allTerms written ++ added ∧
      List.Forall₂ (KeepsTerm source) (parse.root.ofKind "term") (allTerms written) ∧
      ∀ a ∈ added, StandsForLiteral a := by
  obtain ⟨written, hdocument, hdepth, rfl⟩ := compile_eq_ok_iff.1 h
  obtain ⟨parse, hparse, hrules⟩ := exists_parse_of_ok (writtenRules_eq_ok hdocument hdepth)
  obtain ⟨added, hadded, hliterals⟩ := exists_added eol written
  refine ⟨parse, written, added, hparse, hrules, rfl, hadded, ?_, hliterals⟩
  obtain ⟨start, -, hfrom⟩ := Option.bind_eq_some_iff.1 hparse
  obtain ⟨-, -, hmatched⟩ := Parser.matched_of_parseFrom hfrom
  obtain ⟨ends, body, -, htable, -⟩ := hdocument.writes
  have hplain : ∀ a ∈ allTerms written, IsPlainTerm a := by
    intro a ha
    obtain ⟨rule, hrule, hterm⟩ := List.mem_flatMap.1 ha
    obtain ⟨terms, hterms, hterm⟩ := List.mem_flatten.1 hterm
    exact (htable.isPlainTable.isPlainRule rule hrule).isPlainTerm terms hterms a hterm
  refine forall₂_imp_of_mem (forall₂_rulesOf (isDocument_of_parse hparse) hrules) ?_
  intro node hnode a ha hread
  obtain ⟨-, depth, hmem⟩ := Node.mem_of_mem_ofKind hnode
  obtain ⟨n, d, -, -, hnode'⟩ := hmatched depth node hmem
  exact .of_readAs hread hnode' (hplain a ha)

/-- A literal of an escaped backslash, an escaped quote, a backslash that escapes nothing
and a quote of the other kind; and a name. -/
def piecesTable : List Rule := [⟨"a", [["\"\\\\\\\"\\n'\"", "b-1"]]⟩]

/-- Its terms are read and decoded in four pieces and as a name. -/
theorem compile_terms_pieces :
    compile .apart (Rule.showTable piecesTable) = .ok (piecesTable ++ [eolRule .apart]) ∧
    (∃ parse, parser.parse (Rule.showTable piecesTable) = some parse ∧
      List.Forall₂ (KeepsTerm (Rule.showTable piecesTable)) (parse.root.ofKind "term")
        ["\"\\\\\\\"\\n'\"", "b-1"]) ∧
    pieces ['\\', '\\', '\\', '"', '\\', 'n', '\''] =
      [['\\', '\\'], ['\\', '"'], ['\\', 'n'], ['\'']] ∧
    Symbol.ofBase "\"\\\\\\\"\\n'\"" = .literal ['\\', '"', '\n', '\''] := by
  have hplain : IsPlainTable piecesTable := by decide +kernel
  have hdepth : WithinDepth piecesTable := by decide +kernel
  have hcompile : compile .apart (Rule.showTable piecesTable) =
      .ok (piecesTable ++ [eolRule .apart]) := compile_show hplain hdepth (by decide) .apart
  have hdocument : CountsDocument piecesTable (Rule.showTable piecesTable).toList :=
    ⟨by decide, [], _, isLineEnds_nil, (countsTable_show hplain.isPlainRule).1, rfl⟩
  obtain ⟨parse, hparse, hrules⟩ := exists_parse_of_ok (writtenRules_eq_ok hdocument hdepth)
  obtain ⟨parse', written, added, hparse', hrules', -, -, hterms, -⟩ := compile_terms hcompile
  obtain rfl := Option.some.inj (hparse.symm.trans hparse')
  obtain rfl := Except.ok.inj (hrules.symm.trans hrules')
  exact ⟨hcompile, ⟨parse, hparse, hterms⟩, by decide, by decide⟩

end Bnf

end OrderedBnf
