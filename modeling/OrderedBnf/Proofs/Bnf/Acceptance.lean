import OrderedBnf.Bnf.Compile
import OrderedBnf.Proofs.Bnf.Depth

/-!
# Which sources are compiled

Exactly the documents that are counted (`CountsDocument`) and whose terms all
stand within the depth of the parser, and a document is compiled to the table
that it was written with. There is one such table for each document
(`CountsDocument.unique`), which is no matter of the parser but follows from it:
the parser settles in one way. Of a document with fewer than `2 ^ 32` ends of
lines nothing has to be said about the counter.
-/

namespace OrderedBnf

namespace Bnf

open Goal

variable {source : String} {text : List Char} {rules rules' : List Rule} {eol : EolStyle}

/-- A document that is counted is read. -/
theorem CountsDocument.settles (h : CountsDocument rules text) :
    ∃ stop nodes, Settles grammar (body syntaxDef) (Cursor.start text) (some ⟨stop, nodes⟩)
        (documentLevels rules) ∧
      stop.rest = [] ∧ (∀ node ∈ nodes, node.kind = "rule") ∧ nodes.mapM ruleOf = .ok rules := by
  obtain ⟨hcounted, ends, table, hends, htable, rfl⟩ := h
  simpa only [if_pos hcounted] using settles_document hends htable

/-- **A text is a document of one table only.** -/
theorem CountsDocument.unique (h : CountsDocument rules text) (h' : CountsDocument rules' text) :
    rules = rules' := by
  obtain ⟨stop, nodes, hs, -, -, hall⟩ := h.settles
  obtain ⟨stop', nodes', hs', -, -, hall'⟩ := h'.settles
  have hmatch : (⟨stop, nodes⟩ : Match) = ⟨stop', nodes'⟩ := Option.some.inj (hs.unique hs').1
  obtain rfl : nodes = nodes' := congrArg Match.nodes hmatch
  exact Except.ok.inj (hall.symm.trans hall')

/-- The parser of documents begins with their rule. -/
theorem parse_eq (source : String) :
    parser.parse source = parser.parseDefinition source.toList syntaxDef := by
  have hstart : parser.start? = some "syntax" := by decide +kernel
  rw [Parser.parse, hstart, Option.bind_some, Parser.parseFrom]
  rw [show parser.grammar.find? "syntax" = some syntaxDef from find_syntax, Option.bind_some]

/-- The run of the parser, as a goal. -/
theorem run_eq (text : List Char) : parser.run text syntaxDef =
    (body syntaxDef).run Progress.note grammar ParserOptions.defaultMaxDepth (Cursor.start text)
      Progress.start :=
  rfl

theorem problems_eq_nil_iff {limit : Nat} {stop : Cursor} {p : Progress} :
    Parser.problems limit text stop p = [] ↔ stop.rest = [] ∧ p.tooDeep = false := by
  unfold Parser.problems
  split <;> split <;> simp_all

/-- There is no tree where the parser settles for nothing. -/
theorem parse_eq_none_of_settles {needed : Nat}
    (h : Settles grammar (body syntaxDef) (Cursor.start source.toList) none needed)
    (hle : needed ≤ ParserOptions.defaultMaxDepth) : parser.parse source = none := by
  have hout := (h ParserOptions.defaultMaxDepth Progress.start rfl).2 hle
  rw [← run_eq] at hout
  rw [parse_eq, Parser.parseDefinition]
  rcases hrun : parser.run source.toList syntaxDef with ⟨_ | m, p⟩
  · rfl
  · rw [hrun] at hout
    cases hout

/-- **There is none if the first line has too many ends**, whatever comes behind. -/
theorem parse_eq_none_of_full {rule : Rule} {line rest : List Char} (h : WritesRule rule line)
    (hfull : ¬ Matcher.Counted (countEnds line)) (hdepth : WithinDepth [rule])
    (hrest : ¬ Begins (fun a => a = ' ' ∨ IsLineEnd a) rest)
    (hsource : source.toList = line ++ rest) : parser.parse source = none := by
  have hbegin : ¬ Begins IsLineEnd (line ++ rest) := by
    cases h with
    | line hindent =>
      rw [List.append_assoc]
      exact not_begins_of_spaces (by decide) hindent (by rw [List.cons_append, begins_cons]; decide)
  obtain ⟨c, hc, hends⟩ := (reads_lineEnd (t := refs "RULE_EOL" .zeroOrMore) rfl).zeroOrMore rfl
    (c := Cursor.start source.toList) (hsource.trans (List.nil_append _).symm) nofun hbegin
  have hnone := (settles_line (t := refs "rule" .oneOrMore) rfl h isSpaces_nil hc hrest).2 hfull
  have hrules : Settles grammar (term (refs "rule" .oneOrMore)) c none (ruleLevels rule) :=
    (Loops.stop hnone).oneOrMore_of_not_counted rfl Matcher.not_counted_zero
  have hbody : Settles grammar (choice syntaxDef.alternatives) (Cursor.start source.toList) none
      (max 1 (ruleLevels rule)) :=
    ((hends.sequence_some hrules.sequence_none).choice_none .choice_nil).of_eq rfl (by omega)
  have hle : documentLevels [rule] ≤ ParserOptions.defaultMaxDepth := documentLevels_le_iff.2 hdepth
  refine parse_eq_none_of_settles hbody.body (Nat.le_trans ?_ hle)
  simp only [documentLevels, tableLevels]
  omega

/-- **A document within the depth is read as the table it was written with.** -/
theorem writtenRules_eq_ok (h : CountsDocument rules source.toList) (hdepth : WithinDepth rules) :
    writtenRules source = .ok rules := by
  obtain ⟨stop, nodes, hs, hstop, hkinds, hall⟩ := h.settles
  obtain ⟨hquiet, hout⟩ := hs ParserOptions.defaultMaxDepth Progress.start rfl
  have hle := documentLevels_le_iff.2 hdepth
  rcases hrun : parser.run source.toList syntaxDef with ⟨o, p⟩
  rw [← run_eq, hrun] at hquiet hout
  obtain rfl : o = some ⟨stop, nodes⟩ := hout hle
  have hproblems : Parser.problems parser.options.maxDepth source.toList stop p = [] :=
    problems_eq_nil_iff.2 ⟨hstop, hquiet.2 hle⟩
  have hkeep : nodes.filter (·.kind == "rule") = nodes :=
    List.filter_eq_self.2 fun node hnode => by simp [hkinds node hnode]
  simp [writtenRules, parse_eq, Parser.parseDefinition, hrun, ofParse, Parser.finish, hproblems,
    rulesOf, Node.childrenOfKind, hkeep, hall, Except.mapError]

/-- **Whatever is read is a document**, and within the depth. -/
theorem exists_document_of_ok (h : writtenRules source = .ok rules) :
    ∃ written, CountsDocument written source.toList ∧ WithinDepth written := by
  rcases hrun : parser.run source.toList syntaxDef with ⟨o, p⟩
  obtain ⟨m, rfl, hproblems⟩ : ∃ m, o = some m ∧
      Parser.problems ParserOptions.defaultMaxDepth source.toList m.stop p = [] := by
    rw [writtenRules, parse_eq, Parser.parseDefinition, hrun] at h
    cases o with
    | none => cases h
    | some m =>
      refine ⟨m, rfl, ?_⟩
      change ofParse (Parser.finish ParserOptions.defaultMaxDepth _ _ _ _) = _ at h
      simp only [ofParse, Parser.finish] at h
      split at h
      · cases h
      · assumption
  obtain ⟨hstop, hquiet⟩ := problems_eq_nil_iff.1 hproblems
  obtain ⟨o, needed, hs, hP⟩ := yields_document _ (Cursor.start source.toList) (Nat.le_refl _)
  obtain ⟨hlevels, hout⟩ := hs ParserOptions.defaultMaxDepth Progress.start rfl
  rw [← run_eq, hrun] at hlevels hout
  have hle := hlevels.1 hquiet
  obtain ⟨text, htext, written, hwritten⟩ := hP m (hout hle).symm
  obtain rfl : text = source.toList := by rw [hstop, List.append_nil] at htext; exact htext.symm
  -- the text is a document, so the levels that the run took are those of its table
  obtain ⟨stop, nodes, hs', -⟩ := hwritten.settles
  obtain ⟨-, rfl⟩ := hs.unique hs'
  exact ⟨written, hwritten, documentLevels_le_iff.1 hle⟩

theorem writtenRules_eq_ok_iff :
    writtenRules source = .ok rules ↔ CountsDocument rules source.toList ∧ WithinDepth rules := by
  constructor
  · intro h
    obtain ⟨written, hwritten, hdepth⟩ := exists_document_of_ok h
    have hok := writtenRules_eq_ok hwritten hdepth
    obtain rfl : rules = written := Except.ok.inj (h.symm.trans hok)
    exact ⟨hwritten, hdepth⟩
  · rintro ⟨h, hdepth⟩
    exact writtenRules_eq_ok h hdepth

/-- What a source is compiled to. -/
theorem compile_eq_ok_iff : compile eol source = .ok rules ↔
    ∃ written, CountsDocument written source.toList ∧ WithinDepth written ∧
      rules = withEol eol written := by
  constructor
  · intro h
    rw [compile] at h
    cases hw : writtenRules source with
    | error e =>
      rw [hw] at h
      cases h
    | ok written =>
      rw [hw] at h
      obtain ⟨hwritten, hdepth⟩ := writtenRules_eq_ok_iff.1 hw
      exact ⟨written, hwritten, hdepth, (Except.ok.inj h).symm⟩
  · rintro ⟨written, h, hdepth, rfl⟩
    rw [compile, writtenRules_eq_ok h hdepth]
    rfl

/-- **A source is compiled if and only if it is a document with no term too far
out**, and one that is counted, which nobody has to ask of a source with fewer
than `2 ^ 32` ends of lines. -/
theorem exists_compile_eq_ok_iff (eol : EolStyle) (source : String) :
    ((∃ rules, compile eol source = .ok rules) ↔
      ∃ rules, CountsDocument rules source.toList ∧ WithinDepth rules) ∧
    (countEnds source.toList < 2 ^ 32 →
      ((∃ rules, compile eol source = .ok rules) ↔
        (∃ rules, WritesDocument rules source.toList) ∧
          ∀ rules, WritesDocument rules source.toList → WithinDepth rules)) := by
  have hiff : (∃ rules, compile eol source = .ok rules) ↔
      ∃ rules, CountsDocument rules source.toList ∧ WithinDepth rules := by
    constructor
    · rintro ⟨_, h⟩
      obtain ⟨written, hwritten, hdepth, -⟩ := compile_eq_ok_iff.1 h
      exact ⟨written, hwritten, hdepth⟩
    · rintro ⟨written, hwritten, hdepth⟩
      exact ⟨_, compile_eq_ok_iff.2 ⟨written, hwritten, hdepth, rfl⟩⟩
  refine ⟨hiff, fun hshort => hiff.trans ⟨?_, ?_⟩⟩
  · rintro ⟨written, hwritten, hdepth⟩
    refine ⟨⟨written, hwritten.writes⟩, fun other hother => ?_⟩
    rwa [(hother.counts hshort).unique hwritten]
  · rintro ⟨⟨written, hwritten⟩, hdepth⟩
    exact ⟨written, hwritten.counts hshort, hdepth written hwritten⟩

/-- A rule without a space and with both characters at its end is a document. -/
theorem exists_compile_eq_ok_iff_dense :
    countEnds "<a>::='x'\r\n".toList < 2 ^ 32 ∧
      (∃ rules, WritesDocument rules "<a>::='x'\r\n".toList) ∧
        ∀ rules, WritesDocument rules "<a>::='x'\r\n".toList → WithinDepth rules := by
  have hcompile : compile .together "<a>::='x'\r\n" =
      .ok [⟨"a", [["'x'"]]⟩, eolRule .together] := by decide +kernel
  have hshort : countEnds "<a>::='x'\r\n".toList < 2 ^ 32 := by decide +kernel
  exact ⟨hshort, ((exists_compile_eq_ok_iff .together _).2 hshort).1 ⟨_, hcompile⟩⟩

theorem withinDepth_letterRule : WithinDepth [letterRule] := by decide

/-- The source of a rule whose line has so many ends. -/
def letterSource (k : Nat) : String := String.ofList (letterLine k)

theorem writesDocument_letterLine {k : Nat} (hk : k ≠ 0) :
    WritesDocument [letterRule] (letterLine k) :=
  ⟨[], letterLine k, isLineEnds_nil, .last (writesRule_letterLine hk), rfl⟩

/-- It is compiled if the ends of the line are counted, also behind other ends of lines, -/
theorem compile_letterLine {ends : List Char} (hends : IsLineEnds ends) {k : Nat}
    (hk : Matcher.Counted k) (eol : EolStyle) :
    compile eol (String.ofList (ends ++ letterLine k)) = .ok (withEol eol [letterRule]) := by
  have hne : k ≠ 0 := fun hzero => Matcher.not_counted_zero (hzero ▸ hk)
  have hrule : CountsRule letterRule (letterLine k) :=
    ⟨writesRule_letterLine hne, by rwa [countEnds_letterLine]⟩
  have htable : CountsTable [letterRule] (letterLine k) := by
    simpa using CountsTable.cons hrule .nil
  refine compile_eq_ok_iff.2 ⟨_, ?_, withinDepth_letterRule, rfl⟩
  rw [String.toList_ofList]
  exact ⟨by decide, ends, letterLine k, hends, htable, rfl⟩

/-- and otherwise there is no tree of it. -/
theorem parse_letterSource_full : parser.parse (letterSource (2 ^ 32)) = none := by
  have hfull : ¬ Matcher.Counted (countEnds (letterLine (2 ^ 32))) := by
    rw [countEnds_letterLine]
    exact not_counted_full
  have hsource : (letterSource (2 ^ 32)).toList = letterLine (2 ^ 32) ++ [] := by
    rw [letterSource, String.toList_ofList, List.append_nil]
  exact parse_eq_none_of_full (writesRule_letterLine (by decide)) hfull withinDepth_letterRule
    begins_nil hsource

/-- **With `2 ^ 32` ends of its line a document is not compiled**, though no term in it stands
too far out. -/
theorem not_exists_compile_eq_ok_iff :
    ¬ ∀ (eol : EolStyle) (source : String), (∃ rules, compile eol source = .ok rules) ↔
      ∃ rules, WritesDocument rules source.toList ∧ WithinDepth rules := by
  intro hall
  have hdocument : WritesDocument [letterRule] (letterSource (2 ^ 32)).toList := by
    rw [letterSource, String.toList_ofList]
    exact writesDocument_letterLine (by decide)
  obtain ⟨rules, hrules⟩ :=
    (hall .together (letterSource (2 ^ 32))).2 ⟨_, hdocument, withinDepth_letterRule⟩
  rw [compile, writtenRules, parse_letterSource_full] at hrules
  cases hrules

end Bnf

end OrderedBnf
