import OrderedBnf.Proofs.Bnf.Line
import OrderedBnf.Proofs.Bnf.Shape
import OrderedBnf.Proofs.Parse.Furthest

/-!
# The first line that is no rule

A parse of a document has the rules that can be read from its beginning, one after
another. There is one if a rule can be read at all, whatever comes behind it; and
what is left over begins with the first line that is no rule, or is empty.

So the error of a source is located (`isLocated_of_parse`). A source has no tree if
and only if no beginning of it is read to its end. If the tree ends before the source
does, the part that it covers is read alike when it stands alone, and the error stands
on the line behind it.

A rule is not read any more when the ends of lines behind it fill the counter, nor is a
document with so many rules. So a source with a beginning that is read has a tree as
long as there are too few ends of lines for that, and the error stands on the line
behind the tree if too few of them follow.
-/

namespace OrderedBnf

open Goal

/-- The furthest failure is no further than all of them. -/
theorem MissesUpTo.furthest_le {bound : Nat} {events : List Event} (h : MissesUpTo bound events) :
    (events.foldl Progress.note .start).furthest ≤ bound := by
  rw [(Progress.foldl_note events).1]
  rcases furthestFailure_cases (failures events) with hnone | ⟨source, hmem⟩
  · rw [hnone]
    exact Nat.zero_le bound
  · exact h _ source (mem_failures.1 hmem)

namespace Bnf

variable {source part : String} {ends text rest : List Char} {m : Match} {n offset : Nat}
variable {parse : Parse} {events : List Event} {node : Node}

/-! ## What a parse has read -/

/-- The rules that may be under way below a rule of a document. -/
def levelsOfRule : Nat := ParserOptions.defaultMaxDepth - 2

/-- **A source that is taken apart**: the ends of lines that it begins with, the rules
behind them, and the rest. -/
structure Reading (source : String) (ends text : List Char) (m : Match) : Prop where
  source_eq : source.toList = ends ++ text
  isLineEnds : IsLineEnds ends
  not_begins : ¬ Begins IsLineEnd text
  rules : ReadsRules levelsOfRule (byteLength ends) text m

theorem exists_reading (source : String) : ∃ ends text m, Reading source ends text m := by
  obtain ⟨ends, text, hsource, hends, htext⟩ := exists_longest IsLineEnd source.toList
  obtain ⟨m, hm⟩ := exists_readsRules levelsOfRule (byteLength ends) text
  exact ⟨ends, text, m, hsource, hends, htext, hm⟩

/-- **The parse of a source** has what is read, if the rules are told from none, and misses
no literal behind the line that comes next. -/
theorem Reading.parse_eq (h : Reading source ends text m) :
    ∃ events, MissesInLine m.stop events ∧
      parser.parse source = if Matcher.Counted m.nodes.length then
        some (Parser.finish ParserOptions.defaultMaxDepth source.toList syntaxDef m
          (events.foldl Progress.note .start))
      else none := by
  obtain ⟨events, hruns, hmisses⟩ :=
    runs_document (n := levelsOfRule) (by decide) h.isLineEnds h.not_begins h.rules
  have hrun : parser.run source.toList syntaxDef =
      (if Matcher.Counted m.nodes.length then some m else none,
        events.foldl Progress.note .start) := by
    rw [h.source_eq, run_eq]
    exact hruns.run Progress.note .start
  refine ⟨events, hmisses, ?_⟩
  rw [Bnf.parse_eq, Parser.parseDefinition, hrun]
  by_cases hcounted : Matcher.Counted m.nodes.length
  · rw [if_pos hcounted, if_pos hcounted]
    rfl
  · rw [if_neg hcounted, if_neg hcounted]

theorem Reading.parse_eq_none_iff (h : Reading source ends text m) :
    parser.parse source = none ↔ ¬ Matcher.Counted m.nodes.length := by
  obtain ⟨events, -, hparse⟩ := h.parse_eq
  rw [hparse]
  split <;> simp [*]

theorem Reading.exists_parse_iff (h : Reading source ends text m) :
    (∃ parse, parser.parse source = some parse) ↔ Matcher.Counted m.nodes.length := by
  rw [← Option.ne_none_iff_exists', Ne, h.parse_eq_none_iff, not_not]

/-- What is read is read alike when it stands alone. -/
theorem Reading.cut (h : Reading source ends text m) :
    ∃ part, text = part ++ m.stop.rest ∧ m.stop.offset = byteLength (ends ++ part) ∧
      Reading (String.ofList (ends ++ part)) ends part ⟨⟨m.stop.offset, []⟩, m.nodes⟩ := by
  obtain ⟨part, rfl, hstop, hpart⟩ := h.rules.cut
  exact ⟨part, rfl, by rw [byteLength_append, hstop], String.toList_ofList, h.isLineEnds,
    fun hbegins => h.not_begins hbegins.append, hpart⟩

/-- Where a rule is read there is a rule. -/
theorem ReadsRules.nodes_ne_nil (h : ReadsRules n offset text m)
    (hrule : ReadsRule n offset text rest node) : m.nodes ≠ [] := by
  cases h with
  | stop hno => exact absurd hrule (hno _ _)
  | more => simp

/-- **A source that has a tree has one whatever comes behind.** -/
theorem exists_parse_append (h : parser.parse part = some parse) (later : String)
    (hshort : countEnds (part ++ later).toList < 2 ^ 32) :
    ∃ parse, parser.parse (part ++ later) = some parse := by
  obtain ⟨ends, text, m, hpart⟩ := exists_reading part
  rw [String.toList_append, hpart.source_eq, List.append_assoc, countEnds_append] at hshort
  have hshort' : countEnds (text ++ later.toList) < 2 ^ 32 := by omega
  have hsome : m.nodes ≠ [] := ne_nil_of_counted (hpart.exists_parse_iff.1 ⟨_, h⟩)
  cases hrules : hpart.rules with
  | stop => exact absurd rfl hsome
  | more hrule =>
    obtain ⟨rest, node, hrule'⟩ := hrule.extend later.toList hshort'
    obtain ⟨m', hm'⟩ := exists_readsRules levelsOfRule (byteLength ends) (text ++ later.toList)
    -- the first rule is no empty text, so the ends of lines before it are the same
    have hbegins : ¬ Begins IsLineEnd (text ++ later.toList) := by
      obtain ⟨line, hne, rfl, -⟩ := hrule.exists_append
      obtain ⟨a, line, rfl⟩ := List.exists_cons_of_ne_nil hne
      simpa using hpart.not_begins
    have hall : Reading (part ++ later) ends (text ++ later.toList) m' :=
      ⟨by rw [String.toList_append, hpart.source_eq, List.append_assoc], hpart.isLineEnds,
        hbegins, hm'⟩
    exact hall.exists_parse_iff.2 (hm'.counted (hm'.nodes_ne_nil hrule') hshort')

/-! ## What is reported of it -/

/-- A source without a tree is refused as a whole, and no other is. -/
theorem parse_eq_none_iff_compile (eol : EolStyle) (source : String) :
    parser.parse source = none ↔ compile eol source = .error ⟨.whole, .unreadable source⟩ := by
  rw [compile, writtenRules]
  cases hparse : parser.parse source with
  | none => simp [Except.map]
  | some parse =>
    obtain ⟨problem, hproblem⟩ | ⟨rules, hrules, -⟩ := (isDocument_of_parse hparse).ofParse_cases
    · simp [hproblem, Except.map]
    · simp [hrules, Except.map]

/-- The first problem of a parse ends the matter. -/
theorem compile_eq_error (eol : EolStyle) {problem : Problem} {later : List Problem}
    (h : parser.parse source = some parse) (hproblems : parse.problems = problem :: later) :
    compile eol source = .error ⟨problem.location, .rejected problem.message⟩ := by
  rw [compile, writtenRules, h]
  simp [ofParse, hproblems, Except.map]

/-- **A parse of a beginning of a source**, read to its end. -/
def ReadsWhole (part : String) : Prop :=
  ∃ parse, parser.parse part = some parse ∧ parse.root.stop = part.utf8ByteSize

/-- **An error that is located**: a source of which `part` was read, with `line` for
what is left of the line that follows. -/
structure IsLocated (source : String) (parse : Parse) (part line later : List Char) : Prop where
  source_eq : source.toList = part ++ (line ++ later)
  stop_eq : parse.root.stop = byteLength part
  inLine : ∀ a ∈ line, ¬ IsLineEnd a
  toLineEnd : later = [] ∨ Begins IsLineEnd later
  /-- What was read is read alike when it stands alone, and nothing is left over, -/
  alone : ∃ alone, parser.parse (String.ofList part) = some alone ∧
    alone.root.children = parse.root.children ∧ alone.root.stop = parse.root.stop ∧
    ∀ position found expected, .unexpectedInput position found expected ∉ alone.problems
  /-- and the error stands on the line that follows, if the ends of that are counted. -/
  place : CountsLine (line ++ later) → ∃ place found expected,
    byteLength part ≤ place ∧ place ≤ byteLength (part ++ line) ∧
    ∀ eol, compile eol source = .error ⟨.point (Position.ofOffset source place), .rejected
      (Problem.unexpectedInput (Position.ofOffset source place) found expected).message⟩

/-- **A tree that ends before its source does is that of what it covers**, and the
error stands on the line behind it. -/
theorem exists_isLocated (h : parser.parse source = some parse)
    (hstop : parse.root.stop < source.utf8ByteSize) :
    ∃ part line later, IsLocated source parse part line later := by
  obtain ⟨ends, text, m, hsource⟩ := exists_reading source
  have hcounted : Matcher.Counted m.nodes.length := hsource.exists_parse_iff.1 ⟨_, h⟩
  obtain ⟨events, ⟨line, later, hrest, hline, hlater, hmisses⟩, hparse⟩ := hsource.parse_eq
  rw [if_pos hcounted] at hparse
  obtain rfl := Option.some.inj (h.symm.trans hparse)
  obtain ⟨part, rfl, hoffset, hpart⟩ := hsource.cut
  have hwhole : source.toList = (ends ++ part) ++ (line ++ later) := by
    rw [hsource.source_eq, hrest, List.append_assoc]
  refine ⟨ends ++ part, line, later, hwhole, hoffset, hline, ?_, ?_, ?_⟩
  · cases later with
    | nil => exact .inl rfl
    | cons a later => exact .inr (by simpa using hlater)
  · obtain ⟨events', -, halone⟩ := hpart.parse_eq
    rw [if_pos hcounted] at halone
    exact ⟨_, halone, rfl, rfl, Parser.unexpectedInput_not_mem_problems rfl⟩
  · intro hnext
    rw [hrest] at hmisses
    have hleft : m.stop.rest ≠ [] := by
      intro hempty
      rw [← byteLength_toList, hsource.source_eq, hempty, List.append_nil] at hstop
      exact Nat.ne_of_lt hstop hoffset
    have hplace : max (events.foldl Progress.note .start).furthest m.stop.offset ≤
        byteLength (ends ++ part ++ line) := by
      rw [byteLength_append (ends ++ part), ← hoffset]
      exact Nat.max_le.2 ⟨(hmisses hnext).furthest_le, Nat.le_add_right _ _⟩
    exact ⟨_, _, _, hoffset ▸ Nat.le_max_right _ _, hplace, fun eol =>
      compile_eq_error eol h (Parser.problems_of_rest_ne_nil hleft)⟩

/-- **The error of a source is located**, whatever the source. There is no tree of it, and it
is refused as a whole, if and only if no beginning of it is read to its end; for the one
direction, with too few ends of lines to fill a counter. If there is a tree that ends before
the source does, then what it covers is read alike when it stands alone, and the error
stands on the line that comes behind, the first that is no part of a rule: if that is an
empty line, or one that is followed by too few ends of lines to fill a counter. -/
theorem isLocated_of_parse (source : String) :
    ((∀ part rest : String, source = part ++ rest → ¬ ReadsWhole part) →
      parser.parse source = none) ∧
    (countEnds source.toList < 2 ^ 32 → parser.parse source = none →
      ∀ part rest : String, source = part ++ rest → ¬ ReadsWhole part) ∧
    (∀ eol, parser.parse source = none ↔
      compile eol source = .error ⟨.whole, .unreadable source⟩) ∧
    ∀ parse, parser.parse source = some parse → parse.root.stop < source.utf8ByteSize →
      ∃ part line later, IsLocated source parse part line later := by
  refine ⟨fun hno => ?_, fun hshort hnone part rest hsource => ?_,
    fun eol => parse_eq_none_iff_compile eol source, fun parse => exists_isLocated⟩
  · obtain ⟨ends, text, m, hsource⟩ := exists_reading source
    refine hsource.parse_eq_none_iff.2 fun hcounted => ?_
    obtain ⟨part, rfl, hoffset, hpart⟩ := hsource.cut
    obtain ⟨events, -, halone⟩ := hpart.parse_eq
    rw [if_pos hcounted] at halone
    refine hno (String.ofList (ends ++ part)) (String.ofList m.stop.rest) ?_ ⟨_, halone, ?_⟩
    · rw [← String.toList_inj, hsource.source_eq]
      simp
    · rw [← byteLength_eq]
      exact hoffset
  · rintro ⟨parse, hparse, -⟩
    obtain ⟨parse', hparse'⟩ := exists_parse_append hparse rest (hsource ▸ hshort)
    rw [← hsource, hnone] at hparse'
    cases hparse'

/-- A rule with a space in a name, behind a good one. -/
def spacedSource : String := "\n<A>::=<A>\n <A A>::=<A>\r\n<B>::=<A>\n"

/-- The error stands at the space, behind the indent that the good rule has taken and
before the third rule, which is a good one again. -/
theorem isLocated_of_parse_spaced :
    ∃ parse, parser.parse spacedSource = some parse ∧ parse.root.stop = 12 ∧
    12 < spacedSource.utf8ByteSize ∧
    parse.problems.map Problem.location = [.point ⟨3, 4⟩] ∧
    ∃ part line later, IsLocated spacedSource parse part line later ∧
      CountsLine (line ++ later) := by
  have hreport : (parser.parse spacedSource).map
      (fun parse => (parse.root.stop, parse.problems.map Problem.location)) =
      some (12, [.point ⟨3, 4⟩]) := by
    decide +kernel
  obtain ⟨parse, hparse, hreport⟩ := Option.map_eq_some_iff.1 hreport
  obtain ⟨hstop, hplace⟩ := Prod.mk.inj hreport
  have hlt : 12 < spacedSource.utf8ByteSize := by decide +kernel
  have hshort : countEnds spacedSource.toList < 2 ^ 32 := by decide +kernel
  obtain ⟨part, line, later, hlocated⟩ :=
    (isLocated_of_parse spacedSource).2.2.2 parse hparse (hstop ▸ hlt)
  rw [hlocated.source_eq, countEnds_append] at hshort
  exact ⟨parse, hparse, hstop, hlt, hplace, part, line, later, hlocated, .inr (by omega)⟩

/-- **With `2 ^ 32` ends of its line a rule is not read**, although it is with one of them. -/
theorem not_isLocated_of_parse :
    ¬ ∀ source : String, parser.parse source = none ↔
      ∀ part rest : String, source = part ++ rest → ¬ ReadsWhole part := by
  intro hall
  have hwhole : ReadsWhole (letterSource 1) := by
    have hstop : (parser.parse (letterSource 1)).map (·.root.stop) =
        some (letterSource 1).utf8ByteSize := by
      decide +kernel
    obtain ⟨parse, hparse, hstop⟩ := Option.map_eq_some_iff.1 hstop
    exact ⟨parse, hparse, hstop⟩
  have hsplit (k : Nat) : letterSource (1 + k) =
      letterSource 1 ++ String.ofList (List.replicate k '\n') := by
    rw [letterSource, letterSource, ← String.ofList_append, ← letterLine_add]
  have hfull : 2 ^ 32 = 1 + (2 ^ 32 - 1) := by decide
  exact (hall _).1 parse_letterSource_full _ _ ((congrArg letterSource hfull).trans (hsplit _))
    hwhole

end Bnf

end OrderedBnf
