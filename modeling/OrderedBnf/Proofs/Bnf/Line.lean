import OrderedBnf.Proofs.Bnf.Document
import OrderedBnf.Proofs.Match.Horizon
import OrderedBnf.Proofs.Match.Layout

/-!
# Rules on their lines, whatever the limit

A rule stands on one line, and nothing in it but its end is made of ends of lines. So
whether a rule is read depends on its line and on there being an end of it, with
whatever levels are left (`ReadsRule`): also where the limit cuts an attempt off, in a
line that would be read otherwise.

What follows the line may therefore be cut off where the rule ends (`ReadsRule.cut`).
So a document is read rule by rule up to a line that is none (`runs_document`).

A line with `2 ^ 32` ends behind it is no rule, as the counter is at zero there. So
that a rule that is read is also read with more behind it (`ReadsRule.extend`), and that
one that is not misses no literal behind its line (`fails_of_not_readsRule`), takes a
text in which the ends of that line can be told from none (`CountsLine`).
-/

namespace OrderedBnf

namespace Bnf

open Goal

/-! ## A rule in two parts -/

/-- What a rule is up to the end of its line, -/
def lineTerms : List Term :=
  [spaces, mark '<' "\"<\"", ref "rule-name", mark '>' "\">\"", spaces, becomes,
    ref "firstExpression", refs "otherExpression" .zeroOrMore, spaces]

/-- and what it is from there on. -/
def endTerms : List Term := [refs "RULE_EOL" .oneOrMore, spaces]

theorem ruleDef_eq : ruleDef = ⟨"rule", [lineTerms ++ endTerms]⟩ := rfl

/-- The names that a rule can come to on its line. -/
def lineNames : List String :=
  ["rule-name", "firstExpression", "otherExpression", "list", "term", "literal", "RULE_CHARACTER",
    "RULE_LETTER", "RULE_DIGIT", "RULE_SYMBOL", "RULE_CHARACTER1", "RULE_ESCAPE1",
    "RULE_CHARACTER2", "RULE_ESCAPE2", "RULE_CHAR"]

/-- On its line a rule speaks of no end of a line, -/
theorem speaksOf_line : grammar.SpeaksOf (fun a => decide (¬ IsLineEnd a)) lineNames := by
  decide +kernel

/-- at the end of its line of nothing else, -/
theorem speaksOf_lineEnd : grammar.SpeaksOf (fun a => decide (IsLineEnd a)) ["RULE_EOL"] := by
  decide +kernel

/-- and then of spaces alone. -/
theorem speaksOf_space : grammar.SpeaksOf (fun a => decide (a = ' ')) [] := by
  decide +kernel

theorem belongsTo_term {d : Definition} {name : String} {t : Term}
    (hd : grammar.find? name = some d) (ht : t ∈ d.terms) : (term t).BelongsTo grammar := by
  rintro u hu
  obtain rfl := List.mem_singleton.1 hu
  exact ⟨d, (Grammar.find?_eq_some_iff.1 hd).mem, ht⟩

variable {n offset : Nat} {text part line ends indent rest later : List Char} {nodes : List Node}
variable {events : List Event} {t : Term} {node : Node}

/-! ## The end of a line -/

/-- **The end of a line is read** with all ends that follow and the indent of what comes
next. -/
theorem runs_end (offset : Nat) (hn : 1 ≤ n) (hends : IsLineEnds ends)
    (hcounted : Matcher.Counted ends.length) (hindent : IsSpaces indent)
    (hend : ¬ Begins IsLineEnd (indent ++ rest))
    (hspace : ¬ Begins (· = ' ') rest) :
    ∃ events, Runs grammar n (sequence endTerms) ⟨offset, ends ++ (indent ++ rest)⟩
        (some ⟨⟨offset + byteLength (ends ++ indent), rest⟩, []⟩) events ∧
      MissesUpTo (offset + byteLength (ends ++ indent)) events := by
  have htakes : Takes grammar (term (refs "RULE_EOL" .oneOrMore)) ⟨offset, ends⟩ [] [] 1 :=
    (reads_lineEnd rfl).oneOrMore rfl hcounted (List.append_nil ends).symm hends begins_nil
  have hspaces : Takes grammar (term spaces) ⟨offset + byteLength ends, indent⟩ [] [] 0 :=
    takes_spaces (List.append_nil indent).symm hindent begins_nil
  obtain ⟨first, hfirst, hmisses⟩ := htakes.exists_runs hn (belongsTo_term find_rule (by decide))
    speaksOf_lineEnd (by decide) (indent ++ rest) (by simpa using hend)
  obtain ⟨events, hevents, hmisses'⟩ := hspaces.exists_runs (Nat.zero_le n)
    (belongsTo_term find_rule (by decide)) speaksOf_space (by decide) rest (by simpa using hspace)
  have hboth := hfirst.cons (hevents.cons .nil)
  rw [byteLength_append, ← Nat.add_assoc]
  exact ⟨_, hboth, hmisses.append (hmisses'.append (fun _ _ h => nomatch h) (Nat.le_refl _))
    (Nat.le_add_right _ _)⟩

/-- Where the ends cannot be told from none the attempt fails, and misses nothing behind
them. -/
theorem runs_end_none (hn : 1 ≤ n) (hends : IsLineEnds ends)
    (hcounted : ¬ Matcher.Counted ends.length) (hrest : ¬ Begins IsLineEnd rest) :
    ∃ events, Runs grammar n (sequence endTerms) ⟨offset, ends ++ rest⟩ none events ∧
      MissesUpTo (offset + byteLength ends) events := by
  have hnone : Settles grammar (term (refs "RULE_EOL" .oneOrMore)) ⟨offset, ends⟩ none 1 :=
    (reads_lineEnd rfl).oneOrMore_none rfl hcounted (List.append_nil ends).symm hends begins_nil
  obtain ⟨events, hevents⟩ := hnone.exists_runs hn
  have hextend := hevents.extend speaksOf_lineEnd (by decide) rest (by simpa using hrest)
  exact ⟨events, hextend.consFirst, hevents.missesUpTo (belongsTo_term find_rule (by decide))⟩

/-- No line begins with anything but a space or a bracket. -/
theorem settles_lineTerms_none (hspace : ¬ Begins (· = ' ') line)
    (hopen : ¬ Begins (· = '<') line) :
    Settles grammar (sequence lineTerms) ⟨offset, line⟩ none (max 0 0) := by
  obtain ⟨s, hs, hspaces⟩ := takes_spaces (c := ⟨offset, line⟩) (List.nil_append line).symm
    isSpaces_nil hspace
  have hnone := settles_mark_none (c := s) "\"<\"" (by rw [hs]; exact hopen)
  exact hspaces.sequence_some hnone.sequence_none

/-- A line that is read is not empty. -/
theorem ne_nil_of_runs_lineTerms {m : Match}
    (h : Runs grammar n (sequence lineTerms) ⟨offset, line⟩ (some m) events) : line ≠ [] := by
  rintro rfl
  have hfails : Settles grammar (sequence lineTerms) ⟨offset, []⟩ none (max 0 0) :=
    settles_lineTerms_none begins_nil begins_nil
  obtain ⟨events', hnone⟩ := hfails.exists_runs (Nat.zero_le n)
  cases (h.unique hnone).1

/-! ## Rules -/

/-- **A rule that is read** from an offset on, when `n` rules may be under way below it:
its line is read to the end, and there is an end of it, as the counter tells. It leaves
`rest`. -/
inductive ReadsRule (n offset : Nat) : List Char → List Char → Node → Prop
  | line {line ends indent rest : List Char} {nodes : List Node} {events : List Event} :
      Runs grammar n (sequence lineTerms) ⟨offset, line⟩
        (some ⟨⟨offset + byteLength line, []⟩, nodes⟩) events →
      IsLineEnds ends → Matcher.Counted ends.length → IsSpaces indent →
      ¬ Begins IsLineEnd (indent ++ rest) → ¬ Begins (· = ' ') rest →
      ReadsRule n offset (line ++ (ends ++ (indent ++ rest))) rest
        ⟨"rule", String.ofList (line ++ (ends ++ indent)), offset,
          offset + byteLength (line ++ (ends ++ indent)), nodes, []⟩

theorem lineTerms_speaksOf : ∀ t ∈ (sequence lineTerms).terms,
    t.speaksOf (fun a => decide (¬ IsLineEnd a)) lineNames = true := by
  decide

theorem lineTerms_belongsTo : (sequence lineTerms).BelongsTo grammar := by
  intro t ht
  have hmem : t ∈ lineTerms ++ endTerms := List.mem_append_left endTerms ht
  exact belongsTo_term find_rule (by simpa [ruleDef_eq, Definition.terms] using hmem) t
    (List.mem_singleton_self t)

/-- The run of a rule, from that of its terms. -/
theorem runs_rule {o : Option Match} (ht : t.symbol = .reference "rule")
    (h : Runs grammar n (sequence (lineTerms ++ endTerms)) ⟨offset, text⟩ o events) {bound : Nat}
    (hmisses : MissesUpTo bound events) :
    ∃ events, Runs grammar (n + 1) (symbol t) ⟨offset, text⟩
        (o.map fun m => m.wrap ruleDef ⟨offset, text⟩) events ∧ MissesUpTo bound events := by
  cases o with
  | none =>
    have hchoice : Runs grammar n (choice ruleDef.alternatives) ⟨offset, text⟩ none
        (events ++ []) :=
      h.later .noChoice
    rw [List.append_nil] at hchoice
    exact ⟨_, .reference ht find_rule hchoice.body.noRule, hmisses.body⟩
  | some m =>
    have hchoice : Runs grammar n (choice ruleDef.alternatives) ⟨offset, text⟩ (some m) events :=
      h.first
    exact ⟨_, .reference ht find_rule hchoice.body.rule, hmisses.body⟩

/-- The node of a rule. -/
theorem wrap_rule (offset : Nat) (text rest : List Char) (nodes : List Node) :
    Match.wrap ruleDef ⟨offset, text ++ rest⟩ ⟨⟨offset + byteLength text, rest⟩, nodes⟩ =
      ⟨⟨offset + byteLength text, rest⟩,
        [⟨"rule", String.ofList text, offset, offset + byteLength text, nodes, []⟩]⟩ :=
  wrap_of_not_fragment (by decide) rfl rfl

/-- **A rule that is read runs to its end**, and misses nothing behind. -/
theorem ReadsRule.runs (h : ReadsRule n offset text rest node) (hn : 1 ≤ n)
    (ht : t.symbol = .reference "rule") :
    ∃ events, Runs grammar (n + 1) (symbol t) ⟨offset, text⟩
        (some ⟨⟨node.stop, rest⟩, [node]⟩) events ∧ MissesUpTo node.stop events := by
  cases h with
  | @line line ends indent rest nodes first hline hends hcounted hindent hend hspace =>
    have hbegins : Begins IsLineEnd (ends ++ (indent ++ rest)) :=
      begins_of_lineEnds hends (ne_nil_of_counted hcounted)
    have hfirst := hline.extend speaksOf_line lineTerms_speaksOf (ends ++ (indent ++ rest))
      (not_begins_of_lineEnd (fun _ h => of_decide_eq_true h) hbegins)
    obtain ⟨events, hevents, hmisses⟩ :=
      runs_end (offset + byteLength line) hn hends hcounted hindent hend hspace
    have hall := hfirst.sequence_append_some hevents
    have hbound := (hline.missesUpTo lineTerms_belongsTo).append hmisses (Nat.le_add_right _ _)
    obtain ⟨events', hruns, hmisses'⟩ := runs_rule ht hall hbound
    have htext : line ++ (ends ++ (indent ++ rest)) = line ++ (ends ++ indent) ++ rest := by simp
    have hbytes : offset + byteLength line + byteLength (ends ++ indent) =
        offset + byteLength (line ++ (ends ++ indent)) := by
      rw [byteLength_append line, Nat.add_assoc]
    rw [htext, hbytes, Option.map_some, Option.map_some] at hruns
    rw [hbytes] at hmisses'
    refine ⟨events', ?_, hmisses'⟩
    rw [htext]
    simpa only [Match.extend, List.append_nil, wrap_rule] using hruns

/-- What is read comes next and is no empty text, -/
theorem ReadsRule.exists_append (h : ReadsRule n offset text rest node) :
    ∃ part, part ≠ [] ∧ text = part ++ rest ∧ node.stop = offset + byteLength part := by
  cases h with
  | @line line ends indent _ _ _ _ _ hcounted =>
    exact ⟨line ++ (ends ++ indent), by simp [ne_nil_of_counted hcounted], by simp, rfl⟩

theorem ReadsRule.countEnds_lt (h : ReadsRule n offset text rest node) :
    countEnds rest < countEnds text := by
  cases h with
  | line _ hends hcounted =>
    have hpos := List.length_pos_iff.2 (ne_nil_of_counted hcounted)
    simp only [countEnds_append, hends.countEnds_eq]
    omega

theorem ReadsRule.lt_stop (h : ReadsRule n offset text rest node) : offset < node.stop := by
  obtain ⟨part, hne, -, hstop⟩ := h.exists_append
  have hbytes : byteLength part ≠ 0 := fun h => hne (byteLength_eq_zero_iff.1 h)
  omega

theorem not_readsRule_nil (rest : List Char) (node : Node) : ¬ ReadsRule n offset [] rest node := by
  intro h
  obtain ⟨part, hne, htext, -⟩ := h.exists_append
  exact hne (List.append_eq_nil_iff.1 htext.symm).1

/-- and it does not matter what comes behind. -/
theorem ReadsRule.cut (h : ReadsRule n offset (part ++ later) (rest ++ later) node) :
    ReadsRule n offset part rest node := by
  generalize htext : part ++ later = text at h
  generalize hleft : rest ++ later = left at h
  cases h with
  | @line line ends indent _ _ _ hline hends hcounted hindent hend hspace =>
    subst hleft
    obtain rfl : part = line ++ (ends ++ (indent ++ rest)) :=
      List.append_cancel_right (htext.trans (by simp))
    refine .line hline hends hcounted hindent (fun h => hend ?_) fun h => hspace h.append
    rw [← List.append_assoc]
    exact h.append

/-- No rule begins with the end of a line. -/
theorem not_readsRule_of_lineEnd (h : Begins IsLineEnd text) :
    ¬ ReadsRule n offset text rest node := by
  intro hrule
  cases hrule with
  | @line line ends indent _ nodes events hline =>
    have hnone : ∀ a, ¬ IsLineEnd a → ¬ Begins (· = a) line := by
      rintro a ha ⟨_, line, rfl, rfl⟩
      exact ha (begins_cons.1 h)
    have hfails : Settles grammar (sequence lineTerms) ⟨offset, line⟩ none (max 0 0) :=
      settles_lineTerms_none (hnone ' ' (by decide)) (hnone '<' (by decide))
    obtain ⟨events', hnone⟩ := hfails.exists_runs (Nat.zero_le n)
    cases (hline.unique hnone).1

/-- A line that is read makes a rule if its ends are told from none. -/
theorem exists_readsRule (h : Runs grammar n (sequence lineTerms) ⟨offset, line⟩
    (some ⟨⟨offset + byteLength line, []⟩, nodes⟩) events) (hends : IsLineEnds ends)
    (hcounted : Matcher.Counted ends.length) (hend : ¬ Begins IsLineEnd later) :
    ∃ rest node, ReadsRule n offset (line ++ (ends ++ later)) rest node := by
  obtain ⟨indent, rest, rfl, hindent, hspace⟩ := exists_longest (· = ' ') later
  exact ⟨rest, _, .line h hends hcounted hindent hend hspace⟩

/-- So a rule is read also where there is more behind it. -/
theorem ReadsRule.extend (h : ReadsRule n offset part rest node) (later : List Char)
    (hshort : countEnds (part ++ later) < 2 ^ 32) :
    ∃ rest node, ReadsRule n offset (part ++ later) rest node := by
  cases h with
  | @line line ends indent rest _ _ hline hends hcounted =>
    obtain ⟨ends', later', hlater, hends', hend⟩ :=
      exists_longest IsLineEnd (indent ++ (rest ++ later))
    have hall : IsLineEnds (ends ++ ends') := List.forall_mem_append.2 ⟨hends, hends'⟩
    have hne : ends ≠ [] := ne_nil_of_counted hcounted
    have htext : line ++ (ends ++ (indent ++ rest)) ++ later =
        line ++ ((ends ++ ends') ++ later') := by
      simp only [List.append_assoc, hlater]
    rw [htext, countEnds_append, countEnds_append, IsLineEnds.countEnds_eq hall] at hshort
    rw [htext]
    exact exists_readsRule hline hall
      (Matcher.counted_of_lt (mt List.length_eq_zero_iff.1 (by simp [hne])) (by omega)) hend

/-! ## Lines that are no rules -/

/-- **The ends of the line that comes next are told from none**, if the line is not empty:
there are too few of them to fill the counter. -/
def CountsLine (text : List Char) : Prop := Begins IsLineEnd text ∨ countEnds text < 2 ^ 32

theorem CountsLine.ends_eq_nil (h : CountsLine (line ++ (ends ++ rest))) (hne : line ≠ [])
    (hline : ∀ a ∈ line, ¬ IsLineEnd a) (hends : IsLineEnds ends)
    (hcounted : ¬ Matcher.Counted ends.length) : ends = [] := by
  by_contra hends'
  rcases h with hbegins | hshort
  · obtain ⟨a, line, rfl⟩ := List.exists_cons_of_ne_nil hne
    exact hline a (by simp) (begins_cons.1 hbegins)
  · rw [countEnds_append, countEnds_append, hends.countEnds_eq] at hshort
    exact hcounted (Matcher.counted_of_lt (mt List.length_eq_zero_iff.1 hends') (by omega))

/-- No literal is missed behind the line that comes next, if its ends are counted. -/
def MissesInLine (c : Cursor) (events : List Event) : Prop :=
  ∃ line later, c.rest = line ++ later ∧ (∀ a ∈ line, ¬ IsLineEnd a) ∧
    ¬ Begins (fun a => ¬ IsLineEnd a) later ∧
    (CountsLine c.rest → MissesUpTo (c.offset + byteLength line) events)

theorem MissesInLine.prepend {c : Cursor} {bound : Nat} {first : List Event}
    (h : MissesInLine c events) (hfirst : MissesUpTo bound first) (hle : bound ≤ c.offset) :
    MissesInLine c (first ++ events) := by
  obtain ⟨line, later, hrest, hline, hlater, hmisses⟩ := h
  exact ⟨line, later, hrest, hline, hlater, fun hnext =>
    hfirst.append (hmisses hnext) (Nat.le_trans hle (Nat.le_add_right _ _))⟩

theorem MissesInLine.body {c : Cursor} {name : String} {place : Nat} (h : MissesInLine c events) :
    MissesInLine c (.enter name place :: events ++ [.leave]) := by
  obtain ⟨line, later, hrest, hline, hlater, hmisses⟩ := h
  exact ⟨line, later, hrest, hline, hlater, fun hnext => (hmisses hnext).body⟩

/-- **A rule that is not read fails on its line**, with all that it attempts. -/
theorem fails_of_not_readsRule (hn : 1 ≤ n) (ht : t.symbol = .reference "rule")
    (h : ∀ rest node, ¬ ReadsRule n offset text rest node) :
    ∃ events, Runs grammar (n + 1) (symbol t) ⟨offset, text⟩ none events ∧
      MissesInLine ⟨offset, text⟩ events := by
  obtain ⟨line, later, rfl, hline, hlater⟩ := exists_longest (fun a => ¬ IsLineEnd a) text
  obtain ⟨o, first, hfirst⟩ := exists_runs grammar n (sequence lineTerms) ⟨offset, line⟩
  have hmisses := hfirst.missesUpTo lineTerms_belongsTo
  have hextend := hfirst.extend speaksOf_line lineTerms_speaksOf later (by simpa using hlater)
  cases o with
  | none =>
    obtain ⟨events, hevents, hbound⟩ := runs_rule ht hextend.sequence_append_none hmisses
    exact ⟨events, hevents, line, later, rfl, hline, hlater, fun _ => hbound⟩
  | some m =>
    obtain ⟨⟨stop, left⟩, nodes⟩ := m
    obtain ⟨taken, htaken, hstop⟩ := hfirst.reaches
    obtain rfl : line = taken ++ left := htaken
    obtain rfl : stop = offset + byteLength taken := hstop
    obtain ⟨ends, rest, hsplit, hends, hend⟩ := exists_longest IsLineEnd (left ++ later)
    -- what is left of the line is no end of one, so there is none unless nothing is left
    have hleft (hne : ends ≠ []) : left = [] := by
      cases left with
      | nil => rfl
      | cons a left =>
        have hbegins : Begins IsLineEnd (ends ++ rest) := begins_of_lineEnds hends hne
        rw [← hsplit] at hbegins
        exact absurd (begins_cons.1 hbegins) (hline a (by simp))
    have hcounted : ¬ Matcher.Counted ends.length := by
      intro hcounted
      obtain rfl := hleft (ne_nil_of_counted hcounted)
      obtain rfl : later = ends ++ rest := hsplit
      rw [List.append_nil] at hfirst h
      obtain ⟨_, _, hrule⟩ := exists_readsRule hfirst hends hcounted hend
      exact h _ _ hrule
    obtain ⟨second, hsecond, hmisses'⟩ := runs_end_none hn hends hcounted hend
    rw [← hsplit] at hsecond
    have hle : offset + byteLength taken + byteLength ends ≤
        offset + byteLength (taken ++ left) + byteLength ends := by
      rw [byteLength_append]
      omega
    obtain ⟨events, hevents, hbound⟩ := runs_rule ht (hextend.sequence_append_some hsecond)
      (hmisses.append (hmisses'.mono hle) (Nat.le_add_right _ _))
    refine ⟨events, hevents, taken ++ left, later, rfl, hline, hlater, fun hnext => ?_⟩
    -- the ends cannot be told from none, so where they are counted there are none
    have hnone : ends = [] := by
      by_contra hne
      obtain rfl := hleft hne
      obtain rfl : later = ends ++ rest := hsplit
      rw [List.append_nil] at hfirst hline hnext
      exact hne (hnext.ends_eq_nil (ne_nil_of_runs_lineTerms hfirst) hline hends hcounted)
    simpa [hnone, byteLength] using hbound

/-! ## Rules one after another -/

/-- **Rules that are read** from an offset on, up to where none is. -/
inductive ReadsRules (n : Nat) : Nat → List Char → Match → Prop
  | stop {offset : Nat} {text : List Char} :
      (∀ rest node, ¬ ReadsRule n offset text rest node) →
      ReadsRules n offset text ⟨⟨offset, text⟩, []⟩
  | more {offset : Nat} {text rest : List Char} {node : Node} {m : Match} :
      ReadsRule n offset text rest node → ReadsRules n node.stop rest m →
      ReadsRules n offset text ⟨m.stop, node :: m.nodes⟩

variable {m : Match}

/-- Every text has its rules. -/
theorem exists_readsRules (n offset : Nat) (text : List Char) :
    ∃ m, ReadsRules n offset text m := by
  -- a rule leaves less than it found
  induction hlength : text.length using Nat.strongRecOn generalizing offset text with
  | ind length ih =>
    by_cases h : ∃ rest node, ReadsRule n offset text rest node
    · obtain ⟨rest, node, h⟩ := h
      have hlt : rest.length < length := by
        obtain ⟨part, hne, rfl, -⟩ := h.exists_append
        have := List.length_pos_iff.2 hne
        rw [List.length_append] at hlength
        omega
      obtain ⟨m, hm⟩ := ih _ hlt node.stop rest rfl
      exact ⟨_, .more h hm⟩
    · exact ⟨_, .stop fun rest node hrule => h ⟨rest, node, hrule⟩⟩

/-- The rules that are read are those of the text without what is left over. -/
theorem ReadsRules.cut (h : ReadsRules n offset text m) :
    ∃ part, text = part ++ m.stop.rest ∧ m.stop.offset = offset + byteLength part ∧
      ReadsRules n offset part ⟨⟨m.stop.offset, []⟩, m.nodes⟩ := by
  induction h with
  | stop => exact ⟨[], rfl, rfl, .stop not_readsRule_nil⟩
  | @more offset text _ node m hrule _ ih =>
    obtain ⟨part, rfl, hstop, hpart⟩ := ih
    obtain ⟨line, -, rfl, hnode⟩ := hrule.exists_append
    rw [← List.append_assoc] at hrule
    refine ⟨line ++ part, (List.append_assoc ..).symm, ?_, .more hrule.cut hpart⟩
    rw [hstop, hnode, byteLength_append, Nat.add_assoc]

/-- There are no more rules than ends of lines. -/
theorem ReadsRules.length_le (h : ReadsRules n offset text m) :
    m.nodes.length ≤ countEnds text := by
  induction h with
  | stop => exact Nat.zero_le _
  | more hrule _ ih => exact Nat.lt_of_le_of_lt ih hrule.countEnds_lt

theorem ReadsRules.offset_le (h : ReadsRules n offset text m) : offset ≤ m.stop.offset := by
  obtain ⟨part, -, hstop, -⟩ := h.cut
  exact hstop ▸ Nat.le_add_right _ _

/-- **The rules are read as a repetition**, one iteration each, which fails behind them on
one line. -/
theorem ReadsRules.runs (h : ReadsRules n offset text m) (hn : 1 ≤ n)
    (ht : t.symbol = .reference "rule") (count : Option Nat) :
    ∃ events, Runs grammar (n + 1) (loop t count) ⟨offset, text⟩
        (Matcher.verdict (count.map (· + m.nodes.length)) m) events ∧
      MissesInLine m.stop events := by
  induction h generalizing count with
  | stop h =>
    obtain ⟨events, hevents, hmisses⟩ := fails_of_not_readsRule hn ht h
    refine ⟨events, ?_, hmisses⟩
    simpa using (hevents.loopStop : Runs grammar _ (loop t count) _ _ _)
  | @more offset text rest node m hrule hrules ih =>
    obtain ⟨first, hfirst, hbound⟩ := hrule.runs hn ht
    obtain ⟨events, hevents, hmisses⟩ := ih (count.map (· + 1))
    have hmoved := Nat.ne_of_gt hrule.lt_stop
    have hall := hfirst.loopMore (fun heq => hmoved (congrArg Cursor.offset heq)) hevents
    rw [Matcher.map_verdict, Option.map_map] at hall
    refine ⟨_, ?_, hmisses.prepend hbound hrules.offset_le⟩
    simpa [Function.comp_def, Nat.add_assoc, Nat.add_comm 1] using hall

/-- If there are any, and not too many ends of lines, then the counter tells so. -/
theorem ReadsRules.counted (h : ReadsRules n offset text m) (hne : m.nodes ≠ [])
    (hshort : countEnds text < 2 ^ 32) : Matcher.Counted m.nodes.length :=
  Matcher.counted_of_lt (mt List.length_eq_zero_iff.1 hne) (Nat.lt_of_le_of_lt h.length_le hshort)

/-- They have to be told from none. -/
theorem ReadsRules.runs_oneOrMore (h : ReadsRules n offset text m) (hn : 1 ≤ n)
    (ht : t.symbol = .reference "rule") (hr : t.repetition = .oneOrMore) :
    ∃ events, Runs grammar (n + 1) (term t) ⟨offset, text⟩
        (if Matcher.Counted m.nodes.length then some m else none) events ∧
      MissesInLine m.stop events := by
  obtain ⟨events, hevents, hmisses⟩ := h.runs hn ht (some 0)
  refine ⟨events, ?_, hmisses⟩
  simpa [Matcher.verdict] using Runs.oneOrMore hr hevents

/-! ## Documents -/

/-- **A document is what its rules are**, behind the ends of lines that come before
them, if there are any. -/
theorem runs_document (hn : 1 ≤ n) (hends : IsLineEnds ends) (htext : ¬ Begins IsLineEnd text)
    (h : ReadsRules n (byteLength ends) text m) :
    ∃ events, Runs grammar (n + 2) (body syntaxDef) (Cursor.start (ends ++ text))
        (if Matcher.Counted m.nodes.length then some m else none) events ∧
      MissesInLine m.stop events := by
  have htakes : Takes grammar (term (refs "RULE_EOL" .zeroOrMore)) ⟨0, ends⟩ [] [] 1 :=
    (reads_lineEnd rfl).zeroOrMore rfl (List.append_nil ends).symm hends begins_nil
  obtain ⟨first, hfirst, hbound⟩ := htakes.exists_runs (show 1 ≤ n + 1 by omega)
    (belongsTo_term find_syntax (by decide)) speaksOf_lineEnd (by decide) text
    (by simpa using htext)
  rw [Nat.zero_add] at hfirst hbound
  obtain ⟨second, hsecond, hmisses⟩ :=
    h.runs_oneOrMore (t := refs "rule" .oneOrMore) hn rfl rfl
  have hall := hmisses.prepend hbound h.offset_le
  by_cases hcounted : Matcher.Counted m.nodes.length
  · rw [if_pos hcounted] at hsecond ⊢
    have hbody := (hfirst.cons (hsecond.cons .nil)).first.body (d := syntaxDef)
    simp only [List.append_nil, List.nil_append] at hbody
    exact ⟨_, hbody, hall.body⟩
  · rw [if_neg hcounted] at hsecond ⊢
    have hbody := ((hfirst.consLater hsecond.consFirst).later .noChoice).body (d := syntaxDef)
    rw [List.append_nil] at hbody
    exact ⟨_, hbody, hall.body⟩

end Bnf

end OrderedBnf
