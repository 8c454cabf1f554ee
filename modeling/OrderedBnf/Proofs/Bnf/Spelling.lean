import OrderedBnf.Proofs.Bnf.Decoding
import OrderedBnf.Proofs.Bnf.RoundTrip
import OrderedBnf.Proofs.Text.Slice

/-!
# Spelling texts as literals

Any text of printable characters, tabs and ends of lines can be spelled as a literal, between
quotes of either kind (`spelling`). The reader of documents takes the spelling for one term,
whatever the text looks like, `unescape` gives the text back, and the rule that consists of
this literal matches what begins with the text and nothing else
(`buildParser_spelling`).
-/

namespace OrderedBnf

open Goal

namespace Parser

variable {p : Parser} {start text : String} {d : Definition} {m : Match} {needed : Nat}

/-- A rule that settles within the limit decides the parse: there is a tree that ends where
the match does, and no problem but that text is left over. -/
theorem exists_parse_of_settles (hd : p.grammar.find? start = some d)
    (h : Settles p.grammar (body d) (Cursor.start text.toList) (some m) needed)
    (hle : needed ≤ p.options.maxDepth) :
    ∃ parse, p.parseFrom text start = some parse ∧ parse.root.stop = m.stop.offset ∧
      (parse.problems = [] ↔ m.stop.rest = []) := by
  obtain ⟨hquiet, hout⟩ := h p.options.maxDepth Progress.start rfl
  rcases hrun : p.run text.toList d with ⟨o, progress⟩
  change ((p.run text.toList d).2.tooDeep = false ↔ _) at hquiet
  change _ → (p.run text.toList d).1 = _ at hout
  rw [hrun] at hquiet hout
  obtain rfl : o = some m := hout hle
  refine ⟨finish p.options.maxDepth text.toList d m progress, ?_, rfl, ?_⟩
  · simp [parseFrom, hd, parseDefinition, hrun]
  · have hnone : problems p.options.maxDepth text.toList m.stop progress = [] ↔ _ :=
      Bnf.problems_eq_nil_iff
    exact hnone.trans (and_iff_left (hquiet.2 hle))

/-- And where it fails, there is none. -/
theorem parseFrom_eq_none_of_settles (hd : p.grammar.find? start = some d)
    (h : Settles p.grammar (body d) (Cursor.start text.toList) none needed)
    (hle : needed ≤ p.options.maxDepth) : p.parseFrom text start = none := by
  obtain ⟨-, hout⟩ := h p.options.maxDepth Progress.start rfl
  rcases hrun : p.run text.toList d with ⟨o, progress⟩
  change _ → (p.run text.toList d).1 = _ at hout
  rw [hrun] at hout
  obtain rfl : o = none := hout hle
  simp [parseFrom, hd, parseDefinition, hrun]

end Parser

namespace Bnf

/-! ## Spelling -/

/-- The characters that can be spelled in a literal. -/
def IsSpellable (a : Char) : Prop := IsPrintable a ∨ a = '\r' ∨ a = '\n' ∨ a = '\t'

instance : DecidablePred IsSpellable := fun _ => inferInstanceAs (Decidable (_ ∨ _))

/-- How a character is spelled between quotes `q`. -/
def spellChar (q a : Char) : List Char :=
  if a = '\\' ∨ a = q then ['\\', a]
  else if a = '\r' then ['\\', 'r']
  else if a = '\n' then ['\\', 'n']
  else if a = '\t' then ['\\', 't']
  else [a]

/-- **A text as a literal** between quotes `q`. -/
def spelling (q : Char) (s : String) : String :=
  String.ofList (q :: (s.toList.flatMap (spellChar q) ++ [q]))

variable {q a : Char} {text rest : List Char} {s : String}

theorem ne_of_isQuote (hq : isQuote q = true) (ha : isQuote a = false) : a ≠ q := by
  rintro rfl
  rw [hq] at ha
  cases ha

/-- A spelled character can stand in a body, -/
theorem IsBody.spellChar_append (hq : isQuote q = true) (ha : IsSpellable a)
    (h : IsBody q rest) : IsBody q (spellChar q a ++ rest) := by
  -- a letter behind a backslash is no escape to the reader
  have hletter : ∀ l, isQuote l = false → l ≠ '\\' → IsPrintable l →
      IsBody q ('\\' :: l :: rest) := by
    intro l hl hback hprint
    have hquote := ne_of_isQuote hq hl
    exact .backslash hback hquote (.plain hprint hback hquote h)
  unfold spellChar
  split
  · rename_i hescape
    exact .escape hescape h
  · rename_i hescape
    obtain ⟨hback, hquote⟩ := not_or.1 hescape
    split
    · exact hletter 'r' rfl (by decide) (by decide)
    split
    · exact hletter 'n' rfl (by decide) (by decide)
    split
    · exact hletter 't' rfl (by decide) (by decide)
    · rename_i hr hn ht
      have hprint : IsPrintable a := by simpa [IsSpellable, hr, hn, ht] using ha
      exact .plain hprint hback hquote h

/-- and is decoded to the character, whatever it is. -/
theorem unescape_spellChar_append (hq : isQuote q = true) :
    unescape (spellChar q a ++ rest) = a :: unescape rest := by
  unfold spellChar
  split
  · rename_i hescape
    have ha : escaped a = a := by
      rcases hescape with rfl | rfl
      · rfl
      · exact (escaped_eq_iff hq).2 rfl
    change escaped a :: unescape rest = _
    rw [ha]
  · rename_i hescape
    obtain ⟨hback, -⟩ := not_or.1 hescape
    split
    · rename_i hr
      rw [hr]
      rfl
    split
    · rename_i hn
      rw [hn]
      rfl
    split
    · rename_i ht
      rw [ht]
      rfl
    · simp [unescape, hback]

theorem isBody_spelling (hq : isQuote q = true) (h : ∀ a ∈ text, IsSpellable a) :
    IsBody q (text.flatMap (spellChar q)) := by
  induction text with
  | nil => exact .nil
  | cons a text ih =>
    obtain ⟨ha, htext⟩ := List.forall_mem_cons.1 h
    exact (ih htext).spellChar_append hq ha

/-- **A spelled text is decoded to the text.** -/
theorem unescape_spelling (hq : isQuote q = true) (text : List Char) :
    unescape (text.flatMap (spellChar q)) = text := by
  induction text with
  | nil => rfl
  | cons a text ih => rw [List.flatMap_cons, unescape_spellChar_append hq, ih]

/-- The term of a spelling is the text, once. -/
theorem ofSource_spelling (hq : isQuote q = true) (s : String) :
    Term.ofSource (spelling q s) = ⟨.literal s.toList, .once, spelling q s⟩ := by
  have hliteral : isLiteral (q :: (s.toList.flatMap (spellChar q) ++ [q])) = true := by
    simp [isLiteral, hq]
  rw [spelling, Term.ofSource_of_isLiteral hliteral, List.tail_cons, List.dropLast_concat,
    unescape_spelling hq]

/-! ## A rule of one literal -/

/-- The table with a rule `a` that is the literal of a text. -/
def spellingTable (q : Char) (s : String) : List Rule := [⟨"a", [[spelling q s]]⟩]

theorem isPlainTable_spellingTable (hq : isQuote q = true) (h : ∀ a ∈ s.toList, IsSpellable a) :
    IsPlainTable (spellingTable q s) := by
  have hliteral : IsLiteral (spelling q s).toList :=
    ⟨q, _, hq, isBody_spelling hq h, String.toList_ofList⟩
  have hname : IsName "a".toList := by decide
  refine ⟨List.cons_ne_nil _ _, ?_⟩
  intro rule hrule
  obtain rfl := List.mem_singleton.1 hrule
  refine ⟨hname, List.cons_ne_nil _ _, ?_, ?_⟩
  · intro terms hterms
    obtain rfl := List.mem_singleton.1 hterms
    exact List.cons_ne_nil _ _
  · intro terms hterms term hterm
    obtain rfl := List.mem_singleton.1 hterms
    obtain rfl := List.mem_singleton.1 hterm
    exact .inl hliteral

/-- A term that stands first is within the depth. -/
theorem withinDepth_spellingTable : WithinDepth (spellingTable q s) := by
  intro rule hrule terms hterms i term hterm
  obtain rfl := List.mem_singleton.1 hrule
  obtain rfl := List.mem_singleton.1 hterms
  have hi : i < 1 := (List.getElem?_eq_some_iff.1 hterm).1
  have hplace : 992 ≤ lastPlace term := by
    unfold lastPlace
    split <;> omega
  omega

theorem showTable_spellingTable (hq : isQuote q = true) :
    Rule.showTable (spellingTable q s) = "<a> ::= " ++ spelling q s ++ "\n" := by
  have hterm : Rule.showTerm (spelling q s) = spelling q s := by
    rw [Rule.showTerm, ofSource_spelling hq]
  simp [spellingTable, Rule.showTable, Rule.toString, Rule.showAlternative, hterm]

/-- **What a parse that takes one text and nothing else is like**: there is a tree if and
only if the text comes first, the tree ends with it, and nothing is reported if and only if
there is no more. -/
def TakesExactly (s : String) (parse : String → Option Parse) : Prop :=
  ∀ text, ((∃ result, parse text = some result) ↔ s.toList <+: text.toList) ∧
    ∀ result, parse text = some result →
      result.root.stop = s.utf8ByteSize ∧ (result.problems = [] ↔ text = s)

variable {g : Grammar} {c : Cursor} {d : Definition} {t : Term}

/-- A rule that is one literal takes its text, -/
theorem settles_body_literal (hd : d.alternatives = [[t]]) (ht : t.symbol = .literal text)
    (hr : t.repetition = .once) (hc : c.rest = text ++ rest) :
    Settles g (body d) c (some ⟨⟨c.offset + byteLength text, rest⟩, []⟩) 1 := by
  obtain ⟨offset, _⟩ := c
  obtain rfl := hc
  have hsymbol : Settles g (symbol t) ⟨offset, text ++ rest⟩
      (some ⟨⟨offset + byteLength text, rest⟩, []⟩) 0 := .literal ht
  have hchoice : Settles g (choice [[t]]) _ _ 0 := (hsymbol.once hr).sequence_one.choice_some
  rw [← hd] at hchoice
  exact hchoice.body

/-- and fails where that does not come next. -/
theorem settles_body_literal_none (hd : d.alternatives = [[t]]) (ht : t.symbol = .literal text)
    (hr : t.repetition = .once) (hc : ¬ text <+: c.rest) : Settles g (body d) c none 1 := by
  have hsymbol : Settles g (symbol t) c none 0 := .literal_none ht hc
  have hchoice := (hsymbol.once hr).sequence_one.choice_none .choice_nil
  rw [← hd] at hchoice
  exact hchoice.body

/-- **A parser whose rule is one literal takes exactly its text.** -/
theorem takesExactly_of_literal {p : Parser} {start : String}
    (hfind : p.grammar.find? start = some d) (hd : d.alternatives = [[t]])
    (ht : t.symbol = .literal s.toList) (hr : t.repetition = .once)
    (hdepth : 1 ≤ p.options.maxDepth) : TakesExactly s fun text => p.parseFrom text start := by
  intro text
  beta_reduce
  by_cases hprefix : s.toList <+: text.toList
  · obtain ⟨rest, hrest⟩ := hprefix
    have hbody := settles_body_literal (g := p.grammar) (c := Cursor.start text.toList) hd ht hr
      hrest.symm
    obtain ⟨result, hparse, hstop, hproblems⟩ :=
      Parser.exists_parse_of_settles hfind hbody hdepth
    refine ⟨iff_of_true ⟨result, hparse⟩ ⟨rest, hrest⟩, ?_⟩
    intro result' hparse'
    obtain rfl := Option.some.inj (hparse.symm.trans hparse')
    constructor
    · rw [hstop, ← byteLength_toList]
      exact Nat.zero_add _
    · rw [hproblems, ← String.toList_inj, ← hrest]
      exact List.append_right_eq_self.symm
  · have hbody := settles_body_literal_none (g := p.grammar) (c := Cursor.start text.toList) hd ht
      hr hprefix
    have hparse := Parser.parseFrom_eq_none_of_settles hfind hbody hdepth
    rw [hparse]
    exact ⟨iff_of_false nofun hprefix, nofun⟩

/-- **Any text can be spelled.** Of a document that is one rule with the spelling of a text,
between quotes of either kind, the spelling is kept as it stands and decoded to the text;
and with any limit that lets a rule begin, a parser of it takes exactly this text, from that
rule, by its name or as the start rule. -/
theorem buildParser_spelling (eol : EolStyle) (hq : isQuote q = true)
    (hs : ∀ a ∈ s.toList, IsSpellable a) :
    compile eol ("<a> ::= " ++ spelling q s ++ "\n") =
        .ok [⟨"a", [[spelling q s]]⟩, eolRule eol] ∧
      Term.ofSource (spelling q s) = ⟨.literal s.toList, .once, spelling q s⟩ ∧
      ∀ options : ParserOptions, 1 ≤ options.maxDepth →
        ∃ p, buildParser eol ("<a> ::= " ++ spelling q s ++ "\n") options = .ok p ∧
          TakesExactly s (fun text => p.parseFrom text "a") ∧
          (options.start.getD "a" = "a" → TakesExactly s p.parse) := by
  have hcompile : compile eol ("<a> ::= " ++ spelling q s ++ "\n") =
      .ok [⟨"a", [[spelling q s]]⟩, eolRule eol] := by
    rw [← showTable_spellingTable hq,
      compile_show (isPlainTable_spellingTable hq hs) withinDepth_spellingTable
        (show Matcher.Counted 1 by decide)]
    rfl
  refine ⟨hcompile, ofSource_spelling hq s, ?_⟩
  intro options hdepth
  have hfind : (Grammar.ofRules [⟨"a", [[spelling q s]]⟩, eolRule eol]).find? "a" =
      some ⟨"a", [[Term.ofSource (spelling q s)]]⟩ := by
    cases eol <;> rfl
  have htakes := takesExactly_of_literal
    (p := Parser.ofRules [⟨"a", [[spelling q s]]⟩, eolRule eol] options) hfind rfl
    (congrArg Term.symbol (ofSource_spelling hq s))
    (congrArg Term.repetition (ofSource_spelling hq s)) hdepth
  refine ⟨_, by rw [buildParser, hcompile]; rfl, htakes, ?_⟩
  intro hstart
  have hstart' : (Parser.ofRules [⟨"a", [[spelling q s]]⟩, eolRule eol] options).start? =
      some "a" := by
    cases hoption : options.start with
    | none => simp [Parser.start?, Parser.ofRules, hoption, Grammar.ofRules, Definition.ofRule]
    | some start =>
      rw [hoption] at hstart
      obtain rfl : start = "a" := hstart
      simp [Parser.start?, Parser.ofRules, hoption]
  intro text
  rw [Parser.parse, hstart', Option.bind_some]
  exact htakes text

/-- A quote, a backslash before a letter, the end of a line, the other quote and what would
be a suffix. -/
def marks : String := "'\\n\n\"*"

/-- They are spelled with three escapes and taken in six bytes, also with one level only;
what comes behind them is reported. -/
theorem buildParser_spelling_marks :
    (isQuote '\'' = true ∧ (∀ a ∈ marks.toList, IsSpellable a) ∧
      spelling '\'' marks = "'\\'\\\\n\\n\"*'") ∧
    ∃ p result,
      buildParser .apart ("<a> ::= " ++ spelling '\'' marks ++ "\n") ⟨none, 1⟩ = .ok p ∧
      p.parse (marks ++ "*") = some result ∧ result.root.stop = 6 ∧ result.problems ≠ [] := by
  have hq : isQuote '\'' = true := rfl
  have hall : marks.toList.all (IsSpellable ·) = true := by decide
  have hs : ∀ a ∈ marks.toList, IsSpellable a := by simpa using hall
  obtain ⟨-, -, hbuild⟩ := buildParser_spelling .apart hq hs
  obtain ⟨p, hp, -, htakes⟩ := hbuild ⟨none, 1⟩ (Nat.le_refl 1)
  obtain ⟨htree, hend⟩ := htakes rfl (marks ++ "*")
  obtain ⟨result, hresult⟩ := htree.2 ⟨['*'], rfl⟩
  obtain ⟨hstop, hproblems⟩ := hend result hresult
  refine ⟨⟨hq, hs, by decide⟩, p, result, hp, hresult, hstop.trans (by decide), ?_⟩
  intro hnil
  exact absurd (hproblems.1 hnil) (by decide)

end Bnf

end OrderedBnf
