import OrderedBnf.Proofs.Bnf.Character
import OrderedBnf.Proofs.Match.Yield

/-!
# Names and literals

A name is read as far as its characters go. A literal is read item by item
up to the quote that ends it: an escape is tried before a plain character,
so a quote with a backslash before it never ends the literal, and a
backslash that escapes nothing is a plain character. The two kinds of
literal differ in nothing but the quote (`Quotation`).

The levels are counted exactly, also where a name or a literal is not there:
a literal takes four, whatever is in it, because the character that ends the
repetition is tried against every rule for a character.
-/

namespace OrderedBnf

namespace Bnf

open Goal

variable {t : Term} {c : Cursor} {rest : List Char}

/-! ## Names -/

/-- **A name is read to its end.** -/
theorem takes_name (ht : t.symbol = .reference "rule-name") {name : List Char}
    (hc : c.rest = name ++ rest) (hname : IsName name) (hrest : ¬ Begins IsNameChar rest) :
    ∃ node, Takes grammar (symbol t) c rest [node] 3 ∧ node.kind = "rule-name" ∧
      node.text = String.ofList name := by
  match name, hname with
  | a :: name, ⟨ha, hname⟩ =>
    obtain ⟨n, hn, s₁, hs₁, h₁⟩ :=
      ((reads_letter (t := ref "RULE_LETTER") rfl).once rfl).takes hc ha
    obtain ⟨s₂, hs₂, h₂⟩ := (reads_nameChar (t := refs "RULE_CHAR" .zeroOrMore) rfl).zeroOrMore
      rfl hs₁ hname hrest
    have hseq := (h₁.sequence_some h₂.sequence_one).of_eq rfl (show max n 2 = 2 by omega)
    obtain ⟨node, hnode, hkind, htext, -⟩ :=
      takes_rule ht find_name (by decide) ⟨s₂, hs₂, hseq.choice_some⟩ hc
    exact ⟨node, hnode, hkind, htext⟩

/-- **On every text a name is read or none is there.** -/
theorem yields_name (ht : t.symbol = .reference "rule-name") (n : Nat) :
    Yields grammar (symbol t) IsName n := by
  have hletter := ((Yields.ofReads (reads_letter (t := ref "RULE_LETTER") rfl) n)).once rfl
  have hmore := (reads_nameChar (t := refs "RULE_CHAR" .zeroOrMore) rfl).yields_run rfl n
  refine ((hletter.andThen hmore.sequence_one).choice_one.reference ht find_name).mono ?_
  rintro _ ⟨_, more, rfl, ⟨a, ha, rfl⟩, hmore⟩
  exact ⟨ha, hmore⟩

/-! ## Quotation -/

/-- **A way to quote**: a quote, and the rules of the grammar for what stands
between two of them. -/
structure Quotation where
  quote : Char
  /-- The quote of the other kind, a plain character here. -/
  other : Char
  /-- The rule for an item, and the rule for an escape. -/
  character : String
  escape : String
  /-- The two quotes as the rules write them. -/
  source : String
  otherSource : String
  isQuote_quote : isQuote quote = true
  plain_iff : ∀ a, IsPrintable a ∧ a ≠ quote ↔ IsCommon a ∨ a = other
  item_mem : itemDef character escape other otherSource ∈ grammar
  escape_mem : escapeDef escape quote source ∈ grammar
  fragment_character : Definition.isFragmentName character = true
  fragment_escape : Definition.isFragmentName escape = true

/-- Between two quotes of one kind there may be any printable character but
that quote. -/
theorem plain_iff_of_quotes {a q other : Char} (hq : isQuote q = true) (hne : other ≠ q)
    (hquotes : (a = '"' ∨ a = '\'') ↔ (a = q ∨ a = other)) :
    IsPrintable a ∧ a ≠ q ↔ IsCommon a ∨ a = other := by
  rw [isPrintable_iff, hquotes]
  constructor
  · rintro ⟨h | h | h, haq⟩
    · exact .inl h
    · exact absurd h haq
    · exact .inr h
  · rintro (h | h)
    · refine ⟨.inl h, ?_⟩
      rintro rfl
      exact absurd hq (by simp [not_isQuote_of_isCommon h])
    · exact ⟨.inr (.inr h), h ▸ hne⟩

namespace Quotation

/-- Literals between double quotes. -/
def double : Quotation where
  quote := '"'
  other := '\''
  character := "RULE_CHARACTER1"
  escape := "RULE_ESCAPE1"
  source := "'\"'"
  otherSource := "\"'\""
  isQuote_quote := rfl
  plain_iff a := plain_iff_of_quotes rfl (by decide) (by simp)
  item_mem := by simp [grammar_eq]
  escape_mem := by simp [grammar_eq]
  fragment_character := by decide
  fragment_escape := by decide

/-- Literals between single quotes. -/
def single : Quotation where
  quote := '\''
  other := '"'
  character := "RULE_CHARACTER2"
  escape := "RULE_ESCAPE2"
  source := "\"'\""
  otherSource := "'\"'"
  isQuote_quote := rfl
  plain_iff a := plain_iff_of_quotes rfl (by decide) (by simp [or_comm])
  item_mem := by simp [grammar_eq]
  escape_mem := by simp [grammar_eq]
  fragment_character := by decide
  fragment_escape := by decide

variable (Q : Quotation)

theorem quote_ne_backslash : Q.quote ≠ '\\' := by
  intro h
  have := Q.isQuote_quote
  rw [h] at this
  cases this

theorem find_item : grammar.find? Q.character =
    some (itemDef Q.character Q.escape Q.other Q.otherSource) :=
  find_of_mem Q.item_mem rfl

theorem find_escape : grammar.find? Q.escape = some (escapeDef Q.escape Q.quote Q.source) :=
  find_of_mem Q.escape_mem rfl

/-- What a backslash escapes. -/
def Escapes (a : Char) : Prop := a = '\\' ∨ a = Q.quote

/-- A text begins with an escape. -/
def BeginsEscape (text : List Char) : Prop := ∃ a rest, text = '\\' :: a :: rest ∧ Q.Escapes a

variable {Q}

/-- An escape is read whole, -/
theorem takes_escape (ht : t.symbol = .reference Q.escape) {a : Char}
    (hc : c.rest = '\\' :: a :: rest) (ha : Q.Escapes a) :
    Takes grammar (symbol t) c rest [] 1 := by
  refine takes_fragment ht Q.find_escape Q.fragment_escape ?_
  obtain ⟨s₁, hs₁, h₁⟩ := takes_mark "\"\\\\\"" hc
  by_cases hback : a = '\\'
  · subst hback
    obtain ⟨s₂, hs₂, h₂⟩ := takes_mark "\"\\\\\"" hs₁
    exact ⟨s₂, hs₂, (h₁.sequence_some h₂.sequence_one).choice_some⟩
  · obtain rfl : a = Q.quote := ha.resolve_left hback
    have hnone : Settles grammar (term (mark '\\' "\"\\\\\"")) s₁ none 0 :=
      settles_mark_none _ (by rw [hs₁, begins_cons]; exact hback)
    obtain ⟨s₂, hs₂, h₂⟩ := takes_mark Q.source hs₁
    exact ⟨s₂, hs₂, (h₁.sequence_some hnone.sequence_none).choice_none
      (h₁.sequence_some h₂.sequence_one).choice_some⟩

/-- and a backslash before anything else is none. -/
theorem settles_escape_none (ht : t.symbol = .reference Q.escape)
    (hc : ¬ Q.BeginsEscape c.rest) : Settles grammar (symbol t) c none 1 := by
  refine settles_rule_none ht Q.find_escape ?_
  by_cases hback : Begins (· = '\\') c.rest
  · obtain ⟨_, rest, hrest, rfl⟩ := hback
    obtain ⟨s₁, hs₁, h₁⟩ := takes_mark "\"\\\\\"" hrest
    have hnext : ∀ a, Q.Escapes a → ¬ Begins (· = a) s₁.rest := by
      rintro a ha ⟨_, rest', hrest', rfl⟩
      exact hc ⟨_, rest', by rw [hrest, ← hs₁, hrest'], ha⟩
    have h₂ := settles_mark_none "\"\\\\\"" (hnext '\\' (.inl rfl))
    have h₃ := settles_mark_none Q.source (hnext Q.quote (.inr rfl))
    exact (h₁.sequence_some h₂.sequence_none).choice_none
      ((h₁.sequence_some h₃.sequence_none).choice_none .choice_nil)
  · have h := settles_mark_none "\"\\\\\"" hback
    exact h.sequence_none.choice_none (h.sequence_none.choice_none .choice_nil)

/-! ## Items -/

/-- The plain characters of a literal, its own quote left out. -/
theorem reads_plain (Q : Quotation) :
    Reads grammar (choice [[ref "RULE_CHARACTER"], [mark Q.other Q.otherSource]])
      (fun a => IsPrintable a ∧ a ≠ Q.quote) 2 := by
  have hcommon := (reads_character (t := ref "RULE_CHARACTER") rfl).once rfl
  have hother : Reads grammar (term (mark Q.other Q.otherSource)) (· = Q.other) 0 :=
    (Reads.literal rfl).once rfl
  exact (hcommon.choice_cons (hother.choice_cons .choice_nil)).congr fun a => by
    simp [Q.plain_iff]

/-- An item that is an escape. -/
theorem takes_item_escape (ht : t.symbol = .reference Q.character) {a : Char}
    (hc : c.rest = '\\' :: a :: rest) (ha : Q.Escapes a) :
    ∃ n ≤ 3, Takes grammar (symbol t) c rest [] n := by
  obtain ⟨s, hs, h⟩ := takes_escape (t := ref Q.escape) rfl hc ha
  exact ⟨2, by omega, takes_fragment ht Q.find_item Q.fragment_character
    ⟨s, hs, (h.once rfl).sequence_one.choice_some⟩⟩

/-- An item that is a character. -/
theorem takes_item_plain (ht : t.symbol = .reference Q.character) {a : Char}
    (hc : c.rest = a :: rest) (ha : IsPrintable a ∧ a ≠ Q.quote)
    (hesc : ¬ Q.BeginsEscape c.rest) : ∃ n ≤ 3, Takes grammar (symbol t) c rest [] n := by
  -- an escape is tried first, in vain
  have hnone := (settles_escape_none (t := ref Q.escape) rfl hesc).once rfl
  obtain ⟨n, hn, s, hs, h⟩ := (reads_plain Q).takes hc ha
  exact ⟨max 1 n + 1, by omega, takes_fragment ht Q.find_item Q.fragment_character
    ⟨s, hs, hnone.sequence_none.choice_none h⟩⟩

/-- Where neither comes there is no item, and it takes three levels to know. -/
theorem settles_item_none (ht : t.symbol = .reference Q.character)
    (hc : ¬ Begins (fun a => IsPrintable a ∧ a ≠ Q.quote) c.rest) :
    Settles grammar (symbol t) c none 3 := by
  have hesc : ¬ Q.BeginsEscape c.rest := by
    rintro ⟨a, rest, hrest, -⟩
    exact hc ⟨'\\', a :: rest, hrest, by decide, Q.quote_ne_backslash.symm⟩
  have hnone := (settles_escape_none (t := ref Q.escape) rfl hesc).once rfl
  exact settles_rule_none ht Q.find_item
    (hnone.sequence_none.choice_none ((reads_plain Q).fails hc))

/-! ## Literals -/

/-- **The body of a literal is read up to its quote.** -/
theorem takes_body (ht : t.symbol = .reference Q.character) {body : List Char}
    (hbody : IsBody Q.quote body) (hc : c.rest = body ++ Q.quote :: rest) :
    Takes grammar (many t) c (Q.quote :: rest) [] 3 := by
  induction hbody generalizing c with
  | nil =>
    -- the quote that ends the body is no item
    exact ⟨c, hc, (settles_item_none ht (by rw [hc]; simp)).many_none⟩
  | @escape a body ha _ ih =>
    have hc' : c.rest = '\\' :: a :: (body ++ Q.quote :: rest) := hc
    exact takes_many_more (takes_item_escape ht hc' ha)
      (by simp only [hc', List.length_cons]; omega) fun s hs => ih hs
  | backslash hback hquote _ ih =>
    refine takes_many_more (takes_item_plain ht hc ⟨by decide, Q.quote_ne_backslash.symm⟩ ?_)
      (by simp [hc]) fun s hs => ih hs
    rintro ⟨a, rest, hrest, ha⟩
    simp only [hc, List.cons_append, List.cons.injEq] at hrest
    rcases ha with rfl | rfl
    · exact hback hrest.2.1
    · exact hquote hrest.2.1
  | plain hprint hback hquote _ ih =>
    refine takes_many_more (takes_item_plain ht hc ⟨hprint, hquote⟩ ?_) (by simp [hc])
      fun s hs => ih hs
    rintro ⟨a, rest, hrest, -⟩
    simp only [hc, List.cons_append, List.cons.injEq] at hrest
    exact hback hrest.1

/-- **On every text some items are read**, and if a quote comes next, they are
the body of a literal. -/
theorem exists_items (ht : t.symbol = .reference Q.character) (text : List Char) :
    ∃ items rest, text = items ++ rest ∧
      (∀ c : Cursor, c.rest = text → Takes grammar (many t) c rest [] 3) ∧
      ∀ rest', rest = Q.quote :: rest' → IsBody Q.quote items := by
  induction hn : text.length using Nat.strongRecOn generalizing text with
  | _ n ih =>
    by_cases hesc : Q.BeginsEscape text
    · obtain ⟨a, text', rfl, ha⟩ := hesc
      obtain ⟨items, rest, htext, hmany, hbody⟩ :=
        ih text'.length (by simp only [← hn, List.length_cons]; omega) text' rfl
      refine ⟨'\\' :: a :: items, rest, by rw [htext]; rfl, fun c hc => ?_,
        fun rest' hr => .escape ha (hbody rest' hr)⟩
      exact takes_many_more (takes_item_escape ht hc ha)
        (by simp only [hc, List.length_cons]; omega) fun s hs => hmany s hs
    · by_cases hplain : Begins (fun a => IsPrintable a ∧ a ≠ Q.quote) text
      · obtain ⟨a, text', rfl, ha⟩ := hplain
        obtain ⟨items, rest, htext, hmany, hbody⟩ :=
          ih text'.length (by simp only [← hn, List.length_cons]; omega) text' rfl
        refine ⟨a :: items, rest, by rw [htext]; rfl, fun c hc => ?_, fun rest' hr => ?_⟩
        · exact takes_many_more (takes_item_plain ht hc ha (by rwa [hc])) (by simp [hc])
            fun s hs => hmany s hs
        · have hitems := hbody rest' hr
          by_cases hback : a = '\\'
          · -- the character after a plain backslash is an item as well, and no escape
            have hnext : ∀ b text'', text' = b :: text'' → ¬ Q.Escapes b :=
              fun b text'' hb hQ => hesc ⟨b, text'', by rw [hback, hb], hQ⟩
            subst hback
            match items, hitems with
            | [], _ => exact absurd (.inr rfl) (hnext Q.quote rest' (by rw [htext, hr]; rfl))
            | b :: items, hitems =>
              have hb := hnext b (items ++ rest) htext
              exact .backslash (fun h => hb (.inl h)) (fun h => hb (.inr h)) hitems
          · exact .plain ha.1 hback ha.2 hitems
      · exact ⟨[], text, rfl,
          fun c hc => ⟨c, hc, (settles_item_none ht (by rwa [hc])).many_none⟩,
          fun _ _ => .nil⟩

/-- One alternative of a literal, where its text comes next. -/
theorem takes_quoted {body : List Char} (hbody : IsBody Q.quote body)
    (hc : c.rest = Q.quote :: (body ++ Q.quote :: rest)) :
    Takes grammar (sequence [mark Q.quote Q.source, refs Q.character .zeroOrMore,
      mark Q.quote Q.source]) c rest [] 3 := by
  obtain ⟨s₁, hs₁, h₁⟩ := takes_mark Q.source hc
  obtain ⟨s₂, hs₂, h₂⟩ := takes_body (t := refs Q.character .zeroOrMore) rfl hbody hs₁
  obtain ⟨s₃, hs₃, h₃⟩ := takes_mark Q.source hs₂
  exact ⟨s₃, hs₃, h₁.sequence_some ((h₂.zeroOrMore rfl).sequence_some h₃.sequence_one)⟩

/-- And on every text: it is a literal, or the alternative fails. -/
theorem quoted_or_none (c : Cursor) :
    (∃ body rest, IsBody Q.quote body ∧ c.rest = Q.quote :: (body ++ Q.quote :: rest)) ∨
      ∃ n, Settles grammar (sequence [mark Q.quote Q.source, refs Q.character .zeroOrMore,
        mark Q.quote Q.source]) c none n := by
  by_cases hq : Begins (· = Q.quote) c.rest
  · obtain ⟨_, text, hc, rfl⟩ := hq
    obtain ⟨items, rest, htext, hmany, hbody⟩ :=
      exists_items (Q := Q) (t := refs Q.character .zeroOrMore) rfl text
    obtain ⟨s₁, hs₁, h₁⟩ := takes_mark Q.source hc
    obtain ⟨s₂, hs₂, h₂⟩ := hmany s₁ hs₁
    by_cases hclose : Begins (· = Q.quote) rest
    · obtain ⟨_, rest', rfl, rfl⟩ := hclose
      exact .inl ⟨items, rest', hbody rest' rfl, by rw [hc, htext]⟩
    · have h₃ := settles_mark_none Q.source (by rwa [← hs₂] at hclose)
      exact .inr ⟨_, h₁.sequence_some ((h₂.zeroOrMore rfl).sequence_some h₃.sequence_none)⟩
  · exact .inr ⟨0, (settles_mark_none _ hq).sequence_none⟩

end Quotation

open Quotation

/-- **A literal is read whole**, in four levels. -/
theorem takes_literal_text (ht : t.symbol = .reference "literal") {text : List Char}
    (hc : c.rest = text ++ rest) (htext : IsLiteral text) :
    ∃ node, Takes grammar (symbol t) c rest [node] 4 ∧ node.kind = "literal" ∧
      node.text = String.ofList text := by
  have key : Takes grammar (choice [[mark '"' "'\"'", refs "RULE_CHARACTER1" .zeroOrMore,
      mark '"' "'\"'"], [mark '\'' "\"'\"", refs "RULE_CHARACTER2" .zeroOrMore,
      mark '\'' "\"'\""]]) c rest [] 3 := by
    obtain ⟨q, body, hq, hbody, rfl⟩ := htext
    simp only [List.cons_append, List.append_assoc, List.nil_append] at hc
    simp only [isQuote, Bool.or_eq_true, beq_iff_eq] at hq
    rcases hq with rfl | rfl
    · obtain ⟨s, hs, h⟩ := takes_quoted (Q := double) hbody hc
      exact ⟨s, hs, h.choice_some⟩
    · obtain ⟨s, hs, h⟩ := takes_quoted (Q := single) hbody hc
      have hnone : Settles grammar (term (mark '"' "'\"'")) c none 0 :=
        settles_mark_none _ (by rw [hc]; simp)
      exact ⟨s, hs, hnone.sequence_none.choice_none h.choice_some⟩
  obtain ⟨node, hnode, hkind, htext, -⟩ := takes_rule ht find_literal (by decide) key hc
  exact ⟨node, hnode, hkind, htext⟩

/-- Where no quote comes, no literal does. -/
theorem settles_literal_text_none (ht : t.symbol = .reference "literal")
    (hc : ¬ Begins (isQuote · = true) c.rest) : Settles grammar (symbol t) c none 1 := by
  have hnot : ∀ q, isQuote q = true → ¬ Begins (· = q) c.rest :=
    fun q hq hb => hc (hb.mono fun a ha => by rw [show a = q from ha]; exact hq)
  have h₁ := settles_mark_none "'\"'" (hnot '"' rfl)
  have h₂ := settles_mark_none "\"'\"" (hnot '\'' rfl)
  exact settles_rule_none ht find_literal
    (h₁.sequence_none.choice_none (h₂.sequence_none.choice_none .choice_nil))

/-- **On every text a literal is read or none is there.** -/
theorem yields_literal (ht : t.symbol = .reference "literal") (length : Nat) :
    Yields grammar (symbol t) IsLiteral length := by
  intro c _
  have found : ∀ Q : Quotation, ∀ body rest, IsBody Q.quote body →
      c.rest = Q.quote :: (body ++ Q.quote :: rest) →
      YieldsAt grammar (symbol t) IsLiteral c := by
    intro Q body rest hbody hc
    have htext : IsLiteral (Q.quote :: (body ++ [Q.quote])) :=
      ⟨_, _, Q.isQuote_quote, hbody, rfl⟩
    have hc' : c.rest = Q.quote :: (body ++ [Q.quote]) ++ rest := by rw [hc]; simp
    obtain ⟨node, ⟨s, hs, h⟩, -⟩ := takes_literal_text ht hc' htext
    refine ⟨_, _, h, ?_⟩
    rintro m ⟨⟩
    exact ⟨_, by rw [hs]; exact hc', htext⟩
  rcases quoted_or_none (Q := double) c with ⟨body, rest, hbody, hc⟩ | ⟨n₁, h₁⟩
  · exact found double body rest hbody hc
  · rcases quoted_or_none (Q := single) c with ⟨body, rest, hbody, hc⟩ | ⟨n₂, h₂⟩
    · exact found single body rest hbody hc
    · exact ⟨none, _, settles_rule_none ht find_literal
        (h₁.choice_none (h₂.choice_none .choice_nil)), nofun⟩

end Bnf

end OrderedBnf
