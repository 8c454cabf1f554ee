import OrderedBnf.Bnf.Reading
import OrderedBnf.Proofs.Bnf.Token

/-!
# Terms and alternatives

An alternative is a chain: a `list` holds a term and, behind spaces, another
`list`. The tree of one is read back to the terms that it was written with.

Every term of the chain is one level deeper than the one before it, and
after the last term a further `list` is still attempted before it is clear
that there is none. `listLevels` counts what this comes to.
-/

namespace OrderedBnf

namespace Bnf

open Goal

variable {t : Term} {c : Cursor} {rest text : List Char} {a : String} {as : List String}

/-! ## What a term begins with -/

/-- The characters that a term can begin with. -/
def IsTermStart (a : Char) : Prop := isQuote a = true ∨ a = '<'

theorem isQuote_of_isAlpha {a : Char} (h : a.isAlpha = true) : isQuote a = false :=
  not_isQuote_of_isCommon (.inr (.inl h))

theorem isLiteral_of_isName (h : IsName text) : isLiteral text = false := by
  match text, h with
  | a :: text, ⟨ha, _⟩ => simp [isLiteral, isQuote_of_isAlpha ha]

theorem WritesTerm.begins (h : WritesTerm a text) : Begins IsTermStart text := by
  cases h with
  | literal h =>
    obtain ⟨q, body, hq, -, rfl⟩ := h
    exact begins_cons.2 (.inl hq)
  | reference h => exact begins_cons.2 (.inr rfl)

theorem WritesAlternative.begins (h : WritesAlternative as text) : Begins IsTermStart text := by
  cases h with
  | last h => exact h.begins
  | more h => exact h.begins.append

theorem not_begins_space (h : Begins IsTermStart text) : ¬ Begins (· = ' ') text := by
  obtain ⟨a, text, rfl, ha⟩ := h
  rw [begins_cons]
  rintro rfl
  rcases ha with ha | ha <;> cases ha

/-! ## Terms -/

/-- The levels that a term takes. -/
def termLevels (term : String) : Nat := if isLiteral term.toList then 5 else 4

theorem termText_literal {node child : Node} (h : node.children = [child])
    (hkind : child.kind = "literal") : termText node = .ok child.text := by
  simp [termText, Node.childOfKind?, h, hkind]

theorem termText_name {node child : Node} (h : node.children = [child])
    (hkind : child.kind = "rule-name") : termText node = .ok child.text := by
  simp [termText, Node.childOfKind?, h, hkind]

/-- **A term is read whole**, and its node has its text. -/
theorem takes_term (ht : t.symbol = .reference "term") (h : WritesTerm a text)
    (hc : c.rest = text ++ rest) :
    ∃ node, Takes grammar (symbol t) c rest [node] (termLevels a) ∧ node.kind = "term" ∧
      termText node = .ok a := by
  cases h with
  | literal h =>
    obtain ⟨child, ⟨s, hs, hchild⟩, hkind, htext⟩ :=
      takes_literal_text (t := ref "literal") rfl hc h
    have hbody : Settles grammar (choice termDef.alternatives) c (some ⟨s, [child]⟩) 4 :=
      (hchild.once rfl).sequence_one.choice_some
    obtain ⟨node, hnode, hnkind, -, hchildren⟩ :=
      takes_rule ht find_term (by decide) ⟨s, hs, hbody⟩ hc
    refine ⟨node, ?_, hnkind, by rw [termText_literal hchildren hkind, htext]⟩
    simpa [termLevels, isLiteral_of_isLiteral h] using hnode
  | @reference name h =>
    have hc' : c.rest = '<' :: (name ++ '>' :: rest) := by simp [hc]
    have hnone : Settles grammar (symbol (ref "literal")) c none 1 :=
      settles_literal_text_none rfl (by rw [hc', begins_cons]; decide)
    obtain ⟨s₁, hs₁, h₁⟩ := takes_mark "\"<\"" hc'
    obtain ⟨child, ⟨s₂, hs₂, h₂⟩, hkind, htext⟩ :=
      takes_name (t := ref "rule-name") rfl hs₁ h (by rw [begins_cons]; decide)
    obtain ⟨s₃, hs₃, h₃⟩ := takes_mark "\">\"" hs₂
    have hseq := h₁.sequence_some ((h₂.once rfl).sequence_some h₃.sequence_one)
    have hbody : Settles grammar (choice termDef.alternatives) c (some ⟨s₃, [child]⟩) 3 :=
      (hnone.once rfl).sequence_none.choice_none hseq.choice_some
    obtain ⟨node, hnode, hnkind, -, hchildren⟩ :=
      takes_rule ht find_term (by decide) ⟨s₃, hs₃, hbody⟩ hc
    refine ⟨node, ?_, hnkind, by rw [termText_name hchildren hkind, htext]⟩
    simpa [termLevels, isLiteral_of_isName h] using hnode

/-- Where no term can begin, it takes two levels to know. -/
theorem settles_term_none (ht : t.symbol = .reference "term") (hc : ¬ Begins IsTermStart c.rest) :
    Settles grammar (symbol t) c none 2 := by
  have hliteral : Settles grammar (symbol (ref "literal")) c none 1 :=
    settles_literal_text_none rfl fun h => hc (h.mono fun _ => .inl)
  have hopen := settles_mark_none "\"<\"" fun h => hc (h.mono fun _ => .inr)
  exact settles_rule_none ht find_term
    ((hliteral.once rfl).sequence_none.choice_none (hopen.sequence_none.choice_none .choice_nil))

/-- Which terms there are, on every text. -/
theorem yields_term (ht : t.symbol = .reference "term") (n : Nat) :
    Yields grammar (symbol t) (fun text => ∃ a, WritesTerm a text) n := by
  have hliteral := (yields_literal (t := ref "literal") rfl n).once rfl
  have hopen : Yields grammar (term (mark '<' "\"<\"")) (· = ['<']) n := .literal rfl rfl n
  have hname := (yields_name (t := ref "rule-name") rfl n).once rfl
  have hclose : Yields grammar (term (mark '>' "\">\"")) (· = ['>']) n := .literal rfl rfl n
  have hbrackets := hopen.andThen (hname.andThen hclose.sequence_one)
  have hbody := hliteral.sequence_one.choice_cons hbrackets.choice_one
  refine (hbody.reference (d := termDef) ht find_term).mono ?_
  rintro text (h | ⟨_, _, rfl, rfl, name, _, rfl, hname, rfl⟩)
  · exact ⟨_, .literal h⟩
  · exact ⟨_, .reference hname⟩

/-! ## Chains of terms -/

/-- Spaces aside, what comes next is no character of a class. -/
def Clear (p : Char → Prop) (text : List Char) : Prop :=
  ∃ spaces rest, text = spaces ++ rest ∧ IsSpaces spaces ∧
    ¬ Begins (· = ' ') rest ∧ ¬ Begins p rest

/-- The levels that a chain of terms takes. Behind the last term a chain is
attempted in vain. -/
def listLevels : List String → Nat
  | [] => 3
  | a :: as => max (termLevels a) (listLevels as) + 1

/-- What a node of a chain is read as. -/
theorem terms_eq (node : Node) : terms node = (do
    let own ← ownTerms node.children
    let nested ← nestedTerms node.children
    return own ++ nested) := by
  cases node
  rw [terms]

theorem terms_last {node child : Node} (h : node.children = [child]) (hkind : child.kind = "term")
    (htext : termText child = .ok a) : terms node = .ok [a] := by
  rw [terms_eq, h]
  simp [ownTerms, nestedTerms, hkind, htext, bind, Except.bind, pure, Except.pure]

theorem terms_more {node child chain : Node} (h : node.children = [child, chain])
    (hkind : child.kind = "term") (htext : termText child = .ok a) (hchain : chain.kind = "list")
    (hterms : terms chain = .ok as) : terms node = .ok (a :: as) := by
  rw [terms_eq, h]
  simp [ownTerms, nestedTerms, hkind, htext, hchain, hterms, bind, Except.bind, pure, Except.pure]

/-- What stands around a chain does not matter to what it is read as. -/
theorem terms_inner {node chain : Node} (h : node.children = [chain])
    (hchain : chain.kind = "list") (hterms : terms chain = .ok as) : terms node = .ok as := by
  rw [terms_eq, h]
  simp [ownTerms, nestedTerms, hchain, hterms, bind, Except.bind, pure, Except.pure]

/-- Where no term can begin, a chain is tried in vain: a term twice. -/
theorem settles_list_none (ht : t.symbol = .reference "list") (hc : ¬ Begins IsTermStart c.rest) :
    Settles grammar (symbol t) c none 3 := by
  have hterm := (settles_term_none (t := ref "term") rfl hc).once rfl
  exact settles_rule_none ht find_list
    (hterm.sequence_none.choice_none (hterm.sequence_none.choice_none .choice_nil))

/-- **An alternative is read whole**, and its node has its terms. -/
theorem takes_list (ht : t.symbol = .reference "list") (h : WritesAlternative as text)
    (hc : c.rest = text ++ rest) (hrest : Clear IsTermStart rest) :
    ∃ node, Takes grammar (symbol t) c rest [node] (listLevels as) ∧ node.kind = "list" ∧
      terms node = .ok as := by
  induction h generalizing c t with
  | @last a text hterm =>
    obtain ⟨child, ⟨s₁, hs₁, h₁⟩, hkind, htext⟩ := takes_term (t := ref "term") rfl hterm hc
    -- the first alternative of a chain fails behind the term, and the second is that term
    obtain ⟨space, rest', rfl, hspace, hspace', hstart⟩ := hrest
    obtain ⟨s₂, hs₂, h₂⟩ := takes_spaces hs₁ hspace hspace'
    have hnone : Settles grammar (symbol (ref "list")) s₂ none 3 :=
      settles_list_none rfl (by rwa [hs₂])
    have hseq : Settles grammar (sequence [ref "term", spaces, ref "list"]) c none
        (max (termLevels a) 3) :=
      (h₁.once rfl).sequence_some (h₂.sequence_some (hnone.once rfl).sequence_none)
    have hbody : Settles grammar (choice listDef.alternatives) c (some ⟨s₁, [child]⟩)
        (max (termLevels a) 3) :=
      (hseq.choice_none (h₁.once rfl).sequence_one.choice_some).of_eq rfl (by omega)
    obtain ⟨node, hnode, hnkind, -, hchildren⟩ :=
      takes_rule ht find_list (by decide) ⟨s₁, hs₁, hbody⟩ hc
    exact ⟨node, hnode, hnkind, terms_last hchildren hkind htext⟩
  | @more a text space later as hterm hspace hlater ih =>
    have hc' : c.rest = text ++ (space ++ (later ++ rest)) := by simp [hc]
    obtain ⟨child, ⟨s₁, hs₁, h₁⟩, hkind, htext⟩ := takes_term (t := ref "term") rfl hterm hc'
    obtain ⟨s₂, hs₂, h₂⟩ := takes_spaces hs₁ hspace (not_begins_space hlater.begins.append)
    obtain ⟨chain, ⟨s₃, hs₃, h₃⟩, hchain, hterms⟩ := ih (t := ref "list") rfl hs₂
    have hseq := (h₁.once rfl).sequence_some (h₂.sequence_some (h₃.once rfl).sequence_one)
    have hbody : Settles grammar (choice listDef.alternatives) c (some ⟨s₃, [child, chain]⟩)
        (max (termLevels a) (listLevels as)) :=
      hseq.choice_some.of_eq rfl (by omega)
    obtain ⟨node, hnode, hnkind, -, hchildren⟩ :=
      takes_rule ht find_list (by decide) ⟨s₃, hs₃, hbody⟩ hc
    exact ⟨node, hnode, hnkind, terms_more hchildren hkind htext hchain hterms⟩

theorem yields_spaces (n : Nat) : Yields grammar (term spaces) IsSpaces n :=
  (Reads.literal (t := spaces) rfl).yields_run rfl n

/-- Which chains there are, on every text. -/
theorem yields_list (ht : t.symbol = .reference "list") (n : Nat) :
    Yields grammar (symbol t) (fun text => ∃ as, WritesAlternative as text) n := by
  induction n generalizing t with
  | zero =>
    intro c hc
    have hend : c.rest = [] := List.length_eq_zero_iff.1 (Nat.le_zero.1 hc)
    exact ⟨none, 3, settles_list_none ht (by rw [hend]; exact begins_nil), nofun⟩
  | succ n ih =>
    have hterm := (yields_term (t := ref "term") rfl (n + 1)).once rfl
    have hlater := (ih (t := ref "list") rfl).once rfl
    -- a term is not empty, so the chain behind it is looked for in a shorter text
    have hshorter : ∀ text, (∃ a, WritesTerm a text) → n + 1 ≤ n + text.length := by
      rintro text ⟨a, ha⟩
      obtain ⟨b, text, rfl, -⟩ := ha.begins
      rw [List.length_cons]
      omega
    have hseq := hterm.sequence_cons ((yields_spaces n).andThen hlater.sequence_one) hshorter
    have hbody := hseq.choice_cons hterm.sequence_one.choice_one
    refine (hbody.reference (d := listDef) ht find_list).mono ?_
    rintro text (⟨_, _, rfl, ⟨a, ha⟩, _, _, rfl, hspaces, as, has⟩ | ⟨a, ha⟩)
    · exact ⟨_, .more ha hspaces has⟩
    · exact ⟨_, .last ha⟩

end Bnf

end OrderedBnf
