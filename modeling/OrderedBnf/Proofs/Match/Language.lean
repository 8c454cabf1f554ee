import Mathlib.Computability.Language
import OrderedBnf.Proofs.Match.Layout

/-!
# The language of a grammar

A table of rules can be read as a context-free grammar in which a term may be
optional or repeated. `Generates` says which texts a part of it stands for:
no places, no order between alternatives, no limit. A name stands for the
texts of its last definition, and a name without one for no text.

A matcher that chooses in order finds fewer readings than there are, but no
others: the text of every match is generated (`Admits.generates`), and so is
the text of every node by the rule of its kind.
-/

namespace OrderedBnf

open Goal

/-- **The texts of a part of a grammar.** -/
inductive Generates (g : Grammar) : Goal → List Char → Prop
  /-- A literal stands for its text, -/
  | literal {t : Term} {text : List Char} :
      t.symbol = .literal text → Generates g (symbol t) text
  /-- and a name for the texts of the definition in force. -/
  | reference {t : Term} {name : String} {d : Definition} {text : List Char} :
      t.symbol = .reference name → g.InForce name d → Generates g (rule d) text →
      Generates g (symbol t) text
  /-- Any number of texts, none -/
  | manyNone {t : Term} : Generates g (many t) []
  /-- or one and more behind it. -/
  | manyMore {t : Term} {text later : List Char} :
      Generates g (symbol t) text → Generates g (many t) later →
      Generates g (many t) (text ++ later)
  /-- A term without a suffix is its symbol, -/
  | once {t : Term} {text : List Char} :
      t.repetition = .once → Generates g (symbol t) text → Generates g (term t) text
  /-- one with `?` its symbol -/
  | optional {t : Term} {text : List Char} :
      t.repetition = .optional → Generates g (symbol t) text → Generates g (term t) text
  /-- or nothing, -/
  | noOptional {t : Term} : t.repetition = .optional → Generates g (term t) []
  /-- one with `*` any number of them, -/
  | zeroOrMore {t : Term} {text : List Char} :
      t.repetition = .zeroOrMore → Generates g (many t) text → Generates g (term t) text
  /-- and one with `+` any number behind a first. -/
  | oneOrMore {t : Term} {text later : List Char} :
      t.repetition = .oneOrMore → Generates g (symbol t) text → Generates g (many t) later →
      Generates g (term t) (text ++ later)
  /-- Terms in a row stand for their texts in a row. -/
  | nil : Generates g (sequence []) []
  | cons {t : Term} {terms : List Term} {text later : List Char} :
      Generates g (term t) text → Generates g (sequence terms) later →
      Generates g (sequence (t :: terms)) (text ++ later)
  /-- A choice stands for the texts of all its alternatives. -/
  | choice {terms : List Term} {alternatives : List (List Term)} {text : List Char} :
      terms ∈ alternatives → Generates g (sequence terms) text →
      Generates g (choice alternatives) text
  /-- So does a definition. -/
  | body {d : Definition} {text : List Char} :
      Generates g (choice d.alternatives) text → Generates g (body d) text
  | rule {d : Definition} {text : List Char} :
      Generates g (choice d.alternatives) text → Generates g (rule d) text

/-- **The language of a name**: the texts of the definition in force for it. -/
def Grammar.language (g : Grammar) (name : String) : Language Char :=
  {text | ∃ d, g.InForce name d ∧ Generates g (.rule d) text}

variable {g : Grammar} {n : Nat} {x : Goal} {c : Cursor} {m : Match} {d : Definition}

/-- The text between two cursors is one of a part. -/
private abbrev Between (g : Grammar) (x : Goal) (c stop : Cursor) : Prop :=
  ∃ text, c.rest = text ++ stop.rest ∧ Generates g x text

private theorem Between.imp {stop : Cursor} {y : Goal} (h : Between g x c stop)
    (hxy : ∀ {text}, Generates g x text → Generates g y text) : Between g y c stop := by
  obtain ⟨text, hr, htext⟩ := h
  exact ⟨text, hr, hxy htext⟩

private theorem Between.append {stop last : Cursor} {y z : Goal} (h : Between g x c stop)
    (hlater : Between g y stop last) (hxyz : ∀ {text later}, Generates g x text →
      Generates g y later → Generates g z (text ++ later)) : Between g z c last := by
  obtain ⟨text, hr, htext⟩ := h
  obtain ⟨later, hr', hlater⟩ := hlater
  exact ⟨text ++ later, by rw [hr, hr', List.append_assoc], hxyz htext hlater⟩

/-- **What lies between the two ends of a match is generated.** -/
theorem Admits.generates (h : Admits g n x c m) :
    ∃ text, c.rest = text ++ m.stop.rest ∧ Generates g x text := by
  change Between g x c m.stop
  induction h with
  | @literal n t text c stop ht hr _ => exact ⟨text, hr, .literal ht⟩
  | reference ht hd _ ih => exact ih.imp (.reference ht hd)
  | manyStop => exact ⟨[], rfl, .manyNone⟩
  | manyMore _ _ ih ihlater => exact ih.append ihlater .manyMore
  | once ht _ ih => exact ih.imp (.once ht)
  | optional ht _ ih => exact ih.imp (.optional ht)
  | noOptional ht => exact ⟨[], rfl, .noOptional ht⟩
  | zeroOrMore ht _ ih => exact ih.imp (.zeroOrMore ht)
  | oneOrMore ht _ _ ih ihlater => exact ih.append ihlater (.oneOrMore ht)
  | nil => exact ⟨[], rfl, .nil⟩
  | cons _ _ ih ihlater => exact ih.append ihlater .cons
  | choice hterms _ ih => exact ih.imp (.choice hterms)
  | body _ ih => exact ih.imp .body
  | fragment _ _ ih => exact ih.imp .rule
  | node _ _ _ ih => exact ih.imp .rule

/-- **The text of a node is in the language of its kind.** -/
theorem Matched.mem_language {first : Cursor} {node : Node} (h : Matched g first n d node) :
    node.text.toList ∈ g.language node.kind := by
  obtain ⟨hd, c, m, taken, errors, -, hm, hr, rfl⟩ := h
  obtain ⟨text, hr', htext⟩ := hm.generates
  obtain rfl : text = taken := List.append_cancel_right (hr'.symm.trans hr)
  exact ⟨d, hd, by simpa using htext.rule⟩

end OrderedBnf
