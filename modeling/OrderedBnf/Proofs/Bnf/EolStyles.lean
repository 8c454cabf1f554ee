import OrderedBnf.Proofs.Bnf.Acceptance
import OrderedBnf.Proofs.Match.Lookup

/-!
# The two shapes of the rule for the end of a line

The shape that is asked for matters for documents without a rule `EOL` alone, and there it
is the last rule of the table, and nothing else, that it decides. With all the line ends in
one alternative the rule takes a CR LF CR LF and nothing else; with an alternative for each
it takes one line end, the longer of two where both are there (`compile_eol_cases`).

Either shape is made of literals alone. A sequence of literals is one literal with their
texts in a row, and a choice of such sequences takes the first text that comes next
(`Goal.run_choice_literals`), whatever the observer and its state.
-/

namespace OrderedBnf

variable {σ : Type} {t : Term} {terms : List Term} {alternatives : List (List Term)}

theorem Cursor.advance?_append (c : Cursor) (a b : List Char) :
    c.advance? (a ++ b) = (c.advance? a).bind fun c => c.advance? b := by
  refine Option.ext fun c' => ?_
  simp only [Option.bind_eq_some_iff, advance?_eq_some_iff]
  constructor
  · rintro ⟨hrest, hoffset⟩
    refine ⟨⟨c.offset + byteLength a, b ++ c'.rest⟩, ⟨by simp [hrest], rfl⟩, rfl, ?_⟩
    rw [hoffset, byteLength_append, Nat.add_assoc]
  · rintro ⟨mid, ⟨hrest, hoffset⟩, hrest', hoffset'⟩
    refine ⟨by rw [hrest, hrest', List.append_assoc], ?_⟩
    rw [hoffset', hoffset, byteLength_append, Nat.add_assoc]

/-! ## Literals alone -/

/-- Terms that are these texts as literals, each once. -/
def AreLiterals (terms : List Term) (texts : List (List Char)) : Prop :=
  List.Forall₂ (fun t text => t.symbol = .literal text ∧ t.repetition = .once) terms texts

namespace Goal

variable (note : Observer σ) (g : Grammar) (levels : Nat)

theorem run_term_literal {text : List Char} (ht : t.symbol = .literal text)
    (hr : t.repetition = .once) (c : Cursor) (s : σ) :
    ((term t).run note g levels c s).1 = (c.advance? text).map (Match.mk · []) := by
  rw [run_once hr, run_literal ht, Matcher.literal]
  cases c.advance? text <;> rfl

/-- **Literals in a row** are one literal. -/
theorem run_sequence_literals {texts : List (List Char)} (h : AreLiterals terms texts)
    (c : Cursor) (s : σ) : ((sequence terms).run note g levels c s).1 =
      (c.advance? texts.flatten).map (Match.mk · []) := by
  induction h generalizing c s with
  | nil => simp [run_sequence_nil, Cursor.advance?, List.isPrefixOf?, byteLength]
  | cons hfirst _ ih =>
    have hterm := run_term_literal note g levels hfirst.1 hfirst.2 c s
    rw [List.flatten_cons, Cursor.advance?_append]
    cases hadvance : c.advance? _ with
    | none =>
      rw [hadvance] at hterm
      rw [run_sequence_of_none (Prod.ext hterm rfl)]
      rfl
    | some stop =>
      rw [hadvance] at hterm
      rw [run_sequence_of_some (Prod.ext hterm rfl), ih, Option.map_map]
      rfl

/-- **A choice of literals** takes the first that comes next. -/
theorem run_choice_literals {texts : List (List (List Char))}
    (h : List.Forall₂ AreLiterals alternatives texts) (c : Cursor) (s : σ) :
    ((choice alternatives).run note g levels c s).1 =
      (texts.findSome? fun text => c.advance? text.flatten).map (Match.mk · []) := by
  induction h generalizing s with
  | nil => rfl
  | cons hfirst _ ih =>
    have hseq := run_sequence_literals note g levels hfirst c s
    rw [List.findSome?_cons]
    cases hadvance : c.advance? _ with
    | none =>
      rw [hadvance] at hseq
      rw [run_choice_of_none (Prod.ext hseq rfl), ih]
    | some stop =>
      rw [hadvance] at hseq
      rw [run_choice_of_some (Prod.ext hseq rfl)]
      rfl

end Goal

namespace Bnf

open Goal

variable {rules : List Rule} {source : String}

/-! ## The rule that is added -/

/-- The texts of the rule that is added, alternative by alternative. -/
def lineEndTexts : EolStyle → List (List (List Char))
  | .together => [[['\r', '\n'], ['\r'], ['\n']]]
  | .apart => [[['\r', '\n']], [['\r']], [['\n']]]

theorem areLiterals_eolRule (eol : EolStyle) :
    List.Forall₂ AreLiterals (Definition.ofRule (eolRule eol)).alternatives (lineEndTexts eol) := by
  cases eol <;>
    simp only [Definition.ofRule, eolRule, lineEnds, lineEndTexts, AreLiterals, List.map_cons,
      List.map_nil, List.forall₂_cons, List.Forall₂.nil, and_true] <;>
    decide

/-- **The bytes that are taken as the end of a line**, if a text begins with one. -/
def lineEndBytes? : EolStyle → List Char → Option Nat
  | .together, '\r' :: '\n' :: '\r' :: '\n' :: _ => some 4
  | .apart, '\r' :: '\n' :: _ => some 2
  | .apart, '\r' :: _ => some 1
  | .apart, '\n' :: _ => some 1
  | _, _ => none

theorem findSome?_lineEndTexts (eol : EolStyle) (c : Cursor) :
    ((lineEndTexts eol).findSome? fun text => c.advance? text.flatten) =
      (lineEndBytes? eol c.rest).map fun bytes => ⟨c.offset + bytes, c.rest.drop bytes⟩ := by
  obtain ⟨offset, rest⟩ := c
  dsimp only
  fun_cases lineEndBytes? eol rest with
  | case1 rest => rfl
  | case2 rest => rfl
  | case3 rest h =>
    have hboth : Cursor.advance? ⟨offset, '\r' :: rest⟩ ['\r', '\n'] = none := by
      refine Cursor.advance?_eq_none_iff.2 ?_
      rintro ⟨tail, htail⟩
      exact h tail (List.cons.inj htail).2.symm
    rw [lineEndTexts, List.findSome?_cons, List.flatten_singleton, hboth]
    rfl
  | case4 rest => rfl
  | case5 eol rest htogether hboth hreturn hfeed =>
    refine List.findSome?_eq_none_iff.2 fun text htext => Cursor.advance?_eq_none_iff.2 ?_
    rintro ⟨tail, htail⟩
    cases eol with
    | together =>
      obtain rfl := List.mem_singleton.1 htext
      exact htogether tail rfl htail.symm
    | apart =>
      simp only [lineEndTexts, List.mem_cons, List.not_mem_nil, or_false] at htext
      rcases htext with rfl | rfl | rfl
      · exact hboth tail rfl htail.symm
      · exact hreturn tail rfl htail.symm
      · exact hfeed tail rfl htail.symm

theorem definesEol_iff : definesEol rules = true ↔ ∃ r ∈ rules, r.name = "EOL" := by
  simp [definesEol, eolName]

/-- Behind rules that have other names the rule that is added is in force. -/
theorem find?_append_eolRule (rules : List Rule) (eol : EolStyle) :
    (Grammar.ofRules (rules ++ [eolRule eol])).find? "EOL" =
      some (Definition.ofRule (eolRule eol)) :=
  Grammar.find?_eq_some_iff.2 ⟨Grammar.ofRules rules, [], by simp [Grammar.ofRules],
    by cases eol <;> rfl, by simp⟩

/-- **A reference to the rule that is added**, with a level left for it. -/
theorem reference_eolRule (note : Observer σ) (rules : List Rule) (eol : EolStyle) (levels : Nat)
    (c : Cursor) (s : σ) :
    ((Grammar.ofRules (rules ++ [eolRule eol])).reference note
        (Grammar.body note (Grammar.ofRules (rules ++ [eolRule eol])) (levels + 1)) "EOL" c s).1 =
      (lineEndBytes? eol c.rest).map fun bytes => ⟨⟨c.offset + bytes, c.rest.drop bytes⟩, []⟩ := by
  have hfind := find?_append_eolRule rules eol
  have hfragment : (Definition.ofRule (eolRule eol)).isFragment = true := by
    cases eol <;> decide
  generalize Grammar.ofRules (rules ++ [eolRule eol]) = g at hfind ⊢
  have hrun : (symbol ⟨.reference "EOL", .once, "EOL"⟩).run note g (levels + 1) c s =
      (rule (Definition.ofRule (eolRule eol))).run note g (levels + 1) c s :=
    run_reference rfl hfind
  calc (g.reference note (g.body note (levels + 1)) "EOL" c s).1
    _ = ((rule (Definition.ofRule (eolRule eol))).run note g (levels + 1) c s).1 :=
      congrArg Prod.fst hrun
    _ = ((body (Definition.ofRule (eolRule eol))).run note g (levels + 1) c s).1 := by
      simp only [run_rule, wrap_of_fragment hfragment, Option.map_id']
    _ = ((lineEndTexts eol).findSome? fun text => c.advance? text.flatten).map (Match.mk · []) := by
      rw [run_body_succ, run_choice_literals note g levels (areLiterals_eolRule eol)]
    _ = (lineEndBytes? eol c.rest).map fun bytes =>
        ⟨⟨c.offset + bytes, c.rest.drop bytes⟩, []⟩ := by
      rw [findSome?_lineEndTexts, Option.map_map]
      rfl

/-! ## Compiling in the two styles -/

/-- **The style decides the rule that is added, and nothing else.** Whatever the source,
either it is refused for the same reason in both styles, or it has a rule `EOL` and is
compiled to the same table, or it has none and the tables differ in the last rule, the only
one of this name. A reference to that rule takes a CR LF CR LF in one style, and a CR LF, CR
or LF in the other; nowhere else does it match, and it never has a node. -/
theorem compile_eol_cases (source : String) :
    (∃ e, ∀ eol, compile eol source = .error e) ∨
    (∃ rules, WritesDocument rules source.toList ∧ (∃ r ∈ rules, r.name = "EOL") ∧
      ∀ eol, compile eol source = .ok rules) ∨
    ∃ rules, WritesDocument rules source.toList ∧ (∀ r ∈ rules, r.name ≠ "EOL") ∧
      ∀ eol, (eolRule eol).name = "EOL" ∧ compile eol source = .ok (rules ++ [eolRule eol]) ∧
        ∀ {σ : Type} (note : Observer σ) (levels : Nat) (c : Cursor) (s : σ),
          ((Grammar.ofRules (rules ++ [eolRule eol])).reference note
              (Grammar.body note (Grammar.ofRules (rules ++ [eolRule eol])) (levels + 1))
              "EOL" c s).1 =
            (lineEndBytes? eol c.rest).map fun bytes =>
              ⟨⟨c.offset + bytes, c.rest.drop bytes⟩, []⟩ := by
  cases hwritten : writtenRules source with
  | error e =>
    refine .inl ⟨e, fun eol => ?_⟩
    rw [compile, hwritten]
    rfl
  | ok rules =>
    obtain ⟨hdocument, -⟩ := writtenRules_eq_ok_iff.1 hwritten
    have hcompile : ∀ eol, compile eol source = .ok (withEol eol rules) := by
      intro eol
      rw [compile, hwritten]
      rfl
    by_cases heol : definesEol rules = true
    · refine .inr (.inl ⟨rules, hdocument.writes, definesEol_iff.1 heol, fun eol => ?_⟩)
      rw [hcompile eol, withEol, if_pos heol]
    · refine .inr (.inr ⟨rules, hdocument.writes, ?_, fun eol => ⟨by cases eol <;> rfl, ?_, ?_⟩⟩)
      · intro r hr hname
        exact heol (definesEol_iff.2 ⟨r, hr, hname⟩)
      · rw [hcompile eol, withEol, if_neg heol]
      · exact fun note levels c s => reference_eolRule note rules eol levels c s

end Bnf

end OrderedBnf
