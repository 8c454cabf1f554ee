import Mathlib.Data.List.Basic
import OrderedBnf.Parse.Parser
import OrderedBnf.Proofs.Rule.Term
import OrderedBnf.Proofs.Text.Slice
import OrderedBnf.Rule.References

/-!
# Building a parser, with guards

A **guarded** operation has no result where it is not defined: a slice that is
out of order or cuts a character, a number below zero or above its bound, an
index or a name that is not there. The definitions in `Guarded` do what their
namesakes do, on texts and offsets and with such operations only, so that one
that is not defined leaves the whole without a result. That they all have their
namesakes' results says that none of these operations ever goes wrong.

This module takes the terms of a table apart: a suffix is the last byte of a
term, and the body of a literal is what lies between its first and last bytes.
Both are slices, because suffixes and quotes are characters of one byte.
-/

namespace OrderedBnf

variable {a q : Char} {r : Repetition} {text : List Char}

/-- A suffix is one byte long, -/
theorem Repetition.utf8Size_of_ofSuffix? (h : Repetition.ofSuffix? a = some r) :
    a.utf8Size = 1 := by
  unfold Repetition.ofSuffix? at h
  split at h
  · rfl
  · rfl
  · rfl
  · cases h

/-- and so is a quote. -/
theorem utf8Size_of_isQuote (h : isQuote q = true) : q.utf8Size = 1 := by
  simp only [isQuote, Bool.or_eq_true, beq_iff_eq] at h
  rcases h with rfl | rfl <;> rfl

/-- The body of a literal stands between two quotes. -/
theorem exists_body_of_isLiteral (h : isLiteral text = true) :
    ∃ q body, isQuote q = true ∧ text = q :: (body ++ [q]) := by
  match text, h with
  | q :: rest, h =>
    simp only [isLiteral, Bool.and_eq_true, beq_iff_eq] at h
    exact ⟨q, rest.dropLast, h.1, by rw [List.dropLast_append_getLast? q h.2]⟩

namespace Guarded

/-! ## Numbers -/

/-- A difference that is not below zero. -/
def minus (a b : Nat) : Option Nat := if b ≤ a then some (a - b) else none

/-- A sum that is not above a bound. -/
def plus (bound a b : Nat) : Option Nat := if a + b ≤ bound then some (a + b) else none

theorem minus_add (a b : Nat) : minus (a + b) b = some a := by simp [minus]

theorem plus_of_le {bound a b : Nat} (h : a + b ≤ bound) : plus bound a b = some (a + b) := if_pos h

/-! ## Terms -/

/-- Separates a repetition suffix, the last byte of a term. -/
def split (term : String) : Option (String × Repetition) :=
  match term.toList.getLast?.bind Repetition.ofSuffix? with
  | none => some (term, .once)
  | some r => do
    let stop ← minus term.utf8ByteSize 1
    let base ← slice? term 0 stop
    return if Term.isBase base.toList then (base, r) else (term, .once)

/-- Classifies a term without its suffix. A literal is cut behind its first byte
and before its last. -/
def symbol (base : String) : Option Symbol :=
  if isLiteral base.toList then do
    let stop ← minus base.utf8ByteSize 1
    let body ← slice? base 1 stop
    return .literal (unescape body.toList)
  else some (.reference base)

/-- The term that a text denotes. -/
def term (source : String) : Option Term := do
  let (base, repetition) ← split source
  let symbol ← symbol base
  return ⟨symbol, repetition, base⟩

theorem split_eq (source : String) : split source = some (Term.split source) := by
  unfold split
  cases hlast : source.toList.getLast?.bind Repetition.ofSuffix? with
  | none => simp [Term.split, Term.splitChars_of_last hlast]
  | some r =>
    obtain ⟨a, ha, hr⟩ := Option.bind_eq_some_iff.1 hlast
    have hsource : source.toList = source.toList.dropLast ++ [a] :=
      (List.dropLast_append_getLast? a ha).symm
    have hlength : source.utf8ByteSize = byteLength source.toList.dropLast + 1 := by
      rw [← byteLength_toList, hsource]
      simp [byteLength, Repetition.utf8Size_of_ofSuffix? hr]
    have hbase : slice? source 0 (byteLength source.toList.dropLast) =
        some (String.ofList source.toList.dropLast) := by
      simpa [byteLength] using slice?_append [] [a] hsource
    simp only [hlength, minus_add, hbase, Option.bind_eq_bind, Option.bind_some,
      String.toList_ofList, Term.split, Term.splitChars, hlast, Option.pure_def]
    split <;> simp

theorem symbol_eq (base : String) : symbol base = some (Symbol.ofBase base) := by
  unfold symbol Symbol.ofBase
  split
  · rename_i hliteral
    obtain ⟨q, body, hq, hbase⟩ := exists_body_of_isLiteral hliteral
    have hlength : base.utf8ByteSize = (1 + byteLength body) + 1 := by
      rw [← byteLength_toList, hbase]
      simp only [byteLength, byteLength_append, utf8Size_of_isQuote hq]
      omega
    have hbody : slice? base 1 (1 + byteLength body) = some (String.ofList body) := by
      simpa [byteLength, utf8Size_of_isQuote hq] using slice?_append [q] [q] hbase
    simp [hlength, minus_add, hbody, hbase]
  · rfl

theorem term_eq (source : String) : term source = some (Term.ofSource source) := by
  simp [term, split_eq, symbol_eq, Term.ofSource]

/-! ## Tables -/

/-- The definitions that a table gives. -/
def definitions (rules : List Rule) : Option Grammar :=
  rules.mapM fun rule => do
    let alternatives ← rule.alternatives.mapM fun terms => terms.mapM term
    return ⟨rule.name, alternatives⟩

/-- The parser for a table of rules. The names that are never defined are looked
for first, for which every term is taken apart as well. -/
def ofRules (rules : List Rule) (options : ParserOptions) : Option Parser := do
  let _ ← (allTerms rules).mapM term
  let grammar ← definitions rules
  return ⟨grammar, options⟩

theorem mapM_eq_some {α β : Type} {f : α → Option β} {f' : α → β} (h : ∀ a, f a = some (f' a))
    (as : List α) : as.mapM f = some (as.map f') := by
  obtain rfl : f = fun a => some (f' a) := funext h
  exact List.mapM_pure

/-- **Every table gives a parser.** -/
theorem ofRules_eq (rules : List Rule) (options : ParserOptions) :
    ofRules rules options = some (Parser.ofRules rules options) := by
  have halternatives := mapM_eq_some (mapM_eq_some term_eq)
  have hdefinitions : definitions rules = some (Grammar.ofRules rules) :=
    mapM_eq_some (fun rule => by simp [halternatives, Definition.ofRule]) rules
  simp [ofRules, mapM_eq_some term_eq, hdefinitions, Parser.ofRules]

end Guarded

end OrderedBnf
