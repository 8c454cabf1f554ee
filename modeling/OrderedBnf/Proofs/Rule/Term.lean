import OrderedBnf.Rule.References

/-!
# Terms without a suffix

A literal ends with a quote, and a quote asks for no repetition, so the
suffix of a literal is never looked for inside it. A name is as safe when
its last character is no suffix. Terms of these two kinds stand for
themselves, once, and show as they are written.

The terms of a table are taken apart for its parser and a second time where
references are looked for, with the same result (`referenceOf_eq_some_iff`).
-/

namespace OrderedBnf

/-- No quote is a suffix. -/
theorem Repetition.ofSuffix?_of_isQuote {q : Char} (hq : isQuote q = true) :
    Repetition.ofSuffix? q = none := by
  simp only [isQuote, Bool.or_eq_true, beq_iff_eq] at hq
  rcases hq with rfl | rfl <;> rfl

namespace Term

variable {text : List Char}

/-- Without a suffix at its end a term is all base. -/
theorem splitChars_of_last (h : text.getLast?.bind Repetition.ofSuffix? = none) :
    splitChars text = (text, .once) := by
  simp only [splitChars, h]

theorem splitChars_of_isLiteral (h : isLiteral text = true) : splitChars text = (text, .once) := by
  refine splitChars_of_last ?_
  match text, h with
  | q :: body, h =>
    simp only [isLiteral, Bool.and_eq_true, beq_iff_eq] at h
    have hlast : (q :: body).getLast? = some q := by
      cases body with
      | nil => rfl
      | cons a body => rw [List.getLast?_cons_cons]; exact h.2
    rw [hlast]
    exact Repetition.ofSuffix?_of_isQuote h.1

/-- **A literal is matched once, and is not a reference.** -/
theorem ofSource_of_isLiteral (h : isLiteral text = true) :
    Term.ofSource (String.ofList text) =
      ⟨.literal (unescape text.tail.dropLast), .once, String.ofList text⟩ := by
  simp [ofSource, split, Symbol.ofBase, splitChars_of_isLiteral h, h]

/-- **A name without a suffix is a reference to it, once.** -/
theorem ofSource_of_name (h : isLiteral text = false)
    (hlast : text.getLast?.bind Repetition.ofSuffix? = none) :
    Term.ofSource (String.ofList text) =
      ⟨.reference (String.ofList text), .once, String.ofList text⟩ := by
  simp [ofSource, split, Symbol.ofBase, splitChars_of_last hlast, h]

end Term

/-! ## References -/

variable {term name : String}

/-- **A term refers to the name that it is decoded as**, -/
theorem referenceOf_eq_some_iff :
    referenceOf term = some name ↔ (Term.ofSource term).symbol = .reference name := by
  rw [referenceOf, Term.ofSource]
  cases Symbol.ofBase (Term.split term).1 <;> simp

/-- and to none if it is decoded as a literal. -/
theorem referenceOf_eq_none_iff :
    referenceOf term = none ↔ ∃ text, (Term.ofSource term).symbol = .literal text := by
  rw [referenceOf, Term.ofSource]
  cases Symbol.ofBase (Term.split term).1 <;> simp

end OrderedBnf
