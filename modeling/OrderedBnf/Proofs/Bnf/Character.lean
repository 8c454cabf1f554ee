import OrderedBnf.Proofs.Bnf.Table
import OrderedBnf.Proofs.Bnf.Written
import OrderedBnf.Proofs.Match.Take

/-!
# The characters of a document

The grammar of BNF has rules that match one character each, by listing all
of them. They read the classes that documents are described with: letters,
digits, characters of names, ends of lines, and, for each of the two quotes,
the characters that may stand between them (`isPrintable_iff`).
-/

namespace OrderedBnf

namespace Bnf

open Goal

variable {a : Char}

/-! ## Lists of characters and classes -/

/-- What holds of all the first characters holds of every one of them. -/
theorem of_ascii (P : Char → Prop) (h : ∀ n < 128, P (Char.ofNat n)) (ha : a.toNat < 128) :
    P a := by
  have := h a.toNat ha
  rwa [Char.ofNat_toNat] at this

theorem toNat_lt_of_isAlpha (h : a.isAlpha = true) : a.toNat < 128 := by
  change (decide (65 ≤ a.val ∧ a.val ≤ 90) ||
    (decide (97 ≤ a.val) && decide (a.val ≤ 122))) = true at h
  simp only [Bool.or_eq_true, Bool.and_eq_true, decide_eq_true_eq, UInt32.le_iff_toNat_le] at h
  change (65 ≤ a.toNat ∧ a.toNat ≤ 90) ∨ (97 ≤ a.toNat ∧ a.toNat ≤ 122) at h
  omega

theorem toNat_lt_of_isDigit (h : a.isDigit = true) : a.toNat < 128 := by
  simp only [Char.isDigit, Bool.and_eq_true, decide_eq_true_eq, ge_iff_le,
    UInt32.le_iff_toNat_le] at h
  change 48 ≤ a.toNat ∧ a.toNat ≤ 57 at h
  omega

theorem mem_letters : a ∈ letters.toList ↔ a.isAlpha = true := by
  constructor
  · have hall : letters.toList.all Char.isAlpha = true := by decide +kernel
    exact List.all_eq_true.1 hall a
  · intro h
    have hall : ∀ n < 128, (Char.ofNat n).isAlpha = true → Char.ofNat n ∈ letters.toList := by
      decide +kernel
    exact of_ascii (fun a => a.isAlpha = true → a ∈ letters.toList) hall (toNat_lt_of_isAlpha h) h

theorem mem_digits : a ∈ digits.toList ↔ a.isDigit = true := by
  constructor
  · have hall : digits.toList.all Char.isDigit = true := by decide +kernel
    exact List.all_eq_true.1 hall a
  · intro h
    have hall : ∀ n < 128, (Char.ofNat n).isDigit = true → Char.ofNat n ∈ digits.toList := by
      decide +kernel
    exact of_ascii (fun a => a.isDigit = true → a ∈ digits.toList) hall (toNat_lt_of_isDigit h) h

/-- The characters that may stand in any literal: all but the two quotes. -/
def IsCommon (a : Char) : Prop :=
  a = ' ' ∨ a.isAlpha = true ∨ a.isDigit = true ∨ a ∈ symbols.toList

instance : DecidablePred IsCommon := fun _ => inferInstanceAs (Decidable (_ ∨ _))

/-- **The printable characters are listed in full**: the common ones and the
two quotes. -/
theorem isPrintable_iff : IsPrintable a ↔ IsCommon a ∨ a = '"' ∨ a = '\'' := by
  constructor
  · intro h
    have hall : ∀ n < 128, IsPrintable (Char.ofNat n) →
        IsCommon (Char.ofNat n) ∨ Char.ofNat n = '"' ∨ Char.ofNat n = '\'' := by decide +kernel
    exact of_ascii (fun a => IsPrintable a → IsCommon a ∨ a = '"' ∨ a = '\'') hall
      (Nat.lt_of_le_of_lt h.2 (by decide)) h
  · have hall : ∀ n < 128, IsCommon (Char.ofNat n) → IsPrintable (Char.ofNat n) := by
      decide +kernel
    have hsymbols : symbols.toList.all (·.toNat < 128) = true := by decide +kernel
    rintro (h | rfl | rfl)
    · refine of_ascii (fun a => IsCommon a → IsPrintable a) hall ?_ h
      rcases h with rfl | h | h | h
      · decide
      · exact toNat_lt_of_isAlpha h
      · exact toNat_lt_of_isDigit h
      · exact of_decide_eq_true (List.all_eq_true.1 hsymbols a h)
    · decide
    · decide

/-- Neither quote is common. -/
theorem not_isQuote_of_isCommon (h : IsCommon a) : isQuote a = false := by
  have hnot : ¬ IsCommon '"' ∧ ¬ IsCommon '\'' := by decide +kernel
  rw [Bool.eq_false_iff]
  intro hq
  simp only [isQuote, Bool.or_eq_true, beq_iff_eq] at hq
  rcases hq with rfl | rfl
  · exact hnot.1 h
  · exact hnot.2 h

/-! ## The rules for one character -/

variable {t : Term}

/-- A rule that lists its characters reads them. -/
theorem reads_listed (characters : List Char) :
    Reads grammar (choice (characters.map fun a => [Term.ofSource (literalOf a)]))
      (· ∈ characters) 0 := by
  induction characters with
  | nil => exact Reads.choice_nil.congr (by simp)
  | cons b characters ih =>
    have hb : Reads grammar (term (Term.ofSource (literalOf b))) (· = b) 0 := by
      rw [ofSource_literalOf]
      exact (Reads.literal rfl).once rfl
    exact (hb.choice_cons ih).congr (by simp)

theorem reads_letter (ht : t.symbol = .reference "RULE_LETTER") :
    Reads grammar (symbol t) (·.isAlpha = true) 1 :=
  ((reads_listed letters.toList).fragment (d := classOf "RULE_LETTER" letters) (by decide)
    |>.reference ht find_letter).congr fun _ => mem_letters

theorem reads_digit (ht : t.symbol = .reference "RULE_DIGIT") :
    Reads grammar (symbol t) (·.isDigit = true) 1 :=
  ((reads_listed digits.toList).fragment (d := classOf "RULE_DIGIT" digits) (by decide)
    |>.reference ht find_digit).congr fun _ => mem_digits

theorem reads_symbol (ht : t.symbol = .reference "RULE_SYMBOL") :
    Reads grammar (symbol t) (· ∈ symbols.toList) 1 :=
  (reads_listed symbols.toList).fragment (d := classOf "RULE_SYMBOL" symbols) (by decide)
    |>.reference ht find_symbol

/-- A character of a literal that needs no thought about quotes. -/
theorem reads_character (ht : t.symbol = .reference "RULE_CHARACTER") :
    Reads grammar (symbol t) IsCommon 2 := by
  have hspace : Reads grammar (term (mark ' ' "\" \"")) (· = ' ') 0 := (Reads.literal rfl).once rfl
  have hletter := (reads_letter (t := ref "RULE_LETTER") rfl).once rfl
  have hdigit := (reads_digit (t := ref "RULE_DIGIT") rfl).once rfl
  have hsymbol := (reads_symbol (t := ref "RULE_SYMBOL") rfl).once rfl
  have hall := hspace.choice_cons (hletter.choice_cons (hdigit.choice_cons
    (hsymbol.choice_cons .choice_nil)))
  exact ((hall.fragment (by decide)).reference ht find_character).congr fun a => by
    simp [IsCommon]

theorem reads_nameChar (ht : t.symbol = .reference "RULE_CHAR") :
    Reads grammar (symbol t) IsNameChar 2 := by
  have hletter := (reads_letter (t := ref "RULE_LETTER") rfl).once rfl
  have hdigit := (reads_digit (t := ref "RULE_DIGIT") rfl).once rfl
  have hunder : Reads grammar (term (mark '_' "\"_\"")) (· = '_') 0 := (Reads.literal rfl).once rfl
  have hminus : Reads grammar (term (mark '-' "\"-\"")) (· = '-') 0 := (Reads.literal rfl).once rfl
  have hall := hletter.choice_cons (hdigit.choice_cons (hunder.choice_cons
    (hminus.choice_cons .choice_nil)))
  exact ((hall.fragment (by decide)).reference ht find_char).congr fun a => by
    simp [IsNameChar]

theorem reads_lineEnd (ht : t.symbol = .reference "RULE_EOL") :
    Reads grammar (symbol t) IsLineEnd 1 := by
  have hcr : Reads grammar (term (mark '\r' "\"\\r\"")) (· = '\r') 0 := (Reads.literal rfl).once rfl
  have hlf : Reads grammar (term (mark '\n' "\"\\n\"")) (· = '\n') 0 := (Reads.literal rfl).once rfl
  have hall := hcr.choice_cons (hlf.choice_cons .choice_nil)
  exact ((hall.fragment (by decide)).reference ht find_eol).congr fun a => by
    simp [IsLineEnd]

/-- A sign of one character is read if it comes next, -/
theorem takes_mark {c : Cursor} (source : String) {rest : List Char} (hc : c.rest = a :: rest) :
    Takes grammar (term (mark a source)) c rest [] 0 :=
  takes_literal rfl rfl hc

/-- and fails if it does not. -/
theorem settles_mark_none {c : Cursor} (source : String) (hc : ¬ Begins (· = a) c.rest) :
    Settles grammar (term (mark a source)) c none 0 :=
  ((Reads.literal rfl).once rfl).fails hc

/-- Spaces are read as far as they go. -/
theorem takes_spaces {c : Cursor} {text rest : List Char} (hc : c.rest = text ++ rest)
    (htext : IsSpaces text) (hrest : ¬ Begins (· = ' ') rest) :
    Takes grammar (term spaces) c rest [] 0 :=
  (Reads.literal rfl).zeroOrMore rfl hc htext hrest

end Bnf

end OrderedBnf
