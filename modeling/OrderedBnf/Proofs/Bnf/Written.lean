import OrderedBnf.Bnf.Compile

/-!
# Documents, as they are written

What a BNF document is, said of its characters and without a parser. Each
relation ties a piece of text to what it stands for: `WritesTerm` a term to
the form in which a table keeps it, `WritesAlternative`, `WritesRule` and
`WritesTable` lists of such terms, rules and tables of rules, and
`WritesDocument` a table to a whole document. Spaces are free where these
allow them, and so a table has many documents.

A table can be written when it is one of names and literals and nothing in it
is empty (`IsPlainTable`). `WithinDepth` is the one bound that the compiler puts
on it: how far an alternative may go before the parser of documents runs out
of levels.
-/

namespace OrderedBnf

namespace Bnf

/-! ## Characters -/

/-- The characters of a name after its first, which is a letter. -/
def IsNameChar (a : Char) : Prop := a.isAlpha ∨ a.isDigit ∨ a = '_' ∨ a = '-'

/-- The characters that a literal may hold. -/
def IsPrintable (a : Char) : Prop := 0x20 ≤ a.toNat ∧ a.toNat ≤ 0x7e

/-- The characters that end a line. -/
def IsLineEnd (a : Char) : Prop := a = '\r' ∨ a = '\n'

/-- Nothing but spaces, perhaps nothing at all. -/
def IsSpaces (text : List Char) : Prop := ∀ a ∈ text, a = ' '

/-- Nothing but ends of lines. -/
def IsLineEnds (text : List Char) : Prop := ∀ a ∈ text, IsLineEnd a

/-- No character of the text ends a line. -/
def Unbroken (text : List Char) : Prop := ∀ a ∈ text, ¬ IsLineEnd a

instance : DecidablePred IsLineEnd := fun _ => inferInstanceAs (Decidable (_ ∨ _))

instance (text : List Char) : Decidable (Unbroken text) :=
  List.decidableBAll _ text

theorem Unbroken.not_mem {text : List Char} {a : Char} (h : Unbroken text) (ha : IsLineEnd a) :
    a ∉ text := fun hmem => h a hmem ha

theorem Unbroken.lineFeed_not_mem {text : List Char} (h : Unbroken text) : '\n' ∉ text :=
  h.not_mem (.inr rfl)

theorem Unbroken.return_not_mem {text : List Char} (h : Unbroken text) : '\r' ∉ text :=
  h.not_mem (.inl rfl)

theorem isLineEnds_nil : IsLineEnds [] := by simp [IsLineEnds]

theorem isSpaces_nil : IsSpaces [] := by simp [IsSpaces]

theorem isSpaces_one : IsSpaces [' '] := by simp [IsSpaces]

theorem IsSpaces.append {before after : List Char} (hbefore : IsSpaces before)
    (hafter : IsSpaces after) : IsSpaces (before ++ after) := by
  intro a ha
  rcases List.mem_append.1 ha with ha | ha
  · exact hbefore a ha
  · exact hafter a ha

/-! ## Names and literals -/

/-- A name is a letter and then letters, digits, `_` and `-`. -/
def IsName : List Char → Prop
  | [] => False
  | a :: rest => a.isAlpha ∧ ∀ b ∈ rest, IsNameChar b

/-- **The text between the quotes of a literal**, read from left to right. A
backslash goes with a backslash or a quote of the same kind behind it; any
other character stands alone, also a backslash before something else. -/
inductive IsBody (q : Char) : List Char → Prop
  /-- A literal may be empty. -/
  | nil : IsBody q []
  /-- An escape is two characters. -/
  | escape {a : Char} {rest : List Char} :
      a = '\\' ∨ a = q → IsBody q rest → IsBody q ('\\' :: a :: rest)
  /-- A backslash that escapes nothing stands for itself. -/
  | backslash {a : Char} {rest : List Char} :
      a ≠ '\\' → a ≠ q → IsBody q (a :: rest) → IsBody q ('\\' :: a :: rest)
  /-- And so does everything else but the quote. -/
  | plain {a : Char} {rest : List Char} :
      IsPrintable a → a ≠ '\\' → a ≠ q → IsBody q rest → IsBody q (a :: rest)

/-- A literal is a body between two quotes of one kind. -/
def IsLiteral (text : List Char) : Prop :=
  ∃ q body, isQuote q = true ∧ IsBody q body ∧ text = q :: (body ++ [q])

/-! ## Deciding what is a name or a literal -/

instance : DecidablePred IsNameChar := fun _ => inferInstanceAs (Decidable (_ ∨ _))

instance : DecidablePred IsPrintable := fun _ => inferInstanceAs (Decidable (_ ∧ _))

instance : DecidablePred IsName
  | [] => inferInstanceAs (Decidable False)
  | a :: rest => decidable_of_iff (a.isAlpha = true ∧ rest.all (IsNameChar ·) = true)
    (by simp [IsName])

/-- Reads a body from left to right. -/
def isBody (q : Char) : List Char → Bool
  | [] => true
  | ['\\'] => false
  | '\\' :: a :: rest => if a = '\\' ∨ a = q then isBody q rest else isBody q (a :: rest)
  | a :: rest => decide (IsPrintable a ∧ a ≠ q) && isBody q rest

theorem isBody_iff {q : Char} {text : List Char} : isBody q text = true ↔ IsBody q text := by
  constructor
  · intro h
    fun_induction isBody q text with
    | case1 => exact .nil
    | case2 => cases h
    | case3 a rest ha ih => exact .escape ha (ih h)
    | case4 a rest ha ih => exact .backslash (fun h => ha (.inl h)) (fun h => ha (.inr h)) (ih h)
    | case5 a rest hlast hback ih =>
      simp only [Bool.and_eq_true, decide_eq_true_eq] at h
      refine .plain h.1.1 ?_ h.1.2 (ih h.2)
      rintro rfl
      cases rest with
      | nil => exact hlast rfl rfl
      | cons b rest => exact hback b rest rfl rfl
  · intro h
    induction h with
    | nil => rfl
    | escape ha _ ih => simpa [isBody, ha] using ih
    | backslash hback hquote _ ih => simpa [isBody, hback, hquote] using ih
    | plain hprint hback hquote _ ih => simp [isBody, hprint, hback, hquote, ih]

instance (q : Char) : DecidablePred (IsBody q) := fun _ => decidable_of_iff _ isBody_iff

/-- What is a literal here is one to `Term.ofSource` as well, -/
theorem isLiteral_of_isLiteral {text : List Char} (h : IsLiteral text) :
    isLiteral text = true := by
  obtain ⟨q, body, hq, -, rfl⟩ := h
  simp [isLiteral, hq]

/-- which asks for less: it does not look between the quotes. -/
theorem isLiteral_iff {text : List Char} : IsLiteral text ↔
    isLiteral text = true ∧ IsBody (text.headD ' ') text.tail.dropLast := by
  constructor
  · intro h
    refine ⟨isLiteral_of_isLiteral h, ?_⟩
    obtain ⟨q, body, -, hbody, rfl⟩ := h
    simpa using hbody
  · rintro ⟨h, hbody⟩
    match text, h, hbody with
    | q :: rest, h, hbody =>
      simp only [isLiteral, Bool.and_eq_true, beq_iff_eq] at h
      obtain ⟨body, rfl⟩ := List.getLast?_eq_some_iff.1 h.2
      exact ⟨q, body, h.1, by simpa using hbody, rfl⟩

instance : DecidablePred IsLiteral := fun _ => decidable_of_iff _ isLiteral_iff.symm

/-! ## Terms and rules -/

/-- How a term is written: a literal as it is kept, a name between brackets. -/
inductive WritesTerm : String → List Char → Prop
  | literal {text : List Char} : IsLiteral text → WritesTerm (String.ofList text) text
  | reference {name : List Char} :
      IsName name → WritesTerm (String.ofList name) ('<' :: (name ++ ['>']))

/-- How an alternative is written: its terms, one or more, with spaces between. -/
inductive WritesAlternative : List String → List Char → Prop
  | last {term : String} {text : List Char} :
      WritesTerm term text → WritesAlternative [term] text
  | more {term : String} {text spaces rest : List Char} {terms : List String} :
      WritesTerm term text → IsSpaces spaces → WritesAlternative terms rest →
      WritesAlternative (term :: terms) (text ++ (spaces ++ rest))

/-- How the alternatives after the first are written: each behind a bar. -/
inductive WritesLater : List (List String) → List Char → Prop
  | nil : WritesLater [] []
  | cons {before after text rest : List Char} {terms : List String}
      {alternatives : List (List String)} :
      IsSpaces before → IsSpaces after → WritesAlternative terms text →
      WritesLater alternatives rest →
      WritesLater (terms :: alternatives) (before ++ '|' :: (after ++ (text ++ rest)))

/-- **How a rule is written**: on one line, with the ends of lines behind it. -/
inductive WritesRule : Rule → List Char → Prop
  | line {indent name s₁ s₂ text later s₃ ends s₄ : List Char} {first : List String}
      {alternatives : List (List String)} :
      IsSpaces indent → IsName name → IsSpaces s₁ → IsSpaces s₂ →
      WritesAlternative first text → WritesLater alternatives later →
      IsSpaces s₃ → IsLineEnds ends → ends ≠ [] → IsSpaces s₄ →
      WritesRule ⟨String.ofList name, first :: alternatives⟩
        (indent ++ '<' :: (name ++ '>' :: (s₁ ++ ("::=".toList ++ (s₂ ++ (text ++ (later ++
          (s₃ ++ (ends ++ s₄)))))))))

/-- How a table is written: its rules, one or more, in order. -/
inductive WritesTable : List Rule → List Char → Prop
  | last {rule : Rule} {text : List Char} : WritesRule rule text → WritesTable [rule] text
  | more {rule : Rule} {text rest : List Char} {rules : List Rule} :
      WritesRule rule text → WritesTable rules rest → WritesTable (rule :: rules) (text ++ rest)

/-- **How a document is written**: ends of lines, and then a table. -/
def WritesDocument (rules : List Rule) (text : List Char) : Prop :=
  ∃ ends body, IsLineEnds ends ∧ WritesTable rules body ∧ text = ends ++ body

/-! ## Tables without suffixes -/

/-- A term that asks for no repetition: a literal or a bare name. -/
def IsPlainTerm (term : String) : Prop := IsLiteral term.toList ∨ IsName term.toList

instance : DecidablePred IsPlainTerm := fun _ => inferInstanceAs (Decidable (_ ∨ _))

/-- A rule that can be written: nothing in it is empty or has a suffix. -/
structure IsPlainRule (rule : Rule) : Prop where
  isName : IsName rule.name.toList
  ne_nil : rule.alternatives ≠ []
  terms_ne_nil : ∀ terms ∈ rule.alternatives, terms ≠ []
  isPlainTerm : ∀ terms ∈ rule.alternatives, ∀ term ∈ terms, IsPlainTerm term

/-- A table that can be written. -/
structure IsPlainTable (rules : List Rule) : Prop where
  ne_nil : rules ≠ []
  isPlainRule : ∀ rule ∈ rules, IsPlainRule rule

theorem isPlainTable_iff {rules : List Rule} : IsPlainTable rules ↔ rules ≠ [] ∧
    ∀ rule ∈ rules, IsName rule.name.toList ∧ rule.alternatives ≠ [] ∧
      ∀ terms ∈ rule.alternatives, terms ≠ [] ∧ ∀ term ∈ terms, IsPlainTerm term := by
  constructor
  · rintro ⟨hne, hrules⟩
    refine ⟨hne, fun rule hrule => ?_⟩
    obtain ⟨hname, halternatives, hterms, hplain⟩ := hrules rule hrule
    exact ⟨hname, halternatives, fun terms ht => ⟨hterms terms ht, hplain terms ht⟩⟩
  · rintro ⟨hne, hrules⟩
    refine ⟨hne, fun rule hrule => ?_⟩
    obtain ⟨hname, halternatives, hterms⟩ := hrules rule hrule
    exact ⟨hname, halternatives, fun terms ht => (hterms terms ht).1,
      fun terms ht => (hterms terms ht).2⟩

instance : DecidablePred IsPlainTable := fun _ => decidable_of_iff _ isPlainTable_iff.symm

/-! ## The limit of the compiler -/

/-- The last place in an alternative at which a term can be read, from one on.
A literal has more rules in it than a reference. -/
def lastPlace (term : String) : Nat := if isLiteral term.toList then 992 else 993

/-- **No term stands too far out in its alternative.** -/
def WithinDepth (rules : List Rule) : Prop :=
  ∀ rule ∈ rules, ∀ terms ∈ rule.alternatives, ∀ i term, terms[i]? = some term →
    i + 1 ≤ lastPlace term

end Bnf

end OrderedBnf
