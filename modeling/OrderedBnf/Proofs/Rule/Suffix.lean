import OrderedBnf.Proofs.Guarded.Term

/-!
# Suffixes

A repetition is asked for by a character behind a literal or a name, or by none for once.
Taking a term apart undoes just that. Nothing is lost: the two parts make up the term
(`Term.splitChars_append`). And nothing is mistaken: what was written behind a literal or a
name comes off again, whatever the literal has inside and whatever the characters are
(`Term.splitChars_of_isSeparable`).

Only one thing cannot be told apart, a name that ends in a suffix itself and asks for no
repetition. A quote that stands alone is neither a literal nor a name, and keeps what is
behind it.
-/

namespace OrderedBnf

variable {a q : Char} {r : Repetition} {text base : List Char}

/-! ## What a suffix can stand behind -/

/-- A text between two quotes of one kind. -/
def IsQuoted (text : List Char) : Prop :=
  ∃ q body, (q = '"' ∨ q = '\'') ∧ text = q :: (body ++ [q])

/-- A text that does not begin with a quote, and is not empty. -/
def IsBare (text : List Char) : Prop := ∃ a rest, text = a :: rest ∧ a ≠ '"' ∧ a ≠ '\''

/-- The last character asks for a repetition, if it is read as a suffix. -/
def EndsInSuffix (text : List Char) : Prop :=
  ∃ rest a, text = rest ++ [a] ∧ (a = '?' ∨ a = '*' ∨ a = '+')

/-- **A base from which the suffix of a repetition can be told**: any literal, and any
name, unless the suffix is none and the name ends as if it had one. -/
def IsSeparable (base : List Char) (r : Repetition) : Prop :=
  IsQuoted base ∨ IsBare base ∧ (r = .once → ¬ EndsInSuffix base)

theorem isQuote_iff : isQuote q = true ↔ q = '"' ∨ q = '\'' := by
  simp [isQuote]

theorem isLiteral_iff_isQuoted : isLiteral text = true ↔ IsQuoted text := by
  constructor
  · intro h
    obtain ⟨q, body, hq, rfl⟩ := exists_body_of_isLiteral h
    exact ⟨q, body, isQuote_iff.1 hq, rfl⟩
  · rintro ⟨q, body, hq, rfl⟩
    simp [isLiteral, isQuote_iff.2 hq]

theorem isName_iff_isBare : isName text = true ↔ IsBare text := by
  cases text with
  | nil => simp [isName, IsBare]
  | cons a rest => simp [isName, IsBare, isQuote]

/-- Whatever a suffix is told from can be repeated. -/
theorem IsSeparable.isBase (h : IsSeparable base r) : Term.isBase base = true := by
  rcases h with h | ⟨h, -⟩
  · rw [Term.isBase, isLiteral_iff_isQuoted.2 h, Bool.true_or]
  · rw [Term.isBase, isName_iff_isBare.2 h, Bool.or_true]

/-! ## Suffixes -/

/-- **A suffix is the one character that asks for its repetition.** -/
theorem Repetition.ofSuffix?_eq_some_iff :
    Repetition.ofSuffix? a = some r ↔ r.suffix.toList = [a] := by
  constructor
  · intro h
    unfold ofSuffix? at h
    split at h <;> cases h <;> rfl
  · intro h
    cases r with
    | once => cases h
    | optional | zeroOrMore | oneOrMore =>
      obtain rfl := (List.cons.inj h).1
      rfl

/-- No suffix asks for once, and for nothing else. -/
theorem Repetition.suffix_eq_nil_iff : r.suffix.toList = [] ↔ r = .once := by
  cases r <;> simp [suffix]

/-- A text that does not end in a suffix asks for nothing. -/
theorem Repetition.ofSuffix?_getLast? (h : ¬ EndsInSuffix text) :
    text.getLast?.bind ofSuffix? = none := by
  rw [Option.eq_none_iff_forall_ne_some]
  intro r hr
  obtain ⟨a, ha, hsuffix⟩ := Option.bind_eq_some_iff.1 hr
  obtain ⟨rest, rfl⟩ := List.getLast?_eq_some_iff.1 ha
  refine h ⟨rest, a, rfl, ?_⟩
  unfold ofSuffix? at hsuffix
  split at hsuffix
  · exact .inl rfl
  · exact .inr (.inl rfl)
  · exact .inr (.inr rfl)
  · cases hsuffix

namespace Term

/-! ## Taking a term apart -/

/-- **Nothing is lost**: the base and the suffix make up the term. -/
theorem splitChars_append (term : List Char) :
    (splitChars term).1 ++ (splitChars term).2.suffix.toList = term := by
  unfold splitChars
  split
  · rename_i r hr
    obtain ⟨a, ha, hsuffix⟩ := Option.bind_eq_some_iff.1 hr
    split
    · dsimp only
      rw [Repetition.ofSuffix?_eq_some_iff.1 hsuffix]
      exact List.dropLast_append_getLast? a ha
    · exact List.append_nil term
  · exact List.append_nil term

/-- A suffix behind a base comes off. -/
theorem splitChars_append_suffix (h : isBase base = true) (hr : r ≠ .once) :
    splitChars (base ++ r.suffix.toList) = (base, r) := by
  obtain ⟨a, ha⟩ : ∃ a, Repetition.ofSuffix? a = some r := by
    cases r with
    | once => exact absurd rfl hr
    | optional => exact ⟨'?', rfl⟩
    | zeroOrMore => exact ⟨'*', rfl⟩
    | oneOrMore => exact ⟨'+', rfl⟩
  have hlast : (base ++ [a]).getLast?.bind Repetition.ofSuffix? = some r := by
    rw [List.getLast?_concat, Option.bind_some, ha]
  rw [Repetition.ofSuffix?_eq_some_iff.1 ha]
  simp only [splitChars, hlast, List.dropLast_concat, h, if_true]

/-- **Nothing is mistaken**: the parts that a term was made of come back. -/
theorem splitChars_of_isSeparable (h : IsSeparable base r) :
    splitChars (base ++ r.suffix.toList) = (base, r) := by
  by_cases hr : r = .once
  · subst hr
    rw [Repetition.suffix_eq_nil_iff.2 rfl, List.append_nil]
    rcases h with hquoted | ⟨-, hend⟩
    · exact splitChars_of_isLiteral (isLiteral_iff_isQuoted.2 hquoted)
    · exact splitChars_of_last (Repetition.ofSuffix?_getLast? (hend rfl))
  · exact splitChars_append_suffix h.isBase hr

/-- Behind a quote that stands alone there is no suffix. -/
theorem splitChars_quote (hq : isQuote q = true) (r : Repetition) :
    splitChars (q :: r.suffix.toList) = (q :: r.suffix.toList, .once) := by
  have hbase : isBase [q] = false := by simp [isBase, isLiteral, isName, hq]
  cases r with
  | once => exact splitChars_of_last (Repetition.ofSuffix?_of_isQuote hq)
  | optional | zeroOrMore | oneOrMore =>
    simp [splitChars, Repetition.suffix, Repetition.ofSuffix?, hbase]

/-! ## Terms as texts -/

theorem split_of_isSeparable {base : String} (h : IsSeparable base.toList r) :
    split (base ++ r.suffix) = (base, r) := by
  rw [split, String.toList_append, splitChars_of_isSeparable h, String.ofList_toList]

/-- A base is a literal if and only if it stands between quotes. -/
theorem exists_ofBase_eq_literal_iff {base : String} :
    (∃ text, Symbol.ofBase base = .literal text) ↔ IsQuoted base.toList := by
  rw [← isLiteral_iff_isQuoted, Symbol.ofBase]
  cases isLiteral base.toList <;> simp

/-- **Terms are taken apart without loss, and in one way only.** The base of any text and the
suffix of its repetition make up the text. Conversely a base and the suffix of a repetition
make a text that is taken apart into the two again: whenever the base is a literal, whatever
stands between its quotes, and whenever it is a name, if it is to be repeated or else does not
end in a suffix. The term that is read off has this repetition and this base to show, and
stands for a literal if the base is one and otherwise for the name. So no two such pairs make
the same text; a literal without a suffix is left whole, and so is a quote alone with a suffix
behind it. -/
theorem split_undoes_suffix :
    (∀ term : String, (split term).1 ++ (split term).2.suffix = term) ∧
    (∀ (base : String) (r : Repetition), IsSeparable base.toList r →
      split (base ++ r.suffix) = (base, r) ∧
      ofSource (base ++ r.suffix) = ⟨Symbol.ofBase base, r, base⟩ ∧
      ((∃ text, Symbol.ofBase base = .literal text) ↔ IsQuoted base.toList)) ∧
    (∀ (base base' : String) (r r' : Repetition), IsSeparable base.toList r →
      IsSeparable base'.toList r' → base ++ r.suffix = base' ++ r'.suffix →
      base = base' ∧ r = r') ∧
    (∀ base : String, IsQuoted base.toList → split base = (base, .once)) ∧
    ∀ (q : Char) (r : Repetition), q = '"' ∨ q = '\'' →
      split (String.singleton q ++ r.suffix) = (String.singleton q ++ r.suffix, .once) := by
  refine ⟨fun term => ?_, fun base r h => ?_, fun base base' r r' h h' heq => ?_,
    fun base h => ?_, fun q r hq => ?_⟩
  · rw [← String.toList_inj, String.toList_append, split, String.toList_ofList]
    exact splitChars_append term.toList
  · have hsplit := split_of_isSeparable h
    exact ⟨hsplit, by rw [ofSource, hsplit], exists_ofBase_eq_literal_iff⟩
  · have hparts := split_of_isSeparable h
    rw [heq, split_of_isSeparable h'] at hparts
    obtain ⟨hbase, hr⟩ := Prod.mk.inj hparts
    exact ⟨hbase.symm, hr.symm⟩
  · simpa [Repetition.suffix] using split_of_isSeparable (r := .once) (.inl h)
  · rw [split, String.toList_append, String.toList_singleton, List.singleton_append,
      splitChars_quote (isQuote_iff.2 hq), ← List.singleton_append, String.ofList_append]
    simp

/-- A literal that is nothing but suffixes inside, to be repeated, and a name that ends in a
suffix, with another. -/
theorem split_undoes_suffix_marks :
    IsQuoted "'*+?'".toList ∧ split "'*+?'" = ("'*+?'", .once) ∧
      split "'*+?'+" = ("'*+?'", .oneOrMore) ∧
    IsSeparable "é*".toList .optional ∧ split "é*?" = ("é*", .optional) ∧
      ofSource "é*?" = ⟨.reference "é*", .optional, "é*"⟩ ∧
    split "'*" = ("'*", .once) := by
  have hquoted : IsQuoted "'*+?'".toList := ⟨'\'', ['*', '+', '?'], .inr rfl, rfl⟩
  have hbare : IsSeparable "é*".toList .optional :=
    .inr ⟨⟨'é', ['*'], rfl, by decide, by decide⟩, by simp⟩
  obtain ⟨-, hparts, -, hwhole, hquote⟩ := split_undoes_suffix
  obtain ⟨hliteral, -⟩ := hparts "'*+?'" .oneOrMore (.inl hquoted)
  obtain ⟨hname, hsource, -⟩ := hparts "é*" .optional hbare
  exact ⟨hquoted, hwhole _ hquoted, hliteral, hbare, hname, hsource,
    hquote '\'' .zeroOrMore (.inr rfl)⟩

end Term

end OrderedBnf
