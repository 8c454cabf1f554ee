import OrderedBnf.Proofs.Bnf.Counting

/-!
# Tables as they are shown

A table that is shown rule by rule is a document of itself. A literal is shown
as it is kept and a name between brackets, which is how either is written;
one space stands between two terms, ` | ` between two alternatives, and every
rule has a line.

Which tables have a document at all is then clear (`exists_writesTable_iff`).
-/

namespace OrderedBnf

namespace Bnf

variable {a : String} {as : List String} {text : List Char} {r : Rule} {rules : List Rule}
variable {alternatives : List (List String)}

/-! ## Terms -/

/-- The characters of a name are no suffixes. -/
theorem ofSuffix?_of_isNameChar {c : Char} (h : IsNameChar c) : Repetition.ofSuffix? c = none := by
  unfold Repetition.ofSuffix?
  split
  · exact absurd h (by decide)
  · exact absurd h (by decide)
  · exact absurd h (by decide)
  · rfl

theorem noSuffix_of_isName (h : IsName text) :
    text.getLast?.bind Repetition.ofSuffix? = none := by
  cases hlast : text.getLast? with
  | none => rfl
  | some c => exact ofSuffix?_of_isNameChar (isNameChar_of_mem h c (List.mem_of_getLast? hlast))

/-- A literal is shown as it is kept, -/
theorem showTerm_of_isLiteral (h : IsLiteral text) :
    Rule.showTerm (String.ofList text) = String.ofList text := by
  rw [Rule.showTerm, Term.ofSource_of_isLiteral (isLiteral_of_isLiteral h)]

/-- and a name between brackets. -/
theorem showTerm_of_isName (h : IsName text) :
    Rule.showTerm (String.ofList text) = "<" ++ String.ofList text ++ ">" := by
  rw [Rule.showTerm, Term.ofSource_of_name (isLiteral_of_isName h) (noSuffix_of_isName h)]
  simp [Repetition.suffix]

/-- **A plain term is shown as it is written.** -/
theorem writesTerm_showTerm (h : IsPlainTerm a) : WritesTerm a (Rule.showTerm a).toList := by
  obtain ⟨text, rfl⟩ : ∃ text, a = String.ofList text := ⟨a.toList, by simp⟩
  rw [IsPlainTerm, String.toList_ofList] at h
  rcases h with h | h
  · simpa [showTerm_of_isLiteral h] using WritesTerm.literal h
  · simpa [showTerm_of_isName h] using WritesTerm.reference h

theorem WritesTerm.isPlainTerm (h : WritesTerm a text) : IsPlainTerm a := by
  cases h with
  | literal h => exact .inl (by simpa using h)
  | reference h => exact .inr (by simpa using h)

/-! ## Alternatives -/

theorem writesAlternative_show (hne : as ≠ []) (h : ∀ a ∈ as, IsPlainTerm a) :
    WritesAlternative as (Rule.showAlternative as).toList := by
  induction as with
  | nil => exact absurd rfl hne
  | cons a as ih =>
    have ha := writesTerm_showTerm (h a (by simp))
    cases as with
    | nil => simpa [Rule.showAlternative] using WritesAlternative.last ha
    | cons b as =>
      have hlater := ih (by simp) fun b hb => h b (by simp [hb])
      simpa [Rule.showAlternative] using WritesAlternative.more ha isSpaces_one hlater

theorem WritesAlternative.isPlain (h : WritesAlternative as text) :
    as ≠ [] ∧ ∀ a ∈ as, IsPlainTerm a := by
  induction h with
  | last h => simpa using h.isPlainTerm
  | more h _ _ ih => simpa [h.isPlainTerm] using ih.2

/-- The alternatives after the first, each behind its bar. -/
def showLater (alternatives : List (List String)) : List Char :=
  alternatives.flatMap fun as => " | ".toList ++ (Rule.showAlternative as).toList

theorem writesLater_show (hne : ∀ as ∈ alternatives, as ≠ [])
    (h : ∀ as ∈ alternatives, ∀ a ∈ as, IsPlainTerm a) :
    WritesLater alternatives (showLater alternatives) := by
  induction alternatives with
  | nil => exact .nil
  | cons as alternatives ih =>
    have has := writesAlternative_show (hne as (by simp)) (h as (by simp))
    have hlater := ih (fun as has => hne as (by simp [has])) fun as has => h as (by simp [has])
    simpa [showLater] using WritesLater.cons isSpaces_one isSpaces_one has hlater

theorem WritesLater.isPlain (h : WritesLater alternatives text) :
    ∀ as ∈ alternatives, as ≠ [] ∧ ∀ a ∈ as, IsPlainTerm a := by
  induction h with
  | nil => simp
  | cons _ _ h _ ih => simpa [h.isPlain.1] using ⟨h.isPlain.2, ih⟩

/-! ## Rules and tables -/

theorem toList_showAlternatives (as : List String) (alternatives : List (List String)) :
    (" | ".intercalate ((as :: alternatives).map Rule.showAlternative)).toList =
      (Rule.showAlternative as).toList ++ showLater alternatives := by
  induction alternatives generalizing as with
  | nil => simp [showLater]
  | cons bs alternatives ih =>
    have h := ih bs
    simp only [List.map_cons] at h ⊢
    rw [String.intercalate_cons_cons, String.toList_append, h]
    simp [showLater]

/-- **A rule is shown as it is written**, on a line that ends once. -/
theorem writesRule_show (h : IsPlainRule r) : WritesRule r (r.toString ++ "\n").toList ∧
    countEnds (r.toString ++ "\n").toList = 1 := by
  obtain ⟨name, alternatives⟩ := r
  obtain ⟨hname, hne, hne', hterms⟩ := h
  obtain ⟨as, alternatives, rfl⟩ := List.exists_cons_of_ne_nil hne
  have hfirst := writesAlternative_show (hne' as (by simp)) (hterms as (by simp))
  have hlater : WritesLater alternatives (showLater alternatives) :=
    writesLater_show (fun as has => hne' as (by simp [has])) fun as has => hterms as (by simp [has])
  have hend : IsLineEnds ['\n'] := by simp [IsLineEnds, IsLineEnd]
  have hline := WritesRule.line isSpaces_nil hname isSpaces_one isSpaces_one hfirst hlater
    isSpaces_nil hend (by simp) isSpaces_nil
  have hcount := countEnds_rule isSpaces_nil hname isSpaces_one isSpaces_one hfirst hlater
    isSpaces_nil hend isSpaces_nil
  rw [String.ofList_toList] at hline
  have htext : (Rule.toString ⟨name, as :: alternatives⟩ ++ "\n").toList = '<' :: (name.toList ++
      '>' :: ' ' :: ("::=".toList ++ ' ' :: ((Rule.showAlternative as).toList ++
        (showLater alternatives ++ ['\n'])))) := by
    rw [String.toList_append, Rule.toString, String.toList_append, toList_showAlternatives]
    simp
  rw [htext]
  exact ⟨by simpa using hline, by simpa using hcount⟩

theorem WritesRule.isPlainRule (h : WritesRule r text) : IsPlainRule r := by
  cases h with
  | line _ hname _ _ hfirst hlater =>
    refine ⟨by simpa using hname, by simp, ?_, ?_⟩
    · simpa [hfirst.isPlain.1] using fun as has => (hlater.isPlain as has).1
    · simpa using ⟨hfirst.isPlain.2, fun as has => (hlater.isPlain as has).2⟩

theorem WritesTable.isPlainTable (h : WritesTable rules text) : IsPlainTable rules := by
  induction h with
  | last h => exact ⟨by simp, by simpa using h.isPlainRule⟩
  | more h _ ih => exact ⟨by simp, by simpa [h.isPlainRule] using ih.isPlainRule⟩

/-- A table is shown with as many ends of lines as rules, one for each. -/
theorem countsTable_show (h : ∀ r ∈ rules, IsPlainRule r) :
    CountsTable rules (Rule.showTable rules).toList ∧
      countEnds (Rule.showTable rules).toList = rules.length := by
  induction rules with
  | nil => exact ⟨.nil, rfl⟩
  | cons r rules ih =>
    obtain ⟨hr, hrules⟩ := List.forall_mem_cons.1 h
    obtain ⟨hrule, hone⟩ := writesRule_show hr
    obtain ⟨htable, hcount⟩ := ih hrules
    have htext : (Rule.showTable (r :: rules)).toList =
        (r.toString ++ "\n").toList ++ (Rule.showTable rules).toList := by
      simp [Rule.showTable]
    rw [htext, countEnds_append, hone, hcount, List.length_cons, Nat.add_comm]
    exact ⟨.cons ⟨hrule, hone ▸ by decide⟩ htable, rfl⟩

/-- **A table is shown as it is written.** -/
theorem writesTable_show (h : IsPlainTable rules) :
    WritesTable rules (Rule.showTable rules).toList :=
  (countsTable_show h.isPlainRule).1.writes h.ne_nil

/-- **The tables that have a document** are the plain ones. -/
theorem exists_writesTable_iff : (∃ text, WritesTable rules text) ↔ IsPlainTable rules :=
  ⟨fun ⟨_, h⟩ => h.isPlainTable, fun h => ⟨_, writesTable_show h⟩⟩

end Bnf

end OrderedBnf
