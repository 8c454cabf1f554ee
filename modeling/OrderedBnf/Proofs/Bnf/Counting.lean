import OrderedBnf.Proofs.Bnf.Alternative

/-!
# Documents that are counted

The parser of documents repeats two things of which there has to be one: the rules of a
document, and the ends of the line of each rule. It counts them, and its counter goes on from
zero when it is full. `CountsDocument` says of a document that the counter tells every time that
there was one.

A document that is counted is a document (`CountsDocument.writes`), and a document is counted if
there are fewer than `2 ^ 32` ends of lines in it (`WritesDocument.counts`), which a source has
to have four gigabytes to reach.
-/

namespace OrderedBnf

namespace Bnf

open Matcher

variable {rule : Rule} {rules : List Rule} {a : Char} {b : String} {as : List String}
variable {alternatives : List (List String)}
variable {text later rest line ends indent name behind s₁ s₂ s₃ s₄ : List Char}

/-! ## Texts without the end of a line -/

theorem Unbroken.append (h : Unbroken text) (hlater : Unbroken later) :
    Unbroken (text ++ later) := List.forall_mem_append.2 ⟨h, hlater⟩

theorem Unbroken.cons (ha : ¬ IsLineEnd a) (h : Unbroken text) : Unbroken (a :: text) :=
  List.forall_mem_cons.2 ⟨ha, h⟩

/-- No line ends among spaces, -/
theorem IsSpaces.unbroken (h : IsSpaces text) : Unbroken text := by
  intro a ha
  rw [h a ha]
  decide

theorem isNameChar_of_mem (h : IsName text) : ∀ c ∈ text, IsNameChar c := by
  match text, h with
  | a :: text, ⟨ha, htext⟩ =>
    intro c hc
    rcases List.mem_cons.1 hc with rfl | hc
    · exact .inl ha
    · exact htext c hc

/-- in a name, -/
theorem IsName.unbroken (h : IsName text) : Unbroken text := by
  intro a ha hend
  have hname := isNameChar_of_mem h a ha
  rcases hend with rfl | rfl
  · exact absurd hname (by decide)
  · exact absurd hname (by decide)

theorem not_isLineEnd_of_isPrintable (h : IsPrintable a) : ¬ IsLineEnd a := by
  rintro (rfl | rfl)
  · exact absurd h (by decide)
  · exact absurd h (by decide)

theorem not_isLineEnd_of_isQuote (h : isQuote a = true) : ¬ IsLineEnd a := by
  rintro (rfl | rfl)
  · exact absurd h (by decide)
  · exact absurd h (by decide)

theorem IsBody.unbroken {q : Char} (h : IsBody q text) (hq : isQuote q = true) :
    Unbroken text := by
  induction h with
  | nil => exact nofun
  | escape ha _ ih =>
    refine .cons (by decide) (.cons ?_ ih)
    rcases ha with rfl | rfl
    · decide
    · exact not_isLineEnd_of_isQuote hq
  | backslash _ _ _ ih => exact .cons (by decide) ih
  | plain hprint _ _ _ ih => exact .cons (not_isLineEnd_of_isPrintable hprint) ih

/-- in a literal, -/
theorem IsLiteral.unbroken (h : IsLiteral text) : Unbroken text := by
  obtain ⟨q, body, hq, hbody, rfl⟩ := h
  have hend := not_isLineEnd_of_isQuote hq
  exact .cons hend ((hbody.unbroken hq).append (.cons hend nofun))

theorem WritesTerm.unbroken (h : WritesTerm b text) : Unbroken text := by
  cases h with
  | literal h => exact h.unbroken
  | reference h => exact .cons (by decide) (h.unbroken.append (.cons (by decide) nofun))

theorem WritesAlternative.unbroken (h : WritesAlternative as text) : Unbroken text := by
  induction h with
  | last h => exact h.unbroken
  | more h hspaces _ ih => exact h.unbroken.append (hspaces.unbroken.append ih)

/-- or anywhere else in the alternatives of a rule. -/
theorem WritesLater.unbroken (h : WritesLater alternatives text) : Unbroken text := by
  induction h with
  | nil => exact nofun
  | cons hbefore hafter h _ ih =>
    exact hbefore.unbroken.append
      (.cons (by decide) (hafter.unbroken.append (h.unbroken.append ih)))

/-- No line ends in a rule before the ends of its own. -/
theorem unbroken_line (hindent : IsSpaces indent) (hname : IsName name) (hs₁ : IsSpaces s₁)
    (hs₂ : IsSpaces s₂) (hfirst : WritesAlternative as text)
    (hlater : WritesLater alternatives later) (hs₃ : IsSpaces s₃) :
    Unbroken (indent ++ '<' :: (name ++ '>' :: (s₁ ++ ("::=".toList ++ (s₂ ++ (text ++
      (later ++ s₃))))))) :=
  hindent.unbroken.append (.cons (by decide) (hname.unbroken.append (.cons (by decide)
    (hs₁.unbroken.append (.append (by decide) (hs₂.unbroken.append
      (hfirst.unbroken.append (hlater.unbroken.append hs₃.unbroken))))))))

/-- **A rule is a line and its ends**, which may be others, with spaces behind them. -/
theorem WritesRule.exists_line (h : WritesRule rule text) :
    ∃ line ends behind, text = line ++ (ends ++ behind) ∧ Unbroken line ∧ IsLineEnds ends ∧
      ends ≠ [] ∧ IsSpaces behind ∧
      ∀ {ends' behind'}, IsLineEnds ends' → ends' ≠ [] → IsSpaces behind' →
        WritesRule rule (line ++ (ends' ++ behind')) := by
  cases h with
  | @line indent name s₁ s₂ text later s₃ ends s₄ first alternatives hindent hname hs₁ hs₂
      hfirst hlater hs₃ hends hne hs₄ =>
    have hline := unbroken_line hindent hname hs₁ hs₂ hfirst hlater hs₃
    refine ⟨_, ends, s₄, by simp, hline, hends, hne, hs₄, fun hends' hne' hbehind' => ?_⟩
    simpa using WritesRule.line hindent hname hs₁ hs₂ hfirst hlater hs₃ hends' hne' hbehind'

/-! ## How many ends of lines there are -/

/-- The number of characters that end a line. -/
def countEnds (text : List Char) : Nat := text.countP (IsLineEnd ·)

@[simp] theorem countEnds_append (text later : List Char) :
    countEnds (text ++ later) = countEnds text + countEnds later := List.countP_append

theorem countEnds_eq_zero_iff : countEnds text = 0 ↔ Unbroken text := by
  simp [countEnds, List.countP_eq_zero, Unbroken]

theorem Unbroken.countEnds_eq (h : Unbroken text) : countEnds text = 0 :=
  countEnds_eq_zero_iff.2 h

theorem IsLineEnds.countEnds_eq (h : IsLineEnds ends) : countEnds ends = ends.length := by
  simpa [countEnds, List.countP_eq_length, IsLineEnds] using h

theorem countEnds_line (hline : Unbroken line) (hends : IsLineEnds ends)
    (hbehind : IsSpaces behind) : countEnds (line ++ (ends ++ behind)) = ends.length := by
  rw [countEnds_append, countEnds_append, hline.countEnds_eq, hends.countEnds_eq,
    hbehind.unbroken.countEnds_eq, Nat.zero_add, Nat.add_zero]

/-- The ends of its line are all that there are in a rule. -/
theorem countEnds_rule (hindent : IsSpaces indent) (hname : IsName name) (hs₁ : IsSpaces s₁)
    (hs₂ : IsSpaces s₂) (hfirst : WritesAlternative as text)
    (hlater : WritesLater alternatives later) (hs₃ : IsSpaces s₃) (hends : IsLineEnds ends)
    (hs₄ : IsSpaces s₄) :
    countEnds (indent ++ '<' :: (name ++ '>' :: (s₁ ++ ("::=".toList ++ (s₂ ++ (text ++ (later ++
      (s₃ ++ (ends ++ s₄))))))))) = ends.length := by
  have hcount := countEnds_line (unbroken_line hindent hname hs₁ hs₂ hfirst hlater hs₃) hends hs₄
  rw [← hcount]
  simp only [List.append_assoc, List.cons_append]

theorem WritesRule.countEnds_pos (h : WritesRule rule text) : 0 < countEnds text := by
  obtain ⟨line, ends, behind, rfl, hline, hends, hne, hbehind, -⟩ := h.exists_line
  rw [countEnds_line hline hends hbehind]
  exact List.length_pos_iff.2 hne

/-! ## Documents that are counted -/

theorem ne_nil_of_counted {α : Type} {as : List α} (h : Counted as.length) : as ≠ [] := by
  rintro rfl
  exact not_counted_zero h

/-- A rule whose ends of lines are counted. -/
structure CountsRule (rule : Rule) (text : List Char) : Prop where
  writes : WritesRule rule text
  counted : Counted (countEnds text)

/-- A table of such rules, perhaps without any. -/
inductive CountsTable : List Rule → List Char → Prop
  | nil : CountsTable [] []
  | cons {rule : Rule} {text rest : List Char} {rules : List Rule} :
      CountsRule rule text → CountsTable rules rest → CountsTable (rule :: rules) (text ++ rest)

/-- **How a document is written that is counted**: its rules are as many as the counter can
tell from none, and so are the ends of lines in each of them. -/
def CountsDocument (rules : List Rule) (text : List Char) : Prop :=
  Counted rules.length ∧
    ∃ ends body, IsLineEnds ends ∧ CountsTable rules body ∧ text = ends ++ body

theorem CountsTable.writes (h : CountsTable rules text) (hne : rules ≠ []) :
    WritesTable rules text := by
  induction h with
  | nil => exact absurd rfl hne
  | @cons rule text rest rules hrule hrest ih =>
    cases hrest with
    | nil =>
      rw [List.append_nil]
      exact .last hrule.writes
    | cons => exact .more hrule.writes (ih (List.cons_ne_nil _ _))

/-- **What is counted is a document.** -/
theorem CountsDocument.writes (h : CountsDocument rules text) : WritesDocument rules text := by
  obtain ⟨hcounted, ends, body, hends, hbody, rfl⟩ := h
  exact ⟨ends, body, hends, hbody.writes (ne_nil_of_counted hcounted), rfl⟩

theorem WritesRule.counts (h : WritesRule rule text) (hshort : countEnds text < 2 ^ 32) :
    CountsRule rule text := ⟨h, counted_of_lt (Nat.ne_of_gt h.countEnds_pos) hshort⟩

/-- A table with few ends of lines is counted, and each of its rules has one. -/
theorem WritesTable.counts (h : WritesTable rules text) (hshort : countEnds text < 2 ^ 32) :
    CountsTable rules text ∧ rules.length ≤ countEnds text := by
  induction h with
  | @last rule text h =>
    refine ⟨?_, h.countEnds_pos⟩
    simpa using CountsTable.cons (h.counts hshort) .nil
  | @more rule text rest rules h _ ih =>
    rw [countEnds_append] at hshort ⊢
    obtain ⟨hrest, hlength⟩ := ih (by omega)
    have hpos := h.countEnds_pos
    refine ⟨.cons (h.counts (by omega)) hrest, ?_⟩
    rw [List.length_cons]
    omega

theorem WritesTable.rules_ne_nil (h : WritesTable rules text) : rules ≠ [] := by
  cases h with
  | last => exact List.cons_ne_nil _ _
  | more => exact List.cons_ne_nil _ _

/-- **A document with few ends of lines is counted.** -/
theorem WritesDocument.counts (h : WritesDocument rules text) (hshort : countEnds text < 2 ^ 32) :
    CountsDocument rules text := by
  obtain ⟨ends, body, hends, hbody, rfl⟩ := h
  rw [countEnds_append] at hshort
  obtain ⟨htable, hlength⟩ := hbody.counts (by omega)
  have hne := List.length_pos_iff.2 hbody.rules_ne_nil
  exact ⟨counted_of_lt (by omega) (by omega), ends, body, hends, htable, rfl⟩

/-! ## Lines with any number of ends -/

/-- The rule of one letter, -/
def letterRule : Rule := ⟨"a", [["'x'"]]⟩

/-- on a line with so many ends. -/
def letterLine (k : Nat) : List Char :=
  ['<', 'a', '>', ':', ':', '=', '\'', 'x', '\''] ++ List.replicate k '\n'

theorem isLineEnds_replicate (k : Nat) : IsLineEnds (List.replicate k '\n') := by
  intro a ha
  exact .inr (List.eq_of_mem_replicate ha)

theorem writesRule_letterLine {k : Nat} (hk : k ≠ 0) :
    WritesRule letterRule (letterLine k) := by
  have hname : IsName ['a'] := by decide
  have hterm : WritesTerm (String.ofList ['\'', 'x', '\'']) ['\'', 'x', '\''] :=
    .literal (by decide)
  have hrule := WritesRule.line isSpaces_nil hname isSpaces_nil isSpaces_nil (.last hterm) .nil
    isSpaces_nil (isLineEnds_replicate k) (by simpa using hk) isSpaces_nil
  have htext : letterLine k = [] ++ '<' :: (['a'] ++ '>' :: ([] ++ ("::=".toList ++ ([] ++
      (['\'', 'x', '\''] ++ ([] ++ ([] ++ (List.replicate k '\n' ++ [])))))))) := by
    rw [show "::=".toList = [':', ':', '='] by decide]
    simp [letterLine]
  rw [htext]
  exact hrule

theorem countEnds_letterLine (k : Nat) : countEnds (letterLine k) = k := by
  have hline : Unbroken ['<', 'a', '>', ':', ':', '=', '\'', 'x', '\''] := by decide
  rw [letterLine, countEnds_append, hline.countEnds_eq, (isLineEnds_replicate k).countEnds_eq,
    List.length_replicate, Nat.zero_add]

theorem letterLine_add (j k : Nat) :
    letterLine (j + k) = letterLine j ++ List.replicate k '\n' := by
  rw [letterLine, letterLine, List.append_assoc, List.replicate_append_replicate]

theorem not_counted_full : ¬ Counted (2 ^ 32) := fun h => h (Nat.mod_self _)

/-! ## A table from its first rule on -/

/-- A rule is a rule without its indent. -/
theorem CountsRule.strip (h : CountsRule rule text) :
    ∃ indent line, text = indent ++ line ∧ IsSpaces indent ∧ Begins (· = '<') line ∧
      CountsRule rule line := by
  obtain ⟨hwrites, hcounted⟩ := h
  cases hwrites with
  | @line indent _ _ _ _ _ _ _ _ _ _ hindent hname hs₁ hs₂ hfirst hlater hs₃ hends hne hs₄ =>
    have hline := WritesRule.line isSpaces_nil hname hs₁ hs₂ hfirst hlater hs₃ hends hne hs₄
    rw [countEnds_append, hindent.unbroken.countEnds_eq, Nat.zero_add] at hcounted
    exact ⟨indent, _, rfl, hindent, begins_cons.2 rfl, hline, hcounted⟩

/-- And so is a table. -/
theorem CountsTable.strip (h : CountsTable rules text) :
    ∃ indent body, text = indent ++ body ∧ IsSpaces indent ∧
      ¬ Begins (fun a => a = ' ' ∨ IsLineEnd a) body ∧ CountsTable rules body := by
  cases h with
  | nil => exact ⟨[], [], rfl, isSpaces_nil, begins_nil, .nil⟩
  | @cons rule text rest rules h hrest =>
    obtain ⟨indent, line, rfl, hindent, ⟨a, line, rfl, rfl⟩, hline⟩ := h.strip
    refine ⟨indent, '<' :: line ++ rest, List.append_assoc .., hindent, ?_, .cons hline hrest⟩
    rw [List.cons_append, begins_cons]
    decide

/-- **A table is its first rule and what is read behind it**: a table without the indent that
the first rule has taken. -/
theorem CountsTable.uncons (h : CountsTable (rule :: rules) text) :
    ∃ line indent rest, text = line ++ (indent ++ rest) ∧ CountsRule rule line ∧
      IsSpaces indent ∧ ¬ Begins (fun a => a = ' ' ∨ IsLineEnd a) rest ∧
      CountsTable rules rest := by
  cases h with
  | @cons _ line _ _ h hrest =>
    obtain ⟨indent, rest, rfl, hindent, hbegins, hrules⟩ := hrest.strip
    exact ⟨line, indent, rest, rfl, h, hindent, hbegins, hrules⟩

end Bnf

end OrderedBnf
