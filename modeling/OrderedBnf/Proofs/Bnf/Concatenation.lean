import OrderedBnf.Proofs.Bnf.FirstBadLine
import OrderedBnf.Proofs.Guarded.Position

/-!
# One document behind another

A document may stand behind another, and then the rules of both are written, first those
of the one and then those of the other. At the seam the last rule of the first document
takes more than it did: the ends of lines that the second begins with, or its indent.

There is one kind of seam that does not hold (`Parts`). The last rule of the first
document has taken a space that stands behind its ends of lines, so it takes no further
end of a line, and no rule begins with one. Then the first document is read and nothing
behind it.

The ends of lines at a seam are counted together, and they may fill the counter although
they do not in either document, as may the rules. So for the two to hold together there
are to be fewer than `2 ^ 32` ends of lines in them.
-/

namespace OrderedBnf

namespace Bnf

open Goal

/-- **A seam that parts two documents**: the first ends in a space, and the second begins
with the end of a line. -/
def Parts (first second : List Char) : Prop := first.getLast? = some ' ' ∧ Begins IsLineEnd second

variable {n offset : Nat} {text text' ends rest later : List Char} {node : Node} {m : Match}
variable {rule : Rule} {rules rules' : List Rule} {s₁ s₂ : String} {t₁ t₂ : List Rule}

/-! ## Documents that hold together -/

/-- A rule whose line ends with its text takes further ends of lines. -/
theorem WritesRule.append_lineEnds (h : WritesRule rule text) (hlast : text.getLast? ≠ some ' ')
    (hmore : IsLineEnds ends) : WritesRule rule (text ++ ends) := by
  obtain ⟨line, ends', behind, rfl, -, hends, hne, hbehind, hrule⟩ := h.exists_line
  obtain rfl : behind = [] := by
    by_contra hspace
    rw [← List.append_assoc, List.getLast?_append_of_ne_nil _ hspace,
      List.getLast?_eq_some_getLast hspace] at hlast
    exact hlast (congrArg some (hbehind _ (List.getLast_mem hspace)))
  have hboth : IsLineEnds (ends' ++ ends) := List.forall_mem_append.2 ⟨hends, hmore⟩
  simpa using hrule hboth (by simp [hne]) isSpaces_nil

theorem WritesRule.ne_nil (h : WritesRule rule text) : text ≠ [] := by
  rintro rfl
  exact absurd h.countEnds_pos (Nat.lt_irrefl 0)

theorem WritesTable.ne_nil (h : WritesTable rules text) : text ≠ [] := by
  cases h with
  | last h => exact h.ne_nil
  | more h => exact List.append_ne_nil_of_left_ne_nil h.ne_nil _

/-- And so does a table. -/
theorem WritesTable.append_lineEnds (h : WritesTable rules text) (hlast : text.getLast? ≠ some ' ')
    (hends : IsLineEnds ends) : WritesTable rules (text ++ ends) := by
  induction h with
  | last h => exact .last (h.append_lineEnds hlast hends)
  | more h hrest ih =>
    rw [List.getLast?_append_of_ne_nil _ hrest.ne_nil] at hlast
    rw [List.append_assoc]
    exact .more h (ih hlast)

/-- A table may stand right behind another. -/
theorem WritesTable.append (h : WritesTable rules text) (h' : WritesTable rules' text') :
    WritesTable (rules ++ rules') (text ++ text') := by
  induction h with
  | last h => exact .more h h'
  | more h _ ih =>
    rw [List.append_assoc]
    exact .more h ih

/-- **A document may stand behind another** if the seam does not part them. -/
theorem WritesDocument.append (h : WritesDocument rules text) (h' : WritesDocument rules' text')
    (hseam : ¬ Parts text text') : WritesDocument (rules ++ rules') (text ++ text') := by
  obtain ⟨ends, body, hends, hbody, rfl⟩ := h
  obtain ⟨ends', body', hends', hbody', rfl⟩ := h'
  have htable : WritesTable rules (body ++ ends') := by
    cases ends' with
    | nil => rwa [List.append_nil]
    | cons a ends' =>
      refine hbody.append_lineEnds (fun hlast => hseam ⟨?_, ?_⟩) hends'
      · rwa [List.getLast?_append_of_ne_nil _ hbody.ne_nil]
      · exact begins_cons.2 (hends' a (by simp))
  exact ⟨ends, _, hends, htable.append hbody', by simp⟩

theorem WithinDepth.append (h : WithinDepth rules) (h' : WithinDepth rules') :
    WithinDepth (rules ++ rules') :=
  List.forall_mem_append.2 ⟨h, h'⟩

/-! ## Documents that are parted -/

/-- What a text begins with is no matter of what comes behind it. -/
theorem begins_append_iff {p : Char → Prop} (hne : text ≠ []) :
    Begins p (text ++ later) ↔ Begins p text := by
  obtain ⟨a, text, rfl⟩ := List.exists_cons_of_ne_nil hne
  simp

/-- A rule is read alike in a longer text, unless more of the seam belongs to it. -/
theorem ReadsRule.append (h : ReadsRule n offset text rest node)
    (hseam : rest = [] → Parts text later) :
    ReadsRule n offset (text ++ later) (rest ++ later) node := by
  cases h with
  | @line line ends indent _ _ _ hline hends hcounted hindent hend hspace =>
    have htext : line ++ (ends ++ (indent ++ rest)) ++ later =
        line ++ (ends ++ (indent ++ (rest ++ later))) := by
      simp only [List.append_assoc]
    rw [htext]
    refine .line hline hends hcounted hindent ?_ ?_
    · by_cases hrest : indent ++ rest = []
      · -- without an indent the text ends with the end of its line, not with a space
        obtain ⟨rfl, rfl⟩ := List.append_eq_nil_iff.1 hrest
        obtain ⟨hlast, -⟩ := hseam rfl
        rw [List.append_nil, List.append_nil,
          List.getLast?_append_of_ne_nil _ (ne_nil_of_counted hcounted)] at hlast
        exact absurd (hends ' ' (List.mem_of_getLast? hlast)) (by decide)
      · rw [← List.append_assoc, begins_append_iff hrest]
        exact hend
    · cases rest with
      | nil =>
        obtain ⟨a, later, rfl, ha⟩ := (hseam rfl).2
        rw [List.nil_append, begins_cons]
        rintro rfl
        exact absurd ha (by decide)
      | cons a rest => simpa using hspace

/-- **At a seam that parts them the first text is read alone.** -/
theorem ReadsRules.append (h : ReadsRules n offset text m) (hall : m.stop.rest = [])
    (hlater : Begins IsLineEnd later) (hlast : text ≠ [] → text.getLast? = some ' ') :
    ReadsRules n offset (text ++ later) ⟨⟨m.stop.offset, later⟩, m.nodes⟩ := by
  induction h with
  | stop =>
    obtain rfl : _ = [] := hall
    exact .stop fun rest node => not_readsRule_of_lineEnd hlater
  | @more offset text rest node m hrule _ ih =>
    obtain ⟨part, hne, rfl, -⟩ := hrule.exists_append
    replace hlast := hlast (by simp [hne])
    refine .more (hrule.append fun _ => ⟨hlast, hlater⟩) (ih hall fun hrest => ?_)
    rwa [List.getLast?_append_of_ne_nil _ hrest] at hlast

theorem Reading.append (h : Reading s₁ ends text m) (hall : m.stop.rest = [])
    (hne : m.nodes ≠ []) (hseam : Parts s₁.toList s₂.toList) :
    Reading (s₁ ++ s₂) ends (text ++ s₂.toList) ⟨⟨m.stop.offset, s₂.toList⟩, m.nodes⟩ := by
  have htext : text ≠ [] := by
    rintro rfl
    cases h.rules with
    | stop => exact hne rfl
    | more hrule => exact not_readsRule_nil _ _ hrule
  have hsource : (s₁ ++ s₂).toList = ends ++ (text ++ s₂.toList) := by
    rw [String.toList_append, h.source_eq, List.append_assoc]
  refine ⟨hsource, h.isLineEnds, ?_, h.rules.append hall hseam.2 fun htext => ?_⟩
  · rw [begins_append_iff htext]
    exact h.not_begins
  · rw [← List.getLast?_append_of_ne_nil ends htext, ← h.source_eq]
    exact hseam.1

/-- A source whose rules are known is read to its end. -/
theorem exists_reading_of_ok (h : writtenRules s₁ = .ok rules) :
    ∃ ends text m, Reading s₁ ends text m ∧ m.stop.rest = [] ∧
      Matcher.Counted m.nodes.length := by
  obtain ⟨ends, text, m, hsource⟩ := exists_reading s₁
  obtain ⟨events, -, hparse⟩ := hsource.parse_eq
  have hcounted : Matcher.Counted m.nodes.length := by
    by_contra hcounted
    rw [writtenRules, hparse, if_neg hcounted] at h
    cases h
  refine ⟨ends, text, m, hsource, by_contra fun hleft => ?_, hcounted⟩
  rw [writtenRules, hparse, if_pos hcounted] at h
  simp only [ofParse, Parser.finish, Parser.problems_of_rest_ne_nil hleft] at h
  cases h

/-- The end of a text has the same position in a longer one. -/
theorem ofOffset_append (s₁ s₂ : String) :
    Position.ofOffset (s₁ ++ s₂) s₁.utf8ByteSize = Position.ofOffset s₁ s₁.utf8ByteSize := by
  rw [Position.ofOffset, Position.ofOffset, Position.advance_eq, Position.advance_eq,
    ← byteLength_toList, String.toList_append, takeBytes_byteLength,
    takeBytes_of_le (Nat.le_refl _)]

/-- **The error stands at the seam.** -/
theorem compile_append_of_parts (h : writtenRules s₁ = .ok rules)
    (hseam : Parts s₁.toList s₂.toList) (eol : EolStyle) :
    ∃ problem, compile eol (s₁ ++ s₂) =
      .error ⟨.point (Position.ofOffset s₁ s₁.utf8ByteSize), .rejected problem⟩ := by
  obtain ⟨ends, text, m, hfirst, hall, hcounted⟩ := exists_reading_of_ok h
  obtain ⟨events, -, hparse⟩ := (hfirst.append hall (ne_nil_of_counted hcounted) hseam).parse_eq
  rw [if_pos hcounted] at hparse
  have hstop : m.stop.offset = byteLength s₁.toList := by
    obtain ⟨part, hpart, hoffset, -⟩ := hfirst.cut
    rw [hoffset, hfirst.source_eq, hpart, hall, List.append_nil]
  have hlt : byteLength s₁.toList < (s₁ ++ s₂).utf8ByteSize := by
    obtain ⟨a, later, hlater, -⟩ := hseam.2
    rw [← byteLength_toList, String.toList_append, byteLength_append, hlater, byteLength]
    have := a.utf8Size_pos
    omega
  obtain ⟨part, line, later, hlocated⟩ := exists_isLocated hparse (hstop ▸ hlt)
  -- what was read is the first source, and then no line comes but the end of one
  have hbytes : byteLength part = byteLength s₁.toList := hlocated.stop_eq.symm.trans hstop
  have hsource : s₁.toList ++ s₂.toList = part ++ (line ++ later) :=
    String.toList_append.symm.trans hlocated.source_eq
  obtain rfl : part = s₁.toList := by
    rw [← takeBytes_byteLength part (line ++ later), ← hsource, hbytes, takeBytes_byteLength]
  obtain rfl : line = [] := by
    cases line with
    | nil => rfl
    | cons a line =>
      have hbegins := hseam.2
      rw [List.append_cancel_left hsource, List.cons_append, begins_cons] at hbegins
      exact absurd hbegins (hlocated.inLine a (by simp))
  rw [List.append_cancel_left hsource] at hseam
  obtain ⟨place, found, expected, hle, hle', herror⟩ := hlocated.place (.inl hseam.2)
  obtain rfl : place = s₁.utf8ByteSize := by
    rw [List.append_nil] at hle'
    rw [← byteLength_toList]
    exact Nat.le_antisymm hle' hle
  rw [ofOffset_append] at herror
  exact ⟨_, herror eol⟩

/-! ## Both -/

/-- **Compiling is compositional.** Of two sources that are compiled, the one behind the
other is compiled to the rules that are written in both, with a rule for the end of a line
behind them if neither has one; unless the first ends in a space and the second begins
with the end of a line, where the error stands at the end of the first. For the one to be
compiled that holds together there are to be too few ends of lines in the two to fill a
counter. -/
theorem compile_append (e₁ e₂ eol : EolStyle) (h₁ : compile e₁ s₁ = .ok t₁)
    (h₂ : compile e₂ s₂ = .ok t₂) :
    ∃ u₁ u₂, writtenRules s₁ = .ok u₁ ∧ writtenRules s₂ = .ok u₂ ∧
      t₁ = withEol e₁ u₁ ∧ t₂ = withEol e₂ u₂ ∧
      (¬ Parts s₁.toList s₂.toList → countEnds (s₁ ++ s₂).toList < 2 ^ 32 →
        compile eol (s₁ ++ s₂) =
          .ok (if u₁.any (·.name == "EOL") || u₂.any (·.name == "EOL") then u₁ ++ u₂
            else u₁ ++ u₂ ++ [eolRule eol])) ∧
      (Parts s₁.toList s₂.toList → ∃ problem, compile eol (s₁ ++ s₂) =
        .error ⟨.point (Position.ofOffset s₁ s₁.utf8ByteSize), .rejected problem⟩) := by
  obtain ⟨u₁, hu₁, hdepth₁, rfl⟩ := compile_eq_ok_iff.1 h₁
  obtain ⟨u₂, hu₂, hdepth₂, rfl⟩ := compile_eq_ok_iff.1 h₂
  have hwritten := writtenRules_eq_ok hu₁ hdepth₁
  refine ⟨u₁, u₂, hwritten, writtenRules_eq_ok hu₂ hdepth₂, rfl, rfl, fun hseam hshort => ?_,
    fun hseam => compile_append_of_parts hwritten hseam eol⟩
  have hboth : WritesDocument (u₁ ++ u₂) (s₁ ++ s₂).toList := by
    rw [String.toList_append]
    exact hu₁.writes.append hu₂.writes hseam
  rw [compile_eq_ok_iff.2 ⟨_, hboth.counts hshort, hdepth₁.append hdepth₂, rfl⟩, ← List.any_append]
  rfl

/-- A rule, and behind an empty line a rule for the end of a line. The two hold together
unless a space comes between them. -/
theorem compile_append_seam :
    countEnds ("<a>::='x'\n" ++ "\n <EOL>::=<a>\n").toList < 2 ^ 32 ∧
    compile .together "<a>::='x'\n" = .ok [⟨"a", [["'x'"]]⟩, eolRule .together] ∧
    compile .together "<a>::='x'\n " = .ok [⟨"a", [["'x'"]]⟩, eolRule .together] ∧
    compile .apart "\n <EOL>::=<a>\n" = .ok [⟨"EOL", [["a"]]⟩] ∧
    compile .apart ("<a>::='x'\n" ++ "\n <EOL>::=<a>\n") =
      .ok [⟨"a", [["'x'"]]⟩, ⟨"EOL", [["a"]]⟩] ∧
    ∃ problem, compile .apart ("<a>::='x'\n " ++ "\n <EOL>::=<a>\n") =
      .error ⟨.point ⟨2, 2⟩, .rejected problem⟩ := by
  have hshort : countEnds ("<a>::='x'\n" ++ "\n <EOL>::=<a>\n").toList < 2 ^ 32 := by
    decide +kernel
  have hu₁ : writtenRules "<a>::='x'\n" = .ok [⟨"a", [["'x'"]]⟩] := by decide +kernel
  have hu₁' : writtenRules "<a>::='x'\n " = .ok [⟨"a", [["'x'"]]⟩] := by decide +kernel
  have hu₂ : writtenRules "\n <EOL>::=<a>\n" = .ok [⟨"EOL", [["a"]]⟩] := by decide +kernel
  have h₁ : compile .together "<a>::='x'\n" = .ok [⟨"a", [["'x'"]]⟩, eolRule .together] := by
    rw [compile, hu₁]
    rfl
  have h₁' : compile .together "<a>::='x'\n " = .ok [⟨"a", [["'x'"]]⟩, eolRule .together] := by
    rw [compile, hu₁']
    rfl
  have h₂ : compile .apart "\n <EOL>::=<a>\n" = .ok [⟨"EOL", [["a"]]⟩] := by
    rw [compile, hu₂]
    rfl
  obtain ⟨u₁, u₂, hw₁, hw₂, -, -, hholds, -⟩ := compile_append .together .apart .apart h₁ h₂
  obtain rfl := Except.ok.inj (hu₁.symm.trans hw₁)
  obtain rfl := Except.ok.inj (hu₂.symm.trans hw₂)
  obtain ⟨-, -, -, -, -, -, -, hparts⟩ := compile_append .together .apart .apart h₁' h₂
  exact ⟨hshort, h₁, h₁', h₂, hholds (fun hseam => absurd hseam.1 (by decide)) hshort,
    hparts ⟨by decide, begins_cons.2 (by decide)⟩⟩

/-- **With `2 ^ 31` ends of lines on either side of the seam** the two are compiled, and not the
one behind the other. -/
theorem not_compile_append :
    ¬ ∀ (s₁ s₂ : String) (t₁ t₂ : List Rule), compile .together s₁ = .ok t₁ →
      compile .together s₂ = .ok t₂ → ¬ Parts s₁.toList s₂.toList →
      ∃ t, compile .together (s₁ ++ s₂) = .ok t := by
  intro hall
  have hends : IsLineEnds (List.replicate (2 ^ 31) '\n') := isLineEnds_replicate _
  have hfirst : compile .together (letterSource (2 ^ 31)) = .ok (withEol .together [letterRule]) :=
    compile_letterLine isLineEnds_nil (by decide) .together
  have hsecond := compile_letterLine hends (show Matcher.Counted 1 by decide) .together
  have hlast : (letterLine (2 ^ 31)).getLast? = some '\n' := by
    have hne : List.replicate (2 ^ 31) '\n' ≠ [] := by
      rw [Ne, List.replicate_eq_nil_iff]
      decide
    rw [letterLine, List.getLast?_append_of_ne_nil _ hne, List.getLast?_replicate,
      if_neg (by decide)]
  have hseam (later : List Char) : ¬ Parts (letterSource (2 ^ 31)).toList later := by
    rintro ⟨hspace, -⟩
    rw [letterSource, String.toList_ofList, hlast] at hspace
    exact absurd hspace (by decide)
  have htwice : 2 ^ 31 + 2 ^ 31 = 2 ^ 32 := by decide
  have hsource : (letterSource (2 ^ 31) ++ String.ofList (List.replicate (2 ^ 31) '\n' ++
      letterLine 1)).toList = letterLine (2 ^ 32) ++ letterLine 1 := by
    rw [String.toList_append, letterSource, String.toList_ofList, String.toList_ofList,
      ← List.append_assoc, ← letterLine_add, htwice]
  have hfull : ¬ Matcher.Counted (countEnds (letterLine (2 ^ 32))) := by
    rw [countEnds_letterLine]
    exact not_counted_full
  have hnone := parse_eq_none_of_full (writesRule_letterLine (by decide)) hfull
    withinDepth_letterRule (by rw [letterLine, List.cons_append, begins_cons]; decide) hsource
  obtain ⟨t, ht⟩ := hall _ _ _ _ hfirst hsecond (hseam _)
  rw [compile, writtenRules, hnone] at ht
  cases ht

end Bnf

end OrderedBnf
