import OrderedBnf.Command.Run
import OrderedBnf.Proofs.Bnf.Acceptance
import OrderedBnf.Proofs.Bnf.Shown

/-!
# Showing a table and compiling it again

A table that is shown is compiled to itself, up to the rule for the end of a
line that is added when there is none. Compiled tables have that rule and are
plain and within the depth, the rule itself included, so that from the first
compilation on nothing changes any more: neither the table, whatever shape is
asked for, nor what the command line prints.
-/

namespace OrderedBnf

namespace Bnf

variable {source : String} {rules : List Rule} {eol e₁ e₂ : EolStyle}

/-! ## The rule that is added -/

theorem isPlainRule_eolRule (eol : EolStyle) : IsPlainRule (eolRule eol) := by
  have h : ∀ eol, IsPlainTable [eolRule eol] := by
    rintro (_ | _) <;> decide
  exact (h eol).isPlainRule _ (by simp)

theorem withinDepth_eolRule (eol : EolStyle) : WithinDepth [eolRule eol] := by
  cases eol <;> decide

theorem definesEol_withEol (eol : EolStyle) (rules : List Rule) :
    definesEol (withEol eol rules) = true := by
  unfold withEol
  split
  · assumption
  · cases eol <;> simp [definesEol, eolRule, eolName]

theorem withEol_of_definesEol (h : definesEol rules = true) : withEol eol rules = rules :=
  if_pos h

theorem IsPlainTable.withEol (h : IsPlainTable rules) (eol : EolStyle) :
    IsPlainTable (withEol eol rules) := by
  unfold Bnf.withEol
  split
  · exact h
  · refine ⟨by simp, fun r hr => ?_⟩
    rcases List.mem_append.1 hr with hr | hr
    · exact h.isPlainRule r hr
    · obtain rfl := List.mem_singleton.1 hr
      exact isPlainRule_eolRule eol

theorem WithinDepth.withEol (h : WithinDepth rules) (eol : EolStyle) :
    WithinDepth (withEol eol rules) := by
  unfold Bnf.withEol
  split
  · exact h
  · intro r hr
    rcases List.mem_append.1 hr with hr | hr
    · exact h r hr
    · exact withinDepth_eolRule eol r hr

/-! ## Tables -/

/-- **What is shown is compiled to what was shown**, if its rules are counted, -/
theorem compile_show (h : IsPlainTable rules) (hdepth : WithinDepth rules)
    (hcounted : Matcher.Counted rules.length) (eol : EolStyle) :
    compile eol (Rule.showTable rules) = .ok (withEol eol rules) := by
  have hlines : CountsDocument rules (Rule.showTable rules).toList :=
    ⟨hcounted, [], _, isLineEnds_nil, (countsTable_show h.isPlainRule).1, rfl⟩
  exact compile_eq_ok_iff.2 ⟨rules, hlines, hdepth, rfl⟩

/-- and otherwise it is no document to the compiler. -/
theorem compile_show_of_not_counted (h : IsPlainTable rules) (hdepth : WithinDepth rules)
    (hcounted : ¬ Matcher.Counted rules.length) (eol : EolStyle) :
    compile eol (Rule.showTable rules) =
      .error ⟨.whole, .unreadable (Rule.showTable rules)⟩ := by
  obtain ⟨stop, nodes, hs, -⟩ :=
    settles_document isLineEnds_nil (countsTable_show h.isPlainRule).1
  rw [if_neg hcounted] at hs
  have hparse := parse_eq_none_of_settles hs (documentLevels_le_iff.2 hdepth)
  rw [compile, writtenRules, hparse]
  rfl

/-- A compiled table can be written, is within the depth and has a rule for the end of a
line. -/
theorem isPlainTable_of_compile (h : compile eol source = .ok rules) :
    IsPlainTable rules ∧ WithinDepth rules ∧ definesEol rules = true := by
  obtain ⟨written, hwritten, hdepth, rfl⟩ := compile_eq_ok_iff.1 h
  obtain ⟨ends, body, -, htable, -⟩ := hwritten.writes
  exact ⟨htable.isPlainTable.withEol eol, hdepth.withEol eol, definesEol_withEol eol written⟩

/-- **A compiled table is shown and compiled to itself**, if its rules are counted. -/
theorem compile_show_of_compile (h : compile e₁ source = .ok rules) (e₂ : EolStyle) :
    compile e₂ (Rule.showTable rules) = if Matcher.Counted rules.length then .ok rules
      else .error ⟨.whole, .unreadable (Rule.showTable rules)⟩ := by
  obtain ⟨hplain, hdepth, heol⟩ := isPlainTable_of_compile h
  split
  · rename_i hcounted
    rw [compile_show hplain hdepth hcounted, withEol_of_definesEol heol]
  · rename_i hcounted
    exact compile_show_of_not_counted hplain hdepth hcounted e₂

/-! ## Runs -/

variable {read : String → Id (Except ReadFault String)} {r : Request} {printed : String}

/-- A run that only prints succeeds with the table of its grammar. -/
theorem run_of_compile (hinput : r.input = none) (hread : read r.grammar = .ok source)
    (h : compile r.eol source = .ok rules) : r.run read = .success (Rule.showTable rules) := by
  simp only [Request.run, bind, hread, h, hinput, pure]

/-- And whatever it succeeds with is such a table. -/
theorem exists_compile_of_run (hinput : r.input = none) (h : r.run read = .success printed) :
    ∃ source rules, read r.grammar = .ok source ∧ compile r.eol source = .ok rules ∧
      printed = Rule.showTable rules := by
  simp only [Request.run, bind, pure] at h
  cases hread : read r.grammar with
  | error e =>
    rw [hread] at h
    cases congrArg Outcome.status h
  | ok source =>
    cases hcompile : compile r.eol source with
    | error e =>
      simp only [hread, hcompile] at h
      cases congrArg Outcome.status h
    | ok rules =>
      simp only [hread, hcompile, hinput] at h
      exact ⟨source, rules, rfl, hcompile, (congrArg Outcome.stdout h).symm⟩

/-! ## There and back -/

/-- **Showing and compiling are inverse**, for tables whose rules the counter can tell from
none. A plain table within the depth that is shown is compiled to itself, with a rule for
the end of a line behind it if it has none; a table that comes of compiling is compiled to
itself once it is shown, whatever shape is asked for; and a run of the command line on what
another run has printed prints it again. Only a table of `2 ^ 32` rules, or of a multiple
of that, is refused once it is shown. -/
theorem compile_showTable (eol : EolStyle) :
    (∀ rules, IsPlainTable rules → WithinDepth rules →
      compile eol (Rule.showTable rules) =
        if Matcher.Counted rules.length then
          .ok (if rules.any (·.name == "EOL") then rules else rules ++ [eolRule eol])
        else .error ⟨.whole, .unreadable (Rule.showTable rules)⟩) ∧
    (∀ source e rules, compile e source = .ok rules →
      compile eol (Rule.showTable rules) =
        if Matcher.Counted rules.length then .ok rules
        else .error ⟨.whole, .unreadable (Rule.showTable rules)⟩) ∧
    ∀ (read read' : String → Id (Except ReadFault String)) (r r' : Request) (printed : String),
      r.input = none → r.run read = .success printed → r'.eol = eol →
      r'.input = none → read' r'.grammar = .ok printed →
      (r'.run read' = .success printed ↔ Matcher.Counted (countEnds printed.toList)) := by
  refine ⟨fun rules h hdepth => ?_, fun source e rules h => compile_show_of_compile h eol, ?_⟩
  · split
    · rename_i hcounted
      exact compile_show h hdepth hcounted eol
    · rename_i hcounted
      exact compile_show_of_not_counted h hdepth hcounted eol
  · rintro read read' r r' printed hinput hrun rfl hinput' hread'
    obtain ⟨source, rules, -, hcompile, rfl⟩ := exists_compile_of_run hinput hrun
    obtain ⟨hplain, -, -⟩ := isPlainTable_of_compile hcompile
    have hagain := compile_show_of_compile hcompile r'.eol
    rw [(countsTable_show hplain.isPlainRule).2]
    constructor
    · intro hrun'
      by_contra hcounted
      obtain ⟨source', rules', hsource', hcompile', -⟩ := exists_compile_of_run hinput' hrun'
      obtain rfl := Except.ok.inj (hread'.symm.trans hsource')
      rw [if_neg hcounted, hcompile'] at hagain
      cases hagain
    · intro hcounted
      rw [if_pos hcounted] at hagain
      exact run_of_compile hinput' hread' hagain

/-- Bars, brackets and suffixes between quotes, escaped quotes and backslashes. -/
def quotedTable : List Rule :=
  [⟨"a", [["'|'", "\"<b>\"", "b-2"], ["\"::=\"", "'*'", "\"+\\\"\""]]⟩,
    ⟨"b-2", [["'\\\\'", "'\\''", "\"?\""]]⟩]

/-- Such a table comes back with a rule for the end of a line, and then as it
is, also when the other shape of that rule is asked for and on the command
line. -/
theorem compile_showTable_quoted :
    (IsPlainTable quotedTable ∧ WithinDepth quotedTable ∧
      compile .apart (Rule.showTable quotedTable) = .ok (quotedTable ++ [eolRule .apart])) ∧
    compile .together (Rule.showTable (quotedTable ++ [eolRule .apart])) =
      .ok (quotedTable ++ [eolRule .apart]) ∧
    Request.run (m := Id) (fun _ => .ok (Rule.showTable quotedTable))
        ⟨"g", none, none, .apart, 1⟩ =
      .success (Rule.showTable (quotedTable ++ [eolRule .apart])) ∧
    Request.run (m := Id) (fun _ => .ok (Rule.showTable (quotedTable ++ [eolRule .apart])))
        ⟨"h", none, none, .together, 1⟩ =
      .success (Rule.showTable (quotedTable ++ [eolRule .apart])) := by
  have hplain : IsPlainTable quotedTable := by decide +kernel
  have hdepth : WithinDepth quotedTable := by decide +kernel
  have hfirst : compile .apart (Rule.showTable quotedTable) =
      .ok (quotedTable ++ [eolRule .apart]) :=
    (compile_showTable .apart).1 quotedTable hplain hdepth
  have hagain : compile .together (Rule.showTable (quotedTable ++ [eolRule .apart])) =
      .ok (quotedTable ++ [eolRule .apart]) :=
    (compile_showTable .together).2.1 _ _ _ hfirst
  have hrun : Request.run (m := Id) (fun _ => .ok (Rule.showTable quotedTable))
      ⟨"g", none, none, .apart, 1⟩ =
        .success (Rule.showTable (quotedTable ++ [eolRule .apart])) :=
    run_of_compile rfl rfl hfirst
  have hcounted : Matcher.Counted
      (countEnds (Rule.showTable (quotedTable ++ [eolRule .apart])).toList) := by decide +kernel
  exact ⟨⟨hplain, hdepth, hfirst⟩, hagain, hrun,
    ((compile_showTable .together).2.2 _ _ _ _ _ rfl hrun rfl rfl rfl).2 hcounted⟩

/-- **A table of `2 ^ 32` rules does not come back.** -/
theorem not_compile_showTable :
    ¬ ∀ rules eol, IsPlainTable rules → WithinDepth rules →
      compile eol (Rule.showTable rules) =
        .ok (if rules.any (·.name == "EOL") then rules else rules ++ [eolRule eol]) := by
  intro hall
  have hrule : IsPlainRule letterRule := (writesRule_letterLine Nat.one_ne_zero).isPlainRule
  have hmem {r : Rule} (hr : r ∈ List.replicate (2 ^ 32) letterRule) : r = letterRule :=
    List.eq_of_mem_replicate hr
  have hne : List.replicate (2 ^ 32) letterRule ≠ [] := by
    rw [Ne, List.replicate_eq_nil_iff]
    decide
  have hplain : IsPlainTable (List.replicate (2 ^ 32) letterRule) :=
    ⟨hne, fun r hr => hmem hr ▸ hrule⟩
  have hdepth : WithinDepth (List.replicate (2 ^ 32) letterRule) := fun r hr =>
    hmem hr ▸ withinDepth_letterRule letterRule (List.mem_singleton_self _)
  have hfull : ¬ Matcher.Counted (List.replicate (2 ^ 32) letterRule).length := by
    rw [List.length_replicate]
    exact not_counted_full
  have herror := compile_show_of_not_counted hplain hdepth hfull .together
  rw [hall _ _ hplain hdepth] at herror
  cases herror

end Bnf

end OrderedBnf
