import OrderedBnf.Proofs.Match.Recursion
import OrderedBnf.Proofs.Parse.Furthest
import OrderedBnf.Proofs.Parse.Limit

/-!
# Parses and left recursion

A parse that is left recursive reaches its limit, whatever the limit is and
whatever becomes of the attempt. With a limit as high as there are rules and
offsets nothing else reaches it, so that the problem of a tree that names the limit
says of its run that it was left recursive, and of nothing else
(`tooDeep_iff_reenters`).
-/

namespace OrderedBnf

namespace Parser

variable {rules : List Rule} {options : ParserOptions} {text start : String} {d : Definition}

theorem run_tooDeep_iff : ((ofRules rules options).run text.toList d).2.tooDeep = true ↔
    ∃ rule offset, .tooDeep rule offset ∈ (ofRules rules options).trace text.toList d := by
  rw [run_snd, ← Bool.not_eq_false, Progress.gauge.quiet_foldl]
  simp [Progress.start]

/-- A tree tells of the limit if the run reached it. -/
theorem tooDeep_mem_problems_iff {parse : Parse}
    (hd : (Grammar.ofRules rules).find? start = some d)
    (h : (ofRules rules options).parseFrom text start = some parse) :
    (∃ limit, Problem.tooDeep limit ∈ parse.problems) ↔
      ((ofRules rules options).run text.toList d).2.tooDeep = true := by
  obtain ⟨d', m, progress, hd', hrun, rfl⟩ := exists_run_of_parseFrom h
  obtain rfl : d' = d := Option.some.inj (hd'.symm.trans hd)
  rw [hrun]
  have hproblems : (finish options.maxDepth text.toList d' m progress).problems =
      problems options.maxDepth text.toList m.stop progress := rfl
  simp only [ofRules, hproblems, tooDeep_mem_problems]
  simp

/-- **Left recursion reaches every limit.** -/
theorem tooDeep_of_reenters (hd : (Grammar.ofRules rules).find? start = some d)
    (h : Reenters ((ofRules rules options).trace text.toList d)) :
    ((ofRules rules options).run text.toList d).2.tooDeep = true := by
  rw [run_tooDeep_iff]
  by_contra hquiet
  push Not at hquiet
  obtain ⟨moment, hmem, attempt, hattempt, hactive⟩ := h
  exact (history_trace hd text.toList).not_reenters hquiet moment hmem attempt hattempt hactive

/-- **Nothing else reaches a high limit.** -/
theorem quiet_of_not_reenters (hd : (Grammar.ofRules rules).find? start = some d)
    (hlimit : (rules.map Rule.name).toFinset.card * (text.utf8ByteSize + 1) ≤ options.maxDepth)
    (h : ¬ Reenters ((ofRules rules options).trace text.toList d)) :
    ((ofRules rules options).run text.toList d).2.tooDeep = false := by
  have hnames : (Grammar.ofRules rules).map Definition.name = rules.map Rule.name := by
    rw [Grammar.ofRules, List.map_map]
    rfl
  rw [← byteLength_toList, ← hnames] at hlimit
  rw [← Bool.not_eq_true, run_tooDeep_iff]
  rintro ⟨rule, offset, hmem⟩
  exact (history_trace hd text.toList).quiet_of_not_reenters hlimit h rule offset hmem

/-- **The limit detects left recursion.** For every table, text and start: if in the
course of a run a rule is attempted at an offset while an attempt of it at the same
offset is under way, the run reaches its limit, whatever the limit is, so that there is
no tree or one with a problem that names the limit. With a limit of as many levels as
the names of rules times the offsets of the text, a run that does nothing of the kind
does not reach it; and a tree has that problem if and only if its run was left
recursive. -/
theorem tooDeep_iff_reenters (rules : List Rule) (options : ParserOptions) (text start : String)
    (d : Definition) (hd : (Grammar.ofRules rules).find? start = some d) :
    (Reenters ((ofRules rules options).trace text.toList d) →
      ((ofRules rules options).run text.toList d).2.tooDeep = true ∧
      ((ofRules rules options).parseFrom text start = none ∨
        ∃ parse, (ofRules rules options).parseFrom text start = some parse ∧
          .tooDeep options.maxDepth ∈ parse.problems)) ∧
    ((rules.map Rule.name).toFinset.card * (text.utf8ByteSize + 1) ≤ options.maxDepth →
      (¬ Reenters ((ofRules rules options).trace text.toList d) →
        ((ofRules rules options).run text.toList d).2.tooDeep = false) ∧
      ∀ parse, (ofRules rules options).parseFrom text start = some parse →
        ((∃ limit, .tooDeep limit ∈ parse.problems) ↔
          Reenters ((ofRules rules options).trace text.toList d))) := by
  refine ⟨fun h => ?_, fun hlimit => ⟨quiet_of_not_reenters hd hlimit, fun parse hparse => ?_⟩⟩
  · have hdeep := tooDeep_of_reenters hd h
    refine ⟨hdeep, ?_⟩
    cases hparse : (ofRules rules options).parseFrom text start with
    | none => exact .inl rfl
    | some parse =>
      obtain ⟨limit, hmem⟩ := (tooDeep_mem_problems_iff hd hparse).2 hdeep
      obtain ⟨d', m, progress, -, -, rfl⟩ := exists_run_of_parseFrom hparse
      obtain rfl : limit = options.maxDepth := (tooDeep_mem_problems.1 hmem).2
      exact .inr ⟨_, rfl, hmem⟩
  · rw [tooDeep_mem_problems_iff hd hparse]
    refine ⟨fun hdeep => ?_, tooDeep_of_reenters hd⟩
    by_contra h
    rw [quiet_of_not_reenters hd hlimit h] at hdeep
    cases hdeep

/-- A rule that needs itself behind a rule that may take nothing, with another way out. -/
def leftTable : List Rule := [⟨"s", [["o", "s", "'x'"], ["'x'"]]⟩, ⟨"o", [["'y'*"]]⟩]

/-- The same rule without left recursion. -/
def rightTable : List Rule := [⟨"s", [["'x'", "s"], ["'x'"]]⟩]

/-- A tree in spite of left recursion, with two rules on one byte, and one without it
that takes all the levels that one rule may on three bytes. -/
theorem tooDeep_iff_reenters_left :
    (∃ d parse, (Grammar.ofRules leftTable).find? "s" = some d ∧
      Reenters ((ofRules leftTable ⟨none, 4⟩).trace "x".toList d) ∧
      ((ofRules leftTable ⟨none, 4⟩).run "x".toList d).2.tooDeep = true ∧
      (ofRules leftTable ⟨none, 4⟩).parseFrom "x" "s" = some parse ∧
      ∃ limit, .tooDeep limit ∈ parse.problems) ∧
    ∃ d parse, (Grammar.ofRules rightTable).find? "s" = some d ∧
      (rightTable.map Rule.name).toFinset.card * ("xxx".utf8ByteSize + 1) = 4 ∧
      ¬ Reenters ((ofRules rightTable ⟨none, 4⟩).trace "xxx".toList d) ∧
      ((ofRules rightTable ⟨none, 4⟩).run "xxx".toList d).2.tooDeep = false ∧
      (ofRules rightTable ⟨none, 4⟩).parseFrom "xxx" "s" = some parse ∧
      ¬ ∃ limit, .tooDeep limit ∈ parse.problems := by
  constructor
  · obtain ⟨d, hd, hagain⟩ : ∃ d, (Grammar.ofRules leftTable).find? "s" = some d ∧
        Reenters ((ofRules leftTable ⟨none, 4⟩).trace "x".toList d) :=
      ⟨_, rfl, by decide +kernel⟩
    obtain ⟨parse, hparse⟩ : ∃ parse,
        (ofRules leftTable ⟨none, 4⟩).parseFrom "x" "s" = some parse := ⟨_, rfl⟩
    obtain ⟨hdeep, hlimit⟩ := tooDeep_iff_reenters leftTable ⟨none, 4⟩ "x" "s" d hd
    exact ⟨d, parse, hd, hagain, (hdeep hagain).1, hparse,
      ((hlimit (by decide)).2 parse hparse).2 hagain⟩
  · obtain ⟨d, hd, hnew⟩ : ∃ d, (Grammar.ofRules rightTable).find? "s" = some d ∧
        ¬ Reenters ((ofRules rightTable ⟨none, 4⟩).trace "xxx".toList d) :=
      ⟨_, rfl, by decide +kernel⟩
    obtain ⟨parse, hparse⟩ : ∃ parse,
        (ofRules rightTable ⟨none, 4⟩).parseFrom "xxx" "s" = some parse := ⟨_, rfl⟩
    have hcard : (rightTable.map Rule.name).toFinset.card * ("xxx".utf8ByteSize + 1) = 4 := by
      decide
    obtain ⟨-, hlimit⟩ := tooDeep_iff_reenters rightTable ⟨none, 4⟩ "xxx" "s" d hd
    obtain ⟨hquiet, hproblem⟩ := hlimit (Nat.le_of_eq hcard)
    exact ⟨d, parse, hd, hcard, hnew, hquiet hnew, hparse, fun h =>
      hnew ((hproblem parse hparse).1 h)⟩

end Parser

end OrderedBnf
