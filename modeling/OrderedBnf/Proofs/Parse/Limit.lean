import OrderedBnf.Proofs.Match.Limit

/-!
# Parses and the limit on levels

The limit on levels cuts a parse short or does nothing at all. Where a run
ends without having reached it, a run with a higher limit ends with the same
match and the same progress (`run_eq_of_quiet`), and so the two parses are
the same, reports included. Whether the limit was reached can be read off a
parse, which then has a problem that says so (`tooDeep_mem_problems`).
-/

namespace OrderedBnf

namespace Parser

variable {rules : List Rule} {start : Option String} {m n : Nat} {text : List Char}
variable {d : Definition}

/-- Two limits, one run, if the lower was not reached. -/
theorem run_eq_of_quiet (hle : m ≤ n)
    (h : ((ofRules rules ⟨start, m⟩).run text d).2.tooDeep = false) :
    (ofRules rules ⟨start, n⟩).run text d = (ofRules rules ⟨start, m⟩).run text d :=
  (Grammar.stable_body Progress.gauge (Grammar.ofRules rules) hle d _ _ h).2

/-- The limit that a parse was given shows in nothing but its own report. -/
theorem finish_eq_of_quiet {p : Progress} (hp : p.tooDeep = false) (m n : Nat) (found : Match) :
    finish n text d found p = finish m text d found p := by
  simp only [finish, problems, hp, Bool.false_eq_true, if_false]

theorem parseDefinition_eq_of_quiet (hle : m ≤ n)
    (h : ((ofRules rules ⟨start, m⟩).run text d).2.tooDeep = false) :
    (ofRules rules ⟨start, n⟩).parseDefinition text d =
      (ofRules rules ⟨start, m⟩).parseDefinition text d := by
  simp only [parseDefinition, run_eq_of_quiet hle h]
  rcases hr : (ofRules rules ⟨start, m⟩).run text d with ⟨_ | found, p⟩
  · rfl
  · rw [hr] at h
    exact congrArg some (finish_eq_of_quiet h m n found)

/-- **A parse says whether its limit was reached.** -/
theorem tooDeep_mem_problems {limit l : Nat} {stop : Cursor} {p : Progress} :
    Problem.tooDeep l ∈ problems limit text stop p ↔ p.tooDeep = true ∧ l = limit := by
  have hleft : ∀ place, leftover text place p ≠ Problem.tooDeep l := by
    intro place
    unfold leftover
    exact Problem.noConfusion
  cases ht : p.tooDeep <;> simp [problems, ht, (hleft _).symm]

/-- A parse without that problem comes from a run that ended quietly. -/
theorem quiet_of_parseDefinition {r : Parse}
    (h : (ofRules rules ⟨start, m⟩).parseDefinition text d = some r)
    (hr : ∀ l, Problem.tooDeep l ∉ r.problems) :
    ((ofRules rules ⟨start, m⟩).run text d).2.tooDeep = false := by
  simp only [parseDefinition] at h
  split at h
  · cases h
  · rename_i found p hrun
    obtain rfl := Option.some.inj h
    rw [hrun]
    have hlimit : Problem.tooDeep m ∉ problems m text found.stop p := hr m
    rw [tooDeep_mem_problems] at hlimit
    simpa using hlimit

theorem parseFrom_eq_of_quiet (hle : m ≤ n) {text name : String} {r : Parse}
    (h : (ofRules rules ⟨start, m⟩).parseFrom text name = some r)
    (hr : ∀ l, Problem.tooDeep l ∉ r.problems) :
    (ofRules rules ⟨start, n⟩).parseFrom text name = some r := by
  obtain ⟨d, hd, hp⟩ := Option.bind_eq_some_iff.1 h
  refine Option.bind_eq_some_iff.2 ⟨d, hd, ?_⟩
  rw [parseDefinition_eq_of_quiet hle (quiet_of_parseDefinition hp hr), hp]

/-- **A parse that does not reach its limit does not depend on it.** If a run
ends without having reached its limit, every run with a higher one ends with
the same match and the same progress, so there is no tree in either parse or
the same tree with the same problems; and a parse whose problems do not name
the limit is the parse with every higher limit, from any rule. -/
theorem parse_eq_of_not_tooDeep (rules : List Rule) (start : Option String) {m n : Nat}
    (hle : m ≤ n) :
    (∀ text d, ((ofRules rules ⟨start, m⟩).run text d).2.tooDeep = false →
      ((ofRules rules ⟨start, n⟩).run text d).2.tooDeep = false ∧
      (ofRules rules ⟨start, n⟩).run text d = (ofRules rules ⟨start, m⟩).run text d ∧
      (ofRules rules ⟨start, n⟩).parseDefinition text d =
        (ofRules rules ⟨start, m⟩).parseDefinition text d) ∧
    (∀ text name r, (ofRules rules ⟨start, m⟩).parseFrom text name = some r →
      (∀ l, Problem.tooDeep l ∉ r.problems) →
      (ofRules rules ⟨start, n⟩).parseFrom text name = some r) ∧
    ∀ text r, (ofRules rules ⟨start, m⟩).parse text = some r →
      (∀ l, Problem.tooDeep l ∉ r.problems) →
      (ofRules rules ⟨start, n⟩).parse text = some r := by
  refine ⟨fun text d h => ?_, fun text name r h hr => parseFrom_eq_of_quiet hle h hr,
    fun text r h hr => ?_⟩
  · have hrun := run_eq_of_quiet hle h
    exact ⟨by rw [hrun, h], hrun, parseDefinition_eq_of_quiet hle h⟩
  · obtain ⟨name, hname, hp⟩ := Option.bind_eq_some_iff.1 h
    exact Option.bind_eq_some_iff.2 ⟨name, hname, parseFrom_eq_of_quiet hle hp hr⟩

/-- Four levels are enough for three nested matches and the attempt that
ends them, and six more make no difference. -/
theorem parse_eq_of_not_tooDeep_nested :
    ∃ r, (ofRules [⟨"s", [["\"x\"", "s"], ["\"x\""]]⟩] ⟨none, 4⟩).parse "xxx" = some r ∧
      (∀ l, Problem.tooDeep l ∉ r.problems) ∧
      (ofRules [⟨"s", [["\"x\"", "s"], ["\"x\""]]⟩] ⟨none, 10⟩).parse "xxx" = some r := by
  obtain ⟨r, hr, hproblems⟩ : ∃ r,
      (ofRules [⟨"s", [["\"x\"", "s"], ["\"x\""]]⟩] ⟨none, 4⟩).parse "xxx" = some r ∧
        r.problems = [] := ⟨_, rfl, by decide +kernel⟩
  have hquiet : ∀ l, Problem.tooDeep l ∉ r.problems := by simp [hproblems]
  exact ⟨r, hr, hquiet,
    (parse_eq_of_not_tooDeep _ none (by decide : 4 ≤ 10)).2.2 "xxx" r hr hquiet⟩

end Parser

end OrderedBnf
