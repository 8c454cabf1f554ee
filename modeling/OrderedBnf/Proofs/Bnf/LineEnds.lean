import OrderedBnf.Proofs.Bnf.FirstBadLine
import OrderedBnf.Proofs.Bnf.Shown
import OrderedBnf.Proofs.Match.Returns

/-!
# Line feeds with returns before them

The end of a line may be a line feed or a carriage return, and a rule takes all of them
that follow its line. So it makes no difference whether the line feeds of a document are
written with returns before them. It makes no difference either to what is reported of a
source that is no document (`compile_withReturns`).

Only `RULE_EOL` speaks of ends of lines, and it is repeated wherever it is referred to. A
repetition of it has missed both ends of a line where it stops, and what it missed on the
way lies before that place (`run_lineEnds`). So it leaves the same behind it in both forms
of a text, and all of the grammar reads both forms alike (`readsAlike_document`).

There are more of them with returns, up to twice as many, so all this is so as long as
the counter tells that there are any, in that form too: with fewer than `2 ^ 32`.
-/

namespace OrderedBnf

/-- What kind of fault it is, without what it tells of the source. -/
inductive Fault.Kind
  | unreadable
  | rejected
  | missingNode
deriving DecidableEq, Repr

/-- The kind of a fault. -/
def Fault.kind : Fault → Kind
  | unreadable _ => .unreadable
  | rejected _ => .rejected
  | missingNode _ => .missingNode

/-- The wording of a source that is refused as a whole. -/
theorem Fault.message_unreadable (source : String) : (unreadable source).message =
    "Could not parse `" ++ String.ofList (firstLine source.toList) ++
      (if hasMoreLines source.toList then " ..." else "") ++ "`" :=
  rfl

/-- An error is shown by its place and its wording. -/
theorem CompileError.toString_eq (e : CompileError) : toString e =
    "\x1b[31;49;1m[" ++ toString e.location ++ "]\x1b[39;49;1m  " ++ e.fault.message ++ "\x1b[0m" :=
  rfl

namespace Progress

variable {p : Progress} {i j : Nat}

/-- A failure further on than all before it is the only one that is remembered. -/
theorem miss_of_lt (h : p.furthest < i) (source : String) :
    p.miss i source = ⟨i, [source], p.tooDeep⟩ := by
  rw [miss, if_pos h]

theorem furthest_miss_lt (h : p.furthest < j) (hlt : i < j) (source : String) :
    (p.miss i source).furthest < j := by
  unfold miss
  split
  · exact hlt
  · split <;> exact h

/-- So a failure is forgotten with the next one further on. -/
theorem miss_miss_of_lt (p : Progress) (h : i < j) (source source' : String) :
    (p.miss i source).miss j source' = p.miss j source' := by
  rcases Nat.lt_or_ge p.furthest j with hlt | hle
  · rw [miss_of_lt (furthest_miss_lt hlt h source), miss_of_lt hlt, tooDeep_miss]
  · have hearlier : p.miss i source = p := by
      rw [miss, if_neg (by omega), if_neg (by omega)]
    rw [hearlier]

end Progress

namespace Bnf

open Goal

variable {source : String} {text ends rest : List Char} {i n : Nat} {t : Term} {p : Progress}
variable {rule : Rule} {rules : List Rule} {a : Char}

/-! ## Ends of lines -/

theorem isLineEnds_withReturns (h : IsLineEnds ends) : IsLineEnds (withReturns ends) := by
  induction ends with
  | nil => exact isLineEnds_nil
  | cons a ends ih =>
    obtain ⟨ha, hends⟩ := List.forall_mem_cons.1 h
    rcases ha with rfl | rfl
    · rw [withReturns_cons (by decide)]
      exact List.forall_mem_cons.2 ⟨.inl rfl, ih hends⟩
    · exact List.forall_mem_cons.2 ⟨.inl rfl, List.forall_mem_cons.2 ⟨.inr rfl, ih hends⟩⟩

theorem begins_withReturns_iff : Begins IsLineEnd (withReturns rest) ↔ Begins IsLineEnd rest := by
  cases rest with
  | nil => simp
  | cons a rest =>
    by_cases ha : a = '\n'
    · subst ha
      simp [IsLineEnd]
    · rw [withReturns_cons ha, begins_cons, begins_cons]

/-- What is remembered where both ends of a line are missed. -/
def missBoth (p : Progress) (i : Nat) : Progress := (p.miss i "\"\\r\"").miss i "\"\\n\""

/-- The fragment for an end of a line runs its alternatives. -/
theorem run_lineEnd (ht : t.symbol = .reference "RULE_EOL") (c : Cursor) (p : Progress) :
    (symbol t).run Progress.note grammar (n + 1) c p =
      (choice eolDef.alternatives).run Progress.note grammar n c p := by
  rw [run_reference ht find_eol, run_rule, run_body_succ]
  have hwrap : ∀ m : Match, m.wrap eolDef c = m := fun m => wrap_of_fragment (by decide)
  simp only [hwrap, Option.map_id']
  rfl

/-- A sign of one character that comes next is taken in silence, -/
theorem run_mark_some (a : Char) (sign : String) (i : Nat) (rest : List Char) (p : Progress) :
    (sequence [mark a sign]).run Progress.note grammar n ⟨i, a :: rest⟩ p =
      (some ⟨⟨i + a.utf8Size, rest⟩, []⟩, p) := by
  have hmark : Runs grammar n (symbol (mark a sign)) ⟨i, a :: rest⟩
      (some ⟨⟨i + a.utf8Size, rest⟩, []⟩) [] :=
    .literal rfl rfl rfl
  exact ((Runs.once rfl hmark).cons .nil).run Progress.note p

/-- and one that does not is missed. -/
theorem run_mark_none {a : Char} (sign : String) (i : Nat) (hrest : ¬ Begins (· = a) rest)
    (p : Progress) :
    (sequence [mark a sign]).run Progress.note grammar n ⟨i, rest⟩ p = (none, p.miss i sign) := by
  have hnext : ¬ [a] <+: rest := fun ⟨later, h⟩ => hrest ⟨a, later, h.symm, rfl⟩
  have hmark : Runs grammar n (symbol (mark a sign)) ⟨i, rest⟩ none [.miss i sign] :=
    .noLiteral rfl hnext
  exact (Runs.once rfl hmark).consFirst.run Progress.note p

/-- An end of a line is taken, and what is missed there is forgotten further on; -/
theorem run_lineEnd_some (ht : t.symbol = .reference "RULE_EOL") (ha : IsLineEnd a) (i : Nat)
    (rest : List Char) (p : Progress) :
    ∃ q, (symbol t).run Progress.note grammar (n + 1) ⟨i, a :: rest⟩ p =
        (some ⟨⟨i + a.utf8Size, rest⟩, []⟩, q) ∧
      ∀ j, i < j → missBoth q j = missBoth p j := by
  rw [run_lineEnd ht]
  rcases ha with rfl | rfl
  · exact ⟨p, run_choice_of_some (run_mark_some '\r' _ i rest p), fun _ _ => rfl⟩
  · have hreturn : ¬ Begins (· = '\r') ('\n' :: rest) := by simp
    refine ⟨p.miss i "\"\\r\"", ?_, fun j hj => ?_⟩
    · rw [eolDef, run_choice_of_none (run_mark_none _ i hreturn p)]
      exact run_choice_of_some (run_mark_some '\n' _ i rest _)
    · rw [missBoth, missBoth, Progress.miss_miss_of_lt p hj]

/-- where there is none both are missed. -/
theorem run_lineEnd_none (ht : t.symbol = .reference "RULE_EOL") (i : Nat)
    (hrest : ¬ Begins IsLineEnd rest) (p : Progress) :
    (symbol t).run Progress.note grammar (n + 1) ⟨i, rest⟩ p = (none, missBoth p i) := by
  have hreturn : ¬ Begins (· = '\r') rest := fun h => hrest (h.mono fun _ => .inl)
  have hfeed : ¬ Begins (· = '\n') rest := fun h => hrest (h.mono fun _ => .inr)
  rw [run_lineEnd ht, eolDef, run_choice_of_none (run_mark_none _ i hreturn p),
    run_choice_of_none (run_mark_none _ i hfeed _)]
  rfl

/-- **Ends of lines are taken as far as they go**, and of what is missed no more is
remembered than that both are missed behind them. -/
theorem run_lineEnds (ht : t.symbol = .reference "RULE_EOL") (hends : IsLineEnds ends) (i : Nat)
    (hrest : ¬ Begins IsLineEnd rest) (count : Option Nat) (p : Progress) :
    (loop t count).run Progress.note grammar (n + 1) ⟨i, ends ++ rest⟩ p =
      (Matcher.verdict (count.map (· + ends.length)) ⟨⟨i + byteLength ends, rest⟩, []⟩,
        missBoth p (i + byteLength ends)) := by
  induction ends generalizing i p count with
  | nil =>
    rw [List.nil_append, run_loop_of_none (run_lineEnd_none ht i hrest p)]
    simp [byteLength]
  | cons a ends ih =>
    obtain ⟨ha, hends⟩ := List.forall_mem_cons.1 hends
    obtain ⟨q, hq, hforgotten⟩ := run_lineEnd_some ht ha i (ends ++ rest) p
    have hsize := a.utf8Size_pos
    have hbytes : i + a.utf8Size + byteLength ends = i + byteLength (a :: ends) := by
      rw [byteLength]
      omega
    have hmoved : i + a.utf8Size ≠ i := by omega
    rw [List.cons_append, run_loop_of_some hq hmoved, ih hends (i + a.utf8Size) _ q, hbytes,
      hforgotten _ (by omega), Matcher.map_verdict, Option.map_map]
    simp [Function.comp_def, Nat.add_assoc, Nat.add_comm 1]

/-! ## All of the grammar -/

/-- Both ends of a line are missed alike. -/
theorem sameProgress_missBoth {p p' : Progress} {j : Nat} (hp : SameProgress text p p')
    (hplace : SamePlace text i j) : SameProgress text (missBoth p i) (missBoth p' j) :=
  (hp.miss hplace _).miss hplace _

/-- Where no level is left an end of a line is not read in either form. -/
theorem readsAlike_lineEnd_zero (ht : t.symbol = .reference "RULE_EOL") :
    ReadsAlike text grammar 0 (symbol t) :=
  .reference ht find_eol (.rule .body_zero)

/-- There are no fewer ends of lines with returns, -/
theorem length_le_withReturns (text : List Char) : text.length ≤ (withReturns text).length := by
  induction text with
  | nil => exact Nat.le_refl _
  | cons a text ih =>
    by_cases ha : a = '\n'
    · subst ha
      simp only [withReturns_lineFeed, List.length_cons]
      omega
    · simp only [withReturns_cons ha, List.length_cons]
      omega

/-- and some are counted in both forms or in neither. -/
theorem counted_withReturns_iff (hends : IsLineEnds ends)
    (hshort : countEnds (withReturns ends) < 2 ^ 32) :
    Matcher.Counted (withReturns ends).length ↔ Matcher.Counted ends.length := by
  have hlength := length_le_withReturns ends
  rw [(isLineEnds_withReturns hends).countEnds_eq] at hshort
  by_cases hnil : ends = []
  · rw [hnil, withReturns_nil]
  · have hpos := List.length_pos_iff.2 hnil
    exact iff_of_true (Matcher.counted_of_lt (by omega) hshort)
      (Matcher.counted_of_lt (by omega) (by omega))

/-- **A repetition of ends of lines reads both forms alike**, though it does not read an
end of a line alike and has more iterations with returns. -/
theorem readsAlike_lineEnds (ht : t.symbol = .reference "RULE_EOL")
    (hshort : countEnds (withReturns text) < 2 ^ 32) {count : Option Nat}
    (hcount : ∀ k ∈ count, k = 0) (n : Nat) : ReadsAlike text grammar n (loop t count) := by
  cases n with
  | zero => exact (readsAlike_lineEnd_zero ht).loop count
  | succ n =>
    rintro ⟨i, rest⟩ ⟨j, _⟩ p p' hc hp
    obtain rfl := hc.rest_eq
    obtain ⟨ends, rest, rfl, hends, hrest⟩ := exists_longest IsLineEnd rest
    have hrest' : ¬ Begins IsLineEnd (withReturns rest) := by rwa [begins_withReturns_iff]
    have hstop : SameCursor text ⟨i + byteLength ends, rest⟩
        ⟨j + byteLength (withReturns ends), withReturns rest⟩ :=
      hc.advance rfl
    have hcounted : Matcher.Counted (withReturns ends).length ↔ Matcher.Counted ends.length := by
      obtain ⟨before, rfl, -, -⟩ := hc.exists_before
      simp only [withReturns_append, countEnds_append] at hshort
      exact counted_withReturns_iff hends (by omega)
    rw [run_lineEnds ht hends i hrest count p]
    simp only [withReturns_append]
    rw [run_lineEnds ht (isLineEnds_withReturns hends) j hrest' count p']
    refine .verdict ?_ hstop (sameProgress_missBoth hp hstop.samePlace)
    cases count with
    | none => simp
    | some k =>
      obtain rfl := hcount k rfl
      simpa using hcounted

/-- What stands on one line is no end of it. -/
theorem readsAlike_of_speaksOf (n : Nat)
    (ht : t.speaksOf (fun a => decide (¬ IsLineEnd a)) lineNames = true) :
    ReadsAlike text grammar n (term t) := by
  refine .of_speaksOf (fun a ha => ?_) speaksOf_line n ht
  obtain ⟨hreturn, hfeed⟩ := not_or.1 (of_decide_eq_true ha)
  exact ⟨hfeed, hreturn⟩

/-- A rule reads both forms alike: its line, the ends of it, and the spaces behind. -/
theorem readsAlike_rule (ht : t.symbol = .reference "rule")
    (hshort : countEnds (withReturns text) < 2 ^ 32) (n : Nat) :
    ReadsAlike text grammar n (symbol t) := by
  refine .reference ht find_rule (.rule ?_)
  cases n with
  | zero => exact .body_zero
  | succ n =>
    refine .body_succ (.choice (List.forall_mem_singleton.2 (.sequence fun u hu => ?_)))
    have hu' : u ∈ lineTerms ++ endTerms := hu
    rcases List.mem_append.1 hu' with hline | hend
    · exact readsAlike_of_speaksOf n (lineTerms_speaksOf u hline)
    · obtain rfl | rfl : u = refs "RULE_EOL" .oneOrMore ∨ u = spaces := by
        simpa [endTerms] using hend
      · exact (readsAlike_lineEnds rfl hshort (by simp) n).oneOrMore rfl
      · exact readsAlike_of_speaksOf n (by decide)

/-- **A document reads both forms of a text alike.** -/
theorem readsAlike_document (hshort : countEnds (withReturns text) < 2 ^ 32) (n : Nat) :
    ReadsAlike text grammar n (body syntaxDef) := by
  cases n with
  | zero => exact .body_zero
  | succ n =>
    refine .body_succ (.choice (List.forall_mem_singleton.2 (.sequence fun u hu => ?_)))
    obtain rfl | rfl : u = refs "RULE_EOL" .zeroOrMore ∨ u = refs "rule" .oneOrMore := by
      simpa using hu
    · exact (readsAlike_lineEnds rfl hshort (by simp) n).zeroOrMore rfl
    · exact (readsAlike_rule rfl hshort n).term

/-! ## Documents -/

/-- **A rule is written with returns as well as without**, -/
theorem WritesRule.withReturns (h : WritesRule rule text) :
    WritesRule rule (withReturns text) := by
  obtain ⟨line, ends, behind, rfl, hline, hends, hne, hbehind, hrule⟩ := h.exists_line
  rw [withReturns_append, withReturns_append, withReturns_of_not_mem hline.lineFeed_not_mem,
    withReturns_of_not_mem hbehind.unbroken.lineFeed_not_mem]
  exact hrule (isLineEnds_withReturns hends) (by rwa [Ne, withReturns_eq_nil_iff]) hbehind

theorem WritesTable.withReturns (h : WritesTable rules text) :
    WritesTable rules (withReturns text) := by
  induction h with
  | last h => exact .last h.withReturns
  | more h _ ih =>
    rw [withReturns_append]
    exact .more h.withReturns ih

/-- and so is a document. -/
theorem WritesDocument.withReturns (h : WritesDocument rules text) :
    WritesDocument rules (withReturns text) := by
  obtain ⟨ends, body, hends, hbody, rfl⟩ := h
  exact ⟨_, _, isLineEnds_withReturns hends, hbody.withReturns, withReturns_append ends body⟩

/-! ## Outcomes -/

/-- **A source with a return before each line feed.** -/
def sourceWithReturns (source : String) : String := String.ofList (withReturns source.toList)

/-- **Outcomes of compiling that look the same**: the same table, or errors of one kind
in one place that are worded and shown alike. -/
inductive SameOutcome : Except CompileError (List Rule) → Except CompileError (List Rule) → Prop
  | table (rules : List Rule) : SameOutcome (.ok rules) (.ok rules)
  | error {e e' : CompileError} : e'.fault.kind = e.fault.kind → e'.location = e.location →
      e'.fault.message = e.fault.message → toString e' = toString e →
      SameOutcome (.error e) (.error e')

theorem SameOutcome.refl (outcome : Except CompileError (List Rule)) :
    SameOutcome outcome outcome := by
  cases outcome with
  | ok rules => exact .table rules
  | error e => exact .error rfl rfl rfl rfl

/-- A source that is refused as a whole is quoted by its first line. -/
theorem message_unreadable_withReturns (h : '\r' ∉ source.toList) :
    (Fault.unreadable (sourceWithReturns source)).message = (Fault.unreadable source).message := by
  have hchars : (sourceWithReturns source).toList = withReturns source.toList :=
    String.toList_ofList
  rw [Fault.message_unreadable, Fault.message_unreadable, hchars, firstLine_withReturns h,
    hasMoreLines_withReturns]

/-- There is a tree of both forms of a source or of neither, with the same problems. -/
theorem problems_parse_withReturns
    (hshort : countEnds (withReturns source.toList) < 2 ^ 32) :
    (parser.parse (sourceWithReturns source)).map Parse.problems =
      (parser.parse source).map Parse.problems := by
  rw [parse_eq, parse_eq, sourceWithReturns, String.toList_ofList]
  exact Parser.map_problems_withReturns parser (readsAlike_document hshort _)

/-- Where there is no problem there are rules. -/
theorem exists_writtenRules_of_problems_eq_nil {parse : Parse}
    (h : parser.parse source = some parse) (hproblems : parse.problems = []) :
    ∃ rules, writtenRules source = .ok rules := by
  obtain ⟨rules, hrules, -⟩ := (isDocument_of_parse h).exists_rules
  refine ⟨rules, ?_⟩
  rw [writtenRules, h]
  simp only [ofParse, hproblems, hrules]
  rfl

/-- The rules of a document are those that are written with returns. -/
theorem writtenRules_withReturns_of_ok
    (hshort : countEnds (withReturns source.toList) < 2 ^ 32)
    (h : writtenRules source = .ok rules) :
    writtenRules (sourceWithReturns source) = .ok rules := by
  obtain ⟨hwritten, hdepth⟩ := writtenRules_eq_ok_iff.1 h
  refine writtenRules_eq_ok ?_ hdepth
  rw [sourceWithReturns, String.toList_ofList]
  exact hwritten.writes.withReturns.counts hshort

/-- **Compiling does not depend on how the ends of lines are written.** If there is no
carriage return in a source, it is compiled to what it is compiled to with a return
before each line feed: to the same table, or to an error of the same kind, in the same
line and column, that is worded and shown alike. This is so of every source for whose
ends of lines, with the returns, the counter is wide enough. -/
theorem compile_withReturns (eol : EolStyle) (source : String) (h : '\r' ∉ source.toList)
    (hshort : countEnds (withReturns source.toList) < 2 ^ 32) :
    SameOutcome (compile eol source) (compile eol (sourceWithReturns source)) := by
  have hproblems := problems_parse_withReturns hshort
  cases hparse : parser.parse source with
  | none =>
    rw [hparse, Option.map_none, Option.map_eq_none_iff] at hproblems
    have herror := (parse_eq_none_iff_compile eol _).1 hparse
    have herror' := (parse_eq_none_iff_compile eol _).1 hproblems
    have hmessage := message_unreadable_withReturns h
    rw [herror, herror']
    refine .error rfl rfl hmessage ?_
    rw [CompileError.toString_eq, CompileError.toString_eq, hmessage]
  | some parse =>
    rw [hparse, Option.map_some] at hproblems
    obtain ⟨parse', hparse', hsame⟩ := Option.map_eq_some_iff.1 hproblems
    cases hproblem : parse.problems with
    | cons problem later =>
      have herror := compile_eq_error eol hparse hproblem
      have herror' := compile_eq_error eol hparse' (hsame.trans hproblem)
      rw [herror, herror']
      exact .refl _
    | nil =>
      obtain ⟨rules, hwritten⟩ := exists_writtenRules_of_problems_eq_nil hparse hproblem
      rw [compile, compile, hwritten, writtenRules_withReturns_of_ok hshort hwritten]
      exact .refl _

/-- A character that begins no rule, behind a rule, and a source that breaks off before
there is one, which is quoted without the return that its first line has then. -/
theorem compile_withReturns_broken :
    '\r' ∉ "<A>::=<A>\n?".toList ∧
    countEnds (withReturns "<A>::=<A>\n?".toList) < 2 ^ 32 ∧
    compile .apart "<A>::=<A>\n?" = .error ⟨.point ⟨2, 1⟩, .rejected
      "Unexpected input `?`, expected one of \"\\r\", \"\\n\", \" \", \"<\""⟩ ∧
    SameOutcome (compile .apart "<A>::=<A>\n?") (compile .apart "<A>::=<A>\r\n?") ∧
    '\r' ∉ "<A\n>".toList ∧
    countEnds (withReturns "<A\n>".toList) < 2 ^ 32 ∧
    compile .together "<A\n>" = .error ⟨.whole, .unreadable "<A\n>"⟩ ∧
    (Fault.unreadable "<A\r\n>").message = "Could not parse `<A ...`" ∧
    SameOutcome (compile .together "<A\n>") (compile .together "<A\r\n>") := by
  have hreport : (parser.parse "<A>::=<A>\n?").map Parse.problems =
      some [.unexpectedInput ⟨2, 1⟩ "?" ["\"\\r\"", "\"\\n\"", "\" \"", "\"<\""]] := by
    decide +kernel
  obtain ⟨parse, hparse, hproblems⟩ := Option.map_eq_some_iff.1 hreport
  have hnone : parser.parse "<A\n>" = none := by decide +kernel
  have hplain : '\r' ∉ "<A>::=<A>\n?".toList := by decide
  have hplain' : '\r' ∉ "<A\n>".toList := by decide
  have hsource : sourceWithReturns "<A>::=<A>\n?" = "<A>::=<A>\r\n?" := by decide
  have hsource' : sourceWithReturns "<A\n>" = "<A\r\n>" := by decide
  have hshort : countEnds (withReturns "<A>::=<A>\n?".toList) < 2 ^ 32 := by decide +kernel
  have hshort' : countEnds (withReturns "<A\n>".toList) < 2 ^ 32 := by decide +kernel
  have hbroken := compile_withReturns .apart "<A>::=<A>\n?" hplain hshort
  have hbroken' := compile_withReturns .together "<A\n>" hplain' hshort'
  rw [hsource] at hbroken
  rw [hsource'] at hbroken'
  exact ⟨hplain, hshort, compile_eq_error .apart hparse hproblems, hbroken, hplain', hshort',
    (parse_eq_none_iff_compile .together _).1 hnone, by decide, hbroken'⟩

theorem length_withReturns_replicate (k : Nat) :
    (withReturns (List.replicate k '\n')).length = 2 * k := by
  induction k with
  | zero => rfl
  | succ k ih =>
    rw [List.replicate_succ, withReturns_lineFeed, List.length_cons, List.length_cons, ih]
    omega

/-- **With `2 ^ 31` line feeds behind a rule** the source is compiled, and not with returns. -/
theorem not_compile_withReturns :
    ¬ ∀ (eol : EolStyle) (source : String), '\r' ∉ source.toList →
      SameOutcome (compile eol source) (compile eol (sourceWithReturns source)) := by
  intro hall
  have hrule : WritesRule letterRule (letterLine (2 ^ 31)) := writesRule_letterLine (by decide)
  have hfirst : compile .together (letterSource (2 ^ 31)) = .ok (withEol .together [letterRule]) :=
    compile_letterLine isLineEnds_nil (by decide) .together
  have hplain : '\r' ∉ (letterSource (2 ^ 31)).toList := by
    rw [letterSource, String.toList_ofList, letterLine, List.mem_append, not_or]
    exact ⟨by decide, fun hmem => absurd (List.eq_of_mem_replicate hmem) (by decide)⟩
  have hfull : ¬ Matcher.Counted (countEnds (withReturns (letterLine (2 ^ 31)))) := by
    have hline : Unbroken ['<', 'a', '>', ':', ':', '=', '\'', 'x', '\''] := by decide
    rw [letterLine, withReturns_append, withReturns_of_not_mem hline.lineFeed_not_mem,
      countEnds_append, hline.countEnds_eq,
      (isLineEnds_withReturns (isLineEnds_replicate _)).countEnds_eq,
      length_withReturns_replicate, Nat.zero_add]
    exact not_counted_full
  have hsource : (sourceWithReturns (letterSource (2 ^ 31))).toList =
      withReturns (letterLine (2 ^ 31)) ++ [] := by
    rw [sourceWithReturns, letterSource, String.toList_ofList, String.toList_ofList,
      List.append_nil]
  have hnone := parse_eq_none_of_full hrule.withReturns hfull withinDepth_letterRule begins_nil
    hsource
  have hsame := hall .together _ hplain
  rw [hfirst, compile, writtenRules, hnone] at hsame
  cases hsame

end Bnf

end OrderedBnf
