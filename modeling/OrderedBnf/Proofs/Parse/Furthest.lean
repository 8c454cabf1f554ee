import Mathlib.Data.List.Induction
import OrderedBnf.Proofs.Match.History
import OrderedBnf.Proofs.Parse.Tree

/-!
# The furthest failure and the report of it

A run misses literals in many places and in attempts that are given up one after
another. `failures` are all of them, in the order in which they happen. What a
run remembers of them is the largest offset and the literals missed there, each
once, in the order of their first failure (`Progress.foldl_note`).

So the report of left over input is exact (`isExact_of_parse`). It stands where
matching got furthest, never before the end of the tree, and none of the literals
that it lists comes there.
-/

namespace OrderedBnf

/-! ## All failures -/

/-- The failure that an event is: the offset and the literal, as written. -/
def Event.failure? : Event → Option (Nat × String)
  | .miss offset source => some (offset, source)
  | _ => none

/-- **The failures among events**, in their order. -/
def failures (events : List Event) : List (Nat × String) := events.filterMap Event.failure?

/-- The largest offset of a failure; the start of the text if there is none. -/
def furthestFailure (failed : List (Nat × String)) : Nat := (failed.map Prod.fst).max?.getD 0

/-- The literals that failed at an offset, each once, in the order of their first
failure. -/
def failedAt (offset : Nat) (failed : List (Nat × String)) : List String :=
  ((failed.filter fun failure => failure.1 == offset).map Prod.snd).eraseDups

variable {failed : List (Nat × String)} {events : List Event} {offset : Nat} {source : String}

theorem mem_failures : (offset, source) ∈ failures events ↔ .miss offset source ∈ events := by
  simp only [failures, List.mem_filterMap]
  constructor
  · rintro ⟨e, he, hfailure⟩
    cases e <;> simp_all [Event.failure?]
  · exact fun h => ⟨_, h, rfl⟩

theorem mem_failedAt : source ∈ failedAt offset failed ↔ (offset, source) ∈ failed := by
  simp [failedAt, List.mem_eraseDups]

/-- The furthest failure is one, or there is none. -/
theorem furthestFailure_cases (failed : List (Nat × String)) :
    furthestFailure failed = 0 ∨ ∃ source, (furthestFailure failed, source) ∈ failed := by
  cases h : (failed.map Prod.fst).max? with
  | none => exact .inl (by rw [furthestFailure, h]; rfl)
  | some offset =>
    obtain ⟨⟨_, source⟩, hmem, rfl⟩ := List.mem_map.1 (List.max?_mem h)
    exact .inr ⟨source, by rwa [furthestFailure, h]⟩

theorem le_furthestFailure (h : (offset, source) ∈ failed) : offset ≤ furthestFailure failed :=
  List.le_max?_getD_of_mem (List.mem_map_of_mem h)

theorem furthestFailure_concat :
    furthestFailure (failed ++ [(offset, source)]) = max (furthestFailure failed) offset := by
  have hfold : ∀ failed, furthestFailure failed = (failed.map Prod.fst).foldl max 0 := by
    intro failed
    rw [List.foldl_max, Nat.zero_max]
    rfl
  rw [hfold, hfold, List.map_append, List.foldl_append]
  rfl

/-! ## What is remembered of them -/

/-- A literal missed behind all others is the only one missed there, -/
theorem failedAt_concat_of_lt (h : furthestFailure failed < offset) :
    failedAt offset (failed ++ [(offset, source)]) = [source] := by
  have hnone : failed.filter (fun failure => failure.1 == offset) = [] := by
    refine List.filter_eq_nil_iff.2 fun failure hmem => ?_
    have := le_furthestFailure hmem
    simp only [beq_iff_eq]
    omega
  simp only [failedAt, List.filter_append, hnone]
  simp [List.eraseDups_cons]

/-- one missed where others were is added if it is new, -/
theorem failedAt_concat_self :
    failedAt offset (failed ++ [(offset, source)]) =
      if source ∈ failedAt offset failed then failedAt offset failed
      else failedAt offset failed ++ [source] := by
  have hone : (failed ++ [(offset, source)]).filter (fun failure => failure.1 == offset) =
      failed.filter (fun failure => failure.1 == offset) ++ [(offset, source)] := by
    simp
  rw [failedAt, hone, List.map_append, List.eraseDups_append, ← failedAt, List.map_singleton]
  by_cases h : source ∈ failedAt offset failed
  · rw [if_pos h, List.removeAll, List.filter_cons_of_neg, List.filter_nil, List.eraseDups_nil,
      List.append_nil]
    simpa using mem_failedAt.1 h
  · rw [if_neg h, List.removeAll, List.filter_cons_of_pos, List.filter_nil, List.eraseDups_cons]
    · rfl
    · simpa using fun hmem => h (mem_failedAt.2 hmem)

/-- and one missed elsewhere does not matter. -/
theorem failedAt_concat_of_ne {place : Nat} (h : offset ≠ place) :
    failedAt place (failed ++ [(offset, source)]) = failedAt place failed := by
  simp [failedAt, h]

/-- **What is remembered of the events of a run**: the furthest failure, and the
literals that failed there. -/
theorem Progress.foldl_note (events : List Event) :
    (events.foldl note start).furthest = furthestFailure (failures events) ∧
    (events.foldl note start).expected =
      failedAt (furthestFailure (failures events)) (failures events) := by
  induction events using List.reverseRecOn with
  | nil => exact ⟨rfl, rfl⟩
  | append_singleton events e ih =>
    obtain ⟨hfurthest, hexpected⟩ := ih
    rw [List.foldl_concat]
    cases e with
    | miss offset source =>
      have hfailures : failures (events ++ [.miss offset source]) =
          failures events ++ [(offset, source)] := by
        simp [failures, Event.failure?]
      rw [hfailures, furthestFailure_concat, note, miss, hfurthest, hexpected]
      rcases Nat.lt_trichotomy (furthestFailure (failures events)) offset with hlt | heq | hlt
      · rw [Nat.max_eq_right (Nat.le_of_lt hlt), failedAt_concat_of_lt hlt, if_pos hlt]
        exact ⟨rfl, rfl⟩
      · rw [← heq, Nat.max_self, failedAt_concat_self, if_neg (Nat.lt_irrefl _)]
        split <;> split <;> simp_all
      · rw [Nat.max_eq_left (Nat.le_of_lt hlt), failedAt_concat_of_ne (Nat.ne_of_lt hlt),
          if_neg (Nat.lt_asymm hlt), if_neg fun h => Nat.ne_of_lt hlt h.1]
        exact ⟨hfurthest, hexpected⟩
    | enter | leave | tooDeep | unresolved =>
      simp only [failures, List.filterMap_append, List.filterMap_cons, List.filterMap_nil,
        Event.failure?, List.append_nil]
      exact ⟨hfurthest, hexpected⟩

/-! ## The report -/

/-- **What a report quotes** of the text behind a place: as much of the line as
there is, up to 20 characters. -/
structure Problem.IsExcerpt (found after : List Char) : Prop where
  begins : found <+: after
  inLine : ∀ a ∈ found, a ≠ '\n' ∧ a ≠ '\r'
  length_le : found.length ≤ 20
  longest : found.length = 20 ∨ found = after ∨
    ∃ a rest, after = found ++ a :: rest ∧ (a = '\n' ∨ a = '\r')

theorem Problem.isExcerpt_excerpt (after : List Char) : IsExcerpt (excerpt after).toList after := by
  obtain ⟨line, hline⟩ : ∃ line, line = after.takeWhile fun c => c != '\n' && c != '\r' := ⟨_, rfl⟩
  have hplain : ∀ a ∈ line, a ≠ '\n' ∧ a ≠ '\r' := by
    intro a ha
    rw [hline] at ha
    simpa using List.all_eq_true.1 List.all_takeWhile a ha
  have hbegins : line <+: after := hline ▸ List.takeWhile_prefix _
  rw [excerpt, ← hline, String.toList_ofList, excerptLength]
  refine ⟨(List.take_prefix _ _).trans hbegins, fun a ha => hplain a (List.mem_of_mem_take ha),
    List.length_take_le _ _, ?_⟩
  by_cases hlength : 20 ≤ line.length
  · exact .inl (List.length_take_of_le hlength)
  · rw [List.take_of_length_le (by omega)]
    -- the line ends with the text or before an end of line
    have hafter : line ++ after.dropWhile (fun c => c != '\n' && c != '\r') = after :=
      hline ▸ List.takeWhile_append_dropWhile
    rcases hrest : after.dropWhile fun c => c != '\n' && c != '\r' with _ | ⟨a, rest⟩
    · rw [hrest, List.append_nil] at hafter
      exact .inr (.inl hafter)
    · have ha := List.head?_dropWhile_not (fun c => c != '\n' && c != '\r') after
      rw [hrest] at ha hafter
      refine .inr (.inr ⟨a, rest, hafter.symm, ?_⟩)
      simp at ha
      tauto

/-- The wording of a report lists the literals, if there are any. -/
theorem Problem.message_unexpectedInput (position : Position) (found : String)
    (expected : List String) :
    (unexpectedInput position found expected).message =
      "Unexpected input " ++ nameExcerpt found ++
        (if expected = [] then "" else ", expected one of " ++ ", ".intercalate expected) := by
  cases expected with
  | nil =>
    rw [if_pos rfl, String.append_empty]
    rfl
  | cons e es =>
    rw [if_neg (List.cons_ne_nil e es), ← String.append_assoc]
    rfl

/-! ## The course of a parse -/

/-- Without its suffix, the text of a term says what it is. -/
theorem Grammar.HasTerm.ofBase_source {rules : List Rule} {t : Term}
    (h : (Grammar.ofRules rules).HasTerm t) : Symbol.ofBase t.source = t.symbol := by
  obtain ⟨d, hd, ht⟩ := h
  obtain ⟨rule, -, rfl⟩ := List.mem_map.1 hd
  obtain ⟨terms, hterms, ht⟩ := List.mem_flatten.1 ht
  obtain ⟨sources, -, rfl⟩ := List.mem_map.1 hterms
  obtain ⟨source, -, rfl⟩ := List.mem_map.1 ht
  rfl

namespace Parser

/-- **What happens when a text is matched** from a definition, in its order. -/
def trace (p : Parser) (text : List Char) (d : Definition) : List Event :=
  (p.grammar.body Event.record p.options.maxDepth d (Cursor.start text) []).2.reverse

variable {p : Parser} {d : Definition} {m : Match}

/-- The events are those of the run that a parse is made of. -/
theorem runs_trace (p : Parser) (text : List Char) (d : Definition) :
    Runs p.grammar p.options.maxDepth (.body d) (Cursor.start text) (p.run text d).1
      (p.trace text d) := by
  obtain ⟨o, events, h⟩ := exists_runs p.grammar p.options.maxDepth (.body d) (Cursor.start text)
  have hrun : p.run text d = (o, events.foldl Progress.note .start) := h.run Progress.note .start
  have htrace : p.trace text d = events := by
    have hrecord := congrArg (fun r => r.2.reverse) (h.run Event.record [])
    simp only [Runs.foldl_record, List.append_nil, List.reverse_reverse] at hrecord
    exact hrecord
  rwa [hrun, htrace]

/-- And a parse remembers of them what its observer keeps. -/
theorem run_snd (p : Parser) (text : List Char) (d : Definition) :
    (p.run text d).2 = (p.trace text d).foldl Progress.note .start :=
  congrArg Prod.snd ((runs_trace p text d).run Progress.note .start)

theorem history_trace {name : String} (hd : p.grammar.find? name = some d) (text : List Char) :
    History p.grammar (Cursor.start text) p.options.maxDepth (p.trace text d) := by
  have hforce := Grammar.find?_eq_some_iff.1 hd
  refine (runs_trace p text d).history ?_ (.refl _)
  rw [← hforce.name_eq] at hforce
  exact hforce

/-- The furthest failure has its place in the text. -/
theorem exists_reaches_furthest {name : String} (hd : p.grammar.find? name = some d)
    (text : List Char) : ∃ c : Cursor, (Cursor.start text).Reaches c ∧
      c.offset = furthestFailure (failures (p.trace text d)) := by
  rcases furthestFailure_cases (failures (p.trace text d)) with h | ⟨source, h⟩
  · exact ⟨Cursor.start text, .refl _, by rw [h]; rfl⟩
  · obtain ⟨_, _, c, _, _, _, hc, ho, _⟩ := (history_trace hd text).of_miss_mem (mem_failures.1 h)
    exact ⟨c, hc, ho⟩

/-- **A parse that reports left over input exactly**, given all failures of its run. -/
structure IsExact (text : String) (failed : List (Nat × String)) (parse : Parse) : Prop where
  /-- If text is left over, that comes first. The report stands where matching got
  furthest, at or behind the end of the tree; it quotes what comes there, and lists
  the literals that failed there, none of which comes there. -/
  leftover : parse.root.stop < text.utf8ByteSize →
    ∃ before after found expected later,
      text.toList = before ++ after ∧
      byteLength before = max (furthestFailure failed) parse.root.stop ∧
      parse.problems = .unexpectedInput
        (Position.ofOffset text (max (furthestFailure failed) parse.root.stop))
        (String.ofList found) expected :: later ∧
      Problem.IsExcerpt found after ∧
      expected = (if parse.root.stop ≤ furthestFailure failed then
        failedAt (furthestFailure failed) failed else []) ∧
      ∀ source ∈ expected, ∃ literal, Symbol.ofBase source = .literal literal ∧ ¬ literal <+: after
  /-- If none is, there is no such report. -/
  finished : parse.root.stop = text.utf8ByteSize →
    ∀ position found expected, .unexpectedInput position found expected ∉ parse.problems

/-- The report of input left over comes first, if any is, -/
theorem problems_of_rest_ne_nil {limit : Nat} {text : List Char} {stop : Cursor}
    {progress : Progress} (h : stop.rest ≠ []) :
    problems limit text stop progress = leftover text stop.offset progress ::
      if progress.tooDeep then [.tooDeep limit] else [] := by
  rw [problems, if_neg (by simpa using h)]
  rfl

/-- and is not made otherwise. -/
theorem unexpectedInput_not_mem_problems {limit : Nat} {text : List Char} {stop : Cursor}
    {progress : Progress} (h : stop.rest = []) (position : Position) (found : String)
    (expected : List String) :
    .unexpectedInput position found expected ∉ problems limit text stop progress := by
  rw [problems, h, List.isEmpty_nil, if_pos rfl, List.nil_append]
  split <;> simp

/-- The report of input left over, told by the cursor at its place. -/
theorem leftover_eq {text : String} {stop : Nat} {progress : Progress} {c : Cursor}
    (hc : (Cursor.start text.toList).Reaches c) (hplace : c.offset = max progress.furthest stop) :
    leftover text.toList stop progress =
      .unexpectedInput (Position.ofOffset text c.offset) (Problem.excerpt c.rest)
        (if stop ≤ progress.furthest then progress.expected else []) := by
  obtain ⟨before, hbefore, hbytes⟩ := hc
  replace hbefore : text.toList = before ++ c.rest := hbefore
  replace hbytes : c.offset = byteLength before := by simpa [Cursor.start] using hbytes
  have hdrop : text.toList.drop (takeBytes c.offset text.toList).length = c.rest := by
    rw [hbytes, hbefore, takeBytes_byteLength, List.drop_left]
  rw [leftover, ← hplace, hdrop, Position.ofOffset]

/-- What is missed where the furthest failure is does not come there. -/
theorem not_isPrefix_of_mem_failedAt {rules : List Rule} {name source : String}
    (hd : p.grammar.find? name = some d) (hp : p.grammar = Grammar.ofRules rules)
    {text : List Char} {c : Cursor} (hc : (Cursor.start text).Reaches c)
    (h : source ∈ failedAt c.offset (failures (p.trace text d))) :
    ∃ literal, Symbol.ofBase source = .literal literal ∧ ¬ literal <+: c.rest := by
  obtain ⟨t, literal, c', ht, hs, rfl, hc', ho, hno⟩ :=
    (history_trace hd text).of_miss_mem (mem_failures.1 (mem_failedAt.1 h))
  rw [hp] at ht
  exact ⟨literal, ht.ofBase_source.trans hs, hc'.eq hc ho ▸ hno⟩

theorem isExact_of_parseFrom {rules : List Rule} {options : ParserOptions} {text start : String}
    {parse : Parse} (hd : (Grammar.ofRules rules).find? start = some d)
    (h : (ofRules rules options).parseFrom text start = some parse) :
    IsExact text (failures ((ofRules rules options).trace text.toList d)) parse := by
  obtain ⟨d', m, progress, hd', hrun, rfl⟩ := exists_run_of_parseFrom h
  obtain rfl : d' = d := Option.some.inj (hd'.symm.trans hd)
  have hstop := (admits_of_run (congrArg Prod.fst hrun)).reaches
  have hsize := utf8ByteSize_of_reaches hstop
  obtain ⟨hfurthest, hexpected⟩ :=
    Progress.foldl_note ((ofRules rules options).trace text.toList d')
  rw [← run_snd, hrun] at hfurthest hexpected
  constructor
  · intro hlt
    replace hlt : m.stop.offset < text.utf8ByteSize := hlt
    have hleft : m.stop.rest ≠ [] := by
      intro hempty
      rw [hsize, hempty] at hlt
      exact Nat.lt_irrefl _ hlt
    -- the place of the report is that of the furthest failure or the end of the tree
    obtain ⟨c, hc, hplace⟩ : ∃ c : Cursor, (Cursor.start text.toList).Reaches c ∧
        c.offset = max progress.furthest m.stop.offset := by
      rcases Nat.le_total progress.furthest m.stop.offset with hle | hle
      · exact ⟨m.stop, hstop, (Nat.max_eq_right hle).symm⟩
      · obtain ⟨c, hc, ho⟩ := exists_reaches_furthest hd' text.toList
        exact ⟨c, hc, by rw [ho, ← hfurthest, Nat.max_eq_left hle]⟩
    obtain ⟨before, hbefore, hbytes⟩ := id hc
    refine ⟨before, c.rest, (Problem.excerpt c.rest).toList, _,
      if progress.tooDeep then [.tooDeep options.maxDepth] else [], hbefore, ?_, ?_,
      Problem.isExcerpt_excerpt c.rest, rfl, fun source hsource => ?_⟩
    · rw [← hfurthest]
      simpa [Cursor.start, finish, hbytes] using hplace
    · rw [← hexpected, ← hfurthest, String.ofList_toList]
      simp [finish, problems_of_rest_ne_nil hleft, leftover_eq hc hplace, hplace, ofRules]
    · split at hsource
      · rename_i hle
        replace hle : m.stop.offset ≤ _ := hle
        refine not_isPrefix_of_mem_failedAt hd' rfl hc ?_
        rwa [hplace, hfurthest, Nat.max_eq_left hle]
      · cases hsource
  · intro heq position found expected hmem
    replace heq : m.stop.offset = text.utf8ByteSize := heq
    have hrest : m.stop.rest = [] := byteLength_eq_zero_iff.1 (by omega)
    exact unexpectedInput_not_mem_problems hrest position found expected hmem

/-- **The report of left over input is exact**, whatever the table, the options and
the text, from the rule of any name and from the start rule. Of all literals that
are missed in the course of a run, in attempts that are given up as in others,
`furthest` is the largest offset, and `expected` lists those missed there, each
once, in the order of their first failure. A tree that ends before the text does
has for its first problem a report at the larger of that offset and its end; the
report quotes what comes there, and lists the expected literals if matching got no
further, none of which comes there. A tree of the whole text has no such report. -/
theorem isExact_of_parse (rules : List Rule) (options : ParserOptions) (text : String) :
    (∀ start d, (Grammar.ofRules rules).find? start = some d →
      ∃ failed, failed = failures ((ofRules rules options).trace text.toList d) ∧
        Runs (Grammar.ofRules rules) options.maxDepth (.body d) (Cursor.start text.toList)
          ((ofRules rules options).run text.toList d).1
          ((ofRules rules options).trace text.toList d) ∧
        ((ofRules rules options).run text.toList d).2.furthest = furthestFailure failed ∧
        ((ofRules rules options).run text.toList d).2.expected =
          failedAt (furthestFailure failed) failed ∧
        ∀ parse, (ofRules rules options).parseFrom text start = some parse →
          IsExact text failed parse) ∧
    (∀ parse, (ofRules rules options).parse text = some parse →
      ∃ start d, (ofRules rules options).start? = some start ∧
        (Grammar.ofRules rules).find? start = some d ∧
        IsExact text (failures ((ofRules rules options).trace text.toList d)) parse) ∧
    ∀ position found expected,
      (Problem.unexpectedInput position found expected).location = .point position ∧
      (Problem.unexpectedInput position found expected).message =
        "Unexpected input " ++ Problem.nameExcerpt found ++
          (if expected = [] then "" else ", expected one of " ++ ", ".intercalate expected) := by
  refine ⟨fun start d hd => ?_, fun parse hparse => ?_, fun position found expected =>
    ⟨rfl, Problem.message_unexpectedInput position found expected⟩⟩
  · obtain ⟨hfurthest, hexpected⟩ :=
      Progress.foldl_note ((ofRules rules options).trace text.toList d)
    rw [← run_snd] at hfurthest hexpected
    exact ⟨_, rfl, runs_trace (ofRules rules options) _ _, hfurthest, hexpected,
      fun parse hparse => isExact_of_parseFrom hd hparse⟩
  · obtain ⟨start, hstart, hparse⟩ := Option.bind_eq_some_iff.1 hparse
    obtain ⟨d, hd, -⟩ := Option.bind_eq_some_iff.1 hparse
    exact ⟨start, d, hstart, hd, isExact_of_parseFrom hd hparse⟩

/-- Marks behind any number of letters with accents, in two attempts that are given
up before a third. -/
def markTable : List Rule :=
  [⟨"s", [["x*", "\"!\""], ["x*", "\"?\"+", "'!'"], ["x*"]]⟩, ⟨"x", [["\"é\""]]⟩]

/-- Five failures in one place, two of them again, behind a tree of four bytes. -/
theorem isExact_of_parse_marks : ∃ parse d, (Grammar.ofRules markTable).find? "s" = some d ∧
    (ofRules markTable .standard).parse "éé,\n" = some parse ∧ parse.root.stop = 4 ∧
    parse.root.stop < "éé,\n".utf8ByteSize ∧
    parse.problems = [.unexpectedInput ⟨1, 3⟩ "," ["\"é\"", "\"!\"", "\"?\""]] ∧
    failures ((ofRules markTable .standard).trace "éé,\n".toList d) =
      [(4, "\"é\""), (4, "\"!\""), (4, "\"é\""), (4, "\"?\""), (4, "\"é\"")] ∧
    IsExact "éé,\n" (failures ((ofRules markTable .standard).trace "éé,\n".toList d)) parse := by
  have hreport : ((ofRules markTable .standard).parse "éé,\n").map
      (fun parse => (parse.root.stop, parse.problems)) =
      some (4, [.unexpectedInput ⟨1, 3⟩ "," ["\"é\"", "\"!\"", "\"?\""]]) := by
    decide +kernel
  obtain ⟨parse, hparse, hreport⟩ := Option.map_eq_some_iff.1 hreport
  obtain ⟨hstop, hproblems⟩ := Prod.mk.inj hreport
  obtain ⟨start, d, hstart, hd, hexact⟩ :=
    (isExact_of_parse markTable .standard "éé,\n").2.1 parse hparse
  obtain rfl : "s" = start := Option.some.inj hstart
  obtain rfl : Definition.ofRule ⟨"s", [["x*", "\"!\""], ["x*", "\"?\"+", "'!'"], ["x*"]]⟩ = d :=
    Option.some.inj hd
  exact ⟨parse, _, hd, hparse, hstop, by rw [hstop]; decide, hproblems, by decide +kernel, hexact⟩

end Parser

end OrderedBnf
