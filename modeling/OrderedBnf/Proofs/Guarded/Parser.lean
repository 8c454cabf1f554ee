import OrderedBnf.Proofs.Guarded.Matcher

/-!
# Parsing, with guards

The last step up: a parse looks its start rule up, runs the body of it from the
beginning of the text, cuts out what was taken, and where text is left over cuts
out what is quoted of it and finds the position of it. With that every operation
that need not be defined stands behind a guard, and none of them goes wrong,
whatever the table, the options and the text (`never_undefined`).
-/

namespace OrderedBnf

namespace Guarded

/-- The problem of input left over. -/
def leftover (text : String) (stop : Nat) (p : Progress) : Option Problem := do
  let place := max p.furthest stop
  let rest ← slice? text place text.utf8ByteSize
  let position ← position text place
  return .unexpectedInput position (Problem.excerpt rest.toList)
    (if place = p.furthest then p.expected else [])

/-- The problems of a match that stopped at an offset. -/
def problems (limit : Nat) (text : String) (stop : Nat) (p : Progress) : Option (List Problem) :=
  let deep := if p.tooDeep then [.tooDeep limit] else []
  if stop < text.utf8ByteSize then (leftover text stop p).map (· :: deep) else some deep

/-- Parses a text from the definition with an index. -/
def parseIndex (p : Parser) (text : String) (index : Nat) : Option (Option Parse) := do
  let limit := p.options.maxDepth
  let d ← p.grammar[index]?
  match ← body text p.grammar limit (limit + 1) index 0 ⟨0, Progress.start⟩ with
  | (none, _) => return none
  | (some (stop, nodes), s) =>
    let taken ← slice? text 0 stop
    let problems ← problems limit text stop s.progress
    return some ⟨⟨d.name, taken, 0, stop, nodes, problems⟩⟩

/-- Parses a text from the rule of a name. -/
def parseFrom (p : Parser) (text start : String) : Option (Option Parse) :=
  match lastIndex? start p.grammar with
  | some index => parseIndex p text index
  | none => some none

/-- Parses a text from the start rule. If that is the first, its name has to be
found. -/
def parse (p : Parser) (text : String) : Option (Option Parse) :=
  match p.options.start with
  | some start => parseFrom p text start
  | none =>
    match p.grammar.head? with
    | none => some none
    | some first => do
      let index ← lastIndex? first.name p.grammar
      parseIndex p text index

variable {text : String} {p : Parser} {d : Definition} {progress : Progress}

/-! ## Runs -/

/-- **A run of the parser, with guards**: it has the result of the run, and the
furthest failure is at a boundary. -/
theorem run_eq (text : String) {index : Nat} (hd : p.grammar[index]? = some d) :
    body text p.grammar p.options.maxDepth (p.options.maxDepth + 1) index 0 ⟨0, Progress.start⟩ =
      some (found (p.run text.toList d).1, ⟨0, (p.run text.toList d).2⟩) ∧
    IsBoundary text (p.run text.toList d).2.furthest :=
  agrees_body (Nat.zero_add _) (Nat.lt_succ_self _) hd (Cursor.start text.toList) Progress.start
    (.refl _) (isBoundary_zero text)

/-! ## Problems -/

theorem leftover_eq {stop : Nat} (hfurthest : IsBoundary text progress.furthest)
    (hstop : IsBoundary text stop) :
    leftover text stop progress = some (Parser.leftover text.toList stop progress) := by
  have hplace : IsBoundary text (max progress.furthest stop) := by
    rcases Nat.le_total stop progress.furthest with h | h
    · rwa [Nat.max_eq_left h]
    · rwa [Nat.max_eq_right h]
  obtain ⟨before, after, htext, hbefore⟩ := isBoundary_iff.1 hplace
  have hrest : slice? text (max progress.furthest stop) text.utf8ByteSize =
      some (String.ofList after) := by
    refine slice?_eq_some_iff.2 ⟨before, [], by simpa using htext, hbefore, ?_⟩
    rw [← byteLength_toList, htext, byteLength_append, hbefore, String.toList_ofList]
  have hquoted : text.toList.drop (takeBytes (max progress.furthest stop) text.toList).length =
      after := by
    rw [hbefore, htext, takeBytes_byteLength, List.drop_left]
  have hexpected : max progress.furthest stop = progress.furthest ↔ stop ≤ progress.furthest := by
    omega
  simp only [leftover, hrest, position_eq, Option.bind_eq_bind, Option.bind_some, hexpected,
    String.toList_ofList, Parser.leftover, hquoted]
  rfl

theorem problems_eq (limit : Nat) {c : Cursor} (hc : (Cursor.start text.toList).Reaches c)
    (hfurthest : IsBoundary text progress.furthest) :
    problems limit text c.offset progress =
      some (Parser.problems limit text.toList c progress) := by
  have hlength := utf8ByteSize_of_reaches hc
  rw [problems, leftover_eq hfurthest (isBoundary_of_reaches hc), Parser.problems]
  cases hrest : c.rest with
  | nil =>
    rw [hrest, byteLength] at hlength
    rw [if_neg (by omega)]
    rfl
  | cons a rest =>
    rw [hrest, byteLength] at hlength
    have := a.utf8Size_pos
    rw [if_pos (by omega)]
    rfl

/-! ## Parses -/

theorem parseIndex_eq {index : Nat} (hd : p.grammar[index]? = some d) :
    parseIndex p text index = some (p.parseDefinition text.toList d) := by
  obtain ⟨hbody, hfurthest⟩ := run_eq text hd
  rw [parseIndex, Parser.parseDefinition]
  simp only [hd, hbody, Option.bind_eq_bind, Option.bind_some]
  rcases hrun : p.run text.toList d with ⟨_ | m, progress⟩
  · rfl
  · have hreach := (Parser.admits_of_run (congrArg Prod.fst hrun)).reaches
    rw [hrun] at hfurthest
    obtain ⟨taken, hr, ho⟩ := id hreach
    have hslice : slice? text 0 m.stop.offset =
        some (String.ofList ((Cursor.start text.toList).upTo m.stop.offset)) := by
      rw [Cursor.upTo_of_rest hr ho]
      exact slice?_of_reaches (.refl (Cursor.start text.toList)) hr ho
    simp only [found, Option.map_some, hslice, Option.bind_some, problems_eq _ hreach hfurthest]
    rfl

theorem parseFrom_eq (p : Parser) (text start : String) :
    parseFrom p text start = some (p.parseFrom text start) := by
  rw [parseFrom, Parser.parseFrom]
  cases hd : p.grammar.find? start with
  | none =>
    rw [lastIndex?_eq_none hd]
    rfl
  | some d =>
    obtain ⟨index, hindex, hd⟩ := exists_lastIndex?_eq_some hd
    rw [hindex]
    exact parseIndex_eq hd

/-- The first rule can be looked up. -/
theorem parse_eq (p : Parser) (text : String) : parse p text = some (p.parse text) := by
  rw [parse, Parser.parse, Parser.start?]
  cases p.options.start with
  | some start => exact parseFrom_eq p text start
  | none =>
    cases hfirst : p.grammar.head? with
    | none => rfl
    | some first =>
      cases hd : p.grammar.find? first.name with
      | none => exact absurd rfl (Grammar.find?_eq_none_iff.1 hd first (List.mem_of_head? hfirst))
      | some d =>
        obtain ⟨index, hindex, hd'⟩ := exists_lastIndex?_eq_some hd
        dsimp only
        rw [hindex, Option.bind_eq_bind, Option.bind_some, parseIndex_eq hd', Option.map_some,
          Option.none_or, Option.bind_some, Parser.parseFrom, hd, Option.bind_some]

/-- **Nothing that is partial goes wrong**, whatever the table, the options and the
text: with guards, every term is taken apart, every table gives its parser, every
offset has its position and every parse its result; and a run stops at a boundary
of the text, and has its furthest failure at one. -/
theorem never_undefined (rules : List Rule) (options : ParserOptions) (text : String) :
    (∀ source, split source = some (Term.split source) ∧
      symbol source = some (Symbol.ofBase source)) ∧
    ofRules rules options = some (Parser.ofRules rules options) ∧
    (∀ offset, position text offset = some (Position.ofOffset text offset)) ∧
    (∀ start, parseFrom (Parser.ofRules rules options) text start =
      some ((Parser.ofRules rules options).parseFrom text start)) ∧
    parse (Parser.ofRules rules options) text =
      some ((Parser.ofRules rules options).parse text) ∧
    ∀ d ∈ Grammar.ofRules rules,
      IsBoundary text ((Parser.ofRules rules options).run text.toList d).2.furthest ∧
      ∀ m, ((Parser.ofRules rules options).run text.toList d).1 = some m →
        IsBoundary text m.stop.offset := by
  refine ⟨fun source => ⟨split_eq source, symbol_eq source⟩, ofRules_eq rules options,
    position_eq text, parseFrom_eq _ text, parse_eq _ text, fun d hd => ⟨?_, fun m hm => ?_⟩⟩
  · obtain ⟨index, hindex⟩ := List.getElem?_of_mem hd
    exact (run_eq text hindex).2
  · exact isBoundary_of_reaches (Parser.admits_of_run hm).reaches

/-- A name of two bytes, a quote that is never closed, a repetition of nothing, and
names that are defined twice or not at all. -/
def oddTable : List Rule :=
  [⟨"é", [["\"ü", "é"], ["'ü'*", "?", "''+"]]⟩, ⟨"?", [[]]⟩, ⟨"?", [["'x'"], []]⟩]

/-- With the highest limit that a machine word holds, and a text whose last
character is not taken. -/
theorem never_undefined_odd : ∃ d ∈ Grammar.ofRules oddTable, ∃ m,
    ((Parser.ofRules oddTable ⟨none, 18446744073709551615⟩).run "üü€".toList d).1 = some m ∧
      m.stop.offset = 4 ∧ IsBoundary "üü€" m.stop.offset := by
  have hd : Definition.ofRule ⟨"é", [["\"ü", "é"], ["'ü'*", "?", "''+"]]⟩ ∈
      Grammar.ofRules oddTable := List.mem_cons_self ..
  have hrun : ((Parser.ofRules oddTable ⟨none, 18446744073709551615⟩).run "üü€".toList
      (Definition.ofRule ⟨"é", [["\"ü", "é"], ["'ü'*", "?", "''+"]]⟩)).1.map
        (·.stop.offset) = some 4 := by
    decide +kernel
  obtain ⟨m, hm, hstop⟩ := Option.map_eq_some_iff.1 hrun
  exact ⟨_, hd, m, hm, hstop,
    ((never_undefined oddTable ⟨none, 18446744073709551615⟩ "üü€").2.2.2.2.2 _ hd).2 m hm⟩

end Guarded

end OrderedBnf
