import OrderedBnf.Journal.Compiling
import OrderedBnf.Proofs.Bnf.Shape

/-!
# What the journal tells

A compilation that fails has noted the parse of the document at most
(`compiling_of_error`). One that succeeds has noted the terms of every
alternative, because the reading of a document that is parsed without problems
does not break off, and then the size of the table (`compiling_of_ok`). So the
table that a compilation comes to can be told from its journal by the size, and
whether there is one (`filter_compiling`). No other entry is for a size.

Nodes are read one after another up to the first that cannot be read, on every
level. `readingEach_of_ok` says once what that comes to where all of them can.
-/

namespace OrderedBnf

namespace Journal

variable {α : Type} {read : Node → Except Fault α} {entries : Node → List Entry}
variable {nodes : List Node} {node : Node} {a : α} {as : List α} {e : Entry} {rule : Rule}
variable {rules table : List Rule} {terms : List String} {eol : EolStyle} {source : String}

/-! ## Reading node by node -/

theorem mem_onSuccess {result : Except Fault α} {entries : α → List Entry} :
    e ∈ onSuccess result entries ↔ ∃ a, result = .ok a ∧ e ∈ entries a := by
  cases result with
  | error => simp [onSuccess]
  | ok a => simp [onSuccess]

/-- **Where all nodes can be read, what is noted of each is noted in order**, -/
theorem readingEach_of_ok (h : nodes.mapM read = .ok as) :
    readingEach read entries nodes = nodes.flatMap entries := by
  have hall := Bnf.forall₂_of_mapM h
  clear h
  induction hall with
  | nil => rfl
  | cons hnode _ ih => rw [readingEach, hnode, List.flatMap_cons, onSuccess, ih]

theorem exists_mem_of_mapM (h : nodes.mapM read = .ok as) (ha : a ∈ as) :
    ∃ node ∈ nodes, read node = .ok a := by
  have hall := Bnf.forall₂_of_mapM h
  clear h
  induction hall with
  | nil => cases ha
  | cons hnode _ ih =>
    rcases List.mem_cons.1 ha with rfl | ha
    · exact ⟨_, List.mem_cons_self, hnode⟩
    · obtain ⟨other, hother, hread⟩ := ih ha
      exact ⟨other, List.mem_cons_of_mem _ hother, hread⟩

/-- and nothing is noted but of nodes that are there. -/
theorem exists_of_mem_readingEach (he : e ∈ readingEach read entries nodes) :
    ∃ node ∈ nodes, e ∈ entries node := by
  induction nodes with
  | nil => cases he
  | cons node nodes ih =>
    rw [readingEach, List.mem_append] at he
    rcases he with he | he
    · exact ⟨node, List.mem_cons_self, he⟩
    · obtain ⟨-, -, he⟩ := mem_onSuccess.1 he
      obtain ⟨other, hother, he⟩ := ih he
      exact ⟨other, List.mem_cons_of_mem _ hother, he⟩

/-! ## What is noted of the rules -/

/-- **The terms of an alternative are noted once they are read**, -/
theorem extracted_mem_readingTerms (h : Bnf.terms node = .ok terms) :
    extracted terms node.text ∈ readingTerms node := by
  obtain ⟨kind, text, start, stop, children, errors⟩ := node
  cases hown : Bnf.ownTerms children with
  | error fault =>
    rw [Bnf.terms, hown] at h
    cases h
  | ok own =>
    rw [readingTerms, hown, onSuccess, h]
    exact List.mem_append_right _ (List.mem_singleton_self _)

/-- those of each alternative of a rule, -/
theorem exists_extracted_mem_readingRule (h : Bnf.ruleOf node = .ok rule)
    (hterms : terms ∈ rule.alternatives) : ∃ text, extracted terms text ∈ readingRule node := by
  rw [Bnf.ruleOf] at h
  cases hname : Bnf.requiredChild node "rule-name" with
  | error fault =>
    rw [hname] at h
    cases h
  | ok name =>
    cases hfirst : Bnf.requiredChild node "firstExpression" with
    | error fault =>
      rw [hname, hfirst] at h
      cases h
    | ok first =>
      cases hall : (first :: Bnf.laterAlternatives node).mapM Bnf.terms with
      | error fault =>
        simp only [hname, hfirst, hall, bind, Except.bind] at h
        cases h
      | ok alternatives =>
        simp only [hname, hfirst, hall, bind, Except.bind, pure, Except.pure] at h
        obtain rfl := Except.ok.inj h
        obtain ⟨child, hchild, hread⟩ := exists_mem_of_mapM hall hterms
        refine ⟨child.text, ?_⟩
        rw [readingRule, hname, onSuccess, hfirst, onSuccess, readingEach_of_ok hall]
        exact List.mem_flatMap.2 ⟨child, hchild, extracted_mem_readingTerms hread⟩

/-- **and those of each alternative of a table.** -/
theorem exists_extracted_mem_readingRules {tree : Node} (h : Bnf.rulesOf tree = .ok rules)
    (hrule : rule ∈ rules) (hterms : terms ∈ rule.alternatives) :
    ∃ text, extracted terms text ∈ readingRules tree := by
  obtain ⟨child, hchild, hread⟩ := exists_mem_of_mapM h hrule
  obtain ⟨text, hmem⟩ := exists_extracted_mem_readingRule hread hterms
  refine ⟨text, ?_⟩
  rw [readingRules, readingEach_of_ok h]
  exact List.mem_flatMap.2 ⟨child, hchild, hmem⟩

mutual

/-- Nothing else is noted below a node -/
theorem exists_extracted_of_mem_readingTerms :
    ∀ (node : Node) (e : Entry), e ∈ readingTerms node → ∃ terms text, e = extracted terms text
  | ⟨kind, text, start, stop, children, errors⟩, e, he => by
    rw [readingTerms] at he
    obtain ⟨own, -, he⟩ := mem_onSuccess.1 he
    rcases List.mem_append.1 he with he | he
    · exact exists_extracted_of_mem_readingNested children e he
    · obtain ⟨terms, -, he⟩ := mem_onSuccess.1 he
      exact ⟨terms, text, List.mem_singleton.1 he⟩

/-- or among lists. -/
theorem exists_extracted_of_mem_readingNested :
    ∀ (nodes : List Node) (e : Entry),
      e ∈ readingNested nodes → ∃ terms text, e = extracted terms text
  | [], e, he => by
    rw [readingNested] at he
    cases he
  | node :: rest, e, he => by
    rw [readingNested] at he
    split at he
    · rcases List.mem_append.1 he with he | he
      · exact exists_extracted_of_mem_readingTerms node e he
      · obtain ⟨-, -, he⟩ := mem_onSuccess.1 he
        exact exists_extracted_of_mem_readingNested rest e he
    · exact exists_extracted_of_mem_readingNested rest e he

end

theorem exists_extracted_of_mem_readingRules {tree : Node} (he : e ∈ readingRules tree) :
    ∃ terms text, e = extracted terms text := by
  obtain ⟨child, -, he⟩ := exists_of_mem_readingEach he
  rw [readingRule] at he
  obtain ⟨name, -, he⟩ := mem_onSuccess.1 he
  obtain ⟨first, -, he⟩ := mem_onSuccess.1 he
  obtain ⟨other, -, he⟩ := exists_of_mem_readingEach he
  exact exists_extracted_of_mem_readingTerms other e he

/-! ## Parses and compilations -/

/-- What is noted of a parse is the tree, if there is one, and otherwise a warning at most. -/
theorem parsingFrom_eq_or (p : Parser) (text start : String) :
    parsingFrom p text start = (p.parseFrom text start).toList.map (parsed text) ∨
      p.parseFrom text start = none ∧ parsingFrom p text start = [undefinedStart start] := by
  rw [parsingFrom]
  cases hfind : p.grammar.find? start with
  | none => exact .inr ⟨by rw [Parser.parseFrom, hfind, Option.bind_none], rfl⟩
  | some => exact .inl rfl

/-- **A compilation that fails notes the parse at most.** -/
theorem compiling_of_error {error : CompileError} (h : Bnf.compile eol source = .error error) :
    compiling eol source = (Bnf.parser.parse source).toList.map (parsed source) := by
  rw [compiling]
  cases hparse : Bnf.parser.parse source with
  | none => rfl
  | some parse =>
    rw [Bnf.compile, Bnf.writtenRules, hparse] at h
    cases hproblems : parse.problems with
    | cons problem later => simp only [afterParse, hproblems, Option.toList, List.map]
    | nil =>
      -- without a problem there are rules, and the compilation does not fail
      obtain ⟨rules, hrules, -⟩ := (Bnf.isDocument_of_parse hparse).exists_rules
      simp only [Bnf.ofParse, hproblems, hrules] at h
      cases h

/-- **A compilation that succeeds notes the parse, the terms of every alternative and the
size of the table.** -/
theorem compiling_of_ok (h : Bnf.compile eol source = .ok table) :
    ∃ parse rules, Bnf.parser.parse source = some parse ∧ table = Bnf.withEol eol rules ∧
      compiling eol source = parsed source parse ::
        (readingRules parse.root ++ completing eol rules) ∧
      ∀ rule ∈ rules, ∀ terms ∈ rule.alternatives,
        ∃ text, extracted terms text ∈ readingRules parse.root := by
  rw [Bnf.compile, Bnf.writtenRules] at h
  rw [compiling]
  cases hparse : Bnf.parser.parse source with
  | none =>
    rw [hparse] at h
    cases h
  | some parse =>
    rw [hparse] at h
    simp only [Bnf.ofParse] at h
    cases hproblems : parse.problems with
    | cons problem later =>
      rw [hproblems] at h
      cases h
    | nil =>
      obtain ⟨rules, hrules, -⟩ := (Bnf.isDocument_of_parse hparse).exists_rules
      simp only [hproblems, hrules] at h
      refine ⟨parse, rules, rfl, (Except.ok.inj h).symm, ?_, fun rule hrule terms hterms =>
        exists_extracted_mem_readingRules hrules hrule hterms⟩
      simp only [afterParse, hproblems, hrules, onSuccess]

/-- The entry for the size of a table. -/
def sized (count : Nat) : Entry := ⟨.debug, "Compiled " ++ toString count ++ " rules"⟩

/-- Whether an entry is for the size of a table, as its first letter tells. -/
def IsSized (e : Entry) : Prop := e.message.toList.head? = some 'C'

instance : DecidablePred IsSized := fun _ => inferInstanceAs (Decidable (_ = _))

theorem isSized_sized (count : Nat) : IsSized (sized count) := by
  simp [IsSized, sized]

theorem not_isSized_parsed (text : String) (parse : Parse) : ¬ IsSized (parsed text parse) := by
  simp [IsSized, parsed]

theorem not_isSized_extracted (terms : List String) (text : String) :
    ¬ IsSized (extracted terms text) := by
  simp [IsSized, extracted]

theorem not_isSized_undefinedName (name : String) : ¬ IsSized (undefinedName name) := by
  simp [IsSized, undefinedName]

theorem not_isSized_undefinedStart (name : String) : ¬ IsSized (undefinedStart name) := by
  simp [IsSized, undefinedStart]

theorem filter_building (table : List Rule) : (building table).filter (IsSized ·) = [] := by
  simp [building, not_isSized_undefinedName]

theorem filter_completing (eol : EolStyle) (rules : List Rule) :
    (completing eol rules).filter (IsSized ·) = [sized (Bnf.withEol eol rules).length] := by
  have hadded : ¬ IsSized ⟨.debug, "No `EOL` rule defined, appending one (" ++ eolLabel eol ++
      ")"⟩ := by
    simp [IsSized]
  have hsize := isSized_sized (Bnf.withEol eol rules).length
  rw [sized] at hsize ⊢
  rw [completing]
  split <;> simpa [hadded] using hsize

/-- **The journal of a compilation tells the size of the table**, once, if there is one. -/
theorem filter_compiling (eol : EolStyle) (source : String) :
    (compiling eol source).filter (IsSized ·) =
      (Bnf.compile eol source).toOption.toList.map fun table => sized table.length := by
  cases hcompile : Bnf.compile eol source with
  | error error =>
    rw [compiling_of_error hcompile]
    cases Bnf.parser.parse source with
    | none => rfl
    | some parse => simp [not_isSized_parsed, Except.toOption]
  | ok table =>
    obtain ⟨parse, rules, -, rfl, hcompiling, -⟩ := compiling_of_ok hcompile
    have hread : (readingRules parse.root).filter (IsSized ·) = [] := by
      rw [List.filter_eq_nil_iff]
      intro e he
      obtain ⟨terms, text, rfl⟩ := exists_extracted_of_mem_readingRules he
      simpa using not_isSized_extracted terms text
    rw [hcompiling, List.filter_cons_of_neg (by simpa using not_isSized_parsed source parse),
      List.filter_append, hread, filter_completing]
    rfl

/-- So does that of building a parser from a document. -/
theorem filter_buildingFrom (eol : EolStyle) (source : String) :
    (buildingFrom eol source).filter (IsSized ·) =
      (Bnf.compile eol source).toOption.toList.map fun table => sized table.length := by
  rw [buildingFrom, List.filter_append, filter_compiling]
  cases Bnf.compile eol source with
  | error error => rfl
  | ok table => rw [filter_building, List.append_nil]

end Journal

end OrderedBnf
