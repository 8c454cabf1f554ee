import OrderedBnf.Proofs.Bnf.LineEnds

/-!
# Errors on one line

An error is shown behind its place, for a reader who expects a line. What is left over of a
source is quoted up to either end of a line, and the literals that are expected there are
those of the grammar of BNF, which writes its ends of lines with escapes. So the error of a
source that was read in part is always on one line.

A source that is refused as a whole is quoted as well, but by a line that only a line feed
ends. That is its first line, unless this ends with a carriage return that has no line feed
behind it. Then the return is quoted with what follows, and `error_onOneLine_iff` says that
this is the one way for an error to be shown on more than one line.
-/

namespace OrderedBnf

namespace Bnf

variable {text line rest : List Char} {source : String} {eol : EolStyle} {e : CompileError}

/-! ## Texts without the end of a line -/

@[simp] theorem unbroken_append (a b : String) :
    Unbroken (a ++ b).toList ↔ Unbroken a.toList ∧ Unbroken b.toList := by
  rw [String.toList_append]
  exact List.forall_mem_append

theorem unbroken_intercalate {parts : List String} (h : ∀ part ∈ parts, Unbroken part.toList) :
    Unbroken (", ".intercalate parts).toList := by
  match parts with
  | [] => decide
  | [part] => simpa using h part (by simp)
  | part :: next :: parts =>
    obtain ⟨hpart, hparts⟩ := List.forall_mem_cons.1 h
    rw [String.intercalate_cons_cons, unbroken_append, unbroken_append]
    exact ⟨⟨hpart, by decide⟩, unbroken_intercalate hparts⟩

theorem unbroken_toString (n : Nat) : Unbroken (toString n).toList := by
  intro a ha hend
  have hdigit : a.isDigit = true :=
    Nat.isDigit_of_mem_toDigits (b := 10) (n := n) (by decide) (by decide)
      (by simpa [toString, Nat.repr] using ha)
  rcases hend with rfl | rfl
  · exact absurd hdigit (by decide)
  · exact absurd hdigit (by decide)

/-- A place is named on one line. -/
theorem unbroken_location (location : Location) : Unbroken (toString location).toList := by
  cases location with
  | whole => decide
  | point position =>
    have hnumbers : toString (Location.point position) =
        toString position.line ++ ":" ++ toString position.column := rfl
    rw [hnumbers, unbroken_append, unbroken_append]
    exact ⟨⟨unbroken_toString _, by decide⟩, unbroken_toString _⟩

/-! ## Problems of a parse -/

/-- What is quoted of a text ends before the end of its line. -/
theorem unbroken_excerpt (after : List Char) : Unbroken (Problem.excerpt after).toList := by
  intro a ha hend
  obtain ⟨hfeed, hreturn⟩ := (Problem.isExcerpt_excerpt after).inLine a ha
  exact hend.elim hreturn hfeed

theorem unbroken_nameExcerpt {found : String} (h : Unbroken found.toList) :
    Unbroken (Problem.nameExcerpt found).toList := by
  rw [Problem.nameExcerpt]
  split
  · decide
  · rw [unbroken_append, unbroken_append]
    exact ⟨⟨by decide, h⟩, by decide⟩

theorem unbroken_unexpectedInput (position : Position) {found : String} {expected : List String}
    (hfound : Unbroken found.toList) (hexpected : ∀ part ∈ expected, Unbroken part.toList) :
    Unbroken (Problem.unexpectedInput position found expected).message.toList := by
  rw [Problem.message_unexpectedInput, unbroken_append, unbroken_append]
  refine ⟨⟨by decide, unbroken_nameExcerpt hfound⟩, ?_⟩
  split
  · decide
  · rw [unbroken_append]
    exact ⟨by decide, unbroken_intercalate hexpected⟩

theorem unbroken_tooDeep (limit : Nat) : Unbroken (Problem.tooDeep limit).message.toList := by
  have hmessage : (Problem.tooDeep limit).message =
      "Rules nested deeper than " ++ toString limit ++ " levels" := rfl
  rw [hmessage, unbroken_append, unbroken_append]
  exact ⟨⟨by decide, unbroken_toString limit⟩, by decide⟩

/-- A term is reported without its suffix. -/
theorem unbroken_source {rules : List Rule} {t : Term} (ht : (Grammar.ofRules rules).HasTerm t)
    (hrules : ∀ term ∈ allTerms rules, Unbroken term.toList) : Unbroken t.source.toList := by
  obtain ⟨d, hd, ht⟩ := ht
  obtain ⟨rule, hrule, rfl⟩ := List.mem_map.1 hd
  obtain ⟨_, hparts, ht⟩ := List.mem_flatten.1 ht
  obtain ⟨terms, hterms, rfl⟩ := List.mem_map.1 hparts
  obtain ⟨term, hterm, rfl⟩ := List.mem_map.1 ht
  have hwhole := hrules term
    (List.mem_flatMap.2 ⟨rule, hrule, List.mem_flatten.2 ⟨terms, hterms, hterm⟩⟩)
  intro a ha
  refine hwhole a ?_
  simp only [Term.ofSource, Term.split, String.toList_ofList, Term.splitChars] at ha
  split at ha
  · split at ha
    · exact (List.dropLast_sublist _).subset ha
    · exact ha
  · exact ha

/-- **A problem of a parse is worded on one line** if the terms of the table are written
so, whatever the text. -/
theorem unbroken_message {rules : List Rule} {options : ParserOptions} {parse : Parse}
    {problem : Problem}
    (hrules : ∀ term ∈ allTerms rules, Unbroken term.toList)
    (h : (Parser.ofRules rules options).parse source = some parse)
    (hproblem : problem ∈ parse.problems) : Unbroken problem.message.toList := by
  obtain ⟨start, -, h⟩ := Option.bind_eq_some_iff.1 h
  obtain ⟨d, m, progress, hd, hrun, rfl⟩ := Parser.exists_run_of_parseFrom h
  rw [Parser.finish, Parser.problems, List.mem_append] at hproblem
  -- what is expected was missed, so it stands in the table
  have hexpected : ∀ part ∈ progress.expected, Unbroken part.toList := by
    intro part hpart
    have hfailed := (Progress.foldl_note
      ((Parser.ofRules rules options).trace source.toList d)).2
    rw [← Parser.run_snd, hrun] at hfailed
    rw [hfailed] at hpart
    obtain ⟨t, _, _, ht, -, rfl, -⟩ :=
      (Parser.history_trace hd _).of_miss_mem (mem_failures.1 (mem_failedAt.1 hpart))
    exact unbroken_source ht hrules
  rcases hproblem with hproblem | hproblem
  · split at hproblem
    · cases hproblem
    · obtain rfl := List.mem_singleton.1 hproblem
      refine unbroken_unexpectedInput _ (unbroken_excerpt _) fun part hpart => ?_
      split at hpart
      · exact hexpected part hpart
      · cases hpart
  · split at hproblem
    · obtain rfl := List.mem_singleton.1 hproblem
      exact unbroken_tooDeep _
    · cases hproblem

/-- The grammar of BNF writes the ends of lines with escapes. -/
theorem unbroken_rules : ∀ term ∈ allTerms rules, Unbroken term.toList := by
  decide +kernel

/-! ## Sources that are refused as a whole -/

/-- **What is quoted of a source that is refused**, if it is quoted by its first line: what
comes before the first end of a line of either kind, and whether there is more than blanks
behind it. -/
def QuotesFirstLine (source message : String) : Prop :=
  ∃ line rest, source.toList = line ++ rest ∧ Unbroken line ∧ (rest = [] ∨ Begins IsLineEnd rest) ∧
    (((∃ a ∈ rest, isBlank a = false) ∧
        message = "Could not parse `" ++ String.ofList line ++ " ...`") ∨
      ((∀ a ∈ rest, isBlank a = true) ∧
        message = "Could not parse `" ++ String.ofList line ++ "`"))

theorem QuotesFirstLine.unbroken {message : String} (h : QuotesFirstLine source message) :
    Unbroken message.toList := by
  obtain ⟨line, rest, -, hline, -, hmessage⟩ := h
  have hquoted : Unbroken ("Could not parse `" ++ String.ofList line).toList := by
    rw [unbroken_append]
    exact ⟨by decide, by rwa [String.toList_ofList]⟩
  rcases hmessage with ⟨-, rfl⟩ | ⟨-, rfl⟩
  · exact (unbroken_append _ _).2 ⟨hquoted, by decide⟩
  · exact (unbroken_append _ _).2 ⟨hquoted, by decide⟩

/-- The first line of a text ends with a return that has no line feed behind it. -/
def EndsInReturn (text : List Char) : Prop :=
  ∃ line rest, text = line ++ '\r' :: rest ∧ Unbroken line ∧ ¬ Begins (· = '\n') rest

theorem quotesFirstLine_of_parts (hsource : source.toList = line ++ rest) (hline : Unbroken line)
    (hrest : rest = [] ∨ Begins IsLineEnd rest) (hfirst : firstLine source.toList = line)
    (hmore : hasMoreLines source.toList = rest.any (!isBlank ·)) :
    QuotesFirstLine source (Fault.unreadable source).message := by
  refine ⟨line, rest, hsource, hline, hrest, ?_⟩
  rw [Fault.message_unreadable, hfirst, hmore]
  cases hany : rest.any (!isBlank ·) with
  | true =>
    refine .inl ⟨by simpa using hany, ?_⟩
    simp [String.append_assoc]
  | false =>
    refine .inr ⟨by simpa using hany, ?_⟩
    simp

/-- **A source is quoted by its first line** unless this ends in a return alone. -/
theorem quotesFirstLine (h : ¬ EndsInReturn source.toList) :
    QuotesFirstLine source (Fault.unreadable source).message := by
  obtain ⟨line, rest, hsource, hline, hrest⟩ := exists_longest (¬ IsLineEnd ·) source.toList
  have hfeed : '\n' ∉ line := Unbroken.lineFeed_not_mem hline
  have hblank : isBlank '\r' = true ∧ isBlank '\n' = true := by decide
  rcases rest with _ | ⟨a, rest⟩
  · rw [List.append_nil] at hsource
    refine quotesFirstLine_of_parts (by rw [hsource, List.append_nil]) hline (.inl rfl) ?_ ?_
    · rw [hsource, firstLine_of_not_mem hfeed]
    · rw [hsource, hasMoreLines_of_not_mem hfeed]
      rfl
  · obtain rfl | rfl : IsLineEnd a := by simpa using hrest
    · -- the return has a line feed behind it
      obtain ⟨_, rest, rfl, rfl⟩ : Begins (· = '\n') rest :=
        by_contra fun hrest => h ⟨line, rest, hsource, hline, hrest⟩
      have hreturn : line ++ '\r' :: '\n' :: rest = (line ++ ['\r']) ++ '\n' :: rest := by simp
      have hfeed' : '\n' ∉ line ++ ['\r'] := by simpa using hfeed
      refine quotesFirstLine_of_parts hsource hline (.inr (begins_cons.2 (.inl rfl))) ?_ ?_
      · rw [hsource, hreturn, firstLine_append hfeed', if_pos (by simp), List.dropLast_concat]
      · rw [hsource, hreturn, hasMoreLines_append hfeed']
        simp [hblank.1, hblank.2]
    · have hlast : line.getLast? ≠ some '\r' := fun hlast =>
        Unbroken.return_not_mem hline (List.mem_of_getLast? hlast)
      refine quotesFirstLine_of_parts hsource hline (.inr (begins_cons.2 (.inr rfl))) ?_ ?_
      · rw [hsource, firstLine_append hfeed, if_neg hlast]
      · rw [hsource, hasMoreLines_append hfeed]
        simp [hblank.2]

/-- **A return alone is quoted** with what is before it. -/
theorem return_mem_firstLine (h : EndsInReturn text) : '\r' ∈ firstLine text := by
  obtain ⟨line, rest, rfl, hline, hrest⟩ := h
  by_cases hmore : '\n' ∈ rest
  · obtain ⟨tail, later, rfl, htail⟩ := List.eq_append_cons_of_mem hmore
    have hne : tail ≠ [] := by
      rintro rfl
      exact hrest (begins_cons.2 rfl)
    have hfeed : '\n' ∉ line ++ '\r' :: tail := by
      simp [hline.lineFeed_not_mem, htail]
    have hcut : line ++ '\r' :: (tail ++ '\n' :: later) =
        (line ++ '\r' :: tail) ++ '\n' :: later := by
      simp
    rw [hcut, firstLine_append hfeed]
    split
    · rw [List.dropLast_append_of_ne_nil (by simp), List.dropLast_cons_of_ne_nil hne]
      simp
    · simp
  · rw [firstLine_of_not_mem (by simp [hline.lineFeed_not_mem, hmore])]
    simp

/-! ## Errors as they are shown -/

/-- The ends of lines in an error are those in its wording, -/
theorem mem_toString_iff {a : Char} (ha : IsLineEnd a) :
    a ∈ (toString e).toList ↔ a ∈ e.fault.message.toList := by
  have hfront : Unbroken "\x1b[31;49;1m[".toList := by decide
  have hmiddle : Unbroken "]\x1b[39;49;1m  ".toList := by decide
  have hback : Unbroken "\x1b[0m".toList := by decide
  have hplace := unbroken_location e.location
  simp only [CompileError.toString_eq, String.toList_append, List.mem_append, hfront.not_mem ha,
    hmiddle.not_mem ha, hback.not_mem ha, hplace.not_mem ha, false_or, or_false]

/-- and for a source that is refused those in the line that is quoted. -/
theorem mem_message_iff {a : Char} (ha : IsLineEnd a) :
    a ∈ (Fault.unreadable source).message.toList ↔ a ∈ firstLine source.toList := by
  have hfront : Unbroken "Could not parse `".toList := by decide
  have hmore : Unbroken (if hasMoreLines source.toList then " ..." else "").toList := by
    split <;> decide
  have hback : Unbroken "`".toList := by decide
  simp only [Fault.message_unreadable, String.toList_append, List.mem_append, String.toList_ofList,
    hfront.not_mem ha, hmore.not_mem ha, hback.not_mem ha, false_or, or_false]

theorem unbroken_toString_error (h : Unbroken e.fault.message.toList) :
    Unbroken (toString e).toList :=
  fun a ha hend => h a ((mem_toString_iff hend).1 ha) hend

/-- A source is not compiled if it is refused as a whole or there is a problem with what
was read of it. -/
theorem compile_error_cases (h : compile eol source = .error e) :
    e = ⟨.whole, .unreadable source⟩ ∨ ∃ parse problem, parser.parse source = some parse ∧
      problem ∈ parse.problems ∧ e = ⟨problem.location, .rejected problem.message⟩ := by
  cases hparse : parser.parse source with
  | none =>
    have herror := (parse_eq_none_iff_compile eol source).1 hparse
    exact .inl (Except.error.inj (h.symm.trans herror))
  | some parse =>
    cases hproblem : parse.problems with
    | cons problem later =>
      have herror := compile_eq_error eol hparse hproblem
      exact .inr ⟨parse, problem, rfl, by simp [hproblem], Except.error.inj (h.symm.trans herror)⟩
    | nil =>
      obtain ⟨rules, hrules⟩ := exists_writtenRules_of_problems_eq_nil hparse hproblem
      rw [compile, hrules] at h
      cases h

/-- **An error that is shown on one line**, and that quotes a source which is refused as a
whole by its first line. -/
structure OnOneLine (source : String) (e : CompileError) : Prop where
  unbroken : Unbroken (toString e).toList
  quotes : e.fault.kind = .unreadable → QuotesFirstLine source e.fault.message

theorem onOneLine_of_unreadable (hfault : e.fault = .unreadable source)
    (hends : ¬ EndsInReturn source.toList) : OnOneLine source e := by
  have hquotes : QuotesFirstLine source e.fault.message := hfault ▸ quotesFirstLine hends
  exact ⟨unbroken_toString_error hquotes.unbroken, fun _ => hquotes⟩

theorem return_mem_of_unreadable (hfault : e.fault = .unreadable source)
    (hends : EndsInReturn source.toList) : '\r' ∈ (toString e).toList := by
  rw [mem_toString_iff (.inl rfl), hfault, mem_message_iff (.inl rfl)]
  exact return_mem_firstLine hends

/-- What is wrong with something that was read is worded on one line, and so is shown on one. -/
theorem onOneLine_of_rejected {parse : Parse} {problem : Problem}
    (h : parser.parse source = some parse) (hproblem : problem ∈ parse.problems)
    (hfault : e.fault = .rejected problem.message) : OnOneLine source e := by
  have hmessage := unbroken_message unbroken_rules h hproblem
  refine ⟨unbroken_toString_error ?_, fun hkind => ?_⟩
  · rw [hfault]
    exact hmessage
  · rw [hfault] at hkind
    cases hkind

/-- **When an error is on one line.** Whatever the source that is not compiled, its error has
no line feed in it. It has a carriage return exactly if the source is refused as a whole and
its first line ends in a return alone; and unless this is so, the error is on one line. -/
theorem error_onOneLine_iff (h : compile eol source = .error e) :
    '\n' ∉ (toString e).toList ∧
    ('\r' ∈ (toString e).toList ↔ e.fault.kind = .unreadable ∧ EndsInReturn source.toList) ∧
    (OnOneLine source e ↔ ¬ (e.fault.kind = .unreadable ∧ EndsInReturn source.toList)) := by
  have hreturn : OnOneLine source e → '\r' ∉ (toString e).toList :=
    fun hone => hone.unbroken.return_not_mem
  rcases compile_error_cases h with rfl | ⟨parse, problem, hparse, hproblem, rfl⟩
  · refine ⟨?_, ?_⟩
    · rw [mem_toString_iff (.inr rfl), mem_message_iff (.inr rfl)]
      exact lineFeed_not_mem_firstLine _
    · by_cases hends : EndsInReturn source.toList
      · have hmem := return_mem_of_unreadable (e := ⟨.whole, .unreadable source⟩) rfl hends
        exact ⟨iff_of_true hmem ⟨rfl, hends⟩,
          iff_of_false (fun hone => hreturn hone hmem) fun hnot => hnot ⟨rfl, hends⟩⟩
      · have hone := onOneLine_of_unreadable (e := ⟨.whole, .unreadable source⟩) rfl hends
        exact ⟨iff_of_false (hreturn hone) fun hboth => hends hboth.2,
          iff_of_true hone fun hboth => hends hboth.2⟩
  · have hone := onOneLine_of_rejected (e := ⟨problem.location, .rejected problem.message⟩)
      hparse hproblem rfl
    have hkind : (Fault.rejected problem.message).kind ≠ .unreadable := nofun
    exact ⟨hone.unbroken.lineFeed_not_mem,
      iff_of_false (hreturn hone) fun hboth => hkind hboth.1,
      iff_of_true hone fun hboth => hkind hboth.1⟩

/-- A line feed ends the line that is quoted, and the return before it goes with it. -/
theorem error_onOneLine_lineFeed :
    compile .apart "a\r\nb" = .error ⟨.whole, .unreadable "a\r\nb"⟩ ∧
    (Fault.unreadable "a\r\nb").message = "Could not parse `a ...`" ∧
    OnOneLine "a\r\nb" ⟨.whole, .unreadable "a\r\nb"⟩ := by
  have hnone : parser.parse "a\r\nb" = none := by decide +kernel
  have herror := (parse_eq_none_iff_compile .apart _).1 hnone
  obtain ⟨-, hreturn, hone⟩ := error_onOneLine_iff herror
  have hshown : '\r' ∉
      (toString (⟨.whole, .unreadable "a\r\nb"⟩ : CompileError)).toList := by
    decide
  exact ⟨herror, by decide, hone.2 (mt hreturn.2 hshown)⟩

/-- A return alone ends no line: it is quoted, with what should have been left out. -/
theorem not_onOneLine_return :
    compile .together "a\rb" = .error ⟨.whole, .unreadable "a\rb"⟩ ∧
    (Fault.unreadable "a\rb").message = "Could not parse `a\rb`" ∧
    QuotesFirstLine "a\rb" "Could not parse `a ...`" ∧
    ¬ ∀ eol source e, compile eol source = .error e → OnOneLine source e := by
  have hnone : parser.parse "a\rb" = none := by decide +kernel
  have herror := (parse_eq_none_iff_compile .together _).1 hnone
  refine ⟨herror, by decide, ⟨['a'], ['\r', 'b'], by decide, by decide, ?_, ?_⟩, fun hall => ?_⟩
  · exact .inr (begins_cons.2 (.inl rfl))
  · exact .inl ⟨⟨'b', by simp, by decide⟩, by decide⟩
  · have hshown := (hall .together _ _ herror).unbroken.return_not_mem
    exact absurd hshown (by decide)

end Bnf

end OrderedBnf
