import Mathlib.Data.List.Nodup
import OrderedBnf.Proofs.Guarded.Context

/-!
# The bookkeeping of a run

Every attempt comes to an end, for every table of rules: no more bodies are inside each other
than there are levels, a sequence has only so many terms, and a repetition goes on only behind
an iteration that took something. What an attempt leaves behind is in order, whether anything
was found or not: as many rules are under way as before, with never more in between than the
limit allows (`Runs.foldl_height`), and what was remembered has grown (`Progress.Grows`).
-/

namespace OrderedBnf

/-! ## What is remembered -/

/-- **What is remembered later.** The furthest failure is as far or further on, a limit that was
reached stays reached, and what is expected is still in there once. -/
structure Progress.Grows (p q : Progress) : Prop where
  furthest : p.furthest ≤ q.furthest
  tooDeep : p.tooDeep = true → q.tooDeep = true
  nodup : p.expected.Nodup → q.expected.Nodup

namespace Progress

variable {p q r : Progress}

theorem Grows.refl (p : Progress) : p.Grows p := ⟨Nat.le_refl _, id, id⟩

theorem Grows.trans (h : p.Grows q) (h' : q.Grows r) : p.Grows r :=
  ⟨Nat.le_trans h.furthest h'.furthest, h'.tooDeep ∘ h.tooDeep, h'.nodup ∘ h.nodup⟩

/-- A literal that is missed is expected once, -/
theorem grows_miss (p : Progress) (offset : Nat) (source : String) :
    p.Grows (p.miss offset source) := by
  unfold miss
  split
  · rename_i hfurther
    exact ⟨Nat.le_of_lt hfurther, id, fun _ => List.nodup_singleton source⟩
  · split
    · rename_i hmissed
      exact ⟨Nat.le_refl _, id, fun h => List.concat_eq_append ▸ h.concat hmissed.2⟩
    · exact .refl p

/-- and nothing else is forgotten with any event, -/
theorem grows_note (p : Progress) (event : Event) : p.Grows (note p event) := by
  cases event with
  | miss offset source => exact p.grows_miss offset source
  | tooDeep => exact ⟨Nat.le_refl _, fun _ => rfl, id⟩
  | enter | leave | unresolved => exact .refl p

/-- nor with any number of them. -/
theorem grows_foldl_note (events : List Event) (p : Progress) :
    p.Grows (events.foldl note p) := by
  induction events generalizing p with
  | nil => exact .refl p
  | cons event events ih => exact (p.grows_note event).trans (ih (note p event))

end Progress

/-! ## How many rules are under way -/

/-- How many rules are under way, and how many at most have been. -/
structure Height where
  depth : Nat
  highest : Nat
deriving DecidableEq, Repr

/-- The observer that counts them. -/
def Height.note : Observer Height := fun height event =>
  match event with
  | .enter _ _ => ⟨height.depth + 1, max height.highest (height.depth + 1)⟩
  | .leave => ⟨height.depth - 1, height.highest⟩
  | _ => height

/-- **A run leaves as many rules under way as it finds**, and has no more under way than there
are levels above those. -/
theorem Runs.foldl_height {g : Grammar} {n : Nat} {x : Goal} {c : Cursor} {o : Option Match}
    {events : List Event} (h : Runs g n x c o events) (depth highest : Nat) :
    ∃ later, events.foldl Height.note ⟨depth, highest⟩ = ⟨depth, later⟩ ∧ highest ≤ later ∧
      later ≤ max highest (depth + n) := by
  induction h generalizing depth highest with
  | literal | noLiteral | unresolved | nil | noChoice | tooDeep =>
    exact ⟨highest, rfl, Nat.le_refl _, Nat.le_max_left _ _⟩
  | reference _ _ _ ih | loopStop _ ih | loopEmpty _ _ ih | once _ _ ih | optional _ _ ih
  | noOptional _ _ ih | zeroOrMore _ _ ih | oneOrMore _ _ ih | consFirst _ ih | first _ ih
  | noRule _ ih | rule _ ih =>
    exact ih depth highest
  | loopMore _ _ _ ih ihlater | cons _ _ ih ihlater | consLater _ _ ih ihlater
  | later _ _ ih ihlater =>
    obtain ⟨first, hfirst, hle, hbound⟩ := ih depth highest
    obtain ⟨last, hlast, hle', hbound'⟩ := ihlater depth first
    exact ⟨last, by rw [List.foldl_append, hfirst, hlast], by omega, by omega⟩
  | body _ ih =>
    -- one rule more is under way in the alternatives, which have a level less
    obtain ⟨last, hlast, hle, hbound⟩ := ih (depth + 1) (max highest (depth + 1))
    refine ⟨last, ?_, by omega, by omega⟩
    rw [List.cons_append, List.foldl_cons, List.foldl_append]
    exact congrArg (Height.note · .leave) hlast

namespace Guarded

variable {text : String} {g : Grammar} {limit pos : Nat} {call : Call} {x : Goal} {c : Cursor}
variable {o : Option Match} {events : List Event}

/-! ## What an attempt leaves behind -/

/-- **The state that an attempt leaves behind**, and where it stops if anything is found. -/
structure Restores (text : String) (pos : Nat) (s : State) (result : Found × State) : Prop where
  depth : result.2.depth = s.depth
  progress : s.progress.Grows result.2.progress
  stop : ∀ found, result.1 = some found → pos ≤ found.1 ∧ IsBoundary text found.1

theorem exists_reaches_of_isBoundary (h : IsBoundary text pos) :
    ∃ c, (Cursor.start text.toList).Reaches c ∧ c.offset = pos := by
  obtain ⟨before, after, htext, rfl⟩ := isBoundary_iff.1 h
  exact ⟨⟨byteLength before, after⟩, ⟨before, htext, by simp [Cursor.start]⟩, rfl⟩

/-- Every attempt has a result, and leaves such a state. -/
theorem Call.exists_attempt_eq (hcall : call.goal? g = some x)
    (hc : (Cursor.start text.toList).Reaches c) (s : State)
    (h : Runs g (limit - s.depth) x c o events) :
    ∃ s', call.attempt text g limit c.offset s = some (found o, s') ∧
      Restores text c.offset s (found o, s') := by
  obtain ⟨added, -, hattempt⟩ := Call.attempt_eq hcall hc h
  refine ⟨_, hattempt s.progress, rfl, s.progress.grows_foldl_note added, ?_⟩
  rintro _ hfound
  obtain ⟨m, rfl, rfl⟩ := Option.map_eq_some_iff.1 hfound
  exact ⟨h.reaches.offset_le, isBoundary_of_reaches (hc.trans h.reaches)⟩

/-- **The loop of a repetition has no more iterations than it takes bytes, and one.** -/
theorem exists_rounds_eq (limit : Nat) (t : Term) (hc : (Cursor.start text.toList).Reaches c)
    (s : State) :
    ∃ count stop nodes s', rounds (symbolOf text g (body text g limit (limit + 1)) t)
        (text.utf8ByteSize + 1) c.offset s = some ((count, stop, nodes), s') ∧
      c.offset + count ≤ stop + 1 ∧ Restores text c.offset s (some (stop, nodes), s') := by
  have hx := Goal.advances_run Progress.note g (limit - s.depth) (.symbol t)
  have hsteps : c.rest.length < text.utf8ByteSize + 1 := by
    have := length_le_byteLength c.rest
    have := utf8ByteSize_of_reaches hc
    omega
  have hsymbol : Agrees text s.depth (symbolOf text g (body text g limit (limit + 1)) t) _ :=
    agrees_symbol_limit t
  obtain ⟨iterations, q, hiterations⟩ := Matcher.Repeats.exists_repeats hx c Progress.start
  obtain ⟨hrounds, -⟩ := rounds_eq hsymbol hx hiterations hc (isBoundary_zero text) hsteps
  obtain ⟨events, -, hall⟩ :=
    (records_rounds (records_symbolOf (records_body text g limit (limit + 1)) t)
      (text.utf8ByteSize + 1) c.offset).of_start hrounds
  have hreach := hiterations.reaches hx
  refine ⟨_, _, _, _, hall s.progress, hiterations.length_le hx, rfl,
    s.progress.grows_foldl_note events, ?_⟩
  rintro _ ⟨⟩
  exact ⟨hreach.offset_le, isBoundary_of_reaches (hc.trans hreach)⟩

/-- **Every attempt comes to an end, with its bookkeeping in order.** For every table of rules,
text, limit and state, an attempt at a boundary has a result, and the state that it leaves is in
order (`Restores`). What is found is what the running matcher finds there with the levels that
are left; that leaves as many rules under way as it finds, and has never more in between than
the limit allows, or than there were already. The loop of a repetition ends as well, of any term
and at any boundary: after no more iterations than there are bytes in front, and one. And since
nothing is expected when a run begins, nothing is ever expected twice. -/
theorem attempt_restores (text : String) (limit : Nat) (hcall : call.goal? g = some x)
    (hpos : IsBoundary text pos) (s : State) :
    (∃ c o s' highest, (Cursor.start text.toList).Reaches c ∧ c.offset = pos ∧
      call.attempt text g limit pos s = some (found o, s') ∧
      Restores text pos s (found o, s') ∧
      x.run Height.note g (limit - s.depth) c ⟨s.depth, s.depth⟩ = (o, ⟨s.depth, highest⟩) ∧
      highest ≤ max s.depth limit) ∧
    (∀ t, ∃ count stop nodes s', rounds (symbolOf text g (body text g limit (limit + 1)) t)
        (text.utf8ByteSize + 1) pos s = some ((count, stop, nodes), s') ∧
      count ≤ text.utf8ByteSize - pos + 1 ∧ Restores text pos s (some (stop, nodes), s')) ∧
    ∀ events : List Event, (events.foldl Progress.note .start).expected.Nodup := by
  obtain ⟨c, hc, rfl⟩ := exists_reaches_of_isBoundary hpos
  refine ⟨?_, fun t => ?_, fun events => (Progress.grows_foldl_note events .start).nodup .nil⟩
  · obtain ⟨o, events, h⟩ := exists_runs g (limit - s.depth) x c
    obtain ⟨s', hattempt, hrestores⟩ := Call.exists_attempt_eq hcall hc s h
    obtain ⟨highest, hheight, -, hbound⟩ := h.foldl_height s.depth s.depth
    exact ⟨c, o, s', highest, hc, rfl, hattempt, hrestores, by rw [h.run, hheight], by omega⟩
  · obtain ⟨count, stop, nodes, s', hrounds, hcount, hrestores⟩ :=
      exists_rounds_eq (g := g) limit t hc s
    have hstop := (hrestores.stop _ rfl).2.le
    exact ⟨count, stop, nodes, s', hrounds, by omega, hrestores⟩

/-- A rule that needs itself first, a repetition of a rule that may take nothing, a name without
a definition, and an alternative without terms. -/
def loopGrammar : Grammar :=
  Grammar.ofRules [⟨"s", [["s", "'!'"], ["e*", "'a'", "none?"], []]⟩, ⟨"e", [["'ß'"], []]⟩]

/-- Behind a byte, with a rule under way and a failure remembered. The limit of three is reached
with the first alternative; the loop has two iterations, of which the second takes nothing. -/
theorem attempt_restores_loops : ∃ s', s'.progress.tooDeep = true ∧
    (Call.alternatives 0).attempt "aßa" loopGrammar 3 1 ⟨1, ⟨2, ["'z'"], false⟩⟩ =
      some (some (4, [⟨"e", "ß", 1, 3, [], []⟩, ⟨"e", "", 3, 3, [], []⟩]), s') ∧
    Restores "aßa" 1 ⟨1, ⟨2, ["'z'"], false⟩⟩
      (some (4, [⟨"e", "ß", 1, 3, [], []⟩, ⟨"e", "", 3, 3, [], []⟩]), s') ∧
    ∃ stop nodes s'', rounds (symbolOf "aßa" loopGrammar (body "aßa" loopGrammar 3 4)
        (Term.ofSource "e")) 5 1 ⟨1, ⟨2, ["'z'"], false⟩⟩ = some ((2, stop, nodes), s'') ∧
      2 ≤ "aßa".utf8ByteSize - 1 + 1 ∧
      Restores "aßa" 1 ⟨1, ⟨2, ["'z'"], false⟩⟩ (some (stop, nodes), s'') := by
  have hcall : (Call.alternatives 0).goal? loopGrammar = some (.body (Definition.ofRule
      ⟨"s", [["s", "'!'"], ["e*", "'a'", "none?"], []]⟩)) := rfl
  have hpos : IsBoundary "aßa" 1 := isBoundary_iff.2 ⟨['a'], ['ß', 'a'], by decide, rfl⟩
  have hrun : (Call.alternatives 0).attempt "aßa" loopGrammar 3 1 ⟨1, ⟨2, ["'z'"], false⟩⟩ =
      some (some (4, [⟨"e", "ß", 1, 3, [], []⟩, ⟨"e", "", 3, 3, [], []⟩]),
        ⟨1, ⟨3, ["'ß'"], true⟩⟩) := by
    decide +kernel
  have hloop : rounds (symbolOf "aßa" loopGrammar (body "aßa" loopGrammar 3 4)
      (Term.ofSource "e")) 5 1 ⟨1, ⟨2, ["'z'"], false⟩⟩ =
        some ((2, 3, [⟨"e", "ß", 1, 3, [], []⟩, ⟨"e", "", 3, 3, [], []⟩]),
          ⟨1, ⟨3, ["'ß'"], false⟩⟩) := by
    decide +kernel
  obtain ⟨⟨c, o, s', highest, -, -, hattempt, hrestores, -⟩, hrounds, -⟩ :=
    attempt_restores "aßa" 3 hcall hpos ⟨1, ⟨2, ["'z'"], false⟩⟩
  obtain ⟨count, stop, nodes, s'', hrounds, hcount, hleft⟩ := hrounds (Term.ofSource "e")
  obtain ⟨ho, rfl⟩ := Prod.mk.inj (Option.some.inj (hattempt.symm.trans hrun))
  obtain ⟨hsame, rfl⟩ := Prod.mk.inj (Option.some.inj (hrounds.symm.trans hloop))
  obtain ⟨rfl, rfl, rfl⟩ : count = 2 ∧ stop = 3 ∧
    nodes = [⟨"e", "ß", 1, 3, [], []⟩, ⟨"e", "", 3, 3, [], []⟩] := by simpa using hsame
  exact ⟨_, rfl, hrun, ho ▸ hrestores, _, _, _, hrounds, hcount, hleft⟩

end Guarded

end OrderedBnf
