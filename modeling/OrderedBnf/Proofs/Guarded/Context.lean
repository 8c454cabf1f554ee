import OrderedBnf.Proofs.Guarded.Call
import OrderedBnf.Proofs.Match.Shift

/-!
# What lies behind is not read

An attempt at an offset is told of the whole text and of a state, in which what happened before
it is remembered. It looks at neither: what it comes to depends on what is attempted, on the
text in front and on how many more rules may be under way. The same text at the beginning of
another gives the same, with everything as many bytes later as there are bytes before it
(`attempt_append`), and the limit is reached in both or in neither.

So the outcomes of attempts could be kept, by offset and levels, and be used again after a
change to what lies behind them.
-/

namespace OrderedBnf

/-- An event at which a rule is refused. -/
def Event.refuses : Event → Bool
  | .tooDeep _ _ => true
  | _ => false

@[simp] theorem Event.refuses_shift (event : Event) (bytes : Nat) :
    (event.shift bytes).refuses = event.refuses := by
  cases event <;> rfl

/-- **That a rule was refused is remembered, and nothing else is taken for it.** -/
theorem Progress.tooDeep_foldl_note (events : List Event) (p : Progress) :
    (events.foldl note p).tooDeep = (p.tooDeep || events.any Event.refuses) := by
  induction events generalizing p with
  | nil => simp
  | cons event events ih =>
    rw [List.foldl_cons, ih, List.any_cons, ← Bool.or_assoc]
    cases event <;> simp [note, Event.refuses]

/-- So it can be told from what is remembered whether a rule was refused. -/
theorem any_refuses_eq_of_foldl_note {events added : List Event}
    (h : added.foldl Progress.note .start = events.foldl Progress.note .start) :
    added.any Event.refuses = events.any Event.refuses := by
  simpa only [Progress.tooDeep_foldl_note, Progress.start, Bool.false_or] using
    congrArg Progress.tooDeep h

namespace Guarded

variable {g : Grammar} {call : Call} {x : Goal}

/-- **Matching is independent of its context.** There is one outcome and one course of events
for what is attempted, on the text in front and with the levels that are left. The running
matcher has them at the beginning of `v` and, moved by the bytes of `u`, behind `u`, whatever it
is observed by. The attempts on the two texts have them whatever the two states remember; in
both as many rules are under way afterwards as before, and both remember that a rule was refused
if that was remembered or was so in the course of events. -/
theorem attempt_append (u v : String) (hcall : call.goal? g = some x)
    {limit depth limit' depth' : Nat} (hleft : limit - depth = limit' - depth') :
    (Cursor.start (u ++ v).toList).advance? u.toList =
      some ⟨u.utf8ByteSize, v.toList⟩ ∧
    ∃ (o : Option Match) (events : List Event),
      (∀ {σ : Type} (note : Observer σ) (s : σ),
        x.run note g (limit - depth) (Cursor.start v.toList) s = (o, events.foldl note s) ∧
        x.run note g (limit - depth) ⟨u.utf8ByteSize, v.toList⟩ s =
          (o.map (Match.shift u.utf8ByteSize),
            (events.map (Event.shift u.utf8ByteSize)).foldl note s)) ∧
      ∀ p p' : Progress, ∃ q q' : Progress,
        call.attempt (u ++ v) g limit u.utf8ByteSize ⟨depth, p⟩ =
          some (found (o.map (Match.shift u.utf8ByteSize)), ⟨depth, q⟩) ∧
        call.attempt v g limit' 0 ⟨depth', p'⟩ = some (found o, ⟨depth', q'⟩) ∧
        q.tooDeep = (p.tooDeep || events.any Event.refuses) ∧
        q'.tooDeep = (p'.tooDeep || events.any Event.refuses) := by
  have hbehind : (Cursor.start (u ++ v).toList).advance? u.toList =
      some ⟨u.utf8ByteSize, v.toList⟩ :=
    Cursor.advance?_eq_some_iff.2 ⟨by simp [Cursor.start],
      by simp [Cursor.start, byteLength_toList]⟩
  have hreaches : (Cursor.start (u ++ v).toList).Reaches ⟨u.utf8ByteSize, v.toList⟩ :=
    ⟨u.toList, Cursor.advance?_eq_some_iff.1 hbehind⟩
  obtain ⟨o, events, h⟩ := exists_runs g (limit - depth) x (Cursor.start v.toList)
  have hshift := h.shift u.utf8ByteSize
  rw [Cursor.shift_start] at hshift
  refine ⟨hbehind, o, events, fun note s => ⟨h.run note s, hshift.run note s⟩, fun p p' => ?_⟩
  obtain ⟨added, hadded, hlater⟩ := Call.attempt_eq hcall hreaches hshift
  obtain ⟨added', hadded', hfirst⟩ := Call.attempt_eq hcall (.refl _) (hleft ▸ h)
  have hrefused := any_refuses_eq_of_foldl_note hadded
  have hrefused' := any_refuses_eq_of_foldl_note hadded'
  simp only [List.any_map, Function.comp_def, Event.refuses_shift] at hrefused
  exact ⟨_, _, hlater p, hfirst p', by rw [Progress.tooDeep_foldl_note, hrefused],
    by rw [Progress.tooDeep_foldl_note, hrefused']⟩

/-- A list that begins with a list, and so is refused where there are no levels left. -/
def commaGrammar : Grammar :=
  Grammar.ofRules
    [⟨"list", [["list", "','", "letter"], ["letter"]]⟩, ⟨"letter", [["'é'"], ["'a'"]]⟩]

/-- Behind three bytes, with a rule under way and a failure remembered that is not of this text,
and at the beginning, with a lower limit: the same tree in both places. -/
theorem attempt_append_accents : ∃ q q' : Progress,
    (Call.rule 0).attempt ("aß" ++ "é,a") commaGrammar 4 3 ⟨1, ⟨100, ["'z'"], false⟩⟩ =
      some (some (7, [⟨"list", "é,a", 3, 7,
        [⟨"list", "é", 3, 5, [⟨"letter", "é", 3, 5, [], []⟩], []⟩,
          ⟨"letter", "a", 6, 7, [], []⟩], []⟩]), ⟨1, q⟩) ∧
    (Call.rule 0).attempt "é,a" commaGrammar 3 0 ⟨0, .start⟩ =
      some (some (4, [⟨"list", "é,a", 0, 4,
        [⟨"list", "é", 0, 2, [⟨"letter", "é", 0, 2, [], []⟩], []⟩,
          ⟨"letter", "a", 3, 4, [], []⟩], []⟩]), ⟨0, q'⟩) ∧
    q.tooDeep = true ∧ q'.tooDeep = true := by
  have hcall : (Call.rule 0).goal? commaGrammar =
      some (.rule (Definition.ofRule ⟨"list", [["list", "','", "letter"], ["letter"]]⟩)) := rfl
  have hrun : (Goal.rule (Definition.ofRule ⟨"list", [["list", "','", "letter"], ["letter"]]⟩)).run
      Progress.note commaGrammar 3 (Cursor.start "é,a".toList) .start =
        (some ⟨⟨4, []⟩, [⟨"list", "é,a", 0, 4,
          [⟨"list", "é", 0, 2, [⟨"letter", "é", 0, 2, [], []⟩], []⟩,
            ⟨"letter", "a", 3, 4, [], []⟩], []⟩]⟩, ⟨3, ["'é'"], true⟩) := by
    decide +kernel
  obtain ⟨-, o, events, hruns, hattempts⟩ :=
    attempt_append "aß" "é,a" hcall (show 4 - 1 = 3 - 0 from rfl)
  obtain ⟨rfl, hevents⟩ := Prod.mk.inj ((hruns Progress.note .start).1.symm.trans hrun)
  have hrefused := congrArg Progress.tooDeep hevents
  rw [Progress.tooDeep_foldl_note] at hrefused
  obtain ⟨q, q', hlater, hfirst, hq, hq'⟩ := hattempts ⟨100, ["'z'"], false⟩ .start
  exact ⟨q, q', hlater, hfirst, hq.trans hrefused, hq'.trans hrefused⟩

end Guarded

end OrderedBnf
