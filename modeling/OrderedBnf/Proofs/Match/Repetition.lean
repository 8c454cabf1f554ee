import Mathlib.Algebra.Group.Nat.Defs
import OrderedBnf.Proofs.Match.Runs

/-!
# Repetition

A repetition is a loop: it stops where its matcher fails, or after an iteration that takes
nothing, and goes on otherwise. `Matcher.Repeats` tells the iterations one by one, and with
them what `*` and `+` come to (`Repeats.zeroOrMore_eq`, `Repeats.oneOrMore_eq`). Each iteration
but the last takes a byte or more, so there are no more of them than there are bytes in front,
and one; and after an iteration that took something the matcher has failed at the end, which is
why a repetition never gives back what it took.

The forms of repetition are consistent with each other (`Goal.repetition_consistent`): `+` is
the first iteration and then `*`, in what it comes to and in what is observed. That holds as far
as the counter reaches. With `2 ^ 32` iterations, or a multiple of that, `+` fails behind all
that it has read.
-/

namespace OrderedBnf

variable {σ : Type}

namespace Matcher

/-- Where some matches in a row stop. -/
def stopOf : Cursor → List Match → Cursor
  | c, [] => c
  | _, m :: later => stopOf m.stop later

/-- **The iterations of a repetition**, each with the state that the one before has left. -/
inductive Repeats (x : Matcher σ) : Cursor → σ → List Match → σ → Prop
  /-- There is none where the matcher fails, -/
  | fail {c : Cursor} {s s' : σ} : x c s = (none, s') → Repeats x c s [] s'
  /-- one that takes nothing is the last, -/
  | empty {c : Cursor} {s s' : σ} {m : Match} :
      x c s = (some m, s') → m.stop = c → Repeats x c s [m] s'
  /-- and after any other there are those from where it stopped. -/
  | more {c : Cursor} {s s' s'' : σ} {m : Match} {later : List Match} :
      x c s = (some m, s') → m.stop ≠ c → Repeats x m.stop s' later s'' →
      Repeats x c s (m :: later) s''

variable {x : Matcher σ} {c : Cursor} {s s' : σ} {m : Match}
variable {iterations before ms later : List Match}

@[simp] theorem stopOf_concat : stopOf c (before ++ [m]) = m.stop := by
  induction before generalizing c with
  | nil => rfl
  | cons first before ih => exact ih

namespace Repeats

/-- **Every repetition comes to an end.** -/
theorem exists_repeats (hx : Advances x) (c : Cursor) (s : σ) :
    ∃ iterations s', Repeats x c s iterations s' := by
  -- an iteration that is followed by another leaves fewer characters in front
  induction hlength : c.rest.length using Nat.strongRecOn generalizing c s with
  | ind length ih =>
    rcases h : x c s with ⟨_ | m, s'⟩
    · exact ⟨[], s', .fail h⟩
    · by_cases hstop : m.stop = c
      · exact ⟨[m], s', .empty h hstop⟩
      · have hreach := hx c s m (by rw [h])
        have hlt := hreach.length_lt fun ho => hstop (hreach.eq_of_offset_eq ho)
        obtain ⟨later, s'', hlater⟩ := ih _ (hlength ▸ hlt) m.stop s' rfl
        exact ⟨m :: later, s'', .more h hstop hlater⟩

theorem reaches (hx : Advances x) (h : Repeats x c s iterations s') :
    c.Reaches (stopOf c iterations) := by
  induction h with
  | fail => exact .refl _
  | empty h hstop => exact hx _ _ _ (by rw [h])
  | more h _ _ ih => exact (hx _ _ _ (by rw [h])).trans ih

/-- **What a repetition comes to**: the number of the iterations, where the last of them stops,
and all their nodes. -/
theorem rounds_eq (hx : Advances x) (h : Repeats x c s iterations s') {ahead : List Char}
    (hahead : c.rest.length ≤ ahead.length) : rounds x ahead c s =
      (⟨Int32.ofNat iterations.length, stopOf c iterations, iterations.flatMap (·.nodes)⟩,
        s') := by
  induction h generalizing ahead with
  | fail h => exact rounds_of_none h
  | empty h hstop =>
    rw [rounds_of_empty h (by rw [hstop]), List.flatMap_singleton, stopOf, stopOf, hstop]
    rfl
  | @more c s s' s'' m later h hstop _ ih =>
    have hreach := hx c s m (by rw [h])
    have hmoved : m.stop.offset ≠ c.offset := fun ho => hstop (hreach.eq_of_offset_eq ho)
    have hlt := hreach.length_lt hmoved
    cases ahead with
    | nil =>
      rw [List.length_nil] at hahead
      omega
    | cons a ahead =>
      rw [List.length_cons] at hahead
      rw [rounds_of_some h hmoved, ih (by omega), List.length_cons, ofNat_succ]
      rfl

theorem zeroOrMore_eq (hx : Advances x) (h : Repeats x c s iterations s') :
    zeroOrMore x c s = (some ⟨stopOf c iterations, iterations.flatMap (·.nodes)⟩, s') := by
  simp only [zeroOrMore, h.rounds_eq hx (Nat.le_refl _)]

theorem oneOrMore_eq (hx : Advances x) (h : Repeats x c s iterations s') :
    oneOrMore x c s = (if Counted iterations.length then
      some ⟨stopOf c iterations, iterations.flatMap (·.nodes)⟩ else none, s') := by
  simp only [oneOrMore, h.rounds_eq hx (Nat.le_refl _), ofNat_eq_zero_iff, ite_not]

/-! ## How many iterations there are -/

/-- **Every iteration but the last takes a byte or more.** -/
theorem length_le (hx : Advances x) (h : Repeats x c s iterations s') :
    c.offset + iterations.length ≤ (stopOf c iterations).offset + 1 := by
  induction h with
  | fail => exact Nat.le_succ _
  | empty h hstop =>
    rw [stopOf, stopOf, hstop]
    exact Nat.le_refl _
  | @more c s s' s'' m later h hstop _ ih =>
    have hreach := hx c s m (by rw [h])
    have hmoved : m.stop.offset ≠ c.offset := fun ho => hstop (hreach.eq_of_offset_eq ho)
    obtain ⟨taken, -, ho⟩ := hreach
    rw [List.length_cons, stopOf]
    omega

/-- There are no more of them than bytes in front, and one. -/
theorem length_le_byteLength (hx : Advances x) (h : Repeats x c s iterations s') :
    iterations.length ≤ byteLength c.rest + 1 := by
  have hlength := h.length_le hx
  obtain ⟨taken, hr, ho⟩ := h.reaches hx
  rw [hr, byteLength_append]
  omega

/-- **The counter tells whether there are any**, as long as the bytes in front do not fill it. -/
theorem counted_length (hx : Advances x) (h : Repeats x c s iterations s')
    (hbytes : byteLength c.rest + 1 < 2 ^ 32) : iterations = [] ∨ Counted iterations.length := by
  have hlength := h.length_le_byteLength hx
  by_cases hnil : iterations = []
  · exact .inl hnil
  · exact .inr (counted_of_lt (by rwa [ne_eq, List.length_eq_zero_iff]) (by omega))

/-! ## How they end -/

/-- **After an iteration that takes something the matcher fails.** -/
theorem fails_of_moved (h : Repeats x c s iterations s') (hlast : iterations = before ++ [m])
    (hmoved : m.stop ≠ stopOf c before) : ∃ s₁, x m.stop s₁ = (none, s') := by
  induction h generalizing before with
  | fail => simp at hlast
  | @empty c s s' last h hstop =>
    obtain ⟨rfl, rfl⟩ : before = [] ∧ last = m := by
      cases before with
      | nil => exact ⟨rfl, (List.cons.inj hlast).1⟩
      | cons first before => simp at hlast
    exact absurd hstop hmoved
  | @more c s s₁ s'' first later h hstop hlater ih =>
    cases before with
    | nil =>
      obtain ⟨rfl, rfl⟩ := List.cons.inj hlast
      cases hlater with
      | fail h => exact ⟨_, h⟩
    | cons first' before =>
      obtain ⟨rfl, rfl⟩ := List.cons.inj hlast
      exact ih rfl hmoved

end Repeats

end Matcher

/-- A term that asks for another repetition. -/
def Term.repeated (t : Term) (r : Repetition) : Term := { t with repetition := r }

namespace Goal

open Matcher

variable {note : Observer σ} {g : Grammar} {levels : Nat} {t : Term} {c : Cursor} {s s' : σ}
variable {m : Match}

/-- **What a part comes to does not depend on what is observed**, nor on what was observed
before. -/
theorem run_fst_eq {τ : Type} (note : Observer σ) (note' : Observer τ) (g : Grammar)
    (levels : Nat) (x : Goal) (c : Cursor) (s : σ) (s' : τ) :
    (x.run note g levels c s).1 = (x.run note' g levels c s').1 := by
  obtain ⟨o, events, h⟩ := exists_runs g levels x c
  rw [h.run note s, h.run note' s']

/-! ## Forms of repetition -/

/-- What may be left out never fails. -/
theorem exists_run_optional : ∃ m s',
    (term (t.repeated .optional)).run note g levels c s = (some m, s') := by
  rcases hm : (symbol t).run note g levels c s with ⟨_ | m, s'⟩
  · exact ⟨_, s', run_optional_of_none (t := t.repeated .optional) rfl hm⟩
  · exact ⟨m, s', run_optional_of_some (t := t.repeated .optional) rfl hm⟩

variable {iterations : List Match}

theorem run_zeroOrMore_eq (h : Repeats ((symbol t).run note g levels) c s iterations s') :
    (term (t.repeated .zeroOrMore)).run note g levels c s =
      (some ⟨stopOf c iterations, iterations.flatMap (·.nodes)⟩, s') :=
  h.zeroOrMore_eq (advances_run note g levels (symbol t))

theorem run_oneOrMore_eq (h : Repeats ((symbol t).run note g levels) c s iterations s') :
    (term (t.repeated .oneOrMore)).run note g levels c s =
      (if Counted iterations.length then
        some ⟨stopOf c iterations, iterations.flatMap (·.nodes)⟩ else none, s') :=
  h.oneOrMore_eq (advances_run note g levels (symbol t))

/-- Once or more fails with the symbol as long as it counts rightly, -/
theorem run_repeated_eq_none_iff
    (h : Repeats ((symbol t).run note g levels) c s iterations s') :
    (∀ s'', (term (t.repeated .oneOrMore)).run note g levels c s = (none, s'') ↔
      (symbol t).run note g levels c s = (none, s'')) ↔
        iterations = [] ∨ Counted iterations.length := by
  have hplus := run_oneOrMore_eq h
  cases h with
  | fail h =>
    rw [List.length_nil, if_neg not_counted_zero] at hplus
    simp [hplus, h]
  | empty h | more h =>
    rw [hplus, h]
    split
    · rename_i hcounted
      exact iff_of_true (by simp) (.inr hcounted)
    · rename_i hcounted
      refine iff_of_false (fun hiff => ?_) (not_or.2 ⟨List.cons_ne_nil _ _, hcounted⟩)
      cases (hiff _).1 rfl

/-- goes on with any number of times behind a match that takes something, -/
theorem run_repeated_of_moved {s₁ : σ}
    (h : Repeats ((symbol t).run note g levels) c s iterations s₁)
    (hm : (symbol t).run note g levels c s = (some m, s'))
    (hmoved : m.stop.offset ≠ c.offset) :
    ∃ later s'', (term (t.repeated .zeroOrMore)).run note g levels m.stop s' = (some later, s'') ∧
      (term (t.repeated .oneOrMore)).run note g levels c s =
        (if Counted iterations.length then some ⟨later.stop, m.nodes ++ later.nodes⟩ else none,
          s'') := by
  have hplus := run_oneOrMore_eq h
  cases h with
  | fail h => simp [h] at hm
  | empty h hstop =>
    obtain ⟨hfirst, -⟩ := Prod.mk.inj (h.symm.trans hm)
    obtain rfl := Option.some.inj hfirst
    exact absurd (congrArg Cursor.offset hstop) hmoved
  | more h _ hlater =>
    obtain ⟨hfirst, rfl⟩ := Prod.mk.inj (h.symm.trans hm)
    obtain rfl := Option.some.inj hfirst
    exact ⟨_, _, run_zeroOrMore_eq hlater, hplus⟩

/-- and stops behind one that takes nothing, as any number of times does. -/
theorem run_repeated_of_empty (hm : (symbol t).run note g levels c s = (some m, s'))
    (hempty : m.stop.offset = c.offset) :
    (term (t.repeated .oneOrMore)).run note g levels c s = (some ⟨c, m.nodes⟩, s') ∧
      (term (t.repeated .zeroOrMore)).run note g levels c s = (some ⟨c, m.nodes⟩, s') := by
  have hstop : m.stop = c :=
    (advances_run note g levels (symbol t) c s m (by rw [hm])).eq_of_offset_eq hempty
  have h : Repeats ((symbol t).run note g levels) c s [m] s' := .empty hm hstop
  constructor
  · rw [run_oneOrMore_eq h, List.length_singleton, if_pos (by decide), List.flatMap_singleton,
      stopOf, stopOf, hstop]
  · rw [run_zeroOrMore_eq h, List.flatMap_singleton, stopOf, stopOf, hstop]

/-- **The forms of repetition are consistent with each other**, for the symbol of any term, at
any cursor, with any number of levels, and for any observer in any state. There is a list of the
iterations, no longer than the bytes in front and one, in which `*` and `+` can be read off; `*`
and `?` never fail. `+` fails if and only if the symbol does. Where the symbol takes something,
`+` comes to that and then to what `*` comes to behind it, and what is observed is what is
observed of the two; where it takes nothing, both come to that one match. If the last of the
iterations took something, the symbol fails where it stopped, whatever has been observed.

The counter of the iterations is the one exception, and exactly where their number is a multiple
of `2 ^ 32`: there `+` fails, although the symbol has matched. In a text that does not fill the
counter there is no such place. -/
theorem repetition_consistent (note : Observer σ) (g : Grammar) (levels : Nat) (t : Term)
    (c : Cursor) (s : σ) :
    (∃ iterations s', Repeats ((symbol t).run note g levels) c s iterations s') ∧
    (∃ m s', (term (t.repeated .optional)).run note g levels c s = (some m, s')) ∧
    ∀ iterations s₁, Repeats ((symbol t).run note g levels) c s iterations s₁ →
      iterations.length ≤ byteLength c.rest + 1 ∧
      (byteLength c.rest + 1 < 2 ^ 32 → iterations = [] ∨ Counted iterations.length) ∧
      (term (t.repeated .zeroOrMore)).run note g levels c s =
        (some ⟨stopOf c iterations, iterations.flatMap (·.nodes)⟩, s₁) ∧
      (term (t.repeated .oneOrMore)).run note g levels c s =
        (if Counted iterations.length then
          some ⟨stopOf c iterations, iterations.flatMap (·.nodes)⟩ else none, s₁) ∧
      ((∀ s', (term (t.repeated .oneOrMore)).run note g levels c s = (none, s') ↔
        (symbol t).run note g levels c s = (none, s')) ↔
          iterations = [] ∨ Counted iterations.length) ∧
      (∀ m s', (symbol t).run note g levels c s = (some m, s') → m.stop.offset ≠ c.offset →
        ∃ later s'', (term (t.repeated .zeroOrMore)).run note g levels m.stop s' =
            (some later, s'') ∧
          (term (t.repeated .oneOrMore)).run note g levels c s =
            (if Counted iterations.length then
              some ⟨later.stop, m.nodes ++ later.nodes⟩ else none, s'')) ∧
      (∀ m s', (symbol t).run note g levels c s = (some m, s') → m.stop.offset = c.offset →
        (term (t.repeated .oneOrMore)).run note g levels c s = (some ⟨c, m.nodes⟩, s') ∧
        (term (t.repeated .zeroOrMore)).run note g levels c s = (some ⟨c, m.nodes⟩, s')) ∧
      ∀ before m, iterations = before ++ [m] → m.stop.offset ≠ (stopOf c before).offset →
        stopOf c iterations = m.stop ∧
        ∀ {τ : Type} (note' : Observer τ) (s'' : τ),
          ((symbol t).run note' g levels m.stop s'').1 = none := by
  have hx := advances_run note g levels (symbol t)
  refine ⟨Repeats.exists_repeats hx c s, exists_run_optional, fun iterations s₁ h =>
    ⟨h.length_le_byteLength hx, h.counted_length hx, run_zeroOrMore_eq h, run_oneOrMore_eq h,
      run_repeated_eq_none_iff h, fun m s' => run_repeated_of_moved h,
      fun m s' => run_repeated_of_empty, fun before m hlast hmoved =>
        ⟨by rw [hlast, stopOf_concat], fun note' s'' => ?_⟩⟩⟩
  obtain ⟨s₁, hfails⟩ := h.fails_of_moved hlast fun hstop => hmoved (by rw [hstop])
  rw [run_fst_eq note' note g levels (symbol t) m.stop s'' s₁, hfails]

/-- A rule that takes a letter with an accent, and where there is none takes nothing. -/
def accentGrammar : Grammar := Grammar.ofRules [⟨"a", [["'é'"], []]⟩]

/-- Two such letters. The rule is matched a third time, without taking anything; the literal
fails behind the second, and its two iterations are counted. -/
theorem repetition_consistent_accents :
    (∃ m s', (symbol (Term.ofSource "a")).run Event.record accentGrammar 2 ⟨3, "éé!".toList⟩ [] =
        (some m, s') ∧ m.stop = ⟨5, "é!".toList⟩ ∧
      ∃ later s'', (term (Term.ofSource "a*")).run Event.record accentGrammar 2
          ⟨5, "é!".toList⟩ s' = (some later, s'') ∧
        (term (Term.ofSource "a+")).run Event.record accentGrammar 2 ⟨3, "éé!".toList⟩ [] =
          (some ⟨later.stop, m.nodes ++ later.nodes⟩, s'')) ∧
    (∃ m s', (symbol (Term.ofSource "a")).run Event.record accentGrammar 2 ⟨7, ['!']⟩ [] =
        (some m, s') ∧ m.stop.offset = 7 ∧
      (term (Term.ofSource "a+")).run Event.record accentGrammar 2 ⟨7, ['!']⟩ [] =
        (some ⟨⟨7, ['!']⟩, m.nodes⟩, s')) ∧
    ((symbol (Term.ofSource "'é'")).run Event.record accentGrammar 2 ⟨7, ['!']⟩ []).1 = none ∧
    ∀ s', (term (Term.ofSource "'é'+")).run Event.record accentGrammar 2 ⟨3, "éé!".toList⟩ [] =
        (none, s') ↔
      (symbol (Term.ofSource "'é'")).run Event.record accentGrammar 2 ⟨3, "éé!".toList⟩ [] =
        (none, s') := by
  have hone : (Term.ofSource "a").repeated .oneOrMore = Term.ofSource "a+" := by decide
  have hzero : (Term.ofSource "a").repeated .zeroOrMore = Term.ofSource "a*" := by decide
  have hliteral : (Term.ofSource "'é'").repeated .oneOrMore = Term.ofSource "'é'+" := by decide
  -- an iteration that takes a letter, and one that takes nothing
  have hletter : (symbol (Term.ofSource "a")).run Event.record accentGrammar 2
      ⟨3, "éé!".toList⟩ [] =
        (some ⟨⟨5, "é!".toList⟩, [⟨"a", "é", 3, 5, [], []⟩]⟩, [.leave, .enter "a" 3]) := by
    decide +kernel
  have hletter' : (symbol (Term.ofSource "a")).run Event.record accentGrammar 2
      ⟨5, "é!".toList⟩ [.leave, .enter "a" 3] =
        (some ⟨⟨7, ['!']⟩, [⟨"a", "é", 5, 7, [], []⟩]⟩,
          [.leave, .enter "a" 5, .leave, .enter "a" 3]) := by
    decide +kernel
  have hnothing (events : List Event) : (symbol (Term.ofSource "a")).run Event.record
      accentGrammar 2 ⟨7, ['!']⟩ events = (some ⟨⟨7, ['!']⟩, [⟨"a", "", 7, 7, [], []⟩]⟩,
        .leave :: .miss 7 "'é'" :: .enter "a" 7 :: events) := rfl
  have hliterals : Repeats ((symbol (Term.ofSource "'é'")).run Event.record accentGrammar 2)
      ⟨3, "éé!".toList⟩ [] ([⟨⟨5, "é!".toList⟩, []⟩] ++ [⟨⟨7, ['!']⟩, []⟩])
      [.miss 7 "'é'"] := by
    have hfirst : (symbol (Term.ofSource "'é'")).run Event.record accentGrammar 2
        ⟨3, "éé!".toList⟩ [] = (some ⟨⟨5, "é!".toList⟩, []⟩, []) := by decide +kernel
    have hsecond : (symbol (Term.ofSource "'é'")).run Event.record accentGrammar 2
        ⟨5, "é!".toList⟩ [] = (some ⟨⟨7, ['!']⟩, []⟩, []) := by decide +kernel
    exact .more hfirst (by decide) (.more hsecond (by decide) (.fail (by decide +kernel)))
  obtain ⟨-, -, hrules⟩ := repetition_consistent Event.record accentGrammar 2
    (Term.ofSource "a") ⟨3, "éé!".toList⟩ []
  obtain ⟨-, -, -, -, -, hmoved, -, -⟩ := hrules _ _
    (.more hletter (by decide) (.more hletter' (by decide) (.empty (hnothing _) rfl)))
  obtain ⟨-, -, hrest⟩ := repetition_consistent Event.record accentGrammar 2
    (Term.ofSource "a") ⟨7, ['!']⟩ []
  obtain ⟨-, -, -, -, -, -, hempty, -⟩ := hrest _ _ (.empty (hnothing []) rfl)
  obtain ⟨-, -, hall⟩ := repetition_consistent Event.record accentGrammar 2
    (Term.ofSource "'é'") ⟨3, "éé!".toList⟩ []
  obtain ⟨-, hbytes, -, -, hfails, -, -, hlast⟩ := hall _ _ hliterals
  rw [hone, hzero] at hmoved
  rw [hone] at hempty
  rw [hliteral] at hfails
  refine ⟨⟨_, _, hletter, rfl, hmoved _ _ hletter (by decide)⟩,
    ⟨_, _, hnothing [], rfl, (hempty _ _ (hnothing []) rfl).1⟩, ?_,
    hfails.2 (hbytes (by decide))⟩
  exact (hlast _ _ rfl (by decide)).2 Event.record []

/-! ## A full counter -/

/-- A character that is repeated is matched -/
theorem run_literal_replicate {a : Char} {k offset : Nat} (ht : t.symbol = .literal [a]) (s : σ) :
    (symbol t).run note g levels ⟨offset, List.replicate (k + 1) a⟩ s =
      (some ⟨⟨offset + a.utf8Size, List.replicate k a⟩, []⟩, s) := by
  have hadvance : Cursor.advance? ⟨offset, List.replicate (k + 1) a⟩ [a] =
      some ⟨offset + a.utf8Size, List.replicate k a⟩ :=
    Cursor.advance?_eq_some_iff.2 ⟨rfl, rfl⟩
  rw [run_literal ht, Matcher.literal, hadvance]

/-- as often as it is there. -/
theorem exists_repeats_replicate {a : Char} (ht : t.symbol = .literal [a]) (k offset : Nat)
    (s : σ) : ∃ iterations s', iterations.length = k ∧
      Repeats ((symbol t).run note g levels) ⟨offset, List.replicate k a⟩ s iterations s' := by
  induction k generalizing offset with
  | zero =>
    refine ⟨[], note s (.miss offset t.source), rfl, .fail ?_⟩
    rw [run_literal ht, Matcher.literal, Cursor.advance?_eq_none_iff.2 (by simp)]
  | succ k ih =>
    obtain ⟨later, s', hlength, hlater⟩ := ih (offset + a.utf8Size)
    have hpos := a.utf8Size_pos
    refine ⟨⟨⟨offset + a.utf8Size, List.replicate k a⟩, []⟩ :: later, s',
      congrArg Nat.succ hlength, .more ?_ ?_ hlater⟩
    · exact run_literal_replicate ht s
    · intro hstop
      have := congrArg Cursor.offset hstop
      dsimp only at this
      omega

/-- Once or more of a character fails on a text of which the counter does not tell that it is
not empty. -/
theorem run_oneOrMore_replicate {a : Char} {n : Nat} (ht : t.symbol = .literal [a])
    (hn : ¬ Counted n) (s : σ) :
    ((term (t.repeated .oneOrMore)).run note g levels ⟨0, List.replicate n a⟩ s).1 = none := by
  obtain ⟨iterations, s', rfl, h⟩ := exists_repeats_replicate ht n 0 s
  rw [run_oneOrMore_eq h, if_neg hn]

/-- Where a letter stands `2 ^ 32` times, its literal matches, and fails with `+`. -/
theorem not_repetition_consistent :
    ((symbol (Term.ofSource "'a'")).run Event.record [] 0
      ⟨0, List.replicate (2 ^ 32) 'a'⟩ []).1 = some ⟨⟨1, List.replicate (2 ^ 32 - 1) 'a'⟩, []⟩ ∧
    ((term (Term.ofSource "'a'+")).run Event.record [] 0
      ⟨0, List.replicate (2 ^ 32) 'a'⟩ []).1 = none := by
  have ht : (Term.ofSource "'a'").symbol = .literal ['a'] := by decide
  have hplus : (Term.ofSource "'a'").repeated .oneOrMore = Term.ofSource "'a'+" := by decide
  generalize hn : 2 ^ 32 = n
  constructor
  · obtain ⟨k, rfl⟩ : ∃ k, n = k + 1 := ⟨n - 1, by omega⟩
    rw [run_literal_replicate ht]
    rfl
  · rw [← hplus]
    exact run_oneOrMore_replicate ht (by rw [← hn]; decide) []

end Goal

end OrderedBnf
