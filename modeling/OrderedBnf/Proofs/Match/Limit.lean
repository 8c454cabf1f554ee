import OrderedBnf.Parse.Parser
import OrderedBnf.Proofs.Match.Goal

/-!
# The limit on levels

A run that never needs a level that is not there does not depend on how
many there are. This is a statement about two runs with different limits,
and it has to hold for the observer as well, since reports are made from
what the observer keeps. `Matcher.Stable` is the relation between the two:
whenever the first ends without having reached its limit, the second ends in
the same way with the same state.

An attempt that reached the limit may be absorbed by a later alternative or
by a repetition. All ways to combine matchers keep the relation nevertheless,
because an observer does not forget that the limit was reached (`Gauge`):
whatever ends quietly was quiet all along.
-/

namespace OrderedBnf

variable {σ α : Type}

/-- **An observer that can tell whether the limit was reached.** A state is
quiet if it was not; of all events only that one disturbs it, and for good. -/
structure Gauge (note : Observer σ) (quiet : σ → Prop) : Prop where
  quiet_note : ∀ s e, quiet (note s e) ↔ quiet s ∧ ∀ rule offset, e ≠ .tooDeep rule offset

/-- No literal that is missed touches the flag for the limit. -/
@[simp] theorem Progress.tooDeep_miss (p : Progress) (offset : Nat) (source : String) :
    (p.miss offset source).tooDeep = p.tooDeep := by
  unfold miss
  split
  · rfl
  · split <;> rfl

/-- The observer of a parse has a flag for the limit. -/
theorem Progress.gauge : Gauge Progress.note (·.tooDeep = false) where
  quiet_note p e := by
    cases e <;> simp [note]

/-! ## Two runs of a matcher -/

namespace Matcher

/-- Where `x` ends without having reached the limit, it began so, and `y`
does the same. -/
def Stable (quiet : σ → Prop) (x y : Matcher σ) : Prop :=
  ∀ c s, quiet (x c s).2 → quiet s ∧ y c s = x c s

variable {note : Observer σ} {quiet : σ → Prop} {x y : Matcher σ} {f f' : α → Matcher σ}

theorem stable_literal (hq : Gauge note quiet) (text : List Char) (source : String) :
    Stable quiet (literal note text source) (literal note text source) := by
  intro c s h
  refine ⟨?_, rfl⟩
  unfold literal at h
  split at h
  · exact h
  · exact ((hq.quiet_note s _).1 h).1

theorem stable_optional (hx : Stable quiet x y) : Stable quiet (optional x) (optional y) := by
  intro c s h
  have key : quiet (x c s).2 := by
    unfold optional at h
    split at h <;> rename_i hm <;> rw [hm] <;> exact h
  obtain ⟨hs, hy⟩ := hx c s key
  exact ⟨hs, by simp only [optional, hy]⟩

theorem stable_rounds (hx : Stable quiet x y) (ahead : List Char) {c : Cursor} {s : σ}
    (h : quiet (rounds x ahead c s).2) : quiet s ∧ rounds y ahead c s = rounds x ahead c s := by
  -- a round that ends quietly is the same for both, and so is what follows it
  induction ahead generalizing c s with
  | nil =>
    have key : quiet (x c s).2 := by
      rw [rounds] at h
      split at h
      · rename_i hm; rw [hm]; exact h
      · rename_i hm
        rw [hm]
        split at h <;> exact h
    obtain ⟨hs, hy⟩ := hx c s key
    exact ⟨hs, by simp only [rounds, hy]⟩
  | cons a ahead ih =>
    rcases hm : x c s with ⟨_ | m, s'⟩
    · rw [rounds_of_none hm] at h ⊢
      obtain ⟨hs, hy⟩ := hx c s (by rw [hm]; exact h)
      exact ⟨hs, rounds_of_none (hy.trans hm)⟩
    · by_cases ho : m.stop.offset = c.offset
      · rw [rounds_of_empty hm ho] at h ⊢
        obtain ⟨hs, hy⟩ := hx c s (by rw [hm]; exact h)
        exact ⟨hs, rounds_of_empty (hy.trans hm) ho⟩
      · rw [rounds_of_some hm ho] at h ⊢
        obtain ⟨hs', hrest⟩ := ih h
        obtain ⟨hs, hy⟩ := hx c s (by rw [hm]; exact hs')
        exact ⟨hs, by rw [rounds_of_some (hy.trans hm) ho, hrest]⟩

theorem stable_loop (hx : Stable quiet x y) (count : Option Nat) :
    Stable quiet (loop count x) (loop count y) := by
  intro c s h
  obtain ⟨hs, hy⟩ := stable_rounds hx c.rest h
  exact ⟨hs, by simp only [loop, hy]⟩

theorem stable_times (hx : Stable quiet x y) : ∀ r, Stable quiet (times r x) (times r y)
  | .once => hx
  | .optional => stable_optional hx
  | .zeroOrMore => stable_loop hx none
  | .oneOrMore => by
    rw [times, times, oneOrMore_eq_loop, oneOrMore_eq_loop]
    exact stable_loop hx (some 0)

theorem stable_sequence (hf : ∀ a, Stable quiet (f a) (f' a)) :
    ∀ as, Stable quiet (sequence f as) (sequence f' as) := by
  intro as
  induction as with
  | nil => exact fun c s h => ⟨h, rfl⟩
  | cons a as ih =>
    intro c s h
    rcases hm : f a c s with ⟨_ | m, s'⟩
    · simp only [sequence, hm] at h
      obtain ⟨hs, hy⟩ := hf a c s (by rw [hm]; exact h)
      exact ⟨hs, by simp only [sequence, hy, hm]⟩
    · -- what follows ends quietly, so it began quietly, and that is where `f a` ended
      have hlater : quiet (sequence f as m.stop s').2 := by
        simp only [sequence, hm] at h
        split at h <;> rename_i hl <;> rw [hl] <;> exact h
      obtain ⟨hs', hrest⟩ := ih m.stop s' hlater
      obtain ⟨hs, hy⟩ := hf a c s (by rw [hm]; exact hs')
      exact ⟨hs, by simp only [sequence, hy, hm, hrest]⟩

theorem stable_firstOf (hf : ∀ a, Stable quiet (f a) (f' a)) :
    ∀ as, Stable quiet (firstOf f as) (firstOf f' as) := by
  intro as
  induction as with
  | nil => exact fun c s h => ⟨h, rfl⟩
  | cons a as ih =>
    intro c s h
    rcases hm : f a c s with ⟨_ | m, s'⟩
    · simp only [firstOf, hm] at h
      obtain ⟨hs', hrest⟩ := ih c s' h
      obtain ⟨hs, hy⟩ := hf a c s (by rw [hm]; exact hs')
      exact ⟨hs, by simp only [firstOf, hy, hm, hrest]⟩
    · simp only [firstOf, hm] at h
      obtain ⟨hs, hy⟩ := hf a c s (by rw [hm]; exact h)
      exact ⟨hs, by simp only [firstOf, hy, hm]⟩

end Matcher

/-! ## Two limits for a grammar -/

namespace Grammar

open Matcher

variable {note : Observer σ} {quiet : σ → Prop} {g : Grammar} {b b' : Definition → Matcher σ}

theorem stable_reference (hq : Gauge note quiet) (hb : ∀ d, Stable quiet (b d) (b' d))
    (name : String) : Stable quiet (g.reference note b name) (g.reference note b' name) := by
  intro c s h
  unfold reference at h ⊢
  split at h
  · exact ⟨((hq.quiet_note s _).1 h).1, rfl⟩
  · rename_i d hd
    have key : quiet (b d c s).2 := by
      split at h <;> rename_i hm <;> rw [hm] <;> exact h
    obtain ⟨hs, hy⟩ := hb d c s key
    exact ⟨hs, by simp only [hy]⟩

theorem stable_symbol (hq : Gauge note quiet) (hb : ∀ d, Stable quiet (b d) (b' d)) (t : Term) :
    Stable quiet (g.symbol note b t) (g.symbol note b' t) := by
  unfold symbol
  split
  · exact stable_literal hq _ _
  · exact stable_reference hq hb _

theorem stable_term (hq : Gauge note quiet) (hb : ∀ d, Stable quiet (b d) (b' d)) (t : Term) :
    Stable quiet (g.term note b t) (g.term note b' t) :=
  stable_times (stable_symbol hq hb t) t.repetition

/-- **A body that ends quietly ends in the same way with more levels.** -/
theorem stable_body (hq : Gauge note quiet) (g : Grammar) {levels more : Nat}
    (hle : levels ≤ more) (d : Definition) :
    Stable quiet (g.body note levels d) (g.body note more d) := by
  induction levels generalizing more d with
  | zero =>
    -- without a level the limit is reached at once
    intro c s h
    exact absurd rfl (((hq.quiet_note s _).1 h).2 d.name c.offset)
  | succ n ih =>
    obtain ⟨k, rfl⟩ : ∃ k, more = k + 1 := ⟨more - 1, by omega⟩
    intro c s h
    have hbodies := fun d => ih (Nat.le_of_succ_le_succ hle) d
    simp only [body] at h ⊢
    obtain ⟨hs, hy⟩ := stable_firstOf (stable_sequence (stable_term hq hbodies)) d.alternatives
      c _ ((hq.quiet_note _ _).1 h).1
    exact ⟨((hq.quiet_note s _).1 hs).1, by simp only [alternatives] at hy ⊢; rw [hy]⟩

end Grammar

namespace Goal

variable {note : Observer σ} {quiet : σ → Prop}

/-- **The same for every part of a grammar.** -/
theorem stable_run (hq : Gauge note quiet) (g : Grammar) {levels more : Nat}
    (hle : levels ≤ more) (x : Goal) :
    Matcher.Stable quiet (x.run note g levels) (x.run note g more) := by
  have hb := Grammar.stable_body hq g hle
  cases x with
  | symbol t => exact Grammar.stable_symbol hq hb t
  | loop t count => exact Matcher.stable_loop (Grammar.stable_symbol hq hb t) count
  | term t => exact Grammar.stable_term hq hb t
  | sequence terms => exact Matcher.stable_sequence (Grammar.stable_term hq hb) terms
  | choice alternatives =>
    exact Matcher.stable_firstOf (Matcher.stable_sequence (Grammar.stable_term hq hb)) alternatives
  | body d => exact hb d
  | rule d =>
    intro c s h
    obtain ⟨hs, hy⟩ := hb d c s h
    exact ⟨hs, by simp only [run, hy]⟩

/-- Whatever ends quietly began quietly. -/
theorem quiet_of_quiet_run (hq : Gauge note quiet) {g : Grammar} {levels : Nat} {x : Goal}
    {c : Cursor} {s : σ} (h : quiet (x.run note g levels c s).2) : quiet s :=
  (stable_run hq g (Nat.le_refl levels) x c s h).1

end Goal

end OrderedBnf
