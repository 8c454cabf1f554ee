import OrderedBnf.Proofs.Guarded.Matcher

/-!
# What is remembered is not read

An attempt has in its state how many rules are under way and what is remembered of the run so
far. It reads the number and only adds to what is remembered: whatever that is, the attempt
comes to the same, and the same events are added (`Records`). What attempts are made of keeps to
this, and so does the body of every rule (`records_body`).
-/

namespace OrderedBnf

namespace Guarded

variable {text : String} {g : Grammar} {α β γ : Type}

/-- **A step that records events, and reads none.** What it comes to, how many rules are under
way then and which events happen does not depend on what is remembered. -/
def Records (step : State → Option (β × State)) : Prop :=
  ∀ depth, ∃ r : Option (β × Nat × List Event), ∀ p,
    step ⟨depth, p⟩ = r.map fun r => (r.1, ⟨r.2.1, r.2.2.foldl Progress.note p⟩)

/-! ## Steps -/

/-- A step without a result records nothing, -/
theorem records_none : Records fun _ => (none : Option (β × State)) :=
  fun _ => ⟨none, fun _ => rfl⟩

/-- nor does one that is over at once. -/
theorem records_some (b : β) : Records fun s => some (b, s) :=
  fun depth => ⟨some (b, depth, []), fun _ => rfl⟩

theorem records_note (b : β) (event : Event) :
    Records fun s => some (b, { s with progress := s.progress.note event }) :=
  fun depth => ⟨some (b, depth, [event]), fun _ => rfl⟩

/-- The number of rules that are under way may be changed. -/
theorem Records.under {step : State → Option (β × State)} (hstep : Records step) (depth : Nat) :
    Records fun s => step { s with depth := depth } :=
  fun _ => hstep depth

/-- Of two steps the events follow each other. -/
theorem Records.bind {step : State → Option (β × State)} {next : β × State → Option (γ × State)}
    (hstep : Records step) (hnext : ∀ b, Records fun s => next (b, s)) :
    Records fun s => step s >>= next := by
  intro depth
  obtain ⟨_ | ⟨b, depth', first⟩, hfirst⟩ := hstep depth
  · exact ⟨none, fun p => by simp only [hfirst]; rfl⟩
  · obtain ⟨r, hlater⟩ := hnext b depth'
    refine ⟨r.map fun r => (r.1, r.2.1, first ++ r.2.2), fun p => ?_⟩
    simp only [hfirst, Option.map_some, Option.bind_eq_bind, Option.bind_some, hlater,
      Option.map_map, Function.comp_def, List.foldl_append]

/-- What is found of the number of rules may be undefined, -/
theorem Records.getDepth (a? : Nat → Option α) {next : α → State → Option (β × State)}
    (hnext : ∀ a, Records (next a)) : Records fun s => a? s.depth >>= fun a => next a s := by
  intro depth
  cases ha : a? depth with
  | none => exact ⟨none, fun _ => by simp only [ha]; rfl⟩
  | some a => simpa only [ha, Option.bind_eq_bind, Option.bind_some] using hnext a depth

/-- and it may make a difference. -/
theorem Records.iteDepth (q : Nat → Prop) [DecidablePred q]
    {step other : State → Option (β × State)} (hstep : Records step) (hother : Records other) :
    Records fun s => if q s.depth then step s else other s := by
  intro depth
  by_cases hq : q depth
  · simpa only [if_pos hq] using hstep depth
  · simpa only [if_neg hq] using hother depth

/-- So it is with what does not depend on the state. -/
theorem Records.get {a? : Option α} {next : α → State → Option (β × State)}
    (hnext : ∀ a, Records (next a)) : Records fun s => a? >>= fun a => next a s :=
  .getDepth (fun _ => a?) hnext

theorem Records.ite {q : Prop} [Decidable q] {step other : State → Option (β × State)}
    (hstep : Records step) (hother : Records other) :
    Records fun s => if q then step s else other s :=
  .iteDepth (fun _ => q) hstep hother

theorem Records.atBoundary {x : Attempt} (hx : ∀ pos, Records (x pos)) (pos : Nat) :
    Records (atBoundary text x pos) :=
  .ite (hx pos) records_none

/-! ## Sequence and choice -/

theorem records_firstOf {f : α → Attempt} (hf : ∀ a pos, Records (f a pos)) (as : List α)
    (pos : Nat) : Records (firstOf f as pos) := by
  induction as with
  | nil => exact records_some none
  | cons a as ih =>
    refine (hf a pos).bind fun found => ?_
    cases found with
    | none => exact ih
    | some m => exact records_some (some m)

theorem records_sequence {f : α → Attempt} (hf : ∀ a pos, Records (f a pos)) (as : List α)
    (pos : Nat) : Records (sequence f as pos) := by
  induction as generalizing pos with
  | nil => exact records_some (some (pos, []))
  | cons a as ih =>
    refine (hf a pos).bind fun found => ?_
    obtain _ | ⟨stop, nodes⟩ := found
    · exact records_some none
    · refine (ih stop).bind fun found => ?_
      obtain _ | ⟨last, later⟩ := found
      · exact records_some none
      · exact records_some (some (last, nodes ++ later))

/-! ## Repetition -/

theorem records_rounds {x : Attempt} (hx : ∀ pos, Records (x pos)) (steps pos : Nat) :
    Records (rounds x steps pos) := by
  induction steps generalizing pos with
  | zero => exact records_none
  | succ steps ih =>
    refine (hx pos).bind fun found => ?_
    obtain _ | ⟨stop, nodes⟩ := found
    · exact records_some (0, pos, [])
    · exact .ite (records_some (1, pos, nodes))
        ((ih stop).bind fun later => records_some (later.1 + 1, later.2.1, nodes ++ later.2.2))

theorem records_times {x : Attempt} (hx : ∀ pos, Records (x pos)) (r : Repetition) (pos : Nat) :
    Records (times text x r pos) := by
  have hrounds := records_rounds hx (text.utf8ByteSize + 1) pos
  cases r with
  | once => exact hx pos
  | optional => exact (hx pos).bind fun found => records_some (some (found.getD (pos, [])))
  | zeroOrMore => exact hrounds.bind fun all => records_some (some all.2)
  | oneOrMore =>
    exact hrounds.bind fun all => records_some (if Int32.ofNat all.1 = 0 then none else some all.2)

/-! ## Rules -/

theorem records_literal (text : String) (chars : List Char) (source : String) (pos : Nat) :
    Records (literal text chars source pos) :=
  .get fun _ => .ite (.get fun stop => records_some (some (stop, [])))
    (records_note none (.miss pos source))

section Bodies

variable {attempt : Nat → Attempt} (hbody : ∀ index pos, Records (attempt index pos))
include hbody

theorem records_rule (index pos : Nat) : Records (rule text g attempt index pos) := by
  refine .atBoundary (fun pos => (hbody index pos).bind fun found => ?_) pos
  obtain _ | ⟨stop, nodes⟩ := found
  · exact records_some none
  · exact .get fun d => .ite (records_some (some (stop, nodes))) (.get fun _ => records_some _)

theorem records_reference (name : String) (pos : Nat) :
    Records (reference text g attempt name pos) := by
  unfold reference
  cases lastIndex? name g with
  | none => exact records_some none
  | some index => exact records_rule hbody index pos

theorem records_symbolOf (t : Term) (pos : Nat) : Records (symbolOf text g attempt t pos) := by
  refine .atBoundary (fun pos => ?_) pos
  cases t.symbol with
  | literal chars => exact records_literal text chars t.source pos
  | reference name => exact records_reference hbody name pos

theorem records_termOf (t : Term) (pos : Nat) : Records (termOf text g attempt t pos) :=
  .atBoundary (records_times (records_symbolOf hbody t) t.repetition) pos

theorem records_sequenceOf (terms : List Term) (pos : Nat) :
    Records (atBoundary text (sequence (termOf text g attempt) terms) pos) :=
  .atBoundary (records_sequence (records_termOf hbody) terms) pos

theorem records_alternatives (d : Definition) (pos : Nat) :
    Records (alternatives text g attempt d pos) :=
  records_firstOf (records_sequenceOf hbody) d.alternatives pos

end Bodies

/-- **The body of a rule records events and reads none.** -/
theorem records_body (text : String) (g : Grammar) (limit steps index pos : Nat) :
    Records (body text g limit steps index pos) := by
  induction steps generalizing index pos with
  | zero => exact records_none
  | succ steps ih =>
    refine .atBoundary (fun pos => ?_) pos
    refine .iteDepth (limit ≤ ·) (records_note none (.tooDeep "" pos)) ?_
    refine .getDepth (plus limit · 1) fun inner => .get fun d => ?_
    refine ((records_alternatives ih d pos).under inner).bind fun found => ?_
    exact .getDepth (minus · 1) fun outer => (records_some found).under outer

end Guarded

end OrderedBnf
