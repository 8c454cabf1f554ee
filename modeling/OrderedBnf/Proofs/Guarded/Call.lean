import OrderedBnf.Proofs.Guarded.Record
import OrderedBnf.Proofs.Match.Runs

/-!
# The calls of a run, with guards

There are five things that an attempt can be made of: the alternatives of a rule, a rule, a
sequence of terms, a term and the symbol of a term. Each is attempted with the bodies of all
rules at hand, as many of them inside each other as may be under way, and agrees with the
matcher of the part of the grammar that it is for, whatever is under way already
(`Call.agrees`). Nothing that is remembered has to be of this text, or of any: what is
remembered is not read (`Call.attempt_eq`).
-/

namespace OrderedBnf

namespace Guarded

/-- **What can be attempted in a run.** Rules are given by their indices. -/
inductive Call
  /-- The alternatives of a rule, which are its body. -/
  | alternatives (index : Nat)
  /-- A rule, with its node. -/
  | rule (index : Nat)
  /-- Terms one after another. -/
  | sequence (terms : List Term)
  /-- A term, as often as it asks for. -/
  | term (t : Term)
  /-- The symbol of a term, once. -/
  | symbol (t : Term)
deriving DecidableEq, Repr

namespace Call

/-- The part of a grammar that is attempted. An index has to be that of a rule. -/
def goal? (g : Grammar) : Call → Option Goal
  | alternatives index => g[index]?.map .body
  | rule index => g[index]?.map .rule
  | sequence terms => some (.sequence terms)
  | term t => some (.term t)
  | symbol t => some (.symbol t)

/-- **The attempt**, with up to `limit` rules under way and steps for one body more. -/
def attempt (text : String) (g : Grammar) (limit : Nat) : Call → Attempt
  | alternatives index => body text g limit (limit + 1) index
  | rule index => Guarded.rule text g (body text g limit (limit + 1)) index
  | sequence terms =>
    atBoundary text (Guarded.sequence (termOf text g (body text g limit (limit + 1))) terms)
  | term t => termOf text g (body text g limit (limit + 1)) t
  | symbol t => symbolOf text g (body text g limit (limit + 1)) t

end Call

variable {text : String} {g : Grammar} {limit depth : Nat} {call : Call} {x : Goal}

/-! ## Agreement -/

/-- The steps for one body more than may be under way are enough, also where more are under way
than may be. -/
theorem agrees_body_limit {index : Nat} {d : Definition} (hd : g[index]? = some d) :
    Agrees text depth (body text g limit (limit + 1) index)
      (g.body Progress.note (limit - depth) d) := by
  rcases Nat.le_total depth limit with hdepth | hdepth
  · exact agrees_body (Nat.add_sub_cancel' hdepth) (by omega) hd
  · refine .atBoundary fun c p _ hp => ?_
    dsimp only
    rw [if_pos hdepth, Nat.sub_eq_zero_of_le hdepth]
    exact ⟨rfl, hp⟩

theorem agrees_symbol_limit (t : Term) :
    Agrees text depth (symbolOf text g (body text g limit (limit + 1)) t)
      ((Goal.symbol t).run Progress.note g (limit - depth)) :=
  agrees_symbolOf (fun _ _ => agrees_body_limit) (Grammar.advances_body _ g _) t

theorem agrees_term_limit (t : Term) :
    Agrees text depth (termOf text g (body text g limit (limit + 1)) t)
      ((Goal.term t).run Progress.note g (limit - depth)) :=
  agrees_termOf (fun _ _ => agrees_body_limit) (Grammar.advances_body _ g _) t

/-- **Every attempt agrees with the matcher** of what is attempted, with the levels that are
left. -/
theorem Call.agrees (hcall : call.goal? g = some x) :
    Agrees text depth (call.attempt text g limit) (x.run Progress.note g (limit - depth)) := by
  cases call with
  | alternatives index =>
    obtain ⟨d, hd, rfl⟩ := Option.map_eq_some_iff.1 hcall
    exact agrees_body_limit hd
  | rule index =>
    obtain ⟨d, hd, rfl⟩ := Option.map_eq_some_iff.1 hcall
    exact agrees_rule hd (agrees_body_limit hd) (Grammar.advances_body _ g _ d)
  | sequence terms =>
    obtain rfl := Option.some.inj hcall
    exact .atBoundary (agrees_sequence agrees_term_limit
      (fun t => Goal.advances_run _ g _ (.term t)) terms)
  | term t =>
    obtain rfl := Option.some.inj hcall
    exact agrees_term_limit t
  | symbol t =>
    obtain rfl := Option.some.inj hcall
    exact agrees_symbol_limit t

/-! ## What is remembered -/

/-- Every attempt records events and reads none. -/
theorem Call.records (text : String) (g : Grammar) (limit : Nat) (call : Call) (pos : Nat) :
    Records (call.attempt text g limit pos) := by
  have hbody := records_body text g limit (limit + 1)
  cases call with
  | alternatives index => exact hbody index pos
  | rule index => exact records_rule hbody index pos
  | sequence terms => exact records_sequenceOf hbody terms pos
  | term t => exact records_termOf hbody t pos
  | symbol t => exact records_symbolOf hbody t pos

/-- What comes of a step at the start of a run comes of it whatever is remembered. -/
theorem Records.of_start {β : Type} {step : State → Option (β × State)} (h : Records step)
    {b : β} {depth depth' : Nat} {q : Progress}
    (hstart : step ⟨depth, Progress.start⟩ = some (b, ⟨depth', q⟩)) :
    ∃ events : List Event, events.foldl Progress.note Progress.start = q ∧
      ∀ p, step ⟨depth, p⟩ = some (b, ⟨depth', events.foldl Progress.note p⟩) := by
  obtain ⟨_ | ⟨b', depth'', events⟩, hstep⟩ := h depth
  · rw [hstep] at hstart
    cases hstart
  · rw [hstep] at hstart
    obtain ⟨rfl, hs⟩ := Prod.mk.inj (Option.some.inj hstart)
    obtain ⟨rfl, hq⟩ := State.mk.inj hs
    exact ⟨events, hq, hstep⟩

/-- **Every attempt has its result whatever is remembered**: the outcome of the run, with as many
rules under way as before. What it adds to what is remembered is what the run adds at the
start. -/
theorem Call.attempt_eq (hcall : call.goal? g = some x) {c : Cursor}
    (hc : (Cursor.start text.toList).Reaches c) {o : Option Match} {events : List Event}
    (h : Runs g (limit - depth) x c o events) :
    ∃ added : List Event, added.foldl Progress.note Progress.start =
        events.foldl Progress.note Progress.start ∧
      ∀ p, call.attempt text g limit c.offset ⟨depth, p⟩ =
        some (found o, ⟨depth, added.foldl Progress.note p⟩) := by
  have hagrees : Agrees text depth (call.attempt text g limit) _ := Call.agrees hcall
  have hstart := (hagrees c Progress.start hc (isBoundary_zero text)).1
  rw [h.run] at hstart
  exact (call.records text g limit c.offset).of_start hstart

end Guarded

end OrderedBnf
