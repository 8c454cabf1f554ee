import OrderedBnf.Proofs.Match.Limit

/-!
# What happens in a run

A parse is judged by more than its outcome: by the literals that were missed,
by the rules that were attempted, in the order of the attempts and whether or
not they were given up. `Runs` tells all of it. It says what a part of a
grammar comes to at a cursor, with how many levels, and which events happen on
the way, the earliest first.

Every part runs in one way at every cursor (`exists_runs`, `Runs.unique`), and
the state of any observer is what the events make of it (`Runs.run`). So what
is to be shown of a run, or of two runs of different grammars or on different
texts, is shown by induction on `Runs`, for all observers at once.
-/

namespace OrderedBnf

open Goal

/-- **A run of a grammar.** `Runs g n x c o events` says that the part `x` of the
grammar `g` comes to `o` at the cursor `c` when `n` rules may be under way below
it, and that `events` happen in its course. -/
inductive Runs (g : Grammar) : Nat → Goal → Cursor → Option Match → List Event → Prop
  /-- A literal that comes next is taken in silence, -/
  | literal {n : Nat} {t : Term} {text : List Char} {c stop : Cursor} :
      t.symbol = .literal text → c.rest = text ++ stop.rest →
      stop.offset = c.offset + byteLength text → Runs g n (symbol t) c (some ⟨stop, []⟩) []
  /-- and one that does not is missed. -/
  | noLiteral {n : Nat} {t : Term} {text : List Char} {c : Cursor} :
      t.symbol = .literal text → ¬ text <+: c.rest →
      Runs g n (symbol t) c none [.miss c.offset t.source]
  /-- A name runs what it stands for, -/
  | reference {n : Nat} {t : Term} {name : String} {d : Definition} {c : Cursor}
      {o : Option Match} {events : List Event} :
      t.symbol = .reference name → g.find? name = some d → Runs g n (rule d) c o events →
      Runs g n (symbol t) c o events
  /-- if it stands for anything. -/
  | unresolved {n : Nat} {t : Term} {name : String} {c : Cursor} :
      t.symbol = .reference name → g.find? name = none →
      Runs g n (symbol t) c none [.unresolved name]
  /-- A repetition stops where its symbol fails, -/
  | loopStop {n : Nat} {t : Term} {count : Option Nat} {c : Cursor} {events : List Event} :
      Runs g n (symbol t) c none events →
      Runs g n (loop t count) c (Matcher.verdict count ⟨c, []⟩) events
  /-- after an iteration that takes nothing, -/
  | loopEmpty {n : Nat} {t : Term} {count : Option Nat} {c : Cursor} {m : Match}
      {events : List Event} :
      Runs g n (symbol t) c (some m) events → m.stop = c →
      Runs g n (loop t count) c (Matcher.verdict (count.map (· + 1)) m) events
  /-- and otherwise goes on, with one more behind it. -/
  | loopMore {n : Nat} {t : Term} {count : Option Nat} {c : Cursor} {m : Match}
      {o : Option Match} {first events : List Event} :
      Runs g n (symbol t) c (some m) first → m.stop ≠ c →
      Runs g n (loop t (count.map (· + 1))) m.stop o events →
      Runs g n (loop t count) c (o.map fun later => ⟨later.stop, m.nodes ++ later.nodes⟩)
        (first ++ events)
  /-- A term without a suffix runs its symbol. -/
  | once {n : Nat} {t : Term} {c : Cursor} {o : Option Match} {events : List Event} :
      t.repetition = .once → Runs g n (symbol t) c o events → Runs g n (term t) c o events
  /-- A term with `?` runs it -/
  | optional {n : Nat} {t : Term} {c : Cursor} {m : Match} {events : List Event} :
      t.repetition = .optional → Runs g n (symbol t) c (some m) events →
      Runs g n (term t) c (some m) events
  /-- and does not fail with it. -/
  | noOptional {n : Nat} {t : Term} {c : Cursor} {events : List Event} :
      t.repetition = .optional → Runs g n (symbol t) c none events →
      Runs g n (term t) c (some ⟨c, []⟩) events
  /-- A term with `*` repeats its symbol, -/
  | zeroOrMore {n : Nat} {t : Term} {c : Cursor} {o : Option Match} {events : List Event} :
      t.repetition = .zeroOrMore → Runs g n (many t) c o events → Runs g n (term t) c o events
  /-- and a term with `+` does so and counts how often. -/
  | oneOrMore {n : Nat} {t : Term} {c : Cursor} {o : Option Match} {events : List Event} :
      t.repetition = .oneOrMore → Runs g n (loop t (some 0)) c o events →
      Runs g n (term t) c o events
  /-- Nothing happens in an empty sequence. -/
  | nil {n : Nat} {c : Cursor} : Runs g n (sequence []) c (some ⟨c, []⟩) []
  /-- A sequence goes on from where its first term stopped, -/
  | cons {n : Nat} {t : Term} {terms : List Term} {c : Cursor} {m later : Match}
      {first events : List Event} :
      Runs g n (term t) c (some m) first → Runs g n (sequence terms) m.stop (some later) events →
      Runs g n (sequence (t :: terms)) c (some ⟨later.stop, m.nodes ++ later.nodes⟩)
        (first ++ events)
  /-- and fails with its first term -/
  | consFirst {n : Nat} {t : Term} {terms : List Term} {c : Cursor} {events : List Event} :
      Runs g n (term t) c none events → Runs g n (sequence (t :: terms)) c none events
  /-- or with what follows it. -/
  | consLater {n : Nat} {t : Term} {terms : List Term} {c : Cursor} {m : Match}
      {first events : List Event} :
      Runs g n (term t) c (some m) first → Runs g n (sequence terms) m.stop none events →
      Runs g n (sequence (t :: terms)) c none (first ++ events)
  /-- Nothing happens where there is no alternative. -/
  | noChoice {n : Nat} {c : Cursor} : Runs g n (choice []) c none []
  /-- The first alternative that matches is the last that runs, -/
  | first {n : Nat} {terms : List Term} {alternatives : List (List Term)} {c : Cursor}
      {m : Match} {events : List Event} :
      Runs g n (sequence terms) c (some m) events →
      Runs g n (choice (terms :: alternatives)) c (some m) events
  /-- and what happened in those before it has happened. -/
  | later {n : Nat} {terms : List Term} {alternatives : List (List Term)} {c : Cursor}
      {o : Option Match} {first events : List Event} :
      Runs g n (sequence terms) c none first → Runs g n (choice alternatives) c o events →
      Runs g n (choice (terms :: alternatives)) c o (first ++ events)
  /-- A body without a level does not run, -/
  | tooDeep {d : Definition} {c : Cursor} :
      Runs g 0 (body d) c none [.tooDeep d.name c.offset]
  /-- and with one it is an attempt that begins and ends. -/
  | body {n : Nat} {d : Definition} {c : Cursor} {o : Option Match} {events : List Event} :
      Runs g n (choice d.alternatives) c o events →
      Runs g (n + 1) (body d) c o (.enter d.name c.offset :: events ++ [.leave])
  /-- A rule fails with its body, -/
  | noRule {n : Nat} {d : Definition} {c : Cursor} {events : List Event} :
      Runs g n (body d) c none events → Runs g n (rule d) c none events
  /-- and puts a node around its match, unless it is a fragment. -/
  | rule {n : Nat} {d : Definition} {c : Cursor} {m : Match} {events : List Event} :
      Runs g n (body d) c (some m) events → Runs g n (rule d) c (some (m.wrap d c)) events

variable {σ : Type} {g : Grammar} {n k : Nat} {x : Goal} {c : Cursor} {o o' : Option Match}
variable {events events' : List Event} {d : Definition} {m : Match} {count : Option Nat}

/-! ## The matcher -/

namespace Runs

/-- **What the matcher does, for any observer**: it comes to the outcome of the
run, and shows the observer its events one after another. -/
theorem run (h : Runs g n x c o events) (note : Observer σ) (s : σ) :
    x.run note g n c s = (o, events.foldl note s) := by
  induction h generalizing s with
  | literal ht hr ho =>
    rw [run_literal ht, Matcher.literal, Cursor.advance?_eq_some_iff.2 ⟨hr, ho⟩]
    rfl
  | noLiteral ht hr =>
    rw [run_literal ht, Matcher.literal, Cursor.advance?_eq_none_iff.2 hr]
    rfl
  | reference ht hd _ ih => rw [run_reference ht hd, ih]
  | unresolved ht hd => exact run_unresolved ht hd
  | loopStop _ ih => exact run_loop_of_none (ih s)
  | loopEmpty _ hstop ih => exact run_loop_of_empty (ih s) (by rw [hstop])
  | @loopMore n t count c m o first events _ hstop _ ih ihlater =>
    have hmoved : m.stop.offset ≠ c.offset := fun ho =>
      hstop ((advances_run note g n (symbol t) c s m (by rw [ih])).eq_of_offset_eq ho)
    rw [run_loop_of_some (ih s) hmoved, ihlater, List.foldl_append]
  | once ht _ ih => rw [run_once ht, ih]
  | optional ht _ ih => exact run_optional_of_some ht (ih s)
  | noOptional ht _ ih => exact run_optional_of_none ht (ih s)
  | zeroOrMore ht _ ih => rw [run_zeroOrMore ht, ih]
  | oneOrMore ht _ ih => rw [run_oneOrMore ht, ih]
  | nil => exact run_sequence_nil
  | cons _ _ ih ihlater =>
    rw [run_sequence_of_some (ih s), ihlater, List.foldl_append]
    rfl
  | consFirst _ ih => exact run_sequence_of_none (ih s)
  | consLater _ _ ih ihlater =>
    rw [run_sequence_of_some (ih s), ihlater, List.foldl_append]
    rfl
  | noChoice => exact run_choice_nil
  | first _ ih => exact run_choice_of_some (ih s)
  | later _ _ ih ihlater => rw [run_choice_of_none (ih s), ihlater, List.foldl_append]
  | tooDeep => exact run_body_zero
  | body _ ih =>
    rw [run_body_succ, ih]
    simp
  | noRule _ ih =>
    rw [run_rule, ih]
    rfl
  | rule _ ih =>
    rw [run_rule, ih]
    rfl

theorem reaches (h : Runs g n x c (some m) events) : c.Reaches m.stop :=
  advances_run Event.record g n x c [] m (by rw [h.run])

/-- The observer that keeps every event has them all, the latest first. -/
theorem foldl_record (events later : List Event) :
    events.foldl Event.record later = events.reverse ++ later := by
  induction events generalizing later with
  | nil => rfl
  | cons e events ih => rw [List.foldl_cons, ih, List.reverse_cons, List.append_assoc]; rfl

/-- **A run has one outcome and one course.** -/
theorem unique (h : Runs g n x c o events) (h' : Runs g n x c o' events') :
    o = o' ∧ events = events' := by
  obtain ⟨ho, hevents⟩ := Prod.mk.inj ((h.run Event.record []).symm.trans (h'.run Event.record []))
  rw [foldl_record, foldl_record, List.append_nil, List.append_nil, List.reverse_inj] at hevents
  exact ⟨ho, hevents⟩

end Runs

/-! ## Every part runs -/

section Exists

variable (hbody : ∀ d c, ∃ o events, Runs g n (body d) c o events)
include hbody

private theorem exists_runs_symbol (t : Term) (c : Cursor) :
    ∃ o events, Runs g n (symbol t) c o events := by
  rcases ht : t.symbol with text | name
  · by_cases hr : text <+: c.rest
    · obtain ⟨rest, hr⟩ := hr
      exact ⟨some ⟨⟨c.offset + byteLength text, rest⟩, []⟩, [], .literal ht hr.symm rfl⟩
    · exact ⟨_, _, .noLiteral ht hr⟩
  · rcases hd : g.find? name with _ | d
    · exact ⟨_, _, .unresolved ht hd⟩
    · obtain ⟨_ | m, events, h⟩ := hbody d c
      · exact ⟨_, _, .reference ht hd h.noRule⟩
      · exact ⟨_, _, .reference ht hd h.rule⟩

private theorem exists_runs_loop (t : Term) (count : Option Nat) (c : Cursor) :
    ∃ o events, Runs g n (loop t count) c o events := by
  -- an iteration that is followed by another leaves fewer characters in front
  induction hlength : c.rest.length using Nat.strongRecOn generalizing c count with
  | ind length ih =>
    obtain ⟨_ | m, events, h⟩ := exists_runs_symbol hbody t c
    · exact ⟨_, _, h.loopStop⟩
    · by_cases hstop : m.stop = c
      · exact ⟨_, _, h.loopEmpty hstop⟩
      · have hlt := h.reaches.length_lt fun ho => hstop (h.reaches.eq_of_offset_eq ho)
        obtain ⟨later, events', hlater⟩ := ih _ (hlength ▸ hlt) (count.map (· + 1)) m.stop rfl
        exact ⟨_, _, h.loopMore hstop hlater⟩

private theorem exists_runs_term (t : Term) (c : Cursor) :
    ∃ o events, Runs g n (term t) c o events := by
  obtain ⟨o, events, h⟩ := exists_runs_symbol hbody t c
  cases ht : t.repetition with
  | once => exact ⟨_, _, .once ht h⟩
  | optional =>
    cases o with
    | none => exact ⟨_, _, .noOptional ht h⟩
    | some m => exact ⟨_, _, .optional ht h⟩
  | zeroOrMore =>
    obtain ⟨o, events, hloop⟩ := exists_runs_loop hbody t none c
    exact ⟨_, _, .zeroOrMore ht hloop⟩
  | oneOrMore =>
    obtain ⟨o, events, hloop⟩ := exists_runs_loop hbody t (some 0) c
    exact ⟨_, _, .oneOrMore ht hloop⟩

private theorem exists_runs_sequence (terms : List Term) (c : Cursor) :
    ∃ o events, Runs g n (sequence terms) c o events := by
  induction terms generalizing c with
  | nil => exact ⟨_, _, .nil⟩
  | cons t terms ih =>
    obtain ⟨_ | m, events, h⟩ := exists_runs_term hbody t c
    · exact ⟨_, _, h.consFirst⟩
    · obtain ⟨_ | later, events', hlater⟩ := ih m.stop
      · exact ⟨_, _, h.consLater hlater⟩
      · exact ⟨_, _, h.cons hlater⟩

private theorem exists_runs_choice (alternatives : List (List Term)) (c : Cursor) :
    ∃ o events, Runs g n (choice alternatives) c o events := by
  induction alternatives with
  | nil => exact ⟨_, _, .noChoice⟩
  | cons terms alternatives ih =>
    obtain ⟨_ | m, events, h⟩ := exists_runs_sequence hbody terms c
    · obtain ⟨o, events', hlater⟩ := ih
      exact ⟨_, _, h.later hlater⟩
    · exact ⟨_, _, h.first⟩

end Exists

private theorem exists_runs_body (g : Grammar) (n : Nat) (d : Definition) (c : Cursor) :
    ∃ o events, Runs g n (body d) c o events := by
  induction n generalizing d c with
  | zero => exact ⟨_, _, .tooDeep⟩
  | succ n ih =>
    obtain ⟨o, events, h⟩ := exists_runs_choice ih d.alternatives c
    exact ⟨_, _, h.body⟩

/-- **Every part runs at every cursor.** -/
theorem exists_runs (g : Grammar) (n : Nat) (x : Goal) (c : Cursor) :
    ∃ o events, Runs g n x c o events := by
  have hbody := exists_runs_body g n
  cases x with
  | symbol t => exact exists_runs_symbol hbody t c
  | loop t count => exact exists_runs_loop hbody t count c
  | term t => exact exists_runs_term hbody t c
  | sequence terms => exact exists_runs_sequence hbody terms c
  | choice alternatives => exact exists_runs_choice hbody alternatives c
  | body d => exact hbody d c
  | rule d =>
    obtain ⟨_ | m, events, h⟩ := hbody d c
    · exact ⟨_, _, h.noRule⟩
    · exact ⟨_, _, h.rule⟩

/-! ## The limit -/

/-- What an observer can tell of the limit is whether a rule was refused. -/
theorem Gauge.quiet_foldl {note : Observer σ} {quiet : σ → Prop} (hq : Gauge note quiet)
    (events : List Event) (s : σ) : quiet (events.foldl note s) ↔
      quiet s ∧ ∀ rule offset, .tooDeep rule offset ∉ events := by
  induction events generalizing s with
  | nil => simp
  | cons event events ih =>
    simp only [List.foldl_cons, ih, hq.quiet_note, List.mem_cons, not_or, forall_and, and_assoc,
      ne_comm, ne_eq]

/-- The record of events can tell whether the limit was reached. -/
theorem Event.gauge :
    Gauge Event.record fun events => ∀ rule offset, .tooDeep rule offset ∉ events where
  quiet_note events e := by
    simp only [Event.record, List.mem_cons, not_or]
    constructor
    · exact fun h => ⟨fun rule offset => (h rule offset).2, fun rule offset he =>
        (h rule offset).1 he.symm⟩
    · exact fun h rule offset => ⟨fun he => h.2 rule offset he.symm, h.1 rule offset⟩

/-- **A run that does not reach its limit is the run with every higher limit.** -/
theorem Runs.mono (h : Runs g n x c o events) (hle : n ≤ k)
    (hquiet : ∀ rule offset, Event.tooDeep rule offset ∉ events) : Runs g k x c o events := by
  obtain ⟨o', events', h'⟩ := exists_runs g k x c
  have heq := (stable_run Event.gauge g hle x c [] (by
    simpa [h.run, Runs.foldl_record] using hquiet)).2
  rw [h.run, h'.run, Runs.foldl_record, Runs.foldl_record] at heq
  obtain ⟨rfl, hevents⟩ := Prod.mk.inj heq
  simp only [List.append_nil, List.reverse_inj] at hevents
  exact hevents ▸ h'

end OrderedBnf
