import OrderedBnf.Parse.Parser
import OrderedBnf.Proofs.Match.Horizon
import OrderedBnf.Proofs.Text.Returns

/-!
# Matching with carriage returns

A part of a grammar reads alike with returns and without (`ReadsAlike`) if, begun at the
same place of both forms of a text, it comes to an end in both or in neither, at the same
place, and what is remembered of the failures is the same. A literal does if no end of a
line stands in it, and each way to match does if its parts do. So all rules do that speak
of no ends of lines, with whatever levels (`ReadsAlike.of_speaksOf`); for others it is to
be shown of the terms that do speak of them.

The two runs need not take the same steps. They are compared by their results and by the
furthest failure, not by their events, because a rule for the end of a line misses a
literal in one form of the text that it matches in the other.
-/

namespace OrderedBnf

open Goal

/-- **A cursor in a text, and the one at the same place of the form with returns.** -/
structure SameCursor (text : List Char) (c c' : Cursor) : Prop where
  exists_before : ∃ before, text = before ++ c.rest ∧ c.offset = byteLength before ∧
    c'.offset = byteLength (withReturns before)
  rest_eq : c'.rest = withReturns c.rest

/-- **What is remembered of runs in both forms of a text**: failures at the same place. -/
structure SameProgress (text : List Char) (p p' : Progress) : Prop where
  samePlace : SamePlace text p.furthest p'.furthest
  expected_eq : p'.expected = p.expected
  tooDeep_eq : p'.tooDeep = p.tooDeep

/-- **Attempts in both forms of a text that have the same result.** -/
inductive SameResult (text : List Char) : Option Match × Progress → Option Match × Progress → Prop
  /-- Both fail, -/
  | fails {p p' : Progress} : SameProgress text p p' → SameResult text (none, p) (none, p')
  /-- or both stop at one place. -/
  | stops {m m' : Match} {p p' : Progress} : SameCursor text m.stop m'.stop →
      SameProgress text p p' → SameResult text (some m, p) (some m', p')

/-- **A part of a grammar that reads both forms of a text alike.** -/
def ReadsAlike (text : List Char) (g : Grammar) (n : Nat) (x : Goal) : Prop :=
  ∀ c c' p p', SameCursor text c c' → SameProgress text p p' →
    SameResult text (x.run Progress.note g n c p) (x.run Progress.note g n c' p')

variable {text chars rest : List Char} {g : Grammar} {n i i' : Nat} {x : Goal} {c c' : Cursor}
variable {p p' : Progress} {t : Term} {terms : List Term} {alternatives : List (List Term)}
variable {d : Definition} {name : String} {q : Char → Bool} {names : List String}

/-! ## Cursors -/

namespace SameCursor

theorem start (text : List Char) :
    SameCursor text (Cursor.start text) (Cursor.start (withReturns text)) :=
  ⟨⟨[], rfl, rfl, rfl⟩, rfl⟩

theorem samePlace (h : SameCursor text c c') : SamePlace text c.offset c'.offset := by
  obtain ⟨before, htext, ho, ho'⟩ := h.exists_before
  exact ⟨before, c.rest, htext, ho, ho'⟩

/-- The cursors behind a text that comes next. -/
theorem advance (h : SameCursor text c c') {taken : List Char} (hr : c.rest = taken ++ rest) :
    SameCursor text ⟨c.offset + byteLength taken, rest⟩
      ⟨c'.offset + byteLength (withReturns taken), withReturns rest⟩ := by
  obtain ⟨before, htext, ho, ho'⟩ := h.exists_before
  refine ⟨⟨before ++ taken, ?_, ?_, ?_⟩, rfl⟩
  · rw [htext, hr, List.append_assoc]
  · rw [ho, byteLength_append]
  · rw [ho', withReturns_append, byteLength_append]

end SameCursor

/-! ## Failures -/

namespace SameProgress

theorem start (text : List Char) : SameProgress text Progress.start Progress.start :=
  ⟨.start text, rfl, rfl⟩

/-- A literal that is missed at one place is remembered alike. -/
theorem miss (h : SameProgress text p p') (hi : SamePlace text i i') (source : String) :
    SameProgress text (p.miss i source) (p'.miss i' source) := by
  obtain ⟨hplace, hexpected, hdeep⟩ := h
  simp only [Progress.miss, hexpected, ← hplace.lt_iff hi, ← hi.eq_iff hplace]
  split
  · exact ⟨hi, rfl, hdeep⟩
  · split
    · exact ⟨hplace, rfl, hdeep⟩
    · exact ⟨hplace, hexpected, hdeep⟩

theorem tooDeep (h : SameProgress text p p') :
    SameProgress text { p with tooDeep := true } { p' with tooDeep := true } :=
  ⟨h.samePlace, h.expected_eq, rfl⟩

end SameProgress

/-! ## Ways to match -/

/-- A text without ends of lines comes next in both forms or in neither. -/
theorem isPrefix_withReturns_iff (h : ∀ a ∈ chars, a ≠ '\n' ∧ a ≠ '\r') :
    chars <+: withReturns rest ↔ chars <+: rest := by
  induction chars generalizing rest with
  | nil => simp
  | cons a chars ih =>
    obtain ⟨hfeed, hreturn⟩ := h a (by simp)
    cases rest with
    | nil => simp
    | cons b rest =>
      by_cases hb : b = '\n'
      · subst hb
        simp [hfeed, hreturn]
      · rw [withReturns_cons hb, List.cons_prefix_cons, List.cons_prefix_cons,
          ih fun a ha => h a (by simp [ha])]

/-- The nodes of a match are no matter of where it stops. -/
theorem SameResult.map {r r' : Option Match × Progress} (h : SameResult text r r')
    {f f' : Match → Match} (hf : ∀ m, (f m).stop = m.stop) (hf' : ∀ m, (f' m).stop = m.stop) :
    SameResult text (r.1.map f, r.2) (r'.1.map f', r'.2) := by
  cases h with
  | fails hp => exact .fails hp
  | stops hstop hp => exact .stops (by rwa [hf, hf']) hp

/-- Repetitions come to the same whose counters tell the same. -/
theorem SameResult.verdict {m m' : Match} {count count' : Option Nat}
    (hcount : (∀ k ∈ count', Matcher.Counted k) ↔ ∀ k ∈ count, Matcher.Counted k)
    (hstop : SameCursor text m.stop m'.stop) (hp : SameProgress text p p') :
    SameResult text (Matcher.verdict count m, p) (Matcher.verdict count' m', p') := by
  by_cases hcounted : ∀ k ∈ count, Matcher.Counted k
  · rw [Matcher.verdict_of_counted hcounted, Matcher.verdict_of_counted (hcount.2 hcounted)]
    exact .stops hstop hp
  · rw [Matcher.verdict_of_not_counted hcounted,
      Matcher.verdict_of_not_counted (mt hcount.1 hcounted)]
    exact .fails hp

namespace ReadsAlike

/-- What a part comes to at the same place of both forms. -/
theorem results (hx : ReadsAlike text g n x) (hc : SameCursor text c c')
    (hp : SameProgress text p p') :
    (∃ q q', x.run Progress.note g n c p = (none, q) ∧
      x.run Progress.note g n c' p' = (none, q') ∧ SameProgress text q q') ∨
    ∃ m m' q q', x.run Progress.note g n c p = (some m, q) ∧
      x.run Progress.note g n c' p' = (some m', q') ∧ SameCursor text m.stop m'.stop ∧
      SameProgress text q q' := by
  have h := hx c c' p p' hc hp
  generalize x.run Progress.note g n c p = r at h ⊢
  generalize x.run Progress.note g n c' p' = r' at h ⊢
  cases h with
  | fails hq => exact .inl ⟨_, _, rfl, rfl, hq⟩
  | stops hstop hq => exact .inr ⟨_, _, _, _, rfl, rfl, hstop, hq⟩

theorem literal (ht : t.symbol = .literal chars) (h : ∀ a ∈ chars, a ≠ '\n' ∧ a ≠ '\r') :
    ReadsAlike text g n (symbol t) := by
  intro c c' p p' hc hp
  rw [run_literal ht, run_literal ht, Matcher.literal, Matcher.literal]
  by_cases hnext : chars <+: c.rest
  · obtain ⟨rest, hrest⟩ := hnext
    have hplain : withReturns chars = chars :=
      withReturns_of_not_mem fun hmem => (h _ hmem).1 rfl
    have hrest' : c'.rest = chars ++ withReturns rest := by
      rw [hc.rest_eq, ← hrest, withReturns_append, hplain]
    have hstop : c.advance? chars = some ⟨c.offset + byteLength chars, rest⟩ :=
      Cursor.advance?_eq_some_iff.2 ⟨hrest.symm, rfl⟩
    have hstop' : c'.advance? chars =
        some ⟨c'.offset + byteLength (withReturns chars), withReturns rest⟩ :=
      Cursor.advance?_eq_some_iff.2 ⟨hrest', by rw [hplain]⟩
    rw [hstop, hstop']
    exact .stops (hc.advance hrest.symm) hp
  · have hnext' : ¬ chars <+: c'.rest := by
      rwa [hc.rest_eq, isPrefix_withReturns_iff h]
    rw [Cursor.advance?_eq_none_iff.2 hnext, Cursor.advance?_eq_none_iff.2 hnext']
    exact .fails (hp.miss hc.samePlace t.source)

theorem unresolved (ht : t.symbol = .reference name) (hd : g.find? name = none) :
    ReadsAlike text g n (symbol t) := by
  intro c c' p p' _ hp
  rw [run_unresolved ht hd, run_unresolved ht hd]
  exact .fails hp

theorem reference (ht : t.symbol = .reference name) (hd : g.find? name = some d)
    (h : ReadsAlike text g n (rule d)) : ReadsAlike text g n (symbol t) := by
  intro c c' p p' hc hp
  rw [run_reference ht hd, run_reference ht hd]
  exact h c c' p p' hc hp

theorem rule (h : ReadsAlike text g n (body d)) : ReadsAlike text g n (rule d) := by
  intro c c' p p' hc hp
  rw [run_rule, run_rule]
  exact (h c c' p p' hc hp).map (Grammar.stop_wrap d c) (Grammar.stop_wrap d c')

theorem body_zero : ReadsAlike text g 0 (body d) :=
  fun _ _ _ _ _ hp => .fails hp.tooDeep

/-- Where attempts begin and end is not remembered. -/
theorem body_succ (h : ReadsAlike text g n (choice d.alternatives)) :
    ReadsAlike text g (n + 1) (body d) :=
  fun c c' p p' hc hp => h c c' p p' hc hp

theorem choice (h : ∀ terms ∈ alternatives, ReadsAlike text g n (sequence terms)) :
    ReadsAlike text g n (choice alternatives) := by
  intro c c' p p' hc hp
  induction alternatives generalizing p p' with
  | nil => exact .fails hp
  | cons terms alternatives ih =>
    obtain ⟨hfirst, hlater⟩ := List.forall_mem_cons.1 h
    rcases hfirst.results hc hp with ⟨q, q', hq, hq', hsame⟩ | ⟨m, m', q, q', hq, hq', hstop, hsame⟩
    · rw [run_choice_of_none hq, run_choice_of_none hq']
      exact ih hlater q q' hsame
    · rw [run_choice_of_some hq, run_choice_of_some hq']
      exact .stops hstop hsame

theorem sequence (h : ∀ t ∈ terms, ReadsAlike text g n (term t)) :
    ReadsAlike text g n (sequence terms) := by
  intro c c' p p' hc hp
  induction terms generalizing c c' p p' with
  | nil => exact .stops hc hp
  | cons t terms ih =>
    obtain ⟨hfirst, hlater⟩ := List.forall_mem_cons.1 h
    rcases hfirst.results hc hp with ⟨q, q', hq, hq', hsame⟩ | ⟨m, m', q, q', hq, hq', hstop, hsame⟩
    · rw [run_sequence_of_none hq, run_sequence_of_none hq']
      exact .fails hsame
    · rw [run_sequence_of_some hq, run_sequence_of_some hq']
      exact (ih hlater m.stop m'.stop q q' hstop hsame).map (fun _ => rfl) fun _ => rfl

/-- A repetition reads alike with its symbol, in as many iterations, and so does a term. -/
theorem loop (h : ReadsAlike text g n (symbol t)) (count : Option Nat) :
    ReadsAlike text g n (loop t count) := by
  intro c c' p p' hc hp
  -- an iteration that is followed by another leaves fewer characters in front
  induction hlength : c.rest.length using Nat.strongRecOn generalizing c c' p p' count with
  | ind length ih =>
    rcases h.results hc hp with ⟨q, q', hq, hq', hsame⟩ | ⟨m, m', q, q', hq, hq', hstop, hsame⟩
    · rw [run_loop_of_none hq, run_loop_of_none hq']
      exact .verdict Iff.rfl hc hsame
    · have hplace := hstop.samePlace.eq_iff hc.samePlace
      by_cases hmoved : m.stop.offset = c.offset
      · rw [run_loop_of_empty hq hmoved, run_loop_of_empty hq' (hplace.1 hmoved)]
        exact .verdict Iff.rfl hstop hsame
      · have hreaches := advances_run Progress.note g n (symbol t) c p m (by rw [hq])
        have hlt := hlength ▸ hreaches.length_lt hmoved
        rw [run_loop_of_some hq hmoved, run_loop_of_some hq' fun heq => hmoved (hplace.2 heq)]
        exact (ih _ hlt _ m.stop m'.stop q q' hstop hsame rfl).map (fun _ => rfl) fun _ => rfl

theorem once (ht : t.repetition = .once) (h : ReadsAlike text g n (symbol t)) :
    ReadsAlike text g n (term t) := by
  intro c c' p p' hc hp
  rw [run_once ht, run_once ht]
  exact h c c' p p' hc hp

theorem optional (ht : t.repetition = .optional) (h : ReadsAlike text g n (symbol t)) :
    ReadsAlike text g n (term t) := by
  intro c c' p p' hc hp
  rcases h.results hc hp with ⟨q, q', hq, hq', hsame⟩ | ⟨m, m', q, q', hq, hq', hstop, hsame⟩
  · rw [run_optional_of_none ht hq, run_optional_of_none ht hq']
    exact .stops hc hsame
  · rw [run_optional_of_some ht hq, run_optional_of_some ht hq']
    exact .stops hstop hsame

theorem zeroOrMore (ht : t.repetition = .zeroOrMore) (h : ReadsAlike text g n (Goal.many t)) :
    ReadsAlike text g n (term t) := by
  intro c c' p p' hc hp
  rw [run_zeroOrMore ht, run_zeroOrMore ht]
  exact h c c' p p' hc hp

theorem oneOrMore (ht : t.repetition = .oneOrMore)
    (h : ReadsAlike text g n (Goal.loop t (some 0))) : ReadsAlike text g n (term t) := by
  intro c c' p p' hc hp
  rw [run_oneOrMore ht, run_oneOrMore ht]
  exact h c c' p p' hc hp

theorem term (h : ReadsAlike text g n (symbol t)) : ReadsAlike text g n (term t) := by
  cases ht : t.repetition with
  | once => exact h.once ht
  | optional => exact h.optional ht
  | zeroOrMore => exact (h.loop none).zeroOrMore ht
  | oneOrMore => exact (h.loop (some 0)).oneOrMore ht

end ReadsAlike

/-! ## Rules that speak of no ends of lines -/

section SpeaksOf

variable (hq : ∀ a, q a = true → a ≠ '\n' ∧ a ≠ '\r')
include hq

private theorem readsAlike_symbol (t : Term) (ht : t.speaksOf q names = true)
    (hbody : ∀ d ∈ g, d.name ∈ names → ReadsAlike text g n (body d)) :
    ReadsAlike text g n (symbol t) := by
  cases hs : t.symbol with
  | literal chars =>
    have hall : ∀ a ∈ chars, q a = true := by simpa [Term.speaksOf, hs] using ht
    exact .literal hs fun a ha => hq a (hall a ha)
  | reference name =>
    cases hd : g.find? name with
    | none => exact .unresolved hs hd
    | some d =>
      have hforce := Grammar.find?_eq_some_iff.1 hd
      have hname : name ∈ names := by simpa [Term.speaksOf, hs] using ht
      exact .reference hs hd (hbody d hforce.mem (hforce.name_eq ▸ hname)).rule

variable (hg : g.SpeaksOf q names)
include hg

private theorem readsAlike_body (n : Nat) (d : Definition) (hd : d ∈ g) (hname : d.name ∈ names) :
    ReadsAlike text g n (body d) := by
  induction n generalizing d with
  | zero => exact .body_zero
  | succ n ih =>
    refine .body_succ (.choice fun terms hterms => .sequence fun t ht => .term ?_)
    exact readsAlike_symbol hq t (hg d hd hname t (List.mem_flatten.2 ⟨terms, hterms, ht⟩)) ih

/-- **A term that speaks of no end of a line reads alike**, with whatever levels. -/
theorem ReadsAlike.of_speaksOf (n : Nat) (ht : t.speaksOf q names = true) :
    ReadsAlike text g n (Goal.term t) :=
  (readsAlike_symbol hq t ht (readsAlike_body hq hg n)).term

end SpeaksOf

/-! ## Reports -/

namespace Parser

/-- **The report of input left over is the same.** -/
theorem leftover_withReturns (hi : SamePlace text i i') (hp : SameProgress text p p') :
    leftover (withReturns text) i' p' = leftover text i p := by
  obtain ⟨before, after, rfl, hplace, hplace'⟩ := hp.samePlace.max hi
  rw [leftover, leftover, hplace, hplace', hp.expected_eq]
  simp only [← hi.le_iff hp.samePlace, Position.advance_withReturns]
  rw [withReturns_append, takeBytes_byteLength, takeBytes_byteLength, List.drop_left,
    List.drop_left, Problem.excerpt_withReturns]

/-- And so are all problems. -/
theorem problems_withReturns (limit : Nat) (hc : SameCursor text c c')
    (hp : SameProgress text p p') :
    problems limit (withReturns text) c' p' = problems limit text c p := by
  have hempty : c'.rest.isEmpty = c.rest.isEmpty := by
    rw [hc.rest_eq, Bool.eq_iff_iff, List.isEmpty_iff, List.isEmpty_iff, withReturns_eq_nil_iff]
  rw [problems, problems, hempty, leftover_withReturns hc.samePlace hp, hp.tooDeep_eq]

/-- **A definition that reads both forms of a text alike** has a parse of both or of
neither, with the same problems. -/
theorem map_problems_withReturns (parser : Parser)
    (h : ReadsAlike text parser.grammar parser.options.maxDepth (body d)) :
    (parser.parseDefinition (withReturns text) d).map Parse.problems =
      (parser.parseDefinition text d).map Parse.problems := by
  have hrun : ∀ text, parser.run text d = (body d).run Progress.note parser.grammar
      parser.options.maxDepth (Cursor.start text) Progress.start := fun _ => rfl
  rcases h.results (.start text) (.start text) with
    ⟨q, q', hq, hq', -⟩ | ⟨m, m', q, q', hq, hq', hstop, hsame⟩
  · rw [parseDefinition, parseDefinition, hrun, hrun, hq, hq']
  · rw [parseDefinition, parseDefinition, hrun, hrun, hq, hq']
    exact congrArg some (problems_withReturns _ hstop hsame)

end Parser

end OrderedBnf
