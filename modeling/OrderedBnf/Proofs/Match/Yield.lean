import OrderedBnf.Proofs.Match.Take

/-!
# What goals take, on every text

`Takes` is about one text. `Yields` is about all of them: a goal settles on
whatever text it is given, and when it takes something, that is a text of a
known form. Forms are composed as goals are, by concatenation, alternation
and repetition, so the language of a rule can be read off the rule.

Only texts up to some length are looked at, because a rule that refers to
itself is known to yield on shorter texts first.
-/

namespace OrderedBnf

open Goal

/-- A goal that settles at a cursor, and if it takes a text, then one of a form. -/
def YieldsAt (g : Grammar) (x : Goal) (P : List Char → Prop) (c : Cursor) : Prop :=
  ∃ o needed, Settles g x c o needed ∧
    ∀ m, o = some m → ∃ text, c.rest = text ++ m.stop.rest ∧ P text

/-- **A goal that settles on every text**, up to a length, and takes only texts
of a form. -/
def Yields (g : Grammar) (x : Goal) (P : List Char → Prop) (length : Nat) : Prop :=
  ∀ c : Cursor, c.rest.length ≤ length → YieldsAt g x P c

/-- Two forms, one behind the other. -/
def Joined (P Q : List Char → Prop) (text : List Char) : Prop :=
  ∃ a b, text = a ++ b ∧ P a ∧ Q b

/-- A form, so many times. -/
inductive Repeated (P : List Char → Prop) : Nat → List Char → Prop
  | nil : Repeated P 0 []
  | cons {k : Nat} {a b : List Char} : P a → Repeated P k b → Repeated P (k + 1) (a ++ b)

/-- A repetition that comes to its end, and what it takes. -/
def LoopsAt (g : Grammar) (t : Term) (P : List Char → Prop) (c : Cursor) : Prop :=
  ∃ k m needed, Loops g t c k m needed ∧ ∃ text, c.rest = text ++ m.stop.rest ∧ Repeated P k text

variable {g : Grammar} {x : Goal} {t : Term} {terms : List Term}
variable {alternatives : List (List Term)} {d : Definition}
variable {P Q : List Char → Prop} {n k : Nat}

namespace Yields

theorem mono (h : Yields g x P n) (hPQ : ∀ text, P text → Q text) : Yields g x Q n := by
  intro c hc
  obtain ⟨o, needed, hs, hP⟩ := h c hc
  refine ⟨o, needed, hs, fun m hm => ?_⟩
  obtain ⟨text, htext, hp⟩ := hP m hm
  exact ⟨text, htext, hPQ text hp⟩

/-- A goal that settles as another does takes what the other takes. -/
theorem lift {y : Goal} (h : Yields g y P n)
    (hsettles : ∀ c o needed, Settles g y c o needed → Settles g x c o needed) :
    Yields g x P n := by
  intro c hc
  obtain ⟨o, needed, hs, hP⟩ := h c hc
  exact ⟨o, needed, hsettles c o needed hs, hP⟩

theorem once (hr : t.repetition = .once) (h : Yields g (symbol t) P n) :
    Yields g (term t) P n :=
  h.lift fun _ _ _ => .once hr

/-- A character of a class is a text of one. -/
theorem ofReads {p : Char → Prop} {needed : Nat} (h : Reads g x p needed) (n : Nat) :
    Yields g x (fun text => ∃ a, p a ∧ text = [a]) n := by
  intro c _
  by_cases hb : Begins p c.rest
  · obtain ⟨a, rest, hrest, ha⟩ := hb
    obtain ⟨l, -, stop, hstop, hs⟩ := h.takes hrest ha
    refine ⟨_, l, hs, ?_⟩
    rintro m ⟨⟩
    exact ⟨[a], by rw [hrest, hstop]; rfl, a, ha, rfl⟩
  · exact ⟨none, needed, h.fails hb, nofun⟩

theorem literal {text : List Char} (ht : t.symbol = .literal text) (hr : t.repetition = .once)
    (n : Nat) : Yields g (term t) (· = text) n := by
  intro c _
  by_cases hp : text <+: c.rest
  · obtain ⟨rest, hrest⟩ := hp
    obtain ⟨stop, hstop, hs⟩ := takes_literal (g := g) ht hr hrest.symm
    refine ⟨_, 0, hs, ?_⟩
    rintro m ⟨⟩
    exact ⟨text, by rw [← hrest, hstop], rfl⟩
  · exact ⟨none, 0, settles_literal_none ht hr hp, nofun⟩

/-- **A rule takes what its alternatives take.** -/
theorem body (h : Yields g (choice d.alternatives) P n) : Yields g (Goal.body d) P n := by
  intro c hc
  obtain ⟨o, needed, hs, hP⟩ := h c hc
  exact ⟨o, needed + 1, hs.body, hP⟩

theorem reference {name : String} (ht : t.symbol = .reference name)
    (hd : g.find? name = some d) (h : Yields g (choice d.alternatives) P n) :
    Yields g (symbol t) P n := by
  intro c hc
  obtain ⟨o, needed, hs, hP⟩ := h.body c hc
  refine ⟨_, needed, hs.rule.reference ht hd, fun m hm => ?_⟩
  obtain ⟨m', hm', rfl⟩ := Option.map_eq_some_iff.1 hm
  obtain ⟨text, htext, hp⟩ := hP m' hm'
  exact ⟨text, by rw [Grammar.stop_wrap]; exact htext, hp⟩

/-! ## Sequence and choice -/

theorem sequence_nil (n : Nat) : Yields g (sequence []) (· = []) n := by
  intro c _
  refine ⟨_, 0, .sequence_nil, ?_⟩
  rintro m ⟨⟩
  exact ⟨[], rfl, rfl⟩

/-- The rest of a sequence is only asked about what the first term leaves. -/
theorem sequence_cons (h : Yields g (term t) P n) (hlater : Yields g (sequence terms) Q k)
    (hk : ∀ text, P text → n ≤ k + text.length) :
    Yields g (sequence (t :: terms)) (Joined P Q) n := by
  intro c hc
  obtain ⟨o, n₁, hs, hP⟩ := h c hc
  cases o with
  | none => exact ⟨none, n₁, hs.sequence_none, nofun⟩
  | some m =>
    obtain ⟨a, ha, hPa⟩ := hP m rfl
    have hlength : c.rest.length = a.length + m.stop.rest.length := by rw [ha, List.length_append]
    have hstop : m.stop.rest.length ≤ k := by
      have := hk a hPa
      omega
    obtain ⟨o, n₂, hs', hQ⟩ := hlater m.stop hstop
    refine ⟨_, _, hs.sequence_some hs', fun m' hm' => ?_⟩
    obtain ⟨m'', rfl, rfl⟩ := Option.map_eq_some_iff.1 hm'
    obtain ⟨b, hb, hQb⟩ := hQ m'' rfl
    exact ⟨a ++ b, by rw [ha, hb, List.append_assoc], a, b, rfl, hPa, hQb⟩

/-- Without recursion lengths do not matter. -/
theorem andThen (h : Yields g (term t) P n) (hlater : Yields g (sequence terms) Q n) :
    Yields g (sequence (t :: terms)) (Joined P Q) n :=
  h.sequence_cons hlater fun _ _ => Nat.le_add_right _ _

theorem sequence_one (h : Yields g (term t) P n) : Yields g (sequence [t]) P n :=
  h.lift fun _ _ _ => .sequence_one

theorem choice_nil (n : Nat) : Yields g (choice []) (fun _ => False) n :=
  fun _ _ => ⟨none, 0, .choice_nil, nofun⟩

theorem choice_cons (h : Yields g (sequence terms) P n)
    (hlater : Yields g (choice alternatives) Q n) :
    Yields g (choice (terms :: alternatives)) (fun text => P text ∨ Q text) n := by
  intro c hc
  obtain ⟨o, n₁, hs, hP⟩ := h c hc
  cases o with
  | none =>
    obtain ⟨o, n₂, hs', hQ⟩ := hlater c hc
    refine ⟨o, _, hs.choice_none hs', fun m hm => ?_⟩
    obtain ⟨text, htext, hq⟩ := hQ m hm
    exact ⟨text, htext, .inr hq⟩
  | some m =>
    refine ⟨some m, n₁, hs.choice_some, fun m' hm' => ?_⟩
    obtain ⟨text, htext, hp⟩ := hP m' hm'
    exact ⟨text, htext, .inl hp⟩

theorem choice_one (h : Yields g (sequence terms) P n) : Yields g (choice [terms]) P n :=
  (h.choice_cons (.choice_nil n)).mono fun _ hp => hp.resolve_right not_false

/-! ## Repetition -/

/-- **A repetition takes its form over and over.** -/
theorem loops (h : Yields g (symbol t) P n) {c : Cursor} (hc : c.rest.length ≤ n) :
    LoopsAt g t P c := by
  -- what is left after an iteration is shorter, or the iteration was the last
  induction hl : c.rest.length using Nat.strongRecOn generalizing c with
  | _ l ih =>
    obtain ⟨o, needed, hs, hP⟩ := h c hc
    cases o with
    | none => exact ⟨0, _, needed, .stop hs, [], rfl, .nil⟩
    | some m =>
      obtain ⟨a, ha, hPa⟩ := hP m rfl
      by_cases ho : m.stop.offset = c.offset
      · exact ⟨1, m, needed, .last hs ho, a ++ [], by rwa [List.append_nil], .cons hPa .nil⟩
      · have hlt : m.stop.rest.length < c.rest.length := hs.reaches.length_lt ho
        obtain ⟨k, later, needed', hloops, b, hb, hrepeated⟩ := ih _ (hl ▸ hlt) (by omega) rfl
        exact ⟨k + 1, _, _, hloops.more hs ho, a ++ b, by rw [ha, hb, List.append_assoc],
          .cons hPa hrepeated⟩

theorem zeroOrMore (hr : t.repetition = .zeroOrMore) (h : Yields g (symbol t) P n) :
    Yields g (term t) (fun text => ∃ k, Repeated P k text) n := by
  intro c hc
  obtain ⟨k, m, needed, hloops, text, htext, hrepeated⟩ := h.loops hc
  refine ⟨_, needed, hloops.zeroOrMore hr, ?_⟩
  rintro m' ⟨⟩
  exact ⟨text, htext, k, hrepeated⟩

theorem oneOrMore (hr : t.repetition = .oneOrMore) (h : Yields g (symbol t) P n) :
    Yields g (term t) (fun text => ∃ k, Matcher.Counted k ∧ Repeated P k text) n := by
  intro c hc
  obtain ⟨k, m, needed, hloops, text, htext, hrepeated⟩ := h.loops hc
  refine ⟨_, needed, hloops.oneOrMore hr, fun m' hm' => ?_⟩
  split at hm'
  · obtain rfl := Option.some.inj hm'
    exact ⟨text, htext, k, ‹_›, hrepeated⟩
  · cases hm'

end Yields

/-! ## Runs of a class -/

theorem forall_mem_of_repeated {p : Char → Prop} {k : Nat} {text : List Char}
    (h : Repeated (fun text => ∃ a, p a ∧ text = [a]) k text) :
    text.length = k ∧ ∀ a ∈ text, p a := by
  induction h with
  | nil => simp
  | cons hb _ ih =>
    obtain ⟨b, hb, rfl⟩ := hb
    simpa [hb] using ih

/-- **A repetition of one character takes a run of its class.** -/
theorem Reads.yields_run {p : Char → Prop} {needed : Nat} (h : Reads g (symbol t) p needed)
    (hr : t.repetition = .zeroOrMore) (n : Nat) :
    Yields g (term t) (fun text => ∀ a ∈ text, p a) n :=
  ((Yields.ofReads h n).zeroOrMore hr).mono fun _ ⟨_, htext⟩ => (forall_mem_of_repeated htext).2

/-- **Once or more takes a run whose length is counted.** -/
theorem Reads.yields_counted_run {p : Char → Prop} {needed : Nat}
    (h : Reads g (symbol t) p needed) (hr : t.repetition = .oneOrMore) (n : Nat) :
    Yields g (term t) (fun text => Matcher.Counted text.length ∧ ∀ a ∈ text, p a) n := by
  refine ((Yields.ofReads h n).oneOrMore hr).mono ?_
  rintro text ⟨k, hk, htext⟩
  obtain ⟨rfl, hall⟩ := forall_mem_of_repeated htext
  exact ⟨hk, hall⟩

end OrderedBnf
