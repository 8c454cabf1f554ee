import OrderedBnf.Proofs.Match.History
import OrderedBnf.Proofs.Match.Take

/-!
# How far a part of a grammar sees

A part whose literals are made of characters of a class, like those of the rules that
it refers to, sees no further than the first character that is not of the class. What
comes from there on may be cut off or be any other text: the run is the same, event
by event, whether it succeeds or fails (`Runs.extend`). This is what an ordered choice
does not allow in general, where a text that is cut off can make an earlier
alternative match.

So such a part misses no literal behind that character (`Runs.missesUpTo`).
-/

namespace OrderedBnf

open Goal

/-! ## Terms of a class of characters -/

/-- Whether a term is a literal of characters of a class, or a name from a list. -/
def Term.speaksOf (p : Char → Bool) (names : List String) (t : Term) : Bool :=
  match t.symbol with
  | .literal text => text.all p
  | .reference name => decide (name ∈ names)

/-- **The rules of some names speak of a class of characters**, and of no other names. -/
def Grammar.SpeaksOf (g : Grammar) (p : Char → Bool) (names : List String) : Prop :=
  ∀ d ∈ g, d.name ∈ names → ∀ t ∈ d.terms, t.speaksOf p names = true

instance (g : Grammar) (p : Char → Bool) (names : List String) : Decidable (g.SpeaksOf p names) :=
  inferInstanceAs (Decidable (∀ d ∈ g, d.name ∈ names → ∀ t ∈ d.terms, t.speaksOf p names = true))

/-! ## More text -/

/-- A cursor in a text that goes on. -/
def Cursor.extend (c : Cursor) (later : List Char) : Cursor := ⟨c.offset, c.rest ++ later⟩

/-- A match in a text that goes on. -/
def Match.extend (m : Match) (later : List Char) : Match := ⟨m.stop.extend later, m.nodes⟩

variable {g : Grammar} {n : Nat} {x : Goal} {c c' : Cursor} {o : Option Match} {m : Match}
variable {events first : List Event} {p : Char → Bool} {names : List String}
variable {text later : List Char} {as bs : List Term} {t : Term} {d : Definition}

@[simp] theorem Cursor.extend_inj : c.extend later = c'.extend later ↔ c = c' := by
  cases c
  cases c'
  simp [extend]

theorem Match.extend_wrap (h : c.Reaches m.stop) :
    (m.wrap d c).extend later = (m.extend later).wrap d (c.extend later) := by
  obtain ⟨taken, hr, ho⟩ := h
  have hr' : (c.extend later).rest = taken ++ (m.stop.extend later).rest := by
    simp [Cursor.extend, hr]
  cases hd : d.isFragment with
  | true => rw [wrap_of_fragment hd, wrap_of_fragment hd]
  | false =>
    rw [wrap_of_not_fragment hd hr ho]
    exact (wrap_of_not_fragment (m := m.extend later) hd hr' ho).symm

/-- A text of a class does not reach past the first character that is not of it. -/
theorem isPrefix_append_iff (htext : ∀ a ∈ text, p a = true) {rest : List Char}
    (hlater : ¬ Begins (p · = true) later) : text <+: rest ++ later ↔ text <+: rest := by
  refine ⟨fun h => ?_, fun h => h.trans (List.prefix_append rest later)⟩
  rcases List.prefix_or_prefix_of_prefix h (List.prefix_append rest later) with h' | ⟨taken, rfl⟩
  · exact h'
  · cases taken with
    | nil => simp
    | cons a taken =>
      obtain ⟨rest', rfl⟩ := (List.prefix_append_right_inj rest).1 h
      exact absurd (begins_cons.2 (htext a (by simp))) hlater

/-- A text begins with the longest run of a class. -/
theorem exists_longest (p : Char → Prop) (text : List Char) :
    ∃ taken rest, text = taken ++ rest ∧ (∀ a ∈ taken, p a) ∧ ¬ Begins p rest := by
  induction text with
  | nil => exact ⟨[], [], rfl, by simp, begins_nil⟩
  | cons a text ih =>
    by_cases ha : p a
    · obtain ⟨taken, rest, rfl, htaken, hrest⟩ := ih
      exact ⟨a :: taken, rest, rfl, List.forall_mem_cons.2 ⟨ha, htaken⟩, hrest⟩
    · exact ⟨[], a :: text, rfl, by simp, by rwa [begins_cons]⟩

/-- **What is not seen does not matter**: a run on a text is the run on a longer one. -/
theorem Runs.extend (h : Runs g n x c o events) (hg : g.SpeaksOf p names)
    (hx : ∀ t ∈ x.terms, t.speaksOf p names = true) (later : List Char)
    (hlater : ¬ Begins (p · = true) later) :
    Runs g n x (c.extend later) (o.map (·.extend later)) events := by
  induction h with
  | literal ht hr ho => exact .literal ht (by simp [Cursor.extend, hr]) ho
  | @noLiteral n t text c ht hr =>
    have htext : ∀ a ∈ text, p a = true := by
      have := hx t (List.mem_singleton_self _)
      simpa [Term.speaksOf, ht] using this
    exact .noLiteral (c := c.extend later) ht fun h => hr ((isPrefix_append_iff htext hlater).1 h)
  | @reference n t name d c o events ht hd _ ih =>
    have hforce := Grammar.find?_eq_some_iff.1 hd
    have hname : d.name ∈ names := by
      have := hx t (List.mem_singleton_self _)
      rw [hforce.name_eq]
      simpa [Term.speaksOf, ht] using this
    exact .reference ht hd (ih (hg d hforce.mem hname))
  | unresolved ht hd => exact .unresolved ht hd
  | loopStop _ ih =>
    rw [Matcher.map_verdict]
    exact (ih hx).loopStop
  | loopEmpty _ hstop ih =>
    rw [Matcher.map_verdict]
    exact (ih hx).loopEmpty (Cursor.extend_inj.2 hstop)
  | loopMore _ hstop _ ih ihlater =>
    simpa [Match.extend, Function.comp_def] using
      (ih hx).loopMore (fun heq => hstop (Cursor.extend_inj.1 heq)) (ihlater hx)
  | once ht _ ih => exact .once ht (ih hx)
  | optional ht _ ih => exact .optional ht (ih hx)
  | noOptional ht _ ih => exact .noOptional ht (ih hx)
  | zeroOrMore ht _ ih => exact .zeroOrMore ht (ih hx)
  | oneOrMore ht _ ih => exact .oneOrMore ht (ih hx)
  | nil => exact .nil
  | cons _ _ ih ihlater =>
    obtain ⟨hfirst, hrest⟩ := forall_terms_sequence.1 hx
    exact (ih hfirst).cons (ihlater hrest)
  | consFirst _ ih => exact (ih (forall_terms_sequence.1 hx).1).consFirst
  | consLater _ _ ih ihlater =>
    obtain ⟨hfirst, hrest⟩ := forall_terms_sequence.1 hx
    exact (ih hfirst).consLater (ihlater hrest)
  | noChoice => exact .noChoice
  | first _ ih => exact (ih (forall_terms_choice.1 hx).1).first
  | later _ _ ih ihlater =>
    obtain ⟨hfirst, hrest⟩ := forall_terms_choice.1 hx
    exact (ih hfirst).later (ihlater hrest)
  | tooDeep => exact .tooDeep
  | body _ ih => exact (ih hx).body
  | noRule _ ih => exact (ih hx).noRule
  | rule h ih =>
    rw [Option.map_some, Match.extend_wrap h.reaches]
    exact (ih hx).rule

/-! ## Literals that are missed -/

/-- No literal is missed behind an offset. -/
def MissesUpTo (bound : Nat) (events : List Event) : Prop :=
  ∀ offset source, .miss offset source ∈ events → offset ≤ bound

theorem MissesUpTo.append {bound bound' : Nat} {later : List Event}
    (h : MissesUpTo bound events) (h' : MissesUpTo bound' later) (hle : bound ≤ bound') :
    MissesUpTo bound' (events ++ later) := by
  intro offset source hmem
  rcases List.mem_append.1 hmem with hmem | hmem
  · exact Nat.le_trans (h offset source hmem) hle
  · exact h' offset source hmem

theorem MissesUpTo.mono {bound bound' : Nat} (h : MissesUpTo bound events) (hle : bound ≤ bound') :
    MissesUpTo bound' events :=
  fun offset source hmem => Nat.le_trans (h offset source hmem) hle

/-- The attempt that a body is adds no miss. -/
theorem MissesUpTo.body {bound : Nat} {name : String} {offset : Nat} (h : MissesUpTo bound events) :
    MissesUpTo bound (.enter name offset :: events ++ [.leave]) := by
  intro place source hmem
  exact h place source (by simpa using hmem)

/-- **A run misses nothing behind its text.** -/
theorem Runs.missesUpTo (h : Runs g n x c o events) (hx : x.BelongsTo g) :
    MissesUpTo (c.offset + byteLength c.rest) events := by
  intro offset source hmem
  obtain ⟨-, -, c', -, -, -, ⟨taken, hr, ho⟩, rfl, -⟩ := (h.history hx (.refl c)).of_miss_mem hmem
  rw [hr, byteLength_append]
  omega

/-! ## Sequences in two parts -/

/-- A sequence that fails fails whatever follows it, -/
theorem Runs.sequence_append_none (h : Runs g n (sequence as) c none events) :
    Runs g n (sequence (as ++ bs)) c none events := by
  induction as generalizing c events with
  | nil => cases h
  | cons a as ih =>
    cases h with
    | consFirst h => exact h.consFirst
    | consLater h hlater => exact h.consLater (ih hlater)

/-- and one that matches is followed by the rest. -/
theorem Runs.sequence_append_some (h : Runs g n (sequence as) c (some m) first)
    (hlater : Runs g n (sequence bs) m.stop o events) :
    Runs g n (sequence (as ++ bs)) c (o.map fun later => ⟨later.stop, m.nodes ++ later.nodes⟩)
      (first ++ events) := by
  induction as generalizing c m first with
  | nil =>
    cases h
    cases o <;> exact hlater
  | cons a as ih =>
    cases h with
    | cons h h' =>
      have hrest := ih h' hlater
      cases o with
      | none => simpa using h.consLater hrest
      | some later => simpa using h.cons hrest

/-! ## Runs of what is read -/

/-- What settles runs in that way, with levels enough. -/
theorem Settles.exists_runs {needed : Nat} (h : Settles g x c o needed) (hle : needed ≤ n) :
    ∃ events, Runs g n x c o events := by
  obtain ⟨o', events, h'⟩ := OrderedBnf.exists_runs g n x c
  have hout := (h n .start rfl).2 hle
  rw [h'.run] at hout
  exact ⟨events, hout ▸ h'⟩

/-- **A part that takes all characters of its class** stops where they end and misses
nothing behind, whatever comes next. -/
theorem Takes.exists_runs {offset needed : Nat} {nodes : List Node}
    (h : Takes g x ⟨offset, text⟩ [] nodes needed) (hle : needed ≤ n) (hbelongs : x.BelongsTo g)
    (hg : g.SpeaksOf p names) (hx : ∀ t ∈ x.terms, t.speaksOf p names = true) (later : List Char)
    (hlater : ¬ Begins (p · = true) later) :
    ∃ events, Runs g n x ⟨offset, text ++ later⟩
        (some ⟨⟨offset + byteLength text, later⟩, nodes⟩) events ∧
      MissesUpTo (offset + byteLength text) events := by
  obtain ⟨stop, hstop, hs⟩ := h
  obtain ⟨events, hruns⟩ := hs.exists_runs hle
  obtain ⟨taken, hr, ho⟩ := hruns.reaches
  have htaken : taken = text := by simpa [hstop] using hr.symm
  have hextend := hruns.extend hg hx later hlater
  refine ⟨events, ?_, hruns.missesUpTo hbelongs⟩
  have hcursor : stop.extend later = ⟨offset + byteLength text, later⟩ := by
    rw [Cursor.extend, hstop, List.nil_append, ← htaken]
    exact congrArg (fun offset => Cursor.mk offset later) ho
  rwa [Option.map_some, Match.extend, hcursor] at hextend

end OrderedBnf
