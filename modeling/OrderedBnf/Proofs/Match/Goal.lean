import OrderedBnf.Proofs.Match.Advance

/-!
# Goals of a match

The matcher of a grammar is made of matchers for its parts: the symbol of a
term, a term, a sequence of terms, a choice of sequences, the body of a
definition, a rule. `Goal` names such a part and `Goal.run` is its matcher,
so that a property of all of them can be stated at once. The equations of
`run` that follow say what each does in terms of the others; nothing later
opens the matcher itself.
-/

namespace OrderedBnf

/-- A part of a grammar that can be matched. -/
inductive Goal
  /-- The symbol of a term, once. -/
  | symbol (t : Term)
  /-- The symbol of a term as often as possible, whatever the term asks for, with some
  iterations behind it: that many, if they are counted. -/
  | loop (t : Term) (count : Option Nat)
  /-- A term as often as it asks for. -/
  | term (t : Term)
  /-- Terms one after another. -/
  | sequence (terms : List Term)
  /-- The first of some alternatives that matches. -/
  | choice (alternatives : List (List Term))
  /-- The alternatives of a definition, which take a level. -/
  | body (d : Definition)
  /-- A definition with its node, unless it is a fragment. -/
  | rule (d : Definition)
deriving DecidableEq, Repr

variable {σ : Type}

/-- The terms of a definition, alternative by alternative. -/
def Definition.terms (d : Definition) : List Term := d.alternatives.flatten

namespace Goal

/-- The symbol of a term as often as possible, with no count. -/
@[match_pattern]
abbrev many (t : Term) : Goal := loop t none

/-- A part of which no iterations are counted yet. -/
abbrev Uncounted (x : Goal) : Prop := ∀ t k, x ≠ loop t (some k)

/-- The terms that a part is made of. Those of the rules that these refer to are
not among them. -/
def terms : Goal → List Term
  | symbol t | loop t _ | term t => [t]
  | sequence terms => terms
  | choice alternatives => alternatives.flatten
  | body d | rule d => d.terms

/-- **The matcher of a part**, when `levels` rules may be under way below it. -/
def run (note : Observer σ) (g : Grammar) (levels : Nat) : Goal → Matcher σ
  | symbol t => g.symbol note (g.body note levels) t
  | loop t count => Matcher.loop count (g.symbol note (g.body note levels) t)
  | term t => g.term note (g.body note levels) t
  | sequence terms => Matcher.sequence (g.term note (g.body note levels)) terms
  | choice alternatives =>
    Matcher.firstOf (Matcher.sequence (g.term note (g.body note levels))) alternatives
  | body d => g.body note levels d
  | rule d => fun c s =>
    ((g.body note levels d c s).1.map fun m => m.wrap d c, (g.body note levels d c s).2)

variable {note : Observer σ} {g : Grammar} {levels : Nat} {c : Cursor} {s s' : σ} {m : Match}
variable {t : Term} {terms : List Term} {alternatives : List (List Term)} {d : Definition}
variable {count : Option Nat}

/-- The terms of a sequence are its first and those of what follows, -/
theorem forall_terms_sequence {P : Term → Prop} :
    (∀ u ∈ (sequence (t :: terms)).terms, P u) ↔
      (∀ u ∈ (term t).terms, P u) ∧ ∀ u ∈ (sequence terms).terms, P u := by
  simp only [Goal.terms, List.forall_mem_cons, List.not_mem_nil, false_imp_iff, implies_true,
    and_true]

/-- and those of a choice are those of its alternatives. -/
theorem forall_terms_choice {P : Term → Prop} :
    (∀ u ∈ (choice (terms :: alternatives)).terms, P u) ↔
      (∀ u ∈ (sequence terms).terms, P u) ∧ ∀ u ∈ (choice alternatives).terms, P u := by
  simp only [Goal.terms, List.flatten_cons, List.forall_mem_append]

/-! ## Symbols -/

theorem run_literal {text : List Char} (ht : t.symbol = .literal text) :
    (symbol t).run note g levels c s = Matcher.literal note text t.source c s := by
  simp only [run, Grammar.symbol, ht]

theorem run_unresolved {name : String} (ht : t.symbol = .reference name)
    (hd : g.find? name = none) :
    (symbol t).run note g levels c s = (none, note s (.unresolved name)) := by
  simp only [run, Grammar.symbol, ht, Grammar.reference, hd]

theorem run_reference {name : String} (ht : t.symbol = .reference name)
    (hd : g.find? name = some d) :
    (symbol t).run note g levels c s = (rule d).run note g levels c s := by
  simp only [run, Grammar.symbol, ht, Grammar.reference, hd]
  rcases g.body note levels d c s with ⟨_ | m, s'⟩ <;> rfl

/-! ## Repetition -/

theorem run_once (ht : t.repetition = .once) :
    (term t).run note g levels c s = (symbol t).run note g levels c s := by
  simp only [run, Grammar.term, ht, Matcher.times]

theorem run_optional_of_some (ht : t.repetition = .optional)
    (h : (symbol t).run note g levels c s = (some m, s')) :
    (term t).run note g levels c s = (some m, s') := by
  rw [run] at h
  simp only [run, Grammar.term, ht, Matcher.times, Matcher.optional, h]

theorem run_optional_of_none (ht : t.repetition = .optional)
    (h : (symbol t).run note g levels c s = (none, s')) :
    (term t).run note g levels c s = (some ⟨c, []⟩, s') := by
  rw [run] at h
  simp only [run, Grammar.term, ht, Matcher.times, Matcher.optional, h]

theorem run_zeroOrMore (ht : t.repetition = .zeroOrMore) :
    (term t).run note g levels c s = (many t).run note g levels c s := by
  simp only [run, Grammar.term, ht, Matcher.times, Matcher.zeroOrMore_eq_loop]

theorem run_oneOrMore (ht : t.repetition = .oneOrMore) :
    (term t).run note g levels c s = (loop t (some 0)).run note g levels c s := by
  simp only [run, Grammar.term, ht, Matcher.times, Matcher.oneOrMore_eq_loop]

theorem run_loop_of_none (h : (symbol t).run note g levels c s = (none, s')) :
    (loop t count).run note g levels c s = (Matcher.verdict count ⟨c, []⟩, s') :=
  Matcher.loop_of_none h

theorem run_loop_of_empty (h : (symbol t).run note g levels c s = (some m, s'))
    (ho : m.stop.offset = c.offset) :
    (loop t count).run note g levels c s = (Matcher.verdict (count.map (· + 1)) m, s') :=
  Matcher.loop_of_empty (Grammar.advances_symbol (Grammar.advances_body note g levels) t) h ho

theorem run_loop_of_some (h : (symbol t).run note g levels c s = (some m, s'))
    (ho : m.stop.offset ≠ c.offset) :
    (loop t count).run note g levels c s =
      (((loop t (count.map (· + 1))).run note g levels m.stop s').1.map fun later =>
          ⟨later.stop, m.nodes ++ later.nodes⟩,
        ((loop t (count.map (· + 1))).run note g levels m.stop s').2) :=
  Matcher.loop_of_some (Grammar.advances_symbol (Grammar.advances_body note g levels) t) h ho

theorem run_many_of_none (h : (symbol t).run note g levels c s = (none, s')) :
    (many t).run note g levels c s = (some ⟨c, []⟩, s') := run_loop_of_none h

theorem run_many_of_empty (h : (symbol t).run note g levels c s = (some m, s'))
    (ho : m.stop.offset = c.offset) : (many t).run note g levels c s = (some m, s') :=
  run_loop_of_empty h ho

theorem run_many_of_some (h : (symbol t).run note g levels c s = (some m, s'))
    (ho : m.stop.offset ≠ c.offset) :
    (many t).run note g levels c s =
      (((many t).run note g levels m.stop s').1.map fun later =>
          ⟨later.stop, m.nodes ++ later.nodes⟩,
        ((many t).run note g levels m.stop s').2) := run_loop_of_some h ho

/-- A repetition that does not count never fails, -/
theorem run_many_ne_none : (many t).run note g levels c s ≠ (none, s') := by
  simp [run, Matcher.loop]

/-- and one that counts comes to the same or fails. -/
theorem run_many_of_loop (h : ((loop t count).run note g levels c s).1 = some m) :
    (many t).run note g levels c s = (some m, ((loop t count).run note g levels c s).2) := by
  simp only [run, Matcher.loop] at h ⊢
  split at h
  · cases h
  · rw [← h]
    rfl

/-! ## Sequence and choice -/

theorem run_sequence_nil : (sequence []).run note g levels c s = (some ⟨c, []⟩, s) := rfl

theorem run_sequence_of_none (h : (term t).run note g levels c s = (none, s')) :
    (sequence (t :: terms)).run note g levels c s = (none, s') := by
  rw [run] at h
  simp only [run, Matcher.sequence, h]

theorem run_sequence_of_some (h : (term t).run note g levels c s = (some m, s')) :
    (sequence (t :: terms)).run note g levels c s =
      (((sequence terms).run note g levels m.stop s').1.map fun later =>
          ⟨later.stop, m.nodes ++ later.nodes⟩,
        ((sequence terms).run note g levels m.stop s').2) := by
  rw [run] at h
  simp only [run, Matcher.sequence, h]
  split <;> rename_i h' <;> simp [h']

theorem run_choice_nil : (choice []).run note g levels c s = (none, s) := rfl

theorem run_choice_of_some (h : (sequence terms).run note g levels c s = (some m, s')) :
    (choice (terms :: alternatives)).run note g levels c s = (some m, s') := by
  rw [run] at h
  simp only [run, Matcher.firstOf, h]

theorem run_choice_of_none (h : (sequence terms).run note g levels c s = (none, s')) :
    (choice (terms :: alternatives)).run note g levels c s =
      (choice alternatives).run note g levels c s' := by
  rw [run] at h
  simp only [run, Matcher.firstOf, h]

/-! ## Rules -/

/-- Without a level the body of a definition is not matched, -/
theorem run_body_zero :
    (body d).run note g 0 c s = (none, note s (.tooDeep d.name c.offset)) := rfl

/-- and with one it leaves a level less to what it refers to. -/
theorem run_body_succ :
    (body d).run note g (levels + 1) c s =
      (((choice d.alternatives).run note g levels c (note s (.enter d.name c.offset))).1,
        note ((choice d.alternatives).run note g levels c (note s (.enter d.name c.offset))).2
          .leave) := rfl

theorem run_rule :
    (rule d).run note g levels c s =
      (((body d).run note g levels c s).1.map fun m => m.wrap d c,
        ((body d).run note g levels c s).2) := rfl

/-- A fragment leaves its match as it is, -/
theorem wrap_of_fragment (hd : d.isFragment = true) : m.wrap d c = m := by
  simp only [Match.wrap, hd, if_true]

/-- and any other rule puts a node around it, with the text that was taken. -/
theorem wrap_of_not_fragment {taken : List Char} (hd : d.isFragment = false)
    (hr : c.rest = taken ++ m.stop.rest) (ho : m.stop.offset = c.offset + byteLength taken) :
    m.wrap d c =
      ⟨m.stop, [⟨d.name, String.ofList taken, c.offset, m.stop.offset, m.nodes, []⟩]⟩ := by
  simp only [Match.wrap, hd, Bool.false_eq_true, if_false, Cursor.upTo_of_rest hr ho]

/-! ## Where a goal stops -/

/-- **Every match of a goal advances.** -/
theorem advances_run (note : Observer σ) (g : Grammar) (levels : Nat) (x : Goal) :
    Matcher.Advances (x.run note g levels) := by
  have hb := Grammar.advances_body note g levels
  cases x with
  | symbol t => exact Grammar.advances_symbol hb t
  | loop t count => exact Matcher.advances_loop (Grammar.advances_symbol hb t) count
  | term t => exact Grammar.advances_term hb t
  | sequence terms => exact Matcher.advances_sequence (Grammar.advances_term hb) terms
  | choice alternatives =>
    refine Matcher.advances_firstOf (fun terms => ?_) alternatives
    exact Matcher.advances_sequence (Grammar.advances_term hb) terms
  | body d => exact hb d
  | rule d =>
    intro c s m h
    obtain ⟨m', hm', rfl⟩ := Option.map_eq_some_iff.1 h
    rw [Grammar.stop_wrap]
    exact hb d c s m' hm'

end Goal

end OrderedBnf
