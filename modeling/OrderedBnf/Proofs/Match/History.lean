import OrderedBnf.Proofs.Match.Lookup
import OrderedBnf.Proofs.Match.Runs

/-!
# The events of a run

`History` says which lists of events a run can leave, without regard to what it
comes to: nothing, one history after another, a literal missed, a name looked
up in vain, a rule refused, or a rule attempted with a history inside. Every
attempt is made at or behind the cursor where the run began, and inside an
attempt there is a level less.

A literal that was missed is in no doubt: it is a term of the grammar, and it is
not what comes at the offset (`History.of_miss_mem`).
-/

namespace OrderedBnf

open Goal

/-- A term of some definition of a grammar. -/
def Grammar.HasTerm (g : Grammar) (t : Term) : Prop := ∃ d ∈ g, t ∈ d.terms

/-- A part that belongs to a grammar: a definition in force, or terms of some. -/
def Goal.BelongsTo (g : Grammar) : Goal → Prop
  | body d | rule d => g.InForce d.name d
  | x => ∀ t ∈ x.terms, g.HasTerm t

/-- **What can happen in a run** of a part of a grammar that begins at `first` or
behind it, when `n` rules may be under way below it. -/
inductive History (g : Grammar) (first : Cursor) : Nat → List Event → Prop
  /-- Nothing may happen, -/
  | nil {n : Nat} : History g first n []
  /-- or one thing after another. -/
  | append {n : Nat} {events later : List Event} :
      History g first n events → History g first n later → History g first n (events ++ later)
  /-- A literal is missed where it is not what comes next. -/
  | miss {n : Nat} {t : Term} {text : List Char} {c : Cursor} :
      g.HasTerm t → t.symbol = .literal text → first.Reaches c → ¬ text <+: c.rest →
      History g first n [.miss c.offset t.source]
  /-- A name stands for nothing. -/
  | unresolved {n : Nat} {name : String} : History g first n [.unresolved name]
  /-- A rule is refused where no level is left, -/
  | tooDeep {d : Definition} {c : Cursor} :
      g.InForce d.name d → first.Reaches c → History g first 0 [.tooDeep d.name c.offset]
  /-- and otherwise attempted, with what happens in the run of its alternatives. -/
  | attempt {n : Nat} {d : Definition} {c : Cursor} {o : Option Match} {events : List Event} :
      g.InForce d.name d → first.Reaches c → Runs g n (choice d.alternatives) c o events →
      History g first n events →
      History g first (n + 1) (.enter d.name c.offset :: events ++ [.leave])

variable {g : Grammar} {n : Nat} {x : Goal} {first c c' : Cursor} {o : Option Match}
variable {events : List Event} {d : Definition}

theorem Goal.belongsTo_choice (hd : g.InForce d.name d) : BelongsTo g (choice d.alternatives) :=
  fun _ ht => ⟨d, hd.mem, ht⟩

/-- **A run leaves a history.** -/
theorem Runs.history (h : Runs g n x c o events) (hx : x.BelongsTo g) (hc : first.Reaches c) :
    History g first n events := by
  induction h with
  | literal | nil | noChoice => exact .nil
  | noLiteral ht hr => exact .miss (hx _ (List.mem_singleton_self _)) ht hc hr
  | unresolved => exact .unresolved
  | reference _ hd _ ih =>
    have hforce := Grammar.find?_eq_some_iff.1 hd
    exact ih (by rw [← hforce.name_eq] at hforce; exact hforce) hc
  | loopStop _ ih | loopEmpty _ _ ih | once _ _ ih | optional _ _ ih | noOptional _ _ ih
  | zeroOrMore _ _ ih | oneOrMore _ _ ih => exact ih hx hc
  | loopMore hfirst _ _ ih ihlater =>
    exact .append (ih hx hc) (ihlater hx (hc.trans hfirst.reaches))
  | cons hterm _ ih ihlater | consLater hterm _ ih ihlater =>
    obtain ⟨hfirst, hlater⟩ := forall_terms_sequence.1 hx
    exact .append (ih hfirst hc) (ihlater hlater (hc.trans hterm.reaches))
  | consFirst _ ih => exact ih (forall_terms_sequence.1 hx).1 hc
  | first _ ih => exact ih (forall_terms_choice.1 hx).1 hc
  | later _ _ ih ihlater =>
    obtain ⟨hfirst, hlater⟩ := forall_terms_choice.1 hx
    exact .append (ih hfirst hc) (ihlater hlater hc)
  | tooDeep => exact .tooDeep hx hc
  | body h ih => exact .attempt hx hc h (ih (belongsTo_choice hx) hc)
  | noRule _ ih | rule _ ih => exact ih hx hc

/-! ## Cursors of one text -/

/-- In a text there is one cursor at an offset. -/
theorem Cursor.Reaches.eq (h : first.Reaches c) (h' : first.Reaches c')
    (ho : c.offset = c'.offset) : c = c' := by
  obtain ⟨taken, hr, hb⟩ := h
  obtain ⟨taken', hr', hb'⟩ := h'
  have htaken : taken = taken' := by
    rw [← takeBytes_byteLength taken c.rest, ← takeBytes_byteLength taken' c'.rest, ← hr, ← hr']
    congr 1
    omega
  subst htaken
  cases c
  cases c'
  simp_all

/-! ## Literals that are missed -/

/-- **A literal that was missed** is one of the grammar, and not what comes at the
place where it was missed. -/
theorem History.of_miss_mem (h : History g first n events) {offset : Nat} {source : String}
    (he : .miss offset source ∈ events) :
    ∃ t text c, g.HasTerm t ∧ t.symbol = .literal text ∧ t.source = source ∧ first.Reaches c ∧
      c.offset = offset ∧ ¬ text <+: c.rest := by
  induction h with
  | nil | unresolved | tooDeep => simp at he
  | append _ _ ih ihlater => exact (List.mem_append.1 he).elim ih ihlater
  | @miss n t text c ht hs hc hr =>
    obtain ⟨rfl, rfl⟩ : offset = c.offset ∧ source = t.source := by simpa using he
    exact ⟨t, text, c, ht, hs, rfl, hc, rfl, hr⟩
  | attempt _ _ _ _ ih => exact ih (by simpa using he)

end OrderedBnf
