import Mathlib.Data.Set.Defs
import OrderedBnf.Parse.Parser
import OrderedBnf.Proofs.Match.Runs

/-!
# What a run depends on

A run looks names up and nothing else, so it depends on no more of a grammar than
what the names stand for that it comes across. Two grammars that agree on a set of
names run alike within it (`Runs.congr`), with the same outcome and the same
events, whatever else they define and in whatever order.
-/

namespace OrderedBnf

open Goal

/-- A part that refers to no name but those of a set. -/
def Goal.StaysIn (names : Set String) (x : Goal) : Prop :=
  ∀ t ∈ x.terms, ∀ name, t.symbol = .reference name → name ∈ names

/-- **Two grammars that agree on a set of names**: a name of the set stands for the
same in both, and that refers to no name outside. -/
structure Grammar.AgreeOn (g g' : Grammar) (names : Set String) : Prop where
  find?_eq : ∀ name ∈ names, g.find? name = g'.find? name
  staysIn : ∀ name ∈ names, ∀ d, g.find? name = some d → (rule d).StaysIn names

variable {g g' : Grammar} {names : Set String} {n : Nat} {x : Goal} {c : Cursor}
variable {o : Option Match} {events : List Event}

/-- **Grammars that agree run alike.** -/
theorem Runs.congr (h : Runs g n x c o events) (hg : g.AgreeOn g' names)
    (hx : x.StaysIn names) : Runs g' n x c o events := by
  induction h with
  | literal ht hr ho => exact .literal ht hr ho
  | noLiteral ht hr => exact .noLiteral ht hr
  | reference ht hd _ ih =>
    have hname := hx _ (List.mem_singleton_self _) _ ht
    exact .reference ht (hg.find?_eq _ hname ▸ hd) (ih (hg.staysIn _ hname _ hd))
  | unresolved ht hd =>
    exact .unresolved ht (hg.find?_eq _ (hx _ (List.mem_singleton_self _) _ ht) ▸ hd)
  | loopStop _ ih => exact (ih hx).loopStop
  | loopEmpty _ hstop ih => exact (ih hx).loopEmpty hstop
  | loopMore _ hstop _ ih ihlater => exact (ih hx).loopMore hstop (ihlater hx)
  | once ht _ ih => exact .once ht (ih hx)
  | optional ht _ ih => exact .optional ht (ih hx)
  | noOptional ht _ ih => exact .noOptional ht (ih hx)
  | zeroOrMore ht _ ih => exact .zeroOrMore ht (ih hx)
  | oneOrMore ht _ ih => exact .oneOrMore ht (ih hx)
  | nil => exact .nil
  | cons _ _ ih ihlater =>
    obtain ⟨hfirst, hlater⟩ := forall_terms_sequence.1 hx
    exact (ih hfirst).cons (ihlater hlater)
  | consFirst _ ih => exact (ih (forall_terms_sequence.1 hx).1).consFirst
  | consLater _ _ ih ihlater =>
    obtain ⟨hfirst, hlater⟩ := forall_terms_sequence.1 hx
    exact (ih hfirst).consLater (ihlater hlater)
  | noChoice => exact .noChoice
  | first _ ih => exact (ih (forall_terms_choice.1 hx).1).first
  | later _ _ ih ihlater =>
    obtain ⟨hfirst, hlater⟩ := forall_terms_choice.1 hx
    exact (ih hfirst).later (ihlater hlater)
  | tooDeep => exact .tooDeep
  | body _ ih => exact (ih hx).body
  | noRule _ ih => exact (ih hx).noRule
  | rule _ ih => exact (ih hx).rule

/-- **Parsers that agree parse alike**, from every name that they agree on. -/
theorem Parser.parseFrom_congr {p p' : Parser} (hg : p.grammar.AgreeOn p'.grammar names)
    (hdepth : p.options.maxDepth = p'.options.maxDepth) {start : String} (hstart : start ∈ names)
    (text : String) : p.parseFrom text start = p'.parseFrom text start := by
  rw [parseFrom, parseFrom, ← hg.find?_eq start hstart]
  cases hd : p.grammar.find? start with
  | none => rfl
  | some d =>
    obtain ⟨o, events, h⟩ :=
      exists_runs p.grammar p.options.maxDepth (body d) (Cursor.start text.toList)
    have h' := h.congr hg (hg.staysIn start hstart d hd)
    rw [hdepth] at h'
    have hrun : p.run text.toList d = p'.run text.toList d :=
      (h.run Progress.note .start).trans (h'.run Progress.note .start).symm
    simp only [Option.bind_some, parseDefinition, hrun, hdepth]

end OrderedBnf
