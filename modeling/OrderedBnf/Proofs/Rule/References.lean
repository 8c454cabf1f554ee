import OrderedBnf.Proofs.Match.Lookup
import OrderedBnf.Proofs.Rule.Term

/-!
# Names that are referred to and never defined

`undefinedNames` goes through the terms of a table and looks for the names of its rules;
a grammar looks a name up among its definitions. Both have the same idea of what a term
refers to and of what is defined (`mem_undefinedNames_iff`). The names are listed once
each, in the order of the places where they are referred to first
(`pairwise_undefinedNames`).

A place is told by three numbers, and the list of all terms with their places
(`placedTerms`) is in the order of the places. So what comes first in it, and stays when
repetitions are left out, comes first in the table.
-/

namespace OrderedBnf

/-! ## What stays of a list without repetitions -/

section FirstOccurrences

variable {α β : Type} [BEq β] [LawfulBEq β] {R : α → α → Prop}

/-- **A list without repetitions is in the order of the first occurrences.** Of two members
the former has an occurrence before all those of the latter. -/
theorem pairwise_eraseDups_filterMap {f : α → Option β} {l : List α} (h : l.Pairwise R) :
    (l.filterMap f).eraseDups.Pairwise fun a b =>
      ∃ x ∈ l, f x = some a ∧ ∀ y ∈ l, f y = some b → R x y := by
  induction l generalizing f with
  | nil => exact .nil
  | cons x l ih =>
    obtain ⟨hx, hl⟩ := List.pairwise_cons.1 h
    cases hfx : f x with
    | none =>
      rw [List.filterMap_cons_none hfx]
      refine (ih hl).imp ?_
      rintro a b ⟨x', hx', ha, hb⟩
      refine ⟨x', List.mem_cons_of_mem _ hx', ha, ?_⟩
      intro y hy hfy
      rcases List.mem_cons.1 hy with rfl | hy
      · rw [hfx] at hfy
        cases hfy
      · exact hb y hy hfy
    | some a =>
      -- behind `a` stands what is left of the others once `a` is taken out
      rw [List.filterMap_cons_some hfx, List.eraseDups_cons, List.filter_filterMap]
      have hne : ∀ b ∈ (l.filterMap fun y => (f y).filter fun b => !b == a).eraseDups, b ≠ a := by
        intro b hb
        obtain ⟨y, -, hfy⟩ := List.mem_filterMap.1 (List.mem_eraseDups.1 hb)
        simpa using (Option.filter_eq_some_iff.1 hfy).2
      refine List.pairwise_cons.2 ⟨?_, ?_⟩
      · intro b hb
        refine ⟨x, List.mem_cons_self, hfx, ?_⟩
        intro y hy hfy
        rcases List.mem_cons.1 hy with rfl | hy
        · exact absurd (Option.some.inj (hfy.symm.trans hfx)) (hne b hb)
        · exact hx y hy
      · refine (ih hl).imp_of_mem ?_
        rintro b b' - hb' ⟨x', hx', hfx', hall⟩
        refine ⟨x', List.mem_cons_of_mem _ hx', (Option.filter_eq_some_iff.1 hfx').1, ?_⟩
        intro y hy hfy
        rcases List.mem_cons.1 hy with rfl | hy
        · exact absurd (Option.some.inj (hfy.symm.trans hfx)) (hne b' hb')
        · exact hall y hy (Option.filter_eq_some_iff.2 ⟨hfy, by simpa using hne b' hb'⟩)

end FirstOccurrences

/-! ## Places of terms -/

/-- **A place in a table**: of a rule, of an alternative in it and of a term in that. -/
structure Place where
  rule : Nat
  alternative : Nat
  term : Nat
deriving DecidableEq, Repr

/-- The order in which a table is read. -/
def Place.Before (a b : Place) : Prop :=
  a.rule < b.rule ∨ a.rule = b.rule ∧
    (a.alternative < b.alternative ∨ a.alternative = b.alternative ∧ a.term < b.term)

theorem Place.not_before_self (a : Place) : ¬ a.Before a := by
  unfold Place.Before
  omega

/-- The term of a table at a place. -/
def TermAt (rules : List Rule) (place : Place) (term : String) : Prop :=
  ∃ rule terms, rules[place.rule]? = some rule ∧
    rule.alternatives[place.alternative]? = some terms ∧ terms[place.term]? = some term

/-- **A name is referred to at a place** of a table, whether or not the rule there is
defined again. -/
def RefersAt (rules : List Rule) (place : Place) (name : String) : Prop :=
  ∃ term, TermAt rules place term ∧ (Term.ofSource term).symbol = .reference name

/-- The terms of a table with their places. -/
def placedTerms (rules : List Rule) : List (Place × String) :=
  rules.zipIdx.flatMap fun (rule, i) =>
    rule.alternatives.zipIdx.flatMap fun (terms, j) =>
      terms.zipIdx.map fun (term, k) => (⟨i, j, k⟩, term)

variable {rules : List Rule} {place : Place} {term name : String}

theorem mem_placedTerms : (place, term) ∈ placedTerms rules ↔ TermAt rules place term := by
  simp only [placedTerms, List.mem_flatMap, List.mem_map, Prod.exists,
    List.mk_mem_zipIdx_iff_getElem?]
  constructor
  · rintro ⟨rule, i, hrule, terms, j, hterms, term', k, hterm, heq⟩
    obtain ⟨rfl, rfl⟩ := Prod.mk.inj heq
    exact ⟨rule, terms, hrule, hterms, hterm⟩
  · rintro ⟨rule, terms, hrule, hterms, hterm⟩
    exact ⟨rule, _, hrule, terms, _, hterms, term, _, hterm, rfl⟩

theorem flatMap_zipIdx_fst {α β : Type} (f : α → List β) (l : List α) :
    (l.zipIdx.flatMap fun x => f x.1) = l.flatMap f := by
  rw [← List.flatMap_map Prod.fst f, List.zipIdx_map_fst]

/-- They are the terms, in order. -/
theorem map_snd_placedTerms : (placedTerms rules).map Prod.snd = allTerms rules := by
  have hterms : ∀ (i j : Nat) (terms : List String),
      (terms.zipIdx.map fun (term, k) => (Place.mk i j k, term)).map Prod.snd = terms := by
    intro i j terms
    rw [List.map_map]
    exact List.zipIdx_map_fst 0 terms
  simp only [placedTerms, List.map_flatMap, hterms,
    flatMap_zipIdx_fst fun terms : List String => terms, List.flatMap_id']
  exact flatMap_zipIdx_fst (fun rule => rule.alternatives.flatten) rules

theorem pairwise_zipIdx {α : Type} (l : List α) : l.zipIdx.Pairwise fun a b => a.2 < b.2 := by
  rw [List.pairwise_iff_getElem]
  intro i j hi hj hlt
  rw [List.getElem_zipIdx, List.getElem_zipIdx]
  omega

/-- **The places are in order.** -/
theorem pairwise_placedTerms (rules : List Rule) :
    (placedTerms rules).Pairwise fun a b => a.1.Before b.1 := by
  refine List.pairwise_flatMap.2 ⟨?_, (pairwise_zipIdx rules).imp ?_⟩
  · rintro ⟨rule, i⟩ -
    refine List.pairwise_flatMap.2 ⟨?_, (pairwise_zipIdx rule.alternatives).imp ?_⟩
    · rintro ⟨terms, j⟩ -
      refine List.pairwise_map.2 ((pairwise_zipIdx terms).imp ?_)
      intro a b hlt
      exact .inr ⟨rfl, .inr ⟨rfl, hlt⟩⟩
    · intro a b hlt x hx y hy
      obtain ⟨_, -, rfl⟩ := List.mem_map.1 hx
      obtain ⟨_, -, rfl⟩ := List.mem_map.1 hy
      exact .inr ⟨rfl, .inl hlt⟩
  · intro a b hlt x hx y hy
    obtain ⟨_, -, hx⟩ := List.mem_flatMap.1 hx
    obtain ⟨_, -, hy⟩ := List.mem_flatMap.1 hy
    obtain ⟨_, -, rfl⟩ := List.mem_map.1 hx
    obtain ⟨_, -, rfl⟩ := List.mem_map.1 hy
    exact .inl hlt

/-! ## Names without a definition -/

/-- A name that is looked up in vain is the name of no rule. -/
theorem find?_ofRules_eq_none_iff :
    (Grammar.ofRules rules).find? name = none ↔ rules.any (·.name == name) = false := by
  simp [Grammar.find?_eq_none_iff, Grammar.ofRules, Definition.ofRule]

theorem undefinedNames_eq : undefinedNames rules =
    ((placedTerms rules).filterMap fun entry => (referenceOf entry.2).filter fun name =>
      !rules.any (·.name == name)).eraseDups := by
  rw [undefinedNames, referencedNames, ← map_snd_placedTerms, List.filterMap_map,
    List.filter_filterMap]
  rfl

/-- **What is listed is what is referred to somewhere and looked up in vain.** -/
theorem mem_undefinedNames_iff : name ∈ undefinedNames rules ↔
    (∃ place, RefersAt rules place name) ∧ (Grammar.ofRules rules).find? name = none := by
  rw [undefinedNames_eq, List.mem_eraseDups, List.mem_filterMap]
  simp only [Prod.exists, mem_placedTerms, Option.filter_eq_some_iff, referenceOf_eq_some_iff,
    find?_ofRules_eq_none_iff, RefersAt, Bool.not_eq_true']
  constructor
  · rintro ⟨place, term, hterm, href, hnone⟩
    exact ⟨⟨place, term, hterm, href⟩, hnone⟩
  · rintro ⟨⟨place, term, hterm, href⟩, hnone⟩
    exact ⟨place, term, hterm, href, hnone⟩

/-- **The names are listed in the order of their first references.** -/
theorem pairwise_undefinedNames (rules : List Rule) :
    (undefinedNames rules).Pairwise fun a b => ∃ place, RefersAt rules place a ∧
      ∀ place', RefersAt rules place' b → place.Before place' := by
  have hfirst := pairwise_eraseDups_filterMap
    (f := fun entry : Place × String => (referenceOf entry.2).filter fun name =>
      !rules.any (·.name == name)) (pairwise_placedTerms rules)
  rw [← undefinedNames_eq] at hfirst
  refine hfirst.imp_of_mem ?_
  rintro a b - hb ⟨⟨place, term⟩, hplace, ha, hall⟩
  have hterm := mem_placedTerms.1 hplace
  refine ⟨place, ⟨term, hterm, referenceOf_eq_some_iff.1 (Option.filter_eq_some_iff.1 ha).1⟩, ?_⟩
  rintro place' ⟨term', hterm', href⟩
  have hnone : rules.any (·.name == b) = false :=
    find?_ofRules_eq_none_iff.1 (mem_undefinedNames_iff.1 hb).2
  refine hall (place', term') (mem_placedTerms.2 hterm') (Option.filter_eq_some_iff.2 ⟨?_, ?_⟩)
  · exact referenceOf_eq_some_iff.2 href
  · rw [hnone]
    rfl

/-- So none of them is listed twice. -/
theorem nodup_undefinedNames (rules : List Rule) : (undefinedNames rules).Nodup := by
  refine (pairwise_undefinedNames rules).imp ?_
  rintro a b ⟨place, hplace, hall⟩ rfl
  exact place.not_before_self (hall place hplace)

end OrderedBnf
