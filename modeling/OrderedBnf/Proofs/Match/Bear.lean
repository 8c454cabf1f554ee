import OrderedBnf.Proofs.Match.Admit

/-!
# The nodes of a match

What nodes a part of a grammar leaves is a matter of its form: `Bears` says it of
all ways of reading the part, with up to so many bodies inside each other, and
the lemmas below say it of a part through the parts that it is made of. A rule
that refers to itself is settled by induction on that number, since below a node
there is always one body less.

Literals leave no node, nor do fragments as long as they are made of literals and
of fragments (`FragmentsSilent`), however these refer to each other.
-/

namespace OrderedBnf

open Goal

variable {g : Grammar} {n : Nat} {x : Goal} {c : Cursor} {m : Match} {d : Definition}
variable {t : Term} {terms : List Term} {alternatives : List (List Term)} {name : String}

/-! ## Parts without nodes -/

/-- Whether a term is no name of a rule with nodes of its own. -/
def Term.isSilent (t : Term) : Bool :=
  match t.symbol with
  | .literal _ => true
  | .reference name => Definition.isFragmentName name

theorem Term.isSilent_of_reference (ht : t.symbol = .reference name) :
    t.isSilent = Definition.isFragmentName name := by
  rw [Term.isSilent, ht]

/-- Alternatives of such terms. -/
abbrev AllSilent (alternatives : List (List Term)) : Prop :=
  ∀ terms ∈ alternatives, ∀ t ∈ terms, t.isSilent = true

/-- **The fragments of a grammar bring no node** into the rules that refer to them. -/
abbrev Grammar.FragmentsSilent (g : Grammar) : Prop :=
  ∀ d ∈ g, d.isFragment = true → AllSilent d.alternatives

/-- A part that is made of such terms. -/
private def IsSilent : Goal → Prop
  | .symbol t | .loop t _ | .term t => t.isSilent = true
  | .sequence terms => ∀ t ∈ terms, t.isSilent = true
  | .choice alternatives => AllSilent alternatives
  | .body d => AllSilent d.alternatives
  | .rule d => d.isFragment = true ∧ AllSilent d.alternatives

private theorem nodes_eq_nil (hg : g.FragmentsSilent) (h : Admits g n x c m) (hx : IsSilent x) :
    m.nodes = [] := by
  induction h with
  | literal => rfl
  | manyStop => rfl
  | noOptional => rfl
  | nil => rfl
  | @reference n t name d c m ht hd _ ih =>
    obtain rfl := hd.name_eq
    have hfragment : d.isFragment = true := (Term.isSilent_of_reference ht).symm.trans hx
    exact ih ⟨hfragment, hg d hd.mem hfragment⟩
  | manyMore _ _ ih ihlater => simp [ih hx, ihlater hx]
  | once _ _ ih => exact ih hx
  | optional _ _ ih => exact ih hx
  | zeroOrMore _ _ ih => exact ih hx
  | oneOrMore _ _ _ ih ihlater => simp [ih hx, ihlater hx]
  | @cons n t terms c m later _ _ ih ihlater =>
    have hlater : IsSilent (.sequence terms) := fun t ht => hx t (List.mem_cons_of_mem _ ht)
    simp [ih (hx t (List.mem_cons_self ..)), ihlater hlater]
  | choice hterms _ ih => exact ih (hx _ hterms)
  | body _ ih => exact ih hx
  | fragment _ _ ih => exact ih hx.2
  | node hd =>
    obtain ⟨hfragment, -⟩ := hx
    rw [hd] at hfragment
    cases hfragment

/-! ## Parts with nodes -/

/-- **What nodes a part bears**, in every way of reading it with no more than `n`
bodies inside each other. -/
def Bears (g : Grammar) (n : Nat) (x : Goal) (P : List Node → Prop) : Prop :=
  ∀ c m, Admits g n x c m → P m.nodes

variable {P Q : List Node → Prop} {R : Node → Prop}

/-- A single node. -/
def IsOne (R : Node → Prop) (nodes : List Node) : Prop := ∃ node, nodes = [node] ∧ R node

namespace Bears

theorem mono (h : Bears g n x P) (hPQ : ∀ nodes, P nodes → Q nodes) : Bears g n x Q :=
  fun c m hm => hPQ _ (h c m hm)

/-- Alternatives of silent terms bear nothing, -/
theorem silent (hg : g.FragmentsSilent) (h : AllSilent alternatives) :
    Bears g n (choice alternatives) (· = []) :=
  fun _ _ hm => nodes_eq_nil hg hm h

/-- what follows silent terms is all that a sequence bears, -/
theorem behind (before : List Term) (hg : g.FragmentsSilent)
    (hbefore : ∀ t ∈ before, t.isSilent = true) (h : Bears g n (sequence terms) P) :
    Bears g n (sequence (before ++ terms)) P := by
  induction before with
  | nil => exact h
  | cons t before ih =>
    intro c m hm
    cases hm with
    | cons hfirst hlater =>
      rw [nodes_eq_nil hg hfirst (hbefore t (List.mem_cons_self ..))]
      exact ih (fun t ht => hbefore t (List.mem_cons_of_mem _ ht)) _ _ hlater

/-- and so is what stands before silent terms only. -/
theorem last (hg : g.FragmentsSilent) (h : Bears g n (term t) P)
    (hs : ∀ t ∈ terms, t.isSilent = true) : Bears g n (sequence (t :: terms)) P := by
  intro c m hm
  cases hm with
  | cons hfirst hlater =>
    simpa only [nodes_eq_nil hg hlater hs, List.append_nil] using h _ _ hfirst

/-- A term with one node puts it in front of what follows. -/
theorem cons (h : Bears g n (term t) (IsOne R)) (hs : Bears g n (sequence terms) Q) :
    Bears g n (sequence (t :: terms))
      (fun nodes => ∃ node later, nodes = node :: later ∧ R node ∧ Q later) := by
  intro c m hm
  cases hm with
  | cons hfirst hlater =>
    obtain ⟨node, hnode, hR⟩ := h _ _ hfirst
    rw [hnode]
    exact ⟨node, _, rfl, hR, hs _ _ hlater⟩

/-- Whatever alternative is taken. -/
theorem choice (h : ∀ terms ∈ alternatives, Bears g n (sequence terms) P) :
    Bears g n (Goal.choice alternatives) P := by
  intro c m hm
  cases hm with
  | choice hterms hm => exact h _ hterms _ _ hm

theorem choice_one (h : Bears g n (sequence terms) P) : Bears g n (Goal.choice [terms]) P :=
  choice fun _ hterms => List.mem_singleton.1 hterms ▸ h

theorem choice_two {terms' : List Term} (h : Bears g n (sequence terms) P)
    (h' : Bears g n (sequence terms') P) : Bears g n (Goal.choice [terms, terms']) P := by
  refine choice fun other hother => ?_
  simp only [List.mem_cons, List.not_mem_nil, or_false] at hother
  obtain rfl | rfl := hother
  · exact h
  · exact h'

/-! ## Terms that stand for rules -/

/-- **The name of a rule bears one node**, and the body of the rule bears what is
below it, with one body less to count. -/
theorem reference (ht : t.symbol = .reference name) (hd : g.find? name = some d)
    (hd' : d.isFragment = false) (h : ∀ k < n, Bears g k (Goal.choice d.alternatives) P)
    (hR : ∀ node, node.kind = name → P node.children → R node) :
    Bears g n (symbol t) (IsOne R) := by
  intro c m hm
  cases hm with
  | literal ht' => rw [ht] at ht'; cases ht'
  | reference ht' hin hrule =>
    obtain rfl : name = _ := Symbol.reference.inj (ht.symm.trans ht')
    obtain rfl : d = _ := Option.some.inj (hd.symm.trans (Grammar.find?_eq_some_iff.2 hin))
    cases hrule with
    | fragment hfragment => rw [hd'] at hfragment; cases hfragment
    | node _ hbody => exact ⟨_, rfl, hR _ hin.name_eq (h _ (Nat.lt_succ_self _) _ _ hbody)⟩

theorem once (ht : t.repetition = .once) (h : Bears g n (symbol t) P) : Bears g n (term t) P := by
  intro c m hm
  cases hm with
  | once _ hm => exact h _ _ hm
  | _ => simp_all

private theorem many (h : Bears g n (symbol t) (IsOne R)) :
    Bears g n (Goal.many t) (fun nodes => ∀ node ∈ nodes, R node) := by
  intro c m hm
  generalize hx : Goal.many t = x at hm
  induction hm with cases hx
  | manyStop => simp
  | manyMore hfirst _ _ ih =>
    obtain ⟨node, hnode, hR⟩ := h _ _ hfirst
    rw [hnode]
    exact List.forall_mem_cons.2 ⟨hR, ih h rfl⟩

theorem zeroOrMore (ht : t.repetition = .zeroOrMore) (h : Bears g n (symbol t) (IsOne R)) :
    Bears g n (term t) (fun nodes => ∀ node ∈ nodes, R node) := by
  intro c m hm
  cases hm with
  | zeroOrMore _ hm => exact many h _ _ hm
  | _ => simp_all

theorem oneOrMore (ht : t.repetition = .oneOrMore) (h : Bears g n (symbol t) (IsOne R)) :
    Bears g n (term t) (fun nodes => nodes ≠ [] ∧ ∀ node ∈ nodes, R node) := by
  intro c m hm
  cases hm with
  | oneOrMore _ hfirst hlater =>
    obtain ⟨node, hnode, hR⟩ := h _ _ hfirst
    rw [hnode]
    exact ⟨by simp, List.forall_mem_cons.2 ⟨hR, many h _ _ hlater⟩⟩
  | _ => simp_all

end Bears

end OrderedBnf
