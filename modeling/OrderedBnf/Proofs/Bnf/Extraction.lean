import Mathlib.Data.List.Forall2
import Mathlib.Data.List.Nodup
import OrderedBnf.Proofs.Bnf.Alternative
import OrderedBnf.Proofs.Tree.Address

/-!
# Reading an alternative off any tree

The terms below a node are read for any tree, not only for those that a document has.
What is read are the term nodes that are reached through lists alone (`IsTermAt`), each
once, and nothing else of the tree: a term says the text of its first literal, or else of
its first name, and a term that has neither is the only thing that can go wrong.

What the terms below a node come to is a matter of its children alone, and of those only
of the terms and the lists (`SameTerms`); problems are reported about a parse and stand in
no node.

The terms of a level are read before those of the lists in it. So they come in the order
of the tree wherever no term stands behind a list (`TermsFirst`), as in the chains that an
alternative is made of.
-/

namespace OrderedBnf

namespace Bnf

variable {node term child list : Node} {nodes nodes' : List Node} {address inner : List Nat}
variable {text : String} {texts : List String} {fault : Fault} {i k : Nat}

/-! ## What is read -/

/-- **The lists of a node** with their addresses: the node itself, and the lists that are
reached from it through lists alone. -/
inductive IsListAt : Node → List Nat → Node → Prop
  | here {node : Node} : IsListAt node [] node
  | inside {node list inner : Node} {i : Nat} {address : List Nat} :
      node.children[i]? = some list → list.kind = "list" → IsListAt list address inner →
      IsListAt node (i :: address) inner

/-- **The terms of a node** with their addresses: the terms among the children of its
lists. -/
def IsTermAt (node : Node) (address : List Nat) (term : Node) : Prop :=
  ∃ above list i, address = above ++ [i] ∧ IsListAt node above list ∧
    list.children[i]? = some term ∧ term.kind = "term"

/-- A node of a kind that has none of this kind before it. -/
def IsFirst (kind : String) (nodes : List Node) (node : Node) : Prop :=
  ∃ before after, nodes = before ++ node :: after ∧ node.kind = kind ∧
    ∀ other ∈ before, other.kind ≠ kind

/-- **What a term says**: the text of its first literal, or else of its first name. -/
inductive Says (term : Node) : String → Prop
  | literal {leaf : Node} : IsFirst "literal" term.children leaf → Says term leaf.text
  | name {leaf : Node} : (∀ child ∈ term.children, child.kind ≠ "literal") →
      IsFirst "rule-name" term.children leaf → Says term leaf.text

/-- A term that says nothing has neither a literal nor a name. -/
def SaysNothing (term : Node) : Prop :=
  ∀ child ∈ term.children, child.kind ≠ "literal" ∧ child.kind ≠ "rule-name"

/-- What is wrong with a term that says nothing. -/
def nothingSaid : Fault := .missingNode "literal or rule-name"

theorem childOfKind?_eq_some_iff {kind : String} :
    node.childOfKind? kind = some child ↔ IsFirst kind node.children child := by
  rw [Node.childOfKind?, List.find?_eq_some_iff_append, IsFirst]
  simp only [beq_iff_eq, Bool.not_eq_true', beq_eq_false_iff_ne]
  constructor
  · rintro ⟨hkind, before, after, hchildren, hbefore⟩
    exact ⟨before, after, hchildren, hkind, hbefore⟩
  · rintro ⟨before, after, hchildren, hkind, hbefore⟩
    exact ⟨hkind, before, after, hchildren, hbefore⟩

theorem childOfKind?_eq_none_iff {kind : String} :
    node.childOfKind? kind = none ↔ ∀ child ∈ node.children, child.kind ≠ kind := by
  simp [Node.childOfKind?, List.find?_eq_none]

/-- **A term is read as what it says**, -/
theorem termText_eq_ok_iff : termText term = .ok text ↔ Says term text := by
  rw [termText]
  constructor
  · intro h
    cases hliteral : term.childOfKind? "literal" with
    | some leaf =>
      rw [hliteral, Option.some_or] at h
      obtain rfl := Except.ok.inj h
      exact .literal (childOfKind?_eq_some_iff.1 hliteral)
    | none =>
      rw [hliteral, Option.none_or] at h
      cases hname : term.childOfKind? "rule-name" with
      | some leaf =>
        rw [hname] at h
        obtain rfl := Except.ok.inj h
        exact .name (childOfKind?_eq_none_iff.1 hliteral) (childOfKind?_eq_some_iff.1 hname)
      | none => rw [hname] at h; cases h
  · rintro (hliteral | ⟨hliteral, hname⟩)
    · rw [childOfKind?_eq_some_iff.2 hliteral]
      rfl
    · rw [childOfKind?_eq_none_iff.2 hliteral, childOfKind?_eq_some_iff.2 hname]
      rfl

/-- and it cannot be read if it says nothing. -/
theorem termText_eq_error_iff :
    termText term = .error fault ↔ fault = nothingSaid ∧ SaysNothing term := by
  have hnothing : SaysNothing term ↔
      term.childOfKind? "literal" = none ∧ term.childOfKind? "rule-name" = none := by
    rw [childOfKind?_eq_none_iff, childOfKind?_eq_none_iff, ← forall₂_and]
    rfl
  rw [hnothing, ← Option.or_eq_none_iff, termText]
  cases (term.childOfKind? "literal").or (term.childOfKind? "rule-name") with
  | some leaf => simp
  | none => simp [nothingSaid, eq_comm]

/-! ## Outcomes of reading -/

/-- What the term at an address says, given where the terms are. -/
def SaysAt (isTerm : List Nat → Node → Prop) (address : List Nat) (text : String) : Prop :=
  ∃ term, isTerm address term ∧ Says term text

/-- **What reading some terms comes to**, given where the terms are: the texts that they
say, in the order of the addresses, or that one of them says nothing. -/
def IsOutcome (isTerm : List Nat → Node → Prop) (addresses : List (List Nat)) :
    Except Fault (List String) → Prop
  | .ok texts => List.Forall₂ (SaysAt isTerm) addresses texts
  | .error fault => fault = nothingSaid ∧ ∃ address term, isTerm address term ∧ SaysNothing term

namespace IsOutcome

variable {isTerm isTerm' : List Nat → Node → Prop} {addresses addresses' : List (List Nat)}
variable {outcome outcome' : Except Fault (List String)}

theorem imp (himp : ∀ address term, isTerm address term → isTerm' address term)
    (h : IsOutcome isTerm addresses outcome) : IsOutcome isTerm' addresses outcome := by
  cases outcome with
  | ok texts => exact List.Forall₂.imp (fun address text ⟨term, hterm, hsays⟩ =>
      ⟨term, himp address term hterm, hsays⟩) h
  | error fault =>
    obtain ⟨hfault, address, term, hterm, hnothing⟩ := h
    exact ⟨hfault, address, term, himp address term hterm, hnothing⟩

/-- The same terms may be addressed from further above. -/
theorem map_cons (k : Nat) (h : IsOutcome isTerm addresses outcome) :
    IsOutcome (fun address term => ∃ inner, address = k :: inner ∧ isTerm inner term)
      (addresses.map (k :: ·)) outcome := by
  cases outcome with
  | ok texts =>
    exact List.forall₂_map_left_iff.2 (List.Forall₂.imp (fun address text ⟨term, hterm, hsays⟩ =>
      ⟨term, ⟨address, rfl, hterm⟩, hsays⟩) h)
  | error fault =>
    obtain ⟨hfault, address, term, hterm, hnothing⟩ := h
    exact ⟨hfault, k :: address, term, ⟨address, rfl, hterm⟩, hnothing⟩

theorem append (h : IsOutcome isTerm addresses outcome)
    (h' : IsOutcome isTerm addresses' outcome') :
    IsOutcome isTerm (addresses ++ addresses') (do
      let texts ← outcome
      let texts' ← outcome'
      return texts ++ texts') := by
  cases outcome with
  | error fault => exact h
  | ok texts =>
    cases outcome' with
    | error fault => exact h'
    | ok texts' => exact List.rel_append h h'

end IsOutcome

/-! ## The terms of a level -/

/-- The addresses of the terms among some children, the first of which has the index `k`. -/
def ownAddresses (k : Nat) : List Node → List (List Nat)
  | [] => []
  | child :: rest => (if child.kind == "term" then [[k]] else []) ++ ownAddresses (k + 1) rest

mutual

/-- **The addresses of the terms below a node**, in the order in which they are read. -/
def termAddresses : Node → List (List Nat)
  | ⟨_, _, _, _, children, _⟩ => ownAddresses 0 children ++ nestedAddresses 0 children

/-- The addresses of the terms below those children that are lists. -/
def nestedAddresses (k : Nat) : List Node → List (List Nat)
  | [] => []
  | child :: rest =>
    (if child.kind == "list" then (termAddresses child).map (k :: ·) else []) ++
      nestedAddresses (k + 1) rest

end

theorem termAddresses_eq (node : Node) : termAddresses node =
    ownAddresses 0 node.children ++ nestedAddresses 0 node.children := by
  cases node
  rw [termAddresses]

/-- A term among some children, the first of which has the index `k`. -/
def IsOwnTerm (k : Nat) (nodes : List Node) (address : List Nat) (term : Node) : Prop :=
  ∃ i, address = [k + i] ∧ nodes[i]? = some term ∧ term.kind = "term"

/-- A term below one of them that is a list. -/
def IsNestedTerm (k : Nat) (nodes : List Node) (address : List Nat) (term : Node) : Prop :=
  ∃ i inner list, address = (k + i) :: inner ∧ nodes[i]? = some list ∧ list.kind = "list" ∧
    IsTermAt list inner term

/-- **A term of a node** is one of its own or one below a list. -/
theorem isTermAt_iff : IsTermAt node address term ↔
    IsOwnTerm 0 node.children address term ∨ IsNestedTerm 0 node.children address term := by
  constructor
  · rintro ⟨above, list, i, rfl, hlist, hterm, hkind⟩
    cases hlist with
    | here => exact .inl ⟨i, by simp, hterm, hkind⟩
    | @inside _ next _ j above hnext hnextkind hlist =>
      exact .inr ⟨j, above ++ [i], next, by simp, hnext, hnextkind, above, list, i, rfl, hlist,
        hterm, hkind⟩
  · rintro (⟨i, rfl, hterm, hkind⟩ | ⟨j, _, next, rfl, hnext, hnextkind, above, list, i, rfl,
      hlist, hterm, hkind⟩)
    · exact ⟨[], node, i, by simp, .here, hterm, hkind⟩
    · exact ⟨j :: above, list, i, by simp, .inside hnext hnextkind hlist, hterm, hkind⟩

theorem isOwnTerm_cons : IsOwnTerm k (child :: nodes) address term ↔
    (address = [k] ∧ child = term ∧ child.kind = "term") ∨
      IsOwnTerm (k + 1) nodes address term := by
  constructor
  · rintro ⟨_ | i, rfl, hterm, hkind⟩
    · obtain rfl := Option.some.inj hterm
      exact .inl ⟨rfl, rfl, hkind⟩
    · exact .inr ⟨i, by rw [Nat.add_right_comm]; rfl, hterm, hkind⟩
  · rintro (⟨rfl, rfl, hkind⟩ | ⟨i, rfl, hterm, hkind⟩)
    · exact ⟨0, rfl, rfl, hkind⟩
    · exact ⟨i + 1, by rw [Nat.add_right_comm]; rfl, hterm, hkind⟩

theorem isNestedTerm_cons : IsNestedTerm k (child :: nodes) address term ↔
    (child.kind = "list" ∧ ∃ inner, address = k :: inner ∧ IsTermAt child inner term) ∨
      IsNestedTerm (k + 1) nodes address term := by
  constructor
  · rintro ⟨_ | i, inner, list, rfl, hlist, hkind, hterm⟩
    · obtain rfl := Option.some.inj hlist
      exact .inl ⟨hkind, inner, rfl, hterm⟩
    · exact .inr ⟨i, inner, list, by rw [Nat.add_right_comm]; rfl, hlist, hkind, hterm⟩
  · rintro (⟨hkind, inner, rfl, hterm⟩ | ⟨i, inner, list, rfl, hlist, hkind, hterm⟩)
    · exact ⟨0, inner, child, rfl, rfl, hkind, hterm⟩
    · exact ⟨i + 1, inner, list, by rw [Nat.add_right_comm]; rfl, hlist, hkind, hterm⟩

/-! ## Every term, once -/

theorem mem_ownAddresses :
    address ∈ ownAddresses k nodes ↔ ∃ term, IsOwnTerm k nodes address term := by
  induction nodes generalizing k with
  | nil => simp [ownAddresses, IsOwnTerm]
  | cons child nodes ih =>
    simp only [ownAddresses, List.mem_append, ih, isOwnTerm_cons, exists_or]
    by_cases hkind : child.kind = "term" <;> simp [hkind]

theorem mem_nestedAddresses
    (hlists : ∀ child ∈ nodes, ∀ address,
      address ∈ termAddresses child ↔ ∃ term, IsTermAt child address term) :
    address ∈ nestedAddresses k nodes ↔ ∃ term, IsNestedTerm k nodes address term := by
  induction nodes generalizing k with
  | nil => simp [nestedAddresses, IsNestedTerm]
  | cons child nodes ih =>
    obtain ⟨hchild, hnodes⟩ := List.forall_mem_cons.1 hlists
    simp only [nestedAddresses, List.mem_append, ih hnodes, isNestedTerm_cons, exists_or]
    by_cases hkind : child.kind = "list"
    · simp only [hkind, beq_self_eq_true, if_true, List.mem_map, hchild, true_and]
      grind
    · simp [hkind]

/-- **The addresses are those of the terms.** -/
theorem mem_termAddresses (node : Node) (address : List Nat) :
    address ∈ termAddresses node ↔ ∃ term, IsTermAt node address term := by
  induction node using Node.children_induction generalizing address with
  | h node ih =>
    rw [termAddresses_eq, List.mem_append, mem_ownAddresses, mem_nestedAddresses ih]
    simp only [isTermAt_iff, exists_or]

/-- The address of a term is that of a child, or longer. -/
theorem IsTermAt.ne_nil (h : IsTermAt node address term) : address ≠ [] := by
  obtain ⟨above, list, i, rfl, -⟩ := h
  simp

theorem nodup_ownAddresses (k : Nat) (nodes : List Node) : (ownAddresses k nodes).Nodup := by
  induction nodes generalizing k with
  | nil => exact .nil
  | cons child nodes ih =>
    rw [ownAddresses]
    split
    · refine List.nodup_cons.2 ⟨fun hmem => ?_, ih (k + 1)⟩
      obtain ⟨term, i, haddress, -⟩ := mem_ownAddresses.1 hmem
      have := (List.cons.inj haddress).1
      omega
    · exact ih (k + 1)

theorem nodup_nestedAddresses (hlists : ∀ child ∈ nodes, (termAddresses child).Nodup) (k : Nat) :
    (nestedAddresses k nodes).Nodup := by
  induction nodes generalizing k with
  | nil => exact .nil
  | cons child nodes ih =>
    obtain ⟨hchild, hnodes⟩ := List.forall_mem_cons.1 hlists
    have hlater : ∀ address, k :: address ∉ nestedAddresses (k + 1) nodes := by
      intro address hmem
      obtain ⟨term, i, _, _, haddress, -⟩ :=
        (mem_nestedAddresses fun child _ => mem_termAddresses child).1 hmem
      have := (List.cons.inj haddress).1
      omega
    rw [nestedAddresses]
    split
    · refine List.nodup_append.2 ⟨List.Nodup.map List.cons_injective hchild, ih hnodes (k + 1), ?_⟩
      rintro _ hmem _ hmem' rfl
      obtain ⟨address, -, rfl⟩ := List.mem_map.1 hmem
      exact hlater address hmem'
    · exact ih hnodes (k + 1)

/-- **No term is read twice.** -/
theorem nodup_termAddresses (node : Node) : (termAddresses node).Nodup := by
  induction node using Node.children_induction with
  | h node ih =>
    rw [termAddresses_eq]
    refine List.nodup_append.2 ⟨nodup_ownAddresses 0 _, nodup_nestedAddresses ih 0, ?_⟩
    rintro _ hown _ hnested rfl
    obtain ⟨_, i, rfl, -⟩ := mem_ownAddresses.1 hown
    obtain ⟨_, j, inner, _, haddress, -, -, hterm⟩ :=
      (mem_nestedAddresses fun child _ => mem_termAddresses child).1 hnested
    exact hterm.ne_nil (List.cons.inj haddress).2.symm

/-- The own terms of a node, one after another. -/
theorem ownTerms_cons (child : Node) (nodes : List Node) : ownTerms (child :: nodes) = (do
    let first ← (if child.kind == "term" then (termText child).map ([·]) else .ok [] :
      Except Fault (List String))
    let later ← ownTerms nodes
    return first ++ later) := by
  rw [ownTerms, List.filter_cons]
  split
  · rw [List.mapM_cons]
    cases termText child with
    | error fault => rfl
    | ok text => rfl
  · rw [← ownTerms]
    cases ownTerms nodes <;> rfl

/-- The terms below lists, one list after another. -/
theorem nestedTerms_cons (child : Node) (nodes : List Node) : nestedTerms (child :: nodes) = (do
    let first ← (if child.kind == "list" then terms child else .ok [] :
      Except Fault (List String))
    let later ← nestedTerms nodes
    return first ++ later) := by
  rw [nestedTerms]
  split
  · rfl
  · cases nestedTerms nodes <;> rfl

theorem isOutcome_ownTerms (k : Nat) (nodes : List Node) :
    IsOutcome (IsOwnTerm k nodes) (ownAddresses k nodes) (ownTerms nodes) := by
  induction nodes generalizing k with
  | nil => exact .nil
  | cons child nodes ih =>
    rw [ownTerms_cons, ownAddresses]
    refine IsOutcome.append ?_ ((ih (k + 1)).imp fun _ _ h => isOwnTerm_cons.2 (.inr h))
    split
    · rename_i hkind
      have hown : IsOwnTerm k (child :: nodes) [k] child :=
        isOwnTerm_cons.2 (.inl ⟨rfl, rfl, eq_of_beq hkind⟩)
      cases htext : termText child with
      | ok text => exact .cons ⟨child, hown, termText_eq_ok_iff.1 htext⟩ .nil
      | error fault =>
        obtain ⟨rfl, hnothing⟩ := termText_eq_error_iff.1 htext
        exact ⟨rfl, [k], child, hown, hnothing⟩
    · exact .nil

theorem isOutcome_nestedTerms (k : Nat)
    (hlists : ∀ child ∈ nodes, IsOutcome (IsTermAt child) (termAddresses child) (terms child)) :
    IsOutcome (IsNestedTerm k nodes) (nestedAddresses k nodes) (nestedTerms nodes) := by
  induction nodes generalizing k with
  | nil =>
    rw [nestedTerms]
    exact .nil
  | cons child nodes ih =>
    obtain ⟨hchild, hnodes⟩ := List.forall_mem_cons.1 hlists
    rw [nestedTerms_cons, nestedAddresses]
    refine IsOutcome.append ?_ ((ih (k + 1) hnodes).imp fun _ _ h => isNestedTerm_cons.2 (.inr h))
    split
    · rename_i hkind
      exact (hchild.map_cons k).imp fun _ _ h => isNestedTerm_cons.2 (.inl ⟨eq_of_beq hkind, h⟩)
    · exact .nil

/-- **Reading the terms below a node** comes to what they say, or fails with one that says
nothing. -/
theorem isOutcome_terms (node : Node) :
    IsOutcome (IsTermAt node) (termAddresses node) (terms node) := by
  induction node using Node.children_induction with
  | h node ih =>
    rw [terms_eq, termAddresses_eq]
    exact ((isOutcome_ownTerms 0 node.children).imp fun _ _ h => isTermAt_iff.2 (.inl h)).append
      ((isOutcome_nestedTerms 0 ih).imp fun _ _ h => isTermAt_iff.2 (.inr h))

/-! ## In order -/

/-- **No term stands behind a list**, among the children of any list of a node. -/
def TermsFirst (node : Node) : Prop :=
  ∀ address list, IsListAt node address list →
    list.children.Pairwise fun a b => ¬ (a.kind = "list" ∧ b.kind = "term")

theorem ownAddresses_eq_nil (h : ∀ child ∈ nodes, child.kind ≠ "term") (k : Nat) :
    ownAddresses k nodes = [] := by
  refine List.eq_nil_iff_forall_not_mem.2 fun address hmem => ?_
  obtain ⟨term, i, -, hterm, hkind⟩ := mem_ownAddresses.1 hmem
  exact h term (List.mem_of_getElem? hterm) hkind

theorem sublist_addressesFrom (k : Nat)
    (hlists : ∀ child ∈ nodes, child.kind = "list" → (termAddresses child).Sublist child.addresses)
    (horder : nodes.Pairwise fun a b => ¬ (a.kind = "list" ∧ b.kind = "term")) :
    (ownAddresses k nodes ++ nestedAddresses k nodes).Sublist (Node.addressesFrom k nodes) := by
  induction nodes generalizing k with
  | nil => exact .slnil
  | cons child nodes ih =>
    obtain ⟨hchild, hnodes⟩ := List.forall_mem_cons.1 hlists
    obtain ⟨hfirst, hlater⟩ := List.pairwise_cons.1 horder
    have hrest := ih (k + 1) hnodes hlater
    rw [ownAddresses, nestedAddresses, Node.addressesFrom]
    by_cases hlist : child.kind = "list"
    · -- behind a list there is no term, so its terms come first
      have hnone := ownAddresses_eq_nil (k := k + 1)
        fun other hother hkind => hfirst other hother ⟨hlist, hkind⟩
      rw [hnone, List.nil_append] at hrest
      simpa [hlist, hnone] using ((hchild hlist).map _).append hrest
    · by_cases hterm : child.kind = "term"
      · have hroot : [[k]].Sublist (child.addresses.map (k :: ·)) := by
          rw [Node.addresses_eq]
          simp
        simpa [hterm] using hroot.append hrest
      · simpa [hlist, hterm] using hrest.trans (List.sublist_append_right _ _)

/-- **Terms that stand before the lists are read in the order of the tree.** -/
theorem termAddresses_sublist (h : TermsFirst node) :
    (termAddresses node).Sublist node.addresses := by
  induction node using Node.children_induction with
  | h node ih =>
    rw [termAddresses_eq, Node.addresses_eq]
    refine .cons _ (sublist_addressesFrom 0 (fun child hchild hkind => ?_) (h [] node .here))
    obtain ⟨i, hi⟩ := List.mem_iff_getElem?.1 hchild
    exact ih child hchild fun address list hlist => h (i :: address) list (.inside hi hkind hlist)

/-! ## Nothing else -/

/-- **Children of terms that say the same**: their literals and names have the same texts.
Whatever else there is among them, before or behind, does not matter, nor does where a node
lies or which errors it carries. -/
inductive SameWords : List Node → List Node → Prop
  | nil : SameWords [] []
  | left {other : Node} {nodes nodes' : List Node} : other.kind ≠ "literal" →
      other.kind ≠ "rule-name" → SameWords nodes nodes' → SameWords (other :: nodes) nodes'
  | right {other : Node} {nodes nodes' : List Node} : other.kind ≠ "literal" →
      other.kind ≠ "rule-name" → SameWords nodes nodes' → SameWords nodes (other :: nodes')
  | word {leaf leaf' : Node} {nodes nodes' : List Node} : leaf'.kind = leaf.kind →
      leaf'.text = leaf.text → SameWords nodes nodes' →
      SameWords (leaf :: nodes) (leaf' :: nodes')

/-- **Children of nodes that have the same terms**: their terms have children that say the
same, and their lists have children with the same terms. Whatever else there is among them,
before or behind, does not matter, nor do the texts, places and errors of terms and lists. -/
inductive SameTerms : List Node → List Node → Prop
  | nil : SameTerms [] []
  | left {other : Node} {nodes nodes' : List Node} : other.kind ≠ "term" → other.kind ≠ "list" →
      SameTerms nodes nodes' → SameTerms (other :: nodes) nodes'
  | right {other : Node} {nodes nodes' : List Node} : other.kind ≠ "term" → other.kind ≠ "list" →
      SameTerms nodes nodes' → SameTerms nodes (other :: nodes')
  | term {term term' : Node} {nodes nodes' : List Node} : term.kind = "term" →
      term'.kind = "term" → SameWords term.children term'.children → SameTerms nodes nodes' →
      SameTerms (term :: nodes) (term' :: nodes')
  | list {list list' : Node} {nodes nodes' : List Node} : list.kind = "list" →
      list'.kind = "list" → SameTerms list.children list'.children → SameTerms nodes nodes' →
      SameTerms (list :: nodes) (list' :: nodes')

theorem SameWords.find?_eq {kind : String} (h : SameWords nodes nodes')
    (hkind : kind = "literal" ∨ kind = "rule-name") :
    (nodes'.find? (·.kind == kind)).map Node.text =
      (nodes.find? (·.kind == kind)).map Node.text := by
  induction h with
  | nil => rfl
  | left hliteral hname _ ih =>
    rw [ih, List.find?_cons_of_neg]
    rcases hkind with rfl | rfl <;> simpa
  | right hliteral hname _ ih =>
    rw [← ih, List.find?_cons_of_neg]
    rcases hkind with rfl | rfl <;> simpa
  | word hsame htext _ ih =>
    rw [List.find?_cons, List.find?_cons, hsame]
    split
    · simp [htext]
    · exact ih

theorem SameWords.termText_eq {term' : Node} (h : SameWords term.children term'.children) :
    termText term' = termText term := by
  have hliteral := h.find?_eq (.inl rfl)
  have hname := h.find?_eq (.inr rfl)
  rw [← Node.childOfKind?, ← Node.childOfKind?] at hliteral hname
  have hword : ((term'.childOfKind? "literal").or (term'.childOfKind? "rule-name")).map Node.text =
      ((term.childOfKind? "literal").or (term.childOfKind? "rule-name")).map Node.text := by
    rw [Option.map_or, Option.map_or, hliteral, hname]
  unfold termText
  generalize (term'.childOfKind? "literal").or (term'.childOfKind? "rule-name") = word' at hword
  generalize (term.childOfKind? "literal").or (term.childOfKind? "rule-name") = word at hword
  cases word' with
  | none =>
    obtain rfl : word = none := by simpa using hword.symm
    rfl
  | some leaf' =>
    obtain ⟨leaf, rfl, htext⟩ := Option.map_eq_some_iff.1 hword.symm
    simp only [htext]

theorem SameTerms.terms_children_eq (h : SameTerms nodes nodes') :
    ownTerms nodes' = ownTerms nodes ∧ nestedTerms nodes' = nestedTerms nodes := by
  induction h with
  | nil => exact ⟨rfl, rfl⟩
  | left hterm hlist _ ih =>
    rw [ih.1, ih.2]
    constructor
    · simp [ownTerms, hterm]
    · simp [nestedTerms, hlist]
  | right hterm hlist _ ih =>
    rw [← ih.1, ← ih.2]
    constructor
    · simp [ownTerms, hterm]
    · simp [nestedTerms, hlist]
  | term hkind hkind' hwords _ ih =>
    rw [ownTerms_cons, ownTerms_cons, nestedTerms_cons, nestedTerms_cons, ih.1, ih.2, hkind, hkind',
      hwords.termText_eq]
    exact ⟨rfl, rfl⟩
  | list hkind hkind' _ _ ihlist ih =>
    rw [ownTerms_cons, ownTerms_cons, nestedTerms_cons, nestedTerms_cons, ih.1, ih.2, hkind, hkind',
      terms_eq, terms_eq, ihlist.1, ihlist.2]
    exact ⟨rfl, rfl⟩

/-- **Nodes whose children have the same terms are read alike.** -/
theorem SameTerms.terms_eq {node' : Node} (h : SameTerms node.children node'.children) :
    terms node' = terms node := by
  rw [Bnf.terms_eq, Bnf.terms_eq, h.terms_children_eq.1, h.terms_children_eq.2]

/-! ## The terms of any tree -/

theorem IsListAt.at?_append (h : IsListAt node address list) (rest : List Nat) :
    node.at? (address ++ rest) = list.at? rest := by
  induction h with
  | here => rfl
  | inside hlist _ _ ih => rw [List.cons_append, Node.at?, hlist, Option.bind_some, ih]

/-- A term is the node at its address. -/
theorem IsTermAt.at?_eq (h : IsTermAt node address term) : node.at? address = some term := by
  obtain ⟨above, list, i, rfl, hlist, hterm, -⟩ := h
  rw [hlist.at?_append, Node.at?, hterm]
  rfl

theorem IsTermAt.eq {term' : Node} (h : IsTermAt node address term)
    (h' : IsTermAt node address term') : term = term' :=
  Option.some.inj (h.at?_eq.symm.trans h'.at?_eq)

theorem Says.eq {text' : String} (h : Says term text) (h' : Says term text') : text = text' :=
  Except.ok.inj ((termText_eq_ok_iff.2 h).symm.trans (termText_eq_ok_iff.2 h'))

theorem SaysNothing.not_says (h : SaysNothing term) : ¬ Says term text := by
  intro hsays
  have := (termText_eq_ok_iff.2 hsays).symm.trans (termText_eq_error_iff.2 ⟨rfl, h⟩)
  cases this

theorem SaysAt.eq {text' : String} (h : SaysAt (IsTermAt node) address text)
    (h' : SaysAt (IsTermAt node) address text') : text = text' := by
  obtain ⟨term, hterm, hsays⟩ := h
  obtain ⟨term', hterm', hsays'⟩ := h'
  obtain rfl := hterm.eq hterm'
  exact hsays.eq hsays'

/-- Where each term says a text there is none that says nothing. -/
theorem not_saysNothing (hall : List.Forall₂ (SaysAt (IsTermAt node)) (termAddresses node) texts)
    (hterm : IsTermAt node address term) : ¬ SaysNothing term := by
  intro hnothing
  have hsaid : ∀ addresses texts, List.Forall₂ (SaysAt (IsTermAt node)) addresses texts →
      address ∉ addresses := by
    intro addresses texts hall
    induction hall with
    | nil => exact List.not_mem_nil
    | cons hsays _ ih =>
      refine List.not_mem_cons_of_ne_of_not_mem ?_ ih
      rintro rfl
      obtain ⟨term', hterm', hsays⟩ := hsays
      obtain rfl := hterm.eq hterm'
      exact hnothing.not_says hsays
  exact hsaid _ _ hall ((mem_termAddresses node address).2 ⟨term, hterm⟩)

/-- The terms cannot be read exactly if there is one that says nothing, -/
theorem terms_eq_error_iff : terms node = .error fault ↔
    fault = nothingSaid ∧ ∃ address term, IsTermAt node address term ∧ SaysNothing term := by
  have hread := isOutcome_terms node
  constructor
  · intro h
    rwa [h] at hread
  · rintro ⟨rfl, address, term, hterm, hnothing⟩
    cases h : terms node with
    | error fault =>
      rw [h] at hread
      rw [hread.1]
    | ok texts =>
      rw [h] at hread
      exact absurd hnothing (not_saysNothing hread hterm)

/-- and otherwise they are read as the texts that they say. -/
theorem terms_eq_ok_iff :
    terms node = .ok texts ↔ List.Forall₂ (SaysAt (IsTermAt node)) (termAddresses node) texts := by
  have hread := isOutcome_terms node
  constructor
  · intro h
    rwa [h] at hread
  · intro hall
    cases h : terms node with
    | ok texts' =>
      rw [h] at hread
      have hunique : Relator.RightUnique (SaysAt (IsTermAt node)) := fun _ _ _ h h' => h.eq h'
      rw [List.right_unique_forall₂' hunique hread hall]
    | error fault =>
      rw [h] at hread
      obtain ⟨-, address, term, hterm, hnothing⟩ := hread
      exact absurd hnothing (not_saysNothing hall hterm)

/-- **Reading loses no term, reads none twice, and is led by nothing else.** For any node
there is a list of the addresses of its terms, each of them once. Reading the terms fails
exactly if one of them says nothing, and otherwise gives the text of each, in the order of
the list. If no term stands behind a list, this is the order of the tree. And nodes whose
children have the same terms are read alike. -/
theorem terms_each_once (node : Node) :
    ∃ addresses : List (List Nat), addresses.Nodup ∧
      (∀ address, address ∈ addresses ↔ ∃ term, IsTermAt node address term) ∧
      (∀ address term, IsTermAt node address term → node.at? address = some term) ∧
      (∀ fault, terms node = .error fault ↔
        fault = nothingSaid ∧ ∃ address term, IsTermAt node address term ∧ SaysNothing term) ∧
      (∀ texts, terms node = .ok texts ↔ List.Forall₂ (SaysAt (IsTermAt node)) addresses texts) ∧
      (TermsFirst node → addresses.Sublist node.addresses) ∧
      (node.addresses.map fun address => (address.length, node.at? address)) =
        (node.preorder.map fun entry => (entry.1, some entry.2)) ∧
      ∀ node' : Node, SameTerms node.children node'.children → terms node' = terms node := by
  refine ⟨termAddresses node, nodup_termAddresses node, mem_termAddresses node,
    fun _ _ h => h.at?_eq, fun _ => terms_eq_error_iff, fun _ => terms_eq_ok_iff,
    termAddresses_sublist, ?_, fun _ h => h.terms_eq⟩
  simpa [Node.preorder] using node.map_addresses 0

/-- Behind a list, a term is out of order. -/
example : terms ⟨"list", "", 0, 0, [
      ⟨"list", "", 0, 0, [⟨"term", "", 0, 0, [⟨"rule-name", "b", 0, 0, [], []⟩], []⟩], []⟩,
      ⟨"term", "", 0, 0, [⟨"literal", "'a'", 0, 0, [], []⟩], []⟩], []⟩ =
    .ok ["'a'", "b"] := by decide

end Bnf

end OrderedBnf
