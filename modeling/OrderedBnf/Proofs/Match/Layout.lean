import OrderedBnf.Proofs.Match.Admit

/-!
# Where the nodes of a match lie

The nodes of a match lie between the cursor where it began and the one where
it stopped, in the order of the text and without overlap (`Admits.laid`). And
every node of their trees, however deep, was put around a match of its own: of
the definition in force for its kind, which is no fragment, at a cursor further
on (`Admits.matched`). Each node takes a body out of those that may be nested,
so the depth of a node is bounded by their number.
-/

namespace OrderedBnf

open Goal

/-! ## Listings -/

namespace Node

theorem listing_eq (depth : Nat) (node : Node) :
    node.listing depth = (depth, node) :: listingAll (depth + 1) node.children := by
  cases node
  rfl

theorem listingAll_append (depth : Nat) (xs ys : List Node) :
    listingAll depth (xs ++ ys) = listingAll depth xs ++ listingAll depth ys := by
  induction xs with
  | nil => rfl
  | cons x xs ih => simp only [List.cons_append, listingAll, ih, List.append_assoc]

theorem listingAll_one (depth : Nat) (node : Node) :
    listingAll depth [node] = (depth, node) :: listingAll (depth + 1) node.children := by
  simp only [listingAll, listing_eq, List.append_nil]

end Node

variable {g : Grammar} {n k depth start middle stop : Nat} {x : Goal} {c first : Cursor} {m : Match}
variable {nodes xs ys : List Node} {node : Node} {d : Definition}

/-! ## In order -/

/-- **Nodes that lie in order** between two offsets. -/
structure Laid (start stop : Nat) (nodes : List Node) : Prop where
  within : ∀ node ∈ nodes, start ≤ node.start ∧ node.stop ≤ stop
  ordered : nodes.Pairwise fun a b => a.stop ≤ b.start

theorem laid_nil : Laid start stop [] := ⟨by simp, .nil⟩

theorem Laid.append (hx : Laid start middle xs) (hy : Laid middle stop ys)
    (hstart : start ≤ middle) (hstop : middle ≤ stop) : Laid start stop (xs ++ ys) where
  within node hnode := by
    rcases List.mem_append.1 hnode with h | h
    · have := hx.within node h
      omega
    · have := hy.within node h
      omega
  ordered := List.pairwise_append.2 ⟨hx.ordered, hy.ordered, fun a ha b hb =>
    Nat.le_trans (hx.within a ha).2 (hy.within b hb).1⟩

theorem Cursor.Reaches.offset_le {c c' : Cursor} (h : c.Reaches c') : c.offset ≤ c'.offset := by
  obtain ⟨taken, -, ho⟩ := h
  omega

/-- **The nodes of a match lie in order** between its two ends. -/
theorem Admits.laid (h : Admits g n x c m) : Laid c.offset m.stop.offset m.nodes := by
  have hlaid : c.offset ≤ m.stop.offset ∧ Laid c.offset m.stop.offset m.nodes := by
    refine h.forall_match (P := fun c m => c.offset ≤ m.stop.offset ∧
      Laid c.offset m.stop.offset m.nodes) ?_ (fun c => ⟨Nat.le_refl _, laid_nil⟩) ?_ ?_
    · intro c stop text hr ho
      exact ⟨by dsimp only; omega, laid_nil⟩
    · rintro c m later ⟨hle, hm⟩ ⟨hle', hlater⟩
      exact ⟨Nat.le_trans hle hle', hm.append hlater hle hle'⟩
    · rintro c m d taken ⟨hle, -⟩ -
      exact ⟨hle, by simp, List.pairwise_singleton ..⟩
  exact hlaid.2

/-! ## Around a match -/

/-- **What a node was put around**: a match of the alternatives of the definition
in force for its kind, at a cursor that `first` reaches, with no more than `n`
bodies inside each other. What the node carries is left open, for the root of a
tree. -/
structure Matched (g : Grammar) (first : Cursor) (n : Nat) (d : Definition) (node : Node) :
    Prop where
  inForce : g.InForce node.kind d
  around : ∃ c m taken errors, first.Reaches c ∧ Admits g n (choice d.alternatives) c m ∧
    c.rest = taken ++ m.stop.rest ∧
    node = ⟨d.name, String.ofList taken, c.offset, m.stop.offset, m.nodes, errors⟩

/-- Cursors further back reach it as well. -/
theorem Matched.of_reaches (h : Matched g c n d node) (hc : first.Reaches c) :
    Matched g first n d node := by
  obtain ⟨hd, c', m, taken, errors, hc', hrest⟩ := h
  exact ⟨hd, c', m, taken, errors, hc.trans hc', hrest⟩

/-- Nodes that were all put around matches, none of them of a fragment, with
nothing to report and with room for so many bodies below a depth. -/
private abbrev AllMatched (g : Grammar) (c : Cursor) (n : Nat) (nodes : List Node) : Prop :=
  ∀ depth k node, (k, node) ∈ Node.listingAll depth nodes →
    ∃ n' d, k + n' < depth + n ∧ d.isFragment = false ∧ node.errors = [] ∧ Matched g c n' d node

private theorem allMatched_nil : AllMatched g c n [] := by
  intro depth k node h
  cases h

private theorem AllMatched.append (hx : AllMatched g c n xs) (hy : AllMatched g first n ys)
    (hc : c.Reaches first) : AllMatched g c n (xs ++ ys) := by
  intro depth k node h
  rw [Node.listingAll_append, List.mem_append] at h
  rcases h with h | h
  · exact hx depth k node h
  · obtain ⟨n', d, hk, hd, herrors, hnode⟩ := hy depth k node h
    exact ⟨n', d, hk, hd, herrors, hnode.of_reaches hc⟩

private theorem AllMatched.mono (h : AllMatched g c n nodes) (hle : n ≤ k) :
    AllMatched g c k nodes := by
  intro depth j node hnode
  obtain ⟨n', d, hj, hd, hmatched⟩ := h depth j node hnode
  exact ⟨n', d, by omega, hd, hmatched⟩

/-- **Every node of a match was put around a match.** The nodes of its trees
come of definitions that are in force and no fragments, they carry nothing to
report, and each has less room for bodies below it the deeper it lies. A rule
that is no goal of a reference has to be in force itself. -/
theorem Admits.matched (h : Admits g n x c m)
    (hx : ∀ d, x = rule d → g.InForce d.name d) :
    ∀ depth k node, (k, node) ∈ Node.listingAll depth m.nodes →
      ∃ n' d, k + n' < depth + n ∧ d.isFragment = false ∧ node.errors = [] ∧
        Matched g c n' d node := by
  change AllMatched g c n m.nodes
  induction h with
  | literal => exact allMatched_nil
  | manyStop => exact allMatched_nil
  | noOptional => exact allMatched_nil
  | nil => exact allMatched_nil
  | manyMore hm _ ih ihlater => exact (ih nofun).append (ihlater nofun) hm.reaches
  | oneOrMore _ hm _ ih ihlater => exact (ih nofun).append (ihlater nofun) hm.reaches
  | cons hm _ ih ihlater => exact (ih nofun).append (ihlater nofun) hm.reaches
  | reference _ hd _ ih =>
    refine ih fun d' hd' => ?_
    obtain rfl := Goal.rule.inj hd'
    rwa [hd.name_eq]
  | once _ _ ih => exact ih nofun
  | optional _ _ ih => exact ih nofun
  | zeroOrMore _ _ ih => exact ih nofun
  | choice _ _ ih => exact ih nofun
  | body _ ih => exact (ih nofun).mono (Nat.le_succ _)
  | fragment _ _ ih => exact (ih nofun).mono (Nat.le_succ _)
  | @node n d c m taken hd hm hr ih =>
    intro depth k node hnode
    rw [Node.listingAll_one, List.mem_cons] at hnode
    rcases hnode with hnode | hnode
    · obtain ⟨rfl, rfl⟩ := Prod.mk.inj hnode
      exact ⟨n, d, by omega, hd, rfl, hx d rfl, c, m, taken, [], .refl c, hm, hr, rfl⟩
    · obtain ⟨n', d', hk, hd', hmatched⟩ := ih nofun (depth + 1) k node hnode
      exact ⟨n', d', by omega, hd', hmatched⟩

end OrderedBnf
