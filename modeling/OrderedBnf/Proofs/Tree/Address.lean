import OrderedBnf.Proofs.Match.Layout

/-!
# Addresses in a tree

A tree may hold equal nodes in different places, so which node is meant is said by its
address: the indices of the children on the way down to it. `Node.addresses` has them all,
in the order in which the listing of the tree visits the nodes (`Node.map_addresses`).
-/

namespace OrderedBnf

namespace Node

/-- What passes from the children of a node to the node holds of every node. -/
theorem children_induction {motive : Node → Prop}
    (h : ∀ node, (∀ child ∈ node.children, motive child) → motive node) : ∀ node, motive node
  | ⟨kind, text, start, stop, children, errors⟩ =>
    h ⟨kind, text, start, stop, children, errors⟩ fun child hchild =>
      have hlt : sizeOf child < sizeOf (Node.mk kind text start stop children errors) := by
        have hbelow : sizeOf child < sizeOf children := List.sizeOf_lt_of_mem hchild
        rw [mk.sizeOf_spec]
        omega
      children_induction h child
termination_by node => sizeOf node

/-- The node at an address. -/
def at? : Node → List Nat → Option Node
  | node, [] => some node
  | node, i :: address => node.children[i]?.bind fun child => child.at? address

mutual

/-- **The addresses of a tree**, each before those below it. -/
def addresses : Node → List (List Nat)
  | ⟨_, _, _, _, children, _⟩ => [] :: addressesFrom 0 children

/-- The addresses in some children, the first of which has the index `i`. -/
def addressesFrom (i : Nat) : List Node → List (List Nat)
  | [] => []
  | child :: rest => (addresses child).map (i :: ·) ++ addressesFrom (i + 1) rest

end

theorem addresses_eq (node : Node) : node.addresses = [] :: addressesFrom 0 node.children := by
  cases node
  rw [addresses]

/-- **The addresses come in the order of the listing**, and the depth of a node is the
length of its address. -/
theorem map_addresses (node : Node) (depth : Nat) :
    (node.addresses.map fun address => (depth + address.length, node.at? address)) =
      (node.listing depth).map fun entry => (entry.1, some entry.2) := by
  induction node using children_induction generalizing depth with
  | h node ih =>
    -- the children behind some others, whose number is the first index
    have hfrom : ∀ before after, node.children = before ++ after →
        (addressesFrom before.length after).map
          (fun address => (depth + address.length, node.at? address)) =
        (listingAll (depth + 1) after).map fun entry => (entry.1, some entry.2) := by
      intro before after
      induction after generalizing before with
      | nil => exact fun _ => rfl
      | cons child after ihafter =>
        intro hchildren
        have hchild : node.children[before.length]? = some child := by
          rw [hchildren, List.getElem?_append_right (Nat.le_refl _), Nat.sub_self]
          rfl
        have hlater := ihafter (before ++ [child]) (by simp [hchildren])
        have hhere := ih child (by simp [hchildren]) (depth + 1)
        rw [List.length_append, List.length_singleton] at hlater
        rw [addressesFrom, listingAll, List.map_append, List.map_append, hlater, ← hhere,
          List.map_map]
        congr 1
        refine List.map_congr_left fun address _ => ?_
        rw [Function.comp_apply, at?, hchild, Option.bind_some, List.length_cons,
          Nat.add_assoc, Nat.add_comm 1]
    have hall := hfrom [] node.children rfl
    rw [List.length_nil] at hall
    rw [addresses_eq, listing_eq, List.map_cons, List.map_cons, hall]
    rfl

end Node

end OrderedBnf
