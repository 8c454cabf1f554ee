import OrderedBnf.Parse.Problem

/-!
# Parse trees

A node is a stretch of text that a rule matched: `kind` names the rule,
`start` and `stop` are the byte offsets of its two ends, and the children
are the nodes of the rules that took part, in the order of the text. What
there is to report about a whole parse stands at the root of its tree.

The listing of a tree visits a node before its children and pairs each
node with its depth.
-/

namespace OrderedBnf

/-- A matched stretch of text and the matches it is made of. -/
structure Node where
  kind : String
  text : String
  start : Nat
  stop : Nat
  children : List Node
  /-- What there is to report about the node. -/
  errors : List Problem
deriving Repr, Inhabited

namespace Node

mutual

/-- Whether two trees are equal. -/
def decEq : (a b : Node) → Decidable (a = b)
  | ⟨k₁, t₁, s₁, e₁, c₁, p₁⟩, ⟨k₂, t₂, s₂, e₂, c₂, p₂⟩ =>
    match decEqAll c₁ c₂ with
    | isTrue h =>
      if hn : k₁ = k₂ ∧ t₁ = t₂ ∧ s₁ = s₂ ∧ e₁ = e₂ ∧ p₁ = p₂ then
        isTrue (by obtain ⟨rfl, rfl, rfl, rfl, rfl⟩ := hn; rw [h])
      else isFalse fun heq => by cases heq; exact hn ⟨rfl, rfl, rfl, rfl, rfl⟩
    | isFalse h => isFalse fun heq => by cases heq; exact h rfl

/-- Whether two lists of trees are equal. -/
def decEqAll : (a b : List Node) → Decidable (a = b)
  | [], [] => isTrue rfl
  | [], _ :: _ => isFalse nofun
  | _ :: _, [] => isFalse nofun
  | a :: as, b :: bs =>
    match decEq a b with
    | isTrue h =>
      match decEqAll as bs with
      | isTrue hs => isTrue (by rw [h, hs])
      | isFalse hs => isFalse fun heq => by cases heq; exact hs rfl
    | isFalse h => isFalse fun heq => by cases heq; exact h rfl

end

instance : DecidableEq Node := decEq

/-- The children of a kind, in order. Their own children are not looked at. -/
def childrenOfKind (node : Node) (kind : String) : List Node :=
  node.children.filter (·.kind == kind)

/-- The first child of a kind. -/
def childOfKind? (node : Node) (kind : String) : Option Node :=
  node.children.find? (·.kind == kind)

mutual

/-- The nodes of a tree with their depths, the root at `depth`. -/
def listing (depth : Nat) : Node → List (Nat × Node)
  | ⟨kind, text, start, stop, children, errors⟩ =>
    (depth, ⟨kind, text, start, stop, children, errors⟩) :: listingAll (depth + 1) children

/-- The listings of several trees, one behind the other. -/
def listingAll (depth : Nat) : List Node → List (Nat × Node)
  | [] => []
  | node :: rest => listing depth node ++ listingAll depth rest

end

/-- The nodes of a tree, each before its children, with depths from zero. -/
def preorder (node : Node) : List (Nat × Node) := node.listing 0

end Node

end OrderedBnf
