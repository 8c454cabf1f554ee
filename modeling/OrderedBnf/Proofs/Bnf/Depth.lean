import OrderedBnf.Parse.Parser
import OrderedBnf.Proofs.Bnf.Document

/-!
# How deep a document is

The parser of documents has a limit on levels. It comes down to a limit on the
places of terms in their alternatives (`documentLevels_le_iff`), since only a
chain of terms goes deeper with every part that it has.
-/

namespace OrderedBnf

namespace Bnf

variable {as : List String} {alternatives : List (List String)}

/-- Every place of a chain is one level deeper than the place before it. -/
theorem listLevels_le_iff {n : Nat} :
    listLevels as ≤ n + 3 ↔ ∀ i a, as[i]? = some a → i + 1 + termLevels a ≤ n + 3 := by
  -- no chain of one term or more is left with three levels
  have hfour : ∀ a, 4 ≤ termLevels a := fun a => by unfold termLevels; split <;> omega
  induction as generalizing n with
  | nil => simp [listLevels]
  | cons a as ih =>
    have ha := hfour a
    constructor
    · intro h i b hb
      simp only [listLevels] at h
      cases i with
      | zero =>
        obtain rfl : a = b := by simpa using hb
        omega
      | succ i =>
        cases n with
        | zero => omega
        | succ n =>
          have := (ih (n := n)).1 (by omega) i b (by simpa using hb)
          omega
    · intro h
      have hzero := h 0 a rfl
      cases n with
      | zero => omega
      | succ n =>
        have hlater : listLevels as ≤ n + 3 := ih.2 fun i b hb => by
          have := h (i + 1) b (by simpa using hb)
          omega
        simp only [listLevels]
        omega

/-- Of the alternatives of a rule the deepest counts, -/
theorem alternativesLevels_le_iff {n : Nat} (hn : 1 ≤ n) :
    alternativesLevels alternatives ≤ n ↔ ∀ as ∈ alternatives, listLevels as + 1 ≤ n := by
  induction alternatives with
  | nil => simpa [alternativesLevels] using hn
  | cons as alternatives ih => simp only [alternativesLevels, Nat.max_le, ih, List.forall_mem_cons]

/-- and so it does of the rules of a table. -/
theorem tableLevels_le_iff {rules : List Rule} {n : Nat} (hn : 1 ≤ n) :
    tableLevels rules ≤ n ↔ ∀ r ∈ rules, ruleLevels r ≤ n := by
  induction rules with
  | nil => simpa [tableLevels] using hn
  | cons r rules ih => simp only [tableLevels, Nat.max_le, ih, List.forall_mem_cons]

/-- **The limit of the parser is a limit on the places of terms**, and on
nothing else. -/
theorem documentLevels_le_iff {rules : List Rule} :
    documentLevels rules ≤ ParserOptions.defaultMaxDepth ↔ WithinDepth rules := by
  -- of the levels, one is for the document, one for the rule and one for the alternative
  have hplace (a : String) (i : Nat) : i + 1 + termLevels a ≤ 994 + 3 ↔ i + 1 ≤ lastPlace a := by
    unfold termLevels lastPlace
    split <;> omega
  have hlist (as : List String) : listLevels as + 1 ≤ 998 ↔
      ∀ i a, as[i]? = some a → i + 1 ≤ lastPlace a := by
    simp only [← hplace, ← listLevels_le_iff]
    omega
  have hrule (r : Rule) : ruleLevels r ≤ 999 ↔
      ∀ as ∈ r.alternatives, ∀ i a, as[i]? = some a → i + 1 ≤ lastPlace a := by
    simp only [← hlist, ← alternativesLevels_le_iff (show 1 ≤ 998 by omega), ruleLevels]
    omega
  unfold WithinDepth
  simp only [← hrule, ← tableLevels_le_iff (show 1 ≤ 999 by omega), documentLevels,
    ParserOptions.defaultMaxDepth]
  omega

instance : DecidablePred WithinDepth := fun _ => decidable_of_iff _ documentLevels_le_iff

end Bnf

end OrderedBnf
