import OrderedBnf.Match.Grammar

/-!
# What a name stands for

A name may be defined more than once, and then the last definition is in
force. `Grammar.InForce` says which one that is without going through a table
from its end.
-/

namespace OrderedBnf

namespace Grammar

/-- **The definition in force for a name** has that name, and none after it does. -/
def InForce (g : Grammar) (name : String) (d : Definition) : Prop :=
  ∃ earlier later, g = earlier ++ d :: later ∧ d.name = name ∧ ∀ e ∈ later, e.name ≠ name

theorem InForce.mem {g : Grammar} {name : String} {d : Definition} (h : g.InForce name d) :
    d ∈ g := by
  obtain ⟨earlier, later, rfl, -⟩ := h
  simp

theorem InForce.name_eq {g : Grammar} {name : String} {d : Definition} (h : g.InForce name d) :
    d.name = name := by
  obtain ⟨_, _, _, hname, _⟩ := h
  exact hname

/-- The names that are looked up in vain are those without a definition. -/
theorem find?_eq_none_iff {g : Grammar} {name : String} :
    g.find? name = none ↔ ∀ d ∈ g, d.name ≠ name := by
  induction g with
  | nil => simp [find?]
  | cons d g ih =>
    simp only [find?, Option.or_eq_none_iff, ih, List.forall_mem_cons]
    by_cases h : d.name = name <;> simp [h]

/-- **Looking a name up gives the definition in force.** -/
theorem find?_eq_some_iff {g : Grammar} {name : String} {d : Definition} :
    g.find? name = some d ↔ g.InForce name d := by
  induction g with
  | nil => simp [find?, InForce]
  | cons e g ih =>
    simp only [find?]
    constructor
    · intro h
      rcases Option.or_eq_some_iff.1 h with hrest | ⟨hrest, hfirst⟩
      · obtain ⟨earlier, later, rfl, hname, hlater⟩ := ih.1 hrest
        exact ⟨e :: earlier, later, rfl, hname, hlater⟩
      · split at hfirst
        · rename_i hname
          obtain rfl := Option.some.inj hfirst
          exact ⟨[], g, rfl, eq_of_beq hname, find?_eq_none_iff.1 hrest⟩
        · cases hfirst
    · rintro ⟨_ | ⟨e', earlier⟩, later, hg, hname, hlater⟩
      · obtain ⟨rfl, rfl⟩ := List.cons.inj hg
        rw [find?_eq_none_iff.2 hlater]
        simp [hname]
      · obtain ⟨rfl, rfl⟩ := List.cons.inj hg
        rw [ih.2 ⟨earlier, later, rfl, hname, hlater⟩]
        rfl

/-- Where no name is defined twice every definition is in force. -/
theorem find?_of_mem {g : Grammar} {d : Definition} (hnodup : (g.map Definition.name).Nodup)
    (hd : d ∈ g) : g.find? d.name = some d := by
  obtain ⟨earlier, later, rfl⟩ := List.append_of_mem hd
  refine find?_eq_some_iff.2 ⟨earlier, later, rfl, rfl, fun e he hname => ?_⟩
  simp only [List.map_append, List.map_cons, List.nodup_append, List.nodup_cons] at hnodup
  exact hnodup.2.1.1 (hname ▸ List.mem_map_of_mem he)

end Grammar

end OrderedBnf
