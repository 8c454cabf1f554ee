import OrderedBnf.Proofs.Match.Settle

/-!
# What a goal takes

What a goal comes to is best said by the text that it leaves: `Takes` names
the rest of the text, the nodes and the levels, and leaves the place where
the goal stops to be known by its rest. Goals that take one character of a
class and make no node (`Reads`) are the letters of everything else; a
repetition of one takes the longest run of the class.
-/

namespace OrderedBnf

open Goal

/-- A text begins with a character of a class. -/
def Begins (p : Char → Prop) (text : List Char) : Prop := ∃ a rest, text = a :: rest ∧ p a

@[simp] theorem begins_nil {p : Char → Prop} : ¬ Begins p [] := by
  rintro ⟨a, rest, h, -⟩
  cases h

@[simp] theorem begins_cons {p : Char → Prop} {a : Char} {rest : List Char} :
    Begins p (a :: rest) ↔ p a := by
  constructor
  · rintro ⟨b, rest', h, hb⟩
    obtain ⟨rfl, -⟩ := List.cons.inj h
    exact hb
  · exact fun ha => ⟨a, rest, rfl, ha⟩

theorem Begins.mono {p q : Char → Prop} {text : List Char} (hpq : ∀ a, p a → q a)
    (h : Begins p text) : Begins q text := by
  obtain ⟨a, rest, rfl, ha⟩ := h
  exact ⟨a, rest, rfl, hpq a ha⟩

theorem Begins.append {p : Char → Prop} {text rest : List Char} (h : Begins p text) :
    Begins p (text ++ rest) := by
  obtain ⟨a, text, rfl, ha⟩ := h
  exact ⟨a, text ++ rest, rfl, ha⟩

/-- **What a goal takes**: it comes to a match that leaves `rest` and has these
nodes, with exactly so many levels. -/
def Takes (g : Grammar) (x : Goal) (c : Cursor) (rest : List Char) (nodes : List Node)
    (needed : Nat) : Prop :=
  ∃ stop : Cursor, stop.rest = rest ∧ Settles g x c (some ⟨stop, nodes⟩) needed

variable {g : Grammar} {x : Goal} {c : Cursor} {t : Term} {p q : Char → Prop} {n k : Nat}
variable {alternatives : List (List Term)} {d : Definition}

/-- A literal that comes next is taken. -/
theorem takes_literal {text rest : List Char} (ht : t.symbol = .literal text)
    (hr : t.repetition = .once) (hc : c.rest = text ++ rest) :
    Takes g (term t) c rest [] 0 := by
  obtain ⟨offset, _⟩ := c
  obtain rfl := hc
  exact ⟨_, rfl, (Settles.literal ht).once hr⟩

/-- A goal that leaves less than it found has moved. -/
theorem Settles.offset_ne {m : Match} (h : Settles g x c (some m) n)
    (hlt : m.stop.rest.length < c.rest.length) : m.stop.offset ≠ c.offset := by
  intro ho
  rw [h.reaches.eq_of_offset_eq ho] at hlt
  exact Nat.lt_irrefl _ hlt

theorem settles_literal_none {text : List Char} (ht : t.symbol = .literal text)
    (hr : t.repetition = .once) (hc : ¬ text <+: c.rest) : Settles g (term t) c none 0 :=
  (Settles.literal_none ht hc).once hr

/-- **A rule that is no fragment takes a text into a node**, with one level more
than its alternatives. -/
theorem takes_rule {name : String} {text rest : List Char} {nodes : List Node}
    (ht : t.symbol = .reference name) (hd : g.find? name = some d) (hf : d.isFragment = false)
    (h : Takes g (choice d.alternatives) c rest nodes n) (hc : c.rest = text ++ rest) :
    ∃ node, Takes g (symbol t) c rest [node] (n + 1) ∧ node.kind = d.name ∧
      node.text = String.ofList text ∧ node.children = nodes := by
  obtain ⟨stop, hstop, hs⟩ := h
  have hnode := hs.body.node hf (hc.trans (congrArg (text ++ ·) hstop.symm))
  exact ⟨_, ⟨stop, hstop, hnode.reference ht hd⟩, rfl, rfl, rfl⟩

/-- A fragment takes what its alternatives take, with one level more. -/
theorem takes_fragment {name : String} {rest : List Char} {nodes : List Node}
    (ht : t.symbol = .reference name) (hd : g.find? name = some d) (hf : d.isFragment = true)
    (h : Takes g (choice d.alternatives) c rest nodes n) :
    Takes g (symbol t) c rest nodes (n + 1) := by
  obtain ⟨stop, hstop, hs⟩ := h
  exact ⟨stop, hstop, (hs.body.fragment hf).reference ht hd⟩

/-- A rule fails with its alternatives. -/
theorem settles_rule_none {name : String} (ht : t.symbol = .reference name)
    (hd : g.find? name = some d) (h : Settles g (choice d.alternatives) c none n) :
    Settles g (symbol t) c none (n + 1) :=
  h.body.rule_none.reference ht hd

/-- An iteration that takes something is followed by the repetition. -/
theorem takes_many_more {rest rest' : List Char} {nodes nodes' : List Node}
    (h : ∃ l ≤ n, Takes g (symbol t) c rest nodes l) (hlt : rest.length < c.rest.length)
    (hlater : ∀ s : Cursor, s.rest = rest → Takes g (many t) s rest' nodes' n) :
    Takes g (many t) c rest' (nodes ++ nodes') n := by
  obtain ⟨l, hl, s, rfl, hs⟩ := h
  obtain ⟨s', hs', hmany⟩ := hlater s rfl
  exact ⟨s', hs', (hs.many_some (hs.offset_ne hlt) hmany).of_eq rfl (Nat.max_eq_right hl)⟩

/-! ## One character -/

/-- **A goal that takes one character of a class**, and makes no node. Where it
fails it takes `needed` levels, and no more where it does not. -/
structure Reads (g : Grammar) (x : Goal) (p : Char → Prop) (needed : Nat) : Prop where
  takes : ∀ {c : Cursor} {a rest}, c.rest = a :: rest → p a →
    ∃ n ≤ needed, Takes g x c rest [] n
  fails : ∀ {c : Cursor}, ¬ Begins p c.rest → Settles g x c none needed

namespace Reads

theorem congr (h : Reads g x p n) (hpq : ∀ a, p a ↔ q a) : Reads g x q n where
  takes hc ha := h.takes hc ((hpq _).2 ha)
  fails hc := h.fails fun hb => hc (hb.mono fun a => (hpq a).1)

theorem literal {a : Char} (ht : t.symbol = .literal [a]) : Reads g (symbol t) (· = a) 0 where
  takes {c b rest} hc ha := by
    obtain ⟨offset, _⟩ := c
    obtain rfl := hc
    obtain rfl := ha
    exact ⟨0, Nat.le_refl 0, _, rfl, Settles.literal ht⟩
  fails hc := .literal_none ht fun ⟨rest, h⟩ => hc ⟨a, rest, h.symm, rfl⟩

theorem reference {name : String} (ht : t.symbol = .reference name)
    (hd : g.find? name = some d) (h : Reads g (rule d) p n) : Reads g (symbol t) p n where
  takes hc ha := by
    obtain ⟨k, hk, stop, hstop, hs⟩ := h.takes hc ha
    exact ⟨k, hk, stop, hstop, hs.reference ht hd⟩
  fails hc := (h.fails hc).reference ht hd

theorem once (hr : t.repetition = .once) (h : Reads g (symbol t) p n) :
    Reads g (term t) p n where
  takes hc ha := by
    obtain ⟨k, hk, stop, hstop, hs⟩ := h.takes hc ha
    exact ⟨k, hk, stop, hstop, hs.once hr⟩
  fails hc := (h.fails hc).once hr

/-- Alternatives of one term each take what one of them takes. -/
theorem choice_cons (h : Reads g (term t) p n) (hlater : Reads g (choice alternatives) q k) :
    Reads g (choice ([t] :: alternatives)) (fun a => p a ∨ q a) (max n k) where
  takes {c a rest} hc ha := by
    by_cases hp : p a
    · obtain ⟨l, hl, stop, hstop, hs⟩ := h.takes hc hp
      exact ⟨l, by omega, stop, hstop, hs.sequence_one.choice_some⟩
    · have hnone : Settles g (term t) c none n := h.fails (by rw [hc, begins_cons]; exact hp)
      obtain ⟨l, hl, stop, hstop, hs⟩ := hlater.takes hc (ha.resolve_left hp)
      exact ⟨max n l, by omega, stop, hstop, hnone.sequence_none.choice_none hs⟩
  fails hc :=
    (h.fails fun hp => hc (hp.mono fun _ => .inl)).sequence_none.choice_none
      (hlater.fails fun hq => hc (hq.mono fun _ => .inr))

theorem choice_nil : Reads g (choice []) (fun _ => False) 0 where
  takes _ ha := ha.elim
  fails _ := .choice_nil

/-- A fragment takes what its alternatives take, with one level more. -/
theorem fragment (hd : d.isFragment = true) (h : Reads g (choice d.alternatives) p n) :
    Reads g (rule d) p (n + 1) where
  takes hc ha := by
    obtain ⟨k, hk, stop, hstop, hs⟩ := h.takes hc ha
    exact ⟨k + 1, by omega, stop, hstop, hs.body.fragment hd⟩
  fails hc := (h.fails hc).body.rule_none

/-! ## Runs of a class -/

variable {text rest : List Char}

/-- **A repetition takes the longest run of its class**, in as many iterations as it has
characters. -/
theorem loops (h : Reads g (symbol t) p n) (hc : c.rest = text ++ rest)
    (htext : ∀ a ∈ text, p a) (hrest : ¬ Begins p rest) :
    ∃ stop : Cursor, stop.rest = rest ∧ Loops g t c text.length ⟨stop, []⟩ n := by
  induction text generalizing c with
  | nil => exact ⟨c, hc, .stop (h.fails (by rw [hc]; exact hrest))⟩
  | cons a text ih =>
    obtain ⟨l, hl, s, hs, hfirst⟩ := h.takes hc (htext a (by simp))
    obtain ⟨stop, hstop, hlater⟩ := ih hs fun b hb => htext b (by simp [hb])
    have hmoved := hfirst.offset_ne (by simp [hs, hc])
    exact ⟨stop, hstop, Nat.max_eq_right hl ▸ hlater.more hfirst hmoved⟩

theorem zeroOrMore (h : Reads g (symbol t) p n) (hr : t.repetition = .zeroOrMore)
    (hc : c.rest = text ++ rest) (htext : ∀ a ∈ text, p a) (hrest : ¬ Begins p rest) :
    Takes g (term t) c rest [] n := by
  obtain ⟨stop, hstop, hs⟩ := h.loops hc htext hrest
  exact ⟨stop, hstop, hs.zeroOrMore hr⟩

theorem oneOrMore (h : Reads g (symbol t) p n) (hr : t.repetition = .oneOrMore)
    (hlength : Matcher.Counted text.length) (hc : c.rest = text ++ rest)
    (htext : ∀ a ∈ text, p a) (hrest : ¬ Begins p rest) : Takes g (term t) c rest [] n := by
  obtain ⟨stop, hstop, hs⟩ := h.loops hc htext hrest
  exact ⟨stop, hstop, hs.oneOrMore_of_counted hr hlength⟩

theorem oneOrMore_none (h : Reads g (symbol t) p n) (hr : t.repetition = .oneOrMore)
    (hlength : ¬ Matcher.Counted text.length) (hc : c.rest = text ++ rest)
    (htext : ∀ a ∈ text, p a) (hrest : ¬ Begins p rest) : Settles g (term t) c none n := by
  obtain ⟨stop, hstop, hs⟩ := h.loops hc htext hrest
  exact hs.oneOrMore_of_not_counted hr hlength

end Reads

end OrderedBnf
