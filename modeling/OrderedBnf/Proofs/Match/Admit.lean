import OrderedBnf.Proofs.Match.Goal
import OrderedBnf.Proofs.Match.Lookup

/-!
# What a grammar admits

`Admits` is the context-free reading of a grammar: a match is admitted when
it is one way of reading a part of the grammar, whatever other ways there
are. Any alternative may be taken, a repetition may stop anywhere, and what
may be left out may always be left out; no attempt has to fail first.

Every match that a run finds is admitted (`admits_run`), whatever the
observer and also when the limit was reached on the way: an attempt that the
limit cut off can make a later alternative win or a repetition stop early,
and both are ways of reading all the same. So what is to hold of all matches
and of all trees is shown by induction on `Admits`, with no failure to think
of. The number counts the bodies that are nested in a match.
-/

namespace OrderedBnf

open Goal

/-- **A way of reading a part of a grammar.** The match `m` reads the part `x`
from the cursor `c` on, with no more than `n` bodies inside each other. -/
inductive Admits (g : Grammar) : Nat → Goal → Cursor → Match → Prop
  /-- A literal is what comes next. -/
  | literal {n : Nat} {t : Term} {text : List Char} {c stop : Cursor} :
      t.symbol = .literal text → c.rest = text ++ stop.rest →
      stop.offset = c.offset + byteLength text → Admits g n (symbol t) c ⟨stop, []⟩
  /-- A name stands for the definition in force. -/
  | reference {n : Nat} {t : Term} {name : String} {d : Definition} {c : Cursor} {m : Match} :
      t.symbol = .reference name → g.InForce name d → Admits g n (rule d) c m →
      Admits g n (symbol t) c m
  /-- A repetition may stop -/
  | manyStop {n : Nat} {t : Term} {c : Cursor} : Admits g n (many t) c ⟨c, []⟩
  /-- or go on. -/
  | manyMore {n : Nat} {t : Term} {c : Cursor} {m later : Match} :
      Admits g n (symbol t) c m → Admits g n (many t) m.stop later →
      Admits g n (many t) c ⟨later.stop, m.nodes ++ later.nodes⟩
  /-- A term without a suffix is its symbol. -/
  | once {n : Nat} {t : Term} {c : Cursor} {m : Match} :
      t.repetition = .once → Admits g n (symbol t) c m → Admits g n (term t) c m
  /-- A term with `?` is its symbol -/
  | optional {n : Nat} {t : Term} {c : Cursor} {m : Match} :
      t.repetition = .optional → Admits g n (symbol t) c m → Admits g n (term t) c m
  /-- or nothing. -/
  | noOptional {n : Nat} {t : Term} {c : Cursor} :
      t.repetition = .optional → Admits g n (term t) c ⟨c, []⟩
  /-- A term with `*` repeats its symbol, -/
  | zeroOrMore {n : Nat} {t : Term} {c : Cursor} {m : Match} :
      t.repetition = .zeroOrMore → Admits g n (many t) c m → Admits g n (term t) c m
  /-- and one with `+` does so behind a first time. -/
  | oneOrMore {n : Nat} {t : Term} {c : Cursor} {m later : Match} :
      t.repetition = .oneOrMore → Admits g n (symbol t) c m → Admits g n (many t) m.stop later →
      Admits g n (term t) c ⟨later.stop, m.nodes ++ later.nodes⟩
  /-- Nothing is read as nothing. -/
  | nil {n : Nat} {c : Cursor} : Admits g n (sequence []) c ⟨c, []⟩
  /-- A sequence is its first term and what follows it. -/
  | cons {n : Nat} {t : Term} {terms : List Term} {c : Cursor} {m later : Match} :
      Admits g n (term t) c m → Admits g n (sequence terms) m.stop later →
      Admits g n (sequence (t :: terms)) c ⟨later.stop, m.nodes ++ later.nodes⟩
  /-- A choice is any of its alternatives. -/
  | choice {n : Nat} {terms : List Term} {alternatives : List (List Term)} {c : Cursor}
      {m : Match} :
      terms ∈ alternatives → Admits g n (sequence terms) c m →
      Admits g n (choice alternatives) c m
  /-- A body is a choice, and is counted. -/
  | body {n : Nat} {d : Definition} {c : Cursor} {m : Match} :
      Admits g n (choice d.alternatives) c m → Admits g (n + 1) (body d) c m
  /-- A fragment leaves the nodes of its body as they are, -/
  | fragment {n : Nat} {d : Definition} {c : Cursor} {m : Match} :
      d.isFragment = true → Admits g n (choice d.alternatives) c m → Admits g (n + 1) (rule d) c m
  /-- and any other rule puts a node around them, with the text that was taken. -/
  | node {n : Nat} {d : Definition} {c : Cursor} {m : Match} {taken : List Char} :
      d.isFragment = false → Admits g n (choice d.alternatives) c m →
      c.rest = taken ++ m.stop.rest →
      Admits g (n + 1) (rule d) c
        ⟨m.stop, [⟨d.name, String.ofList taken, c.offset, m.stop.offset, m.nodes, []⟩]⟩

variable {g : Grammar} {n levels : Nat} {x : Goal} {c : Cursor} {m : Match} {d : Definition}
variable {t : Term} {terms : List Term} {alternatives : List (List Term)}

/-- **What holds of all matches**, whatever they are matches of: a property that a
match of a literal has and the empty match, that two matches in a row hand on to
the whole, and a match to the node around it. -/
theorem Admits.forall_match {P : Cursor → Match → Prop} (h : Admits g n x c m)
    (hliteral : ∀ (c stop : Cursor) (text : List Char), c.rest = text ++ stop.rest →
      stop.offset = c.offset + byteLength text → P c ⟨stop, []⟩)
    (hempty : ∀ c, P c ⟨c, []⟩)
    (happend : ∀ c m later, P c m → P m.stop later → P c ⟨later.stop, m.nodes ++ later.nodes⟩)
    (hnode : ∀ c m (d : Definition) taken, P c m → c.rest = taken ++ m.stop.rest →
      P c ⟨m.stop, [⟨d.name, String.ofList taken, c.offset, m.stop.offset, m.nodes, []⟩]⟩) :
    P c m := by
  induction h with
  | literal _ hr ho => exact hliteral _ _ _ hr ho
  | manyStop => exact hempty _
  | noOptional => exact hempty _
  | nil => exact hempty _
  | manyMore _ _ ih ihlater => exact happend _ _ _ ih ihlater
  | oneOrMore _ _ _ ih ihlater => exact happend _ _ _ ih ihlater
  | cons _ _ ih ihlater => exact happend _ _ _ ih ihlater
  | reference _ _ _ ih => exact ih
  | once _ _ ih => exact ih
  | optional _ _ ih => exact ih
  | zeroOrMore _ _ ih => exact ih
  | choice _ _ ih => exact ih
  | body _ ih => exact ih
  | fragment _ _ ih => exact ih
  | node _ _ hr ih => exact hnode _ _ _ _ ih hr

/-- A way of reading stops behind the cursor where it began. -/
theorem Admits.reaches (h : Admits g n x c m) : c.Reaches m.stop :=
  h.forall_match (P := fun c m => c.Reaches m.stop) (fun _ _ text hr ho => ⟨text, hr, ho⟩)
    Cursor.Reaches.refl (fun _ _ _ => Cursor.Reaches.trans) fun _ _ _ _ hm _ => hm

/-! ## What is found is admitted -/

section Run

variable {σ : Type} {note : Observer σ} {s : σ}

/-- A part of which every match that is found is admitted. -/
private abbrev Found (note : Observer σ) (g : Grammar) (levels : Nat) (x : Goal) : Prop :=
  ∀ c s m, (x.run note g levels c s).1 = some m → Admits g levels x c m

private theorem found_rule (hb : Found note g levels (body d)) :
    Found note g levels (rule d) := by
  intro c s m h
  rw [run_rule] at h
  obtain ⟨inner, hinner, rfl⟩ := Option.map_eq_some_iff.1 h
  cases hb c s inner hinner with
  | body hbody =>
    cases hd : d.isFragment with
    | true =>
      rw [wrap_of_fragment hd]
      exact .fragment hd hbody
    | false =>
      -- the text of the node is what lies between the two cursors
      obtain ⟨taken, hr, ho⟩ := hbody.reaches
      rw [wrap_of_not_fragment hd hr ho]
      exact .node hd hbody hr

private theorem found_symbol (hb : ∀ d, Found note g levels (body d)) (t : Term) :
    Found note g levels (symbol t) := by
  intro c s m h
  cases ht : t.symbol with
  | literal text =>
    rw [run_literal ht, Matcher.literal] at h
    split at h
    · rename_i stop hstop
      obtain rfl : ⟨stop, []⟩ = m := Option.some.inj h
      obtain ⟨hr, ho⟩ := Cursor.advance?_eq_some_iff.1 hstop
      exact .literal ht hr ho
    · cases h
  | reference name =>
    cases hd : g.find? name with
    | none =>
      rw [run_unresolved ht hd] at h
      cases h
    | some d =>
      rw [run_reference ht hd] at h
      exact .reference ht (Grammar.find?_eq_some_iff.1 hd) (found_rule (hb d) c s m h)

/-- Behind a first iteration a repetition goes on, or that iteration was the last. -/
private theorem found_behind {s' : σ} {first : Match}
    (hm : (symbol t).run note g levels c s = (some first, s'))
    (hmany : first.stop.offset ≠ c.offset → ∀ later,
      ((many t).run note g levels first.stop s').1 = some later →
      Admits g levels (many t) first.stop later)
    (h : ((many t).run note g levels c s).1 = some m) :
    ∃ later, Admits g levels (many t) first.stop later ∧
      m = ⟨later.stop, first.nodes ++ later.nodes⟩ := by
  by_cases ho : first.stop.offset = c.offset
  · rw [run_many_of_empty hm ho] at h
    obtain rfl : first = m := Option.some.inj h
    exact ⟨⟨first.stop, []⟩, .manyStop, by simp⟩
  · rw [run_many_of_some hm ho] at h
    dsimp only at h
    obtain ⟨later, hlater, rfl⟩ := Option.map_eq_some_iff.1 h
    exact ⟨later, hmany ho later hlater, rfl⟩

private theorem found_many (hb : ∀ d, Found note g levels (body d)) (t : Term) :
    Found note g levels (many t) := by
  intro c s m h
  -- every iteration that is followed by another leaves less text in front
  induction hn : c.rest.length using Nat.strongRecOn generalizing c s m with
  | _ n ih =>
    rcases hm : (symbol t).run note g levels c s with ⟨_ | first, s'⟩
    · rw [run_many_of_none hm] at h
      obtain rfl := Option.some.inj h
      exact .manyStop
    · have hfirst := found_symbol hb t c s first (by rw [hm])
      obtain ⟨later, hlater, rfl⟩ := found_behind hm (fun ho later hrun =>
        ih _ (hn ▸ hfirst.reaches.length_lt ho) first.stop s' later hrun rfl) h
      exact hfirst.manyMore hlater

private theorem found_oneOrMore (hb : ∀ d, Found note g levels (body d))
    (ht : t.repetition = .oneOrMore) : Found note g levels (term t) := by
  intro c s m h
  rw [run_oneOrMore ht] at h
  rcases hm : (symbol t).run note g levels c s with ⟨_ | first, s'⟩
  · rw [run_loop_of_none hm] at h
    cases h
  · have hmany : ((many t).run note g levels c s).1 = some m := by rw [run_many_of_loop h]
    obtain ⟨later, hlater, rfl⟩ := found_behind hm (fun _ => found_many hb t first.stop s') hmany
    exact (found_symbol hb t c s first (by rw [hm])).oneOrMore ht hlater

private theorem found_term (hb : ∀ d, Found note g levels (body d)) (t : Term) :
    Found note g levels (term t) := by
  intro c s m h
  cases ht : t.repetition with
  | once =>
    rw [run_once ht] at h
    exact .once ht (found_symbol hb t c s m h)
  | optional =>
    rcases hm : (symbol t).run note g levels c s with ⟨_ | first, s'⟩
    · rw [run_optional_of_none ht hm] at h
      obtain rfl := Option.some.inj h
      exact .noOptional ht
    · rw [run_optional_of_some ht hm] at h
      obtain rfl := Option.some.inj h
      exact .optional ht (found_symbol hb t c s first (by rw [hm]))
  | zeroOrMore =>
    rw [run_zeroOrMore ht] at h
    exact .zeroOrMore ht (found_many hb t c s m h)
  | oneOrMore => exact found_oneOrMore hb ht c s m h

private theorem found_sequence (hb : ∀ d, Found note g levels (body d)) (terms : List Term) :
    Found note g levels (sequence terms) := by
  induction terms with
  | nil =>
    intro c s m h
    obtain rfl := Option.some.inj h
    exact .nil
  | cons t terms ih =>
    intro c s m h
    rcases hm : (term t).run note g levels c s with ⟨_ | first, s'⟩
    · rw [run_sequence_of_none hm] at h
      cases h
    · rw [run_sequence_of_some hm] at h
      obtain ⟨later, hlater, rfl⟩ := Option.map_eq_some_iff.1 h
      exact (found_term hb t c s first (by rw [hm])).cons (ih first.stop s' later hlater)

private theorem found_choice (hb : ∀ d, Found note g levels (body d))
    (alternatives : List (List Term)) : Found note g levels (choice alternatives) := by
  induction alternatives with
  | nil => intro c s m h; cases h
  | cons terms alternatives ih =>
    intro c s m h
    rcases hm : (sequence terms).run note g levels c s with ⟨_ | first, s'⟩
    · rw [run_choice_of_none hm] at h
      cases ih c s' m h with
      | choice hterms hlater => exact .choice (List.mem_cons_of_mem _ hterms) hlater
    · rw [run_choice_of_some hm] at h
      obtain rfl := Option.some.inj h
      exact .choice (List.mem_cons_self ..) (found_sequence hb terms c s first (by rw [hm]))

private theorem found_body (note : Observer σ) (g : Grammar) (levels : Nat) (d : Definition) :
    Found note g levels (body d) := by
  induction levels generalizing d with
  | zero => intro c s m h; cases h
  | succ n ih => exact fun c s m h => .body (found_choice ih d.alternatives c _ m h)

/-- **Every match that is found is admitted**, with no more bodies inside each
other than there were levels. There is no such reading of what counts. -/
theorem admits_run (h : (x.run note g levels c s).1 = some m)
    (hx : x.Uncounted) : Admits g levels x c m := by
  have hb := found_body note g levels
  cases x with
  | symbol t => exact found_symbol hb t c s m h
  | loop t count =>
    cases count with
    | none => exact found_many hb t c s m h
    | some count => exact absurd rfl (hx t count)
  | term t => exact found_term hb t c s m h
  | sequence terms => exact found_sequence hb terms c s m h
  | choice alternatives => exact found_choice hb alternatives c s m h
  | body d => exact hb d c s m h
  | rule d => exact found_rule (hb d) c s m h

end Run

end OrderedBnf
