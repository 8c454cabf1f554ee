import OrderedBnf.Proofs.Match.Lookup
import OrderedBnf.Proofs.Match.Repetition
import OrderedBnf.Proofs.Match.Take

/-!
# Parsing expressions

What a table of rules says about a text, without a machine: `Derives` is the
meaning of a grammar as a parsing expression grammar, with an outcome for
success and one for failure, and with nothing that counts levels or keeps a
state. The matcher computes it. A run that ends without having reached its
limit has an outcome that is derived (`derives_of_quiet`), and an outcome
that is derived is found with enough levels (`settles_of_derives`). There is
at most one (`Derives.unique`).

The meaning of a grammar knows no counter of iterations, and the matcher has
one. They agree on a text that is too short to fill it (`Cursor.Short`); on
a longer one the matcher may fail at a `+` that means success
(`not_run_eq_iff_derives`).

A rule that needs itself at the same place derives nothing, neither success
nor failure, and every run of it reaches the limit.
-/

namespace OrderedBnf

open Goal

/-- **The meaning of a grammar.** `Derives g x c o` says that the part `x` of
the grammar `g` comes to `o` at the cursor `c`: to a match, or to none. -/
inductive Derives (g : Grammar) : Goal → Cursor → Option Match → Prop
  /-- A literal matches if the text goes on with it. -/
  | literal {t : Term} {text : List Char} {c stop : Cursor} :
      t.symbol = .literal text → c.rest = text ++ stop.rest →
      stop.offset = c.offset + byteLength text → Derives g (symbol t) c (some ⟨stop, []⟩)
  /-- And fails if it does not. -/
  | noLiteral {t : Term} {text : List Char} {c : Cursor} :
      t.symbol = .literal text → ¬ text <+: c.rest → Derives g (symbol t) c none
  /-- A name stands for the definition in force. -/
  | reference {t : Term} {name : String} {d : Definition} {c : Cursor} {o : Option Match} :
      t.symbol = .reference name → g.InForce name d → Derives g (rule d) c o →
      Derives g (symbol t) c o
  /-- A name that is never defined fails. -/
  | unresolved {t : Term} {name : String} {c : Cursor} :
      t.symbol = .reference name → (∀ d ∈ g, d.name ≠ name) → Derives g (symbol t) c none
  /-- A repetition stops where its symbol fails. -/
  | manyStop {t : Term} {c : Cursor} :
      Derives g (symbol t) c none → Derives g (many t) c (some ⟨c, []⟩)
  /-- It stops after an iteration that takes nothing, and keeps it. -/
  | manyEmpty {t : Term} {c : Cursor} {m : Match} :
      Derives g (symbol t) c (some m) → m.stop = c → Derives g (many t) c (some m)
  /-- It goes on after an iteration that takes something. -/
  | manyMore {t : Term} {c : Cursor} {m later : Match} :
      Derives g (symbol t) c (some m) → m.stop ≠ c → Derives g (many t) m.stop (some later) →
      Derives g (many t) c (some ⟨later.stop, m.nodes ++ later.nodes⟩)
  /-- A term without a suffix is its symbol. -/
  | once {t : Term} {c : Cursor} {o : Option Match} :
      t.repetition = .once → Derives g (symbol t) c o → Derives g (term t) c o
  /-- A term with `?` takes its symbol if it is there. -/
  | optional {t : Term} {c : Cursor} {m : Match} :
      t.repetition = .optional → Derives g (symbol t) c (some m) → Derives g (term t) c (some m)
  /-- And takes nothing if it is not. -/
  | noOptional {t : Term} {c : Cursor} :
      t.repetition = .optional → Derives g (symbol t) c none →
      Derives g (term t) c (some ⟨c, []⟩)
  /-- A term with `*` repeats its symbol. -/
  | zeroOrMore {t : Term} {c : Cursor} {o : Option Match} :
      t.repetition = .zeroOrMore → Derives g (many t) c o → Derives g (term t) c o
  /-- A term with `+` repeats it as well, if it is there, -/
  | oneOrMore {t : Term} {c : Cursor} {m : Match} {o : Option Match} :
      t.repetition = .oneOrMore → Derives g (symbol t) c (some m) → Derives g (many t) c o →
      Derives g (term t) c o
  /-- and fails if it is not. -/
  | noOneOrMore {t : Term} {c : Cursor} :
      t.repetition = .oneOrMore → Derives g (symbol t) c none → Derives g (term t) c none
  /-- Nothing is matched by nothing. -/
  | nil {c : Cursor} : Derives g (sequence []) c (some ⟨c, []⟩)
  /-- A sequence goes on from where its first term stopped. -/
  | cons {t : Term} {terms : List Term} {c : Cursor} {m later : Match} :
      Derives g (term t) c (some m) → Derives g (sequence terms) m.stop (some later) →
      Derives g (sequence (t :: terms)) c (some ⟨later.stop, m.nodes ++ later.nodes⟩)
  /-- It fails with its first term -/
  | consFirst {t : Term} {terms : List Term} {c : Cursor} :
      Derives g (term t) c none → Derives g (sequence (t :: terms)) c none
  /-- or with what follows it. -/
  | consLater {t : Term} {terms : List Term} {c : Cursor} {m : Match} :
      Derives g (term t) c (some m) → Derives g (sequence terms) m.stop none →
      Derives g (sequence (t :: terms)) c none
  /-- No alternatives fail. -/
  | noChoice {c : Cursor} : Derives g (choice []) c none
  /-- The first alternative that matches is chosen, -/
  | first {terms : List Term} {alternatives : List (List Term)} {c : Cursor} {m : Match} :
      Derives g (sequence terms) c (some m) →
      Derives g (choice (terms :: alternatives)) c (some m)
  /-- and the others count only after it has failed. -/
  | later {terms : List Term} {alternatives : List (List Term)} {c : Cursor}
      {o : Option Match} :
      Derives g (sequence terms) c none → Derives g (choice alternatives) c o →
      Derives g (choice (terms :: alternatives)) c o
  /-- The body of a definition is the choice between its alternatives. -/
  | body {d : Definition} {c : Cursor} {o : Option Match} :
      Derives g (choice d.alternatives) c o → Derives g (body d) c o
  /-- A rule fails with its body. -/
  | noRule {d : Definition} {c : Cursor} : Derives g (body d) c none → Derives g (rule d) c none
  /-- A fragment leaves the nodes of its body as they are, -/
  | fragment {d : Definition} {c : Cursor} {m : Match} :
      d.isFragment = true → Derives g (body d) c (some m) → Derives g (rule d) c (some m)
  /-- and any other rule puts a node around them, with the text that was taken. -/
  | node {d : Definition} {c : Cursor} {m : Match} {taken : List Char} :
      d.isFragment = false → Derives g (body d) c (some m) → c.rest = taken ++ m.stop.rest →
      Derives g (rule d) c
        (some ⟨m.stop, [⟨d.name, String.ofList taken, c.offset, m.stop.offset, m.nodes, []⟩]⟩)

variable {g : Grammar} {c c' : Cursor} {o : Option Match} {d : Definition} {t : Term} {m : Match}

/-! ## One outcome -/

/-- **A part of a grammar comes to one outcome at most.** -/
theorem Derives.unique {x : Goal} (h : Derives g x c o) (h' : Derives g x c o') : o = o' := by
  induction h generalizing o' with
  | @literal t text c stop ht hr ho =>
    cases h' with
    | @literal _ text' _ stop' ht' hr' ho' =>
      obtain rfl : text = text' := Symbol.literal.inj (ht.symm.trans ht')
      obtain ⟨offset, rest⟩ := stop
      obtain ⟨offset', rest'⟩ := stop'
      obtain rfl : rest = rest' := List.append_cancel_left (hr.symm.trans hr')
      obtain rfl : offset = offset' := ho.trans ho'.symm
      rfl
    | noLiteral ht' hr' =>
      obtain rfl := Symbol.literal.inj (ht.symm.trans ht')
      exact absurd ⟨_, hr.symm⟩ hr'
    | reference ht' | unresolved ht' => cases ht.symm.trans ht'
  | noLiteral ht hr =>
    cases h' with
    | literal ht' hr' =>
      obtain rfl := Symbol.literal.inj (ht.symm.trans ht')
      exact absurd ⟨_, hr'.symm⟩ hr
    | noLiteral => rfl
    | reference ht' | unresolved ht' => cases ht.symm.trans ht'
  | reference ht hd _ ih =>
    cases h' with
    | literal ht' | noLiteral ht' => cases ht.symm.trans ht'
    | reference ht' hd' hrule =>
      obtain rfl := Symbol.reference.inj (ht.symm.trans ht')
      rw [← Grammar.find?_eq_some_iff] at hd hd'
      obtain rfl := Option.some.inj (hd.symm.trans hd')
      exact ih hrule
    | unresolved ht' hnone =>
      obtain rfl := Symbol.reference.inj (ht.symm.trans ht')
      exact absurd hd.name_eq (hnone _ hd.mem)
  | unresolved ht hnone =>
    cases h' with
    | literal ht' | noLiteral ht' => cases ht.symm.trans ht'
    | reference ht' hd' =>
      obtain rfl := Symbol.reference.inj (ht.symm.trans ht')
      exact absurd hd'.name_eq (hnone _ hd'.mem)
    | unresolved => rfl
  | manyStop _ ih =>
    cases h' with
    | manyStop => rfl
    | manyEmpty h | manyMore h => cases ih h
  | manyEmpty _ hstop ih =>
    cases h' with
    | manyStop h => cases ih h
    | manyEmpty h => exact ih h
    | manyMore h hmoved =>
      obtain rfl := Option.some.inj (ih h)
      exact absurd hstop hmoved
  | manyMore _ hmoved _ ih ihlater =>
    cases h' with
    | manyStop h => cases ih h
    | manyEmpty h hstop =>
      obtain rfl := Option.some.inj (ih h)
      exact absurd hstop hmoved
    | manyMore h _ hlater =>
      obtain rfl := Option.some.inj (ih h)
      obtain rfl := Option.some.inj (ihlater hlater)
      rfl
  | once ht _ ih =>
    cases h' with
    | once _ h => exact ih h
    | optional ht' | noOptional ht' | zeroOrMore ht' | oneOrMore ht' | noOneOrMore ht' =>
      cases ht.symm.trans ht'
  | optional ht _ ih | noOptional ht _ ih =>
    cases h' with
    | optional _ h | noOptional _ h => cases ih h <;> rfl
    | once ht' | zeroOrMore ht' | oneOrMore ht' | noOneOrMore ht' => cases ht.symm.trans ht'
  | zeroOrMore ht _ ih =>
    cases h' with
    | zeroOrMore _ h => exact ih h
    | once ht' | optional ht' | noOptional ht' | oneOrMore ht' | noOneOrMore ht' =>
      cases ht.symm.trans ht'
  | oneOrMore ht _ _ ih ihmany =>
    cases h' with
    | oneOrMore _ _ hmany => exact ihmany hmany
    | noOneOrMore _ h => cases ih h
    | once ht' | optional ht' | noOptional ht' | zeroOrMore ht' => cases ht.symm.trans ht'
  | noOneOrMore ht _ ih =>
    cases h' with
    | oneOrMore _ h => cases ih h
    | noOneOrMore => rfl
    | once ht' | optional ht' | noOptional ht' | zeroOrMore ht' => cases ht.symm.trans ht'
  | nil => cases h'; rfl
  | cons _ _ ih ihlater =>
    cases h' with
    | cons h hlater =>
      obtain rfl := Option.some.inj (ih h)
      obtain rfl := Option.some.inj (ihlater hlater)
      rfl
    | consFirst h => cases ih h
    | consLater h hlater =>
      obtain rfl := Option.some.inj (ih h)
      cases ihlater hlater
  | consFirst _ ih =>
    cases h' with
    | cons h | consLater h => cases ih h
    | consFirst => rfl
  | consLater _ _ ih ihlater =>
    cases h' with
    | cons h hlater =>
      obtain rfl := Option.some.inj (ih h)
      cases ihlater hlater
    | consFirst | consLater => rfl
  | noChoice => cases h'; rfl
  | first _ ih =>
    cases h' with
    | first h => exact ih h
    | later h => cases ih h
  | later _ _ ih ihlater =>
    cases h' with
    | first h => cases ih h
    | later _ hlater => exact ihlater hlater
  | body _ ih =>
    cases h' with
    | body h => exact ih h
  | noRule _ ih =>
    cases h' with
    | noRule => rfl
    | fragment _ h | node _ h => cases ih h
  | fragment hd _ ih =>
    cases h' with
    | noRule h => cases ih h
    | fragment _ h => exact ih h
    | node hd' => cases hd.symm.trans hd'
  | node hd _ hr ih =>
    cases h' with
    | noRule h => cases ih h
    | fragment hd' => cases hd.symm.trans hd'
    | node _ h hr' =>
      obtain rfl := Option.some.inj (ih h)
      obtain rfl := List.append_cancel_right (hr.symm.trans hr')
      rfl

/-! ## Counting -/

/-- The text in front of a cursor does not fill the counter of a repetition. -/
abbrev Cursor.Short (c : Cursor) : Prop := byteLength c.rest + 1 < 2 ^ 32

theorem Cursor.Short.of_reaches (h : c.Short) (hreach : c.Reaches c') : c'.Short := by
  obtain ⟨taken, hr, -⟩ := hreach
  rw [Cursor.Short, hr, byteLength_append] at h
  exact Nat.lt_of_le_of_lt (by omega) h

/-- In a short text once or more is any number of times, if there is a first time. -/
theorem Goal.run_oneOrMore_of_short {σ : Type} {note : Observer σ} {levels : Nat} {s s' : σ}
    (ht : t.repetition = .oneOrMore) (hshort : c.Short)
    (hm : (symbol t).run note g levels c s = (some m, s')) :
    (term t).run note g levels c s = (many t).run note g levels c s := by
  have hx := advances_run note g levels (symbol t)
  obtain ⟨iterations, s₁, h⟩ := Matcher.Repeats.exists_repeats hx c s
  have hcounted : Matcher.Counted iterations.length := by
    refine (h.counted_length hx hshort).resolve_left ?_
    rintro rfl
    cases h with
    | fail h => rw [h] at hm; cases hm
  rw [run_oneOrMore ht, run, run, ← Matcher.oneOrMore_eq_loop, ← Matcher.zeroOrMore_eq_loop]
  exact (h.oneOrMore_eq hx).trans ((h.zeroOrMore_eq hx).trans (by rw [if_pos hcounted])).symm

theorem Settles.oneOrMore_of_short {needed₁ needed₂ : Nat} (ht : t.repetition = .oneOrMore)
    (hshort : c.Short) (h : Settles g (symbol t) c (some m) needed₁)
    (hmany : Settles g (many t) c o needed₂) : Settles g (term t) c o needed₂ := by
  intro levels p hp
  obtain ⟨hlevels, hout⟩ := h levels p hp
  have hrun : needed₁ ≤ levels → (term t).run Progress.note g levels c p =
      (many t).run Progress.note g levels c p :=
    fun hle => run_oneOrMore_of_short ht hshort (Prod.ext (hout hle) rfl)
  -- the repetition begins with the same attempt, so its levels are enough for both
  have hle : needed₂ ≤ levels → needed₁ ≤ levels :=
    fun hle => hlevels.1 (quiet_first_of_loop ((hmany levels p hp).1.2 hle))
  refine ⟨⟨fun hq => ?_, fun h₂ => ?_⟩, fun h₂ => ?_⟩
  · have hfirst := hlevels.1 (quiet_first_of_loop (run_oneOrMore ht ▸ hq))
    rw [hrun hfirst] at hq
    exact (hmany levels p hp).1.1 hq
  · rw [hrun (hle h₂)]
    exact (hmany levels p hp).1.2 h₂
  · rw [hrun (hle h₂)]
    exact (hmany levels p hp).2 h₂

/-! ## What is derived is found -/

/-- **An outcome that is derived is found with enough levels.** -/
theorem settles_of_derives {x : Goal} (h : Derives g x c o) (hshort : c.Short) :
    ∃ needed, Settles g x c o needed := by
  induction h with
  | @literal t text c stop ht hr ho =>
    obtain ⟨offset, rest⟩ := c
    obtain ⟨offset', rest'⟩ := stop
    obtain rfl : rest = text ++ rest' := hr
    obtain rfl : offset' = offset + byteLength text := ho
    exact ⟨0, .literal ht⟩
  | noLiteral ht hr => exact ⟨0, .literal_none ht hr⟩
  | reference ht hd _ ih =>
    obtain ⟨n, hn⟩ := ih hshort
    exact ⟨n, hn.reference ht (Grammar.find?_eq_some_iff.2 hd)⟩
  | unresolved ht hd => exact ⟨0, .unresolved ht (Grammar.find?_eq_none_iff.2 hd)⟩
  | manyStop _ ih =>
    obtain ⟨n, hn⟩ := ih hshort
    exact ⟨n, hn.many_none⟩
  | manyEmpty _ hstop ih =>
    obtain ⟨n, hn⟩ := ih hshort
    exact ⟨n, hn.many_empty (by rw [hstop])⟩
  | manyMore _ hstop _ ih ihlater =>
    obtain ⟨n, hn⟩ := ih hshort
    obtain ⟨k, hk⟩ := ihlater (hshort.of_reaches hn.reaches)
    exact ⟨max n k, hn.many_some (fun ho => hstop (hn.reaches.eq_of_offset_eq ho)) hk⟩
  | once ht _ ih =>
    obtain ⟨n, hn⟩ := ih hshort
    exact ⟨n, hn.once ht⟩
  | optional ht _ ih =>
    obtain ⟨n, hn⟩ := ih hshort
    exact ⟨n, hn.optional ht⟩
  | noOptional ht _ ih =>
    obtain ⟨n, hn⟩ := ih hshort
    exact ⟨n, hn.optional_none ht⟩
  | zeroOrMore ht _ ih =>
    obtain ⟨n, hn⟩ := ih hshort
    exact ⟨n, hn.zeroOrMore ht⟩
  | oneOrMore ht _ _ ih ihmany =>
    obtain ⟨n, hn⟩ := ih hshort
    obtain ⟨k, hk⟩ := ihmany hshort
    exact ⟨k, hn.oneOrMore_of_short ht hshort hk⟩
  | noOneOrMore ht _ ih =>
    obtain ⟨n, hn⟩ := ih hshort
    exact ⟨n, (Loops.stop hn).oneOrMore_of_not_counted ht Matcher.not_counted_zero⟩
  | nil => exact ⟨0, .sequence_nil⟩
  | cons _ _ ih ihlater =>
    obtain ⟨n, hn⟩ := ih hshort
    obtain ⟨k, hk⟩ := ihlater (hshort.of_reaches hn.reaches)
    exact ⟨max n k, hn.sequence_some hk⟩
  | consFirst _ ih =>
    obtain ⟨n, hn⟩ := ih hshort
    exact ⟨n, hn.sequence_none⟩
  | consLater _ _ ih ihlater =>
    obtain ⟨n, hn⟩ := ih hshort
    obtain ⟨k, hk⟩ := ihlater (hshort.of_reaches hn.reaches)
    exact ⟨max n k, hn.sequence_some hk⟩
  | noChoice => exact ⟨0, .choice_nil⟩
  | first _ ih =>
    obtain ⟨n, hn⟩ := ih hshort
    exact ⟨n, hn.choice_some⟩
  | later _ _ ih ihlater =>
    obtain ⟨n, hn⟩ := ih hshort
    obtain ⟨k, hk⟩ := ihlater hshort
    exact ⟨max n k, hn.choice_none hk⟩
  | body _ ih =>
    obtain ⟨n, hn⟩ := ih hshort
    exact ⟨n + 1, hn.body⟩
  | noRule _ ih =>
    obtain ⟨n, hn⟩ := ih hshort
    exact ⟨n, hn.rule⟩
  | fragment hd _ ih =>
    obtain ⟨n, hn⟩ := ih hshort
    exact ⟨n, hn.fragment hd⟩
  | node hd _ hr ih =>
    obtain ⟨n, hn⟩ := ih hshort
    exact ⟨n, hn.node hd hr⟩

/-! ## What is found is derived -/

section Quiet

variable {levels : Nat}

/-- Bodies whose quiet runs are derived. -/
private abbrev Sound (g : Grammar) (levels : Nat) (x : Goal) : Prop :=
  ∀ c p, c.Short → (x.run Progress.note g levels c p).2.tooDeep = false →
    Derives g x c (x.run Progress.note g levels c p).1

private theorem sound_rule (hb : Sound g levels (body d)) : Sound g levels (rule d) := by
  intro c p hshort h
  have hbody := hb c p hshort h
  rw [run_rule]
  rcases hm : (body d).run Progress.note g levels c p with ⟨_ | m, p'⟩
  · rw [hm] at hbody
    exact .noRule hbody
  · rw [hm] at hbody
    rw [Option.map_some]
    cases hd : d.isFragment with
    | true =>
      rw [wrap_of_fragment hd]
      exact .fragment hd hbody
    | false =>
      -- the text of the node is what lies between the two cursors
      obtain ⟨taken, hr, ho⟩ := advances_run Progress.note g levels (body d) c p m (by rw [hm])
      rw [wrap_of_not_fragment hd hr ho]
      exact .node hd hbody hr

private theorem sound_symbol (hb : ∀ d, Sound g levels (body d)) (t : Term) :
    Sound g levels (symbol t) := by
  intro c p hshort h
  cases ht : t.symbol with
  | literal text =>
    rw [run_literal ht, Matcher.literal]
    split
    · rename_i stop hstop
      obtain ⟨hr, ho⟩ := Cursor.advance?_eq_some_iff.1 hstop
      exact .literal ht hr ho
    · rename_i hstop
      exact .noLiteral ht (Cursor.advance?_eq_none_iff.1 hstop)
  | reference name =>
    cases hd : g.find? name with
    | none =>
      rw [run_unresolved ht hd]
      exact .unresolved ht (Grammar.find?_eq_none_iff.1 hd)
    | some d =>
      rw [run_reference ht hd] at h ⊢
      exact .reference ht (Grammar.find?_eq_some_iff.1 hd) (sound_rule (hb d) c p hshort h)

private theorem sound_many (hb : ∀ d, Sound g levels (body d)) (t : Term) :
    Sound g levels (many t) := by
  intro c p hshort h
  -- every iteration that is followed by another leaves less text in front
  induction hn : c.rest.length using Nat.strongRecOn generalizing c p with
  | _ n ih =>
    have hs := sound_symbol hb t c p hshort
    rcases hm : (symbol t).run Progress.note g levels c p with ⟨_ | m, p'⟩
    · rw [hm] at hs
      rw [run_many_of_none hm] at h ⊢
      exact .manyStop (hs h)
    · have hreach := advances_run Progress.note g levels (symbol t) c p m (by rw [hm])
      rw [hm] at hs
      by_cases ho : m.stop.offset = c.offset
      · rw [run_many_of_empty hm ho] at h ⊢
        exact .manyEmpty (hs h) (hreach.eq_of_offset_eq ho)
      · rw [run_many_of_some hm ho] at h ⊢
        have hlater := ih m.stop.rest.length (by rw [← hn]; exact hreach.length_lt ho)
          m.stop p' (hshort.of_reaches hreach) h rfl
        rcases hl : (many t).run Progress.note g levels m.stop p' with ⟨_ | later, p''⟩
        · exact absurd hl run_many_ne_none
        · rw [hl] at hlater
          exact .manyMore (hs (quiet_of_quiet_run Progress.gauge h))
            (fun hstop => ho (by rw [hstop])) hlater

private theorem sound_term (hb : ∀ d, Sound g levels (body d)) (t : Term) :
    Sound g levels (term t) := by
  intro c p hshort h
  have hs := sound_symbol hb t c p hshort
  cases ht : t.repetition with
  | once =>
    rw [run_once ht] at h ⊢
    exact .once ht (hs h)
  | optional =>
    rcases hm : (symbol t).run Progress.note g levels c p with ⟨_ | m, p'⟩
    · rw [hm] at hs
      rw [run_optional_of_none ht hm] at h ⊢
      exact .noOptional ht (hs h)
    · rw [hm] at hs
      rw [run_optional_of_some ht hm] at h ⊢
      exact .optional ht (hs h)
  | zeroOrMore =>
    rw [run_zeroOrMore ht] at h ⊢
    exact .zeroOrMore ht (sound_many hb t c p hshort h)
  | oneOrMore =>
    rcases hm : (symbol t).run Progress.note g levels c p with ⟨_ | m, p'⟩
    · rw [hm] at hs
      rw [run_oneOrMore ht, run_loop_of_none hm] at h ⊢
      exact .noOneOrMore ht (hs h)
    · rw [run_oneOrMore_of_short ht hshort hm] at h ⊢
      have hfirst := quiet_first_of_loop h
      rw [hm] at hs hfirst
      exact .oneOrMore ht (hs hfirst) (sound_many hb t c p hshort h)

private theorem sound_sequence (hb : ∀ d, Sound g levels (body d)) (terms : List Term) :
    Sound g levels (sequence terms) := by
  induction terms with
  | nil => exact fun c p _ _ => .nil
  | cons t terms ih =>
    intro c p hshort h
    have ht := sound_term hb t c p hshort (quiet_first_of_sequence h)
    rcases hm : (term t).run Progress.note g levels c p with ⟨_ | m, p'⟩
    · rw [hm] at ht
      rw [run_sequence_of_none hm]
      exact .consFirst ht
    · rw [hm] at ht
      rw [run_sequence_of_some hm] at h ⊢
      have hreach := advances_run Progress.note g levels (term t) c p m (by rw [hm])
      have hlater := ih m.stop p' (hshort.of_reaches hreach) h
      rcases hl : ((sequence terms).run Progress.note g levels m.stop p').1 with _ | later
      · rw [hl] at hlater
        exact .consLater ht hlater
      · rw [hl] at hlater
        exact .cons ht hlater

private theorem sound_choice (hb : ∀ d, Sound g levels (body d))
    (alternatives : List (List Term)) : Sound g levels (choice alternatives) := by
  induction alternatives with
  | nil => exact fun c p _ _ => .noChoice
  | cons terms alternatives ih =>
    intro c p hshort h
    have ht := sound_sequence hb terms c p hshort (quiet_first_of_choice h)
    rcases hm : (sequence terms).run Progress.note g levels c p with ⟨_ | m, p'⟩
    · rw [hm] at ht
      rw [run_choice_of_none hm] at h ⊢
      exact .later ht (ih c p' hshort h)
    · rw [hm] at ht
      rw [run_choice_of_some hm]
      exact .first ht

private theorem sound_body (g : Grammar) (levels : Nat) (d : Definition) :
    Sound g levels (body d) := by
  induction levels generalizing d with
  | zero =>
    intro c p hshort h
    simp [run_body_zero, Progress.note] at h
  | succ n ih =>
    intro c p hshort h
    exact .body (sound_choice ih d.alternatives c p hshort h)

end Quiet

/-- **A run that ends quietly has an outcome that is derived.** -/
theorem derives_of_quiet {levels : Nat} {p : Progress} {x : Goal} (hx : x.Uncounted)
    (hshort : c.Short) (h : (x.run Progress.note g levels c p).2.tooDeep = false) :
    Derives g x c (x.run Progress.note g levels c p).1 := by
  have hb := sound_body g levels
  cases x with
  | symbol t => exact sound_symbol hb t c p hshort h
  | loop t count =>
    cases count with
    | none => exact sound_many hb t c p hshort h
    | some k => exact absurd rfl (hx t k)
  | term t => exact sound_term hb t c p hshort h
  | sequence terms => exact sound_sequence hb terms c p hshort h
  | choice alternatives => exact sound_choice hb alternatives c p hshort h
  | body d => exact hb d c p hshort h
  | rule d => exact sound_rule (hb d) c p hshort h

/-- **The matcher computes the meaning of the grammar.** For every table and
every part of its grammar, a rule for one, at every place of a text: at most one
outcome is derived; and if the text does not fill the counter of a repetition, a
run that does not reach its limit has the outcome `o` exactly when `o` is derived,
success and failure alike, and one that is derived is that of every run with
enough levels, where enough is the same number of levels that keeps the run from
its limit. -/
theorem run_eq_iff_derives (rules : List Rule) (x : Goal) (hx : x.Uncounted)
    (before rest : List Char) :
    (∀ o o', Derives (.ofRules rules) x ⟨byteLength before, rest⟩ o →
      Derives (.ofRules rules) x ⟨byteLength before, rest⟩ o' → o = o') ∧
    (byteLength rest + 1 < 2 ^ 32 →
      (∀ levels p,
        (x.run Progress.note (.ofRules rules) levels ⟨byteLength before, rest⟩ p).2.tooDeep =
          false →
        ∀ o, (x.run Progress.note (.ofRules rules) levels ⟨byteLength before, rest⟩ p).1 = o ↔
          Derives (.ofRules rules) x ⟨byteLength before, rest⟩ o) ∧
      ∀ o, Derives (.ofRules rules) x ⟨byteLength before, rest⟩ o →
        ∃ needed, ∀ levels p, p.tooDeep = false →
          ((x.run Progress.note (.ofRules rules) levels ⟨byteLength before, rest⟩ p).2.tooDeep =
            false ↔ needed ≤ levels) ∧
          (needed ≤ levels →
            (x.run Progress.note (.ofRules rules) levels ⟨byteLength before, rest⟩ p).1 = o)) := by
  refine ⟨fun _ _ h h' => h.unique h', fun hrest => ⟨fun levels p hq o => ?_, fun o h =>
    settles_of_derives h hrest⟩⟩
  have hrun := derives_of_quiet hx hrest hq
  exact ⟨fun ho => ho ▸ hrun, hrun.unique⟩

/-- The last definition of `a` is the one in force, and a repetition of it
stops in front of the `y`; three levels are enough. -/
theorem run_eq_iff_derives_shadowed :
    Derives (.ofRules [⟨"a", [["\"y\""]]⟩, ⟨"s", [["a+"]]⟩, ⟨"a", [["\"x\""]]⟩])
      (.symbol (Term.ofSource "s")) ⟨byteLength ['é'], ['x', 'x', 'y']⟩
      (some ⟨⟨4, ['y']⟩,
        [⟨"s", "xx", 2, 4, [⟨"a", "x", 2, 3, [], []⟩, ⟨"a", "x", 3, 4, [], []⟩], []⟩]⟩) :=
  (((run_eq_iff_derives _ (.symbol (Term.ofSource "s")) nofun ['é'] ['x', 'x', 'y']).2
    (by decide)).1 3 .start (by decide +kernel) _).1 (by decide +kernel)

/-! ## A full counter -/

/-- A character that is repeated is derived as often as it is there. -/
theorem exists_derives_replicate {a : Char} (ht : t.symbol = .literal [a]) (k offset : Nat) :
    ∃ m, m.stop.rest = [] ∧ Derives g (many t) ⟨offset, List.replicate k a⟩ (some m) := by
  induction k generalizing offset with
  | zero => exact ⟨_, rfl, .manyStop (.noLiteral ht (by simp))⟩
  | succ k ih =>
    obtain ⟨later, hend, hlater⟩ := ih (offset + a.utf8Size)
    have hpos := a.utf8Size_pos
    have hfirst : Derives g (symbol t) ⟨offset, List.replicate (k + 1) a⟩
        (some ⟨⟨offset + a.utf8Size, List.replicate k a⟩, []⟩) := .literal ht rfl rfl
    refine ⟨_, hend, .manyMore hfirst (fun hstop => ?_) hlater⟩
    have := congrArg Cursor.offset hstop
    dsimp only at this
    omega

/-- Once or more of a character is derived where it stands, and fails where the counter does not
tell how often. -/
theorem derives_replicate {a : Char} (ht : t.symbol = .literal [a])
    (hr : t.repetition = .oneOrMore) {n : Nat} (hn : n ≠ 0) (hcounted : ¬ Matcher.Counted n) :
    (∃ m, Derives g (term t) ⟨0, List.replicate n a⟩ (some m)) ∧
      Settles g (term t) ⟨0, List.replicate n a⟩ none 0 := by
  constructor
  · obtain ⟨k, rfl⟩ := Nat.exists_eq_succ_of_ne_zero hn
    obtain ⟨m, -, hmany⟩ := exists_derives_replicate (g := g) ht (k + 1) 0
    have hfirst : Derives g (symbol t) ⟨0, List.replicate (k + 1) a⟩
        (some ⟨⟨0 + a.utf8Size, List.replicate k a⟩, []⟩) := .literal ht rfl rfl
    exact ⟨m, .oneOrMore hr hfirst hmany⟩
  · obtain ⟨stop, -, hloops⟩ := (Reads.literal (g := g) ht).loops
      (c := ⟨0, List.replicate n a⟩) (List.append_nil _).symm
      (fun b hb => List.eq_of_mem_replicate hb) begins_nil
    rw [List.length_replicate] at hloops
    exact hloops.oneOrMore_of_not_counted hr hcounted

/-- A letter that stands `2 ^ 32` times means success for its literal with `+`; a run that does
not reach its limit fails. -/
theorem not_run_eq_iff_derives :
    (∃ m, Derives (.ofRules [⟨"s", [["'a'+"]]⟩]) (term (Term.ofSource "'a'+"))
      ⟨0, List.replicate (2 ^ 32) 'a'⟩ (some m)) ∧
    ((term (Term.ofSource "'a'+")).run Progress.note (.ofRules [⟨"s", [["'a'+"]]⟩]) 0
      ⟨0, List.replicate (2 ^ 32) 'a'⟩ .start).1 = none ∧
    ((term (Term.ofSource "'a'+")).run Progress.note (.ofRules [⟨"s", [["'a'+"]]⟩]) 0
      ⟨0, List.replicate (2 ^ 32) 'a'⟩ .start).2.tooDeep = false := by
  have ht : (Term.ofSource "'a'+").symbol = .literal ['a'] := by decide
  obtain ⟨hderives, hsettles⟩ := derives_replicate (g := .ofRules [⟨"s", [["'a'+"]]⟩]) ht
    (by decide) (n := 2 ^ 32) (by decide) (by decide)
  obtain ⟨hquiet, hnone⟩ := hsettles 0 .start rfl
  exact ⟨hderives, hnone (Nat.le_refl 0), hquiet.2 (Nat.le_refl 0)⟩

end OrderedBnf
