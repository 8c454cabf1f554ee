import OrderedBnf.Proofs.Match.Limit

/-!
# What a goal comes to, and how many levels it takes

A goal settles at a cursor when some number of levels is enough for it:
with that many or more it always comes to the same outcome, and with fewer
the limit is reached. `Settles` says so for one outcome and the exact number
of levels. It is composed from parts to whole, by a lemma for each way in
which a goal can go: a level is counted for each body, and of several
attempts, failed ones included, the deepest counts.

A goal settles in one way only (`Settles.unique`), so what is composed in
this way also says what the matcher does not do.
-/

namespace OrderedBnf

open Goal

/-- **The outcome `o` of a goal at a cursor, and the levels it takes.** With
`needed` levels or more the goal comes to `o` without reaching the limit;
with fewer it reaches the limit. -/
def Settles (g : Grammar) (x : Goal) (c : Cursor) (o : Option Match) (needed : Nat) : Prop :=
  ∀ levels p, p.tooDeep = false →
    ((x.run Progress.note g levels c p).2.tooDeep = false ↔ needed ≤ levels) ∧
    (needed ≤ levels → (x.run Progress.note g levels c p).1 = o)

variable {g : Grammar} {x y z : Goal} {c : Cursor} {o r : Option Match} {m : Match}
variable {needed needed₁ needed₂ levels : Nat} {p : Progress}
variable {t : Term} {terms : List Term} {alternatives : List (List Term)} {d : Definition}
variable {count : Option Nat}

/-! ## A run that ends quietly had quiet parts -/

theorem quiet_start (h : (x.run Progress.note g levels c p).2.tooDeep = false) :
    p.tooDeep = false :=
  quiet_of_quiet_run Progress.gauge h

theorem quiet_first_of_sequence
    (h : ((sequence (t :: terms)).run Progress.note g levels c p).2.tooDeep = false) :
    ((term t).run Progress.note g levels c p).2.tooDeep = false := by
  rcases hm : (term t).run Progress.note g levels c p with ⟨_ | m, p'⟩
  · rwa [run_sequence_of_none hm] at h
  · rw [run_sequence_of_some hm] at h
    exact quiet_start h

theorem quiet_first_of_choice
    (h : ((choice (terms :: alternatives)).run Progress.note g levels c p).2.tooDeep = false) :
    ((sequence terms).run Progress.note g levels c p).2.tooDeep = false := by
  rcases hm : (sequence terms).run Progress.note g levels c p with ⟨_ | m, p'⟩
  · rw [run_choice_of_none hm] at h
    exact quiet_start h
  · rwa [run_choice_of_some hm] at h

theorem quiet_first_of_loop
    (h : ((loop t count).run Progress.note g levels c p).2.tooDeep = false) :
    ((symbol t).run Progress.note g levels c p).2.tooDeep = false := by
  rcases hm : (symbol t).run Progress.note g levels c p with ⟨_ | m, p'⟩
  · rwa [run_loop_of_none hm] at h
  · by_cases ho : m.stop.offset = c.offset
    · rwa [run_loop_of_empty hm ho] at h
    · rw [run_loop_of_some hm ho] at h
      exact quiet_start h

theorem quiet_first_of_optional (ht : t.repetition = .optional)
    (h : ((term t).run Progress.note g levels c p).2.tooDeep = false) :
    ((symbol t).run Progress.note g levels c p).2.tooDeep = false := by
  rcases hm : (symbol t).run Progress.note g levels c p with ⟨_ | m, p'⟩
  · rwa [run_optional_of_none ht hm] at h
  · rwa [run_optional_of_some ht hm] at h

namespace Settles

/-! ## Two ways to compose -/

theorem of_eq {o' : Option Match} (h : Settles g x c o needed₁) (ho : o = o')
    (hn : needed₁ = needed₂) : Settles g x c o' needed₂ := ho ▸ hn ▸ h

/-- A goal that runs as another does settles as the other does. -/
theorem of_run_eq (hy : Settles g y c o needed)
    (h : ∀ levels p, x.run Progress.note g levels c p = y.run Progress.note g levels c p) :
    Settles g x c o needed := by
  intro levels p hp
  rw [h]
  exact hy levels p hp

/-- A goal that makes its outcome from that of its first part alone. -/
theorem of_first (hy : Settles g y c r needed)
    (hquiet : ∀ levels p, (x.run Progress.note g levels c p).2.tooDeep = false →
      (y.run Progress.note g levels c p).2.tooDeep = false)
    (hrun : ∀ levels p p', y.run Progress.note g levels c p = (r, p') →
      x.run Progress.note g levels c p = (o, p')) :
    Settles g x c o needed := by
  intro levels p hp
  obtain ⟨hlevels, hout⟩ := hy levels p hp
  have hx : needed ≤ levels → x.run Progress.note g levels c p =
      (o, (y.run Progress.note g levels c p).2) :=
    fun hle => hrun levels p _ (Prod.ext (hout hle) rfl)
  refine ⟨⟨fun h => hlevels.1 (hquiet levels p h), fun hle => ?_⟩, fun hle => by rw [hx hle]⟩
  rw [hx hle]
  exact hlevels.2 hle

/-- A goal whose first part comes to `r` and which then goes on as another
goal at another cursor. -/
theorem of_first_then {c' : Cursor} {f : Option Match → Option Match}
    (hy : Settles g y c r needed₁) (hz : Settles g z c' o needed₂)
    (hquiet : ∀ levels p, (x.run Progress.note g levels c p).2.tooDeep = false →
      (y.run Progress.note g levels c p).2.tooDeep = false)
    (hrun : ∀ levels p p', y.run Progress.note g levels c p = (r, p') →
      x.run Progress.note g levels c p =
        (f (z.run Progress.note g levels c' p').1, (z.run Progress.note g levels c' p').2)) :
    Settles g x c (f o) (max needed₁ needed₂) := by
  intro levels p hp
  obtain ⟨hlevels, hout⟩ := hy levels p hp
  -- with enough levels for the first part, the rest of the run is one of the other goal
  have hx : needed₁ ≤ levels → x.run Progress.note g levels c p = _ :=
    fun hle => hrun levels p _ (Prod.ext (hout hle) rfl)
  have hmid : needed₁ ≤ levels → _ :=
    fun hle => hz levels (y.run Progress.note g levels c p).2 (hlevels.2 hle)
  constructor
  · constructor
    · intro h
      have hle₁ : needed₁ ≤ levels := hlevels.1 (hquiet levels p h)
      rw [hx hle₁] at h
      exact Nat.max_le.2 ⟨hle₁, (hmid hle₁).1.1 h⟩
    · intro hle
      have hle₁ : needed₁ ≤ levels := (Nat.max_le.1 hle).1
      rw [hx hle₁]
      exact (hmid hle₁).1.2 (Nat.max_le.1 hle).2
  · intro hle
    have hle₁ : needed₁ ≤ levels := (Nat.max_le.1 hle).1
    rw [hx hle₁]
    exact congrArg f ((hmid hle₁).2 (Nat.max_le.1 hle).2)

/-- A goal that settles stops behind the cursor where it began. -/
theorem reaches (h : Settles g x c (some m) needed) : c.Reaches m.stop :=
  advances_run Progress.note g needed x c .start m ((h needed .start rfl).2 (Nat.le_refl _))

/-! ## Symbols -/

theorem literal {text rest : List Char} {offset : Nat} (ht : t.symbol = .literal text) :
    Settles g (symbol t) ⟨offset, text ++ rest⟩
      (some ⟨⟨offset + byteLength text, rest⟩, []⟩) 0 := by
  have hadv : (Cursor.mk offset (text ++ rest)).advance? text =
      some ⟨offset + byteLength text, rest⟩ := Cursor.advance?_eq_some_iff.2 ⟨rfl, rfl⟩
  intro levels p hp
  simp [run_literal ht, Matcher.literal, hadv, hp]

theorem literal_none {text : List Char} (ht : t.symbol = .literal text)
    (h : ¬ text <+: c.rest) : Settles g (symbol t) c none 0 := by
  intro levels p hp
  simp [run_literal ht, Matcher.literal, Cursor.advance?_eq_none_iff.2 h, Progress.note, hp]

theorem unresolved {name : String} (ht : t.symbol = .reference name) (hd : g.find? name = none) :
    Settles g (symbol t) c none 0 := by
  intro levels p hp
  simp [run_unresolved ht hd, Progress.note, hp]

theorem reference {name : String} (ht : t.symbol = .reference name) (hd : g.find? name = some d)
    (h : Settles g (rule d) c o needed) : Settles g (symbol t) c o needed :=
  h.of_run_eq fun _ _ => run_reference ht hd

/-! ## Rules -/

/-- A body takes one level more than its alternatives. -/
theorem body (h : Settles g (choice d.alternatives) c o needed) :
    Settles g (body d) c o (needed + 1) := by
  intro levels p hp
  cases levels with
  | zero => simp [run_body_zero, Progress.note]
  | succ n =>
    obtain ⟨hlevels, hout⟩ := h n p hp
    rw [run_body_succ]
    exact ⟨hlevels.trans Nat.succ_le_succ_iff.symm, fun hle => hout (Nat.le_of_succ_le_succ hle)⟩

theorem rule (h : Settles g (Goal.body d) c o needed) :
    Settles g (rule d) c (o.map fun m => m.wrap d c) needed := by
  intro levels p hp
  obtain ⟨hlevels, hout⟩ := h levels p hp
  rw [run_rule]
  exact ⟨hlevels, fun hle => by rw [hout hle]⟩

theorem rule_none (h : Settles g (Goal.body d) c none needed) :
    Settles g (Goal.rule d) c none needed :=
  h.rule

theorem fragment (hd : d.isFragment = true) (h : Settles g (Goal.body d) c (some m) needed) :
    Settles g (Goal.rule d) c (some m) needed := by
  have := h.rule
  rwa [Option.map_some, wrap_of_fragment hd] at this

theorem node {taken : List Char} (hd : d.isFragment = false)
    (h : Settles g (Goal.body d) c (some m) needed) (hr : c.rest = taken ++ m.stop.rest) :
    Settles g (Goal.rule d) c
      (some ⟨m.stop, [⟨d.name, String.ofList taken, c.offset, m.stop.offset, m.nodes, []⟩]⟩)
      needed := by
  obtain ⟨taken', hr', ho⟩ := h.reaches
  obtain rfl : taken' = taken := List.append_cancel_right (hr'.symm.trans hr)
  have := h.rule
  rwa [Option.map_some, wrap_of_not_fragment hd hr ho] at this

/-! ## Repetition -/

theorem once (ht : t.repetition = .once) (h : Settles g (symbol t) c o needed) :
    Settles g (term t) c o needed :=
  h.of_run_eq fun _ _ => run_once ht

theorem optional (ht : t.repetition = .optional) (h : Settles g (symbol t) c (some m) needed) :
    Settles g (term t) c (some m) needed :=
  h.of_first (fun _ _ => quiet_first_of_optional ht) fun _ _ _ => run_optional_of_some ht

theorem optional_none (ht : t.repetition = .optional) (h : Settles g (symbol t) c none needed) :
    Settles g (term t) c (some ⟨c, []⟩) needed :=
  h.of_first (fun _ _ => quiet_first_of_optional ht) fun _ _ _ => run_optional_of_none ht

theorem zeroOrMore (ht : t.repetition = .zeroOrMore) (h : Settles g (many t) c o needed) :
    Settles g (term t) c o needed :=
  h.of_run_eq fun _ _ => run_zeroOrMore ht

theorem oneOrMore (ht : t.repetition = .oneOrMore) (h : Settles g (loop t (some 0)) c o needed) :
    Settles g (term t) c o needed :=
  h.of_run_eq fun _ _ => run_oneOrMore ht

theorem loop_none (h : Settles g (symbol t) c none needed) :
    Settles g (loop t count) c (Matcher.verdict count ⟨c, []⟩) needed :=
  h.of_first (fun _ _ => quiet_first_of_loop) fun _ _ _ => run_loop_of_none

theorem loop_empty (h : Settles g (symbol t) c (some m) needed) (ho : m.stop.offset = c.offset) :
    Settles g (loop t count) c (Matcher.verdict (count.map (· + 1)) m) needed :=
  h.of_first (fun _ _ => quiet_first_of_loop) fun _ _ _ hm => run_loop_of_empty hm ho

theorem loop_some (h : Settles g (symbol t) c (some m) needed₁) (ho : m.stop.offset ≠ c.offset)
    (hlater : Settles g (loop t (count.map (· + 1))) m.stop o needed₂) :
    Settles g (loop t count) c (o.map fun later => ⟨later.stop, m.nodes ++ later.nodes⟩)
      (max needed₁ needed₂) :=
  h.of_first_then hlater (fun _ _ => quiet_first_of_loop) fun _ _ _ hm => run_loop_of_some hm ho

theorem many_none (h : Settles g (symbol t) c none needed) :
    Settles g (many t) c (some ⟨c, []⟩) needed := h.loop_none

theorem many_empty (h : Settles g (symbol t) c (some m) needed) (ho : m.stop.offset = c.offset) :
    Settles g (many t) c (some m) needed := h.loop_empty ho

theorem many_some (h : Settles g (symbol t) c (some m) needed₁) (ho : m.stop.offset ≠ c.offset)
    (hlater : Settles g (many t) m.stop o needed₂) :
    Settles g (many t) c (o.map fun later => ⟨later.stop, m.nodes ++ later.nodes⟩)
      (max needed₁ needed₂) := h.loop_some ho hlater

/-! ## Sequence and choice -/

theorem sequence_nil : Settles g (sequence []) c (some ⟨c, []⟩) 0 := by
  intro levels p hp
  simp [run_sequence_nil, hp]

theorem sequence_none (h : Settles g (term t) c none needed) :
    Settles g (sequence (t :: terms)) c none needed :=
  h.of_first (fun _ _ => quiet_first_of_sequence) fun _ _ _ => run_sequence_of_none

theorem sequence_some (h : Settles g (term t) c (some m) needed₁)
    (hlater : Settles g (sequence terms) m.stop o needed₂) :
    Settles g (sequence (t :: terms)) c
      (o.map fun later => ⟨later.stop, m.nodes ++ later.nodes⟩) (max needed₁ needed₂) :=
  h.of_first_then hlater (fun _ _ => quiet_first_of_sequence) fun _ _ _ => run_sequence_of_some

/-- A sequence of one term is that term. -/
theorem sequence_one (h : Settles g (term t) c o needed) :
    Settles g (sequence [t]) c o needed := by
  cases o with
  | none => exact h.sequence_none
  | some m => exact (h.sequence_some sequence_nil).of_eq (by simp) (Nat.max_eq_left (Nat.zero_le _))

theorem choice_nil : Settles g (choice []) c none 0 := by
  intro levels p hp
  simp [run_choice_nil, hp]

theorem choice_some (h : Settles g (sequence terms) c (some m) needed) :
    Settles g (choice (terms :: alternatives)) c (some m) needed :=
  h.of_first (fun _ _ => quiet_first_of_choice) fun _ _ _ => run_choice_of_some

theorem choice_none (h : Settles g (sequence terms) c none needed₁)
    (hlater : Settles g (choice alternatives) c o needed₂) :
    Settles g (choice (terms :: alternatives)) c o (max needed₁ needed₂) :=
  h.of_first_then hlater (f := id) (fun _ _ => quiet_first_of_choice)
    fun _ _ _ => run_choice_of_none

/-! ## There is one way to settle -/

/-- **Outcome and levels are determined.** -/
theorem unique {o' : Option Match} {needed' : Nat} (h : Settles g x c o needed)
    (h' : Settles g x c o' needed') : o = o' ∧ needed = needed' := by
  have hstart : Progress.start.tooDeep = false := rfl
  constructor
  · have ho := (h (max needed needed') .start hstart).2 (Nat.le_max_left _ _)
    have ho' := (h' (max needed needed') .start hstart).2 (Nat.le_max_right _ _)
    rw [← ho, ho']
  · have hle := (h needed' .start hstart).1.1 ((h' needed' .start hstart).1.2 (Nat.le_refl _))
    have hge := (h' needed .start hstart).1.1 ((h needed .start hstart).1.2 (Nat.le_refl _))
    omega

end Settles

/-! ## How often something is repeated -/

/-- **A repetition of `k` iterations**, whether they are counted or not. -/
def Loops (g : Grammar) (t : Term) (c : Cursor) (k : Nat) (m : Match) (needed : Nat) : Prop :=
  ∀ count : Option Nat,
    Settles g (loop t count) c (Matcher.verdict (count.map (· + k)) m) needed

namespace Loops

variable {k : Nat}

theorem stop (h : Settles g (symbol t) c none needed) : Loops g t c 0 ⟨c, []⟩ needed := by
  intro count
  simpa using (h.loop_none : Settles g (loop t count) c _ needed)

theorem last (h : Settles g (symbol t) c (some m) needed) (ho : m.stop.offset = c.offset) :
    Loops g t c 1 m needed := fun _ => h.loop_empty ho

theorem more {later : Match} (h : Settles g (symbol t) c (some m) needed₁)
    (ho : m.stop.offset ≠ c.offset) (hlater : Loops g t m.stop k later needed₂) :
    Loops g t c (k + 1) ⟨later.stop, m.nodes ++ later.nodes⟩ (max needed₁ needed₂) := by
  intro count
  refine (h.loop_some ho (hlater (count.map (· + 1)))).of_eq ?_ rfl
  rw [Matcher.map_verdict, Option.map_map]
  congr 2
  funext n
  exact Nat.add_right_comm n 1 k

theorem zeroOrMore (ht : t.repetition = .zeroOrMore) (h : Loops g t c k m needed) :
    Settles g (term t) c (some m) needed := Settles.zeroOrMore ht (h none)

/-- **Once or more succeeds where the iterations are counted**, and only there. -/
theorem oneOrMore (ht : t.repetition = .oneOrMore) (h : Loops g t c k m needed) :
    Settles g (term t) c (if Matcher.Counted k then some m else none) needed := by
  refine (Settles.oneOrMore ht (h (some 0))).of_eq ?_ rfl
  rw [Option.map_some, Nat.zero_add]
  rfl

theorem oneOrMore_of_counted (ht : t.repetition = .oneOrMore) (h : Loops g t c k m needed)
    (hk : Matcher.Counted k) : Settles g (term t) c (some m) needed :=
  (h.oneOrMore ht).of_eq (if_pos hk) rfl

theorem oneOrMore_of_not_counted (ht : t.repetition = .oneOrMore) (h : Loops g t c k m needed)
    (hk : ¬ Matcher.Counted k) : Settles g (term t) c none needed :=
  (h.oneOrMore ht).of_eq (if_neg hk) rfl

end Loops

end OrderedBnf
