import Mathlib.Algebra.Group.Nat.Defs
import Mathlib.Data.List.Basic
import Mathlib.Order.Basic
import OrderedBnf.Match.Body

/-!
# A match takes what is in front of it

A match begins at a cursor and stops at another, and between the two lies a
piece of the text: what was in front of the first is that piece and then
what is in front of the second, and the offsets differ by its bytes. Every
matcher of a grammar keeps to this (`advances_body`), whatever its rules
are. So a match that takes no bytes stops where it began, and one that takes
some leaves fewer characters in front. A repetition can therefore be
unfolded round by round with no bound on the rounds (`loop_of_some`); all it
has to keep is the number of those that lie behind, if it counts them.
-/

namespace OrderedBnf

/-! ## Bytes -/

@[simp] theorem byteLength_append (a b : List Char) :
    byteLength (a ++ b) = byteLength a + byteLength b := by
  induction a with
  | nil => simp [byteLength]
  | cons x a ih => simp [byteLength, ih, Nat.add_assoc]

/-- Every character takes a byte or more. -/
theorem byteLength_eq_zero_iff {a : List Char} : byteLength a = 0 ↔ a = [] := by
  cases a with
  | nil => simp [byteLength]
  | cons x a =>
    have := x.utf8Size_pos
    simp only [byteLength, reduceCtorEq, iff_false]
    omega

theorem takeBytes_byteLength (a rest : List Char) : takeBytes (byteLength a) (a ++ rest) = a := by
  induction a with
  | nil =>
    cases rest with
    | nil => rfl
    | cons x rest =>
      have := x.utf8Size_pos
      simp [byteLength, takeBytes, this]
  | cons x a ih =>
    have hlt : ¬ x.utf8Size + byteLength a < x.utf8Size := by omega
    simp [byteLength, takeBytes, hlt, ih]

/-! ## Cursors -/

namespace Cursor

/-- One cursor lies behind another in the same text. -/
def Reaches (c c' : Cursor) : Prop :=
  ∃ taken, c.rest = taken ++ c'.rest ∧ c'.offset = c.offset + byteLength taken

@[refl] theorem Reaches.refl (c : Cursor) : c.Reaches c := ⟨[], rfl, rfl⟩

theorem Reaches.trans {a b c : Cursor} (hab : a.Reaches b) (hbc : b.Reaches c) : a.Reaches c := by
  obtain ⟨t, ht, ho⟩ := hab
  obtain ⟨u, hu, ho'⟩ := hbc
  refine ⟨t ++ u, by rw [ht, hu, List.append_assoc], ?_⟩
  rw [byteLength_append]
  omega

/-- No bytes taken, nothing moved. -/
theorem Reaches.eq_of_offset_eq {c c' : Cursor} (h : c.Reaches c') (ho : c'.offset = c.offset) :
    c' = c := by
  obtain ⟨t, ht, hb⟩ := h
  have hnil : t = [] := byteLength_eq_zero_iff.1 (by omega)
  subst hnil
  cases c
  cases c'
  simp_all

/-- Bytes taken, fewer characters in front. -/
theorem Reaches.length_lt {c c' : Cursor} (h : c.Reaches c') (ho : c'.offset ≠ c.offset) :
    c'.rest.length < c.rest.length := by
  obtain ⟨t, ht, hb⟩ := h
  cases t with
  | nil => exact absurd hb (by simpa [byteLength] using ho)
  | cons x t => rw [ht]; simp only [List.cons_append, List.length_cons, List.length_append]; omega

/-- The text between two cursors is what `upTo` cuts out. -/
theorem upTo_of_rest {c c' : Cursor} {taken : List Char} (hr : c.rest = taken ++ c'.rest)
    (ho : c'.offset = c.offset + byteLength taken) : c.upTo c'.offset = taken := by
  rw [upTo, ho, Nat.add_sub_cancel_left, hr, takeBytes_byteLength]

/-- **What it is to stand behind a text that comes next.** -/
theorem advance?_eq_some_iff {c c' : Cursor} {text : List Char} :
    c.advance? text = some c' ↔
      c.rest = text ++ c'.rest ∧ c'.offset = c.offset + byteLength text := by
  simp only [advance?, Option.map_eq_some_iff, List.isPrefixOf?_eq_some_iff_append_eq]
  constructor
  · rintro ⟨r, hr, rfl⟩
    exact ⟨hr.symm, rfl⟩
  · rintro ⟨hr, ho⟩
    exact ⟨c'.rest, hr.symm, by rw [← ho]⟩

theorem advance?_eq_none_iff {c : Cursor} {text : List Char} :
    c.advance? text = none ↔ ¬ text <+: c.rest := by
  rw [Option.eq_none_iff_forall_ne_some]
  constructor
  · rintro h ⟨r, hr⟩
    exact h ⟨c.offset + byteLength text, r⟩ (advance?_eq_some_iff.2 ⟨hr.symm, rfl⟩)
  · intro h c' hc'
    exact h ⟨c'.rest, (advance?_eq_some_iff.1 hc').1.symm⟩

end Cursor

/-! ## Matchers -/

variable {σ α : Type}

namespace Matcher

/-- Every match of a matcher stops behind the cursor where it began. -/
def Advances (x : Matcher σ) : Prop :=
  ∀ c s m, (x c s).1 = some m → c.Reaches m.stop

theorem advances_literal (note : Observer σ) (text : List Char) (source : String) :
    Advances (literal note text source) := by
  intro c s m h
  unfold literal at h
  split at h
  · rename_i stop hstop
    obtain rfl : ⟨stop, []⟩ = m := Option.some.inj h
    exact ⟨text, Cursor.advance?_eq_some_iff.1 hstop⟩
  · cases h

variable {x : Matcher σ}

theorem advances_optional (hx : Advances x) : Advances (optional x) := by
  intro c s m h
  unfold optional at h
  split at h
  · rename_i m' s' hm
    obtain rfl : m' = m := Option.some.inj h
    exact hx c s m' (by rw [hm])
  · obtain rfl : ⟨c, []⟩ = m := Option.some.inj h
    exact .refl c

theorem reaches_rounds (hx : Advances x) (ahead : List Char) (c : Cursor) (s : σ) :
    c.Reaches (rounds x ahead c s).1.stop := by
  induction ahead generalizing c s with
  | nil =>
    unfold rounds
    split
    · exact .refl c
    · rename_i m s' hm
      split
      · exact .refl c
      · exact hx c s m (by rw [hm])
  | cons a ahead ih =>
    unfold rounds
    split
    · exact .refl c
    · rename_i m s' hm
      split
      · exact .refl c
      · exact (hx c s m (by rw [hm])).trans (ih m.stop s')

/-- A number of iterations of which a counter of 32 bits tells that there were some. -/
def Counted (n : Nat) : Prop := n % 2 ^ 32 ≠ 0

instance (n : Nat) : Decidable (Counted n) := inferInstanceAs (Decidable (n % 2 ^ 32 ≠ 0))

/-- Every iteration moves the counter on, -/
theorem ofNat_succ (n : Nat) : Int32.ofNat (n + 1) = Int32.ofNat n + 1 := Int32.ofNat_add n 1

/-- and it is at zero when it has been full any number of times. -/
theorem ofNat_eq_zero_iff {n : Nat} : Int32.ofNat n = 0 ↔ ¬ Counted n := by
  rw [Counted, not_ne_iff, ← Int32.toBitVec_inj, ← BitVec.toNat_inj]
  exact Iff.rfl

/-- A number that fits into the counter is told from zero. -/
theorem counted_of_lt {n : Nat} (hn : n ≠ 0) (hlt : n < 2 ^ 32) : Counted n := by
  rwa [Counted, Nat.mod_eq_of_lt hlt]

theorem not_counted_zero : ¬ Counted 0 := fun h => h rfl

/-- **A repetition with some iterations behind it**, that many if they are counted. -/
def loop (count : Option Nat) (x : Matcher σ) : Matcher σ := fun c s =>
  let (all, s) := rounds x c.rest c s
  (if count.map (Int32.ofNat · + all.count) = some 0 then none else some ⟨all.stop, all.nodes⟩, s)

/-- What a repetition comes to that ends with a match, behind so many iterations if they are
counted. -/
def verdict : Option Nat → Match → Option Match
  | none, m => some m
  | some n, m => if Counted n then some m else none

theorem map_verdict (f : Match → Match) (count : Option Nat) (m : Match) :
    (verdict count m).map f = verdict count (f m) := by
  cases count with
  | none => rfl
  | some n => exact apply_ite (Option.map f) ..

theorem verdict_of_counted {count : Option Nat} (h : ∀ k ∈ count, Counted k) (m : Match) :
    verdict count m = some m := by
  cases count with
  | none => rfl
  | some n => exact if_pos (h n rfl)

theorem verdict_of_not_counted {count : Option Nat} (h : ¬ ∀ k ∈ count, Counted k) (m : Match) :
    verdict count m = none := by
  cases count with
  | none => exact absurd nofun h
  | some n => exact if_neg fun hn => h fun k hk => Option.mem_some.1 hk ▸ hn

/-- Any number of times is a repetition that does not count, -/
theorem zeroOrMore_eq_loop (x : Matcher σ) : zeroOrMore x = loop none x := rfl

/-- and once or more is one that counts from the beginning. -/
theorem oneOrMore_eq_loop (x : Matcher σ) : oneOrMore x = loop (some 0) x := by
  funext c s
  simp only [oneOrMore, loop, Option.map_some, Option.some.injEq]
  rw [show Int32.ofNat 0 = 0 from rfl, Int32.zero_add]

theorem advances_loop (hx : Advances x) (count : Option Nat) : Advances (loop count x) := by
  intro c s m h
  simp only [loop] at h
  split at h
  · cases h
  · obtain rfl := Option.some.inj h
    exact reaches_rounds hx c.rest c s

theorem advances_times (hx : Advances x) : ∀ r, Advances (times r x)
  | .once => hx
  | .optional => advances_optional hx
  | .zeroOrMore => advances_loop hx none
  | .oneOrMore => by
    rw [times, oneOrMore_eq_loop]
    exact advances_loop hx (some 0)

variable {f : α → Matcher σ}

theorem advances_sequence (hf : ∀ a, Advances (f a)) : ∀ as, Advances (sequence f as) := by
  intro as
  induction as with
  | nil =>
    intro c s m h
    obtain rfl := Option.some.inj h
    exact .refl c
  | cons a as ih =>
    intro c s m h
    simp only [sequence] at h
    split at h
    · cases h
    · rename_i first s₁ h₁
      split at h
      · cases h
      · rename_i later s₂ h₂
        obtain rfl := Option.some.inj h
        exact (hf a c s first (by rw [h₁])).trans (ih first.stop s₁ later (by rw [h₂]))

theorem advances_firstOf (hf : ∀ a, Advances (f a)) : ∀ as, Advances (firstOf f as) := by
  intro as
  induction as with
  | nil => intro c s m h; cases h
  | cons a as ih =>
    intro c s m h
    simp only [firstOf] at h
    split at h
    · rename_i m' s' hm
      obtain rfl := Option.some.inj h
      exact hf a c s m' (by rw [hm])
    · exact ih c _ m h

/-! ## Repetition, round by round -/

section Rounds

variable {ahead : List Char} {c : Cursor} {s s' : σ} {m : Match}

theorem rounds_of_none (h : x c s = (none, s')) : rounds x ahead c s = (⟨0, c, []⟩, s') := by
  rw [rounds, h]

theorem rounds_of_empty (h : x c s = (some m, s')) (ho : m.stop.offset = c.offset) :
    rounds x ahead c s = (⟨1, c, m.nodes⟩, s') := by
  rw [rounds, h]
  simp only [if_pos ho]

theorem rounds_of_some {a : Char} (h : x c s = (some m, s')) (ho : m.stop.offset ≠ c.offset) :
    rounds x (a :: ahead) c s =
      (⟨(rounds x ahead m.stop s').1.count + 1, (rounds x ahead m.stop s').1.stop,
        m.nodes ++ (rounds x ahead m.stop s').1.nodes⟩, (rounds x ahead m.stop s').2) := by
  rw [rounds, h]
  simp only [if_neg ho]

/-- Room for more rounds than there are characters changes nothing. -/
theorem rounds_congr_ahead (hx : Advances x) {a b : List Char} (ha : c.rest.length ≤ a.length)
    (hb : c.rest.length ≤ b.length) : rounds x a c s = rounds x b c s := by
  -- an iteration that is followed by another leaves less in front, and so does the room
  induction a generalizing b c s with
  | nil =>
    rcases h : x c s with ⟨_ | m, s'⟩
    · rw [rounds_of_none h, rounds_of_none h]
    · have ho : m.stop.offset = c.offset := by
        by_contra ho
        have := (hx c s m (by rw [h])).length_lt ho
        simp only [List.length_nil] at ha
        omega
      rw [rounds_of_empty h ho, rounds_of_empty h ho]
  | cons y a ih =>
    rcases h : x c s with ⟨_ | m, s'⟩
    · rw [rounds_of_none h, rounds_of_none h]
    · by_cases ho : m.stop.offset = c.offset
      · rw [rounds_of_empty h ho, rounds_of_empty h ho]
      · have hlt := (hx c s m (by rw [h])).length_lt ho
        simp only [List.length_cons] at ha
        cases b with
        | nil => simp only [List.length_nil] at hb; omega
        | cons z b =>
          simp only [List.length_cons] at hb
          rw [rounds_of_some h ho, rounds_of_some h ho, ih (b := b) (by omega) (by omega)]

variable {count : Option Nat}

/-- A repetition that finds nothing more takes nothing more. -/
theorem loop_of_none (h : x c s = (none, s')) :
    loop count x c s = (verdict count ⟨c, []⟩, s') := by
  simp only [loop, rounds_of_none h]
  cases count with
  | none => rfl
  | some n =>
    simp only [Option.map_some, Option.some.injEq, Int32.add_zero, ofNat_eq_zero_iff, ite_not,
      verdict]

/-- An iteration that takes nothing is the last, and is kept. -/
theorem loop_of_empty (hx : Advances x) (h : x c s = (some m, s'))
    (ho : m.stop.offset = c.offset) : loop count x c s = (verdict (count.map (· + 1)) m, s') := by
  have hstop : m.stop = c := (hx c s m (by rw [h])).eq_of_offset_eq ho
  have hm : (⟨c, m.nodes⟩ : Match) = m := by rw [← hstop]
  simp only [loop, rounds_of_empty h ho, hm]
  cases count with
  | none => rfl
  | some n =>
    simp only [Option.map_some, Option.some.injEq, verdict, ← ofNat_succ, ofNat_eq_zero_iff,
      ite_not]

/-- **An iteration that takes something is followed by the repetition.** -/
theorem loop_of_some (hx : Advances x) (h : x c s = (some m, s'))
    (ho : m.stop.offset ≠ c.offset) :
    loop count x c s =
      ((loop (count.map (· + 1)) x m.stop s').1.map fun later =>
          ⟨later.stop, m.nodes ++ later.nodes⟩,
        (loop (count.map (· + 1)) x m.stop s').2) := by
  have hlt := (hx c s m (by rw [h])).length_lt ho
  rcases hc : c.rest with _ | ⟨a, rest⟩
  · simp [hc] at hlt
  · simp only [hc, List.length_cons] at hlt
    simp only [loop, hc, rounds_of_some h ho, Option.map_map]
    rw [rounds_congr_ahead hx (a := rest) (b := m.stop.rest) (by omega) (Nat.le_refl _)]
    -- the one iteration is counted in front or behind
    have hcount : ∀ k : Int32, ((Int32.ofNat · + k) ∘ (· + 1)) = (Int32.ofNat · + (k + 1)) := by
      intro k
      funext n
      rw [Function.comp_apply, ofNat_succ, Int32.add_assoc, Int32.add_comm k]
    rw [hcount]
    split <;> rfl

end Rounds

end Matcher

/-! ## Grammars -/

namespace Grammar

variable {note : Observer σ} {g : Grammar} {body : Definition → Matcher σ}

theorem stop_wrap (d : Definition) (c : Cursor) (m : Match) : (m.wrap d c).stop = m.stop := by
  unfold Match.wrap
  split <;> rfl

theorem advances_reference (hb : ∀ d, Matcher.Advances (body d)) (name : String) :
    Matcher.Advances (g.reference note body name) := by
  intro c s m h
  unfold reference at h
  split at h
  · cases h
  · rename_i d hd
    split at h
    · cases h
    · rename_i m' s' hm
      obtain rfl := Option.some.inj h
      rw [stop_wrap]
      exact hb d c s m' (by rw [hm])

theorem advances_symbol (hb : ∀ d, Matcher.Advances (body d)) (t : Term) :
    Matcher.Advances (g.symbol note body t) := by
  unfold symbol
  split
  · exact Matcher.advances_literal note _ _
  · exact advances_reference hb _

theorem advances_term (hb : ∀ d, Matcher.Advances (body d)) (t : Term) :
    Matcher.Advances (g.term note body t) :=
  Matcher.advances_times (advances_symbol hb t) t.repetition

theorem advances_alternatives (hb : ∀ d, Matcher.Advances (body d)) (d : Definition) :
    Matcher.Advances (g.alternatives note body d) :=
  Matcher.advances_firstOf (Matcher.advances_sequence (advances_term hb)) d.alternatives

/-- **Every match of a definition advances**, with any number of levels. -/
theorem advances_body (note : Observer σ) (g : Grammar) (levels : Nat) (d : Definition) :
    Matcher.Advances (g.body note levels d) := by
  induction levels generalizing d with
  | zero => intro c s m h; cases h
  | succ n ih =>
    intro c s m h
    exact advances_alternatives ih d c _ m h

end Grammar

end OrderedBnf
