import OrderedBnf.Proofs.Guarded.Position
import OrderedBnf.Proofs.Match.Repetition
import OrderedBnf.Proofs.Parse.Tree

/-!
# Matching, with guards

The matcher on a text and its offsets, where a cursor carries what is in front of
it. Every part is only ever attempted at a boundary, the text in front and the
texts of nodes are slices, a name leads to the index of a definition and an index
to the definition, an offset stays within the text, and the depth within its
bounds. Recursion and repetition are given as many steps as they may take, and
have no result if these do not suffice. One addition has no guard, that of the
counter of a repetition: it is defined when the counter is full as well, and goes
on from zero. So the number of the iterations is kept here, and the counter is
its residue.

A guarded attempt agrees with a matcher (`Agrees`) when it has its result, at
every cursor of the text; the furthest failure stays a boundary on the way.
-/

namespace OrderedBnf

namespace Guarded

/-! ## Attempts -/

/-- What changes in a run: how many rules are under way, and what is remembered. -/
structure State where
  depth : Nat
  progress : Progress
deriving DecidableEq, Repr, Inhabited

/-- What is found at an offset, if anything is: where it stops and its nodes. -/
abbrev Found := Option (Nat × List Node)

/-- An attempt to match at an offset of a text. That nothing is found is a result
like any other; there is none only where an operation is not defined. -/
abbrev Attempt := Nat → State → Option (Found × State)

/-- The result of a matcher, with offsets for its cursors. -/
def found (m : Option Match) : Found := m.map fun m => (m.stop.offset, m.nodes)

/-- **The index of the definition in force** for a name. -/
def lastIndex? (name : String) : Grammar → Option Nat
  | [] => none
  | d :: rest => ((lastIndex? name rest).map (· + 1)).or (if d.name == name then some 0 else none)

section Definitions

variable (text : String) (g : Grammar)

/-- An attempt that is only made at boundaries. -/
def atBoundary (x : Attempt) : Attempt := fun pos s => if IsBoundary text pos then x pos s else none

/-- A literal is looked for in the text from an offset on. -/
def literal (chars : List Char) (source : String) : Attempt := fun pos s => do
  let rest ← slice? text pos text.utf8ByteSize
  if chars.isPrefixOf rest.toList then
    let stop ← plus text.utf8ByteSize pos (byteLength chars)
    return (some (stop, []), s)
  else return (none, { s with progress := s.progress.miss pos source })

/-- A definition, given by its index, with the node of it. -/
def rule (body : Nat → Attempt) (index : Nat) : Attempt := atBoundary text fun pos s => do
  match ← body index pos s with
  | (none, s) => return (none, s)
  | (some (stop, nodes), s) =>
    let d ← g[index]?
    if d.isFragment then return (some (stop, nodes), s)
    else
      let taken ← slice? text pos stop
      return (some (stop, [⟨d.name, taken, pos, stop, nodes, []⟩]), s)

/-- What a name refers to. -/
def reference (body : Nat → Attempt) (name : String) : Attempt := fun pos s =>
  match lastIndex? name g with
  | none => some (none, s)
  | some index => rule text g body index pos s

/-- The symbol of a term, once. -/
def symbolOf (body : Nat → Attempt) (t : Term) : Attempt :=
  atBoundary text <|
    match t.symbol with
    | .literal chars => literal text chars t.source
    | .reference name => reference text g body name

/-- The iterations of a repetition, with their number. -/
def rounds (x : Attempt) : Nat → Nat → State → Option ((Nat × Nat × List Node) × State)
  | 0, _, _ => none
  | steps + 1, pos, s => do
    match ← x pos s with
    | (none, s) => return ((0, pos, []), s)
    | (some (stop, nodes), s) =>
      if stop = pos then return ((1, pos, nodes), s)
      else
        let ((count, last, later), s) ← rounds x steps stop s
        return ((count + 1, last, nodes ++ later), s)

/-- As often as a repetition says. No repetition has more iterations than the
text has bytes, and one; whether there are any is for the counter to say. -/
def times (x : Attempt) : Repetition → Attempt
  | .once => x
  | .optional => fun pos s => do
    let (m, s) ← x pos s
    return (some (m.getD (pos, [])), s)
  | .zeroOrMore => fun pos s => do
    let ((_, stop, nodes), s) ← rounds x (text.utf8ByteSize + 1) pos s
    return (some (stop, nodes), s)
  | .oneOrMore => fun pos s => do
    let ((count, stop, nodes), s) ← rounds x (text.utf8ByteSize + 1) pos s
    return (if Int32.ofNat count = 0 then none else some (stop, nodes), s)

/-- One thing after another. -/
def sequence {α : Type} (f : α → Attempt) : List α → Attempt
  | [], pos, s => some (some (pos, []), s)
  | a :: as, pos, s => do
    match ← f a pos s with
    | (none, s) => return (none, s)
    | (some (stop, nodes), s) =>
      match ← sequence f as stop s with
      | (none, s) => return (none, s)
      | (some (last, later), s) => return (some (last, nodes ++ later), s)

/-- The first that matches. -/
def firstOf {α : Type} (f : α → Attempt) : List α → Attempt
  | [], _, s => some (none, s)
  | a :: as, pos, s => do
    match ← f a pos s with
    | (some m, s) => return (some m, s)
    | (none, s) => firstOf f as pos s

/-- A term as often as it asks for. -/
def termOf (body : Nat → Attempt) (t : Term) : Attempt :=
  atBoundary text (times text (symbolOf text g body t) t.repetition)

/-- The alternatives of a definition. -/
def alternatives (body : Nat → Attempt) (d : Definition) : Attempt :=
  firstOf (fun terms => atBoundary text (sequence (termOf text g body) terms)) d.alternatives

/-- **The body of the definition with an index**, with up to `limit` rules under
way. There are `steps` for the bodies inside each other. -/
def body (limit : Nat) : Nat → Nat → Attempt
  | 0, _ => fun _ _ => none
  | steps + 1, index => atBoundary text fun pos s => do
    if limit ≤ s.depth then
      return (none, { s with progress := { s.progress with tooDeep := true } })
    else
      let depth ← plus limit s.depth 1
      let d ← g[index]?
      let (m, s) ← alternatives text g (body limit steps) d pos { s with depth := depth }
      let depth ← minus s.depth 1
      return (m, { s with depth := depth })

end Definitions

/-! ## Agreement -/

variable {text : String} {g : Grammar} {depth : Nat} {α : Type}
variable {x : Attempt} {y : Matcher Progress}

/-- **An attempt with the results of a matcher**, when `depth` rules are under way. -/
def Agrees (text : String) (depth : Nat) (x : Attempt) (y : Matcher Progress) : Prop :=
  ∀ c p, (Cursor.start text.toList).Reaches c → IsBoundary text p.furthest →
    x c.offset ⟨depth, p⟩ = some (found (y c p).1, ⟨depth, (y c p).2⟩) ∧
      IsBoundary text (y c p).2.furthest

theorem Agrees.atBoundary (h : Agrees text depth x y) :
    Agrees text depth (atBoundary text x) y := by
  intro c p hc hp
  rw [Guarded.atBoundary, if_pos (isBoundary_of_reaches hc)]
  exact h c p hc hp

/-- A miss at a boundary keeps the furthest failure at one. -/
theorem isBoundary_miss {p : Progress} {pos : Nat} (hpos : IsBoundary text pos)
    (hp : IsBoundary text p.furthest) (source : String) :
    IsBoundary text (p.miss pos source).furthest := by
  unfold Progress.miss
  split
  · exact hpos
  · split <;> exact hp

theorem agrees_literal (text : String) (depth : Nat) (chars : List Char) (source : String) :
    Agrees text depth (literal text chars source)
      (Matcher.literal Progress.note chars source) := by
  intro c p hc hp
  have hlength := utf8ByteSize_of_reaches hc
  have hrest : slice? text c.offset text.utf8ByteSize = some (String.ofList c.rest) :=
    slice?_of_reaches (s := ⟨text.utf8ByteSize, []⟩) hc (List.append_nil _).symm hlength
  rw [literal, hrest, Option.bind_eq_bind, Option.bind_some, String.toList_ofList,
    Matcher.literal]
  cases hstop : c.advance? chars with
  | some stop =>
    obtain ⟨hr, ho⟩ := Cursor.advance?_eq_some_iff.1 hstop
    have hprefix : chars.isPrefixOf c.rest = true :=
      List.isPrefixOf_iff_prefix.2 ⟨stop.rest, hr.symm⟩
    have hplus : plus text.utf8ByteSize c.offset (byteLength chars) =
        some (c.offset + byteLength chars) := by
      refine plus_of_le ?_
      rw [hlength, hr, byteLength_append]
      omega
    rw [if_pos hprefix, hplus]
    exact ⟨by rw [← ho]; rfl, hp⟩
  | none =>
    have hprefix : ¬ chars.isPrefixOf c.rest = true := fun h =>
      Cursor.advance?_eq_none_iff.1 hstop (List.isPrefixOf_iff_prefix.1 h)
    rw [if_neg hprefix]
    exact ⟨rfl, isBoundary_miss (isBoundary_of_reaches hc) hp source⟩

/-! ## Sequence and choice -/

theorem agrees_firstOf {f : α → Attempt} {f' : α → Matcher Progress}
    (hf : ∀ a, Agrees text depth (f a) (f' a)) (as : List α) :
    Agrees text depth (firstOf f as) (Matcher.firstOf f' as) := by
  induction as with
  | nil => exact fun c p _ hp => ⟨rfl, hp⟩
  | cons a as ih =>
    intro c p hc hp
    obtain ⟨ha, hp'⟩ := hf a c p hc hp
    rw [firstOf, Matcher.firstOf, ha]
    rcases hm : f' a c p with ⟨_ | m, p'⟩
    · rw [hm] at hp'
      exact ih c p' hc hp'
    · rw [hm] at hp'
      exact ⟨rfl, hp'⟩

theorem agrees_sequence {f : α → Attempt} {f' : α → Matcher Progress}
    (hf : ∀ a, Agrees text depth (f a) (f' a)) (hmoves : ∀ a, Matcher.Advances (f' a))
    (as : List α) : Agrees text depth (sequence f as) (Matcher.sequence f' as) := by
  induction as with
  | nil => exact fun c p _ hp => ⟨rfl, hp⟩
  | cons a as ih =>
    intro c p hc hp
    obtain ⟨ha, hp'⟩ := hf a c p hc hp
    rw [sequence, Matcher.sequence, ha]
    rcases hm : f' a c p with ⟨_ | m, p'⟩
    · rw [hm] at hp'
      exact ⟨rfl, hp'⟩
    · rw [hm] at hp'
      have hstop := hc.trans (hmoves a c p m (by rw [hm]))
      obtain ⟨hlater, hp''⟩ := ih m.stop p' hstop hp'
      simp only [found, Option.map_some, Option.bind_eq_bind, Option.bind_some, hlater]
      rcases hm' : Matcher.sequence f' as m.stop p' with ⟨_ | later, p''⟩
      · rw [hm'] at hp''
        exact ⟨rfl, hp''⟩
      · rw [hm'] at hp''
        exact ⟨rfl, hp''⟩

/-! ## Repetition -/

/-- Every character takes a byte, so that there are steps for all iterations. -/
theorem length_le_byteLength (chars : List Char) : chars.length ≤ byteLength chars := by
  induction chars with
  | nil => exact Nat.le_refl _
  | cons a chars ih =>
    have := a.utf8Size_pos
    rw [List.length_cons, byteLength]
    omega

theorem rounds_eq (hx : Agrees text depth x y) (hy : Matcher.Advances y) {c : Cursor}
    {p q : Progress} {iterations : List Match} (h : Matcher.Repeats y c p iterations q)
    {steps : Nat} (hc : (Cursor.start text.toList).Reaches c) (hp : IsBoundary text p.furthest)
    (hsteps : c.rest.length < steps) :
    rounds x steps c.offset ⟨depth, p⟩ =
      some ((iterations.length, (Matcher.stopOf c iterations).offset,
        iterations.flatMap (·.nodes)), ⟨depth, q⟩) ∧ IsBoundary text q.furthest := by
  -- an iteration that is followed by another leaves less in front
  induction h generalizing steps with
  | @fail c p q hround =>
    obtain ⟨steps, rfl⟩ : ∃ k, steps = k + 1 := ⟨steps - 1, by omega⟩
    obtain ⟨hagrees, hq⟩ := hx c p hc hp
    rw [hround] at hagrees hq
    rw [rounds, hagrees]
    exact ⟨rfl, hq⟩
  | @empty c p q m hround hstop =>
    obtain ⟨steps, rfl⟩ : ∃ k, steps = k + 1 := ⟨steps - 1, by omega⟩
    obtain ⟨hagrees, hq⟩ := hx c p hc hp
    rw [hround] at hagrees hq
    rw [rounds, hagrees]
    simp only [found, Option.map_some, Option.bind_eq_bind, Option.bind_some]
    rw [if_pos (by rw [hstop]), List.flatMap_singleton, Matcher.stopOf, Matcher.stopOf, hstop]
    exact ⟨rfl, hq⟩
  | @more c p p' q m later hround hstop _ ih =>
    obtain ⟨steps, rfl⟩ : ∃ k, steps = k + 1 := ⟨steps - 1, by omega⟩
    obtain ⟨hagrees, hp'⟩ := hx c p hc hp
    rw [hround] at hagrees hp'
    have hmoves : c.Reaches m.stop := hy c p m (by rw [hround])
    have hmoved : m.stop.offset ≠ c.offset := fun ho => hstop (hmoves.eq_of_offset_eq ho)
    have hlt := hmoves.length_lt hmoved
    have hroom : m.stop.rest.length < steps := by omega
    obtain ⟨hlater, hq⟩ := ih (hc.trans hmoves) hp' hroom
    rw [rounds, hagrees]
    simp only [found, Option.map_some, Option.bind_eq_bind, Option.bind_some]
    rw [if_neg hmoved, hlater]
    exact ⟨rfl, hq⟩

theorem agrees_times (hx : Agrees text depth x y) (hy : Matcher.Advances y) (r : Repetition) :
    Agrees text depth (times text x r) (Matcher.times r y) := by
  intro c p hc hp
  have hsteps : c.rest.length < text.utf8ByteSize + 1 := by
    have := length_le_byteLength c.rest
    have := utf8ByteSize_of_reaches hc
    omega
  obtain ⟨iterations, q, hrepeats⟩ := Matcher.Repeats.exists_repeats hy c p
  obtain ⟨hrounds, hq⟩ := rounds_eq hx hy hrepeats hc hp hsteps
  cases r with
  | once => exact hx c p hc hp
  | optional =>
    obtain ⟨hround, hp'⟩ := hx c p hc hp
    simp only [times, Matcher.times, Matcher.optional, hround, Option.bind_eq_bind,
      Option.bind_some]
    rcases hm : y c p with ⟨_ | m, p'⟩
    · rw [hm] at hp'
      exact ⟨rfl, hp'⟩
    · rw [hm] at hp'
      exact ⟨rfl, hp'⟩
  | zeroOrMore =>
    rw [Matcher.times, hrepeats.zeroOrMore_eq hy]
    simp only [times, hrounds, Option.bind_eq_bind, Option.bind_some]
    exact ⟨rfl, hq⟩
  | oneOrMore =>
    rw [Matcher.times, hrepeats.oneOrMore_eq hy]
    simp only [times, hrounds, Option.bind_eq_bind, Option.bind_some,
      Matcher.ofNat_eq_zero_iff, ite_not]
    refine ⟨?_, hq⟩
    split <;> rfl

/-! ## Rules -/

/-- A name without a definition has no index, -/
theorem lastIndex?_eq_none {name : String} (h : g.find? name = none) :
    lastIndex? name g = none := by
  induction g with
  | nil => rfl
  | cons e g ih =>
    rw [Grammar.find?, Option.or_eq_none_iff] at h
    obtain ⟨hrest, hfirst⟩ := h
    rw [lastIndex?, ih hrest]
    split at hfirst
    · cases hfirst
    · rename_i hname
      simp [hname]

/-- and any other that of the definition in force. -/
theorem exists_lastIndex?_eq_some {name : String} {d : Definition} (h : g.find? name = some d) :
    ∃ index, lastIndex? name g = some index ∧ g[index]? = some d := by
  induction g with
  | nil => cases h
  | cons e g ih =>
    rw [Grammar.find?] at h
    rcases Option.or_eq_some_iff.1 h with hrest | ⟨hrest, hfirst⟩
    · obtain ⟨index, hindex, hd⟩ := ih hrest
      exact ⟨index + 1, by simp [lastIndex?, hindex], by simpa using hd⟩
    · split at hfirst
      · rename_i hname
        exact ⟨0, by simp [lastIndex?, lastIndex?_eq_none hrest, hname], hfirst⟩
      · cases hfirst

section Bodies

variable {attempt : Nat → Attempt} {matcher : Definition → Matcher Progress}

theorem agrees_rule {index : Nat} {d : Definition} (hd : g[index]? = some d)
    (hbody : Agrees text depth (attempt index) (matcher d))
    (hmoves : Matcher.Advances (matcher d)) :
    Agrees text depth (rule text g attempt index)
      (fun c p => ((matcher d c p).1.map fun m => m.wrap d c, (matcher d c p).2)) := by
  refine .atBoundary fun c p hc hp => ?_
  obtain ⟨hfound, hp'⟩ := hbody c p hc hp
  rw [hfound]
  refine ⟨?_, hp'⟩
  rcases hm : matcher d c p with ⟨_ | m, p'⟩
  · rfl
  · obtain ⟨taken, hr, ho⟩ := hmoves c p m (by rw [hm])
    simp only [found, Option.map_some, Option.bind_eq_bind, Option.bind_some, hd]
    cases hfragment : d.isFragment with
    | true => rw [if_pos rfl, Goal.wrap_of_fragment hfragment]; rfl
    | false =>
      rw [if_neg (by decide), Goal.wrap_of_not_fragment hfragment hr ho,
        slice?_of_reaches hc hr ho]
      rfl

theorem agrees_reference
    (hbody : ∀ index d, g[index]? = some d → Agrees text depth (attempt index) (matcher d))
    (hmoves : ∀ d, Matcher.Advances (matcher d)) (name : String) :
    Agrees text depth (reference text g attempt name)
      (g.reference Progress.note matcher name) := by
  intro c p hc hp
  rw [reference, Grammar.reference]
  cases hd : g.find? name with
  | none =>
    rw [lastIndex?_eq_none hd]
    exact ⟨rfl, hp⟩
  | some d =>
    obtain ⟨index, hindex, hd⟩ := exists_lastIndex?_eq_some hd
    rw [hindex]
    obtain ⟨hrule, hp'⟩ := agrees_rule hd (hbody index d hd) (hmoves d) c p hc hp
    dsimp only at hrule hp' ⊢
    rw [hrule]
    rcases hm : matcher d c p with ⟨_ | m, p'⟩
    · rw [hm] at hp'
      exact ⟨rfl, hp'⟩
    · rw [hm] at hp'
      exact ⟨rfl, hp'⟩

variable (hbody : ∀ index d, g[index]? = some d → Agrees text depth (attempt index) (matcher d))
variable (hmoves : ∀ d, Matcher.Advances (matcher d))
include hbody hmoves

theorem agrees_symbolOf (t : Term) :
    Agrees text depth (symbolOf text g attempt t) (g.symbol Progress.note matcher t) := by
  refine .atBoundary ?_
  obtain ⟨symbol, repetition, source⟩ := t
  cases symbol with
  | literal chars => exact agrees_literal text depth chars source
  | reference name => exact agrees_reference hbody hmoves name

theorem agrees_termOf (t : Term) :
    Agrees text depth (termOf text g attempt t) (g.term Progress.note matcher t) :=
  .atBoundary (agrees_times (agrees_symbolOf hbody hmoves t) (Grammar.advances_symbol hmoves t) _)

theorem agrees_alternatives (d : Definition) :
    Agrees text depth (alternatives text g attempt d)
      (g.alternatives Progress.note matcher d) :=
  agrees_firstOf (fun terms => .atBoundary (agrees_sequence (agrees_termOf hbody hmoves)
    (Grammar.advances_term hmoves) terms)) d.alternatives

end Bodies

/-- **The body of a definition has its result**, when the depth and the levels
that are left make up the limit. -/
theorem agrees_body {limit levels steps index : Nat} {d : Definition}
    (hdepth : depth + levels = limit) (hsteps : levels < steps) (hd : g[index]? = some d) :
    Agrees text depth (body text g limit steps index) (g.body Progress.note levels d) := by
  induction levels generalizing depth steps index d with
  | zero =>
    obtain ⟨steps, rfl⟩ : ∃ k, steps = k + 1 := ⟨steps - 1, by omega⟩
    refine .atBoundary fun c p hc hp => ?_
    dsimp only
    rw [if_pos (by omega)]
    exact ⟨rfl, hp⟩
  | succ levels ih =>
    obtain ⟨steps, rfl⟩ : ∃ k, steps = k + 1 := ⟨steps - 1, by omega⟩
    refine .atBoundary fun c p hc hp => ?_
    -- the bodies inside this one have a level less, and are one deeper
    have hinner : Agrees text (depth + 1) (alternatives text g (body text g limit steps) d)
        (g.alternatives Progress.note (g.body Progress.note levels) d) :=
      agrees_alternatives (fun index d hd => ih (by omega) (by omega) hd)
        (Grammar.advances_body Progress.note g levels) d
    obtain ⟨hfound, hp'⟩ := hinner c p hc hp
    dsimp only
    rw [if_neg (by omega), plus_of_le (by omega)]
    simp only [Option.bind_eq_bind, Option.bind_some, hd, hfound, minus_add]
    exact ⟨rfl, hp'⟩

end Guarded

end OrderedBnf
