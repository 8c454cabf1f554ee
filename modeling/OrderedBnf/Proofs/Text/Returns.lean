import Mathlib.Data.List.Induction
import OrderedBnf.Parse.Problem
import OrderedBnf.Proofs.Guarded.Position
import OrderedBnf.Text.Line

/-!
# Carriage returns

A line feed may be written with a carriage return before it. `withReturns` writes all
line feeds of a text in this way. The offsets behind them are larger then, but a reader
of lines and columns sees no difference: a place of the text (`SamePlace`) has the same
position in both forms, with the same characters behind it on its line, and of two places
the same one comes first.
-/

namespace OrderedBnf

/-- **A text with a carriage return before each line feed.** -/
def withReturns (text : List Char) : List Char :=
  text.flatMap fun a => if a = '\n' then ['\r', '\n'] else [a]

variable {text before after line rest : List Char} {a : Char}

@[simp] theorem withReturns_nil : withReturns [] = [] := rfl

@[simp] theorem withReturns_append (text later : List Char) :
    withReturns (text ++ later) = withReturns text ++ withReturns later :=
  List.flatMap_append

@[simp] theorem withReturns_lineFeed (text : List Char) :
    withReturns ('\n' :: text) = '\r' :: '\n' :: withReturns text := rfl

theorem withReturns_cons (ha : a ≠ '\n') (text : List Char) :
    withReturns (a :: text) = a :: withReturns text := by
  simp [withReturns, ha]

theorem withReturns_of_not_mem (h : '\n' ∉ text) : withReturns text = text := by
  induction text with
  | nil => rfl
  | cons a text ih =>
    rw [List.mem_cons, not_or] at h
    rw [withReturns_cons (Ne.symm h.1), ih h.2]

theorem lineFeed_mem_withReturns : '\n' ∈ withReturns text ↔ '\n' ∈ text := by
  induction text with
  | nil => rfl
  | cons a text ih =>
    by_cases ha : a = '\n'
    · simp [ha]
    · simp [withReturns_cons ha, ih]

theorem withReturns_eq_nil_iff : withReturns text = [] ↔ text = [] := by
  cases text with
  | nil => simp
  | cons a text =>
    by_cases ha : a = '\n'
    · simp [ha]
    · simp [withReturns_cons ha]

/-! ## Places -/

/-- **A place in a text**, given by its offset in the text and that in the form with
returns. -/
def SamePlace (text : List Char) (offset offset' : Nat) : Prop :=
  ∃ before after, text = before ++ after ∧ offset = byteLength before ∧
    offset' = byteLength (withReturns before)

namespace SamePlace

variable {i i' j j' : Nat}

theorem start (text : List Char) : SamePlace text 0 0 := ⟨[], text, rfl, rfl, rfl⟩

/-- **A place that comes before another does so in both forms.** -/
theorem lt_iff (hi : SamePlace text i i') (hj : SamePlace text j j') : i < j ↔ i' < j' := by
  obtain ⟨before, after, rfl, rfl, rfl⟩ := hi
  obtain ⟨before', after', htext, rfl, rfl⟩ := hj
  rcases List.append_eq_append_iff.1 htext with ⟨between, rfl, -⟩ | ⟨between, rfl, -⟩
  · -- what lies between has bytes in one form if it has any in the other
    have hnil : byteLength between = 0 ↔ byteLength (withReturns between) = 0 := by
      rw [byteLength_eq_zero_iff, byteLength_eq_zero_iff, withReturns_eq_nil_iff]
    rw [withReturns_append, byteLength_append, byteLength_append]
    omega
  · rw [withReturns_append, byteLength_append, byteLength_append]
    omega

theorem le_iff (hi : SamePlace text i i') (hj : SamePlace text j j') : i ≤ j ↔ i' ≤ j' := by
  rw [← Nat.not_lt, ← Nat.not_lt, hj.lt_iff hi]

theorem eq_iff (hi : SamePlace text i i') (hj : SamePlace text j j') : i = j ↔ i' = j' := by
  rw [Nat.le_antisymm_iff, Nat.le_antisymm_iff, hi.le_iff hj, hj.le_iff hi]

/-- The later one of two places. -/
theorem max (hi : SamePlace text i i') (hj : SamePlace text j j') :
    SamePlace text (max i j) (max i' j') := by
  rcases Nat.le_total i j with hle | hle
  · rwa [Nat.max_eq_right hle, Nat.max_eq_right ((hi.le_iff hj).1 hle)]
  · rwa [Nat.max_eq_left hle, Nat.max_eq_left ((hj.le_iff hi).1 hle)]

end SamePlace

/-! ## What stands at a place -/

/-- A line feed ends a line, with or without a return before it. -/
theorem Position.foldl_withReturns (p : Position) (text : List Char) :
    (withReturns text).foldl next p = text.foldl next p := by
  induction text generalizing p with
  | nil => rfl
  | cons a text ih =>
    by_cases ha : a = '\n'
    · subst ha
      exact ih _
    · rw [withReturns_cons ha]
      exact ih _

/-- **A place has the same position in both forms.** -/
theorem Position.advance_withReturns (p : Position) (before after : List Char) :
    p.advance (withReturns (before ++ after)) (byteLength (withReturns before)) =
      p.advance (before ++ after) (byteLength before) := by
  rw [advance_eq, advance_eq, withReturns_append, takeBytes_byteLength, takeBytes_byteLength,
    foldl_withReturns]

/-- What is quoted of a text ends before the end of its line. -/
theorem Problem.excerpt_withReturns (rest : List Char) :
    excerpt (withReturns rest) = excerpt rest := by
  have hline : (withReturns rest).takeWhile (fun a => a != '\n' && a != '\r') =
      rest.takeWhile fun a => a != '\n' && a != '\r' := by
    induction rest with
    | nil => rfl
    | cons a rest ih =>
      by_cases ha : a = '\n'
      · subst ha
        rfl
      · rw [withReturns_cons ha, List.takeWhile_cons, List.takeWhile_cons, ih]
  rw [excerpt, excerpt, hline]

/-! ## The first line -/

theorem firstLine_of_not_mem (h : '\n' ∉ text) : firstLine text = text := by
  have hplain : ∀ a ∈ text, (a != '\n') = true := by
    intro a ha
    rw [bne_iff_ne]
    rintro rfl
    exact h ha
  have htake : text.takeWhile (· != '\n') = text := by
    have happend : (text ++ []).takeWhile (· != '\n') = text ++ [] :=
      List.takeWhile_append_of_pos hplain
    rwa [List.append_nil] at happend
  simp [firstLine, htake, h]

theorem lineFeed_not_mem_firstLine (text : List Char) : '\n' ∉ firstLine text := by
  have hline : '\n' ∉ text.takeWhile (· != '\n') := fun hmem => by
    simpa using List.all_eq_true.1 List.all_takeWhile _ hmem
  rw [firstLine]
  split
  · exact fun hmem => hline ((List.dropLast_sublist _).subset hmem)
  · exact hline

theorem firstLine_append (h : '\n' ∉ line) (rest : List Char) :
    firstLine (line ++ '\n' :: rest) =
      if line.getLast? = some '\r' then line.dropLast else line := by
  have hplain : ∀ a ∈ line, (a != '\n') = true := by
    rintro a ha
    rw [bne_iff_ne]
    rintro rfl
    exact h ha
  have htake : (line ++ '\n' :: rest).takeWhile (· != '\n') = line := by
    rw [List.takeWhile_append_of_pos hplain]
    simp
  simp [firstLine, htake]

/-- **The first line of a text is without the return that is written at its end**, if it
has none of its own. -/
theorem firstLine_withReturns (h : '\r' ∉ text) :
    firstLine (withReturns text) = firstLine text := by
  by_cases hmore : '\n' ∈ text
  · obtain ⟨line, rest, rfl, hline⟩ := List.eq_append_cons_of_mem hmore
    have hlast : line.getLast? ≠ some '\r' := fun hlast =>
      h (List.mem_append_left _ (List.mem_of_getLast? hlast))
    have hreturn : withReturns (line ++ '\n' :: rest) =
        (line ++ ['\r']) ++ '\n' :: withReturns rest := by
      simp [withReturns_of_not_mem hline]
    rw [hreturn, firstLine_append (by simpa using hline), firstLine_append hline, if_neg hlast]
    simp
  · rw [withReturns_of_not_mem hmore]

theorem trimEnd_concat (text : List Char) (a : Char) :
    trimEnd (text ++ [a]) = if isBlank a then trimEnd text else text ++ [a] := by
  rw [trimEnd, List.reverse_concat, List.dropWhile_cons]
  split
  · rfl
  · simp

/-- Both ends of a line are blank. -/
theorem trimEnd_withReturns (text : List Char) :
    trimEnd (withReturns text) = withReturns (trimEnd text) := by
  induction text using List.reverseRecOn with
  | nil => rfl
  | append_singleton text a ih =>
    rw [trimEnd_concat, withReturns_append]
    by_cases ha : a = '\n'
    · subst ha
      have hfeed : isBlank '\n' = true ∧ isBlank '\r' = true := by decide
      have hreturn : withReturns text ++ withReturns ['\n'] =
          (withReturns text ++ ['\r']) ++ ['\n'] := by
        simp
      rw [hreturn, trimEnd_concat, trimEnd_concat, if_pos hfeed.1, if_pos hfeed.2,
        if_pos hfeed.1, ih]
    · rw [withReturns_cons ha, withReturns_nil, trimEnd_concat, ih]
      split
      · rfl
      · rw [withReturns_append, withReturns_cons ha, withReturns_nil]

theorem hasMoreLines_withReturns (text : List Char) :
    hasMoreLines (withReturns text) = hasMoreLines text := by
  rw [hasMoreLines, hasMoreLines, trimEnd_withReturns, Bool.eq_iff_iff, List.contains_iff_mem,
    List.contains_iff_mem, lineFeed_mem_withReturns]

theorem lineFeed_mem_of_trimEnd (h : '\n' ∈ trimEnd text) : '\n' ∈ text := by
  rw [trimEnd, List.mem_reverse] at h
  exact List.mem_reverse.1 ((List.dropWhile_suffix _).subset h)

theorem hasMoreLines_of_not_mem (h : '\n' ∉ text) : hasMoreLines text = false := by
  rw [hasMoreLines, ← Bool.not_eq_true, List.contains_iff_mem]
  exact fun hmem => h (lineFeed_mem_of_trimEnd hmem)

/-- **There are more lines** if there is more than blanks behind the first line feed. -/
theorem hasMoreLines_append (h : '\n' ∉ line) (rest : List Char) :
    hasMoreLines (line ++ '\n' :: rest) = rest.any (!isBlank ·) := by
  induction rest using List.reverseRecOn with
  | nil =>
    have hblank : isBlank '\n' = true := by decide
    rw [hasMoreLines, trimEnd_concat, if_pos hblank]
    exact hasMoreLines_of_not_mem h
  | append_singleton rest a ih =>
    rw [hasMoreLines, ← List.cons_append, ← List.append_assoc, trimEnd_concat]
    cases hblank : isBlank a with
    | true =>
      rw [if_pos rfl, ← hasMoreLines, ih]
      simp [hblank]
    | false => simp [hblank]

end OrderedBnf
