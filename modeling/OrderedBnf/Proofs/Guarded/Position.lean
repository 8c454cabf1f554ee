import OrderedBnf.Proofs.Guarded.Term

/-!
# The position of an offset, with guards

An offset is first moved into the text and then back to a boundary, one byte at
a time; what lies before it is cut off, and from that the line that it ends in.
The end of a text's last line is found by its offset, and the line begins one
byte behind it, where there is a boundary because a line feed is one byte long.
-/

namespace OrderedBnf

variable {text : String} {a : Char} {chars before line : List Char} {n : Nat}

/-! ## Whole characters -/

/-- The characters that fit into a number of bytes begin the text. -/
theorem takeBytes_append (n : Nat) (chars : List Char) :
    ∃ rest, chars = takeBytes n chars ++ rest := by
  induction chars generalizing n with
  | nil => exact ⟨[], rfl⟩
  | cons a chars ih =>
    unfold takeBytes
    split
    · exact ⟨a :: chars, rfl⟩
    · obtain ⟨rest, hrest⟩ := ih (n - a.utf8Size)
      exact ⟨rest, by rw [List.cons_append, ← hrest]⟩

/-- All of them fit if there is room for all. -/
theorem takeBytes_of_le (h : byteLength chars ≤ n) : takeBytes n chars = chars := by
  induction chars generalizing n with
  | nil => rfl
  | cons a chars ih =>
    rw [byteLength] at h
    rw [takeBytes, if_neg (by omega), ih (by omega)]

/-- One byte more makes room for a character, or else for nothing. -/
theorem takeBytes_succ (n : Nat) (chars : List Char) :
    takeBytes (n + 1) chars = takeBytes n chars ∨
      byteLength (takeBytes (n + 1) chars) = n + 1 := by
  induction chars generalizing n with
  | nil => exact .inl rfl
  | cons a chars ih =>
    rw [takeBytes, takeBytes]
    by_cases hfits : n + 1 < a.utf8Size
    · rw [if_pos hfits, if_pos (by omega)]
      exact .inl rfl
    · by_cases hfits' : n < a.utf8Size
      · -- the character ends at the byte that is new
        have hsize : n + 1 - a.utf8Size = 0 := by omega
        have hnone : takeBytes 0 chars = [] := by
          cases chars with
          | nil => rfl
          | cons b chars => rw [takeBytes, if_pos b.utf8Size_pos]
        rw [if_neg hfits, hsize, hnone]
        exact .inr (by simp only [byteLength]; omega)
      · rw [if_neg hfits, if_neg hfits', show n + 1 - a.utf8Size = n - a.utf8Size + 1 by omega]
        obtain h | h := ih (n - a.utf8Size)
        · exact .inl (by rw [h])
        · exact .inr (by rw [byteLength, h]; omega)

/-- Bytes that are behind the end do not matter. -/
theorem takeBytes_min (text : String) (offset : Nat) :
    takeBytes (min offset text.utf8ByteSize) text.toList = takeBytes offset text.toList := by
  obtain h | h := Nat.le_total offset text.utf8ByteSize
  · rw [Nat.min_eq_left h]
  · rw [Nat.min_eq_right h, takeBytes_of_le (Nat.le_of_eq (byteLength_toList text)),
      takeBytes_of_le (by rwa [byteLength_toList])]

/-- A position is reached character by character. -/
theorem Position.advance_eq (p : Position) (chars : List Char) (n : Nat) :
    p.advance chars n = (takeBytes n chars).foldl Position.next p := by
  induction chars generalizing p n with
  | nil => rfl
  | cons a chars ih =>
    rw [Position.advance, takeBytes]
    split
    · rfl
    · exact ih _ _

/-! ## Lines -/

/-- Every line feed begins a line, -/
theorem Position.line_foldl (p : Position) (chars : List Char) :
    (chars.foldl Position.next p).line = p.line + chars.count '\n' := by
  induction chars generalizing p with
  | nil => rfl
  | cons a chars ih =>
    rw [List.foldl_cons, ih, Position.next, List.count_cons]
    by_cases ha : a = '\n'
    · simp only [ha, if_true, beq_self_eq_true]
      omega
    · simp [ha]

/-- and every other character is a column. -/
theorem Position.column_foldl (p : Position) (h : '\n' ∉ line) :
    (line.foldl Position.next p).column = p.column + line.length := by
  induction line generalizing p with
  | nil => rfl
  | cons a line ih =>
    rw [List.mem_cons, not_or] at h
    obtain ⟨ha, hline⟩ := h
    rw [List.foldl_cons, ih _ hline, Position.next, if_neg (Ne.symm ha), List.length_cons]
    dsimp only
    omega

namespace Guarded

/-- The offset of the last line feed. -/
def lastLineFeed : List Char → Option Nat
  | [] => none
  | a :: rest =>
    ((lastLineFeed rest).map (a.utf8Size + ·)).or (if a = '\n' then some 0 else none)

/-- The offset itself if it is a boundary, and else the first one before it. -/
def snap (text : String) : Nat → Option Nat
  | 0 => if IsBoundary text 0 then some 0 else none
  | offset + 1 => if IsBoundary text (offset + 1) then some (offset + 1) else snap text offset

/-- Where the last line begins. -/
def lineStart (chars : List Char) : Nat :=
  match lastLineFeed chars with
  | some offset => offset + 1
  | none => 0

/-- The position of an offset. -/
def position (text : String) (offset : Nat) : Option Position := do
  let stop ← snap text (min offset text.utf8ByteSize)
  let before ← slice? text 0 stop
  let line ← slice? before (lineStart before.toList) before.utf8ByteSize
  return ⟨before.toList.count '\n' + 1, line.length + 1⟩

theorem lastLineFeed_eq_none (h : lastLineFeed chars = none) : '\n' ∉ chars := by
  induction chars with
  | nil => simp
  | cons a chars ih =>
    rw [lastLineFeed, Option.or_eq_none_iff, Option.map_eq_none_iff] at h
    obtain ⟨hrest, ha⟩ := h
    rw [List.mem_cons, not_or]
    refine ⟨?_, ih hrest⟩
    rintro rfl
    simp at ha

/-- Behind the last line feed stands the last line. -/
theorem lastLineFeed_eq_some (h : lastLineFeed chars = some n) :
    ∃ before line, chars = before ++ '\n' :: line ∧ n = byteLength before ∧ '\n' ∉ line := by
  induction chars generalizing n with
  | nil => cases h
  | cons a chars ih =>
    rw [lastLineFeed] at h
    cases hrest : lastLineFeed chars with
    | some m =>
      obtain ⟨before, line, rfl, rfl, hline⟩ := ih hrest
      rw [hrest] at h
      exact ⟨a :: before, line, rfl, (Option.some.inj h).symm, hline⟩
    | none =>
      rw [hrest] at h
      by_cases ha : a = '\n'
      · rw [if_pos ha] at h
        exact ⟨[], chars, by rw [ha]; rfl, (Option.some.inj h).symm, lastLineFeed_eq_none hrest⟩
      · rw [if_neg ha] at h
        cases h

/-- **The last line begins at a boundary**, in the first column, and is what lies
behind it. -/
theorem exists_lastLine (chars : List Char) : ∃ before line, chars = before ++ line ∧
    lineStart chars = byteLength before ∧ '\n' ∉ line ∧
    (before.foldl Position.next Position.start).column = 1 := by
  unfold lineStart
  cases hlast : lastLineFeed chars with
  | none => exact ⟨[], chars, rfl, rfl, lastLineFeed_eq_none hlast, rfl⟩
  | some offset =>
    obtain ⟨before, line, rfl, rfl, hline⟩ := lastLineFeed_eq_some hlast
    exact ⟨before ++ ['\n'], line, by simp, by rw [byteLength_append]; rfl, hline,
      by simp [Position.next]⟩

/-- **There is a boundary before every offset**, behind the characters that fit. -/
theorem snap_eq (text : String) (offset : Nat) :
    snap text offset = some (byteLength (takeBytes offset text.toList)) := by
  induction offset with
  | zero =>
    rw [snap, if_pos (isBoundary_zero text)]
    cases htext : text.toList with
    | nil => rfl
    | cons a chars => rw [takeBytes, if_pos a.utf8Size_pos]; rfl
  | succ offset ih =>
    rw [snap]
    split
    · rename_i hboundary
      obtain ⟨before, after, htext, hoffset⟩ := isBoundary_iff.1 hboundary
      rw [hoffset, htext, takeBytes_byteLength]
    · rename_i hboundary
      rw [ih]
      obtain h | h := takeBytes_succ offset text.toList
      · rw [h]
      · obtain ⟨rest, hrest⟩ := takeBytes_append (offset + 1) text.toList
        exact absurd (isBoundary_iff.2 ⟨_, rest, hrest, h.symm⟩) hboundary

/-- **Every offset has a position**, also one behind the end or inside a
character. -/
theorem position_eq (text : String) (offset : Nat) :
    position text offset = some (Position.ofOffset text offset) := by
  obtain ⟨after, htext⟩ := takeBytes_append offset text.toList
  have hposition : Position.ofOffset text offset =
      (takeBytes offset text.toList).foldl Position.next Position.start :=
    Position.advance_eq _ _ _
  rw [position, snap_eq, takeBytes_min, hposition]
  generalize takeBytes offset text.toList = chars at htext
  obtain ⟨before, line, hchars, hstart, hline, hcolumn⟩ := exists_lastLine chars
  have hbefore : slice? text 0 (byteLength chars) = some (String.ofList chars) := by
    simpa [byteLength] using slice?_append [] after htext
  have hlast : slice? (String.ofList chars) (byteLength before) (byteLength chars) =
      some (String.ofList line) := by
    rw [hchars, byteLength_append]
    exact slice?_append before [] (by simp)
  -- the two fields of the position, read off the characters before it
  have hfields : chars.foldl Position.next Position.start =
      ⟨chars.count '\n' + 1, line.length + 1⟩ := by
    have hcolumn' := Position.column_foldl (before.foldl Position.next Position.start) hline
    rw [← List.foldl_append, ← hchars, hcolumn] at hcolumn'
    have hline' := Position.line_foldl Position.start chars
    rcases hp : chars.foldl Position.next Position.start with ⟨l, k⟩
    rw [hp] at hline' hcolumn'
    simp only [Position.start] at hline' hcolumn'
    rw [hline', hcolumn', Nat.add_comm 1, Nat.add_comm 1]
  simp [hbefore, ← byteLength_eq, hstart, hlast, hfields]

end Guarded

end OrderedBnf
