import Mathlib.Data.Prod.Lex
import Mathlib.Order.Bounds.Defs
import OrderedBnf.Proofs.Guarded.Position

/-!
# Positions in reading order

Positions come in the order in which a text is read: by line, and on a line by column.
Going on by a character goes to a later position (`Position.lt_next`), so offsets that
are boundaries have positions in their own order, and no two of them the same.

A position is enough to find the place again (`Position.offset?`): behind as many line
feeds as there are lines before it, and then behind the characters of its own line. From
the position of an offset that leads back to the last boundary that is not behind it.
-/

namespace OrderedBnf

variable {text : String} {chars before after line rest : List Char} {a : Char} {m n : Nat}

/-! ## Whole characters -/

/-- With more bytes there is room for more characters. -/
theorem takeBytes_prefix_takeBytes (h : m ≤ n) (chars : List Char) :
    takeBytes m chars <+: takeBytes n chars := by
  induction chars generalizing m n with
  | nil => exact List.prefix_rfl
  | cons a chars ih =>
    rw [takeBytes, takeBytes]
    by_cases hm : m < a.utf8Size
    · rw [if_pos hm]
      exact List.nil_prefix
    · rw [if_neg hm, if_neg (by omega), List.prefix_cons_inj]
      exact ih (by omega)

theorem byteLength_takeBytes_le (n : Nat) (chars : List Char) :
    byteLength (takeBytes n chars) ≤ n := by
  induction chars generalizing n with
  | nil => exact Nat.zero_le n
  | cons a chars ih =>
    rw [takeBytes]
    split
    · exact Nat.zero_le n
    · have := ih (n - a.utf8Size)
      rw [byteLength]
      omega

/-- A character of which a part is missing does not fit. -/
theorem takeBytes_inside (after : List Char) (hle : byteLength before ≤ n)
    (hlt : n < byteLength before + a.utf8Size) : takeBytes n (before ++ a :: after) = before := by
  induction before generalizing n with
  | nil => rw [List.nil_append, takeBytes, if_pos (by simpa [byteLength] using hlt)]
  | cons b before ih =>
    rw [byteLength] at hle hlt
    rw [List.cons_append, takeBytes, if_neg (by omega), ih (by omega) (by omega)]

/-- A boundary has the characters before it, and no others. -/
theorem takeBytes_of_isBoundary (h : IsBoundary text n) :
    byteLength (takeBytes n text.toList) = n := by
  obtain ⟨before, after, htext, rfl⟩ := isBoundary_iff.1 h
  rw [htext, takeBytes_byteLength]

/-- **The last boundary that is not behind an offset** is the one behind the characters
that fit. -/
theorem isGreatest_takeBytes (text : String) (offset : Nat) :
    IsGreatest {boundary | IsBoundary text boundary ∧ boundary ≤ offset}
      (byteLength (takeBytes offset text.toList)) := by
  constructor
  · obtain ⟨rest, hrest⟩ := takeBytes_append offset text.toList
    exact ⟨isBoundary_iff.2 ⟨_, rest, hrest, rfl⟩, byteLength_takeBytes_le _ _⟩
  · rintro boundary ⟨hboundary, hle⟩
    obtain ⟨between, hbetween⟩ := takeBytes_prefix_takeBytes hle text.toList
    have hlength := congrArg byteLength hbetween
    rw [byteLength_append, takeBytes_of_isBoundary hboundary] at hlength
    omega

namespace Position

/-! ## Reading order -/

/-- A position as a pair, the line first. -/
def key (p : Position) : ℕ ×ₗ ℕ := toLex (p.line, p.column)

theorem key_injective : Function.Injective key := by
  rintro ⟨line, column⟩ ⟨line', column'⟩ h
  obtain ⟨rfl, rfl⟩ := Prod.mk.inj (toLex_inj.1 h)
  rfl

/-- **Reading order**: by line, and on a line by column. -/
instance : LinearOrder Position := LinearOrder.lift' key key_injective

theorem lt_iff {p q : Position} :
    p < q ↔ p.line < q.line ∨ p.line = q.line ∧ p.column < q.column :=
  Prod.Lex.lt_iff

/-- A character leads to a later position, on the next line if it ends its own. -/
theorem lt_next (p : Position) (a : Char) : p < p.next a := by
  rw [lt_iff, next]
  split
  · exact .inl (Nat.lt_succ_self _)
  · exact .inr ⟨rfl, Nat.lt_succ_self _⟩

theorem le_foldl_next (p : Position) (chars : List Char) : p ≤ chars.foldl next p := by
  induction chars generalizing p with
  | nil => exact le_rfl
  | cons a chars ih => exact (lt_next p a).le.trans (ih (p.next a))

theorem lt_foldl_next (p : Position) (h : chars ≠ []) : p < chars.foldl next p := by
  cases chars with
  | nil => exact absurd rfl h
  | cons a chars => exact (lt_next p a).trans_le (le_foldl_next (p.next a) chars)

/-! ## Positions of offsets -/

/-- The position of an offset is reached by reading the characters that fit. -/
theorem ofOffset_eq (text : String) (offset : Nat) :
    ofOffset text offset = (takeBytes offset text.toList).foldl next start :=
  advance_eq _ _ _

/-- **A larger offset has no earlier position**, -/
theorem ofOffset_mono (text : String) (h : m ≤ n) : ofOffset text m ≤ ofOffset text n := by
  obtain ⟨between, hbetween⟩ := takeBytes_prefix_takeBytes h text.toList
  rw [ofOffset_eq, ofOffset_eq, ← hbetween, List.foldl_append]
  exact le_foldl_next _ _

/-- **and of two boundaries it has the later one.** -/
theorem ofOffset_lt (h : m < n) (hm : IsBoundary text m) (hn : IsBoundary text n) :
    ofOffset text m < ofOffset text n := by
  obtain ⟨between, hbetween⟩ := takeBytes_prefix_takeBytes h.le text.toList
  have hne : between ≠ [] := by
    rintro rfl
    have hlength := congrArg byteLength hbetween
    rw [List.append_nil, takeBytes_of_isBoundary hm, takeBytes_of_isBoundary hn] at hlength
    omega
  rw [ofOffset_eq, ofOffset_eq, ← hbetween, List.foldl_append]
  exact lt_foldl_next _ hne

/-- An offset behind the end counts as the end, -/
theorem ofOffset_of_le (h : text.utf8ByteSize ≤ n) :
    ofOffset text n = ofOffset text text.utf8ByteSize := by
  rw [ofOffset_eq, ofOffset_eq, ← takeBytes_min, Nat.min_eq_right h]

/-- and one inside a character as the start of the character. -/
theorem ofOffset_inside (htext : text.toList = before ++ a :: after) (hle : byteLength before ≤ n)
    (hlt : n < byteLength before + a.utf8Size) :
    ofOffset text n = ofOffset text (byteLength before) := by
  rw [ofOffset_eq, ofOffset_eq, htext, takeBytes_inside after hle hlt, takeBytes_byteLength]

/-- Lines and columns are counted from one. -/
theorem one_le_ofOffset (text : String) (offset : Nat) :
    1 ≤ (ofOffset text offset).line ∧ 1 ≤ (ofOffset text offset).column := by
  obtain ⟨before, line, hchars, -, hline, hcolumn⟩ :=
    Guarded.exists_lastLine (takeBytes offset text.toList)
  rw [ofOffset_eq]
  constructor
  · rw [line_foldl]
    exact Nat.le_add_right 1 _
  · rw [hchars, List.foldl_append, column_foldl _ hline, hcolumn]
    exact Nat.le_add_right 1 _

/-! ## Back to the offset -/

/-- What stands behind the first `n` line feeds of a text, if there are so many. -/
def behindLineFeeds : Nat → List Char → Option (List Char)
  | 0, text => some text
  | _ + 1, [] => none
  | n + 1, a :: rest => behindLineFeeds (if a = '\n' then n else n + 1) rest

/-- **The offset of a position**: that of the place behind the line feeds of the lines
before it and the characters of its own line, if there are so many. -/
def offset? (text : String) (p : Position) : Option Nat :=
  (behindLineFeeds (p.line - 1) text.toList).bind fun rest =>
    if p.column - 1 ≤ rest.length then
      some (text.utf8ByteSize - byteLength (rest.drop (p.column - 1)))
    else none

/-- A line begins behind a line feed. -/
theorem behindLineFeeds_append (before rest : List Char) :
    behindLineFeeds (before.count '\n' + 1) (before ++ '\n' :: rest) = some rest := by
  induction before with
  | nil => simp [behindLineFeeds]
  | cons a before ih =>
    rw [List.cons_append, behindLineFeeds, List.count_cons]
    by_cases ha : a = '\n'
    · simpa [ha] using ih
    · simpa [ha] using ih

/-- **The last line of a text is found behind its line feeds**, whatever comes behind. -/
theorem exists_behindLineFeeds (chars rest : List Char) : ∃ before line, chars = before ++ line ∧
    '\n' ∉ line ∧ (before.foldl next start).column = 1 ∧
    behindLineFeeds (chars.count '\n') (chars ++ rest) = some (line ++ rest) := by
  cases hlast : Guarded.lastLineFeed chars with
  | none =>
    have hline := Guarded.lastLineFeed_eq_none hlast
    exact ⟨[], chars, rfl, hline, rfl, by
      rw [List.count_eq_zero.2 hline, behindLineFeeds]⟩
  | some offset =>
    obtain ⟨before, line, rfl, -, hline⟩ := Guarded.lastLineFeed_eq_some hlast
    have hcount : (before ++ '\n' :: line).count '\n' = before.count '\n' + 1 := by
      simp [List.count_eq_zero.2 hline]
    refine ⟨before ++ ['\n'], line, by simp, hline, by simp [next], ?_⟩
    rw [hcount, List.append_assoc]
    exact behindLineFeeds_append before (line ++ rest)

/-- **The position behind the beginning of a text leads back there.** -/
theorem offset?_foldl_next (htext : text.toList = chars ++ rest) :
    (chars.foldl next start).offset? text = some (byteLength chars) := by
  obtain ⟨before, line, hchars, hline, hcolumn, hbehind⟩ := exists_behindLineFeeds chars rest
  have hline' : (chars.foldl next start).line - 1 = chars.count '\n' := by
    rw [line_foldl, start, Nat.add_sub_cancel_left]
  have hcolumn' : (chars.foldl next start).column - 1 = line.length := by
    rw [hchars, List.foldl_append, column_foldl _ hline, hcolumn, Nat.add_sub_cancel_left]
  have hsize : text.utf8ByteSize - byteLength rest = byteLength chars := by
    rw [← byteLength_toList, htext, byteLength_append, Nat.add_sub_cancel]
  rw [offset?, hline', hcolumn', htext, hbehind, Option.bind_some,
    if_pos (by rw [List.length_append]; exact Nat.le_add_right _ _), List.drop_left, hsize]

/-- **The position of an offset leads back** to the last boundary that is not behind it. -/
theorem exists_offset?_ofOffset (text : String) (offset : Nat) :
    ∃ boundary, (ofOffset text offset).offset? text = some boundary ∧
      IsGreatest {boundary | IsBoundary text boundary ∧ boundary ≤ offset} boundary := by
  obtain ⟨rest, htext⟩ := takeBytes_append offset text.toList
  refine ⟨_, ?_, isGreatest_takeBytes text offset⟩
  rw [ofOffset_eq]
  exact offset?_foldl_next htext

end Position

/-- A location as a line and a column; for the source as a whole both are zero. -/
def Location.numbers : Location → Nat × Nat
  | whole => (0, 0)
  | point p => (p.line, p.column)

namespace Position

/-- **Offsets and positions come in the same order**, whatever the text. A larger offset
has no earlier position, and among boundaries it has a later one. An offset behind the
end has the position of the end, and one inside a character that of its start. A position
is never taken for the source as a whole, and it leads back to the offset: to the last
boundary that is not behind it. -/
theorem ofOffset_orderEmbedding (text : String) :
    (∀ m n, m ≤ n → ofOffset text m ≤ ofOffset text n) ∧
    (∀ m n, m < n → IsBoundary text m → IsBoundary text n →
      ofOffset text m < ofOffset text n) ∧
    (∀ offset, text.utf8ByteSize ≤ offset →
      ofOffset text offset = ofOffset text text.utf8ByteSize) ∧
    (∀ before a after offset, text.toList = before ++ a :: after →
      byteLength before ≤ offset → offset < byteLength before + a.utf8Size →
      ofOffset text offset = ofOffset text (byteLength before)) ∧
    (∀ offset, 1 ≤ (ofOffset text offset).line ∧ 1 ≤ (ofOffset text offset).column ∧
      (Location.point (ofOffset text offset)).numbers ≠ Location.whole.numbers) ∧
    ∀ offset, ∃ boundary, (ofOffset text offset).offset? text = some boundary ∧
      IsGreatest {boundary | IsBoundary text boundary ∧ boundary ≤ offset} boundary := by
  refine ⟨fun m n => ofOffset_mono text, fun m n => ofOffset_lt, fun offset => ofOffset_of_le,
    fun before a after offset => ofOffset_inside, fun offset => ?_,
    exists_offset?_ofOffset text⟩
  obtain ⟨hline, hcolumn⟩ := one_le_ofOffset text offset
  refine ⟨hline, hcolumn, fun h => ?_⟩
  have hzero : (ofOffset text offset).line = 0 := congrArg Prod.fst h
  omega

example : ofOffset "é\n∀b" 5 = ⟨2, 1⟩ := by decide
example : (Position.mk 2 1).offset? "é\n∀b" = some 3 := by decide
example : (Position.mk 2 4).offset? "é\n∀b" = none := by decide

end Position

end OrderedBnf
