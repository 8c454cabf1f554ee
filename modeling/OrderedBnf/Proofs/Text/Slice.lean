import OrderedBnf.Proofs.Match.Advance

/-!
# Slices of a text

An offset counts the bytes of a text, and most texts have offsets that stand
inside a character. `slice?` cuts a text at two offsets and has a result only
where both are boundaries between characters and in order. It is the partial
operation that cursors do without: they carry the text in front of them, and
what lies between two of them is the slice of their offsets
(`slice?_of_reaches`).
-/

namespace OrderedBnf

/-- **A boundary of a text** is an offset between two of its characters, or at
one of its ends; so none lies behind the text (`IsBoundary.le`). -/
def IsBoundary (text : String) (offset : Nat) : Prop := String.Pos.Raw.IsValid text ⟨offset⟩

instance (text : String) : DecidablePred (IsBoundary text) :=
  fun _ => inferInstanceAs (Decidable (String.Pos.Raw.IsValid _ _))

/-- **The part of a text between two offsets.** There is one when both are
boundaries and the second is not before the first. -/
def slice? (text : String) (start stop : Nat) : Option String :=
  if h : IsBoundary text start ∧ IsBoundary text stop ∧ start ≤ stop then
    some (text.slice (text.pos ⟨start⟩ h.1) (text.pos ⟨stop⟩ h.2.1) h.2.2).copy
  else none

variable {text part : String} {start stop offset : Nat} {middle : List Char}

/-! ## Lengths -/

theorem byteLength_eq (chars : List Char) :
    byteLength chars = (String.ofList chars).utf8ByteSize := by
  induction chars with
  | nil => rfl
  | cons a chars ih =>
    rw [String.ofList_cons, String.utf8ByteSize_append, byteLength, ih]
    simp

theorem byteLength_toList (text : String) : byteLength text.toList = text.utf8ByteSize := by
  rw [byteLength_eq, String.ofList_toList]

/-! ## Boundaries -/

theorem isBoundary_iff : IsBoundary text offset ↔
    ∃ before after, text.toList = before ++ after ∧ offset = byteLength before := by
  rw [IsBoundary, String.Pos.Raw.isValid_iff_exists_append]
  constructor
  · rintro ⟨before, after, rfl, h⟩
    refine ⟨before.toList, after.toList, String.toList_append, ?_⟩
    rw [byteLength_toList]
    exact congrArg String.Pos.Raw.byteIdx h
  · rintro ⟨before, after, h, rfl⟩
    refine ⟨String.ofList before, String.ofList after, ?_, ?_⟩
    · rw [← String.ofList_append, ← h, String.ofList_toList]
    · rw [byteLength_eq]
      rfl

theorem IsBoundary.le (h : IsBoundary text offset) : offset ≤ text.utf8ByteSize :=
  h.le_utf8ByteSize

theorem isBoundary_zero (text : String) : IsBoundary text 0 :=
  isBoundary_iff.2 ⟨[], text.toList, rfl, rfl⟩

/-! ## Slices -/

/-- **What it is to be the slice between two offsets.** -/
theorem slice?_eq_some_iff : slice? text start stop = some part ↔
    ∃ before after, text.toList = before ++ (part.toList ++ after) ∧
      start = byteLength before ∧ stop = start + byteLength part.toList := by
  unfold slice?
  constructor
  · intro h
    split at h
    · rename_i hb
      obtain ⟨before, after, hstart, hstop⟩ :=
        String.copy_slice_eq_iff_splits.1 ⟨hb.2.2, Option.some.inj h⟩
      have hs : start = before.utf8ByteSize :=
        congrArg String.Pos.Raw.byteIdx hstart.offset_eq_rawEndPos
      have ht : stop = (before ++ part).utf8ByteSize :=
        congrArg String.Pos.Raw.byteIdx hstop.offset_eq_rawEndPos
      refine ⟨before.toList, after.toList, ?_, by rw [byteLength_toList, hs], ?_⟩
      · rw [hstart.eq_append, String.toList_append, String.toList_append]
      · rw [byteLength_toList, ht, String.utf8ByteSize_append, hs]
    · cases h
  · rintro ⟨before, after, htext, rfl, rfl⟩
    have hstart : IsBoundary text (byteLength before) := isBoundary_iff.2 ⟨_, _, htext, rfl⟩
    have hstop : IsBoundary text (byteLength before + byteLength part.toList) :=
      isBoundary_iff.2 ⟨before ++ part.toList, after, by simp [htext], by simp⟩
    rw [dif_pos ⟨hstart, hstop, Nat.le_add_right _ _⟩, Option.some.injEq]
    have htext' : text = String.ofList before ++ (part ++ String.ofList after) := by
      rw [← String.toList_inj, htext]
      simp
    have hfirst : (text.pos ⟨byteLength before⟩ hstart).Splits (String.ofList before)
        (part ++ String.ofList after) :=
      ⟨htext', String.Pos.Raw.ext (byteLength_eq before)⟩
    have hlast : (text.pos ⟨byteLength before + byteLength part.toList⟩ hstop).Splits
        (String.ofList before ++ part) (String.ofList after) := by
      refine ⟨htext'.trans String.append_assoc.symm, String.Pos.Raw.ext ?_⟩
      change _ = (String.ofList before ++ part).utf8ByteSize
      rw [String.utf8ByteSize_append, ← byteLength_eq, ← byteLength_toList]
      rfl
    exact (String.copy_slice_eq_iff_splits.2 ⟨_, _, hfirst, hlast⟩).2

theorem slice?_append (before after : List Char) (h : text.toList = before ++ (middle ++ after)) :
    slice? text (byteLength before) (byteLength before + byteLength middle) =
      some (String.ofList middle) :=
  slice?_eq_some_iff.2 ⟨before, after, by simpa using h, rfl, by simp⟩

example : slice? "aéb" 1 3 = some "é" := by decide +kernel
example : slice? "aéb" 1 2 = none := by decide +kernel

end OrderedBnf
