import OrderedBnf.Text.Quoted

/-!
# Quoted text is unambiguous

A text can be told from its quoted form (`quoted_inj`). Each character is written in one of
three ways (`WrittenAs`): as itself, as a backslash and a letter, or by its code point
between braces. No written form is the beginning of another, so a text is read back
character by character, and none of them holds the end of a line.
-/

namespace OrderedBnf

/-- What stands before the first `a` of a text, and what behind it. -/
theorem append_cons_inj {α : Type} {a : α} {before before' after after' : List α}
    (hbefore : a ∉ before) (hbefore' : a ∉ before')
    (h : before ++ a :: after = before' ++ a :: after') : before = before' ∧ after = after' := by
  rcases List.append_eq_append_iff.1 h with ⟨between, rfl, hafter⟩ | ⟨between, rfl, hafter⟩
  · cases between with
    | nil => simpa using hafter
    | cons b between =>
      obtain ⟨rfl, -⟩ := List.cons.inj hafter
      simp at hbefore'
  · cases between with
    | nil => simpa [eq_comm] using hafter
    | cons b between =>
      obtain ⟨rfl, -⟩ := List.cons.inj hafter
      simp at hbefore

/-! ## Hexadecimal digits -/

theorem digitChar_inj : ∀ m < 16, ∀ n < 16, Nat.digitChar m = Nat.digitChar n → m = n := by
  decide

/-- The digits of a number are those of the numbers below 16. -/
theorem exists_of_mem_toDigits {c : Char} {n : Nat} (h : c ∈ Nat.toDigits 16 n) :
    ∃ k < 16, c = Nat.digitChar k := by
  induction n using Nat.strongRecOn with
  | ind n ih =>
    rw [Nat.toDigits_eq_if (by omega)] at h
    split at h
    · exact ⟨n, by omega, List.mem_singleton.1 h⟩
    · rcases List.mem_append.1 h with h | h
      · exact ih (n / 16) (by omega) h
      · exact ⟨n % 16, by omega, List.mem_singleton.1 h⟩

/-- **A number has its own digits.** -/
theorem toDigits_inj {m n : Nat} (h : Nat.toDigits 16 m = Nat.toDigits 16 n) : m = n := by
  induction m using Nat.strongRecOn generalizing n with
  | ind m ih =>
    have hlength : ∀ k, 0 < (Nat.toDigits 16 k).length := by
      intro k
      rw [Nat.toDigits_eq_if (by omega)]
      split <;> simp
    rw [Nat.toDigits_eq_if (by omega), Nat.toDigits_eq_if (n := n) (by omega)] at h
    -- a number of one digit is below 16, and the last digit is the remainder
    split at h <;> split at h
    · exact digitChar_inj m (by omega) n (by omega) (List.singleton_inj.1 h)
    · have hlong := congrArg List.length h
      have hpos := hlength (n / 16)
      simp only [List.length_append, List.length_singleton] at hlong
      omega
    · have hlong := congrArg List.length h
      have hpos := hlength (m / 16)
      simp only [List.length_append, List.length_singleton] at hlong
      omega
    · obtain ⟨hdiv, hmod⟩ := List.append_inj' h rfl
      have hquotient := ih (m / 16) (by omega) hdiv
      have hremainder :=
        digitChar_inj (m % 16) (by omega) (n % 16) (by omega) (List.singleton_inj.1 hmod)
      omega

/-! ## Characters -/

namespace Quoted

/-- What a letter behind a backslash stands for. -/
def short : Char → Char
  | 'n' => '\n'
  | 'r' => '\r'
  | 't' => '\t'
  | '0' => '\x00'
  | c => c

/-- **How a character is written** between quotes. -/
inductive WrittenAs : Char → List Char → Prop
  /-- It stands for itself, -/
  | plain {c : Char} : c ≠ '\\' → c ≠ '\n' → WrittenAs c [c]
  /-- or is written by a letter behind a backslash, -/
  | letter {l : Char} : l ≠ 'u' → l ≠ '\n' → WrittenAs (short l) ['\\', l]
  /-- or by its code point. -/
  | code {c : Char} : WrittenAs c (codePoint c)

theorem writtenAs_char (c : Char) : WrittenAs c (char c) := by
  unfold char
  split
  · exact .letter (l := '"') (by decide) (by decide)
  · exact .letter (l := '\\') (by decide) (by decide)
  · exact .letter (l := 'n') (by decide) (by decide)
  · exact .letter (l := 'r') (by decide) (by decide)
  · exact .letter (l := 't') (by decide) (by decide)
  · exact .letter (l := '0') (by decide) (by decide)
  · rename_i hback hend _ _ _
    split
    · exact .plain hback hend
    · exact .code

variable {c c' : Char} {text text' rest rest' : List Char}

theorem codePoint_eq (c : Char) :
    codePoint c = '\\' :: 'u' :: '\x7b' :: (Nat.toDigits 16 c.toNat ++ ['\x7d']) := rfl

/-- A brace is no digit, and neither is the end of a line. -/
theorem not_mem_toDigits (n : Nat) :
    '\x7d' ∉ Nat.toDigits 16 n ∧ '\n' ∉ Nat.toDigits 16 n := by
  have hdigits : ∀ k < 16, Nat.digitChar k ≠ '\x7d' ∧ Nat.digitChar k ≠ '\n' := by decide
  constructor
  · intro h
    obtain ⟨k, hk, hc⟩ := exists_of_mem_toDigits h
    exact (hdigits k hk).1 hc.symm
  · intro h
    obtain ⟨k, hk, hc⟩ := exists_of_mem_toDigits h
    exact (hdigits k hk).2 hc.symm

/-- **No written form is the beginning of another.** -/
theorem WrittenAs.inj (h : WrittenAs c text) (h' : WrittenAs c' text')
    (heq : text ++ rest = text' ++ rest') : c = c' ∧ rest = rest' := by
  cases h with
  | plain hback =>
    cases h' with
    | plain => simpa using heq
    | letter => exact absurd (List.cons.inj heq).1 hback
    | code => exact absurd (List.cons.inj heq).1 hback
  | letter hu =>
    cases h' with
    | plain hback => exact absurd (List.cons.inj heq).1.symm hback
    | letter =>
      obtain ⟨rfl, rfl⟩ : _ = _ ∧ rest = rest' := by simpa using heq
      exact ⟨rfl, rfl⟩
    | code => exact absurd (List.cons.inj (List.cons.inj heq).2).1 hu
  | code =>
    cases h' with
    | plain hback => exact absurd (List.cons.inj heq).1.symm hback
    | letter hu => exact absurd (List.cons.inj (List.cons.inj heq).2).1.symm hu
    | code =>
      -- the digits end at the brace
      have hdigits : Nat.toDigits 16 c.toNat ++ '\x7d' :: rest =
          Nat.toDigits 16 c'.toNat ++ '\x7d' :: rest' := by
        simpa [codePoint_eq] using heq
      obtain ⟨hcode, hrest⟩ :=
        append_cons_inj (not_mem_toDigits _).1 (not_mem_toDigits _).1 hdigits
      exact ⟨Char.toNat_inj.1 (toDigits_inj hcode), hrest⟩

theorem WrittenAs.ne_nil (h : WrittenAs c text) : text ≠ [] := by
  cases h <;> simp [codePoint_eq]

/-- What is written stays on its line. -/
theorem WrittenAs.lineFeed_not_mem (h : WrittenAs c text) : '\n' ∉ text := by
  cases h with
  | plain _ hend => simpa using hend.symm
  | letter _ hend => simpa using hend.symm
  | code => simp [codePoint_eq, (not_mem_toDigits c.toNat).2]

/-! ## Texts -/

theorem flatMap_char_inj (h : text.flatMap char = text'.flatMap char) : text = text' := by
  induction text generalizing text' with
  | nil =>
    cases text' with
    | nil => rfl
    | cons c text' =>
      have hnil : char c ++ text'.flatMap char = [] := h.symm
      exact absurd (List.append_eq_nil_iff.1 hnil).1 (writtenAs_char c).ne_nil
  | cons c text ih =>
    cases text' with
    | nil =>
      have hnil : char c ++ text.flatMap char = [] := h
      exact absurd (List.append_eq_nil_iff.1 hnil).1 (writtenAs_char c).ne_nil
    | cons c' text' =>
      obtain ⟨rfl, hrest⟩ := (writtenAs_char c).inj (writtenAs_char c') h
      rw [ih hrest]

/-- **A text can be told from its quoted form.** -/
theorem chars_inj (h : chars text = chars text') : text = text' := by
  have hbody : text.flatMap char ++ ['"'] = text'.flatMap char ++ ['"'] := (List.cons.inj h).2
  exact flatMap_char_inj (List.append_cancel_right hbody)

end Quoted

theorem quoted_inj {s s' : String} : quoted s = quoted s' ↔ s = s' := by
  constructor
  · intro h
    exact String.toList_inj.1 (Quoted.chars_inj (String.ofList_injective h))
  · exact fun h => congrArg quoted h

end OrderedBnf
