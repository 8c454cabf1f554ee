import Mathlib.Data.List.Forall2
import OrderedBnf.Proofs.Bnf.Shown
import OrderedBnf.Rule.References

/-!
# What is read and what is decoded

A literal is gone through twice. The grammar of BNF reads it item by item, to find the
quote that ends it, and an escape is one item. `unescape` decodes it piece by piece, and a
backslash is one piece with whatever stands behind it. Only a backslash that escapes
nothing is seen in two ways, as an item of its own and as half a piece.

The two stay in step (`Grouped`): a piece is an item, or such a backslash with the item
behind it. So no backslash is left over at the end of a body, and its quote comes of
nothing but an escaped quote (`DecodesAsRead`).
-/

namespace OrderedBnf

namespace Bnf

open Goal Quotation

variable {Q : Quotation} {q : Char} {body text rest piece : List Char} {term : String}
variable {items : List (List Char)}

/-- What holds of members that correspond. -/
theorem forall₂_imp_of_mem {α β : Type} {R S : α → β → Prop} {as : List α} {bs : List β}
    (h : List.Forall₂ R as bs) (hS : ∀ a ∈ as, ∀ b ∈ bs, R a b → S a b) :
    List.Forall₂ S as bs := by
  induction h with
  | nil => exact .nil
  | cons hab _ ih =>
    exact .cons (hS _ (by simp) _ (by simp) hab)
      (ih fun a ha b hb => hS a (List.mem_cons_of_mem _ ha) b (List.mem_cons_of_mem _ hb))

/-! ## Pieces -/

/-- The pieces that `unescape` takes a body apart into. -/
def pieces : List Char → List (List Char)
  | [] => []
  | ['\\'] => [['\\']]
  | '\\' :: a :: rest => ['\\', a] :: pieces rest
  | a :: rest => [a] :: pieces rest

theorem pieces_of_ne {a : Char} (ha : a ≠ '\\') (rest : List Char) :
    pieces (a :: rest) = [a] :: pieces rest := by
  simp [pieces, ha]

/-- The pieces of a body, one behind the other, are the body. -/
theorem flatten_pieces (body : List Char) : (pieces body).flatten = body := by
  fun_induction pieces body with
  | case1 | case2 => rfl
  | case3 a rest ih => simp [ih]
  | case4 a rest _ _ ih => simp [ih]

/-- **Every piece is decoded to one character**, and these are the characters that the body
is decoded to. -/
theorem decodes_pieces (body : List Char) :
    List.Forall₂ (fun piece a => unescape piece = [a]) (pieces body) (unescape body) := by
  fun_induction pieces body with
  | case1 => exact .nil
  | case2 => exact .cons rfl .nil
  | case3 a rest ih => exact .cons rfl ih
  | case4 a rest hlast hback ih =>
    have ha : a ≠ '\\' := by
      rintro rfl
      cases rest with
      | nil => exact hlast rfl rfl
      | cons b rest => exact hback b rest rfl rfl
    have htext : ∀ rest, unescape (a :: rest) = a :: unescape rest := by simp [unescape, ha]
    rw [htext]
    exact .cons (htext []) ih

/-! ## Items -/

/-- **The items that the grammar reads** from the beginning of a text: one after another
what the rule for an item takes, up to a rest where it takes nothing. -/
inductive ReadsItems (Q : Quotation) : List Char → List (List Char) → List Char → Prop
  | stop {rest : List Char} :
      (∀ c : Cursor, c.rest = rest →
        ∃ n, Settles grammar (symbol (refs Q.character .zeroOrMore)) c none n) →
      ReadsItems Q rest [] rest
  | more {item text rest : List Char} {items : List (List Char)} :
      item ≠ [] →
      (∀ c : Cursor, c.rest = item ++ text →
        ∃ n, Takes grammar (symbol (refs Q.character .zeroOrMore)) c text [] n) →
      ReadsItems Q text items rest → ReadsItems Q (item ++ text) (item :: items) rest

/-- An escape is read as one item, -/
theorem ReadsItems.escape {a : Char} (ha : Q.Escapes a) (h : ReadsItems Q text items rest) :
    ReadsItems Q ('\\' :: a :: text) (['\\', a] :: items) rest := by
  change ReadsItems Q (['\\', a] ++ text) _ rest
  refine .more (List.cons_ne_nil _ _) (fun c hc => ?_) h
  obtain ⟨n, -, htakes⟩ := takes_item_escape (Q := Q) (t := refs Q.character .zeroOrMore) rfl hc ha
  exact ⟨n, htakes⟩

/-- and so is a character where no escape begins. -/
theorem ReadsItems.plain {a : Char} (ha : IsPrintable a ∧ a ≠ Q.quote)
    (hescape : ¬ Q.BeginsEscape (a :: text)) (h : ReadsItems Q text items rest) :
    ReadsItems Q (a :: text) ([a] :: items) rest := by
  change ReadsItems Q ([a] ++ text) _ rest
  refine .more (List.cons_ne_nil _ _) (fun c hc => ?_) h
  have hnone : ¬ Q.BeginsEscape c.rest := by rwa [hc]
  obtain ⟨n, -, htakes⟩ :=
    takes_item_plain (Q := Q) (t := refs Q.character .zeroOrMore) rfl hc ha hnone
  exact ⟨n, htakes⟩

/-- **How pieces are made of items**, in a body between quotes `q`. -/
inductive Grouped (q : Char) : List (List Char) → List (List Char) → Prop
  | nil : Grouped q [] []
  /-- An escape is an item and a piece. -/
  | escape {a : Char} {items pieces : List (List Char)} :
      a = '\\' ∨ a = q → Grouped q items pieces →
      Grouped q (['\\', a] :: items) (['\\', a] :: pieces)
  /-- A backslash that is an item of its own makes a piece with the next item, which is
  neither a backslash nor a quote. -/
  | backslash {a : Char} {items pieces : List (List Char)} :
      a ≠ '\\' → a ≠ q → Grouped q items pieces →
      Grouped q (['\\'] :: [a] :: items) (['\\', a] :: pieces)
  /-- Any other character is an item and a piece. -/
  | plain {a : Char} {items pieces : List (List Char)} :
      a ≠ '\\' → a ≠ q → Grouped q items pieces → Grouped q ([a] :: items) ([a] :: pieces)

/-- A piece of one character is an item. -/
theorem Grouped.uncons {a : Char} {pieces : List (List Char)}
    (h : Grouped q items ([a] :: pieces)) :
    ∃ later, items = [a] :: later ∧ Grouped q later pieces := by
  cases h with
  | plain _ _ h => exact ⟨_, rfl, h⟩

/-- **The pieces of a body are made of the items that are read** in front of its quote. -/
theorem exists_items_grouped (h : IsBody Q.quote body) :
    ∃ items, (∀ rest, ReadsItems Q (body ++ Q.quote :: rest) items (Q.quote :: rest)) ∧
      Grouped Q.quote items (pieces body) := by
  induction h with
  | nil =>
    refine ⟨[], fun rest => .stop fun c hc => ⟨3, settles_item_none rfl ?_⟩, .nil⟩
    rw [hc, List.nil_append, begins_cons]
    exact fun hquote => hquote.2 rfl
  | escape ha _ ih =>
    obtain ⟨items, hreads, hgrouped⟩ := ih
    exact ⟨_, fun rest => (hreads rest).escape ha, .escape ha hgrouped⟩
  | @backslash a body hback hquote _ ih =>
    obtain ⟨items, hreads, hgrouped⟩ := ih
    rw [pieces_of_ne hback] at hgrouped
    obtain ⟨later, rfl, hlater⟩ := hgrouped.uncons
    refine ⟨['\\'] :: [a] :: later, fun rest => (hreads rest).plain ?_ ?_,
      .backslash hback hquote hlater⟩
    · exact ⟨by decide, Q.quote_ne_backslash.symm⟩
    · rintro ⟨_, _, heq, hescapes⟩
      obtain ⟨rfl, -⟩ := List.cons.inj (List.cons.inj heq).2
      exact hescapes.elim hback hquote
  | @plain a body hprint hback hquote _ ih =>
    obtain ⟨items, hreads, hgrouped⟩ := ih
    rw [pieces_of_ne hback]
    refine ⟨_, fun rest => (hreads rest).plain ⟨hprint, hquote⟩ ?_, .plain hback hquote hgrouped⟩
    rintro ⟨_, _, heq, -⟩
    exact hback (List.cons.inj heq).1

/-! ## What follows for the decoder -/

/-- No piece is a backslash alone. -/
theorem Grouped.not_mem {pieces : List (List Char)} (h : Grouped q items pieces) :
    ['\\'] ∉ pieces := by
  induction h with
  | nil => simp
  | escape _ _ ih | backslash _ _ _ ih => simpa using ih
  | plain hback _ _ ih => simpa [hback.symm] using ih

/-- A character that is no quote is not decoded to one. -/
theorem escaped_eq_iff {a : Char} (hq : isQuote q = true) : escaped a = q ↔ a = q := by
  simp only [isQuote, Bool.or_eq_true, beq_iff_eq] at hq
  unfold escaped
  split <;> rcases hq with rfl | rfl <;> simp

/-- **A quote is decoded where an escaped quote was written**, and nowhere else. -/
theorem Grouped.quote_iff {pieces : List (List Char)} (h : Grouped q items pieces)
    (hq : isQuote q = true) (hpiece : piece ∈ pieces) {a : Char} (ha : unescape piece = [a]) :
    a = q ↔ piece = ['\\', q] := by
  induction h with
  | nil => cases hpiece
  | @escape b _ _ _ _ ih | @backslash b _ _ _ _ _ ih =>
    rcases List.mem_cons.1 hpiece with rfl | hpiece
    · obtain rfl : escaped b = a := by simpa [unescape] using ha
      simpa using escaped_eq_iff hq
    · exact ih hpiece
  | @plain b _ _ hback hquote _ ih =>
    rcases List.mem_cons.1 hpiece with rfl | hpiece
    · obtain rfl : b = a := by simpa [unescape, hback] using ha
      simpa using hquote
    · exact ih hpiece

/-- **A body whose reader and decoder agree.** -/
structure DecodesAsRead (Q : Quotation) (body : List Char) : Prop where
  /-- The pieces are made of the items that are read in front of the quote. -/
  grouped : ∃ items, (∀ rest, ReadsItems Q (body ++ Q.quote :: rest) items (Q.quote :: rest)) ∧
    Grouped Q.quote items (pieces body)
  /-- No backslash is left over. -/
  not_mem : ['\\'] ∉ pieces body
  /-- Every piece is decoded to one character, and that is the quote if and only if the
  piece is an escaped quote. -/
  decodes : List.Forall₂ (fun piece a => unescape piece = [a] ∧
    (a = Q.quote ↔ piece = ['\\', Q.quote])) (pieces body) (unescape body)

theorem decodesAsRead (h : IsBody Q.quote body) : DecodesAsRead Q body := by
  obtain ⟨items, hreads, hgrouped⟩ := exists_items_grouped h
  refine ⟨⟨items, hreads, hgrouped⟩, hgrouped.not_mem, ?_⟩
  exact forall₂_imp_of_mem (decodes_pieces body) fun piece hpiece a _ ha =>
    ⟨ha, hgrouped.quote_iff Q.isQuote_quote hpiece ha⟩

/-! ## Terms -/

/-- **A term that stands for a literal**, wherever it is taken apart. -/
structure StandsForLiteral (term : String) : Prop where
  exists_body : ∃ Q : Quotation, ∃ body, term.toList = Q.quote :: (body ++ [Q.quote]) ∧
    Term.ofSource term = ⟨.literal (unescape body), .once, term⟩ ∧ DecodesAsRead Q body
  split_eq : Term.split term = (term, .once)
  referenceOf_eq : referenceOf term = none
  showTerm_eq : Rule.showTerm term = term

/-- **A term that stands for a name**, wherever it is taken apart. -/
structure StandsForName (term : String) : Prop where
  isName : IsName term.toList
  ofSource_eq : Term.ofSource term = ⟨.reference term, .once, term⟩
  split_eq : Term.split term = (term, .once)
  referenceOf_eq : referenceOf term = some term
  showTerm_eq : Rule.showTerm term = "<" ++ term ++ ">"

theorem standsForLiteral (h : IsLiteral term.toList) : StandsForLiteral term := by
  have hliteral := isLiteral_of_isLiteral h
  have hsource := Term.ofSource_of_isLiteral hliteral
  rw [String.ofList_toList] at hsource
  refine ⟨?_, by simp [Term.split, Term.splitChars_of_isLiteral hliteral],
    referenceOf_eq_none_iff.2 ⟨_, by rw [hsource]⟩, by rw [Rule.showTerm, hsource]⟩
  obtain ⟨q, body, hq, hbody, hterm⟩ := h
  obtain ⟨Q, rfl⟩ : ∃ Q : Quotation, Q.quote = q := by
    simp only [isQuote, Bool.or_eq_true, beq_iff_eq] at hq
    rcases hq with rfl | rfl
    · exact ⟨double, rfl⟩
    · exact ⟨single, rfl⟩
  refine ⟨Q, body, hterm, ?_, decodesAsRead hbody⟩
  rw [hsource, hterm]
  simp

theorem standsForName (h : IsName term.toList) : StandsForName term := by
  have hlast := noSuffix_of_isName h
  have hsource := Term.ofSource_of_name (isLiteral_of_isName h) hlast
  rw [String.ofList_toList] at hsource
  refine ⟨h, hsource, by simp [Term.split, Term.splitChars_of_last hlast],
    referenceOf_eq_some_iff.2 (by rw [hsource]), ?_⟩
  rw [Rule.showTerm, hsource]
  simp [Repetition.suffix]

end Bnf

end OrderedBnf
