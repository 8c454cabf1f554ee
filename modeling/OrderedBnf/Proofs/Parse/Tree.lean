import OrderedBnf.Parse.Parser
import OrderedBnf.Proofs.Match.Layout
import OrderedBnf.Proofs.Text.Slice

/-!
# Trees and their texts

A tree is true to its text: each node has the slice between its two offsets,
which are boundaries, and its children lie inside it, in order and without
overlap (`Node.InText`). The kinds of the nodes below the root are names of
rules that are no fragments, and a tree has no more levels than there may be
rules under way. All of this holds whatever the rules are, of trees that leave
text over and of trees that the limit has cut short.

What there is to report about a parse stands at the root of its tree, and no
other node has anything to report: the nodes of a match are made with nothing,
whatever rule they are of and however often an attempt is made for them.
-/

namespace OrderedBnf

open Goal

variable {g : Grammar} {n depth : Nat} {c s : Cursor} {node : Node} {d : Definition}
variable {text start : String} {taken : List Char}

/-! ## Cursors in a text -/

theorem isBoundary_of_reaches (h : (Cursor.start text.toList).Reaches c) :
    IsBoundary text c.offset := by
  obtain ⟨before, hr, ho⟩ := h
  exact isBoundary_iff.2 ⟨before, c.rest, hr, by simpa [Cursor.start] using ho⟩

/-- The bytes before a cursor and those behind it. -/
theorem utf8ByteSize_of_reaches (h : (Cursor.start text.toList).Reaches c) :
    text.utf8ByteSize = c.offset + byteLength c.rest := by
  obtain ⟨before, hbefore, hoffset⟩ := h
  have htext : text.toList = before ++ c.rest := hbefore
  rw [← byteLength_toList, htext, byteLength_append, hoffset, Cursor.start, Nat.zero_add]

/-- **What lies between two cursors is a slice.** -/
theorem slice?_of_reaches (h : (Cursor.start text.toList).Reaches c)
    (hr : c.rest = taken ++ s.rest) (ho : s.offset = c.offset + byteLength taken) :
    slice? text c.offset s.offset = some (String.ofList taken) := by
  obtain ⟨before, hbefore, hoffset⟩ := h
  refine slice?_eq_some_iff.2 ⟨before, s.rest, ?_, by simpa [Cursor.start] using hoffset, ?_⟩
  · simpa [Cursor.start, hr] using hbefore
  · simpa using ho

/-! ## Nodes -/

/-- **A node that is true to a text.** -/
structure Node.InText (text : String) (node : Node) : Prop where
  start_le_stop : node.start ≤ node.stop
  stop_le : node.stop ≤ text.utf8ByteSize
  isBoundary_start : IsBoundary text node.start
  isBoundary_stop : IsBoundary text node.stop
  /-- It has the slice between its offsets. -/
  slice_eq : slice? text node.start node.stop = some node.text
  /-- Its children lie inside it, -/
  within : ∀ child ∈ node.children, node.start ≤ child.start ∧ child.stop ≤ node.stop
  /-- each behind the ones before it. -/
  ordered : node.children.Pairwise fun a b => a.stop ≤ b.start

/-- **A node that was put around a match is true to the text.** -/
theorem Matched.inText (h : Matched g (Cursor.start text.toList) n d node) : node.InText text := by
  obtain ⟨-, c, m, taken, errors, hc, hm, hr, rfl⟩ := h
  have hlaid := hm.laid
  have hstop := isBoundary_of_reaches (hc.trans hm.reaches)
  refine ⟨hm.reaches.offset_le, hstop.le, isBoundary_of_reaches hc, hstop, ?_, hlaid.within,
    hlaid.ordered⟩
  obtain ⟨taken', hr', ho⟩ := hm.reaches
  obtain rfl : taken' = taken := List.append_cancel_right (hr'.symm.trans hr)
  exact slice?_of_reaches hc hr ho

namespace Parser

variable {p : Parser} {parse : Parse} {rules : List Rule} {options : ParserOptions}

/-- A parse from the rule of a name comes of a run of its definition in force. -/
theorem exists_run_of_parseFrom (h : p.parseFrom text start = some parse) :
    ∃ d m progress, p.grammar.find? start = some d ∧
      p.run text.toList d = (some m, progress) ∧
      parse = finish p.options.maxDepth text.toList d m progress := by
  obtain ⟨d, hd, hparse⟩ := Option.bind_eq_some_iff.1 h
  rw [parseDefinition] at hparse
  split at hparse
  · cases hparse
  · rename_i m progress hrun
    exact ⟨d, m, progress, hd, hrun, (Option.some.inj hparse).symm⟩

/-- What a run finds is admitted by the grammar. -/
theorem admits_of_run {chars : List Char} {m : Match} (h : (p.run chars d).1 = some m) :
    Admits p.grammar p.options.maxDepth (body d) (Cursor.start chars) m := by
  change ((body d).run Progress.note _ _ _ _).1 = _ at h
  exact admits_run h nofun

/-- **Every node of a tree was put around a match**, the root of the start rule
and all others of rules that are no fragments, with nothing to report. -/
theorem matched_of_parseFrom (h : p.parseFrom text start = some parse) :
    parse.root.kind = start ∧ parse.root.start = 0 ∧
      ∀ depth node, (depth, node) ∈ parse.root.preorder →
        ∃ n d, depth + n < p.options.maxDepth ∧
          (depth ≠ 0 → d.isFragment = false ∧ node.errors = []) ∧
          Matched p.grammar (Cursor.start text.toList) n d node := by
  obtain ⟨d, m, progress, hd, hrun, rfl⟩ := exists_run_of_parseFrom h
  have hforce := Grammar.find?_eq_some_iff.1 hd
  refine ⟨hforce.name_eq, rfl, fun depth node hnode => ?_⟩
  have hbody := admits_of_run (congrArg Prod.fst hrun)
  obtain ⟨taken, hr, ho⟩ := hbody.reaches
  rw [Node.preorder, Node.listing_eq, List.mem_cons] at hnode
  generalize p.options.maxDepth = limit at hbody
  cases hbody with
  | @body n _ _ _ hm =>
    rcases hnode with hnode | hnode
    · obtain ⟨rfl, rfl⟩ := Prod.mk.inj hnode
      refine ⟨n, d, by omega, by simp, ?_, Cursor.start text.toList, m, taken,
        problems p.options.maxDepth text.toList m.stop progress, .refl _, hm, hr, ?_⟩
      · change p.grammar.InForce d.name d
        rwa [hforce.name_eq]
      · simp only [finish]
        rw [Cursor.upTo_of_rest hr ho]
        rfl
    · obtain ⟨n', d', hn', hd', herrors, hmatched⟩ := hm.matched nofun 1 depth node hnode
      exact ⟨n', d', by omega, fun _ => ⟨hd', herrors⟩, hmatched⟩

/-- **A tree that a parse may have**: of a table, with these options, of a text,
from the rule of a name. -/
structure IsTree (rules : List Rule) (options : ParserOptions) (text start : String)
    (root : Node) : Prop where
  kind_eq : root.kind = start
  start_eq : root.start = 0
  inText : ∀ depth node, (depth, node) ∈ root.preorder → node.InText text
  named : ∀ depth node, (depth, node) ∈ root.preorder → depth ≠ 0 →
    (∃ rule ∈ rules, rule.name = node.kind) ∧ Definition.isFragmentName node.kind = false
  /-- Only the root carries errors. -/
  errors_eq_nil : ∀ depth node, (depth, node) ∈ root.preorder → depth ≠ 0 → node.errors = []
  depth_lt : ∀ depth node, (depth, node) ∈ root.preorder → depth < options.maxDepth

theorem isTree_of_parseFrom (h : (ofRules rules options).parseFrom text start = some parse) :
    IsTree rules options text start parse.root := by
  obtain ⟨hkind, hstart, hall⟩ := matched_of_parseFrom h
  refine ⟨hkind, hstart, fun depth node hnode => ?_, fun depth node hnode hdepth => ?_,
    fun depth node hnode hdepth => ?_, fun depth node hnode => ?_⟩
  · obtain ⟨n, d, -, -, hmatched⟩ := hall depth node hnode
    exact hmatched.inText
  · obtain ⟨n, d, -, hd, hmatched⟩ := hall depth node hnode
    have hname := hmatched.inForce.name_eq
    obtain ⟨rule, hrule, rfl⟩ := List.mem_map.1 hmatched.inForce.mem
    exact ⟨⟨rule, hrule, hname⟩, hname ▸ (hd hdepth).1⟩
  · obtain ⟨n, d, -, hd, -⟩ := hall depth node hnode
    exact (hd hdepth).2
  · obtain ⟨n, d, hn, -⟩ := hall depth node hnode
    exact Nat.lt_of_le_of_lt (Nat.le_add_right _ _) hn

/-- **Every tree is well formed**, from the rule of a name or from the start rule,
whatever the table, the options and the text: the root begins with the text and
has the kind of its rule; every node has the slice between its offsets, with its
children inside it and in order; below the root there are only nodes of rules
that are no fragments, and none of them carries an error; and there are no more
levels than the limit. -/
theorem isTree_of_parse (rules : List Rule) (options : ParserOptions) (text : String) :
    (∀ start parse, (ofRules rules options).parseFrom text start = some parse →
      IsTree rules options text start parse.root) ∧
    ∀ parse, (ofRules rules options).parse text = some parse →
      ∃ start, (ofRules rules options).start? = some start ∧
        IsTree rules options text start parse.root := by
  refine ⟨fun start parse h => isTree_of_parseFrom h, fun parse h => ?_⟩
  obtain ⟨start, hstart, hparse⟩ := Option.bind_eq_some_iff.1 h
  exact ⟨start, hstart, isTree_of_parseFrom hparse⟩

/-- A chain of letters with accents, where each letter is a fragment. -/
def accentTable : List Rule := [⟨"s", [["E", "s"], ["E"]]⟩, ⟨"E", [["\"é\""]]⟩]

/-- A tree of two levels, of a text with wide characters that goes on behind it,
where the limit was reached. -/
theorem isTree_of_parse_cut :
    ∃ parse, (ofRules accentTable ⟨none, 3⟩).parse "ééé" = some parse ∧
      parse.root.stop = 4 ∧ parse.problems.length = 2 ∧ Problem.tooDeep 3 ∈ parse.problems ∧
      IsTree accentTable ⟨none, 3⟩ "ééé" "s" parse.root := by
  obtain ⟨parse, hparse, hstop, hproblems, hlimit⟩ : ∃ parse,
      (ofRules accentTable ⟨none, 3⟩).parse "ééé" = some parse ∧ parse.root.stop = 4 ∧
        parse.problems.length = 2 ∧ Problem.tooDeep 3 ∈ parse.problems :=
    ⟨_, rfl, by decide +kernel, by decide +kernel, by decide +kernel⟩
  obtain ⟨start, hstart, htree⟩ := (isTree_of_parse accentTable ⟨none, 3⟩ "ééé").2 parse hparse
  obtain rfl : "s" = start := Option.some.inj hstart
  exact ⟨parse, hparse, hstop, hproblems, hlimit, htree⟩

end Parser

end OrderedBnf
