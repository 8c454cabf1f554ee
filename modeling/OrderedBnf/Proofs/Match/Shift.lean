import OrderedBnf.Proofs.Match.Runs

/-!
# Runs further on in a text

A run looks at the text in front of its cursor. The number of bytes behind it is copied to the
nodes and to the events and otherwise only compared with itself, so a run further on in a text,
with the same in front, is the same run: its nodes and its events are moved by the bytes that
lie between, and nothing else is different (`Runs.shift`).
-/

namespace OrderedBnf

/-! ## Moving by some bytes -/

/-- A cursor with some bytes more behind it. -/
def Cursor.shift (bytes : Nat) (c : Cursor) : Cursor := ⟨c.offset + bytes, c.rest⟩

namespace Node

mutual

/-- A tree that begins some bytes later. -/
def shift (bytes : Nat) : Node → Node
  | ⟨kind, text, start, stop, children, errors⟩ =>
    ⟨kind, text, start + bytes, stop + bytes, shiftAll bytes children, errors⟩

/-- Several trees, all of them later. -/
def shiftAll (bytes : Nat) : List Node → List Node
  | [] => []
  | node :: rest => shift bytes node :: shiftAll bytes rest

end

@[simp] theorem shiftAll_append (bytes : Nat) (nodes later : List Node) :
    shiftAll bytes (nodes ++ later) = shiftAll bytes nodes ++ shiftAll bytes later := by
  induction nodes with
  | nil => rfl
  | cons node nodes ih => simp [shiftAll, ih]

end Node

/-- A match some bytes later. -/
def Match.shift (bytes : Nat) (m : Match) : Match :=
  ⟨m.stop.shift bytes, Node.shiftAll bytes m.nodes⟩

/-- An event, told of a place some bytes later. -/
def Event.shift (bytes : Nat) : Event → Event
  | enter rule offset => enter rule (offset + bytes)
  | leave => leave
  | tooDeep rule offset => tooDeep rule (offset + bytes)
  | miss offset source => miss (offset + bytes) source
  | unresolved name => unresolved name

open Goal

variable {g : Grammar} {n : Nat} {x : Goal} {c c' : Cursor} {o : Option Match}
variable {events : List Event} {d : Definition}

@[simp] theorem Cursor.shift_inj {bytes : Nat} : c.shift bytes = c'.shift bytes ↔ c = c' := by
  cases c
  cases c'
  simp [shift]

theorem Cursor.shift_start (bytes : Nat) (text : List Char) :
    (Cursor.start text).shift bytes = ⟨bytes, text⟩ := by
  simp [start, shift]

/-- The node of a rule is made later with the match that it is made of. -/
theorem Match.shift_wrap (bytes : Nat) (m : Match) (c : Cursor) :
    (m.wrap d c).shift bytes = (m.shift bytes).wrap d (c.shift bytes) := by
  unfold wrap
  split
  · rfl
  · simp [shift, Cursor.shift, Node.shiftAll, Node.shift, Cursor.upTo, Nat.add_sub_add_right]

/-! ## Runs -/

/-- **A run further on in a text is the same run**, told of the places there. -/
theorem Runs.shift (h : Runs g n x c o events) (bytes : Nat) :
    Runs g n x (c.shift bytes) (o.map (Match.shift bytes)) (events.map (Event.shift bytes)) := by
  induction h with
  | literal ht hr ho => exact .literal ht hr (by simp only [Cursor.shift]; omega)
  | noLiteral ht hr => exact .noLiteral (c := Cursor.shift bytes _) ht hr
  | reference ht hd _ ih => exact .reference ht hd ih
  | unresolved ht hd => exact .unresolved ht hd
  | loopStop _ ih =>
    rw [Matcher.map_verdict]
    exact ih.loopStop
  | loopEmpty _ hstop ih =>
    rw [Matcher.map_verdict]
    exact ih.loopEmpty (Cursor.shift_inj.2 hstop)
  | loopMore _ hstop _ ih ihlater =>
    simpa [Match.shift, Function.comp_def] using
      ih.loopMore (fun heq => hstop (Cursor.shift_inj.1 heq)) ihlater
  | once ht _ ih => exact .once ht ih
  | optional ht _ ih => exact .optional ht ih
  | noOptional ht _ ih => exact .noOptional ht ih
  | zeroOrMore ht _ ih => exact .zeroOrMore ht ih
  | oneOrMore ht _ ih => exact .oneOrMore ht ih
  | nil => exact .nil
  | cons _ _ ih ihlater => simpa [Match.shift] using ih.cons ihlater
  | consFirst _ ih => exact ih.consFirst
  | consLater _ _ ih ihlater => simpa using ih.consLater ihlater
  | noChoice => exact .noChoice
  | first _ ih => exact ih.first
  | later _ _ ih ihlater => simpa using ih.later ihlater
  | tooDeep => exact .tooDeep
  | body _ ih => simpa [Event.shift, Cursor.shift] using ih.body
  | noRule _ ih => exact ih.noRule
  | rule _ ih =>
    rw [Option.map_some, Match.shift_wrap]
    exact ih.rule

end OrderedBnf
