/-!
# Events of a match

What happens while a text is matched, told in the order in which it
happens and without regard to whether the attempt that it belongs to is
given up later. The matcher hands each event to an observer, which may keep
of it what it likes; what is matched does not depend on the observer.
-/

namespace OrderedBnf

/-- Something that happens in the course of a match. -/
inductive Event
  /-- A rule is attempted at an offset. -/
  | enter (rule : String) (offset : Nat)
  /-- The innermost attempt that is still going on ends. -/
  | leave
  /-- A rule is to be attempted at an offset, and no level is left for it. -/
  | tooDeep (rule : String) (offset : Nat)
  /-- A literal, given as written, is not what comes at an offset. -/
  | miss (offset : Nat) (source : String)
  /-- A name is referred to and never defined. -/
  | unresolved (name : String)
deriving DecidableEq, Repr, Inhabited

/-- How a state of an observer changes with an event. -/
abbrev Observer (σ : Type) := σ → Event → σ

/-- The observer that keeps every event, the latest first. -/
def Event.record : Observer (List Event) := fun events event => event :: events

end OrderedBnf
