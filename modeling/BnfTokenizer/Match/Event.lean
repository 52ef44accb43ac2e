import BnfTokenizer.Grammar.Basic

/-!
# Events of a match

A match tells a tracer what it does, and a tracer is a fold: from an event and what it has gathered, what
it has gathered then. It answers nothing, so it cannot steer the match. Every `enter` is closed by one
`success` or `failure` of the same node, unless the match is stopped in between.
-/

namespace BnfTokenizer.Match

/-- One step of a match. -/
inductive Event where
  /-- A node is about to be tried. -/
  | enter (node : NodeId) (position : Nat)
  /-- It matched the text between two offsets. -/
  | success (node : NodeId) (start stop : Nat)
  /-- It did not match. -/
  | failure (node : NodeId) (position : Nat)
  /-- A choice goes on to its next alternative. -/
  | backtrack (choice : NodeId) (position : Nat)
deriving DecidableEq, Repr

/-- What becomes of the gathered `σ` at an event. -/
abbrev Tracer (σ : Type) := Event → σ → σ

namespace Tracer

/-- Gathers nothing. -/
def silent : Tracer Unit :=
  fun _ _ => ()

/-- Gathers the events themselves, the latest first. -/
def log : Tracer (List Event) :=
  List.cons

end Tracer

end BnfTokenizer.Match
