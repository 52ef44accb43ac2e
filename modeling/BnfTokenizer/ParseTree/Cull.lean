import BnfTokenizer.ParseTree.Edit

/-!
# Culling

A filter names a kind of node and says what becomes of it. Culling below a node goes through its
children from left to right, each time the part below a child first and then the child itself, and the
first filter that matches decides. The node at the top is left alone.
-/

namespace BnfTokenizer.ParseTree

/-- What becomes of a node. -/
inductive Strategy where
  /-- It stays; later filters do not see it. -/
  | keep
  /-- It goes, with everything below it. -/
  | delete
  /-- It goes, and its children take its place. -/
  | lift
deriving DecidableEq, Repr

/-- Which nodes a filter is about. -/
inductive Predicate where
  /-- Nodes with one of these names. -/
  | named (names : List String)
  /-- Nodes without a name. -/
  | unnamed
  /-- Nodes that matched no text. -/
  | empty
deriving DecidableEq, Repr

/-- A kind of node and what becomes of it. -/
structure Filter where
  predicate : Predicate
  strategy : Strategy
deriving DecidableEq, Repr

/-- Is a node with this name and span one that the predicate is about? -/
def Predicate.holds (name : Option String) (span : Span) : Predicate → Bool
  | named names => name.any names.contains
  | unnamed => name.isNone
  | empty => span.isEmpty

namespace Filter

def matchesAt (filter : Filter) (t : ParseTree) (r : Ref) : Bool :=
  filter.predicate.holds (t.name r) (t.span r)

/-- Nodes that matched no text go. -/
def removeEmpty : Filter := ⟨.empty, .delete⟩

/-- What the first filter that matches a node says, or that it stays. -/
def strategyAt (filters : List Filter) (t : ParseTree) (r : Ref) : Strategy :=
  ((filters.find? fun filter => filter.matchesAt t r).map Filter.strategy).getD .keep

end Filter

/-- One node dealt with. -/
def apply (t : ParseTree) (r : Ref) : Strategy → ParseTree
  | .keep => t
  | .delete => t.remove r
  | .lift => t.lift r

/-- Culling below a node, down to a depth. -/
def cullFrom (filters : List Filter) : Nat → ParseTree → Ref → ParseTree
  | 0, t, _ => t
  | depth + 1, t, r =>
    (t.children r).foldl
      (fun t child =>
        let below := cullFrom filters depth t child
        below.apply child (Filter.strategyAt filters below child))
      t

/-- Culling below a node. -/
def cull (t : ParseTree) (r : Ref) (filters : List Filter) : ParseTree :=
  cullFrom filters t.size t r

end BnfTokenizer.ParseTree
