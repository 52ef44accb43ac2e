import BnfTokenizer.Grammar.Basic

/-!
# What a root reaches

`Grammar.walk` searches depth first from a root, and everything that is said of "the grammar from its
root" goes through it. A node is visited when it is taken from the stack, not when it is put there, so
the stack may hold a node twice; the second time it is dropped. Children go onto the stack in front,
the first one on top, which makes the order of visits a pre-order, left to right.

Each visit carries a label inherited from the node it was reached from. `reachable` forgets it;
`owners` uses it to find the nearest named node above.

The fuel is one more than the number of child edges. A node puts its children on the stack once, so no
search takes more steps than that.
-/

namespace BnfTokenizer.Grammar

/-- Depth-first visits from the nodes on a stack, each with its label. `inherit id a` is the label of
`id` when it is reached with `a`, and `seen` tells the nodes already visited. -/
def walkFrom {α : Type} (g : Grammar) (inherit : NodeId → α → α) :
    Nat → List (NodeId × α) → Array Bool → List (NodeId × α)
  | 0, _, _ => []
  | _, [], _ => []
  | fuel + 1, (id, inherited) :: stack, seen =>
    if seen.getD id true then
      walkFrom g inherit fuel stack seen
    else
      let own := inherit id inherited
      let next := (g.children id).map fun child => (child, own)
      (id, own) :: walkFrom g inherit fuel (next ++ stack) (seen.setIfInBounds id true)

/-- Depth-first visits from a root. -/
def walk {α : Type} (g : Grammar) (inherit : NodeId → α → α) (root : NodeId) (start : α) :
    List (NodeId × α) :=
  g.walkFrom inherit (g.edgeCount + 1) [(root, start)] (Array.replicate g.size false)

/-- The nodes that a root reaches, each once, in depth-first pre-order. -/
def reachable (g : Grammar) (root : NodeId) : List NodeId :=
  (g.walk (fun _ _ => ()) root ()).map Prod.fst

/-- For each node that a root reaches, the name of the nearest named node at or above it on the way of
the first visit. -/
def owners (g : Grammar) (root : NodeId) : List (NodeId × Option String) :=
  g.walk (fun id inherited => (g.name id).or inherited) root none

/-- What a nameless place is called in messages. -/
def anonymous : String := "<anonymous>"

/-- The name of the rule that a node belongs to. -/
def owner (g : Grammar) (root id : NodeId) : String :=
  (((g.owners root).lookup id).join).getD anonymous

end BnfTokenizer.Grammar
