import BnfTokenizer.ParseTree.Basic

/-!
# Building a tree bottom up

A `Builder` is the table of a tree that is still being matched. Children are pushed before their
parent, so the nodes of an attempt stand at the end of the table, and giving up the attempt means
cutting the table back to the length that it had before.
-/

namespace BnfTokenizer.ParseTree

/-- The nodes pushed so far. -/
structure Builder where
  nodes : Array Node := #[]
deriving DecidableEq, Repr

namespace Builder

/-- The length of the table, which is also the address of the next node. -/
def size (b : Builder) : Nat :=
  b.nodes.size

/-- Only the first `size` nodes. -/
def truncate (b : Builder) (size : Nat) : Builder :=
  ⟨b.nodes.shrink size⟩

/-- One node more, at the address `b.size`, above nodes pushed before. -/
def interior (b : Builder) (origin : NodeId) (name : Option String) (span : Span)
    (children : List Ref) : Builder :=
  let here := b.size
  let adopted := children.foldl
    (fun nodes child => nodes.modify child fun node => { node with parent := some here }) b.nodes
  ⟨adopted.push ⟨origin, name, span, none, children, none, none⟩⟩

/-- One node more, at the address `b.size`, without children. -/
def leaf (b : Builder) (origin : NodeId) (name : Option String) (span : Span) : Builder :=
  b.interior origin name span []

@[simp] theorem size_truncate (b : Builder) (size : Nat) : (b.truncate size).size = min size b.size := by
  simp [Builder.size, truncate]

theorem size_foldl_modify (f : Node → Node) (children : List Ref) (nodes : Array Node) :
    (children.foldl (fun nodes child => nodes.modify child f) nodes).size = nodes.size := by
  induction children generalizing nodes with
  | nil => rfl
  | cons child children ih => simp [ih]

@[simp] theorem size_interior (b : Builder) (origin : NodeId) (name : Option String) (span : Span)
    (children : List Ref) : (b.interior origin name span children).size = b.size + 1 := by
  simp only [Builder.size, interior, Array.size_push, size_foldl_modify]

@[simp] theorem size_leaf (b : Builder) (origin : NodeId) (name : Option String) (span : Span) :
    (b.leaf origin name span).size = b.size + 1 :=
  size_interior ..

/-- A name for a node that has none. -/
def inheritName (b : Builder) (r : Ref) (name : Option String) : Builder :=
  ⟨b.nodes.modify r fun node => { node with name := node.name.or name }⟩

@[simp] theorem size_inheritName (b : Builder) (r : Ref) (name : Option String) :
    (b.inheritName r name).size = b.size :=
  Array.size_modify ..

/-- The finished tree. -/
def finish (b : Builder) (source : List Char) (root : Ref) : ParseTree :=
  ⟨source, b.nodes, root⟩

end Builder

end BnfTokenizer.ParseTree
