import BnfTokenizer.Grammar.Basic
import BnfTokenizer.Text.Position

/-!
# Trees of matched text

A parse tree keeps its nodes in one table and addresses them by place. A node lists its children and
names its parent, so a node can be cut out, spliced or moved without changing the address of any other
node. What is cut out stays in the table as a tree of its own: the table is a forest, and `root` tells
which of its trees is *the* tree.

A node covers a span of the source. Its value is the text of that span, unless a value was written over
it. `origin` is the grammar node that it was matched by, and `payload` a grammar node that it was given
later.

An address outside the table stands for `Node.blank`, a node without children.
-/

namespace BnfTokenizer

/-- The byte offsets between which a node matched. -/
structure Span where
  start : Nat
  stop : Nat
deriving DecidableEq, Repr

namespace Span

def length (span : Span) : Nat :=
  span.stop - span.start

def isEmpty (span : Span) : Bool :=
  span.start == span.stop

end Span

namespace ParseTree

/-- The place of a node in its tree's table. -/
abbrev Ref := Nat

/-- A node with its links to the nodes around it. -/
structure Node where
  origin : NodeId
  name : Option String
  span : Span
  /-- The value written over the matched text. -/
  value : Option String := none
  children : List Ref := []
  parent : Option Ref := none
  payload : Option NodeId := none
deriving DecidableEq, Repr

/-- The node that stands for an address outside the table. -/
def Node.blank : Node := ⟨0, none, ⟨0, 0⟩, none, [], none, none⟩

end ParseTree

/-- A forest over one source text, with one tree marked as the tree. -/
structure ParseTree where
  source : List Char
  nodes : Array ParseTree.Node
  root : ParseTree.Ref
deriving DecidableEq, Repr

namespace ParseTree

/-- The number of nodes in the table, in the tree or cut out of it. -/
def size (t : ParseTree) : Nat :=
  t.nodes.size

def node (t : ParseTree) (r : Ref) : Node :=
  t.nodes.getD r Node.blank

def name (t : ParseTree) (r : Ref) : Option String :=
  (t.node r).name

def span (t : ParseTree) (r : Ref) : Span :=
  (t.node r).span

def children (t : ParseTree) (r : Ref) : List Ref :=
  (t.node r).children

def parent (t : ParseTree) (r : Ref) : Option Ref :=
  (t.node r).parent

def origin (t : ParseTree) (r : Ref) : NodeId :=
  (t.node r).origin

def payload (t : ParseTree) (r : Ref) : Option NodeId :=
  (t.node r).payload

/-- The value written over a node, or the text that it matched. -/
def value (t : ParseTree) (r : Ref) : String :=
  (t.node r).value.getD (String.ofList (Text.slice t.source (t.span r).start (t.span r).stop))

def isLeaf (t : ParseTree) (r : Ref) : Bool :=
  (t.children r).isEmpty

/-- The number of visits that a search makes at and below a node, down to a depth. -/
def visitCountFrom (t : ParseTree) : Nat → Ref → Nat
  | 0, _ => 1
  | depth + 1, r => (t.children r).foldl (fun count child => count + visitCountFrom t depth child) 1

/-- The number of visits that a search makes at and below a node: one for the node, and those for each of
its children. No chain of children is longer than the table. -/
def visitCount (t : ParseTree) (r : Ref) : Nat :=
  t.visitCountFrom t.size r

/-- The topmost node above `r`, following parents as far as the fuel lasts. -/
def topFrom (t : ParseTree) : Nat → Ref → Ref
  | 0, r => r
  | fuel + 1, r =>
    match t.parent r with
    | some p => topFrom t fuel p
    | none => r

/-- The topmost node of the tree that `r` is in. No chain of parents is longer than the table. -/
def top (t : ParseTree) (r : Ref) : Ref :=
  t.topFrom t.size r

/-- Is the node still in the tree, and not in a part that was cut out? -/
def isAttached (t : ParseTree) (r : Ref) : Bool :=
  t.top r == t.root

/-- The same tree with one entry of the table changed. -/
def modify (t : ParseTree) (r : Ref) (f : Node → Node) : ParseTree :=
  { t with nodes := t.nodes.modify r f }

@[simp] theorem size_modify (t : ParseTree) (r : Ref) (f : Node → Node) : (t.modify r f).size = t.size :=
  Array.size_modify ..

@[simp] theorem root_modify (t : ParseTree) (r : Ref) (f : Node → Node) : (t.modify r f).root = t.root :=
  rfl

@[simp] theorem source_modify (t : ParseTree) (r : Ref) (f : Node → Node) :
    (t.modify r f).source = t.source :=
  rfl

theorem node_modify_self (t : ParseTree) {r : Ref} (f : Node → Node) (h : r < t.size) :
    (t.modify r f).node r = f (t.node r) := by
  have inside : r < t.nodes.size := h
  simp [node, modify, Array.getD_eq_getD_getElem?, Array.getElem?_modify, Array.getElem?_eq_getElem inside]

theorem node_modify_of_ne (t : ParseTree) {r other : Ref} (f : Node → Node) (h : r ≠ other) :
    (t.modify r f).node other = t.node other := by
  simp [node, modify, Array.getD_eq_getD_getElem?, Array.getElem?_modify, h]

/-- An address outside the table stands for the blank node. -/
theorem node_of_size_le (t : ParseTree) {r : Ref} (h : t.size ≤ r) : t.node r = Node.blank := by
  have outside : t.nodes.size ≤ r := h
  simp [node, Array.getD_eq_getD_getElem?, Array.getElem?_eq_none outside]

/-- What a change of one entry keeps everywhere it keeps at each address. -/
theorem node_modify_congr {α : Type} (t : ParseTree) (r : Ref) (f : Node → Node) (read : Node → α)
    (h : ∀ node, read (f node) = read node) (other : Ref) :
    read ((t.modify r f).node other) = read (t.node other) := by
  by_cases same : r = other
  · subst same
    by_cases inside : r < t.size
    · rw [node_modify_self t f inside, h]
    · have outside := Nat.not_lt.mp inside
      rw [node_of_size_le t outside, node_of_size_le (t.modify r f) ((size_modify t r f).symm ▸ outside)]
  · rw [node_modify_of_ne t f same]

end ParseTree

end BnfTokenizer
