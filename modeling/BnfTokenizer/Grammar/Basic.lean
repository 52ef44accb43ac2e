/-!
# Grammar graphs

A grammar is a table of matching nodes. A node is addressed by its place in the table, and its child
edges may name any place, its own ancestors included: that is how recursive rules are written. What a
node matches is its `Kind`, which follows parsing expressions: ordered choice, greedy repetition,
zero-width negation.

A name is a label. It decides how a node is printed and how the parse nodes that it produces are
called, never what it matches. A `reference` is a placeholder for a rule not yet linked; no grammar
that is ready to match reaches one.

An address outside the table stands for `Node.nothing`, a choice without alternatives.
-/

namespace BnfTokenizer

/-- The place of a node in its grammar. -/
abbrev NodeId := Nat

namespace Grammar

/-- What a node matches. -/
inductive Kind where
  /-- Exactly this text. -/
  | literal (text : List Char)
  /-- One character, a member; with `negated`, one that is no member. -/
  | charSet (members : List Char) (negated : Bool)
  /-- One character, from `low` to `high`; with `negated`, one that lies outside. -/
  | charRange (low high : Char) (negated : Bool)
  /-- All parts, one after the other. -/
  | sequence (parts : List NodeId)
  /-- The first alternative that matches. -/
  | choice (alternatives : List NodeId)
  /-- The child as often as it matches, at least once. -/
  | repetition (child : NodeId)
  /-- The child, or nothing where it does not match. -/
  | optional (child : NodeId)
  /-- Nothing, where the child does not match. -/
  | negation (child : NodeId)
  /-- Nothing, at the end of the input. -/
  | endOfInput
  /-- A rule by its name, not yet linked. -/
  | reference (rule : String)
deriving DecidableEq, Repr

namespace Kind

/-- The nodes that this one refers to, in order. -/
def children : Kind → List NodeId
  | sequence ids | choice ids => ids
  | repetition id | optional id | negation id => [id]
  | _ => []

/-- The same kind with each child edge redirected by `f`. -/
def mapChildren (f : NodeId → NodeId) : Kind → Kind
  | sequence ids => sequence (ids.map f)
  | choice ids => choice (ids.map f)
  | repetition id => repetition (f id)
  | optional id => optional (f id)
  | negation id => negation (f id)
  | kind => kind

/-- The same kind with new child edges, given in order; a kind with one child takes the first. -/
def withChildren (kind : Kind) (ids : List NodeId) : Kind :=
  match kind, ids with
  | sequence _, ids => sequence ids
  | choice _, ids => choice ids
  | repetition _, id :: _ => repetition id
  | optional _, id :: _ => optional id
  | negation _, id :: _ => negation id
  | kind, _ => kind

/-- Does a kind that matches a single character take this one? No other kind takes any. -/
def accepts (c : Char) : Kind → Bool
  | charSet members negated => members.contains c != negated
  | charRange low high negated => (decide (low ≤ c) && decide (c ≤ high)) != negated
  | _ => false

def isReference : Kind → Bool
  | reference _ => true
  | _ => false

/-- The kind in one word, for traces. -/
def label : Kind → String
  | literal _ => "Literal"
  | charSet .. => "CharSet"
  | charRange .. => "CharRange"
  | sequence _ => "Sequence"
  | choice _ => "Choice"
  | repetition _ => "Repeat"
  | optional _ => "Optional"
  | negation _ => "Negation"
  | endOfInput => "EndOfInput"
  | reference _ => "Reference"

/-- The kind that matches a text. -/
def exactly (text : String) : Kind :=
  literal text.toList

/-- The kind that matches one of the characters of a text, each listed once, where it first stands. -/
def oneOf (text : String) (negated : Bool) : Kind :=
  charSet text.toList.eraseDups negated

/-- New children are what `children` then lists. -/
theorem children_mapChildren (f : NodeId → NodeId) (kind : Kind) :
    (kind.mapChildren f).children = kind.children.map f := by
  cases kind <;> rfl

/-- As many new edges as there were are what `children` then lists. -/
theorem children_withChildren (kind : Kind) (ids : List NodeId)
    (h : ids.length = kind.children.length) : (kind.withChildren ids).children = ids := by
  match kind, ids, h with
  | sequence _, _, _ => rfl
  | choice _, _, _ => rfl
  | repetition _, [_], _ => rfl
  | optional _, [_], _ => rfl
  | negation _, [_], _ => rfl
  | literal _, [], _ => rfl
  | charSet .., [], _ => rfl
  | charRange .., [], _ => rfl
  | endOfInput, [], _ => rfl
  | reference _, [], _ => rfl

/-- Its own edges change nothing. -/
theorem withChildren_children (kind : Kind) : kind.withChildren kind.children = kind := by
  cases kind <;> rfl

end Kind

/-- A kind, and perhaps a name. -/
structure Node where
  name : Option String := none
  kind : Kind
deriving DecidableEq, Repr

/-- The node that matches nothing. -/
def Node.nothing : Node := ⟨none, .choice []⟩

end Grammar

/-- A table of matching nodes. -/
structure Grammar where
  nodes : Array Grammar.Node := #[]
deriving DecidableEq, Repr

namespace Grammar

/-- The number of nodes. -/
def size (g : Grammar) : Nat :=
  g.nodes.size

/-- The node at an address. -/
def node (g : Grammar) (id : NodeId) : Node :=
  g.nodes.getD id Node.nothing

def kind (g : Grammar) (id : NodeId) : Kind :=
  (g.node id).kind

def name (g : Grammar) (id : NodeId) : Option String :=
  (g.node id).name

def children (g : Grammar) (id : NodeId) : List NodeId :=
  (g.kind id).children

/-- One node more, at the address `g.size`. -/
def push (g : Grammar) (node : Node) : Grammar :=
  ⟨g.nodes.push node⟩

/-- The same table with another kind at one address. -/
def setKind (g : Grammar) (id : NodeId) (kind : Kind) : Grammar :=
  ⟨g.nodes.modify id fun node => { node with kind }⟩

/-- The same table with another name at one address. -/
def setName (g : Grammar) (id : NodeId) (name : String) : Grammar :=
  ⟨g.nodes.modify id fun node => { node with name := some name }⟩

@[simp] theorem size_push (g : Grammar) (node : Node) : (g.push node).size = g.size + 1 :=
  Array.size_push ..

/-- A new node stands at the end of the table. -/
theorem node_push_size (g : Grammar) (node : Node) : (g.push node).node g.size = node := by
  simp [Grammar.node, push, size]

/-- A new node leaves those before it as they are. -/
theorem node_push_of_lt (g : Grammar) (node : Node) {id : NodeId} (h : id < g.size) :
    (g.push node).node id = g.node id := by
  have inside : id < g.nodes.size := h
  simp [Grammar.node, push, Array.getD_eq_getD_getElem?, Array.getElem?_push_lt inside,
    Array.getElem?_eq_getElem inside]

@[simp] theorem size_setKind (g : Grammar) (id : NodeId) (kind : Kind) :
    (g.setKind id kind).size = g.size :=
  Array.size_modify ..

@[simp] theorem size_setName (g : Grammar) (id : NodeId) (name : String) :
    (g.setName id name).size = g.size :=
  Array.size_modify ..

theorem kind_setKind_self (g : Grammar) {id : NodeId} (kind : Kind) (h : id < g.size) :
    (g.setKind id kind).kind id = kind := by
  simp [Grammar.kind, Grammar.node, setKind, Array.getD_eq_getD_getElem?, Array.getElem?_modify,
    Array.getElem?_eq_getElem h]

theorem node_setKind_of_ne (g : Grammar) {id other : NodeId} (kind : Kind) (h : id ≠ other) :
    (g.setKind id kind).node other = g.node other := by
  simp [Grammar.node, setKind, Array.getD_eq_getD_getElem?, Array.getElem?_modify, h]

/-- A new kind leaves all names as they are. -/
theorem name_setKind (g : Grammar) (id : NodeId) (kind : Kind) (other : NodeId) :
    (g.setKind id kind).name other = g.name other := by
  by_cases h : id = other
  · subst h
    by_cases inside : id < g.nodes.size
    · simp [Grammar.name, Grammar.node, setKind, Array.getD_eq_getD_getElem?, Array.getElem?_modify,
        Array.getElem?_eq_getElem inside]
    · simp [Grammar.name, Grammar.node, setKind, Array.getD_eq_getD_getElem?, Array.getElem?_modify,
        Array.getElem?_eq_none (Nat.not_lt.mp inside)]
  · rw [Grammar.name, Grammar.name, node_setKind_of_ne g kind h]

/-- The number of child edges. -/
def edgeCount (g : Grammar) : Nat :=
  (g.nodes.toList.flatMap fun node => node.kind.children).length

/-- Every child edge stays inside the table. -/
def Closed (g : Grammar) : Prop :=
  ∀ node ∈ g.nodes, ∀ id ∈ node.kind.children, id < g.size

end Grammar

end BnfTokenizer
