import BnfTokenizer.ParseTree.Basic
import BnfTokenizer.Json.Basic

/-!
# A subtree on its own

A `View` is a subtree without its table: a plain tree of names, values, spans and children. It is what a
reader of a tree sees who cannot edit it, and what is written out as JSON. In JSON a missing name and an
empty list of children are left out; the other fields are always there, in a fixed order.
-/

namespace BnfTokenizer.ParseTree

/-- A subtree as a plain tree. -/
inductive View where
  | node (name : Option String) (value : String) (span : Span) (children : List View)

namespace View

def name : View → Option String
  | node name _ _ _ => name

def value : View → String
  | node _ value _ _ => value

def span : View → Span
  | node _ _ span _ => span

def children : View → List View
  | node _ _ _ children => children

/-- The first child that has a name. -/
def childByName (v : View) (name : String) : Option View :=
  v.children.find? fun c => c.name == some name

mutual

/-- A subtree as a JSON record. -/
def toJson : View → Json
  | node name value span children =>
    .record <|
      (match name with
        | some name => [("name", .text name)]
        | none => []) ++
      [("value", .text value), ("start", .count span.start), ("end", .count span.stop)] ++
      (match children with
        | [] => []
        | children => [("children", .list (listToJson children))])

def listToJson : List View → List Json
  | [] => []
  | v :: vs => v.toJson :: listToJson vs

end

end View

/-- The subtree at a node, down to a depth. -/
def viewFrom (t : ParseTree) : Nat → Ref → View
  | 0, r => .node (t.name r) (t.value r) (t.span r) []
  | depth + 1, r => .node (t.name r) (t.value r) (t.span r) ((t.children r).map (viewFrom t depth))

/-- The subtree at a node. -/
def view (t : ParseTree) (r : Ref) : View :=
  t.viewFrom t.size r

/-- The subtree at a node as JSON text. -/
def json (t : ParseTree) (r : Ref) (pretty : Bool) : String :=
  let json := (t.view r).toJson
  if pretty then json.pretty else json.compact

end BnfTokenizer.ParseTree
