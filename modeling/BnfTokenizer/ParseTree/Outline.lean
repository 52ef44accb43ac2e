import BnfTokenizer.ParseTree.Basic
import BnfTokenizer.Text.Escape
import BnfTokenizer.Text.Lines
import BnfTokenizer.Palette

/-!
# A tree as indented lines

One line for each node, a node before its children, two spaces further in for each level below the
start. A line gives the name, on request the span, and for a childless node its value in quotes.
-/

namespace BnfTokenizer.ParseTree

/-- What a line shows, and in which colours. -/
structure LineStyle where
  spans : Bool := false
  values : Bool := true
  palette : Palette := .plain
deriving DecidableEq, Repr

/-- The line of a node, without its line ending. -/
def line (t : ParseTree) (style : LineStyle) (r : Ref) (level : Nat) : String :=
  let p := style.palette
  let span := t.span r
  let name := p.name ++ (t.name r).getD "_" ++ p.reset
  let spanNote :=
    if style.spans then
      " " ++ p.dim ++ "[" ++ toString span.start ++ ".." ++ toString span.stop ++ "]" ++ p.reset
    else ""
  let valueNote :=
    if style.values && t.isLeaf r then " " ++ p.text ++ Text.quoted (t.value r) ++ p.reset else ""
  Text.indent level ++ name ++ spanNote ++ valueNote

/-- The nodes on a stack and all below them with their levels, a node before its children. -/
def levelsFrom (t : ParseTree) : Nat → List (Ref × Nat) → List (Ref × Nat)
  | 0, _ => []
  | _, [] => []
  | fuel + 1, (r, level) :: stack =>
    (r, level) :: levelsFrom t fuel ((t.children r).map (fun c => (c, level + 1)) ++ stack)

/-- The nodes at and below a node, each with its level below that node. -/
def levels (t : ParseTree) (r : Ref) : List (Ref × Nat) :=
  t.levelsFrom (t.visitCount r) [(r, 0)]

/-- The lines of the subtree at a node, each ended by a newline. -/
def outline (t : ParseTree) (r : Ref) (style : LineStyle) : String :=
  String.join ((t.levels r).map fun (r, level) => t.line style r level ++ "\n")

end BnfTokenizer.ParseTree
