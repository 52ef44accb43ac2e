import BnfTokenizer.Grammar.Basic
import BnfTokenizer.Text.Escape

/-!
# The written form of a grammar

`Grammar.dump` writes a grammar as rules, one line each, starting with the root. A node with a name is a
rule of its own and is mentioned by name where it is used; anything else is written out where it
stands. A name that starts with an apostrophe is the label of a literal, not of a rule.

Operators bind in four levels, and an operand is put in parentheses exactly where its own level is
below the one that its place asks for. Rules come in the order in which they are first mentioned, breadth
first, each once.

A cycle that passes no rule has no written form; `written` is cut off there.
-/

namespace BnfTokenizer.Grammar

/-- How tightly a written expression holds together, loosest first. -/
inductive Level where
  | choice
  | sequence
  | unary
  | atom
deriving DecidableEq, Repr

def Level.toNat : Level → Nat
  | choice => 0
  | sequence => 1
  | unary => 2
  | atom => 3

/-- A written expression: its text, its level, and the rules mentioned in it, from left to right. -/
structure Written where
  text : String
  level : Level
  mentions : List NodeId := []
deriving Repr

namespace Written

/-- The text as an operand in a place that asks for a level. -/
def operand (w : Written) (level : Level) : String :=
  if w.level.toNat < level.toNat then "(" ++ w.text ++ ")" else w.text

/-- An operator behind its operand. -/
def postfixed (w : Written) (operator : String) : Written :=
  ⟨w.operand .atom ++ operator, .unary, w.mentions⟩

/-- An operator in front of its operand. -/
def prefixed (w : Written) (operator : String) : Written :=
  ⟨operator ++ w.operand .atom, .unary, w.mentions⟩

/-- Operands with a separator between them. -/
def joined (ws : List Written) (separator : String) (operand own : Level) : Written :=
  ⟨String.intercalate separator (ws.map (·.operand operand)), own, ws.flatMap (·.mentions)⟩

end Written

/-- How a character is written between brackets. -/
def classChar : Char → String
  | ']' => "\\]"
  | '\\' => "\\\\"
  | '-' => "\\-"
  | '^' => "\\^"
  | '\n' => "\\n"
  | '\t' => "\\t"
  | '\r' => "\\r"
  | c => c.toString

/-- A class of characters between brackets. -/
def bracketed (members : String) (negated : Bool) : String :=
  "[" ++ (if negated then "^" else "") ++ members ++ "]"

/-- The name under which a node is mentioned, if it is a rule. -/
def ruleName? (g : Grammar) (id : NodeId) : Option String :=
  (g.name id).filter fun name => name.toList.head? != some '\''

/-- The child of an optional node that is written with `*`: the child of the nameless repetition under
it. -/
def starred? (g : Grammar) (child : NodeId) : Option NodeId :=
  match g.name child, g.kind child with
  | none, .repetition inner => some inner
  | _, _ => none

/-- A node written out, whatever its name; `mention` writes the nodes under it. -/
def writtenKind (g : Grammar) (mention : NodeId → Written) : Kind → Written
  | .literal text => ⟨Text.quoted (String.ofList text), .atom, []⟩
  | .charSet members negated => ⟨bracketed (String.join (members.map classChar)) negated, .atom, []⟩
  | .charRange low high negated =>
    ⟨bracketed (classChar low ++ "-" ++ classChar high) negated, .atom, []⟩
  | .sequence parts => .joined (parts.map mention) " " .unary .sequence
  | .choice alternatives => .joined (alternatives.map mention) " | " .sequence .choice
  | .optional child =>
    match g.starred? child with
    | some inner => (mention inner).postfixed "*"
    | none => (mention child).postfixed "?"
  | .repetition child => (mention child).postfixed "+"
  | .negation child => (mention child).prefixed "!"
  | .endOfInput => ⟨"EOF", .atom, []⟩
  | .reference rule => ⟨rule, .atom, []⟩

/-- A node as it is written where it is used. The fuel bounds how deep nameless nodes are written out. -/
def written (g : Grammar) : Nat → NodeId → Written
  | 0, _ => ⟨"", .atom, []⟩
  | fuel + 1, id =>
    match g.ruleName? id with
    | some name => ⟨name, .atom, [id]⟩
    | none => g.writtenKind (g.written fuel) (g.kind id)

/-- What stands to the right of a rule's name. -/
def body (g : Grammar) (id : NodeId) : Written :=
  g.writtenKind (g.written g.size) (g.kind id)

/-- One line for a rule. -/
def entry (g : Grammar) (id : NodeId) : String :=
  (g.name id).getD "<anonymous>" ++ " ::= " ++ (g.body id).text ++ "\n"

/-- The rules that are written, in order: those waiting in a queue, and those that they mention, less
those already written. -/
def rulesFrom (g : Grammar) : Nat → List NodeId → List NodeId → List NodeId
  | 0, _, _ => []
  | fuel + 1, queue, earlier =>
    match queue.dropWhile earlier.contains with
    | [] => []
    | id :: queue => id :: g.rulesFrom fuel (queue ++ (g.body id).mentions) (id :: earlier)

/-- The rules that are written for a root, in order. -/
def rules (g : Grammar) (root : NodeId) : List NodeId :=
  g.rulesFrom g.size [root] []

/-- The written form of what a root reaches. -/
def dump (g : Grammar) (root : NodeId) : String :=
  String.join ((g.rules root).map g.entry)

end BnfTokenizer.Grammar
