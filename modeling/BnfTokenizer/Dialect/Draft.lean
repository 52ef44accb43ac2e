import BnfTokenizer.Grammar.Basic

/-!
# A grammar under way

A draft is a grammar that nodes are added to, one behind the other, together with the placeholders in it. All
mentions of a rule share one placeholder; every other node that is asked for is a new one. So a node can be
given only children that stand before it.

A text that is not empty gets a name of its own, its characters behind an apostrophe, so that it stays visible
in parse trees. A sequence and a choice of one are that one.
-/

namespace BnfTokenizer.Dialect

open Grammar (Kind)

/-- A grammar, and where in it the placeholders are, in the order of the first mention. -/
structure Draft where
  grammar : Grammar := {}
  placeholders : List (String × NodeId) := []
deriving DecidableEq, Repr

namespace Draft

/-- One node more, and its address. -/
def add (d : Draft) (kind : Kind) : Draft × NodeId :=
  ({ d with grammar := d.grammar.push ⟨none, kind⟩ }, d.grammar.size)

/-- A name for a node. -/
def named (d : Draft) (id : NodeId) (name : String) : Draft :=
  { d with grammar := d.grammar.setName id name }

/-- A text, under the name that it has of its own. -/
def addLiteral (d : Draft) (text : String) : Draft × NodeId :=
  let (d, id) := d.add (.exactly text)
  (if text.isEmpty then d else d.named id ("'" ++ text), id)

/-- The placeholder for a rule: the one that there is, or a new one. -/
def placeholder (d : Draft) (name : String) : Draft × NodeId :=
  match d.placeholders.lookup name with
  | some id => (d, id)
  | none =>
    let (more, id) := d.add (.reference name)
    ({ more with placeholders := more.placeholders ++ [(name, id)] }, id)

/-- A node under the repetition mark behind it. -/
def repeated (d : Draft) (id : NodeId) : Option String → Draft × NodeId
  | some "+" => d.add (.repetition id)
  | some "*" =>
    let (d, many) := d.add (.repetition id)
    d.add (.optional many)
  | some "?" => d.add (.optional id)
  | _ => (d, id)

/-- A node under the marks around it. The repetition mark binds tighter than the `!` in front. -/
def marked (d : Draft) (id : NodeId) (modifier : Option String) (negated : Bool) : Draft × NodeId :=
  let (d, id) := d.repeated id modifier
  if negated then d.add (.negation id) else (d, id)

/-- Nodes in a row. -/
def addSequence (d : Draft) : List NodeId → Draft × NodeId
  | [single] => (d, single)
  | parts => d.add (.sequence parts)

/-- Rows of nodes, one after the other. -/
def addSequences (d : Draft) : List (List NodeId) → Draft × List NodeId
  | [] => (d, [])
  | parts :: groups =>
    let (d, id) := d.addSequence parts
    let (d, ids) := addSequences d groups
    (d, id :: ids)

/-- Nodes to choose from. -/
def addChoice (d : Draft) : List NodeId → Draft × NodeId
  | [single] => (d, single)
  | alternatives => d.add (.choice alternatives)

/-- Rows of nodes to choose from. -/
def addAlternatives (d : Draft) (groups : List (List NodeId)) : Draft × NodeId :=
  let (d, alternatives) := d.addSequences groups
  d.addChoice alternatives

/-- A body called after its rule, unless it is a bare placeholder. -/
def calledAfter (d : Draft) (body : NodeId) (rule : String) : Draft :=
  if (d.grammar.kind body).isReference then d else d.named body rule

end Draft

end BnfTokenizer.Dialect
