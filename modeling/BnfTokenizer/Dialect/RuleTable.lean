import BnfTokenizer.Dialect.Error
import BnfTokenizer.Grammar.Basic

/-!
# Rules by name

A rule table tells for each name where in a grammar its body stands, in the order of the definitions. A
body that is a bare placeholder makes its rule an *alias*; a chain of aliases ends in a body that is
something else, in a name that is not defined, or never. `circularChain?` finds the chains that never
end. Where there is none, `resolve` follows a chain to its end.

Linking redirects every edge into a placeholder to the body that the placeholder stands for. It goes
along the edges from the root, so a placeholder that the root does not reach is left alone, and it keeps
track of the rule that it is in, which is what a report of an undefined name needs.

No chain without a repeated name is longer than the table; that is the fuel for following one.
-/

namespace BnfTokenizer.Dialect

/-- Bodies by the name of the rule, in the order of the definitions. -/
structure RuleTable where
  entries : List (String × NodeId) := []
deriving DecidableEq, Repr

namespace RuleTable

/-- The name of the rule that matching starts from. -/
def rootName : String := "root"

def get? (table : RuleTable) (name : String) : Option NodeId :=
  table.entries.lookup name

/-- The name of the rule that has this body. -/
def ruleAt? (table : RuleTable) (id : NodeId) : Option String :=
  (table.entries.find? fun entry => entry.2 == id).map Prod.fst

/-- One rule more, unless the name is taken. -/
def define (table : RuleTable) (name : String) (body : NodeId) : Except CompileError RuleTable :=
  if (table.get? name).isSome then .error (.duplicateRule name)
  else .ok ⟨table.entries ++ [(name, body)]⟩

/-- A table with one rule more knows it at the end. -/
theorem entries_define {table more : RuleTable} {name : String} {body : NodeId}
    (h : table.define name body = .ok more) : more.entries = table.entries ++ [(name, body)] := by
  unfold define at h
  split at h
  · cases h
  · cases h
    rfl

/-! ## Aliases -/

/-- The chain of aliases that goes on from a body, if it comes back to a name; `chain` holds the names so
far, the latest first. -/
def circularFrom? (table : RuleTable) (g : Grammar) : Nat → List String → NodeId → Option (List String)
  | 0, _, _ => none
  | fuel + 1, chain, body =>
    match g.kind body with
    | .reference target =>
      if chain.contains target then some (target :: chain).reverse
      else match table.get? target with
        | some next => circularFrom? table g fuel (target :: chain) next
        | none => none
    | _ => none

/-- The first chain of aliases, by the order of the rules, that comes back to a name. -/
def circularChain? (table : RuleTable) (g : Grammar) : Option (List String) :=
  table.entries.findSome? fun (name, body) =>
    table.circularFrom? g (table.entries.length + 1) [name] body

/-- Refuse aliases that never come to a body. -/
def checkAliases (table : RuleTable) (g : Grammar) : Except CompileError Unit :=
  match table.circularChain? g with
  | some chain => .error (.circularReference chain)
  | none => .ok ()

/-- The body at the end of a chain of aliases. -/
def resolveFrom (table : RuleTable) (g : Grammar) :
    Nat → (name referencedFrom : String) → Except CompileError NodeId
  | 0, name, _ => .error (.circularReference [name])
  | fuel + 1, name, referencedFrom =>
    match table.get? name with
    | none => .error (.undefinedRule name referencedFrom)
    | some body =>
      match g.kind body with
      | .reference target => resolveFrom table g fuel target name
      | _ => .ok body

/-- The body that a name stands for, aliases followed. -/
def resolve (table : RuleTable) (g : Grammar) (name referencedFrom : String) :
    Except CompileError NodeId :=
  table.resolveFrom g (table.entries.length + 1) name referencedFrom

/-- The body that the root rule stands for. -/
def root (table : RuleTable) (g : Grammar) : Except CompileError NodeId :=
  match table.get? rootName with
  | none => .error .missingRoot
  | some body =>
    match g.kind body with
    | .reference target => table.resolve g target rootName
    | _ => .ok body

/-! ## Linking -/

/-- Where an edge leads once placeholders are looked through. -/
def target (table : RuleTable) (g : Grammar) (owner : String) (id : NodeId) :
    Except CompileError NodeId :=
  match g.kind id with
  | .reference name => table.resolve g name owner
  | _ => .ok id

/-- Redirect the edges of the nodes on a stack, and of those that the redirected edges lead to. Each node
comes with the rule that it was reached in. -/
def linkFrom (table : RuleTable) :
    Nat → List (NodeId × String) → Array Bool → Grammar → Except CompileError Grammar
  | 0, _, _, g => .ok g
  | _, [], _, g => .ok g
  | fuel + 1, (id, owner) :: stack, seen, g =>
    if seen.getD id true then linkFrom table fuel stack seen g
    else
      match (g.children id).mapM (table.target g owner) with
      | .error error => .error error
      | .ok targets =>
        let next := targets.map fun t => (t, (table.ruleAt? t).getD owner)
        linkFrom table fuel (next.reverse ++ stack) (seen.setIfInBounds id true)
          (g.setKind id ((g.kind id).withChildren targets))

/-- Redirect every edge into a placeholder, as far as the root reaches. -/
def link (table : RuleTable) (g : Grammar) (root : NodeId) : Except CompileError Grammar :=
  table.linkFrom (g.edgeCount + 1) [(root, (table.ruleAt? root).getD rootName)]
    (Array.replicate g.size false) g

end RuleTable

end BnfTokenizer.Dialect
