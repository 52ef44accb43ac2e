import BnfTokenizer.Grammar.Nullable

/-!
# Grammars on which matching ends

A matcher with backtracking can run forever in two ways: in a repetition whose child matches nothing,
and in a cycle of nodes that enters itself again where it started. `Grammar.defect?` finds both, and
placeholders that were never linked, before any input is seen. The order is fixed: a placeholder is
reported first, then a repetition, then a cycle.

A node is *entered* from another when matching can come to it without having consumed anything:
`entries` lists those edges. The search for a cycle colours nodes: one is `active` while the search is
below it, and `done` when all below it was found free of cycles.

A report names rules, not nodes. `cycleNames` is what it says of a cycle: the names found on it, and
where these are fewer than two, the rule that owns the cycle, twice.
-/

namespace BnfTokenizer

/-- Why a grammar cannot be used for matching. -/
inductive Grammar.Defect where
  /-- A repetition whose child can match nothing. -/
  | nullableRepetition (rule : String)
  /-- Rules that come back to the first one without consuming anything. -/
  | leftRecursion (chain : List String)
  /-- A placeholder for a rule that was never linked. -/
  | unresolvedReference (rule : String)
deriving DecidableEq, Repr

namespace Grammar

def Defect.message : Defect → String
  | nullableRepetition rule => "repetition in `" ++ rule ++ "` can match empty input"
  | leftRecursion chain => "left recursion: " ++ String.intercalate " -> " chain
  | unresolvedReference rule => "unresolved reference to `" ++ rule ++ "`"

/-! ## Placeholders and repetitions -/

/-- The rule that a node stands for, if it is a placeholder. -/
def referenceAt? (g : Grammar) (id : NodeId) : Option String :=
  match g.kind id with
  | .reference rule => some rule
  | _ => none

/-- Is this node a repetition of something that can match nothing? -/
def repeatsNothing (g : Grammar) (marks : Array Bool) (id : NodeId) : Bool :=
  match g.kind id with
  | .repetition child => marks.getD child false
  | _ => false

/-! ## Cycles of entries -/

/-- Parts of a sequence, up to and including the first that must consume something. -/
def leadingParts (marks : Array Bool) : List NodeId → List NodeId
  | [] => []
  | id :: ids => id :: if marks.getD id false then leadingParts marks ids else []

/-- The children that a node may enter at its own start. -/
def entries (g : Grammar) (marks : Array Bool) (id : NodeId) : List NodeId :=
  match g.kind id with
  | .sequence parts => leadingParts marks parts
  | kind => kind.children

/-- How far the search for a cycle has come with a node. -/
inductive Mark where
  | fresh
  | active
  | done
deriving DecidableEq, Repr

/-- What a search below a node gives: a cycle, or the marks it leaves. -/
abbrev CycleSearch := Except (List NodeId) (Array Mark)

/-- Searches below several nodes, one after the other, until one finds a cycle. -/
def searchEach (search : NodeId → Array Mark → CycleSearch) :
    List NodeId → Array Mark → CycleSearch
  | [], marks => .ok marks
  | id :: ids, marks =>
    match search id marks with
    | .ok marks => searchEach search ids marks
    | .error cycle => .error cycle

/-- Searches below a node that was entered along `path`, the nearest node first. Only active nodes are
on the path, so no search goes deeper than the number of nodes. -/
def searchCycle (g : Grammar) (nullable : Array Bool) :
    Nat → List NodeId → NodeId → Array Mark → CycleSearch
  | 0, _, _, marks => .ok marks
  | fuel + 1, path, id, marks =>
    match marks.getD id .done with
    | .done => .ok marks
    | .active => .error ((id :: path.takeWhile (· != id) ++ [id]).reverse)
    | .fresh =>
      let below := g.searchCycle nullable fuel (id :: path)
      match searchEach below (g.entries nullable id) (marks.setIfInBounds id .active) with
      | .ok marks => .ok (marks.setIfInBounds id .done)
      | .error cycle => .error cycle

/-- The first cycle of entries among the listed nodes. It ends with the node that it starts with. -/
def leftCycle? (g : Grammar) (ids : List NodeId) (nullable : Array Bool) : Option (List NodeId) :=
  match searchEach (g.searchCycle nullable (g.size + 1) []) ids (Array.replicate g.size .fresh) with
  | .ok _ => none
  | .error cycle => some cycle

/-- What a report says of a cycle. -/
def cycleNames (g : Grammar) (root : NodeId) (cycle : List NodeId) : List String :=
  let names := cycle.filterMap g.name
  if names.length < 2 then
    let rule := g.owner root (cycle.headD root)
    [rule, rule]
  else
    names

/-! ## The check -/

/-- The first defect of what a root reaches. -/
def defect? (g : Grammar) (root : NodeId) : Option Defect :=
  let ids := g.reachable root
  match ids.findSome? g.referenceAt? with
  | some rule => some (.unresolvedReference rule)
  | none =>
    let nullable := g.nullable ids
    match ids.find? (g.repeatsNothing nullable) with
    | some id => some (.nullableRepetition (g.owner root id))
    | none => (g.leftCycle? ids nullable).map fun cycle => .leftRecursion (g.cycleNames root cycle)

end Grammar

end BnfTokenizer
