import BnfTokenizer.Match.Basic
import BnfTokenizer.Match.Event

/-!
# Matching with backtracking

One definition decides everything about a match: `visit`. It spends a unit of fuel, goes one level
deeper, and does what the kind of the node asks for, visiting children in turn. A visit that fails cuts
the table of nodes back to where it was, so that

> nothing that was tried and given up is left in the tree

and a stop passes through every kind unchanged. All that a match carries from visit to visit is in
`Progress`: the fuel left, the furthest failure, the nodes, and what the tracer has gathered.

Only a terminal can fail at a place of its own, and only outside negation does that place count: inside,
a failure is what the grammar asks for.

The recursion is on the levels left. The functions for each kind take the visit of a child as an argument,
so what they keep is a fact about any visit that keeps it.
-/

namespace BnfTokenizer.Match

open ParseTree (Ref Builder)

/-- What a match carries from visit to visit. -/
structure Progress (σ : Type) where
  /-- The number of visits left. -/
  fuel : Nat
  /-- The furthest place where a terminal failed, and never before the start. -/
  furthest : Nat
  nodes : Builder
  /-- What the tracer has gathered. -/
  trace : σ

/-- The end of a visit: the node that it pushed and the place behind it, and the progress made. -/
abbrev Attempt (σ : Type) := Verdict (Ref × Cursor) × Progress σ

/-- The end of several visits in a row: the nodes that they pushed and the place behind the last. -/
abbrev Attempts (σ : Type) := Verdict (List Ref × Cursor) × Progress σ

/-- How a child is visited. -/
abbrev Visit (σ : Type) := NodeId → Cursor → Progress σ → Attempt σ

namespace Progress

variable {σ : Type}

def record (p : Progress σ) (tracer : Tracer σ) (event : Event) : Progress σ :=
  { p with trace := tracer event p.trace }

def spend (p : Progress σ) : Progress σ :=
  { p with fuel := p.fuel - 1 }

/-- Give up all nodes but the first `size`. -/
def truncate (p : Progress σ) (size : Nat) : Progress σ :=
  { p with nodes := p.nodes.truncate size }

/-- A terminal failed here, inside as many negations as `lookahead` says. -/
def miss (p : Progress σ) (lookahead : Nat) (here : Cursor) : Attempt σ :=
  (.failed, if lookahead = 0 then { p with furthest := max p.furthest here.offset } else p)

/-- A node matched from `here` up to `stop`, over the nodes of its children. -/
def interior (p : Progress σ) (g : Grammar) (id : NodeId) (here stop : Cursor) (children : List Ref) :
    Attempt σ :=
  let r := p.nodes.size
  (.matched (r, stop),
    { p with nodes := p.nodes.interior id (g.name id) ⟨here.offset, stop.offset⟩ children })

/-- A node matched from `here` up to `stop`, and has no children. -/
def leaf (p : Progress σ) (g : Grammar) (id : NodeId) (here stop : Cursor) : Attempt σ :=
  p.interior g id here stop []

/-- A terminal was tried: it ends at `stop?`, or failed. -/
def terminal (p : Progress σ) (g : Grammar) (id : NodeId) (lookahead : Nat) (here : Cursor)
    (stop? : Option Cursor) : Attempt σ :=
  match stop? with
  | some stop => p.leaf g id here stop
  | none => p.miss lookahead here

end Progress

section

variable {σ : Type}

/-! ## Visits in a row -/

/-- All of some nodes, each where the one before it ended. -/
def inSequence (visit : Visit σ) : List NodeId → Cursor → Progress σ → Attempts σ
  | [], here, p => (.matched ([], here), p)
  | id :: ids, here, p =>
    match visit id here p with
    | (.matched (r, next), p) =>
      match inSequence visit ids next p with
      | (.matched (rs, stop), p) => (.matched (r :: rs, stop), p)
      | (.failed, p) => (.failed, p)
      | (.stopped fault, p) => (.stopped fault, p)
    | (.failed, p) => (.failed, p)
    | (.stopped fault, p) => (.stopped fault, p)

/-- The first of some alternatives that matches here. It is told to the tracer when a choice goes on to
another one, and the node that is found takes the name of the choice if it has none. -/
def firstOf (visit : Visit σ) (tracer : Tracer σ) (choice : NodeId) (name : Option String) :
    List NodeId → Cursor → Progress σ → Attempt σ
  | [], _, p => (.failed, p)
  | id :: ids, here, p =>
    match visit id here p with
    | (.matched (r, stop), p) => (.matched (r, stop), { p with nodes := p.nodes.inheritName r name })
    | (.failed, p) =>
      firstOf visit tracer choice name ids here <|
        if ids.isEmpty then p else p.record tracer (.backtrack choice here.offset)
    | (.stopped fault, p) => (.stopped fault, p)

/-- One node as often as it matches, each time where it ended before. Every round spends fuel, so the
fuel left at the start is a bound on the rounds. -/
def greedily (visit : Visit σ) (id : NodeId) :
    Nat → List Ref → Cursor → Progress σ → Attempts σ
  | 0, _, _, p => (.stopped .fuelExhausted, p)
  | rounds + 1, earlier, here, p =>
    match visit id here p with
    | (.matched (r, next), p) =>
      if next.offset = here.offset then (.stopped (.idleRepetition here.offset), p)
      else greedily visit id rounds (r :: earlier) next p
    | (.failed, p) => (.matched (earlier.reverse, here), p)
    | (.stopped fault, p) => (.stopped fault, p)

/-! ## Kinds -/

/-- A node that stands over those of its children, when these have matched. -/
def standing (g : Grammar) (id : NodeId) (here : Cursor) : Attempts σ → Attempt σ
  | (.matched (rs, stop), p) => p.interior g id here stop rs
  | (.failed, p) => (.failed, p)
  | (.stopped fault, p) => (.stopped fault, p)

/-- A repetition, when it can go no further: it fails if it has not matched once. -/
def overSome (g : Grammar) (id : NodeId) (here : Cursor) : Attempts σ → Attempt σ
  | (.matched ([], _), p) => (.failed, p)
  | attempts => standing g id here attempts

/-- An optional node, when its child was tried. -/
def overOptional (g : Grammar) (id : NodeId) (here : Cursor) : Attempt σ → Attempt σ
  | (.matched (r, stop), p) => p.interior g id here stop [r]
  | (.failed, p) => p.interior g id here here []
  | (.stopped fault, p) => (.stopped fault, p)

/-- A negation, when its child was tried: the nodes of the child are given up either way. -/
def overNegation (g : Grammar) (id : NodeId) (here : Cursor) (size : Nat) : Attempt σ → Attempt σ
  | (.matched _, p) => (.failed, p.truncate size)
  | (.failed, p) => (p.truncate size).leaf g id here here
  | (.stopped fault, p) => (.stopped fault, p.truncate size)

/-- What a visit to a node does, by its kind. `visit lookahead` visits a child inside that many
negations. -/
def attempt (g : Grammar) (tracer : Tracer σ) (visit : Nat → Visit σ) (lookahead : Nat)
    (id : NodeId) (here : Cursor) (p : Progress σ) : Attempt σ :=
  match g.kind id with
  | .literal text => p.terminal g id lookahead here (here.afterText? text)
  | .sequence parts => standing g id here (inSequence (visit lookahead) parts here p)
  | .choice alternatives =>
    firstOf (visit lookahead) tracer id (g.name id) alternatives here p
  | .repetition child => overSome g id here (greedily (visit lookahead) child p.fuel [] here p)
  | .optional child => overOptional g id here (visit lookahead child here p)
  | .negation child =>
    overNegation g id here p.nodes.size (visit (lookahead + 1) child here p)
  | .endOfInput => p.terminal g id lookahead here here.atEnd?
  | .reference rule => (.stopped (.unresolvedReference rule), p)
  | kind => p.terminal g id lookahead here (here.afterChar? fun c => kind.accepts c)

/-- The end of a visit to a node, which found `size` nodes in the table: the tracer is told, and where the
node failed, all that was pushed since is given up. The call stays a call, so that the size is read before
the attempt, and the attempt has the table for itself. -/
@[noinline] def conclude (tracer : Tracer σ) (id : NodeId) (here : Cursor) (size : Nat) :
    Attempt σ → Attempt σ
  | (.matched (r, stop), p) =>
    (.matched (r, stop), p.record tracer (.success id here.offset stop.offset))
  | (.failed, p) => (.failed, (p.truncate size).record tracer (.failure id here.offset))
  | (.stopped fault, p) => (.stopped fault, p)

/-- One visit to a node, with so many levels left below and inside so many negations. -/
def visit (g : Grammar) (tracer : Tracer σ) : Nat → Nat → Visit σ
  | 0, _, _, _, p =>
    if p.fuel = 0 then (.stopped .fuelExhausted, p) else (.stopped .depthExceeded, p.spend)
  | levels + 1, lookahead, id, here, p =>
    if p.fuel = 0 then (.stopped .fuelExhausted, p)
    else
      conclude tracer id here p.nodes.size <|
        attempt g tracer (visit g tracer levels) lookahead id here
          (p.spend.record tracer (.enter id here.offset))

/-! ## A whole match -/

/-- A match that was found: the tree, and the offset just behind it. -/
structure Found where
  tree : ParseTree
  stop : Nat
deriving DecidableEq, Repr

/-- A match carried to its end. -/
structure Outcome where
  found : Option Found
  /-- The furthest place where a terminal was tried and failed outside negation. -/
  furthest : Nat
deriving DecidableEq, Repr

/-- What a match starts from. -/
def Progress.start (limits : Limits) (offset : Nat) (gathered : σ) : Progress σ :=
  ⟨limits.fuel, offset, {}, gathered⟩

/-- The outcome of a match, from the end of its outermost visit. -/
def outcome (input : List Char) : Attempt σ → Except Fault Outcome
  | (.matched (r, stop), p) => .ok ⟨some ⟨p.nodes.finish input r, stop.offset⟩, p.furthest⟩
  | (.failed, p) => .ok ⟨none, p.furthest⟩
  | (.stopped fault, _) => .error fault

/-- Match a node against the input from a byte offset on, and tell a tracer. Where the offset lies inside
a character or behind the end, nothing matches and nothing is tried. -/
def traceAt (g : Grammar) (id : NodeId) (input : String) (offset : Nat) (limits : Limits)
    (tracer : Tracer σ) (gathered : σ) : Except Fault Outcome × σ :=
  match Cursor.ofOffset? input.toList offset with
  | none => (.ok ⟨none, offset⟩, gathered)
  | some here =>
    let last := visit g tracer limits.depth 0 id here (.start limits offset gathered)
    (outcome input.toList last, last.2.trace)

end

/-- Match a node against the input from a byte offset on. -/
def matchAt (g : Grammar) (id : NodeId) (input : String) (offset : Nat) (limits : Limits) :
    Except Fault Outcome :=
  (traceAt g id input offset limits .silent ()).1

end BnfTokenizer.Match
