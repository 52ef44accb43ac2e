import BnfTokenizer.ParseTree.Basic

/-!
# Finding nodes

The searches here keep a stack of nodes still to visit. `visitCount` is the number of their steps: a node
of a forest is visited once, and one that is listed as a child in several places is visited in each.

Reading a tree from its leaves upward is the same search run from right to left and then reversed.
-/

namespace BnfTokenizer.ParseTree

/-- In which order the nodes below a node are listed. -/
inductive Order where
  /-- The nodes below a node come before it. -/
  | leafFirst
  /-- The nodes below a node come after it. -/
  | rootFirst
deriving DecidableEq, Repr

/-- The nodes on a stack and all below them, a node before those that `next` puts on the stack for
it. -/
def visits (next : Ref → List Ref) : Nat → List Ref → List Ref
  | 0, _ => []
  | _, [] => []
  | fuel + 1, r :: stack => r :: visits next fuel (next r ++ stack)

/-- The nodes strictly below a node. -/
def descendants (t : ParseTree) (r : Ref) : Order → List Ref
  | .rootFirst => visits t.children (t.visitCount r) (t.children r)
  | .leafFirst =>
    (visits (fun r => (t.children r).reverse) (t.visitCount r) (t.children r).reverse).reverse

/-- The nodes below a node that have a name. -/
def allByName (t : ParseTree) (r : Ref) (order : Order) (name : String) : List Ref :=
  (t.descendants r order).filter fun d => t.name d == some name

/-- A node put behind the others that are listed under its name, if the name is listed at all. -/
def fileUnder (name : String) (r : Ref) : List (String × List Ref) → List (String × List Ref)
  | [] => []
  | (n, refs) :: rest =>
    if n = name then (n, refs ++ [r]) :: rest else (n, refs) :: fileUnder name r rest

/-- The nodes below a node, listed under their names. Each name asked for is listed once, in the order
in which it was first asked for, also when no node has it. -/
def allByNames (t : ParseTree) (r : Ref) (order : Order) (names : List String) :
    List (String × List Ref) :=
  (t.descendants r order).foldl
    (fun found d =>
      match t.name d with
      | some name => fileUnder name d found
      | none => found)
    (names.eraseDups.map fun name => (name, []))

/-- The first node with a name, among those on a stack and all below them. -/
def firstFrom (t : ParseTree) (name : String) : Nat → List Ref → Option Ref
  | 0, _ => none
  | _, [] => none
  | fuel + 1, r :: stack =>
    if t.name r = some name then some r else firstFrom t name fuel (t.children r ++ stack)

/-- The first node below a node that has a name, a node before those below it. -/
def firstByName (t : ParseTree) (r : Ref) (name : String) : Option Ref :=
  t.firstFrom name (t.visitCount r) (t.children r)

/-- The first child that has a name. -/
def childByName (t : ParseTree) (r : Ref) (name : String) : Option Ref :=
  (t.children r).find? fun c => t.name c == some name

/-- The childless nodes among those on a stack and all below them. -/
def leavesFrom (t : ParseTree) : Nat → List Ref → List Ref
  | 0, _ => []
  | _, [] => []
  | fuel + 1, r :: stack =>
    match t.children r with
    | [] => r :: leavesFrom t fuel stack
    | children => leavesFrom t fuel (children ++ stack)

/-- The childless nodes at or below a node, from left to right. -/
def leaves (t : ParseTree) (r : Ref) : List Ref :=
  t.leavesFrom (t.visitCount r) [r]

/-- The values of the childless nodes at or below a node, with a separator between them. -/
def joinLeaves (t : ParseTree) (r : Ref) (separator : String) : String :=
  String.intercalate separator ((t.leaves r).map t.value)

/-- A list cut at the places where `isCut` holds; those places are dropped. A list without one is a
single group. -/
def splitOn {α : Type} (isCut : α → Bool) : List α → List (List α)
  | [] => [[]]
  | a :: as =>
    let groups := splitOn isCut as
    if isCut a then [] :: groups
    else (a :: groups.headD []) :: groups.tail

/-- There is always a group. -/
theorem splitOn_ne_nil {α : Type} (isCut : α → Bool) (as : List α) : splitOn isCut as ≠ [] := by
  cases as with
  | nil => simp [splitOn]
  | cons a as =>
    unfold splitOn
    split <;> simp

/-- The groups hold, in order, what is not cut at. -/
theorem flatten_splitOn {α : Type} (isCut : α → Bool) (as : List α) :
    (splitOn isCut as).flatten = as.filter fun a => !isCut a := by
  induction as with
  | nil => rfl
  | cons a as ih =>
    by_cases h : isCut a
    · simp [splitOn, h, ih]
    · cases groups : splitOn isCut as with
      | nil => exact absurd groups (splitOn_ne_nil isCut as)
      | cons group rest =>
        rw [groups, List.flatten_cons] at ih
        simp [splitOn, h, groups, ← ih]

/-- The children of a node in groups, cut at those with a name. -/
def splitChildren (t : ParseTree) (r : Ref) (delimiter : String) : List (List Ref) :=
  splitOn (fun c => t.name c == some delimiter) (t.children r)

end BnfTokenizer.ParseTree
