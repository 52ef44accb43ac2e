import BnfTokenizer.Grammar.Reachable

/-!
# Nodes that can match nothing

`Grammar.nullable` marks the nodes that can succeed without consuming a character. It is a least fixed
point: all marks start false, a sweep goes over the listed nodes and sets the marks that follow from
those already set, in place, and sweeps are repeated until one sets nothing. A sweep that sets something
uses up a node, so the number of nodes bounds the number of sweeps.

Nodes outside the list stay unmarked.
-/

namespace BnfTokenizer.Grammar

/-- What a kind says of itself when `marks` says it of its children. -/
def Kind.nullableGiven (marks : NodeId → Bool) : Kind → Bool
  | literal text => text.isEmpty
  | charSet .. | charRange .. | reference _ => false
  | sequence parts => parts.all marks
  | choice alternatives => alternatives.any marks
  | repetition child => marks child
  | optional _ | negation _ | endOfInput => true

/-- More marks below never take a mark away. -/
theorem Kind.nullableGiven_mono {marks more : NodeId → Bool}
    (h : ∀ id, marks id = true → more id = true) (kind : Kind)
    (nullable : kind.nullableGiven marks = true) : kind.nullableGiven more = true := by
  cases kind with
  | sequence parts =>
    exact List.all_eq_true.mpr fun id mem => h id (List.all_eq_true.mp nullable id mem)
  | choice alternatives =>
    obtain ⟨id, mem, marked⟩ := List.any_eq_true.mp nullable
    exact List.any_eq_true.mpr ⟨id, mem, h id marked⟩
  | repetition child => exact h child nullable
  | _ => exact nullable

/-- One sweep over a list of nodes; the second part tells whether a mark was set. -/
def nullableSweep (g : Grammar) : List NodeId → Array Bool → Array Bool × Bool
  | [], marks => (marks, false)
  | id :: ids, marks =>
    if !marks.getD id true && (g.kind id).nullableGiven (marks.getD · false) then
      ((g.nullableSweep ids (marks.setIfInBounds id true)).1, true)
    else
      g.nullableSweep ids marks

/-- Sweeps until one sets no mark. -/
def nullableFrom (g : Grammar) (ids : List NodeId) : Nat → Array Bool → Array Bool
  | 0, marks => marks
  | fuel + 1, marks =>
    match g.nullableSweep ids marks with
    | (marks, true) => nullableFrom g ids fuel marks
    | (marks, false) => marks

/-- One mark for each node of the table: can it match nothing, as far as the listed nodes show? -/
def nullable (g : Grammar) (ids : List NodeId) : Array Bool :=
  g.nullableFrom ids (g.size + 1) (Array.replicate g.size false)

end BnfTokenizer.Grammar
