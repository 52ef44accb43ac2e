import BnfTokenizer.Proofs.Match.Protocol

/-!
# How the nodes that are entered are left

Where a node is entered, the event that leaves it again lies ahead: it is the first that leaves more than was entered
behind it (`closing?`). So the nodes that are entered can be listed each with how it is left (`entered`).

In brackets that are complete every node is left, and by its own event. Events that break off inside some calls leave
exactly the nodes of these calls open (`unended`), and every other node is left by its own event.
-/

namespace BnfTokenizer.Match

/-- The event that leaves the node which is so many levels around the innermost open one, if there is one. -/
def closing? : Nat → List Event → Option Event
  | _, [] => none
  | depth, .enter .. :: es => closing? (depth + 1) es
  | depth, .backtrack .. :: es => closing? depth es
  | 0, e :: _ => some e
  | depth + 1, _ :: es => closing? depth es

/-- A node that was entered, and the event that left it. -/
structure Entry where
  node : NodeId
  position : Nat
  left? : Option Event
deriving DecidableEq, Repr

/-- The nodes that are entered, in order. -/
def entered : List Event → List Entry
  | [] => []
  | .enter id position :: es => ⟨id, position, closing? 0 es⟩ :: entered es
  | _ :: es => entered es

/-- The nodes that are entered and not left again. -/
def unended (es : List Event) : List (NodeId × Nat) :=
  ((entered es).filter fun x => x.left?.isNone).map fun x => (x.node, x.position)

/-- An entry that is left by an event of its own node, if it is left at all. -/
def Entry.Own (x : Entry) : Prop :=
  ∀ e ∈ x.left?, Closes x.node x.position e

section

variable {g : Grammar} {around : Option (NodeId × Nat)} {es : List Event} {id : NodeId} {position : Nat}
  {closing : Event}

theorem Closes.closing?_zero (closes : Closes id position closing) (es : List Event) :
    closing? 0 (closing :: es) = some closing := by
  cases closes <;> rfl

theorem Closes.closing?_succ (closes : Closes id position closing) (depth : Nat) (es : List Event) :
    closing? (depth + 1) (closing :: es) = closing? depth es := by
  cases closes <;> rfl

theorem Closes.entered (closes : Closes id position closing) (es : List Event) :
    entered (closing :: es) = Match.entered es := by
  cases closes <;> rfl

/-- Brackets that are complete leave nothing that is open around them. -/
theorem Complete.closing?_append (complete : Complete g around es) (depth : Nat) (rest : List Event) :
    closing? depth (es ++ rest) = closing? depth rest := by
  induction complete generalizing depth rest with
  | nil => rfl
  | call _ closes _ inner next =>
    rw [List.cons_append, closing?, List.append_assoc, inner, List.cons_append, closes.closing?_succ, next]
  | backtrack _ _ next => exact next depth rest

/-- Every node entered inside complete brackets is left, by its own event. -/
theorem Complete.entered_append (complete : Complete g around es) (rest : List Event) :
    ∃ own, entered (es ++ rest) = own ++ entered rest ∧ ∀ x ∈ own, x.left? ≠ none ∧ x.Own := by
  induction complete generalizing rest with
  | nil => exact ⟨[], rfl, nofun⟩
  | @call _ id position inner closing after within closes _ inside next =>
    obtain ⟨first, here, firsts⟩ := inside (closing :: (after ++ rest))
    obtain ⟨others, later, more⟩ := next rest
    have left : closing? 0 (inner ++ closing :: (after ++ rest)) = some closing :=
      (within.closing?_append 0 _).trans (closes.closing?_zero _)
    refine ⟨⟨id, position, some closing⟩ :: (first ++ others), ?_, List.forall_mem_cons.mpr ⟨⟨nofun, ?_⟩,
      List.forall_mem_append.mpr ⟨firsts, more⟩⟩⟩
    · rw [List.cons_append, List.append_assoc, List.cons_append, entered, left, here, closes.entered, later,
        List.cons_append, List.append_assoc]
    · rintro _ ⟨⟩
      exact closes
  | backtrack _ _ next => exact next rest

/-- Where events break off, nothing that was open before them is left. -/
theorem Broken.closing?_eq {stack : List (NodeId × Nat)} (broken : Broken g around stack es) (depth : Nat) :
    closing? depth es = none := by
  induction broken generalizing depth with
  | here complete =>
    have whole := complete.closing?_append depth []
    rwa [List.append_nil] at whole
  | inside complete _ ih =>
    rw [complete.closing?_append]
    exact ih (depth + 1)

/-- Complete brackets add no entry that is not left. -/
theorem Complete.unended_append (complete : Complete g around es) (rest : List Event) :
    unended (es ++ rest) = unended rest ∧ ((∀ x ∈ entered rest, x.Own) → ∀ x ∈ entered (es ++ rest), x.Own) := by
  obtain ⟨own, parts, ends⟩ := complete.entered_append rest
  have none : own.filter (fun x => x.left?.isNone) = [] :=
    List.filter_eq_nil_iff.mpr fun x mem left => (ends x mem).1 (Option.isNone_iff_eq_none.mp left)
  refine ⟨?_, fun others => ?_⟩
  · rw [unended, parts, List.filter_append, none, List.nil_append, unended]
  · rw [parts]
    exact List.forall_mem_append.mpr ⟨fun x mem => (ends x mem).2, others⟩

/-- Where events break off, what they were inside is all that is not left, and the rest is left by its own events. -/
theorem Broken.unended_eq {stack : List (NodeId × Nat)} (broken : Broken g around stack es) :
    unended es = stack ∧ ∀ x ∈ entered es, x.Own := by
  induction broken with
  | here complete =>
    have whole := complete.unended_append []
    rw [List.append_nil] at whole
    exact ⟨whole.1, whole.2 nofun⟩
  | @inside around id position stack earlier inner complete within ih =>
    obtain ⟨same, others⟩ := complete.unended_append (.enter id position :: inner)
    have first : entered (.enter id position :: inner) = ⟨id, position, none⟩ :: entered inner := by
      rw [entered, within.closing?_eq 0]
    refine ⟨?_, others ?_⟩
    · rw [same, unended, first, ← ih.1]
      rfl
    · rw [first]
      exact List.forall_mem_cons.mpr ⟨nofun, ih.2⟩

end

end BnfTokenizer.Match
