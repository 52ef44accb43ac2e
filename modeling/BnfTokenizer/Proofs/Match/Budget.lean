import BnfTokenizer.Proofs.Match.Protocol

/-!
# Nodes are paid for with visits

No visit pushes two nodes for the unit of fuel that it spends. A terminal pushes one; so does a node over its children,
and these have paid for their own; a choice pushes none; and what is cut back was paid for already. So the nodes in the
table and the visits left, taken together, never get more, in whatever way visits end (`visit_frugal`), and the table of
a match never has more nodes than it had visits to begin with.

Every node that a visit gives is in the table when it is given. So it stays below what the table and the visits left
came to before, also where the table is cut back later.
-/

namespace BnfTokenizer.Match

open ParseTree (Ref Builder)

variable {σ : Type}

/-- The nodes in the table and the visits left. -/
def Progress.weight (p : Progress σ) : Nat :=
  p.nodes.size + p.fuel

/-- How something ended that had a budget of so many nodes and visits, so many visits among them. -/
structure Affords {α : Type} (refs : α → List Ref) (budget fuel : Nat) (a : Verdict α × Progress σ) : Prop where
  weight : a.2.weight ≤ budget
  fuel : a.2.fuel ≤ fuel
  refs : ∀ result, a.1 = .matched result → ∀ r ∈ refs result, r < budget

/-- The node that one visit gives. -/
def oneRef (result : Ref × Cursor) : List Ref :=
  [result.1]

/-- A visit that spends a unit and pushes one node at most. -/
def Visit.Frugal (visit : Visit σ) : Prop :=
  ∀ id here p, Affords oneRef p.weight (p.fuel - 1) (visit id here p)

section

variable {α : Type} {refs : α → List Ref} {budget fuel more longer : Nat} {a : Verdict α × Progress σ} {g : Grammar}
  {tracer : Tracer σ} {id : NodeId} {here stop : Cursor} {p q : Progress σ}

/-- A larger budget affords the same. -/
theorem Affords.mono (affords : Affords refs budget fuel a) (le : budget ≤ more) (le' : fuel ≤ longer) :
    Affords refs more longer a :=
  ⟨Nat.le_trans affords.weight le, Nat.le_trans affords.fuel le',
    fun result ends r mem => Nat.lt_of_lt_of_le (affords.refs result ends r mem) le⟩

/-- Where nothing is given, only what is left counts. -/
theorem affords_failed (weight : q.weight ≤ budget) (spent : q.fuel ≤ fuel) :
    Affords refs budget fuel (.failed, q) :=
  ⟨weight, spent, nofun⟩

/-- A run that stops has only its weight to account for. -/
theorem affords_stopped (weight : q.weight ≤ budget) (spent : q.fuel ≤ fuel) (fault : Fault) :
    Affords refs budget fuel (.stopped fault, q) :=
  ⟨weight, spent, nofun⟩

/-- A match accounts for its weight and for the node that it made. -/
theorem affords_one (weight : q.weight ≤ budget) (spent : q.fuel ≤ fuel) {r : Ref} (inside : r < budget) :
    Affords oneRef budget fuel (.matched (r, stop), q) :=
  ⟨weight, spent, by rintro _ ⟨⟩; exact List.forall_mem_singleton.mpr inside⟩

/-- Several matches account for all their nodes. -/
theorem affords_many (weight : q.weight ≤ budget) (spent : q.fuel ≤ fuel) {rs : List Ref}
    (inside : ∀ r ∈ rs, r < budget) : Affords Prod.fst budget fuel (.matched (rs, stop), q) :=
  ⟨weight, spent, by rintro _ ⟨⟩; exact inside⟩

theorem Affords.one_lt {r : Ref} (affords : Affords oneRef budget fuel (.matched (r, stop), q)) : r < budget :=
  affords.refs _ rfl r List.mem_cons_self

theorem Affords.many_lt {rs : List Ref} (affords : Affords Prod.fst budget fuel (.matched (rs, stop), q)) :
    ∀ r ∈ rs, r < budget :=
  affords.refs _ rfl

/-! ## What is pushed and cut -/

/-- Cutting the table back frees weight. -/
theorem weight_truncate_le (p : Progress σ) (size : Nat) : (p.truncate size).weight ≤ p.weight := by
  have kept : (p.truncate size).nodes.size = min size p.nodes.size := ParseTree.Builder.size_truncate ..
  have fuel : (p.truncate size).fuel = p.fuel := rfl
  rw [Progress.weight, Progress.weight, kept, fuel]
  omega

/-- A node takes one place. -/
theorem interior_affords (weight : p.weight < budget) (spent : p.fuel ≤ fuel) (children : List Ref) :
    Affords oneRef budget fuel (p.interior g id here stop children) := by
  have size := ParseTree.Builder.size_interior p.nodes id (g.name id) ⟨here.offset, stop.offset⟩ children
  have pushed : (p.interior g id here stop children).2.weight = p.weight + 1 := by
    show (p.nodes.interior id (g.name id) ⟨here.offset, stop.offset⟩ children).size + p.fuel = p.weight + 1
    rw [size, Progress.weight, Nat.add_right_comm]
  have own : p.nodes.size < budget := Nat.lt_of_le_of_lt (Nat.le_add_right ..) weight
  exact affords_one (Nat.le_trans (Nat.le_of_eq pushed) weight) spent own

/-- A terminal makes one node, for which its own visit was paid. -/
theorem terminal_affords (lookahead : Nat) (weight : p.weight < budget) (spent : p.fuel ≤ fuel)
    (stop? : Option Cursor) : Affords oneRef budget fuel (p.terminal g id lookahead here stop?) := by
  cases stop? with
  | some stop => exact interior_affords weight spent []
  | none =>
    dsimp only [Progress.terminal, Progress.miss]
    split
    · exact affords_failed (Nat.le_of_lt weight) spent
    · exact affords_failed (Nat.le_of_lt weight) spent

/-! ## Visits in a row -/

section

variable {visit : Visit σ}

/-- Parts afford what each affords with what the one before left over. The induction is on the parts. -/
theorem inSequence_affords (frugal : visit.Frugal) (ids : List NodeId) (here : Cursor) (p : Progress σ) :
    Affords Prod.fst p.weight p.fuel (inSequence visit ids here p) := by
  induction ids generalizing here p with
  | nil => exact affords_many (Nat.le_refl _) (Nat.le_refl _) nofun
  | cons id ids ih =>
    have head := (frugal id here p).mono (Nat.le_refl _) (Nat.sub_le ..)
    unfold inSequence
    split
    · next r next q step =>
      rw [step] at head
      have rest := (ih next q).mono head.weight head.fuel
      split
      · next rs stop q' last =>
        rw [last] at rest
        exact affords_many rest.weight rest.fuel (List.forall_mem_cons.mpr ⟨head.one_lt, rest.many_lt⟩)
      · next q' last =>
        rw [last] at rest
        exact affords_failed rest.weight rest.fuel
      · next fault q' last =>
        rw [last] at rest
        exact affords_stopped rest.weight rest.fuel fault
    · next q step =>
      rw [step] at head
      exact affords_failed head.weight head.fuel
    · next fault q step =>
      rw [step] at head
      exact affords_stopped head.weight head.fuel fault

/-- Alternatives that fail leave their budget to the next. -/
theorem firstOf_affords (frugal : visit.Frugal) (tracer : Tracer σ) (choice : NodeId) (name : Option String)
    (ids : List NodeId) (here : Cursor) (p : Progress σ) :
    Affords oneRef p.weight p.fuel (firstOf visit tracer choice name ids here p) := by
  induction ids generalizing p with
  | nil => exact affords_failed (Nat.le_refl _) (Nat.le_refl _)
  | cons id ids ih =>
    have head := (frugal id here p).mono (Nat.le_refl _) (Nat.sub_le ..)
    unfold firstOf
    split
    · next r stop q step =>
      rw [step] at head
      have named : ({ q with nodes := q.nodes.inheritName r name } : Progress σ).weight = q.weight := by
        rw [Progress.weight, ParseTree.Builder.size_inheritName, Progress.weight]
      exact affords_one (Nat.le_trans (Nat.le_of_eq named) head.weight) head.fuel head.one_lt
    · next q step =>
      rw [step] at head
      split
      · exact (ih q).mono head.weight head.fuel
      · exact (ih (q.record tracer (.backtrack choice here.offset))).mono head.weight head.fuel
    · next fault q step =>
      rw [step] at head
      exact affords_stopped head.weight head.fuel fault

/-- Rounds afford what each does; the nodes of the rounds before were paid for by them. -/
theorem greedily_affords (frugal : visit.Frugal) (id : NodeId) (rounds : Nat) {earlier : List Ref} (here : Cursor)
    (p : Progress σ) (before : ∀ r ∈ earlier, r < budget) (weight : p.weight ≤ budget) (spent : p.fuel ≤ fuel) :
    Affords Prod.fst budget fuel (greedily visit id rounds earlier here p) := by
  induction rounds generalizing earlier here p with
  | zero => exact affords_stopped weight spent _
  | succ rounds ih =>
    have head := (frugal id here p).mono weight (Nat.le_trans (Nat.sub_le ..) spent)
    unfold greedily
    split
    · next r next q step =>
      rw [step] at head
      split
      · exact affords_stopped head.weight head.fuel _
      · exact ih next q (List.forall_mem_cons.mpr ⟨head.one_lt, before⟩) head.weight head.fuel
    · next q step =>
      rw [step] at head
      exact affords_many head.weight head.fuel fun r mem => before r (List.mem_reverse.mp mem)
    · next fault q step =>
      rw [step] at head
      exact affords_stopped head.weight head.fuel fault

end

/-! ## Kinds -/

/-- The node over some parts costs one more, which the visit that asked for them has paid. -/
theorem standing_affords {a : Attempts σ} (affords : Affords Prod.fst budget fuel a) :
    Affords oneRef (budget + 1) fuel (standing g id here a) := by
  match a, affords with
  | (.matched (rs, stop), q), affords => exact interior_affords (Nat.lt_succ_of_le affords.weight) affords.fuel rs
  | (.failed, q), affords => exact affords_failed (Nat.le_succ_of_le affords.weight) affords.fuel
  | (.stopped fault, q), affords => exact affords_stopped (Nat.le_succ_of_le affords.weight) affords.fuel fault

theorem overSome_affords {a : Attempts σ} (affords : Affords Prod.fst budget fuel a) :
    Affords oneRef (budget + 1) fuel (overSome g id here a) := by
  unfold overSome
  split
  · exact affords_failed (Nat.le_succ_of_le affords.weight) affords.fuel
  · exact standing_affords affords

theorem overOptional_affords {a : Attempt σ} (affords : Affords oneRef budget fuel a) :
    Affords oneRef (budget + 1) fuel (overOptional g id here a) := by
  match a, affords with
  | (.matched (r, stop), q), affords => exact interior_affords (Nat.lt_succ_of_le affords.weight) affords.fuel [r]
  | (.failed, q), affords => exact interior_affords (Nat.lt_succ_of_le affords.weight) affords.fuel []
  | (.stopped fault, q), affords => exact affords_stopped (Nat.le_succ_of_le affords.weight) affords.fuel fault

theorem overNegation_affords {a : Attempt σ} (affords : Affords oneRef budget fuel a) (size : Nat) :
    Affords oneRef (budget + 1) fuel (overNegation g id here size a) := by
  have cut : (a.2.truncate size).weight < budget + 1 :=
    Nat.lt_succ_of_le (Nat.le_trans (weight_truncate_le a.2 size) affords.weight)
  match a, affords, cut with
  | (.matched _, q), affords, cut => exact affords_failed (Nat.le_of_lt cut) affords.fuel
  | (.failed, q), affords, cut => exact interior_affords cut affords.fuel []
  | (.stopped fault, q), affords, cut => exact affords_stopped (Nat.le_of_lt cut) affords.fuel fault

/-- An attempt at a node pushes one node more than its visits have paid for: its own. -/
theorem attempt_affords {visit : Nat → Visit σ} (frugal : ∀ lookahead, (visit lookahead).Frugal)
    (tracer : Tracer σ) (lookahead : Nat) (id : NodeId) (here : Cursor) (p : Progress σ) :
    Affords oneRef (p.weight + 1) p.fuel (attempt g tracer visit lookahead id here p) := by
  have own : p.weight < p.weight + 1 := Nat.lt_succ_self _
  unfold attempt
  split
  · exact terminal_affords lookahead own (Nat.le_refl _) _
  · next parts kind => exact standing_affords (inSequence_affords (frugal lookahead) parts here p)
  · next alternatives kind =>
    exact (firstOf_affords (frugal lookahead) tracer id (g.name id) alternatives here p).mono (Nat.le_of_lt own)
      (Nat.le_refl _)
  · next child kind =>
    exact overSome_affords (greedily_affords (frugal lookahead) child p.fuel here p nofun (Nat.le_refl _) (Nat.le_refl _))
  · next child kind =>
    exact overOptional_affords ((frugal lookahead child here p).mono (Nat.le_refl _) (Nat.sub_le ..))
  · next child kind =>
    exact overNegation_affords ((frugal (lookahead + 1) child here p).mono (Nat.le_refl _) (Nat.sub_le ..)) p.nodes.size
  · exact terminal_affords lookahead own (Nat.le_refl _) _
  · next rule kind => exact affords_stopped (Nat.le_of_lt own) (Nat.le_refl _) _
  · exact terminal_affords lookahead own (Nat.le_refl _) _

/-- Reporting a visit and cutting back behind it cost nothing. -/
theorem conclude_affords {a : Attempt σ} (affords : Affords oneRef budget fuel a) (tracer : Tracer σ) (size : Nat) :
    Affords oneRef budget fuel (conclude tracer id here size a) := by
  match a, affords with
  | (.matched (r, stop), q), affords => exact ⟨affords.weight, affords.fuel, affords.refs⟩
  | (.failed, q), affords =>
    exact ⟨Nat.le_trans (weight_truncate_le q size) affords.weight, affords.fuel, nofun⟩
  | (.stopped fault, q), affords => exact affords_stopped affords.weight affords.fuel fault

end

/-- **Every visit pays for the nodes that it leaves.** -/
theorem visit_frugal (g : Grammar) (tracer : Tracer σ) (levels lookahead : Nat) :
    (visit g tracer levels lookahead).Frugal := by
  induction levels generalizing lookahead with
  | zero =>
    intro id here p
    unfold visit
    split
    · next empty => exact affords_stopped (Nat.le_refl _) (by omega) _
    · have less : p.spend.weight ≤ p.weight := Nat.add_le_add_left (Nat.sub_le ..) _
      exact affords_stopped less (Nat.le_refl _) _
  | succ levels ih =>
    intro id here p
    by_cases empty : p.fuel = 0
    · rw [visit_empty tracer _ empty]
      exact affords_stopped (Nat.le_refl _) (by omega) _
    · rw [visit_entered tracer empty]
      -- The unit that is spent pays for the one node that the attempt pushes beyond what its own visits pay for.
      have own := attempt_affords (g := g) ih tracer lookahead id here (p.spend.record tracer (.enter id here.offset))
      have spent : (p.spend.record tracer (.enter id here.offset)).weight + 1 = p.weight := by
        unfold Progress.weight
        show p.nodes.size + (p.fuel - 1) + 1 = p.nodes.size + p.fuel
        omega
      rw [spent] at own
      exact conclude_affords own tracer p.nodes.size

end BnfTokenizer.Match
