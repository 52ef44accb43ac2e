import BnfTokenizer.Proofs.Match.Adequacy
import BnfTokenizer.Proofs.ParseTree.Walks

/-!
# What a visit leaves of its table

A visit finds a table of nodes and leaves one. `Extends` says that the nodes found are still there, with
every field as it was, and it holds however the visit ends, also by a stop: rows are only ever changed
behind those that were found (`visit_extends`). A visit that failed leaves the table that it found, and one
that matched has added the nodes of one tree and no other, which is what `IsTreeFrom` says of a table.

For a whole match there was nothing to find, so its table is one tree.
-/

namespace BnfTokenizer

namespace ParseTree

/-- From row `base` on, a table holds the nodes of one tree in post-order: `top` is its topmost node, stands
last and has no parent, and every other one is listed by its parent and names it. -/
def IsTreeFrom (t : ParseTree) (base : Nat) (top : Ref) : Prop :=
  top + 1 = t.size ∧ ∃ plant : Plant, plant.place = top ∧ plant.Hangs t none ∧
    plant.postorder = List.range' base (t.size - base)

/-- The rows of a tree behind others are a tree. -/
theorem isTreeFrom_of_rows {t : ParseTree} {before : List Node} {tree : Match.DerivedTree}
    (laid : t.nodes.toList = before ++ tree.rows before.length none) :
    t.IsTreeFrom before.length (tree.top before.length) := by
  have size : t.size = before.length + tree.size := by
    rw [ParseTree.size, ← Array.length_toList, laid, List.length_append, Match.DerivedTree.length_rows]
  refine ⟨?_, tree.plant before.length, tree.place_plant _, ?_, ?_⟩
  · rw [size, tree.size_eq, Match.DerivedTree.top, Nat.add_assoc]
  · exact tree.hangs_plant before [] none (by rw [laid, List.append_nil])
  · rw [tree.postorder_plant, size, Nat.add_sub_cancel_left]

/-- In a table that is one tree every node is under the topmost one. -/
theorem IsTreeFrom.top_eq {t : ParseTree} {top r : Ref} (whole : t.IsTreeFrom 0 top) (inside : r < t.size) :
    t.top r = top := by
  obtain ⟨_, plant, rfl, hangs, rows⟩ := whole
  have perm := plant.perm_postorder
  rw [rows, Nat.sub_zero, ← List.range_eq_range'] at perm
  have few : plant.places.length = t.size := by
    rw [← perm.length_eq, List.length_range]
  exact hangs.top_eq (Nat.le_of_eq few) (perm.mem_iff.mp (List.mem_range.mpr inside))

end ParseTree

namespace Match

open ParseTree (Ref Builder)

variable {σ : Type} {g : Grammar} {tracer : Tracer σ} {id : NodeId} {here : Cursor} {p : Progress σ}

/-! ## What was found is still there -/

/-- The nodes that some visits found stand unchanged at the front of the table that they leave. -/
def Extends {α : Type} (p : Progress σ) (a : Verdict α × Progress σ) : Prop :=
  p.nodes.rows <+: a.2.nodes.rows

/-- A visit that keeps what it found, wherever it is made. -/
def Visit.Extends (visit : Visit σ) : Prop :=
  ∀ id here p, Match.Extends p (visit id here p)

/-- A faithful attempt can lose what it found only by a stop. -/
theorem extends_of_faithful {a : Attempt σ} (faithful : Faithful g id here p a)
    (stopped : ∀ fault q, a = (.stopped fault, q) → p.nodes.rows <+: q.nodes.rows) : Extends p a := by
  match a, faithful with
  | (.matched _, q), ⟨_, _, _, laid⟩ => exact ⟨_, laid.symm⟩
  | (.failed, q), ⟨_, _, laid⟩ => exact ⟨_, laid.symm⟩
  | (.stopped fault, q), _ => exact stopped fault q rfl

/-- What stands in front of the rows of an earlier table is all that is left of the cut one. -/
theorem truncate_eq_of_extended {earlier later : Builder} (kept : earlier.rows <+: later.rows) :
    later.truncate earlier.size = earlier := by
  refine Builder.ext_rows ?_
  rw [Builder.rows_truncate, ← earlier.length_rows]
  exact (List.prefix_iff_eq_take.mp kept).symm

section

variable {visit : Visit σ}

theorem inSequence_extends (keeps : visit.Extends) (ids : List NodeId) (here : Cursor) (p : Progress σ) :
    Extends p (inSequence visit ids here p) := by
  induction ids generalizing here p with
  | nil => exact List.prefix_rfl
  | cons id ids ih =>
    have head := keeps id here p
    unfold inSequence
    split
    · next r next q step =>
      rw [step] at head
      have both := List.IsPrefix.trans head (ih next q)
      unfold Extends
      split <;> (next last => rw [last] at both; exact both)
    · next step =>
      rw [step] at head
      exact head
    · next step =>
      rw [step] at head
      exact head

theorem greedily_extends (keeps : visit.Extends) (id : NodeId) (rounds : Nat) (earlier : List Ref)
    (here : Cursor) (p : Progress σ) : Extends p (greedily visit id rounds earlier here p) := by
  induction rounds generalizing earlier here p with
  | zero => exact List.prefix_rfl
  | succ rounds ih =>
    have head := keeps id here p
    unfold greedily
    split
    · next r next q step =>
      rw [step] at head
      split
      · exact head
      · exact List.IsPrefix.trans head (ih (r :: earlier) next q)
    · next step =>
      rw [step] at head
      exact head
    · next step =>
      rw [step] at head
      exact head

/-- The name that a choice gives goes to a node behind those that were found. -/
theorem firstOf_extends (faithful : visit.Faithful g) (keeps : visit.Extends) (tracer : Tracer σ)
    (choice : NodeId) (name : Option String) (ids : List NodeId) (here : Cursor) (p : Progress σ) :
    Extends p (firstOf visit tracer choice name ids here p) := by
  induction ids generalizing p with
  | nil => exact List.prefix_rfl
  | cons id ids ih =>
    have head := keeps id here p
    have own := (faithful id here p).1
    unfold firstOf
    split
    · next r stop q step =>
      rw [step] at own
      obtain ⟨tree, _, rfl, laid⟩ := own
      exact ⟨_, (Builder.rows_inheritName laid name).symm⟩
    · next q step =>
      rw [step] at head
      refine List.IsPrefix.trans head ?_
      split
      · exact ih q
      · exact ih (q.record tracer (.backtrack choice here.offset))
    · next step =>
      rw [step] at head
      exact head

end

/-! ## Kinds -/

theorem terminal_ne_stopped (lookahead : Nat) (stop? : Option Cursor) (fault : Fault) (q : Progress σ) :
    p.terminal g id lookahead here stop? ≠ (.stopped fault, q) := by
  cases stop? with
  | some stop => exact nofun
  | none => exact nofun

theorem standing_eq_stopped {a : Attempts σ} {fault : Fault} {q : Progress σ}
    (stops : standing g id here a = (.stopped fault, q)) : a = (.stopped fault, q) := by
  match a, stops with
  | (.stopped _, _), rfl => rfl

theorem overSome_eq_stopped {a : Attempts σ} {fault : Fault} {q : Progress σ}
    (stops : overSome g id here a = (.stopped fault, q)) : a = (.stopped fault, q) := by
  unfold overSome at stops
  split at stops
  · cases stops
  · exact standing_eq_stopped stops

theorem overOptional_eq_stopped {a : Attempt σ} {fault : Fault} {q : Progress σ}
    (stops : overOptional g id here a = (.stopped fault, q)) : a = (.stopped fault, q) := by
  match a, stops with
  | (.stopped _, _), rfl => rfl

theorem overNegation_eq_stopped {a : Attempt σ} {size : Nat} {fault : Fault} {q : Progress σ}
    (stops : overNegation g id here size a = (.stopped fault, q)) : q.nodes = a.2.nodes.truncate size := by
  match a, stops with
  | (.stopped _, _), rfl => rfl

/-- What is found is kept by an attempt at a node of any kind: only a stop is left to look at, and it comes
from a visit to a child. -/
theorem attempt_extends {visit : Nat → Visit σ} (faithful : ∀ lookahead, (visit lookahead).Faithful g)
    (keeps : ∀ lookahead, (visit lookahead).Extends) (tracer : Tracer σ) (lookahead : Nat) (id : NodeId)
    (here : Cursor) (p : Progress σ) : Extends p (attempt g tracer visit lookahead id here p) := by
  refine extends_of_faithful (attempt_faithful faithful tracer lookahead id here p) ?_
  intro fault q stops
  unfold attempt at stops
  split at stops
  · exact absurd stops (terminal_ne_stopped lookahead _ fault q)
  · next parts kind =>
    have all := inSequence_extends (keeps lookahead) parts here p
    rwa [standing_eq_stopped stops] at all
  · next alternatives kind =>
    have first := firstOf_extends (faithful lookahead) (keeps lookahead) tracer id (g.name id) alternatives
      here p
    rwa [stops] at first
  · next child kind =>
    have more := greedily_extends (keeps lookahead) child p.fuel [] here p
    rwa [overSome_eq_stopped stops] at more
  · next child kind =>
    have only := keeps lookahead child here p
    rwa [overOptional_eq_stopped stops] at only
  · next child kind =>
    have only := keeps (lookahead + 1) child here p
    have same : q.nodes = p.nodes := (overNegation_eq_stopped stops).trans (truncate_eq_of_extended only)
    exact same ▸ List.prefix_rfl
  · exact absurd stops (terminal_ne_stopped lookahead _ fault q)
  · cases stops
    exact List.prefix_rfl
  · exact absurd stops (terminal_ne_stopped lookahead _ fault q)

/-- **A visit keeps the nodes that it found**, however it ends. -/
theorem visit_extends (g : Grammar) (tracer : Tracer σ) (levels lookahead : Nat) :
    (visit g tracer levels lookahead).Extends := by
  induction levels generalizing lookahead with
  | zero =>
    intro id here p
    unfold visit
    split <;> exact List.prefix_rfl
  | succ levels ih =>
    intro id here p
    unfold visit
    split
    · exact List.prefix_rfl
    · have own := attempt_extends (visit_faithful g tracer levels) ih tracer lookahead id here
        (p.spend.record tracer (.enter id here.offset))
      generalize attempt g tracer (visit g tracer levels) lookahead id here _ = a at own ⊢
      obtain ⟨verdict, q⟩ := a
      cases verdict with
      | matched _ => exact own
      | failed =>
        have same : q.nodes.truncate p.nodes.size = p.nodes := truncate_eq_of_extended own
        exact ⟨[], (List.append_nil _).trans (congrArg Builder.rows same.symm)⟩
      | stopped _ => exact own

/-- **Backtracking is exact.** Every visit keeps the nodes that it found; where it fails the table is the
one that it found; where it matches, the table has grown by the nodes of the tree that it matched, and by
no others. So the table of a whole match is that one tree, and all its nodes are attached to the root. -/
theorem visit_exact (g : Grammar) (tracer : Tracer σ) :
    (∀ levels lookahead id here p,
      let ended := visit g tracer levels lookahead id here p
      p.nodes.rows <+: ended.2.nodes.rows ∧
        (ended.1 = .failed → ended.2.nodes = p.nodes) ∧
        ∀ r stop, ended.1 = .matched (r, stop) → ∀ source,
          (ended.2.nodes.finish source r).IsTreeFrom p.nodes.size r) ∧
      ∀ id input offset limits gathered found furthest,
        (traceAt g id input offset limits tracer gathered).1 = .ok ⟨some found, furthest⟩ →
          found.tree.IsTreeFrom 0 found.tree.root ∧
            ∀ r < found.tree.size, found.tree.isAttached r = true := by
  refine ⟨fun levels lookahead id here p => ?_, ?_⟩
  · obtain ⟨faithful, restores⟩ := visit_faithful g tracer levels lookahead id here p
    have kept := visit_extends g tracer levels lookahead id here p
    dsimp only
    generalize visit g tracer levels lookahead id here p = ended at faithful restores kept
    refine ⟨kept, ?_, ?_⟩
    · intro failed
      exact restores ended.2 (Prod.ext failed rfl)
    · obtain ⟨verdict, q⟩ := ended
      rintro r stop rfl source
      obtain ⟨tree, _, rfl, laid⟩ := faithful
      rw [← p.nodes.length_rows] at laid ⊢
      exact ParseTree.isTreeFrom_of_rows laid
  · intro id input offset limits gathered found furthest ends
    obtain ⟨before, after, rfl, rfl⟩ := parted_of_traceAt ends
    obtain ⟨tree, stop, _, laid, root, _⟩ := laid_of_traceAt ends
    have behindNone : found.tree.nodes.toList = [] ++ tree.rows ([] : List ParseTree.Node).length none := laid
    have whole : found.tree.IsTreeFrom 0 found.tree.root := root ▸ ParseTree.isTreeFrom_of_rows behindNone
    refine ⟨whole, fun r inside => ?_⟩
    rw [ParseTree.isAttached, whole.top_eq inside, beq_self_eq_true]

/-- A table that already holds a node. -/
def oneNode : Progress Unit :=
  ⟨100, 1, ⟨#[⟨4, none, ⟨0, 1⟩, none, [], none, none⟩]⟩, ()⟩

/-- Behind one node, a sequence that fails half way leaves that node alone, and one that matches leaves
five more that are one tree. -/
theorem letters_restored :
    ((visit letters .silent 9 0 6 ⟨1, ['c']⟩ oneNode).1 = .failed ∧
        (visit letters .silent 9 0 6 ⟨1, ['c']⟩ oneNode).2.nodes = oneNode.nodes) ∧
      ((visit letters .silent 9 0 6 ⟨1, ['a', 'b', 'c']⟩ oneNode).1 = .matched (5, ⟨3, ['c']⟩) ∧
        ((visit letters .silent 9 0 6 ⟨1, ['a', 'b', 'c']⟩ oneNode).2.nodes.finish [] 5).IsTreeFrom
          oneNode.nodes.size 5) ∧
      ∃ found, (traceAt letters 6 (String.ofList ['x', 'a', 'b', 'c']) 1 {} .silent ()).1 =
          .ok ⟨some found, 3⟩ ∧ found.tree.size = 5 ∧ found.tree.IsTreeFrom 0 found.tree.root ∧
            ∀ r < found.tree.size, found.tree.isAttached r = true := by
  obtain ⟨visits, runs⟩ := visit_exact letters (.silent)
  have ends : (traceAt letters 6 (String.ofList ['x', 'a', 'b', 'c']) 1 {} .silent ()).1 =
      .ok ⟨some ⟨⟨['x', 'a', 'b', 'c'],
        #[⟨5, none, ⟨1, 1⟩, none, [], some 4, none⟩, ⟨0, some "inner", ⟨1, 2⟩, none, [], some 3, none⟩,
          ⟨4, some "outer", ⟨2, 3⟩, none, [], some 3, none⟩, ⟨3, none, ⟨1, 3⟩, none, [1, 2], some 4, none⟩,
          ⟨6, some "word", ⟨1, 3⟩, none, [0, 3], none, none⟩], 4⟩, 3⟩, 3⟩ := rfl
  have fails : (visit letters .silent 9 0 6 ⟨1, ['c']⟩ oneNode).1 = .failed := rfl
  have found : (visit letters .silent 9 0 6 ⟨1, ['a', 'b', 'c']⟩ oneNode).1 =
      .matched (5, ⟨3, ['c']⟩) := rfl
  have failing := visits 9 0 6 ⟨1, ['c']⟩ oneNode
  have matching := visits 9 0 6 ⟨1, ['a', 'b', 'c']⟩ oneNode
  exact ⟨⟨fails, failing.2.1 fails⟩, ⟨found, matching.2.2 5 _ found []⟩, _, ends, rfl,
    runs _ _ _ _ _ _ _ ends⟩

end Match

end BnfTokenizer
