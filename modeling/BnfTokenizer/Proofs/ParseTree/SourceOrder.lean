import BnfTokenizer.Proofs.Match.Coverage
import BnfTokenizer.Proofs.ParseTree.Traversals

/-!
# Culling keeps the order of the text

The children of a node of a fresh tree tile its span. This ends with the first cut, which leaves a gap. What is left is
that they lie in it one behind the other (`Spaced`), and this no cut can take away: a shorter list has it, and the
children that come in the place of their parent lie where it lay.

> After any edits that only take nodes out, the children of every node, attached or not, lie in it one behind the other
> (`culls_keep_order`).

So of two nodes the one that comes first in a preorder is above the other or ends before it begins
(`InOrder.pairwise_preorder`), and of two leaves neither is above the other. Where something was cut out is not said, as
no gap need be left there. A span may be empty, so a node that matched nothing may begin where the one before it ends.
-/

namespace BnfTokenizer

/-- Spans that lie between `start` and `stop`, one behind the other, with gaps or without. -/
def Spaced : Nat → List Span → Nat → Prop
  | start, [], stop => start ≤ stop
  | start, span :: spans, stop => start ≤ span.start ∧ span.start ≤ span.stop ∧ Spaced span.stop spans stop

theorem Tiles.spaced {start stop : Nat} {spans : List Span} (tiles : Tiles start spans stop) :
    Spaced start spans stop := by
  induction spans generalizing start with
  | nil => exact Nat.le_of_eq tiles
  | cons span spans ih =>
    obtain ⟨rfl, ordered, rest⟩ := tiles
    exact ⟨Nat.le_refl _, ordered, ih rest⟩

namespace Spaced

variable {start stop : Nat} {span : Span} {spans : List Span}

theorem le (spaced : Spaced start spans stop) : start ≤ stop := by
  induction spans generalizing start with
  | nil => exact spaced
  | cons span spans ih =>
    obtain ⟨begins, ordered, rest⟩ := spaced
    exact Nat.le_trans (Nat.le_trans begins ordered) (ih rest)

theorem from_earlier {earlier : Nat} (spaced : Spaced start spans stop) (before : earlier ≤ start) :
    Spaced earlier spans stop := by
  cases spans with
  | nil => exact Nat.le_trans before spaced
  | cons span spans => exact ⟨Nat.le_trans before spaced.1, spaced.2⟩

theorem append_iff {before after : List Span} :
    Spaced start (before ++ after) stop ↔ ∃ middle, Spaced start before middle ∧ Spaced middle after stop := by
  induction before generalizing start with
  | nil => exact ⟨fun spaced => ⟨start, Nat.le_refl _, spaced⟩, fun ⟨_, first, later⟩ => later.from_earlier first⟩
  | cons span before ih =>
    rw [List.cons_append, Spaced, ih]
    exact ⟨fun ⟨begins, ordered, middle, first, later⟩ => ⟨middle, ⟨begins, ordered, first⟩, later⟩,
      fun ⟨middle, ⟨begins, ordered, first⟩, later⟩ => ⟨begins, ordered, middle, first, later⟩⟩

/-- Taking spans out leaves gaps. -/
theorem sublist {fewer : List Span} (spaced : Spaced start spans stop) (sub : fewer.Sublist spans) :
    Spaced start fewer stop := by
  induction sub generalizing start with
  | slnil => exact spaced
  | cons span _ ih =>
    obtain ⟨begins, ordered, rest⟩ := spaced
    exact (ih rest).from_earlier (Nat.le_trans begins ordered)
  | cons_cons span _ ih =>
    obtain ⟨begins, ordered, rest⟩ := spaced
    exact ⟨begins, ordered, ih rest⟩

/-- Spans that lie in another one can take its place. -/
theorem splice {instead before after : List Span} (inner : Spaced span.start instead span.stop)
    (spaced : Spaced start (before ++ span :: after) stop) : Spaced start (before ++ (instead ++ after)) stop := by
  obtain ⟨middle, first, begins, _, later⟩ := append_iff.mp spaced
  exact append_iff.mpr ⟨middle, first, append_iff.mpr ⟨span.stop, inner.from_earlier begins, later⟩⟩

theorem bounds (spaced : Spaced start spans stop) (mem : span ∈ spans) : start ≤ span.start ∧ span.stop ≤ stop := by
  obtain ⟨before, after, rfl⟩ := List.append_of_mem mem
  obtain ⟨middle, first, begins, _, later⟩ := append_iff.mp spaced
  exact ⟨Nat.le_trans first.le begins, later.le⟩

theorem pairwise (spaced : Spaced start spans stop) : spans.Pairwise fun one other => one.stop ≤ other.start := by
  induction spans generalizing start with
  | nil => exact .nil
  | cons span spans ih =>
    obtain ⟨_, _, rest⟩ := spaced
    exact .cons (fun other later => (rest.bounds later).1) (ih rest)

end Spaced

namespace ParseTree

/-- A tree in the order of its text: the children of each node lie in it one behind the other. -/
structure InOrder (t : ParseTree) : Prop extends Rooted t where
  spaced : ∀ r, Spaced (t.span r).start ((t.children r).map t.span) (t.span r).stop

variable {t : ParseTree} {a c r : Ref}

/-! ## Edits that take nodes out -/

/-- Does an edit only take nodes out of their places? -/
def Edit.culls : Edit → Bool
  | .remove _ | .lift _ | .cull _ _ => true
  | .replace _ _ | .setPayload _ _ | .setValue _ _ => false

theorem Rooted.remove (rooted : t.Rooted) (c : Ref) : (t.remove c).Rooted where
  toForest := rooted.toForest.remove c
  inside := by
    rw [root_remove, size_remove]
    exact rooted.inside
  top := by
    rw [root_remove]
    exact rooted.toForest.top_remove rooted.top c

theorem Rooted.lift (rooted : t.Rooted) (c : Ref) : (t.lift c).Rooted where
  toForest := rooted.toForest.lift c
  inside := by
    rw [root_lift, size_lift]
    exact rooted.inside
  top := by
    rw [root_lift]
    exact rooted.toForest.top_lift rooted.top c

namespace InOrder

theorem remove (order : t.InOrder) (c : Ref) : (t.remove c).InOrder where
  toRooted := order.toRooted.remove c
  spaced r := by
    rw [funext (alike_remove t c).span, order.toForest.children_remove]
    exact (order.spaced r).sublist (List.filter_sublist.map _)

theorem lift (order : t.InOrder) (c : Ref) : (t.lift c).InOrder where
  toRooted := order.toRooted.lift c
  spaced r := by
    cases link : t.parent c with
    | none =>
      rw [lift_of_parent_eq_none link]
      exact order.spaced r
    | some p =>
      rw [funext (alike_lift t c).span, order.toForest.children_lift link]
      split
      · exact (order.spaced r).le
      · by_cases listed : c ∈ t.children r
        · obtain ⟨before, after, children, _, _, spliced⟩ :=
            exists_splice (order.toForest.once r) listed (t.children c)
          have around := order.spaced r
          rw [children, List.map_append, List.map_cons] at around
          rw [spliced, List.map_append, List.map_append]
          exact (order.spaced c).splice around
        · rw [spliceAt_of_not_mem _ listed]
          exact order.spaced r

theorem cull (order : t.InOrder) (r : Ref) (filters : List Filter) : (t.cull r filters).InOrder :=
  cullFrom_induction (fun _ c order => order.remove c) (fun _ c order => order.lift c) filters t.size order r

/-- An edit that only takes nodes out keeps the order. -/
theorem edit (order : t.InOrder) {e : Edit} (culls : e.culls = true) : (t.edit e).InOrder := by
  cases e with
  | remove r => exact order.remove r
  | lift r => exact order.lift r
  | cull r filters => exact order.cull r filters
  | replace r other => cases culls
  | setPayload r payload => cases culls
  | setValue r value => cases culls

/-- So does a run of them. -/
theorem editAll (order : t.InOrder) {edits : List Edit} (culls : ∀ e ∈ edits, e.culls = true) :
    (t.editAll edits).InOrder := by
  induction edits generalizing t with
  | nil => exact order
  | cons e edits ih =>
    obtain ⟨first, later⟩ := List.forall_mem_cons.mp culls
    exact ih (order.edit first) later

/-! ## What the order says -/

/-- What lies below a node lies in its span. -/
theorem within (order : t.InOrder) (above : t.Above a c) :
    (t.span a).start ≤ (t.span c).start ∧ (t.span c).stop ≤ (t.span a).stop := by
  have step : ∀ {p c : Ref}, t.parent c = some p →
      (t.span p).start ≤ (t.span c).start ∧ (t.span c).stop ≤ (t.span p).stop := fun {p c} link =>
    (order.spaced p).bounds (List.mem_map_of_mem ((order.toForest.linked p c).mpr link))
  induction above with
  | single link => exact step link
  | tail _ link ih => exact ⟨Nat.le_trans (step link).1 ih.1, Nat.le_trans ih.2 (step link).2⟩

theorem within_preorder (order : t.InOrder) (mem : c ∈ t.preorder r) :
    (t.span r).start ≤ (t.span c).start ∧ (t.span c).stop ≤ (t.span r).stop := by
  rcases order.toForest.mem_preorder_iff.mp mem with rfl | above
  · exact ⟨Nat.le_refl _, Nat.le_refl _⟩
  · exact order.within above

/-- Of two nodes of a preorder the first is above the other or ends before it begins. -/
theorem pairwise_preorder (order : t.InOrder) (r : Ref) :
    (t.preorder r).Pairwise fun a c => t.Above a c ∨ (t.span a).stop ≤ (t.span c).start := by
  induction r using order.toForest.induction with
  | step r ih =>
    rw [order.toForest.preorder_eq, List.pairwise_cons, List.pairwise_flatMap]
    refine ⟨fun c below => .inl (order.toForest.mem_below_iff.mp below), ih, ?_⟩
    refine (List.pairwise_map.mp (order.spaced r).pairwise).imp fun {one other} apart a first c later => .inr ?_
    calc (t.span a).stop
        ≤ (t.span one).stop := (order.within_preorder first).2
      _ ≤ (t.span other).start := apart
      _ ≤ (t.span c).start := (order.within_preorder later).1

/-- Nodes begin in preorder. -/
theorem pairwise_start (order : t.InOrder) (r : Ref) :
    (t.preorder r).Pairwise fun a c => (t.span a).start ≤ (t.span c).start := by
  refine (order.pairwise_preorder r).imp fun {a c} earlier => ?_
  rcases earlier with above | before
  · exact (order.within above).1
  · exact Nat.le_trans (order.spaced a).le before

/-- No leaf reaches into a later one. -/
theorem pairwise_leaves (order : t.InOrder) (r : Ref) :
    (t.leaves r).Pairwise fun a c => (t.span a).stop ≤ (t.span c).start := by
  rw [order.toForest.leaves_eq]
  refine ((order.pairwise_preorder r).filter _).imp_of_mem fun {a c} mem _ earlier => ?_
  refine earlier.resolve_left fun above => ?_
  obtain ⟨child, _, link⟩ := Relation.TransGen.tail'_iff.mp above
  have listed := (order.toForest.linked a child).mpr link
  rw [List.isEmpty_iff.mp (List.mem_filter.mp mem).2] at listed
  cases listed

end InOrder

/-- Just the nodes at and below the root are attached. -/
theorem Rooted.isAttached_iff (rooted : t.Rooted) : t.isAttached c = true ↔ c ∈ t.preorder t.root := by
  constructor
  · intro attached
    rw [ParseTree.isAttached, beq_iff_eq, ParseTree.top] at attached
    rw [rooted.toForest.mem_preorder_iff, ← attached]
    exact (topFrom_eq_or_above t.size c).imp_left Eq.symm
  · intro mem
    have hangs := rooted.toForest.hangs_plantAt t.root
    rw [rooted.top] at hangs
    rw [ParseTree.isAttached, beq_iff_eq, hangs.top_eq (hangs.length_le rooted.toForest ?_) mem, place_plantAt]
    rw [place_plantAt]
    exact rooted.inside

end ParseTree

namespace Match

open ParseTree (Edit InOrder)

variable {σ : Type} {g : Grammar} {id : NodeId} {input : String} {offset : Nat} {limits : Limits}
  {tracer : Tracer σ} {gathered : σ} {found : Found} {furthest : Nat}

/-- The tree of a match is in the order of its text. -/
theorem inOrder_of_traceAt
    (ends : (traceAt g id input offset limits tracer gathered).1 = .ok ⟨some found, furthest⟩) :
    found.tree.InOrder where
  toRooted := rooted_of_traceAt ends
  spaced r := by
    obtain ⟨_, _, covered⟩ := covered_of_traceAt ends
    by_cases inside : r < found.tree.size
    · have own := (covered r inside).1.1
      by_cases leaf : found.tree.children r = []
      · rw [leaf]
        exact own.ordered
      · exact (own.tiled leaf).spaced
    · rw [ParseTree.span, ParseTree.children, ParseTree.node_of_size_le _ (Nat.not_lt.mp inside)]
      exact Nat.le_refl 0

/-- **Culling keeps the order of the text.** After any removals, lifts and culls of a matched tree, at any nodes, the
children of every node lie in its span one behind the other. The attached nodes are those that a search from the root
goes through, and they begin in this order. The leaves of every node come in the order of the text, and none reaches
into the next. -/
theorem culls_keep_order
    (ends : (traceAt g id input offset limits tracer gathered).1 = .ok ⟨some found, furthest⟩)
    (edits : List Edit) (culls : ∀ e ∈ edits, e.culls = true) :
    let t := found.tree.editAll edits
    (∀ r, Spaced (t.span r).start ((t.children r).map t.span) (t.span r).stop) ∧
      ((∀ c, t.isAttached c = true ↔ c ∈ t.root :: t.descendants t.root .rootFirst) ∧
        (t.root :: t.descendants t.root .rootFirst).Pairwise fun a c => (t.span a).start ≤ (t.span c).start) ∧
      ∀ r, (t.leaves r).Pairwise fun a c => (t.span a).stop ≤ (t.span c).start := by
  intro t
  have order : t.InOrder := (inOrder_of_traceAt ends).editAll culls
  rw [order.toForest.descendants_rootFirst, ← order.toForest.preorder_eq]
  exact ⟨order.spaced, ⟨fun c => order.toRooted.isAttached_iff, order.pairwise_start t.root⟩, order.pairwise_leaves⟩

/-- A tree with a gap in it: a letter was removed, and the sequence around the other one is now a leaf. -/
theorem letters_culled :
    (traceAt letters 6 (String.ofList ['x', 'a', 'b', 'c']) 1 {} .silent ()).1 =
        .ok ⟨some ⟨ParseTree.lettersTree, 3⟩, 3⟩ ∧
      let t := ParseTree.lettersTree.editAll [.remove 1, .cull 4 [⟨.named ["outer"], .delete⟩]]
      (t.leaves 4 = [0, 3] ∧ t.leaves 1 = [1]) ∧
        [0, 3].Pairwise (fun a c => (t.span a).stop ≤ (t.span c).start) := by
  have ends := ParseTree.traceAt_lettersTree
  obtain ⟨_, _, leaves⟩ := culls_keep_order ends [.remove 1, .cull 4 [⟨.named ["outer"], .delete⟩]] (by decide)
  exact ⟨ends, ⟨by decide, by decide⟩, leaves 4⟩

end Match

end BnfTokenizer
