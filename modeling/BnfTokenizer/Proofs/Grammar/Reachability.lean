import Mathlib.Algebra.GroupWithZero.Nat
import Mathlib.Logic.Relation
import BnfTokenizer.Grammar.Reachable

/-!
# What a search from a root visits

The search of a grammar keeps a stack and marks the nodes it has seen. `Search` says what such a search
gives, step by step and without fuel, and `walkFrom_search` that the fuel is never what ends one: each
node that was not seen yet puts its children on the stack once, so a search takes no more steps than there
are nodes on the stack and edges below nodes that were not seen.

From there everything is an induction on `Search`: it visits a node once, and it visits exactly the nodes
that a chain of edges leads to (`mem_reachable_iff`).
-/

namespace BnfTokenizer.Grammar

variable {α : Type} {g : Grammar} {inherit : NodeId → α → α}

/-- An edge from a node to one of its children. -/
def Edge (g : Grammar) (a b : NodeId) : Prop :=
  b ∈ g.children a

/-- A chain of edges. -/
def Reaches (g : Grammar) : NodeId → NodeId → Prop :=
  Relation.ReflTransGen g.Edge

theorem getElem?_eq_some_iff {id : NodeId} {row : Node} : g.nodes[id]? = some row ↔ id < g.size ∧ g.node id = row := by
  rw [node, Array.getD_eq_getD_getElem?]
  constructor
  · intro found
    rw [found]
    exact ⟨(Array.getElem?_eq_some_iff.mp found).1, rfl⟩
  · rintro ⟨inside, rfl⟩
    have within : id < g.nodes.size := inside
    rw [Array.getElem?_eq_getElem within]
    rfl

theorem node_of_size_le {id : NodeId} (h : g.size ≤ id) : g.node id = .nothing := by
  have outside : g.nodes.size ≤ id := h
  rw [node, Array.getD_eq_getD_getElem?, Array.getElem?_eq_none outside]
  rfl

theorem kind_of_size_le {id : NodeId} (h : g.size ≤ id) : g.kind id = .choice [] := by
  rw [kind, node_of_size_le h]
  rfl

theorem children_of_size_le {id : NodeId} (h : g.size ≤ id) : g.children id = [] := by
  rw [children, kind_of_size_le h]
  rfl

/-- Only a node of the table has children. -/
theorem Edge.lt_size {a b : NodeId} (edge : g.Edge a b) : a < g.size := by
  refine Nat.not_le.mp fun outside => ?_
  rw [Edge, children_of_size_le outside] at edge
  cases edge

theorem Closed.lt_size (closed : g.Closed) {a b : NodeId} (edge : g.Edge a b) : b < g.size := by
  by_cases inside : a < g.nodes.size
  · refine closed g.nodes[a] (Array.getElem_mem inside) b ?_
    have same : g.node a = g.nodes[a] := by
      rw [node, Array.getD_eq_getD_getElem?, Array.getElem?_eq_getElem inside, Option.getD_some]
    rw [← same]
    exact edge
  · rw [Edge, children_of_size_le (Nat.not_lt.mp inside)] at edge
    cases edge

/-! ## Searches -/

/-- The nodes that were seen; an address outside the table counts as seen. -/
def Seen (seen : Array Bool) (id : NodeId) : Prop :=
  seen.getD id true = true

theorem seen_set {seen : Array Bool} {id other : NodeId} :
    Seen (seen.setIfInBounds id true) other ↔ other = id ∨ Seen seen other := by
  unfold Seen
  rw [Array.getD_eq_getD_getElem?, Array.getD_eq_getD_getElem?, Array.getElem?_setIfInBounds]
  by_cases same : id = other
  · subst same
    by_cases inside : id < seen.size
    · simp [inside]
    · simp [inside]
  · simp [same, Ne.symm same]

theorem not_seen_replicate {n : Nat} {id : NodeId} (h : id < n) :
    ¬ Seen (Array.replicate n false) id := by
  simp [Seen, h]

/-- What a search visits that has these nodes on its stack and has seen those nodes. -/
inductive Search (g : Grammar) (inherit : NodeId → α → α) :
    List (NodeId × α) → Array Bool → List (NodeId × α) → Prop
  | done {seen} : Search g inherit [] seen []
  | skip {id a stack seen visits} (again : Seen seen id) (rest : Search g inherit stack seen visits) :
      Search g inherit ((id, a) :: stack) seen visits
  | visit {id a stack seen visits} (first : ¬ Seen seen id)
      (rest : Search g inherit
        ((g.children id).map (fun child => (child, inherit id a)) ++ stack)
        (seen.setIfInBounds id true) visits) :
      Search g inherit ((id, a) :: stack) seen ((id, inherit id a) :: visits)

/-- The number of edges below some nodes that were not seen. -/
def pending (g : Grammar) (seen : Array Bool) (ids : List NodeId) : Nat :=
  (ids.map fun id => if seen.getD id true then 0 else (g.children id).length).sum

theorem pending_set_of_not_mem (g : Grammar) (seen : Array Bool) {id : NodeId} {ids : List NodeId} (h : id ∉ ids) :
    g.pending (seen.setIfInBounds id true) ids = g.pending seen ids := by
  refine congrArg List.sum (List.map_congr_left ?_)
  intro other mem
  have differs : id ≠ other := fun same => h (same ▸ mem)
  simp only [Array.getD_eq_getD_getElem?, Array.getElem?_setIfInBounds_ne differs]

theorem map_fst_labels (ids : List NodeId) (label : NodeId → α) :
    (ids.map fun id => (id, label id)).map Prod.fst = ids := by
  rw [List.map_map]
  exact List.map_id _

/-- A node that is seen for the first time takes its edges out. -/
theorem pending_set {seen : Array Bool} {id : NodeId} (first : ¬ Seen seen id) :
    ∀ {ids : List NodeId}, ids.Nodup → id ∈ ids →
      g.pending (seen.setIfInBounds id true) ids + (g.children id).length = g.pending seen ids
  | other :: ids, distinct, mem => by
    obtain ⟨absent, distinct⟩ := List.nodup_cons.mp distinct
    have marked : (seen.setIfInBounds id true).getD id true = true := seen_set.mpr (.inl rfl)
    by_cases same : other = id
    · subst same
      have unmarked : seen.getD other true = false := Bool.eq_false_iff.mpr first
      have rest := pending_set_of_not_mem g seen absent
      unfold pending at rest ⊢
      rw [List.map_cons, List.sum_cons, List.map_cons, List.sum_cons, rest, marked, unmarked]
      simp [Nat.add_comm]
    · have later : id ∈ ids := (List.mem_cons.mp mem).resolve_left (Ne.symm same)
      have rest := pending_set first distinct later
      have kept : (seen.setIfInBounds id true).getD other true = seen.getD other true := by
        simp only [Array.getD_eq_getD_getElem?, Array.getElem?_setIfInBounds_ne (Ne.symm same)]
      unfold pending at rest ⊢
      rw [List.map_cons, List.sum_cons, List.map_cons, List.sum_cons, kept]
      omega

theorem lt_size_of_not_seen {seen : Array Bool} {id : NodeId} (first : ¬ Seen seen id) :
    id < seen.size := by
  refine Nat.not_le.mp fun outside => first ?_
  rw [Seen, Array.getD_eq_getD_getElem?, Array.getElem?_eq_none outside]
  rfl

/-- **Fuel does not end a search.** -/
theorem walkFrom_search (fuel : Nat) (stack : List (NodeId × α)) (seen : Array Bool)
    (size : seen.size = g.size)
    (enough : stack.length + g.pending seen (List.range g.size) ≤ fuel) :
    Search g inherit stack seen (g.walkFrom inherit fuel stack seen) := by
  induction fuel generalizing stack seen with
  | zero =>
    have empty : stack = [] := List.eq_nil_of_length_eq_zero (by omega)
    subst empty
    exact .done
  | succ fuel ih =>
    match stack with
    | [] => exact .done
    | (id, a) :: stack =>
      rw [List.length_cons] at enough
      unfold walkFrom
      split
      · next again => exact .skip again (ih stack seen size (by omega))
      · next first =>
        have inside : id ∈ List.range g.size :=
          List.mem_range.mpr (size ▸ lt_size_of_not_seen first)
        have fewer := pending_set (g := g) first List.nodup_range inside
        refine .visit first (ih _ _ ((Array.size_setIfInBounds ..).trans size) ?_)
        rw [List.length_append, List.length_map]
        omega

theorem pending_replicate (g : Grammar) :
    g.pending (Array.replicate g.size false) (List.range g.size) = g.edgeCount := by
  have rows : (List.range g.size).map (fun id => if (Array.replicate g.size false).getD id true then 0
      else (g.children id).length) = g.nodes.toList.map fun node => node.kind.children.length := by
    refine List.ext_getElem ?_ ?_
    · rw [List.length_map, List.length_map, List.length_range, Array.length_toList, size]
    · intro i left right
      rw [List.length_map, Array.length_toList] at right
      have unseen : (Array.replicate g.size false).getD i true = false :=
        Bool.eq_false_iff.mpr (not_seen_replicate right)
      rw [List.getElem_map, List.getElem_map, List.getElem_range, unseen, children, kind, node,
        Array.getD_eq_getD_getElem?, Array.getElem?_eq_getElem right]
      rfl
  rw [pending, rows, edgeCount, List.length_flatMap]

theorem walk_search (g : Grammar) (inherit : NodeId → α → α) (root : NodeId) (start : α) :
    Search g inherit [(root, start)] (Array.replicate g.size false) (g.walk inherit root start) := by
  refine walkFrom_search _ _ _ Array.size_replicate (Nat.le_of_eq ?_)
  rw [pending_replicate, List.length_singleton, Nat.add_comm]

/-! ## What a search visits -/

/-- Nothing is visited twice, and nothing that was seen before. -/
theorem Search.fresh {stack : List (NodeId × α)} {seen : Array Bool} {visits : List (NodeId × α)}
    (search : Search g inherit stack seen visits) :
    (visits.map Prod.fst).Nodup ∧ ∀ id ∈ visits.map Prod.fst, ¬ Seen seen id := by
  induction search with
  | done => exact ⟨List.nodup_nil, nofun⟩
  | skip _ _ ih => exact ih
  | visit first _ ih =>
    obtain ⟨distinct, unseen⟩ := ih
    rw [List.map_cons]
    refine ⟨List.nodup_cons.mpr ⟨fun again => ?_, distinct⟩, ?_⟩
    · exact unseen _ again (seen_set.mpr (.inl rfl))
    · intro id mem
      rcases List.mem_cons.mp mem with rfl | later
      · exact first
      · exact fun seen => unseen id later (seen_set.mpr (.inr seen))

/-- Once a node is marked and visited, what is seen or visited after it was seen before or is visited from it on. -/
theorem seen_or_visited {entry : NodeId × α} {seen : Array Bool} {visits : List (NodeId × α)} {id : NodeId}
    (below : Seen (seen.setIfInBounds entry.1 true) id ∨ id ∈ visits.map Prod.fst) :
    Seen seen id ∨ id ∈ (entry :: visits).map Prod.fst := by
  rw [seen_set] at below
  rcases below with (rfl | seen) | visited
  · exact .inr List.mem_cons_self
  · exact .inl seen
  · exact .inr (List.mem_cons_of_mem _ visited)

/-- What is on the stack is visited unless it was seen before. -/
theorem Search.takes {stack : List (NodeId × α)} {seen : Array Bool} {visits : List (NodeId × α)}
    (search : Search g inherit stack seen visits) :
    ∀ id ∈ stack.map Prod.fst, Seen seen id ∨ id ∈ visits.map Prod.fst := by
  induction search with
  | done => exact nofun
  | skip again _ ih =>
    intro id mem
    rcases List.mem_cons.mp mem with rfl | later
    · exact .inl again
    · exact ih id later
  | visit _ _ ih =>
    intro id mem
    rcases List.mem_cons.mp mem with rfl | later
    · exact .inr List.mem_cons_self
    · have below := ih id (by rw [List.map_append]; exact List.mem_append_right _ later)
      exact seen_or_visited below

/-- With a node its children are visited unless they were seen before. -/
theorem Search.descends {stack : List (NodeId × α)} {seen : Array Bool} {visits : List (NodeId × α)}
    (search : Search g inherit stack seen visits) {a b : NodeId} (visited : a ∈ visits.map Prod.fst)
    (edge : g.Edge a b) : Seen seen b ∨ b ∈ visits.map Prod.fst := by
  induction search with
  | done => cases visited
  | skip _ _ ih => exact ih visited
  | @visit id _ _ seen visits _ rest ih =>
    have below : Seen (seen.setIfInBounds id true) b ∨ b ∈ visits.map Prod.fst := by
      rcases List.mem_cons.mp visited with rfl | later
      · refine rest.takes b ?_
        rw [List.map_append, List.map_map]
        exact List.mem_append_left _ (List.mem_map.mpr ⟨b, edge, rfl⟩)
      · exact ih later
    exact seen_or_visited below

/-- A chain of edges leads from the stack to everything that is visited. -/
theorem Search.reached {stack : List (NodeId × α)} {seen : Array Bool} {visits : List (NodeId × α)}
    (search : Search g inherit stack seen visits) :
    ∀ b ∈ visits.map Prod.fst, ∃ a ∈ stack.map Prod.fst, g.Reaches a b := by
  induction search with
  | done => exact nofun
  | skip _ _ ih =>
    intro b visited
    obtain ⟨a, mem, chain⟩ := ih b visited
    exact ⟨a, List.mem_cons_of_mem _ mem, chain⟩
  | visit _ _ ih =>
    intro b visited
    rcases List.mem_cons.mp visited with rfl | later
    · exact ⟨_, List.mem_cons_self, .refl⟩
    · obtain ⟨a, mem, chain⟩ := ih b later
      rw [List.map_append, List.map_map, List.mem_append] at mem
      rcases mem with child | stacked
      · obtain ⟨_, edge, rfl⟩ := List.mem_map.mp child
        exact ⟨_, List.mem_cons_self, .head edge chain⟩
      · exact ⟨a, List.mem_cons_of_mem _ stacked, chain⟩

/-- What is visited was on the stack, or is the child of a node that was visited before it. -/
theorem Search.parent {stack : List (NodeId × α)} {seen : Array Bool} {visits : List (NodeId × α)}
    (search : Search g inherit stack seen visits) {before after : List NodeId} {b : NodeId}
    (split : visits.map Prod.fst = before ++ b :: after) :
    b ∈ stack.map Prod.fst ∨ ∃ a ∈ before, g.Edge a b := by
  induction search generalizing before with
  | done => exact absurd split.symm (List.append_ne_nil_of_right_ne_nil _ (List.cons_ne_nil _ _))
  | skip _ _ ih => exact (ih split).imp_left (List.mem_cons_of_mem _)
  | @visit id _ _ _ _ _ _ ih =>
    cases before with
    | nil =>
      cases split
      exact .inl List.mem_cons_self
    | cons first before =>
      obtain ⟨rfl, later⟩ := List.cons.inj split
      rcases ih later with waits | ⟨a, mem, edge⟩
      · rw [List.map_append, Grammar.map_fst_labels, List.mem_append] at waits
        rcases waits with child | stacked
        · exact .inr ⟨id, List.mem_cons_self, child⟩
        · exact .inl (List.mem_cons_of_mem _ stacked)
      · exact .inr ⟨a, List.mem_cons_of_mem _ mem, edge⟩

/-- What holds of the visits follows from what a node hands down to its children. -/
theorem Search.labelled {waits holds : NodeId → α → Prop} (visit : ∀ id a, waits id a → holds id (inherit id a))
    (below : ∀ id a child, holds id a → g.Edge id child → waits child a) {stack : List (NodeId × α)}
    {seen : Array Bool} {visits : List (NodeId × α)} (search : Search g inherit stack seen visits)
    (start : ∀ entry ∈ stack, waits entry.1 entry.2) : ∀ entry ∈ visits, holds entry.1 entry.2 := by
  induction search with
  | done => exact nofun
  | skip _ _ ih => exact ih (List.forall_mem_cons.mp start).2
  | @visit id a _ _ _ _ _ ih =>
    obtain ⟨own, others⟩ := List.forall_mem_cons.mp start
    have here := visit id a own
    refine List.forall_mem_cons.mpr ⟨here, ih (List.forall_mem_append.mpr ⟨fun entry mem => ?_, others⟩)⟩
    obtain ⟨child, edge, rfl⟩ := List.mem_map.mp mem
    exact below id (inherit id a) child here edge

section

variable {root : NodeId}

/-- **What a search from a root visits**: the nodes of the table that a chain of edges leads to. -/
theorem mem_walk_iff {start : α} {id : NodeId} :
    id ∈ (g.walk inherit root start).map Prod.fst ↔ g.Reaches root id ∧ id < g.size := by
  have search := walk_search g inherit root start
  constructor
  · intro visited
    obtain ⟨_, listed, chain⟩ := search.reached id visited
    cases List.mem_singleton.mp listed
    exact ⟨chain, (Array.size_replicate (n := g.size)) ▸ lt_size_of_not_seen (search.fresh.2 id visited)⟩
  · rintro ⟨chain, inside⟩
    induction chain with
    | refl => exact (search.takes root List.mem_cons_self).resolve_left (not_seen_replicate inside)
    | tail _ edge ih => exact (search.descends (ih edge.lt_size) edge).resolve_left (not_seen_replicate inside)

theorem mem_reachable_iff {id : NodeId} : id ∈ g.reachable root ↔ g.Reaches root id ∧ id < g.size :=
  mem_walk_iff

theorem nodup_reachable (g : Grammar) (root : NodeId) : (g.reachable root).Nodup :=
  (walk_search g _ root ()).fresh.1

theorem lt_size_of_mem_reachable {id : NodeId} (mem : id ∈ g.reachable root) : id < g.size :=
  (mem_reachable_iff.mp mem).2

theorem root_mem_reachable (inside : root < g.size) : root ∈ g.reachable root :=
  mem_reachable_iff.mpr ⟨.refl, inside⟩

/-- Of the children of a node only those outside the table are not visited with it. -/
theorem mem_reachable_of_edge_of_lt {a b : NodeId} (mem : a ∈ g.reachable root) (edge : g.Edge a b)
    (inside : b < g.size) : b ∈ g.reachable root :=
  mem_reachable_iff.mpr ⟨(mem_reachable_iff.mp mem).1.tail edge, inside⟩

theorem mem_reachable_of_edge (closed : g.Closed) {a b : NodeId} (mem : a ∈ g.reachable root)
    (edge : g.Edge a b) : b ∈ g.reachable root :=
  mem_reachable_of_edge_of_lt mem edge (closed.lt_size edge)

/-- The owner of a node is its label in the search for owners. -/
theorem exists_owner {id : NodeId} (mem : id ∈ g.reachable root) :
    ∃ label, (id, label) ∈ g.owners root ∧ g.owner root id = label.getD anonymous := by
  have visited : id ∈ (g.owners root).map Prod.fst := mem_walk_iff.mpr (mem_reachable_iff.mp mem)
  obtain ⟨⟨other, listed⟩, here, same⟩ := List.mem_map.mp visited
  cases found : (g.owners root).lookup id with
  | none => exact absurd (beq_iff_eq.mpr same.symm) (by simpa using List.lookup_eq_none_iff.mp found _ here)
  | some label =>
    obtain ⟨before, after, split, _⟩ := List.lookup_eq_some_iff.mp found
    refine ⟨label, split ▸ List.mem_append_right _ List.mem_cons_self, ?_⟩
    rw [owner, found]
    rfl

end

end BnfTokenizer.Grammar
