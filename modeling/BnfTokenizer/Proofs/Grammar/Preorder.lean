import BnfTokenizer.Proofs.Grammar.Reachability

/-!
# The order of a search is the order of the recursion

The search of a grammar keeps a stack and drops a node that comes up again; `depthFirst` is the recursion that it stands
for, which goes through the children of a node from left to right and leaves out those that were visited. Both list the
same nodes in the same order (`reachable_eq_depthFirst`).

What is still on the stack is what the recursion has yet to return to. `Explores` says what a recursion over some nodes
in turn lists, and since it parts where the nodes do (`Explores.append_iff`), the children that are put in front of the
stack are a call, and the stack behind them is what comes after it. So a search of a stack explores its nodes in turn.

The recursion is bounded by its levels. A call that goes deeper has one node less to visit, so as many levels as there
are nodes in the table are enough, and more change nothing.
-/

namespace BnfTokenizer.Grammar

/-- The recursive search from a node behind those that were visited: those, and then what is visited now. -/
def depthFirst (g : Grammar) : Nat → List NodeId → NodeId → List NodeId
  | 0, visited, _ => visited
  | levels + 1, visited, id =>
    if id ∈ visited then visited else (g.children id).foldl (g.depthFirst levels) (visited ++ [id])

/-- The search from a root comes to its end with nothing left on its stack, and has listed these nodes. -/
def SearchLists (g : Grammar) (root : NodeId) (order : List NodeId) : Prop :=
  ∃ visits, Search g (fun _ _ => ()) [(root, ())] (Array.replicate g.size false) visits ∧ order = visits.map Prod.fst

/-- What a recursive search lists that goes through some nodes in turn and leaves out those that were visited. -/
inductive Explores (g : Grammar) : List NodeId → List NodeId → List NodeId → Prop
  | done {visited} : Explores g visited [] []
  | skip {visited id ids order} (again : id ∈ visited) (rest : Explores g visited ids order) :
      Explores g visited (id :: ids) order
  | visit {visited id ids below order} (first : id ∉ visited)
      (down : Explores g (visited ++ [id]) (g.children id) below)
      (rest : Explores g (visited ++ id :: below) ids order) :
      Explores g visited (id :: ids) (id :: (below ++ order))

section

variable {g : Grammar} {visited ids ids' order : List NodeId} {id : NodeId}

/-- To go through nodes and then through others is to go through all of them. -/
theorem Explores.append_iff : Explores g visited (ids ++ ids') order ↔
    ∃ first second, order = first ++ second ∧ Explores g visited ids first ∧
      Explores g (visited ++ first) ids' second := by
  constructor
  · intro both
    induction ids generalizing visited order with
    | nil => exact ⟨[], order, rfl, .done, by rwa [List.append_nil]⟩
    | cons id ids ih =>
      cases both with
      | skip again rest =>
        obtain ⟨first, second, parts, left, right⟩ := ih rest
        exact ⟨first, second, parts, .skip again left, right⟩
      | @visit _ _ _ below _ fresh down rest =>
        obtain ⟨first, second, rfl, left, right⟩ := ih rest
        refine ⟨id :: (below ++ first), second, by rw [List.cons_append, List.append_assoc], .visit fresh down left, ?_⟩
        rwa [List.append_assoc, List.cons_append] at right
  · rintro ⟨first, second, rfl, left, right⟩
    induction left generalizing second with
    | done => rwa [List.append_nil] at right
    | skip again _ ih => exact .skip again (ih _ right)
    | @visit visited id _ below order fresh down _ _ ih =>
      have whole := ih second (by rwa [List.append_assoc, List.cons_append])
      rw [List.cons_append, List.cons_append, List.append_assoc]
      exact .visit fresh down whole

/-- **A search explores the nodes on its stack in turn.** -/
theorem Search.explores {α : Type} {inherit : NodeId → α → α} {stack : List (NodeId × α)} {seen : Array Bool}
    {visits : List (NodeId × α)} (search : Search g inherit stack seen visits) (closed : g.Closed)
    (inside : ∀ id ∈ stack.map Prod.fst, id < g.size) (same : ∀ id < g.size, Seen seen id ↔ id ∈ visited) :
    Explores g visited (stack.map Prod.fst) (visits.map Prod.fst) := by
  induction search generalizing visited with
  | done => exact .done
  | skip again _ ih =>
    obtain ⟨own, others⟩ := List.forall_mem_cons.mp inside
    exact .skip ((same _ own).mp again) (ih others same)
  | @visit id a stack seen visits first _ ih =>
    obtain ⟨own, others⟩ := List.forall_mem_cons.mp inside
    have next : ((g.children id).map (fun child => (child, inherit id a)) ++ stack).map Prod.fst =
        g.children id ++ stack.map Prod.fst := by
      rw [List.map_append, map_fst_labels]
    rw [next] at ih
    have told := @ih (visited ++ [id]) (List.forall_mem_append.mpr ⟨fun _ edge => closed.lt_size edge, others⟩) (by
      intro other within
      rw [seen_set, same other within, List.mem_append, List.mem_singleton, or_comm])
    -- What was put in front of the stack is the call, and the stack behind it is what the call returns to.
    obtain ⟨below, rest, parts, down, after⟩ := Explores.append_iff.mp told
    rw [List.map_cons, List.map_cons, parts]
    refine .visit (fun mem => first ((same id own).mpr mem)) down ?_
    rwa [List.append_assoc] at after

/-! ## Levels -/

/-- The number of nodes of the table that were not visited. -/
def unvisited (g : Grammar) (visited : List NodeId) : Nat :=
  ((List.range g.size).filter fun id => id ∉ visited).length

theorem unvisited_append (g : Grammar) (visited more : List NodeId) : g.unvisited (visited ++ more) =
    (((List.range g.size).filter fun id => id ∉ visited).filter fun id => id ∉ more).length := by
  rw [unvisited, List.filter_filter]
  refine congrArg List.length (List.filter_congr fun id _ => ?_)
  rw [← Bool.decide_and, decide_eq_decide, List.mem_append, not_or, and_comm]

theorem unvisited_append_le (g : Grammar) (visited more : List NodeId) :
    g.unvisited (visited ++ more) ≤ g.unvisited visited := by
  rw [unvisited_append]
  exact List.length_filter_le ..

theorem unvisited_concat_lt (inside : id < g.size) (fresh : id ∉ visited) :
    g.unvisited (visited ++ [id]) < g.unvisited visited := by
  rw [unvisited_append]
  refine List.length_filter_lt_length_iff_exists.mpr ⟨id, ?_, ?_⟩
  · exact List.mem_filter.mpr ⟨List.mem_range.mpr inside, decide_eq_true fresh⟩
  · simp

/-- With a level for each node that was not visited, the recursion lists what it explores. -/
theorem Explores.depthFirst (explores : Explores g visited ids order) (closed : g.Closed)
    (inside : ∀ id ∈ ids, id < g.size) {levels : Nat} (enough : g.unvisited visited ≤ levels) :
    ids.foldl (g.depthFirst levels) visited = visited ++ order := by
  induction explores generalizing levels with
  | done => exact (List.append_nil _).symm
  | @skip visited id ids order again _ ih =>
    have stays : g.depthFirst levels visited id = visited := by
      cases levels with
      | zero => rfl
      | succ levels => exact if_pos again
    rw [List.foldl_cons, stays]
    exact ih (List.forall_mem_cons.mp inside).2 enough
  | @visit visited id ids below order first _ _ down rest =>
    obtain ⟨own, others⟩ := List.forall_mem_cons.mp inside
    -- A node that comes up for the first time leaves one node less for the call, which has one level less.
    have fewer := unvisited_concat_lt own first
    obtain ⟨levels, rfl⟩ : ∃ below, levels = below + 1 := ⟨levels - 1, by omega⟩
    have goes : g.depthFirst (levels + 1) visited id = visited ++ id :: below := by
      rw [Grammar.depthFirst, if_neg first, down (fun _ edge => closed.lt_size edge) (by omega), List.append_assoc]
      rfl
    have after := unvisited_append_le g visited (id :: below)
    rw [List.foldl_cons, goes, rest others (by omega), List.append_assoc, List.cons_append]

end

/-- Every search from a root comes to its end. -/
theorem searchLists_reachable (g : Grammar) (root : NodeId) : g.SearchLists root (g.reachable root) :=
  ⟨_, walk_search g (fun _ _ => ()) root (), rfl⟩

/-- **What a root reaches is listed depth first.** In a grammar whose edges stay in the table, from a root in the table,
the search comes to its end with nothing left on its stack. It lists exactly the nodes that a chain of edges leads to,
each once, and in the order of the recursion that goes through the children of each node from left to right and leaves
out those that were visited. -/
theorem reachable_eq_depthFirst (g : Grammar) (closed : g.Closed) (root : NodeId) (inside : root < g.size) :
    g.SearchLists root (g.reachable root) ∧
      (∀ id, id ∈ g.reachable root ↔ g.Reaches root id) ∧
      (g.reachable root).Nodup ∧
      ∀ levels, g.size ≤ levels → g.reachable root = g.depthFirst levels [] root := by
  refine ⟨searchLists_reachable g root, fun id => ?_, nodup_reachable g root, fun levels enough => ?_⟩
  · rw [mem_reachable_iff]
    refine ⟨And.left, fun chain => ⟨chain, ?_⟩⟩
    obtain rfl | ⟨_, _, last⟩ := Relation.ReflTransGen.cases_tail chain
    · exact inside
    · exact closed.lt_size last
  · have unseen : ∀ id < g.size, Seen (Array.replicate g.size false) id ↔ id ∈ ([] : List NodeId) :=
      fun id within => iff_of_false (not_seen_replicate within) List.not_mem_nil
    have explores := (walk_search g (fun _ _ => ()) root ()).explores closed (List.forall_mem_singleton.mpr inside) unseen
    have all : g.unvisited [] ≤ levels := by
      refine Nat.le_trans (List.length_filter_le ..) ?_
      rwa [List.length_range]
    exact (explores.depthFirst closed (List.forall_mem_singleton.mpr inside) all).symm

/-- A loop in which two branches meet again: the node they share is left out the second time, and so is the root. -/
def diamond : Grammar :=
  ⟨#[⟨none, .choice [2, 1]⟩, ⟨none, .sequence [3, 2]⟩, ⟨none, .sequence [3, 0]⟩, ⟨none, .literal ['a']⟩,
    ⟨none, .endOfInput⟩]⟩

theorem diamond_depthFirst :
    diamond.Closed ∧ diamond.reachable 0 = [0, 2, 3, 1] ∧ diamond.depthFirst 5 [] 0 = [0, 2, 3, 1] ∧
      ¬ diamond.Reaches 0 4 := by
  have closed : diamond.Closed := by
    unfold Closed
    decide
  obtain ⟨_, reaches, _, order⟩ := reachable_eq_depthFirst diamond closed 0 (by decide)
  have listed : diamond.reachable 0 = [0, 2, 3, 1] := by rfl
  refine ⟨closed, listed, ?_, ?_⟩
  · rw [← order 5 (Nat.le_refl 5), listed]
  · rw [← reaches, listed]
    decide

end BnfTokenizer.Grammar
