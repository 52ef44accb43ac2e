import BnfTokenizer.Proofs.Grammar.Exactness
import BnfTokenizer.Proofs.Grammar.Twins

/-!
# What a report of left recursion says

The search finds a round of entries, and the report gives the names on it. Whether one can read the round off the names
is settled by the node that the round begins with (`leftRecursion_describes_iff`). If it has a name, the names begin and
end with it. If no node has one, the report falls back on the rule above. But a round that begins with a nameless node
is cut open between its names: the report ends before it comes to the first name again, and of a round with a single
name it gives the rule above instead.
-/

namespace BnfTokenizer.Grammar

variable {g : Grammar} {root start : NodeId} {between : List NodeId} {chain : List String}

/-- Entries lead from a node that the root reaches through others, none of them twice, back to that node. -/
structure Round (g : Grammar) (root start : NodeId) (between : List NodeId) : Prop where
  distinct : (start :: between).Nodup
  reached : ∀ id ∈ start :: between, g.Reaches root id
  enters : (start :: (between ++ [start])).IsChain g.Enters

/-- Names describe some nodes: they end as they begin, and if there are names on these nodes, they are of those. -/
structure Describes (g : Grammar) (ids : List NodeId) (names : List String) : Prop where
  returns : names.head? = names.getLast?
  own : (∃ id ∈ ids, (g.name id).isSome) → ∀ name ∈ names, ∃ id ∈ ids, g.name id = some name

/-! ## The cycle behind a report -/

theorem round_of_leftCycle? {cycle : List NodeId}
    (found : g.leftCycle? (g.reachable root) (g.nullable (g.reachable root)) = some cycle) :
    ∃ start between, cycle = start :: (between ++ [start]) ∧ g.Round root start between ∧
      ((∃ above ∈ g.reachable root, above ∉ start :: between ∧ g.Enters above start) ∨
        ∃ before after, g.reachable root = before ++ start :: after ∧ ∀ id ∈ start :: between, id ∉ before) := by
  obtain ⟨start, between, rfl, distinct, ⟨closed, listed⟩, begins⟩ :=
    begins_of_leftCycle? (fun _ => lt_size_of_mem_reachable) (fun _ mem _ => mem_reachable_of_entry mem) found
  obtain ⟨_, _, same, chain⟩ := closed
  have reached : ∀ id ∈ start :: between, g.Reaches root id := fun id mem =>
    (mem_reachable_iff.mp (listed id (List.mem_append_left [start] mem))).1
  have enters : (start :: (between ++ [start])).IsChain g.Enters :=
    chain.imp_of_mem_imp fun above below here _ entered => (mem_entries_reachable_iff (listed above here)).mp entered
  refine ⟨start, between, rfl, ⟨distinct, reached, enters⟩, begins.imp_left ?_⟩
  rintro ⟨above, mem, elsewhere, entered⟩
  exact ⟨above, mem, elsewhere, (mem_entries_reachable_iff mem).mp entered⟩

theorem cycle_of_leftRecursion (reported : g.defect? root = some (.leftRecursion chain)) :
    ∃ cycle, g.leftCycle? (g.reachable root) (g.nullable (g.reachable root)) = some cycle ∧
      chain = g.cycleNames root cycle := by
  unfold defect? at reported
  dsimp only at reported
  split at reported
  · cases reported
  · split at reported
    · cases reported
    · obtain ⟨cycle, found, same⟩ := Option.map_eq_some_iff.mp reported
      cases same
      exact ⟨cycle, found, rfl⟩

theorem Round.exists_into (round : g.Round root start between) : ∃ last ∈ start :: between, g.Enters last start := by
  have ends : (start :: between).getLast? = some ((start :: between).getLast (List.cons_ne_nil _ _)) :=
    List.getLast?_eq_some_getLast _
  exact ⟨_, List.mem_of_getLast? ends, (List.isChain_append.mp round.enters).2.2 _ ends start rfl⟩

/-- The nodes on a round have children. -/
theorem Round.exists_out (round : g.Round root start between) : ∀ id ∈ start :: between, ∃ next, g.Enters id next := by
  intro id mem
  obtain ⟨before, after, split⟩ := List.append_of_mem mem
  have enters := round.enters
  rw [← List.cons_append, split, List.append_assoc, List.cons_append] at enters
  obtain ⟨next, later, same⟩ :=
    List.exists_cons_of_ne_nil (List.append_ne_nil_of_right_ne_nil after (List.cons_ne_nil start []))
  rw [same] at enters
  exact ⟨next, (List.isChain_cons_cons.mp (List.isChain_append.mp enters).2.1).1⟩

/-- **A round in a grammar where nothing stands twice begins with the body of a rule.** A nameless node is the child of
one node only, so a search that comes to it first from elsewhere does not come back to it. -/
theorem Placed.ruleName?_of_leftCycle? (placed : Placed g root)
    (found : g.leftCycle? (g.reachable root) (g.nullable (g.reachable root)) = some (start :: (between ++ [start]))) :
    (g.ruleName? start).isSome := by
  obtain ⟨first, others, same, round, begins⟩ := round_of_leftCycle? found
  obtain ⟨rfl, same⟩ := List.cons.inj same
  obtain rfl := List.append_cancel_right same
  by_contra nameless
  obtain ⟨last, mem, into⟩ := round.exists_into
  have one : ∀ {above}, above ∈ g.reachable root → g.Edge above start → above = last := by
    intro above listed edge
    obtain ⟨_, place⟩ := List.mem_iff_getElem?.mp edge
    obtain ⟨_, place'⟩ := List.mem_iff_getElem?.mp into.edge
    exact (placed.once (mem_reachable_iff.mp listed).1 (round.reached last mem) place place'
      (Option.not_isSome_iff_eq_none.mp nameless)).1
  rcases begins with ⟨above, listed, elsewhere, entered⟩ | ⟨before, after, split, first⟩
  · exact elsewhere (one listed entered.edge ▸ mem)
  · rcases (walk_search g _ root ()).parent split with atRoot | ⟨above, earlier, edge⟩
    · obtain rfl := List.mem_singleton.mp atRoot
      exact nameless placed.root
    · have listed : above ∈ g.reachable root := split ▸ List.mem_append_left _ earlier
      exact first last mem (one listed edge ▸ earlier)

theorem repetition_of_nullableRepetition {rule : String} (reported : g.defect? root = some (.nullableRepetition rule)) :
    ∃ id child, g.Reaches root id ∧ g.kind id = .repetition child ∧ g.Nullable child ∧ rule = g.owner root id := by
  unfold defect? at reported
  dsimp only at reported
  split at reported
  · cases reported
  · split at reported
    · next id found =>
      cases reported
      have repeats := List.find?_some found
      have reaches := (mem_reachable_iff.mp (List.mem_of_find?_eq_some found)).1
      unfold repeatsNothing at repeats
      split at repeats
      · next child kind => exact ⟨id, child, reaches, kind, nullable_right repeats, rfl⟩
      · cases repeats
    · obtain ⟨_, _, ⟨⟩⟩ := Option.map_eq_some_iff.mp reported

/-! ## Its names -/

theorem cycleNames_named {name : String} (named : g.name start = some name) :
    g.cycleNames root (start :: (between ++ [start])) = name :: (between.filterMap g.name ++ [name]) := by
  simp [cycleNames, named]

theorem cycleNames_nameless (nameless : g.name start = none) :
    g.cycleNames root (start :: (between ++ [start])) =
      if (between.filterMap g.name).length < 2 then [g.owner root start, g.owner root start]
      else between.filterMap g.name := by
  simp [cycleNames, nameless]

theorem exists_name_iff {ids : List NodeId} : (∃ id ∈ ids, (g.name id).isSome) ↔ ids.filterMap g.name ≠ [] := by
  rw [ne_eq, List.filterMap_eq_nil_iff, not_forall]
  simp [Option.isSome_iff_ne_none]

/-- The rule above a round that begins with a nameless node is on the round only if its name is there. -/
theorem describes_owner_iff {owner : String} (nameless : g.name start = none) :
    g.Describes (start :: (between ++ [start])) [owner, owner] ↔
      (between.filterMap g.name ≠ [] → owner ∈ between.filterMap g.name) := by
  have names : (start :: (between ++ [start])).filterMap g.name = between.filterMap g.name := by simp [nameless]
  constructor
  · rintro ⟨_, own⟩ some
    rw [exists_name_iff, names] at own
    rw [← names]
    exact List.mem_filterMap.mpr (own some owner List.mem_cons_self)
  · intro listed
    refine ⟨rfl, fun some name mem => ?_⟩
    rw [exists_name_iff, names] at some
    obtain rfl : name = owner := by simpa using mem
    have here := listed some
    rw [← names] at here
    exact List.mem_filterMap.mp here

/-- **When a report describes its cycle.** Behind a report of left recursion there is a round. The names that are
reported describe it exactly if it begins with a node that has a name, or has no names at all, or its only name is the
rule above its first node, or its names happen to end as they begin. -/
theorem leftRecursion_describes_iff (g : Grammar) (root : NodeId) (chain : List String)
    (reported : g.defect? root = some (.leftRecursion chain)) :
    ∃ start between,
      g.leftCycle? (g.reachable root) (g.nullable (g.reachable root)) = some (start :: (between ++ [start])) ∧
      g.Round root start between ∧ chain = g.cycleNames root (start :: (between ++ [start])) ∧
        (g.Describes (start :: (between ++ [start])) chain ↔
          (g.name start).isSome ∨ between.filterMap g.name = [] ∨ between.filterMap g.name = [g.owner root start] ∨
            2 ≤ (between.filterMap g.name).length ∧
              (between.filterMap g.name).head? = (between.filterMap g.name).getLast?) := by
  obtain ⟨_, found, rfl⟩ := cycle_of_leftRecursion reported
  obtain ⟨start, between, rfl, round, _⟩ := round_of_leftCycle? found
  refine ⟨start, between, found, round, rfl, ?_⟩
  cases own : g.name start with
  | some name =>
    rw [cycleNames_named own]
    have returns : some name = (name :: (between.filterMap g.name ++ [name])).getLast? := by
      rw [← List.cons_append, List.getLast?_concat]
    refine ⟨fun _ => .inl rfl, fun _ => ⟨returns, fun _ other mem => ?_⟩⟩
    have names : (start :: (between ++ [start])).filterMap g.name = name :: (between.filterMap g.name ++ [name]) := by
      simp [own]
    exact List.mem_filterMap.mp (names ▸ mem)
  | none =>
    rw [cycleNames_nameless own]
    split
    · next few =>
      rw [describes_owner_iff own]
      match between.filterMap g.name, few with
      | [], _ => simp
      | [name], _ => simp [eq_comm]
    · next many =>
      have two : 2 ≤ (between.filterMap g.name).length := Nat.not_lt.mp many
      constructor
      · exact fun describes => .inr (.inr (.inr ⟨two, describes.returns⟩))
      · rintro (⟨⟨⟩⟩ | none | one | ⟨_, returns⟩)
        · rw [none] at two
          exact absurd two (by decide)
        · rw [one] at two
          exact absurd two (by simp)
        · refine ⟨returns, fun _ name mem => ?_⟩
          obtain ⟨id, listed, named⟩ := List.mem_filterMap.mp mem
          exact ⟨id, List.mem_cons_of_mem _ (List.mem_append_left _ listed), named⟩

/-- Three nodes in a round, one of them nameless. -/
def winding : Grammar :=
  ⟨#[⟨none, .sequence [1]⟩, ⟨some "a", .sequence [2]⟩, ⟨some "b", .sequence [0]⟩]⟩

/-- A round with one name, below a node with another. -/
def crowned : Grammar :=
  ⟨#[⟨some "top", .sequence [1]⟩, ⟨none, .sequence [2]⟩, ⟨some "a", .sequence [1]⟩]⟩

/-- The round is described to whoever enters it at a node with a name. -/
theorem winding_described : winding.defect? 1 = some (.leftRecursion ["a", "b", "a"]) ∧
    winding.Describes [1, 2, 0, 1] ["a", "b", "a"] := by
  have reported : winding.defect? 1 = some (.leftRecursion ["a", "b", "a"]) := by decide
  obtain ⟨start, between, found, _, _, exact⟩ := leftRecursion_describes_iff winding 1 _ reported
  have cycle : winding.leftCycle? (winding.reachable 1) (winding.nullable (winding.reachable 1)) =
      some (1 :: ([2, 0] ++ [1])) := by decide
  rw [cycle, Option.some.injEq, List.cons.injEq] at found
  obtain ⟨rfl, same⟩ := found
  rw [← same] at exact
  exact ⟨reported, exact.mpr (.inl rfl)⟩

/-- The same round is cut open where it begins with the nameless node, and of the other the name above is reported. -/
theorem winding_cut_open : winding.defect? 0 = some (.leftRecursion ["a", "b"]) ∧
    winding.leftCycle? (winding.reachable 0) (winding.nullable (winding.reachable 0)) = some [0, 1, 2, 0] ∧
      ¬ winding.Describes [0, 1, 2, 0] ["a", "b"] ∧
    crowned.defect? 0 = some (.leftRecursion ["top", "top"]) ∧
      crowned.leftCycle? (crowned.reachable 0) (crowned.nullable (crowned.reachable 0)) = some [1, 2, 1] ∧
        ¬ crowned.Describes [1, 2, 1] ["top", "top"] := by
  refine ⟨by decide, by decide, fun describes => ?_, by decide, by decide, fun describes => ?_⟩
  · exact absurd describes.returns (by decide)
  · have listed := describes.own (by decide) "top" List.mem_cons_self
    exact absurd listed (by decide)

end BnfTokenizer.Grammar
