import BnfTokenizer.Grammar.Validation
import BnfTokenizer.Proofs.Grammar.Nullability

/-!
# What a grammar without defects has

`Ranked g ids rank` says without marks and searches why matching ends: no node is a placeholder, no
repetition is over something nullable, and `rank` falls along every entry. `defect?_eq_none_iff` says that
the check passes exactly the grammars that have such a rank.

The rank comes out of the search itself. A node is done only after all that it enters, so the nodes in the
order in which they are done, the last one in front, are `Layered`: each stands in front of what it enters,
and its rank is the number of nodes from there on. A search that meets an active node would have climbed
the ranks and come back to where it was, so where there is a rank it meets none.
-/

namespace BnfTokenizer.Grammar

variable {g : Grammar} {nullable : Array Bool} {ids : List NodeId}

/-- Matching a node may come to a child before anything was consumed. -/
inductive Enters (g : Grammar) : NodeId → NodeId → Prop
  | part {id before part after} (kind : g.kind id = .sequence (before ++ part :: after))
      (skipped : ∀ id ∈ before, g.Nullable id) : Enters g id part
  | alternative {id alternatives child} (kind : g.kind id = .choice alternatives)
      (mem : child ∈ alternatives) : Enters g id child
  | repetition {id child} (kind : g.kind id = .repetition child) : Enters g id child
  | optional {id child} (kind : g.kind id = .optional child) : Enters g id child
  | negation {id child} (kind : g.kind id = .negation child) : Enters g id child

theorem Enters.edge {id child : NodeId} (enters : g.Enters id child) : g.Edge id child := by
  unfold Edge children
  cases enters with
  | part kind _ =>
    rw [kind]
    exact List.mem_append_right _ List.mem_cons_self
  | alternative kind mem =>
    rw [kind]
    exact mem
  | _ kind =>
    rw [kind]
    exact List.mem_cons_self

theorem mem_leadingParts_iff {parts : List NodeId} {child : NodeId} :
    child ∈ leadingParts nullable parts ↔
      ∃ before after, parts = before ++ child :: after ∧ ∀ id ∈ before, Marked nullable id := by
  induction parts with
  | nil => simp [leadingParts]
  | cons id ids ih =>
    unfold leadingParts
    constructor
    · intro mem
      rcases List.mem_cons.mp mem with rfl | later
      · exact ⟨[], ids, rfl, nofun⟩
      · split at later
        · next marked =>
          obtain ⟨before, after, rfl, all⟩ := ih.mp later
          exact ⟨id :: before, after, rfl, List.forall_mem_cons.mpr ⟨marked, all⟩⟩
        · cases later
    · rintro ⟨before, after, split, all⟩
      cases before with
      | nil =>
        cases split
        exact List.mem_cons_self
      | cons first before =>
        cases split
        obtain ⟨marked, all⟩ := List.forall_mem_cons.mp all
        rw [if_pos (show nullable.getD id false = true from marked)]
        exact List.mem_cons_of_mem _ (ih.mpr ⟨before, after, rfl, all⟩)

/-- The mark of a child is right, also where the child is outside the table. -/
theorem marked_child_iff (inside : ∀ id ∈ ids, id < g.size)
    (descends : ∀ a ∈ ids, ∀ b, g.Edge a b → b < g.size → b ∈ ids) {id child : NodeId} (mem : id ∈ ids)
    (edge : g.Edge id child) : Marked (g.nullable ids) child ↔ g.Nullable child :=
  ⟨nullable_right, fun nullable =>
    (nullable_iff inside descends (descends id mem child edge nullable.lt_size)).mpr nullable⟩

/-- The listed entries are those that matching may take. -/
theorem mem_entries_iff (inside : ∀ id ∈ ids, id < g.size)
    (descends : ∀ a ∈ ids, ∀ b, g.Edge a b → b < g.size → b ∈ ids) {id child : NodeId} (mem : id ∈ ids) :
    child ∈ g.entries (g.nullable ids) id ↔ g.Enters id child := by
  unfold entries
  split
  · next parts kind =>
    rw [mem_leadingParts_iff]
    -- Marks are right at children of nodes that the sweeps have gone over, and parts are such.
    have part : ∀ {before after : List NodeId}, parts = before ++ child :: after → ∀ id ∈ before,
        (Marked (g.nullable ids) id ↔ g.Nullable id) := by
      rintro before after rfl other earlier
      refine marked_child_iff inside descends mem ?_
      rw [Edge, children, kind]
      exact List.mem_append_left _ earlier
    constructor
    · rintro ⟨before, after, same, all⟩
      exact .part (kind.trans (congrArg _ same)) fun other earlier =>
        (part same other earlier).mp (all other earlier)
    · intro enters
      cases enters with
      | part own skipped =>
        rw [kind, Kind.sequence.injEq] at own
        exact ⟨_, _, own, fun other earlier => (part own other earlier).mpr (skipped other earlier)⟩
      | _ own => simp_all
  · next whole =>
    constructor
    · intro listed
      cases kind : g.kind id with
      | sequence parts => exact absurd kind (whole parts)
      | choice alternatives => exact .alternative kind (by rwa [kind] at listed)
      | repetition only =>
        rw [kind] at listed
        cases List.mem_singleton.mp listed
        exact .repetition kind
      | optional only =>
        rw [kind] at listed
        cases List.mem_singleton.mp listed
        exact .optional kind
      | negation only =>
        rw [kind] at listed
        cases List.mem_singleton.mp listed
        exact .negation kind
      | _ =>
        rw [kind] at listed
        cases listed
    · exact Enters.edge

section

variable {root : NodeId}

/-- The entries that are listed for a reachable node are those that matching may take. -/
theorem mem_entries_reachable_iff {id child : NodeId} (mem : id ∈ g.reachable root) :
    child ∈ g.entries (g.nullable (g.reachable root)) id ↔ g.Enters id child :=
  mem_entries_iff (fun _ => lt_size_of_mem_reachable) (fun _ mem _ => mem_reachable_of_edge_of_lt mem) mem

theorem mem_reachable_of_entry {a b : NodeId} (mem : a ∈ g.reachable root)
    (entered : b ∈ g.entries (g.nullable (g.reachable root)) a) (inside : b < g.size) : b ∈ g.reachable root :=
  mem_reachable_of_edge_of_lt mem ((mem_entries_reachable_iff mem).mp entered).edge inside

end

/-- Why matching ends below some nodes. -/
structure Ranked (g : Grammar) (ids : List NodeId) (rank : NodeId → Nat) : Prop where
  linked : ∀ id ∈ ids, ∀ rule, g.kind id ≠ .reference rule
  advancing : ∀ id ∈ ids, ∀ child, g.kind id = .repetition child → ¬ g.Nullable child
  bounded : ∀ id ∈ ids, 0 < rank id ∧ rank id ≤ ids.length
  falls : ∀ id ∈ ids, ∀ child, g.Enters id child → rank child < rank id

/-! ## From a search to a rank -/

/-- Nodes, each once, in an order in which a node stands in front of all that it enters in the table. -/
inductive Layered (g : Grammar) (nullable : Array Bool) : List NodeId → Prop
  | nil : Layered g nullable []
  | cons {id order} (below : ∀ child ∈ g.entries nullable id, child < g.size → child ∈ order) (new : id ∉ order)
      (rest : Layered g nullable order) : Layered g nullable (id :: order)

/-- How many nodes of an order stand at or behind a node. -/
def rankIn : List NodeId → NodeId → Nat
  | [], _ => 0
  | id :: order, other => if other = id then order.length + 1 else rankIn order other

theorem rankIn_le (order : List NodeId) (id : NodeId) : rankIn order id ≤ order.length := by
  induction order with
  | nil => exact Nat.le_refl _
  | cons other order ih =>
    unfold rankIn
    split
    · exact Nat.le_refl _
    · exact Nat.le_succ_of_le ih

theorem rankIn_pos {order : List NodeId} {id : NodeId} (mem : id ∈ order) : 0 < rankIn order id := by
  induction order with
  | nil => cases mem
  | cons other order ih =>
    unfold rankIn
    split
    · exact Nat.succ_pos _
    · next differs => exact ih ((List.mem_cons.mp mem).resolve_left differs)

theorem Layered.nodup {order : List NodeId} (layered : g.Layered nullable order) : order.Nodup := by
  induction layered with
  | nil => exact List.nodup_nil
  | cons _ new _ ih => exact List.nodup_cons.mpr ⟨new, ih⟩

theorem rankIn_of_not_mem {order : List NodeId} {id : NodeId} (absent : id ∉ order) : rankIn order id = 0 := by
  induction order with
  | nil => rfl
  | cons other order ih =>
    obtain ⟨differs, later⟩ := not_or.mp (List.mem_cons.not.mp absent)
    exact (if_neg differs).trans (ih later)

theorem Layered.rankIn_lt_of_lt {order : List NodeId} (layered : g.Layered nullable order) {id child : NodeId}
    (mem : id ∈ order) (entered : child ∈ g.entries nullable id) (inside : child < g.size) :
    child ∈ order ∧ rankIn order child < rankIn order id := by
  induction layered with
  | nil => cases mem
  | @cons first order below new _ ih =>
    have later : ∀ {other : NodeId}, other ∈ order →
        rankIn (first :: order) other = rankIn order other := by
      intro other behind
      exact if_neg fun same : other = first => new (same ▸ behind)
    rcases List.mem_cons.mp mem with rfl | behind
    · have deeper := below child entered inside
      refine ⟨List.mem_cons_of_mem _ deeper, ?_⟩
      rw [later deeper, rankIn, if_pos rfl]
      exact Nat.lt_succ_of_le (rankIn_le order child)
    · obtain ⟨deeper, lower⟩ := ih behind
      refine ⟨List.mem_cons_of_mem _ deeper, ?_⟩
      rwa [later deeper, later behind]

/-- What is outside the table has no place in the order, and the least rank. -/
theorem Layered.rankIn_lt {order : List NodeId} (layered : g.Layered nullable order)
    (inside : ∀ id ∈ order, id < g.size) {id child : NodeId} (mem : id ∈ order)
    (entered : child ∈ g.entries nullable id) : rankIn order child < rankIn order id := by
  by_cases within : child < g.size
  · exact (layered.rankIn_lt_of_lt mem entered within).2
  · rw [rankIn_of_not_mem fun listed => within (inside child listed)]
    exact rankIn_pos mem

/-! ## The search for a cycle -/

/-- Where a search for a cycle stands: the nodes above it are active, and those done are layered. -/
structure Stage (g : Grammar) (nullable : Array Bool) (ids path order : List NodeId)
    (marks : Array Mark) : Prop where
  size : marks.size = g.size
  layered : g.Layered nullable order
  listed : ∀ id ∈ order, id ∈ ids
  done : ∀ id ∈ ids, marks.getD id .done = .done ↔ id ∈ order
  active : ∀ id ∈ ids, marks.getD id .done = .active ↔ id ∈ path

theorem Stage.start (inside : ∀ id ∈ ids, id < g.size) :
    Stage g nullable ids [] [] (Array.replicate g.size .fresh) where
  size := Array.size_replicate
  layered := .nil
  listed := nofun
  done id mem := by simp [inside id mem]
  active id mem := by simp [inside id mem]

section

variable {path order : List NodeId} {marks : Array Mark} {id : NodeId}

/-- A fresh node becomes active. -/
theorem Stage.enter (stage : Stage g nullable ids path order marks) (inside : id < g.size) (mem : id ∈ ids)
    (fresh : marks.getD id .done = .fresh) :
    Stage g nullable ids (id :: path) order (marks.setIfInBounds id .active) where
  size := (Array.size_setIfInBounds ..).trans stage.size
  layered := stage.layered
  listed := stage.listed
  done other listed := by
    rw [getD_set (stage.size ▸ inside)]
    split
    · next same =>
      subst same
      rw [← stage.done other mem, fresh]
      exact ⟨nofun, nofun⟩
    · exact stage.done other listed
  active other listed := by
    rw [getD_set (stage.size ▸ inside), List.mem_cons]
    split
    · next same => exact ⟨fun _ => .inl same, fun _ => rfl⟩
    · next differs =>
      rw [stage.active other listed]
      exact ⟨.inr, fun mem => mem.resolve_left differs⟩

/-- The nearest active node is done, when all that it enters is. -/
theorem Stage.leave (stage : Stage g nullable ids (id :: path) order marks) (inside : id < g.size)
    (mem : id ∈ ids) (new : id ∉ path) (below : ∀ child ∈ g.entries nullable id, child < g.size → child ∈ order) :
    Stage g nullable ids path (id :: order) (marks.setIfInBounds id .done) where
  size := (Array.size_setIfInBounds ..).trans stage.size
  layered := by
    refine .cons below (fun finished => ?_) stage.layered
    have active := (stage.active id mem).mpr List.mem_cons_self
    rw [(stage.done id mem).mpr finished] at active
    cases active
  listed other finished := by
    rcases List.mem_cons.mp finished with rfl | earlier
    · exact mem
    · exact stage.listed other earlier
  done other listed := by
    rw [getD_set (stage.size ▸ inside), List.mem_cons]
    split
    · next same => exact ⟨fun _ => .inl same, fun _ => rfl⟩
    · next differs =>
      rw [stage.done other listed]
      exact ⟨.inr, fun mem => mem.resolve_left differs⟩
  active other listed := by
    rw [getD_set (stage.size ▸ inside)]
    split
    · next same =>
      subst same
      exact ⟨nofun, fun above => absurd above new⟩
    · next differs =>
      rw [stage.active other listed, List.mem_cons]
      exact ⟨fun mem => mem.resolve_left differs, .inr⟩

/-- A search that leaves marks has finished some nodes, as far as they are in the table. -/
def Finishes (g : Grammar) (nullable : Array Bool) (ids path order : List NodeId)
    (result : CycleSearch) (targets : List NodeId) : Prop :=
  ∀ marks, result = .ok marks → ∃ more, Stage g nullable ids path more marks ∧
    (∀ id ∈ order, id ∈ more) ∧ ∀ id ∈ targets, id < g.size → id ∈ more

theorem searchEach_finishes (search : NodeId → Array Mark → CycleSearch) {targets : List NodeId}
    (each : ∀ id ∈ targets, ∀ order marks, Stage g nullable ids path order marks →
      Finishes g nullable ids path order (search id marks) [id])
    (stage : Stage g nullable ids path order marks) :
    Finishes g nullable ids path order (searchEach search targets marks) targets := by
  induction targets generalizing order marks with
  | nil =>
    intro last done
    cases done
    exact ⟨order, stage, fun _ mem => mem, nofun⟩
  | cons id targets ih =>
    intro last done
    unfold searchEach at done
    split at done
    · next found =>
      obtain ⟨more, stage, kept, finished⟩ := each id List.mem_cons_self _ _ stage _ found
      obtain ⟨final, stage, all, rest⟩ :=
        ih (fun id mem => each id (List.mem_cons_of_mem _ mem)) stage _ done
      refine ⟨final, stage, fun id mem => all id (kept id mem), ?_⟩
      exact List.forall_mem_cons.mpr ⟨fun within => all id (finished id List.mem_cons_self within), rest⟩
    · cases done

theorem searchEach_ok (search : NodeId → Array Mark → CycleSearch) {targets : List NodeId}
    (each : ∀ id ∈ targets, ∀ order marks, Stage g nullable ids path order marks →
      (∃ last, search id marks = .ok last) ∧
        Finishes g nullable ids path order (search id marks) [id])
    (stage : Stage g nullable ids path order marks) :
    ∃ last, searchEach search targets marks = .ok last := by
  induction targets generalizing order marks with
  | nil => exact ⟨marks, rfl⟩
  | cons id targets ih =>
    obtain ⟨⟨marks', found⟩, finishes⟩ := each id List.mem_cons_self order marks stage
    obtain ⟨order', stage', _⟩ := finishes _ found
    unfold searchEach
    rw [found]
    exact ih (fun other mem => each other (List.mem_cons_of_mem _ mem)) stage'

/-- Outside the table there is nothing to search. -/
theorem searchCycle_of_size_le (size : marks.size = g.size) (outside : g.size ≤ id) (fuel : Nat) :
    g.searchCycle nullable fuel path id marks = .ok marks := by
  cases fuel with
  | zero => rfl
  | succ fuel =>
    have done : marks.getD id .done = .done := by
      rw [Array.getD_eq_getD_getElem?, Array.getElem?_eq_none (size ▸ outside), Option.getD_none]
    rw [searchCycle, done]

/-- The fuel is never what ends a search below a node, since the active nodes are different. -/
theorem searchCycle_finishes (inside : ∀ id ∈ ids, id < g.size)
    (descends : ∀ a ∈ ids, ∀ b ∈ g.entries nullable a, b < g.size → b ∈ ids) (fuel : Nat) (path : List NodeId)
    (distinct : path.Nodup) (above : ∀ id ∈ path, id ∈ ids) (enough : path.length + fuel = g.size + 1)
    (id : NodeId) (listed : id < g.size → id ∈ ids) (order : List NodeId) (marks : Array Mark)
    (stage : Stage g nullable ids path order marks) :
    Finishes g nullable ids path order (g.searchCycle nullable fuel path id marks) [id] := by
  induction fuel generalizing path id order marks with
  -- The way does not repeat a node, so it is never as long as the fuel that was given.
  | zero =>
    have range : ∀ id ∈ path, id ∈ List.range g.size := fun id mem =>
      List.mem_range.mpr (inside id (above id mem))
    have short := distinct.length_le_of_subset range
    rw [List.length_range] at short
    omega
  | succ fuel ih =>
    intro last found
    by_cases outside : g.size ≤ id
    · rw [searchCycle_of_size_le stage.size outside] at found
      cases found
      exact ⟨order, stage, fun _ mem => mem,
        List.forall_mem_singleton.mpr fun within => absurd outside (Nat.not_le.mpr within)⟩
    have mem := listed (Nat.not_le.mp outside)
    unfold searchCycle at found
    split at found
    · next done =>
      cases found
      exact ⟨order, stage, fun _ mem => mem,
        List.forall_mem_singleton.mpr fun _ => (stage.done id mem).mp done⟩
    · cases found
    · next fresh =>
      have new : id ∉ path := by
        intro again
        rw [(stage.active id mem).mpr again] at fresh
        cases fresh
      have each := searchEach_finishes (g.searchCycle nullable fuel (id :: path))
        (fun child entered => ih (id :: path) (List.nodup_cons.mpr ⟨new, distinct⟩)
          (List.forall_mem_cons.mpr ⟨mem, above⟩) (by rw [List.length_cons]; omega) child
          (descends id mem child entered)) (stage.enter (inside id mem) mem fresh)
      dsimp only at found
      split at found
      · next below =>
        cases found
        obtain ⟨more, stage, kept, finished⟩ := each _ below
        exact ⟨id :: more, stage.leave (inside id mem) mem new finished,
          fun other earlier => List.mem_cons_of_mem _ (kept other earlier),
          List.forall_mem_singleton.mpr fun _ => List.mem_cons_self⟩
      · cases found

/-- Where a rank falls along every entry, no active node is met again. -/
theorem searchCycle_ok {rank : NodeId → Nat} (inside : ∀ id ∈ ids, id < g.size)
    (descends : ∀ a ∈ ids, ∀ b ∈ g.entries nullable a, b < g.size → b ∈ ids)
    (falls : ∀ a ∈ ids, ∀ b ∈ g.entries nullable a, rank b < rank a) (fuel : Nat) (path : List NodeId)
    (distinct : path.Nodup) (above : ∀ id ∈ path, id ∈ ids) (enough : path.length + fuel = g.size + 1)
    (id : NodeId) (listed : id < g.size → id ∈ ids) (lower : ∀ active ∈ path, rank id < rank active)
    (order : List NodeId) (marks : Array Mark) (stage : Stage g nullable ids path order marks) :
    ∃ last, g.searchCycle nullable fuel path id marks = .ok last := by
  induction fuel generalizing path id order marks with
  | zero => exact ⟨marks, rfl⟩
  | succ fuel ih =>
    by_cases outside : g.size ≤ id
    · exact ⟨marks, searchCycle_of_size_le stage.size outside _⟩
    have mem := listed (Nat.not_le.mp outside)
    -- Ranks fall along the way, so nothing on it comes back.
    have new : id ∉ path := fun again => Nat.lt_irrefl _ (lower id again)
    unfold searchCycle
    split
    · exact ⟨marks, rfl⟩
    · next active => exact absurd ((stage.active id mem).mp active) new
    · next fresh =>
      have distinct' : (id :: path).Nodup := List.nodup_cons.mpr ⟨new, distinct⟩
      have above' := List.forall_mem_cons.mpr ⟨mem, above⟩
      have enough' : (id :: path).length + fuel = g.size + 1 := by rw [List.length_cons]; omega
      obtain ⟨last, found⟩ := searchEach_ok (g.searchCycle nullable fuel (id :: path))
        (fun child entered order marks stage =>
          have under := descends id mem child entered
          have lower' : ∀ active ∈ id :: path, rank child < rank active :=
            List.forall_mem_cons.mpr ⟨falls id mem child entered, fun active listed =>
              Nat.lt_trans (falls id mem child entered) (lower active listed)⟩
          ⟨ih (id :: path) distinct' above' enough' child under lower' order marks stage,
            searchCycle_finishes inside descends fuel (id :: path) distinct' above' enough' child under
              order marks stage⟩)
        (stage.enter (inside id mem) mem fresh)
      exact ⟨_, by dsimp only; rw [found]⟩

end

theorem leftCycle?_eq_none_iff (nullable : Array Bool) (inside : ∀ id ∈ ids, id < g.size)
    (descends : ∀ a ∈ ids, ∀ b ∈ g.entries nullable a, b < g.size → b ∈ ids) :
    g.leftCycle? ids nullable = none ↔ ∃ rank : NodeId → Nat,
      (∀ id ∈ ids, 0 < rank id ∧ rank id ≤ ids.length) ∧
        ∀ id ∈ ids, ∀ child ∈ g.entries nullable id, rank child < rank id := by
  unfold leftCycle?
  constructor
  · intro clear
    split at clear
    · next marks found =>
      obtain ⟨order, stage, _, all⟩ := searchEach_finishes _ (fun id mem order marks stage =>
        searchCycle_finishes inside descends (g.size + 1) [] List.nodup_nil nofun (Nat.zero_add _) id (fun _ => mem)
          order marks stage) (Stage.start inside) _ found
      have short : order.length ≤ ids.length :=
        stage.layered.nodup.length_le_of_subset stage.listed
      have finished : ∀ id ∈ ids, id ∈ order := fun id mem => all id mem (inside id mem)
      refine ⟨rankIn order, fun id mem => ⟨rankIn_pos (finished id mem), ?_⟩, ?_⟩
      · exact Nat.le_trans (rankIn_le order id) short
      · intro id mem child entered
        exact stage.layered.rankIn_lt (fun id listed => inside id (stage.listed id listed)) (finished id mem) entered
    · cases clear
  · rintro ⟨rank, _, falls⟩
    obtain ⟨last, found⟩ := searchEach_ok _ (fun id mem order marks stage =>
      ⟨searchCycle_ok inside descends falls (g.size + 1) [] List.nodup_nil nofun (Nat.zero_add _) id (fun _ => mem)
          nofun order marks stage,
        searchCycle_finishes inside descends (g.size + 1) [] List.nodup_nil nofun (Nat.zero_add _) id (fun _ => mem)
          order marks stage⟩) (Stage.start inside)
    rw [found]

/-! ## The check -/

theorem findSome?_referenceAt?_eq_none_iff :
    ids.findSome? g.referenceAt? = none ↔ ∀ id ∈ ids, ∀ rule, g.kind id ≠ .reference rule := by
  rw [List.findSome?_eq_none_iff]
  refine forall₂_congr fun id _ => ?_
  unfold referenceAt?
  split
  · next rule kind => simp [kind]
  · next other => exact ⟨fun _ rule kind => other rule kind, fun _ => rfl⟩

theorem find?_repeatsNothing_eq_none_iff (inside : ∀ id ∈ ids, id < g.size)
    (descends : ∀ a ∈ ids, ∀ b, g.Edge a b → b < g.size → b ∈ ids) :
    ids.find? (g.repeatsNothing (g.nullable ids)) = none ↔
      ∀ id ∈ ids, ∀ child, g.kind id = .repetition child → ¬ g.Nullable child := by
  rw [List.find?_eq_none]
  refine forall₂_congr fun id mem => ?_
  unfold repeatsNothing
  split
  · next child kind =>
    have edge : g.Edge id child := by rw [Edge, children, kind]; exact List.mem_cons_self
    simp only [kind, Kind.repetition.injEq, forall_eq']
    exact not_congr (marked_child_iff inside descends mem edge)
  · next other => exact ⟨fun _ child kind => (other child kind).elim, fun _ => Bool.false_ne_true⟩

/-- **The check passes exactly the grammars with a rank.** -/
theorem defect?_eq_none_iff (closed : g.Closed) (root : NodeId) :
    g.defect? root = none ↔ ∃ rank, Ranked g (g.reachable root) rank := by
  have inside : ∀ id ∈ g.reachable root, id < g.size := fun _ => lt_size_of_mem_reachable
  have descends : ∀ a ∈ g.reachable root, ∀ b, g.Edge a b → b < g.size → b ∈ g.reachable root :=
    fun _ mem _ edge _ => mem_reachable_of_edge closed mem edge
  have enters : ∀ a ∈ g.reachable root, ∀ b,
      b ∈ g.entries (g.nullable (g.reachable root)) a ↔ g.Enters a b :=
    fun _ mem _ => mem_entries_reachable_iff mem
  have cycles := leftCycle?_eq_none_iff (g.nullable (g.reachable root)) inside
    fun _ mem _ => mem_reachable_of_entry mem
  unfold defect?
  constructor
  · intro clear
    dsimp only at clear
    split at clear
    · cases clear
    · next linked =>
      split at clear
      · cases clear
      · next advancing =>
        obtain ⟨rank, bounded, falls⟩ := cycles.mp (Option.map_eq_none_iff.mp clear)
        exact ⟨rank, {
          linked := findSome?_referenceAt?_eq_none_iff.mp linked
          advancing := (find?_repeatsNothing_eq_none_iff inside descends).mp advancing
          bounded
          falls := fun id mem child entered => falls id mem child ((enters id mem child).mpr entered) }⟩
  -- A rank answers each of the three checks, in the order in which they are made.
  · rintro ⟨rank, ranked⟩
    have clear := cycles.mpr ⟨rank, ranked.bounded, fun id mem child entered =>
      ranked.falls id mem child ((enters id mem child).mp entered)⟩
    have linked := findSome?_referenceAt?_eq_none_iff.mpr ranked.linked
    have advancing := (find?_repeatsNothing_eq_none_iff inside descends).mpr ranked.advancing
    dsimp only
    rw [linked]
    dsimp only
    rw [advancing]
    exact Option.map_eq_none_iff.mpr clear

end BnfTokenizer.Grammar
