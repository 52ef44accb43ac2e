import Mathlib.Data.List.Chain
import Mathlib.Data.List.Nodup
import BnfTokenizer.Proofs.Grammar.Rank

/-!
# The check says exactly what is wrong

`NoPlaceholder`, `Advances` and `Acyclic` say, in terms of edges and of the least nullable set, what the check
asks of the nodes that a root reaches. `defect?_exact` says that the check passes exactly the grammars with all
three, and that of the first one that fails it reports the kind.

That a grammar with a cycle is refused comes out of the rank (`leftCycle?_eq_none_iff`): a rank that falls along
every entry does not come back to where it was. That no other grammar is refused needs the cycle itself. The nodes
above a search are a way of entries, from the root of the search down (`Way`), so an active node that is met again
closes the part of the way that leads down from it (`Returns`, `searchCycle_error`). What is left of the way above that
node tells where the cycle begins: with a node that was entered from outside of the cycle, or, if nothing is left, with
one that a search began with (`begins_of_leftCycle?`).

Nothing is asked of the table. An address outside of it stands for a choice without alternatives, which is no
placeholder, repeats nothing and enters nothing.
-/

namespace BnfTokenizer.Grammar

open Relation (TransGen)

variable {g : Grammar} {nullable : Array Bool} {ids path order : List NodeId} {marks : Array Mark} {id : NodeId}

/-! ## What the check asks for -/

/-- The root reaches no placeholder. -/
def NoPlaceholder (g : Grammar) (root : NodeId) : Prop :=
  ∀ id, g.Reaches root id → ∀ rule, g.kind id ≠ .reference rule

/-- Each round of a repetition that the root reaches has to consume something. -/
def Advances (g : Grammar) (root : NodeId) : Prop :=
  ∀ id, g.Reaches root id → ∀ child, g.kind id = .repetition child → ¬ g.Nullable child

/-- From no node that the root reaches do entries lead back to it. -/
def Acyclic (g : Grammar) (root : NodeId) : Prop :=
  ∀ id, g.Reaches root id → ¬ TransGen g.Enters id id

/-- What holds of all nodes in the table holds of all, where nothing is asked of those outside. -/
theorem forall_reaches_iff {root : NodeId} {holds : NodeId → Prop}
    (outside : ∀ id, g.kind id = .choice [] → holds id) :
    (∀ id, g.Reaches root id → holds id) ↔ ∀ id ∈ g.reachable root, holds id := by
  constructor
  · intro all id mem
    exact all id (mem_reachable_iff.mp mem).1
  · intro all id reaches
    by_cases inside : id < g.size
    · exact all id (mem_reachable_iff.mpr ⟨reaches, inside⟩)
    · exact outside id (kind_of_size_le (Nat.not_lt.mp inside))

/-! ## Cycles that a search reports -/

/-- A walk along a relation that ends where it began. -/
def ClosedWalk (R : NodeId → NodeId → Prop) (walk : List NodeId) : Prop :=
  ∃ id between, walk = id :: (between ++ [id]) ∧ walk.IsChain R

theorem ClosedWalk.transGen {R : NodeId → NodeId → Prop} {walk : List NodeId} (closed : ClosedWalk R walk) :
    ∃ id ∈ walk, TransGen R id id := by
  obtain ⟨id, between, rfl, chain⟩ := closed
  have steps : (id :: (between ++ [id])).IsChain (TransGen R) := chain.imp fun _ _ => .single
  have ahead := (List.pairwise_cons.mp steps.pairwise).1
  refine ⟨id, List.mem_cons_self, ahead id ?_⟩
  exact List.mem_append_right _ List.mem_cons_self

/-- Entries lead from each of some listed nodes to the next, and from the last but one back to the first. -/
structure IsCycle (g : Grammar) (nullable : Array Bool) (ids cycle : List NodeId) : Prop where
  closed : ClosedWalk (fun above below => below ∈ g.entries nullable above) cycle
  listed : ∀ id ∈ cycle, id ∈ ids

/-- Each node was entered from the next one. -/
def Way (g : Grammar) (nullable : Array Bool) (way : List NodeId) : Prop :=
  way.IsChain fun below above => below ∈ g.entries nullable above

/-- A search has come back to a node. It came down to `start` along `rest`, and through `between` to `start` again. -/
structure Returns (g : Grammar) (nullable : Array Bool) (ids : List NodeId) (start : NodeId)
    (between rest : List NodeId) : Prop where
  distinct : (between.reverse ++ start :: rest).Nodup
  listed : ∀ id ∈ between.reverse ++ start :: rest, id ∈ ids
  way : g.Way nullable (start :: (between.reverse ++ start :: rest))

theorem Returns.isCycle {start : NodeId} {between rest : List NodeId}
    (returns : g.Returns nullable ids start between rest) : g.IsCycle nullable ids (start :: (between ++ [start])) := by
  refine ⟨⟨start, between, rfl, ?_⟩, fun id mem => returns.listed id ?_⟩
  · have around : (start :: (between ++ [start])).reverse <+: start :: (between.reverse ++ start :: rest) :=
      ⟨rest, by simp⟩
    have closed := returns.way.prefix around
    exact List.isChain_reverse.mp closed
  · rw [List.mem_append, List.mem_reverse, List.mem_cons]
    rcases List.mem_cons.mp mem with rfl | later
    · exact .inr (.inl rfl)
    · exact (List.mem_append.mp later).imp_right fun last => .inl (List.mem_singleton.mp last)

/-- The cycle that is reported when a node on the way is met again. -/
theorem exists_between (again : id ∈ path) : ∃ between rest, path = between.reverse ++ id :: rest ∧
    (id :: path.takeWhile (· != id) ++ [id]).reverse = id :: (between ++ [id]) := by
  obtain ⟨above, rest, rfl, new⟩ := List.eq_append_cons_of_mem again
  have differs : ∀ other ∈ above, (other != id) = true := by
    intro other mem
    rw [bne_iff_ne]
    rintro rfl
    exact new mem
  refine ⟨above.reverse, rest, by rw [List.reverse_reverse], ?_⟩
  rw [List.takeWhile_append_of_pos differs, List.takeWhile_cons_of_neg (by simp)]
  simp

/-- Searches fail where one of them does, and those before it have finished. -/
theorem searchEach_error (search : NodeId → Array Mark → CycleSearch) {targets : List NodeId}
    (each : ∀ id ∈ targets, ∀ order marks, Stage g nullable ids path order marks →
      Finishes g nullable ids path order (search id marks) [id])
    (stage : Stage g nullable ids path order marks) {cycle : List NodeId}
    (error : searchEach search targets marks = .error cycle) :
    ∃ before id after order' marks', targets = before ++ id :: after ∧ Stage g nullable ids path order' marks' ∧
      (∀ done ∈ order, done ∈ order') ∧ (∀ done ∈ before, done < g.size → done ∈ order') ∧
        search id marks' = .error cycle := by
  induction targets generalizing order marks with
  | nil => cases error
  | cons id targets ih =>
    unfold searchEach at error
    split at error
    · next marks' below =>
      obtain ⟨order', stage', kept, finished⟩ := each id List.mem_cons_self order marks stage _ below
      obtain ⟨before, other, after, order'', marks'', rfl, stage'', kept', finished', found⟩ :=
        ih (fun other mem => each other (List.mem_cons_of_mem _ mem)) stage' error
      refine ⟨id :: before, other, after, order'', marks'', rfl, stage'',
        fun done mem => kept' done (kept done mem), ?_, found⟩
      exact List.forall_mem_cons.mpr ⟨fun within => kept' id (finished id List.mem_cons_self within), finished'⟩
    · next below =>
      cases error
      exact ⟨[], id, targets, order, marks, rfl, stage, fun _ mem => mem, nofun, below⟩

/-- **A search that reports a cycle has come back to a node** that it had not finished. -/
theorem searchCycle_error (inside : ∀ id ∈ ids, id < g.size)
    (descends : ∀ a ∈ ids, ∀ b ∈ g.entries nullable a, b < g.size → b ∈ ids) (fuel : Nat) (path : List NodeId)
    (distinct : path.Nodup) (above : ∀ id ∈ path, id ∈ ids) (enough : path.length + fuel = g.size + 1)
    (id : NodeId) (listed : id < g.size → id ∈ ids) (way : g.Way nullable (id :: path))
    (order : List NodeId) (marks : Array Mark) (stage : Stage g nullable ids path order marks)
    {cycle : List NodeId} (error : g.searchCycle nullable fuel path id marks = .error cycle) :
    ∃ start between rest, cycle = start :: (between ++ [start]) ∧ g.Returns nullable ids start between rest ∧
      id :: path <:+ start :: (between.reverse ++ start :: rest) ∧
        ∀ done ∈ order, done ∉ between.reverse ++ start :: rest := by
  induction fuel generalizing path id order marks cycle with
  | zero => cases error
  | succ fuel ih =>
    by_cases outside : g.size ≤ id
    · rw [searchCycle_of_size_le stage.size outside] at error
      cases error
    have mem := listed (Nat.not_le.mp outside)
    have above' := List.forall_mem_cons.mpr ⟨mem, above⟩
    unfold searchCycle at error
    split at error
    · cases error
    · next active =>
      cases error
      -- An active node is on the way that led here, and the cycle is what stands on it from there on.
      obtain ⟨between, rest, rfl, cycle⟩ := exists_between ((stage.active id mem).mp active)
      refine ⟨id, between, rest, cycle, ⟨distinct, above, way⟩, List.suffix_rfl, fun done finished here => ?_⟩
      have mark := (stage.done done (above done here)).mpr finished
      rw [(stage.active done (above done here)).mpr here] at mark
      cases mark
    · next fresh =>
      have new : id ∉ path := by
        intro again
        rw [(stage.active id mem).mpr again] at fresh
        cases fresh
      have distinct' : (id :: path).Nodup := List.nodup_cons.mpr ⟨new, distinct⟩
      have enough' : (id :: path).length + fuel = g.size + 1 := by
        rw [List.length_cons]
        omega
      dsimp only at error
      split at error
      · cases error
      · next below =>
        cases error
        obtain ⟨before, child, after, order', marks', split, stage', kept, _, found⟩ :=
          searchEach_error (g.searchCycle nullable fuel (id :: path)) (fun child entered order marks stage =>
            searchCycle_finishes inside descends fuel (id :: path) distinct' above' enough' child
              (descends id mem child entered) order marks stage) (stage.enter (inside id mem) mem fresh) below
        have entered : child ∈ g.entries nullable id := split ▸ List.mem_append_right _ List.mem_cons_self
        have way' : g.Way nullable (child :: id :: path) := List.isChain_cons_cons.mpr ⟨entered, way⟩
        obtain ⟨start, between, rest, same, returns, under, fresh'⟩ := ih (id :: path) distinct' above' enough' child
          (descends id mem child entered) way' order' marks' stage' found
        exact ⟨start, between, rest, same, returns, (List.suffix_cons child _).trans under,
          fun done finished => fresh' done (kept done finished)⟩

/-- **Where a reported cycle begins**: with a node that is entered from elsewhere, or with the first of its nodes that
the search began with. -/
theorem begins_of_leftCycle? (inside : ∀ id ∈ ids, id < g.size)
    (descends : ∀ a ∈ ids, ∀ b ∈ g.entries nullable a, b < g.size → b ∈ ids) {cycle : List NodeId}
    (found : g.leftCycle? ids nullable = some cycle) :
    ∃ start between, cycle = start :: (between ++ [start]) ∧ (start :: between).Nodup ∧
      g.IsCycle nullable ids cycle ∧
        ((∃ above ∈ ids, above ∉ start :: between ∧ start ∈ g.entries nullable above) ∨
          ∃ before after, ids = before ++ start :: after ∧ ∀ id ∈ start :: between, id ∉ before) := by
  unfold leftCycle? at found
  split at found
  · cases found
  · next below =>
    cases found
    obtain ⟨before, first, after, order, marks, split, stage, _, finished, failed⟩ :=
      searchEach_error (g.searchCycle nullable (g.size + 1) []) (fun id mem order marks stage =>
        searchCycle_finishes inside descends (g.size + 1) [] List.nodup_nil nofun (Nat.zero_add _) id (fun _ => mem)
          order marks stage) (Stage.start inside) below
    have mem : first ∈ ids := split ▸ List.mem_append_right _ List.mem_cons_self
    obtain ⟨start, between, rest, rfl, returns, under, fresh⟩ :=
      searchCycle_error inside descends (g.size + 1) [] List.nodup_nil nofun (Nat.zero_add _) first (fun _ => mem)
        (List.isChain_singleton first) order marks stage failed
    obtain ⟨around, down, apart⟩ := List.nodup_append.mp returns.distinct
    have distinct : (start :: between).Nodup :=
      List.nodup_cons.mpr ⟨fun again => apart start (List.mem_reverse.mpr again) start List.mem_cons_self rfl,
        List.nodup_reverse.mp around⟩
    refine ⟨start, between, rfl, distinct, returns.isCycle, ?_⟩
    -- No way led to the cycle, or its last node enters the cycle and is not on it.
    cases rest with
    | nil =>
      obtain ⟨_, same⟩ := under
      rw [← List.cons_append] at same
      obtain rfl : first = start := List.singleton_inj.mp (List.append_inj' same rfl).2
      refine .inr ⟨before, after, split, fun id mem earlier => ?_⟩
      have here : id ∈ between.reverse ++ [first] := by
        rw [List.mem_append, List.mem_reverse, List.mem_singleton]
        exact (List.mem_cons.mp mem).symm
      exact fresh id (finished id earlier (inside id (returns.listed id here))) here
    | cons above rest =>
      have way : g.Way nullable (start :: above :: rest) :=
        returns.way.suffix ((List.suffix_append between.reverse _).trans (List.suffix_cons start _))
      refine .inl ⟨above, returns.listed above (by simp), fun mem => ?_, (List.isChain_cons_cons.mp way).1⟩
      have here : above ∈ start :: above :: rest := List.mem_cons_of_mem _ List.mem_cons_self
      rcases List.mem_cons.mp mem with rfl | later
      · exact (List.nodup_cons.mp down).1 List.mem_cons_self
      · exact apart above (List.mem_reverse.mpr later) above here rfl

theorem isCycle_of_leftCycle? (inside : ∀ id ∈ ids, id < g.size)
    (descends : ∀ a ∈ ids, ∀ b ∈ g.entries nullable a, b < g.size → b ∈ ids) {cycle : List NodeId}
    (found : g.leftCycle? ids nullable = some cycle) :
    g.IsCycle nullable ids cycle := by
  obtain ⟨_, _, _, _, isCycle, _⟩ := begins_of_leftCycle? inside descends found
  exact isCycle

/-! ## Cycles that there are -/

/-- What entries lead to from a node that is reached is reached. -/
theorem reaches_of_transGen {root a b : NodeId} (reaches : g.Reaches root a) (chain : TransGen g.Enters a b) :
    g.Reaches root b := by
  induction chain with
  | single enters => exact reaches.tail enters.edge
  | tail _ enters ih => exact ih.tail enters.edge

/-- A rank that falls along every entry falls along every chain of them. -/
theorem rank_lt_of_transGen {root : NodeId} {rank : NodeId → Nat}
    (falls : ∀ id ∈ g.reachable root, ∀ child, g.Enters id child → rank child < rank id) {a b : NodeId}
    (reaches : g.Reaches root a) (chain : TransGen g.Enters a b) : rank b < rank a := by
  induction chain with
  | single enters => exact falls a (mem_reachable_iff.mpr ⟨reaches, enters.edge.lt_size⟩) _ enters
  | @tail b c before enters ih =>
    have middle := mem_reachable_iff.mpr ⟨reaches_of_transGen reaches before, enters.edge.lt_size⟩
    exact Nat.lt_trans (falls b middle c enters) ih

section

variable {root : NodeId}

theorem noPlaceholder_iff : g.NoPlaceholder root ↔ (g.reachable root).findSome? g.referenceAt? = none := by
  rw [findSome?_referenceAt?_eq_none_iff]
  refine forall_reaches_iff fun id kind rule => ?_
  rw [kind]
  exact nofun

theorem advances_iff : g.Advances root ↔
    (g.reachable root).find? (g.repeatsNothing (g.nullable (g.reachable root))) = none := by
  rw [find?_repeatsNothing_eq_none_iff (fun _ => lt_size_of_mem_reachable) fun _ mem _ =>
    mem_reachable_of_edge_of_lt mem]
  refine forall_reaches_iff fun id kind child => ?_
  rw [kind]
  exact nofun

/-- **The search finds a cycle exactly where there is one.** -/
theorem acyclic_iff : g.Acyclic root ↔
    g.leftCycle? (g.reachable root) (g.nullable (g.reachable root)) = none := by
  have inside : ∀ id ∈ g.reachable root, id < g.size := fun _ => lt_size_of_mem_reachable
  have below : ∀ a ∈ g.reachable root, ∀ b ∈ g.entries (g.nullable (g.reachable root)) a,
      b < g.size → b ∈ g.reachable root := fun _ mem _ => mem_reachable_of_entry mem
  constructor
  · intro acyclic
    rw [Option.eq_none_iff_forall_ne_some]
    intro cycle found
    obtain ⟨⟨first, between, rfl, chain⟩, listed⟩ := isCycle_of_leftCycle? inside below found
    have entries : (first :: (between ++ [first])).IsChain g.Enters :=
      chain.imp_of_mem_imp fun above child here _ entered => (mem_entries_reachable_iff (listed above here)).mp entered
    obtain ⟨id, mem, circle⟩ := ClosedWalk.transGen ⟨first, between, rfl, entries⟩
    exact acyclic id (mem_reachable_iff.mp (listed id mem)).1 circle
  · intro clear id reaches circle
    obtain ⟨rank, _, falls⟩ := (leftCycle?_eq_none_iff _ inside below).mp clear
    refine Nat.lt_irrefl (rank id) (rank_lt_of_transGen (fun a mem child enters => ?_) reaches circle)
    exact falls a mem child ((mem_entries_reachable_iff mem).mpr enters)

/-- **The check is exact.** It passes the grammars in which the root reaches no placeholder, no repetition that
need not advance and no cycle of entries, and no others; of what fails it reports the first in this order. -/
theorem defect?_exact (g : Grammar) (root : NodeId) :
    (g.defect? root = none ↔ g.NoPlaceholder root ∧ g.Advances root ∧ g.Acyclic root) ∧
      ((∃ rule, g.defect? root = some (.unresolvedReference rule)) ↔ ¬ g.NoPlaceholder root) ∧
      ((∃ rule, g.defect? root = some (.nullableRepetition rule)) ↔ g.NoPlaceholder root ∧ ¬ g.Advances root) ∧
      ((∃ chain, g.defect? root = some (.leftRecursion chain)) ↔
        g.NoPlaceholder root ∧ g.Advances root ∧ ¬ g.Acyclic root) := by
  rw [noPlaceholder_iff, advances_iff, acyclic_iff]
  unfold defect?
  dsimp only
  generalize (g.reachable root).findSome? g.referenceAt? = placeholder
  generalize (g.reachable root).find? _ = idle
  generalize g.leftCycle? _ _ = cycle
  cases placeholder with
  | some rule => simp
  | none =>
    cases idle with
    | some id => simp
    | none => cases cycle <;> simp

end

end BnfTokenizer.Grammar
