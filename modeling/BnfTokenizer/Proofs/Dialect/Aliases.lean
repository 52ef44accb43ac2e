import BnfTokenizer.Proofs.Dialect.Linking
import Mathlib.Data.List.Nodup
import Mathlib.Data.List.Perm.Subperm

/-!
# Following aliases

`Resolution` says what comes of a name: the body at the end of a chain of aliases, or the report that a name in the
chain is not defined, from the alias that mentions it. It knows of no fuel and has no case for a chain that comes
back. Where the check finds no such chain every name has a resolution, and `resolve` gives it: a chain without a
repeated name is no longer than the table, and that is the fuel.
-/

namespace BnfTokenizer.Dialect.RuleTable

variable {table : RuleTable} {g : Grammar}

/-- What comes of a name that is mentioned in a rule. -/
inductive Resolution (table : RuleTable) (g : Grammar) : String → String → Except CompileError NodeId → Prop
  | missing {name owner} (unknown : table.get? name = none) :
      Resolution table g name owner (.error (.undefinedRule name owner))
  | body {name owner id} (known : table.get? name = some id) (proper : (g.kind id).isReference = false) :
      Resolution table g name owner (.ok id)
  | via {name owner body target outcome} (known : table.get? name = some body) (kind : g.kind body = .reference target)
      (rest : Resolution table g target name outcome) : Resolution table g name owner outcome

variable {name : String}

theorem Resolves.resolution {id : NodeId} (resolves : table.Resolves g name id) (owner : String) :
    table.Resolution g name owner (.ok id) := by
  induction resolves generalizing owner with
  | body known proper => exact .body known proper
  | via known kind _ ih => exact .via known kind (ih _)

/-- One thing comes of a name. -/
theorem Resolution.unique {owner : String} {outcome other : Except CompileError NodeId}
    (first : table.Resolution g name owner outcome) (second : table.Resolution g name owner other) : outcome = other := by
  induction first with
  | missing unknown =>
    cases second with
    | missing _ => rfl
    | body known _ => cases unknown.symm.trans known
    | via known _ _ => cases unknown.symm.trans known
  | body known proper =>
    cases second with
    | missing unknown => cases unknown.symm.trans known
    | body again _ =>
      cases known.symm.trans again
      rfl
    | via again kind _ =>
      cases known.symm.trans again
      rw [kind] at proper
      cases proper
  | via known kind _ ih =>
    cases second with
    | missing unknown => cases unknown.symm.trans known
    | body again proper =>
      cases known.symm.trans again
      rw [kind] at proper
      cases proper
    | via again kind' rest =>
      cases known.symm.trans again
      cases kind.symm.trans kind'
      exact ih rest

/-- What comes of a name, if it is a body, is no placeholder. -/
theorem Resolution.proper {owner : String} {id : NodeId} (resolution : table.Resolution g name owner (.ok id)) :
    (g.kind id).isReference = false := by
  generalize same : Except.ok id = outcome at resolution
  induction resolution with
  | missing _ => cases same
  | body _ proper =>
    cases same
    exact proper
  | via _ _ _ ih => exact ih same

theorem mem_entries_of_get? {id : NodeId} (known : table.get? name = some id) : (name, id) ∈ table.entries := by
  obtain ⟨before, after, split, _⟩ := List.lookup_eq_some_iff.mp known
  rw [split]
  exact List.mem_append_right _ List.mem_cons_self

/-- Where no chain of aliases comes back, following one comes to its end before the fuel does. -/
theorem resolveFrom_resolution {fuel : Nat} {earlier : List String} {body : NodeId}
    (ends : table.circularFrom? g fuel (name :: earlier) body = none) (known : table.get? name = some body)
    (distinct : (name :: earlier).Nodup) (defined : name :: earlier ⊆ table.entries.map Prod.fst)
    (enough : table.entries.length + 1 < (name :: earlier).length + fuel) (owner : String) :
    table.Resolution g name owner (table.resolveFrom g fuel name owner) := by
  have short := distinct.length_le_of_subset defined
  rw [List.length_map] at short
  induction fuel generalizing name earlier body owner with
  | zero => omega
  | succ fuel ih =>
    unfold circularFrom? at ends
    unfold resolveFrom
    rw [known]
    dsimp only
    split at ends
    · next target kind =>
      split at ends
      · cases ends
      · next fresh =>
        refine .via known kind ?_
        split at ends
        · next next known' =>
          have distinct' := List.nodup_cons.mpr ⟨fun again => fresh (List.contains_iff_mem.mpr again), distinct⟩
          have listed := List.mem_map_of_mem (f := Prod.fst) (mem_entries_of_get? known')
          have defined' := List.cons_subset.mpr ⟨listed, defined⟩
          have short' := distinct'.length_le_of_subset defined'
          rw [List.length_map] at short'
          exact ih ends known' distinct' defined' (by rw [List.length_cons]; omega) name short'
        · next unknown =>
          -- the chain is defined, so it is short, and there is fuel for one name more
          obtain ⟨fuel, rfl⟩ : ∃ less, fuel = less + 1 := ⟨fuel - 1, by omega⟩
          rw [resolveFrom, unknown]
          exact .missing unknown
    · next other => exact .body known (isReference_eq_false other)

theorem circularFrom?_eq_none (checked : table.checkAliases g = .ok ()) {body : NodeId}
    (listed : (name, body) ∈ table.entries) :
    table.circularFrom? g (table.entries.length + 1) [name] body = none := by
  unfold checkAliases at checked
  split at checked
  · cases checked
  · next clear =>
    rw [circularChain?, List.findSome?_eq_none_iff] at clear
    exact clear _ listed

/-- **A checked table resolves every name**, one way or the other. -/
theorem resolve_resolution (checked : table.checkAliases g = .ok ()) (name owner : String) :
    table.Resolution g name owner (table.resolve g name owner) := by
  cases known : table.get? name with
  | none =>
    unfold resolve resolveFrom
    rw [known]
    exact .missing known
  | some body =>
    have listed := mem_entries_of_get? known
    have defined : [name] ⊆ table.entries.map Prod.fst :=
      List.cons_subset.mpr ⟨List.mem_map_of_mem (f := Prod.fst) listed, List.nil_subset _⟩
    exact resolveFrom_resolution (circularFrom?_eq_none checked listed) known (List.nodup_singleton name) defined
      (by rw [List.length_singleton]; omega) owner

/-- The root of a checked table is what its name stands for, if there is a rule of that name. -/
theorem root_resolution (checked : table.checkAliases g = .ok ()) {body : NodeId}
    (known : table.get? rootName = some body) (owner : String) : table.Resolution g rootName owner (table.root g) := by
  unfold root
  rw [known]
  dsimp only
  split
  · next target kind => exact .via known kind (resolve_resolution checked target rootName)
  · next other => exact .body known (isReference_eq_false other)

/-- A name that stands for a body resolves to it, wherever it is mentioned. -/
theorem resolve_of_resolves (checked : table.checkAliases g = .ok ()) {id : NodeId}
    (resolves : table.Resolves g name id) (owner : String) : table.resolve g name owner = .ok id :=
  (resolve_resolution checked name owner).unique (resolves.resolution owner)

/-- The root of a checked table is no placeholder. -/
theorem isReference_root (checked : table.checkAliases g = .ok ()) {root : NodeId} (rooted : table.root g = .ok root) :
    (g.kind root).isReference = false := by
  cases known : table.get? rootName with
  | none =>
    rw [RuleTable.root, known] at rooted
    cases rooted
  | some body =>
    have resolution := root_resolution checked known rootName
    rw [rooted] at resolution
    exact resolution.proper

end BnfTokenizer.Dialect.RuleTable
