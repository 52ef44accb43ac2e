import BnfTokenizer.Proofs.Dialect.Aliases
import BnfTokenizer.Proofs.Dialect.Assembly
import Mathlib.Data.List.Chain

/-!
# Aliases that come back

A chain of aliases goes on as long as the body behind a name is a bare placeholder. It ends in a body or in a name
that is not defined, or else it comes to a name again (`Circles`), and then it never ends. `Scan` is the walk of the
check along one chain, without a bound: it stops at the first name that it has passed before. The bound of
`circularFrom?` is never what stops it, since the names that it passes are different and defined
(`scan_circularFrom?`), and it finds such a name exactly where the chain circles.

Only the table is asked that no name is defined twice, which is how it is built (`nodup_names_define`). With two bodies
for a name the check would start from both, while a chain goes on from the first.
-/

namespace BnfTokenizer.Dialect.RuleTable

open Relation (ReflTransGen)

variable {table : RuleTable} {g : Grammar}

/-! ## Chains -/

/-- A rule is another name for a rule, or for nothing. -/
def Alias (table : RuleTable) (g : Grammar) (name target : String) : Prop :=
  ∃ body, table.get? name = some body ∧ g.kind body = .reference target

/-- Following aliases from a name comes to some name twice. -/
def Circles (table : RuleTable) (g : Grammar) (name : String) : Prop :=
  ∃ names, (name :: names).IsChain (table.Alias g) ∧ ¬ (name :: names).Nodup

/-- A chain of aliases up to the first name that was passed before. -/
structure Circular (table : RuleTable) (g : Grammar) (name : String) (chain : List String) : Prop where
  follows : chain.IsChain (table.Alias g)
  returns : ∃ passed last, chain = (name :: passed) ++ [last] ∧ (name :: passed).Nodup ∧ last ∈ name :: passed

/-- What the check finds behind a body, with the names so far, the latest first: nothing, or a chain that circles. -/
inductive Scan (table : RuleTable) (g : Grammar) : List String → NodeId → Option (List String) → Prop
  | proper {chain body} (proper : (g.kind body).isReference = false) : Scan table g chain body none
  | missing {chain body target} (kind : g.kind body = .reference target) (fresh : target ∉ chain)
      (unknown : table.get? target = none) : Scan table g chain body none
  | again {chain body target} (kind : g.kind body = .reference target) (passed : target ∈ chain) :
      Scan table g chain body (some (target :: chain).reverse)
  | next {chain body target more outcome} (kind : g.kind body = .reference target) (fresh : target ∉ chain)
      (known : table.get? target = some more) (rest : Scan table g (target :: chain) more outcome) :
      Scan table g chain body outcome

/-- A chain of aliases ends in a name that is no alias. -/
def EndsIn (table : RuleTable) (g : Grammar) (name last : String) : Prop :=
  ReflTransGen (table.Alias g) name last ∧ ∀ target, ¬ table.Alias g last target

/-- Who mentions the name that a chain ends in: a rule of the chain, or whoever mentions its first name. -/
def MentionedBy (table : RuleTable) (g : Grammar) (name owner last referencedFrom : String) : Prop :=
  last = name ∧ referencedFrom = owner ∨
    ReflTransGen (table.Alias g) name referencedFrom ∧ table.Alias g referencedFrom last

variable {name other target latest : String} {chain names : List String} {body : NodeId}

theorem Alias.unique (first : table.Alias g name target) (second : table.Alias g name other) : target = other := by
  obtain ⟨body, known, kind⟩ := first
  obtain ⟨_, again, kind'⟩ := second
  cases known.symm.trans again
  cases kind.symm.trans kind'
  rfl

theorem not_alias_of_proper (known : table.get? name = some body) (proper : (g.kind body).isReference = false) :
    ¬ table.Alias g name target := by
  rintro ⟨_, again, kind⟩
  cases known.symm.trans again
  rw [kind] at proper
  cases proper

theorem not_alias_of_missing (unknown : table.get? name = none) : ¬ table.Alias g name target := by
  rintro ⟨_, known, _⟩
  cases unknown.symm.trans known

theorem Circular.circles (circular : table.Circular g name chain) : table.Circles g name := by
  obtain ⟨passed, last, rfl, _, again⟩ := circular.returns
  refine ⟨passed ++ [last], circular.follows, fun distinct => ?_⟩
  exact (List.nodup_append.mp (List.cons_append ▸ distinct)).2.2 last again last List.mem_cons_self rfl

/-! ## The walk of the check -/

/-- **The bound is never what ends a walk.** -/
theorem scan_circularFrom? {fuel : Nat} (distinct : chain.Nodup) (defined : chain ⊆ table.entries.map Prod.fst)
    (enough : table.entries.length < chain.length + fuel) :
    table.Scan g chain body (table.circularFrom? g fuel chain body) := by
  have short := distinct.length_le_of_subset defined
  rw [List.length_map] at short
  induction fuel generalizing chain body with
  | zero => omega
  | succ fuel ih =>
    unfold circularFrom?
    split
    · next target kind =>
      split
      · next passed => exact .again kind (List.contains_iff_mem.mp passed)
      · next new =>
        have fresh : target ∉ chain := fun mem => new (List.contains_iff_mem.mpr mem)
        split
        · next more known =>
          have distinct' := List.nodup_cons.mpr ⟨fresh, distinct⟩
          have listed := List.mem_map_of_mem (f := Prod.fst) (mem_entries_of_get? known)
          have defined' := List.cons_subset.mpr ⟨listed, defined⟩
          have short' := distinct'.length_le_of_subset defined'
          rw [List.length_map] at short'
          exact .next kind fresh known (ih distinct' defined' (by rw [List.length_cons]; omega) short')
        · next unknown => exact .missing kind fresh unknown
    · next whole => exact .proper (isReference_eq_false whole)

/-- A chain that is found goes back to a name that was passed. -/
theorem Scan.circular {outcome : Option (List String)} (scan : table.Scan g chain body outcome)
    (top : chain.head? = some latest) (known : table.get? latest = some body)
    (follows : chain.IsChain fun later earlier => table.Alias g earlier later) (distinct : chain.Nodup)
    (starts : chain.getLast? = some name) : ∀ found ∈ outcome, table.Circular g name found := by
  induction scan generalizing latest with
  | proper => exact nofun
  | missing => exact nofun
  | @again chain body target kind passed =>
    rintro _ ⟨⟩
    obtain ⟨earlier, rfl⟩ := List.head?_eq_some_iff.mp top
    obtain ⟨later, same⟩ := List.getLast?_eq_some_iff.mp starts
    have step : table.Alias g latest target := ⟨body, known, kind⟩
    refine ⟨List.isChain_reverse.mpr (List.isChain_cons_cons.mpr ⟨step, follows⟩), later.reverse, target, ?_, ?_, ?_⟩
    · rw [List.reverse_cons, same, List.reverse_concat]
    · rw [← List.reverse_concat, ← same]
      exact List.nodup_reverse.mpr distinct
    · rw [← List.reverse_concat, ← same]
      exact List.mem_reverse.mpr passed
  | @next chain body target more outcome kind fresh known' _ ih =>
    obtain ⟨earlier, rfl⟩ := List.head?_eq_some_iff.mp top
    have step : table.Alias g latest target := ⟨body, known, kind⟩
    exact ih rfl known' (List.isChain_cons_cons.mpr ⟨step, follows⟩) (List.nodup_cons.mpr ⟨fresh, distinct⟩) starts

/-- Where nothing is found, going on comes to no name again. -/
theorem Scan.nodup (scan : table.Scan g chain body none) (top : chain.head? = some latest)
    (known : table.get? latest = some body) (distinct : chain.Nodup)
    (follows : (latest :: names).IsChain (table.Alias g)) : (chain.reverse ++ names).Nodup := by
  generalize same : (none : Option (List String)) = outcome at scan
  have stops : ∀ {passed : List String}, passed.Nodup → (passed.reverse ++ []).Nodup := by
    intro passed once
    rw [List.append_nil]
    exact List.nodup_reverse.mpr once
  -- What follows is an alias chain too, and there is one alias at most from each rule: it goes where the scan went,
  -- and the scan meets nothing twice.
  induction scan generalizing latest names with
  | again => cases same
  | proper proper =>
    cases follows with
    | singleton => exact stops distinct
    | cons_cons step _ => exact absurd step (not_alias_of_proper known proper)
  | @missing chain body target kind fresh unknown =>
    cases follows with
    | singleton => exact stops distinct
    | cons_cons step rest =>
      obtain rfl := step.unique ⟨body, known, kind⟩
      cases rest with
      | singleton =>
        rw [← List.reverse_cons]
        exact List.nodup_reverse.mpr (List.nodup_cons.mpr ⟨fresh, distinct⟩)
      | cons_cons step' _ => exact absurd step' (not_alias_of_missing unknown)
  | @next chain body target more outcome kind fresh known' _ ih =>
    cases follows with
    | singleton => exact stops distinct
    | cons_cons step rest =>
      obtain rfl := step.unique ⟨body, known, kind⟩
      have later := ih rfl known' (List.nodup_cons.mpr ⟨fresh, distinct⟩) rest same
      rwa [List.reverse_cons, List.append_assoc] at later

theorem scan_of_mem (listed : (name, body) ∈ table.entries) :
    table.Scan g [name] body (table.circularFrom? g (table.entries.length + 1) [name] body) := by
  refine scan_circularFrom? (List.nodup_singleton name) ?_ (by rw [List.length_singleton]; omega)
  exact List.cons_subset.mpr ⟨List.mem_map_of_mem (f := Prod.fst) listed, List.nil_subset _⟩

theorem circular_of_circularFrom? (distinct : (table.entries.map Prod.fst).Nodup)
    (listed : (name, body) ∈ table.entries)
    (found : table.circularFrom? g (table.entries.length + 1) [name] body = some chain) :
    table.Circular g name chain := by
  have known : table.get? name = some body := (lookup_eq_some_iff_mem distinct).mpr listed
  exact (scan_of_mem listed).circular rfl known (List.isChain_singleton name) (List.nodup_singleton name) rfl
    chain found

/-- **A walk from a rule finds nothing exactly where its chain ends.** -/
theorem circularFrom?_eq_none_iff (distinct : (table.entries.map Prod.fst).Nodup)
    (listed : (name, body) ∈ table.entries) :
    table.circularFrom? g (table.entries.length + 1) [name] body = none ↔ ¬ table.Circles g name := by
  have known : table.get? name = some body := (lookup_eq_some_iff_mem distinct).mpr listed
  constructor
  · rintro clear ⟨names, follows, again⟩
    have scan := scan_of_mem (g := g) listed
    rw [clear] at scan
    exact again (scan.nodup rfl known (List.nodup_singleton name) follows)
  · intro ends
    refine Option.eq_none_iff_forall_ne_some.mpr fun chain found => ends ?_
    exact (circular_of_circularFrom? distinct listed found).circles

/-! ## The check -/

/-- A table that knows no name twice still knows none twice with one rule more. -/
theorem nodup_names_define {more : RuleTable} (distinct : (table.entries.map Prod.fst).Nodup)
    (defined : table.define name body = .ok more) : (more.entries.map Prod.fst).Nodup := by
  rw [entries_define defined]
  refine nodup_names_concat distinct (fun taken => ?_) body
  rw [define_of_taken taken] at defined
  cases defined

/-- The check reports the first rule whose chain circles. -/
theorem checkAliases_error {error : CompileError} (distinct : (table.entries.map Prod.fst).Nodup)
    (failed : table.checkAliases g = .error error) : ∃ before name after chain,
      error = .circularReference chain ∧ table.entries.map Prod.fst = before ++ name :: after ∧
        (∀ earlier ∈ before, ¬ table.Circles g earlier) ∧ table.Circular g name chain := by
  unfold checkAliases at failed
  split at failed
  · next chain found =>
    cases failed
    obtain ⟨before, ⟨name, body⟩, after, split, found, clear⟩ := List.findSome?_eq_some_iff.mp found
    have listed : (name, body) ∈ table.entries := split ▸ List.mem_append_right _ List.mem_cons_self
    refine ⟨before.map Prod.fst, name, after.map Prod.fst, chain, rfl, ?_, ?_,
      circular_of_circularFrom? distinct listed found⟩
    · rw [split, List.map_append, List.map_cons]
    · refine List.forall_mem_map.mpr fun entry earlier => ?_
      have listed' : entry ∈ table.entries := split ▸ List.mem_append_left _ earlier
      exact (circularFrom?_eq_none_iff distinct listed').mp (clear entry earlier)
  · cases failed

theorem checkAliases_error_iff (distinct : (table.entries.map Prod.fst).Nodup) :
    (∃ error, table.checkAliases g = .error error) ↔ ∃ name ∈ table.entries.map Prod.fst, table.Circles g name := by
  constructor
  · rintro ⟨error, failed⟩
    obtain ⟨before, name, after, chain, _, split, _, circular⟩ := checkAliases_error distinct failed
    exact ⟨name, split ▸ List.mem_append_right _ List.mem_cons_self, circular.circles⟩
  · rintro ⟨name, mem, circles⟩
    obtain ⟨⟨_, body⟩, listed, rfl⟩ := List.mem_map.mp mem
    cases checked : table.checkAliases g with
    | error error => exact ⟨error, rfl⟩
    | ok done =>
      exact absurd circles ((circularFrom?_eq_none_iff distinct listed).mp (circularFrom?_eq_none checked listed))

/-! ## The end of a chain -/

theorem EndsIn.unique {last : String} (first : table.EndsIn g name last) (second : table.EndsIn g name other) :
    last = other := by
  have functional : Relator.RightUnique (table.Alias g) := fun _ _ _ => Alias.unique
  rcases ReflTransGen.total_of_right_unique functional first.1 second.1 with way | way
  · rcases ReflTransGen.cases_head way with same | ⟨_, step, _⟩
    · exact same
    · exact absurd step (first.2 _)
  · rcases ReflTransGen.cases_head way with same | ⟨_, step, _⟩
    · exact same.symm
    · exact absurd step (second.2 _)

/-- What comes of a name is told by the end of its chain. -/
theorem Resolution.endsIn {owner : String} {outcome : Except CompileError NodeId}
    (resolution : table.Resolution g name owner outcome) : ∃ last, table.EndsIn g name last ∧
      ((∃ id, outcome = .ok id ∧ table.get? last = some id ∧ (g.kind id).isReference = false) ∨
        ∃ referencedFrom, outcome = .error (.undefinedRule last referencedFrom) ∧ table.get? last = none ∧
          table.MentionedBy g name owner last referencedFrom) := by
  induction resolution with
  | @missing name owner unknown =>
    exact ⟨name, ⟨.refl, fun _ => not_alias_of_missing unknown⟩, .inr ⟨owner, rfl, unknown, .inl ⟨rfl, rfl⟩⟩⟩
  | @body name owner id known proper =>
    exact ⟨name, ⟨.refl, fun _ => not_alias_of_proper known proper⟩, .inl ⟨id, rfl, known, proper⟩⟩
  | @via name owner body target outcome known kind _ ih =>
    have step : table.Alias g name target := ⟨body, known, kind⟩
    obtain ⟨last, ends, found⟩ := ih
    refine ⟨last, ⟨.head step ends.1, ends.2⟩, found.imp_right ?_⟩
    rintro ⟨referencedFrom, same, unknown, ⟨rfl, rfl⟩ | ⟨way, mention⟩⟩
    · exact ⟨_, same, unknown, .inr ⟨.refl, step⟩⟩
    · exact ⟨referencedFrom, same, unknown, .inr ⟨.head step way, mention⟩⟩

/-- **The check is exact, and where it passes, names are followed to an end.** It looks along each chain until the chain
ends or comes to a name again. It fails if a chain circles, with the chain of the first rule that has such a one.
Where it passes, following any name ends: in a body that is no placeholder, or in the report that the last name is not
defined. -/
theorem checkAliases_exact (g : Grammar) (table : RuleTable) (distinct : (table.entries.map Prod.fst).Nodup) :
    (∀ name body, (name, body) ∈ table.entries →
      table.Scan g [name] body (table.circularFrom? g (table.entries.length + 1) [name] body)) ∧
    ((∃ error, table.checkAliases g = .error error) ↔ ∃ name ∈ table.entries.map Prod.fst, table.Circles g name) ∧
    (∀ error, table.checkAliases g = .error error → ∃ before name after chain,
      error = .circularReference chain ∧ table.entries.map Prod.fst = before ++ name :: after ∧
        (∀ earlier ∈ before, ¬ table.Circles g earlier) ∧ table.Circular g name chain) ∧
    (table.checkAliases g = .ok () → ∀ name owner,
      table.Resolution g name owner (table.resolve g name owner) ∧
      ∃ last, table.EndsIn g name last ∧ (∀ other, table.EndsIn g name other → other = last) ∧
        ((∃ id, table.resolve g name owner = .ok id ∧ table.get? last = some id ∧ (g.kind id).isReference = false) ∨
          ∃ referencedFrom, table.resolve g name owner = .error (.undefinedRule last referencedFrom) ∧
            table.get? last = none ∧ table.MentionedBy g name owner last referencedFrom)) := by
  refine ⟨fun _ _ => scan_of_mem, checkAliases_error_iff distinct,
    fun error => checkAliases_error distinct, fun checked name owner => ?_⟩
  have resolution := resolve_resolution checked name owner
  obtain ⟨last, ends, outcome⟩ := resolution.endsIn
  exact ⟨resolution, last, ends, fun other again => again.unique ends, outcome⟩

/-- The root is an alias that leads into a circle, and is not on it. -/
def tailed : Grammar :=
  ⟨#[⟨none, .reference "a"⟩, ⟨none, .reference "b"⟩, ⟨none, .reference "a"⟩]⟩

def tailedTable : RuleTable :=
  ⟨[("root", 0), ("a", 1), ("b", 2)]⟩

/-- One alias for a rule, and one for nothing. -/
def settled : Grammar :=
  ⟨#[⟨none, .reference "a"⟩, ⟨some "a", .endOfInput⟩, ⟨none, .reference "c"⟩]⟩

def settledTable : RuleTable :=
  ⟨[("root", 0), ("a", 1), ("b", 2)]⟩

theorem tail_followed :
    tailedTable.Circular tailed "root" ["root", "a", "b", "a"] ∧
      (∃ last, settledTable.EndsIn settled "root" last ∧ settledTable.get? last = some 1) ∧
        settledTable.EndsIn settled "b" "c" := by
  obtain ⟨_, _, reports, _⟩ := checkAliases_exact tailed tailedTable (by decide)
  obtain ⟨_, _, _, follows⟩ := checkAliases_exact settled settledTable (by decide)
  refine ⟨?_, ?_, ?_⟩
  · obtain ⟨_, name, _, chain, same, _, _, circular⟩ :=
      reports (.circularReference ["root", "a", "b", "a"]) (by decide)
    cases same
    obtain ⟨_, _, starts, _⟩ := circular.returns
    cases (List.cons.inj starts).1
    exact circular
  · have whole : settledTable.resolve settled "root" "b" = .ok 1 := by decide
    obtain ⟨_, last, ends, _, ⟨id, same, known, _⟩ | ⟨_, same, _⟩⟩ := follows (by decide) "root" "b"
    · cases whole.symm.trans same
      exact ⟨last, ends, known⟩
    · cases whole.symm.trans same
  · have missing : settledTable.resolve settled "b" "root" = .error (.undefinedRule "c" "b") := by decide
    obtain ⟨_, last, ends, _, ⟨id, same, _⟩ | ⟨_, same, _⟩⟩ := follows (by decide) "b" "root"
    · cases missing.symm.trans same
    · cases missing.symm.trans same
      exact ends

end BnfTokenizer.Dialect.RuleTable
