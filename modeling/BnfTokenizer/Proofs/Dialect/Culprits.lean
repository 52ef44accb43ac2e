import BnfTokenizer.Proofs.Dialect.Dependence
import BnfTokenizer.Proofs.Dialect.Openings
import BnfTokenizer.Proofs.Dialect.Substitution
import BnfTokenizer.Proofs.Grammar.Cycles

/-!
# Defects name the rules that have them

The check of a linked grammar finds a node, or a cycle of nodes, and reports rules. For a repetition it is the owner
of the node. The search for owners goes from bodies to the parts below them, and the label that a part inherits is the
name of the rule that it is a part of (`Owned`).

For a cycle it is the names that are met on it. Nameless nodes are parts of the body above them, so from one name to
the next the way leads through one rule, to a mention of the next (`chain_of_walk`). That the names end as they begin
needs the search to begin the cycle with a body, and it does, since what is no body stands in one place
(`Grammar.Placed.ruleName?_of_leftCycle?`).
-/

namespace BnfTokenizer.Dialect

open Relation (ReflTransGen)

variable {rules : List Rule} {g : Grammar} {table : RuleTable} {limits : Match.Limits} {source : String}

/-! ## What is reported -/

/-- Among the parts of a rule there is a repetition of something that can match nothing. -/
def RepeatsNothing (rules : List Rule) (name : String) : Prop :=
  ∃ rule ∈ rules, rule.name = name ∧ ∃ inner, rule.body.Contains (.repetition inner) ∧ inner.Nullable rules

/-- Rules enter one another in turn, the last in the chain being the first. -/
structure Recursion (rules : List Rule) (chain : List String) : Prop where
  long : 2 ≤ chain.length
  defined : ∀ name ∈ chain, name ∈ rules.map Rule.name
  returns : chain.head? = chain.getLast?
  enters : chain.IsChain (EntersRule rules)

/-- A text that is refused for a defect is read as some rules, and the grammar that they make has this defect. -/
theorem linked_of_defective {defect : Grammar.Defect} (failed : compile limits source = .error (.defective defect)) :
    ∃ rules g table, ReadAs limits source rules ∧ Checked rules g table ∧ ∃ root final, table.root g = .ok root ∧
      table.link g root = .ok final ∧ final.defect? root = some defect := by
  obtain refused | ⟨tree, parsed, lowering | ⟨g, table, lowered, assembling⟩⟩ := compile_error failed
  · obtain ⟨refusal, _, same⟩ := parse_error refused
    cases refusal <;> cases same
  · obtain ⟨_, _, _, ⟨⟩⟩ | ⟨_, _, _, ⟨⟩⟩ := (lower_error_iff parsed).mp lowering
  · obtain ⟨⟨⟩⟩ | ⟨root, final, defect, checked, rooted, linking, ended, ⟨⟩⟩ := assemble_error assembling
    obtain ⟨rules, read, proper, tabled⟩ := tabled_of_lower parsed lowered
    have reads : ReadAs limits source rules := by
      refine ⟨?_, ?_⟩
      · rw [parsed]
        exact read
      · rw [parsed, Except.bind, lowered]
        exact checked
    refine ⟨rules, g, table, reads, ⟨proper, tabled, checked⟩, root, final, rooted, linking, ?_⟩
    unfold Lexer.ofGrammar at ended
    split at ended
    · cases ended
    · next found =>
      cases ended
      exact found

/-! ## Owners -/

section

variable {root id child : NodeId} {visited : NodeId → Prop} {final : Grammar} {label : Option String}

/-- A node is part of a rule, and a label that it hands down is the name of the rule. -/
def Owned (rules : List Rule) (g : Grammar) (table : RuleTable) (final : Grammar) (visited : NodeId → Prop)
    (id : NodeId)
    (label : Option String) : Prop :=
  ∃ rule ∈ rules, ∃ e own, PartAt final (table.Bound g visited) rule e id own ∧
    (final.children id ≠ [] → label = some rule.name)

/-- A node is a body, or it is below a part of a rule and has got the name of the rule for a label. -/
def Awaits (rules : List Rule) (g : Grammar) (table : RuleTable) (final : Grammar) (visited : NodeId → Prop)
    (id : NodeId)
    (label : Option String) : Prop :=
  (∃ rule, BodyOf rules g table rule id ∧ visited id) ∨ ∃ rule ∈ rules,
    ∃ e, PartAt final (table.Bound g visited) rule e id e.ownName ∧ label = some rule.name

theorem PartAt.name {mention : NodeId → String → Prop} {rule : Rule} {e : Expression} {own : Option String}
    (part : PartAt final mention rule e id own) : final.name id = own := by
  obtain ⟨_, row, _⟩ := row_of_stands part.stands part.whole
  exact name_of_row row

/-- Only literals have names of their own, and nothing is below them. -/
theorem ownName_of_children {mention : NodeId → String → Prop} {e : Expression} {own : Option String}
    (stands : e.Stands final mention id own) (below : final.children id ≠ []) : e.ownName = none := by
  cases e with
  | literal text =>
    rw [Grammar.children, kind_of_row stands] at below
    exact absurd rfl below
  | _ => rfl

theorem Owned.awaits (tabled : Tabled rules g table) (distinct : (rules.map Rule.name).Nodup)
    (owned : Owned rules g table final visited id label)
    (edge : final.Edge id child) : Awaits rules g table final visited child label := by
  obtain ⟨rule, mem, e, own, part, labelled⟩ := owned
  rcases part.child edge with ⟨target, bound, _⟩ | ⟨inner, below⟩
  · obtain ⟨other, body, _⟩ := bound.1.aliases tabled distinct
    exact .inl ⟨other, body, bound.2⟩
  · exact .inr ⟨rule, mem, inner, below, labelled (List.ne_nil_of_mem edge)⟩

section

variable (tabled : Tabled rules g table) (proper : Proper rules) (linked : table.Linked g root visited final)

include linked

theorem BodyOf.partAt {rule : Rule} (body : BodyOf rules g table rule id) (mark : visited id) :
    PartAt final (table.Bound g visited) rule rule.body id (some rule.name) :=
  ⟨.refl, body.whole, body.linked linked mark⟩

theorem Awaits.owned (awaits : Awaits rules g table final visited id label) :
    Owned rules g table final visited id ((final.name id).or label) := by
  rcases awaits with ⟨rule, body, mark⟩ | ⟨rule, mem, e, part, rfl⟩
  · have part := body.partAt linked mark
    exact ⟨rule, body.mem, _, _, part, fun _ => by rw [part.name]; rfl⟩
  · refine ⟨rule, mem, e, _, part, fun below => ?_⟩
    rw [part.name, ownName_of_children part.stands below]
    rfl

include tabled proper

/-- **The owner of a node is the rule that it is a part of**, if anything is below the node. -/
theorem part_of_owner {start : Rule} (body : BodyOf rules g table start root) (reaches : final.Reaches root id)
    (below : final.children id ≠ []) : ∃ rule ∈ rules, rule.name = final.owner root id ∧
      ∃ e own, PartAt final (table.Bound g visited) rule e id own := by
  obtain ⟨child, edge⟩ := List.exists_mem_of_ne_nil _ below
  have inside : id < final.size := Grammar.Edge.lt_size edge
  obtain ⟨label, listed, owner⟩ := Grammar.exists_owner (Grammar.mem_reachable_iff.mpr ⟨reaches, inside⟩)
  have takes : ∀ id label, Awaits rules g table final visited id label →
      Owned rules g table final visited id ((final.name id).or label) := fun _ _ => Awaits.owned linked
  have handsDown : ∀ id label child, Owned rules g table final visited id label → final.Edge id child →
      Awaits rules g table final visited child label := fun _ _ _ => Owned.awaits tabled proper.distinct
  have all := (Grammar.walk_search final _ root none).labelled takes handsDown
    (List.forall_mem_singleton.mpr (.inl ⟨start, body, linked.root⟩))
  have owned : Owned rules g table final visited id label := all _ listed
  obtain ⟨rule, mem, e, own, part, labelled⟩ := owned
  refine ⟨rule, mem, ?_, e, own, part⟩
  rw [owner, labelled below]
  rfl

/-! ## Walks -/

/-- **From name to name a walk goes through the parts of one rule.** -/
theorem chain_of_walk : ∀ (walk : List NodeId) {id : NodeId} {rule : Rule} {e : Expression} {own : Option String},
    rule ∈ rules → ReflTransGen (Expression.Starts rules) rule.body e → (∀ target, e ≠ .rule target) →
    e.Stands final (table.Bound g visited) id own → (id :: walk).IsChain final.Enters →
    (∀ id ∈ walk, final.children id ≠ []) →
    (rule.name :: walk.filterMap final.name).IsChain (EntersRule rules) ∧
      ∀ name ∈ walk.filterMap final.name, name ∈ rules.map Rule.name
  | [], _, _, _, _, _, _, _, _, _, _ => ⟨List.isChain_singleton _, nofun⟩
  | next :: walk, id, rule, e, own, mem, opens, whole, stands, enters, below => by
    obtain ⟨step, rest⟩ := List.isChain_cons_cons.mp enters
    obtain ⟨here, later⟩ := List.forall_mem_cons.mp below
    obtain ⟨part, starts, stands'⟩ := starts_of_enters tabled proper linked whole stands step
    by_cases bare : ∃ target, part = .rule target
    · obtain ⟨target, rfl⟩ := bare
      obtain ⟨resolves, mark⟩ := stands'
      obtain ⟨other, body, way⟩ := resolves.aliases tabled proper.distinct
      have named : final.name next = some other.name := (body.partAt linked mark).name
      obtain ⟨chain, defined⟩ :=
        chain_of_walk walk body.mem .refl body.whole (body.linked linked mark) rest later
      rw [List.filterMap_cons_some named]
      refine ⟨List.isChain_cons_cons.mpr ⟨⟨rule, mem, rfl, target, opens.tail starts, way⟩, chain⟩, ?_⟩
      exact List.forall_mem_cons.mpr ⟨List.mem_map_of_mem body.mem, defined⟩
    · have whole' : ∀ target, part ≠ .rule target := fun target same => bare ⟨target, same⟩
      obtain ⟨_, row, _⟩ := row_of_stands stands' whole'
      have nameless : final.name next = none := (name_of_row row).trans (ownName_of_children stands' here)
      rw [List.filterMap_cons_none nameless]
      exact chain_of_walk walk mem (opens.tail starts) whole' stands' rest later

end

end

/-! ## Reports -/

theorem repeatsNothing_of_reported {root : NodeId} {final : Grammar} {name : String} (own : Checked rules g table)
    (rooted : table.root g = .ok root)
    (linking : table.link g root = .ok final)
    (reported : final.defect? root = some (.nullableRepetition name)) : RepeatsNothing rules name := by
  obtain ⟨visited, linked⟩ := RuleTable.linked_of_link linking
  obtain ⟨start, body, _⟩ := root_cases own.tabled own.proper rooted
  obtain ⟨id, child, reaches, kind, nullable, rfl⟩ := Grammar.repetition_of_nullableRepetition reported
  have below : final.children id = [child] := by rw [Grammar.children, kind]; rfl
  have some : final.children id ≠ [] := below ▸ List.cons_ne_nil child []
  obtain ⟨rule, mem, owns, e, _, part⟩ := part_of_owner own.tabled own.proper linked body reaches some
  obtain ⟨contains, whole, stands⟩ := part
  refine ⟨rule, mem, owns, ?_⟩
  cases e with
  | repetition inner =>
    obtain ⟨_, row, stands⟩ := stands
    cases (kind_of_row row).symm.trans kind
    exact ⟨inner, contains, nullable_of_stands own.tabled own.proper linked nullable inner _ stands⟩
  | rule target => exact absurd rfl (whole target)
  | sequence _ | choice _ | optional _ | negation _ =>
    obtain ⟨_, row, _⟩ := stands
    cases (kind_of_row row).symm.trans kind
  | literal _ | charSet _ _ | charRange _ _ _ | endOfInput => cases (kind_of_row stands).symm.trans kind

theorem recursion_of_reported {root : NodeId} {final : Grammar} {chain : List String} (own : Checked rules g table)
    (rooted : table.root g = .ok root)
    (linking : table.link g root = .ok final)
    (reported : final.defect? root = some (.leftRecursion chain)) : Recursion rules chain := by
  obtain ⟨visited, linked⟩ := RuleTable.linked_of_link linking
  obtain ⟨first, atRoot, _⟩ := root_cases own.tabled own.proper rooted
  obtain ⟨_, found, rfl⟩ := Grammar.cycle_of_leftRecursion reported
  obtain ⟨start, between, rfl, round, _⟩ := Grammar.round_of_leftCycle? found
  obtain ⟨name, isBody⟩ := Option.isSome_iff_exists.mp
    ((placed_of_linked own.tabled own.proper linked atRoot).ruleName?_of_leftCycle? found)
  rw [linked.ruleName?] at isBody
  obtain ⟨rule, body, rfl⟩ := BodyOf.of_named own.tabled isBody
  have mark := linked.visited_of_reaches (round.reached start List.mem_cons_self)
  have named : final.name start = some rule.name := (body.partAt linked mark).name
  -- Every node of the cycle enters the next, so none of them is a leaf.
  have below : ∀ id ∈ between ++ [start], final.children id ≠ [] := by
    intro id mem
    have here : id ∈ start :: between := by
      rw [List.mem_cons, or_comm]
      exact (List.mem_append.mp mem).imp_right List.mem_singleton.mp
    obtain ⟨next, enters⟩ := round.exists_out id here
    exact List.ne_nil_of_mem enters.edge
  obtain ⟨enters, defined⟩ := chain_of_walk own.tabled own.proper linked (between ++ [start]) body.mem .refl body.whole
    (body.linked linked mark) round.enters below
  have names : (between ++ [start]).filterMap final.name = between.filterMap final.name ++ [rule.name] := by
    simp [named]
  rw [names] at enters defined
  rw [Grammar.cycleNames_named named]
  refine {
    long := by simp
    defined := List.forall_mem_cons.mpr ⟨List.mem_map_of_mem body.mem, defined⟩
    returns := ?_
    enters }
  rw [← List.cons_append, List.getLast?_concat]
  rfl

/-- **A defect is reported for the rules that have it.** -/
theorem defects_name_rules (limits : Match.Limits) (source : String) :
    (∀ rule, compile limits source = .error (.defective (.nullableRepetition rule)) →
      ∃ rules, ReadAs limits source rules ∧ RepeatsNothing rules rule) ∧
    ∀ chain, compile limits source = .error (.defective (.leftRecursion chain)) →
      ∃ rules, ReadAs limits source rules ∧ Recursion rules chain := by
  refine ⟨fun rule failed => ?_, fun chain failed => ?_⟩
  · obtain ⟨rules, g, table, reads, own, root, final, rooted, linking, reported⟩ := linked_of_defective failed
    exact ⟨rules, reads, repeatsNothing_of_reported own rooted linking reported⟩
  · obtain ⟨rules, g, table, reads, own, root, final, rooted, linking, reported⟩ := linked_of_defective failed
    exact ⟨rules, reads, recursion_of_reported own rooted linking reported⟩

/-- A repetition of an alias for something optional. -/
def idling : String := "root::=([x]|a+)\na::=b\nb::=[y]?"

/-- The root comes back to itself behind something optional and through an alias. -/
def circling : String := "root::=[x]?a\na::=b\nb::=root[y]"

theorem idling_and_circling :
    (∃ rules, ReadAs {} idling rules ∧ RepeatsNothing rules "root") ∧
      ∃ rules, ReadAs {} circling rules ∧ Recursion rules ["root", "b", "root"] := by
  have idles : (compile {} idling).map (fun _ => ()) = .error (.defective (.nullableRepetition "root")) := by
    decide +kernel
  have circles : (compile {} circling).map (fun _ => ()) =
      .error (.defective (.leftRecursion ["root", "b", "root"])) := by decide +kernel
  refine ⟨(defects_name_rules {} idling).1 "root" ?_, (defects_name_rules {} circling).2 ["root", "b", "root"] ?_⟩
  · cases failed : compile {} idling with
    | error error =>
      rw [failed] at idles
      cases idles
      rfl
    | ok lexer =>
      rw [failed] at idles
      cases idles
  · cases failed : compile {} circling with
    | error error =>
      rw [failed] at circles
      cases circles
      rfl
    | ok lexer =>
      rw [failed] at circles
      cases circles

end BnfTokenizer.Dialect
