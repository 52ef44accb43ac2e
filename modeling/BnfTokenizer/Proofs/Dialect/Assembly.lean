import BnfTokenizer.Proofs.Dialect.Lowering
import BnfTokenizer.Proofs.Dialect.Names

/-!
# From rules to a linked grammar

`BodyOf` says where the body of a rule is. In the linked grammar of proper rules the bodies that are reached stand for
what their rules say, with the body behind each name that is mentioned, and nothing stands in two places.
-/

namespace BnfTokenizer.Dialect

open Grammar (Kind Node Placed)

variable {rules : List Rule} {g : Grammar} {table : RuleTable}

/-! ## Bodies -/

theorem lookup_eq_some_iff_mem {entries : List (String × NodeId)} (distinct : (entries.map Prod.fst).Nodup)
    {name : String} {id : NodeId} : entries.lookup name = some id ↔ (name, id) ∈ entries := by
  rw [List.lookup_eq_some_iff]
  constructor
  · rintro ⟨before, after, rfl, _⟩
    exact List.mem_append_right _ List.mem_cons_self
  · intro mem
    obtain ⟨before, after, rfl⟩ := List.append_of_mem mem
    refine ⟨before, after, rfl, fun entry earlier => bne_iff_ne.mpr fun same => ?_⟩
    rw [List.map_append, List.map_cons, List.nodup_append] at distinct
    exact distinct.2.2 _ (List.mem_map_of_mem earlier) _ List.mem_cons_self same.symm

namespace Tabled

variable (tabled : Tabled rules g table)

include tabled

theorem get?_iff (distinct : (rules.map Rule.name).Nodup) {name : String} {id : NodeId} :
    table.get? name = some id ↔ (name, id) ∈ table.entries :=
  lookup_eq_some_iff_mem (by rwa [tabled.map_fst_entries])

theorem exists_rule {name : String} {id : NodeId} (listed : (name, id) ∈ table.entries) :
    ∃ rule ∈ rules, rule.name = name ∧
      Expression.Stands g (Expression.Placeholder g) id (rule.body.bodyName name) rule.body := by
  obtain ⟨rule, mem, same, stands⟩ := Grammar.exists_left_of_mem tabled.bodies listed
  cases same
  exact ⟨rule, mem, rfl, stands⟩

theorem exists_entry {rule : Rule} (mem : rule ∈ rules) : ∃ id, (rule.name, id) ∈ table.entries ∧
    rule.body.Stands g (Expression.Placeholder g) id (rule.body.bodyName rule.name) := by
  obtain ⟨⟨name, id⟩, listed, rfl, stands⟩ := Grammar.exists_left_of_mem tabled.bodies.flip mem
  exact ⟨id, listed, stands⟩

end Tabled

/-- The rule with this body, which is more than a name. -/
structure BodyOf (rules : List Rule) (g : Grammar) (table : RuleTable) (rule : Rule) (id : NodeId) : Prop where
  mem : rule ∈ rules
  listed : (rule.name, id) ∈ table.entries
  whole : ∀ target, rule.body ≠ .rule target
  stands : Expression.Stands g (Expression.Placeholder g) id (some rule.name) rule.body

theorem isRuleName_of_isName {name : String} (is : IsName name) : isRuleName name = true := by
  obtain ⟨word, rfl⟩ := is
  rw [isRuleName, Word.name, String.toList_ofList]
  obtain ⟨c, cs, same⟩ := List.exists_cons_of_ne_nil word.nonempty
  have isChar : IsWordChar c := word.chars c (same ▸ List.mem_cons_self)
  rw [same, List.head?_cons, bne_iff_ne]
  rintro ⟨⟩
  revert isChar
  decide

namespace BodyOf

variable {rule other : Rule} {id id' : NodeId}

theorem row (body : BodyOf rules g table rule id) :
    ∃ kind, g.nodes[id]? = some ⟨some rule.name, kind⟩ ∧ kind.isReference = false :=
  row_of_stands body.stands body.whole

theorem lt_size (body : BodyOf rules g table rule id) : id < g.size := by
  obtain ⟨_, row, _⟩ := body.row
  exact (Grammar.getElem?_eq_some_iff.mp row).1

theorem name (body : BodyOf rules g table rule id) : g.name id = some rule.name := by
  obtain ⟨_, row, _⟩ := body.row
  exact name_of_row row

theorem proper (body : BodyOf rules g table rule id) : (g.kind id).isReference = false := by
  obtain ⟨kind, row, proper⟩ := body.row
  rwa [kind_of_row row]

theorem ruleName? (body : BodyOf rules g table rule id) (is : IsName rule.name) : g.ruleName? id = some rule.name := by
  rw [Grammar.ruleName?, body.name]
  exact if_pos (isRuleName_of_isName is)

section

variable (tabled : Tabled rules g table)

include tabled

theorem get? (body : BodyOf rules g table rule id) (distinct : (rules.map Rule.name).Nodup) :
    table.get? rule.name = some id :=
  (tabled.get?_iff distinct).mpr body.listed

theorem unique (body : BodyOf rules g table rule id) (body' : BodyOf rules g table other id')
    (distinct : (rules.map Rule.name).Nodup) (same : rule.name = other.name) : id = id' :=
  Option.some.inj ((body.get? tabled distinct).symm.trans (same ▸ body'.get? tabled distinct))

/-- A body that is no placeholder belongs to a rule. -/
theorem of_mem {name : String} (listed : (name, id) ∈ table.entries) (proper : (g.kind id).isReference = false) :
    ∃ rule, BodyOf rules g table rule id ∧ rule.name = name := by
  obtain ⟨rule, mem, rfl, stands⟩ := tabled.exists_rule listed
  have whole : ∀ target, rule.body ≠ .rule target := by
    intro target same
    rw [kind_of_rule same stands] at proper
    cases proper
  rw [bodyName_of_whole whole] at stands
  exact ⟨rule, ⟨mem, listed, whole, stands⟩, rfl⟩

/-- A node that is called like a rule is the body of the rule. -/
theorem of_named {name : String} (named : g.ruleName? id = some name) :
    ∃ rule, BodyOf rules g table rule id ∧ rule.name = name := by
  have listed := tabled.mem_entries_of_ruleName? named
  obtain ⟨rule, mem, rfl, stands⟩ := tabled.exists_rule listed
  have whole : ∀ target, rule.body ≠ .rule target := by
    intro target same
    rw [same] at stands
    rw [Grammar.ruleName?, name_of_row stands] at named
    cases named
  rw [bodyName_of_whole whole] at stands
  exact ⟨rule, ⟨mem, listed, whole, stands⟩, rfl⟩

theorem exists_of_whole (mem : rule ∈ rules) (whole : ∀ target, rule.body ≠ .rule target) :
    ∃ id, BodyOf rules g table rule id := by
  obtain ⟨id, listed, stands⟩ := tabled.exists_entry mem
  rw [bodyName_of_whole whole] at stands
  exact ⟨id, mem, listed, whole, stands⟩

end

end BodyOf

/-! ## What names stand for -/

section

variable (tabled : Tabled rules g table) (proper : Proper rules)

include tabled proper

theorem get?_cases {name : String} {id : NodeId} (known : table.get? name = some id) :
    (∃ rule, BodyOf rules g table rule id ∧ rule.name = name) ∨
      ∃ target, g.kind id = .reference target ∧ IsMention target := by
  have listed := (tabled.get?_iff proper.distinct).mp known
  obtain ⟨rule, mem, rfl, stands⟩ := tabled.exists_rule listed
  by_cases bare : ∃ target, rule.body = .rule target
  · obtain ⟨target, same⟩ := bare
    refine .inr ⟨target, kind_of_rule same stands, ?_⟩
    have sayable := proper.sayable rule mem
    rwa [same] at sayable
  · have whole : ∀ target, rule.body ≠ .rule target := fun target same => bare ⟨target, same⟩
    rw [bodyName_of_whole whole] at stands
    exact .inl ⟨rule, ⟨mem, listed, whole, stands⟩, rfl⟩

/-- A name stands for the body of a rule, and the name of that rule is mentioned on the way. -/
theorem RuleTable.Resolves.bodyOf {name : String} {id : NodeId} (mention : IsMention name)
    (resolves : table.Resolves g name id) : ∃ rule, BodyOf rules g table rule id ∧ IsMention rule.name := by
  induction resolves with
  | body known isProper =>
    rcases get?_cases tabled proper known with ⟨rule, body, same⟩ | ⟨target, kind, _⟩
    · exact ⟨rule, body, same ▸ mention⟩
    · rw [kind] at isProper
      cases isProper
  | via known kind _ ih =>
    rcases get?_cases tabled proper known with ⟨rule, body, _⟩ | ⟨target, kind', mentioned⟩
    · have isProper := body.proper
      rw [kind] at isProper
      cases isProper
    · cases kind.symm.trans kind'
      exact ih mentioned

/-- The root rule has a body of its own, or it is another name for a rule. -/
theorem root_cases {root : NodeId} (found : table.root g = .ok root) :
    ∃ rule, BodyOf rules g table rule root ∧ (rule.name = RuleTable.rootName ∨
      IsMention rule.name ∧ ∀ {other id}, BodyOf rules g table other id → other.name ≠ RuleTable.rootName) := by
  unfold RuleTable.root at found
  split at found
  · cases found
  · next body known =>
    rcases get?_cases tabled proper known with ⟨rule, body, same⟩ | ⟨target, kind, mentioned⟩
    · have isProper := body.proper
      split at found
      · next kind =>
        rw [kind] at isProper
        cases isProper
      · cases found
        exact ⟨rule, body, .inl same⟩
    · rw [kind] at found
      obtain ⟨rule, body, mentioned⟩ :=
        (RuleTable.resolves_of_resolveFrom found).bodyOf tabled proper mentioned
      refine ⟨rule, body, .inr ⟨mentioned, fun other same => ?_⟩⟩
      have own := other.get? tabled proper.distinct
      rw [same, known] at own
      cases own
      have isProper := other.proper
      rw [kind] at isProper
      cases isProper

end

/-! ## Linked grammars -/

namespace RuleTable.Linked

variable {final : Grammar} {root : NodeId} {visited : NodeId → Prop}

/-- Linking leaves all names as they are. -/
theorem name (linked : Linked table g root visited final) (id : NodeId) : final.name id = g.name id := by
  by_cases mark : visited id
  · by_cases inside : id < g.size
    · obtain ⟨_, _, node⟩ := linked.redirected id inside mark
      rw [Grammar.name, node]
    · rw [Grammar.name, Grammar.name, Grammar.node_of_size_le (Nat.not_lt.mp inside),
        Grammar.node_of_size_le (linked.size ▸ Nat.not_lt.mp inside)]
  · exact congrArg Node.name (linked.kept id mark)

theorem ruleName? (linked : Linked table g root visited final) (id : NodeId) : final.ruleName? id = g.ruleName? id := by
  rw [Grammar.ruleName?, Grammar.ruleName?, linked.name]

/-- The edges of a visited node are the redirected ones. -/
theorem forall₂_children (linked : Linked table g root visited final) {id : NodeId} (inside : id < g.size)
    (mark : visited id) :
    List.Forall₂ (table.Leads g) (g.children id) (final.children id) := by
  obtain ⟨targets, turned, node⟩ := linked.redirected id inside mark
  have own : final.children id = targets := by
    rw [Grammar.children, Grammar.kind, node]
    exact Kind.children_withChildren _ _ turned.length_eq.symm
  exact own ▸ turned

/-- What the root reaches along the edges that linking leaves was visited. -/
theorem visited_of_reaches (linked : Linked table g root visited final) {id : NodeId}
    (reaches : final.Reaches root id) : visited id := by
  induction reaches with
  | refl => exact linked.root
  | tail _ edge ih => exact linked.led _ (linked.size ▸ edge.lt_size) ih _ edge

/-- Where a child of a visited node stood, there is now the node that it leads to. -/
theorem child_of_visited (linked : Linked table g root visited final) {a c : NodeId} {i : Nat} (mark : visited a)
    (found : (final.children a)[i]? = some c) : ∃ old, (g.children a)[i]? = some old ∧ table.Leads g old c := by
  have inside : a < g.size := linked.size ▸ Grammar.Edge.lt_size (List.mem_of_getElem? found)
  have turned := linked.forall₂_children inside mark
  obtain ⟨within, rfl⟩ := List.getElem?_eq_some_iff.mp found
  have within' : i < (g.children a).length := turned.length_eq ▸ within
  exact ⟨_, List.getElem?_eq_getElem within', (List.forall₂_iff_get.mp turned).2 i within' within⟩

/-- Where a child stood, its parent still has the child, or the node that it leads to. -/
theorem child (linked : Linked table g root visited final) {a c : NodeId} {i : Nat}
    (found : (final.children a)[i]? = some c) :
    ∃ old, (g.children a)[i]? = some old ∧ (old = c ∨ table.Leads g old c) := by
  by_cases mark : visited a
  · obtain ⟨old, place, leads⟩ := linked.child_of_visited mark found
    exact ⟨old, place, .inr leads⟩
  · have own : final.children a = g.children a := congrArg (fun node => node.kind.children) (linked.kept a mark)
    exact ⟨c, own ▸ found, .inl rfl⟩

end RuleTable.Linked

section

variable {final : Grammar} {root : NodeId} {visited : NodeId → Prop}

/-- A child that was redirected is a body. -/
theorem eq_or_known_of_leads {old id : NodeId} (leads : table.Leads g old id) :
    old = id ∨ ∃ name, table.get? name = some id ∧ (g.kind id).isReference = false := by
  unfold RuleTable.Leads at leads
  split at leads
  · exact .inr leads.known
  · exact .inl leads.symm

/-- Edges lead to no placeholder. -/
theorem RuleTable.Leads.proper {old id : NodeId} (leads : table.Leads g old id) : (g.kind id).isReference = false := by
  unfold RuleTable.Leads at leads
  split at leads
  · obtain ⟨_, _, proper⟩ := leads.known
    exact proper
  · next other =>
    rw [leads]
    cases kind : g.kind old with
    | reference name => exact absurd kind (other name)
    | _ => rfl

variable (tabled : Tabled rules g table) (proper : Proper rules)

include tabled proper

/-- **Nothing stands in two places** in what the root of a linked grammar reaches. -/
theorem placed_of_linked (linked : table.Linked g root visited final) {rule : Rule}
    (body : BodyOf rules g table rule root) : Placed final root where
  root := by
    rw [linked.ruleName?, body.ruleName? (proper.names _ body.mem)]
    rfl
  named {a b name} first second := by
    rw [linked.ruleName?] at first second
    obtain ⟨rule, body, same⟩ := BodyOf.of_named tabled first
    obtain ⟨other, body', same'⟩ := BodyOf.of_named tabled second
    exact body.unique tabled body' proper.distinct (same.trans same'.symm)
  once {a a' c i i'} reached reached' first second nameless := by
    have kept : ∀ {a : NodeId} {i : Nat}, final.Reaches root a → (final.children a)[i]? = some c →
        (g.children a)[i]? = some c ∧ (g.kind c).isReference = false := by
      intro a i reached found
      obtain ⟨old, place, leads⟩ := linked.child_of_visited (linked.visited_of_reaches reached) found
      refine ⟨?_, leads.proper⟩
      rcases eq_or_known_of_leads leads with rfl | ⟨name, known, isProper⟩
      · exact place
      · obtain ⟨rule, body, _⟩ := BodyOf.of_mem tabled ((tabled.get?_iff proper.distinct).mp known) isProper
        rw [linked.ruleName?, body.ruleName? (proper.names _ body.mem)] at nameless
        cases nameless
    exact tabled.place_unique (kept reached first).2 (kept reached first).1 (kept reached' second).1

omit tabled proper in
/-- A body that was visited stands for what its rule says. -/
theorem BodyOf.linked {rule : Rule} {id : NodeId} (body : BodyOf rules g table rule id)
    (linked : table.Linked g root visited final) (mark : visited id) :
    rule.body.Stands final (table.Bound g visited) id (some rule.name) := by
  refine linked.stands body.stands ?_ mark
  have proper := body.proper
  unfold RuleTable.Leads
  split
  · next kind =>
    rw [kind] at proper
    cases proper
  · rfl

end

end BnfTokenizer.Dialect
