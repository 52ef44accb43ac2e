import BnfTokenizer.Dialect.RuleTable
import BnfTokenizer.Proofs.Dialect.Expression
import BnfTokenizer.Proofs.Grammar.Reachability
import BnfTokenizer.Proofs.Grammar.Twins
import Mathlib.Data.List.Forall2
import Mathlib.Data.List.Nodup

/-!
# What a rule table holds

`Stands` says that the node at an address stands for an expression: it has the kind of the expression, and
its children stand for the parts.

`Tabled` is what lowering comes to, and all that is known of it from there on. The table has a body for each
rule, and where the nodes are is left open but for this: children come before their parents, a node that is no
placeholder is used once, as a child or as a body, and all mentions of a name share one placeholder. So a
grammar that is not yet linked is a forest but for its placeholders.
-/

namespace BnfTokenizer.Dialect

open Grammar (Kind Node)

variable {g : Grammar}

namespace Expression

/-! ## Standing for an expression -/

/-- What an expression is called where it is a part of another. -/
def ownName : Expression → Option String
  | literal text => literalName text
  | _ => none

/-- What an expression is called as the body of a rule. A bare name has no name of its own. -/
def bodyName (name : String) : Expression → Option String
  | .rule _ => none
  | _ => some name

mutual

/-- The node at an address has a name, if any, and stands for an expression; `mention` says which nodes
stand for the name of a rule. -/
def Stands (g : Grammar) (mention : NodeId → String → Prop) (id : NodeId) (name : Option String) :
    Expression → Prop
  | literal text => g.nodes[id]? = some ⟨name, .literal text.toList⟩
  | charSet members negated => g.nodes[id]? = some ⟨name, .charSet members.toList.eraseDups negated⟩
  | charRange low high negated => g.nodes[id]? = some ⟨name, .charRange low high negated⟩
  | endOfInput => g.nodes[id]? = some ⟨name, .endOfInput⟩
  | rule target => mention id target
  | sequence parts => ∃ ids, g.nodes[id]? = some ⟨name, .sequence ids⟩ ∧ AllStand g mention ids parts
  | choice alternatives =>
    ∃ ids, g.nodes[id]? = some ⟨name, .choice ids⟩ ∧ AllStand g mention ids alternatives
  | repetition inner =>
    ∃ child, g.nodes[id]? = some ⟨name, .repetition child⟩ ∧ Stands g mention child inner.ownName inner
  | optional inner =>
    ∃ child, g.nodes[id]? = some ⟨name, .optional child⟩ ∧ Stands g mention child inner.ownName inner
  | negation inner =>
    ∃ child, g.nodes[id]? = some ⟨name, .negation child⟩ ∧ Stands g mention child inner.ownName inner

/-- The nodes at some addresses stand for as many expressions, each called by its own name. -/
def AllStand (g : Grammar) (mention : NodeId → String → Prop) : List NodeId → List Expression → Prop
  | [], [] => True
  | id :: ids, e :: es => Stands g mention id e.ownName e ∧ AllStand g mention ids es
  | _, _ => False

end

/-- Before it is linked, a grammar holds a placeholder where a rule is mentioned. -/
def Placeholder (g : Grammar) (id : NodeId) (target : String) : Prop :=
  g.nodes[id]? = some ⟨none, .reference target⟩

end Expression

theorem bodyName_of_whole {e : Expression} (whole : ∀ target, e ≠ .rule target) (name : String) :
    e.bodyName name = some name := by
  cases e with
  | rule target => exact absurd rfl (whole target)
  | _ => rfl

/-! ## Rows -/

section

variable {mention : NodeId → String → Prop} {id : NodeId} {name : Option String}

theorem kind_of_row {kind : Kind} (row : g.nodes[id]? = some ⟨name, kind⟩) : g.kind id = kind :=
  congrArg Node.kind (Grammar.getElem?_eq_some_iff.mp row).2

theorem name_of_row {kind : Kind} (row : g.nodes[id]? = some ⟨name, kind⟩) : g.name id = name :=
  congrArg Node.name (Grammar.getElem?_eq_some_iff.mp row).2

theorem child_of_row {kind : Kind} (row : g.nodes[id]? = some ⟨name, kind⟩) {c : NodeId} (mem : c ∈ kind.children) :
    c ∈ g.children id := by
  rwa [Grammar.children, kind_of_row row]

/-- A node with children is no placeholder. -/
theorem proper_of_child {a c : NodeId} (child : c ∈ g.children a) : (g.kind a).isReference = false := by
  rw [Grammar.children] at child
  generalize g.kind a = kind at child
  cases kind with
  | reference _ => cases child
  | _ => rfl

theorem eq_reference_or_proper (kind : Kind) : (∃ name, kind = .reference name) ∨ kind.isReference = false := by
  cases kind with
  | reference name => exact .inl ⟨name, rfl⟩
  | _ => exact .inr rfl

/-- What is more than a name has a node of its own. -/
theorem row_of_stands {e : Expression} (stands : e.Stands g mention id name) (whole : ∀ target, e ≠ .rule target) :
    ∃ kind, g.nodes[id]? = some ⟨name, kind⟩ ∧ kind.isReference = false := by
  cases e with
  | rule target => exact absurd rfl (whole target)
  | literal _ | charSet _ _ | charRange _ _ _ | endOfInput => exact ⟨_, stands, rfl⟩
  | sequence _ | choice _ | repetition _ | optional _ | negation _ =>
    obtain ⟨_, row, _⟩ := stands
    exact ⟨_, row, rfl⟩

theorem kind_of_rule {name target : String} {e : Expression} (same : e = .rule target)
    (stands : e.Stands g (Expression.Placeholder g) id (e.bodyName name)) : g.kind id = .reference target := by
  subst same
  exact kind_of_row stands

end

/-! ## Places -/

/-- The children of some rows, row by row. -/
def edges (rows : List Node) : List NodeId :=
  rows.flatMap fun row => row.kind.children

theorem edges_append (rows others : List Node) : edges (rows ++ others) = edges rows ++ edges others :=
  List.flatMap_append

theorem edges_concat (rows : List Node) (row : Node) : edges (rows ++ [row]) = edges rows ++ row.kind.children := by
  rw [edges_append]
  exact congrArg _ (List.append_nil _)

theorem mem_edges_iff {c : NodeId} : c ∈ edges g.nodes.toList ↔ ∃ a, c ∈ g.children a := by
  rw [edges, List.mem_flatMap]
  constructor
  · rintro ⟨row, mem, child⟩
    obtain ⟨a, found⟩ := List.mem_iff_getElem?.mp mem
    rw [Array.getElem?_toList] at found
    obtain ⟨_, rfl⟩ := Grammar.getElem?_eq_some_iff.mp found
    exact ⟨a, child⟩
  · rintro ⟨a, child⟩
    refine ⟨g.node a, ?_, child⟩
    rw [List.mem_iff_getElem?]
    refine ⟨a, ?_⟩
    rw [Array.getElem?_toList, Grammar.getElem?_eq_some_iff]
    exact ⟨Grammar.Edge.lt_size child, rfl⟩

/-- What is listed once is listed in one place. -/
theorem index_unique {ids : List NodeId} {c : NodeId} {i i' : Nat} (single : ids.count c ≤ 1)
    (here : ids[i]? = some c) (there : ids[i']? = some c) : i = i' := by
  induction ids generalizing i i' with
  | nil => cases here
  | cons b ids ih =>
    -- a further mention of the first one would be one too many
    have absent : b = c → ∀ {j : Nat}, ids[j]? ≠ some c := by
      rintro rfl j later
      have more : 0 < ids.count b := List.count_pos_iff.mpr (List.mem_of_getElem? later)
      rw [List.count_cons_self] at single
      omega
    cases i with
    | zero =>
      cases i' with
      | zero => rfl
      | succ i' => exact absurd there (absent (Option.some.inj here))
    | succ i =>
      cases i' with
      | zero => exact absurd here (absent (Option.some.inj there))
      | succ i' => rw [ih (Nat.le_trans List.count_le_count_cons single) here there]

/-- A child that is listed once stands in one place. -/
theorem place_unique {rows : List Node} {a a' i i' : Nat} {c : NodeId} {row row' : Node}
    (single : (edges rows).count c ≤ 1) (first : rows[a]? = some row) (here : row.kind.children[i]? = some c)
    (second : rows[a']? = some row') (there : row'.kind.children[i']? = some c) : a = a' ∧ i = i' := by
  have distinct : ((edges rows).filter (· == c)).Nodup := by
    refine List.nodup_iff_count_le_one.mpr fun b => ?_
    by_cases same : b = c
    · rwa [same, List.count_filter (p := fun x => x == c) BEq.rfl]
    · have absent : b ∉ (edges rows).filter (· == c) := fun mem => same (beq_iff_eq.mp (List.mem_filter.mp mem).2)
      rw [List.count_eq_zero_of_not_mem absent]
      exact Nat.zero_le 1
  rw [edges, List.filter_flatMap] at distinct
  obtain ⟨each, apart⟩ := List.nodup_flatMap.mp distinct
  have mem : c ∈ row.kind.children.filter (· == c) := List.mem_filter.mpr ⟨List.mem_of_getElem? here, BEq.rfl⟩
  have mem' : c ∈ row'.kind.children.filter (· == c) := List.mem_filter.mpr ⟨List.mem_of_getElem? there, BEq.rfl⟩
  have ordered := List.pairwise_iff_getElem.mp apart
  obtain ⟨within, rfl⟩ := List.getElem?_eq_some_iff.mp first
  obtain ⟨within', rfl⟩ := List.getElem?_eq_some_iff.mp second
  rcases Nat.lt_trichotomy a a' with less | same | more
  · exact absurd mem' (ordered a a' within within' less mem)
  · subst same
    have single := List.nodup_iff_count_le_one.mp (each _ (List.getElem_mem within)) c
    rw [List.count_filter (p := fun x => x == c) BEq.rfl] at single
    exact ⟨rfl, index_unique single here there⟩
  · exact absurd mem (ordered a' a within' within more mem')

/-! ## Names -/

/-- The name of a rule, as opposed to the label of a literal. -/
def isRuleName (name : String) : Bool :=
  name.toList.head? != some '\''

theorem isRuleName_label (text : String) : isRuleName ("'" ++ text) = false := by
  rw [isRuleName, String.toList_append]
  rfl

theorem filter_ownName (e : Expression) : e.ownName.filter isRuleName = none := by
  cases e with
  | literal text =>
    rw [Expression.ownName, Expression.literalName]
    split
    · rfl
    · rw [Option.filter_some, isRuleName_label]
      rfl
  | _ => rfl

/-! ## Definitions -/

theorem define_of_free {table : RuleTable} {name : String} (free : name ∉ table.entries.map Prod.fst)
    (body : NodeId) : table.define name body = .ok ⟨table.entries ++ [(name, body)]⟩ := by
  have absent : table.get? name = none := by
    rw [RuleTable.get?, List.lookup_eq_none_iff]
    rintro ⟨other, id⟩ mem
    exact bne_iff_ne.mpr fun same => free (List.mem_map.mpr ⟨_, mem, same.symm⟩)
  rw [RuleTable.define, absent]
  rfl

theorem define_of_taken {table : RuleTable} {name : String} (taken : name ∈ table.entries.map Prod.fst)
    (body : NodeId) : table.define name body = .error (.duplicateRule name) := by
  have found : (table.get? name).isSome = true := by
    obtain ⟨entry, mem, rfl⟩ := List.mem_map.mp taken
    rw [RuleTable.get?, List.lookup_isSome_iff]
    exact ⟨entry, mem, BEq.rfl⟩
  rw [RuleTable.define, if_pos found]

/-- A name that is free can be added. -/
theorem nodup_names_concat {entries : List (String × NodeId)} (distinct : (entries.map Prod.fst).Nodup) {name : String}
    (free : name ∉ entries.map Prod.fst) (body : NodeId) : ((entries ++ [(name, body)]).map Prod.fst).Nodup := by
  rw [List.map_append, List.nodup_append]
  refine ⟨distinct, List.pairwise_singleton _ _, fun a mem b single same => free ?_⟩
  obtain rfl : b = name := List.mem_singleton.mp single
  rwa [← same]

/-! ## Tables -/

/-- A grammar and a table hold some rules. -/
structure Tabled (rules : List Rule) (g : Grammar) (table : RuleTable) : Prop where
  /-- The table lists the rules in order, and the body of each stands for what the rule says. -/
  bodies : List.Forall₂ (fun rule entry => entry.1 = rule.name ∧
    Expression.Stands g (Expression.Placeholder g) entry.2 (rule.body.bodyName rule.name) rule.body) rules table.entries
  /-- Children come before their parents. -/
  backward : ∀ {a c}, c ∈ g.children a → c < a
  /-- A node that is no placeholder is a child or a body, in one place. -/
  once : ∀ {id}, (g.kind id).isReference = false →
    (edges g.nodes.toList ++ table.entries.map Prod.snd).count id ≤ 1
  /-- There is one placeholder for each name. -/
  shared : ∀ {a b name}, g.kind a = .reference name → g.kind b = .reference name → a = b
  /-- A placeholder is there for a name that some rule mentions. -/
  asked : ∀ {id name}, g.kind id = .reference name → ∃ rule ∈ rules, name ∈ rule.body.mentioned
  /-- A node with a name is the body of the rule of this name, or a literal that is called by its text. -/
  named : ∀ {id name}, g.name id = some name →
    (name, id) ∈ table.entries ∨ ∃ text, g.kind id = .exactly text ∧ name = "'" ++ text

namespace Tabled

variable {rules : List Rule} {table : RuleTable} (tabled : Tabled rules g table)

include tabled

/-- The names in the table are those of the rules. -/
theorem map_fst_entries : table.entries.map Prod.fst = rules.map Rule.name := by
  have names : List.Forall₂ (fun rule entry => Rule.name rule = Prod.fst entry) rules table.entries :=
    tabled.bodies.imp fun _ _ own => own.1.symm
  rw [← List.forall₂_map_right_iff, ← List.forall₂_map_left_iff (f := Rule.name), List.forall₂_eq_eq_eq] at names
  exact names.symm

/-- A child that is no placeholder stands in one place. -/
theorem place_unique {a a' c : NodeId} {i i' : Nat} (proper : (g.kind c).isReference = false)
    (here : (g.children a)[i]? = some c) (there : (g.children a')[i']? = some c) : a = a' ∧ i = i' := by
  have single := tabled.once proper
  rw [List.count_append] at single
  have row : ∀ {a : NodeId} {i : Nat}, (g.children a)[i]? = some c → g.nodes.toList[a]? = some (g.node a) := by
    intro a i found
    rw [Array.getElem?_toList, Grammar.getElem?_eq_some_iff]
    exact ⟨Grammar.Edge.lt_size (List.mem_of_getElem? found), rfl⟩
  exact Dialect.place_unique (by omega) (row here) here (row there) there

/-- A child that is no placeholder is no body. -/
theorem not_body_of_child {a c : NodeId} (proper : (g.kind c).isReference = false) (child : c ∈ g.children a)
    (name : String) : (name, c) ∉ table.entries := by
  intro listed
  have single := tabled.once proper
  have edge : 0 < (edges g.nodes.toList).count c := List.count_pos_iff.mpr (mem_edges_iff.mpr ⟨a, child⟩)
  have body : 0 < (table.entries.map Prod.snd).count c := List.count_pos_iff.mpr (List.mem_map_of_mem listed)
  rw [List.count_append] at single
  omega

/-- A name that is that of a rule is that of a body. -/
theorem mem_entries_of_ruleName? {id : NodeId} {name : String} (named : g.ruleName? id = some name) :
    (name, id) ∈ table.entries := by
  obtain ⟨own, isRule⟩ := Option.filter_eq_some_iff.mp named
  refine (tabled.named own).resolve_right ?_
  rintro ⟨text, _, rfl⟩
  have label := isRuleName_label text
  rw [isRuleName, isRule] at label
  cases label

end Tabled

end BnfTokenizer.Dialect
