import BnfTokenizer.Proofs.Dialect.Mentions
import BnfTokenizer.Proofs.Grammar.Rank

/-!
# What rules start with

What the check of a grammar asks of nodes is asked here of what the rules say. An expression is nullable if it can match
nothing (`Expression.Nullable`), and it starts with a part if matching may come to this part before anything was
consumed (`Expression.Starts`). A rule enters another one that it starts with, at any depth of its own parts
(`EntersRule`). An alias has no place of its own in a linked grammar, so it is looked through.

In the linked grammar of some rules nullable nodes stand for nullable expressions (`nullable_of_stands`), and an entry
leads from a node to one for a part that the expression starts with (`starts_of_enters`).
-/

namespace BnfTokenizer.Dialect

open Relation (ReflTransGen)

variable {rules : List Rule} {g : Grammar} {table : RuleTable} {name : String} {id : NodeId}

namespace Expression

/-- It can match without consuming anything, as far as the rules show. -/
inductive Nullable (rules : List Rule) : Expression → Prop
  | literal : Nullable rules (.literal "")
  | endOfInput : Nullable rules .endOfInput
  | rule {r} (mem : r ∈ rules) (body : Nullable rules r.body) : Nullable rules (.rule r.name)
  | sequence {parts} (all : ∀ part ∈ parts, Nullable rules part) : Nullable rules (.sequence parts)
  | choice {alternatives alternative} (mem : alternative ∈ alternatives) (one : Nullable rules alternative) :
      Nullable rules (.choice alternatives)
  | repetition {inner} (once : Nullable rules inner) : Nullable rules (.repetition inner)
  | optional {inner} : Nullable rules (.optional inner)
  | negation {inner} : Nullable rules (.negation inner)

/-- Matching an expression may come to a part before anything was consumed. -/
inductive Starts (rules : List Rule) : Expression → Expression → Prop
  | part {before part after} (skipped : ∀ e ∈ before, Nullable rules e) :
      Starts rules (.sequence (before ++ part :: after)) part
  | alternative {alternatives e} (mem : e ∈ alternatives) : Starts rules (.choice alternatives) e
  | repetition {inner} : Starts rules (.repetition inner) inner
  | optional {inner} : Starts rules (.optional inner) inner
  | negation {inner} : Starts rules (.negation inner) inner

theorem Nullable.of_aliases {other : String} (way : ReflTransGen (IsAlias rules) name other)
    (nullable : Nullable rules (.rule other)) : Nullable rules (.rule name) := by
  induction way using ReflTransGen.head_induction_on with
  | refl => exact nullable
  | head step _ ih =>
    obtain ⟨rule, mem, rfl, body⟩ := step
    exact .rule mem (body ▸ ih)

end Expression

/-- What a rule says starts with a mention of another rule, directly or in one of its parts. -/
def EntersRule (rules : List Rule) (name other : String) : Prop :=
  ∃ rule ∈ rules, rule.name = name ∧ ∃ target,
    ReflTransGen (Expression.Starts rules) rule.body (.rule target) ∧ ReflTransGen (IsAlias rules) target other

/-! ## In a linked grammar -/

/-- A name stands for the body of the rule at the end of its aliases. -/
theorem RuleTable.Resolves.aliases (tabled : Tabled rules g table) (distinct : (rules.map Rule.name).Nodup)
    (resolves : table.Resolves g name id) :
    ∃ rule, BodyOf rules g table rule id ∧ ReflTransGen (IsAlias rules) name rule.name := by
  induction resolves with
  | body known proper =>
    obtain ⟨rule, body, rfl⟩ := BodyOf.of_mem tabled ((tabled.get?_iff distinct).mp known) proper
    exact ⟨rule, body, .refl⟩
  | via known kind _ ih =>
    obtain ⟨rule, body, way⟩ := ih
    exact ⟨rule, body, .head (isAlias_of_kind tabled distinct known kind) way⟩

section

variable {root : NodeId} {visited : NodeId → Prop} {final : Grammar} (tabled : Tabled rules g table)
  (proper : Proper rules) (linked : table.Linked g root visited final)

include tabled proper linked

/-- **Nullable nodes stand for nullable expressions.** -/
theorem nullable_of_stands (nullable : final.Nullable id) : ∀ (e : Expression) (own : Option String),
    e.Stands final (table.Bound g visited) id own → e.Nullable rules := by
  refine nullable.induction_given (P := fun id => ∀ (e : Expression) (own : Option String),
    e.Stands final (table.Bound g visited) id own → e.Nullable rules)
    fun id marks right given => ?_
  have whole : ∀ (e : Expression) (own : Option String), (∀ target, e ≠ .rule target) →
      e.Stands final (table.Bound g visited) id own → e.Nullable rules := by
    intro e own whole stands
    cases e with
    | rule target => exact absurd rfl (whole target)
    | endOfInput => exact .endOfInput
    | optional _ => exact .optional
    | negation _ => exact .negation
    | literal text =>
      rw [kind_of_row stands] at given
      obtain rfl : text = "" := String.toList_eq_nil_iff.mp (List.isEmpty_iff.mp given)
      exact .literal
    | charSet _ _ | charRange _ _ _ =>
      rw [kind_of_row stands] at given
      cases given
    | sequence es =>
      obtain ⟨ids, row, all⟩ := stands
      rw [kind_of_row row] at given
      refine .sequence fun part mem => ?_
      obtain ⟨child, listed, stands⟩ := Grammar.exists_left_of_mem all.forall₂_parts mem
      exact right child (List.all_eq_true.mp given child listed) part _ stands
    | choice es =>
      obtain ⟨ids, row, all⟩ := stands
      rw [kind_of_row row] at given
      obtain ⟨child, listed, marked⟩ := List.any_eq_true.mp given
      obtain ⟨part, mem, stands⟩ := Grammar.exists_left_of_mem all.forall₂_parts.flip listed
      exact .choice mem (right child marked part _ stands)
    | repetition inner =>
      obtain ⟨child, row, stands⟩ := stands
      rw [kind_of_row row] at given
      exact .repetition (right child given inner _ stands)
  intro e own stands
  by_cases bare : ∃ target, e = .rule target
  · obtain ⟨target, rfl⟩ := bare
    obtain ⟨rule, body, way⟩ := stands.1.aliases tabled proper.distinct
    exact .of_aliases way (.rule body.mem (whole rule.body _ body.whole (body.linked linked stands.2)))
  · exact whole e own (fun target same => bare ⟨target, same⟩) stands

/-- **An entry leads to a part that an expression starts with.** -/
theorem starts_of_enters {e : Expression} {own : Option String} {child : NodeId} (whole : ∀ target, e ≠ .rule target)
    (stands : e.Stands final (table.Bound g visited) id own) (enters : final.Enters id child) :
    ∃ part, e.Starts rules part ∧
      part.Stands final (table.Bound g visited) child part.ownName := by
  obtain ⟨part, mem, below⟩ := Grammar.exists_left_of_mem (stands.forall₂_children whole).flip enters.edge
  cases e with
  | rule target => exact absurd rfl (whole target)
  | literal _ | charSet _ _ | charRange _ _ _ | endOfInput => cases mem
  | choice es => exact ⟨part, .alternative mem, below⟩
  | repetition inner =>
    obtain rfl := List.mem_singleton.mp mem
    exact ⟨part, .repetition, below⟩
  | optional inner =>
    obtain rfl := List.mem_singleton.mp mem
    exact ⟨part, .optional, below⟩
  | negation inner =>
    obtain rfl := List.mem_singleton.mp mem
    exact ⟨part, .negation, below⟩
  | sequence es =>
    obtain ⟨ids, row, all⟩ := stands
    cases enters with
    | @part before _ after kind skipped =>
      cases (kind_of_row row).symm.trans kind
      -- The parts in front of the one that is entered were skipped, so they are nullable, node by node.
      have both := all.forall₂_parts.flip
      have earlier := (List.forall₂_take_append es before (child :: after) both).flip
      obtain ⟨part, rest, below, _, split⟩ :=
        List.forall₂_cons_right_iff.mp (List.forall₂_drop_append es before (child :: after) both)
      rw [← List.take_append_drop before.length es, split]
      refine ⟨part, .part fun e mem => ?_, below⟩
      obtain ⟨node, listed, stands⟩ := Grammar.exists_left_of_mem earlier mem
      exact nullable_of_stands tabled proper linked (skipped node listed) e _ stands
    | _ kind => cases (kind_of_row row).symm.trans kind

end

end BnfTokenizer.Dialect
