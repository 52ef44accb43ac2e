import BnfTokenizer.Proofs.Dialect.Aliases
import BnfTokenizer.Proofs.Dialect.Assembly
import BnfTokenizer.Proofs.Dialect.Lowering
import BnfTokenizer.Proofs.Grammar.Exactness

/-!
# Linking substitutes bodies for names

`Substituted` says what linking does, without the order in which it goes through the table: below the root every edge
into a placeholder leads to the body that the name resolves to, all other edges lead where they led, and all other
nodes are as they were. Nothing is asked of the grammar or the table but what the steps before linking see to, that
aliases come to an end and that there is a root.

`Linked` knows of the nodes that were visited. Here they are told by the edges of the linked grammar alone: linking
visits what the root reaches along the edges that it leaves, and only that (`Linked.reaches_iff`). The table is
rewritten on the way, so the way to a node is first followed by `Redirects`, which looks at the table as it was.
-/

namespace BnfTokenizer.Dialect

open Grammar (Kind Node Seen)
open Relation (ReflTransGen)

namespace RuleTable

variable {table : RuleTable} {g cur final : Grammar} {root : NodeId} {visited : NodeId → Prop}

/-! ## Redirected edges -/

/-- An edge of a node, once placeholders are looked through. -/
def Redirects (table : RuleTable) (g : Grammar) (a b : NodeId) : Prop :=
  ∃ child, g.Edge a child ∧ table.Leads g child b

theorem Leads.unique {id t u : NodeId} (first : table.Leads g id t) (second : table.Leads g id u) : t = u := by
  unfold Leads at first second
  split at first
  · next name kind =>
    rw [kind] at second
    exact Except.ok.inj ((first.resolution name).unique (second.resolution name))
  · next other =>
    split at second
    · next name kind => exact absurd kind (other name)
    · exact first.trans second.symm

namespace Linked

variable (linked : Linked table g root visited final)

include linked

theorem edge_iff {a b : NodeId} (inside : a < g.size) (mark : visited a) : final.Edge a b ↔ table.Redirects g a b := by
  have turned := linked.forall₂_children inside mark
  constructor
  · intro edge
    obtain ⟨child, mem, leads⟩ := Grammar.exists_left_of_mem turned edge
    exact ⟨child, mem, leads⟩
  · rintro ⟨child, mem, leads⟩
    obtain ⟨other, edge, leads'⟩ := Grammar.exists_left_of_mem turned.flip mem
    rwa [Leads.unique leads leads']

/-- **Linking goes where the edges lead that it leaves.** -/
theorem reaches_iff {id : NodeId} : final.Reaches root id ↔ ReflTransGen (table.Redirects g) root id := by
  constructor
  · intro reaches
    have both : visited id ∧ ReflTransGen (table.Redirects g) root id := by
      induction reaches with
      | refl => exact ⟨linked.root, .refl⟩
      | tail _ edge ih =>
        have inside := linked.size ▸ edge.lt_size
        exact ⟨linked.led _ inside ih.1 _ edge, ih.2.tail ((linked.edge_iff inside ih.1).mp edge)⟩
    exact both.2
  · intro way
    have both : visited id ∧ final.Reaches root id := by
      induction way with
      | refl => exact ⟨linked.root, .refl⟩
      | tail _ step ih =>
        obtain ⟨child, edge, leads⟩ := step
        have inside := edge.lt_size
        have edge' := (linked.edge_iff inside ih.1).mpr ⟨child, edge, leads⟩
        exact ⟨linked.led _ inside ih.1 _ edge', ih.2.tail edge'⟩
    exact both.2

/-- Apart from its edges a node is as it was. -/
theorem node_cases (id : NodeId) : final.node id = g.node id ∨
    ∃ targets, targets.length = (g.children id).length ∧ final.kind id = (g.kind id).withChildren targets := by
  by_cases mark : visited id
  · by_cases inside : id < g.size
    · obtain ⟨targets, turned, node⟩ := linked.redirected id inside mark
      exact .inr ⟨targets, turned.length_eq.symm, by rw [Grammar.kind, node]⟩
    · rw [Grammar.node_of_size_le (Nat.not_lt.mp inside), Grammar.node_of_size_le (linked.size ▸ Nat.not_lt.mp inside)]
      exact .inl rfl
  · exact .inl (linked.kept id mark)

theorem isReference_eq (id : NodeId) : (final.kind id).isReference = (g.kind id).isReference := by
  rcases linked.node_cases id with same | ⟨targets, _, kind⟩
  · exact congrArg (fun node => node.kind.isReference) same
  · rw [kind]
    cases g.kind id <;> cases targets <;> rfl

/-- What the root reaches is no placeholder, if the root is none. -/
theorem proper_of_reaches (proper : (g.kind root).isReference = false) {id : NodeId}
    (reaches : final.Reaches root id) : (final.kind id).isReference = false := by
  rw [linked.isReference_eq]
  rcases ReflTransGen.cases_tail (linked.reaches_iff.mp reaches) with rfl | ⟨_, _, _, _, leads⟩
  · exact proper
  · exact leads.proper

end Linked

/-! ## What linking does not touch -/

/-- What holds of all that waits, and goes over to where the edges lead, holds of each node that is redirected. -/
theorem linkFrom_frame {holds : NodeId → Prop} (steps : ∀ a b, holds a → table.Redirects g a b → holds b) (fuel : Nat)
    {stack : List (NodeId × String)} {seen : Array Bool} (linking : Linking table g (stack.map Prod.fst) seen cur)
    (waiting : ∀ id ∈ stack.map Prod.fst, holds id) (done : table.linkFrom fuel stack seen cur = .ok final)
    {id : NodeId} (elsewhere : ¬ holds id) : final.node id = cur.node id := by
  induction fuel generalizing stack seen cur with
  | zero =>
    cases done
    rfl
  | succ fuel ih =>
    match stack with
    | [] =>
      cases done
      rfl
    | (top, owner) :: stack =>
      obtain ⟨here, behind⟩ := List.forall_mem_cons.mp waiting
      by_cases again : Seen seen top
      · rw [linkFrom_again fuel again] at done
        exact ih (linking.skip again) behind done
      · rw [linkFrom_first fuel again] at done
        split at done
        · cases done
        · next targets found =>
          have own : cur.children top = g.children top :=
            congrArg (fun node => node.kind.children) (linking.fresh top again)
          -- The node had not been visited, so its children are those of the draft, and the targets are one step on.
          have below : ∀ target ∈ targets, holds target := by
            intro target mem
            obtain ⟨child, edge, step⟩ := Grammar.exists_left_of_mem (forall₂_of_mapM found) mem
            rw [linking.sameReferences.target] at step
            rw [own] at edge
            exact steps top target here ⟨child, edge, leads_of_target step⟩
          have differs : top ≠ id := fun same => elsewhere (same ▸ here)
          rw [ih (linking.next again found).1 ?_ done, Grammar.node_setKind_of_ne _ _ differs]
          rw [List.map_append, List.map_reverse, Grammar.map_fst_labels, List.forall_mem_append]
          exact ⟨fun target mem => below target (List.mem_reverse.mp mem), behind⟩

theorem link_frame (done : table.link g root = .ok final) {id : NodeId}
    (elsewhere : ¬ ReflTransGen (table.Redirects g) root id) : final.node id = g.node id :=
  linkFrom_frame (fun _ _ before step => before.tail step) _ (Linking.start root)
    (List.forall_mem_singleton.mpr .refl) done elsewhere

/-! ## Linking again -/

theorem setKind_kind (g : Grammar) (id : NodeId) : g.setKind id (g.kind id) = g := by
  have same : (g.setKind id (g.kind id)).nodes = g.nodes := by
    apply Array.ext_getElem?
    intro i
    rw [Grammar.setKind, Array.getElem?_modify]
    split
    · next own =>
      subst own
      cases row : g.nodes[id]? with
      | none => rfl
      | some node =>
        have kind : g.kind id = node.kind := congrArg Node.kind (Grammar.getElem?_eq_some_iff.mp row).2
        rw [kind]
        rfl
    · rfl
  exact congrArg Grammar.mk same

/-- Where edges lead to no placeholder, there is nothing to redirect. -/
theorem linkFrom_of_proper {holds : NodeId → Prop} (steps : ∀ a b, holds a → g.Edge a b → holds b)
    (proper : ∀ id, holds id → (g.kind id).isReference = false) (fuel : Nat) (stack : List (NodeId × String))
    (seen : Array Bool) (waiting : ∀ id ∈ stack.map Prod.fst, holds id) :
    table.linkFrom fuel stack seen g = .ok g := by
  induction fuel generalizing stack seen with
  | zero => rfl
  | succ fuel ih =>
    match stack with
    | [] => rfl
    | (top, owner) :: stack =>
      obtain ⟨here, behind⟩ := List.forall_mem_cons.mp waiting
      by_cases again : Seen seen top
      · rw [linkFrom_again fuel again]
        exact ih stack seen behind
      · have own : ∀ child ∈ g.children top, table.target g owner child = .ok child := by
          intro child edge
          have whole := proper child (steps top child here edge)
          unfold RuleTable.target
          split
          · next name kind =>
            rw [kind] at whole
            cases whole
          · rfl
        have targets : (g.children top).mapM (table.target g owner) = .ok (g.children top) := by
          generalize g.children top = children at own
          induction children with
          | nil => rfl
          | cons child children later =>
            obtain ⟨head, tail⟩ := List.forall_mem_cons.mp own
            rw [List.mapM_cons, head, later tail]
            rfl
        have unchanged : (g.kind top).withChildren (g.children top) = g.kind top := Kind.withChildren_children _
        rw [linkFrom_first fuel again, targets]
        dsimp only
        rw [unchanged, setKind_kind]
        refine ih _ _ ?_
        rw [List.map_append, List.map_reverse, Grammar.map_fst_labels, List.forall_mem_append]
        exact ⟨fun target mem => steps top target here (List.mem_reverse.mp mem), behind⟩

/-! ## Substitution -/

/-- Where an edge leads after a name is replaced by what it resolves to. -/
def Replaces (table : RuleTable) (g : Grammar) (old new : NodeId) : Prop :=
  match g.kind old with
  | .reference name => ∀ owner, table.resolve g name owner = .ok new
  | _ => new = old

theorem Leads.replaces (checked : table.checkAliases g = .ok ()) {old new : NodeId} (leads : table.Leads g old new) :
    table.Replaces g old new := by
  unfold Leads at leads
  unfold Replaces
  generalize g.kind old = kind at leads ⊢
  cases kind with
  | reference name => exact resolve_of_resolves checked leads
  | _ => exact leads

/-- **A grammar with bodies in the place of names**, as far as a root reaches. -/
structure Substituted (table : RuleTable) (g : Grammar) (root : NodeId) (final : Grammar) : Prop where
  /-- No placeholder is left. -/
  proper : ∀ id, final.Reaches root id → (final.kind id).isReference = false
  size : final.size = g.size
  name : ∀ id, final.name id = g.name id
  /-- Apart from the addresses of its children a kind is as it was. -/
  shape : ∀ id, (final.kind id).mapChildren (fun _ => 0) = (g.kind id).mapChildren fun _ => 0
  edges : ∀ id, final.Reaches root id → List.Forall₂ (table.Replaces g) (g.children id) (final.children id)
  /-- What the root does not reach is as it was. -/
  frame : ∀ id, ¬ final.Reaches root id → final.node id = g.node id
  again : table.link final root = .ok final

theorem mapChildren_withChildren (kind : Kind) (ids : List NodeId) (length : ids.length = kind.children.length) :
    (kind.withChildren ids).mapChildren (fun _ => 0) = kind.mapChildren fun _ => 0 := by
  have same : ∀ as bs : List NodeId, as.length = bs.length → as.map (fun _ => 0) = bs.map fun _ => 0 := by
    intro as bs lengths
    rw [List.map_const', List.map_const', lengths]
  match kind, ids, length with
  | .sequence _, _, length => exact congrArg Kind.sequence (same _ _ length)
  | .choice _, _, length => exact congrArg Kind.choice (same _ _ length)
  | .repetition _, [_], _ | .optional _, [_], _ | .negation _, [_], _ => rfl
  | .literal _, [], _ | .charSet .., [], _ | .charRange .., [], _ | .endOfInput, [], _ | .reference _, [], _ => rfl

theorem substituted_of_link (checked : table.checkAliases g = .ok ()) (rooted : table.root g = .ok root)
    (done : table.link g root = .ok final) : table.Substituted g root final := by
  obtain ⟨visited, linked⟩ := linked_of_link done
  have proper : ∀ id, final.Reaches root id → (final.kind id).isReference = false := fun _ =>
    linked.proper_of_reaches (isReference_root checked rooted)
  refine {
    proper
    size := linked.size
    name := linked.name
    shape := fun id => ?_
    edges := fun id reaches => ?_
    frame := fun id elsewhere => link_frame done fun way => elsewhere (linked.reaches_iff.mpr way)
    again := ?_ }
  · rcases linked.node_cases id with same | ⟨targets, length, kind⟩
    · rw [Grammar.kind, Grammar.kind, same]
    · rw [kind]
      exact mapChildren_withChildren _ _ length
  · by_cases inside : id < g.size
    · have turned := linked.forall₂_children inside (linked.visited_of_reaches reaches)
      exact turned.imp fun _ _ leads => leads.replaces checked
    · have outside := Nat.not_lt.mp inside
      rw [Grammar.children_of_size_le outside, Grammar.children_of_size_le (linked.size ▸ outside)]
      exact .nil
  · exact linkFrom_of_proper (fun _ _ reaches edge => reaches.tail edge) proper _ _ _
      (List.forall_mem_singleton.mpr .refl)

end RuleTable

/-- Where the root reaches no placeholder, none is reported. -/
theorem ofGrammar_ne_unresolvedReference {g : Grammar} {root : NodeId}
    (proper : ∀ id, g.Reaches root id → (g.kind id).isReference = false) (rule : String) :
    Lexer.ofGrammar g root ≠ .error (.unresolvedReference rule) := by
  intro failed
  have clear : (g.reachable root).findSome? g.referenceAt? = none := by
    refine Grammar.noPlaceholder_iff.mp fun id reaches name kind => ?_
    have whole := proper id reaches
    rw [kind] at whole
    cases whole
  unfold Lexer.ofGrammar at failed
  split at failed
  · cases failed
  · next defect found =>
    cases failed
    unfold Grammar.defect? at found
    dsimp only at found
    rw [clear] at found
    dsimp only at found
    split at found
    · cases found
    · generalize g.leftCycle? _ _ = cycle at found
      cases cycle <;> cases found

/-- No text makes a lexer whose grammar is refused for a placeholder. -/
theorem compile_ne_unresolvedReference (limits : Match.Limits) (source rule : String) :
    compile limits source ≠ .error (.defective (.unresolvedReference rule)) := by
  intro failed
  obtain refused | ⟨tree, parsed, lowering | ⟨g, table, _, assembling⟩⟩ := compile_error failed
  · obtain ⟨refusal, _, same⟩ := parse_error refused
    cases refusal <;> cases same
  · obtain ⟨_, _, _, ⟨⟩⟩ | ⟨_, _, _, ⟨⟩⟩ := (lower_error_iff parsed).mp lowering
  · obtain ⟨⟨⟩⟩ | ⟨root, linked, defect, checked, rooted, linking, ended, ⟨⟩⟩ := assemble_error assembling
    have proper := (RuleTable.substituted_of_link checked rooted linking).proper
    exact ofGrammar_ne_unresolvedReference proper rule ended

/-- **Linking puts bodies in the place of names.** It does so in every grammar and table whose aliases come to an end,
and so no text is refused for a name that was left. -/
theorem link_substitutes :
    (∀ (g : Grammar) (table : RuleTable) (root : NodeId) (final : Grammar), table.checkAliases g = .ok () →
      table.root g = .ok root → table.link g root = .ok final → table.Substituted g root final) ∧
    ∀ (limits : Match.Limits) (source rule : String),
      compile limits source ≠ .error (.defective (.unresolvedReference rule)) :=
  ⟨fun _ _ _ _ checked rooted linking => RuleTable.substituted_of_link checked rooted linking,
    compile_ne_unresolvedReference⟩

/-- Numbers in base two: the root mentions itself, and a digit through an alias. -/
def binary : Grammar :=
  ⟨#[⟨none, .reference "item"⟩, ⟨none, .reference "root"⟩, ⟨none, .optional 1⟩, ⟨some "root", .sequence [0, 2]⟩,
    ⟨none, .reference "digit"⟩, ⟨some "digit", .charSet ['0', '1'] false⟩]⟩

def binaryTable : RuleTable :=
  ⟨[("root", 3), ("item", 4), ("digit", 5)]⟩

def binaryLinked : Grammar :=
  ⟨#[⟨none, .reference "item"⟩, ⟨none, .reference "root"⟩, ⟨none, .optional 3⟩, ⟨some "root", .sequence [5, 2]⟩,
    ⟨none, .reference "digit"⟩, ⟨some "digit", .charSet ['0', '1'] false⟩]⟩

theorem binary_substituted : binaryTable.link binary 3 = .ok binaryLinked ∧
    binaryTable.Substituted binary 3 binaryLinked := by
  have linking : binaryTable.link binary 3 = .ok binaryLinked := by decide
  exact ⟨linking, link_substitutes.1 binary binaryTable 3 binaryLinked (by decide) (by decide) linking⟩

end BnfTokenizer.Dialect
