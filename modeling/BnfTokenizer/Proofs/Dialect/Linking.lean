import BnfTokenizer.Proofs.Dialect.Tabulation
import BnfTokenizer.Proofs.Grammar.Reachability

/-!
# What linking leaves

`Resolves` says which body a name stands for, aliases looked through, and `Leads` where an edge leads once
placeholders are looked through. Linking redirects the edges of the nodes that it visits and leaves all other
nodes as they are; when it comes to its end, what it visited is closed under the new edges. `Linked` is what
is known then.

All of it is about the table before the first edge was redirected. A redirected node is a placeholder exactly
if it was one before, so it does not matter that linking reads the table it writes to.
-/

namespace BnfTokenizer.Dialect

open Grammar (Kind Node Seen)

namespace RuleTable

variable {table : RuleTable} {g cur final : Grammar} {stack : List (NodeId × String)} {seen : Array Bool}

/-! ## Names and edges -/

/-- A name stands for a body, through aliases. -/
inductive Resolves (table : RuleTable) (g : Grammar) : String → NodeId → Prop
  | body {name id} (known : table.get? name = some id) (proper : (g.kind id).isReference = false) :
      Resolves table g name id
  | via {name body target id} (known : table.get? name = some body) (kind : g.kind body = .reference target)
      (rest : Resolves table g target id) : Resolves table g name id

theorem isReference_eq_false {kind : Kind} (other : ∀ target, kind ≠ .reference target) : kind.isReference = false := by
  cases kind with
  | reference target => exact absurd rfl (other target)
  | _ => rfl

/-- What resolving returns is where the chain of the name ends. The induction is on the fuel. -/
theorem resolves_of_resolveFrom {fuel : Nat} {name owner : String} {id : NodeId}
    (found : table.resolveFrom g fuel name owner = .ok id) : table.Resolves g name id := by
  induction fuel generalizing name owner with
  | zero => cases found
  | succ fuel ih =>
    unfold resolveFrom at found
    split at found
    · cases found
    · next body known =>
      split at found
      · next target kind => exact .via known kind (ih found)
      · next other =>
        cases found
        exact .body known (isReference_eq_false other)

/-- A name whose body is no alias is resolved to its body. -/
theorem resolveFrom_of_proper {name owner : String} {id : NodeId} (fuel : Nat)
    (known : table.get? name = some id) (proper : (g.kind id).isReference = false) :
    table.resolveFrom g (fuel + 1) name owner = .ok id := by
  unfold resolveFrom
  rw [known]
  dsimp only
  split
  · next target kind =>
    rw [kind] at proper
    cases proper
  · rfl

/-- A chain ends at the body of a rule that is no alias. -/
theorem Resolves.known {name : String} {id : NodeId} (resolves : table.Resolves g name id) :
    ∃ other, table.get? other = some id ∧ (g.kind id).isReference = false := by
  induction resolves with
  | body known proper => exact ⟨_, known, proper⟩
  | via _ _ _ ih => exact ih

/-- Where an edge leads once placeholders are looked through. -/
def Leads (table : RuleTable) (g : Grammar) (id target : NodeId) : Prop :=
  match g.kind id with
  | .reference name => table.Resolves g name target
  | _ => target = id

theorem leads_of_target {owner : String} {id target : NodeId} (found : table.target g owner id = .ok target) :
    table.Leads g id target := by
  unfold RuleTable.target at found
  unfold RuleTable.Leads
  cases kind : g.kind id with
  | reference name =>
    rw [kind] at found
    exact resolves_of_resolveFrom found
  | _ =>
    rw [kind] at found
    cases found
    rfl

/-- The same placeholders stand at the same places. -/
def SameReferences (g cur : Grammar) : Prop :=
  ∀ id name, cur.kind id = .reference name ↔ g.kind id = .reference name

/-- Resolving looks at references only, which linking leaves as they are. -/
theorem SameReferences.resolveFrom (same : SameReferences g cur) (fuel : Nat) (name owner : String) :
    table.resolveFrom cur fuel name owner = table.resolveFrom g fuel name owner := by
  induction fuel generalizing name owner with
  | zero => rfl
  | succ fuel ih =>
    unfold RuleTable.resolveFrom
    split
    · rfl
    · next body _ =>
      split
      · next target kind =>
        rw [(same body target).mp kind]
        exact ih target name
      · next other =>
        split
        · next target kind => exact absurd ((same body target).mpr kind) (other target)
        · rfl

theorem SameReferences.target (same : SameReferences g cur) (owner : String) (id : NodeId) :
    table.target cur owner id = table.target g owner id := by
  unfold RuleTable.target
  split
  · next name kind =>
    rw [(same id name).mp kind]
    exact same.resolveFrom _ name owner
  · next other =>
    split
    · next name kind => exact absurd ((same id name).mpr kind) (other name)
    · rfl

/-! ## The state of linking -/

/-- A node with its edges redirected. -/
def Redirected (table : RuleTable) (g : Grammar) (id : NodeId) (node : Node) : Prop :=
  ∃ targets, List.Forall₂ (table.Leads g) (g.children id) targets ∧
    node = ⟨g.name id, (g.kind id).withChildren targets⟩

/-- What holds while linking: nodes that were seen are redirected, and their new edges lead to nodes that
were seen or are waiting; all others are as they were. -/
structure Linking (table : RuleTable) (g : Grammar) (waiting : List NodeId) (seen : Array Bool)
    (cur : Grammar) : Prop where
  size : cur.size = g.size
  marks : seen.size = g.size
  fresh : ∀ id, ¬ Seen seen id → cur.node id = g.node id
  redirected : ∀ id < g.size, Seen seen id → table.Redirected g id (cur.node id)
  led : ∀ id < g.size, Seen seen id → ∀ child ∈ cur.children id, Seen seen child ∨ child ∈ waiting

/-- At the beginning nothing is linked. -/
theorem Linking.start (root : NodeId) :
    Linking table g [root] (Array.replicate g.size false) g where
  size := rfl
  marks := Array.size_replicate
  fresh _ _ := rfl
  redirected _ inside seen := absurd seen (Grammar.not_seen_replicate inside)
  led _ inside seen := absurd seen (Grammar.not_seen_replicate inside)

theorem isReference_withChildren (kind : Kind) (ids : List NodeId) (name : String) :
    kind.withChildren ids = .reference name ↔ kind = .reference name := by
  cases kind <;> cases ids <;> simp [Kind.withChildren]

/-- Linking leaves references as they are, at every step. -/
theorem Linking.sameReferences {waiting : List NodeId} (linking : Linking table g waiting seen cur) :
    SameReferences g cur := by
  intro id name
  by_cases mark : Seen seen id
  · by_cases inside : id < g.size
    · obtain ⟨targets, _, node⟩ := linking.redirected id inside mark
      rw [Grammar.kind, node]
      exact isReference_withChildren ..
    · rw [Grammar.kind_of_size_le (Nat.not_lt.mp inside),
        Grammar.kind_of_size_le (linking.size ▸ Nat.not_lt.mp inside)]
  · rw [Grammar.kind, linking.fresh id mark]
    exact Iff.rfl

/-- A node that was seen before is passed over. -/
theorem Linking.skip {id : NodeId} {waiting : List NodeId} (linking : Linking table g (id :: waiting) seen cur)
    (again : Seen seen id) : Linking table g waiting seen cur where
  size := linking.size
  marks := linking.marks
  fresh := linking.fresh
  redirected := linking.redirected
  led other inside mark child mem := by
    rcases linking.led other inside mark child mem with seen | waits
    · exact .inl seen
    · rcases List.mem_cons.mp waits with rfl | later
      · exact .inl again
      · exact .inr later

theorem forall₂_of_mapM {α β : Type} {f : α → Except CompileError β} {as : List α} {bs : List β}
    (all : as.mapM f = .ok bs) : List.Forall₂ (fun a b => f a = .ok b) as bs := by
  induction as generalizing bs with
  | nil =>
    cases all
    exact .nil
  | cons a as ih =>
    rw [List.mapM_cons] at all
    cases own : f a with
    | error error =>
      rw [own] at all
      cases all
    | ok b =>
      cases rest : as.mapM f with
      | error error =>
        rw [own, rest] at all
        cases all
      | ok others =>
        rw [own, rest] at all
        cases all
        exact .cons own (ih rest)

theorem mapM_of_forall {α β : Type} {f : α → Except CompileError β} (each : ∀ a, ∃ b, f a = .ok b) (as : List α) :
    ∃ bs, as.mapM f = .ok bs := by
  induction as with
  | nil => exact ⟨[], rfl⟩
  | cons a as ih =>
    obtain ⟨b, own⟩ := each a
    obtain ⟨bs, rest⟩ := ih
    rw [List.mapM_cons, own, rest]
    exact ⟨b :: bs, rfl⟩

/-- A node that is seen for the first time is redirected. -/
theorem Linking.visit {id : NodeId} {waiting targets : List NodeId} {owner : String}
    (linking : Linking table g (id :: waiting) seen cur) (first : ¬ Seen seen id)
    (found : (cur.children id).mapM (table.target cur owner) = .ok targets) :
    Linking table g (targets.reverse ++ waiting) (seen.setIfInBounds id true)
      (cur.setKind id ((cur.kind id).withChildren targets)) := by
  have inside : id < g.size := linking.marks ▸ Grammar.lt_size_of_not_seen first
  have node := linking.fresh id first
  have leads : List.Forall₂ (table.Leads g) (g.children id) targets := by
    have same : cur.children id = g.children id := congrArg (fun node => node.kind.children) node
    rw [← same]
    refine (forall₂_of_mapM found).imp fun child target step => ?_
    rw [linking.sameReferences.target] at step
    exact leads_of_target step
  have name : cur.name id = g.name id := congrArg Node.name node
  have kind : cur.kind id = g.kind id := congrArg Node.kind node
  -- The node was fresh, so it is the first time that its children are redirected.
  have own : (cur.setKind id ((cur.kind id).withChildren targets)).node id =
      ⟨g.name id, (g.kind id).withChildren targets⟩ := by
    have named := Grammar.name_setKind cur id ((cur.kind id).withChildren targets) id
    have turned := Grammar.kind_setKind_self cur ((cur.kind id).withChildren targets) (linking.size ▸ inside)
    rw [name] at named
    rw [kind] at named turned ⊢
    exact congrArg₂ Node.mk named turned
  have targeted : (cur.setKind id ((cur.kind id).withChildren targets)).children id = targets := by
    rw [Grammar.children, Grammar.kind, own]
    exact Kind.children_withChildren _ _ leads.length_eq.symm
  refine {
    size := (Grammar.size_setKind ..).trans linking.size
    marks := (Array.size_setIfInBounds ..).trans linking.marks
    fresh := fun other unseen => ?_
    redirected := fun other inside mark => ?_
    led := fun other inside mark child mem => ?_ }
  · rw [Grammar.seen_set, not_or] at unseen
    rw [Grammar.node_setKind_of_ne _ _ (Ne.symm unseen.1)]
    exact linking.fresh other unseen.2
  · by_cases same : other = id
    · subst same
      exact ⟨targets, leads, own⟩
    · rw [Grammar.node_setKind_of_ne _ _ (Ne.symm same)]
      exact linking.redirected other inside ((Grammar.seen_set.mp mark).resolve_left same)
  · rw [Grammar.seen_set, List.mem_append, List.mem_reverse]
    by_cases same : other = id
    · subst same
      rw [targeted] at mem
      exact .inr (.inl mem)
    · rw [Grammar.children, Grammar.kind, Grammar.node_setKind_of_ne _ _ (Ne.symm same)] at mem
      rcases linking.led other inside ((Grammar.seen_set.mp mark).resolve_left same) child mem with seen | waits
      · exact .inl (.inr seen)
      · rcases List.mem_cons.mp waits with rfl | later
        · exact .inl (.inl rfl)
        · exact .inr (.inr later)

/-! ## The end of linking -/

/-- **What linking leaves.** What was visited has its edges redirected and leads to nothing else; all other
nodes are as they were. -/
structure Linked (table : RuleTable) (g : Grammar) (root : NodeId) (visited : NodeId → Prop) (final : Grammar) :
    Prop where
  size : final.size = g.size
  root : visited root
  kept : ∀ id, ¬ visited id → final.node id = g.node id
  redirected : ∀ id < g.size, visited id → table.Redirected g id (final.node id)
  led : ∀ id < g.size, visited id → ∀ child ∈ final.children id, visited child

/-- A node that was seen is passed. -/
theorem linkFrom_again {id : NodeId} {owner : String} (fuel : Nat) (again : Seen seen id) :
    table.linkFrom (fuel + 1) ((id, owner) :: stack) seen cur = table.linkFrom fuel stack seen cur :=
  if_pos again

/-- A new node gets the targets of its children, which wait next. -/
theorem linkFrom_first {id : NodeId} {owner : String} (fuel : Nat) (first : ¬ Seen seen id) :
    table.linkFrom (fuel + 1) ((id, owner) :: stack) seen cur =
      match (cur.children id).mapM (table.target cur owner) with
      | .error error => .error error
      | .ok targets =>
        table.linkFrom fuel ((targets.map fun t => (t, (table.ruleAt? t).getD owner)).reverse ++ stack)
          (seen.setIfInBounds id true) (cur.setKind id ((cur.kind id).withChildren targets)) :=
  if_neg first

/-- After the first visit of a node its children wait, and there is one thing less to do. -/
theorem Linking.next {id : NodeId} {owner : String} {targets : List NodeId}
    (linking : Linking table g (((id, owner) :: stack).map Prod.fst) seen cur) (first : ¬ Seen seen id)
    (found : (cur.children id).mapM (table.target cur owner) = .ok targets) :
    let next := (targets.map fun t => (t, (table.ruleAt? t).getD owner)).reverse ++ stack
    Linking table g (next.map Prod.fst) (seen.setIfInBounds id true)
        (cur.setKind id ((cur.kind id).withChildren targets)) ∧
      next.length + g.pending (seen.setIfInBounds id true) (List.range g.size) =
        stack.length + g.pending seen (List.range g.size) := by
  have waiting : Linking table g (id :: stack.map Prod.fst) seen cur := linking
  have inside : id < g.size := linking.marks ▸ Grammar.lt_size_of_not_seen first
  have fewer := Grammar.pending_set (g := g) first List.nodup_range (List.mem_range.mpr inside)
  have same : cur.children id = g.children id := congrArg (fun node => node.kind.children) (linking.fresh id first)
  have length : targets.length = (g.children id).length := by
    rw [← same]
    exact (forall₂_of_mapM found).length_eq.symm
  refine ⟨?_, ?_⟩
  · rw [List.map_append, List.map_reverse, Grammar.map_fst_labels]
    exact waiting.visit first found
  · rw [List.length_append, List.length_reverse, List.length_map]
    omega

/-- Linking goes on until nothing is waiting. -/
theorem linkFrom_spec (fuel : Nat) (linking : Linking table g (stack.map Prod.fst) seen cur)
    (enough : stack.length + g.pending seen (List.range g.size) ≤ fuel)
    (done : table.linkFrom fuel stack seen cur = .ok final) :
    ∃ seen', Linking table g [] seen' final ∧ (∀ id, Seen seen id → Seen seen' id) ∧
      ∀ id ∈ stack.map Prod.fst, Seen seen' id := by
  induction fuel generalizing stack seen cur with
  | zero =>
    obtain rfl : stack = [] := List.eq_nil_of_length_eq_zero (by omega)
    cases done
    exact ⟨seen, linking, fun _ => id, nofun⟩
  | succ fuel ih =>
    match stack with
    | [] =>
      cases done
      exact ⟨seen, linking, fun _ => id, nofun⟩
    | (id, owner) :: stack =>
      rw [List.length_cons] at enough
      rw [linkFrom] at done
      split at done
      · next again =>
        obtain ⟨seen', ends, keeps, takes⟩ := ih (linking.skip again) (by omega) done
        exact ⟨seen', ends, keeps, List.forall_mem_cons.mpr ⟨keeps id again, takes⟩⟩
      · next first =>
        split at done
        · cases done
        · next targets found =>
          -- What waits grows by the targets, and one node less is pending: the fuel is still enough.
          obtain ⟨step, less⟩ := linking.next first found
          obtain ⟨seen', ends, keeps, takes⟩ := ih step (by omega) done
          refine ⟨seen', ends, fun other mark => keeps other (Grammar.seen_set.mpr (.inr mark)),
            List.forall_mem_cons.mpr ⟨keeps id (Grammar.seen_set.mpr (.inl rfl)), fun other mem => ?_⟩⟩
          exact takes other (by
            rw [List.map_append]
            exact List.mem_append_right _ mem)

/-- **What link returns is linked**: the state at its end, where nothing waits. -/
theorem linked_of_link {root : NodeId} (done : table.link g root = .ok final) :
    ∃ visited, Linked table g root visited final := by
  obtain ⟨seen, ends, _, takes⟩ := linkFrom_spec _ (Linking.start root) (Nat.le_of_eq (by
    rw [Grammar.pending_replicate, List.length_singleton, Nat.add_comm])) done
  exact ⟨Seen seen, ends.size, takes root List.mem_cons_self, ends.fresh, ends.redirected,
    fun id inside mark child mem => (ends.led id inside mark child mem).resolve_right List.not_mem_nil⟩

/-- Where every edge leads somewhere, linking does not fail. -/
theorem linkFrom_of_leads (leads : ∀ owner id, ∃ target, table.target g owner id = .ok target) (fuel : Nat)
    (linking : Linking table g (stack.map Prod.fst) seen cur) :
    ∃ final, table.linkFrom fuel stack seen cur = .ok final := by
  induction fuel generalizing stack seen cur with
  | zero => exact ⟨cur, rfl⟩
  | succ fuel ih =>
    match stack with
    | [] => exact ⟨cur, rfl⟩
    | (id, owner) :: stack =>
      rw [linkFrom]
      split
      · next again => exact ih (linking.skip again)
      · next first =>
        have target : ∀ child, ∃ target, table.target cur owner child = .ok target := by
          intro child
          rw [linking.sameReferences.target]
          exact leads owner child
        obtain ⟨targets, found⟩ := mapM_of_forall target (cur.children id)
        rw [found]
        exact ih (linking.next first found).1

/-- Linking ends where every edge leads somewhere. -/
theorem link_of_leads {root : NodeId} (leads : ∀ owner id, ∃ target, table.target g owner id = .ok target) :
    ∃ final, table.link g root = .ok final :=
  linkFrom_of_leads leads _ (Linking.start root)

/-! ## Standing for an expression in a linked grammar -/

/-- After linking, what stands for a name is the body behind it. -/
def Bound (table : RuleTable) (g : Grammar) (visited : NodeId → Prop) (id : NodeId) (name : String) : Prop :=
  table.Resolves g name id ∧ visited id

variable {root : NodeId} {visited : NodeId → Prop}

/-- A node that is no placeholder is led to as it is, with its own edges redirected. -/
theorem Linked.turned (linked : Linked table g root visited final) {id t : NodeId} {name : Option String} {kind : Kind}
    (row : g.nodes[id]? = some ⟨name, kind⟩) (proper : kind.isReference = false) (leads : table.Leads g id t)
    (inside : visited t) :
    ∃ targets, List.Forall₂ (table.Leads g) kind.children targets ∧ (∀ target ∈ targets, visited target) ∧
      final.nodes[t]? = some ⟨name, kind.withChildren targets⟩ := by
  obtain ⟨within, node⟩ := Grammar.getElem?_eq_some_iff.mp row
  have isKind : g.kind id = kind := congrArg Node.kind node
  have isName : g.name id = name := congrArg Node.name node
  have same : t = id := by
    unfold Leads at leads
    rw [isKind] at leads
    cases kind with
    | reference name => cases proper
    | _ => exact leads
  subst same
  obtain ⟨targets, turned, result⟩ := linked.redirected t within inside
  rw [isKind, isName] at result
  rw [Grammar.children, isKind] at turned
  refine ⟨targets, turned, fun target mem => linked.led t within inside target ?_, ?_⟩
  · rw [Grammar.children, Grammar.kind, result]
    rwa [Kind.children_withChildren _ _ turned.length_eq.symm]
  · exact Grammar.getElem?_eq_some_iff.mpr ⟨linked.size ▸ within, result⟩

mutual

/-- What stood for an expression stands for it after linking. -/
theorem Linked.stands (linked : Linked table g root visited final) :
    ∀ {e : Expression} {id t : NodeId} {name : Option String},
    Expression.Stands g (Expression.Placeholder g) id name e → table.Leads g id t → visited t →
    Expression.Stands final (table.Bound g visited) t name e
  | .literal _, _, _, _, stands, leads, inside | .charSet .., _, _, _, stands, leads, inside
  | .charRange .., _, _, _, stands, leads, inside | .endOfInput, _, _, _, stands, leads, inside => by
    obtain ⟨_, _, _, row⟩ := linked.turned stands rfl leads inside
    exact row
  | .rule target, id, t, _, stands, leads, inside => by
    have kind : g.kind id = .reference target :=
      congrArg Node.kind (Grammar.getElem?_eq_some_iff.mp stands).2
    rw [Leads, kind] at leads
    exact ⟨leads, inside⟩
  | .sequence _, _, _, _, ⟨_, row, all⟩, leads, inside | .choice _, _, _, _, ⟨_, row, all⟩, leads, inside => by
    obtain ⟨targets, turned, under, row'⟩ := linked.turned row rfl leads inside
    exact ⟨targets, row', linked.allStand all turned under⟩
  | .repetition _, _, _, _, ⟨_, row, stands⟩, leads, inside | .optional _, _, _, _, ⟨_, row, stands⟩, leads, inside
  | .negation _, _, _, _, ⟨_, row, stands⟩, leads, inside => by
    obtain ⟨_, _ | ⟨turned, _ | _⟩, under, row'⟩ := linked.turned row rfl leads inside
    exact ⟨_, row', linked.stands stands turned (under _ List.mem_cons_self)⟩

/-- The parts of an expression stand at the targets of their edges. -/
theorem Linked.allStand (linked : Linked table g root visited final) :
    ∀ {es : List Expression} {ids ts : List NodeId},
    Expression.AllStand g (Expression.Placeholder g) ids es → List.Forall₂ (table.Leads g) ids ts →
    (∀ t ∈ ts, visited t) → Expression.AllStand final (table.Bound g visited) ts es
  | [], [], _, _, .nil, _ => trivial
  | _ :: _, _ :: _, _, ⟨stands, all⟩, .cons leads turned, under =>
    ⟨linked.stands stands leads (under _ List.mem_cons_self),
      linked.allStand all turned fun t mem => under t (List.mem_cons_of_mem _ mem)⟩

end

end RuleTable

end BnfTokenizer.Dialect
