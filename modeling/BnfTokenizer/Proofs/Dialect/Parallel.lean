import BnfTokenizer.Proofs.Dialect.Aliases
import BnfTokenizer.Proofs.Dialect.Assembly
import BnfTokenizer.Proofs.Grammar.Defects
import BnfTokenizer.Proofs.Grammar.Writing

/-!
# Tables side by side

`Parallel` tables say the same of some names, the root among them, with twins for bodies, and their bodies ask for
none but these names. What is done to one table then goes on step by step with what is done to the other: a name is
followed to twin bodies or to the same report, linking visits twins in the same rules and fails with the same report,
and what it leaves are twins again (`Parallel.linked_twins`).

Fuel goes by the size of a table and the tables differ in size, so each has to have enough for itself.
-/

namespace BnfTokenizer.Dialect

open Grammar (Kind Node Seen Twins)

/-! ## Results -/

/-- What can be wrong with rules that were read and have no circular aliases. -/
inductive Unfit : CompileError → Prop
  | missingRoot : Unfit .missingRoot
  | undefinedRule (name referencedFrom : String) : Unfit (.undefinedRule name referencedFrom)
  | defective (defect : Grammar.Defect) : Unfit (.defective defect)

/-- The same is wrong, or the results are related. -/
inductive SameResult {α β : Type} (S : α → β → Prop) : Except CompileError α → Except CompileError β → Prop
  | error {error} (unfit : Unfit error) : SameResult S (.error error) (.error error)
  | ok {a b} (related : S a b) : SameResult S (.ok a) (.ok b)

/-- Traversals that are the same at each member are the same. -/
theorem SameResult.mapM {α β γ δ : Type} {S : γ → δ → Prop} {T : α → β → Prop} {f : α → Except CompileError γ}
    {f' : β → Except CompileError δ} (each : ∀ a b, T a b → SameResult S (f a) (f' b)) {as : List α} {bs : List β}
    (all : List.Forall₂ T as bs) : SameResult (List.Forall₂ S) (as.mapM f) (bs.mapM f') := by
  induction all with
  | nil => exact .ok .nil
  | @cons a b as bs head _ ih =>
    have own := each a b head
    rw [List.mapM_cons, List.mapM_cons]
    generalize f a = first at own
    generalize f' b = first' at own
    generalize as.mapM f = others at ih
    generalize bs.mapM f' = others' at ih
    cases own with
    | error unfit => exact .error unfit
    | ok related =>
      cases ih with
      | error unfit => exact .error unfit
      | ok rest => exact .ok (.cons related rest)

/-- Two tables that say the same of some names, the root among them. -/
structure Parallel (names : String → Prop) (R : NodeId → NodeId → Prop) (table : RuleTable) (g : Grammar)
    (table' : RuleTable) (h : Grammar) : Prop where
  twins : Twins g h R
  root : names RuleTable.rootName
  known : ∀ {name}, names name → Option.Rel R (table.get? name) (table'.get? name)
  asked : ∀ {a b name}, R a b → g.kind a = .reference name → names name
  owner : ∀ {a b}, R a b → (g.kind a).isReference = false → table.ruleAt? a = table'.ruleAt? b
  checked : table.checkAliases g = .ok ()
  checked' : table'.checkAliases h = .ok ()

namespace Parallel

variable {names : String → Prop} {R : NodeId → NodeId → Prop} {table table' : RuleTable} {g h : Grammar}

section

variable (parallel : Parallel names R table g table' h)

include parallel

/-! ## Following aliases -/

theorem kind_iff {a b : NodeId} (related : R a b) (name : String) :
    g.kind a = .reference name ↔ h.kind b = .reference name := by
  have like := parallel.twins.kind related
  generalize g.kind a = kind at like
  generalize h.kind b = kind' at like
  cases like with
  | leaf _ => exact Iff.rfl
  | _ => exact ⟨nofun, nofun⟩

theorem get?_eq_none {name : String} (named : names name) (unknown : table.get? name = none) :
    table'.get? name = none := by
  have bodies := parallel.known named
  rw [unknown] at bodies
  generalize table'.get? name = body' at bodies ⊢
  cases bodies
  rfl

theorem exists_get? {name : String} {a : NodeId} (named : names name) (known : table.get? name = some a) :
    ∃ b, table'.get? name = some b ∧ R a b := by
  have bodies := parallel.known named
  rw [known] at bodies
  generalize table'.get? name = body' at bodies ⊢
  cases bodies with
  | some related => exact ⟨_, rfl, related⟩

/-- **A name comes to twin bodies**, or to the same report. -/
theorem resolution_same {name owner : String} {outcome outcome' : Except CompileError NodeId} (named : names name)
    (first : table.Resolution g name owner outcome) (second : table'.Resolution h name owner outcome') :
    SameResult R outcome outcome' := by
  -- The chain is followed in step: the tables know the same names, and a body is an alias in both or in neither.
  induction first generalizing outcome' with
  | missing unknown =>
    have unknown' := parallel.get?_eq_none named unknown
    cases second with
    | missing _ => exact .error (.undefinedRule _ _)
    | body known _ => cases unknown'.symm.trans known
    | via known _ _ => cases unknown'.symm.trans known
  | body known proper =>
    obtain ⟨b, known', related⟩ := parallel.exists_get? named known
    cases second with
    | missing unknown => cases known'.symm.trans unknown
    | body again _ =>
      cases known'.symm.trans again
      exact .ok related
    | via again kind _ =>
      cases known'.symm.trans again
      rw [parallel.twins.isReference_eq related, kind] at proper
      cases proper
  | via known kind _ ih =>
    obtain ⟨b, known', related⟩ := parallel.exists_get? named known
    have kind' := (parallel.kind_iff related _).mp kind
    cases second with
    | missing unknown => cases known'.symm.trans unknown
    | body again proper =>
      cases known'.symm.trans again
      rw [kind'] at proper
      cases proper
    | via again other rest =>
      cases known'.symm.trans again
      cases kind'.symm.trans other
      exact ih (parallel.asked related kind) rest

theorem root_same : SameResult R (table.root g) (table'.root h) := by
  cases known : table.get? RuleTable.rootName with
  | none =>
    have unknown' := parallel.get?_eq_none parallel.root known
    unfold RuleTable.root
    rw [known, unknown']
    exact .error .missingRoot
  | some body =>
    obtain ⟨body', known', _⟩ := parallel.exists_get? parallel.root known
    exact parallel.resolution_same parallel.root (RuleTable.root_resolution parallel.checked known "")
      (RuleTable.root_resolution parallel.checked' known' "")

/-- Edges to twins lead to twins, once placeholders are looked through. -/
theorem target_twins {a b : NodeId} (related : R a b) (owner : String) :
    SameResult R (table.target g owner a) (table'.target h owner b) := by
  unfold RuleTable.target
  split
  · next name kind =>
    rw [(parallel.kind_iff related name).mp kind]
    exact parallel.resolution_same (parallel.asked related kind) (RuleTable.resolve_resolution parallel.checked _ _)
      (RuleTable.resolve_resolution parallel.checked' _ _)
  · next other =>
    split
    · next name kind => exact absurd ((parallel.kind_iff related name).mpr kind) (other name)
    · exact .ok related

/-- Twins that edges lead to are in the same rule. -/
theorem target_same {a b : NodeId} (related : R a b) (owner : String) :
    SameResult (fun t t' => R t t' ∧ table.ruleAt? t = table'.ruleAt? t') (table.target g owner a)
      (table'.target h owner b) := by
  have same := parallel.target_twins related owner
  generalize found : table.target g owner a = result at same
  generalize table'.target h owner b = result' at same
  cases same with
  | error unfit => exact .error unfit
  | ok partner =>
    exact .ok ⟨partner, parallel.owner partner (RuleTable.leads_of_target found).proper⟩

theorem leads_same {a b t t' : NodeId} (related : R a b) (leads : table.Leads g a t) (leads' : table'.Leads h b t') :
    R t t' := by
  unfold RuleTable.Leads at leads leads'
  split at leads
  · next name kind =>
    rw [(parallel.kind_iff related name).mp kind] at leads'
    have both := parallel.resolution_same (parallel.asked related kind) (leads.resolution "") (leads'.resolution "")
    cases both
    assumption
  · next other =>
    split at leads'
    · next name kind => exact absurd ((parallel.kind_iff related name).mpr kind) (other name)
    · rwa [leads, leads']

/-! ## Linking -/

/-- **Linking goes on side by side**, and fails with the same report if it fails. -/
theorem linkFrom_same {fuel fuel' : Nat} {stack stack' : List (NodeId × String)} {seen seen' : Array Bool}
    {cur cur' : Grammar} (linking : table.Linking g (stack.map Prod.fst) seen cur)
    (linking' : table'.Linking h (stack'.map Prod.fst) seen' cur')
    (enough : stack.length + g.pending seen (List.range g.size) ≤ fuel)
    (enough' : stack'.length + h.pending seen' (List.range h.size) ≤ fuel')
    (level : List.Forall₂ (Twins.Labelled R Eq) stack stack')
    (marks : ∀ a b, R a b → (Seen seen a ↔ Seen seen' b)) :
    SameResult (fun _ _ => True) (table.linkFrom fuel stack seen cur) (table'.linkFrom fuel' stack' seen' cur') := by
  induction fuel generalizing stack stack' seen seen' cur cur' fuel' with
  | zero =>
    obtain rfl : stack = [] := List.eq_nil_of_length_eq_zero (by omega)
    cases level
    cases fuel' <;> exact .ok trivial
  | succ fuel ih =>
    cases level with
    | nil => cases fuel' <;> exact .ok trivial
    | @cons top top' stack stack' head below =>
      obtain ⟨id, owner⟩ := top
      obtain ⟨id', owner'⟩ := top'
      have related : R id id' := head.1
      obtain rfl : owner = owner' := head.2
      rw [List.length_cons] at enough enough'
      obtain ⟨fuel', rfl⟩ : ∃ less, fuel' = less + 1 := ⟨fuel' - 1, by omega⟩
      by_cases again : Seen seen id
      · have again' : Seen seen' id' := (marks id id' related).mp again
        rw [RuleTable.linkFrom_again fuel again, RuleTable.linkFrom_again fuel' again']
        exact ih (linking.skip again) (linking'.skip again') (by omega) (by omega) below marks
      · have first' : ¬ Seen seen' id' := fun seen => again ((marks id id' related).mpr seen)
        rw [RuleTable.linkFrom_first fuel again, RuleTable.linkFrom_first fuel' first']
        -- the edges are those of the tables, which are not yet redirected here
        have children : List.Forall₂ R (cur.children id) (cur'.children id') := by
          rw [Grammar.children, Grammar.children, Grammar.kind, Grammar.kind, linking.fresh id again,
            linking'.fresh id' first']
          exact (parallel.twins.kind related).children
        have targets : SameResult (List.Forall₂ fun t t' => R t t' ∧ table.ruleAt? t = table'.ruleAt? t')
            ((cur.children id).mapM (table.target cur owner)) ((cur'.children id').mapM (table'.target cur' owner)) := by
          refine SameResult.mapM (fun a b partner => ?_) children
          rw [linking.sameReferences.target, linking'.sameReferences.target]
          exact parallel.target_same partner owner
        generalize found : (cur.children id).mapM (table.target cur owner) = result at targets
        generalize found' : (cur'.children id').mapM (table'.target cur' owner) = result' at targets
        cases targets with
        | error unfit => exact .error unfit
        | ok partners =>
          obtain ⟨step, less⟩ := linking.next again found
          obtain ⟨step', less'⟩ := linking'.next first' found'
          refine ih step step' (by omega) (by omega) (List.rel_append (List.rel_reverse ?_) below) fun a b other => ?_
          · rw [List.forall₂_map_left_iff, List.forall₂_map_right_iff]
            exact partners.imp fun a b partner => ⟨partner.1, congrArg (·.getD owner) partner.2⟩
          · rw [Grammar.seen_set, Grammar.seen_set, parallel.twins.eq_iff other related, marks a b other]

theorem link_same {root root' : NodeId} (related : R root root') (proper : (g.kind root).isReference = false) :
    SameResult (fun _ _ => True) (table.link g root) (table'.link h root') := by
  have owner := congrArg (·.getD RuleTable.rootName) (parallel.owner related proper)
  refine parallel.linkFrom_same (RuleTable.Linking.start root) (RuleTable.Linking.start root') ?_ ?_
    (.cons ⟨related, owner⟩ .nil) fun a b other => ?_
  · rw [Grammar.pending_replicate, List.length_singleton, Nat.add_comm]
  · rw [Grammar.pending_replicate, List.length_singleton, Nat.add_comm]
  · have ⟨inside, inside'⟩ := parallel.twins.inside other
    exact iff_of_false (Grammar.not_seen_replicate inside) (Grammar.not_seen_replicate inside')

end

/-! ## What linking leaves -/

/-- Lists that come from related lists step by step are related. -/
theorem forall₂_of_steps {S T T' : NodeId → NodeId → Prop} {as bs cs ds : List NodeId}
    (step : ∀ a b c d, R a b → T a c → T' b d → c ∈ cs → d ∈ ds → S c d) (all : List.Forall₂ R as bs)
    (left : List.Forall₂ T as cs) (right : List.Forall₂ T' bs ds) : List.Forall₂ S cs ds := by
  induction all generalizing cs ds with
  | nil =>
    cases left
    cases right
    exact .nil
  | cons head _ ih =>
    obtain _ | ⟨own, left⟩ := left
    obtain _ | ⟨own', right⟩ := right
    refine .cons (step _ _ _ _ head own own' List.mem_cons_self List.mem_cons_self) (ih ?_ left right)
    exact fun a b c d related here there mem mem' =>
      step a b c d related here there (List.mem_cons_of_mem _ mem) (List.mem_cons_of_mem _ mem')

variable {root root' : NodeId} {visited visited' : NodeId → Prop} {final final' : Grammar}

/-- **What is linked side by side are twins**, as far as both were visited. -/
theorem linked_twins (parallel : Parallel names R table g table' h) (linked : table.Linked g root visited final)
    (linked' : table'.Linked h root' visited' final') :
    Twins final final' fun a b => R a b ∧ visited a ∧ visited' b where
  inside both := by
    rw [linked.size, linked'.size]
    exact parallel.twins.inside both.1
  name both := by
    rw [linked.name, linked'.name]
    exact parallel.twins.name both.1
  left first second := parallel.twins.left first.1 second.1
  right first second := parallel.twins.right first.1 second.1
  kind := by
    rintro a b ⟨related, mark, mark'⟩
    obtain ⟨inside, inside'⟩ := parallel.twins.inside related
    obtain ⟨targets, turned, node⟩ := linked.redirected a inside mark
    obtain ⟨targets', turned', node'⟩ := linked'.redirected b inside' mark'
    have under := linked.led a inside mark
    have under' := linked'.led b inside' mark'
    have like := parallel.twins.kind related
    rw [Grammar.children, Grammar.kind, node, Kind.children_withChildren _ _ turned.length_eq.symm] at under
    rw [Grammar.children, Grammar.kind, node', Kind.children_withChildren _ _ turned'.length_eq.symm] at under'
    rw [Grammar.kind, Grammar.kind, node, node']
    refine like.withChildren turned.length_eq.symm (forall₂_of_steps ?_ like.children turned turned')
    exact fun c d t t' partner leads leads' mem mem' =>
      ⟨parallel.leads_same partner leads leads', under t mem, under' t' mem'⟩

end Parallel

end BnfTokenizer.Dialect
