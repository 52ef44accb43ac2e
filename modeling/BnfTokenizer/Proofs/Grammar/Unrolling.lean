import BnfTokenizer.Proofs.Grammar.Exactness
import BnfTokenizer.Proofs.Grammar.Writing

/-!
# Where a written form ends

A node without a rule's name is written out where it is used, and so are the nodes under it. A cycle of such nodes
would be written out for ever; `written` is cut off by its fuel there. `Writes` and `Dumps` say what is written without
any fuel, so that they hold of something just where the writing ends.

It ends if and only if every cycle that the root reaches passes through a rule (`exists_dumps_iff`). The nodes that are
being written out at one time are then all different, so the fuel of `dump`, the size of the table, is never used up,
and `dump` gives what `Dumps` does. Which rules that are can be told without the queue they wait in: a chain of edges
down from the root is cut into stretches by the rules on it, and each rule is mentioned in the one above it. So the root
is written, every rule that it reaches, and nothing else, each once (`Guarded.writtenOut`).

An optional node over a repetition passes over the repetition and writes what is under that. This takes no node off a
cycle but one without a name, between two others.
-/

namespace BnfTokenizer.Grammar

open Relation (TransGen ReflTransGen)

/-! ## Writing without fuel -/

/-- The nodes that are written within a node of this kind. -/
def operands (g : Grammar) : Kind → List NodeId
  | .optional child => [(g.starred? child).getD child]
  | kind => kind.children

/-- What a node is written as, where it is used. -/
inductive Writes (g : Grammar) : NodeId → Written → Prop
  | rule {id name} (named : g.ruleName? id = some name) : Writes g id ⟨name, .atom, [id]⟩
  | inline {id} {mention : NodeId → Written} (nameless : g.ruleName? id = none)
      (each : ∀ c ∈ g.operands (g.kind id), Writes g c (mention c)) : Writes g id (g.writtenKind mention (g.kind id))

/-- What stands to the right of a rule's name. -/
def WritesBody (g : Grammar) (id : NodeId) (w : Written) : Prop :=
  ∃ mention : NodeId → Written, (∀ c ∈ g.operands (g.kind id), g.Writes c (mention c)) ∧
    w = g.writtenKind mention (g.kind id)

/-- A line for a rule, from what stands to the right of its name. -/
def line (g : Grammar) (id : NodeId) (body : Written) : String :=
  (g.name id).getD "<anonymous>" ++ " ::= " ++ body.text ++ "\n"

/-- The rules that come out of a queue, less those written earlier, and the text with a line for each. -/
inductive Dumps (g : Grammar) : List NodeId → List NodeId → List NodeId → String → Prop
  | done {earlier} : Dumps g [] earlier [] ""
  | skip {id queue earlier ids text} (again : id ∈ earlier) (rest : Dumps g queue earlier ids text) :
      Dumps g (id :: queue) earlier ids text
  | take {id queue earlier ids text body} (first : id ∉ earlier) (writes : g.WritesBody id body)
      (rest : Dumps g (queue ++ body.mentions) (id :: earlier) ids text) :
      Dumps g (id :: queue) earlier (id :: ids) (g.line id body ++ text)

variable {g : Grammar} {root a b c id m : NodeId} {w w' : Written}

/-- A text depends on the operands only. -/
theorem writtenKind_congr {mention mention' : NodeId → Written} {kind : Kind}
    (same : ∀ c ∈ g.operands kind, mention c = mention' c) :
    g.writtenKind mention kind = g.writtenKind mention' kind := by
  cases kind with
  | sequence ids => exact congrArg (Written.joined · " " .unary .sequence) (List.map_congr_left same)
  | choice ids => exact congrArg (Written.joined · " | " .sequence .choice) (List.map_congr_left same)
  | repetition child => exact congrArg (Written.postfixed · "+") (same child List.mem_cons_self)
  | negation child => exact congrArg (Written.prefixed · "!") (same child List.mem_cons_self)
  | optional child =>
    rw [operands, List.forall_mem_singleton] at same
    dsimp only [writtenKind]
    cases found : g.starred? child with
    | some inner => exact congrArg (Written.postfixed · "*") (by rwa [found] at same)
    | none => exact congrArg (Written.postfixed · "?") (by rwa [found] at same)
  | _ => rfl

/-- What is mentioned in a text is mentioned in an operand. -/
theorem mem_mentions_writtenKind {mention : NodeId → Written} {kind : Kind} :
    m ∈ (g.writtenKind mention kind).mentions ↔ ∃ c ∈ g.operands kind, m ∈ (mention c).mentions := by
  cases kind with
  | sequence ids | choice ids =>
    simp only [writtenKind, Written.joined, List.mem_flatMap, List.mem_map, exists_exists_and_eq_and, operands,
      Kind.children]
  | repetition child | negation child =>
    simp only [writtenKind, Written.postfixed, Written.prefixed, operands, Kind.children, List.mem_singleton,
      exists_eq_left]
  | optional child =>
    rw [operands, writtenKind]
    cases g.starred? child <;> simp [Written.postfixed]
  | _ => simp [writtenKind, operands, Kind.children]

/-- There is one text for a node. -/
theorem Writes.unique (first : g.Writes id w) (second : g.Writes id w') : w = w' := by
  induction first generalizing w' with
  | rule named =>
    cases second with
    | rule named' => rw [Option.some.inj (named.symm.trans named')]
    | inline nameless => rw [nameless] at named; cases named
  | inline nameless _ ih =>
    cases second with
    | rule named => rw [nameless] at named; cases named
    | inline _ each => exact writtenKind_congr fun c mem => ih c mem (each c mem)

theorem WritesBody.unique (first : g.WritesBody id w) (second : g.WritesBody id w') : w = w' := by
  obtain ⟨_, each, rfl⟩ := first
  obtain ⟨_, each', rfl⟩ := second
  exact writtenKind_congr fun c mem => (each c mem).unique (each' c mem)

theorem Dumps.unique {queue earlier ids ids' : List NodeId} {text text' : String}
    (first : g.Dumps queue earlier ids text) (second : g.Dumps queue earlier ids' text') :
    ids = ids' ∧ text = text' := by
  induction first generalizing ids' text' with
  | done =>
    cases second
    exact ⟨rfl, rfl⟩
  | skip again _ ih =>
    cases second with
    | skip _ rest => exact ih rest
    | take first => exact absurd again first
  | take first writes _ ih =>
    cases second with
    | skip again => exact absurd again first
    | take _ writes' rest =>
      obtain rfl := writes.unique writes'
      obtain ⟨rfl, rfl⟩ := ih rest
      exact ⟨rfl, rfl⟩

/-! ## Nodes that are written out within others -/

/-- An edge to a node that is written out where it is used. -/
def Inlines (g : Grammar) (a b : NodeId) : Prop :=
  g.Edge a b ∧ g.ruleName? b = none

theorem Inlines.edge (inlines : g.Inlines a b) : g.Edge a b :=
  inlines.1

/-- A child is an operand, or it is a nameless repetition, and what is under that is one. -/
theorem operand_of_edge (edge : g.Edge a b) : b ∈ g.operands (g.kind a) ∨
    g.ruleName? b = none ∧ ∃ inner ∈ g.operands (g.kind a), ∀ c, g.Edge b c → c = inner := by
  rw [Edge, children] at edge
  cases same : g.kind a with
  | optional child =>
    rw [same] at edge
    obtain rfl := List.mem_singleton.mp edge
    rw [operands]
    cases starred : g.starred? b with
    | none => exact .inl List.mem_cons_self
    | some inner =>
      refine .inr ⟨(starred?_eq_some starred).1, inner, List.mem_cons_self, fun c under => ?_⟩
      unfold starred? at starred
      split at starred
      · next kind =>
        cases starred
        rw [Edge, children, kind] at under
        exact List.mem_singleton.mp under
      · cases starred
  | _ =>
    rw [same] at edge
    exact .inl edge

/-- An operand is a child, or it is under a child that is written out. -/
theorem edge_of_operand (operand : c ∈ g.operands (g.kind a)) :
    g.Edge a c ∨ ∃ child, g.Inlines a child ∧ g.Edge child c := by
  rw [Edge, children]
  unfold Inlines Edge children
  cases same : g.kind a with
  | optional child =>
    rw [same, operands, List.mem_singleton] at operand
    cases starred : g.starred? child with
    | none =>
      rw [starred] at operand
      exact .inl (List.mem_singleton.mpr operand)
    | some inner =>
      rw [starred] at operand
      obtain rfl : c = inner := operand
      obtain ⟨nameless, under⟩ := starred?_eq_some starred
      exact .inr ⟨child, ⟨List.mem_singleton_self _, nameless⟩, under⟩
  | _ =>
    rw [same] at operand
    exact .inl operand

theorem lt_size_of_operand (operand : c ∈ g.operands (g.kind a)) : a < g.size := by
  rcases edge_of_operand operand with edge | ⟨_, inlines, _⟩
  · exact edge.lt_size
  · exact inlines.edge.lt_size

theorem reaches_of_operand (operand : c ∈ g.operands (g.kind a)) : g.Reaches a c := by
  rcases edge_of_operand operand with edge | ⟨_, inlines, edge⟩
  · exact .single edge
  · exact .head inlines.edge (.single edge)

theorem inlines_of_operand (operand : c ∈ g.operands (g.kind a)) (nameless : g.ruleName? c = none) :
    TransGen g.Inlines a c := by
  rcases edge_of_operand operand with edge | ⟨_, inlines, edge⟩
  · exact .single ⟨edge, nameless⟩
  · exact .head inlines (.single ⟨edge, nameless⟩)

/-! ## Cycles -/

/-- Every cycle of what a root reaches passes through a rule. -/
def Guarded (g : Grammar) (root : NodeId) : Prop :=
  ∀ cycle, ClosedWalk g.Edge cycle → (∀ id ∈ cycle, g.Reaches root id) → ∃ id ∈ cycle, (g.ruleName? id).isSome = true

theorem exists_isChain_of_transGen {R : NodeId → NodeId → Prop} (way : TransGen R a b) :
    ∃ between, (a :: (between ++ [b])).IsChain R := by
  induction way using TransGen.head_induction_on with
  | single edge => exact ⟨[], .cons_cons edge (.singleton _)⟩
  | head edge _ ih =>
    obtain ⟨between, chain⟩ := ih
    exact ⟨_ :: between, .cons_cons edge chain⟩

/-- What comes back to itself is on a closed walk, and comes to all that is on it. -/
theorem exists_closedWalk {R : NodeId → NodeId → Prop} (circle : TransGen R id id) :
    ∃ walk, ClosedWalk R walk ∧ ∀ other ∈ walk, TransGen R id other := by
  obtain ⟨between, chain⟩ := exists_isChain_of_transGen circle
  have steps : (id :: (between ++ [id])).IsChain (TransGen R) := chain.imp fun _ _ => .single
  have ahead := (List.pairwise_cons.mp steps.pairwise).1
  exact ⟨_, ⟨id, between, rfl, chain⟩, List.forall_mem_cons.mpr ⟨circle, ahead⟩⟩

theorem reaches_of_inlines (way : TransGen g.Inlines a b) : g.Reaches a b :=
  (TransGen.mono (fun _ _ => Inlines.edge) _ _ way).to_reflTransGen

/-- A cycle without rules is a node that is written out within itself. -/
theorem guarded_iff : g.Guarded root ↔ ∀ id, g.Reaches root id → ¬TransGen g.Inlines id id := by
  constructor
  · intro guarded id reached circle
    obtain ⟨cycle, ⟨start, between, same, chain⟩, ahead⟩ := exists_closedWalk circle
    obtain ⟨rule, mem, named⟩ := guarded cycle ⟨start, between, same, chain.imp fun _ _ => Inlines.edge⟩
      fun other mem => reached.trans (reaches_of_inlines (ahead other mem))
    obtain ⟨_, _, _, nameless⟩ := TransGen.tail'_iff.mp (ahead rule mem)
    rw [nameless] at named
    cases named
  · intro acyclic cycle closed reached
    by_contra bare
    have nameless : ∀ id ∈ cycle, g.ruleName? id = none := fun id mem =>
      Option.not_isSome_iff_eq_none.mp fun named => bare ⟨id, mem, named⟩
    obtain ⟨start, between, same, chain⟩ := closed
    have inlines : cycle.IsChain g.Inlines :=
      chain.imp_of_mem_imp fun _ below _ mem edge => ⟨edge, nameless below mem⟩
    obtain ⟨id, mem, circle⟩ := ClosedWalk.transGen ⟨start, between, same, inlines⟩
    exact acyclic id (reached id mem) circle

theorem Descends.lt_of_inlines (down : g.Descends) (inlines : g.Inlines a b) : b < a := by
  obtain ⟨edge, nameless⟩ := inlines
  obtain ⟨_, below | named⟩ := down a b edge
  · exact below
  · rw [nameless] at named
    cases named

/-- Where children come before their parents, but for rules, there is no cycle without a rule. -/
theorem Descends.guarded (down : g.Descends) (root : NodeId) : g.Guarded root := by
  refine guarded_iff.mpr fun id _ circle => Nat.lt_irrefl id ?_
  have falls : TransGen (· > ·) id id := TransGen.mono (fun _ _ => down.lt_of_inlines) _ _ circle
  rwa [Relation.transGen_eq_self] at falls

/-! ## The fuel is enough -/

/-- **Fuel does not end a text** that is written at the end of a path of nodes, each written out within the one before
it: as long as no node comes twice, a path is no longer than the table. -/
theorem writes_written (acyclic : ∀ id, g.Reaches root id → ¬TransGen g.Inlines id id) (fuel : Nat) {path : List NodeId}
    (distinct : path.Nodup) (inside : ∀ p ∈ path, p < g.size) (reached : g.Reaches root id)
    (above : g.ruleName? id = none → ∀ p ∈ path, TransGen g.Inlines p id) (enough : g.size < path.length + fuel) :
    g.Writes id (g.written fuel id) := by
  induction fuel generalizing id path with
  | zero =>
    have few : path.length ≤ g.size := by
      have sub : path ⊆ List.range g.size := fun p mem => List.mem_range.mpr (inside p mem)
      simpa using (List.subperm_of_subset distinct sub).length_le
    omega
  | succ fuel ih =>
    rw [written]
    cases named : g.ruleName? id with
    | some name => exact .rule named
    | none =>
      refine .inline named fun c operand => @ih c (id :: path) ?_ ?_ (reached.trans (reaches_of_operand operand)) ?_ ?_
      · exact List.nodup_cons.mpr ⟨fun again => acyclic id reached (above named id again), distinct⟩
      · exact List.forall_mem_cons.mpr ⟨lt_size_of_operand operand, inside⟩
      · intro nameless
        have next := inlines_of_operand operand nameless
        exact List.forall_mem_cons.mpr ⟨next, fun p mem => (above named p mem).trans next⟩
      · rw [List.length_cons]
        omega

theorem Guarded.writesBody (guarded : g.Guarded root) (reached : g.Reaches root id) : g.WritesBody id (g.body id) := by
  refine ⟨_, fun c operand => ?_, rfl⟩
  refine writes_written (guarded_iff.mp guarded) g.size (List.nodup_singleton id) ?_
    (reached.trans (reaches_of_operand operand)) ?_ (by simp)
  · exact List.forall_mem_singleton.mpr (lt_size_of_operand operand)
  · exact fun nameless => List.forall_mem_singleton.mpr (inlines_of_operand operand nameless)

/-! ## What is mentioned -/

variable {mention : NodeId → Written}

/-- Only rules are mentioned that are reached, where that is so in the operands. -/
theorem mentions_writtenKind_reached
    (each : ∀ c ∈ g.operands (g.kind a), ∀ m ∈ (mention c).mentions, g.Reaches c m ∧ (g.ruleName? m).isSome = true) :
    ∀ m ∈ (g.writtenKind mention (g.kind a)).mentions, g.Reaches a m ∧ (g.ruleName? m).isSome = true := by
  intro m mem
  obtain ⟨c, operand, mentioned⟩ := mem_mentions_writtenKind.mp mem
  obtain ⟨reached, named⟩ := each c operand m mentioned
  exact ⟨(reaches_of_operand operand).trans reached, named⟩

theorem Writes.mentions_reached (writes : g.Writes a w) :
    ∀ m ∈ w.mentions, g.Reaches a m ∧ (g.ruleName? m).isSome = true := by
  induction writes with
  | rule named =>
    refine List.forall_mem_singleton.mpr ⟨.refl, ?_⟩
    rw [named]
    rfl
  | inline _ _ ih => exact mentions_writtenKind_reached ih

theorem WritesBody.mentions_reached (writes : g.WritesBody a w) :
    ∀ m ∈ w.mentions, g.Reaches a m ∧ (g.ruleName? m).isSome = true := by
  obtain ⟨_, each, rfl⟩ := writes
  exact mentions_writtenKind_reached fun c operand => (each c operand).mentions_reached

/-- The first operand on a way down to a rule. -/
theorem exists_operand (way : ReflTransGen g.Inlines a b) (edge : g.Edge b m) (named : (g.ruleName? m).isSome = true) :
    m ∈ g.operands (g.kind a) ∨ ∃ c ∈ g.operands (g.kind a), g.ruleName? c = none ∧
      ∃ last, ReflTransGen g.Inlines c last ∧ g.Edge last m := by
  rcases Relation.ReflTransGen.cases_head way with rfl | ⟨next, step, way⟩
  · rcases operand_of_edge edge with operand | ⟨nameless, _⟩
    · exact .inl operand
    · rw [nameless] at named
      cases named
  · rcases operand_of_edge step.edge with operand | ⟨_, inner, operand, only⟩
    · exact .inr ⟨next, operand, step.2, b, way, edge⟩
    · -- `next` is a repetition that is passed over: the way can only go on to what is under it.
      rcases Relation.ReflTransGen.cases_head way with rfl | ⟨after, further, way⟩
      · exact .inl (only m edge ▸ operand)
      · obtain rfl := only after further.edge
        exact .inr ⟨after, operand, further.2, b, way, edge⟩

/-- A rule is mentioned at the end of a way of nodes that are written out, where that is so in the operands. -/
theorem mem_mentions_of_way (each : ∀ c ∈ g.operands (g.kind a), g.Writes c (mention c))
    (deeper : ∀ c ∈ g.operands (g.kind a), g.ruleName? c = none →
      ∀ {last}, ReflTransGen g.Inlines c last → g.Edge last m → m ∈ (mention c).mentions)
    (way : ReflTransGen g.Inlines a b) (edge : g.Edge b m) (named : (g.ruleName? m).isSome = true) :
    m ∈ (g.writtenKind mention (g.kind a)).mentions := by
  refine mem_mentions_writtenKind.mpr ?_
  rcases exists_operand way edge named with operand | ⟨c, operand, nameless, _, way, edge⟩
  · refine ⟨m, operand, ?_⟩
    obtain ⟨name, named⟩ := Option.isSome_iff_exists.mp named
    rw [(each m operand).unique (.rule named)]
    exact List.mem_cons_self
  · exact ⟨c, operand, deeper c operand nameless way edge⟩

theorem Writes.mem_mentions (writes : g.Writes a w) (nameless : g.ruleName? a = none)
    (way : ReflTransGen g.Inlines a b) (edge : g.Edge b m) (named : (g.ruleName? m).isSome = true) :
    m ∈ w.mentions := by
  induction writes generalizing b with
  | rule named' =>
    rw [nameless] at named'
    cases named'
  | inline _ each ih =>
    exact mem_mentions_of_way each (fun c operand bare _ way edge => ih c operand bare way edge) way edge named

theorem WritesBody.mem_mentions (writes : g.WritesBody a w) (way : ReflTransGen g.Inlines a b) (edge : g.Edge b m)
    (named : (g.ruleName? m).isSome = true) : m ∈ w.mentions := by
  obtain ⟨_, each, rfl⟩ := writes
  exact mem_mentions_of_way each (fun c operand bare _ way edge => (each c operand).mem_mentions bare way edge named)
    way edge named

/-! ## What is written has an end -/

theorem acc_of_operands (each : ∀ c ∈ g.operands (g.kind a), g.ruleName? c = none → Acc (flip g.Inlines) c) :
    Acc (flip g.Inlines) a := by
  refine .intro a fun b step => ?_
  rcases operand_of_edge step.1 with operand | ⟨_, inner, operand, only⟩
  · exact each b operand step.2
  · -- Under a repetition that is passed over there is the operand and nothing else.
    refine .intro b fun c further => ?_
    obtain rfl := only c further.1
    exact each c operand further.2

theorem Writes.acc (writes : g.Writes a w) (nameless : g.ruleName? a = none) : Acc (flip g.Inlines) a := by
  induction writes with
  | rule named =>
    rw [nameless] at named
    cases named
  | inline _ _ ih => exact acc_of_operands ih

theorem WritesBody.acc (writes : g.WritesBody a w) : Acc (flip g.Inlines) a := by
  obtain ⟨_, each, _⟩ := writes
  exact acc_of_operands fun c operand => (each c operand).acc

theorem not_transGen_of_acc {R : NodeId → NodeId → Prop} (acc : Acc (flip R) a) (way : ReflTransGen R a b) :
    ¬TransGen R b b := by
  induction acc generalizing b with
  | intro a _ ih =>
    intro circle
    rcases Relation.ReflTransGen.cases_head way with rfl | ⟨next, step, way⟩
    · obtain ⟨next, step, way⟩ := TransGen.head'_iff.mp circle
      exact ih next step way circle
    · exact ih next step way circle

/-! ## The queue -/

variable {queue earlier ids : List NodeId} {text : String}

/-- A list that comes out of the queue is written, where each of its bodies is. -/
theorem Lists.dumps (lists : Lists g queue earlier ids) (whole : ∀ id ∈ ids, g.WritesBody id (g.body id)) :
    g.Dumps queue earlier ids (String.join (ids.map g.entry)) := by
  induction lists with
  | done => exact .done
  | skip again _ ih => exact .skip again (ih whole)
  | take first _ ih =>
    obtain ⟨own, others⟩ := List.forall_mem_cons.mp whole
    rw [List.map_cons, String.join_cons]
    exact .take first own (ih others)

theorem Dumps.head?_eq (dumps : g.Dumps (id :: queue) [] ids text) : ids.head? = some id := by
  cases dumps with
  | skip again => cases again
  | take => rfl

/-- What waits in the queue is written, and what is written has an end and mentions what is written. -/
theorem Dumps.takes (dumps : g.Dumps queue earlier ids text) : (∀ id ∈ queue, id ∈ earlier ∨ id ∈ ids) ∧
    ∀ id ∈ ids, ∃ w, g.WritesBody id w ∧ ∀ m ∈ w.mentions, m ∈ earlier ∨ m ∈ ids := by
  induction dumps with
  | done => exact ⟨List.forall_mem_nil _, List.forall_mem_nil _⟩
  | skip again _ ih => exact ih.imp_left fun waiting => List.forall_mem_cons.mpr ⟨.inl again, waiting⟩
  | @take id queue earlier ids _ body _ writes _ ih =>
    obtain ⟨waiting, written⟩ := ih
    have widen : ∀ m, m ∈ id :: earlier ∨ m ∈ ids → m ∈ earlier ∨ m ∈ id :: ids := by
      intro m found
      simp only [List.mem_cons] at found ⊢
      tauto
    obtain ⟨others, mentioned⟩ := List.forall_mem_append.mp waiting
    refine ⟨List.forall_mem_cons.mpr ⟨.inr List.mem_cons_self, fun m mem => widen m (others m mem)⟩, ?_⟩
    refine List.forall_mem_cons.mpr ⟨⟨body, writes, fun m mem => widen m (mentioned m mem)⟩, fun other mem => ?_⟩
    exact (written other mem).imp fun w => And.imp_right fun all m inside => widen m (all m inside)

/-- The root is written, and with each node all that is mentioned in it. -/
structure Covers (g : Grammar) (root : NodeId) (ids : List NodeId) : Prop where
  root : root ∈ ids
  mentioned : ∀ id ∈ ids, ∃ w, g.WritesBody id w ∧ ∀ m ∈ w.mentions, m ∈ ids

theorem Dumps.covers (dumps : g.Dumps [root] [] ids text) : g.Covers root ids := by
  obtain ⟨waiting, written⟩ := dumps.takes
  have listed : ∀ {m}, m ∈ [] ∨ m ∈ ids → m ∈ ids := fun found => found.resolve_left List.not_mem_nil
  refine ⟨listed (waiting root List.mem_cons_self), fun id mem => ?_⟩
  exact (written id mem).imp fun w => And.imp_right fun all m inside => listed (all m inside)

namespace Covers

variable (covers : g.Covers root ids)

include covers

/-- What is reached is written out in something that is written. -/
theorem exists_above (reached : g.Reaches root id) : ∃ top ∈ ids, ReflTransGen g.Inlines top id := by
  induction reached with
  | refl => exact ⟨root, covers.root, .refl⟩
  | @tail b c _ edge ih =>
    obtain ⟨top, mem, way⟩ := ih
    cases named : g.ruleName? c with
    | none => exact ⟨top, mem, way.tail ⟨edge, named⟩⟩
    | some name =>
      obtain ⟨_, writes, listed⟩ := covers.mentioned top mem
      exact ⟨c, listed c (writes.mem_mentions way edge (by rw [named]; rfl)), .refl⟩

theorem mem_of_reached (reached : g.Reaches root id) (named : (g.ruleName? id).isSome = true) : id ∈ ids := by
  obtain ⟨top, mem, way⟩ := covers.exists_above reached
  rcases Relation.ReflTransGen.cases_tail way with rfl | ⟨_, _, _, nameless⟩
  · exact mem
  · rw [nameless] at named
    cases named

theorem guarded : g.Guarded root := by
  refine guarded_iff.mpr fun id reached => ?_
  obtain ⟨top, mem, way⟩ := covers.exists_above reached
  obtain ⟨_, writes, _⟩ := covers.mentioned top mem
  exact not_transGen_of_acc writes.acc way

end Covers

namespace Guarded

variable (guarded : g.Guarded root)

include guarded

/-- What is written is reached, and it is a rule, but for the root. -/
theorem of_mem_rules (inside : root < g.size) :
    ∀ id ∈ g.rules root, g.Reaches root id ∧ (id = root ∨ (g.ruleName? id).isSome = true) := by
  refine (rules_lists inside).holds (fun id above m mem => ?_) (List.forall_mem_singleton.mpr ⟨.refl, .inl rfl⟩)
  obtain ⟨reached, named⟩ := (guarded.writesBody above.1).mentions_reached m mem
  exact ⟨above.1.trans reached, .inr named⟩

theorem dumps (inside : root < g.size) : g.Dumps [root] [] (g.rules root) (g.dump root) :=
  (rules_lists inside).dumps fun id mem => guarded.writesBody (guarded.of_mem_rules inside id mem).1

end Guarded

/-- **The writing ends just where every cycle passes through a rule.** -/
theorem exists_dumps_iff (inside : root < g.size) : (∃ ids text, g.Dumps [root] [] ids text) ↔ g.Guarded root := by
  constructor
  · rintro ⟨_, _, dumps⟩
    exact dumps.covers.guarded
  · exact fun guarded => ⟨_, _, guarded.dumps inside⟩

/-- The writing ends, and what is written is the root, then each rule that it reaches and nothing else. -/
structure WrittenOut (g : Grammar) (root : NodeId) : Prop where
  ends : ∀ ids text, g.Dumps [root] [] ids text ↔ ids = g.rules root ∧ text = g.dump root
  first : (g.rules root).head? = some root
  distinct : (g.rules root).Nodup
  exactly : ∀ id, id ∈ g.rules root ↔ id = root ∨ g.Reaches root id ∧ (g.ruleName? id).isSome = true

theorem Guarded.writtenOut (guarded : g.Guarded root) (inside : root < g.size) : g.WrittenOut root := by
  have dumps := guarded.dumps inside
  have covers := dumps.covers
  refine ⟨fun ids text => ⟨fun other => other.unique dumps, ?_⟩, dumps.head?_eq, (rules_lists inside).fresh.1, ?_⟩
  · rintro ⟨rfl, rfl⟩
    exact dumps
  · intro id
    constructor
    · intro mem
      obtain ⟨reached, named⟩ := guarded.of_mem_rules inside id mem
      exact named.imp_right fun named => ⟨reached, named⟩
    · rintro (rfl | ⟨reached, named⟩)
      · exact covers.root
      · exact covers.mem_of_reached reached named

end BnfTokenizer.Grammar
