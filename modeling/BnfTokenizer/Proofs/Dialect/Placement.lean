import BnfTokenizer.Proofs.Dialect.Drafting
import BnfTokenizer.Proofs.Dialect.Tabulation

/-!
# Where the nodes of a draft stand

A node that is handed out is spare until it is used, as a child or as the body of a rule. No node is used twice, unless
it is a placeholder. `Laid` holds so of a grammar with some bodies and some spare nodes, and `Indexed` that a draft knows
all its placeholders.

A step takes some of what is spare and hands out something instead (`Spends`). It does not look at the rest, so steps go
one behind the other (`Spends.append`), and there is one lemma for each of them.
-/

namespace BnfTokenizer.Dialect

open Grammar (Kind Node)
open Expression (Placeholder)

variable {g h : Grammar} {bodies : List (String × NodeId)} {spare : List NodeId} {P : String → Prop} {d d' d'' : Draft}
  {name : String}

/-! ## One node more, one name more -/

/-- A node that is added stands at the end, and the others stay where they are. -/
theorem node_push (g : Grammar) (node : Node) (id : NodeId) :
    (g.push node).node id = if id = g.size then node else g.node id := by
  rcases Nat.lt_trichotomy id g.size with less | rfl | more
  · rw [if_neg (Nat.ne_of_lt less), Grammar.node_push_of_lt g node less]
  · rw [if_pos rfl, Grammar.node_push_size]
  · rw [if_neg (Nat.ne_of_gt more), Grammar.node_of_size_le (Nat.le_of_lt more), Grammar.node_of_size_le]
    rw [Grammar.size_push]
    exact more

theorem kind_push (g : Grammar) (node : Node) (id : NodeId) :
    (g.push node).kind id = if id = g.size then node.kind else g.kind id := by
  rw [Grammar.kind, node_push]
  split <;> rfl

theorem name_push (g : Grammar) (node : Node) (id : NodeId) :
    (g.push node).name id = if id = g.size then node.name else g.name id := by
  rw [Grammar.name, node_push]
  split <;> rfl

theorem getElem?_push_of_some {id : NodeId} {node row : Node} (found : g.nodes[id]? = some row) :
    (g.push node).nodes[id]? = some row := by
  obtain ⟨inside, _⟩ := Grammar.getElem?_eq_some_iff.mp found
  rw [Grammar.push, Array.getElem?_push_lt inside, ← Array.getElem?_eq_getElem inside, found]

theorem getElem?_push_size (g : Grammar) (node : Node) : (g.push node).nodes[g.size]? = some node :=
  Array.getElem?_push_size

/-- The edges of a node that is added come last. -/
theorem edges_push (g : Grammar) (node : Node) :
    edges (g.push node).nodes.toList = edges g.nodes.toList ++ node.kind.children := by
  rw [Grammar.push, Array.toList_push, edges_concat]

/-- A name that is set changes the name of its node and nothing else in the graph. -/
theorem node_setName (g : Grammar) (id other : NodeId) (name : String) (inside : other < g.size) :
    (g.setName id name).node other = if id = other then ⟨some name, g.kind id⟩ else g.node other := by
  have within : other < g.nodes.size := inside
  rw [Grammar.node, Grammar.setName, Array.getD_eq_getD_getElem?, Array.getElem?_modify,
    Array.getElem?_eq_getElem within]
  split
  · next same =>
    subst same
    rw [Option.map_some, Option.getD_some, Grammar.kind, Grammar.node, Array.getD_eq_getD_getElem?,
      Array.getElem?_eq_getElem within, Option.getD_some]
  · rw [Grammar.node, Array.getD_eq_getD_getElem?, Array.getElem?_eq_getElem within]

theorem kind_setName (g : Grammar) (id other : NodeId) (name : String) :
    (g.setName id name).kind other = g.kind other := by
  by_cases inside : other < g.size
  · rw [Grammar.kind, node_setName g id other name inside]
    split
    · next same => rw [same]
    · rfl
  · rw [Grammar.kind_of_size_le (Nat.not_lt.mp inside), Grammar.kind_of_size_le]
    rw [Grammar.size_setName]
    exact Nat.not_lt.mp inside

theorem children_setName (g : Grammar) (id other : NodeId) (name : String) :
    (g.setName id name).children other = g.children other :=
  congrArg Kind.children (kind_setName g id other name)

theorem getElem?_setName_of_ne {id other : NodeId} (differ : id ≠ other) :
    (g.setName id name).nodes[other]? = g.nodes[other]? := by
  rw [Grammar.setName, Array.getElem?_modify, if_neg differ]

theorem getElem?_setName_self {id : NodeId} {row : Node} (found : g.nodes[id]? = some row) :
    (g.setName id name).nodes[id]? = some ⟨some name, row.kind⟩ := by
  rw [Grammar.setName, Array.getElem?_modify, if_pos rfl, found]
  rfl

/-- Names are no edges. -/
theorem edges_setName (g : Grammar) (id : NodeId) (name : String) :
    edges (g.setName id name).nodes.toList = edges g.nodes.toList := by
  have kinds : (g.setName id name).nodes.toList.map Node.kind = g.nodes.toList.map Node.kind := by
    refine List.ext_getElem? fun i => ?_
    rw [List.getElem?_map, List.getElem?_map, Array.getElem?_toList, Array.getElem?_toList, Grammar.setName,
      Array.getElem?_modify]
    split
    · cases g.nodes[i]? <;> rfl
    · rfl
  have through : ∀ rows : List Node, edges rows = (rows.map Node.kind).flatMap Kind.children := fun rows =>
    (List.flatMap_map ..).symm
  rw [through, kinds, ← through]

/-! ## What holds on the way -/

/-- A grammar with some bodies of rules in it, and some nodes that are not used yet. -/
structure Laid (g : Grammar) (bodies : List (String × NodeId)) (spare : List NodeId) : Prop where
  inside : ∀ id ∈ bodies.map Prod.snd ++ spare, id < g.size
  backward : ∀ {a c}, c ∈ g.children a → c < a
  once : ∀ {id}, (g.kind id).isReference = false →
    (edges g.nodes.toList ++ (bodies.map Prod.snd ++ spare)).count id ≤ 1
  named : ∀ {id name}, g.name id = some name →
    (name, id) ∈ bodies ∨ ∃ text, g.kind id = .exactly text ∧ name = "'" ++ text

/-- A draft has one placeholder for each name that it is asked for, and knows where it is. -/
structure Draft.Indexed (P : String → Prop) (d : Draft) : Prop where
  placeholder : ∀ {name id}, (name, id) ∈ d.placeholders → Placeholder d.grammar id name
  listed : ∀ {name id}, d.grammar.kind id = .reference name → (name, id) ∈ d.placeholders
  keys : (d.placeholders.map Prod.fst).Nodup
  asked : ∀ {name id}, (name, id) ∈ d.placeholders → P name

/-- At the beginning nothing is asked for and nothing is there. -/
theorem Draft.Indexed.empty : ({} : Draft).Indexed P where
  placeholder := nofun
  listed kind := by
    rw [Grammar.kind_of_size_le (Nat.zero_le _)] at kind
    cases kind
  keys := List.nodup_nil
  asked := nofun

/-- There is one placeholder for a name. -/
theorem Draft.Indexed.shared {a b : NodeId} (indexed : d.Indexed P) (first : d.grammar.kind a = .reference name)
    (second : d.grammar.kind b = .reference name) : a = b :=
  congrArg Prod.snd (List.inj_on_of_nodup_map indexed.keys (indexed.listed first) (indexed.listed second) rfl)

namespace Laid

theorem empty : Laid {} [] [] where
  inside := nofun
  backward child := by
    rw [Grammar.children_of_size_le (Nat.zero_le _)] at child
    cases child
  once _ := Nat.zero_le 1
  named known := by
    rw [Grammar.name, Grammar.node_of_size_le (Nat.zero_le _)] at known
    cases known

/-- The order in which nodes are spare does not matter. -/
theorem perm (laid : Laid g bodies spare) {other : List NodeId} (perm : spare.Perm other) : Laid g bodies other where
  inside := by
    intro id mem
    exact laid.inside id ((perm.append_left _).mem_iff.mpr mem)
  backward := laid.backward
  once proper := ((perm.append_left _).append_left _).count_eq _ ▸ laid.once proper
  named := laid.named

/-- All children, bodies and spare nodes are there. -/
theorem lt_size (laid : Laid g bodies spare) : ∀ id ∈ edges g.nodes.toList ++
    (bodies.map Prod.snd ++ spare), id < g.size := by
  intro id mem
  rcases List.mem_append.mp mem with child | held
  · obtain ⟨a, edge⟩ := mem_edges_iff.mp child
    exact Nat.lt_trans (laid.backward edge) (Grammar.Edge.lt_size edge)
  · exact laid.inside id held

/-- A new node takes its children from what is spare, and is spare itself. -/
theorem push {kind : Kind} (laid : Laid g bodies (kind.children ++ spare)) :
    Laid (g.push ⟨none, kind⟩) bodies (g.size :: spare) where
  inside := by
    intro id mem
    rw [Grammar.size_push]
    rw [List.mem_append, List.mem_cons] at mem
    have old := laid.inside id
    rw [List.mem_append, List.mem_append] at old
    rcases mem with body | rfl | rest
    · exact Nat.lt_succ_of_lt (old (.inl body))
    · exact Nat.lt_succ_self _
    · exact Nat.lt_succ_of_lt (old (.inr (.inr rest)))
  backward := by
    intro a c child
    rw [Grammar.children, kind_push] at child
    split at child
    · next same =>
      rw [same]
      exact laid.inside c (List.mem_append_right _ (List.mem_append_left _ child))
    · exact laid.backward child
  once := by
    intro id proper
    simp only [edges_push, List.count_append, List.count_cons]
    by_cases new : id = g.size
    · have absent := List.count_eq_zero_of_not_mem fun mem => Nat.lt_irrefl _ (new ▸ laid.lt_size id mem)
      simp only [List.count_append] at absent
      split <;> omega
    · rw [if_neg (by simpa using Ne.symm new)]
      rw [kind_push, if_neg new] at proper
      have single := laid.once proper
      simp only [List.count_append] at single
      omega
  named := by
    intro id name known
    rw [name_push] at known
    split at known
    · cases known
    · next old =>
      rw [kind_push, if_neg old]
      exact laid.named known

/-- A node gets a name that it may have. -/
theorem setName {id : NodeId} (laid : Laid g bodies spare)
    (known : (name, id) ∈ bodies ∨ ∃ text, g.kind id = .exactly text ∧ name = "'" ++ text) :
    Laid (g.setName id name) bodies spare where
  inside := by
    rw [Grammar.size_setName]
    exact laid.inside
  backward := by
    intro a c child
    rw [children_setName] at child
    exact laid.backward child
  once := by
    intro other proper
    rw [kind_setName] at proper
    rw [edges_setName]
    exact laid.once proper
  named := by
    intro other called own
    rw [kind_setName]
    by_cases inside : other < g.size
    · rw [Grammar.name, node_setName g id other name inside] at own
      split at own
      · next same =>
        cases own
        rw [← same]
        exact known
      · exact laid.named own
    · rw [Grammar.name, Grammar.node_of_size_le] at own
      · cases own
      · rw [Grammar.size_setName]
        exact Nat.not_lt.mp inside

/-- A spare node becomes a body. -/
theorem body {id : NodeId} (laid : Laid g bodies (id :: spare)) (name : String) : Laid g
    (bodies ++ [(name, id)]) spare := by
  have same : (bodies ++ [(name, id)]).map Prod.snd ++ spare = bodies.map Prod.snd ++ id :: spare := by
    rw [List.map_append, List.append_assoc]
    rfl
  refine ⟨?_, laid.backward, ?_, fun own => (laid.named own).imp_left (List.mem_append_left _)⟩
  · rw [same]
    exact laid.inside
  · rw [same]
    exact laid.once

end Laid

namespace Draft

/-! ## Steps -/

/-- The nodes that are there stay as they are. -/
def Grows (d d' : Draft) : Prop :=
  ∀ (id : NodeId) (row : Node), d.grammar.nodes[id]? = some row → d'.grammar.nodes[id]? = some row

theorem Grows.trans (first : Grows d d') (second : Grows d' d'') : Grows d d'' :=
  fun id row found => second id row (first id row found)

/-- A node that is added leaves the rows before it as they are. -/
theorem grows_add (d : Draft) (kind : Kind) : Grows d (d.add kind).1 :=
  fun _ _ => getElem?_push_of_some

/-- A step keeps the nodes that are there. It uses some that are spare, and makes some more. -/
structure Spends (P : String → Prop) (d : Draft) (used : List NodeId) (d' : Draft) (made : List NodeId) : Prop where
  grows : Grows d d'
  indexed : d.Indexed P → d'.Indexed P
  laid : d.Indexed P → ∀ {bodies spare}, Laid d.grammar bodies (used ++ spare) → Laid d'.grammar bodies (made ++ spare)

namespace Spends

variable {used used' made made' : List NodeId}

theorem refl (d : Draft) (used : List NodeId) : Spends P d used d used :=
  ⟨fun _ _ found => found, fun indexed => indexed, fun _ _ _ laid => laid⟩

theorem trans (first : Spends P d used d' made) (second : Spends P d' made d'' made') : Spends P d used d'' made' where
  grows := first.grows.trans second.grows
  indexed indexed := second.indexed (first.indexed indexed)
  laid indexed _ _ laid := second.laid (first.indexed indexed) (first.laid indexed laid)

/-- Steps that use different nodes go one behind the other. -/
theorem append (first : Spends P d used d' made) (second : Spends P d' used' d'' made') :
    Spends P d (used ++ used') d'' (made ++ made') where
  grows := first.grows.trans second.grows
  indexed indexed := second.indexed (first.indexed indexed)
  laid indexed bodies spare laid := by
    rw [List.append_assoc] at laid
    have next := first.laid indexed laid
    have last := second.laid (first.indexed indexed) (next.perm (List.perm_append_comm_assoc ..))
    rw [List.append_assoc]
    exact last.perm (List.perm_append_comm_assoc ..)

end Spends

/-! ## One step after the other -/

/-- Naming keeps the index of placeholders, since it is no placeholder that is named. -/
theorem Indexed.named {id : NodeId} (indexed : d.Indexed P) (proper : (d.grammar.kind id).isReference = false)
    (name : String) :
    (d.named id name).Indexed P where
  placeholder := by
    intro target other mem
    have found := indexed.placeholder mem
    have differ : id ≠ other := by
      rintro rfl
      rw [Grammar.kind, (Grammar.getElem?_eq_some_iff.mp found).2] at proper
      cases proper
    exact (getElem?_setName_of_ne differ).trans found
  listed kind := indexed.listed ((kind_setName ..).symm.trans kind)
  keys := indexed.keys
  asked := indexed.asked

/-- A node that is added spends the nodes that it is made of, and is new itself. -/
theorem spends_add (kind : Kind) (d : Draft) (proper : kind.isReference = false) :
    Spends P d kind.children (d.add kind).1 [(d.add kind).2] where
  grows := grows_add d kind
  indexed indexed := by
    refine ⟨fun mem => getElem?_push_of_some (indexed.placeholder mem), fun {name id} known => ?_, indexed.keys,
      indexed.asked⟩
    replace known : (d.grammar.push ⟨none, kind⟩).kind id = .reference name := known
    rw [kind_push] at known
    split at known
    · rw [show kind = .reference name from known] at proper
      cases proper
    · exact indexed.listed known
  laid _ _ _ laid := laid.push

/-- A literal spends nothing, whether it gets a name or not. -/
theorem spends_addLiteral (d : Draft) (text : String) : Spends P d [] (d.addLiteral text).1
    [(d.addLiteral text).2] := by
  have added : Spends P d [] (d.add (.exactly text)).1 [(d.add (.exactly text)).2] :=
    spends_add (.exactly text) d rfl
  have kind : (d.grammar.push ⟨none, .exactly text⟩).kind d.grammar.size = .exactly text := by
    rw [kind_push, if_pos rfl]
  unfold addLiteral
  dsimp only
  split
  · exact added
  · refine ⟨fun id row found => ?_, fun indexed => ?_, fun indexed _ _ laid => ?_⟩
    · have old := (Grammar.getElem?_eq_some_iff.mp found).1
      exact (getElem?_setName_of_ne (Nat.ne_of_gt old)).trans (added.grows id row found)
    · exact (added.indexed indexed).named (congrArg Kind.isReference kind) _
    · exact (added.laid indexed laid).setName (.inr ⟨text, kind, rfl⟩)

/-- What is found under a name is listed under it. -/
theorem mem_placeholders_of_lookup {id : NodeId} (found : d.placeholders.lookup name = some id) :
    (name, id) ∈ d.placeholders := by
  obtain ⟨before, after, split, _⟩ := List.lookup_eq_some_iff.mp found
  rw [split]
  exact List.mem_append_right _ List.mem_cons_self

/-- A placeholder is new where its name was not asked for before. -/
theorem Indexed.placeholder_new (indexed : d.Indexed P) (free : name ∉ d.placeholders.map Prod.fst) (asked : P name) :
    Indexed P
      ⟨d.grammar.push ⟨none, .reference name⟩, d.placeholders ++ [(name, d.grammar.size)]⟩ := by
  refine ⟨fun {target id} mem => ?_, fun {target id} kind => ?_, ?_, fun {target id} mem => ?_⟩
  · rcases List.mem_append.mp mem with old | new
    · exact getElem?_push_of_some (indexed.placeholder old)
    · cases List.mem_singleton.mp new
      exact getElem?_push_size ..
  · rw [kind_push] at kind
    split at kind
    · next new =>
      cases kind
      rw [new]
      exact List.mem_append_right _ List.mem_cons_self
    · exact List.mem_append_left _ (indexed.listed kind)
  · rw [List.map_append, List.nodup_append]
    refine ⟨indexed.keys, List.pairwise_singleton _ _, fun a mem b single same => free ?_⟩
    obtain rfl : b = name := List.mem_singleton.mp single
    rwa [← same]
  · rcases List.mem_append.mp mem with old | new
    · exact indexed.asked old
    · cases List.mem_singleton.mp new
      exact asked

/-- A placeholder spends nothing; it is new only where its name was not asked for before. -/
theorem spends_placeholder (d : Draft) (asked : P name) :
    Spends P d [] (d.placeholder name).1 [(d.placeholder name).2] := by
  unfold placeholder
  cases found : d.placeholders.lookup name with
  | some id =>
    have mem := mem_placeholders_of_lookup found
    refine ⟨fun _ _ found => found, fun indexed => indexed, fun indexed _ _ laid => ?_⟩
    obtain ⟨inside, node⟩ := Grammar.getElem?_eq_some_iff.mp (indexed.placeholder mem)
    refine ⟨?_, laid.backward, ?_, laid.named⟩
    · intro other held
      rw [List.mem_append, List.singleton_append, List.mem_cons] at held
      rcases held with body | rfl | rest
      · exact laid.inside other (List.mem_append_left _ body)
      · exact inside
      · exact laid.inside other (List.mem_append_right _ rest)
    · -- a placeholder may be used as often as it is asked for, so it is no matter that it is held again
      intro other proper
      have differ : id ≠ other := by
        rintro rfl
        rw [Grammar.kind, node] at proper
        cases proper
      have single := laid.once proper
      simp only [List.nil_append, List.singleton_append, List.count_append, List.count_cons_of_ne differ] at single ⊢
      exact single
  | none =>
    refine ⟨grows_add d _, fun indexed => ?_, fun _ _ _ laid => laid.push⟩
    refine indexed.placeholder_new (fun mem => ?_) asked
    obtain ⟨entry, listed, same⟩ := List.mem_map.mp mem
    have differ := List.lookup_eq_none_iff.mp found entry listed
    rw [same, bne_self_eq_false] at differ
    cases differ

/-- A modifier spends the node that it stands at, and makes one in its stead. -/
theorem spends_repeated (d : Draft) (id : NodeId) (modifier : Option String) :
    Spends P d [id] (d.repeated id modifier).1 [(d.repeated id modifier).2] := by
  unfold repeated
  split
  · exact spends_add (.repetition id) d rfl
  · exact (spends_add (.repetition id) d rfl).trans (spends_add (.optional _) _ rfl)
  · exact spends_add (.optional id) d rfl
  · exact .refl d [id]

/-- Both marks together spend the node that they stand at, and make one in its stead. -/
theorem spends_marked (d : Draft) (id : NodeId) (modifier : Option String) (negated : Bool) :
    Spends P d [id] (d.marked id modifier negated).1 [(d.marked id modifier negated).2] := by
  have repeats : Spends P d [id] _ _ := spends_repeated d id modifier
  unfold marked
  dsimp only
  split
  · exact repeats.trans (spends_add (.negation _) _ rfl)
  · exact repeats

/-- A sequence spends its parts; a single part is passed on, as the node that was spent and made. -/
theorem spends_addSequence (d : Draft) (parts : List NodeId) :
    Spends P d parts (d.addSequence parts).1 [(d.addSequence parts).2] := by
  unfold addSequence
  split
  · exact .refl d _
  · exact spends_add (.sequence _) d rfl

/-- The groups between bars are spent one after the other. -/
theorem spends_addSequences (groups : List (List NodeId)) (d : Draft) :
    Spends P d groups.flatten (d.addSequences groups).1 (d.addSequences groups).2 := by
  induction groups generalizing d with
  | nil => exact .refl d []
  | cons parts groups ih => exact (spends_addSequence d parts).append (ih _)

/-- A choice spends its alternatives, and passes a single one on. -/
theorem spends_addChoice (d : Draft) (alternatives : List NodeId) :
    Spends P d alternatives (d.addChoice alternatives).1 [(d.addChoice alternatives).2] := by
  unfold addChoice
  split
  · exact .refl d _
  · exact spends_add (.choice _) d rfl

/-- Alternatives spend all that stands in their groups. -/
theorem spends_addAlternatives (d : Draft) (groups : List (List NodeId)) :
    Spends P d groups.flatten (d.addAlternatives groups).1 [(d.addAlternatives groups).2] :=
  (spends_addSequences groups d).trans (spends_addChoice _ _)

/-! ## Tokens and rows -/

mutual

/-- **A written expression spends nothing that was there** and makes one node, whatever the names that it mentions. -/
theorem spends_write : ∀ (e : Expression) (d : Draft), (∀ name ∈ e.mentioned, P name) →
    Spends P d [] (d.write e).1 [(d.write e).2]
  | .literal text, d, _ => spends_addLiteral d text
  | .charSet members negated, d, _ => spends_add (.oneOf members negated) d rfl
  | .charRange low high negated, d, _ => spends_add (.charRange low high negated) d rfl
  | .endOfInput, d, _ => spends_add .endOfInput d rfl
  | .rule _, d, asked => spends_placeholder d (asked _ List.mem_cons_self)
  | .sequence parts, d, asked => (spends_writeAll parts d asked).trans (spends_add (.sequence _) _ rfl)
  | .choice parts, d, asked => (spends_writeAll parts d asked).trans (spends_add (.choice _) _ rfl)
  | .repetition inner, d, asked => (spends_write inner d asked).trans (spends_add (.repetition _) _ rfl)
  | .optional inner, d, asked => (spends_write inner d asked).trans (spends_add (.optional _) _ rfl)
  | .negation inner, d, asked => (spends_write inner d asked).trans (spends_add (.negation _) _ rfl)

theorem spends_writeAll : ∀ (es : List Expression) (d : Draft), (∀ name ∈ Expression.listMentioned es, P name) →
    Spends P d [] (d.writeAll es).1 (d.writeAll es).2
  | [], d, _ => .refl d []
  | e :: es, d, asked =>
    (spends_write e d fun name mem => asked name (List.mem_append_left _ mem)).append
      (spends_writeAll es _ fun name mem => asked name (List.mem_append_right _ mem))

end

mutual

/-- The tokens of a part are written one by one, and their numbers are what is made. -/
theorem spends_number : ∀ (p : Part Expression) (d : Draft), (∀ e ∈ p.tokens, ∀ name ∈ e.mentioned, P name) →
    Spends P d [] (d.number p).1 (d.number p).2.tokens
  | .bar, d, _ => .refl d []
  | .token e, d, asked => spends_write e d (asked e List.mem_cons_self)
  | .group _ row, d, asked => spends_numberAll row d asked

theorem spends_numberAll : ∀ (row : List (Part Expression)) (d : Draft),
    (∀ e ∈ Part.listTokens row, ∀ name ∈ e.mentioned, P name) →
    Spends P d [] (d.numberAll row).1 (Part.listTokens (d.numberAll row).2)
  | [], d, _ => .refl d []
  | p :: ps, d, asked =>
    (spends_number p d fun e mem => asked e (List.mem_append_left _ mem)).append
      (spends_numberAll ps _ fun e mem => asked e (List.mem_append_right _ mem))

end

/-- So are those of all rules, before any rule is folded. -/
theorem spends_numberStated : ∀ (ss : List (Stated Expression)) (d : Draft),
    (∀ s ∈ ss, ∀ e ∈ Part.listTokens s.row, ∀ name ∈ e.mentioned, P name) →
    Spends P d [] (d.numberStated ss).1 ((d.numberStated ss).2.flatMap fun s => Part.listTokens s.row)
  | [], d, _ => .refl d []
  | s :: ss, d, asked =>
    (spends_numberAll s.row d (asked s List.mem_cons_self)).append
      (spends_numberStated ss _ fun s mem => asked s (List.mem_cons_of_mem _ mem))

/-- Between the bars stands what is not a bar. -/
theorem flatten_between (entries : List (Option NodeId)) : (between entries).flatten = entries.filterMap id := by
  rw [between, ← List.filterMap_flatten, ParseTree.flatten_splitOn, List.filterMap_filter]
  refine List.filterMap_congr fun entry _ => ?_
  cases entry <;> rfl

/-- Closing a group spends the nodes of its entries. -/
theorem spends_close (d : Draft) (marks : Marks) (entries : List (Option NodeId)) :
    Spends P d (entries.filterMap id) (d.close marks entries).1 [(d.close marks entries).2] := by
  rw [← flatten_between]
  exact (spends_addAlternatives d (between entries)).trans (spends_marked _ _ _ _)

mutual

/-- A part that is entered spends the numbers of its tokens, each once. -/
theorem spends_enter : ∀ (p : Part NodeId) (d : Draft), Spends P d p.tokens (d.enter p).1 (d.enter p).2.toList
  | .bar, d => .refl d []
  | .token id, d => .refl d [id]
  | .group marks row, d => (spends_enterAll row d).trans (spends_close _ marks _)

theorem spends_enterAll : ∀ (row : List (Part NodeId)) (d : Draft),
    Spends P d (Part.listTokens row) (d.enterAll row).1 ((d.enterAll row).2.filterMap id)
  | [], d => .refl d []
  | p :: ps, d => by
    have both := (spends_enter p d).append (spends_enterAll ps (d.enter p).1)
    rw [enterAll]
    dsimp only
    cases entry : (d.enter p).2 <;> rw [entry] at both <;> exact both

end

/-- **A folded row spends its tokens**, and makes one node, its body. -/
theorem spends_foldRow (d : Draft) (row : List (Part NodeId)) :
    Spends P d (Part.listTokens row) (d.foldRow row).1 [(d.foldRow row).2] := by
  have enters : Spends P d (Part.listTokens row) (d.enterAll row).1 (between (d.enterAll row).2).flatten := by
    rw [flatten_between]
    exact spends_enterAll row d
  exact enters.trans (spends_addAlternatives _ _)

end Draft

end BnfTokenizer.Dialect
