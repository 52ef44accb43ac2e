import BnfTokenizer.Proofs.Dialect.Dumping
import BnfTokenizer.Proofs.Dialect.Sentences
import BnfTokenizer.Proofs.Grammar.Defects

/-!
# Dumping undoes compiling

The written form of a compiled grammar is read as rules that say what the nodes of the grammar stand for. Compiled
again they are given other addresses, but nodes that stand for the same are matched from the roots on, and as nothing
stands in two places they are twins.
-/

namespace BnfTokenizer.Dialect

open Grammar (Kind Node Matched)

variable {rules : List Rule} {g h drafted : Grammar} {table : RuleTable} {root : NodeId} {visited : NodeId → Prop}

/-! ## Nodes that stand for the same -/

/-- Two nodes, each in its grammar, stand for the same expression under the same name. -/
def Same (g h : Grammar) (mention mention' : NodeId → String → Prop) (a b : NodeId) : Prop :=
  ∃ name, ∃ e : Expression, (∀ target, e ≠ .rule target) ∧ e.Stands g mention a name ∧ e.Stands h mention' b name

section

variable {mention mention' : NodeId → String → Prop} {a b : NodeId}

variable (bodies : ∀ a b name, mention a name → mention' b name → Same g h mention mention' a b)

include bodies

theorem same_part {e : Expression} (first : e.Stands g mention a e.ownName) (second : e.Stands h mention' b e.ownName) :
    Same g h mention mention' a b := by
  by_cases bare : ∃ target, e = .rule target
  · obtain ⟨target, rfl⟩ := bare
    exact bodies a b target first second
  · exact ⟨_, e, fun target same => bare ⟨target, same⟩, first, second⟩

/-- Nodes that stand for the same are alike, and so are their children in turn. -/
theorem Same.matched (same : Same g h mention mention' a b) : Matched g h (Same g h mention mention') a b := by
  obtain ⟨name, e, whole, first, second⟩ := same
  exact first.matched (fun _ _ _ => same_part bodies) whole second

end

/-! ## Rules that were written out -/

theorem eq_of_resolves (tabled : Tabled rules drafted table) (proper : Proper rules) {rule : Rule} {id t : NodeId}
    (body : BodyOf rules drafted table rule id) (resolves : table.Resolves drafted rule.name t) : t = id := by
  have known := body.get? tabled proper.distinct
  cases resolves with
  | body known' _ => exact Option.some.inj (known'.symm.trans known)
  | via known' kind _ =>
    cases known'.symm.trans known
    have isProper := body.proper
    rw [kind] at isProper
    cases isProper

section

variable (restates : Restates g root rules) (tabled : Tabled rules drafted table)

include restates tabled

/-- A listed node has a rule, and the rule has a body. -/
theorem Restates.body {id : NodeId} (mem : id ∈ g.rules root) :
    ∃ rule id', BodyOf rules drafted table rule id' ∧ Restated g (g.rules root) id rule := by
  obtain ⟨rule, listed, restated⟩ := restates.every id mem
  obtain ⟨id', body⟩ := BodyOf.exists_of_whole tabled listed restated.whole
  exact ⟨rule, id', body, restated⟩

theorem Restates.body_of_mentioned {id : NodeId} {name : String} (mentioned : Mentioned g (g.rules root) id name) :
    ∃ rule id', BodyOf rules drafted table rule id' ∧ Restated g (g.rules root) id rule ∧ rule.name = name := by
  obtain ⟨rule, id', body, restated⟩ := restates.body tabled mentioned.1
  exact ⟨rule, id', body, restated, Option.some.inj (restated.name.symm.trans mentioned.2)⟩

/-- Every name that is mentioned is the name of a body. -/
theorem Restates.allNames (inside : root ∈ g.rules root) {rule : Rule} (mem : rule ∈ rules) :
    rule.body.AllNames fun name => ∃ rule id, BodyOf rules drafted table rule id ∧ rule.name = name := by
  have defined : ∀ id name, Mentioned g (g.rules root) id name →
      ∃ rule id, BodyOf rules drafted table rule id ∧ rule.name = name := by
    intro id name mentioned
    obtain ⟨rule, id', body, _, same⟩ := restates.body_of_mentioned tabled mentioned
    exact ⟨rule, id', body, same⟩
  rcases restates.only rule mem with ⟨id, _, restated⟩ | ⟨_, name, bare, named, _⟩
  · exact Expression.allNames_of_stands defined rule.body restated.stands
  · rw [bare]
    exact defined root name ⟨inside, named⟩

/-- Every placeholder leads to a body. -/
theorem Restates.target (inside : root ∈ g.rules root) (owner : String) (id : NodeId) :
    ∃ target, table.target drafted owner id = .ok target := by
  cases kind : drafted.kind id with
  | reference name =>
    obtain ⟨_, mem, mentioned⟩ := tabled.asked kind
    obtain ⟨rule, body, is, rfl⟩ := (Expression.allNames_iff _).mp (restates.allNames tabled inside mem) name mentioned
    refine ⟨body, ?_⟩
    rw [RuleTable.target, kind]
    exact RuleTable.resolveFrom_of_proper _ (is.get? tabled restates.distinct) is.proper
  | _ =>
    refine ⟨id, ?_⟩
    rw [RuleTable.target, kind]

/-- No chain of aliases comes back. -/
theorem Restates.checkAliases (inside : root ∈ g.rules root) : table.checkAliases drafted = .ok () := by
  have stops : ∀ {rule id}, BodyOf rules drafted table rule id → ∀ fuel chain,
      table.circularFrom? drafted fuel chain id = none := by
    intro rule id body fuel chain
    have isProper := body.proper
    cases fuel with
    | zero => rfl
    | succ fuel =>
      rw [RuleTable.circularFrom?]
      split
      · next kind =>
        rw [kind] at isProper
        cases isProper
      · rfl
  have clear : table.circularChain? drafted = none := by
    rw [RuleTable.circularChain?, List.findSome?_eq_none_iff]
    rintro ⟨name, id⟩ listed
    dsimp only
    obtain ⟨rule, mem, rfl, stands⟩ := tabled.exists_rule listed
    -- The one alias there may be is the line in front, and it leads to a rule that is none.
    rcases restates.only rule mem with ⟨_, _, restated⟩ | ⟨isRoot, name, bare, named, differs⟩
    · rw [bodyName_of_whole restated.whole] at stands
      exact stops ⟨mem, listed, restated.whole, stands⟩ _ _
    · obtain ⟨other, id', body, _, rfl⟩ := restates.body_of_mentioned tabled ⟨inside, named⟩
      have fresh : [rule.name].contains other.name = false := by
        rw [isRoot, ← Bool.not_eq_true, List.contains_iff_mem, List.mem_singleton]
        exact differs
      rw [RuleTable.circularFrom?, kind_of_rule bare stands]
      dsimp only
      rw [fresh, body.get? tabled restates.distinct]
      exact stops body _ _
  rw [RuleTable.checkAliases, clear]

/-- The root of the rules is the body of the rule that says what the root stands for. -/
theorem Restates.rooted (inside : root ∈ g.rules root) :
    ∃ rule id, BodyOf rules drafted table rule id ∧ Restated g (g.rules root) root rule ∧
      table.root drafted = .ok id := by
  obtain ⟨rule, id, body, restated⟩ := restates.body tabled inside
  refine ⟨rule, id, body, restated, ?_⟩
  have isProper := body.proper
  rw [RuleTable.root]
  rcases restates.root with named | ⟨name, named, _, listed⟩
  · have same : RuleTable.rootName = rule.name := Option.some.inj (named.symm.trans restated.name)
    rw [same, body.get? tabled restates.distinct]
    dsimp only
    split
    · next kind =>
      rw [kind] at isProper
      cases isProper
    · rfl
  · cases restated.name.symm.trans named
    obtain ⟨front, entry, stands⟩ := tabled.exists_entry listed
    have known := (tabled.get?_iff restates.distinct).mpr entry
    dsimp only at known
    rw [known]
    dsimp only
    rw [kind_of_rule rfl stands]
    exact RuleTable.resolveFrom_of_proper _ (body.get? tabled restates.distinct) body.proper

end

/-! ## Compiling again -/

theorem ofGrammar_of_sound {root : NodeId} (sound : g.defect? root = none) :
    ∃ lexer, Lexer.ofGrammar g root = .ok lexer ∧ lexer.grammar = g ∧ lexer.root = root := by
  unfold Lexer.ofGrammar
  split
  · exact ⟨_, rfl, rfl, rfl⟩
  · next defect found =>
    rw [sound] at found
    cases found

theorem ofGrammar_ok {root : NodeId} {lexer : Lexer} (done : Lexer.ofGrammar g root = .ok lexer) :
    lexer.grammar = g ∧ lexer.root = root := by
  unfold Lexer.ofGrammar at done
  split at done
  · cases done
    exact ⟨rfl, rfl⟩
  · cases done

/-- What is assembled from rules is linked, and its root is the body of the root rule. -/
theorem assembled_of_assemble (proper : Proper rules) (tabled : Tabled rules drafted table) {lexer : Lexer}
    (done : assemble drafted table = .ok lexer) :
    ∃ visited, Assembled rules drafted table lexer.root visited lexer.grammar := by
  unfold assemble at done
  split at done
  · cases done
  · split at done
    · cases done
    · next root rooted =>
      split at done
      · cases done
      · next linked link =>
        cases made : Lexer.ofGrammar linked root with
        | error defect =>
          rw [made] at done
          cases done
        | ok own =>
          rw [made] at done
          cases done
          obtain ⟨visited, linked⟩ := RuleTable.linked_of_link link
          obtain ⟨rfl, rfl⟩ := ofGrammar_ok made
          exact ⟨visited, proper, tabled, rooted, linked⟩

theorem assembled_of_compile {limits : Match.Limits} {source : String} {lexer : Lexer}
    (compiled : compile limits source = .ok lexer) :
    ∃ rules drafted table visited, Assembled rules drafted table lexer.root visited lexer.grammar := by
  unfold compile at compiled
  split at compiled
  · cases compiled
  · next tree parsed =>
    split at compiled
    · cases compiled
    · next drafted table lowered =>
      obtain ⟨rules, _, proper, tabled⟩ := tabled_of_lower parsed lowered
      exact ⟨rules, drafted, table, assembled_of_assemble proper tabled compiled⟩

/-- Where the rules of a linked grammar are listed, what stands for a name that is mentioned is the body of its
rule, in one grammar and in the other. -/
theorem same_bodies {rules' : List Rule} {root' : NodeId} {visited' : NodeId → Prop}
    (restates : Restates g root rules') (again : Assembled rules' drafted table root' visited' h) (a b : NodeId)
    (name : String) (mentioned : Mentioned g (g.rules root) a name) (known : Known drafted table visited' b name) :
    Same g h (Mentioned g (g.rules root)) (Known drafted table visited') a b := by
  obtain ⟨rule, id, body, restated, rfl⟩ := restates.body_of_mentioned again.tabled mentioned
  obtain rfl := eq_of_resolves again.tabled again.proper body known.1.1
  exact ⟨_, rule.body, restated.whole, restated.stands, again.stands body known.1.2⟩

/-- Rules that say what the nodes of a linked grammar stand for are assembled to the same. -/
theorem Assembled.again (assembled : Assembled rules drafted table root visited g) (sound : g.defect? root = none)
    {rules' : List Rule} {drafted' : Grammar} {table' : RuleTable} (restates : Restates g root rules')
    (proper : Proper rules') (tabled : Tabled rules' drafted' table') :
    ∃ lexer, assemble drafted' table' = .ok lexer ∧ lexer.grammar.listing lexer.root = g.listing root := by
  have inside := assembled.root_mem_rules
  obtain ⟨rule, id, body, restated, rooted⟩ := restates.rooted tabled inside
  obtain ⟨final, link⟩ : ∃ final, table'.link drafted' id = .ok final :=
    RuleTable.link_of_leads (restates.target tabled inside)
  obtain ⟨visited', linked⟩ := RuleTable.linked_of_link link
  have again : Assembled rules' drafted' table' id visited' final := ⟨proper, tabled, rooted, linked⟩
  have start : Same g final (Mentioned g (g.rules root)) (Known drafted' table' visited') root id :=
    ⟨_, rule.body, restated.whole, restated.stands, again.stands body linked.root⟩
  obtain ⟨own, first, _⟩ := assembled.rootBody
  have twins := Grammar.twins_of_matched (placed_of_linked assembled.tabled assembled.proper assembled.linked first)
    (placed_of_linked tabled proper linked body) (fun _ _ same => same.matched (same_bodies restates again)) start
  have sound' : final.defect? id = none := (twins.defect?_eq .root).symm.trans sound
  obtain ⟨lexer, made, rfl, rfl⟩ := ofGrammar_of_sound sound'
  refine ⟨lexer, ?_, (twins.listing_eq .root).symm⟩
  rw [assemble, restates.checkAliases tabled inside]
  dsimp only
  rw [rooted]
  dsimp only
  rw [link]
  dsimp only
  rw [made]
  rfl

/-- **Dumping undoes compiling.** What a text compiled to is written out as a text that compiles to the same nodes in
the same order, under all limits that are large enough, and under all others unless one of them stops the reading. -/
theorem compile_restated {given : Match.Limits} {source : String} {lexer : Lexer}
    (compiled : compile given source = .ok lexer) :
    ∃ enough : Match.Limits, ∀ limits : Match.Limits,
      (∃ again, compile limits (restated lexer.grammar lexer.root) = .ok again ∧
        again.grammar.listing again.root = lexer.grammar.listing lexer.root) ∨
      ¬ (enough.fuel ≤ limits.fuel ∧ enough.depth ≤ limits.depth) ∧
        (compile limits (restated lexer.grammar lexer.root) = .error (.stopped .fuelExhausted) ∨
          compile limits (restated lexer.grammar lexer.root) = .error (.stopped .depthExceeded)) := by
  obtain ⟨rules, drafted, table, visited, assembled⟩ := assembled_of_compile compiled
  obtain ⟨sentences, rendered, restates⟩ := assembled.restates
  obtain ⟨cost, height, settles⟩ := rendered.rulesOf_parse
  rw [String.ofList_toList] at settles
  refine ⟨⟨cost, height⟩, fun limits => ?_⟩
  rcases settles limits with ⟨tree, parsed, read⟩ | ⟨fault, stopped, trips⟩
  · left
    obtain ⟨drafted', table', lowered, tabled⟩ := exists_tabled parsed read restates.distinct
    obtain ⟨again, made, same⟩ :=
      assembled.again lexer.sound restates (proper_of_rulesOf parsed read restates.distinct) tabled
    refine ⟨again, ?_, same⟩
    rw [compile, parsed]
    dsimp only
    rw [lowered]
    exact made
  · right
    refine ⟨fun large => Match.Fault.not_trips large.1 large.2 trips, ?_⟩
    have ended : compile limits (restated lexer.grammar lexer.root) = .error (.stopped fault) := by
      rw [compile, stopped]
    match fault, trips with
    | .fuelExhausted, _ => exact .inl ended
    | .depthExceeded, _ => exact .inr ended

/-- Nested brackets, with another name for the root. -/
def nested : String :=
  "root::=l\nl::=(\"(\"l*\")\")|[^a]"

theorem nested_restated : ∃ lexer, compile {} nested = .ok lexer ∧
    restated lexer.grammar lexer.root = "root ::= l\nl ::= \"(\" l* \")\" | [^a]\n" ∧
    ∃ enough : Match.Limits, ∀ limits : Match.Limits,
      let reading := compile limits (restated lexer.grammar lexer.root)
      (∃ again, reading = .ok again ∧ again.grammar.listing again.root = lexer.grammar.listing lexer.root) ∨
        ¬ (enough.fuel ≤ limits.fuel ∧ enough.depth ≤ limits.depth) ∧
          (reading = .error (.stopped .fuelExhausted) ∨ reading = .error (.stopped .depthExceeded)) := by
  have written : (compile {} nested).toOption.map (fun lexer => restated lexer.grammar lexer.root) =
      some "root ::= l\nl ::= \"(\" l* \")\" | [^a]\n" := by decide +kernel
  cases compiled : compile {} nested with
  | error error =>
    rw [compiled] at written
    cases written
  | ok lexer =>
    rw [compiled] at written
    exact ⟨lexer, rfl, Option.some.inj written, compile_restated compiled⟩

end BnfTokenizer.Dialect
