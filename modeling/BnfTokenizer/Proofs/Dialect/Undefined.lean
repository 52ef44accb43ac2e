import BnfTokenizer.Proofs.Dialect.Dependence
import BnfTokenizer.Proofs.Dialect.Mentions

/-!
# Reports of undefined rules

Linking goes along edges and through aliases, and it keeps track of the rule that it is in. Each node that waits is a
part of what that rule says (`PartOf`): a child of a part is a part of the same rule, and a body behind a name is a part
of the rule that has this body. So a name that is found to be undefined is mentioned by the rule that the report blames
(`Blamed`), at a placeholder of this rule or as what it is an alias for.

The other way round, where nothing is reported, every name that is needed stands for a body that linking visited
(`resolves_of_needed`).
-/

namespace BnfTokenizer.Dialect

variable {rules : List Rule} {g : Grammar} {table : RuleTable} {name owner : String} {id : NodeId}

/-! ## Parts of needed rules -/

/-- A node stands for a part of a needed rule that is more than a name. -/
structure PartOf (rules : List Rule) (g : Grammar) (owner : String) (id : NodeId) : Prop where
  needed : Needed rules owner
  part : ∃ rule ∈ rules, rule.name = owner ∧
    ∃ e own, PartAt g (Expression.Placeholder g) rule e id own

theorem BodyOf.partOf {rule : Rule} (body : BodyOf rules g table rule id) (needed : Needed rules rule.name) :
    PartOf rules g rule.name id :=
  ⟨needed, rule, body.mem, rfl, rule.body, _, .refl, body.whole, body.stands⟩

theorem PartOf.proper (part : PartOf rules g owner id) : (g.kind id).isReference = false := by
  obtain ⟨_, _, _, e, own, here⟩ := part.part
  obtain ⟨kind, row, proper⟩ := row_of_stands here.stands here.whole
  rwa [kind_of_row row]

/-- A child of a part is a part, or a placeholder for a name that the rule mentions. -/
theorem PartOf.child {child : NodeId} (part : PartOf rules g owner id) (edge : g.Edge id child) :
    PartOf rules g owner child ∨
      ∃ target, g.kind child = .reference target ∧ Mentions rules owner target := by
  obtain ⟨rule, mem, same, e, own, here⟩ := part.part
  rcases here.child edge with ⟨target, placeholder, mentioned⟩ | ⟨inner, below⟩
  · exact .inr ⟨target, kind_of_row placeholder, rule, mem, same, mentioned⟩
  · exact .inl ⟨part.needed, rule, mem, same, inner, _, below⟩

/-! ## Blame -/

/-- A report of a name that is not defined, mentioned by a rule that is needed. -/
def Blamed (rules : List Rule) (error : CompileError) : Prop :=
  ∃ name owner, error = .undefinedRule name owner ∧ name ∉ rules.map Rule.name ∧ Needed rules owner ∧
    Mentions rules owner name

theorem Tabled.get?_eq_none_iff (tabled : Tabled rules g table) (distinct : (rules.map Rule.name).Nodup) :
    table.get? name = none ↔ name ∉ rules.map Rule.name := by
  constructor
  · intro unknown mem
    obtain ⟨rule, listed, rfl⟩ := List.mem_map.mp mem
    obtain ⟨id, entry, _⟩ := tabled.exists_entry listed
    cases unknown.symm.trans ((tabled.get?_iff distinct).mpr entry)
  · intro free
    refine Option.eq_none_iff_forall_ne_some.mpr fun id known => free ?_
    obtain ⟨rule, mem, rfl, _⟩ := tabled.exists_rule ((tabled.get?_iff distinct).mp known)
    exact List.mem_map_of_mem mem

/-- **What comes of a needed name** is the body of a needed rule, or the blame is on a rule that mentions it. -/
theorem RuleTable.Resolution.blamed (tabled : Tabled rules g table) (distinct : (rules.map Rule.name).Nodup)
    {outcome : Except CompileError NodeId} (resolution : table.Resolution g name owner outcome)
    (needed : Needed rules name)
    (asked : table.get? name = none → Needed rules owner ∧ Mentions rules owner name) :
    (∀ id, outcome = .ok id → ∃ rule, BodyOf rules g table rule id ∧ Needed rules rule.name) ∧
      ∀ error, outcome = .error error → Blamed rules error := by
  induction resolution with
  | @missing name owner unknown =>
    refine ⟨nofun, ?_⟩
    rintro _ ⟨⟩
    exact ⟨name, owner, rfl, (tabled.get?_eq_none_iff distinct).mp unknown, asked unknown⟩
  | body known proper =>
    refine ⟨?_, nofun⟩
    rintro _ ⟨⟩
    obtain ⟨rule, body, rfl⟩ := BodyOf.of_mem tabled ((tabled.get?_iff distinct).mp known) proper
    exact ⟨rule, body, needed⟩
  | via known kind _ ih =>
    have mentions := (isAlias_of_kind tabled distinct known kind).mentions
    exact ih (needed.of_mentions distinct mentions) fun _ => ⟨needed, mentions⟩

section

variable (own : Checked rules g table)

include own

/-! ## Linking -/

/-- An edge of a part leads to a part of the rule that linking is in then, or the blame is on this rule. -/
theorem PartOf.target {child : NodeId} (part : PartOf rules g owner id) (edge : child ∈ g.children id) :
    (∀ t, table.target g owner child = .ok t →
        PartOf rules g ((table.ruleAt? t).getD owner) t) ∧
      ∀ error, table.target g owner child = .error error → Blamed rules error := by
  unfold RuleTable.target
  split
  · next target kind =>
    have mentions : Mentions rules owner target := by
      rcases part.child edge with below | ⟨other, kind', mentions⟩
      · have isProper := below.proper
        rw [kind] at isProper
        cases isProper
      · cases kind.symm.trans kind'
        exact mentions
    have resolution := RuleTable.resolve_resolution own.checked target owner
    obtain ⟨found, blamed⟩ := resolution.blamed own.tabled own.proper.distinct
      (part.needed.of_mentions own.proper.distinct mentions) fun _ => ⟨part.needed, mentions⟩
    refine ⟨fun t resolved => ?_, blamed⟩
    obtain ⟨rule, body, needed⟩ := found t resolved
    rw [ruleAt?_of_body own.tabled body.listed body.proper]
    exact body.partOf needed
  · next other =>
    refine ⟨?_, nofun⟩
    rintro _ ⟨⟩
    have below := (part.child edge).resolve_right fun ⟨target, kind, _⟩ => other target kind
    rwa [ruleAt?_of_child own.tabled edge below.proper]

/-- **Linking blames the rule that it is in.** -/
theorem blamed_of_linkFrom (fuel : Nat) {stack : List (NodeId × String)} {seen : Array Bool} {cur : Grammar}
    {error : CompileError} (linking : table.Linking g (stack.map Prod.fst) seen cur)
    (parts : ∀ entry ∈ stack, PartOf rules g entry.2 entry.1)
    (failed : table.linkFrom fuel stack seen cur = .error error) : Blamed rules error := by
  induction fuel generalizing stack seen cur with
  | zero => cases failed
  | succ fuel ih =>
    match stack with
    | [] => cases failed
    | (id, owner) :: stack =>
      obtain ⟨here, behind⟩ := List.forall_mem_cons.mp parts
      by_cases again : Grammar.Seen seen id
      · rw [RuleTable.linkFrom_again fuel again] at failed
        exact ih (linking.skip again) behind failed
      · have edges : cur.children id = g.children id :=
          congrArg (fun node => node.kind.children) (linking.fresh id again)
        rw [RuleTable.linkFrom_first fuel again] at failed
        split at failed
        · next stops =>
          cases failed
          obtain ⟨child, edge, refused⟩ := exists_of_mapM_error stops
          rw [linking.sameReferences.target] at refused
          rw [edges] at edge
          exact (here.target own edge).2 _ refused
        · next targets found =>
          refine ih (linking.next again found).1 ?_ failed
          rw [List.forall_mem_append]
          refine ⟨fun entry mem => ?_, behind⟩
          obtain ⟨t, listed, rfl⟩ := List.mem_map.mp (List.mem_reverse.mp mem)
          obtain ⟨child, edge, leads⟩ := Grammar.exists_left_of_mem (RuleTable.forall₂_of_mapM found) listed
          rw [linking.sameReferences.target] at leads
          rw [edges] at edge
          exact (here.target own edge).1 t leads

/-- A table with a root rule is blamed for a name, or else it is linked. -/
theorem blamed_or_linked (rooted : RuleTable.rootName ∈ rules.map Rule.name) :
    (∃ error, assemble g table = .error error ∧ Blamed rules error) ∨
      ∃ root final, table.root g = .ok root ∧
        table.link g root = .ok final ∧
          assemble g table = (Lexer.ofGrammar final root).mapError .defective := by
  cases known : table.get? RuleTable.rootName with
  | none => exact absurd rooted ((own.tabled.get?_eq_none_iff own.proper.distinct).mp known)
  | some body =>
    have resolution := RuleTable.root_resolution own.checked known ""
    obtain ⟨found, blamed⟩ := resolution.blamed own.tabled own.proper.distinct .root
      fun unknown => nomatch known.symm.trans unknown
    unfold assemble
    rw [own.checked]
    dsimp only
    cases start : table.root g with
    | error error => exact .inl ⟨error, rfl, blamed error start⟩
    | ok root =>
      dsimp only
      cases linking : table.link g root with
      | error error =>
        obtain ⟨rule, body, needed⟩ := found root start
        refine .inl ⟨error, rfl, blamed_of_linkFrom own _ (RuleTable.Linking.start root) ?_ linking⟩
        rw [ruleAt?_of_body own.tabled body.listed body.proper]
        exact List.forall_mem_singleton.mpr (body.partOf needed)
      | ok final => exact .inr ⟨root, final, rfl, linking, rfl⟩

end

/-! ## Names that stand for bodies -/

theorem RuleTable.Resolution.resolves {table : RuleTable} {g : Grammar} {outcome : Except CompileError NodeId}
    (resolution : table.Resolution g name owner outcome) : ∀ id, outcome = .ok id → table.Resolves g name id := by
  induction resolution with
  | missing _ => exact nofun
  | body known proper =>
    rintro _ ⟨⟩
    exact .body known proper
  | via known kind _ ih => exact fun id same => .via known kind (ih id same)

/-- What an alias mentions, and what a visited body mentions, stands for a visited body. -/
theorem RuleTable.Resolves.mentioned (tabled : Tabled rules g table) (proper : Proper rules) {root : NodeId}
    {visited : NodeId → Prop} {final : Grammar}
    (linked : table.Linked g root visited final)
    (resolves : table.Resolves g owner id) (mark : visited id)
    (mentions : Mentions rules owner name) :
    ∃ other, table.Resolves g name other ∧ visited other := by
  obtain ⟨rule, mem, rfl, mentioned⟩ := mentions
  -- An alias mentions its target and resolves to what that resolves to. Any other body is linked itself, and then
  -- its mentions are linked as well.
  by_cases bare : ∃ target, rule.body = .rule target
  · obtain ⟨target, same⟩ := bare
    obtain ⟨place, listed, stands⟩ := tabled.exists_entry mem
    have kind := kind_of_rule same stands
    have known := (tabled.get?_iff proper.distinct).mpr listed
    rw [same] at mentioned
    obtain rfl : name = target := List.mem_singleton.mp mentioned
    cases resolves with
    | body again isProper =>
      cases known.symm.trans again
      rw [kind] at isProper
      cases isProper
    | via again kind' rest =>
      cases known.symm.trans again
      cases kind.symm.trans kind'
      exact ⟨id, rest, mark⟩
  · obtain ⟨place, body⟩ := BodyOf.exists_of_whole tabled mem fun target same => bare ⟨target, same⟩
    have known := body.get? tabled proper.distinct
    have isProper := body.proper
    cases resolves with
    | body again _ =>
      cases known.symm.trans again
      have names := Expression.allNames_of_stands (fun other name bound => Exists.intro other bound) rule.body
        (body.linked linked mark)
      exact (Expression.allNames_iff rule.body).mp names name mentioned
    | via again kind _ =>
      cases known.symm.trans again
      rw [kind] at isProper
      cases isProper

/-- **Where linking comes to its end, every needed name stands for a body** that it visited. -/
theorem resolves_of_needed (own : Checked rules g table) {root : NodeId} {visited : NodeId → Prop} {final : Grammar}
    (rooted : table.root g = .ok root) (linked : table.Linked g root visited final) (needed : Needed rules name) :
    ∃ id, table.Resolves g name id ∧ visited id := by
  induction needed with
  | root =>
    cases known : table.get? RuleTable.rootName with
    | none =>
      rw [RuleTable.root, known] at rooted
      cases rooted
    | some body => exact ⟨root, (RuleTable.root_resolution own.checked known "").resolves root rooted, linked.root⟩
  | @mention name other body _ said mem ih =>
    obtain ⟨rule, ⟨listed, same⟩, rfl⟩ := (said?_eq_some_iff own.proper.distinct).mp said
    obtain ⟨id, resolves, mark⟩ := ih
    exact resolves.mentioned own.tabled own.proper linked mark ⟨rule, listed, same, rule.body.mentioned_plain ▸ mem⟩

/-! ## Reports -/

/-- **A report of an undefined rule is right, and none is missed.** Of a text whose aliases end and that has a root
rule, it is reported exactly if a rule that the root comes to mentions a name that no rule has. The name in the report is
such a name, the rule in the report is such a rule, and the name is written in the sentence that states this rule. -/
theorem undefinedRule_exact {limits : Match.Limits} {source : String} (reads : ReadAs limits source rules)
    (rooted : RuleTable.rootName ∈ rules.map Rule.name) :
    ((∃ name owner, compile limits source = .error (.undefinedRule name owner)) ↔
      ∃ name owner, Needed rules owner ∧ Mentions rules owner name ∧ name ∉ rules.map Rule.name) ∧
    ∀ name owner, compile limits source = .error (.undefinedRule name owner) →
      name ∉ rules.map Rule.name ∧ Needed rules owner ∧ Mentions rules owner name ∧
        ∃ tree, parse limits source = .ok tree ∧ Written tree owner name := by
  obtain ⟨tree, g, table, parsed, read, _, own, compiled⟩ := reads.exists_checked
  rw [compiled]
  rcases blamed_or_linked own rooted with ⟨error, failed, blamed⟩ | ⟨root, final, start, linking, done⟩
  · obtain ⟨name, owner, rfl, free, needed, mentions⟩ := blamed
    refine ⟨⟨fun _ => ⟨name, owner, needed, mentions, free⟩, fun _ => ⟨name, owner, failed⟩⟩, fun name owner same => ?_⟩
    cases failed.symm.trans same
    exact ⟨free, needed, mentions, tree, parsed, written_of_mentions read mentions⟩
  · obtain ⟨visited, linked⟩ := RuleTable.linked_of_link linking
    have defective : ∀ name owner, assemble g table ≠ .error (.undefinedRule name owner) := by
      intro name owner failed
      rw [done] at failed
      cases ended : Lexer.ofGrammar final root <;> rw [ended] at failed <;> cases failed
    refine ⟨⟨fun ⟨name, owner, failed⟩ => absurd failed (defective name owner), ?_⟩,
      fun name owner failed => absurd failed (defective name owner)⟩
    rintro ⟨name, owner, needed, mentions, free⟩
    have needed' := needed.of_mentions own.proper.distinct mentions
    obtain ⟨id, resolves, _⟩ := resolves_of_needed own start linked needed'
    have unknown := (own.tabled.get?_eq_none_iff own.proper.distinct).mpr free
    cases resolves with
    | body known _ => cases unknown.symm.trans known
    | via known _ _ => cases unknown.symm.trans known

/-- A name that has no rule, in a group under an alias. The name in the last rule is not asked for. -/
def lacking : String := "root::=a\na::=(b|!c)\nb::=[y]\nd::=e"

def lackingRules : List Rule :=
  [⟨"root", .rule "a"⟩, ⟨"a", .choice [.rule "b", .negation (.rule "c")]⟩, ⟨"b", .charSet "y" false⟩, ⟨"d", .rule "e"⟩]

theorem name_lacking : compile {} lacking = .error (.undefinedRule "c" "a") ∧
    Needed lackingRules "a" ∧ "c" ∉ lackingRules.map Rule.name ∧
      ∃ tree, parse {} lacking = .ok tree ∧ Written tree "a" "c" := by
  have ⟨reads, settled⟩ : ReadAs {} lacking lackingRules ∧
      (compile {} lacking).map (fun _ => ()) = .error (.undefinedRule "c" "a") := by
    decide +kernel
  obtain ⟨exact, right⟩ := undefinedRule_exact reads (by decide)
  have distinct : (lackingRules.map Rule.name).Nodup := by decide
  have below : Needed lackingRules "a" :=
    Needed.root.of_mentions distinct ⟨⟨"root", .rule "a"⟩, List.mem_cons_self, rfl, List.mem_singleton_self "a"⟩
  have mentions : Mentions lackingRules "a" "c" :=
    ⟨_, List.mem_cons_of_mem _ List.mem_cons_self, rfl, by decide +kernel⟩
  obtain ⟨name, owner, failed⟩ := exact.mpr ⟨"c", "a", below, mentions, by decide⟩
  rw [failed] at settled
  cases settled
  obtain ⟨free, needed, _, written⟩ := right "c" "a" failed
  exact ⟨failed, needed, free, written⟩

end BnfTokenizer.Dialect
