import BnfTokenizer.Proofs.Dialect.Printing
import BnfTokenizer.Proofs.Grammar.RuleOrder

/-!
# The written form of a compiled grammar

`Assembled` is what compiling leaves, and its written form is a grammar text: each rule that is listed is written as
a sentence, and what the sentence means is what the body of the rule stands for. Where the root rule is another name
for a rule, `restated` has a line in front that says so.
-/

namespace BnfTokenizer.Dialect

open Grammar (Kind Node Written)

/-- The linked grammar of some rules, with the body of the root rule. -/
structure Assembled (rules : List Rule) (drafted : Grammar) (table : RuleTable) (root : NodeId)
    (visited : NodeId → Prop)
    (g : Grammar) : Prop where
  proper : Proper rules
  tabled : Tabled rules drafted table
  rooted : table.root drafted = .ok root
  linked : table.Linked drafted root visited g

/-- What stands for a name that can be said. -/
def Known (drafted : Grammar) (table : RuleTable) (visited : NodeId → Prop) (id : NodeId) (name : String) : Prop :=
  table.Bound drafted visited id name ∧ IsMention name

variable {rules : List Rule} {drafted g : Grammar} {table : RuleTable} {root id : NodeId} {visited : NodeId → Prop}
  {rule : Rule}

namespace Assembled

variable (assembled : Assembled rules drafted table root visited g)

include assembled

/-- Linking changes no names, so the same nodes are rules. -/
theorem ruleName?_eq (id : NodeId) : g.ruleName? id = drafted.ruleName? id :=
  assembled.linked.ruleName? id

/-- The body of a rule has the rule's name. -/
theorem ruleName?_of_bodyOf (body : BodyOf rules drafted table rule id) : g.ruleName? id = some rule.name :=
  (assembled.ruleName?_eq id).trans (body.ruleName? (assembled.proper.names rule body.mem))

theorem known_bodyOf {name : String} (known : Known drafted table visited id name) :
    ∃ rule, BodyOf rules drafted table rule id ∧ IsMention rule.name ∧ visited id := by
  obtain ⟨⟨resolves, mark⟩, mention⟩ := known
  obtain ⟨rule, body, mentioned⟩ := resolves.bodyOf assembled.tabled assembled.proper mention
  exact ⟨rule, body, mentioned, mark⟩

/-- What an edge of a linked graph leads to is a rule, with the name that was mentioned. -/
theorem mentionsRules : MentionsRules g (Known drafted table visited) := by
  intro id name known
  obtain ⟨rule, body, mentioned, _⟩ := assembled.known_bodyOf known
  exact ⟨rule.name, mentioned, assembled.ruleName?_of_bodyOf body⟩

/-- The body of a rule that was visited stands in the linked graph, under the name of the rule. -/
theorem stands (body : BodyOf rules drafted table rule id) (mark : visited id) :
    rule.body.Stands g (Known drafted table visited) id (some rule.name) := by
  have named := Expression.allNames_of_sayable rule.body (assembled.proper.sayable rule body.mem)
  exact Expression.stands_imp (fun _ _ mention bound => ⟨bound, mention⟩) rule.body named
    (body.linked assembled.linked mark)

/-- A body that was visited is printed as what it stands for. -/
theorem printed (body : BodyOf rules drafted table rule id) (mark : visited id) :
    ∃ e : Expression, (∀ target, e ≠ .rule target) ∧
      Printed g (Known drafted table visited) (g.body id) id (some rule.name) e := by
  have enough : rule.body.height ≤ g.size := by
    rw [assembled.linked.size]
    exact Nat.le_trans (Expression.height_le_of_stands assembled.tabled.backward _ body.stands)
      (Nat.le_of_lt body.lt_size)
  have prints := prints assembled.mentionsRules rule.body (assembled.proper.sayable rule body.mem)
  obtain ⟨e, whole, _, printed⟩ := prints.whole body.whole id _ g.size enough (assembled.stands body mark)
  exact ⟨e, whole, printed⟩

theorem rootBody : ∃ rule, BodyOf rules drafted table rule root ∧ visited root ∧ (rule.name = RuleTable.rootName ∨
    IsMention rule.name ∧ ∀ {other id}, BodyOf rules drafted table other id → other.name ≠ RuleTable.rootName) := by
  obtain ⟨rule, body, names⟩ := root_cases assembled.tabled assembled.proper assembled.rooted
  exact ⟨rule, body, assembled.linked.root, names⟩

theorem lt_size : root < g.size := by
  obtain ⟨_, body, _⟩ := assembled.rootBody
  exact assembled.linked.size ▸ body.lt_size

/-- Every rule that is listed has a body that was visited. -/
theorem bodyOf_of_mem_rules (mem : id ∈ g.rules root) : ∃ rule, BodyOf rules drafted table rule id ∧ visited id := by
  have step : ∀ id, (∃ rule, BodyOf rules drafted table rule id ∧ visited id) →
      ∀ m ∈ (g.body id).mentions, ∃ rule, BodyOf rules drafted table rule m ∧ visited m := by
    rintro id ⟨rule, body, mark⟩ m mentioned
    obtain ⟨e, _, printed⟩ := assembled.printed body mark
    obtain ⟨name, known⟩ := printed.known m mentioned
    obtain ⟨rule, body, _, mark⟩ := assembled.known_bodyOf known
    exact ⟨rule, body, mark⟩
  obtain ⟨rule, body, mark, _⟩ := assembled.rootBody
  exact (Grammar.rules_lists assembled.lt_size).holds step (List.forall_mem_singleton.mpr ⟨rule, body, mark⟩) id mem

/-- The root is the first rule that is written. -/
theorem root_mem_rules : root ∈ g.rules root :=
  ((Grammar.rules_lists assembled.lt_size).takes root List.mem_cons_self).resolve_left List.not_mem_nil

end Assembled

/-! ## Sentences -/

/-- The rule says what a node stands for, under its name. -/
structure Restated (g : Grammar) (ids : List NodeId) (id : NodeId) (rule : Rule) : Prop where
  name : g.ruleName? id = some rule.name
  whole : ∀ target, rule.body ≠ .rule target
  stands : rule.body.Stands g (Mentioned g ids) id (some rule.name)

/-- The line of a rule is a sentence. -/
structure Line (g : Grammar) (ids : List NodeId) (id : NodeId) (sentence : Sentence) : Prop where
  restated : Restated g ids id sentence.rule
  written : ∃ text, sentence.Written text ∧ (g.entry id).toList = text ++ ['\n']

/-- Every rule that is written is written as a sentence that says it. -/
theorem Assembled.exists_line (assembled : Assembled rules drafted table root visited g) (mem : id ∈ g.rules root) :
    ∃ sentence, Line g (g.rules root) id sentence := by
  obtain ⟨rule, body, mark⟩ := assembled.bodyOf_of_mem_rules mem
  obtain ⟨e, whole, printed⟩ := assembled.printed body mark
  obtain ⟨word, named⟩ := assembled.proper.names rule body.mem
  have shown : ShownAt (g.body id).text.toList e .choice := printed.shown.loosen (Nat.zero_le _)
  obtain ⟨alternatives, rfl, written⟩ := shown
  have sub : (g.body id).mentions ⊆ g.rules root := fun m mentioned =>
    ((Grammar.rules_lists assembled.lt_size).descends id mem m mentioned).resolve_left List.not_mem_nil
  refine ⟨⟨word, alternatives⟩, ⟨?_, whole, ?_⟩, _, .mk (.blank (.inl rfl) .nil) (.blank (.inl rfl) .nil) written, ?_⟩
  · rw [assembled.ruleName?_of_bodyOf body, ← named]
    rfl
  · rw [← named] at printed
    exact printed.stands.mono (mentioned_mono sub)
  · have own : g.name id = some word.name := by
      rw [assembled.linked.name, body.name, named]
    rw [Grammar.entry, own]
    simp [Word.name, defineMark]

/-! ## Whole texts -/

theorem exists_forall₂ {α β : Type} {R : α → β → Prop} {as : List α} (each : ∀ a ∈ as, ∃ b, R a b) :
    ∃ bs, List.Forall₂ R as bs := by
  induction as with
  | nil => exact ⟨[], .nil⟩
  | cons a as ih =>
    obtain ⟨⟨b, head⟩, others⟩ := List.forall_mem_cons.mp each
    obtain ⟨bs, all⟩ := ih others
    exact ⟨b :: bs, .cons head all⟩

/-- A line for each rule is a grammar text. -/
theorem writtenAll_of_lines {ids listed : List NodeId} {sentences : List Sentence}
    (lines : List.Forall₂ (Line g listed) ids sentences) :
    WrittenAll sentences (String.join (ids.map g.entry)).toList := by
  induction lines with
  | nil => exact .nil
  | cons line _ ih =>
    obtain ⟨text, written, same⟩ := line.written
    rw [List.map_cons, String.join_cons, String.toList_append, same, List.append_assoc]
    exact .cons written (.blank (.inr (.inr (.inr rfl))) .nil) ih nofun

/-- The line in front that says what the root rule stands for, if that has another name. -/
def rootLine (g : Grammar) (root : NodeId) : String :=
  match g.name root with
  | some name => if name = RuleTable.rootName then "" else RuleTable.rootName ++ " ::= " ++ name ++ "\n"
  | none => ""

/-- The written form of what a root reaches, with the rule that matching starts from. -/
def restated (g : Grammar) (root : NodeId) : String :=
  rootLine g root ++ g.dump root

/-- Rules that say what the listed nodes stand for, and which of them is the root. -/
structure Restates (g : Grammar) (root : NodeId) (rules : List Rule) : Prop where
  distinct : (rules.map Rule.name).Nodup
  every : ∀ id ∈ g.rules root, ∃ rule ∈ rules, Restated g (g.rules root) id rule
  only : ∀ rule ∈ rules, (∃ id ∈ g.rules root, Restated g (g.rules root) id rule) ∨
    rule.name = RuleTable.rootName ∧
      ∃ name, rule.body = .rule name ∧ g.ruleName? root = some name ∧ name ≠ RuleTable.rootName
  root : g.ruleName? root = some RuleTable.rootName ∨
    ∃ name, g.ruleName? root = some name ∧ name ≠ RuleTable.rootName ∧ ⟨RuleTable.rootName, .rule name⟩ ∈ rules

theorem rootText_ne_nil : ['r', 'o', 'o', 't'] ≠ [] := by decide

theorem isWordChar_of_mem_rootText : ∀ c ∈ ['r', 'o', 'o', 't'], IsWordChar c :=
  forall_mem_of_all (by decide)

/-- The name of the root, as a word. -/
def rootWord : Word where
  text := ['r', 'o', 'o', 't']
  nonempty := rootText_ne_nil
  chars := isWordChar_of_mem_rootText

/-- The sentence in front of a grammar text whose root is another name for a rule. -/
def rootSentence (word : Word) (free : word.text ≠ Word.endOfInput) : Sentence :=
  ⟨rootWord, .last (.last (.mk false (.name word free) .once))⟩

theorem rootSentence_written (word : Word) (free : word.text ≠ Word.endOfInput) :
    (rootSentence word free).Written (RuleTable.rootName ++ " ::= " ++ word.name).toList := by
  have body : (rootSentence word free).body.Written ([] ++ (word.text ++ [])) := .last (.last (.mk .name))
  have written := Sentence.Written.mk (.blank (.inl rfl) .nil) (.blank (.inl rfl) .nil) body
  have same : (RuleTable.rootName ++ " ::= " ++ word.name).toList =
      (rootSentence word free).word.text ++ ([' '] ++ (defineMark ++ ([' '] ++ ([] ++ (word.text ++ []))))) := by
    simp [RuleTable.rootName, Word.name, defineMark, rootSentence, rootWord]
  rwa [same]

/-- The names of the sentences are those of the nodes. -/
theorem map_name_of_lines {ids listed : List NodeId} {sentences : List Sentence}
    (lines : List.Forall₂ (Line g listed) ids sentences) :
    ((sentences.map Sentence.rule).map Rule.name).map some = ids.map g.ruleName? := by
  induction lines with
  | nil => rfl
  | cons line _ ih => rw [List.map_cons, List.map_cons, List.map_cons, List.map_cons, ih, line.restated.name]

/-- No two nodes have the name of one rule. -/
theorem Assembled.ruleName?_inj (assembled : Assembled rules drafted table root visited g) {a b : NodeId}
    {name : String}
    (first : g.ruleName? a = some name) (second : g.ruleName? b = some name) : a = b := by
  rw [assembled.ruleName?_eq] at first second
  obtain ⟨rule, body, same⟩ := BodyOf.of_named assembled.tabled first
  obtain ⟨other, body', same'⟩ := BodyOf.of_named assembled.tabled second
  exact body.unique assembled.tabled body' assembled.proper.distinct (same.trans same'.symm)

/-- So no rule is stated twice. -/
theorem Assembled.nodup_of_lines (assembled : Assembled rules drafted table root visited g) {sentences : List Sentence}
    (lines : List.Forall₂ (Line g (g.rules root)) (g.rules root) sentences) :
    ((sentences.map Sentence.rule).map Rule.name).Nodup := by
  refine List.Nodup.of_map some ?_
  rw [map_name_of_lines lines]
  refine (Grammar.rules_lists assembled.lt_size).fresh.1.map_on fun a mem b _ same => ?_
  obtain ⟨rule, body, _⟩ := assembled.bodyOf_of_mem_rules mem
  have named := assembled.ruleName?_of_bodyOf body
  exact assembled.ruleName?_inj named (same ▸ named)

/-- **The written form of a compiled grammar is a grammar text**, and its rules say what the nodes stand for. -/
theorem Assembled.restates (assembled : Assembled rules drafted table root visited g) :
    ∃ sentences, Rendered sentences (restated g root).toList ∧ Restates g root (sentences.map Sentence.rule) := by
  have each : ∀ id ∈ g.rules root, ∃ sentence, Line g (g.rules root) id sentence :=
    fun _ mem => assembled.exists_line mem
  obtain ⟨sentences, lines⟩ := exists_forall₂ each
  have written := writtenAll_of_lines lines
  have distinct := assembled.nodup_of_lines lines
  have every : ∀ id ∈ g.rules root, ∃ rule ∈ sentences.map Sentence.rule, Restated g (g.rules root) id rule := by
    intro id mem
    obtain ⟨sentence, listed, line⟩ := Grammar.exists_left_of_mem lines.flip mem
    exact ⟨sentence.rule, List.mem_map_of_mem listed, line.restated⟩
  have only : ∀ rule ∈ sentences.map Sentence.rule, ∃ id ∈ g.rules root, Restated g (g.rules root) id rule := by
    intro rule mem
    obtain ⟨sentence, listed, rfl⟩ := List.mem_map.mp mem
    obtain ⟨id, mem, line⟩ := Grammar.exists_left_of_mem lines listed
    exact ⟨id, mem, line.restated⟩
  obtain ⟨rule, body, _, names⟩ := assembled.rootBody
  have named : g.name root = some rule.name := (assembled.linked.name root).trans body.name
  have isRule := assembled.ruleName?_of_bodyOf body
  -- A root that is called otherwise is put behind a rule of the root name, which no line has then.
  rcases names with own | ⟨⟨word, free, same⟩, differs⟩
  · refine ⟨sentences, ⟨[], _, .nil, written, ?_⟩, distinct, every, fun rule mem => .inl (only rule mem),
      .inl (own ▸ isRule)⟩
    rw [restated, rootLine, named, own]
    dsimp only
    rw [if_pos rfl, String.empty_append]
    rfl
  · rw [← same] at named isRule
    have other : word.name ≠ RuleTable.rootName := same ▸ differs body
    have front : WrittenAll (rootSentence word free :: sentences) _ :=
      .cons (rootSentence_written word free) (.blank (.inr (.inr (.inr rfl))) .nil) written nofun
    have absent : RuleTable.rootName ∉ (sentences.map Sentence.rule).map Rule.name := by
      intro mem
      obtain ⟨rule, listed, called⟩ := List.mem_map.mp mem
      obtain ⟨id, inside, restated⟩ := only rule listed
      obtain ⟨own, body, _⟩ := assembled.bodyOf_of_mem_rules inside
      have sameName := (assembled.ruleName?_of_bodyOf body).symm.trans restated.name
      exact differs body ((Option.some.inj sameName).trans called)
    refine ⟨rootSentence word free :: sentences, ⟨[], _, .nil, front, ?_⟩, List.nodup_cons.mpr ⟨absent, distinct⟩, ?_, ?_,
      .inr ⟨word.name, isRule, other, List.mem_cons_self⟩⟩
    · rw [restated, rootLine, named]
      dsimp only
      rw [if_neg other, String.toList_append, String.toList_append, List.append_assoc]
      rfl
    · intro id mem
      obtain ⟨rule, listed, restated⟩ := every id mem
      exact ⟨rule, List.mem_cons_of_mem _ listed, restated⟩
    · exact List.forall_mem_cons.mpr ⟨.inr ⟨rfl, word.name, rfl, isRule, other⟩, fun rule mem => .inl (only rule mem)⟩

end BnfTokenizer.Dialect
