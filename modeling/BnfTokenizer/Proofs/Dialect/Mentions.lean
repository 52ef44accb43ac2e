import BnfTokenizer.Proofs.Dialect.Counterparts

/-!
# Where a name is mentioned

An expression is made of parts (`parts`), and the children of a node that stands for it stand for these
(`Stands.forall₂_children`), so whoever goes along the edges of a body goes along the parts of what its rule says. A
name that a part mentions is mentioned by the whole.

What a rule mentions is written in the text: each name is a word in the sentence that the rule was read from
(`written_of_mentions`).
-/

namespace BnfTokenizer.Dialect

open ParseTree (View)
open Relation (ReflTransGen)

variable {rules : List Rule} {rule : Rule} {name : String}

namespace Expression

variable {g : Grammar} {mention : NodeId → String → Prop} {e part : Expression} {id : NodeId} {own : Option String}

/-! ## Parts -/

/-- The expressions that an expression is directly made of. -/
def parts : Expression → List Expression
  | sequence parts | choice parts => parts
  | repetition inner | optional inner | negation inner => [inner]
  | _ => []

/-- An expression is the whole, or a part of it at any depth. The rules that are mentioned are no parts. -/
def Contains : Expression → Expression → Prop :=
  ReflTransGen fun e part => part ∈ e.parts

theorem AllStand.forall₂_parts {es : List Expression} {ids : List NodeId} (all : AllStand g mention ids es) :
    List.Forall₂ (fun child part => part.Stands g mention child part.ownName) ids es := by
  induction es generalizing ids with
  | nil =>
    cases ids with
    | nil => exact .nil
    | cons => exact all.elim
  | cons e es ih =>
    cases ids with
    | nil => exact all.elim
    | cons => exact .cons all.1 (ih all.2)

/-- **The children of a node stand for the parts** of what it stands for. -/
theorem Stands.forall₂_children (stands : e.Stands g mention id own) (whole : ∀ target, e ≠ .rule target) :
    List.Forall₂ (fun child part => part.Stands g mention child part.ownName) (g.children id) e.parts := by
  cases e with
  | rule target => exact absurd rfl (whole target)
  | literal _ | charSet _ _ | charRange _ _ _ | endOfInput =>
    rw [Grammar.children, kind_of_row stands]
    exact .nil
  | sequence _ | choice _ =>
    obtain ⟨ids, row, all⟩ := stands
    rw [Grammar.children, kind_of_row row]
    exact all.forall₂_parts
  | repetition _ | optional _ | negation _ =>
    obtain ⟨child, row, inner⟩ := stands
    rw [Grammar.children, kind_of_row row]
    exact .cons inner .nil

/-! ## Mentions -/

theorem mem_listMentioned {es : List Expression} : name ∈ listMentioned es ↔ ∃ e ∈ es, name ∈ e.mentioned := by
  induction es with
  | nil => simp [listMentioned]
  | cons e es ih => simp [listMentioned, ih]

theorem mentioned_of_mem_parts (mem : part ∈ e.parts) (mentions : name ∈ part.mentioned) : name ∈ e.mentioned := by
  cases e with
  | sequence es | choice es => exact mem_listMentioned.mpr ⟨part, mem, mentions⟩
  | repetition inner | optional inner | negation inner =>
    obtain rfl := List.mem_singleton.mp mem
    exact mentions
  | _ => cases mem

theorem Contains.mentioned (contains : e.Contains part) (mentions : name ∈ part.mentioned) : name ∈ e.mentioned := by
  induction contains using ReflTransGen.head_induction_on with
  | refl => exact mentions
  | head mem _ ih => exact mentioned_of_mem_parts mem ih

mutual

theorem mentioned_plain : ∀ e : Expression, e.plain.mentioned = e.mentioned
  | .literal _ | .charSet .. | .charRange .. | .endOfInput | .rule _ => rfl
  | .sequence es | .choice es => listMentioned_plain es
  | .repetition e | .optional e | .negation e => mentioned_plain e

theorem listMentioned_plain : ∀ es : List Expression, listMentioned (listPlain es) = listMentioned es
  | [] => rfl
  | e :: es => by rw [listPlain, listMentioned, listMentioned, mentioned_plain e, listMentioned_plain es]

end

end Expression

/-! ## Parts of rules -/

/-- A node, called by a name or nameless, stands for a part of what a rule says that is more than a name. -/
structure PartAt (g : Grammar) (mention : NodeId → String → Prop) (rule : Rule) (e : Expression) (id : NodeId)
    (own : Option String) : Prop where
  contains : rule.body.Contains e
  whole : ∀ target, e ≠ .rule target
  stands : e.Stands g mention id own

/-- A child of a part is a part of the same rule, or it stands for a name that the rule mentions. -/
theorem PartAt.child {g : Grammar} {mention : NodeId → String → Prop} {e : Expression} {id child : NodeId}
    {own : Option String} (part : PartAt g mention rule e id own) (edge : g.Edge id child) :
    (∃ target, mention child target ∧ target ∈ rule.body.mentioned) ∨
      ∃ inner, PartAt g mention rule inner child inner.ownName := by
  obtain ⟨inner, listed, stands⟩ := Grammar.exists_left_of_mem (part.stands.forall₂_children part.whole).flip edge
  have contains : rule.body.Contains inner := part.contains.tail listed
  by_cases bare : ∃ target, inner = .rule target
  · obtain ⟨target, rfl⟩ := bare
    exact .inl ⟨target, stands, contains.mentioned (List.mem_singleton_self target)⟩
  · exact .inr ⟨inner, contains, fun target same => bare ⟨target, same⟩, stands⟩

/-! ## Rules that mention rules -/

/-- A rule mentions a name. -/
def Mentions (rules : List Rule) (owner name : String) : Prop :=
  ∃ rule ∈ rules, rule.name = owner ∧ name ∈ rule.body.mentioned

/-- A rule is nothing but another name for a rule. -/
def IsAlias (rules : List Rule) (name target : String) : Prop :=
  ∃ rule ∈ rules, rule.name = name ∧ rule.body = .rule target

theorem IsAlias.mentions {target : String} (isAlias : IsAlias rules name target) : Mentions rules name target := by
  obtain ⟨rule, mem, same, body⟩ := isAlias
  exact ⟨rule, mem, same, body ▸ List.mem_singleton_self target⟩

theorem Needed.of_mentions (distinct : (rules.map Rule.name).Nodup) {owner : String} (needed : Needed rules owner)
    (mentions : Mentions rules owner name) : Needed rules name := by
  obtain ⟨rule, mem, rfl, mentioned⟩ := mentions
  have said := (said?_eq_some_iff distinct).mpr ⟨rule, ⟨mem, rfl⟩, rfl⟩
  exact .mention needed said (rule.body.mentioned_plain ▸ mentioned)

/-- A placeholder in the place of a body makes an alias. -/
theorem isAlias_of_kind {g : Grammar} {table : RuleTable} (tabled : Tabled rules g table)
    (distinct : (rules.map Rule.name).Nodup) {id : NodeId} {target : String} (known : table.get? name = some id)
    (kind : g.kind id = .reference target) : IsAlias rules name target := by
  obtain ⟨rule, mem, rfl, stands⟩ := tabled.exists_rule ((tabled.get?_iff distinct).mp known)
  refine ⟨rule, mem, rfl, ?_⟩
  by_cases bare : ∃ other, rule.body = .rule other
  · obtain ⟨other, same⟩ := bare
    have kind' := kind_of_rule same stands
    rw [kind] at kind'
    cases kind'
    exact same
  · obtain ⟨own, row, proper⟩ := row_of_stands stands fun other same => bare ⟨other, same⟩
    rw [← kind_of_row row, kind] at proper
    cases proper

/-! ## Words of the text -/

mutual

/-- The words in a subtree, from left to right. -/
def words : View → List String
  | .node name value _ children => if name = some "word" then [value] else listWords children

def listWords : List View → List String
  | [] => []
  | v :: vs => words v ++ listWords vs

end

variable {source : String} {v : View} {items : List Item}

theorem words_subset_listWords {vs : List View} (mem : v ∈ vs) : words v ⊆ listWords vs := by
  induction vs with
  | nil => cases mem
  | cons first vs ih =>
    rcases List.mem_cons.mp mem with rfl | later
    · exact List.subset_append_left _ _
    · exact List.subset_append_of_subset_right _ (ih later)

theorem words_of_ne {own : Option String} (other : own ≠ some "word") (value : String) (span : Span)
    (children : List View) : words (.node own value span children) = listWords children := by
  rw [words, if_neg other]

theorem mentioned_withMarks (v : View) (e : Expression) : (withMarks v e).mentioned = e.mentioned := by
  unfold withMarks
  dsimp only
  split <;> split <;> rfl

/-- A row mentions what its expressions mention. -/
def RowMentions (items : List Item) (name : String) : Prop :=
  ∃ e, Item.expression e ∈ items ∧ name ∈ e.mentioned

theorem rowMentions_iff : RowMentions items name ↔ name ∈ (Item.fold items).mentioned := by
  rw [Item.mentioned_fold, List.mem_flatMap]
  refine exists_congr fun e => and_congr_left' ?_
  rw [List.mem_filterMap]
  constructor
  · exact fun mem => ⟨_, mem, rfl⟩
  · rintro ⟨item, mem, same⟩
    cases item with
    | bar => cases same
    | expression e =>
      cases same
      exact mem

/-- What an atom mentions is the word that it is. -/
theorem mem_words_of_readAtom {atom : View} {e : Expression} (isAtom : atom.name.any atomNames.contains = true)
    (read : readAtom source atom = .ok e) (mentions : name ∈ e.mentioned) : name ∈ words atom := by
  obtain ⟨own, value, span, children⟩ := atom
  unfold readAtom at read
  split at read
  · cases read
    cases mentions
  · cases read
    cases mentions
  · split at read
    · split at read
      · cases read
        cases mentions
      · cases read
    · cases read
  · cases read
    cases mentions
  · next notString notSet notGroup notEnd =>
    cases read
    obtain rfl : name = value := List.mem_singleton.mp mentions
    obtain ⟨kind, rfl, listed⟩ := (Option.any_eq_true _ _).mp isAtom
    have isWord : kind = "word" := by
      rcases List.contains_iff_mem.mp listed with ⟨⟩ | ⟨_, ⟨⟩ | ⟨_, ⟨⟩ | ⟨_, ⟨⟩ | ⟨_, last⟩⟩⟩⟩
      · exact absurd rfl notString
      · exact absurd rfl notSet
      · exact absurd rfl notGroup
      · exact absurd rfl notEnd
      · exact List.mem_singleton.mp last
    rw [words, if_pos (congrArg some isWord)]
    exact List.mem_singleton_self name

/-- What a token mentions is a word in it. -/
theorem mem_words_of_readToken {own : Option String} {value : String} {span : Span} {children : List View}
    {e : Expression} (read : readToken source (.node own value span children) = .ok e)
    (mentions : name ∈ e.mentioned) : name ∈ listWords children := by
  unfold readToken at read
  split at read
  · next atom found =>
    obtain ⟨inner, own, rfl⟩ := exists_of_map_ok read
    rw [mentioned_withMarks] at mentions
    have isAtom := List.find?_some found
    exact words_subset_listWords (List.mem_of_find?_eq_some found) (mem_words_of_readAtom isAtom own mentions)
  · cases read

mutual

theorem mem_words_of_readItems : ∀ (v : View) {items : List Item}, readItems source v = .ok items →
    RowMentions items name → name ∈ words v
  | .node own value span children, items, read, mentions => by
    unfold readItems at read
    dsimp only at read
    obtain ⟨e, mem, mentioned⟩ := mentions
    split at read
    · rw [words_of_ne (by decide)]
      obtain ⟨token, own, rfl⟩ := exists_of_map_ok read
      cases List.mem_singleton.mp mem
      exact mem_words_of_readToken own mentioned
    · rw [words_of_ne (by decide)]
      split at read
      · obtain ⟨inside, own, rfl⟩ := exists_of_map_ok read
        cases List.mem_singleton.mp mem
        rw [mentioned_withMarks] at mentioned
        exact mem_words_of_listReadItems children own (rowMentions_iff.mpr mentioned)
      · cases read
    · cases read
      cases List.mem_singleton.mp mem
    iterate 4
      · rw [words_of_ne (by decide)]
        exact mem_words_of_listReadItems children read ⟨e, mem, mentioned⟩
    · cases read
      cases mem

theorem mem_words_of_listReadItems : ∀ (vs : List View) {items : List Item}, listReadItems source vs = .ok items →
    RowMentions items name → name ∈ listWords vs
  | [], items, read, mentions => by
    cases read
    obtain ⟨e, mem, _⟩ := mentions
    cases mem
  | v :: vs, items, read, mentions => by
    unfold listReadItems at read
    split at read
    · cases read
    · next own first =>
      cases others : listReadItems source vs with
      | error error =>
        rw [others] at read
        cases read
      | ok rest =>
        rw [others] at read
        cases read
        obtain ⟨e, mem, mentioned⟩ := mentions
        rcases List.mem_append.mp mem with here | later
        · exact List.mem_append_left _ (mem_words_of_readItems v first ⟨e, here, mentioned⟩)
        · exact List.mem_append_right _ (mem_words_of_listReadItems vs others ⟨e, later, mentioned⟩)

end

/-- A name is a word of the body of a sentence that states a rule. -/
def Written (tree : ParseTree) (owner name : String) : Prop :=
  ∃ sentence ∈ (tree.view tree.root).children, ∃ body, sentence.name = some "sentence" ∧
    (sentence.childByName "word").map View.value = some owner ∧
      sentence.childByName "statement" = some body ∧ name ∈ words body

/-- **What a rule mentions is written in its sentence.** -/
theorem written_of_mentions {tree : ParseTree} {owner : String} (read : rulesOf tree = .ok rules)
    (mentions : Mentions rules owner name) : Written tree owner name := by
  obtain ⟨rule, mem, rfl, mentioned⟩ := mentions
  obtain ⟨sentence, listed, stated⟩ := Grammar.exists_left_of_mem (RuleTable.forall₂_of_mapM read) mem
  obtain ⟨child, isSentence⟩ := List.mem_filter.mp listed
  unfold readSentence at stated
  split at stated
  · next word statement stands states =>
    obtain ⟨items, own, rfl⟩ := exists_of_map_ok stated
    exact ⟨sentence, child, statement, beq_iff_eq.mp isSentence, congrArg (Option.map View.value) stands, states,
      mem_words_of_readItems statement own (rowMentions_iff.mpr mentioned)⟩
  · cases stated

end BnfTokenizer.Dialect
