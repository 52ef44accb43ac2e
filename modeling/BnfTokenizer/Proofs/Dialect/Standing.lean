import BnfTokenizer.Proofs.Dialect.Placement

/-!
# What the nodes of a draft stand for

A draft holds an expression at an address if the node there stands for it. A step adds nodes and keeps those that are
there, so what is held stays held (`Grows.holds`), and there is again one lemma for each step: tokens are held where they
are written, and a row is held where it is folded, if its tokens are (`holds_foldRow`).

Only a definition changes a node, when it gives a body its name. The body was spare, so it is no child, and nothing else
is in the way of it. In the end all nodes are used, and what is left is the table of the rules that were stated
(`tabled_of_draftRules`).
-/

namespace BnfTokenizer.Dialect

open Grammar (Kind Node)
open Expression (Placeholder)

variable {g h : Grammar} {P : String → Prop} {d d' d'' : Draft} {name : String}

/-! ## Rows that are kept -/

namespace Expression

mutual

/-- What a node stands for depends on its row and on the rows below it. -/
theorem Stands.carry (keep : NodeId → Prop) (closed : ∀ a c, keep a → c ∈ g.children a → keep c)
    (kept : ∀ (id : NodeId) (row : Node), keep id → g.nodes[id]? = some row → h.nodes[id]? = some row) :
    ∀ {e : Expression} {id : NodeId} {name : Option String}, keep id → e.Stands g (Placeholder g) id name →
      e.Stands h (Placeholder h) id name
  | .literal _, _, _, own, row | .charSet .., _, _, own, row | .charRange .., _, _, own, row
  | .endOfInput, _, _, own, row | .rule _, _, _, own, row => kept _ _ own row
  | .sequence _, id, _, own, ⟨ids, row, all⟩ | .choice _, id, _, own, ⟨ids, row, all⟩ =>
    ⟨ids, kept _ _ own row, all.carry keep closed kept fun c mem => closed id c own (child_of_row row mem)⟩
  | .repetition _, id, _, own, ⟨c, row, stands⟩ | .optional _, id, _, own, ⟨c, row, stands⟩
  | .negation _, id, _, own, ⟨c, row, stands⟩ =>
    ⟨c, kept _ _ own row, stands.carry keep closed kept (closed id c own (child_of_row row List.mem_cons_self))⟩

theorem AllStand.carry (keep : NodeId → Prop) (closed : ∀ a c, keep a → c ∈ g.children a → keep c)
    (kept : ∀ (id : NodeId) (row : Node), keep id → g.nodes[id]? = some row → h.nodes[id]? = some row) :
    ∀ {es : List Expression} {ids : List NodeId}, (∀ id ∈ ids, keep id) → AllStand g (Placeholder g) ids es →
      AllStand h (Placeholder h) ids es
  | [], [], _, _ => trivial
  | _ :: _, _ :: _, own, ⟨stands, all⟩ =>
    ⟨stands.carry keep closed kept (own _ List.mem_cons_self),
      all.carry keep closed kept fun id mem => own id (List.mem_cons_of_mem _ mem)⟩

end

end Expression

namespace Draft

/-- The node at an address is an expression that is no body. -/
def Holds (d : Draft) (e : Expression) (id : NodeId) : Prop :=
  e.Stands d.grammar (Placeholder d.grammar) id e.ownName

/-- The nodes at some addresses are as many expressions. -/
def HoldsAll (d : Draft) (es : List Expression) (ids : List NodeId) : Prop :=
  Expression.AllStand d.grammar (Placeholder d.grammar) ids es

section

variable {used made ids : List NodeId} {e : Expression} {es : List Expression} {id : NodeId}

/-- What a draft holds it holds when nodes are added. -/
theorem Grows.holds (grows : Grows d d') (holds : d.Holds e id) : d'.Holds e id :=
  holds.carry (fun _ => True) (fun _ _ _ _ => trivial) (fun id row _ => grows id row) trivial

theorem Grows.holdsAll (grows : Grows d d') (holds : d.HoldsAll es ids) : d'.HoldsAll es ids :=
  holds.carry (fun _ => True) (fun _ _ _ _ => trivial) (fun id row _ => grows id row) fun _ _ => trivial

/-- The row that is added is there, without a name. -/
theorem row_add (d : Draft) (kind : Kind) : (d.add kind).1.grammar.nodes[(d.add kind).2]? = some ⟨none, kind⟩ :=
  getElem?_push_size ..

theorem holds_addLiteral (d : Draft) (text : String) : (d.addLiteral text).1.Holds (.literal text)
    (d.addLiteral text).2 := by
  unfold Holds Expression.ownName Expression.Stands addLiteral Expression.literalName
  dsimp only
  split
  · exact row_add d _
  · exact getElem?_setName_self (row_add d (.exactly text))

/-- A placeholder holds the name that it was asked for, first or again. -/
theorem holds_placeholder (indexed : d.Indexed P) (name : String) :
    (d.placeholder name).1.Holds (.rule name) (d.placeholder name).2 := by
  unfold placeholder
  cases found : d.placeholders.lookup name with
  | some id => exact indexed.placeholder (mem_placeholders_of_lookup found)
  | none => exact row_add d _

mutual

/-- **What is written is held**, at the number that writing gives. One case for each kind of expression. -/
theorem holds_write : ∀ (e : Expression) {d : Draft}, d.Indexed P → (∀ name ∈ e.mentioned, P name) →
    (d.write e).1.Holds e (d.write e).2
  | .literal text, d, _, _ => holds_addLiteral d text
  | .charSet .., d, _, _ | .charRange .., d, _, _ | .endOfInput, d, _, _ => row_add d _
  | .rule name, _, indexed, _ => holds_placeholder indexed name
  | .sequence parts, _, indexed, asked =>
    ⟨_, row_add _ _, (grows_add _ _).holdsAll (holds_writeAll parts indexed asked)⟩
  | .choice parts, _, indexed, asked =>
    ⟨_, row_add _ _, (grows_add _ _).holdsAll (holds_writeAll parts indexed asked)⟩
  | .repetition inner, _, indexed, asked =>
    ⟨_, row_add _ _, (grows_add _ _).holds (holds_write inner indexed asked)⟩
  | .optional inner, _, indexed, asked =>
    ⟨_, row_add _ _, (grows_add _ _).holds (holds_write inner indexed asked)⟩
  | .negation inner, _, indexed, asked =>
    ⟨_, row_add _ _, (grows_add _ _).holds (holds_write inner indexed asked)⟩

theorem holds_writeAll : ∀ (es : List Expression) {d : Draft}, d.Indexed P →
    (∀ name ∈ Expression.listMentioned es, P name) → (d.writeAll es).1.HoldsAll es (d.writeAll es).2
  | [], _, _, _ => trivial
  | e :: es, d, indexed, asked => by
    obtain ⟨first, others⟩ := List.forall_mem_append.mp asked
    have wrote := spends_write e d first
    exact ⟨(spends_writeAll es _ others).grows.holds (holds_write e indexed first),
      holds_writeAll es (wrote.indexed indexed) others⟩

end

/-- A modifier at a node holds the modified expression. -/
theorem holds_repeated (holds : d.Holds e id) (modifier : Option String) :
    (d.repeated id modifier).1.Holds (e.repeated modifier) (d.repeated id modifier).2 := by
  unfold repeated
  split
  · exact ⟨id, row_add _ _, (grows_add _ _).holds holds⟩
  · have many : (d.add (.repetition id)).1.Holds (.repetition e) (d.add (.repetition id)).2 :=
      ⟨id, row_add _ _, (grows_add _ _).holds holds⟩
    exact ⟨_, row_add _ _, (grows_add _ _).holds many⟩
  · exact ⟨id, row_add _ _, (grows_add _ _).holds holds⟩
  · next more many optional =>
    rw [Expression.repeated]
    · exact holds
    · exact more
    · exact many
    · exact optional

/-- Both marks hold the marked one. -/
theorem holds_marked (holds : d.Holds e id) (marks : Marks) :
    (d.marked id marks.modifier marks.negated).1.Holds (marks.around e) (d.marked id marks.modifier marks.negated).2 := by
  have repeats := holds_repeated holds marks.modifier
  unfold marked Marks.around
  dsimp only
  split
  · exact ⟨_, row_add _ _, (grows_add _ _).holds repeats⟩
  · exact repeats

/-- A sequence holds what its parts make, a single part itself. -/
theorem holds_addSequence (all : d.HoldsAll es ids) :
    (d.addSequence ids).1.Holds (.ofParts es) (d.addSequence ids).2 := by
  match es, ids, all with
  | [], [], _ => exact ⟨_, row_add _ _, trivial⟩
  | [_], [_], all => exact all.1
  | _ :: _ :: _, _ :: _ :: _, all => exact ⟨_, row_add _ _, (grows_add _ _).holdsAll all⟩

theorem holds_addSequences : ∀ {groups : List (List NodeId)} {ess : List (List Expression)} {d : Draft},
    List.Forall₂ d.HoldsAll ess groups → (d.addSequences groups).1.HoldsAll (ess.map .ofParts) (d.addSequences groups).2
  | [], [], _, _ => trivial
  | ids :: groups, es :: ess, d, .cons own others => by
    have grows : Grows d (d.addSequence ids).1 := (spends_addSequence (P := fun _ => True) d ids).grows
    have later : Grows (d.addSequence ids).1 _ := (spends_addSequences (P := fun _ => True) groups _).grows
    exact ⟨later.holds (holds_addSequence own), holds_addSequences (others.imp fun _ _ all => grows.holdsAll all)⟩

/-- A choice holds what its alternatives make, a single one itself. -/
theorem holds_addChoice (all : d.HoldsAll es ids) :
    (d.addChoice ids).1.Holds (.ofAlternatives es) (d.addChoice ids).2 := by
  match es, ids, all with
  | [], [], _ => exact ⟨_, row_add _ _, trivial⟩
  | [_], [_], all => exact all.1
  | _ :: _ :: _, _ :: _ :: _, all => exact ⟨_, row_add _ _, (grows_add _ _).holdsAll all⟩

end

/-! ## Rows as they are entered -/

/-- What is entered for a thing in a row. -/
def Enters (d : Draft) : Item → Option NodeId → Prop
  | .bar, none => True
  | .expression e, some id => d.Holds e id
  | _, _ => False

/-- What is between two bars is as many expressions. -/
theorem holdsAll_of_enters : ∀ {items : List Item} {entries : List (Option NodeId)},
    List.Forall₂ d.Enters items entries → d.HoldsAll (items.filterMap Item.expression?) (entries.filterMap id)
  | [], [], _ => trivial
  | .bar :: _, none :: _, .cons _ others => by
    have later := holdsAll_of_enters others
    exact later
  | .expression _ :: _, some _ :: _, .cons own others => ⟨own, holdsAll_of_enters others⟩

/-- Related lists that are cut at the same places have related groups. -/
theorem forall₂_splitOn {α β : Type} {R : α → β → Prop} {isCut : α → Bool} {isCut' : β → Bool}
    (same : ∀ a b, R a b → isCut a = isCut' b) {as : List α} {bs : List β} (all : List.Forall₂ R as bs) :
    List.Forall₂ (List.Forall₂ R) (ParseTree.splitOn isCut as) (ParseTree.splitOn isCut' bs) := by
  induction all with
  | nil => exact .cons .nil .nil
  | @cons a b as bs own _ ih =>
    rw [ParseTree.splitOn, ParseTree.splitOn, same a b own]
    generalize ParseTree.splitOn isCut as = groups at ih ⊢
    generalize ParseTree.splitOn isCut' bs = groups' at ih ⊢
    split
    · exact .cons .nil ih
    · cases ih with
      | nil => exact .cons (.cons own .nil) .nil
      | cons first others => exact .cons (.cons own first) others

/-- The groups between the bars hold what the row folds to. -/
theorem holds_addAlternatives {items : List Item} {entries : List (Option NodeId)}
    (enters : List.Forall₂ d.Enters items entries) :
    (d.addAlternatives (between entries)).1.Holds (Item.fold items) (d.addAlternatives (between entries)).2 := by
  have cuts : ∀ item entry, d.Enters item entry → Item.isBar item = Option.isNone entry := by
    intro item entry own
    cases item <;> cases entry <;> first | rfl | exact own.elim
  have groups : List.Forall₂ d.HoldsAll ((ParseTree.splitOn Item.isBar items).map fun group =>
      group.filterMap Item.expression?) (between entries) := by
    rw [between, List.forall₂_map_left_iff, List.forall₂_map_right_iff]
    exact (forall₂_splitOn cuts enters).imp fun _ _ => holdsAll_of_enters
  have alternatives := holds_addChoice (holds_addSequences groups)
  rw [List.map_map] at alternatives
  exact alternatives

/-- A closed group holds the fold of its row, under its marks. -/
theorem holds_close {items : List Item} {entries : List (Option NodeId)} (enters : List.Forall₂ d.Enters items entries)
    (marks : Marks) : (d.close marks entries).1.Holds (marks.around (Item.fold items)) (d.close marks entries).2 :=
  holds_marked (holds_addAlternatives enters) marks

theorem Grows.enters (grows : Grows d d') {item : Item} {entry : Option NodeId} (own : d.Enters item entry) :
    d'.Enters item entry := by
  cases item <;> cases entry <;> first | exact own.elim | exact own | exact grows.holds own

end Draft

namespace Part

variable {α β : Type}

mutual

/-- The same parts in the same order, with related tokens. -/
def Like (R : α → β → Prop) : Part α → Part β → Prop
  | bar, bar => True
  | token a, token b => R a b
  | group marks row, group marks' row' => marks = marks' ∧ ListLike R row row'
  | _, _ => False

/-- Rows of the same shape, with related tokens. -/
def ListLike (R : α → β → Prop) : List (Part α) → List (Part β) → Prop
  | [], [] => True
  | p :: ps, q :: qs => Like R p q ∧ ListLike R ps qs
  | _, _ => False

end

mutual

/-- What relates the tokens may be weakened, where they occur. -/
theorem Like.imp_mem {R S : α → β → Prop} : ∀ {p : Part α} {q : Part β}, (∀ b ∈ q.tokens, ∀ a, R a b → S a b) →
    Like R p q → Like S p q
  | bar, bar, _, _ => trivial
  | token a, token b, more, related => more b List.mem_cons_self a related
  | group _ _, group _ _, more, ⟨same, rows⟩ => ⟨same, rows.imp_mem more⟩

theorem ListLike.imp_mem {R S : α → β → Prop} : ∀ {ps : List (Part α)} {qs : List (Part β)},
    (∀ b ∈ listTokens qs, ∀ a, R a b → S a b) → ListLike R ps qs → ListLike S ps qs
  | [], [], _, _ => trivial
  | _ :: _, _ :: _, more, ⟨own, others⟩ => by
    obtain ⟨first, later⟩ := List.forall_mem_append.mp more
    exact ⟨own.imp_mem first, others.imp_mem later⟩

end

end Part

namespace Draft

mutual

/-- The tokens are numbered with nodes that hold them. -/
theorem like_number : ∀ (p : Part Expression) {d : Draft}, d.Indexed P →
    (∀ e ∈ p.tokens, ∀ name ∈ e.mentioned, P name) →
    Part.Like (d.number p).1.Holds p (d.number p).2
  | .bar, _, _, _ => trivial
  | .token e, _, indexed, asked => holds_write e indexed (asked e List.mem_cons_self)
  | .group _ row, _, indexed, asked => ⟨rfl, like_numberAll row indexed asked⟩

theorem like_numberAll : ∀ (row : List (Part Expression)) {d : Draft}, d.Indexed P →
    (∀ e ∈ Part.listTokens row, ∀ name ∈ e.mentioned, P name) →
    Part.ListLike (d.numberAll row).1.Holds row (d.numberAll row).2
  | [], _, _, _ => trivial
  | p :: ps, d, indexed, asked => by
    obtain ⟨first, others⟩ := List.forall_mem_append.mp asked
    have step := spends_number p d first
    have grows := (spends_numberAll ps (d.number p).1 others).grows
    exact ⟨(like_number p indexed first).imp_mem fun _ _ _ => grows.holds,
      like_numberAll ps (step.indexed indexed) others⟩

end

mutual

/-- A part whose tokens are held is entered as what it means. -/
theorem enters_enter : ∀ {p : Part Expression} {q : Part NodeId} {d : Draft}, Part.Like d.Holds p q →
    (d.enter q).1.Enters p.item (d.enter q).2
  | .bar, .bar, _, _ => trivial
  | .token _, .token _, _, own => own
  | .group marks _, .group _ _, _, ⟨same, rows⟩ => by
    subst same
    exact holds_close (enters_enterAll rows) marks

theorem enters_enterAll : ∀ {ps : List (Part Expression)} {qs : List (Part NodeId)} {d : Draft},
    Part.ListLike d.Holds ps qs → List.Forall₂ (d.enterAll qs).1.Enters (Part.items ps) (d.enterAll qs).2
  | [], [], _, _ => .nil
  | p :: ps, q :: qs, d, ⟨own, others⟩ => by
    have first : Grows d (d.enter q).1 := (spends_enter (P := fun _ => True) q d).grows
    have later : Grows (d.enter q).1 _ := (spends_enterAll (P := fun _ => True) qs _).grows
    exact .cons (later.enters (enters_enter own)) (enters_enterAll (others.imp_mem fun _ _ _ => first.holds))

end

/-- **A folded row holds the fold of what was written for it.** -/
theorem holds_foldRow {ps : List (Part Expression)} {qs : List (Part NodeId)} (like : Part.ListLike d.Holds ps qs) :
    (d.foldRow qs).1.Holds (Item.fold (Part.items ps)) (d.foldRow qs).2 :=
  holds_addAlternatives (enters_enterAll like)

end Draft

/-! ## Names that are mentioned -/

theorem Expression.listMentioned_eq (es : List Expression) :
    Expression.listMentioned es = es.flatMap Expression.mentioned := by
  induction es with
  | nil => rfl
  | cons e es ih => rw [Expression.listMentioned, ih, List.flatMap_cons]

/-- What a sequence is made of decides what it mentions, -/
theorem Expression.mentioned_ofParts (es : List Expression) :
    (Expression.ofParts es).mentioned = es.flatMap Expression.mentioned := by
  match es with
  | [] => rfl
  | [e] => exact (List.append_nil _).symm
  | _ :: _ :: _ => exact Expression.listMentioned_eq _

/-- and what a choice is made of. -/
theorem Expression.mentioned_ofAlternatives (es : List Expression) :
    (Expression.ofAlternatives es).mentioned = es.flatMap Expression.mentioned := by
  match es with
  | [] => rfl
  | [e] => exact (List.append_nil _).symm
  | _ :: _ :: _ => exact Expression.listMentioned_eq _

/-- Marks mention nothing. -/
theorem Marks.mentioned_around (marks : Marks) (e : Expression) : (marks.around e).mentioned = e.mentioned := by
  have repeats : (e.repeated marks.modifier).mentioned = e.mentioned := by
    unfold Expression.repeated
    split <;> rfl
  unfold Marks.around
  split
  · exact repeats
  · exact repeats

/-- A row mentions what the expressions in it mention. -/
theorem Item.mentioned_fold (items : List Item) :
    (Item.fold items).mentioned = (items.filterMap Item.expression?).flatMap Expression.mentioned := by
  have parts : ∀ groups : List (List Item),
      (groups.map fun group => Expression.ofParts (group.filterMap Item.expression?)).flatMap Expression.mentioned =
        (groups.flatten.filterMap Item.expression?).flatMap Expression.mentioned := by
    intro groups
    induction groups with
    | nil => rfl
    | cons group groups ih =>
      rw [List.map_cons, List.flatMap_cons, ih, Expression.mentioned_ofParts, List.flatten_cons, List.filterMap_append,
        List.flatMap_append]
  rw [Item.fold, Expression.mentioned_ofAlternatives, parts, ParseTree.flatten_splitOn, List.filterMap_filter]
  congr 1
  refine List.filterMap_congr fun item _ => ?_
  cases item <;> rfl

mutual

/-- Groups mention what the tokens in them mention. -/
theorem Part.mentioned_item : ∀ p : Part Expression,
    p.item.expression?.toList.flatMap Expression.mentioned = p.tokens.flatMap Expression.mentioned
  | .bar | .token _ => rfl
  | .group marks row => by
    have inner := Part.mentioned_items row
    rw [Part.item, Item.expression?, Option.toList_some, List.flatMap_singleton, Marks.mentioned_around,
      Item.mentioned_fold, inner, Part.tokens]

/-- The fold of a row mentions what its tokens do. -/
theorem Part.mentioned_items : ∀ row : List (Part Expression),
    ((Part.items row).filterMap Item.expression?).flatMap Expression.mentioned =
      (Part.listTokens row).flatMap Expression.mentioned
  | [] => rfl
  | p :: ps => by
    rw [Part.items, Part.listTokens, List.flatMap_append, ← Part.mentioned_item p, ← Part.mentioned_items ps,
      ← List.flatMap_append]
    cases p.item <;> rfl

end

/-- A rule mentions what its tokens mention. -/
theorem Stated.mentioned_rule (stated : Stated Expression) :
    stated.rule.body.mentioned = (Part.listTokens stated.row).flatMap Expression.mentioned := by
  rw [Stated.rule, Item.mentioned_fold, Part.mentioned_items]

/-! ## Definitions -/

section

variable {e : Expression} {id body : NodeId} {own : Option String}

/-- Nothing changes where another node gets a name that is no child. -/
theorem Expression.Stands.setName_of_ne (stands : e.Stands g (Placeholder g) id own) (differ : body ≠ id)
    (free : ∀ a, body ∉ g.children a) (name : String) :
    e.Stands (g.setName body name) (Placeholder (g.setName body name)) id own := by
  refine stands.carry (body ≠ ·) (fun a c _ child same => free a (same ▸ child)) ?_ differ
  intro other row differ found
  rw [getElem?_setName_of_ne differ, found]

/-- A node that is no child stands for the same under another name. -/
theorem Expression.Stands.setName_self (stands : e.Stands g (Placeholder g) body own)
    (whole : ∀ target, e ≠ .rule target) (free : ∀ a, body ∉ g.children a) (name : String) :
    e.Stands (g.setName body name) (Placeholder (g.setName body name)) body (some name) := by
  have below : ∀ {part : Expression} {child : NodeId}, child ∈ g.children body →
      part.Stands g (Placeholder g) child part.ownName →
      part.Stands (g.setName body name) (Placeholder (g.setName body name)) child part.ownName := by
    intro part child inside stands
    refine stands.setName_of_ne ?_ free name
    rintro rfl
    exact free _ inside
  have belowAll : ∀ {es : List Expression} {ids : List NodeId}, (∀ c ∈ ids, c ∈ g.children body) →
      Expression.AllStand g (Placeholder g) ids es →
      Expression.AllStand (g.setName body name) (Placeholder (g.setName body name)) ids es := by
    intro es ids children all
    refine all.carry (body ≠ ·) (fun a c _ child same => free a (same ▸ child)) ?_
      fun c mem same => free body (same ▸ children c mem)
    intro other row differ found
    rw [getElem?_setName_of_ne differ, found]
  cases e with
  | rule target => exact absurd rfl (whole target)
  | literal _ | charSet _ _ | charRange _ _ _ | endOfInput => exact getElem?_setName_self stands
  | sequence es | choice es =>
    obtain ⟨ids, row, all⟩ := stands
    exact ⟨ids, getElem?_setName_self row, belowAll (fun c => child_of_row row) all⟩
  | repetition e | optional e | negation e =>
    obtain ⟨child, row, stands⟩ := stands
    exact ⟨child, getElem?_setName_self row, below (child_of_row row List.mem_cons_self) stands⟩

end

/-- The bodies of some rules stand for what the rules mean. -/
def Bodies (g : Grammar) (rules : List Rule) (entries : List (String × NodeId)) : Prop :=
  List.Forall₂ (fun rule entry => entry.1 = rule.name ∧
    rule.body.Stands g (Placeholder g) entry.2 (rule.body.bodyName rule.name)) rules entries

/-- Some rules are defined, and some nodes are not used yet. -/
structure Defined (P : String → Prop) (done : List Rule) (d : Draft) (table : RuleTable) (spare : List NodeId) :
    Prop where
  indexed : d.Indexed P
  laid : Laid d.grammar table.entries spare
  bodies : Bodies d.grammar done table.entries

/-- What is spare is used nowhere else, unless it is a placeholder. -/
theorem Laid.free {bodies : List (String × NodeId)} {spare : List NodeId} {body : NodeId}
    (laid : Laid g bodies (body :: spare)) (proper : (g.kind body).isReference = false) :
    (∀ a, body ∉ g.children a) ∧ ∀ id ∈ bodies.map Prod.snd ++ spare, body ≠ id := by
  have single := laid.once proper
  simp only [List.count_append, List.count_cons_self] at single
  refine ⟨fun a child => ?_, ?_⟩
  · have edge := List.count_pos_iff.mpr (mem_edges_iff.mpr ⟨a, child⟩)
    omega
  · rintro id held rfl
    have more := List.count_pos_iff.mpr held
    rw [List.count_append] at more
    omega

section

variable {done : List Rule} {table table' : RuleTable} {spare : List NodeId} {body : NodeId}
  {row : List (Part Expression)} (indexed : d.Indexed P) (laid : Laid d.grammar table.entries (body :: spare))
  (old : Bodies d.grammar done table.entries) (held : d.Holds (Item.fold (Part.items row)) body)
  (entries : table'.entries = table.entries ++ [(name, body)])

include indexed laid old held entries

/-- A row that is a bare name has a placeholder as its body, which keeps to itself. -/
theorem defined_bare (bare : (d.grammar.kind body).isReference = true) :
    Defined P (done ++ [Stated.rule ⟨name, row⟩]) d table' spare := by
  obtain ⟨target, same⟩ : ∃ target, Item.fold (Part.items row) = .rule target := by
    by_contra whole
    obtain ⟨kind, found, proper⟩ := row_of_stands held fun target same => whole ⟨target, same⟩
    rw [kind_of_row found, proper] at bare
    cases bare
  refine ⟨indexed, ?_, ?_⟩
  · rw [entries]
    exact laid.body name
  · rw [entries]
    refine List.rel_append old (.cons ⟨rfl, ?_⟩ .nil)
    rw [Stated.rule, same]
    rwa [Draft.Holds, same] at held

/-- Any other body is called after its rule. Nothing else is in the way of that, since the body was spare. -/
theorem defined_named (proper : (d.grammar.kind body).isReference = false) :
    Defined P (done ++ [Stated.rule ⟨name, row⟩]) (d.named body name) table' spare ∧
      ∀ id ∈ spare, ∀ e, d.Holds e id → (d.named body name).Holds e id := by
  obtain ⟨noChild, apart⟩ := laid.free proper
  have whole : ∀ target, Item.fold (Part.items row) ≠ .rule target := by
    intro target same
    rw [Draft.Holds, same] at held
    rw [kind_of_row held] at proper
    cases proper
  refine ⟨⟨indexed.named proper name, ?_, ?_⟩, fun id mem e own => ?_⟩
  · rw [entries]
    exact (laid.body name).setName (.inl (List.mem_append_right _ List.mem_cons_self))
  · rw [entries]
    refine List.rel_append ?_ (.cons ⟨rfl, ?_⟩ .nil)
    · refine (Grammar.forall₂_mem old).imp fun rule entry ⟨own, _, mem⟩ =>
        ⟨own.1, own.2.setName_of_ne ?_ noChild name⟩
      exact apart _ (List.mem_append_left _ (List.mem_map_of_mem mem))
    · rw [Stated.rule, bodyName_of_whole whole]
      exact held.setName_self whole noChild name
  · exact own.setName_of_ne (apart id (List.mem_append_right _ mem)) noChild name

end

/-- **One rule more**: its row is folded, and its body gets its name. -/
theorem defined_of_defineRule {done : List Rule} {table table' : RuleTable} {spare : List NodeId}
    {row : List (Part Expression)} {nodes : List (Part NodeId)}
    (defined : Defined P done d table (Part.listTokens nodes ++ spare)) (like : Part.ListLike d.Holds row nodes)
    (more : defineRule (d, table) ⟨name, nodes⟩ = .ok (d', table')) :
    Defined P (done ++ [Stated.rule ⟨name, row⟩]) d' table' spare ∧ ∀ id ∈ spare, ∀ e, d.Holds e id → d'.Holds e id := by
  have step : d.Spends P _ _ _ := d.spends_foldRow nodes
  have held := Draft.holds_foldRow like
  have indexed := step.indexed defined.indexed
  have laid := step.laid defined.indexed defined.laid
  unfold defineRule at more
  dsimp only at more
  generalize d.foldRow nodes = folded at more step held indexed laid
  obtain ⟨next, body⟩ := folded
  dsimp only at more step held indexed laid
  cases result : table.define name body with
  | error error =>
    rw [result] at more
    cases more
  | ok final =>
    rw [result] at more
    cases more
    have entries := RuleTable.entries_define result
    have old : Bodies next.grammar done table.entries := defined.bodies.imp fun rule entry own =>
      ⟨own.1, own.2.carry (fun _ => True) (fun _ _ _ _ => trivial) (fun id row _ => step.grows id row) trivial⟩
    have kept : ∀ id ∈ spare, ∀ e, d.Holds e id → next.Holds e id := fun _ _ _ => step.grows.holds
    unfold Draft.calledAfter
    by_cases bare : (next.grammar.kind body).isReference = true
    · rw [if_pos bare]
      exact ⟨defined_bare indexed laid old held entries bare, kept⟩
    · rw [if_neg bare]
      obtain ⟨called, stays⟩ := defined_named indexed laid old held entries (Bool.not_eq_true _ ▸ bare)
      exact ⟨called, fun id mem e own => stays id mem e (kept id mem e own)⟩

/-- The rows of some rules as nodes, whose tokens a draft holds. -/
def Draft.HoldsRows (d : Draft) : List (Stated Expression) → List (Stated NodeId) → Prop :=
  List.Forall₂ fun stated nodes => stated.name = nodes.name ∧ Part.ListLike d.Holds stated.row nodes.row

theorem Draft.holdsRows_numberStated : ∀ (ss : List (Stated Expression)) {d : Draft}, d.Indexed P →
    (∀ s ∈ ss, ∀ e ∈ Part.listTokens s.row, ∀ name ∈ e.mentioned, P name) →
    (d.numberStated ss).1.HoldsRows ss (d.numberStated ss).2
  | [], _, _, _ => .nil
  | s :: ss, d, indexed, asked => by
    obtain ⟨first, others⟩ := List.forall_mem_cons.mp asked
    have step := d.spends_numberAll s.row first
    have grows := ((d.numberAll s.row).1.spends_numberStated ss others).grows
    refine .cons ⟨rfl, ?_⟩ (holdsRows_numberStated ss (step.indexed indexed) others)
    exact (Draft.like_numberAll s.row indexed first).imp_mem fun _ _ _ => grows.holds

/-- Rows that were written stay held when the draft changes elsewhere. -/
theorem Draft.HoldsRows.imp_mem {ss : List (Stated Expression)} {rows : List (Stated NodeId)}
    (more : ∀ id ∈ rows.flatMap fun row => Part.listTokens row.row, ∀ e, d.Holds e id → d'.Holds e id)
    (holds : d.HoldsRows ss rows) : d'.HoldsRows ss rows := by
  induction holds with
  | nil => exact .nil
  | cons own _ ih =>
    obtain ⟨first, others⟩ := List.forall_mem_append.mp more
    exact .cons ⟨own.1, own.2.imp_mem first⟩ (ih others)

/-- **One rule after the other.** -/
theorem defined_of_foldlM : ∀ {ss : List (Stated Expression)} {rows : List (Stated NodeId)} {done : List Rule}
    {d d' : Draft}
    {table table' : RuleTable}, d.HoldsRows ss rows →
    Defined P done d table (rows.flatMap fun row => Part.listTokens row.row) →
    rows.foldlM defineRule (d, table) = .ok (d', table') → Defined P (done ++ ss.map Stated.rule) d' table' []
  | [], [], done, _, _, _, _, _, defined, ended => by
    cases ended
    rwa [List.map_nil, List.append_nil]
  | s :: ss, row :: rows, done, d, d', table, table', .cons ⟨same, like⟩ others, defined, ended => by
    obtain ⟨name, stated⟩ := s
    obtain ⟨_, nodes⟩ := row
    cases same
    rw [List.foldlM_cons] at ended
    cases result : defineRule (d, table) ⟨name, nodes⟩ with
    | error error =>
      rw [result] at ended
      cases ended
    | ok next =>
      rw [result] at ended
      obtain ⟨more, kept⟩ := defined_of_defineRule defined like result
      have final := defined_of_foldlM (Draft.HoldsRows.imp_mem kept others) more ended
      rwa [List.append_assoc] at final

/-- **The rules that are stated have their table.** -/
theorem tabled_of_draftRules {ss : List (Stated Expression)} {table : RuleTable}
    (drafted : draftRules ss = .ok (g, table)) :
    Tabled (ss.map Stated.rule) g table := by
  -- A placeholder is asked for by a token, and a token stands in some rule.
  have asked : ∀ s ∈ ss, ∀ e ∈ Part.listTokens s.row, ∀ name ∈ e.mentioned,
      ∃ rule ∈ ss.map Stated.rule, name ∈ rule.body.mentioned := by
    intro s mem e token name mentioned
    refine ⟨s.rule, List.mem_map_of_mem mem, ?_⟩
    rw [s.mentioned_rule]
    exact List.mem_flatMap.mpr ⟨e, token, mentioned⟩
  have step := Draft.spends_numberStated ss {} asked
  have rows := Draft.holdsRows_numberStated ss .empty asked
  have laid := step.laid .empty Laid.empty
  rw [List.append_nil] at laid
  unfold draftRules at drafted
  dsimp only at drafted
  cases ended : (Draft.numberStated {} ss).2.foldlM defineRule ((Draft.numberStated {} ss).1, {}) with
  | error error =>
    rw [ended] at drafted
    cases drafted
  | ok result =>
    rw [ended] at drafted
    cases drafted
    obtain ⟨d, table⟩ := result
    obtain ⟨indexed, laid, bodies⟩ := defined_of_foldlM rows ⟨step.indexed .empty, laid, .nil⟩ ended
    refine ⟨bodies, laid.backward, fun proper => ?_, indexed.shared, fun kind => ?_, laid.named⟩
    · have single := laid.once proper
      rwa [List.append_nil] at single
    · exact indexed.asked (indexed.listed kind)

end BnfTokenizer.Dialect
