import BnfTokenizer.Proofs.Dialect.Ranges
import BnfTokenizer.Proofs.Dialect.Shapes
import BnfTokenizer.Proofs.Dialect.Statements
import BnfTokenizer.Proofs.Match.Adequacy
import BnfTokenizer.Proofs.ParseTree.Forest

/-!
# What is read can be said

A grammar text that was matched is read, unless one of its ranges is not in order, and then the first such range is
reported. The rules that are read are such as can be written: names are words, a name that stands for a rule is not
the keyword, ranges are in order, and no sequence and no choice has less than two parts. `Expression.Sayable` is
that for an expression.

Reading alone does not see to it, since it takes any tree. It is the dialect's grammar that leaves no other
trees, so the proof goes by the shapes of what is left.
-/

namespace BnfTokenizer.Dialect

open ParseTree (View)

variable {source text rest : List Char} {views : List View}

/-! ## Sayable expressions -/

namespace Expression

mutual

def Sayable : Expression → Prop
  | charRange low high _ => low ≤ high
  | rule name => IsMention name
  | sequence parts | choice parts => 2 ≤ parts.length ∧ AllSayable parts
  | repetition inner | optional inner | negation inner => inner.Sayable
  | _ => True

def AllSayable : List Expression → Prop
  | [] => True
  | e :: es => e.Sayable ∧ AllSayable es

end

theorem Sayable.ofParts {parts : List Expression} (some : parts ≠ []) (all : AllSayable parts) :
    (Expression.ofParts parts).Sayable := by
  match parts, all with
  | [part], ⟨only, _⟩ => exact only
  | _ :: _ :: _, all => exact ⟨Nat.le_add_left 2 _, all⟩

theorem Sayable.ofAlternatives {alternatives : List Expression} (some : alternatives ≠ [])
    (all : AllSayable alternatives) : (Expression.ofAlternatives alternatives).Sayable := by
  match alternatives, all with
  | [alternative], ⟨only, _⟩ => exact only
  | _ :: _ :: _, all => exact ⟨Nat.le_add_left 2 _, all⟩

end Expression

/-! ## Rows -/

/-- What follows the first expression of a statement: expressions, each perhaps behind a bar. -/
inductive Continued : List Item → Prop
  | nil : Continued []
  | spaced {e items} (sayable : e.Sayable) (rest : Continued items) : Continued (.expression e :: items)
  | barred {e items} (sayable : e.Sayable) (rest : Continued items) :
      Continued (.bar :: .expression e :: items)

theorem Continued.append {items others : List Item} (first : Continued items) (second : Continued others) :
    Continued (items ++ others) := by
  induction first with
  | nil => exact second
  | spaced sayable _ ih => exact .spaced sayable ih
  | barred sayable _ ih => exact .barred sayable ih

/-- No group between bars is empty. -/
theorem Continued.groups {items : List Item} (continued : Continued items) :
    ∀ e : Expression, e.Sayable →
      ∃ groups : List (List Expression),
        ParseTree.splitOn Item.isBar (.expression e :: items) = groups.map (·.map .expression) ∧
          groups ≠ [] ∧ ∀ group ∈ groups, group ≠ [] ∧ Expression.AllSayable group := by
  induction continued with
  | nil =>
    intro e sayable
    exact ⟨[[e]], rfl, List.cons_ne_nil _ _,
      List.forall_mem_singleton.mpr ⟨List.cons_ne_nil _ _, sayable, trivial⟩⟩
  | @spaced other items sayable _ ih =>
    intro e own
    obtain ⟨groups, split, some, all⟩ := ih other sayable
    obtain ⟨group, groups, rfl⟩ := List.exists_cons_of_ne_nil some
    obtain ⟨head, tail⟩ := List.forall_mem_cons.mp all
    refine ⟨(e :: group) :: groups, ?_, List.cons_ne_nil _ _,
      List.forall_mem_cons.mpr ⟨⟨List.cons_ne_nil _ _, own, head.2⟩, tail⟩⟩
    rw [ParseTree.splitOn, split]
    rfl
  | @barred other items sayable _ ih =>
    intro e own
    obtain ⟨groups, split, some, all⟩ := ih other sayable
    refine ⟨[e] :: groups, ?_, List.cons_ne_nil _ _,
      List.forall_mem_cons.mpr ⟨⟨List.cons_ne_nil _ _, own, trivial⟩, all⟩⟩
    rw [ParseTree.splitOn, ParseTree.splitOn, split]
    rfl

theorem Continued.sayable_fold {items : List Item} (continued : Continued items) {e : Expression}
    (own : e.Sayable) : (Item.fold (.expression e :: items)).Sayable := by
  obtain ⟨groups, split, some, all⟩ := continued.groups e own
  have alternatives : (groups.map (·.map Item.expression)).map
      (fun group => Expression.ofParts (group.filterMap Item.expression?)) = groups.map Expression.ofParts := by
    rw [List.map_map]
    exact List.map_congr_left fun group _ => congrArg Expression.ofParts (expressions_items group)
  rw [Item.fold, split, alternatives]
  refine .ofAlternatives (fun empty => some (List.map_eq_nil_iff.mp empty)) ?_
  clear split some alternatives
  induction groups with
  | nil => trivial
  | cons group groups ih =>
    obtain ⟨head, tail⟩ := List.forall_mem_cons.mp all
    exact ⟨.ofParts head.1 head.2, ih tail⟩

/-! ## Atoms -/

theorem exists_unescaped (d : Char) : ∃ c, unescaped (String.ofList [d]) = String.ofList [c] := by
  by_cases free : d ∈ ['n', 't', 'r']
  · simp only [List.mem_cons, List.not_mem_nil, or_false] at free
    rcases free with rfl | rfl | rfl
    · exact ⟨'\n', rfl⟩
    · exact ⟨'\t', rfl⟩
    · exact ⟨'\r', rfl⟩
  · exact ⟨d, unescaped_of_free free⟩

/-- A piece spells one character, and there is no range in it. -/
theorem PieceView.spelled {own : String} {v : View} (is : PieceView own v) (ordinary : own ≠ "escape" ∧ own ≠ "anyChar")
    (other : own ≠ "chargroup") : (∃ c, Dialect.spelled v = String.ofList [c]) ∧ ranges v = [] := by
  cases is with
  | plain c span =>
    refine ⟨⟨c, ?_⟩, ranges_node (fun same => other (Option.some.inj same)) ..⟩
    simp [Dialect.spelled, ordinary]
  | escaped value mark d span first second =>
    obtain ⟨c, same⟩ := exists_unescaped d
    refine ⟨⟨c, ?_⟩, rfl⟩
    rw [← same]
    simp [Dialect.spelled, listSpelled]

theorem MarkViews.listRanges {name : String} {vs : List View} (marks : MarkViews name vs) (other : name ≠ "chargroup") :
    listRanges vs = [] := by
  cases marks with
  | missing => rfl
  | there value span =>
    rw [listRanges_singleton, ranges_node fun same => other (Option.some.inj same), Dialect.listRanges]

theorem listRanges_pieces {own : String} (ordinary : own ≠ "escape" ∧ own ≠ "anyChar") (other : own ≠ "chargroup")
    {pieces : List View} (each : ∀ v ∈ pieces, PieceView own v) : listRanges pieces = [] := by
  induction pieces with
  | nil => rfl
  | cons v vs ih =>
    obtain ⟨head, tail⟩ := List.forall_mem_cons.mp each
    rw [listRanges, (head.spelled ordinary other).2, ih tail, List.append_nil]

theorem BodyViews.listRanges {name own : String} {vs : List View} (is : BodyViews name own vs)
    (ordinary : own ≠ "escape" ∧ own ≠ "anyChar") (other : own ≠ "chargroup") (another : name ≠ "chargroup") :
    listRanges vs = [] := by
  have apart : some name ≠ some "chargroup" := fun same => another (Option.some.inj same)
  cases is with
  | missing => rfl
  | there value value' span span' _ each =>
    rw [listRanges_singleton, ranges_node apart, listRanges_singleton, ranges_node apart,
      listRanges_pieces ordinary other each]

/-- A bound spells the one character in it. -/
theorem spellsAs_bound {name value : String} {span : Span} {v : View} {c : Char}
    (ordinary : name ≠ "escape" ∧ name ≠ "anyChar") (spelt : spelled v = String.ofList [c]) :
    SpellsAs [.node (some name) value span [v]] name [c] := by
  refine ⟨List.forall_mem_singleton.mpr rfl, ?_⟩
  simp only [List.find?_cons, View.name, BEq.rfl, Option.map_some, Option.getD_some]
  rw [spelled_cons ordinary, listSpelled, spelt]
  exact join_singleton _

/-- Atoms are read, and what is read can be said. -/
theorem AtomView.reads {v : View} (is : AtomView v) (source : String) :
    Settles (ranges v) Expression.Sayable (readAtom source v) := by
  cases is with
  | text value span is =>
    rw [ranges_node (by decide), is.listRanges (by decide) (by decide) (by decide)]
    exact .ok trivial
  | set value span mark is =>
    rw [ranges_node (by decide), listRanges_append, mark.listRanges (by decide),
      is.listRanges (by decide) (by decide) (by decide)]
    exact .ok trivial
  | @range marks low high value lower upper span first last mark isLow isHigh =>
    obtain ⟨⟨c, spelt⟩, none⟩ := isLow.spelled (by decide) (by decide)
    obtain ⟨⟨c', spelt'⟩, none'⟩ := isHigh.spelled (by decide) (by decide)
    obtain ⟨lowBound, highBound⟩ := @boundOf_range (some "chargroup") value span _ _ _ _ _ mark.name
      (spellsAs_bound (by decide) spelt) (spellsAs_bound (by decide) spelt')
    rw [List.singleton_append] at lowBound highBound
    rw [ranges, if_pos rfl, bounds?, readAtom, View.name, lowBound, highBound, listRanges_append,
      mark.listRanges (by decide), listRanges, ranges_node (by decide), listRanges_singleton, none, listRanges_singleton,
      ranges_node (by decide), listRanges_singleton, none']
    exact .range fun ordered => ordered
  | endOfInput => exact .ok trivial
  | word _ is => exact .ok is

/-! ## Elements and statements -/

theorem sayable_withMarks {v : View} {e : Expression} (sayable : e.Sayable) : (withMarks v e).Sayable := by
  unfold withMarks
  dsimp only
  split <;> split <;> exact sayable

/-- A row of one expression that can be said. -/
def Single (items : List Item) : Prop :=
  ∃ e, items = [.expression e] ∧ e.Sayable

/-- A row that begins with an expression and goes on as a statement does. -/
def Started (items : List Item) : Prop :=
  ∃ e rest, items = .expression e :: rest ∧ e.Sayable ∧ Continued rest

theorem Started.sayable_fold {items : List Item} (started : Started items) : (Item.fold items).Sayable := by
  obtain ⟨e, rest, rfl, own, continued⟩ := started
  exact continued.sayable_fold own

/-- Marks stand for nothing in a row. -/
theorem MarkViews.silent {name : String} {vs : List View} (marks : MarkViews name vs) (other : name ≠ "chargroup")
    (silent : ∀ value span children, Reads (.node (some name) value span children) []) (source : String) :
    Settles (Dialect.listRanges vs) (· = []) (listReadItems source vs) := by
  rw [marks.listRanges other, ReadsAll.silent marks.name silent source]
  exact .ok rfl

mutual

/-- An element is read as one expression. -/
theorem ElementView.reads : ∀ {v : View}, ElementView v → ∀ source, Settles (ranges v) Single (readItems source v)
  | _, .token value span bang is modifier, source => by
    rw [readItems, readToken, View.children, find?_atom bang is, ranges_node (by decide), listRanges_append, listRanges,
      bang.listRanges (by decide), modifier.listRanges (by decide), List.append_nil, List.nil_append]
    exact ((is.reads source).map fun e => sayable_withMarks).map fun e sayable => ⟨e, rfl, sayable⟩
  | _, @ElementView.nested bangs mods statement value span bang is modifier, source => by
    have there : hasMark (.node (some "nested") value span (bangs ++ statement :: mods)) "statement" = true := by
      rw [hasMark, View.childByName, View.children, find?_statement bang is]
      rfl
    have row : Settles (listRanges (statement :: mods)) Started (listReadItems source (statement :: mods)) := by
      refine settles_row (is.reads source) (modifier.silent (by decide) (fun _ _ _ _ => rfl) source) ?_
      rintro items _ started rfl
      rwa [List.append_nil]
    have whole : Settles (listRanges (bangs ++ statement :: mods)) Started
        (listReadItems source (bangs ++ statement :: mods)) := by
      rw [listRanges_append, listReadItems_append]
      refine (bang.silent (by decide) (fun _ _ _ _ => rfl) source).bind ?_
      rintro _ rfl
      exact row.map fun items started => started
    rw [readItems, if_pos there, ranges_node (by decide)]
    exact whole.map fun items started => ⟨_, rfl, sayable_withMarks started.sayable_fold⟩

theorem StatementView.reads : ∀ {v : View}, StatementView v → ∀ source, Settles (ranges v) Started (readItems source v)
  | _, .row value span first more, source => by
    rw [readItems, ranges_node (by decide)]
    refine settles_row (first.reads source) (more.reads source) ?_
    rintro _ others ⟨e, rfl, sayable⟩ rest
    exact ⟨e, others, rfl, sayable, rest⟩

/-- The wrappers of what goes on behind an element are looked through. -/
theorem ContinuedViews.reads : ∀ {vs : List View}, ContinuedViews vs → ∀ source,
    Settles (listRanges vs) Continued (listReadItems source vs)
  | _, .nil, _ => .ok .nil
  | _, @ContinuedViews.spaced v _ value value' span span' element more, source => by
    have own : Settles
        (ranges (.node (some "statementOpt") value span [.node (some "spaceOpt") value' span' [v]])) Continued
        (readItems source (.node (some "statementOpt") value span [.node (some "spaceOpt") value' span' [v]])) := by
      rw [readItems, ranges_node (by decide)]
      refine settles_single ?_
      rw [readItems, ranges_node (by decide)]
      refine settles_single ((element.reads source).imp ?_)
      rintro _ ⟨e, rfl, sayable⟩
      exact .spaced sayable .nil
    exact settles_row own (more.reads source) fun _ _ => .append
  | _, @ContinuedViews.barred v _ value value' bar span span' place element more, source => by
    have isBar : Settles (ranges (.node (some "|") bar place [])) (· = [.bar])
        (readItems source (.node (some "|") bar place [])) := .ok rfl
    have own : Settles
        (ranges (.node (some "statementOpt") value span
          [.node (some "pipeOpt") value' span' [.node (some "|") bar place [], v]]))
        Continued (readItems source
          (.node (some "statementOpt") value span
            [.node (some "pipeOpt") value' span' [.node (some "|") bar place [], v]])) := by
      rw [readItems, ranges_node (by decide)]
      refine settles_single ?_
      rw [readItems, ranges_node (by decide)]
      refine settles_row isBar (settles_single (element.reads source)) ?_
      rintro _ _ rfl ⟨e, rfl, sayable⟩
      exact .barred sayable .nil
    exact settles_row own (more.reads source) fun _ _ => .append

end

/-! ## Rules -/

/-- A sentence states a rule of its name, and one that can be said. -/
def States (v : View) (rule : Rule) : Prop :=
  (v.childByName "word").map View.value = some rule.name ∧ IsName rule.name ∧ rule.body.Sayable

/-- A sentence is read as a rule. -/
theorem SentenceView.reads {v : View} (is : SentenceView v) (source : String) :
    Settles (ranges v) (States v) (readSentence source v) := by
  cases is with
  | @rule word value statement span place named is =>
    have own : ranges (.node (some "sentence") value span [.node (some "word") word place [], statement]) =
        ranges statement := by
      rw [ranges_node (by decide)]
      exact listRanges_singleton statement
    rw [own, readSentence, (is.found_in_sentence word value span place).2]
    exact (is.reads source).map fun items started => ⟨rfl, named, started.sayable_fold⟩

/-- The names of the rules that a culled tree states, in order. -/
def statedNames (grammar : View) : List String :=
  (grammar.children.filter fun c => c.name == some "sentence").filterMap fun sentence =>
    (sentence.childByName "word").map View.value

/-- Sentences are read as rules with their names. -/
theorem settles_readRules {name : Option String} {value : String} {span : Span} {vs : List View}
    (ordinary : name ≠ some "chargroup") (each : ∀ v ∈ vs, SentenceView v) (source : String) :
    Settles (ranges (.node name value span vs))
      (fun rules => rules.map Rule.name = statedNames (.node name value span vs) ∧
        ∀ rule ∈ rules, IsName rule.name ∧ rule.body.Sayable)
      (readRules source (.node name value span vs)) := by
  have sentences : vs.filter (fun c => c.name == some "sentence") = vs :=
    List.filter_eq_self.mpr fun v mem => beq_iff_eq.mpr (each v mem).name
  rw [ranges_node ordinary, readRules, statedNames, View.children, sentences]
  refine (settles_mapM fun v mem => (each v mem).reads source).imp fun rules states => ?_
  clear each sentences
  induction states with
  | nil => exact ⟨rfl, List.forall_mem_nil _⟩
  | cons first _ ih =>
    rw [List.map_cons, List.filterMap_cons, first.1, ih.1]
    exact ⟨rfl, List.forall_mem_cons.mpr ⟨first.2, ih.2⟩⟩

/-- The tree of a text as it is lowered: a forest, and below the root there are sentences. -/
structure Sentenced (source : List Char) (tree : ParseTree) : Prop where
  forest : tree.Forest
  text : tree.source = source
  called : (tree.view tree.root).name = some "grammar"
  sentences : ∀ v ∈ (tree.view tree.root).children, SentenceView v

/-- A text is judged by the match of the dialect's grammar at its start. -/
theorem tokenize_eq (limits : Match.Limits) (source : List Char) :
    (lexer.withLimits limits).tokenize (String.ofList source) = Lexer.judge (String.ofList source)
      (Match.matchAt definitions Symbol.grammar.id (String.ofList ([] ++ source))
        (Text.byteLength ([] : List Char)) limits) :=
  rfl

/-- **A text in the dialect is parsed to sentences.** -/
theorem sentenced_of_parse {limits : Match.Limits} {tree : ParseTree}
    (parsed : parse limits (String.ofList source) = .ok tree) : Sentenced source tree := by
  rw [parse, tokenize_eq] at parsed
  generalize matching : Match.matchAt definitions Symbol.grammar.id (String.ofList ([] ++ source))
    (Text.byteLength ([] : List Char)) limits = ended at parsed
  match ended with
  | .error fault => cases parsed
  | .ok ⟨none, furthest⟩ => cases parsed
  | .ok ⟨some found, furthest⟩ =>
    obtain ⟨derived, stop, derives, laid, root, text, _⟩ := Match.laid_of_matchAt matching
    rw [Lexer.judge] at parsed
    by_cases short : found.stop < Text.byteLength (String.ofList source).toList
    · rw [if_pos short] at parsed
      cases parsed
    · rw [if_neg short] at parsed
      cases parsed
      have alike := ParseTree.alike_cull found.tree found.tree.root cullFilters
      rw [← place_self] at derives
      obtain ⟨called, sound⟩ := sentenceView_of_derives derives
      -- The tree that was built is the derived one, and culling is known of derived trees.
      obtain ⟨hangs, all⟩ := Match.DerivedTree.hangs_all laid
      have shown := Match.DerivedTree.view_cull laid cullFilters
      rw [← root, text] at shown
      refine ⟨(hangs.forest all).cull _ _, alike.source.trans text, ?_, ?_⟩
      · rw [alike.root, shown]
        exact called
      · rw [alike.root, shown]
        exact sound

/-- **A text in the dialect is read as its rules**, unless a range is not in order. The rules have the names that are
stated, which are words, and bodies that can be written. -/
theorem settles_rulesOf {limits : Match.Limits} {tree : ParseTree}
    (parsed : parse limits (String.ofList source) = .ok tree) :
    Settles (ranges (tree.view tree.root))
      (fun rules => rules.map Rule.name = statedNames (tree.view tree.root) ∧
        ∀ rule ∈ rules, IsName rule.name ∧ rule.body.Sayable)
      (rulesOf tree) := by
  have sentenced := sentenced_of_parse parsed
  have called := sentenced.called
  have sentences := sentenced.sentences
  rw [rulesOf]
  generalize tree.view tree.root = v at called sentences
  obtain ⟨name, value, span, vs⟩ := v
  obtain rfl : name = some "grammar" := called
  exact settles_readRules (by decide) sentences _

/-- What is read can be said. -/
theorem sayable_of_rulesOf {limits : Match.Limits} {tree : ParseTree} {rules : List Rule}
    (parsed : parse limits (String.ofList source) = .ok tree) (read : rulesOf tree = .ok rules) :
    ∀ rule ∈ rules, IsName rule.name ∧ rule.body.Sayable :=
  ((settles_rulesOf parsed).of_ok read).2

end BnfTokenizer.Dialect
