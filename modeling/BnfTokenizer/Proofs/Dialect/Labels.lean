import BnfTokenizer.Proofs.Dialect.RoundTrip
import BnfTokenizer.Proofs.Match.Coverage
import BnfTokenizer.Proofs.ParseTree.Outline
import BnfTokenizer.Proofs.ParseTree.Root

/-!
# What the nodes of a tree are called

A node of a matched tree is called like a node of the grammar: like the one that it was matched by, or like a choice
that passed it on (`Derives.calls`). A compiled grammar has two sorts of names. A rule is called by a word, and a
literal by its text behind a quotation mark (`name_of_compile`). Words have no newline in them, but the text of a literal
may be anything, and it is not escaped in the name.

> An outline has one line for each node of a tree just where no literal with a newline in it was matched, and then it
> tells the nodes in preorder and the shape of the tree (`outline_of_tokenize`).

The other case is not far away: a grammar that tokenizes a newline has it (`newline_breaks_outline`).
-/

namespace BnfTokenizer

/-! ## Names of matched nodes -/

theorem ParseTree.node_mem_toList {t : ParseTree} {r : Ref} (inside : r < t.size) : t.node r ∈ t.nodes.toList := by
  have within : r < t.nodes.size := inside
  rw [node, Array.getD_eq_getD_getElem?, Array.getElem?_eq_getElem within, Option.getD_some]
  exact Array.getElem_mem_toList within

namespace Match

open ParseTree (Node)

namespace DerivedTree

mutual

/-- Every node that has a name is called like a node of the grammar. -/
def Calls (g : Grammar) : DerivedTree → Prop
  | node _ name _ children => (∀ n ∈ name, ∃ id, g.name id = some n) ∧ ListCalls g children

def ListCalls (g : Grammar) : List DerivedTree → Prop
  | [] => True
  | t :: ts => t.Calls g ∧ ListCalls g ts

end

variable {g : Grammar}

theorem ListCalls.nil : ListCalls g [] :=
  trivial

theorem ListCalls.cons {tree : DerivedTree} {trees : List DerivedTree} (later : ListCalls g trees)
    (first : tree.Calls g) : ListCalls g (tree :: trees) :=
  ⟨first, later⟩

theorem ListCalls.spanning {trees : List DerivedTree} (below : ListCalls g trees) (id : NodeId) (here stop : Cursor) :
    (DerivedTree.spanning g id here stop trees).Calls g :=
  ⟨fun _ named => ⟨id, named⟩, below⟩

/-- A choice gives its name to what has none. -/
theorem Calls.called {tree : DerivedTree} (calls : tree.Calls g) (id : NodeId) : (tree.called (g.name id)).Calls g := by
  obtain ⟨origin, own, span, children⟩ := tree
  refine ⟨fun name named => ?_, calls.2⟩
  rcases Option.or_eq_some_iff.mp named with known | ⟨_, passed⟩
  · exact calls.1 name known
  · exact ⟨id, passed⟩

mutual

theorem name_of_mem_rows : ∀ (tree : DerivedTree) (base : Nat) (parent : Option ParseTree.Ref), tree.Calls g →
    ∀ row ∈ tree.rows base parent, ∀ name ∈ row.name, ∃ id, g.name id = some name
  | node _ _ _ children, base, _, calls, row, mem => by
    rcases List.mem_append.mp mem with below | top
    · exact name_of_mem_listRows children base _ calls.2 row below
    · rw [List.mem_singleton.mp top]
      exact calls.1

theorem name_of_mem_listRows : ∀ (trees : List DerivedTree) (base : Nat) (parent : Option ParseTree.Ref),
    ListCalls g trees → ∀ row ∈ listRows base parent trees, ∀ name ∈ row.name, ∃ id, g.name id = some name
  | tree :: trees, base, parent, calls, row, mem => by
    rcases List.mem_append.mp mem with here | later
    · exact name_of_mem_rows tree base parent calls.1 row here
    · exact name_of_mem_listRows trees (base + tree.size) parent calls.2 row later

end

end DerivedTree

variable {g : Grammar}

mutual

theorem Derives.calls : ∀ {id here result}, Derives g id here result → ∀ found ∈ result, found.1.Calls g
  | id, _, _, .literal _ _, _, rfl => DerivedTree.ListCalls.nil.spanning id _ _
  | id, _, _, .character _ _, _, rfl => DerivedTree.ListCalls.nil.spanning id _ _
  | id, _, _, .sequence _ all, _, rfl => (all.calls _ rfl).spanning id _ _
  | id, _, _, .choice _ first, _, rfl => (first.calls _ rfl).called id
  | id, _, _, .repetition _ rounds, _, rfl => rounds.calls.spanning id _ _
  | id, _, _, .optional _ present, _, rfl => (DerivedTree.ListCalls.nil.cons (present.calls _ rfl)).spanning id _ _
  | id, _, _, .optionalSkips _ _, _, rfl => DerivedTree.ListCalls.nil.spanning id _ _
  | id, _, _, .negation _ _, _, rfl => DerivedTree.ListCalls.nil.spanning id _ _
  | id, _, _, .endOfInput _ _, _, rfl => DerivedTree.ListCalls.nil.spanning id _ _
termination_by structural _ _ _ derives => derives

theorem DerivesAll.calls : ∀ {ids here result}, DerivesAll g ids here result →
    ∀ found ∈ result, DerivedTree.ListCalls g found.1
  | _, _, _, .nil, _, rfl => .nil
  | _, _, _, .cons head tail, _, rfl => .cons (tail.calls _ rfl) (head.calls _ rfl)
termination_by structural _ _ _ derives => derives

theorem DerivesFirst.calls : ∀ {ids here result}, DerivesFirst g ids here result → ∀ found ∈ result, found.1.Calls g
  | _, _, _, .here head, found, mem => head.calls found mem
  | _, _, _, .later _ tail, found, mem => tail.calls found mem
termination_by structural _ _ _ derives => derives

theorem DerivesMore.calls : ∀ {id here trees stop}, DerivesMore g id here trees stop → DerivedTree.ListCalls g trees
  | _, _, _, _, .stop _ => .nil
  | _, _, _, _, .more once _ again => .cons again.calls (once.calls _ rfl)
termination_by structural _ _ _ _ derives => derives

end

/-- The nodes of a match are called like nodes of the grammar. -/
theorem name_of_traceAt {σ : Type} {id : NodeId} {input : String} {offset : Nat} {limits : Limits} {tracer : Tracer σ}
    {gathered : σ} {found : Found} {furthest : Nat}
    (ends : (traceAt g id input offset limits tracer gathered).1 = .ok ⟨some found, furthest⟩) {r : ParseTree.Ref}
    {name : String} (named : found.tree.name r = some name) : ∃ id, g.name id = some name := by
  obtain ⟨before, after, rfl, rfl⟩ := parted_of_traceAt ends
  obtain ⟨tree, _, derives, laid, _⟩ := laid_of_traceAt ends
  by_cases inside : r < found.tree.size
  · have row := laid ▸ ParseTree.node_mem_toList inside
    exact tree.name_of_mem_rows 0 none (derives.calls _ rfl) _ row name named
  · rw [ParseTree.name, ParseTree.node_of_size_le _ (Nat.not_lt.mp inside)] at named
    cases named

end Match

/-! ## Names in a compiled grammar -/

namespace Dialect

open Grammar (Node Kind)
open ParseTree (Ref LineStyle IsVisible)

variable {rules : List Rule} {limits : Match.Limits} {source : String} {lexer : Lexer}

/-- Linking leaves literals as they are. -/
theorem RuleTable.Linked.kind_literal {table : RuleTable} {g final : Grammar} {root id : NodeId}
    {visited : NodeId → Prop} (linked : table.Linked g root visited final) (inside : id < g.size) {text : List Char}
    (kind : g.kind id = .literal text) : final.kind id = .literal text := by
  by_cases mark : visited id
  · obtain ⟨targets, _, node⟩ := linked.redirected id inside mark
    rw [Grammar.kind, node, kind]
    rfl
  · exact (congrArg Node.kind (linked.kept id mark)).trans kind

/-- A node of a compiled grammar is called like a rule, or it is a literal and called by its text. -/
theorem name_of_compile (compiled : compile limits source = .ok lexer) {id : NodeId} {name : String}
    (named : lexer.grammar.name id = some name) :
    IsName name ∨ ∃ text, lexer.grammar.kind id = .exactly text ∧ name = "'" ++ text := by
  obtain ⟨rules, drafted, table, visited, assembled⟩ := assembled_of_compile compiled
  rw [assembled.linked.name] at named
  by_cases inside : id < drafted.size
  · obtain listed | ⟨text, kind, label⟩ := assembled.tabled.named named
    · obtain ⟨rule, mem, rfl, _⟩ := assembled.tabled.exists_rule listed
      exact .inl (assembled.proper.names rule mem)
    · exact .inr ⟨text, assembled.linked.kind_literal inside kind, label⟩
  · rw [Grammar.name, Grammar.node_of_size_le (Nat.not_lt.mp inside)] at named
    cases named

theorem IsName.newline_not_mem {name : String} (is : IsName name) : '\n' ∉ name.toList := by
  obtain ⟨word, rfl⟩ := is
  rw [Word.name, String.toList_ofList]
  exact fun mem => (word.chars _ mem).not_mem '\n' (by decide) rfl

theorem IsName.isVisible {name : String} (is : IsName name) : IsVisible name := by
  obtain ⟨word, rfl⟩ := is
  obtain ⟨first, rest, text⟩ := List.exists_cons_of_ne_nil word.nonempty
  refine ⟨first, rest, by rw [Word.name, String.toList_ofList, text], ?_⟩
  exact (word.chars first (text ▸ List.mem_cons_self)).not_mem ' ' (by decide)

/-! ## Outlines of tokenized texts -/

section

variable {more : Match.Limits} {input : String} {tree : ParseTree} {c : Ref}

/-- A node of a tree that a compiled grammar makes of a text is called by a word or by the text of a literal. -/
theorem name_of_tokenize (compiled : compile limits source = .ok lexer)
    (tokenized : (lexer.withLimits more).tokenize input = .ok tree) {name : String} (named : tree.name c = some name) :
    IsName name ∨ ∃ id text, lexer.grammar.kind id = .exactly text ∧ name = "'" ++ text := by
  obtain ⟨found, _, matching, rfl, _⟩ := Match.found_of_tokenize tokenized
  obtain ⟨id, own⟩ := Match.name_of_traceAt matching named
  exact (name_of_compile compiled own).imp_right fun literal => ⟨id, literal⟩

theorem isVisible_label (compiled : compile limits source = .ok lexer)
    (tokenized : (lexer.withLimits more).tokenize input = .ok tree) : IsVisible (tree.label c) := by
  rw [ParseTree.label]
  cases named : tree.name c with
  | none => exact ⟨'_', [], rfl, by decide⟩
  | some name =>
    rcases name_of_tokenize compiled tokenized named with is | ⟨_, text, _, rfl⟩
    · exact is.isVisible
    · exact ⟨'\'', text.toList, String.toList_append, by decide⟩

/-- Only the text of a literal brings a newline into a name. -/
theorem literal_of_newline (compiled : compile limits source = .ok lexer)
    (tokenized : (lexer.withLimits more).tokenize input = .ok tree) (broken : '\n' ∈ (tree.label c).toList) :
    ∃ id text, lexer.grammar.kind id = .exactly text ∧ '\n' ∈ text.toList ∧ tree.name c = some ("'" ++ text) := by
  rw [ParseTree.label] at broken
  cases named : tree.name c with
  | none =>
    rw [named] at broken
    exact absurd broken (by decide)
  | some name =>
    rw [named, Option.getD_some] at broken
    rcases name_of_tokenize compiled tokenized named with is | ⟨id, text, kind, rfl⟩
    · exact absurd broken is.newline_not_mem
    · rw [String.toList_append] at broken
      exact ⟨id, text, kind, (List.mem_append.mp broken).resolve_left (by decide), rfl⟩

/-- **Where outlines can be read.** In the tree of a text, an outline from any node and in any style has the newlines of
the names in it, and one more for each node. So it can be read just where no name at or below the node holds a newline,
and only the text of a literal brings one into a name. -/
theorem outline_of_tokenize (compiled : compile limits source = .ok lexer)
    (tokenized : (lexer.withLimits more).tokenize input = .ok tree) (r : Ref) (spans values colored : Bool) :
    let style : LineStyle := ⟨spans, values, .ofBool colored⟩
    (∀ level c, tree.leveled level c = (c, level) :: (tree.children c).flatMap (tree.leveled (level + 1))) ∧
      ((tree.leveled 0 r).map Prod.fst = tree.preorder r ∧
        ∀ c, tree.shape c = .node ((tree.children c).map tree.shape)) ∧
      newlines (tree.outline r style) =
        (tree.preorder r).length + ((tree.preorder r).map fun c => newlines (tree.label c)).sum ∧
      (tree.Legible r style ↔ ∀ c ∈ tree.preorder r, '\n' ∉ (tree.label c).toList) ∧
      ∀ c, '\n' ∈ (tree.label c).toList →
        ∃ id text, lexer.grammar.kind id = .exactly text ∧ '\n' ∈ text.toList ∧ tree.name c = some ("'" ++ text) := by
  obtain ⟨found, _, matching, rfl, _⟩ := Match.found_of_tokenize tokenized
  have forest := (Match.rooted_of_traceAt matching).toForest
  have visible : ∀ c, IsVisible (found.tree.label c) := fun _ => isVisible_label compiled tokenized
  intro style
  have inked : style.palette = .ofBool colored := rfl
  exact ⟨forest.leveled_eq, ⟨forest.map_fst_leveled 0 r, forest.shape_eq⟩, forest.newlines_outline inked r,
    forest.legible_iff inked visible, fun c => literal_of_newline compiled tokenized⟩

end

/-- What is told of the tree of a text is told of a tree. -/
theorem exists_of_told {α : Type} {told : ParseTree → α} {source input : String} {value : α}
    (tells : ((compile {} source).toOption.bind fun lexer =>
      ((lexer.withLimits {}).tokenize input).toOption.map told) = some value) :
    ∃ lexer tree, compile {} source = .ok lexer ∧ (lexer.withLimits {}).tokenize input = .ok tree ∧
      told tree = value := by
  cases compiled : compile {} source with
  | error error =>
    rw [compiled] at tells
    cases tells
  | ok lexer =>
    rw [compiled, Except.toOption, Option.bind_some] at tells
    cases tokenized : (lexer.withLimits {}).tokenize input with
    | error error =>
      rw [tokenized] at tells
      cases tells
    | ok tree =>
      rw [tokenized] at tells
      exact ⟨lexer, tree, rfl, tokenized, Option.some.inj tells⟩

/-- Letters behind a mark. The second letter has a name of its own, the list of them has none. -/
theorem letters_outlined : ∃ lexer tree, compile {} "root::=\"<\" letter+\nletter::=\"x\"|[y]" = .ok lexer ∧
    (lexer.withLimits {}).tokenize "<xy" = .ok tree ∧ tree.Legible tree.root ⟨false, true, .ofBool false⟩ ∧
      tree.outline tree.root ⟨false, true, .ofBool false⟩ =
        "root\n  '< \"<\"\n  _\n    'x \"x\"\n    letter \"y\"\n" := by
  have tells : ((compile {} "root::=\"<\" letter+\nletter::=\"x\"|[y]").toOption.bind fun lexer =>
      ((lexer.withLimits {}).tokenize "<xy").toOption.map fun tree =>
        (tree.outline tree.root ⟨false, true, .ofBool false⟩,
          decide (∀ c ∈ tree.preorder tree.root, '\n' ∉ (tree.label c).toList))) =
      some ("root\n  '< \"<\"\n  _\n    'x \"x\"\n    letter \"y\"\n", true) := by decide +kernel
  obtain ⟨lexer, tree, compiled, tokenized, told⟩ := exists_of_told tells
  obtain ⟨outline, unbroken⟩ := Prod.mk.inj told
  obtain ⟨_, _, _, legible, _⟩ := outline_of_tokenize compiled tokenized tree.root false true false
  exact ⟨lexer, tree, compiled, tokenized, legible.mpr (of_decide_eq_true unbroken), outline⟩

/-- **A newline in a literal breaks the line of its node.** The tree of a newline has two nodes, and its outline has
three newlines. -/
theorem newline_breaks_outline : ∃ lexer tree, compile {} "root::=\"\\n\"+" = .ok lexer ∧
    (lexer.withLimits {}).tokenize "\n" = .ok tree ∧ (tree.preorder tree.root).length = 2 ∧
      newlines (tree.outline tree.root ⟨false, true, .ofBool false⟩) = 3 := by
  have tells : ((compile {} "root::=\"\\n\"+").toOption.bind fun lexer =>
      ((lexer.withLimits {}).tokenize "\n").toOption.map fun tree =>
        ((tree.preorder tree.root).length, newlines (tree.outline tree.root ⟨false, true, .ofBool false⟩))) =
      some (2, 3) := by decide +kernel
  obtain ⟨lexer, tree, compiled, tokenized, told⟩ := exists_of_told tells
  obtain ⟨nodes, broken⟩ := Prod.mk.inj told
  exact ⟨lexer, tree, compiled, tokenized, nodes, broken⟩

end Dialect

end BnfTokenizer
