import BnfTokenizer.Proofs.Dialect.Reading
import BnfTokenizer.Proofs.ParseTree.Cull

/-!
# What a symbol takes, and what is left of it

`Takes source s text rest views` says that the symbol `s`, tried in `source` where `text ++ rest` is left,
matches `text`, and that culling leaves `views` of what it matched; `Fails source s rest` that it does not
match where `rest` is left. There is one lemma for each kind of symbol, from its parts to the whole, so a
symbol is dealt with once and its parts are not looked into again.

A place in the source is told by what is left there, which keeps offsets out of everything that follows.
-/

namespace BnfTokenizer.Dialect

open Match (Cursor Derives DerivesAll DerivesFirst DerivesMore DerivedTree)
open ParseTree (View Strategy)

/-! ## Symbols in the table -/

namespace Symbol

/-- A symbol's number leads to its definition. -/
theorem node_id (s : Symbol) : definitions.node s.id = s.definition := by
  have found : (all.map definition)[s.id]? = some s.definition := by
    rw [List.getElem?_map, all_getElem_id]
    rfl
  rw [definitions, Grammar.node, Array.getD_eq_getD_getElem?, List.getElem?_toArray, found,
    Option.getD_some]

theorem kind_id (s : Symbol) : definitions.kind s.id = s.definition.kind := by
  rw [Grammar.kind, node_id]

theorem name_id (s : Symbol) : definitions.name s.id = s.definition.name := by
  rw [Grammar.name, node_id]

/-- What becomes of a node that matched some text. -/
def fate (name : Option String) : Strategy :=
  DerivedTree.strategyOf cullFilters.tail name ⟨0, 0⟩

end Symbol

/-! ## Places -/

section

variable {source text rest : List Char}

/-- The place in a source where `rest` is left. -/
def place (source rest : List Char) : Cursor :=
  ⟨Text.byteLength source - Text.byteLength rest, rest⟩

/-- A source is left as a whole at its start. -/
theorem place_self (source : List Char) : place source source = ⟨Text.byteLength ([] : List Char), source⟩ := by
  rw [place, Nat.sub_self]
  rfl

/-- From one place to another, the text between them is passed. -/
theorem place_spans (within : text ++ rest <:+ source) :
    (place source (text ++ rest)).Spans text (place source rest) := by
  obtain ⟨before, rfl⟩ := within
  refine ⟨rfl, ?_⟩
  simp only [place, Text.byteLength_append]
  omega

theorem within_rest (within : text ++ rest <:+ source) : rest <:+ source :=
  (List.suffix_append text rest).trans within

/-- The span of a text. -/
def spanOf (source text rest : List Char) : Span :=
  ⟨(place source (text ++ rest)).offset, (place source rest).offset⟩

/-- Where some text is matched, the span is not empty, so culling keeps what it keeps by name. -/
theorem spanOf_isEmpty (within : text ++ rest <:+ source) (some : text ≠ []) :
    (spanOf source text rest).isEmpty = false := by
  have length := (place_spans within).2
  have positive : 0 < Text.byteLength text := by
    cases text with
    | nil => exact absurd rfl some
    | cons c cs => exact Nat.lt_of_lt_of_le c.utf8Size_pos (Nat.le_add_right ..)
  exact beq_false_of_ne (by simp only [spanOf]; omega)

/-- The span of a text cuts that text out of the source. -/
theorem slice_spanOf (within : text ++ rest <:+ source) :
    Text.slice source (spanOf source text rest).start (spanOf source text rest).stop = text := by
  obtain ⟨before, rfl⟩ := within
  have start : (spanOf (before ++ (text ++ rest)) text rest).start = Text.byteLength before := by
    simp only [spanOf, place, Text.byteLength_append]
    omega
  have stop : (spanOf (before ++ (text ++ rest)) text rest).stop =
      Text.byteLength before + Text.byteLength text := by
    simp only [spanOf, place, Text.byteLength_append]
    omega
  rw [start, stop, Text.slice_byteLength_append]

end

/-! ## What culling leaves of a node -/

/-- What culling leaves of a node over some text, when it leaves `views` below it. -/
def left (source : List Char) (name : Option String) (text rest : List Char) (views : List View) :
    List View :=
  match DerivedTree.strategyOf cullFilters name (spanOf source text rest) with
  | .keep => [.node name (String.ofList (Text.slice source (spanOf source text rest).start
      (spanOf source text rest).stop)) (spanOf source text rest) views]
  | .delete => []
  | .lift => views

section

variable {source text rest : List Char} {name : Option String} {views : List View}

/-- A node over no text is deleted, whatever its name. -/
theorem strategyOf_of_empty {span : Span} (empty : span.isEmpty = true) :
    DerivedTree.strategyOf cullFilters name span = .delete := by
  simp [DerivedTree.strategyOf, cullFilters, ParseTree.Filter.removeEmpty, ParseTree.Predicate.holds, empty]

/-- Of a node over some text the name alone decides. -/
theorem strategyOf_of_not_empty {span : Span} (some : span.isEmpty = false) :
    DerivedTree.strategyOf cullFilters name span = Symbol.fate name := by
  have passes : ¬ ParseTree.Filter.removeEmpty.predicate.holds name span = true := by
    rw [ParseTree.Filter.removeEmpty, ParseTree.Predicate.holds, some]
    exact Bool.false_ne_true
  have rest := List.find?_cons_of_neg (p := fun filter => filter.predicate.holds name span)
    (l := cullFilters.tail) passes
  exact congrArg (fun found => (found.map ParseTree.Filter.strategy).getD .keep) rest

/-- Nothing is left of a match of no text. -/
@[simp] theorem left_nil : left source name [] rest views = [] := by
  rw [left, strategyOf_of_empty (beq_self_eq_true _)]

theorem left_keep (within : text ++ rest <:+ source) (some : text ≠ []) (fate : Symbol.fate name = .keep) :
    left source name text rest views =
      [.node name (String.ofList text) (spanOf source text rest) views] := by
  rw [left, strategyOf_of_not_empty (spanOf_isEmpty within some), fate, slice_spanOf within]

theorem left_delete (fate : Symbol.fate name = .delete) : left source name text rest views = [] := by
  cases empty : (spanOf source text rest).isEmpty with
  | true => rw [left, strategyOf_of_empty empty]
  | false => rw [left, strategyOf_of_not_empty empty, fate]

theorem left_lift (within : text ++ rest <:+ source) (some : text ≠ []) (fate : Symbol.fate name = .lift) :
    left source name text rest views = views := by
  rw [left, strategyOf_of_not_empty (spanOf_isEmpty within some), fate]

end

/-! ## Symbols and their parts -/

/-- A symbol matches a text, and culling leaves `views` of it. -/
def Takes (source : List Char) (s : Symbol) (text rest : List Char) (views : List View) : Prop :=
  ∃ tree, Derives definitions s.id (place source (text ++ rest)) (some (tree, place source rest)) ∧
    tree.culled cullFilters source = views

/-- A symbol does not match where some text is left. -/
def Fails (source : List Char) (s : Symbol) (rest : List Char) : Prop :=
  Derives definitions s.id (place source rest) none

/-- Some symbols match, each the text behind the one before. -/
inductive TakesAll (source : List Char) : List Symbol → List Char → List Char → List View → Prop
  | nil {rest} : TakesAll source [] [] rest []
  | cons {s ss first second rest views more} (head : Takes source s first (second ++ rest) views)
      (tail : TakesAll source ss second rest more) :
      TakesAll source (s :: ss) (first ++ second) rest (views ++ more)

/-- A symbol matches as often as it can. -/
inductive TakesMore (source : List Char) (s : Symbol) : List Char → List Char → List View → Prop
  | stop {rest} (fails : Fails source s rest) : TakesMore source s [] rest []
  | more {first second rest views others} (once : Takes source s first (second ++ rest) views)
      (some : first ≠ []) (again : TakesMore source s second rest others) :
      TakesMore source s (first ++ second) rest (views ++ others)

section

variable {source text rest : List Char} {s child : Symbol} {parts : List Symbol} {name : Option String}
  {views : List View}

theorem TakesAll.single (takes : Takes source s text rest views) : TakesAll source [s] text rest views := by
  have all : TakesAll source [s] (text ++ []) rest (views ++ []) := .cons takes .nil
  rwa [List.append_nil, List.append_nil] at all

/-- Parts that match one behind the other have trees that do, and culling the trees leaves the views of the parts. -/
theorem TakesAll.derives (all : TakesAll source parts text rest views) :
    ∃ trees, DerivesAll definitions (parts.map Symbol.id) (place source (text ++ rest))
        (some (trees, place source rest)) ∧ DerivedTree.listCulled cullFilters source trees = views := by
  induction all with
  | nil => exact ⟨[], .nil, rfl⟩
  | cons head tail ih =>
    obtain ⟨tree, derives, culled⟩ := head
    obtain ⟨trees, all, rest⟩ := ih
    rw [← List.append_assoc] at derives
    refine ⟨tree :: trees, .cons derives all, ?_⟩
    rw [DerivedTree.listCulled, culled, rest]

/-- Rounds that match have trees, and there is one at least if any text is passed. -/
theorem TakesMore.derives (more : TakesMore source s text rest views) (within : text ++ rest <:+ source) :
    ∃ trees, DerivesMore definitions s.id (place source (text ++ rest)) trees (place source rest) ∧
      DerivedTree.listCulled cullFilters source trees = views ∧ (text ≠ [] → trees ≠ []) := by
  induction more with
  | stop fails => exact ⟨[], .stop fails, rfl, fun some => absurd rfl some⟩
  | @more first second rest views others once some again ih =>
    rw [List.append_assoc] at within
    obtain ⟨tree, derives, culled⟩ := once
    obtain ⟨trees, rounds, rest, _⟩ := ih (within_rest within)
    have advances := spanOf_isEmpty within some
    have spans := (place_spans within).offset_le
    rw [← List.append_assoc] at derives
    refine ⟨tree :: trees, .more derives ?_ rounds, ?_, fun _ => nofun⟩
    · have differs := ne_of_beq_false advances
      simp only [spanOf] at differs
      rw [List.append_assoc]
      omega
    · rw [DerivedTree.listCulled, culled, rest]

/-- What culling leaves of a node that was derived over some text. -/
theorem culled_spanning (s : Symbol) (trees : List DerivedTree) :
    (DerivedTree.spanning definitions s.id (place source (text ++ rest)) (place source rest) trees).culled
        cullFilters source =
      left source s.definition.name text rest (DerivedTree.listCulled cullFilters source trees) := by
  rw [DerivedTree.spanning, DerivedTree.culled, Symbol.name_id]
  rfl

/-- A node over no text leaves nothing, also where it has no name. -/
theorem culled_spanning_nil (s : Symbol) :
    (DerivedTree.spanning definitions s.id (place source rest) (place source rest) []).culled cullFilters source = [] :=
  (culled_spanning s []).trans left_nil

/-- A literal matches itself, and what is left has no views below it. -/
theorem takes_literal (s : Symbol) (text : List Char) (is : s.definition = ⟨name, .literal text⟩)
    (within : text ++ rest <:+ source) :
    Takes source s text rest (left source name text rest []) := by
  refine ⟨_, .literal (by rw [Symbol.kind_id, is]) (place_spans within), ?_⟩
  rw [culled_spanning, is]
  rfl

theorem fails_literal (s : Symbol) (text : List Char) (is : s.definition = ⟨name, .literal text⟩)
    (differs : ¬ text <+: rest) :
    Fails source s rest :=
  .literalFails (by rw [Symbol.kind_id, is]) differs

theorem takes_class (s : Symbol) {members : List Char} {negated : Bool} {c : Char}
    (is : s.definition = ⟨name, .charSet members negated⟩) (takes : c ∈ members ↔ negated = false)
    (within : [c] ++ rest <:+ source) : Takes source s [c] rest (left source name [c] rest []) := by
  have taken : (definitions.kind s.id).Takes c := by
    rw [Symbol.kind_id, is]
    exact takes
  refine ⟨_, .character taken (place_spans within), ?_⟩
  rw [culled_spanning, is]
  rfl

/-- A class refuses the end of the text, and every character on the other side of it. -/
theorem fails_class (s : Symbol) {members : List Char} {negated : Bool}
    (is : s.definition = ⟨name, .charSet members negated⟩)
    (refused : ∀ c ∈ rest.head?, ¬ (c ∈ members ↔ negated = false)) : Fails source s rest := by
  refine .characterFails ?_ ?_
  · rw [Symbol.kind_id, is]
    trivial
  · rw [Symbol.kind_id, is]
    exact refused

/-- A sequence matches what its parts match one behind the other. -/
theorem takes_sequence (s : Symbol) (parts : List Symbol)
    (is : s.definition = ⟨name, .sequence (parts.map Symbol.id)⟩)
    (all : TakesAll source parts text rest views) :
    Takes source s text rest (left source name text rest views) := by
  obtain ⟨trees, derives, rfl⟩ := all.derives
  refine ⟨_, .sequence (by rw [Symbol.kind_id, is]) derives, ?_⟩
  rw [culled_spanning, is]

/-- Parts fail with the first of them that fails behind those that match. -/
theorem derivesAll_fails {before after : List Symbol} (all : TakesAll source before text rest views)
    (fails : Fails source s rest) :
    DerivesAll definitions ((before ++ s :: after).map Symbol.id) (place source (text ++ rest)) none := by
  induction all with
  | nil => exact .headFails fails
  | cons head _ ih =>
    obtain ⟨tree, derives, _⟩ := head
    rw [← List.append_assoc] at derives
    exact .tailFails derives (ih fails)

/-- A sequence fails where one of its parts does, behind those that match. -/
theorem fails_sequence (s : Symbol) (before : List Symbol) (part : Symbol) (after : List Symbol)
    (is : s.definition = ⟨name, .sequence ((before ++ part :: after).map Symbol.id)⟩)
    (all : TakesAll source before text rest views) (fails : Fails source part rest) {here : List Char}
    (same : text ++ rest = here) : Fails source s here :=
  same ▸ .sequenceFails (by rw [Symbol.kind_id, is]) (derivesAll_fails all fails)

/-- The alternative that matches is the one that is found, when none before it matches. -/
theorem derivesFirst_takes {before : List Symbol} {alternative : Symbol} {tree : DerivedTree}
    (after : List Symbol) (earlier : ∀ other ∈ before, Fails source other (text ++ rest))
    (derives : Derives definitions alternative.id (place source (text ++ rest))
      (some (tree, place source rest))) :
    DerivesFirst definitions ((before ++ alternative :: after).map Symbol.id)
      (place source (text ++ rest)) (some (tree, place source rest)) := by
  induction before with
  | nil => exact .here derives
  | cons other before ih =>
    obtain ⟨head, tail⟩ := List.forall_mem_cons.mp earlier
    exact .later head (ih tail)

/-- A nameless choice leaves the tree of its alternative as it is. -/
theorem called_none (tree : DerivedTree) : tree.called none = tree := by
  cases tree
  rw [DerivedTree.called, Option.or_none]

/-- A choice without a name matches what its first alternative does that matches, and leaves the same views. -/
theorem takes_choice (s : Symbol) (before : List Symbol) (alternative : Symbol) (after : List Symbol)
    (is : s.definition = ⟨none, .choice ((before ++ alternative :: after).map Symbol.id)⟩)
    (earlier : ∀ other ∈ before, Fails source other (text ++ rest))
    (takes : Takes source alternative text rest views) : Takes source s text rest views := by
  obtain ⟨tree, derives, culled⟩ := takes
  have unnamed : definitions.name s.id = none := by rw [Symbol.name_id, is]
  have derived := Derives.choice (by rw [Symbol.kind_id, is]) (derivesFirst_takes after earlier derives)
  rw [unnamed, called_none] at derived
  exact ⟨tree, derived, culled⟩

/-- A choice fails where all its alternatives do. -/
theorem fails_choice (s : Symbol) (alternatives : List Symbol)
    (is : s.definition = ⟨name, .choice (alternatives.map Symbol.id)⟩)
    (fail : ∀ other ∈ alternatives, Fails source other rest) : Fails source s rest := by
  refine .choiceFails (by rw [Symbol.kind_id, is]) ?_
  clear is
  induction alternatives with
  | nil => exact .nil
  | cons other alternatives ih =>
    obtain ⟨head, tail⟩ := List.forall_mem_cons.mp fail
    exact .later head (ih tail)

/-- A repetition matches the rounds that there are, if they pass some text. -/
theorem takes_repetition (s child : Symbol) (is : s.definition = ⟨name, .repetition child.id⟩)
    (rounds : TakesMore source child text rest views) (some : text ≠ [])
    (within : text ++ rest <:+ source) : Takes source s text rest (left source name text rest views) := by
  obtain ⟨trees, derives, rfl, once⟩ := rounds.derives within
  cases trees with
  | nil => exact absurd rfl (once some)
  | cons tree trees =>
    refine ⟨_, .repetition (by rw [Symbol.kind_id, is]) derives, ?_⟩
    rw [culled_spanning, is]

theorem fails_repetition (s child : Symbol) (is : s.definition = ⟨name, .repetition child.id⟩)
    (fails : Fails source child rest) : Fails source s rest :=
  .repetitionFails (by rw [Symbol.kind_id, is]) fails

/-- An optional symbol matches what its part matches. -/
theorem takes_optional (s child : Symbol) (is : s.definition = ⟨name, .optional child.id⟩)
    (takes : Takes source child text rest views) :
    Takes source s text rest (left source name text rest views) := by
  obtain ⟨tree, derives, rfl⟩ := takes
  refine ⟨_, .optional (by rw [Symbol.kind_id, is]) derives, ?_⟩
  rw [culled_spanning, is, DerivedTree.listCulled, DerivedTree.listCulled, List.append_nil]

/-- An optional symbol matches no text where its part fails, and leaves nothing. -/
theorem skips_optional (s child : Symbol) (is : s.definition = ⟨name, .optional child.id⟩)
    (fails : Fails source child rest) : Takes source s [] rest [] := by
  exact ⟨_, .optionalSkips (by rw [Symbol.kind_id, is]) fails, culled_spanning_nil s⟩

/-- A negation passes no text and leaves nothing, where its part fails. -/
theorem takes_negation (s child : Symbol) (is : s.definition = ⟨name, .negation child.id⟩)
    (fails : Fails source child rest) : Takes source s [] rest [] := by
  exact ⟨_, .negation (by rw [Symbol.kind_id, is]) fails, culled_spanning_nil s⟩

theorem fails_negation (s child : Symbol) (is : s.definition = ⟨name, .negation child.id⟩)
    (takes : Takes source child text rest views) : Fails source s (text ++ rest) := by
  obtain ⟨tree, derives, _⟩ := takes
  exact .negationFails (by rw [Symbol.kind_id, is]) derives

/-- The end of the input is found where nothing is left. -/
theorem takes_endOfInput (s : Symbol) (is : s.definition = ⟨name, .endOfInput⟩) : Takes source s [] [] [] := by
  exact ⟨_, .endOfInput (by rw [Symbol.kind_id, is]) rfl, culled_spanning_nil s⟩

end

end BnfTokenizer.Dialect
