import BnfTokenizer.Proofs.Dialect.Recognition

/-!
# What was taken

`Takes` read backwards: a symbol that takes a text does so through its parts, and the views are what culling
leaves of the views of the parts. There is one lemma for each kind of symbol.
-/

namespace BnfTokenizer.Dialect

open Match (Cursor Derives DerivesAll DerivesFirst DerivesMore DerivedTree)
open ParseTree (View)

variable {source here text rest : List Char} {s child : Symbol} {parts alternatives : List Symbol}
  {name : Option String} {views : List View}

/-- Where a text was passed from a place, the place behind it is told by what is left there. -/
theorem place_of_spans {stop : Cursor} (within : here <:+ source) (spans : (place source here).Spans text stop) :
    here = text ++ stop.rest ∧ stop = place source stop.rest := by
  have split : here = text ++ stop.rest := spans.1
  refine ⟨split, spans.unique ?_⟩
  have known := place_spans (split ▸ within)
  rwa [← split] at known

/-- Different rests are different places, since a place has its rest. -/
theorem place_inj {other : List Char} (same : place source rest = place source other) : rest = other :=
  congrArg Cursor.rest same

/-- No symbol both fails and matches at a place. -/
theorem Fails.not_takes (fails : Fails source s (text ++ rest)) (takes : Takes source s text rest views) :
    False := by
  obtain ⟨tree, derives, _⟩ := takes
  cases derives.unique fails

/-- A symbol leaves the same views of the same text. -/
theorem Takes.unique {others : List View} (takes : Takes source s text rest views)
    (again : Takes source s text rest others) : views = others := by
  obtain ⟨tree, derives, rfl⟩ := takes
  obtain ⟨tree', derives', rfl⟩ := again
  cases derives.unique derives'
  rfl

/-- What is derived at a place is taken there. -/
theorem takes_of_derives {tree : DerivedTree} {stop : Cursor} (within : here <:+ source)
    (derives : Derives definitions s.id (place source here) (some (tree, stop))) :
    ∃ text rest, here = text ++ rest ∧ stop = place source rest ∧
      Takes source s text rest (tree.culled cullFilters source) := by
  obtain ⟨text, spans⟩ := derives.spans _ rfl
  obtain ⟨split, stopped⟩ := place_of_spans within spans
  refine ⟨text, stop.rest, split, stopped, tree, ?_, rfl⟩
  rwa [← split, ← stopped]

/-- What the parts of a sequence match is a text for each, one behind the other. -/
theorem takesAll_of_derives {trees : List DerivedTree} {stop : Cursor} (within : here <:+ source)
    (derives : DerivesAll definitions (parts.map Symbol.id) (place source here) (some (trees, stop))) :
    ∃ text rest, here = text ++ rest ∧ stop = place source rest ∧
      TakesAll source parts text rest (DerivedTree.listCulled cullFilters source trees) := by
  induction parts generalizing here trees with
  | nil =>
    cases derives
    exact ⟨[], here, rfl, rfl, .nil⟩
  | cons part parts ih =>
    cases derives with
    | cons head tail =>
      obtain ⟨first, behind, rfl, rfl, taken⟩ := takes_of_derives within head
      obtain ⟨second, rest, rfl, rfl, all⟩ := ih (within_rest within) tail
      exact ⟨first ++ second, rest, (List.append_assoc ..).symm, rfl, .cons taken all⟩

/-- What the rounds of a repetition match is a text for each, and no rounds pass no text. -/
theorem takesMore_of_derives {trees : List DerivedTree} {stop : Cursor}
    (derives : DerivesMore definitions child.id (place source here) trees stop) (within : here <:+ source) :
    ∃ text rest, here = text ++ rest ∧ stop = place source rest ∧
      TakesMore source child text rest (DerivedTree.listCulled cullFilters source trees) ∧ (trees ≠ [] → text ≠ []) := by
  induction trees generalizing here with
  | nil =>
    cases derives with
    | stop fails => exact ⟨[], here, rfl, rfl, .stop fails, fun some => absurd rfl some⟩
  | cons tree trees ih =>
    cases derives with
    | more once advances again =>
      obtain ⟨first, behind, rfl, rfl, taken⟩ := takes_of_derives within once
      obtain ⟨second, rest, rfl, rfl, more, _⟩ := ih again (within_rest within)
      have filled : first ≠ [] := by
        rintro rfl
        exact Nat.lt_irrefl _ advances
      exact ⟨first ++ second, rest, (List.append_assoc ..).symm, rfl, .more taken filled more,
        fun _ => List.append_ne_nil_of_left_ne_nil filled _⟩

/-- The first of some symbols that does not fail takes the text. -/
def TakesFirst (source text rest : List Char) (views : List View) : List Symbol → Prop
  | [] => False
  | s :: ss => Takes source s text rest views ∨
      Fails source s (text ++ rest) ∧ TakesFirst source text rest views ss

/-- A node that ends where it began took nothing. -/
theorem nothing_of_same {tree : DerivedTree}
    (same : some (tree, place source rest) =
      some (.spanning definitions s.id (place source (text ++ rest)) (place source (text ++ rest)) [],
        place source (text ++ rest))) :
    text = [] ∧ tree.culled cullFilters source = [] := by
  obtain ⟨trees, places⟩ := Prod.mk.inj (Option.some.inj same)
  have empty := List.self_eq_append_left.mp (place_inj places)
  subst empty
  rw [trees]
  exact ⟨rfl, culled_spanning_nil s⟩

/-! ## Kinds -/

/-- A literal matches nothing but itself. -/
theorem Takes.of_literal {literal : List Char} (takes : Takes source s text rest views)
    (is : s.definition = ⟨name, .literal literal⟩) (within : text ++ rest <:+ source) :
    text = literal ∧ views = left source name text rest [] := by
  obtain ⟨tree, derives, rfl⟩ := takes
  obtain ⟨stop, spans, same⟩ | ⟨_, same⟩ := derives.of_literal (by rw [Symbol.kind_id, is])
  · cases same
    obtain ⟨split, _⟩ := place_of_spans within spans
    refine ⟨List.append_cancel_right split, ?_⟩
    rw [culled_spanning, is]
    rfl
  · cases same

/-- A class matches a single character on its side. -/
theorem Takes.of_class {members : List Char} {negated : Bool} (takes : Takes source s text rest views)
    (is : s.definition = ⟨name, .charSet members negated⟩) (within : text ++ rest <:+ source) :
    ∃ c, text = [c] ∧ (c ∈ members ↔ negated = false) ∧ views = left source name text rest [] := by
  obtain ⟨tree, derives, rfl⟩ := takes
  have kind : definitions.kind s.id = .charSet members negated := by rw [Symbol.kind_id, is]
  obtain ⟨c, stop, taken, spans, same⟩ | ⟨_, same⟩ := derives.of_class (by rw [kind]; trivial)
  · cases same
    obtain ⟨split, _⟩ := place_of_spans within spans
    rw [kind] at taken
    refine ⟨c, List.append_cancel_right split, taken, ?_⟩
    rw [culled_spanning, is]
    rfl
  · cases same

/-- A sequence matches what its parts match, one behind the other. -/
theorem Takes.of_sequence (takes : Takes source s text rest views) (parts : List Symbol)
    (is : s.definition = ⟨name, .sequence (parts.map Symbol.id)⟩) (within : text ++ rest <:+ source) :
    ∃ inner, TakesAll source parts text rest inner ∧ views = left source name text rest inner := by
  obtain ⟨tree, derives, rfl⟩ := takes
  obtain ⟨trees, stop, all, same⟩ | ⟨_, same⟩ := derives.of_sequence (by rw [Symbol.kind_id, is])
  · cases same
    obtain ⟨text', rest', split, stopped, taken⟩ := takesAll_of_derives within all
    cases place_inj stopped
    cases List.append_cancel_right split
    refine ⟨_, taken, ?_⟩
    rw [culled_spanning, is]
  · cases same

/-- A choice without a name matches what one of its alternatives does, where those before it fail. -/
theorem Takes.of_choice (takes : Takes source s text rest views) (alternatives : List Symbol)
    (is : s.definition = ⟨none, .choice (alternatives.map Symbol.id)⟩) :
    TakesFirst source text rest views alternatives := by
  obtain ⟨tree, derives, rfl⟩ := takes
  obtain ⟨tree, stop, first, same⟩ | ⟨_, same⟩ := derives.of_choice (by rw [Symbol.kind_id, is])
  · have unnamed : definitions.name s.id = none := by rw [Symbol.name_id, is]
    rw [unnamed, called_none] at same
    cases same
    clear is
    induction alternatives with
    | nil => cases first
    | cons alternative alternatives ih =>
      cases first with
      | here head => exact .inl ⟨_, head, rfl⟩
      | later head tail => exact .inr ⟨head, ih tail⟩
  · cases same

/-- A repetition matches some rounds, and some text with them. -/
theorem Takes.of_repetition (takes : Takes source s text rest views) (child : Symbol)
    (is : s.definition = ⟨name, .repetition child.id⟩) (within : text ++ rest <:+ source) :
    ∃ inner, TakesMore source child text rest inner ∧ text ≠ [] ∧
      views = left source name text rest inner := by
  obtain ⟨tree, derives, rfl⟩ := takes
  obtain ⟨tree, trees, stop, rounds, same⟩ | ⟨_, same⟩ := derives.of_repetition (by rw [Symbol.kind_id, is])
  · cases same
    obtain ⟨text', rest', split, stopped, taken, filled⟩ := takesMore_of_derives rounds within
    cases place_inj stopped
    cases List.append_cancel_right split
    refine ⟨_, taken, filled (List.cons_ne_nil _ _), ?_⟩
    rw [culled_spanning, is]
  · cases same

/-- An optional symbol matches what its part does, or no text. -/
theorem Takes.of_optional (takes : Takes source s text rest views) (child : Symbol)
    (is : s.definition = ⟨name, .optional child.id⟩) :
    (∃ inner, Takes source child text rest inner ∧ views = left source name text rest inner) ∨
      text = [] ∧ views = [] := by
  obtain ⟨tree, derives, rfl⟩ := takes
  obtain ⟨tree, stop, present, same⟩ | ⟨_, same⟩ := derives.of_optional (by rw [Symbol.kind_id, is])
  · cases same
    refine .inl ⟨_, ⟨tree, present, rfl⟩, ?_⟩
    rw [culled_spanning, is, DerivedTree.listCulled, DerivedTree.listCulled, List.append_nil]
  · exact .inr (nothing_of_same same)

/-- A negation never passes any text. -/
theorem Takes.of_negation (takes : Takes source s text rest views) (child : Symbol)
    (is : s.definition = ⟨name, .negation child.id⟩) : text = [] ∧ views = [] := by
  obtain ⟨tree, derives, rfl⟩ := takes
  obtain ⟨_, _, _, same⟩ | ⟨_, same⟩ := derives.of_negation (by rw [Symbol.kind_id, is])
  · cases same
  · exact nothing_of_same same

theorem Takes.of_endOfInput (takes : Takes source s text rest views) (is : s.definition = ⟨name, .endOfInput⟩) :
    text = [] ∧ views = [] := by
  obtain ⟨tree, derives, rfl⟩ := takes
  obtain ⟨_, same⟩ | ⟨_, same⟩ := derives.of_endOfInput (by rw [Symbol.kind_id, is])
  · exact nothing_of_same same
  · cases same

/-! ## Views that are left -/

/-- A lifted symbol leaves what stands below it, and nothing of its own. -/
theorem mem_of_mem_left {inner : List View} {v : View} (fate : Symbol.fate name = .lift)
    (mem : v ∈ left source name text rest inner) : v ∈ inner := by
  unfold left at mem
  cases empty : (spanOf source text rest).isEmpty with
  | true =>
    rw [strategyOf_of_empty empty] at mem
    cases mem
  | false => rwa [strategyOf_of_not_empty empty, fate] at mem

end BnfTokenizer.Dialect
