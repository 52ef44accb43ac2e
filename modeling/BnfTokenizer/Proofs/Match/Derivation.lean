import BnfTokenizer.Match.Basic
import BnfTokenizer.Grammar.Basic

/-!
# What a node matches, as a derivation

`Derives g id here result` says what the node `id` makes of the input from `here` on, without saying how
it is found out. There is one rule for each kind of node and each way it can end. A result is a failure,
or a tree together with the place behind the text it covers.

Choice is ordered: an alternative counts only where all before it fail. Repetition is greedy: it ends
where its child fails, and each of its rounds must advance. Negation is zero-width, and what its child
matched is not in the tree. A placeholder derives nothing, and neither does a repetition that would go
round without advancing.

A choice leaves no node of its own. It passes on what its alternative matched, under its own name if that
has none, so an outer choice can only name what the inner ones left nameless.
-/

namespace BnfTokenizer

/-- Is `c` a character that a one-character kind takes? -/
def Grammar.Kind.Takes (c : Char) : Grammar.Kind → Prop
  | charSet members negated => c ∈ members ↔ negated = false
  | charRange low high negated => low ≤ c ∧ c ≤ high ↔ negated = false
  | _ => False

/-- A kind that matches a single character. -/
def Grammar.Kind.IsClass : Grammar.Kind → Prop
  | charSet .. | charRange .. => True
  | _ => False

namespace Match

/-- A tree of matched text on its own, outside any table. -/
inductive DerivedTree where
  | node (origin : NodeId) (name : Option String) (span : Span) (children : List DerivedTree)

namespace DerivedTree

def children : DerivedTree → List DerivedTree
  | node _ _ _ children => children

/-- The same tree, called `name` if it had no name. -/
def called (name : Option String) : DerivedTree → DerivedTree
  | node origin own span children => node origin (own.or name) span children

/-- A node over what was matched from `here` up to `stop`. -/
def spanning (g : Grammar) (id : NodeId) (here stop : Cursor) (children : List DerivedTree) : DerivedTree :=
  node id (g.name id) ⟨here.offset, stop.offset⟩ children

end DerivedTree

/-- What lies between two places is `text`. -/
def Cursor.Spans (here : Cursor) (text : List Char) (stop : Cursor) : Prop :=
  here.rest = text ++ stop.rest ∧ stop.offset = here.offset + Text.byteLength text

/-- A failure, or a tree and the place behind what it covers. -/
abbrev Result := Option (DerivedTree × Cursor)

mutual

/-- A node, tried at a place, comes to a result. -/
inductive Derives (g : Grammar) : NodeId → Cursor → Result → Prop
  | literal {id here stop text} (kind : g.kind id = .literal text) (spans : here.Spans text stop) :
      Derives g id here (some (.spanning g id here stop [], stop))
  | literalFails {id here text} (kind : g.kind id = .literal text) (differs : ¬ text <+: here.rest) :
      Derives g id here none
  | character {id here stop c} (takes : (g.kind id).Takes c) (spans : here.Spans [c] stop) :
      Derives g id here (some (.spanning g id here stop [], stop))
  | characterFails {id here} (kind : (g.kind id).IsClass)
      (refused : ∀ c ∈ here.rest.head?, ¬ (g.kind id).Takes c) :
      Derives g id here none
  | sequence {id here stop parts trees} (kind : g.kind id = .sequence parts)
      (all : DerivesAll g parts here (some (trees, stop))) :
      Derives g id here (some (.spanning g id here stop trees, stop))
  | sequenceFails {id here parts} (kind : g.kind id = .sequence parts)
      (all : DerivesAll g parts here none) :
      Derives g id here none
  | choice {id here stop alternatives tree} (kind : g.kind id = .choice alternatives)
      (first : DerivesFirst g alternatives here (some (tree, stop))) :
      Derives g id here (some (tree.called (g.name id), stop))
  | choiceFails {id here alternatives} (kind : g.kind id = .choice alternatives)
      (first : DerivesFirst g alternatives here none) :
      Derives g id here none
  | repetition {id here stop child tree trees} (kind : g.kind id = .repetition child)
      (rounds : DerivesMore g child here (tree :: trees) stop) :
      Derives g id here (some (.spanning g id here stop (tree :: trees), stop))
  | repetitionFails {id here child} (kind : g.kind id = .repetition child)
      (never : Derives g child here none) :
      Derives g id here none
  | optional {id here stop child tree} (kind : g.kind id = .optional child)
      (present : Derives g child here (some (tree, stop))) :
      Derives g id here (some (.spanning g id here stop [tree], stop))
  | optionalSkips {id here child} (kind : g.kind id = .optional child)
      (absent : Derives g child here none) :
      Derives g id here (some (.spanning g id here here [], here))
  | negation {id here child} (kind : g.kind id = .negation child)
      (absent : Derives g child here none) :
      Derives g id here (some (.spanning g id here here [], here))
  | negationFails {id here stop child tree} (kind : g.kind id = .negation child)
      (present : Derives g child here (some (tree, stop))) :
      Derives g id here none
  | endOfInput {id here} (kind : g.kind id = .endOfInput) (rest : here.rest = []) :
      Derives g id here (some (.spanning g id here here [], here))
  | endOfInputFails {id here} (kind : g.kind id = .endOfInput) (rest : here.rest ≠ []) :
      Derives g id here none

/-- Some nodes in a row, each tried where the one before it ended; the first failure is the failure of
all. -/
inductive DerivesAll (g : Grammar) : List NodeId → Cursor → Option (List DerivedTree × Cursor) → Prop
  | nil {here} : DerivesAll g [] here (some ([], here))
  | cons {id ids here next stop tree trees} (head : Derives g id here (some (tree, next)))
      (tail : DerivesAll g ids next (some (trees, stop))) :
      DerivesAll g (id :: ids) here (some (tree :: trees, stop))
  | headFails {id ids here} (head : Derives g id here none) : DerivesAll g (id :: ids) here none
  | tailFails {id ids here next tree} (head : Derives g id here (some (tree, next)))
      (tail : DerivesAll g ids next none) :
      DerivesAll g (id :: ids) here none

/-- Some alternatives at one place: what the first one that does not fail comes to. -/
inductive DerivesFirst (g : Grammar) : List NodeId → Cursor → Result → Prop
  | nil {here} : DerivesFirst g [] here none
  | here {id ids here tree stop} (head : Derives g id here (some (tree, stop))) :
      DerivesFirst g (id :: ids) here (some (tree, stop))
  | later {id ids here result} (head : Derives g id here none)
      (tail : DerivesFirst g ids here result) :
      DerivesFirst g (id :: ids) here result

/-- One node as often as it does not fail, each time where it ended before, and each time further on. -/
inductive DerivesMore (g : Grammar) : NodeId → Cursor → List DerivedTree → Cursor → Prop
  | stop {id here} (fails : Derives g id here none) : DerivesMore g id here [] here
  | more {id here next stop tree trees} (once : Derives g id here (some (tree, next)))
      (advances : here.offset < next.offset) (again : DerivesMore g id next trees stop) :
      DerivesMore g id here (tree :: trees) stop

end

/-! ## A derivation read backwards -/

section

variable {g : Grammar} {id child : NodeId} {parts alternatives : List NodeId} {here : Cursor}
  {result : Result}

open Grammar (Kind)

theorem Derives.of_literal {text : List Char} (kind : g.kind id = .literal text)
    (derives : Derives g id here result) :
    (∃ stop, here.Spans text stop ∧ result = some (.spanning g id here stop [], stop)) ∨
      ¬ text <+: here.rest ∧ result = none := by
  cases derives with
  | literal own spans =>
    rw [kind, Kind.literal.injEq] at own
    subst own
    exact .inl ⟨_, spans, rfl⟩
  | literalFails own differs =>
    rw [kind, Kind.literal.injEq] at own
    subst own
    exact .inr ⟨differs, rfl⟩
  | _ => simp_all [Kind.Takes, Kind.IsClass]

theorem Derives.of_class (kind : (g.kind id).IsClass) (derives : Derives g id here result) :
    (∃ c stop, (g.kind id).Takes c ∧ here.Spans [c] stop ∧
        result = some (.spanning g id here stop [], stop)) ∨
      (∀ c ∈ here.rest.head?, ¬ (g.kind id).Takes c) ∧ result = none := by
  cases derives with
  | character takes spans => exact .inl ⟨_, _, takes, spans, rfl⟩
  | characterFails _ refused => exact .inr ⟨refused, rfl⟩
  | _ => simp_all [Kind.IsClass]

theorem Derives.of_sequence (kind : g.kind id = .sequence parts) (derives : Derives g id here result) :
    (∃ trees stop, DerivesAll g parts here (some (trees, stop)) ∧
        result = some (.spanning g id here stop trees, stop)) ∨
      DerivesAll g parts here none ∧ result = none := by
  cases derives with
  | sequence own all =>
    rw [kind, Kind.sequence.injEq] at own
    subst own
    exact .inl ⟨_, _, all, rfl⟩
  | sequenceFails own all =>
    rw [kind, Kind.sequence.injEq] at own
    subst own
    exact .inr ⟨all, rfl⟩
  | _ => simp_all [Kind.Takes, Kind.IsClass]

theorem Derives.of_choice (kind : g.kind id = .choice alternatives)
    (derives : Derives g id here result) :
    (∃ tree stop, DerivesFirst g alternatives here (some (tree, stop)) ∧
        result = some (tree.called (g.name id), stop)) ∨
      DerivesFirst g alternatives here none ∧ result = none := by
  cases derives with
  | choice own first =>
    rw [kind, Kind.choice.injEq] at own
    subst own
    exact .inl ⟨_, _, first, rfl⟩
  | choiceFails own first =>
    rw [kind, Kind.choice.injEq] at own
    subst own
    exact .inr ⟨first, rfl⟩
  | _ => simp_all [Kind.Takes, Kind.IsClass]

theorem Derives.of_repetition (kind : g.kind id = .repetition child)
    (derives : Derives g id here result) :
    (∃ tree trees stop, DerivesMore g child here (tree :: trees) stop ∧
        result = some (.spanning g id here stop (tree :: trees), stop)) ∨
      Derives g child here none ∧ result = none := by
  cases derives with
  | repetition own rounds =>
    rw [kind, Kind.repetition.injEq] at own
    subst own
    exact .inl ⟨_, _, _, rounds, rfl⟩
  | repetitionFails own never =>
    rw [kind, Kind.repetition.injEq] at own
    subst own
    exact .inr ⟨never, rfl⟩
  | _ => simp_all [Kind.Takes, Kind.IsClass]

theorem Derives.of_optional (kind : g.kind id = .optional child) (derives : Derives g id here result) :
    (∃ tree stop, Derives g child here (some (tree, stop)) ∧
        result = some (.spanning g id here stop [tree], stop)) ∨
      Derives g child here none ∧ result = some (.spanning g id here here [], here) := by
  cases derives with
  | optional own present =>
    rw [kind, Kind.optional.injEq] at own
    subst own
    exact .inl ⟨_, _, present, rfl⟩
  | optionalSkips own absent =>
    rw [kind, Kind.optional.injEq] at own
    subst own
    exact .inr ⟨absent, rfl⟩
  | _ => simp_all [Kind.Takes, Kind.IsClass]

theorem Derives.of_negation (kind : g.kind id = .negation child) (derives : Derives g id here result) :
    (∃ tree stop, Derives g child here (some (tree, stop)) ∧ result = none) ∨
      Derives g child here none ∧ result = some (.spanning g id here here [], here) := by
  cases derives with
  | negation own absent =>
    rw [kind, Kind.negation.injEq] at own
    subst own
    exact .inr ⟨absent, rfl⟩
  | negationFails own present =>
    rw [kind, Kind.negation.injEq] at own
    subst own
    exact .inl ⟨_, _, present, rfl⟩
  | _ => simp_all [Kind.Takes, Kind.IsClass]

theorem Derives.of_endOfInput (kind : g.kind id = .endOfInput) (derives : Derives g id here result) :
    (here.rest = [] ∧ result = some (.spanning g id here here [], here)) ∨
      here.rest ≠ [] ∧ result = none := by
  cases derives with
  | endOfInput _ rest => exact .inl ⟨rest, rfl⟩
  | endOfInputFails _ rest => exact .inr ⟨rest, rfl⟩
  | _ => simp_all [Kind.Takes, Kind.IsClass]

end

/-! ## Places and results -/

section

variable {g : Grammar}

theorem Cursor.Spans.refl (here : Cursor) : here.Spans [] here :=
  ⟨rfl, rfl⟩

theorem Cursor.Spans.trans {here next stop : Cursor} {first second : List Char}
    (h : here.Spans first next) (k : next.Spans second stop) : here.Spans (first ++ second) stop := by
  refine ⟨?_, ?_⟩
  · rw [h.1, k.1, List.append_assoc]
  · rw [k.2, h.2, Text.byteLength_append, Nat.add_assoc]

theorem Cursor.Spans.offset_le {here stop : Cursor} {text : List Char} (h : here.Spans text stop) :
    here.offset ≤ stop.offset :=
  h.2 ▸ Nat.le_add_right ..

mutual

/-- What is derived covers a text that stands at its place. -/
theorem Derives.spans : ∀ {id here result}, Derives g id here result →
    ∀ found ∈ result, ∃ text, here.Spans text found.2
  | _, _, _, .literal _ spans, _, rfl => ⟨_, spans⟩
  | _, _, _, .character _ spans, _, rfl => ⟨_, spans⟩
  | _, _, _, .sequence _ all, _, rfl =>
    have ⟨text, spans⟩ := all.spans _ rfl
    ⟨text, spans⟩
  | _, _, _, .choice _ first, _, rfl =>
    have ⟨text, spans⟩ := first.spans _ rfl
    ⟨text, spans⟩
  | _, _, _, .repetition _ rounds, _, rfl => rounds.spans
  | _, _, _, .optional _ present, _, rfl =>
    have ⟨text, spans⟩ := present.spans _ rfl
    ⟨text, spans⟩
  | _, _, _, .optionalSkips _ _, _, rfl => ⟨[], .refl _⟩
  | _, _, _, .negation _ _, _, rfl => ⟨[], .refl _⟩
  | _, _, _, .endOfInput _ _, _, rfl => ⟨[], .refl _⟩

theorem DerivesAll.spans : ∀ {ids here result}, DerivesAll g ids here result →
    ∀ found ∈ result, ∃ text, here.Spans text found.2
  | _, _, _, .nil, _, rfl => ⟨[], .refl _⟩
  | _, _, _, .cons head tail, _, rfl =>
    have ⟨_, first⟩ := head.spans _ rfl
    have ⟨_, second⟩ := tail.spans _ rfl
    ⟨_, first.trans second⟩

theorem DerivesFirst.spans : ∀ {ids here result}, DerivesFirst g ids here result →
    ∀ found ∈ result, ∃ text, here.Spans text found.2
  | _, _, _, .here head, _, rfl => head.spans _ rfl
  | _, _, _, .later _ tail, found, mem => tail.spans found mem

theorem DerivesMore.spans : ∀ {id here trees stop}, DerivesMore g id here trees stop →
    ∃ text, here.Spans text stop
  | _, _, _, _, .stop _ => ⟨[], .refl _⟩
  | _, _, _, _, .more once _ again =>
    have ⟨_, first⟩ := once.spans _ rfl
    have ⟨_, second⟩ := again.spans
    ⟨_, first.trans second⟩

end

theorem Derives.offset_le {id : NodeId} {here stop : Cursor} {tree : DerivedTree}
    (derives : Derives g id here (some (tree, stop))) : here.offset ≤ stop.offset :=
  have ⟨_, spans⟩ := derives.spans _ rfl
  spans.offset_le

/-- A text stands here in one way only. -/
theorem Cursor.Spans.unique {here stop other : Cursor} {text : List Char} (h : here.Spans text stop)
    (k : here.Spans text other) : stop = other := by
  obtain ⟨offset, rest⟩ := stop
  obtain ⟨offset', rest'⟩ := other
  have offsets : offset = offset' := h.2.trans k.2.symm
  have rests : rest = rest' := List.append_cancel_left (h.1.symm.trans k.1)
  rw [offsets, rests]

mutual

/-- A node comes to one result at a place. -/
theorem Derives.unique : ∀ {id here result}, Derives g id here result →
    ∀ {other}, Derives g id here other → result = other
  | _, _, _, .literal kind spans, _, other => by
    obtain ⟨_, spans', rfl⟩ | ⟨differs, _⟩ := other.of_literal kind
    · rw [spans.unique spans']
    · exact absurd ⟨_, spans.1.symm⟩ differs
  | _, _, _, .literalFails kind differs, _, other => by
    obtain ⟨_, spans, _⟩ | ⟨_, rfl⟩ := other.of_literal kind
    · exact absurd ⟨_, spans.1.symm⟩ differs
    · rfl
  | id, _, _, .character takes spans, _, other => by
    have kind : (g.kind id).IsClass := by
      cases h : g.kind id <;> simp_all [Grammar.Kind.Takes, Grammar.Kind.IsClass]
    obtain ⟨d, stop, _, spans', rfl⟩ | ⟨refused, _⟩ := other.of_class kind
    · obtain rfl : _ = d := (List.cons.inj (spans.1.symm.trans spans'.1)).1
      rw [spans.unique spans']
    · exact absurd takes (refused _ (by rw [spans.1]; rfl))
  | _, _, _, .characterFails kind refused, _, other => by
    obtain ⟨_, _, takes, spans, _⟩ | ⟨_, rfl⟩ := other.of_class kind
    · exact absurd takes (refused _ (by rw [spans.1]; rfl))
    · rfl
  | _, _, _, .sequence kind all, _, other => by
    obtain ⟨_, _, all', rfl⟩ | ⟨all', _⟩ := other.of_sequence kind
    · cases all.unique all'
      rfl
    · cases all.unique all'
  | _, _, _, .sequenceFails kind all, _, other => by
    obtain ⟨_, _, all', _⟩ | ⟨_, rfl⟩ := other.of_sequence kind
    · cases all.unique all'
    · rfl
  | _, _, _, .choice kind first, _, other => by
    obtain ⟨_, _, first', rfl⟩ | ⟨first', _⟩ := other.of_choice kind
    · cases first.unique first'
      rfl
    · cases first.unique first'
  | _, _, _, .choiceFails kind first, _, other => by
    obtain ⟨_, _, first', _⟩ | ⟨_, rfl⟩ := other.of_choice kind
    · cases first.unique first'
    · rfl
  | _, _, _, .repetition kind rounds, _, other => by
    obtain ⟨_, _, _, rounds', rfl⟩ | ⟨never, _⟩ := other.of_repetition kind
    · obtain ⟨trees, stop⟩ := rounds.unique rounds'
      rw [trees, stop]
    -- Rounds that stop at once have no trees, and those of a match have one.
    · cases (rounds.unique (.stop never)).1
  | _, _, _, .repetitionFails kind never, _, other => by
    obtain ⟨_, _, _, rounds, _⟩ | ⟨_, rfl⟩ := other.of_repetition kind
    · cases rounds with
      | more once _ _ => cases never.unique once
    · rfl
  | _, _, _, .optional kind present, _, other => by
    obtain ⟨_, _, present', rfl⟩ | ⟨absent, _⟩ := other.of_optional kind
    · cases present.unique present'
      rfl
    · cases present.unique absent
  | _, _, _, .optionalSkips kind absent, _, other => by
    obtain ⟨_, _, present, _⟩ | ⟨_, rfl⟩ := other.of_optional kind
    · cases absent.unique present
    · rfl
  | _, _, _, .negation kind absent, _, other => by
    obtain ⟨_, _, present, _⟩ | ⟨_, rfl⟩ := other.of_negation kind
    · cases absent.unique present
    · rfl
  | _, _, _, .negationFails kind present, _, other => by
    obtain ⟨_, _, _, rfl⟩ | ⟨absent, _⟩ := other.of_negation kind
    · rfl
    · cases present.unique absent
  | _, _, _, .endOfInput kind rest, _, other => by
    obtain ⟨_, rfl⟩ | ⟨left, _⟩ := other.of_endOfInput kind
    · rfl
    · exact absurd rest left
  | _, _, _, .endOfInputFails kind left, _, other => by
    obtain ⟨rest, _⟩ | ⟨_, rfl⟩ := other.of_endOfInput kind
    · exact absurd rest left
    · rfl
termination_by structural _ _ _ derives => derives

theorem DerivesAll.unique : ∀ {ids here result}, DerivesAll g ids here result →
    ∀ {other}, DerivesAll g ids here other → result = other
  | _, _, _, .nil, _, other => by
    cases other
    rfl
  | _, _, _, .cons head tail, _, other => by
    cases other with
    | cons head' tail' =>
      cases head.unique head'
      cases tail.unique tail'
      rfl
    | headFails head' => cases head.unique head'
    | tailFails head' tail' =>
      cases head.unique head'
      cases tail.unique tail'
  | _, _, _, .headFails head, _, other => by
    cases other with
    | cons head' _ => cases head.unique head'
    | _ => rfl
  | _, _, _, .tailFails head tail, _, other => by
    cases other with
    | cons head' tail' =>
      cases head.unique head'
      cases tail.unique tail'
    | _ => rfl
termination_by structural _ _ _ derives => derives

theorem DerivesFirst.unique : ∀ {ids here result}, DerivesFirst g ids here result →
    ∀ {other}, DerivesFirst g ids here other → result = other
  | _, _, _, .nil, _, other => by
    cases other
    rfl
  | _, _, _, .here head, _, other => by
    cases other with
    | here head' => exact head.unique head'
    | later head' _ => cases head.unique head'
  | _, _, _, .later head tail, _, other => by
    cases other with
    | here head' => cases head.unique head'
    | later _ tail' => exact tail.unique tail'
termination_by structural _ _ _ derives => derives

theorem DerivesMore.unique : ∀ {id here trees stop}, DerivesMore g id here trees stop →
    ∀ {trees' stop'}, DerivesMore g id here trees' stop' → trees = trees' ∧ stop = stop'
  | _, _, _, _, .stop fails, _, _, other => by
    cases other with
    | stop _ => exact ⟨rfl, rfl⟩
    | more once _ _ => cases fails.unique once
  | _, _, _, _, .more once _ again, _, _, other => by
    cases other with
    | stop fails => cases once.unique fails
    | more once' _ again' =>
      cases once.unique once'
      obtain ⟨rfl, rfl⟩ := again.unique again'
      exact ⟨rfl, rfl⟩
termination_by structural _ _ _ _ derives => derives

end

end

end Match

end BnfTokenizer
