import BnfTokenizer.Proofs.Dialect.Printing

/-!
# Rules that say the same, in two tables

A name is needed if the root is called so, or a needed rule mentions it. Two lists of rules agree if they say the same
of every needed name: both nothing, or the same expression. What they say of other names, and in which order they
come, is left open, so the nodes of a needed rule stand at different addresses in the two tables. `Counterpart`
relates them, from body to body and on from child to child. A name has one placeholder, and nothing else stands in two
places, so it is one to one, and the two tables are twins as far as it goes (`Agree.twins`).
-/

namespace BnfTokenizer.Dialect

open Grammar (Kind Twins Matched)

variable {rules rules' : List Rule}

/-! ## What rules say -/

namespace Expression

mutual

/-- The expression with each member of a class listed once, where it first stands. -/
def plain : Expression → Expression
  | charSet members negated => charSet (String.ofList members.toList.eraseDups) negated
  | sequence parts => sequence (listPlain parts)
  | choice alternatives => choice (listPlain alternatives)
  | repetition inner => repetition inner.plain
  | optional inner => optional inner.plain
  | negation inner => negation inner.plain
  | e => e

/-- Some expressions without what their names say. -/
def listPlain : List Expression → List Expression
  | [] => []
  | e :: es => e.plain :: listPlain es

end

mutual

/-- Are two expressions the same? Expressions in lists leave no comparison to be derived. -/
def same : Expression → Expression → Bool
  | literal text, literal other => text == other
  | charSet members negated, charSet others negated' => members == others && negated == negated'
  | charRange low high negated, charRange low' high' negated' => low == low' && high == high' && negated == negated'
  | endOfInput, endOfInput => true
  | rule name, rule other => name == other
  | sequence es, sequence es' | choice es, choice es' => listSame es es'
  | repetition e, repetition e' | optional e, optional e' | negation e, negation e' => same e e'
  | _, _ => false

/-- Some expressions are the same, one by one. -/
def listSame : List Expression → List Expression → Bool
  | [], [] => true
  | e :: es, e' :: es' => same e e' && listSame es es'
  | _, _ => false

end

mutual

/-- Sameness is decided. -/
theorem same_iff (e e' : Expression) : same e e' = true ↔ e = e' := by
  cases e <;> cases e' <;> simp [same, same_iff, listSame_iff, and_assoc]

theorem listSame_iff (es es' : List Expression) : listSame es es' = true ↔ es = es' := by
  cases es <;> cases es' <;> simp [listSame, same_iff, listSame_iff]

end

instance : DecidableEq Expression := fun e e' => decidable_of_iff (same e e' = true) (same_iff e e')

end Expression

instance : DecidableEq Rule := fun rule other =>
  decidable_of_iff (rule.name = other.name ∧ rule.body = other.body) (by cases rule; cases other; simp)

/-- What some rules say of a name. A class of characters is what its members are, however often they are listed. -/
def said? (rules : List Rule) (name : String) : Option Expression :=
  (rules.find? fun rule => rule.name == name).map fun rule => rule.body.plain

/-- The names that the root comes to by what the rules mention. -/
inductive Needed (rules : List Rule) : String → Prop
  | root : Needed rules RuleTable.rootName
  | mention {name other body} (needed : Needed rules name) (said : said? rules name = some body)
      (mem : other ∈ body.mentioned) : Needed rules other

/-- The same is said of every name that is needed. -/
def Agree (rules rules' : List Rule) : Prop :=
  ∀ name, Needed rules name → said? rules name = said? rules' name

theorem find?_name_iff (distinct : (rules.map Rule.name).Nodup) {name : String} {rule : Rule} :
    rules.find? (fun rule => rule.name == name) = some rule ↔ rule ∈ rules ∧ rule.name = name := by
  constructor
  · intro found
    exact ⟨List.mem_of_find?_eq_some found, by simpa using List.find?_some found⟩
  · rintro ⟨mem, rfl⟩
    cases found : rules.find? fun other => other.name == rule.name with
    | none => exact absurd BEq.rfl (List.find?_eq_none.mp found rule mem)
    | some other =>
      have same : other.name = rule.name := by simpa using List.find?_some found
      rw [List.inj_on_of_nodup_map distinct (List.mem_of_find?_eq_some found) mem same]

/-- What is said of a name is the body of its rule. -/
theorem said?_eq_some_iff (distinct : (rules.map Rule.name).Nodup) {name : String} {body : Expression} :
    said? rules name = some body ↔ ∃ rule, (rule ∈ rules ∧ rule.name = name) ∧ rule.body.plain = body := by
  rw [said?, Option.map_eq_some_iff]
  exact exists_congr fun rule => and_congr_left' (find?_name_iff distinct)

/-- The order of rules does not matter. -/
theorem said?_perm (perm : rules.Perm rules') (distinct : (rules.map Rule.name).Nodup) (name : String) :
    said? rules name = said? rules' name := by
  have distinct' := (perm.map Rule.name).nodup_iff.mp distinct
  refine Option.ext fun body => ?_
  rw [said?_eq_some_iff distinct, said?_eq_some_iff distinct']
  simp only [perm.mem_iff]

/-- **Rules agree with themselves in any order, and with more rules that are not needed.** -/
theorem agree_of_perm {more : List Rule} (perm : rules'.Perm (rules ++ more))
    (distinct : (rules'.map Rule.name).Nodup) (idle : ∀ rule ∈ more, ¬ Needed rules rule.name) :
    Agree rules rules' := by
  intro name needed
  have absent : more.find? (fun rule => rule.name == name) = none := by
    rw [List.find?_eq_none]
    intro rule mem same
    exact idle rule mem (beq_iff_eq.mp same ▸ needed)
  rw [said?_perm perm distinct name, said?, said?, List.find?_append, absent, Option.or_none]

/-! ## Standing for the plain expression -/

namespace Expression

variable {g : Grammar} {mention : NodeId → String → Prop}

theorem ownName_plain (e : Expression) : e.plain.ownName = e.ownName := by
  cases e <;> rfl

theorem bodyName_plain (e : Expression) (name : String) : e.plain.bodyName name = e.bodyName name := by
  cases e <;> rfl

mutual

/-- A node does not tell how often a member is listed. -/
theorem Stands.plain : ∀ {e : Expression} {id : NodeId} {name : Option String},
    e.Stands g mention id name → e.plain.Stands g mention id name
  | .literal _, _, _, stands | .charRange .., _, _, stands | .endOfInput, _, _, stands | .rule _, _, _, stands => stands
  | .charSet .., _, _, stands => by
    rw [Expression.plain, Expression.Stands, String.toList_ofList, eraseDups_eraseDups]
    exact stands
  | .sequence _, _, _, ⟨ids, row, all⟩ | .choice _, _, _, ⟨ids, row, all⟩ => ⟨ids, row, all.plain⟩
  | .repetition e, _, _, ⟨child, row, stands⟩ | .optional e, _, _, ⟨child, row, stands⟩
  | .negation e, _, _, ⟨child, row, stands⟩ => ⟨child, row, e.ownName_plain ▸ stands.plain⟩

theorem AllStand.plain : ∀ {es : List Expression} {ids : List NodeId},
    AllStand g mention ids es → AllStand g mention ids (listPlain es)
  | [], [], _ => trivial
  | e :: _, _ :: _, ⟨stands, all⟩ => ⟨e.ownName_plain ▸ stands.plain, all.plain⟩

end

end Expression

/-! ## The bodies in a table -/

section

variable {g : Grammar} {table : RuleTable} (tabled : Tabled rules g table)

include tabled

/-- What is said of a name stands at the body that the table has for it. -/
theorem body_of_said? (distinct : (rules.map Rule.name).Nodup) {name : String} {body : Expression}
    (said : said? rules name = some body) : ∃ id, table.get? name = some id ∧
      body.Stands g (Expression.Placeholder g) id (body.bodyName name) := by
  obtain ⟨rule, ⟨mem, rfl⟩, rfl⟩ := (said?_eq_some_iff distinct).mp said
  obtain ⟨id, listed, stands⟩ := tabled.exists_entry mem
  exact ⟨id, (tabled.get?_iff distinct).mpr listed, rule.body.bodyName_plain rule.name ▸ stands.plain⟩

/-- The table has nothing for a name of which nothing is said. -/
theorem get?_of_unsaid (distinct : (rules.map Rule.name).Nodup) {name : String} (unsaid : said? rules name = none) :
    table.get? name = none := by
  refine Option.eq_none_iff_forall_ne_some.mpr fun id known => ?_
  obtain ⟨rule, mem, rfl, _⟩ := tabled.exists_rule ((tabled.get?_iff distinct).mp known)
  have said : said? rules rule.name = some rule.body.plain := (said?_eq_some_iff distinct).mpr ⟨rule, ⟨mem, rfl⟩, rfl⟩
  rw [unsaid] at said
  cases said

/-- A body that is no placeholder is that of one rule. -/
theorem name_of_body {name other : String} {id : NodeId} (listed : (name, id) ∈ table.entries)
    (listed' : (other, id) ∈ table.entries) (proper : (g.kind id).isReference = false) : name = other := by
  obtain ⟨rule, body, rfl⟩ := BodyOf.of_mem tabled listed proper
  obtain ⟨rule', body', rfl⟩ := BodyOf.of_mem tabled listed' proper
  exact Option.some.inj (body.name.symm.trans body'.name)

/-- A body that is no alias tells its rule. -/
theorem ruleAt?_of_body {name : String} {id : NodeId} (listed : (name, id) ∈ table.entries)
    (proper : (g.kind id).isReference = false) : table.ruleAt? id = some name := by
  unfold RuleTable.ruleAt?
  cases found : table.entries.find? fun entry => entry.2 == id with
  | none => exact absurd BEq.rfl (List.find?_eq_none.mp found _ listed)
  | some entry =>
    obtain ⟨other, place⟩ := entry
    obtain rfl : place = id := by simpa using List.find?_some found
    exact congrArg some (name_of_body tabled (List.mem_of_find?_eq_some found) listed proper)

/-- A part of an expression is the body of no rule. -/
theorem ruleAt?_of_child {a c : NodeId} (child : c ∈ g.children a) (proper : (g.kind c).isReference = false) :
    table.ruleAt? c = none := by
  rw [RuleTable.ruleAt?, Option.map_eq_none_iff, List.find?_eq_none]
  rintro ⟨name, place⟩ listed same
  obtain rfl : place = c := by simpa using same
  exact tabled.not_body_of_child proper child name listed

end

/-! ## Counterparts -/

section

variable {g g' : Grammar} {table table' : RuleTable}

/-- The bodies of the same rule, and the children of counterparts in the same place. -/
inductive Counterpart (names : String → Prop) (g : Grammar) (table : RuleTable) (g' : Grammar) (table' : RuleTable) :
    NodeId → NodeId → Prop
  | body {name id id'} (needed : names name) (known : table.get? name = some id)
      (known' : table'.get? name = some id') : Counterpart names g table g' table' id id'
  | child {a b c d : NodeId} {i : Nat} (above : Counterpart names g table g' table' a b)
      (left : (g.children a)[i]? = some c) (right : (g'.children b)[i]? = some d) :
      Counterpart names g table g' table' c d

theorem Counterpart.symm {names : String → Prop} {a b : NodeId}
    (counterpart : Counterpart names g table g' table' a b) :
    Counterpart names g' table' g table b a := by
  induction counterpart with
  | body needed known known' => exact .body needed known' known
  | child _ left right ih => exact .child ih right left

/-- A placeholder for a rule that is needed. -/
def Asks (g : Grammar) (names : String → Prop) (id : NodeId) (name : String) : Prop :=
  Expression.Placeholder g id name ∧ names name

/-- Two nodes stand for the same expression, which mentions needed rules only. -/
def SaysSame (names : String → Prop) (g g' : Grammar) (a b : NodeId) : Prop :=
  ∃ (name : Option String) (e : Expression), e.Stands g (Asks g names) a name ∧ e.Stands g' (Asks g' names) b name

namespace SaysSame

variable {names : String → Prop} {a b : NodeId}

theorem symm (same : SaysSame names g g' a b) : SaysSame names g' g b a := by
  obtain ⟨name, e, first, second⟩ := same
  exact ⟨name, e, second, first⟩

/-- What says the same has one name and like kinds. -/
theorem matched (same : SaysSame names g g' a b) : Matched g g' (SaysSame names g g') a b := by
  obtain ⟨name, e, first, second⟩ := same
  by_cases bare : ∃ target, e = .rule target
  · obtain ⟨target, rfl⟩ := bare
    exact Expression.matched_of_rows first.1 second.1 (.leaf rfl)
  · have whole : ∀ target, e ≠ .rule target := fun target same => bare ⟨target, same⟩
    exact first.matched (fun e a b first second => ⟨e.ownName, e, first, second⟩) whole second

/-- Where one of them is a placeholder, the other is one for the same name. -/
theorem kind_of_reference (same : SaysSame names g g' a b) {name : String} (kind : g.kind a = .reference name) :
    g'.kind b = .reference name := by
  have like := same.matched.2.2
  rw [kind] at like
  generalize g'.kind b = other at like
  cases like with
  | leaf _ => rfl

/-- What a placeholder stands for is needed. -/
theorem needed (same : SaysSame names g g' a b) {name : String} (kind : g.kind a = .reference name) : names name := by
  obtain ⟨own, e, first, _⟩ := same
  by_cases bare : ∃ target, e = .rule target
  · obtain ⟨target, rfl⟩ := bare
    cases (kind_of_row first.1).symm.trans kind
    exact first.2
  · obtain ⟨other, row, proper⟩ := row_of_stands first fun target same => bare ⟨target, same⟩
    rw [← kind_of_row row, kind] at proper
    cases proper

end SaysSame

/-- **A node has one counterpart.** There is one placeholder for a name, and anything else has one place. -/
theorem Counterpart.left_unique {names : String → Prop} {a a' b : NodeId} (tabled : Tabled rules g table)
    (tabled' : Tabled rules' g' table') (distinct' : (rules'.map Rule.name).Nodup)
    (same : ∀ a b, Counterpart names g table g' table' a b → SaysSame names g g' a b)
    (first : Counterpart names g table g' table' a b) (second : Counterpart names g table g' table' a' b) : a = a' := by
  rcases eq_reference_or_proper (g'.kind b) with ⟨name, kind⟩ | proper
  · exact tabled.shared ((same _ _ first).symm.kind_of_reference kind) ((same _ _ second).symm.kind_of_reference kind)
  · induction first generalizing a' with
    | body _ known known' =>
      have listed := (tabled'.get?_iff distinct').mp known'
      cases second with
      | body _ again again' =>
        obtain rfl := name_of_body tabled' listed ((tabled'.get?_iff distinct').mp again') proper
        exact Option.some.inj (known.symm.trans again)
      | child _ _ right =>
        exact absurd listed (tabled'.not_body_of_child proper (List.mem_of_getElem? right) _)
    | child above left right ih =>
      cases second with
      | body _ _ again' =>
        exact absurd ((tabled'.get?_iff distinct').mp again')
          (tabled'.not_body_of_child proper (List.mem_of_getElem? right) _)
      | child above' left' right' =>
        obtain ⟨rfl, rfl⟩ := tabled'.place_unique proper right right'
        -- a node with children is no placeholder
        have parent := proper_of_child (List.mem_of_getElem? right)
        cases ih above' parent
        exact Option.some.inj (left.symm.trans left')

theorem Counterpart.ruleAt?_eq {names : String → Prop} {a b : NodeId} (tabled : Tabled rules g table)
    (tabled' : Tabled rules' g' table') (distinct : (rules.map Rule.name).Nodup)
    (distinct' : (rules'.map Rule.name).Nodup) (counterpart : Counterpart names g table g' table' a b)
    (proper : (g.kind a).isReference = false) (proper' : (g'.kind b).isReference = false) :
    table.ruleAt? a = table'.ruleAt? b := by
  cases counterpart with
  | body _ known known' =>
    rw [ruleAt?_of_body tabled ((tabled.get?_iff distinct).mp known) proper,
      ruleAt?_of_body tabled' ((tabled'.get?_iff distinct').mp known') proper']
  | child _ left right =>
    rw [ruleAt?_of_child tabled (List.mem_of_getElem? left) proper,
      ruleAt?_of_child tabled' (List.mem_of_getElem? right) proper']

end

/-! ## Twin tables -/

namespace Agree

variable {g g' : Grammar} {table table' : RuleTable} {a b : NodeId} (agree : Agree rules rules')
  (tabled : Tabled rules g table) (tabled' : Tabled rules' g' table') (distinct : (rules.map Rule.name).Nodup)
  (distinct' : (rules'.map Rule.name).Nodup)

include agree tabled tabled' distinct distinct'

/-- A rule that is needed has a body in neither table, or in both, and then it says the same. -/
theorem bodies {name : String} (needed : Needed rules name) :
    (table.get? name = none ∧ table'.get? name = none) ∨
      ∃ id id', table.get? name = some id ∧ table'.get? name = some id' ∧ SaysSame (Needed rules) g g' id id' := by
  have same := agree name needed
  cases said : said? rules name with
  | none =>
    exact .inl ⟨get?_of_unsaid tabled distinct said, get?_of_unsaid tabled' distinct' (same.symm.trans said)⟩
  | some body =>
    obtain ⟨id, known, stands⟩ := body_of_said? tabled distinct said
    obtain ⟨id', known', stands'⟩ := body_of_said? tabled' distinct' (same.symm.trans said)
    have all : body.AllNames (Needed rules) :=
      (Expression.allNames_iff body).mpr fun other mem => .mention needed said mem
    exact .inr ⟨id, id', known, known', body.bodyName name, body,
      Expression.stands_imp (fun _ _ needed placeholder => ⟨placeholder, needed⟩) body all stands,
      Expression.stands_imp (fun _ _ needed placeholder => ⟨placeholder, needed⟩) body all stands'⟩

/-- Both tables have counterparts for a name that is needed, or nothing. -/
theorem rel_get? {name : String} (needed : Needed rules name) :
    Option.Rel (Counterpart (Needed rules) g table g' table') (table.get? name) (table'.get? name) := by
  rcases agree.bodies tabled tabled' distinct distinct' needed with ⟨unknown, unknown'⟩ | ⟨id, id', known, known', _⟩
  · rw [unknown, unknown']
    exact .none
  · rw [known, known']
    exact .some (.body needed known known')

theorem saysSame (counterpart : Counterpart (Needed rules) g table g' table' a b) :
    SaysSame (Needed rules) g g' a b := by
  induction counterpart with
  | body needed known known' =>
    rcases agree.bodies tabled tabled' distinct distinct' needed with ⟨unknown, _⟩ | ⟨id, id', here, there, same⟩
    · cases unknown.symm.trans known
    · cases here.symm.trans known
      cases there.symm.trans known'
      exact same
  | child _ left right ih => exact Grammar.rel_of_getElem? ih.matched.2.2.children left right

/-- **Rules that agree have twin tables**, as far as they are needed. -/
theorem twins : Twins g g' (Counterpart (Needed rules) g table g' table') where
  inside counterpart := (agree.saysSame tabled tabled' distinct distinct' counterpart).matched.1
  name counterpart := (agree.saysSame tabled tabled' distinct distinct' counterpart).matched.2.1
  left := Counterpart.left_unique tabled tabled' distinct' fun _ _ =>
    agree.saysSame tabled tabled' distinct distinct'
  right first second := Counterpart.left_unique tabled' tabled distinct
    (fun _ _ counterpart => (agree.saysSame tabled tabled' distinct distinct' counterpart.symm).symm) first.symm
    second.symm
  kind counterpart := by
    have like := (agree.saysSame tabled tabled' distinct distinct' counterpart).matched.2.2
    refine like.mono (List.forall₂_iff_get.mpr ⟨like.children.length_eq, fun i within within' => ?_⟩)
    exact .child counterpart (List.getElem?_eq_getElem within) (List.getElem?_eq_getElem within')

end Agree

end BnfTokenizer.Dialect
