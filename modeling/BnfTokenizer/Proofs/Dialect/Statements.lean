import BnfTokenizer.Proofs.Dialect.Elements

/-!
# Statements are read as they were meant

The recursive part of the dialect. For each sort of abstract syntax, what it was written as is taken by the
symbol for it, and the view that is left reads as what it means.

A row of elements is not taken as a whole: its first element is taken, and the others as continuations, in
one repetition with those of the rows behind it. So the lemmas on rows and alternatives are about a text in
front of continuations that are already known to be taken.
-/

namespace BnfTokenizer.Dialect

open ParseTree (View)

variable {source text rest gap next : List Char}

/-! ## Readings -/

/-- A view reads as a row, in whatever source it stands. -/
def Reads (v : View) (items : List Item) : Prop :=
  ∀ source, readItems source v = .ok items

/-- Views read as a row, one behind the other. -/
def ReadsAll (views : List View) (items : List Item) : Prop :=
  ∀ source, listReadItems source views = .ok items

theorem ReadsAll.nil : ReadsAll [] [] :=
  fun _ => rfl

/-- Two rows are read one after the other. -/
theorem listReadItems_append (source : String) (vs ws : List View) :
    listReadItems source (vs ++ ws) =
      (listReadItems source vs).bind fun items => (listReadItems source ws).map (items ++ ·) := by
  induction vs with
  | nil =>
    rw [List.nil_append, listReadItems]
    cases listReadItems source ws <;> rfl
  | cons v vs ih =>
    rw [List.cons_append, listReadItems, listReadItems, ih]
    cases readItems source v with
    | error error => rfl
    | ok own =>
      cases listReadItems source vs with
      | error error => rfl
      | ok items =>
        cases listReadItems source ws with
        | error error => rfl
        | ok others => exact congrArg Except.ok (List.append_assoc own items others).symm

theorem ReadsAll.single {v : View} {items : List Item} (reads : Reads v items) : ReadsAll [v] items := by
  intro source
  rw [listReadItems, reads source]
  exact congrArg Except.ok (List.append_nil items)

theorem ReadsAll.append {vs ws : List View} {items others : List Item} (first : ReadsAll vs items)
    (second : ReadsAll ws others) : ReadsAll (vs ++ ws) (items ++ others) := by
  intro source
  rw [listReadItems_append, first source, second source]
  rfl

/-- Views that stand for nothing in a row. -/
theorem ReadsAll.silent {views : List View} {name : String} (named : ∀ v ∈ views, v.name = some name)
    (silent : ∀ value span children, Reads (.node (some name) value span children) []) :
    ReadsAll views [] := by
  induction views with
  | nil => exact .nil
  | cons v vs ih =>
    obtain ⟨own, rest⟩ := List.forall_mem_cons.mp named
    obtain ⟨called, value, span, children⟩ := v
    cases own
    exact .append (.single (silent value span children)) (ih rest)

/-! ## Marks -/

/-- The mark behind an operand is there under its name, or there is none. -/
inductive ModifierViews : Modifier → List View → Prop
  | once : ModifierViews .once []
  | more {span} : ModifierViews .more [.node (some "modifier") "+" span []]
  | any {span} : ModifierViews .any [.node (some "modifier") "*" span []]
  | maybe {span} : ModifierViews .maybe [.node (some "modifier") "?" span []]

/-- What is left of a modifier is called one. -/
theorem ModifierViews.named {modifier : Modifier} {views : List View} (is : ModifierViews modifier views) :
    ∀ v ∈ views, v.name = some "modifier" := by
  cases is with
  | once => exact nofun
  | _ => exact List.forall_mem_singleton.mpr rfl

/-- A modifier is taken if no further one stands behind it, which the repetition of marks would take too. -/
theorem takes_modifier (modifier : Modifier) (none : ∀ c ∈ rest.head?, c ∉ ['+', '*', '?'])
    (within : modifier.mark ++ rest <:+ source) :
    ∃ views, Takes source .trailingMark modifier.mark rest views ∧ ModifierViews modifier views := by
  have marked : ∀ c ∈ ['+', '*', '?'], [c] ++ rest <:+ source → Takes source .trailingMark [c] rest
      [.node (some "modifier") (String.ofList [c]) (spanOf source [c] rest) []] := by
    intro c mem within
    have inner := takes_class .modifier rfl (⟨fun _ => rfl, fun _ => mem⟩ : c ∈ ['+', '*', '?'] ↔ false = false)
      within
    rw [left_keep within (List.cons_ne_nil _ _) rfl] at inner
    have outer := takes_optional .trailingMark .modifier rfl inner
    rwa [left_lift within (List.cons_ne_nil _ _) rfl] at outer
  cases modifier with
  | once =>
    refine ⟨[], skips_optional .trailingMark .modifier rfl (fails_class .modifier rfl fun c first => ?_), .once⟩
    exact fun taken => none c first (taken.mpr rfl)
  | more => exact ⟨_, marked '+' (by decide) within, .more⟩
  | any => exact ⟨_, marked '*' (by decide) within, .any⟩
  | maybe => exact ⟨_, marked '?' (by decide) within, .maybe⟩

/-- A bang in front is taken where the negation is asked for, and none is there where it is not. -/
theorem takes_bang (negated : Bool) (differs : negated = false → ∀ c ∈ rest.head?, c ≠ '!')
    (within : negationMark negated '!' ++ rest <:+ source) :
    ∃ views, Takes source .leadingMark (negationMark negated '!') rest views ∧
      (∀ v ∈ views, v.name = some "!") ∧ views.isEmpty = !negated :=
  takes_mark .leadingMark .bang rfl rfl rfl negated differs within

/-- An expression under its marks: the modifier inside, the negation outside. -/
def marked (negated : Bool) (modifier : Modifier) (e : Expression) : Expression :=
  if negated then .negation (modifier.apply e) else modifier.apply e

/-- The marks that a view stands under, whatever stands between them. -/
theorem withMarks_of {name : Option String} {value : String} {span : Span} {bangs core mods : List View}
    {negated : Bool} {modifier : Modifier} (named : ∀ v ∈ bangs, v.name = some "!")
    (empty : bangs.isEmpty = !negated) (mark : ModifierViews modifier mods)
    (plain : ∀ v ∈ core, v.name ≠ some "!" ∧ v.name ≠ some "modifier") (e : Expression) :
    withMarks (.node name value span (bangs ++ (core ++ mods))) e = marked negated modifier e := by
  have bang : hasMark (.node name value span (bangs ++ (core ++ mods))) "!" = negated := by
    refine hasMark_append named empty ?_
    rw [List.forall_mem_append]
    exact ⟨fun v mem => (plain v mem).1, fun v mem => by rw [mark.named v mem]; decide⟩
  have absent : ∀ views : List View, (∀ v ∈ views, v.name ≠ some "modifier") →
      views.find? (fun c => c.name == some "modifier") = none := by
    intro views differ
    rw [List.find?_eq_none]
    exact fun v mem same => differ v mem (beq_iff_eq.mp same)
  have behind : (View.node name value span (bangs ++ (core ++ mods))).childByName "modifier" =
      mods.find? (fun c => c.name == some "modifier") := by
    unfold View.childByName View.children
    rw [List.find?_append, absent bangs (fun v mem => by rw [named v mem]; decide), Option.none_or,
      List.find?_append, absent core (fun v mem => (plain v mem).2), Option.none_or]
  unfold withMarks
  rw [behind, bang]
  cases mark <;> rfl

/-! ## Operands -/

/-- A text is taken as an element and reads as an expression. -/
def TakesElement (source text rest : List Char) (e : Expression) : Prop :=
  ∃ v, Takes source .element text rest [v] ∧ Reads v [.expression e]

/-- An atom is taken for neither of the marks around it. -/
theorem SaysAtom.plain {v : View} {e : Expression} (spoken : SaysAtom v e) :
    v.name ≠ some "!" ∧ v.name ≠ some "modifier" := by
  have named := spoken.named
  constructor
  · intro other
    rw [other] at named
    revert named
    decide
  · intro other
    rw [other] at named
    revert named
    decide

/-- A token between its marks reads as the marked expression of its atom. -/
theorem reads_token {value : String} {span : Span} {bangs mods : List View} {v : View} {negated : Bool}
    {modifier : Modifier} {e : Expression} (named : ∀ v ∈ bangs, v.name = some "!")
    (empty : bangs.isEmpty = !negated) (mark : ModifierViews modifier mods) (spoken : SaysAtom v e) :
    Reads (.node (some "token") value span (bangs ++ ([v] ++ mods)))
      [.expression (marked negated modifier e)] := by
  intro source
  have absent : bangs.find? (fun c => c.name.any atomNames.contains) = none := by
    rw [List.find?_eq_none]
    intro w mem
    rw [named w mem]
    decide
  have found : (bangs ++ ([v] ++ mods)).find? (fun c => c.name.any atomNames.contains) = some v := by
    rw [List.find?_append, absent, Option.none_or, List.singleton_append, List.find?_cons, spoken.named]
  rw [readItems, readToken, View.children, found]
  dsimp only
  rw [spoken.reads source, Except.map, withMarks_of named empty mark
    (List.forall_mem_singleton.mpr spoken.plain)]
  rfl

/-- An operand with its marks is taken as an element, and reads as the marked expression. -/
theorem takes_token (negated : Bool) (modifier : Modifier) {e : Expression} {v : View}
    (atom : Takes source .atom text (modifier.mark ++ rest) [v]) (spoken : SaysAtom v e) (some : text ≠ [])
    (bare : ∀ c ∈ text.head?, c ≠ '!') (none : ∀ c ∈ rest.head?, c ∉ ['+', '*', '?'])
    (within : negationMark negated '!' ++ (text ++ modifier.mark) ++ rest <:+ source) :
    TakesElement source (negationMark negated '!' ++ (text ++ modifier.mark)) rest
      (marked negated modifier e) := by
  have whole : negationMark negated '!' ++ (text ++ (modifier.mark ++ rest)) <:+ source := by
    simpa only [List.append_assoc] using within
  have behind := within_rest whole
  obtain ⟨bangs, bang, named, empty⟩ := takes_bang negated (fun _ => by
    obtain ⟨c, cs, rfl⟩ := List.exists_cons_of_ne_nil some
    exact bare) whole
  obtain ⟨mods, trailing, mark⟩ := takes_modifier modifier none (within_rest behind)
  have all : TakesAll source [.leadingMark, .atom, .trailingMark]
      (negationMark negated '!' ++ (text ++ modifier.mark)) rest (bangs ++ ([v] ++ mods)) :=
    .cons (by rwa [List.append_assoc]) (.cons atom (.single trailing))
  have takes := takes_sequence .token _ rfl all
  have whole' : negationMark negated '!' ++ (text ++ modifier.mark) ≠ [] :=
    List.append_ne_nil_of_right_ne_nil _ (List.append_ne_nil_of_left_ne_nil some _)
  rw [left_keep within whole' rfl] at takes
  exact ⟨_, takes_choice .element [] .token [.nested] rfl nofun takes, reads_token named empty mark spoken⟩

/-- A statement is taken, and reads as a row of expressions and bars. -/
def TakesStatement (source text rest : List Char) (items : List Item) : Prop :=
  ∃ v, Takes source .statement text rest [v] ∧ v.name = some "statement" ∧ Reads v items

/-- A group between its marks reads as the marked fold of its row. -/
theorem reads_nested {value : String} {span : Span} {bangs mods : List View} {v : View} {negated : Bool}
    {modifier : Modifier} {items : List Item} (named : ∀ v ∈ bangs, v.name = some "!")
    (empty : bangs.isEmpty = !negated) (mark : ModifierViews modifier mods)
    (called : v.name = some "statement") (reads : Reads v items) :
    Reads (.node (some "nested") value span (bangs ++ ([v] ++ mods)))
      [.expression (marked negated modifier (Item.fold items))] := by
  intro source
  have inner : hasMark (.node (some "nested") value span (bangs ++ ([v] ++ mods))) "statement" = true := by
    have absent : bangs.find? (fun c => c.name == some "statement") = none := by
      rw [List.find?_eq_none]
      intro w mem
      rw [named w mem]
      decide
    unfold hasMark View.childByName View.children
    rw [List.find?_append, absent, Option.none_or, List.singleton_append, List.find?_cons, called]
    rfl
  have row : ReadsAll (bangs ++ ([v] ++ mods)) ([] ++ (items ++ [])) :=
    .append (.silent named fun _ _ _ _ => rfl) (.append (.single reads) (.silent mark.named fun _ _ _ _ => rfl))
  rw [List.nil_append, List.append_nil] at row
  rw [readItems]
  simp only [inner]
  rw [if_pos trivial, row source, Except.map, withMarks_of named empty mark]
  rw [List.forall_mem_singleton, called]
  decide

theorem fails_atom_of_group : Fails source .atom ('(' :: rest) := by
  refine fails_atom ?_ ?_
  · rintro _ ⟨⟩
    decide
  · rintro _ ⟨⟩
    decide

/-- A bracket in front of a group leaves nothing. -/
theorem takes_open (within : ['('] ++ rest <:+ source) : Takes source .openGroup ['('] rest [] := by
  have takes := takes_literal .openGroup ['('] rfl within
  rwa [left_delete rfl] at takes

/-- A bracket behind a group leaves nothing. -/
theorem takes_close (within : [')'] ++ rest <:+ source) : Takes source .closeGroup [')'] rest [] := by
  have takes := takes_literal .closeGroup [')'] rfl within
  rwa [left_delete rfl] at takes

/-- **A group with its marks is taken as an element**, gaps inside its brackets included. -/
theorem takes_nested (negated : Bool) (modifier : Modifier) {before after : List Char} {items : List Item}
    (opening : Gap before) (closing : Gap after) (begins : Begins text)
    (inner : TakesStatement source text (after ++ ([')'] ++ (modifier.mark ++ rest))) items)
    (none : ∀ c ∈ rest.head?, c ∉ ['+', '*', '?'])
    (within : negationMark negated '!' ++ (['('] ++ (before ++ (text ++ (after ++ [')']))) ++ modifier.mark) ++
      rest <:+ source) :
    TakesElement source (negationMark negated '!' ++ (['('] ++ (before ++ (text ++ (after ++ [')']))) ++
      modifier.mark)) rest (marked negated modifier (Item.fold items)) := by
  have whole : negationMark negated '!' ++ (['('] ++ (before ++ (text ++ (after ++ ([')'] ++
      (modifier.mark ++ rest)))))) <:+ source := by
    simpa only [List.append_assoc] using within
  have opened := within_rest whole
  have gapped := within_rest opened
  have spoken := within_rest gapped
  have gapped' := within_rest spoken
  have closed := within_rest gapped'
  obtain ⟨v, statement, called, reads⟩ := inner
  obtain ⟨bangs, bang, named, empty⟩ := takes_bang negated (fun _ => by
    rintro _ ⟨⟩
    decide) whole
  obtain ⟨mods, trailing, mark⟩ := takes_modifier modifier none (within_rest closed)
  have some : negationMark negated '!' ++ (['('] ++ (before ++ (text ++ (after ++ [')']))) ++
      modifier.mark) ≠ [] := by
    cases negated <;> exact List.cons_ne_nil _ _
  have solid : Solid (text ++ (after ++ ([')'] ++ (modifier.mark ++ rest)))) := by
    obtain ⟨c, cs, rfl, leads⟩ := begins
    exact leads.solid
  have solid' : Solid ([')'] ++ (modifier.mark ++ rest)) := by
    rintro _ ⟨⟩
    decide
  -- What is taken by the parts, one after the other, and what is left of each when the tree is culled.
  have all : TakesAll source [.leadingMark, .openGroup, .gap, .statement, .gap, .closeGroup, .trailingMark]
      (negationMark negated '!' ++ (['('] ++ (before ++ (text ++ (after ++ ([')'] ++ modifier.mark)))))) rest
      (bangs ++ ([] ++ ([] ++ ([v] ++ ([] ++ ([] ++ mods)))))) :=
    .cons (by simpa only [List.append_assoc] using bang)
      (.cons (by simpa only [List.append_assoc] using takes_open opened)
        (.cons (by simpa only [List.append_assoc] using takes_gap opening solid gapped)
          (.cons (by simpa only [List.append_assoc] using statement)
            (.cons (by simpa only [List.append_assoc] using takes_gap closing solid' gapped')
              (.cons (takes_close closed) (.single trailing))))))
  have takes := takes_sequence .nested _ rfl all
  simp only [List.nil_append] at takes
  rw [show negationMark negated '!' ++ (['('] ++ (before ++ (text ++ (after ++ ([')'] ++ modifier.mark))))) =
      negationMark negated '!' ++ (['('] ++ (before ++ (text ++ (after ++ [')']))) ++ modifier.mark) by
    simp only [List.append_assoc], left_keep within some rfl] at takes
  refine ⟨_, takes_choice .element [.token] .nested [] rfl ?_ takes, reads_nested named empty mark called reads⟩
  rw [List.forall_mem_singleton]
  exact fails_sequence .token [.leadingMark] .atom [.trailingMark] rfl (.single bang) fails_atom_of_group
    (by simp only [List.append_assoc])

/-! ## What ends a statement -/

/-- No element begins where neither an operand, nor a bang, nor a group does. -/
theorem fails_element (wordy : Wordy rest) (stops : ∀ c ∈ rest.head?, ¬ IsWordChar c)
    (differs : ∀ c ∈ rest.head?, c ≠ '!' ∧ c ≠ '(') : Fails source .element rest := by
  have unmarked : Takes source .leadingMark [] rest [] := by
    refine skips_optional .leadingMark .bang rfl (fails_literal .bang ['!'] rfl ?_)
    rintro ⟨tail, rfl⟩
    exact (differs '!' rfl).1 rfl
  have closed : Fails source .openGroup rest := by
    refine fails_literal .openGroup ['('] rfl ?_
    rintro ⟨tail, rfl⟩
    exact (differs '(' rfl).2 rfl
  refine fails_choice .element [.token, .nested] rfl ?_
  rw [List.forall_mem_cons, List.forall_mem_singleton]
  constructor
  · exact fails_sequence .token [.leadingMark] .atom [.trailingMark] rfl (.single unmarked)
      (fails_atom wordy stops) rfl
  · exact fails_sequence .nested [.leadingMark] .openGroup [.gap, .statement, .gap, .closeGroup, .trailingMark]
      rfl (.single unmarked) closed rfl

/-- No alternative follows a gap without a bar behind it. -/
theorem fails_pipeOpt (is : Gap gap) (solid : Solid next) (differs : ∀ c ∈ next.head?, c ≠ '|')
    (within : gap ++ next <:+ source) : Fails source .pipeOpt (gap ++ next) := by
  have absent : Fails source .pipe next := by
    refine fails_literal .pipe ['|'] rfl ?_
    rintro ⟨tail, rfl⟩
    exact differs '|' rfl rfl
  exact fails_sequence .pipeOpt [.gap] .pipe [.gap, .notHead, .element] rfl (.single (takes_gap is solid within))
    absent rfl

/-- Behind a gap a statement ends where neither a bar nor an element follows that heads no rule. -/
theorem fails_statementOpt (is : Gap gap) (solid : Solid next) (differs : ∀ c ∈ next.head?, c ≠ '|')
    (ends : Fails source .notHead next ∨ Fails source .head next ∧ Fails source .element next)
    (within : gap ++ next <:+ source) : Fails source .statementOpt (gap ++ next) := by
  have taken := takes_gap is solid within
  have spaced : Fails source .spaceOpt (gap ++ next) := by
    rcases ends with head | ⟨head, element⟩
    · exact fails_sequence .spaceOpt [.gap] .notHead [.element] rfl (.single taken) head rfl
    · have free : Takes source .notHead [] next [] := takes_negation .notHead .head rfl head
      exact fails_sequence .spaceOpt [.gap, .notHead] .element [] rfl (.cons taken (.single free)) element
        (List.append_assoc ..)
  refine fails_sequence .statementOpt [] .continuation [] rfl .nil ?_ rfl
  refine fails_choice .continuation [.pipeOpt, .spaceOpt] rfl ?_
  rw [List.forall_mem_cons, List.forall_mem_singleton]
  exact ⟨fails_pipeOpt is solid differs within, spaced⟩

/-! ## Rows -/

/-- A text is taken as continuations of a statement, and they read as a row. -/
def Continues (source text rest : List Char) (items : List Item) : Prop :=
  ∃ views, TakesMore source .statementOpt text rest views ∧ ReadsAll views items

/-- A text is taken as an element and continuations, and begins no rule. -/
inductive Parts (source : List Char) : List Char → List Char → List Item → Prop
  | mk {first tail rest e items} (begins : Begins first) (headless : Fails source .head (first ++ (tail ++ rest)))
      (element : TakesElement source first (tail ++ rest) e) (continues : Continues source tail rest items) :
      Parts source (first ++ tail) rest (.expression e :: items)

/-- An element begins with no gap. -/
theorem Begins.solid (begins : Begins text) : Solid (text ++ rest) := by
  obtain ⟨c, cs, rfl, leads⟩ := begins
  exact leads.solid

theorem Begins.head?_ne (begins : Begins text) {d : Char} (mem : d ∈ strange) :
    ∀ c ∈ (text ++ rest).head?, c ≠ d := by
  obtain ⟨c, cs, rfl, leads⟩ := begins
  rintro _ ⟨⟩ rfl
  exact leads.not_mem mem

theorem Begins.ne_nil (begins : Begins text) : text ≠ [] := by
  obtain ⟨c, cs, rfl, _⟩ := begins
  exact List.cons_ne_nil _ _

/-- One continuation more in front of others. -/
theorem Continues.more {name value : String} {span : Span} {views : List View} {first : List Char}
    {items others : List Item} (again : Continues source text rest others)
    (once : Takes source .continuation first (text ++ rest) [.node (some name) value span views])
    (wraps : name = "pipeOpt" ∨ name = "spaceOpt") (reads : ReadsAll views items) (filled : first ≠ [])
    (within : first ++ (text ++ rest) <:+ source) : Continues source (first ++ text) rest (items ++ others) := by
  have inner : ∀ value span value' span', Reads (.node (some "statementOpt") value span
      [.node (some name) value' span' views]) items := by
    intro value span value' span'
    have wrapped : Reads (.node (some name) value' span' views) items := by
      intro source
      rcases wraps with rfl | rfl <;> exact reads source
    exact fun source => ReadsAll.single wrapped source
  have takes := takes_sequence .statementOpt [.continuation] rfl (.single once)
  rw [left_keep within filled rfl] at takes
  obtain ⟨more, rounds, row⟩ := again
  exact ⟨_, .more takes filled rounds, .append (.single (inner _ _ _ _)) row⟩

/-- Behind a gap the next element of a row goes on with it. -/
theorem Parts.spaced {items : List Item} (parts : Parts source text rest items) (is : Gap gap)
    (within : gap ++ (text ++ rest) <:+ source) : Continues source (gap ++ text) rest items := by
  obtain @⟨first, tail, _, e, items, begins, headless, ⟨v, element, reads⟩, continues⟩ := parts
  rw [List.append_assoc] at within
  have taken := takes_gap is begins.solid within
  have free : Takes source .notHead [] (first ++ (tail ++ rest)) [] :=
    takes_negation .notHead .head rfl headless
  have opt : Takes source .spaceOpt (gap ++ first) (tail ++ rest) _ :=
    takes_sequence .spaceOpt [.gap, .notHead, .element] rfl (.cons taken (.cons free (.single element)))
  have some : gap ++ first ≠ [] := List.append_ne_nil_of_right_ne_nil _ begins.ne_nil
  rw [← List.append_assoc] at within ⊢
  rw [left_keep within some rfl] at opt
  refine continues.more (takes_choice .continuation [.pipeOpt] .spaceOpt [] rfl ?_ opt) (.inr rfl)
    (.single reads) some within
  rw [List.forall_mem_singleton, List.append_assoc]
  rw [List.append_assoc] at within
  exact fails_pipeOpt is begins.solid (begins.head?_ne (by decide)) within

/-- Behind a bar the next row goes on with the alternatives. -/
theorem Parts.barred {before after : List Char} {items : List Item} (parts : Parts source text rest items)
    (left : Gap before) (right : Gap after)
    (within : before ++ (['|'] ++ (after ++ (text ++ rest))) <:+ source) :
    Continues source (before ++ (['|'] ++ (after ++ text))) rest (.bar :: items) := by
  obtain @⟨first, tail, _, e, items, begins, headless, ⟨v, element, reads⟩, continues⟩ := parts
  rw [List.append_assoc] at within
  have bar := within_rest within
  have behind := within_rest bar
  have solid : Solid (['|'] ++ (after ++ (first ++ (tail ++ rest)))) := by
    rintro _ ⟨⟩
    decide
  have taken := takes_gap left solid within
  have mark := takes_literal .pipe ['|'] rfl bar
  rw [left_keep bar (List.cons_ne_nil _ _) rfl] at mark
  have taken' := takes_gap right begins.solid behind
  have free : Takes source .notHead [] (first ++ (tail ++ rest)) [] :=
    takes_negation .notHead .head rfl headless
  have all : TakesAll source [.gap, .pipe, .gap, .notHead, .element]
      (before ++ (['|'] ++ (after ++ ([] ++ first)))) (tail ++ rest) _ :=
    .cons (by simpa only [List.append_assoc, List.nil_append] using taken)
      (.cons (by simpa only [List.append_assoc, List.nil_append] using mark)
        (.cons (by simpa only [List.append_assoc, List.nil_append] using taken')
          (.cons free (.single element))))
  have opt := takes_sequence .pipeOpt _ rfl all
  have same : before ++ (['|'] ++ (after ++ (first ++ (tail ++ rest)))) =
      before ++ (['|'] ++ (after ++ first)) ++ (tail ++ rest) := by simp only [List.append_assoc]
  have some : before ++ (['|'] ++ (after ++ first)) ≠ [] :=
    List.append_ne_nil_of_right_ne_nil _ (List.cons_ne_nil _ _)
  rw [same] at within
  rw [List.nil_append, left_keep within some rfl, List.nil_append, List.nil_append, List.nil_append] at opt
  have more := continues.more (takes_choice .continuation [] .pipeOpt [.spaceOpt] rfl nofun opt) (.inl rfl)
    (.append (.single fun _ => rfl) (.single reads)) some within
  simpa only [List.append_assoc, List.cons_append, List.nil_append] using more

/-- Rounds that pass no text are none. -/
theorem TakesMore.of_nil {s : Symbol} {views : List View} (more : TakesMore source s text rest views)
    (empty : text = []) : Fails source s rest ∧ views = [] := by
  cases more with
  | stop fails => exact ⟨fails, rfl⟩
  | more _ some _ => exact absurd (List.append_eq_nil_iff.mp empty).1 some

/-- **The parts of a statement are taken as a statement**: an element in front and the continuations behind. -/
theorem Parts.takes {items : List Item} (parts : Parts source text rest items)
    (within : text ++ rest <:+ source) : TakesStatement source text rest items := by
  obtain @⟨first, tail, _, e, items, begins, headless, ⟨v, element, reads⟩, ⟨views, continues, row⟩⟩ := parts
  have behind := within
  rw [List.append_assoc] at behind
  have others := within_rest behind
  have last : Takes source .statementTail tail rest views := by
    cases tail with
    | nil =>
      obtain ⟨fails, rfl⟩ := continues.of_nil rfl
      exact skips_optional .statementTail .continuations rfl
        (fails_repetition .continuations .statementOpt rfl fails)
    | cons c cs =>
      have some := takes_repetition .continuations .statementOpt rfl continues (List.cons_ne_nil _ _) others
      rw [left_lift others (List.cons_ne_nil _ _) rfl] at some
      have whole := takes_optional .statementTail .continuations rfl some
      rwa [left_lift others (List.cons_ne_nil _ _) rfl] at whole
  have takes := takes_sequence .statement [.element, .statementTail] rfl (.cons element (.single last))
  rw [left_keep within (List.append_ne_nil_of_left_ne_nil begins.ne_nil _) rfl] at takes
  exact ⟨_, takes, rfl, ReadsAll.append (.single reads) row⟩

/-! ## Rows as they are meant -/

/-- The row that is read, before it is folded. -/
def Row.items (row : Row) : List Item :=
  row.parts.map .expression

/-- Rows with bars between them. -/
def Alternatives.items : Alternatives → List Item
  | .last row => row.items
  | .next row rest => row.items ++ .bar :: rest.items

/-- A row without bars is one group. -/
theorem splitOn_expressions (es : List Expression) :
    ParseTree.splitOn Item.isBar (es.map .expression) = [es.map .expression] := by
  induction es with
  | nil => rfl
  | cons e es ih =>
    rw [List.map_cons, ParseTree.splitOn, ih]
    rfl

/-- The first bar of a row closes its first group. -/
theorem splitOn_bar (es : List Expression) (items : List Item) :
    ParseTree.splitOn Item.isBar (es.map .expression ++ .bar :: items) =
      es.map .expression :: ParseTree.splitOn Item.isBar items := by
  induction es with
  | nil => rfl
  | cons e es ih =>
    rw [List.map_cons, List.cons_append, ParseTree.splitOn, ih]
    rfl

theorem expressions_items (es : List Expression) :
    (es.map Item.expression).filterMap Item.expression? = es := by
  rw [List.filterMap_map]
  exact List.filterMap_some

theorem Row.ofParts_parts (row : Row) : Expression.ofParts row.parts = row.meaning := by
  cases row with
  | last element => rfl
  | next element rest => cases rest <;> rfl

/-- A group folds to what its row means. -/
theorem Row.folded (row : Row) : Expression.ofParts (row.items.filterMap Item.expression?) = row.meaning := by
  rw [Row.items, expressions_items, row.ofParts_parts]

/-- The groups between the bars fold to the branches, in their order. -/
theorem Alternatives.map_splitOn (alternatives : Alternatives) :
    (ParseTree.splitOn Item.isBar alternatives.items).map
      (fun group => Expression.ofParts (group.filterMap Item.expression?)) = alternatives.branches :=
  match alternatives with
  | .last row => by
    rw [items, Row.items, splitOn_expressions, List.map_singleton]
    exact congrArg (fun e => [e]) row.folded
  | .next row rest => by
    rw [items, Row.items, splitOn_bar, List.map_cons, map_splitOn rest]
    exact congrArg (fun e => e :: rest.branches) row.folded

/-- **A row with bars folds to what the alternatives mean.** -/
theorem Alternatives.fold_items (alternatives : Alternatives) :
    Item.fold alternatives.items = alternatives.meaning := by
  rw [Item.fold, map_splitOn]
  cases alternatives with
  | last row => rfl
  | next row rest => cases rest <;> rfl

/-! ## All of it -/

theorem Apart.append {before after : List Char} (apart : Apart before gap after) (filled : after ≠ [])
    (more : List Char) : Apart before gap (after ++ more) := by
  obtain ⟨c, cs, rfl⟩ := List.exists_cons_of_ne_nil filled
  exact apart

/-- Only the last character of a text decides whether it stops. -/
theorem Stops.of_append {before : List Char} (stops : Stops (before ++ text) rest) : Stops text rest := by
  intro empty c last
  refine stops empty c ?_
  rw [List.getLast?_append, last]
  rfl

/-- A word stops in front of its modifier: a mark is no word character. -/
theorem Stops.operand {word : Word} {modifier : Modifier} (stops : Stops (word.text ++ modifier.mark) rest) :
    ∀ c ∈ (modifier.mark ++ rest).head?, ¬ IsWordChar c := by
  cases modifier with
  | once =>
    rw [Modifier.mark, List.append_nil] at stops
    exact stops.word
  | _ =>
    rintro _ ⟨⟩
    decide

theorem Apart.of_head {before : List Char} {d : Char} (other : ¬ IsWordChar d) :
    Apart before gap (d :: rest) := by
  rintro _ c _ _ ⟨⟩ ⟨_, word⟩
  exact other word

/-- No operand and no group begins with a bang, so a negation in front of one is told apart. -/
theorem Primary.Written.unmarked {primary : Primary} (written : primary.Written text) :
    ∀ c ∈ text.head?, c ≠ '!' := by
  cases written with
  | @name word free =>
    obtain ⟨c, cs, begins, _⟩ := word.begins
    have inside := word.chars c (begins ▸ List.mem_cons_self)
    rw [begins]
    rintro _ ⟨⟩ rfl
    revert inside
    decide
  | _ =>
    rintro _ ⟨⟩
    decide

/-- An operand that is no group. -/
theorem Primary.Written.takes_token {negated : Bool} {modifier : Modifier} {primary : Primary}
    (written : primary.Written text) (leaf : ∀ body, primary ≠ .group body)
    (ahead : Ahead rest) (stops : Stops (text ++ modifier.mark) rest)
    (within : negationMark negated '!' ++ (text ++ modifier.mark) ++ rest <:+ source) :
    TakesElement source (negationMark negated '!' ++ (text ++ modifier.mark)) rest
      (marked negated modifier primary.meaning) := by
  have inside : text ++ (modifier.mark ++ rest) <:+ source := by
    rw [List.append_assoc, List.append_assoc] at within
    exact within_rest within
  have conclude : ∀ v, Takes source .atom text (modifier.mark ++ rest) [v] → SaysAtom v primary.meaning →
      TakesElement source (negationMark negated '!' ++ (text ++ modifier.mark)) rest
        (marked negated modifier primary.meaning) := fun v atom spoken =>
    Dialect.takes_token negated modifier atom spoken written.begins.ne_nil written.unmarked
      ahead.not_modifier within
  cases written with
  | text spelled =>
    obtain ⟨v, atom, spoken⟩ := takes_text spelled inside
    exact conclude v atom spoken
  | set spelled =>
    obtain ⟨v, atom, spoken⟩ := takes_set spelled inside
    exact conclude v atom spoken
  | @range _ _ _ ordered _ _ lower upper =>
    obtain ⟨v, atom, spoken⟩ := takes_range lower upper ordered inside
    exact conclude v atom spoken
  | endOfInput =>
    have ends : Stops (Word.eof.text ++ modifier.mark) rest := stops
    obtain ⟨v, atom, spoken⟩ := takes_endOfInput_atom ends.operand inside
    exact conclude v atom spoken
  | @name word free =>
    obtain ⟨v, atom, spoken⟩ := takes_name word free stops.operand inside
    exact conclude v atom spoken
  | @group body => exact absurd rfl (leaf body)

/-- A statement ends at the bracket that closes its group. -/
theorem ends_of_close (is : Gap gap) (within : gap ++ ([')'] ++ rest) <:+ source) :
    Fails source .statementOpt (gap ++ ([')'] ++ rest)) := by
  refine fails_statementOpt is ?_ ?_ (.inr ⟨fails_head ?_, fails_element ?_ ?_ ?_⟩) within
  all_goals
    rintro _ ⟨⟩
    decide

/-- Behind the last element of a group there is nothing that could be a modifier of it. -/
theorem ahead_of_close (is : Gap gap) : Ahead (gap ++ ([')'] ++ rest)) := by
  refine ⟨gap, [')'] ++ rest, rfl, is, ?_⟩
  rintro _ ⟨⟩
  decide

/-- Nor is there in front of a bar. -/
theorem ahead_of_bar (is : Gap gap) : Ahead (gap ++ (['|'] ++ rest)) := by
  refine ⟨gap, ['|'] ++ rest, rfl, is, ?_⟩
  rintro _ ⟨⟩
  decide

mutual

/-- An element is taken as it was written, and reads as what it means. -/
theorem Element.Written.takes {element : Element} {text rest : List Char} :
    element.Written text → Ahead rest → Stops text rest → text ++ rest <:+ source →
      TakesElement source text rest element.meaning
  | @Element.Written.mk negated primary modifier text inner, ahead, stops, within => by
    cases primary with
    | group body =>
      cases inner with
      | @group _ before text after opening inner closing =>
        have behind : text ++ (after ++ ([')'] ++ (modifier.mark ++ rest))) <:+ source := by
          simp only [List.append_assoc] at within
          exact within_rest (within_rest (within_rest within))
        have parts := inner.parts (ends_of_close closing (within_rest behind)) (ahead_of_close closing)
          (closing.stops (.of_head (by decide))) behind
        have nested := takes_nested negated modifier opening closing inner.begins (parts.takes behind)
          ahead.not_modifier within
        rwa [body.fold_items] at nested
    | _ => exact inner.takes_token nofun ahead stops.of_append within

/-- A row is taken in front of continuations that are known to be taken, the first element apart. -/
theorem Row.Written.parts {row : Row} {text after rest : List Char} {items : List Item} :
    row.Written text → Continues source after rest items → Ahead (after ++ rest) → Stops text (after ++ rest) →
      text ++ (after ++ rest) <:+ source → Parts source (text ++ after) rest (row.items ++ items)
  | .last only, continues, ahead, stops, within =>
    .mk only.begins (only.fails_head ahead stops within) (only.takes ahead stops within) continues
  | @Row.Written.next element others first gap text head between tail apart, continues, ahead, stops, within => by
    simp only [List.append_assoc] at within ⊢
    have behind := within_rest within
    have stops' : Stops text (after ++ rest) := by
      rw [← List.append_assoc] at stops
      exact stops.of_append
    have parts := tail.parts continues ahead stops' (within_rest behind)
    rw [← List.append_assoc text] at within behind
    have spaced := parts.spaced between behind
    have ahead' : Ahead (gap ++ (text ++ after) ++ rest) := by
      rw [List.append_assoc, List.append_assoc]
      exact (tail.begins.append _).ahead between
    have stops' : Stops first (gap ++ (text ++ after) ++ rest) := by
      rw [List.append_assoc, List.append_assoc]
      exact between.stops (apart.append tail.begins.ne_nil _)
    rw [← List.append_assoc gap] at within
    exact .mk head.begins (head.fails_head ahead' stops' within) (head.takes ahead' stops' within) spaced

/-- Alternatives are taken from the last row to the first, each in front of those behind it. -/
theorem Alternatives.Written.parts {alternatives : Alternatives} {text rest : List Char} :
    alternatives.Written text → Fails source .statementOpt rest → Ahead rest → Stops text rest →
      text ++ rest <:+ source → Parts source text rest alternatives.items
  | .last only, ends, ahead, stops, within => by
    have parts := only.parts ⟨[], .stop ends, .nil⟩ ahead stops within
    rwa [List.append_nil, List.append_nil] at parts
  | @Alternatives.Written.next row others first before after text head left right tail, ends, ahead, stops,
      within => by
    have stops' : Stops text rest := by
      simp only [← List.append_assoc] at stops
      exact stops.of_append
    simp only [List.append_assoc] at within
    have behind := within_rest within
    have parts := tail.parts ends ahead stops' (within_rest (within_rest (within_rest behind)))
    have barred := parts.barred left right behind
    have ahead' : Ahead (before ++ (['|'] ++ (after ++ text)) ++ rest) := by
      rw [List.append_assoc, List.append_assoc]
      exact ahead_of_bar left
    have stops' : Stops first (before ++ (['|'] ++ (after ++ text)) ++ rest) := by
      rw [List.append_assoc, List.append_assoc]
      exact left.stops (.of_head (by decide))
    exact head.parts barred ahead' stops' (by simpa only [List.append_assoc] using within)

end

end BnfTokenizer.Dialect
