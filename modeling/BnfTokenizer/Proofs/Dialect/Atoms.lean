import BnfTokenizer.Proofs.Dialect.Lexical

/-!
# Atoms

The five kinds of operands that are no groups. An atom is tried as a text, a range, a set, the end of the
input and a word, in this order, so beside what the symbol for a kind takes there is what the symbols
before it do not take.
-/

namespace BnfTokenizer.Dialect

open ParseTree (View)

variable {source text rest : List Char}

/-- A view of an atom, and what it says. -/
structure SaysAtom (v : View) (e : Expression) : Prop where
  named : v.name.any atomNames.contains = true
  reads : ∀ source, readAtom source v = .ok e

/-! ## Spelled bodies -/

/-- What the views of a spelled part say when it is asked for by name. -/
def SpellsAs (views : List View) (name : String) (cs : List Char) : Prop :=
  (∀ v ∈ views, v.name = some name) ∧
    ((views.find? fun c => c.name == some name).map spelled).getD "" = String.ofList cs

/-- A view with children spells what they do. -/
theorem spelled_cons {name value : String} {span : Span} {v : View} {vs : List View}
    (ordinary : name ≠ "escape" ∧ name ≠ "anyChar") :
    spelled (.node (some name) value span (v :: vs)) = String.join (listSpelled (v :: vs)) := by
  simp [spelled, ordinary]

theorem join_singleton (text : String) : String.join [text] = text := by
  rw [← String.toList_inj, String.toList_join]
  simp

/-- A body may be missing; where it is there, it stands under its name twice. -/
theorem takes_body (body pieces : Symbol) {piece plain : Symbol} {name own : String}
    {specials special cs spelling : List Char} (isPiece : IsPiece piece plain own specials)
    (isPieces : pieces.definition = ⟨some name, .repetition piece.id⟩)
    (isBody : body.definition = ⟨some name, .optional pieces.id⟩)
    (kept : Symbol.fate (some name) = .keep) (ordinary : name ≠ "escape" ∧ name ≠ "anyChar")
    (sub : ∀ c ∈ specials, c ∈ special) (spells : SpelledAll special cs spelling)
    (ends : ∀ c ∈ rest.head?, c ∈ specials ∧ c ≠ '\\') (within : spelling ++ rest <:+ source) :
    ∃ views, Takes source body spelling rest views ∧ SpellsAs views name cs := by
  obtain ⟨views, pieces', spelt⟩ := isPiece.takesMore sub spells ends within
  cases spells with
  | nil =>
    have skips : Takes source body [] rest [] := skips_optional body pieces isBody
      (fails_repetition pieces piece isPieces (isPiece.fails ends))
    exact ⟨[], skips, nofun, rfl⟩
  | @cons c cs first others head tail =>
    have some : first ++ others ≠ [] := by cases head <;> exact List.cons_ne_nil _ _
    have inner := takes_repetition pieces piece isPieces pieces' some within
    rw [left_keep within some kept] at inner
    have outer := takes_optional body pieces isBody inner
    rw [left_keep within some kept] at outer
    refine ⟨_, outer, List.forall_mem_singleton.mpr rfl, ?_⟩
    have more : views ≠ [] := by
      rintro rfl
      cases spelt
    obtain ⟨v, vs, rfl⟩ := List.exists_cons_of_ne_nil more
    simp only [List.find?_cons, View.name, BEq.rfl, Option.map_some, Option.getD_some]
    rw [spelled_cons ordinary, listSpelled, listSpelled, spelled_cons ordinary, spelt, join_singletons]
    exact join_singleton _

/-! ## Texts -/

/-- The pieces of a text stop at a quote. -/
theorem isPiece_string : IsPiece .stringPiece .stringChar "strChar" textSpecials where
  choice := rfl
  plain := rfl
  kept := rfl
  ordinary := by decide
  backslash := by decide

theorem takes_quote (within : ['"'] ++ rest <:+ source) : Takes source .quote ['"'] rest [] := by
  have takes := takes_literal .quote ['"'] rfl within
  rwa [left_delete rfl] at takes

/-- **A text in quotes is taken as an atom**, and says the literal that it spells. -/
theorem takes_text {cs body : List Char} (spells : SpelledAll textSpecials cs body)
    (within : ['"'] ++ (body ++ ['"']) ++ rest <:+ source) :
    ∃ v, Takes source .atom (['"'] ++ (body ++ ['"'])) rest [v] ∧
      SaysAtom v (.literal (String.ofList cs)) := by
  have whole : ['"'] ++ (body ++ ['"'] ++ rest) <:+ source := within
  have behind := within_rest whole
  rw [List.append_assoc] at behind
  have ends : ∀ c ∈ (['"'] ++ rest).head?, c ∈ textSpecials ∧ c ≠ '\\' := by
    rintro _ ⟨⟩
    decide
  obtain ⟨views, inner, named, spelt⟩ := takes_body .stringBody .stringPieces isPiece_string rfl rfl rfl
    (by decide) (fun _ mem => mem) spells ends behind
  have takes := takes_sequence .string [.quote, .stringBody, .quote] rfl
    (.cons (takes_quote whole) (.cons inner (.single (takes_quote (within_rest behind)))))
  rw [left_keep within (List.cons_ne_nil _ _) rfl] at takes
  refine ⟨_, takes_choice .atom [] .string [.chargroup, .charset, .eof, .word] rfl nofun takes, rfl, ?_⟩
  intro source
  rw [List.nil_append, List.append_nil]
  exact congrArg (fun text => Except.ok (Expression.literal text)) spelt

theorem fails_string (differs : ∀ c ∈ rest.head?, c ≠ '"') : Fails source .string rest := by
  refine fails_sequence .string [] .quote [.stringBody, .quote] rfl .nil
    (fails_literal .quote ['"'] rfl ?_) rfl
  rintro ⟨tail, rfl⟩
  exact differs '"' rfl rfl

/-! ## Classes -/

/-- The pieces of a set stop at its bracket. -/
theorem isPiece_set : IsPiece .setPiece .setChar "setChar" [']', '\\'] where
  choice := rfl
  plain := rfl
  kept := rfl
  ordinary := by decide
  backslash := by decide

/-- The ends of a range stop at the dash between them, too. -/
theorem isPiece_range : IsPiece .rangePiece .rangeChar "rangeChar" [']', '\\', '-'] where
  choice := rfl
  plain := rfl
  kept := rfl
  ordinary := by decide
  backslash := by decide

theorem takes_openBracket (within : ['['] ++ rest <:+ source) : Takes source .openBracket ['['] rest [] := by
  have takes := takes_literal .openBracket ['['] rfl within
  rwa [left_delete rfl] at takes

theorem takes_closeBracket (within : [']'] ++ rest <:+ source) :
    Takes source .closeBracket [']'] rest [] := by
  have takes := takes_literal .closeBracket [']'] rfl within
  rwa [left_delete rfl] at takes

/-- A mark in front is there, under its own name, or it is not. -/
theorem takes_mark (marks mark : Symbol) {c : Char}
    (isMark : mark.definition = ⟨some (String.ofList [c]), .literal [c]⟩)
    (isMarks : marks.definition = ⟨"modifiers", .optional mark.id⟩)
    (kept : Symbol.fate (some (String.ofList [c])) = .keep) (negated : Bool)
    (differs : negated = false → ∀ d ∈ rest.head?, d ≠ c)
    (within : negationMark negated c ++ rest <:+ source) :
    ∃ views, Takes source marks (negationMark negated c) rest views ∧
      (∀ v ∈ views, v.name = some (String.ofList [c])) ∧ views.isEmpty = !negated := by
  cases negated with
  | true =>
    have within' : [c] ++ rest <:+ source := within
    have inner := takes_literal mark [c] isMark within'
    rw [left_keep within' (List.cons_ne_nil _ _) kept] at inner
    have outer := takes_optional marks mark isMarks inner
    rw [left_lift within' (List.cons_ne_nil _ _) rfl] at outer
    exact ⟨_, outer, List.forall_mem_singleton.mpr rfl, rfl⟩
  | false =>
    have absent : Fails source mark rest := by
      refine fails_literal mark [c] isMark ?_
      rintro ⟨tail, rfl⟩
      exact differs rfl c rfl rfl
    exact ⟨[], skips_optional marks mark isMarks absent, nofun, rfl⟩

/-- Spelled members begin otherwise than with a bare mark. -/
theorem SpelledAll.head?_ne {cs body : List Char} (spells : SpelledAll classSpecials cs body)
    (mark : Char) (special : mark ∈ classSpecials) (ordinary : mark ≠ '\\') : ∀ c ∈ body.head?, c ≠ mark := by
  cases spells with
  | nil => exact nofun
  | cons head _ =>
    cases head with
    | plain free =>
      rintro _ ⟨⟩ rfl
      exact free special
    | _ =>
      rintro _ ⟨⟩
      exact ordinary.symm

/-- Neither kind of class begins without a bracket. -/
theorem fails_openBracket (differs : ∀ c ∈ rest.head?, c ≠ '[') : Fails source .openBracket rest := by
  refine fails_literal .openBracket ['['] rfl ?_
  rintro ⟨tail, rfl⟩
  exact differs '[' rfl rfl

theorem fails_chargroup (differs : ∀ c ∈ rest.head?, c ≠ '[') : Fails source .chargroup rest :=
  fails_sequence .chargroup [] .openBracket [.negated, .rangeStart, .dash, .rangeEnd, .closeBracket] rfl .nil
    (fails_openBracket differs) rfl

theorem fails_charset (differs : ∀ c ∈ rest.head?, c ≠ '[') : Fails source .charset rest :=
  fails_sequence .charset [] .openBracket [.negated, .setBody, .closeBracket] rfl .nil
    (fails_openBracket differs) rfl

/-- A view that a mark is asked of. -/
theorem hasMark_append {name : Option String} {value : String} {span : Span} {views others : List View}
    {mark : String} {negated : Bool} (named : ∀ v ∈ views, v.name = some mark)
    (empty : views.isEmpty = !negated) (apart : ∀ v ∈ others, v.name ≠ some mark) :
    hasMark (.node name value span (views ++ others)) mark = negated := by
  have absent : others.find? (fun c => c.name == some mark) = none := by
    rw [List.find?_eq_none]
    intro v mem same
    exact apart v mem (beq_iff_eq.mp same)
  unfold hasMark View.childByName View.children
  cases views with
  | nil =>
    rw [List.nil_append, absent]
    cases negated with
    | true => cases empty
    | false => rfl
  | cons v vs =>
    have first := (List.forall_mem_cons.mp named).1
    cases negated with
    | false => cases empty
    | true => simp [first]

/-- A part that is asked for by name stands behind parts with other names. -/
theorem spelledChild_append {name : Option String} {value : String} {span : Span}
    {earlier views others : List View} {part : String} {cs : List Char}
    (apart : ∀ v ∈ earlier, v.name ≠ some part) (spelt : SpellsAs views part cs)
    (later : ∀ v ∈ others, v.name ≠ some part) :
    spelledChild (.node name value span (earlier ++ (views ++ others))) part = String.ofList cs := by
  have absent : ∀ ws : List View, (∀ v ∈ ws, v.name ≠ some part) →
      ws.find? (fun c => c.name == some part) = none := by
    intro ws differ
    rw [List.find?_eq_none]
    intro v mem same
    exact differ v mem (beq_iff_eq.mp same)
  unfold spelledChild View.childByName View.children
  rw [List.find?_append, absent earlier apart, Option.none_or, List.find?_append, absent others later,
    Option.or_none]
  exact spelt.2

/-- A spelled character that a range may begin or end with. -/
theorem takes_bound (bound : Symbol) {name : String} {c : Char} {first : List Char}
    (isBound : bound.definition = ⟨some name, .sequence ([Symbol.rangePiece].map Symbol.id)⟩)
    (kept : Symbol.fate (some name) = .keep) (ordinary : name ≠ "escape" ∧ name ≠ "anyChar")
    (spells : Spelled classSpecials c first) (within : first ++ rest <:+ source) :
    ∃ views, Takes source bound first rest views ∧ SpellsAs views name [c] := by
  obtain ⟨v, inner, spelt⟩ := isPiece_range.takes (forall_mem_of_all (by decide)) spells within
  have some : first ≠ [] := by cases spells <;> exact List.cons_ne_nil _ _
  have takes := takes_sequence bound [.rangePiece] isBound (.single inner)
  rw [left_keep within some kept] at takes
  refine ⟨_, takes, List.forall_mem_singleton.mpr rfl, ?_⟩
  simp only [List.find?_cons, View.name, BEq.rfl, Option.map_some, Option.getD_some]
  rw [spelled_cons ordinary, listSpelled, spelt]
  exact join_singleton _

/-- A set has no mark but the one that is written in front. -/
theorem takes_caret {negated : Bool} {members body : List Char} (spells : SpelledAll classSpecials members body)
    (within : negationMark negated '^' ++ (body ++ ([']'] ++ rest)) <:+ source) :
    ∃ views, Takes source .negated (negationMark negated '^') (body ++ ([']'] ++ rest)) views ∧
      (∀ v ∈ views, v.name = some "^") ∧ views.isEmpty = !negated := by
  refine takes_mark .negated .caret rfl rfl rfl negated (fun _ => ?_) within
  have apart := spells.head?_ne '^' (by decide) (by decide)
  cases body with
  | nil =>
    rintro _ ⟨⟩
    decide
  | cons c cs => exact apart

/-- What a set is written as is no range, since no bare dash stands behind its first member. -/
theorem fails_chargroup_of_set {negated : Bool} {members body : List Char}
    (spells : SpelledAll classSpecials members body)
    (within : ['['] ++ (negationMark negated '^' ++ (body ++ ([']'] ++ rest))) <:+ source) :
    Fails source .chargroup (['['] ++ (negationMark negated '^' ++ (body ++ ([']'] ++ rest)))) := by
  have inside := within_rest within
  obtain ⟨views, marks, _⟩ := takes_caret spells inside
  have behind := within_rest inside
  -- A set without members fails at the first bound, any other at the dash, since members are spelled without one.
  cases spells with
  | nil =>
    have ends : ∀ c ∈ ([']'] ++ rest).head?, c ∈ [']', '\\', '-'] ∧ c ≠ '\\' := by
      rintro _ ⟨⟩
      decide
    have stops : Fails source .rangeStart ([']'] ++ rest) :=
      fails_sequence .rangeStart [] .rangePiece [] rfl .nil (isPiece_range.fails ends) rfl
    have opened : TakesAll source [.openBracket, .negated] (['['] ++ negationMark negated '^')
        ([']'] ++ rest) _ := .cons (takes_openBracket within) (.single marks)
    exact fails_sequence .chargroup [.openBracket, .negated] .rangeStart [.dash, .rangeEnd, .closeBracket] rfl
      opened stops (List.append_assoc ..)
  | @cons c cs first others head tail =>
    rw [List.append_assoc] at within behind marks ⊢
    obtain ⟨_, start, _⟩ := takes_bound .rangeStart rfl rfl (by decide) head behind
    have noDash : Fails source .dash (others ++ ([']'] ++ rest)) := by
      refine fails_literal .dash ['-'] rfl ?_
      have apart := tail.head?_ne '-' (by decide) (by decide)
      rintro ⟨more, same⟩
      cases others with
      | nil => cases same
      | cons d ds =>
        cases same
        exact apart '-' rfl rfl
    have opened : TakesAll source [.openBracket, .negated, .rangeStart]
        (['['] ++ (negationMark negated '^' ++ first)) (others ++ ([']'] ++ rest)) _ :=
      .cons (by rw [List.append_assoc]; exact takes_openBracket within) (.cons marks (.single start))
    exact fails_sequence .chargroup [.openBracket, .negated, .rangeStart] .dash [.rangeEnd, .closeBracket] rfl
      opened noDash (by simp only [List.append_assoc])

/-- Views that spell under one name have no other. -/
theorem SpellsAs.apart {views : List View} {name other : String} {cs : List Char}
    (spells : SpellsAs views name cs) (differs : name ≠ other) : ∀ v ∈ views, v.name ≠ some other := by
  intro v mem same
  exact differs (Option.some.inj ((spells.1 v mem).symm.trans same))

/-- What is left of a set says its characters and its side. -/
theorem saysAtom_set {value : String} {span : Span} {marks views : List View} {negated : Bool}
    {members : List Char} (named : ∀ v ∈ marks, v.name = some "^") (empty : marks.isEmpty = !negated)
    (spells : SpellsAs views "setOpt" members) :
    SaysAtom (.node (some "charset") value span (marks ++ views))
      (.charSet (String.ofList members) negated) := by
  refine ⟨rfl, fun source => ?_⟩
  have text : spelledChild (.node (some "charset") value span (marks ++ (views ++ []))) "setOpt" = _ :=
    spelledChild_append (fun v mem => by rw [named v mem]; decide) spells nofun
  rw [List.append_nil] at text
  rw [readAtom, View.name, text, hasMark_append named empty (spells.apart (by decide))]
  rfl

/-- **A set in brackets is taken as an atom.** -/
theorem takes_set {negated : Bool} {members body : List Char} (spells : SpelledAll classSpecials members body)
    (within : ['['] ++ (negationMark negated '^' ++ (body ++ [']'])) ++ rest <:+ source) :
    ∃ v, Takes source .atom (['['] ++ (negationMark negated '^' ++ (body ++ [']']))) rest [v] ∧
      SaysAtom v (.charSet (String.ofList members) negated) := by
  have whole : ['['] ++ (negationMark negated '^' ++ (body ++ ([']'] ++ rest))) <:+ source := by
    simpa only [List.append_assoc] using within
  have inside := within_rest whole
  have behind := within_rest inside
  obtain ⟨marks, marked, named, empty⟩ := takes_caret spells inside
  have ends : ∀ c ∈ ([']'] ++ rest).head?, c ∈ [']', '\\'] ∧ c ≠ '\\' := by
    rintro _ ⟨⟩
    decide
  obtain ⟨views, inner, called, spelt⟩ := takes_body .setBody .setPieces isPiece_set rfl rfl rfl (by decide)
    (forall_mem_of_all (by decide)) spells ends behind
  have all : TakesAll source [.openBracket, .negated, .setBody, .closeBracket]
      (['['] ++ (negationMark negated '^' ++ (body ++ [']']))) rest ([] ++ (marks ++ (views ++ []))) :=
    .cons (by simpa only [List.append_assoc] using takes_openBracket whole)
      (.cons (by simpa only [List.append_assoc] using marked)
        (.cons inner (.single (takes_closeBracket (within_rest behind)))))
  have takes := takes_sequence .charset _ rfl all
  rw [left_keep within (List.cons_ne_nil _ _) rfl, List.nil_append, List.append_nil] at takes
  refine ⟨_, takes_choice .atom [.string, .chargroup] .charset [.eof, .word] rfl ?_ takes,
    saysAtom_set named empty ⟨called, spelt⟩⟩
  rw [List.forall_mem_cons, List.forall_mem_singleton]
  constructor
  · refine fails_string ?_
    rintro _ ⟨⟩
    decide
  · simpa only [List.append_assoc] using fails_chargroup_of_set spells whole

/-- The bounds of a range, behind a mark or none. -/
theorem boundOf_range {name : Option String} {value : String} {span : Span} {marks lower upper : List View}
    {low high : Char} (named : ∀ v ∈ marks, v.name = some "^") (first : SpellsAs lower "rangeStart" [low])
    (last : SpellsAs upper "rangeEnd" [high]) :
    boundOf (.node name value span (marks ++ (lower ++ upper))) "rangeStart" = some low ∧
      boundOf (.node name value span (marks ++ (lower ++ upper))) "rangeEnd" = some high := by
  have lowText : spelledChild (.node name value span (marks ++ (lower ++ upper))) "rangeStart" = String.ofList [low] :=
    spelledChild_append (fun v mem => by rw [named v mem]; decide) first (last.apart (by decide))
  have highText : spelledChild (.node name value span (marks ++ lower ++ (upper ++ []))) "rangeEnd" =
      String.ofList [high] := by
    refine spelledChild_append ?_ last nofun
    rw [List.forall_mem_append]
    exact ⟨fun v mem => by rw [named v mem]; decide, first.apart (by decide)⟩
  rw [List.append_nil, List.append_assoc] at highText
  rw [boundOf, boundOf, lowText, highText, String.toList_ofList, String.toList_ofList]
  exact ⟨rfl, rfl⟩

/-- What is left of a range says its ends and its side, if they are in order. -/
theorem saysAtom_range {value : String} {span : Span} {marks lower upper : List View} {negated : Bool}
    {low high : Char} (named : ∀ v ∈ marks, v.name = some "^") (empty : marks.isEmpty = !negated)
    (first : SpellsAs lower "rangeStart" [low]) (last : SpellsAs upper "rangeEnd" [high])
    (ordered : low ≤ high) :
    SaysAtom (.node (some "chargroup") value span (marks ++ (lower ++ upper)))
      (.charRange low high negated) := by
  refine ⟨rfl, fun source => ?_⟩
  obtain ⟨lowBound, highBound⟩ := boundOf_range named first last
  have mark : hasMark (.node (some "chargroup") value span (marks ++ (lower ++ upper))) "^" = negated := by
    refine hasMark_append named empty ?_
    rw [List.forall_mem_append]
    exact ⟨first.apart (by decide), last.apart (by decide)⟩
  rw [readAtom, View.name, lowBound, highBound, mark]
  exact if_pos ordered

/-- **A range in brackets is taken as an atom**, before the set that it could be as well. -/
theorem takes_range {negated : Bool} {low high : Char} {first last : List Char}
    (lower : Spelled classSpecials low first) (upper : Spelled classSpecials high last) (ordered : low ≤ high)
    (within : ['['] ++ (negationMark negated '^' ++ (first ++ (['-'] ++ (last ++ [']'])))) ++ rest <:+
      source) :
    ∃ v, Takes source .atom (['['] ++ (negationMark negated '^' ++ (first ++ (['-'] ++ (last ++ [']'])))))
      rest [v] ∧ SaysAtom v (.charRange low high negated) := by
  have whole : ['['] ++ (negationMark negated '^' ++ (first ++ (['-'] ++ (last ++ ([']'] ++ rest))))) <:+
      source := by
    simpa only [List.append_assoc] using within
  have marking := within_rest whole
  have starting := within_rest marking
  have dashing := within_rest starting
  have ending := within_rest dashing
  obtain ⟨marks, marked, named, empty⟩ := takes_mark .negated .caret rfl rfl rfl negated (fun _ => by
    cases lower with
    | plain free =>
      rintro _ ⟨⟩ rfl
      exact free (by decide)
    | _ =>
      rintro _ ⟨⟩
      decide) marking
  obtain ⟨lowViews, start, lowSpells⟩ := takes_bound .rangeStart rfl rfl (by decide) lower starting
  obtain ⟨highViews, stop, highSpells⟩ := takes_bound .rangeEnd rfl rfl (by decide) upper ending
  have dash : Takes source .dash ['-'] (last ++ ([']'] ++ rest)) [] := by
    have takes := takes_literal .dash ['-'] rfl dashing
    rwa [left_delete rfl] at takes
  have all : TakesAll source [.openBracket, .negated, .rangeStart, .dash, .rangeEnd, .closeBracket]
      (['['] ++ (negationMark negated '^' ++ (first ++ (['-'] ++ (last ++ [']']))))) rest
      ([] ++ (marks ++ (lowViews ++ ([] ++ (highViews ++ []))))) :=
    .cons (by simpa only [List.append_assoc] using takes_openBracket whole)
      (.cons (by simpa only [List.append_assoc] using marked)
        (.cons (by simpa only [List.append_assoc] using start)
          (.cons (by simpa only [List.append_assoc] using dash)
            (.cons stop (.single (takes_closeBracket (within_rest ending)))))))
  have takes := takes_sequence .chargroup _ rfl all
  rw [left_keep within (List.cons_ne_nil _ _) rfl, List.nil_append, List.nil_append, List.append_nil] at takes
  refine ⟨_, takes_choice .atom [.string] .chargroup [.charset, .eof, .word] rfl ?_ takes,
    saysAtom_range named empty lowSpells highSpells ordered⟩
  rw [List.forall_mem_singleton]
  refine fails_string ?_
  rintro _ ⟨⟩
  decide

/-! ## The end of the input, and words -/

/-- No quote and no bracket stands here. -/
def Wordy (rest : List Char) : Prop :=
  ∀ c ∈ rest.head?, c ≠ '"' ∧ c ≠ '['

/-- Nothing that begins with a quote or a bracket begins like a word. -/
theorem fails_before_eof (source : List Char) (wordy : Wordy rest) :
    ∀ other ∈ [Symbol.string, .chargroup, .charset], Fails source other rest := by
  have noBracket : ∀ c ∈ rest.head?, c ≠ '[' := fun c first => (wordy c first).2
  rw [List.forall_mem_cons, List.forall_mem_cons, List.forall_mem_singleton]
  exact ⟨fails_string fun c first => (wordy c first).1, fails_chargroup noBracket, fails_charset noBracket⟩

theorem IsWordChar.wordy {c : Char} (is : IsWordChar c) : c ≠ '"' ∧ c ≠ '[' := by
  constructor
  · rintro rfl
    revert is
    decide
  · rintro rfl
    revert is
    decide

theorem Word.wordy (word : Word) (rest : List Char) : Wordy (word.text ++ rest) := by
  obtain ⟨text, nonempty, chars⟩ := word
  obtain ⟨c, cs, rfl⟩ := List.exists_cons_of_ne_nil nonempty
  rintro _ ⟨⟩
  exact (chars c List.mem_cons_self).wordy

/-- The keyword is taken as itself. -/
theorem takes_eofKeyword (within : Word.endOfInput ++ rest <:+ source) :
    Takes source .eofKeyword Word.endOfInput rest [] := by
  have takes := takes_literal .eofKeyword Word.endOfInput rfl within
  rwa [left_delete rfl] at takes

/-- The keyword is taken where no longer word begins with it. -/
theorem takes_eof (stops : ∀ c ∈ rest.head?, ¬ IsWordChar c) (within : Word.endOfInput ++ rest <:+ source) :
    Takes source .eof Word.endOfInput rest [.node (some "eof") (String.ofList Word.endOfInput)
      (spanOf source Word.endOfInput rest) []] := by
  have ends : Takes source .wordEnds [] rest [] :=
    takes_negation .wordEnds .wordChar rfl (fails_wordChar stops)
  have all : TakesAll source [.eofKeyword, .wordEnds] (Word.endOfInput ++ []) rest ([] ++ []) :=
    .cons (takes_eofKeyword within) (.single ends)
  rw [List.append_nil] at all
  have takes := takes_sequence .eof _ rfl all
  rwa [left_keep within (List.cons_ne_nil _ _) rfl] at takes

/-- **The keyword is taken as an atom**, and says the end of the input. -/
theorem takes_endOfInput_atom (stops : ∀ c ∈ rest.head?, ¬ IsWordChar c)
    (within : Word.endOfInput ++ rest <:+ source) :
    ∃ v, Takes source .atom Word.endOfInput rest [v] ∧ SaysAtom v .endOfInput := by
  refine ⟨_, takes_choice .atom [.string, .chargroup, .charset] .eof [.word] rfl ?_ (takes_eof stops within),
    rfl, fun _ => rfl⟩
  refine fails_before_eof source ?_
  rintro _ ⟨⟩
  decide

theorem isWordChar_of_mem_endOfInput : ∀ c ∈ Word.endOfInput, IsWordChar c :=
  forall_mem_of_all (by decide)

/-- A word that only begins like the keyword goes on behind it. -/
theorem Word.beyond_endOfInput (word : Word) (free : word.text ≠ endOfInput)
    (stops : ∀ c ∈ rest.head?, ¬ IsWordChar c) (starts : endOfInput <+: word.text ++ rest) :
    ∃ c cs, word.text = endOfInput ++ c :: cs := by
  obtain ⟨tail, same⟩ := starts
  rcases List.append_eq_append_iff.mp same with ⟨more, text, _⟩ | ⟨more, text, behind⟩
  · cases more with
    | nil => exact absurd (text.trans (List.append_nil _)) free
    | cons c cs => exact ⟨c, cs, text⟩
  · cases more with
    | nil => exact absurd ((List.append_nil _).symm.trans text.symm) free
    | cons c cs =>
      have inside : c ∈ endOfInput := text ▸ List.mem_append_right _ List.mem_cons_self
      exact absurd (isWordChar_of_mem_endOfInput c inside) (stops c (behind ▸ rfl))

/-- Another word is not taken for the keyword, also where it begins with it. -/
theorem fails_eof (word : Word) (free : word.text ≠ Word.endOfInput)
    (stops : ∀ c ∈ rest.head?, ¬ IsWordChar c) (within : word.text ++ rest <:+ source) :
    Fails source .eof (word.text ++ rest) := by
  by_cases starts : Word.endOfInput <+: word.text ++ rest
  · obtain ⟨c, cs, text⟩ := word.beyond_endOfInput free stops starts
    have char : IsWordChar c := word.chars c (text ▸ List.mem_append_right _ List.mem_cons_self)
    have same : Word.endOfInput ++ ([c] ++ (cs ++ rest)) = word.text ++ rest := by
      rw [text, List.append_assoc]
      rfl
    have whole := same ▸ within
    have next := takes_class .wordChar rfl ((mem_wordChars_iff c).mpr char) (within_rest whole)
    have more : Fails source .wordEnds ([c] ++ (cs ++ rest)) := fails_negation .wordEnds .wordChar rfl next
    exact fails_sequence .eof [.eofKeyword] .wordEnds [] rfl (.single (takes_eofKeyword whole)) more same
  · exact fails_sequence .eof [] .eofKeyword [.wordEnds] rfl .nil
      (fails_literal .eofKeyword Word.endOfInput rfl starts) rfl

/-- **Every other word is taken as an atom**, and says the rule with its name. -/
theorem takes_name (word : Word) (free : word.text ≠ Word.endOfInput)
    (stops : ∀ c ∈ rest.head?, ¬ IsWordChar c) (within : word.text ++ rest <:+ source) :
    ∃ v, Takes source .atom word.text rest [v] ∧ SaysAtom v (.rule word.name) := by
  refine ⟨_, takes_choice .atom [.string, .chargroup, .charset, .eof] .word [] rfl ?_
    (takes_word word stops within), rfl, fun _ => rfl⟩
  show ∀ other ∈ [Symbol.string, .chargroup, .charset] ++ [.eof], _
  rw [List.forall_mem_append, List.forall_mem_singleton]
  exact ⟨fails_before_eof source (word.wordy rest), fails_eof word free stops within⟩

/-- Nothing else begins an atom. -/
theorem fails_atom (wordy : Wordy rest) (stops : ∀ c ∈ rest.head?, ¬ IsWordChar c) :
    Fails source .atom rest := by
  have keyword : Fails source .eofKeyword rest := by
    refine fails_literal .eofKeyword Word.endOfInput rfl ?_
    rintro ⟨tail, rfl⟩
    exact stops 'E' rfl (by decide)
  refine fails_choice .atom ([.string, .chargroup, .charset] ++ [.eof, .word]) rfl ?_
  refine List.forall_mem_append.mpr ⟨fails_before_eof source wordy, ?_⟩
  rw [List.forall_mem_cons, List.forall_mem_singleton]
  exact ⟨fails_sequence .eof [] .eofKeyword [.wordEnds] rfl .nil keyword rfl, fails_word stops⟩

end BnfTokenizer.Dialect
