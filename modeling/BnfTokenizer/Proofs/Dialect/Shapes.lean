import BnfTokenizer.Proofs.Dialect.Atoms
import BnfTokenizer.Proofs.Dialect.Inversion

/-!
# What is left of a grammar text

Culling leaves few shapes of a text in the dialect. There is a predicate for each: `PieceView` for a character of a text
or a class, `AtomView` for what a token says without its marks, `ElementView` and `StatementView` for tokens, groups and
the rows of them, `SentenceView` for a rule. They are said in views alone, so what is proved of a shape needs no matcher.

That nothing else is left is shown going through what each symbol of the dialect takes (`sentenceView_of_derives`). A
group holds a statement, so elements come by induction on the length of their text.
-/

namespace BnfTokenizer.Dialect

open ParseTree (View)

variable {source text rest : List Char} {views : List View}

/-! ## Names -/

/-- A name that a rule can have. -/
def IsName (name : String) : Prop :=
  ∃ word : Word, word.name = name

/-- A name that stands for a rule in an expression. -/
def IsMention (name : String) : Prop :=
  ∃ word : Word, word.text ≠ Word.endOfInput ∧ word.name = name

/-! ## Shapes -/

/-- A mark, which may be missing. -/
inductive MarkViews (name : String) : List View → Prop
  | missing : MarkViews name []
  | there (value : String) (span : Span) : MarkViews name [.node (some name) value span []]

/-- A character of a text or a class, plain or behind an escape mark. -/
inductive PieceView (own : String) : View → Prop
  | plain (c : Char) (span : Span) : PieceView own (.node (some own) (String.ofList [c]) span [])
  | escaped (value mark : String) (c : Char) (span first second : Span) :
      PieceView own (.node (some "escapeSequence") value span
        [.node (some "escape") mark first [], .node (some "anyChar") (String.ofList [c]) second []])

/-- The characters of a text or a class. They may be missing; where they are there, they stand under their name twice. -/
inductive BodyViews (name own : String) : List View → Prop
  | missing : BodyViews name own []
  | there {pieces : List View} (value value' : String) (span span' : Span) (filled : pieces ≠ [])
      (each : ∀ v ∈ pieces, PieceView own v) :
      BodyViews name own [.node (some name) value span [.node (some name) value' span' pieces]]

/-- What a token says without its marks. -/
inductive AtomView : View → Prop
  | text {body : List View} (value : String) (span : Span) (is : BodyViews "strOpt" "strChar" body) :
      AtomView (.node (some "string") value span body)
  | set {marks body : List View} (value : String) (span : Span) (mark : MarkViews "^" marks)
      (is : BodyViews "setOpt" "setChar" body) : AtomView (.node (some "charset") value span (marks ++ body))
  | range {marks : List View} {low high : View} (value lower upper : String) (span first last : Span)
      (mark : MarkViews "^" marks) (isLow : PieceView "rangeChar" low) (isHigh : PieceView "rangeChar" high) :
      AtomView (.node (some "chargroup") value span
        (marks ++ [.node (some "rangeStart") lower first [low], .node (some "rangeEnd") upper last [high]]))
  | endOfInput (value : String) (span : Span) : AtomView (.node (some "eof") value span [])
  | word {name : String} (span : Span) (is : IsMention name) : AtomView (.node (some "word") name span [])

mutual

/-- A token or a group, under its marks. -/
inductive ElementView : View → Prop
  | token {bangs mods : List View} {atom : View} (value : String) (span : Span) (bang : MarkViews "!" bangs)
      (is : AtomView atom) (modifier : MarkViews "modifier" mods) :
      ElementView (.node (some "token") value span (bangs ++ atom :: mods))
  | nested {bangs mods : List View} {statement : View} (value : String) (span : Span) (bang : MarkViews "!" bangs)
      (is : StatementView statement) (modifier : MarkViews "modifier" mods) :
      ElementView (.node (some "nested") value span (bangs ++ statement :: mods))

/-- An element, and what goes on behind it. -/
inductive StatementView : View → Prop
  | row {v : View} {vs : List View} (value : String) (span : Span) (first : ElementView v) (more : ContinuedViews vs) :
      StatementView (.node (some "statement") value span (v :: vs))

/-- Elements in wrappers, each perhaps behind a bar. -/
inductive ContinuedViews : List View → Prop
  | nil : ContinuedViews []
  | spaced {v : View} {vs : List View} (value value' : String) (span span' : Span) (element : ElementView v)
      (more : ContinuedViews vs) :
      ContinuedViews (.node (some "statementOpt") value span [.node (some "spaceOpt") value' span' [v]] :: vs)
  | barred {v : View} {vs : List View} (value value' bar : String) (span span' place : Span) (element : ElementView v)
      (more : ContinuedViews vs) :
      ContinuedViews (.node (some "statementOpt") value span
        [.node (some "pipeOpt") value' span' [.node (some "|") bar place [], v]] :: vs)

end

/-- A name and a statement. -/
inductive SentenceView : View → Prop
  | rule {word value : String} {statement : View} (span place : Span) (named : IsName word)
      (is : StatementView statement) :
      SentenceView (.node (some "sentence") value span [.node (some "word") word place [], statement])

/-- What is seen first of a shape is its name. -/
theorem StatementView.name {v : View} (is : StatementView v) : v.name = some "statement" := by
  cases is
  rfl

/-- The two parts of a sentence are found by their names. -/
theorem StatementView.found_in_sentence {statement : View} (is : StatementView statement) (word value : String)
    (span place : Span) :
    (View.node (some "sentence") value span [.node (some "word") word place [], statement]).childByName "word" =
        some (.node (some "word") word place []) ∧
      (View.node (some "sentence") value span [.node (some "word") word place [], statement]).childByName "statement" =
        some statement := by
  refine ⟨rfl, ?_⟩
  unfold View.childByName View.children
  rw [List.find?_cons, List.find?_cons, is.name]
  rfl

theorem SentenceView.name {v : View} (is : SentenceView v) : v.name = some "sentence" := by
  cases is
  rfl

theorem AtomView.isAtom {v : View} (is : AtomView v) : v.name.any atomNames.contains = true := by
  cases is <;> rfl

theorem MarkViews.name {name : String} (marks : MarkViews name views) : ∀ v ∈ views, v.name = some name := by
  cases marks with
  | missing => exact nofun
  | there value span => exact List.forall_mem_singleton.mpr rfl

theorem MarkViews.leaf {name : String} (marks : MarkViews name views) : ∀ v ∈ views, v.children = [] := by
  cases marks with
  | missing => exact nofun
  | there value span => exact List.forall_mem_singleton.mpr rfl

/-- The atom of a token is found behind its marks. -/
theorem find?_atom {bangs mods : List View} {atom : View} (bang : MarkViews "!" bangs) (is : AtomView atom) :
    (bangs ++ atom :: mods).find? (fun c => c.name.any atomNames.contains) = some atom := by
  have before : bangs.find? (fun c => c.name.any atomNames.contains) = none := by
    rw [List.find?_eq_none]
    intro mark mem
    rw [bang.name mark mem]
    decide
  rw [List.find?_append, before, Option.none_or]
  exact List.find?_cons_of_pos is.isAtom

/-- The statement of a group is found behind its marks. -/
theorem find?_statement {bangs mods : List View} {statement : View} (bang : MarkViews "!" bangs)
    (is : StatementView statement) :
    (bangs ++ statement :: mods).find? (fun c => c.name == some "statement") = some statement := by
  have before : bangs.find? (fun c => c.name == some "statement") = none := by
    rw [List.find?_eq_none]
    intro mark mem
    rw [bang.name mark mem]
    decide
  rw [List.find?_append, before, Option.none_or]
  exact List.find?_cons_of_pos (beq_iff_eq.mpr is.name)

theorem ContinuedViews.append {others : List View} : ∀ {vs : List View}, ContinuedViews vs → ContinuedViews others →
    ContinuedViews (vs ++ others)
  | _, .nil, more => more
  | _, .spaced value value' span span' element rest, more =>
    .spaced value value' span span' element (rest.append more)
  | _, .barred value value' bar span span' place element rest, more =>
    .barred value value' bar span span' place element (rest.append more)

/-! ## Characters -/

/-- A symbol that is kept leaves one view. -/
theorem left_single {name : Option String} {inner : List View} {holds : View → Prop}
    (within : text ++ rest <:+ source) (filled : text ≠ []) (fate : Symbol.fate name = .keep)
    (own : holds (.node name (String.ofList text) (spanOf source text rest) inner)) :
    text ≠ [] ∧ ∃ v, left source name text rest inner = [v] ∧ holds v :=
  ⟨filled, _, left_keep within filled fate, own⟩

theorem Takes.escapeSequence {own : String} (takes : Takes source .escapeSequence text rest views)
    (within : text ++ rest <:+ source) : text ≠ [] ∧ ∃ v, views = [v] ∧ PieceView own v := by
  obtain ⟨inner, all, rfl⟩ := takes.of_sequence [.escape, .anyChar] rfl within
  obtain _ | ⟨mark, _ | ⟨char, _ | _⟩⟩ := all
  have split := within
  simp only [List.append_assoc] at split mark char
  have isMark : Symbol.escape.definition = ⟨some "escape", .literal ['\\']⟩ := rfl
  obtain ⟨rfl, rfl⟩ := mark.of_literal isMark split
  obtain ⟨d, rfl, _, rfl⟩ := char.of_class rfl (within_rest split)
  refine left_single within (List.cons_ne_nil _ _) rfl ?_
  rw [left_keep split (List.cons_ne_nil _ _) rfl, left_keep (within_rest split) (List.cons_ne_nil _ _) rfl]
  exact .escaped ..

section

variable {piece plain : Symbol} {own : String} {specials : List Char}

theorem IsPiece.of_takes (is : IsPiece piece plain own specials) (takes : Takes source piece text rest views)
    (within : text ++ rest <:+ source) : text ≠ [] ∧ ∃ v, views = [v] ∧ PieceView own v := by
  obtain escaped | ⟨_, single | ⟨_, ⟨⟩⟩⟩ := takes.of_choice [.escapeSequence, plain] is.choice
  · exact escaped.escapeSequence within
  · obtain ⟨c, rfl, _, rfl⟩ := single.of_class is.plain within
    exact left_single within (List.cons_ne_nil _ _) is.kept (.plain ..)

theorem TakesMore.pieces (more : TakesMore source piece text rest views) (is : IsPiece piece plain own specials)
    (within : text ++ rest <:+ source) : (text ≠ [] → views ≠ []) ∧ ∀ v ∈ views, PieceView own v := by
  induction more with
  | stop _ => exact ⟨fun filled => absurd rfl filled, nofun⟩
  | more once _ _ ih =>
    rw [List.append_assoc] at within
    obtain ⟨_, v, rfl, own⟩ := is.of_takes once within
    refine ⟨fun _ => List.cons_ne_nil _ _, ?_⟩
    rw [List.forall_mem_append, List.forall_mem_singleton]
    exact ⟨own, (ih (within_rest within)).2⟩

/-- What stands between the marks of a text or a set. -/
theorem Takes.body (body pieces : Symbol) {name : String} (takes : Takes source body text rest views)
    (is : IsPiece piece plain own specials) (isPieces : pieces.definition = ⟨some name, .repetition piece.id⟩)
    (isBody : body.definition = ⟨some name, .optional pieces.id⟩) (kept : Symbol.fate (some name) = .keep)
    (within : text ++ rest <:+ source) : BodyViews name own views := by
  obtain ⟨inner, taken, rfl⟩ | ⟨_, rfl⟩ := takes.of_optional pieces isBody
  · obtain ⟨inner, more, filled, rfl⟩ := taken.of_repetition piece isPieces within
    obtain ⟨some, each⟩ := more.pieces is within
    rw [left_keep within filled kept, left_keep within filled kept]
    exact .there _ _ _ _ (some filled) each
  · exact .missing

/-- A bound of a range is one character. -/
theorem Takes.bound (bound : Symbol) {name : String} (takes : Takes source bound text rest views)
    (isBound : bound.definition = ⟨some name, .sequence ([Symbol.rangePiece].map Symbol.id)⟩)
    (kept : Symbol.fate (some name) = .keep) (within : text ++ rest <:+ source) :
    ∃ value span v, views = [.node (some name) value span [v]] ∧ PieceView "rangeChar" v := by
  obtain ⟨inner, all, rfl⟩ := takes.of_sequence [.rangePiece] isBound within
  obtain _ | ⟨piece, _ | _⟩ := all
  rw [List.append_nil] at within ⊢
  obtain ⟨filled, v, rfl, own⟩ := isPiece_range.of_takes piece within
  rw [left_keep within filled kept]
  exact ⟨_, _, v, rfl, own⟩

end

/-! ## Marks and layout -/

/-- What begins with a mark of its own is not empty. -/
theorem filled_of_literal {s first : Symbol} {name own : Option String} {c : Char} {cs : List Char}
    (parts : List Symbol) (takes : Takes source s text rest views)
    (is : s.definition = ⟨name, .sequence ((first :: parts).map Symbol.id)⟩)
    (isFirst : first.definition = ⟨own, .literal (c :: cs)⟩) (within : text ++ rest <:+ source) : text ≠ [] := by
  obtain ⟨inner, all, _⟩ := takes.of_sequence (first :: parts) is within
  cases all with
  | cons head tail =>
    rw [List.append_assoc] at within
    obtain ⟨rfl, _⟩ := head.of_literal isFirst within
    exact List.cons_ne_nil _ _

theorem Takes.mark (marks mark : Symbol) {c : Char} (takes : Takes source marks text rest views)
    (isMark : mark.definition = ⟨some (String.ofList [c]), .literal [c]⟩)
    (isMarks : marks.definition = ⟨"modifiers", .optional mark.id⟩)
    (kept : Symbol.fate (some (String.ofList [c])) = .keep) (within : text ++ rest <:+ source) :
    MarkViews (String.ofList [c]) views := by
  obtain ⟨inner, taken, rfl⟩ | ⟨_, rfl⟩ := takes.of_optional mark isMarks
  · obtain ⟨rfl, rfl⟩ := taken.of_literal isMark within
    rw [left_lift within (List.cons_ne_nil _ _) rfl, left_keep within (List.cons_ne_nil _ _) kept]
    exact .there ..
  · exact .missing

theorem Takes.trailingMark (takes : Takes source .trailingMark text rest views)
    (within : text ++ rest <:+ source) : MarkViews "modifier" views := by
  obtain ⟨inner, taken, rfl⟩ | ⟨_, rfl⟩ := takes.of_optional .modifier rfl
  · obtain ⟨_, rfl, _, rfl⟩ := taken.of_class rfl within
    rw [left_lift within (List.cons_ne_nil _ _) rfl, left_keep within (List.cons_ne_nil _ _) rfl]
    exact .there ..
  · exact .missing

theorem Takes.gap (takes : Takes source .gap text rest views) : views = [] := by
  obtain ⟨inner, _, rfl⟩ | ⟨_, rfl⟩ := takes.of_optional .blanks rfl
  · exact left_delete rfl
  · rfl

/-- A nameless text is there, and leaves nothing. -/
theorem Takes.layout {s : Symbol} {literal : List Char} (takes : Takes source s text rest views)
    (is : s.definition = ⟨none, .literal literal⟩) (within : text ++ rest <:+ source) :
    text = literal ∧ views = [] := by
  obtain ⟨rfl, rfl⟩ := takes.of_literal is within
  exact ⟨rfl, left_delete rfl⟩

/-! ## Words -/

theorem TakesMore.chars {s : Symbol} {members : List Char} (more : TakesMore source s text rest views)
    (is : s.definition = ⟨none, .charSet members false⟩) (within : text ++ rest <:+ source) :
    (∀ c ∈ text, c ∈ members) ∧ ∀ c ∈ rest.head?, c ∉ members := by
  induction more with
  | @stop rest fails =>
    refine ⟨nofun, fun c first mem => ?_⟩
    obtain ⟨cs, rfl⟩ : ∃ cs, rest = c :: cs := List.head?_eq_some_iff.mp first
    have takes := takes_class s is (iff_of_true mem rfl) within
    exact Fails.not_takes fails takes
  | @more first second rest _ _ once _ _ ih =>
    rw [List.append_assoc] at within
    obtain ⟨c, rfl, taken, _⟩ := once.of_class is within
    obtain ⟨all, stops⟩ := ih (within_rest within)
    refine ⟨?_, stops⟩
    rw [List.forall_mem_append, List.forall_mem_singleton]
    exact ⟨taken.mpr rfl, all⟩

/-- A word that was taken goes as far as it can. -/
theorem Takes.word (takes : Takes source .word text rest views) (within : text ++ rest <:+ source) :
    ∃ word : Word, word.text = text ∧ (∀ c ∈ rest.head?, ¬ IsWordChar c) ∧
      views = [.node (some "word") word.name (spanOf source text rest) []] := by
  obtain ⟨inner, more, filled, rfl⟩ := takes.of_repetition .wordChar rfl within
  obtain ⟨all, stops⟩ := more.chars rfl within
  have chars : ∀ c, c ∈ Symbol.wordChars.toList.eraseDups ↔ IsWordChar c := by
    intro c
    rw [List.mem_eraseDups]
    exact Iff.rfl
  obtain ⟨word, rfl⟩ : ∃ word : Word, word.text = text :=
    ⟨⟨text, filled, fun c mem => (chars c).mp (all c mem)⟩, rfl⟩
  have ends : ∀ c ∈ rest.head?, ¬ IsWordChar c := fun c first => (not_congr (chars c)).mp (stops c first)
  exact ⟨word, rfl, ends, takes.unique (takes_word word ends within)⟩

/-! ## Atoms -/

theorem Takes.string (takes : Takes source .string text rest views) (within : text ++ rest <:+ source) :
    text ≠ [] ∧ ∃ v, views = [v] ∧ AtomView v := by
  have filled := filled_of_literal [.stringBody, .quote] takes rfl rfl within
  obtain ⟨inner, all, rfl⟩ := takes.of_sequence [.quote, .stringBody, .quote] rfl within
  obtain _ | ⟨opening, _ | ⟨body, _ | ⟨closing, _ | _⟩⟩⟩ := all
  have split := within
  simp only [List.append_assoc] at split opening body
  have inside := within_rest split
  obtain ⟨rfl, rfl⟩ := opening.layout rfl split
  obtain ⟨_, rfl⟩ := closing.layout rfl (within_rest inside)
  have shaped := body.body .stringBody .stringPieces isPiece_string rfl rfl rfl inside
  refine left_single within filled rfl ?_
  simp only [List.nil_append, List.append_nil]
  exact .text _ _ shaped

theorem Takes.chargroup (takes : Takes source .chargroup text rest views) (within : text ++ rest <:+ source) :
    text ≠ [] ∧ ∃ v, views = [v] ∧ AtomView v := by
  have filled := filled_of_literal [.negated, .rangeStart, .dash, .rangeEnd, .closeBracket] takes rfl rfl within
  obtain ⟨inner, all, rfl⟩ :=
    takes.of_sequence [.openBracket, .negated, .rangeStart, .dash, .rangeEnd, .closeBracket] rfl within
  obtain _ | ⟨opening, _ | ⟨negated, _ | ⟨first, _ | ⟨dash, _ | ⟨last, _ | ⟨closing, _ | _⟩⟩⟩⟩⟩⟩ := all
  have split := within
  simp only [List.append_assoc] at split opening negated first dash last
  have marking := within_rest split
  have starting := within_rest marking
  have dashing := within_rest starting
  have ending := within_rest dashing
  obtain ⟨rfl, rfl⟩ := opening.layout rfl split
  obtain ⟨rfl, rfl⟩ := dash.layout rfl dashing
  obtain ⟨_, rfl⟩ := closing.layout rfl (within_rest ending)
  have marks := negated.mark .negated .caret rfl rfl rfl marking
  obtain ⟨_, _, low, rfl, isLow⟩ := first.bound .rangeStart rfl rfl starting
  obtain ⟨_, _, high, rfl, isHigh⟩ := last.bound .rangeEnd rfl rfl ending
  refine left_single within filled rfl ?_
  simp only [List.nil_append, List.append_nil]
  exact .range _ _ _ _ _ _ marks isLow isHigh

theorem Takes.charset (takes : Takes source .charset text rest views) (within : text ++ rest <:+ source) :
    text ≠ [] ∧ ∃ v, views = [v] ∧ AtomView v := by
  have filled := filled_of_literal [.negated, .setBody, .closeBracket] takes rfl rfl within
  obtain ⟨inner, all, rfl⟩ := takes.of_sequence [.openBracket, .negated, .setBody, .closeBracket] rfl within
  obtain _ | ⟨opening, _ | ⟨negated, _ | ⟨body, _ | ⟨closing, _ | _⟩⟩⟩⟩ := all
  have split := within
  simp only [List.append_assoc] at split opening negated body
  have marking := within_rest split
  have inside := within_rest marking
  obtain ⟨rfl, rfl⟩ := opening.layout rfl split
  obtain ⟨_, rfl⟩ := closing.layout rfl (within_rest inside)
  have marks := negated.mark .negated .caret rfl rfl rfl marking
  have shaped := body.body .setBody .setPieces isPiece_set rfl rfl rfl inside
  refine left_single within filled rfl ?_
  simp only [List.nil_append, List.append_nil]
  exact .set _ _ marks shaped

theorem Takes.eof (takes : Takes source .eof text rest views) (within : text ++ rest <:+ source) :
    text ≠ [] ∧ ∃ v, views = [v] ∧ AtomView v := by
  have filled := filled_of_literal [.wordEnds] takes rfl rfl within
  obtain ⟨inner, all, rfl⟩ := takes.of_sequence [.eofKeyword, .wordEnds] rfl within
  obtain _ | ⟨keyword, _ | ⟨ends, _ | _⟩⟩ := all
  have split := within
  simp only [List.append_assoc] at split keyword
  obtain ⟨rfl, rfl⟩ := keyword.layout rfl split
  obtain ⟨rfl, rfl⟩ := ends.of_negation .wordChar rfl
  exact left_single within filled rfl (.endOfInput ..)

/-- A word is an atom where it is not the keyword, which is tried before it. -/
theorem Takes.atom (takes : Takes source .atom text rest views) (within : text ++ rest <:+ source) :
    text ≠ [] ∧ ∃ v, views = [v] ∧ AtomView v := by
  obtain text | ⟨_, range | ⟨_, set | ⟨_, ends | ⟨noEnd, taken | ⟨_, ⟨⟩⟩⟩⟩⟩⟩ :=
    takes.of_choice [.string, .chargroup, .charset, .eof, .word] rfl
  · exact text.string within
  · exact range.chargroup within
  · exact set.charset within
  · exact ends.eof within
  · obtain ⟨word, rfl, stops, rfl⟩ := taken.word within
    refine ⟨word.nonempty, _, rfl, .word _ ⟨word, ?_, rfl⟩⟩
    intro keyword
    rw [keyword] at noEnd within
    exact noEnd.not_takes (takes_eof stops within)

/-! ## Elements and statements -/

theorem Takes.token (takes : Takes source .token text rest views) (within : text ++ rest <:+ source) :
    text ≠ [] ∧ ∃ v, views = [v] ∧ ElementView v := by
  obtain ⟨inner, all, rfl⟩ := takes.of_sequence [.leadingMark, .atom, .trailingMark] rfl within
  obtain _ | ⟨bang, _ | ⟨atom, _ | ⟨modifier, _ | _⟩⟩⟩ := all
  have split := within
  simp only [List.append_assoc] at split bang atom
  obtain ⟨filled, v, rfl, is⟩ := atom.atom (within_rest split)
  have bangs := bang.mark .leadingMark .bang rfl rfl rfl split
  have modifiers := modifier.trailingMark (within_rest (within_rest split))
  refine left_single within
    (List.append_ne_nil_of_right_ne_nil _ (List.append_ne_nil_of_left_ne_nil filled _)) rfl ?_
  simp only [List.append_nil]
  exact .token _ _ bangs is modifiers

/-- A group is taken apart into the statement in it. -/
theorem Takes.nested (takes : Takes source .nested text rest views) (within : text ++ rest <:+ source)
    (statement : ∀ inner rest views, inner.length < text.length → inner ++ rest <:+ source →
      Takes source .statement inner rest views → ∃ v, views = [v] ∧ StatementView v) :
    text ≠ [] ∧ ∃ v, views = [v] ∧ ElementView v := by
  obtain ⟨inner, all, rfl⟩ := takes.of_sequence
    [.leadingMark, .openGroup, .gap, .statement, .gap, .closeGroup, .trailingMark] rfl within
  obtain _ | ⟨bang, _ | ⟨opening, _ | ⟨before, _ | ⟨row, _ | ⟨after, _ | ⟨closing, _ | ⟨modifier, _ | _⟩⟩⟩⟩⟩⟩⟩ :=
    all
  have split := within
  simp only [List.append_assoc] at split bang opening row closing
  have opened := within_rest split
  have inside := within_rest (within_rest opened)
  have closed := within_rest (within_rest inside)
  have isOpen : Symbol.openGroup.definition = ⟨none, .literal ['(']⟩ := rfl
  obtain ⟨rfl, rfl⟩ := opening.layout isOpen opened
  obtain ⟨_, rfl⟩ := closing.layout rfl closed
  obtain rfl := before.gap
  obtain rfl := after.gap
  have bangs := bang.mark .leadingMark .bang rfl rfl rfl split
  have modifiers := modifier.trailingMark (within_rest closed)
  obtain ⟨v, rfl, is⟩ := statement _ _ _ (by simp only [List.length_append, List.length_cons]; omega)
    inside row
  refine left_single within (List.append_ne_nil_of_right_ne_nil _ (List.cons_ne_nil _ _)) rfl ?_
  simp only [List.nil_append, List.append_nil]
  exact .nested _ _ bangs is modifiers

/-- Everything that is taken as an element, up to a length, leaves an element. -/
def ElementsUpTo (source : List Char) (length : Nat) : Prop :=
  ∀ {text rest : List Char} {views : List View}, text.length ≤ length → text ++ rest <:+ source →
    Takes source .element text rest views → text ≠ [] ∧ ∃ v, views = [v] ∧ ElementView v

theorem ElementsUpTo.mono {length shorter : Nat} (all : ElementsUpTo source length) (less : shorter ≤ length) :
    ElementsUpTo source shorter :=
  fun short => all (Nat.le_trans short less)

theorem Takes.notHead (takes : Takes source .notHead text rest views) : text = [] ∧ views = [] :=
  takes.of_negation .head rfl

/-- In a wrapper, what goes on behind an element. -/
def GoesOn (w : View) : Prop :=
  ∀ value span vs, ContinuedViews vs → ContinuedViews (.node (some "statementOpt") value span [w] :: vs)

theorem Takes.spaceOpt (takes : Takes source .spaceOpt text rest views) (within : text ++ rest <:+ source)
    (elements : ElementsUpTo source text.length) : text ≠ [] ∧ ∃ w, views = [w] ∧ GoesOn w := by
  obtain ⟨inner, all, rfl⟩ := takes.of_sequence [.gap, .notHead, .element] rfl within
  obtain _ | ⟨gap, _ | ⟨free, _ | ⟨element, _ | _⟩⟩⟩ := all
  obtain ⟨rfl, rfl⟩ := free.notHead
  obtain rfl := gap.gap
  have split := within
  simp only [List.append_assoc] at split element
  obtain ⟨filled, v, rfl, is⟩ := elements (by simp only [List.length_append]; omega)
    (within_rest (within_rest split)) element
  refine left_single within (List.append_ne_nil_of_right_ne_nil _ (List.append_ne_nil_of_right_ne_nil _
    (List.append_ne_nil_of_left_ne_nil filled _))) rfl ?_
  exact fun _ _ _ more => .spaced _ _ _ _ is more

theorem Takes.pipeOpt (takes : Takes source .pipeOpt text rest views) (within : text ++ rest <:+ source)
    (elements : ElementsUpTo source text.length) : text ≠ [] ∧ ∃ w, views = [w] ∧ GoesOn w := by
  obtain ⟨inner, all, rfl⟩ := takes.of_sequence [.gap, .pipe, .gap, .notHead, .element] rfl within
  obtain _ | ⟨before, _ | ⟨bar, _ | ⟨after, _ | ⟨free, _ | ⟨element, _ | _⟩⟩⟩⟩⟩ := all
  obtain ⟨rfl, rfl⟩ := free.notHead
  obtain rfl := before.gap
  obtain rfl := after.gap
  have split := within
  simp only [List.append_assoc] at split bar element
  have marked := within_rest split
  have isBar : Symbol.pipe.definition = ⟨some "|", .literal ['|']⟩ := rfl
  obtain ⟨rfl, rfl⟩ := bar.of_literal isBar marked
  obtain ⟨filled, v, rfl, is⟩ := elements (by simp only [List.length_append]; omega)
    (within_rest (within_rest (within_rest marked))) element
  refine left_single within (List.append_ne_nil_of_right_ne_nil _ (List.cons_ne_nil _ _)) rfl ?_
  rw [left_keep marked (List.cons_ne_nil _ _) rfl]
  exact fun _ _ _ more => .barred _ _ _ _ _ _ is more

theorem Takes.statementOpt (takes : Takes source .statementOpt text rest views)
    (within : text ++ rest <:+ source) (elements : ElementsUpTo source text.length) : ContinuedViews views := by
  have continuation : ∀ {views}, Takes source .continuation text rest views →
      text ≠ [] ∧ ∃ w, views = [w] ∧ GoesOn w := by
    intro views taken
    obtain bar | ⟨_, space | ⟨_, ⟨⟩⟩⟩ := taken.of_choice [.pipeOpt, .spaceOpt] rfl
    · exact bar.pipeOpt within elements
    · exact space.spaceOpt within elements
  obtain ⟨inner, all, rfl⟩ := takes.of_sequence [.continuation] rfl within
  obtain _ | ⟨opt, _ | _⟩ := all
  rw [List.append_nil] at within continuation ⊢
  obtain ⟨filled, w, rfl, continues⟩ := continuation opt
  rw [List.append_nil, left_keep within filled rfl]
  exact continues _ _ _ .nil

theorem TakesMore.continued (more : TakesMore source .statementOpt text rest views)
    (within : text ++ rest <:+ source) (elements : ElementsUpTo source text.length) : ContinuedViews views := by
  induction more with
  | stop _ => exact .nil
  | more once _ _ ih =>
    rw [List.append_assoc] at within
    rw [List.length_append] at elements
    have own := once.statementOpt within (elements.mono (Nat.le_add_right ..))
    exact own.append (ih (within_rest within) (elements.mono (Nat.le_add_left ..)))

theorem Takes.statementTail (takes : Takes source .statementTail text rest views)
    (within : text ++ rest <:+ source) (elements : ElementsUpTo source text.length) : ContinuedViews views := by
  obtain ⟨inner, taken, rfl⟩ | ⟨rfl, rfl⟩ := takes.of_optional .continuations rfl
  · obtain ⟨inner, more, filled, rfl⟩ := taken.of_repetition .statementOpt rfl within
    rw [left_lift within filled rfl, left_lift within filled rfl]
    exact more.continued within elements
  · exact .nil

theorem Takes.statement (takes : Takes source .statement text rest views) (within : text ++ rest <:+ source)
    (elements : ElementsUpTo source text.length) : text ≠ [] ∧ ∃ v, views = [v] ∧ StatementView v := by
  obtain ⟨inner, all, rfl⟩ := takes.of_sequence [.element, .statementTail] rfl within
  obtain _ | ⟨element, _ | ⟨tail, _ | _⟩⟩ := all
  have split := within
  simp only [List.append_assoc] at split element
  obtain ⟨filled, v, rfl, is⟩ := elements (by rw [List.length_append]; omega) split element
  have continued := tail.statementTail (within_rest split)
    (elements.mono (by simp only [List.length_append]; omega))
  refine left_single within (List.append_ne_nil_of_left_ne_nil filled _) rfl ?_
  simp only [List.append_nil, List.singleton_append]
  exact .row _ _ is continued

/-- **Elements, down through all groups.** -/
theorem elementsUpTo (source : List Char) (length : Nat) : ElementsUpTo source length := by
  induction length using Nat.strongRecOn with
  | ind length ih =>
    intro text rest views short within takes
    -- A group is longer than the statement in it, by its brackets.
    obtain token | ⟨_, nested | ⟨_, ⟨⟩⟩⟩ := takes.of_choice [.token, .nested] rfl
    · exact token.token within
    · refine nested.nested within fun inner rest views shorter within' statement => ?_
      exact (statement.statement within' (ih inner.length (by omega))).2

/-! ## Sentences -/

theorem Takes.sentence (takes : Takes source .sentence text rest views) (within : text ++ rest <:+ source) :
    text ≠ [] ∧ ∃ v, views = [v] ∧ SentenceView v := by
  obtain ⟨inner, all, rfl⟩ := takes.of_sequence [.word, .gap, .define, .gap, .statement, .gap] rfl within
  obtain _ | ⟨name, _ | ⟨before, _ | ⟨mark, _ | ⟨after, _ | ⟨statement, _ | ⟨behind, _ | _⟩⟩⟩⟩⟩⟩ := all
  obtain rfl := before.gap
  obtain rfl := after.gap
  obtain rfl := behind.gap
  have split := within
  simp only [List.append_assoc] at split name mark statement
  have marked := within_rest (within_rest split)
  obtain ⟨word, rfl, _, rfl⟩ := name.word split
  obtain ⟨rfl, rfl⟩ := mark.of_literal rfl marked
  obtain ⟨_, v, rfl, is⟩ := statement.statement (within_rest (within_rest marked)) (elementsUpTo source _)
  refine left_single within (List.append_ne_nil_of_left_ne_nil word.nonempty _) rfl ?_
  rw [left_delete rfl]
  exact .rule _ _ ⟨word, rfl⟩ is

theorem TakesMore.sentences (more : TakesMore source .sentence text rest views)
    (within : text ++ rest <:+ source) : ∀ v ∈ views, SentenceView v := by
  induction more with
  | stop _ => exact nofun
  | more once _ _ ih =>
    rw [List.append_assoc] at within
    obtain ⟨_, v, rfl, is⟩ := once.sentence within
    rw [List.forall_mem_append, List.forall_mem_singleton]
    exact ⟨is, ih (within_rest within)⟩

theorem Takes.sentenceList (takes : Takes source .sentenceList text rest views)
    (within : text ++ rest <:+ source) : ∀ v ∈ views, SentenceView v := by
  obtain ⟨inner, taken, rfl⟩ | ⟨_, rfl⟩ := takes.of_optional .sentences rfl
  · obtain ⟨inner, more, _, rfl⟩ := taken.of_repetition .sentence rfl within
    exact fun v mem => more.sentences within v (mem_of_mem_left rfl (mem_of_mem_left rfl mem))
  · exact nofun

/-- **Below the root of a derived grammar text there are sentences**, and nothing else. -/
theorem sentenceView_of_derives {tree : Match.DerivedTree} {stop : Match.Cursor}
    (derives : Match.Derives definitions Symbol.grammar.id (place source source) (some (tree, stop))) :
    (tree.topRow 0 none).name = some "grammar" ∧
      ∀ v ∈ Match.DerivedTree.listCulled cullFilters source tree.children, SentenceView v := by
  have kind : definitions.kind Symbol.grammar.id =
      .sequence ([Symbol.gap, .sentenceList, .finish].map Symbol.id) := by
    rw [Symbol.kind_id]
    rfl
  obtain ⟨trees, stop, all, same⟩ | ⟨_, same⟩ := derives.of_sequence kind
  · cases same
    obtain ⟨text, rest, split, _, taken⟩ := takesAll_of_derives (List.suffix_refl source) all
    have within : text ++ rest <:+ source := split ▸ List.suffix_refl source
    rw [Match.DerivedTree.spanning, Match.DerivedTree.children]
    generalize Match.DerivedTree.listCulled cullFilters source trees = views at taken
    obtain _ | ⟨gap, _ | ⟨list, _ | ⟨finish, _ | _⟩⟩⟩ := taken
    obtain rfl := gap.gap
    obtain ⟨rfl, rfl⟩ := finish.of_endOfInput rfl
    simp only [List.append_assoc] at within list
    rw [List.nil_append, List.append_nil, List.append_nil]
    exact ⟨rfl, list.sentenceList (within_rest within)⟩
  · cases same

end BnfTokenizer.Dialect
