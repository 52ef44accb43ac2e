import BnfTokenizer.Proofs.Dialect.Expression
import BnfTokenizer.Dialect.Symbols

/-!
# Grammars as they are written

An abstract grammar, what it means, and the texts that it can be written as. Nothing here is about reading:
`meaning` says what a reader should find, and `Written` which texts it should find it in.

Sequences and alternatives are never empty, and a range has its bounds in order; the types leave no room
for others. A text is written freely in three ways: a character may stand for itself unless it is special
where it stands, and it may be escaped; what stands between two parts is any `Gap`; and where two words
would touch, the gap is not empty.
-/

namespace BnfTokenizer.Dialect

/-! ## What can be said -/

def IsWordChar (c : Char) : Prop :=
  c ∈ Symbol.wordChars.toList

instance (c : Char) : Decidable (IsWordChar c) :=
  inferInstanceAs (Decidable (c ∈ Symbol.wordChars.toList))

/-- What a check finds of all characters of a list. -/
theorem forall_mem_of_all {P : Char → Prop} [DecidablePred P] {cs : List Char}
    (all : (cs.all fun c => decide (P c)) = true) : ∀ c ∈ cs, P c :=
  fun c mem => of_decide_eq_true (List.all_eq_true.mp all c mem)

/-- The name of a rule: one or more word characters. -/
structure Word where
  text : List Char
  nonempty : text ≠ []
  chars : ∀ c ∈ text, IsWordChar c

namespace Word

def name (word : Word) : String :=
  String.ofList word.text

/-- The word that is no name where an expression stands. -/
def endOfInput : List Char := ['E', 'O', 'F']

end Word

/-- What may stand behind an operand. -/
inductive Modifier where
  | once
  | more
  | any
  | maybe
deriving DecidableEq, Repr

mutual

/-- What operators apply to. -/
inductive Primary where
  | text (text : List Char)
  | set (negated : Bool) (members : List Char)
  | range (negated : Bool) (low high : Char) (ordered : low ≤ high)
  | endOfInput
  | name (word : Word) (free : word.text ≠ Word.endOfInput)
  | group (body : Alternatives)

/-- An operand under its marks. -/
inductive Element where
  | mk (negated : Bool) (primary : Primary) (modifier : Modifier)

/-- One or more elements in a row. -/
inductive Row where
  | last (element : Element)
  | next (element : Element) (rest : Row)

/-- One or more rows, tried in order. -/
inductive Alternatives where
  | last (row : Row)
  | next (row : Row) (rest : Alternatives)

end

/-- A rule. -/
structure Sentence where
  word : Word
  body : Alternatives

/-! ## What it means -/

def Modifier.apply : Modifier → Expression → Expression
  | once, e => e
  | more, e => .repetition e
  | any, e => .optional (.repetition e)
  | maybe, e => .optional e

mutual

def Primary.meaning : Primary → Expression
  | .text cs => .literal (String.ofList cs)
  | .set negated members => .charSet (String.ofList members) negated
  | .range negated low high _ => .charRange low high negated
  | .endOfInput => .endOfInput
  | .name word _ => .rule word.name
  | .group body => body.meaning

/-- The modifier binds tighter than the mark in front. -/
def Element.meaning : Element → Expression
  | .mk negated primary modifier =>
    if negated then .negation (modifier.apply primary.meaning) else modifier.apply primary.meaning

/-- A row of one is that one. -/
def Row.meaning : Row → Expression
  | .last element => element.meaning
  | .next element rest => .sequence (element.meaning :: rest.parts)

def Row.parts : Row → List Expression
  | .last element => [element.meaning]
  | .next element rest => element.meaning :: rest.parts

/-- A single alternative is no choice. -/
def Alternatives.meaning : Alternatives → Expression
  | .last row => row.meaning
  | .next row rest => .choice (row.meaning :: rest.branches)

def Alternatives.branches : Alternatives → List Expression
  | .last row => [row.meaning]
  | .next row rest => row.meaning :: rest.branches

end

def Sentence.rule (sentence : Sentence) : Rule :=
  ⟨sentence.word.name, sentence.body.meaning⟩

/-! ## How it is written -/

def IsBlank (c : Char) : Prop :=
  c = ' ' ∨ c = '\t' ∨ c = '\r' ∨ c = '\n'

instance (c : Char) : Decidable (IsBlank c) :=
  inferInstanceAs (Decidable (_ ∨ _))

/-- What may stand between two parts: blanks, and comments up to the end of their line. -/
inductive Gap : List Char → Prop
  | nil : Gap []
  | blank {c cs} (blank : IsBlank c) (rest : Gap cs) : Gap (c :: cs)
  | comment {line cs} (inside : '\n' ∉ line) (rest : Gap cs) : Gap ('#' :: (line ++ '\n' :: cs))

/-- Where two words would touch there is something between them. -/
def Apart (before gap after : List Char) : Prop :=
  gap = [] → ∀ c ∈ before.getLast?, ∀ d ∈ after.head?, ¬ (IsWordChar c ∧ IsWordChar d)

instance (before gap after : List Char) : Decidable (Apart before gap after) :=
  decidable_of_iff (gap ≠ [] ∨ (before.getLast?.all fun c => after.head?.all fun d =>
      decide ¬ (IsWordChar c ∧ IsWordChar d)) = true) (by
    simp only [Option.all_eq_true, decide_eq_true_iff, Ne, ← Decidable.imp_iff_not_or]
    exact Iff.rfl)

/-- A character as it is written where some are special. -/
inductive Spelled (special : List Char) : Char → List Char → Prop
  | plain {c} (free : c ∉ special) : Spelled special c [c]
  | escaped {c} (free : c ∉ ['n', 't', 'r']) : Spelled special c ['\\', c]
  | newline : Spelled special '\n' ['\\', 'n']
  | tab : Spelled special '\t' ['\\', 't']
  | carriage : Spelled special '\r' ['\\', 'r']

inductive SpelledAll (special : List Char) : List Char → List Char → Prop
  | nil : SpelledAll special [] []
  | cons {c cs first rest} (head : Spelled special c first) (tail : SpelledAll special cs rest) :
      SpelledAll special (c :: cs) (first ++ rest)

/-- What is special in a text. -/
def textSpecials : List Char := ['"', '\\']

/-- What is special between brackets. -/
def classSpecials : List Char := [']', '\\', '-', '^']

def negationMark (negated : Bool) (mark : Char) : List Char :=
  if negated then [mark] else []

def Modifier.mark : Modifier → List Char
  | once => []
  | more => ['+']
  | any => ['*']
  | maybe => ['?']

mutual

inductive Primary.Written : Primary → List Char → Prop
  | text {cs body} (spelled : SpelledAll textSpecials cs body) :
      Primary.Written (.text cs) (['"'] ++ (body ++ ['"']))
  | set {negated members body} (spelled : SpelledAll classSpecials members body) :
      Primary.Written (.set negated members) (['['] ++ (negationMark negated '^' ++ (body ++ [']'])))
  | range {negated low high ordered first last} (lower : Spelled classSpecials low first)
      (upper : Spelled classSpecials high last) :
      Primary.Written (.range negated low high ordered)
        (['['] ++ (negationMark negated '^' ++ (first ++ (['-'] ++ (last ++ [']'])))))
  | endOfInput : Primary.Written .endOfInput Word.endOfInput
  | name {word free} : Primary.Written (.name word free) word.text
  | group {body before text after} (opening : Gap before) (inner : Alternatives.Written body text)
      (closing : Gap after) :
      Primary.Written (.group body) (['('] ++ (before ++ (text ++ (after ++ [')']))))

inductive Element.Written : Element → List Char → Prop
  | mk {negated primary modifier text} (inner : Primary.Written primary text) :
      Element.Written (.mk negated primary modifier) (negationMark negated '!' ++ (text ++ modifier.mark))

inductive Row.Written : Row → List Char → Prop
  | last {element text} (only : Element.Written element text) : Row.Written (.last element) text
  | next {element rest first gap others} (head : Element.Written element first) (between : Gap gap)
      (tail : Row.Written rest others) (apart : Apart first gap others) :
      Row.Written (.next element rest) (first ++ (gap ++ others))

inductive Alternatives.Written : Alternatives → List Char → Prop
  | last {row text} (only : Row.Written row text) : Alternatives.Written (.last row) text
  | next {row rest first before after others} (head : Row.Written row first) (left : Gap before)
      (right : Gap after) (tail : Alternatives.Written rest others) :
      Alternatives.Written (.next row rest) (first ++ (before ++ (['|'] ++ (after ++ others))))

end

/-- What stands between the name of a rule and what it says. -/
def defineMark : List Char := [':', ':', '=']

inductive Sentence.Written : Sentence → List Char → Prop
  | mk {sentence before after text} (left : Gap before) (right : Gap after)
      (body : Alternatives.Written sentence.body text) :
      Sentence.Written sentence (sentence.word.text ++ (before ++ (defineMark ++ (after ++ text))))

inductive WrittenAll : List Sentence → List Char → Prop
  | nil : WrittenAll [] []
  | cons {sentence sentences first gap others} (head : Sentence.Written sentence first) (between : Gap gap)
      (tail : WrittenAll sentences others) (apart : Apart first gap others) :
      WrittenAll (sentence :: sentences) (first ++ (gap ++ others))

/-- A text that some rules are written as. -/
def Rendered (sentences : List Sentence) (source : List Char) : Prop :=
  ∃ gap text, Gap gap ∧ WrittenAll sentences text ∧ source = gap ++ text

end BnfTokenizer.Dialect
