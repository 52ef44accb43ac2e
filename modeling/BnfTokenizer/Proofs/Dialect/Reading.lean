import BnfTokenizer.Dialect.Lowering
import BnfTokenizer.Dialect.Parse
import BnfTokenizer.ParseTree.View
import BnfTokenizer.Proofs.Dialect.Expression

/-!
# What a grammar text says

The rules in a culled tree, told without passes and without edits: a statement is read from left to right as a
row of expressions and bars, the wrappers in it are looked through, and a row is folded where it ends. A
repetition mark binds tighter than the `!` in front, and `*` is an optional repetition.

Reading looks at the tree only; it is what lowering has to come to. It takes any tree: a child of a statement that is
none of its known parts stands for nothing in a row.
-/

namespace BnfTokenizer.Dialect

open ParseTree (View)

/-! ## Texts and characters -/

/-- The character that an escaped one stands for. -/
def unescaped : String → String
  | "n" => "\n"
  | "t" => "\t"
  | "r" => "\r"
  | text => text

mutual

/-- The text that a body spells: the values of its leaves, with escapes resolved. -/
def spelled : View → String
  | .node name value _ children =>
    if name = some "escape" then ""
    else if name = some "anyChar" then unescaped value
    else match children with
      | [] => value
      | children => String.join (listSpelled children)

def listSpelled : List View → List String
  | [] => []
  | v :: vs => spelled v :: listSpelled vs

end

/-- The text that the child of a name spells, and none if it is missing. -/
def spelledChild (v : View) (name : String) : String :=
  ((v.childByName name).map spelled).getD ""

/-- The first character that the child of a name spells. -/
def boundOf (v : View) (name : String) : Option Char :=
  (spelledChild v name).toList.head?

/-! ## Tokens -/

/-- Does a child of this name stand here? -/
def hasMark (v : View) (name : String) : Bool :=
  (v.childByName name).isSome

/-- An expression under the marks written around it. -/
def withMarks (v : View) (inner : Expression) : Expression :=
  let inner := match (v.childByName "modifier").map View.value with
    | some "+" => .repetition inner
    | some "*" => .optional (.repetition inner)
    | some "?" => .optional inner
    | _ => inner
  if hasMark v "!" then .negation inner else inner

/-- A shape that the dialect does not have, reported where it stands. -/
def misshapen {α : Type} (source : String) (v : View) : Except CompileError α :=
  .error (.unexpectedAt source v.span.start)

/-- What a token says without its marks. -/
def readAtom (source : String) (atom : View) : Except CompileError Expression :=
  match atom.name with
  | some "string" => .ok (.literal (spelledChild atom "strOpt"))
  | some "charset" => .ok (.charSet (spelledChild atom "setOpt") (hasMark atom "^"))
  | some "chargroup" =>
    match boundOf atom "rangeStart", boundOf atom "rangeEnd" with
    | some low, some high =>
      if low ≤ high then .ok (.charRange low high (hasMark atom "^"))
      else .error (.invalidRange low high)
    | _, _ => misshapen source atom
  | some "eof" => .ok .endOfInput
  | _ => .ok (.rule atom.value)

/-- What a token says. -/
def readToken (source : String) (token : View) : Except CompileError Expression :=
  match token.children.find? fun c => c.name.any atomNames.contains with
  | some atom => (readAtom source atom).map (withMarks token)
  | none => misshapen source token

/-! ## Statements -/

/-- One thing in a row of expressions and bars. -/
inductive Item where
  | expression (e : Expression)
  | bar

namespace Item

def isBar : Item → Bool
  | bar => true
  | expression _ => false

def expression? : Item → Option Expression
  | expression e => some e
  | bar => none

/-- A row as one expression: alternatives between bars, each of them a sequence. -/
def fold (items : List Item) : Expression :=
  .ofAlternatives <|
    (ParseTree.splitOn isBar items).map fun group => .ofParts (group.filterMap expression?)

end Item

mutual

/-- The row that a part of a statement stands for. -/
def readItems (source : String) : View → Except CompileError (List Item)
  | .node name value span children =>
    let self := View.node name value span children
    match name with
    | some "token" => (readToken source self).map fun e => [.expression e]
    | some "nested" =>
      if hasMark self "statement" then
        (listReadItems source children).map fun items =>
          [.expression (withMarks self (Item.fold items))]
      else
        misshapen source self
    | some "|" => .ok [.bar]
    | some "statement" | some "statementOpt" | some "pipeOpt" | some "spaceOpt" =>
      listReadItems source children
    | _ => .ok []

def listReadItems (source : String) : List View → Except CompileError (List Item)
  | [] => .ok []
  | v :: vs =>
    match readItems source v with
    | .error error => .error error
    | .ok items => (listReadItems source vs).map (items ++ ·)

end

/-! ## Rules -/

/-- The rule that a sentence states. -/
def readSentence (source : String) (sentence : View) : Except CompileError Rule :=
  match sentence.childByName "word", sentence.childByName "statement" with
  | some word, some statement =>
    (readItems source statement).map fun items => ⟨word.value, Item.fold items⟩
  | _, _ => misshapen source sentence

/-- The rules that a culled tree states, in order. -/
def readRules (source : String) (grammar : View) : Except CompileError (List Rule) :=
  (grammar.children.filter fun c => c.name == some "sentence").mapM (readSentence source)

/-- The rules that the tree of a grammar text states, in order. -/
def rulesOf (tree : ParseTree) : Except CompileError (List Rule) :=
  readRules (String.ofList tree.source) (tree.view tree.root)

end BnfTokenizer.Dialect
