import BnfTokenizer.Dialect.Draft
import BnfTokenizer.Dialect.RuleTable
import BnfTokenizer.ParseTree.Cull
import BnfTokenizer.ParseTree.Query

/-!
# From a tree to a grammar

Lowering goes through the culled tree of a grammar text in four passes, in a fixed order, and edits the tree on
the way:

1. escapes: the marks are blanked and the characters behind them translated;
2. flattening: the wrappers of what follows in a statement make way for what they wrap;
3. tokens: each becomes a node of the grammar, which is kept at it as its payload;
4. sentences: the groups in each are folded, inner ones first, then its statement.

What the passes work on is gathered in one go before the first of them. A name of a rule becomes a placeholder;
linking comes later. A node that is not of the shape that a pass looks for is reported where it stands in the
text.
-/

namespace BnfTokenizer.Dialect

open ParseTree (Ref Order)

/-- A tree that is lowered, the grammar that comes of it, and the rules that it has so far. -/
structure Lowering where
  tree : ParseTree
  draft : Draft := {}
  rules : RuleTable := {}

/-- A shape that the passes do not expect, reported where it stands. -/
def malformed {α : Type} (t : ParseTree) (r : Ref) : Except CompileError α :=
  .error (.unexpectedAt (String.ofList t.source) (t.span r).start)

/-- The value, or else a report of where it is missing. -/
def expect {α : Type} (t : ParseTree) (r : Ref) : Option α → Except CompileError α
  | some a => .ok a
  | none => malformed t r

/-! ## Escapes -/

/-- The character that a letter behind an escape mark stands for, if it is not that letter. -/
def translated? : String → Option String
  | "n" => some "\n"
  | "t" => some "\t"
  | "r" => some "\r"
  | _ => none

/-- The mark of an escape blanked. -/
def blankMark (t : ParseTree) (sequence : Ref) : ParseTree :=
  match t.childByName sequence "escape" with
  | some mark => t.setValue mark ""
  | none => t

/-- The character of an escape translated. -/
def translateEscaped (t : ParseTree) (sequence : Ref) : ParseTree :=
  match t.childByName sequence "anyChar" with
  | none => t
  | some escaped =>
    match translated? (t.value escaped) with
    | some text => t.setValue escaped text
    | none => t

def resolveEscape (t : ParseTree) (sequence : Ref) : ParseTree :=
  translateEscaped (blankMark t sequence) sequence

/-! ## Flattening -/

/-- A wrapper and the wrapper in it spliced into what is around them. -/
def flatten (t : ParseTree) (opt : Ref) : ParseTree :=
  let unwrapped := match t.children opt with
    | first :: _ => t.lift first
    | [] => t
  unwrapped.lift opt

/-! ## Tokens -/

/-- The names of the nodes that a token can consist of. -/
def atomNames : List String :=
  ["string", "charset", "chargroup", "eof", "word"]

/-- The text of the child of a name, and none if it is missing. -/
def joinedChild (t : ParseTree) (r : Ref) (name : String) : String :=
  ((t.childByName r name).map fun c => t.joinLeaves c "").getD ""

/-- The first character of the child of a name. -/
def boundAt (t : ParseTree) (r : Ref) (name : String) : Option Char :=
  (t.childByName r name).bind fun c => (t.joinLeaves c "").toList.head?

/-- Does a child of this name stand here? -/
def hasChild (t : ParseTree) (r : Ref) (name : String) : Bool :=
  (t.childByName r name).isSome

/-- A range of characters as a node, if its bounds are in order. -/
def lowerRange (t : ParseTree) (d : Draft) (group : Ref) : Except CompileError (Draft × NodeId) :=
  match boundAt t group "rangeStart", boundAt t group "rangeEnd" with
  | some low, some high =>
    if low ≤ high then .ok (d.add (.charRange low high (hasChild t group "^")))
    else .error (.invalidRange low high)
  | _, _ => malformed t group

/-- What a token says without its marks, as a node. -/
def lowerAtom (t : ParseTree) (d : Draft) (atom : Ref) : Except CompileError (Draft × NodeId) :=
  match t.name atom with
  | some "string" => .ok (d.addLiteral (joinedChild t atom "strOpt"))
  | some "charset" => .ok (d.add (.oneOf (joinedChild t atom "setOpt") (hasChild t atom "^")))
  | some "chargroup" => lowerRange t d atom
  | some "eof" => .ok (d.add .endOfInput)
  | _ => .ok (d.placeholder (t.value atom))

/-- A node under the marks at a token or a group. -/
def applyMarks (t : ParseTree) (d : Draft) (id : NodeId) (site : Ref) : Draft × NodeId :=
  d.marked id ((t.childByName site "modifier").map t.value) (hasChild t site "!")

namespace Lowering

/-- A token becomes a node, which is kept at it. -/
def lowerToken (l : Lowering) (token : Ref) : Except CompileError Lowering :=
  match (l.tree.children token).find? fun c => (l.tree.name c).any atomNames.contains with
  | none => malformed l.tree token
  | some atom =>
    (lowerAtom l.tree l.draft atom).map fun (d, id) =>
      let (d, id) := applyMarks l.tree d id token
      { l with tree := l.tree.setPayload token id, draft := d }

/-! ## Sentences -/

/-- A statement becomes a node: alternatives between bars, each of them a sequence. The statements in the groups
of it make way for what they hold. -/
def fold (l : Lowering) (statement : Ref) : Except CompileError (Lowering × NodeId) :=
  let tree := l.tree.cull statement [⟨.named ["statement"], .lift⟩]
  let payloadOf (part : Ref) := expect tree part (tree.payload part)
  ((tree.splitChildren statement "|").mapM (List.mapM payloadOf)).map fun groups =>
    let (d, id) := l.draft.addAlternatives groups
    ({ l with tree := tree, draft := d }, id)

/-- A group becomes a node, which is kept at it. -/
def lowerGroup (l : Lowering) (group : Ref) : Except CompileError Lowering :=
  match l.tree.childByName group "statement" with
  | none => malformed l.tree group
  | some statement =>
    (l.fold statement).map fun (l, body) =>
      let (d, id) := applyMarks l.tree l.draft body group
      { l with tree := l.tree.setPayload group id, draft := d }

/-- The statement of a sentence becomes the body of its rule. -/
def lowerStatement (l : Lowering) (name : String) (statement : Ref) : Except CompileError Lowering :=
  match l.fold statement with
  | .error error => .error error
  | .ok (l, body) =>
    (l.rules.define name body).map fun rules => { l with draft := l.draft.calledAfter body name, rules := rules }

/-- The groups of a sentence are folded, and then its statement. -/
def lowerSentence (l : Lowering) (sentence : Ref) : Except CompileError Lowering :=
  match l.tree.childByName sentence "word" with
  | none => malformed l.tree sentence
  | some word =>
    let name := l.tree.value word
    match (l.tree.allByName sentence .leafFirst "nested").foldlM lowerGroup l with
    | .error error => .error error
    | .ok l =>
      match l.tree.childByName sentence "statement" with
      | none => malformed l.tree sentence
      | some statement => l.lowerStatement name statement

end Lowering

/-! ## All passes -/

/-- The names of the nodes that the passes work on. -/
def passTargets : List String :=
  ["escapeSequence", "statementOpt", "token", "sentence"]

/-- The grammar of a culled tree, and the rules in it. -/
def lower (t : ParseTree) : Except CompileError (Grammar × RuleTable) :=
  let targets := t.allByNames t.root .leafFirst passTargets
  let listed (name : String) : List Ref := (targets.lookup name).getD []
  let resolved := (listed "escapeSequence").foldl resolveEscape t
  let flat := (listed "statementOpt").foldl flatten resolved
  match (listed "token").foldlM Lowering.lowerToken { tree := flat } with
  | .error error => .error error
  | .ok l => ((listed "sentence").foldlM Lowering.lowerSentence l).map fun l => (l.draft.grammar, l.rules)

end BnfTokenizer.Dialect
