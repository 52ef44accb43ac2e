import BnfTokenizer.Dialect.Lowering
import BnfTokenizer.Dialect.Parse
import BnfTokenizer.Text.Lines

/-!
# From grammar text to a lexer

The steps are fixed, and the first that fails decides: read the rules, give each its place in a grammar,
refuse circular aliases, find the root, link, check. The limits bound the reading of the text; the lexer
that comes out has the usual ones.
-/

namespace BnfTokenizer.Dialect

/-- A grammar and its rules as a lexer that starts from the root rule. -/
def assemble (g : Grammar) (table : RuleTable) : Except CompileError Lexer :=
  match table.checkAliases g with
  | .error error => .error error
  | .ok () =>
    match table.root g with
    | .error error => .error error
    | .ok root =>
      match table.link g root with
      | .error error => .error error
      | .ok linked => (Lexer.ofGrammar linked root).mapError .defective

/-- The lexer that a grammar text describes. -/
def compile (limits : Match.Limits) (source : String) : Except CompileError Lexer :=
  match parse limits source with
  | .error error => .error error
  | .ok tree =>
    match lower tree with
    | .error error => .error error
    | .ok (g, table) => assemble g table

/-- The lexer that a grammar file describes, from what reading the file gave. Line endings count as
newlines there. -/
def compileFile (path : String) : Except ReadFault String → Except CompileError Lexer
  | .error fault => .error (.unreadable path fault)
  | .ok text => compile {} (Text.normalizeLines text)

end BnfTokenizer.Dialect
