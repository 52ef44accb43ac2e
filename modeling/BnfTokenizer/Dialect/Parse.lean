import BnfTokenizer.Dialect.Error
import BnfTokenizer.Dialect.Symbols
import BnfTokenizer.ParseTree.Cull

/-!
# From grammar text to a tree

A text is matched with the dialect's grammar, and the tree is culled down to what carries meaning: what
matched nothing goes, scaffolding and layout go, and wrappers make way for their children.
-/

namespace BnfTokenizer.Dialect

open ParseTree (Filter)

/-- What the culled tree of a grammar text leaves out. -/
def cullFilters : List Filter :=
  [.removeEmpty,
    ⟨.unnamed, .delete⟩,
    ⟨.named ["whitespace", "::=", "comment"], .delete⟩,
    ⟨.named ["modifiers", "statementList"], .lift⟩]

/-- What went wrong with a grammar text that the dialect's lexer refused. -/
def ofTokenizeError (source : String) : TokenizeError → CompileError
  | .noMatch position _ => .unexpectedAt source position
  | .incomplete _ position _ => .unexpectedAt source position
  | .stopped fault => .stopped fault

/-- The culled tree of a grammar text. -/
def parse (limits : Match.Limits) (source : String) : Except CompileError ParseTree :=
  match (lexer.withLimits limits).tokenize source with
  | .ok tree => .ok (tree.cull tree.root cullFilters)
  | .error error => .error (ofTokenizeError source error)

end BnfTokenizer.Dialect
