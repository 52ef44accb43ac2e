import BnfTokenizer.Files
import BnfTokenizer.Lexer

/-!
# Why a grammar text is refused

The causes come in the order of the steps that find them: the file, the text as such, a single range, the
names of the rules, the aliases among them, and last the finished grammar. The first step that finds
something decides.
-/

namespace BnfTokenizer.Dialect

/-- Why no lexer could be made from a grammar text. -/
inductive CompileError where
  /-- The file cannot be read. -/
  | unreadable (path : String) (fault : ReadFault)
  /-- The text is not in the dialect. -/
  | unexpected (line column position : Nat) (found : String)
  /-- Reading the text ran into a limit. -/
  | stopped (fault : Match.Fault)
  /-- A range whose first bound comes after its second. -/
  | invalidRange (first last : Char)
  | duplicateRule (name : String)
  /-- Rules that only stand for each other. -/
  | circularReference (chain : List String)
  | missingRoot
  | undefinedRule (name referencedFrom : String)
  /-- The rules make a grammar on which matching need not end. -/
  | defective (defect : Grammar.Defect)
deriving DecidableEq, Repr

namespace CompileError

def message : CompileError → String
  | unreadable path fault => "failed to read " ++ path ++ ": " ++ fault.message
  | unexpected line column _ found =>
    "syntax error at " ++ toString line ++ ":" ++ toString column ++ ": unexpected " ++ found
  | stopped fault => "grammar could not be parsed: " ++ fault.message
  | invalidRange first last =>
    "invalid range: `" ++ first.toString ++ "` is after `" ++ last.toString ++ "`"
  | duplicateRule name => "rule `" ++ name ++ "` is defined more than once"
  | circularReference chain => "circular reference: " ++ String.intercalate " -> " chain
  | missingRoot => "grammar has no `root` rule"
  | undefinedRule name referencedFrom =>
    "undefined rule `" ++ name ++ "` referenced from `" ++ referencedFrom ++ "`"
  | defective defect => defect.message

/-- The text is not in the dialect, and this offset is where that shows. -/
def unexpectedAt (source : String) (position : Nat) : CompileError :=
  let place := Text.lineCol source position
  .unexpected place.line place.column position
    (Text.describeAt source position Lexer.contextLength)

end CompileError

end BnfTokenizer.Dialect
