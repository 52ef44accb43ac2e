import BnfTokenizer.Files
import BnfTokenizer.Text.Lines

/-!
# Where texts come from

A grammar and an input are each given inline, in a file, or on the standard input, which is the path `-`.
The standard input can be read once. Loading tells nothing of what a text is for: a grammar gets its line
endings normalized, an input is taken as it stands, and a grammar remembers where it came from.
-/

namespace BnfTokenizer.CommandLine

/-- What a run can read, and whether people watch it. -/
structure Surroundings where
  standardInput : Except ReadFault String
  fileAt : String → Except ReadFault String
  terminal : Bool := false

/-- Why there is no grammar or no input. -/
inductive LoadError where
  | missingGrammar
  | missingInput
  | standardInputTwice
  | unreadable (path : String) (fault : ReadFault)
deriving DecidableEq, Repr

def LoadError.message : LoadError → String
  | missingGrammar => "grammar is required: use a positional argument or -g/--grammar"
  | missingInput => "input is required: use a positional argument or -s/--source"
  | standardInputTwice => "grammar and input cannot both be read from stdin"
  | unreadable path fault => "failed to read '" ++ path ++ "': " ++ fault.message

/-- The path of the standard input. -/
def isStandardInput (path : String) : Bool :=
  path == "-"

/-- What a path is called in messages about the text that was read there. -/
def originName (path : String) : String :=
  if isStandardInput path then "<stdin>" else path

/-- A grammar text, and where it was read. -/
structure GrammarSource where
  text : String
  origin : Option String
deriving DecidableEq, Repr

namespace Surroundings

/-- The text at a path. -/
def read (world : Surroundings) (path : String) : Except LoadError String :=
  (if isStandardInput path then world.standardInput else world.fileAt path).mapError
    (.unreadable (originName path))

/-- The grammar that was given inline or by a path. -/
def loadGrammar (world : Surroundings) (path text : Option String) :
    Except LoadError GrammarSource :=
  match text, path with
  | some text, _ => .ok ⟨Text.normalizeLines text, none⟩
  | none, none => .error .missingGrammar
  | none, some path =>
    (world.read path).map fun text => ⟨Text.normalizeLines text, some (originName path)⟩

/-- The input that was given inline or by a path. A path to the standard input is refused where the path
of the grammar leads there too. -/
def loadInput (world : Surroundings) (path text grammarPath : Option String) :
    Except LoadError String :=
  match text, path with
  | some text, _ => .ok text
  | none, none => .error .missingInput
  | none, some path =>
    if isStandardInput path && grammarPath.any isStandardInput then .error .standardInputTwice
    else world.read path

end Surroundings

end BnfTokenizer.CommandLine
