import BnfTokenizer.CommandLine.Settings
import BnfTokenizer.Match.Basic
import BnfTokenizer.Match.Transcript

/-!
# Requests

A request is a command with what it needs, as the settings have it: where the grammar and the input
come from, how far a match may go and what is shown. A text given inline goes before a path.

The first path is the grammar's and the second the input's. Where a command reads an input and the grammar
is given inline, a single path is the input's.
-/

namespace BnfTokenizer.CommandLine

/-- What is to be done, and with what. -/
structure Request where
  command : Command
  grammarPath : Option String := none
  grammarText : Option String := none
  inputPath : Option String := none
  inputText : Option String := none
  spans : Bool := false
  json : Bool := false
  compact : Bool := false
  /-- How often more was asked to be shown. -/
  verbose : Nat := 0
  fuel : Nat := 100000000
  color : When := .auto
deriving DecidableEq, Repr

namespace Request

/-- The paths of the grammar and of the input. -/
def shiftPaths (hasGrammarText : Bool) (grammarPath inputPath : Option String) :
    Option String × Option String :=
  if hasGrammarText && grammarPath.isSome && inputPath.isNone then (none, grammarPath)
  else (grammarPath, inputPath)

/-- The request that a command with some settings makes. -/
def ofSettings (command : Command) (s : Settings) : Request :=
  let (grammarPath, inputPath) :=
    if command.readsInput then shiftPaths s.grammar.isSome s.paths[0]? s.paths[1]?
    else (s.paths[0]?, s.paths[1]?)
  { command, grammarPath, inputPath
    grammarText := s.grammar
    inputText := s.source
    spans := s.spans
    json := s.json
    compact := s.compact
    verbose := s.verbose
    fuel := s.fuel.getD 100000000
    color := s.color.getD .auto }

/-- How much of a trace is shown. -/
def verbosity (r : Request) : Match.Verbosity :=
  match r.verbose with
  | 0 => .brief
  | 1 => .verbose
  | _ => .veryVerbose

/-- How far the match may go. -/
def limits (r : Request) : Match.Limits :=
  { fuel := r.fuel }

end Request

end BnfTokenizer.CommandLine
