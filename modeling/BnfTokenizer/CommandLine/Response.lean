import BnfTokenizer.CommandLine.Load
import BnfTokenizer.CommandLine.Request
import BnfTokenizer.Diagnostic.Basic
import BnfTokenizer.Dialect.Compile
import BnfTokenizer.ParseTree.View
import BnfTokenizer.Grammar.Dump
import BnfTokenizer.ParseTree.Outline

/-!
# Carrying out a request

A run is a function from a request and its surroundings to what is written and the exit code. It loads the
grammar, then the input if the command reads one, then compiles; the first step that fails ends the run.
A limit that stops a match gives the code 2, every other failure 1.

Diagnostics are drawn by a `Diagnostic.Renderer`, whichever it is.
-/

namespace BnfTokenizer.CommandLine

/-- What a run writes, and how it ends. -/
structure Response where
  exitCode : Nat := 0
  output : String := ""
  errors : String := ""
deriving DecidableEq, Repr

namespace Response

/-- A run that ends with one line of complaint. -/
def complaint (exitCode : Nat) (line : String) : Response :=
  { exitCode, errors := line ++ "\n" }

end Response

/-- The exit code of a grammar that cannot be compiled. -/
def compileExitCode : Dialect.CompileError → Nat
  | .stopped _ => 2
  | _ => 1

/-- The exit code of an input that cannot be tokenized. -/
def tokenizeExitCode : TokenizeError → Nat
  | .stopped _ => 2
  | _ => 1

namespace Request

/-- Is the output of a request coloured? -/
def colored (r : Request) (world : Surroundings) : Bool :=
  r.color.resolve world.terminal

/-- The grammar of a request as a lexer, or how the run ends without one. -/
def compile (r : Request) (draw : Diagnostic.Renderer) (world : Surroundings) (source : GrammarSource) :
    Except Response Lexer :=
  (Dialect.compile {} source.text).mapError fun error =>
    .complaint (compileExitCode error) <|
      match error.diagnostic? with
      | some diagnostic => draw (diagnostic.report source.text source.origin) (r.colored world)
      | none => "error: " ++ error.message

/-- How a run ends whose input cannot be tokenized. -/
def tokenizeComplaint (r : Request) (draw : Diagnostic.Renderer) (world : Surroundings) (input : String)
    (error : TokenizeError) : Response :=
  .complaint (tokenizeExitCode error) <|
    draw (error.diagnostic.report input (r.inputPath.map originName)) (r.colored world)

/-- How a run ends that could not load a text. -/
def loadComplaint (error : LoadError) : Response :=
  .complaint 1 ("error: " ++ error.message)

/-- The lexer of a request that reads a grammar only. -/
def lexer (r : Request) (draw : Diagnostic.Renderer) (world : Surroundings) : Except Response Lexer := do
  let source ← (world.loadGrammar r.grammarPath r.grammarText).mapError loadComplaint
  r.compile draw world source

/-- The lexer and the input of a request that reads both. -/
def lexerAndInput (r : Request) (draw : Diagnostic.Renderer) (world : Surroundings) :
    Except Response (Lexer × String) := do
  let source ← (world.loadGrammar r.grammarPath r.grammarText).mapError loadComplaint
  let input ← (world.loadInput r.inputPath r.inputText r.grammarPath).mapError loadComplaint
  let lexer ← r.compile draw world source
  return (lexer.withLimits r.limits, input)

/-- A tree as it is printed. -/
def printed (r : Request) (world : Surroundings) (tree : ParseTree) : String :=
  if r.json then tree.json tree.root (!r.compact) ++ "\n"
  else tree.outline tree.root { spans := r.spans, palette := .ofBool (r.colored world) }

def runTokenize (r : Request) (draw : Diagnostic.Renderer) (world : Surroundings) :
    Except Response Response := do
  let (lexer, input) ← r.lexerAndInput draw world
  let tree ← (lexer.tokenize input).mapError (r.tokenizeComplaint draw world input)
  return { output := r.printed world tree }

def runTrace (r : Request) (draw : Diagnostic.Renderer) (world : Surroundings) :
    Except Response Response := do
  let (lexer, input) ← r.lexerAndInput draw world
  let style : Match.TranscriptStyle :=
    { source := input.toList
      grammar := lexer.grammar
      verbosity := r.verbosity
      palette := .ofBool (r.colored world) }
  let (result, transcript) := lexer.tokenizeTracing input (Match.Transcript.record style) {}
  let ending : Response := match result with
    | .ok _ => {}
    | .error (.stopped fault) => .complaint 2 ("runtime error: " ++ fault.message)
    | .error error => r.tokenizeComplaint draw world input error
  return { ending with
    output := String.join (transcript.lines.toList.map (· ++ "\n")) }

def runDump (r : Request) (draw : Diagnostic.Renderer) (world : Surroundings) :
    Except Response Response := do
  let lexer ← r.lexer draw world
  return { output := lexer.grammar.dump lexer.root }

def runCheck (r : Request) (draw : Diagnostic.Renderer) (world : Surroundings) :
    Except Response Response := do
  let _ ← r.lexer draw world
  return {}

/-- What comes of a request. -/
def run (r : Request) (draw : Diagnostic.Renderer) (world : Surroundings) : Response :=
  let result := match r.command with
    | .check => r.runCheck draw world
    | .tokenize => r.runTokenize draw world
    | .trace => r.runTrace draw world
    | .dump => r.runDump draw world
  match result with
  | .ok response => response
  | .error response => response

end Request

end BnfTokenizer.CommandLine
