import BnfTokenizer.Match.Event
import BnfTokenizer.Palette
import BnfTokenizer.Text.Escape
import BnfTokenizer.Text.Lines

/-!
# A match as indented lines

A transcript has one line for each node that is shown, in the order in which the nodes were entered. The
line is begun when the node is entered and finished with the outcome when the node is left, which may be
many lines later. A match that is stopped leaves the lines of the nodes that were still open unfinished.

How much is shown is a matter of `Verbosity`: nodes with a name only; every node, with what it matched
and where a choice went on; or also the text that lies ahead at each step.
-/

namespace BnfTokenizer.Match

/-- How much of a match is shown. -/
inductive Verbosity where
  /-- Nodes with a name. -/
  | brief
  /-- Every node with the text it matched, and every step of a choice to its next alternative. -/
  | verbose
  /-- Besides, the text ahead where a node is entered. -/
  | veryVerbose
deriving DecidableEq, Repr

/-- What a transcript is written about, and how. -/
structure TranscriptStyle where
  source : List Char
  grammar : Grammar
  verbosity : Verbosity := .brief
  palette : Palette := .plain

/-- The lines so far, and for each open node, innermost first, the place of its line if it has one. -/
structure Transcript where
  lines : Array String := #[]
  unfinished : List (Option Nat) := []
deriving DecidableEq, Repr

namespace TranscriptStyle

/-- Is there a line for this node? -/
def shows (s : TranscriptStyle) (id : NodeId) : Bool :=
  s.verbosity != .brief || (s.grammar.name id).isSome

/-- What a node is called: its name, or its text if it is a literal, or its kind. -/
def label (s : TranscriptStyle) (id : NodeId) : String :=
  let p := s.palette
  match s.grammar.name id, s.grammar.kind id with
  | some name, _ => p.name ++ name ++ p.reset
  | none, .literal text => p.text ++ Text.quoted (String.ofList text) ++ p.reset
  | none, kind => p.dim ++ kind.label ++ p.reset

/-- A piece of the source, no longer than 40 characters. -/
def excerpt (s : TranscriptStyle) (piece : List Char) : String :=
  " " ++ s.palette.text ++ Text.quoted (String.ofList (piece.take 40)) ++ s.palette.reset

/-- The source between two offsets. -/
def matchedText (s : TranscriptStyle) (start stop : Nat) : String :=
  s.excerpt (Text.slice s.source start stop)

/-- The next twelve characters of the source. -/
def textAhead (s : TranscriptStyle) (position : Nat) : String :=
  " " ++ s.palette.dim ++ "»" ++ s.palette.reset ++
    s.excerpt ((Text.dropBytes position s.source).take 12)

end TranscriptStyle

namespace Transcript

/-- The blanks before a new line: two for each open node that has a line. -/
def margin (t : Transcript) : String :=
  Text.indent (t.unfinished.countP Option.isSome)

/-- The innermost open node is left, with this at the end of its line. -/
def finish (t : Transcript) (suffix : String) : Transcript :=
  match t.unfinished with
  | some place :: outer => ⟨t.lines.modify place (· ++ suffix), outer⟩
  | none :: outer => ⟨t.lines, outer⟩
  | [] => t

/-- One event written down. -/
def record (s : TranscriptStyle) : Tracer Transcript
  | .enter id position, t =>
    if s.shows id then
      let ahead := if s.verbosity = .veryVerbose then s.textAhead position else ""
      let line := t.margin ++ s.label id ++ " @" ++ toString position ++ ahead
      let place := t.lines.size
      ⟨t.lines.push line, some place :: t.unfinished⟩
    else
      ⟨t.lines, none :: t.unfinished⟩
  | .success _ start stop, t =>
    let text :=
      if s.verbosity != .brief && start < stop then s.matchedText start stop else ""
    t.finish (" -> " ++ toString stop ++ text)
  | .failure _ _, t => t.finish (" " ++ s.palette.dim ++ "failed" ++ s.palette.reset)
  | .backtrack choice position, t =>
    if s.verbosity = .brief then t
    else
      let line := t.margin ++ s.palette.dim ++ "backtrack " ++ s.label choice ++ " @" ++
        toString position ++ s.palette.reset
      ⟨t.lines.push line, t.unfinished⟩

end Transcript

end BnfTokenizer.Match
