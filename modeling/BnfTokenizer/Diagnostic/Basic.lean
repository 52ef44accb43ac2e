import BnfTokenizer.Dialect.Error
import BnfTokenizer.Text.Position

/-!
# Diagnostics

A diagnostic is an error that points into a text: a message, the bytes that it is about, and a few words
to stand next to them. Here is which diagnostic belongs to which error, and what of a diagnostic is handed
on to be drawn. How that is drawn is the matter of a `Renderer`, and `Diagnostic.Render` has one.
-/

namespace BnfTokenizer

/-- An error about some bytes of a text. -/
structure Diagnostic where
  message : String
  start : Nat
  stop : Nat
  /-- The words next to the bytes. -/
  label : String
deriving DecidableEq, Repr

namespace Diagnostic

/-- A diagnostic with its message as the label. -/
def error (start stop : Nat) (message : String) : Diagnostic :=
  ⟨message, start, stop, message⟩

def withLabel (d : Diagnostic) (label : String) : Diagnostic :=
  { d with label }

/-- A diagnostic that points at a place where something else was found than was looked for. -/
def unexpected (message : String) (position : Nat) (found : String) : Diagnostic :=
  (error position position message).withLabel ("unexpected " ++ found)

/-! ## Reports -/

/-- The bytes that are marked: inside the source, and at least one character where there is one. -/
def markedSpan (d : Diagnostic) (source : String) : Nat × Nat :=
  let length := Text.byteLength source.toList
  let start := min d.start length
  if start < d.stop then (start, min d.stop length)
  else match Text.dropBytes start source.toList with
    | c :: _ => (start, start + c.utf8Size)
    | [] => (start, start)

/-- All that is told of a diagnostic: a title over an excerpt of a source, which may have a name, with a span
and its label. -/
structure Report where
  title : String
  source : String
  /-- The name of the source. -/
  origin : Option String
  start : Nat
  stop : Nat
  label : String
deriving DecidableEq, Repr

/-- The report of a diagnostic about a source. -/
def report (d : Diagnostic) (source : String) (origin : Option String) : Report :=
  { title := d.message, source, origin
    start := (d.markedSpan source).1
    stop := (d.markedSpan source).2
    label := d.label }

/-- A way to draw reports, coloured or not. -/
abbrev Renderer := Report → Bool → String

end Diagnostic

/-- Where an input could not be tokenized, and why. -/
def TokenizeError.diagnostic (error : TokenizeError) : Diagnostic :=
  match error with
  | .noMatch position found => .unexpected "input does not match the grammar" position found
  | .incomplete _ position found => .unexpected "input not fully consumed" position found
  | .stopped fault =>
    let position := error.position?.getD 0
    (Diagnostic.error position position fault.message).withLabel "matching stopped here"

/-- Where a grammar text is not in the dialect; the other errors point at no place in it. -/
def Dialect.CompileError.diagnostic? : Dialect.CompileError → Option Diagnostic
  | .unexpected _ _ position found => some (.unexpected "invalid grammar syntax" position found)
  | _ => none

end BnfTokenizer
