import BnfTokenizer.Diagnostic.Width
import BnfTokenizer.Text.Position

/-!
# Places in the lines of a source

An excerpt speaks of a source by numbered lines. `SourceLine.ofText` cuts a text into them, each with the
bytes that it covers, its ending included; a newline ends a line, alone or behind a carriage return, and
an empty text is one empty line.

A `Place` is a byte offset seen from its line: the line's number, the characters before it and the columns
that these are drawn in. An offset behind the last line counts as a place in the last line.
-/

namespace BnfTokenizer.Diagnostic

/-- A line of a source. -/
structure SourceLine where
  number : Nat
  text : List Char
  /-- The offset of its first byte. -/
  start : Nat
  /-- The number of bytes of its ending. -/
  ending : Nat
deriving DecidableEq, Repr

namespace SourceLine

/-- The offset behind the text. -/
def textStop (line : SourceLine) : Nat :=
  line.start + Text.byteLength line.text

/-- The offset behind the ending. -/
def stop (line : SourceLine) : Nat :=
  line.textStop + line.ending

/-- The line with this text; a carriage return before the newline belongs to the ending. -/
def ofEnded (number start : Nat) (text : List Char) : SourceLine :=
  if text.getLast? = some '\r' then ⟨number, text.dropLast, start, 2⟩ else ⟨number, text, start, 1⟩

/-- The lines from a number and an offset on; `read` holds what was read of the current one, last
character first. -/
def linesFrom (number start : Nat) (read : List Char) : List Char → List SourceLine
  | [] => if read.isEmpty then [] else [⟨number, read.reverse, start, 0⟩]
  | '\n' :: cs =>
    let line := ofEnded number start read.reverse
    line :: linesFrom (number + 1) line.stop [] cs
  | c :: cs => linesFrom number start (c :: read) cs

/-- The lines of a text; there is at least one. -/
def ofText (source : String) : List SourceLine :=
  match linesFrom 1 0 [] source.toList with
  | [] => [⟨1, [], 0, 0⟩]
  | lines => lines

end SourceLine

/-- A byte offset as a place in a line. -/
structure Place where
  line : Nat
  /-- The number of characters before it. -/
  character : Nat
  /-- The number of columns before it. -/
  column : Nat
deriving DecidableEq, Repr

namespace Place

/-- The line that an offset lies in, or the last. -/
def lineAt (lines : List SourceLine) (offset : Nat) : SourceLine :=
  match lines.find? fun line => line.start ≤ offset && offset < line.stop with
  | some line => line
  | none => lines.getLastD ⟨1, [], 0, 0⟩

/-- An offset as the place where a span starts. Behind the text of its line, it counts as one character
more. -/
def ofStart (lines : List SourceLine) (offset : Nat) : Place :=
  let line := lineAt lines offset
  let before := Text.takeBytes (offset - line.start) line.text
  let beyond := if line.textStop < offset then 1 else 0
  ⟨line.number, before.length + beyond, textWidth before⟩

/-- An offset as the place where a span stops that starts at another place. Behind the text of a line
below, it counts as one column more. -/
def ofStop (lines : List SourceLine) (start : Place) (offset : Nat) : Place :=
  let line := lineAt lines offset
  let before := Text.takeBytes (offset - line.start) line.text
  let beyond := if line.number ≠ start.line && line.textStop < offset then 1 else 0
  ⟨line.number, before.length + beyond, textWidth before + beyond⟩

end Place

end BnfTokenizer.Diagnostic
