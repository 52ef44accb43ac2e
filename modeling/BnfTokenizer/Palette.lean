/-!
# Colours by role

Output is coloured by what a piece of text is, not by hue: a name, matched text, or structure that
should recede. `Palette.plain` is the palette of the empty strings, so printing without colour is
printing with that palette and not a second printer.
-/

namespace BnfTokenizer

/-- The control sequence that starts each role, and the one that ends all of them. -/
structure Palette where
  /-- Names of nodes and rules. -/
  name : String
  /-- Matched text and literals. -/
  text : String
  /-- Spans, structure and notes of a trace. -/
  dim : String
  reset : String
deriving DecidableEq, Repr

namespace Palette

/-- No colour. -/
def plain : Palette := ⟨"", "", "", ""⟩

/-- Blue names, green text, faint structure. -/
def ansi : Palette := ⟨"\x1b[34m", "\x1b[32m", "\x1b[2m", "\x1b[0m"⟩

def ofBool (colored : Bool) : Palette :=
  if colored then ansi else plain

end Palette

end BnfTokenizer
