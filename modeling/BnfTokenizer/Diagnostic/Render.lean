import BnfTokenizer.Diagnostic.Basic
import BnfTokenizer.Diagnostic.Window

/-!
# Drawing a report

A drawing has a headline, on request the place with the name of the source, and an excerpt of the source
between line numbers. A span inside a line is underlined with carets, one for each column, and the label
follows on the same row as it is. The middle of a very wide span is folded up. A span over several lines
is drawn as a bracket at the left: it opens under the place where the span starts, or with a slash where
only blanks come before it, and closes under the last place of the span, where the label stands.

Of a long bracket only the beginning and the end are shown. Blank lines and lone brackets at the end of the
beginning are left out, a single line that would be left out is shown after all, and three dots stand for
more.

A span is never empty in a drawing: one that is takes the character that it stands before.
-/

namespace BnfTokenizer.Diagnostic

/-! ## What is marked -/

/-- A span between two places. -/
structure Marking where
  start : Place
  stop : Place
deriving DecidableEq, Repr

namespace Marking

/-- The places of a span; in one line, the second is at least a column behind the first. -/
def ofSpan (lines : List SourceLine) (start stop : Nat) : Marking :=
  let first := Place.ofStart lines start
  let last := if start = stop then first else Place.ofStop lines first stop
  if first.line = last.line && first.column = last.column then
    ⟨first, { last with column := last.column + 1 }⟩
  else
    ⟨first, last⟩

def isSingleLine (m : Marking) : Bool :=
  m.start.line == m.stop.line

/-- The column under which the end of a bracket is drawn. -/
def closingColumn (m : Marking) : Nat :=
  m.stop.column - 1

end Marking

/-! ## Which lines are shown -/

/-- A text without the blanks around it. -/
def trimmed (isBlank : Char → Bool) (text : List Char) : List Char :=
  ((text.dropWhile isBlank).reverse.dropWhile isBlank).reverse

/-- The characters that count as blank. -/
def isBlank (c : Char) : Bool :=
  inRanges
    [(9, 13), (32, 32), (0x85, 0x85), (0xa0, 0xa0), (0x1680, 0x1680), (0x2000, 0x200a), (0x2028, 0x2029),
      (0x202f, 0x202f), (0x205f, 0x205f), (0x3000, 0x3000)]
    c.toNat

/-- Is there more in a line than blanks, a lone bracket, or a comment? -/
def isTelling (text : List Char) : Bool :=
  let text := String.ofList (trimmed isBlank text)
  let isComment := text.startsWith "//" && !(text.startsWith "///" || text.startsWith "//!")
  !isComment && !(["", "\x7b", "\x7d", "(", ")", "[", "]"].contains text)

/-- The text of the line with a number. -/
def textOf? (lines : List SourceLine) (number : Nat) : Option (List Char) :=
  (lines.find? fun line => line.number == number).map SourceLine.text

/-- The numbers of the lines that are shown for a span over several lines. -/
def chosenLines (lines : List SourceLine) (first last : Nat) : List Nat :=
  let tells (number : Nat) : Bool := ((textOf? lines number).map isTelling).getD false
  let middle := min (first + 4) last
  let opening := (List.range' first (middle - first)).reverse.dropWhile fun n => !tells n
  let before := (opening.reverse.filter (first < ·))
  let isBlankEnd := ((textOf? lines (last - 1)).map fun text => !isTelling text).getD false
  let closing := if middle < last - 1 && !isBlankEnd then [last - 1, last] else [last]
  first :: before ++ closing

/-! ## Rows -/

/-- What the rows of an excerpt share. -/
structure Layout where
  lines : List SourceLine
  marking : Marking
  label : String
  /-- The width of the line numbers. -/
  numberWidth : Nat
  window : Window

def blanks (count : Nat) : List Char :=
  List.replicate count ' '

namespace Layout

/-- The column of the line beside the numbers. -/
def barColumn (l : Layout) : Nat :=
  l.numberWidth + 1

/-- The column of the bracket of a span over several lines. -/
def bracketColumn (l : Layout) : Nat :=
  l.numberWidth + 3

/-- The column at which the code starts. -/
def codeColumn (l : Layout) : Nat :=
  if l.marking.isSingleLine then l.numberWidth + 3 else l.numberWidth + 5

/-- The start of a row without a line number. -/
def margin (l : Layout) : Row :=
  Row.put [] l.barColumn .gutter ['|']

/-- A line of code behind its number, which is set to the right, and the column of the source at the left
end. -/
def numbered (l : Layout) (number : Nat) : Row × Nat :=
  let (row, left) := l.window.write [] l.codeColumn (shown ((textOf? l.lines number).getD []))
  let digits := (toString number).toList
  ((row.put 0 .gutter (blanks (l.numberWidth - digits.length) ++ digits)).put l.barColumn .gutter ['|'], left)

/-- A row with the label behind the mark that stops at the end of the span. -/
def labelled (l : Layout) (row : Row) (left : Nat) : Row :=
  row.put (l.codeColumn + (l.marking.closingColumn + 2 - left)) .mark l.label.toList

/-- The rows for a span inside a line. The middle of a span that is more than twice as wide as the code
may be is folded up in both rows. -/
def singleLine (l : Layout) : List Row :=
  let m := l.marking
  let (code, left) := l.numbered m.start.line
  let carets := List.replicate (m.stop.column - m.start.column) '^'
  let marks := (l.labelled l.margin left).put (l.codeColumn + m.start.column - left) .mark carets
  if 2 * l.window.width < carets.length then
    let kept := l.window.width / 3
    [code, marks].map fun row =>
      row.folded (l.codeColumn + m.start.column + kept - left) (l.codeColumn + m.stop.column - kept - left)
  else [code, marks]

/-- A line beside the bracket of a span over several lines. -/
def barred (l : Layout) (number : Nat) (bar : Char) : Row :=
  (l.numbered number).1.put l.bracketColumn .mark [bar]

/-- Does a span start behind nothing but blanks? -/
def opensLine (l : Layout) : Bool :=
  let text := shown ((textOf? l.lines l.marking.start.line).getD [])
  (text.take l.marking.start.column).all isBlank

/-- The rule from a bracket to the place under a column of the source, and how it starts. -/
def ruled (l : Layout) (corner : Char) (column left : Nat) : Row :=
  l.margin.put l.bracketColumn .mark (corner :: List.replicate (1 + column - left) '_' ++ ['^'])

/-- The rows for the line in which a bracket opens. -/
def opening (l : Layout) : List Row :=
  let m := l.marking
  if l.opensLine then [l.barred m.start.line '/']
  else
    let (code, left) := l.numbered m.start.line
    [code, l.ruled ' ' m.start.column left]

/-- The rows for the line in which a bracket closes. -/
def closing (l : Layout) : List Row :=
  let m := l.marking
  let left := (l.numbered m.stop.line).2
  [l.barred m.stop.line '|', l.labelled (l.ruled '|' m.closingColumn left) left]

/-- What stands between two lines that are shown: nothing, the line between them, or dots. -/
def between (l : Layout) (upper lower : Nat) : List Row :=
  if lower - upper = 2 then [l.barred (upper + 1) '|']
  else if 2 < lower - upper then [(Row.inked .gutter Row.dots).put l.bracketColumn .mark ['|']]
  else []

/-- The rows below a line that was shown. -/
def rowsBelow (l : Layout) (upper : Nat) : List Nat → List Row
  | [] => []
  | number :: numbers =>
    let own := if numbers.isEmpty then l.closing else [l.barred number '|']
    l.between upper number ++ own ++ l.rowsBelow number numbers

/-- The rows for a span over several lines. -/
def multiLine (l : Layout) : List Row :=
  let m := l.marking
  l.opening ++ l.rowsBelow m.start.line (chosenLines l.lines m.start.line m.stop.line).tail

/-- The rows for the span. -/
def rows (l : Layout) : List Row :=
  if l.marking.isSingleLine then l.singleLine else l.multiLine

end Layout

/-! ## The whole drawing -/

/-- The headline; further lines of the message are set under the first. -/
def headline (message : String) : List Row :=
  match (String.ofList (shown message.toList)).splitOn "\n" with
  | [] => []
  | first :: more =>
    (Row.inked .severity "error".toList ++ Row.inked .headline (": " ++ first).toList) ::
      more.map fun line => Row.inked .plain (blanks 7) ++ Row.inked .headline line.toList

/-- The number of columns of the blanks that a line starts with. -/
def indentationOf : List Char → Nat
  | [] => 0
  | c :: rest => if c = '\t' then indentationOf rest + 4 else if isBlank c then indentationOf rest + 1 else 0

/-- How far the lines that are shown and the marks reach. -/
def extentOf (texts : List (List Char)) (m : Marking) (label : String) (numberWidth : Nat) : Extent :=
  let worded := (texts.filter fun text => !text.all isBlank).map indentationOf
  let columns :=
    if m.isSingleLine then [m.start.column, m.stop.column]
    else [m.start.column, m.start.column + 1, m.closingColumn, m.stop.column]
  let labelRight := textWidth label.toList + 1
  let openingRight := if m.isSingleLine then 0 else m.start.column + 1
  let bracket := if m.isSingleLine then 0 else 2
  { indentation := worded.min?.getD 0
    left := columns.min?.getD 0
    right := columns.max?.getD 0
    labelRight := max openingRight (m.stop.column + labelRight)
    longest := ((texts.map textWidth).max?).getD 0
    width := excerptWidth - (3 + numberWidth + bracket) }

/-- The width of the line numbers, from the source up to where the span stops: that of the number of its
last line, where one that has not begun does not count. A number that is wider runs into the line beside
it. -/
def numberWidthOf (before : List Char) : Nat :=
  let endings := before.count '\n'
  let last := if before.getLast? = some '\n' then endings else endings + 1
  (toString last).length

/-- The rows that name a source and a position in it, if the source has a name. -/
def originRows (numberWidth : Nat) (position : String) : Option String → List Row
  | some path =>
    [Row.inked .plain (blanks numberWidth) ++ Row.inked .gutter "--> ".toList ++
      Row.inked .plain (path ++ position).toList]
  | none => []

namespace Report

/-- The span of a report as places in its source. -/
def marking (report : Report) : Marking :=
  .ofSpan (SourceLine.ofText report.source) report.start report.stop

/-- Where the span starts, as it is told behind the name of the source. -/
def position (report : Report) : String :=
  ":" ++ toString report.marking.start.line ++ ":" ++ toString (report.marking.start.character + 1)

/-- How the excerpt of a report is laid out. -/
def layout (report : Report) : Layout :=
  let lines := SourceLine.ofText report.source
  let marking := report.marking
  let numberWidth := numberWidthOf (Text.takeBytes report.stop report.source.toList)
  let numbers :=
    if marking.isSingleLine then [marking.start.line]
    else chosenLines lines marking.start.line marking.stop.line
  let texts := numbers.map fun number => (textOf? lines number).getD []
  { lines, marking, label := report.label, numberWidth
    window := Window.ofExtent (extentOf texts marking report.label numberWidth) }

/-- A report as it is drawn. -/
def draw (report : Report) (colored : Bool) : String :=
  let layout := report.layout
  let place := originRows layout.numberWidth report.position report.origin
  drawRows colored (headline report.title ++ place ++ [layout.margin] ++ layout.rows)

end Report

/-- A diagnostic drawn over its source, which may have a name. -/
def render (d : Diagnostic) (source : String) (path : Option String) (colored : Bool) : String :=
  (d.report source path).draw colored

end BnfTokenizer.Diagnostic
