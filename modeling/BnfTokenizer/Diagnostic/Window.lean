import BnfTokenizer.Diagnostic.Paint
import BnfTokenizer.Diagnostic.Source

/-!
# The part of long lines that is shown

An excerpt is at most 140 columns wide. Where a line is longer, all lines are cut to one window of
columns, laid so that what is marked stays in view: only blanks are cut at the left if that is enough,
then a window around the span and its label, then one around the span. Three dots stand at each cut.

A long indentation is cut even where the lines would fit. Blanks are never cut beyond the first mark.
-/

namespace BnfTokenizer.Diagnostic

/-- The columns of an excerpt. -/
def excerptWidth : Nat := 140

/-- What has to be known of the lines and the marks to lay a window. -/
structure Extent where
  /-- The least indentation of the lines that are not blank. -/
  indentation : Nat
  /-- The leftmost and the rightmost column of the marks, and the rightmost with the label. -/
  left : Nat
  right : Nat
  labelRight : Nat
  /-- The width of the longest line. -/
  longest : Nat
  /-- The columns that there are. -/
  width : Nat
deriving DecidableEq, Repr

/-- The columns of the source that are shown. -/
structure Window where
  left : Nat
  right : Nat
  width : Nat
deriving DecidableEq, Repr

namespace Window

/-- A window on these marks, with six columns left free around them. Only the indentation that no mark
reaches into can go without loss. -/
def ofExtent (e : Extent) : Window :=
  let indentation := min e.indentation e.left - 6
  let spanLeft := e.left - 6
  let spanRight := e.right + 6
  let labelRight := e.labelRight + 6
  let left := if 20 < indentation then indentation - 16 else 0
  let right := max e.longest left
  if right - left ≤ e.width then ⟨left, right, e.width⟩
  else if labelRight - indentation ≤ e.width then ⟨indentation, indentation + e.width, e.width⟩
  else if labelRight - spanLeft ≤ e.width then
    let left := spanLeft - (e.width - (labelRight - spanLeft)) / 2
    ⟨left, left + e.width, e.width⟩
  else if spanRight - spanLeft ≤ e.width then
    let left := spanLeft - (e.width - (spanRight - spanLeft)) / 5 * 2
    ⟨left, left + e.width, e.width⟩
  else ⟨spanLeft, spanRight, e.width⟩

/-- The characters from a column on, and the columns left out. A wide character is left out as a
whole. -/
def skipColumns (left skipped : Nat) : List Char → List Char × Nat
  | [] => ([], skipped)
  | c :: cs =>
    if skipped < left then skipColumns left (skipped + charWidth c) cs else (c :: cs, skipped)

/-- The characters that fit into some columns. -/
def fitColumns (columns taken : Nat) : List Char → List Char
  | [] => []
  | c :: cs =>
    let taken := taken + charWidth c
    if taken ≤ columns then c :: fitColumns columns taken cs else []

/-- The first characters that fill three columns: how many, and how wide they are. -/
def fillDots (count width : Nat) : List Char → Nat × Nat
  | [] => (count, width)
  | c :: cs =>
    let width := width + charWidth c
    if 3 ≤ width then (count + 1, width) else fillDots (count + 1) width cs

/-- A line written into a row from a column on, as far as it is shown, and the column of the source that
stands at its left end. -/
def write (w : Window) (row : Row) (column : Nat) (line : List Char) : Row × Nat :=
  let length := textWidth line
  let left := min w.left length
  let right := if length - w.left ≤ w.width then length else min length w.right
  let (rest, skipped) := skipColumns left 0 line
  let code := fitColumns (right - left) 0 rest
  let (covered, column, row) :=
    if 0 < w.left then
      let (count, width) := fillDots 0 0 code
      (count, column + width, row.put column .gutter Row.dots)
    else (0, column, row)
  let row := row.put column .plain (code.drop covered)
  let row :=
    if right < length then
      row.put (column + (code.length - covered) - (fillDots 0 0 code.reverse).1) .gutter Row.dots
    else row
  (row, max left skipped)

end Window

end BnfTokenizer.Diagnostic
