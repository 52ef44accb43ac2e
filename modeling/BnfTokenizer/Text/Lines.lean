/-!
# Lines

`normalizeLines` gives a text one kind of line ending. A line ends at a newline, and a carriage
return just before that newline belongs to the ending; the lines are joined again by newlines, and the
ending of the last line is dropped. A carriage return anywhere else is part of its line.
-/

namespace BnfTokenizer.Text

/-- A line without the carriage return of its ending. -/
def dropReturn (line : List Char) : List Char :=
  match line.getLast? with
  | some '\r' => line.dropLast
  | _ => line

/-- The lines of a text; `line` holds what was read of the current one, last character first. -/
def linesFrom (line : List Char) : List Char → List (List Char)
  | [] => if line.isEmpty then [] else [line.reverse]
  | '\n' :: cs => dropReturn line.reverse :: linesFrom [] cs
  | c :: cs => linesFrom (c :: line) cs

/-- The lines of a text, without their endings. A text that ends in a newline has no line after it. -/
def lines (text : String) : List String :=
  (linesFrom [] text.toList).map String.ofList

/-- A text with every line ending written as one newline, and none after the last line. -/
def normalizeLines (text : String) : String :=
  String.intercalate "\n" (lines text)

/-- The blanks before a line that stands some levels in, two for each level. -/
def indent (level : Nat) : String :=
  String.ofList (List.replicate (2 * level) ' ')

end BnfTokenizer.Text
