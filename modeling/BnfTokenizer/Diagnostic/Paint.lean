/-!
# Painted rows

A row of a drawing is a list of cells, each a character in an ink. A text is put into a row from a column
on: what stood there is gone, and blanks fill a row that ends before. A stretch in the middle of a row can
be folded up behind three dots.

With colour, the cells of one ink that stand side by side are painted together: the ink is taken up before
them and laid down after them (`Row.flatten_runs` says that no cell is lost on the way). Without colour, a
row is its characters.
-/

namespace BnfTokenizer.Diagnostic

/-- What a cell of a row belongs to. -/
inductive Ink where
  | plain
  /-- The word for how bad it is. -/
  | severity
  | headline
  /-- Line numbers and the lines beside them. -/
  | gutter
  /-- What points into the source, and the label. -/
  | mark
deriving DecidableEq, Repr

/-- The control sequence that takes up an ink. -/
def Ink.code : Ink → String
  | plain => ""
  | severity | mark => "\x1b[1m\x1b[91m"
  | headline => "\x1b[1m"
  | gutter => "\x1b[1m\x1b[94m"

/-- A character in an ink. -/
structure Cell where
  ink : Ink
  char : Char
deriving DecidableEq, Repr

/-- A row of a drawing. -/
abbrev Row := List Cell

namespace Row

/-- A text in one ink. -/
def inked (ink : Ink) (text : List Char) : Row :=
  text.map (Cell.mk ink)

/-- A row without its inks. -/
def text (row : Row) : String :=
  String.ofList (row.map Cell.char)

/-- A row brought to at least some columns by blanks. -/
def padded (row : Row) (columns : Nat) : Row :=
  row ++ inked .plain (List.replicate (columns - row.length) ' ')

/-- A row with a text written over it from a column on. -/
def put (row : Row) (column : Nat) (ink : Ink) (text : List Char) : Row :=
  if text.isEmpty then row
  else (row.padded column).take column ++ inked ink text ++ row.drop (column + text.length)

/-- The sign for something left out. -/
def dots : List Char :=
  ['.', '.', '.']

/-- A row with the cells from `start` up to `stop` folded up, unless it ends before. -/
def folded (row : Row) (start stop : Nat) : Row :=
  if start = stop || row.length < start || row.length < stop then row
  else put (row.take start ++ row.drop (stop - dots.length)) start .gutter dots

/-- A row cut where the ink changes. -/
def runs : Row → List (Ink × List Char)
  | [] => []
  | cell :: row =>
    match runs row with
    | (ink, text) :: rest =>
      if cell.ink = ink then (ink, cell.char :: text) :: rest
      else (cell.ink, [cell.char]) :: (ink, text) :: rest
    | [] => [(cell.ink, [cell.char])]

/-- A row with its inks. -/
def painted (row : Row) : String :=
  String.join <| (runs row).map fun (ink, text) =>
    let text := String.ofList text
    if ink = .plain then text else ink.code ++ text ++ "\x1b[0m"

end Row

/-- Some rows as lines, the last one without an ending. -/
def drawRows (colored : Bool) (rows : List Row) : String :=
  String.intercalate "\n" <| rows.map fun row => if colored then Row.painted row else Row.text row

end BnfTokenizer.Diagnostic
