import BnfTokenizer.Text.Lines

/-!
# JSON text

A JSON value here is a text, a count, a list or a record; other values are not written by this library.
A record keeps its fields in order.

`compact` writes no space at all. `pretty` puts every item of a list and every field of a record on a
line of its own, two spaces further in, and a blank after the colon; an empty list or record stays on
one line. Texts are written alike in both: the quote, the backslash and the control characters below the
space are escaped, by their short names where they have one, and every other character stands for
itself.
-/

namespace BnfTokenizer

/-- A JSON value. -/
inductive Json where
  | text (value : String)
  | count (value : Nat)
  | list (items : List Json)
  | record (fields : List (String × Json))

namespace Json

/-- A hexadecimal digit, in lower case. -/
def hexDigit (n : Nat) : Char :=
  Nat.digitChar (n % 16)

/-- How one character is written in a JSON text. -/
def escapeChar (c : Char) : List Char :=
  match c with
  | '"' => ['\\', '"']
  | '\\' => ['\\', '\\']
  | '\n' => ['\\', 'n']
  | '\r' => ['\\', 'r']
  | '\t' => ['\\', 't']
  | '\x08' => ['\\', 'b']
  | '\x0c' => ['\\', 'f']
  | c =>
    if c.toNat < 32 then ['\\', 'u', '0', '0', hexDigit (c.toNat / 16), hexDigit c.toNat] else [c]

/-- A text between quotes. -/
def quoted (text : String) : String :=
  "\"" ++ String.ofList (text.toList.flatMap escapeChar) ++ "\""

mutual

/-- A value without any space. -/
def compact : Json → String
  | text value => quoted value
  | count value => toString value
  | list items => "[" ++ String.intercalate "," (compactItems items) ++ "]"
  | record fields => "\x7b" ++ String.intercalate "," (compactFields fields) ++ "\x7d"

def compactItems : List Json → List String
  | [] => []
  | item :: items => item.compact :: compactItems items

def compactFields : List (String × Json) → List String
  | [] => []
  | (key, value) :: fields => (quoted key ++ ":" ++ value.compact) :: compactFields fields

end

/-- Lines between brackets, one level further in; no lines leave the brackets together. -/
def block (opening closing : String) (level : Nat) : List String → String
  | [] => opening ++ closing
  | lines =>
    let inner := "\n" ++ Text.indent (level + 1)
    opening ++ inner ++ String.intercalate ("," ++ inner) lines ++ "\n" ++ Text.indent level ++ closing

mutual

/-- A value on lines of its own, inside `level` brackets. -/
def prettyAt (level : Nat) : Json → String
  | text value => quoted value
  | count value => toString value
  | list items => block "[" "]" level (prettyItems (level + 1) items)
  | record fields => block "\x7b" "\x7d" level (prettyFields (level + 1) fields)

def prettyItems (level : Nat) : List Json → List String
  | [] => []
  | item :: items => prettyAt level item :: prettyItems level items

def prettyFields (level : Nat) : List (String × Json) → List String
  | [] => []
  | (key, value) :: fields => (quoted key ++ ": " ++ prettyAt level value) :: prettyFields level fields

end

/-- A value on lines of its own. -/
def pretty (json : Json) : String :=
  json.prettyAt 0

end Json

end BnfTokenizer
