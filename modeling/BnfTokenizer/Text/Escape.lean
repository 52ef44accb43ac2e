import BnfTokenizer.Text.Position

/-!
# Text between quotes

`escape` spells a text the way it is written inside a double-quoted literal: quotes and backslashes
get a backslash, and newline, tab and carriage return their short names. Every other character stands
for itself, control characters included, so an escaped text holds no newline.

`describeAt` uses it to say in a few characters what stands at a place in a text.
-/

namespace BnfTokenizer.Text

/-- How one character is written inside a double-quoted literal. -/
def escapeChar : Char → List Char
  | '"' => ['\\', '"']
  | '\\' => ['\\', '\\']
  | '\n' => ['\\', 'n']
  | '\t' => ['\\', 't']
  | '\r' => ['\\', 'r']
  | c => [c]

/-- A text with the characters escaped that a double-quoted literal cannot hold as they are. -/
def escape (text : String) : String :=
  String.ofList (text.toList.flatMap escapeChar)

theorem toList_escape (text : String) : (escape text).toList = text.toList.flatMap escapeChar :=
  String.toList_ofList

/-- No character is written with a newline. -/
theorem newline_not_mem_escapeChar (c : Char) : '\n' ∉ escapeChar c := by
  unfold escapeChar
  split <;> simp_all [eq_comm]

/-- An escaped text stays on one line. -/
theorem newline_not_mem_escape (text : String) : '\n' ∉ (escape text).toList := by
  rw [toList_escape, List.mem_flatMap]
  rintro ⟨c, _, h⟩
  exact newline_not_mem_escapeChar c h

/-- A text as a double-quoted literal. -/
def quoted (text : String) : String :=
  "\"" ++ escape text ++ "\""

/-- What stands at a byte offset: the rest of its line, quoted and cut to `limit` characters, a lone
newline where the line is used up, or `end of input`. -/
def describeAt (source : String) (offset limit : Nat) : String :=
  match dropBytes offset source.toList with
  | [] => "end of input"
  | rest =>
    let line := match rest.takeWhile (· != '\n') with
      | [] => ['\n']
      | line => line
    let ellipsis := if limit < line.length then "..." else ""
    "\"" ++ escape (String.ofList (line.take limit)) ++ ellipsis ++ "\""

end BnfTokenizer.Text
