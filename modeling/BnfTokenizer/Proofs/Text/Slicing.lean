import BnfTokenizer.Diagnostic.Basic
import BnfTokenizer.Proofs.Match.Coverage

/-!
# Slices that exist

`Text.slice` gives something for any two offsets. A text that is cut for real has to be cut at boundaries, in order,
and inside: `slice?` asks for that, and is nothing otherwise. `lineCol`, `describeAt` and `Diagnostic.markedSpan` are
given once more as steps that only cut by `slice?`, each at the offsets that it works out first.

The first two never miss a slice, whatever the offset, since they round it down before they cut, and what they give is
what the definitions without steps give (`lineCol?_eq`, `describeAt?_eq`). A diagnostic cuts at its own start, so it
needs that start to be a boundary, and then what it marks is in order and inside (`markedSpan?_eq`).
-/

namespace BnfTokenizer

namespace Text

/-- The text between two offsets, if they are boundaries and stand in order. -/
def slice? (cs : List Char) (start stop : Nat) : Option (List Char) :=
  if start ≤ stop ∧ isBoundary cs start = true ∧ isBoundary cs stop = true then some (slice cs start stop) else none

section

variable {cs : List Char} {start stop : Nat}

theorem slice?_eq (ordered : start ≤ stop) (first : isBoundary cs start = true) (last : isBoundary cs stop = true) :
    slice? cs start stop = some (slice cs start stop) :=
  if_pos ⟨ordered, first, last⟩

theorem isBoundary_byteLength (before after : List Char) :
    isBoundary (before ++ after) (byteLength before) = true :=
  (isBoundary_iff ..).mpr ⟨before, after, rfl, rfl⟩

theorem isBoundary_zero (cs : List Char) : isBoundary cs 0 = true :=
  isBoundary_byteLength [] cs

/-- A slice that exists is a text between two others. -/
theorem slice?_append (before between after : List Char) :
    slice? (before ++ (between ++ after)) (byteLength before) (byteLength before + byteLength between) =
      some between := by
  have last : isBoundary (before ++ (between ++ after)) (byteLength before + byteLength between) = true := by
    rw [← byteLength_append, ← List.append_assoc]
    exact isBoundary_byteLength ..
  rw [slice?_eq (Nat.le_add_right ..) (isBoundary_byteLength ..) last, slice_byteLength_append]

theorem slice?_prefix (before after : List Char) :
    slice? (before ++ after) 0 (byteLength before) = some before := by
  have whole := slice?_append [] before after
  rwa [List.nil_append, byteLength, Nat.zero_add] at whole

theorem slice?_suffix (before after : List Char) :
    slice? (before ++ after) (byteLength before) (byteLength (before ++ after)) = some after := by
  have whole := slice?_append before after []
  rwa [List.append_nil, ← byteLength_append] at whole

/-- The text before the boundary that an offset is rounded down to. -/
theorem slice?_floorBoundary (cs : List Char) (n : Nat) :
    slice? cs 0 (floorBoundary cs n) = some (takeBytes n cs) := by
  have cut := slice?_prefix (takeBytes n cs) (dropBytes n cs)
  rwa [takeBytes_append_dropBytes] at cut

/-- The text behind the boundary that an offset is rounded down to. -/
theorem slice?_of_floorBoundary (cs : List Char) (n : Nat) :
    slice? cs (floorBoundary cs n) (byteLength cs) = some (dropBytes n cs) := by
  have cut := slice?_suffix (takeBytes n cs) (dropBytes n cs)
  rwa [takeBytes_append_dropBytes] at cut

end

/-! ## Lines and columns, step by step -/

/-- The offset behind the last newline, or of the beginning. -/
def lineStart (cs : List Char) : Nat :=
  byteLength (cs.reverse.dropWhile (· != '\n')).reverse

/-- The line and column of an offset: the text before it is cut off, and of that the last line. -/
def lineCol? (source : String) (offset : Nat) : Option LineCol :=
  let cs := source.toList
  (slice? cs 0 (floorBoundary cs offset)).bind fun before =>
    (slice? before (lineStart before) (byteLength before)).map fun line =>
      ⟨before.count '\n' + 1, line.length + 1⟩

theorem lineStart_parts (cs : List Char) :
    (cs.reverse.dropWhile (· != '\n')).reverse ++ lastLine cs = cs := by
  rw [lastLine, ← List.reverse_append, List.takeWhile_append_dropWhile, List.reverse_reverse]

theorem slice?_lineStart (cs : List Char) : slice? cs (lineStart cs) (byteLength cs) = some (lastLine cs) := by
  have cut := slice?_suffix (cs.reverse.dropWhile (· != '\n')).reverse (lastLine cs)
  rwa [lineStart_parts] at cut

/-- **Every offset has a line and a column**, inside a character and behind the end too. -/
theorem lineCol?_eq (source : String) (offset : Nat) : lineCol? source offset = some (lineCol source offset) := by
  rw [lineCol?, slice?_floorBoundary, Option.bind_some, slice?_lineStart]
  rfl

/-! ## What stands at an offset, step by step -/

/-- What stands at an offset: the text behind it is cut off, and described from its beginning. -/
def describeAt? (source : String) (offset limit : Nat) : Option String :=
  let cs := source.toList
  (slice? cs (floorBoundary cs offset) (byteLength cs)).map fun rest => describeAt (String.ofList rest) 0 limit

/-- **Every offset can be described.** -/
theorem describeAt?_eq (source : String) (offset limit : Nat) :
    describeAt? source offset limit = some (describeAt source offset limit) := by
  rw [describeAt?, slice?_of_floorBoundary, Option.map_some, describeAt, describeAt, String.toList_ofList,
    dropBytes_zero]

end Text

/-! ## What a diagnostic marks, step by step -/

namespace Diagnostic

/-- The bytes that are marked: for a span that is empty, the text behind its start is cut off for its first
character. -/
def markedSpan? (d : Diagnostic) (source : String) : Option (Nat × Nat) :=
  let cs := source.toList
  let length := Text.byteLength cs
  let start := min d.start length
  if start < d.stop then some (start, min d.stop length)
  else (Text.slice? cs start length).map fun rest => (start, start + (rest.head?.map Char.utf8Size).getD 0)

variable {d : Diagnostic} {source : String}

/-- **A diagnostic that starts at a boundary can be drawn.** -/
theorem markedSpan?_eq (starts : Text.isBoundary source.toList d.start = true) :
    d.markedSpan? source = some (d.markedSpan source) := by
  have inside := Nat.min_eq_left (Text.le_byteLength_of_isBoundary starts)
  unfold markedSpan? markedSpan
  dsimp only
  rw [inside]
  split
  · rfl
  · obtain ⟨before, after, parts, length⟩ := (Text.isBoundary_iff ..).mp starts
    rw [← length, parts, Text.slice?_suffix, Text.dropBytes_byteLength_append]
    cases after <;> rfl

/-- What is marked is in order and inside the source. -/
theorem markedSpan_le (starts : Text.isBoundary source.toList d.start = true) :
    (d.markedSpan source).1 ≤ (d.markedSpan source).2 ∧
      (d.markedSpan source).2 ≤ Text.byteLength source.toList := by
  have within := Text.le_byteLength_of_isBoundary starts
  unfold markedSpan
  dsimp only
  rw [Nat.min_eq_left within]
  split
  · next some => exact ⟨by omega, Nat.min_le_right ..⟩
  · obtain ⟨before, after, parts, length⟩ := (Text.isBoundary_iff ..).mp starts
    rw [← length, parts, Text.dropBytes_byteLength_append, Text.byteLength_append]
    cases after with
    | nil => exact ⟨Nat.le_refl _, Nat.le_add_right ..⟩
    | cons c rest => exact ⟨Nat.le_add_right .., Nat.add_le_add_left (Nat.le_add_right ..) _⟩

end Diagnostic

end BnfTokenizer
