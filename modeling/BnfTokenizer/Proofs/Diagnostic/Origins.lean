import BnfTokenizer.Diagnostic.Render

/-!
# What a drawing says of its source

What a reader can learn from a drawing is for the renderer to say. All that is asked of one here is that it tells the
name of the source: a report under two names makes two drawings (`Renderer.ShowsOrigins`).

`Report.draw` does. The drawing of a source with a name has a row for the name, between the headline and the excerpt.
The drawing of a source without a name has no such row, and is otherwise the same (`Report.draw_eq`). So the name can be
read off a drawing, or that there is none.
-/

namespace BnfTokenizer.Diagnostic

/-- The name of a source, or that it has none, can be read off every drawing. -/
def Renderer.ShowsOrigins (draw : Renderer) : Prop :=
  ∀ (report : Report) (origin origin' : Option String) (colored : Bool),
    draw { report with origin } colored = draw { report with origin := origin' } colored → origin = origin'

/-! ## Painting -/

namespace Row

variable {ink : Ink} {row : Row}

theorem ink_of_mem_inked {cell : Cell} {text : List Char} (mem : cell ∈ inked ink text) : cell.ink = ink := by
  obtain ⟨_, _, rfl⟩ := List.mem_map.mp mem
  rfl

/-- The first run of a row has the ink of its first cell. -/
theorem exists_runs_cons (cell : Cell) (row : Row) : ∃ text rest, runs (cell :: row) = (cell.ink, text) :: rest := by
  rw [runs]
  split
  · split
    · next same => exact ⟨_, _, by rw [same]⟩
    · exact ⟨_, _, rfl⟩
  · exact ⟨_, _, rfl⟩

/-- A text in one ink is one run, if the ink changes behind it. -/
theorem runs_inked_append (c : Char) (text : List Char) (changes : ∀ cell ∈ row.head?, cell.ink ≠ ink) :
    runs (inked ink (c :: text) ++ row) = (ink, c :: text) :: runs row := by
  induction text generalizing c with
  | nil =>
    rw [inked, List.map_singleton, List.singleton_append, runs]
    cases row with
    | nil => rfl
    | cons cell row =>
      obtain ⟨text, rest, begins⟩ := exists_runs_cons cell row
      rw [begins]
      exact if_neg (changes cell rfl).symm
  | cons next text ih =>
    have later := ih next
    rw [inked] at later ⊢
    rw [List.map_cons, List.cons_append, runs, later]
    exact if_pos rfl

theorem painted_gutter_append (c : Char) (text : List Char) (row : Row)
    (changes : ∀ cell ∈ row.head?, cell.ink ≠ .gutter) :
    painted (inked .gutter (c :: text) ++ row) =
      Ink.gutter.code ++ String.ofList (c :: text) ++ "\x1b[0m" ++ painted row := by
  rw [painted, runs_inked_append c text changes, List.map_cons, String.join_cons]
  rfl

theorem painted_plain_append (text : List Char) (row : Row) (changes : ∀ cell ∈ row.head?, cell.ink ≠ .plain) :
    painted (inked .plain text ++ row) = String.ofList text ++ painted row := by
  cases text with
  | nil => exact String.empty_append.symm
  | cons c text =>
    rw [painted, runs_inked_append c text changes, List.map_cons, String.join_cons]
    rfl

/-- A row as it stands in a drawing. -/
def drawn (colored : Bool) (row : Row) : String :=
  if colored then painted row else text row

end Row

/-! ## Lines of a drawing -/

/-- Rows as lines, each with an ending. -/
def lined (colored : Bool) (rows : List Row) : String :=
  String.join (rows.map fun row => row.drawn colored ++ "\n")

theorem lined_append (colored : Bool) (upper lower : List Row) :
    lined colored (upper ++ lower) = lined colored upper ++ lined colored lower := by
  rw [lined, List.map_append, String.join_append]
  rfl

/-- A drawing in two parts: those above have their endings. -/
theorem drawRows_append (colored : Bool) (upper : List Row) {lower : List Row} (some : lower ≠ []) :
    drawRows colored (upper ++ lower) = lined colored upper ++ drawRows colored lower := by
  induction upper with
  | nil => exact String.empty_append.symm
  | cons row upper ih =>
    have more : (upper ++ lower).map (Row.drawn colored) ≠ [] := by
      rw [ne_eq, List.map_eq_nil_iff]
      exact List.append_ne_nil_of_right_ne_nil upper some
    have step : drawRows colored (row :: (upper ++ lower)) =
        row.drawn colored ++ "\n" ++ drawRows colored (upper ++ lower) :=
      String.intercalate_cons_of_ne_nil more
    rw [List.cons_append, step, ih, ← String.append_assoc]
    exact congrArg (· ++ drawRows colored lower) (String.join_cons ..).symm

/-! ## The row with the name -/

/-- The name stands in its row as it is, before the position and behind what is the same for every name. -/
theorem lined_originRows (colored : Bool) (width : Nat) (position : String) :
    ∃ front : String, ∀ path,
      lined colored (originRows width position (some path)) = front ++ path ++ (position ++ "\n") := by
  have alone : ∀ row, lined colored [row] = row.drawn colored ++ "\n" := fun row =>
    (String.join_cons ..).trans String.append_empty
  cases colored with
  | false =>
    refine ⟨String.ofList (blanks width) ++ "--> ", fun path => ?_⟩
    rw [originRows, alone, ← String.append_assoc]
    refine congrArg (· ++ "\n") (String.toList_inj.mp ?_)
    simp only [Row.drawn, Row.text, Row.inked, List.map_append, List.map_map, Function.comp_def, List.map_id',
      String.toList_ofList, String.toList_append, Bool.false_eq_true, if_false, List.append_assoc]
  | true =>
    refine ⟨String.ofList (blanks width) ++ (Ink.gutter.code ++ String.ofList ('-' :: "-> ".toList) ++ "\x1b[0m"),
      fun path => ?_⟩
    rw [originRows, alone, ← String.append_assoc]
    refine congrArg (· ++ "\n") ?_
    have worded : Row.painted (Row.inked .plain (path ++ position).toList) = path ++ position := by
      have whole := Row.painted_plain_append (path ++ position).toList [] (by simp)
      rw [List.append_nil] at whole
      rw [whole, String.ofList_toList]
      exact String.append_empty
    have arrow := Row.painted_gutter_append '-' "-> ".toList (Row.inked .plain (path ++ position).toList)
      fun cell first => by rw [Row.ink_of_mem_inked (List.mem_of_mem_head? first)]; decide
    have indented := Row.painted_plain_append (blanks width)
      (Row.inked .gutter "--> ".toList ++ Row.inked .plain (path ++ position).toList)
      fun cell first => by cases first; decide
    rw [Row.drawn, if_pos rfl, List.append_assoc, indented]
    refine (congrArg (String.ofList (blanks width) ++ ·) arrow).trans ?_
    simp only [worded, String.append_assoc]

/-- **A drawing is the same under every name, but for the row with the name**. -/
theorem Report.draw_eq (report : Report) (colored : Bool) :
    ∃ (above : String) (width : Nat) (position below : String), ∀ origin,
      Report.draw { report with origin } colored =
        above ++ lined colored (originRows width position origin) ++ below := by
  let l := report.layout
  refine ⟨lined colored (headline report.title), l.numberWidth, report.position, drawRows colored (l.margin :: l.rows),
    fun origin => ?_⟩
  have drawing : Report.draw { report with origin } colored =
      drawRows colored (headline report.title ++ originRows l.numberWidth report.position origin ++ [l.margin] ++
        l.rows) := rfl
  rw [drawing, List.append_assoc, List.singleton_append, drawRows_append colored _ (List.cons_ne_nil _ _),
    lined_append]

/-- **A drawing tells the name of its source**, or that there is none. -/
theorem Report.draw_showsOrigins : Renderer.ShowsOrigins Report.draw := by
  intro report origin origin' colored same
  obtain ⟨above, width, position, below, drawing⟩ := report.draw_eq colored
  obtain ⟨front, naming⟩ := lined_originRows colored width position
  rw [drawing, drawing, ← String.toList_inj] at same
  simp only [String.toList_append, List.append_left_inj, List.append_right_inj, String.toList_inj] at same
  have named : ∀ path, lined colored (originRows width position (some path)) ≠ "" := by
    intro path none
    rw [naming, ← String.toList_inj] at none
    simp at none
  cases origin with
  | none =>
    cases origin' with
    | none => rfl
    | some path => exact absurd same.symm (named path)
  | some path =>
    cases origin' with
    | none => exact absurd same (named path)
    | some path' =>
      rw [naming, naming, ← String.toList_inj] at same
      simp only [String.toList_append, List.append_left_inj, List.append_right_inj, String.toList_inj] at same
      rw [same]

end BnfTokenizer.Diagnostic
