import Mathlib.Algebra.GroupWithZero.Nat
import BnfTokenizer.ParseTree.Outline
import BnfTokenizer.Proofs.ParseTree.Traversals

/-!
# Reading an outline

An outline has a line for each node, in preorder, and the blanks in front of a line tell how far below the start its
node is. So the blanks alone give back the shape of the subtree: what stands under a line and deeper, up to the first
line that does not, is below its node (`Shape.above`). A reader that goes through the lines from the last to the first
has the parts of a node together when it comes to its line (`Forest.gather_leveled`).

Lines can only be told apart where none is broken. A value is written with its newlines escaped, a name is written as it
is, so the newlines of an outline are one for each node and those in the names (`Forest.newlines_outline`).

> Where no name begins with a blank, an outline can be read just where none holds a newline (`Forest.legible_iff`).
-/

namespace BnfTokenizer

/-! ## Shapes -/

/-- A tree of nothing but nodes. -/
inductive Shape where
  | node (parts : List Shape)

namespace Shape

/-- One line more, above others that were read. The lines that stand deeper, up to the first that does not, are its
parts. -/
def above (depth : Nat) (later : List (Nat × Shape)) : List (Nat × Shape) :=
  (depth, node ((later.takeWhile fun line => depth < line.1).map Prod.snd)) ::
    later.dropWhile fun line => depth < line.1

/-- The shapes of lines that stand at some depths, each with the depth of its first line. -/
def gather (depths : List Nat) : List (Nat × Shape) :=
  depths.foldr above []

/-- The shapes that the blanks in front of its lines tell of a text. -/
def read (text : List Char) : List Shape :=
  (gather ((text.splitOn '\n').dropLast.map fun line => (line.takeWhile (· == ' ')).length)).map Prod.snd

/-- The first line is no deeper than this. -/
def Ends (depth : Nat) (depths : List Nat) : Prop :=
  ∀ first ∈ depths.head?, first ≤ depth

theorem Ends.nil {depth : Nat} : Ends depth [] := by
  rintro _ ⟨⟩

theorem Ends.le_of_gather {depth : Nat} {depths : List Nat} (ends : Ends depth depths) :
    ∀ line ∈ (gather depths).head?, line.1 ≤ depth := by
  cases depths with
  | nil => exact fun _ none => nomatch none
  | cons first depths =>
    rintro _ ⟨⟩
    exact ends first rfl

/-- A line takes what stands deeper and comes before the end of it. -/
theorem above_parts {depth deeper : Nat} (less : depth < deeper) (parts : List Shape) {later : List (Nat × Shape)}
    (ends : ∀ line ∈ later.head?, line.1 ≤ depth) :
    above depth (parts.map (deeper, ·) ++ later) = (depth, node parts) :: later := by
  have inside : ∀ line ∈ parts.map (deeper, ·), decide (depth < line.1) = true := by
    intro line mem
    obtain ⟨part, _, rfl⟩ := List.mem_map.mp mem
    exact decide_eq_true less
  have outside : later.takeWhile (fun line => depth < line.1) = [] ∧
      later.dropWhile (fun line => depth < line.1) = later := by
    cases later with
    | nil => exact ⟨rfl, rfl⟩
    | cons line later =>
      have shallow : ¬decide (depth < line.1) = true := by
        rw [decide_eq_true_eq]
        exact Nat.not_lt.mpr (ends line rfl)
      exact ⟨List.takeWhile_cons_of_neg shallow, List.dropWhile_cons_of_neg shallow⟩
  rw [above, List.takeWhile_append_of_pos inside, List.dropWhile_append_of_pos inside, outside.1, outside.2,
    List.append_nil, List.map_map]
  exact congrArg (fun all => (depth, node all) :: later) (List.map_id parts)

end Shape

namespace ParseTree

namespace Plant

mutual

/-- The places of a plant with their levels, each before those under it. -/
def leveled (level : Nat) : Plant → List (Ref × Nat)
  | node place under => (place, level) :: listLeveled (level + 1) under

def listLeveled (level : Nat) : List Plant → List (Ref × Nat)
  | [] => []
  | q :: qs => q.leveled level ++ listLeveled level qs

end

mutual

/-- A plant without its places. -/
def shape : Plant → Shape
  | node _ under => .node (listShape under)

def listShape : List Plant → List Shape
  | [] => []
  | q :: qs => q.shape :: listShape qs

end

theorem listLeveled_eq_flatMap (level : Nat) (qs : List Plant) : listLeveled level qs = qs.flatMap (leveled level) := by
  induction qs with
  | nil => rfl
  | cons q qs ih => rw [listLeveled, ih, List.flatMap_cons]

theorem listShape_eq_map (qs : List Plant) : listShape qs = qs.map shape := by
  induction qs with
  | nil => rfl
  | cons q qs ih => rw [listShape, ih, List.map_cons]

end Plant

variable {t : ParseTree} {r : Ref}

/-- The nodes at and below a node with their levels, each before those below it. -/
def leveled (t : ParseTree) (level : Nat) (r : Ref) : List (Ref × Nat) :=
  (t.plantAt r).leveled level

/-- The shape of the subtree at a node. -/
def shape (t : ParseTree) (r : Ref) : Shape :=
  (t.plantAt r).shape

namespace Forest

variable (forest : t.Forest)

include forest

theorem leveled_eq (level : Nat) (r : Ref) :
    t.leveled level r = (r, level) :: (t.children r).flatMap (t.leveled (level + 1)) := by
  rw [leveled, forest.plantAt_eq, Plant.leveled, Plant.listLeveled_eq_flatMap, List.flatMap_map]
  rfl

theorem shape_eq (r : Ref) : t.shape r = .node ((t.children r).map t.shape) := by
  rw [shape, forest.plantAt_eq, Plant.shape, Plant.listShape_eq_map, List.map_map]
  rfl

theorem map_fst_leveled (level : Nat) (r : Ref) : (t.leveled level r).map Prod.fst = t.preorder r := by
  induction r using forest.induction generalizing level with
  | step r ih =>
    rw [forest.leveled_eq, forest.preorder_eq, List.map_cons, List.map_flatMap]
    exact congrArg (r :: ·) (List.flatMap_congr fun c listed => ih c listed (level + 1))

/-! ## The lines of an outline -/

theorem levelsFrom_eq (fuel : Nat) (stack : List (Ref × Nat))
    (enough : (stack.flatMap fun line => t.preorder line.1).length ≤ fuel) :
    t.levelsFrom fuel stack = stack.flatMap fun line => t.leveled line.2 line.1 := by
  induction fuel generalizing stack with
  | zero =>
    cases stack with
    | nil => rfl
    | cons line rest =>
      rw [List.flatMap_cons, forest.preorder_eq, List.cons_append, List.length_cons] at enough
      omega
  | succ fuel ih =>
    cases stack with
    | nil => rfl
    | cons line rest =>
      obtain ⟨r, level⟩ := line
      rw [List.flatMap_cons, forest.preorder_eq, List.cons_append, List.length_cons] at enough
      rw [levelsFrom, ih, List.flatMap_append, List.flatMap_map, List.flatMap_cons, forest.leveled_eq, List.cons_append]
      rw [List.flatMap_append, List.flatMap_map]
      exact Nat.le_of_succ_le_succ enough

/-- An outline goes through the nodes in preorder and tells how far below the start each of them is. -/
theorem levels_eq (r : Ref) : t.levels r = t.leveled 0 r := by
  rw [levels, forest.levelsFrom_eq, List.flatMap_singleton]
  exact Nat.le_of_eq (by rw [List.flatMap_singleton, forest.visitCount_eq])

/-- From its depths, a reader gathers the shape of a subtree, whatever comes behind it that is no deeper. -/
theorem gather_leveled (level : Nat) (r : Ref) {later : List Nat} (ends : Shape.Ends (2 * level) later) :
    Shape.gather ((t.leveled level r).map (fun line => 2 * line.2) ++ later) =
      (2 * level, t.shape r) :: Shape.gather later := by
  induction r using forest.induction generalizing level later with
  | step r ih =>
    have below : Shape.gather (((t.children r).flatMap (t.leveled (level + 1))).map (fun line => 2 * line.2) ++ later) =
        ((t.children r).map t.shape).map (2 * (level + 1), ·) ++ Shape.gather later := by
      have deeper : Shape.Ends (2 * (level + 1)) later := fun first mem => by
        have := ends first mem
        omega
      generalize t.children r = children at ih
      induction children with
      | nil => rfl
      | cons c children others =>
        rw [List.flatMap_cons, List.map_append, List.append_assoc, ih c List.mem_cons_self,
          others fun c mem => ih c (List.mem_cons_of_mem _ mem)]
        · rfl
        · cases children with
          | nil => exact deeper
          | cons next children =>
            rw [List.flatMap_cons, forest.leveled_eq]
            rintro _ ⟨⟩
            exact Nat.le_refl _
    rw [forest.leveled_eq, forest.shape_eq, List.map_cons, List.cons_append]
    refine (congrArg (Shape.above (2 * level)) below).trans ?_
    exact Shape.above_parts (by omega) _ ends.le_of_gather

end Forest

end ParseTree

/-! ## Newlines -/

/-- The number of newlines in a text. -/
def newlines (text : String) : Nat :=
  text.toList.count '\n'

theorem newlines_append (first later : String) : newlines (first ++ later) = newlines first + newlines later := by
  rw [newlines, String.toList_append, List.count_append]
  rfl

theorem newlines_eq_zero_iff {text : String} : newlines text = 0 ↔ '\n' ∉ text.toList :=
  List.count_eq_zero

theorem newlines_toString (n : Nat) : newlines (toString n) = 0 := by
  rw [newlines_eq_zero_iff, Nat.toString_eq_ofList_toDigits, String.toList_ofList]
  exact fun mem => absurd (Nat.isDigit_of_mem_toDigits (by decide) (by decide) mem) (by decide)

theorem newlines_quoted (text : String) : newlines (Text.quoted text) = 0 := by
  rw [Text.quoted, newlines_append, newlines_append, newlines_eq_zero_iff.mpr (Text.newline_not_mem_escape text)]
  rfl

theorem newlines_indent (level : Nat) : newlines (Text.indent level) = 0 := by
  rw [newlines_eq_zero_iff, Text.indent, String.toList_ofList]
  exact fun mem => absurd (List.eq_of_mem_replicate mem) (by decide)

/-- Colours break no line. -/
theorem Palette.newlines_ofBool (colored : Bool) :
    newlines (ofBool colored).name = 0 ∧ newlines (ofBool colored).text = 0 ∧ newlines (ofBool colored).dim = 0 ∧
      newlines (ofBool colored).reset = 0 := by
  cases colored <;> decide

namespace ParseTree

variable {t : ParseTree} {r : Ref}

/-- What a line calls its node. -/
def label (t : ParseTree) (r : Ref) : String :=
  (t.name r).getD "_"

/-- A name that shows where it begins: it is not empty, and does not begin with a blank. -/
def IsVisible (name : String) : Prop :=
  ∃ first rest, name.toList = first :: rest ∧ first ≠ ' '

theorem line_eq_indent (t : ParseTree) (style : LineStyle) (r : Ref) (level : Nat) :
    t.line style r level = Text.indent level ++ t.line style r 0 := by
  have none : Text.indent 0 = "" := rfl
  simp only [line, none, String.empty_append, String.append_assoc]

section

variable {style : LineStyle} {colored : Bool} (inked : style.palette = .ofBool colored)

include inked

/-- The only newlines of a line are those of the name. -/
theorem newlines_line (level : Nat) : newlines (t.line style r level) = newlines (t.label r) := by
  obtain ⟨name, text, dim, reset⟩ := Palette.newlines_ofBool colored
  have bracket : newlines " " = 0 ∧ newlines "[" = 0 ∧ newlines ".." = 0 ∧ newlines "]" = 0 ∧ newlines "" = 0 := by
    decide
  obtain ⟨blank, opening, dots, closing, empty⟩ := bracket
  rw [line, inked]
  split <;> split <;>
    simp only [newlines_append, newlines_indent, newlines_toString, newlines_quoted, name, text, dim, reset, blank,
      opening, dots, closing, empty, label, Nat.zero_add, Nat.add_zero]

/-- A line begins with two blanks for each level, and then with something else. -/
theorem blanks_line (visible : IsVisible (t.label r)) (level : Nat) :
    ((t.line style r level).toList.takeWhile (· == ' ')).length = 2 * level := by
  have body : ∃ first rest, (t.line style r 0).toList = first :: rest ∧ first ≠ ' ' := by
    obtain ⟨first, rest, label, shown⟩ := visible
    have none : (Text.indent 0).toList = [] := rfl
    rw [line, inked]
    simp only [String.toList_append, none, List.nil_append, List.append_assoc]
    cases colored with
    | false => exact ⟨first, _, by rw [show (t.name r).getD "_" = t.label r from rfl, label]; rfl, shown⟩
    | true => exact ⟨'\x1b', _, rfl, by decide⟩
  obtain ⟨first, rest, line, shown⟩ := body
  have blanks : ∀ c ∈ List.replicate (2 * level) ' ', (c == ' ') = true := fun c mem => by
    rw [List.eq_of_mem_replicate mem]
    rfl
  rw [line_eq_indent, String.toList_append, Text.indent, String.toList_ofList, line,
    List.takeWhile_append_of_pos blanks, List.takeWhile_cons_of_neg (by simpa using shown), List.append_nil,
    List.length_replicate]

end

theorem toList_outline (t : ParseTree) (r : Ref) (style : LineStyle) :
    (t.outline r style).toList =
      ((t.levels r).map fun line => (t.line style line.1 line.2).toList).flatMap (· ++ ['\n']) := by
  rw [outline, String.toList_join, List.flatMap_map, List.flatMap_map]
  exact List.flatMap_congr fun line _ => String.toList_append

/-- Unbroken lines are told apart by the newlines behind them. -/
theorem splitOn_lines {lines : List (List Char)} (unbroken : ∀ line ∈ lines, '\n' ∉ line) :
    (lines.flatMap (· ++ ['\n'])).splitOn '\n' = lines ++ [[]] := by
  induction lines with
  | nil => rfl
  | cons line lines ih =>
    obtain ⟨here, later⟩ := List.forall_mem_cons.mp unbroken
    rw [List.flatMap_cons, List.append_assoc, List.singleton_append, List.splitOn_append_cons_self_of_not_mem here,
      ih later, List.cons_append]

namespace Forest

variable (forest : t.Forest) {style : LineStyle} {colored : Bool} (inked : style.palette = .ofBool colored)

include forest inked

/-- The newlines of an outline are one for each node and those in the names. -/
theorem newlines_outline (r : Ref) :
    newlines (t.outline r style) =
      (t.preorder r).length + ((t.preorder r).map fun c => newlines (t.label c)).sum := by
  rw [newlines, toList_outline, ← forest.map_fst_leveled 0 r, ← forest.levels_eq]
  induction t.levels r with
  | nil => rfl
  | cons line lines ih =>
    have own : (t.line style line.1 line.2).toList.count '\n' = newlines (t.label line.1) := newlines_line inked _
    rw [List.map_cons, List.flatMap_cons, List.count_append, ih, List.count_append, own, List.map_cons, List.map_cons,
      List.length_cons, List.sum_cons, List.count_singleton_self]
    omega

/-- Where no name holds a newline, the lines of an outline are those of its nodes. -/
theorem splitOn_outline (unbroken : ∀ c ∈ t.preorder r, '\n' ∉ (t.label c).toList) :
    (t.outline r style).toList.splitOn '\n' =
      ((t.levels r).map fun line => (t.line style line.1 line.2).toList) ++ [[]] := by
  rw [toList_outline, splitOn_lines]
  intro text mem
  obtain ⟨line, listed, rfl⟩ := List.mem_map.mp mem
  refine newlines_eq_zero_iff.mp ((newlines_line inked _).trans (newlines_eq_zero_iff.mpr (unbroken _ ?_)))
  rw [forest.levels_eq] at listed
  rw [← forest.map_fst_leveled 0 r]
  exact List.mem_map_of_mem listed

/-- The indentation of an outline gives back the shape. -/
theorem read_outline (unbroken : ∀ c ∈ t.preorder r, '\n' ∉ (t.label c).toList)
    (visible : ∀ c, IsVisible (t.label c)) : Shape.read (t.outline r style).toList = [t.shape r] := by
  have depths : (t.levels r).map (fun line => ((t.line style line.1 line.2).toList.takeWhile (· == ' ')).length) =
      (t.leveled 0 r).map (fun line => 2 * line.2) ++ [] := by
    rw [forest.levels_eq, List.append_nil]
    exact List.map_congr_left fun line _ => blanks_line inked (visible _) _
  rw [Shape.read, forest.splitOn_outline inked unbroken, List.dropLast_concat, List.map_map]
  exact (congrArg (List.map Prod.snd ∘ Shape.gather) depths).trans
    (congrArg (List.map Prod.snd) (forest.gather_leveled 0 r Shape.Ends.nil))

end Forest

/-- An outline that can be read: it has a line for each node, in preorder and as deep as the node, and the depths of the
lines give back the shape. -/
structure Legible (t : ParseTree) (r : Ref) (style : LineStyle) : Prop where
  count : newlines (t.outline r style) = (t.preorder r).length
  lines : (t.outline r style).toList.splitOn '\n' =
    ((t.leveled 0 r).map fun line => (Text.indent line.2 ++ t.line style line.1 0).toList) ++ [[]]
  shape : Shape.read (t.outline r style).toList = [t.shape r]

/-- An outline can be read just where no name in it holds a newline. -/
theorem Forest.legible_iff (forest : t.Forest) {style : LineStyle} {colored : Bool}
    (inked : style.palette = .ofBool colored) (visible : ∀ c, IsVisible (t.label c)) :
    t.Legible r style ↔ ∀ c ∈ t.preorder r, '\n' ∉ (t.label c).toList := by
  have count := forest.newlines_outline inked r
  constructor
  · intro legible c mem
    rw [legible.count, Nat.left_eq_add, List.sum_eq_zero_iff_forall_eq_nat] at count
    exact newlines_eq_zero_iff.mp (count _ (List.mem_map_of_mem mem))
  · intro unbroken
    refine ⟨?_, ?_, forest.read_outline inked unbroken visible⟩
    · rw [count, Nat.add_eq_left, List.sum_eq_zero_iff_forall_eq_nat]
      intro broken mem
      obtain ⟨c, listed, rfl⟩ := List.mem_map.mp mem
      exact newlines_eq_zero_iff.mpr (unbroken c listed)
    · rw [forest.splitOn_outline inked unbroken, forest.levels_eq]
      exact congrArg (· ++ [[]]) (List.map_congr_left fun line _ => by rw [← line_eq_indent])

end ParseTree

end BnfTokenizer
