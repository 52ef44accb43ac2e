import BnfTokenizer.Match.Run
import BnfTokenizer.Proofs.Match.Derivation

/-!
# A tree as rows of a table

A match writes the nodes of a tree into a table, the nodes below a node before the node itself. `rows`
says which rows these are when the table already has `base` of them, and what the match does to its table
is stated with it:

> building a node over trees that stand at the end of the table gives the rows of the whole tree

(`toList_interior`). In the other direction `branch` reads a tree back from a table. It gives what was
laid out (`branch_finish`), so nothing about a tree is lost in its table.
-/

namespace BnfTokenizer

namespace Match.DerivedTree

open ParseTree (Ref Node)

mutual

/-- The number of nodes. -/
def size : DerivedTree → Nat
  | node _ _ _ children => listSize children + 1

def listSize : List DerivedTree → Nat
  | [] => 0
  | t :: ts => t.size + listSize ts

end

/-- Where the topmost node stands when the rows begin at `base`: behind those below it. -/
def top (base : Nat) (t : DerivedTree) : Ref :=
  base + listSize t.children

/-- Where the topmost nodes of trees in a row stand. -/
def tops (base : Nat) : List DerivedTree → List Ref
  | [] => []
  | t :: ts => t.top base :: tops (base + t.size) ts

mutual

/-- The rows of a tree, beginning at `base`, under a parent if it has one. -/
def rows (base : Nat) (parent : Option Ref) : DerivedTree → List Node
  | node origin name span children =>
    listRows base (some (base + listSize children)) children ++
      [⟨origin, name, span, none, tops base children, parent, none⟩]

def listRows (base : Nat) (parent : Option Ref) : List DerivedTree → List Node
  | [] => []
  | t :: ts => t.rows base parent ++ listRows (base + t.size) parent ts

end

/-- The row of the topmost node. -/
def topRow (base : Nat) (parent : Option Ref) : DerivedTree → Node
  | node origin name span children => ⟨origin, name, span, none, tops base children, parent, none⟩

theorem rows_eq (base : Nat) (parent : Option Ref) (t : DerivedTree) :
    t.rows base parent =
      listRows base (some (t.top base)) t.children ++ [t.topRow base parent] := by
  cases t
  rfl

theorem size_eq (t : DerivedTree) : t.size = listSize t.children + 1 := by
  cases t
  rfl

mutual

@[simp] theorem length_rows (base : Nat) (parent : Option Ref) : ∀ t : DerivedTree,
    (t.rows base parent).length = t.size
  | node _ _ _ children => by
    simp only [rows, List.length_append, length_listRows base _ children, List.length_singleton, size]

@[simp] theorem length_listRows (base : Nat) (parent : Option Ref) : ∀ ts : List DerivedTree,
    (listRows base parent ts).length = listSize ts
  | [] => rfl
  | t :: ts => by
    simp only [listRows, List.length_append, length_rows base parent t,
      length_listRows (base + t.size) parent ts, listSize]

end

/-! ## Rows under edits of the table -/

/-- A change of a single row among others. -/
theorem modify_row {α : Type} (f : α → α) (before after : List α) (row : α) :
    (before ++ row :: after).modify before.length f = before ++ f row :: after := by
  induction before with
  | nil => rfl
  | cons first before ih =>
    rw [List.cons_append, List.length_cons, List.modify_succ_cons, ih, List.cons_append]

/-- A change of the topmost row of a tree that stands among other rows. -/
theorem modify_top (f : Node → Node) (before after : List Node) (parent : Option Ref) (t : DerivedTree) :
    (before ++ (t.rows before.length parent ++ after)).modify (t.top before.length) f =
      before ++ (listRows before.length (some (t.top before.length)) t.children ++
        (f (t.topRow before.length parent) :: after)) := by
  have place : t.top before.length =
      (before ++ listRows before.length (some (t.top before.length)) t.children).length := by
    rw [List.length_append, length_listRows, top]
  conv => lhs; rw [place, rows_eq]
  rw [List.append_assoc, List.singleton_append, ← List.append_assoc, modify_row, List.append_assoc]

/-- Trees in a row are taken under a parent. -/
theorem foldl_modify_tops (parent : Ref) (ts : List DerivedTree) (before : List Node) :
    (tops before.length ts).foldl
        (fun nodes child => nodes.modify child fun node => { node with parent := some parent })
        (before ++ listRows before.length none ts) =
      before ++ listRows before.length (some parent) ts := by
  induction ts generalizing before with
  | nil => rfl
  | cons t ts ih =>
    have adopted : t.rows before.length (some parent) =
        listRows before.length (some (t.top before.length)) t.children ++
          [{ t.topRow before.length none with parent := some parent }] := by
      rw [rows_eq]
      cases t
      rfl
    rw [tops, List.foldl_cons, listRows, modify_top, listRows, adopted, List.append_assoc,
      List.singleton_append]
    have rest := ih (before ++ t.rows before.length (some parent))
    rw [List.length_append, length_rows, adopted] at rest
    simpa only [List.append_assoc, List.singleton_append] using rest

/-- The rows of a tree that was given a name. -/
theorem rows_called (base : Nat) (parent : Option Ref) (name : Option String) (t : DerivedTree) :
    (t.called name).rows base parent =
      listRows base (some (t.top base)) t.children ++
        [{ t.topRow base parent with name := (t.topRow base parent).name.or name }] := by
  cases t
  rfl

@[simp] theorem top_called (base : Nat) (name : Option String) (t : DerivedTree) :
    (t.called name).top base = t.top base := by
  cases t
  rfl

end Match.DerivedTree

/-! ## Building -/

namespace ParseTree.Builder

open Match (DerivedTree)

/-- The rows of the table. -/
def rows (b : Builder) : List Node :=
  b.nodes.toList

@[simp] theorem length_rows (b : Builder) : b.rows.length = b.size :=
  Array.length_toList

theorem ext_rows {b c : Builder} (h : b.rows = c.rows) : b = c := by
  obtain ⟨nodes⟩ := b
  obtain ⟨others⟩ := c
  rw [mk.injEq]
  exact Array.toList_inj.mp h

theorem rows_truncate (b : Builder) (size : Nat) : (b.truncate size).rows = b.rows.take size :=
  Array.toList_shrink

theorem toList_foldl_modify (f : Node → Node) (refs : List Ref) (nodes : Array Node) :
    (refs.foldl (fun nodes child => nodes.modify child f) nodes).toList =
      refs.foldl (fun nodes child => nodes.modify child f) nodes.toList := by
  induction refs generalizing nodes with
  | nil => rfl
  | cons r refs ih => rw [List.foldl_cons, ih, Array.toList_modify, List.foldl_cons]

/-- A node built over trees at the end of the table gives the rows of the whole. -/
theorem rows_interior {before after : Builder} {ts : List DerivedTree}
    (laid : after.rows = before.rows ++ DerivedTree.listRows before.size none ts)
    (origin : NodeId) (name : Option String) (span : Span) :
    (after.interior origin name span (DerivedTree.tops before.size ts)).rows =
      before.rows ++ (DerivedTree.node origin name span ts).rows before.size none := by
  have here : after.size = before.size + DerivedTree.listSize ts := by
    rw [← length_rows, laid, List.length_append, length_rows, DerivedTree.length_listRows]
  have adopted := DerivedTree.foldl_modify_tops after.size ts before.rows
  rw [length_rows, ← laid] at adopted
  simp only [rows, interior, Array.toList_push, toList_foldl_modify]
  rw [show after.nodes.toList = after.rows from rfl, adopted, here, List.append_assoc]
  rfl

/-- A name given to the topmost node of a tree at the end of the table. -/
theorem rows_inheritName {before after : Builder} {t : DerivedTree}
    (laid : after.rows = before.rows ++ t.rows before.size none) (name : Option String) :
    (after.inheritName (t.top before.size) name).rows =
      before.rows ++ (t.called name).rows before.size none := by
  have renamed := DerivedTree.modify_top (fun node => { node with name := node.name.or name }) before.rows []
    none t
  rw [List.append_nil, length_rows, ← laid] at renamed
  rw [DerivedTree.rows_called, ← renamed]
  exact Array.toList_modify

end ParseTree.Builder

/-! ## Reading a tree back -/

namespace ParseTree

open Match (DerivedTree)

/-- The tree at a node, down to a depth. -/
def branchFrom (t : ParseTree) : Nat → Ref → DerivedTree
  | 0, r => .node (t.origin r) (t.name r) (t.span r) []
  | depth + 1, r => .node (t.origin r) (t.name r) (t.span r) ((t.children r).map (t.branchFrom depth))

/-- The tree at a node, without the table around it. -/
def branch (t : ParseTree) (r : Ref) : DerivedTree :=
  t.branchFrom t.size r

theorem node_of_rows {t : ParseTree} {before after : List Node} {row : Node}
    (laid : t.nodes.toList = before ++ row :: after) : t.node before.length = row := by
  rw [node, Array.getD_eq_getD_getElem?, ← Array.getElem?_toList, laid,
    List.getElem?_append_right (Nat.le_refl _), Nat.sub_self, List.getElem?_cons_zero, Option.getD_some]

/-- The topmost row of a tree that was laid out is found at its place. -/
theorem node_top {t : ParseTree} {before after : List Node} {parent : Option Ref} {tree : DerivedTree}
    (laid : t.nodes.toList = before ++ (tree.rows before.length parent ++ after)) :
    t.node (tree.top before.length) = tree.topRow before.length parent := by
  have split : t.nodes.toList =
      (before ++ DerivedTree.listRows before.length (some (tree.top before.length)) tree.children) ++
        tree.topRow before.length parent :: after := by
    rw [laid, DerivedTree.rows_eq]
    simp only [List.append_assoc, List.singleton_append]
  have found := node_of_rows split
  rwa [List.length_append, DerivedTree.length_listRows] at found

mutual

/-- A tree that was laid out is read back as it was. -/
theorem branchFrom_top (t : ParseTree) : ∀ (tree : DerivedTree) (depth : Nat) (before after : List Node)
    (parent : Option Ref), tree.size ≤ depth + 1 →
    t.nodes.toList = before ++ (tree.rows before.length parent ++ after) →
    t.branchFrom depth (tree.top before.length) = tree
  | .node origin name span children, depth, before, after, parent, enough, laid => by
    have row := node_top laid
    have own : t.origin ((DerivedTree.node origin name span children).top before.length) = origin ∧
        t.name ((DerivedTree.node origin name span children).top before.length) = name ∧
        t.span ((DerivedTree.node origin name span children).top before.length) = span ∧
        t.children ((DerivedTree.node origin name span children).top before.length) =
          DerivedTree.tops before.length children := by
      simp only [ParseTree.origin, ParseTree.name, ParseTree.span, ParseTree.children, row, DerivedTree.topRow,
        and_self]
    obtain ⟨origins, names, spans, below⟩ := own
    cases depth with
    | zero =>
      -- a tree of one node
      cases children with
      | nil => rw [branchFrom, origins, names, spans]
      | cons child children =>
        rw [DerivedTree.size_eq] at enough
        have := DerivedTree.size_eq child
        simp only [DerivedTree.children, DerivedTree.listSize] at enough
        omega
    | succ depth =>
      rw [DerivedTree.size] at enough
      rw [DerivedTree.rows_eq, List.append_assoc] at laid
      rw [branchFrom, origins, names, spans, below,
        map_branchFrom_tops t children depth before _ _ (Nat.le_of_succ_le_succ enough) laid]

/-- Trees in a row that were laid out are read back as they were. -/
theorem map_branchFrom_tops (t : ParseTree) : ∀ (trees : List DerivedTree) (depth : Nat)
    (before after : List Node) (parent : Option Ref), DerivedTree.listSize trees ≤ depth + 1 →
    t.nodes.toList = before ++ (DerivedTree.listRows before.length parent trees ++ after) →
    (DerivedTree.tops before.length trees).map (t.branchFrom depth) = trees
  | [], _, _, _, _, _, _ => rfl
  | tree :: trees, depth, before, after, parent, enough, laid => by
    rw [DerivedTree.listSize] at enough
    rw [DerivedTree.listRows, List.append_assoc] at laid
    have head := branchFrom_top t tree depth before _ parent (by omega) laid
    have tail := map_branchFrom_tops t trees depth (before ++ tree.rows before.length parent) after parent
      (by omega)
    rw [List.length_append, DerivedTree.length_rows] at tail
    rw [DerivedTree.tops, List.map_cons, head, tail (by rw [laid, List.append_assoc])]

end

/-- The tree of a finished table that holds it alone. -/
theorem branch_finish {b : Builder} {tree : DerivedTree} (laid : b.rows = tree.rows 0 none)
    (source : List Char) : (b.finish source (tree.top 0)).branch (tree.top 0) = tree := by
  have size : (b.finish source (tree.top 0)).size = tree.size := by
    have := congrArg List.length laid
    rwa [Builder.length_rows, DerivedTree.length_rows] at this
  refine branchFrom_top _ tree _ [] [] none ?_ ?_
  · rw [size]
    exact Nat.le_succ _
  · rw [List.append_nil, List.nil_append]
    exact laid

end ParseTree

end BnfTokenizer
