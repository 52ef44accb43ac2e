import BnfTokenizer.ParseTree.Basic

/-!
# Edits

Every edit is a splice of child lists together with the parent links that go with it. Names, spans and
origins never change, and no node leaves the table: an edit only decides where a node hangs.

A node without a parent has no place that could be spliced. It may be the root or the top of a part that
was cut out; the edits do not tell these apart.
-/

namespace BnfTokenizer.ParseTree

/-- The child list with the first `r` in it replaced by some nodes. -/
def spliceAt (r : Ref) (instead : List Ref) : List Ref → List Ref
  | [] => []
  | c :: cs => if c = r then instead ++ cs else c :: spliceAt r instead cs

theorem spliceAt_of_not_mem {r : Ref} (instead : List Ref) {children : List Ref} (h : r ∉ children) :
    spliceAt r instead children = children := by
  induction children with
  | nil => rfl
  | cons c cs ih =>
    rw [List.mem_cons, not_or] at h
    rw [spliceAt, if_neg (fun same => h.1 same.symm), ih h.2]

/-- The first place of `r` is taken, and what stands around it stays. -/
theorem spliceAt_append_cons {r : Ref} (instead after : List Ref) {before : List Ref} (h : r ∉ before) :
    spliceAt r instead (before ++ r :: after) = before ++ (instead ++ after) := by
  induction before with
  | nil => rw [List.nil_append, spliceAt, if_pos rfl, List.nil_append]
  | cons c cs ih =>
    rw [List.mem_cons, not_or] at h
    rw [List.cons_append, spliceAt, if_neg (fun same => h.1 same.symm), ih h.2, List.cons_append]

/-- Cut a node, with all below it, out of its parent. -/
def remove (t : ParseTree) (r : Ref) : ParseTree :=
  match t.parent r with
  | none => t
  | some p =>
    (t.modify p fun node => { node with children := node.children.filter (· != r) }).modify r
      fun node => { node with parent := none }

/-- Put the children of a node in its place, and cut the node out. -/
def lift (t : ParseTree) (r : Ref) : ParseTree :=
  match t.parent r with
  | none => t
  | some p =>
    let children := t.children r
    let emptied := t.modify r fun node => { node with children := [] }
    let moved := children.foldl
      (fun t child => t.modify child fun node => { node with parent := some p }) emptied
    (moved.modify p fun node => { node with children := spliceAt r children node.children }).modify r
      fun node => { node with parent := none }

/-- Put `other` in the place of `r`, wherever it hung before. Where `r` has no parent, `other` becomes
the root. -/
def replace (t : ParseTree) (r other : Ref) : ParseTree :=
  if other = r then t
  else
    let freed := t.remove other
    match freed.parent r with
    | some p =>
      ((freed.modify p fun node => { node with children := spliceAt r [other] node.children }).modify
        other fun node => { node with parent := some p }).modify r
          fun node => { node with parent := none }
    | none => { freed with root := other }

/-! ## What no edit changes -/

@[simp] theorem size_remove (t : ParseTree) (r : Ref) : (t.remove r).size = t.size := by
  unfold remove
  split <;> simp

@[simp] theorem source_remove (t : ParseTree) (r : Ref) : (t.remove r).source = t.source := by
  unfold remove
  split <;> rfl

@[simp] theorem root_remove (t : ParseTree) (r : Ref) : (t.remove r).root = t.root := by
  unfold remove
  split <;> rfl

/-- Changes of some entries, one after the other, keep what each of them keeps. -/
theorem foldl_modify_keeps {α : Type} (read : ParseTree → α) (f : Node → Node)
    (h : ∀ t r, read (modify t r f) = read t) (refs : List Ref) (t : ParseTree) :
    read (refs.foldl (fun t r => t.modify r f) t) = read t := by
  induction refs generalizing t with
  | nil => rfl
  | cons r refs ih => rw [List.foldl_cons, ih, h]

@[simp] theorem size_lift (t : ParseTree) (r : Ref) : (t.lift r).size = t.size := by
  unfold lift
  split
  · rfl
  · simp only [size_modify]
    exact (foldl_modify_keeps size _ (fun _ _ => size_modify ..) _ _).trans (size_modify ..)

@[simp] theorem source_lift (t : ParseTree) (r : Ref) : (t.lift r).source = t.source := by
  unfold lift
  split
  · rfl
  · simp only [source_modify]
    exact (foldl_modify_keeps ParseTree.source _ (fun _ _ => source_modify ..) _ _).trans (source_modify ..)

@[simp] theorem root_lift (t : ParseTree) (r : Ref) : (t.lift r).root = t.root := by
  unfold lift
  split
  · rfl
  · simp only [root_modify]
    exact (foldl_modify_keeps ParseTree.root _ (fun _ _ => root_modify ..) _ _).trans (root_modify ..)

@[simp] theorem size_replace (t : ParseTree) (r other : Ref) : (t.replace r other).size = t.size := by
  unfold replace
  split
  · rfl
  · dsimp only
    split
    · simp only [size_modify, size_remove]
    · exact size_remove t other

@[simp] theorem source_replace (t : ParseTree) (r other : Ref) :
    (t.replace r other).source = t.source := by
  unfold replace
  split
  · rfl
  · dsimp only
    split
    · simp only [source_modify, source_remove]
    · exact source_remove t other

/-- Attach a grammar node to a node. -/
def setPayload (t : ParseTree) (r : Ref) (payload : NodeId) : ParseTree :=
  t.modify r fun node => { node with payload := some payload }

/-- Write a value over a node. -/
def setValue (t : ParseTree) (r : Ref) (value : String) : ParseTree :=
  t.modify r fun node => { node with value := some value }

/-- The chain of parents above a node, nearest first, as far as the fuel lasts. -/
def ancestorsFrom (t : ParseTree) : Nat → Ref → List Ref
  | 0, _ => []
  | fuel + 1, r =>
    match t.parent r with
    | some p => p :: ancestorsFrom t fuel p
    | none => []

/-- Does `a` lie strictly above `r`? -/
def isAncestor (t : ParseTree) (a r : Ref) : Bool :=
  (t.ancestorsFrom t.size r).contains a

end BnfTokenizer.ParseTree
