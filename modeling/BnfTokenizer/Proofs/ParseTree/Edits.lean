import BnfTokenizer.Proofs.Match.Adequacy
import BnfTokenizer.Proofs.ParseTree.Forest

/-!
# Runs of edits

An `Edit` is any of the changes that can be made to a tree. They are made to attached and cut out nodes
alike, so a run of them takes the table through forests of many shapes. What is said here holds of all
runs, and follows from what one edit keeps (`editAll_induction`).

One thing is asked of an edit (`Edit.Allowed`): a node is not replaced by one above it, which could only be
done by making a circle. Whether it is above is asked of the tree as it is when the edit is made.
-/

namespace BnfTokenizer

namespace ParseTree

/-- A change that can be made to a tree. -/
inductive Edit where
  | remove (r : Ref)
  | lift (r : Ref)
  | replace (r other : Ref)
  | setPayload (r : Ref) (payload : NodeId)
  | setValue (r : Ref) (value : String)
  | cull (r : Ref) (filters : List Filter)
deriving DecidableEq, Repr

/-- The tree that an edit makes of a tree. -/
def edit (t : ParseTree) : Edit → ParseTree
  | .remove r => t.remove r
  | .lift r => t.lift r
  | .replace r other => t.replace r other
  | .setPayload r payload => t.setPayload r payload
  | .setValue r value => t.setValue r value
  | .cull r filters => t.cull r filters

/-- The tree that edits make, one after the other. -/
def editAll (t : ParseTree) (edits : List Edit) : ParseTree :=
  edits.foldl edit t

/-- May the edit be made? It names nodes of the tree, and no node is replaced by one strictly above it. -/
def Edit.Allowed (t : ParseTree) : Edit → Prop
  | .replace r other => r < t.size ∧ other < t.size ∧ t.isAncestor other r = false
  | .remove r | .lift r | .setPayload r _ | .setValue r _ | .cull r _ => r < t.size

instance (t : ParseTree) : (edit : Edit) → Decidable (edit.Allowed t)
  | .replace r other => inferInstanceAs (Decidable (r < t.size ∧ other < t.size ∧ _ = false))
  | .remove r => inferInstanceAs (Decidable (r < t.size))
  | .lift r => inferInstanceAs (Decidable (r < t.size))
  | .setPayload r _ => inferInstanceAs (Decidable (r < t.size))
  | .setValue r _ => inferInstanceAs (Decidable (r < t.size))
  | .cull r _ => inferInstanceAs (Decidable (r < t.size))

/-- Each edit may be made when its turn comes. -/
def Admits (t : ParseTree) (may : ParseTree → Edit → Prop) : List Edit → Prop
  | [] => True
  | e :: edits => may t e ∧ (t.edit e).Admits may edits

instance decidableAdmits {may : ParseTree → Edit → Prop} [∀ t e, Decidable (may t e)] :
    (t : ParseTree) → (edits : List Edit) → Decidable (t.Admits may edits)
  | _, [] => inferInstanceAs (Decidable True)
  | t, e :: edits =>
    have : Decidable ((t.edit e).Admits may edits) := decidableAdmits (t.edit e) edits
    inferInstanceAs (Decidable (may t e ∧ (t.edit e).Admits may edits))

/-- What is kept by each edit that may be made is kept by a run. -/
theorem editAll_induction {may : ParseTree → Edit → Prop} {kept : ParseTree → Prop}
    (step : ∀ t e, kept t → may t e → kept (t.edit e)) (edits : List Edit) {t : ParseTree} (start : kept t)
    (admits : t.Admits may edits) : kept (t.editAll edits) := by
  induction edits generalizing t with
  | nil => exact start
  | cons e edits ih => exact ih (step t e start admits.1) admits.2

/-! ## What an edit keeps -/

/-- Two tables of the same nodes, which may be linked in other ways, and stand for other values. -/
structure SameNodes (t u : ParseTree) : Prop where
  size : u.size = t.size
  source : u.source = t.source
  name : ∀ r, u.name r = t.name r
  span : ∀ r, u.span r = t.span r
  origin : ∀ r, u.origin r = t.origin r

/-- What an edit leaves as it is: the nodes, and all values and payloads but the one that it writes. -/
structure Edit.Frame (e : Edit) (t u : ParseTree) : Prop extends SameNodes t u where
  value : ∀ r, (∀ value, e ≠ .setValue r value) → u.value r = t.value r
  payload : ∀ r, (∀ payload, e ≠ .setPayload r payload) → u.payload r = t.payload r

theorem SameNodes.trans {t u v : ParseTree} (first : SameNodes t u) (second : SameNodes u v) :
    SameNodes t v where
  size := second.size.trans first.size
  source := second.source.trans first.source
  name r := (second.name r).trans (first.name r)
  span r := (second.span r).trans (first.span r)
  origin r := (second.origin r).trans (first.origin r)

/-- An edit of nothing but links, and maybe of the root, leaves the rest. -/
theorem Alike.frame {t u : ParseTree} {root : Ref} (alike : Alike { t with root := root } u) (e : Edit) :
    e.Frame t u :=
  { alike with value := fun r _ => alike.value r, payload := fun r _ => alike.payload r }

/-- Replacing changes links and the root. -/
theorem alike_replace (t : ParseTree) (r other : Ref) :
    Alike { t with root := (t.replace r other).root } (t.replace r other) := by
  have cut := alike_remove t other
  unfold replace
  split
  · exact .refl t
  · dsimp only
    split
    · rw [root_modify, root_modify, root_modify, root_remove]
      refine ((cut.trans (alike_modify _ _ _ ?_)).trans (alike_modify _ _ _ ?_)).trans (alike_modify _ _ _ ?_)
      all_goals exact fun _ => rfl
    · exact { cut with root := rfl }

theorem sameNodes_modify (t : ParseTree) (r : Ref) (f : Node → Node)
    (keeps : ∀ node, (f node).name = node.name ∧ (f node).span = node.span ∧ (f node).origin = node.origin) :
    SameNodes t (t.modify r f) where
  size := size_modify t r f
  source := rfl
  name := node_modify_congr t r f Node.name fun node => (keeps node).1
  span := node_modify_congr t r f Node.span fun node => (keeps node).2.1
  origin := node_modify_congr t r f Node.origin fun node => (keeps node).2.2

/-- Every edit leaves the nodes, and the values and payloads that it does not write. -/
theorem frame_edit (t : ParseTree) (e : Edit) : e.Frame t (t.edit e) := by
  cases e with
  | remove r => exact (alike_remove t r).frame _
  | lift r => exact (alike_lift t r).frame _
  | cull r filters => exact (alike_cull t r filters).frame _
  | replace r other => exact (alike_replace t r other).frame _
  | setPayload r payload =>
    refine ⟨sameNodes_modify t r _ fun _ => ⟨rfl, rfl, rfl⟩, fun place _ => ?_, fun place other => ?_⟩
    · refine value_modify_congr t r _ (fun _ => ?_) place
      exact ⟨rfl, rfl⟩
    · have elsewhere : r ≠ place := fun same => other payload (same ▸ rfl)
      exact congrArg Node.payload (node_modify_of_ne t _ elsewhere)
  | setValue r value =>
    refine ⟨sameNodes_modify t r _ fun _ => ⟨rfl, rfl, rfl⟩, fun place other => ?_, fun place _ => ?_⟩
    · have elsewhere : r ≠ place := fun same => other value (same ▸ rfl)
      have own : (t.setValue r value).node place = t.node place := node_modify_of_ne t _ elsewhere
      rw [ParseTree.value, ParseTree.value, ParseTree.span, ParseTree.span, edit, own]
      rfl
    · refine node_modify_congr t r _ Node.payload (fun _ => ?_) place
      rfl

/-! ## Runs -/

theorem Forest.modify_links {t : ParseTree} (forest : t.Forest) (r : Ref) (f : Node → Node)
    (links : ∀ node, (f node).parent = node.parent ∧ (f node).children = node.children) :
    (t.modify r f).Forest :=
  forest.congr (node_modify_congr t r f Node.parent fun node => (links node).1)
    (node_modify_congr t r f Node.children fun node => (links node).2)

/-- Every edit that may be made keeps a forest. -/
theorem Forest.edit {t : ParseTree} (forest : t.Forest) {e : Edit} (allowed : e.Allowed t) :
    (t.edit e).Forest := by
  cases e with
  | remove r => exact forest.remove r
  | lift r => exact forest.lift r
  | cull r filters => exact forest.cull r filters
  | replace r other =>
    obtain ⟨_, inside, free⟩ := allowed
    exact forest.replace inside (forest.not_above free)
  | setPayload r payload => exact forest.modify_links r _ fun _ => ⟨rfl, rfl⟩
  | setValue r value => exact forest.modify_links r _ fun _ => ⟨rfl, rfl⟩

end ParseTree

namespace Match

open ParseTree (Edit Plant)

variable {σ : Type} {g : Grammar} {id : NodeId} {input : String} {offset : Nat} {limits : Limits}
  {tracer : Tracer σ} {gathered : σ} {found : Found} {furthest : Nat}

/-- A match is one plant, with the root at its top. -/
theorem planted_of_traceAt
    (ends : (traceAt g id input offset limits tracer gathered).1 = .ok ⟨some found, furthest⟩) :
    ∃ plant : Plant, plant.place = found.tree.root ∧ plant.Hangs found.tree none ∧
      plant.places.Perm (List.range found.tree.size) := by
  obtain ⟨before, after, rfl, rfl⟩ := parted_of_traceAt ends
  obtain ⟨tree, _, _, laid, root, _⟩ := laid_of_traceAt ends
  exact ⟨tree.plant 0, (tree.place_plant 0).trans root.symm, DerivedTree.hangs_all laid⟩

/-- **Edits keep the forest.** Whatever edits are made of a matched tree, parents and children agree, no node
is above itself, and an edit changes no more than links, the value or payload that it writes, and the root. -/
theorem forest_of_edits
    (ends : (traceAt g id input offset limits tracer gathered).1 = .ok ⟨some found, furthest⟩)
    (edits : List Edit) (admits : found.tree.Admits (fun t e => e.Allowed t) edits) :
    (found.tree.editAll edits).Forest ∧ found.tree.SameNodes (found.tree.editAll edits) ∧
      ∀ e : Edit, e.Frame (found.tree.editAll edits) ((found.tree.editAll edits).edit e) := by
  obtain ⟨_, _, hangs, all⟩ := planted_of_traceAt ends
  refine ⟨?_, ?_, fun e => ParseTree.frame_edit _ e⟩
  · exact ParseTree.editAll_induction (fun _ _ forest allowed => forest.edit allowed) edits
      (hangs.forest all) admits
  · refine ParseTree.editAll_induction (fun t e same _ => ?_) edits ?_ admits
    · exact same.trans (ParseTree.frame_edit t e).toSameNodes
    · exact ⟨rfl, rfl, fun _ => rfl, fun _ => rfl, fun _ => rfl⟩

/-- Edits of attached nodes and of ones that were cut out before. -/
def letterEdits : List Edit :=
  [.lift 3, .remove 1, .setValue 1 "x", .replace 2 3, .replace 0 2, .setPayload 4 7, .replace 3 1,
    .replace 3 0, .cull 4 [⟨.named ["inner"], .delete⟩]]

/-- The edits put an emptied node back and take it out again, and leave two trees without the root. -/
theorem letters_edited :
    ∃ found, (traceAt letters 6 (String.ofList ['x', 'a', 'b', 'c']) 1 {} .silent ()).1 =
        .ok ⟨some found, 3⟩ ∧
      found.tree.Admits (fun t e => e.Allowed t) letterEdits ∧
      ((found.tree.editAll letterEdits).root = 0 ∧ (found.tree.editAll letterEdits).children 4 = [2]) ∧
      (found.tree.editAll letterEdits).Forest ∧ found.tree.SameNodes (found.tree.editAll letterEdits) := by
  have ends : (traceAt letters 6 (String.ofList ['x', 'a', 'b', 'c']) 1 {} .silent ()).1 =
      .ok ⟨some ⟨⟨['x', 'a', 'b', 'c'],
        #[⟨5, none, ⟨1, 1⟩, none, [], some 4, none⟩, ⟨0, some "inner", ⟨1, 2⟩, none, [], some 3, none⟩,
          ⟨4, some "outer", ⟨2, 3⟩, none, [], some 3, none⟩, ⟨3, none, ⟨1, 3⟩, none, [1, 2], some 4, none⟩,
          ⟨6, some "word", ⟨1, 3⟩, none, [0, 3], none, none⟩], 4⟩, 3⟩, 3⟩ := rfl
  obtain ⟨forest, same, _⟩ := forest_of_edits ends letterEdits (by decide)
  exact ⟨_, ends, by decide, ⟨rfl, rfl⟩, forest, same⟩

end Match

end BnfTokenizer
