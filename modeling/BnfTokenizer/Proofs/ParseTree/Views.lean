import BnfTokenizer.Proofs.ParseTree.Lossless
import BnfTokenizer.Proofs.ParseTree.Traversals

/-!
# What a pass sees of a node

A pass over a tree asks a node for its name, for its children by name and for the text below them. All of that is seen of
the subtree at the node (`Forest.childByName_view`, `Forest.joinLeaves_eq`), so what a pass makes of a node is told by
the view of it and not by the table.

Cutting out and lifting make no new way up (`Forest.above_of_above_cull`): what a pass changes below one node is not
below another.
-/

namespace BnfTokenizer.ParseTree

open Relation (TransGen)

variable {t : ParseTree} {r c : Ref} {name : String}

/-! ## Subtrees -/

namespace View

mutual

/-- The values of the childless nodes, one after the other. -/
def text : View → String
  | .node _ value _ children =>
    match children with
    | [] => value
    | children => String.join (texts children)

/-- The texts of some views, one behind the other. -/
def texts : List View → List String
  | [] => []
  | v :: vs => v.text :: texts vs

end

mutual

/-- Something holds at every node of a subtree. -/
def All (holds : View → Prop) : View → Prop
  | .node name value span children => holds (.node name value span children) ∧ ListAll holds children

/-- Everything in some views has a property. -/
def ListAll (holds : View → Prop) : List View → Prop
  | [] => True
  | v :: vs => v.All holds ∧ ListAll holds vs

end

variable {holds : View → Prop}

/-- What holds in the whole of a view holds at its top, -/
theorem All.here {v : View} (all : v.All holds) : holds v := by
  cases v
  exact all.1

/-- and in its children. -/
theorem All.below {v : View} (all : v.All holds) : ListAll holds v.children := by
  cases v
  exact all.2

/-- It holds in some views as a list if it holds in each. -/
theorem listAll_iff {vs : List View} : ListAll holds vs ↔ ∀ v ∈ vs, v.All holds := by
  induction vs with
  | nil => exact ⟨fun _ => nofun, fun _ => trivial⟩
  | cons v vs ih => rw [ListAll, ih, List.forall_mem_cons]

theorem listAll_append {vs ws : List View} : ListAll holds (vs ++ ws) ↔ ListAll holds vs ∧ ListAll holds ws := by
  rw [listAll_iff, listAll_iff, listAll_iff, List.forall_mem_append]

mutual

theorem All.imp {other : View → Prop} (implies : ∀ v, holds v → other v) : ∀ {v : View}, v.All holds → v.All other
  | .node .., ⟨here, below⟩ => ⟨implies _ here, below.imp implies⟩

theorem ListAll.imp {other : View → Prop} (implies : ∀ v, holds v → other v) : ∀ {vs : List View}, ListAll holds vs →
    ListAll other vs
  | [], _ => trivial
  | _ :: _, ⟨first, others⟩ => ⟨first.imp implies, others.imp implies⟩

end

/-- The texts are those of the views. -/
theorem texts_eq_map (vs : List View) : texts vs = vs.map text := by
  induction vs with
  | nil => rfl
  | cons v vs ih => rw [texts, ih, List.map_cons]

end View

namespace Forest

variable (forest : t.Forest)

include forest

/-! ## What is below a node -/

theorem self_mem_preorder (r : Ref) : r ∈ t.preorder r :=
  forest.mem_preorder_iff.mpr (.inl rfl)

theorem child_mem_preorder (listed : c ∈ t.children r) : c ∈ t.preorder r :=
  forest.mem_preorder_iff.mpr (.inr (.single ((forest.linked r c).mp listed)))

/-- What is at or below a node that is listed is listed. -/
theorem preorder_subset (listed : c ∈ t.preorder r) : t.preorder c ⊆ t.preorder r := by
  intro x mem
  rw [forest.mem_preorder_iff] at listed mem ⊢
  rcases mem with rfl | under
  · exact listed
  · rcases listed with rfl | above
    · exact .inr under
    · exact .inr (under.trans above)

theorem below_subset (r : Ref) : (t.children r).flatMap t.preorder ⊆ t.preorder r := by
  rw [forest.preorder_eq]
  exact List.subset_cons_self _ _

theorem nodup_below (r : Ref) : ((t.children r).flatMap t.preorder).Nodup := by
  have once := forest.nodup_preorder r
  rw [forest.preorder_eq] at once
  exact (List.nodup_cons.mp once).2

/-- A node is not below those that are at or below it. -/
theorem not_mem_below (listed : c ∈ t.preorder r) : r ∉ (t.children c).flatMap t.preorder := by
  rw [forest.mem_below_iff]
  intro under
  rcases forest.mem_preorder_iff.mp listed with rfl | above
  · exact forest.acyclic _ under
  · exact forest.acyclic _ (under.trans above)

theorem not_mem_preorder (listed : c ∈ t.children r) : r ∉ t.preorder c := fun mem =>
  forest.not_mem_below (forest.self_mem_preorder r) (List.mem_flatMap.mpr ⟨c, listed, mem⟩)

/-! ## Queries -/

theorem name_view (r : Ref) : (t.view r).name = t.name r := by
  rw [forest.view_eq]
  rfl

theorem value_view (r : Ref) : (t.view r).value = t.value r := by
  rw [forest.view_eq]
  rfl

theorem span_view (r : Ref) : (t.view r).span = t.span r := by
  rw [forest.view_eq]
  rfl

theorem children_view (r : Ref) : (t.view r).children = (t.children r).map t.view := by
  rw [forest.view_eq]
  rfl

/-- The child of a name that a table has is the one that is seen. -/
theorem childByName_view (r : Ref) (name : String) : (t.view r).childByName name =
    (t.childByName r name).map t.view := by
  rw [View.childByName, forest.children_view, List.find?_map, childByName]
  refine congrArg _ (congrArg (fun named => (t.children r).find? named) (funext fun c => ?_))
  rw [Function.comp_apply, forest.name_view]

/-- What holds at every node that is seen holds at every node below each of them. -/
theorem all_of_all {holds : View → Prop} (all : (t.view r).All holds) : ∀ c ∈ t.preorder r, (t.view c).All holds := by
  induction r using forest.induction with
  | step r ih =>
    intro c mem
    rw [forest.preorder_eq] at mem
    rcases List.mem_cons.mp mem with rfl | below
    · exact all
    · obtain ⟨child, listed, mem⟩ := List.mem_flatMap.mp below
      have each := View.listAll_iff.mp all.below
      rw [forest.children_view] at each
      exact ih child listed (each _ (List.mem_map_of_mem listed)) c mem

/-- The text below a node, joined without separators, is what is seen. -/
theorem joinLeaves_eq (r : Ref) : t.joinLeaves r "" = (t.view r).text := by
  apply String.toList_inj.mp
  rw [joinLeaves, forest.leaves_eq, String.toList_intercalate]
  have joined : ∀ lists : List (List Char), List.intercalate "".toList lists = lists.flatten := by
    intro lists
    induction lists with
    | nil => rfl
    | cons chars lists ih => cases lists <;> simp_all [List.intercalate]
  rw [joined, List.map_map]
  induction r using forest.induction with
  | step r ih =>
    rw [forest.preorder_eq, forest.view_eq]
    cases children : t.children r with
    | nil =>
      have leaf : t.isLeaf r = true := by rw [isLeaf, children]; rfl
      rw [List.flatMap_nil, List.filter_cons_of_pos leaf]
      exact List.append_nil _
    | cons first others =>
      have inner : ¬t.isLeaf r = true := by rw [isLeaf, children]; exact Bool.false_ne_true
      have shown : (View.node (t.name r) (t.value r) (t.span r) ((t.children r).map t.view)).text =
          String.join ((t.children r).map fun c => (t.view c).text) := by
        rw [children, List.map_cons, View.text, View.texts_eq_map, ← List.map_cons, List.map_map]
        · rfl
        · exact List.cons_ne_nil _ _
      rw [List.filter_cons_of_neg inner, ← children, shown, List.filter_flatMap, List.map_flatMap, String.toList_join]
      simp only [List.flatMap_def, List.flatten_flatten, List.map_map]
      exact congrArg List.flatten (List.map_congr_left ih)

/-! ## Ways up -/

/-- Lifting puts nothing above a node that was not above it before. -/
theorem above_of_above_lift {a : Ref} (above : (t.lift c).Above a r) : t.Above a r := by
  cases link : t.parent c with
  | none => exact lift_of_parent_eq_none link ▸ above
  | some p =>
    refine TransGen.closed (fun child parent step => ?_) _ _ above
    rw [forest.parent_lift link] at step
    split at step
    · cases step
    · split at step
      · next under => exact .tail (.single under) (link.trans step)
      · exact .single step

/-- Culling makes no new way up. -/
theorem above_of_above_cull {a : Ref} (at' : Ref) (filters : List Filter) (above : (t.cull at' filters).Above a r) :
    t.Above a r := by
  have kept := cullFrom_induction (motive := fun u => u.Forest ∧ ∀ a r, u.Above a r → t.Above a r)
    (fun u c ⟨trees, ways⟩ => ⟨trees.remove c, fun a r above => ways a r (trees.above_of_above_remove above)⟩)
    (fun u c ⟨trees, ways⟩ => ⟨trees.lift c, fun a r above => ways a r (trees.above_of_above_lift above)⟩)
    filters t.size ⟨forest, fun _ _ above => above⟩ at'
  exact kept.2 a r above

end Forest

end BnfTokenizer.ParseTree
