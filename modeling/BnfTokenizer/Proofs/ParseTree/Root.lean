import BnfTokenizer.Proofs.ParseTree.Edits

/-!
# The root of an edited tree

A tree should hang from its root: no node is above the root, and the root is attached to itself. Both say
the same of a forest (`Forest.isAttached_root_iff`). Only one edit takes it away. Replacing a node by another
puts the other one in its place, and where that place is under a node of a part that was cut out, the other
one may be the root. Then the root has a parent, and the tree has become a part of what was cut out of it.
Nothing forbids this, as the root is not above a node that was cut out.

`Edit.BuriesRoot` names that edit, and every run without it keeps the root a root.
-/

namespace BnfTokenizer

namespace ParseTree

/-- Does the edit put the root in the place of a node that has a parent? The node is then in a part that was
cut out, or the edit is not allowed. -/
def Edit.BuriesRoot (t : ParseTree) : Edit → Prop
  | .replace r other => other = t.root ∧ other ≠ r ∧ t.parent r ≠ none
  | _ => False

instance (t : ParseTree) : (e : Edit) → Decidable (e.BuriesRoot t)
  | .replace r other => inferInstanceAs (Decidable (other = t.root ∧ other ≠ r ∧ t.parent r ≠ none))
  | .remove _ => inferInstanceAs (Decidable False)
  | .lift _ => inferInstanceAs (Decidable False)
  | .setPayload _ _ => inferInstanceAs (Decidable False)
  | .setValue _ _ => inferInstanceAs (Decidable False)
  | .cull _ _ => inferInstanceAs (Decidable False)

section

variable {t : ParseTree} {c r : Ref}

/-! ## Tops -/

theorem topFrom_eq_or_above (fuel : Nat) (r : Ref) : t.topFrom fuel r = r ∨ t.Above (t.topFrom fuel r) r := by
  induction fuel generalizing r with
  | zero => exact .inl rfl
  | succ fuel ih =>
    rw [topFrom]
    split
    · next p link => exact .inr (above_iff.mpr ⟨p, link, (ih p).imp_left Eq.symm⟩)
    · exact .inl rfl

namespace Forest

/-- A root is attached to itself as long as it is a top. -/
theorem isAttached_root_iff (forest : t.Forest) (inside : t.root < t.size) :
    t.isAttached t.root = true ↔ t.parent t.root = none := by
  rw [isAttached, beq_iff_eq, top]
  refine ⟨fun attached => ?_, topFrom_of_parent_eq_none _⟩
  obtain ⟨fuel, size⟩ := Nat.exists_eq_add_one_of_ne_zero (Nat.ne_zero_of_lt inside)
  cases link : t.parent t.root with
  | none => rfl
  | some p =>
    have climbed : t.topFrom (fuel + 1) t.root = t.topFrom fuel p := by rw [topFrom, link]
    rw [size, climbed] at attached
    have higher := topFrom_eq_or_above (t := t) fuel p
    rw [attached] at higher
    exact absurd (above_iff.mpr ⟨p, link, higher.imp_left Eq.symm⟩) (forest.acyclic t.root)

theorem top_remove (forest : t.Forest) (top : t.parent r = none) (c : Ref) :
    (t.remove c).parent r = none := by
  rw [forest.parent_remove, top, ite_self]

theorem top_lift (forest : t.Forest) (top : t.parent r = none) (c : Ref) : (t.lift c).parent r = none := by
  cases link : t.parent c with
  | none => rw [lift_of_parent_eq_none link, top]
  | some p =>
    rw [forest.parent_lift link, top]
    split <;> rfl

/-- Culling gives no node a parent that had none. -/
theorem top_cullFrom (forest : t.Forest) (top : t.parent r = none) (filters : List Filter) (depth : Nat)
    (c : Ref) : (ParseTree.cullFrom filters depth t c).parent r = none :=
  (cullFrom_induction (motive := fun t => t.Forest ∧ t.parent r = none)
    (fun _ c ⟨forest, top⟩ => ⟨forest.remove c, forest.top_remove top c⟩)
    (fun _ c ⟨forest, top⟩ => ⟨forest.lift c, forest.top_lift top c⟩) filters depth ⟨forest, top⟩ c).2

end Forest

/-! ## The root -/

theorem Forest.root_replace {other : Ref} (forest : t.Forest) (top : t.parent t.root = none)
    (allowed : (Edit.replace r other).Allowed t) :
    (t.replace r other).parent (t.replace r other).root = none ↔ ¬(Edit.replace r other).BuriesRoot t := by
  obtain ⟨_, inside, apart⟩ := allowed
  have free := forest.not_above apart
  by_cases differs : other = r
  · rw [ParseTree.replace, if_pos differs]
    exact iff_of_true top fun buries => buries.2.1 differs
  have same : (t.remove other).parent r = t.parent r := by
    rw [forest.parent_remove, if_neg (Ne.symm differs)]
  cases link : (t.remove other).parent r with
  | none =>
    rw [replace_of_parent_eq_none differs link]
    refine iff_of_true ?_ fun buries => buries.2.2 (same.symm.trans link)
    exact (forest.parent_remove other other).trans (if_pos rfl)
  | some p =>
    rw [root_replace_of_parent link, forest.parent_replace differs free inside link,
      forest.top_remove top]
    by_cases buried : other = t.root
    · refine iff_of_false ?_ fun safe => safe ⟨buried, differs, same ▸ link ▸ Option.some_ne_none p⟩
      rw [if_neg (buried ▸ differs), if_pos buried.symm]
      exact Option.some_ne_none p
    · refine iff_of_true ?_ fun buries => buried buries.1
      rw [if_neg (Ne.symm buried), ite_self]

/-- After an edit the root is a top, unless the edit put it under something. -/
theorem Forest.root_edit (forest : t.Forest) (top : t.parent t.root = none) {e : Edit}
    (allowed : e.Allowed t) : (t.edit e).parent (t.edit e).root = none ↔ ¬e.BuriesRoot t := by
  cases e with
  | replace r other => exact forest.root_replace top allowed
  | remove c =>
    refine iff_of_true ?_ id
    rw [ParseTree.edit, root_remove, forest.top_remove top]
  | lift c =>
    refine iff_of_true ?_ id
    rw [ParseTree.edit, root_lift, forest.top_lift top]
  | cull c filters =>
    refine iff_of_true ?_ id
    rw [ParseTree.edit, (alike_cull t c filters).root, ParseTree.cull, forest.top_cullFrom top]
  | setPayload c payload =>
    refine iff_of_true ?_ id
    exact (node_modify_congr t c _ Node.parent (fun _ => by rfl) t.root).trans top
  | setValue c value =>
    refine iff_of_true ?_ id
    exact (node_modify_congr t c _ Node.parent (fun _ => by rfl) t.root).trans top

end

/-- The root is in the table, and the top of its tree. -/
structure Rooted (t : ParseTree) : Prop extends Forest t where
  inside : t.root < t.size
  top : t.parent t.root = none

theorem Rooted.isAttached {t : ParseTree} (rooted : t.Rooted) : t.isAttached t.root = true :=
  (rooted.toForest.isAttached_root_iff rooted.inside).mpr rooted.top

theorem root_edit_inside {t : ParseTree} (inside : t.root < t.size) {e : Edit} (allowed : e.Allowed t) :
    (t.edit e).root < (t.edit e).size := by
  rw [(frame_edit t e).size]
  cases e with
  | replace r other =>
    have same : (t.replace r other).root = t.root ∨ (t.replace r other).root = other := by
      cases link : (t.remove other).parent r with
      | some p => exact .inl (root_replace_of_parent link)
      | none =>
        by_cases differs : other = r
        · rw [replace, if_pos differs]
          exact .inl rfl
        · rw [replace_of_parent_eq_none differs link]
          exact .inr rfl
    rcases same with kept | new
    · exact kept.symm ▸ inside
    · exact new.symm ▸ allowed.2.1
  | remove r => rwa [edit, root_remove]
  | lift r => rwa [edit, root_lift]
  | cull r filters => rwa [edit, (alike_cull t r filters).root]
  | setPayload r payload => exact inside
  | setValue r value => exact inside

/-- Every edit that may be made and does not bury the root keeps it a root. -/
theorem Rooted.edit {t : ParseTree} (rooted : t.Rooted) {e : Edit} (allowed : e.Allowed t)
    (safe : ¬e.BuriesRoot t) : (t.edit e).Rooted where
  toForest := rooted.toForest.edit allowed
  inside := root_edit_inside rooted.inside allowed
  top := (rooted.toForest.root_edit rooted.top allowed).mpr safe

end ParseTree

namespace Match

open ParseTree (Edit)

variable {σ : Type} {g : Grammar} {id : NodeId} {input : String} {offset : Nat} {limits : Limits}
  {tracer : Tracer σ} {gathered : σ} {found : Found} {furthest : Nat}

/-- The tree of a match is rooted. -/
theorem rooted_of_traceAt
    (ends : (traceAt g id input offset limits tracer gathered).1 = .ok ⟨some found, furthest⟩) :
    found.tree.Rooted := by
  obtain ⟨plant, place, hangs, all⟩ := planted_of_traceAt ends
  refine ⟨hangs.forest all, ?_, place ▸ hangs.parent_eq⟩
  exact place ▸ List.mem_range.mp (all.mem_iff.mp plant.place_mem_places)

/-- **Where the root stays a root.** After edits that do not bury the root, it has no parent and is attached.
Of the edits that may be made next, just those that bury it end this. -/
theorem root_of_edits
    (ends : (traceAt g id input offset limits tracer gathered).1 = .ok ⟨some found, furthest⟩)
    (edits : List Edit) (admits : found.tree.Admits (fun t e => e.Allowed t ∧ ¬e.BuriesRoot t) edits) :
    let t := found.tree.editAll edits
    t.parent t.root = none ∧ t.isAttached t.root = true ∧
      ∀ e : Edit, e.Allowed t →
        ((t.edit e).parent (t.edit e).root = none ↔ ¬e.BuriesRoot t) ∧
          ((t.edit e).isAttached (t.edit e).root = true ↔ ¬e.BuriesRoot t) := by
  have rooted : (found.tree.editAll edits).Rooted :=
    ParseTree.editAll_induction (fun _ _ rooted may => rooted.edit may.1 may.2) edits (rooted_of_traceAt ends)
      admits
  refine ⟨rooted.top, rooted.isAttached, fun e allowed => ?_⟩
  have next := rooted.toForest.root_edit rooted.top allowed
  have inside := ParseTree.root_edit_inside rooted.inside allowed
  exact ⟨next, ((rooted.toForest.edit allowed).isAttached_root_iff inside).trans next⟩

/-- A literal in a sequence in a sequence. -/
def nested : Grammar :=
  ⟨#[⟨none, .literal ['a']⟩, ⟨none, .sequence [0]⟩, ⟨none, .sequence [1]⟩]⟩

def nestedFound : Found :=
  ⟨⟨['a'], #[⟨0, none, ⟨0, 1⟩, none, [], some 1, none⟩, ⟨1, none, ⟨0, 1⟩, none, [0], some 2, none⟩,
    ⟨2, none, ⟨0, 1⟩, none, [1], none, none⟩], 2⟩, 1⟩

theorem traceAt_nested :
    (traceAt nested 2 (String.ofList ['a']) 0 {} .silent ()).1 = .ok ⟨some nestedFound, 0⟩ :=
  rfl

/-- With the inner sequence cut out, the literal can take the place of the whole tree and be the root, but the
root cannot take the place of the literal. -/
theorem nested_rooted :
    nestedFound.tree.Admits (fun t e => e.Allowed t ∧ ¬e.BuriesRoot t) [.remove 1] ∧
      let t := nestedFound.tree.editAll [.remove 1]
      t.isAttached t.root = true ∧
        ((t.edit (.replace 2 0)).root = 0 ∧ (t.edit (.replace 2 0)).isAttached 0 = true) ∧
        ((t.edit (.replace 0 2)).root = 2 ∧ (t.edit (.replace 0 2)).isAttached 2 ≠ true) := by
  obtain ⟨_, attached, next⟩ := root_of_edits traceAt_nested [.remove 1] (by decide)
  refine ⟨by decide, attached, ⟨rfl, ?_⟩, rfl, ?_⟩
  · exact (next (.replace 2 0) (by decide)).2.mpr (by decide)
  · exact fun buried => absurd ((next (.replace 0 2) (by decide)).2.mp buried) (by decide)

/-- **A root with a parent.** Two edits that may be made bury the root of a matched tree. -/
theorem nested_buried :
    (traceAt nested 2 (String.ofList ['a']) 0 {} .silent ()).1 = .ok ⟨some nestedFound, 0⟩ ∧
      nestedFound.tree.Admits (fun t e => e.Allowed t) [.remove 1, .replace 0 2] ∧
      let t := nestedFound.tree.editAll [.remove 1, .replace 0 2]
      t.parent t.root = some 1 ∧ t.isAttached t.root = false :=
  ⟨traceAt_nested, by decide, rfl, rfl⟩

end Match

end BnfTokenizer
