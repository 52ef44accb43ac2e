import BnfTokenizer.Proofs.ParseTree.Root

/-!
# What a replacement changes

A node with a parent is replaced by another one in three steps: the other one is cut out, it takes the place among the
children of the parent, and the node is cut out. `Replaced` says what comes of it for all places at once, and it holds
wherever the other node was before, next to the node, below it, or in a part that was cut out
(`Forest.replaced_of_parent`): what two lists lose and one gains does not depend on the order of the steps.

A node without a parent is taken for the root, and the other one becomes the root in its place. The top of a part that
was cut out has no parent either. So a replacement there changes which tree is *the* tree, though nothing in the tree
was touched. `Edit.CrownsOther` names that edit, and of all others it is true that only replacing the root changes the
root.
-/

namespace BnfTokenizer

namespace ParseTree

variable {t u : ParseTree} {r other p : Ref}

/-! ## A node with a parent -/

theorem spliceAt_singleton (r other : Ref) (children : List Ref) :
    spliceAt r [other] children = children.replace r other := by
  induction children with
  | nil => rfl
  | cons c cs ih =>
    rw [spliceAt, List.replace_cons]
    by_cases here : c = r
    · rw [if_pos here, here, beq_self_eq_true]
      rfl
    · rw [if_neg here, beq_false_of_ne (Ne.symm here), ih]

/-- `u` is `t` with `other` in the place of `r`, under the parent `p` of `r`: all that differs is that these two have
other parents, and the lists that they were in. -/
structure Replaced (t : ParseTree) (r other p : Ref) (u : ParseTree) : Prop extends Alike t u where
  place : u.children p = ((t.children p).erase other).replace r other
  before : ∀ q, t.parent other = some q → q ≠ p → u.children q = (t.children q).erase other
  taken : u.parent other = some p
  freed : u.parent r = none
  own : u.children other = t.children other
  below : u.children r = (t.children r).erase other
  parent : ∀ c, c ≠ r → c ≠ other → u.parent c = t.parent c
  children : ∀ c, c ≠ p → t.parent other ≠ some c → u.children c = t.children c

namespace Forest

theorem parent_remove_of_ne (forest : t.Forest) (differs : other ≠ r) : (t.remove other).parent r = t.parent r := by
  rw [forest.parent_remove, if_neg (Ne.symm differs)]

section

variable (forest : t.Forest) (link : t.parent r = some p) (inside : other < t.size) (differs : other ≠ r)
  (free : ¬t.Above other r)

include forest link inside differs free

/-- Every list of children loses the one and gains it in the place of the other. -/
theorem children_replace_eq (c : Ref) :
    (t.replace r other).children c = ((t.children c).erase other).replace r other := by
  have place : (t.remove other).parent r = some p := (forest.parent_remove_of_ne differs).trans link
  rw [forest.children_replace differs free inside place, spliceAt_singleton, forest.children_remove,
    (forest.once c).erase_eq_filter]

/-- Only the parent of a node has a place to give. -/
theorem children_replace_of_ne {c : Ref} (elsewhere : c ≠ p) :
    (t.replace r other).children c = (t.children c).erase other := by
  rw [children_replace_eq forest link inside differs free, List.replace_of_not_mem]
  exact fun listed => forest.not_mem_children link elsewhere (List.mem_of_mem_erase listed)

/-- **A replacement does what it says**, wherever the node that is put in was before. -/
theorem replaced_of_parent : Replaced t r other p (t.replace r other) := by
  have place : (t.remove other).parent r = some p := (forest.parent_remove_of_ne differs).trans link
  have parents := forest.parent_replace differs free inside place
  have elsewhere := fun {c} => children_replace_of_ne forest link inside differs free (c := c)
  have unlisted : ∀ c, t.parent other ≠ some c → other ∉ t.children c :=
    fun c apart => mt (forest.linked c other).mp apart
  have alike := alike_replace t r other
  rw [root_replace_of_parent place] at alike
  refine ⟨alike, children_replace_eq forest link inside differs free p, fun q _ => elsewhere, ?_, ?_, ?_, ?_, ?_, ?_⟩
  · rw [parents, if_neg differs, if_pos rfl]
  · rw [parents, if_pos rfl]
  · have notParent : other ≠ p := by
      rintro rfl
      exact free (.single link)
    rw [elsewhere notParent, List.erase_of_not_mem]
    exact unlisted other fun circle => forest.acyclic other (.single circle)
  · exact elsewhere (forest.ne_of_parent link)
  · intro c notPlace notNew
    rw [parents, if_neg notPlace, if_neg notNew, forest.parent_remove, if_neg notNew]
  · intro c notAbove apart
    rw [elsewhere notAbove, List.erase_of_not_mem (unlisted c apart)]

end

end Forest

/-- Two letters in a repetition, behind a negation. -/
def lettersTree : ParseTree :=
  ⟨['x', 'a', 'b', 'c'],
    #[⟨5, none, ⟨1, 1⟩, none, [], some 4, none⟩, ⟨0, some "inner", ⟨1, 2⟩, none, [], some 3, none⟩,
      ⟨4, some "outer", ⟨2, 3⟩, none, [], some 3, none⟩, ⟨3, none, ⟨1, 3⟩, none, [1, 2], some 4, none⟩,
      ⟨6, some "word", ⟨1, 3⟩, none, [0, 3], none, none⟩], 4⟩

theorem traceAt_lettersTree :
    (Match.traceAt Match.letters 6 (String.ofList ['x', 'a', 'b', 'c']) 1 {} .silent ()).1 =
      .ok ⟨some ⟨lettersTree, 3⟩, 3⟩ :=
  rfl

theorem forest_lettersTree : lettersTree.Forest :=
  (Match.rooted_of_traceAt traceAt_lettersTree).toForest

/-- The repetition is replaced by the sibling before it, and by the last of its own children. -/
theorem letters_replaced :
    (lettersTree.Forest ∧ lettersTree.parent 3 = some 4 ∧ ¬lettersTree.Above 0 3 ∧ ¬lettersTree.Above 2 3) ∧
      (Replaced lettersTree 3 0 4 (lettersTree.replace 3 0) ∧ (lettersTree.replace 3 0).children 4 = [0]) ∧
      Replaced lettersTree 3 2 4 (lettersTree.replace 3 2) ∧ (lettersTree.replace 3 2).children 4 = [0, 2] ∧
        (lettersTree.replace 3 2).children 3 = [1] := by
  have forest := forest_lettersTree
  have sibling : ¬lettersTree.Above 0 3 := forest.not_above (by decide)
  have child : ¬lettersTree.Above 2 3 := forest.not_above (by decide)
  exact ⟨⟨forest, rfl, sibling, child⟩, ⟨forest.replaced_of_parent rfl (by decide) (by decide) sibling, rfl⟩,
    forest.replaced_of_parent rfl (by decide) (by decide) child, rfl, rfl⟩

/-! ## A node without one -/

/-- Does the edit put another node in the place of one that has no parent and is not the root? -/
def Edit.CrownsOther (t : ParseTree) : Edit → Prop
  | .replace r other => r ≠ t.root ∧ t.parent r = none ∧ other ≠ r
  | _ => False

instance (t : ParseTree) : (e : Edit) → Decidable (e.CrownsOther t)
  | .replace r other => inferInstanceAs (Decidable (r ≠ t.root ∧ t.parent r = none ∧ other ≠ r))
  | .remove _ => inferInstanceAs (Decidable False)
  | .lift _ => inferInstanceAs (Decidable False)
  | .setPayload _ _ => inferInstanceAs (Decidable False)
  | .setValue _ _ => inferInstanceAs (Decidable False)
  | .cull _ _ => inferInstanceAs (Decidable False)

/-- The root after a replacement. -/
theorem Forest.root_replace_eq (forest : t.Forest) (r other : Ref) :
    (t.replace r other).root = if t.parent r = none ∧ other ≠ r then other else t.root := by
  by_cases differs : other = r
  · rw [ParseTree.replace, if_pos differs, if_neg fun both => both.2 differs]
  · have same := forest.parent_remove_of_ne differs
    cases link : t.parent r with
    | none => rw [replace_of_parent_eq_none differs (same.trans link), if_pos ⟨rfl, differs⟩]
    | some p => rw [root_replace_of_parent (same.trans link), if_neg fun both => Option.some_ne_none p both.1]

/-- No other edit changes the root. -/
theorem exists_replace_of_root_ne {e : Edit} (changes : (t.edit e).root ≠ t.root) :
    ∃ r other, e = .replace r other := by
  cases e with
  | replace r other => exact ⟨r, other, rfl⟩
  | remove r => exact absurd (root_remove t r) changes
  | lift r => exact absurd (root_lift t r) changes
  | cull r filters => exact absurd (alike_cull t r filters).root changes
  | setPayload r payload => exact absurd rfl changes
  | setValue r value => exact absurd rfl changes

theorem isAttached_of_parent_eq_none (top : t.parent r = none) (differs : r ≠ t.root) : t.isAttached r = false := by
  rw [isAttached, ParseTree.top, topFrom_of_parent_eq_none _ top]
  exact beq_false_of_ne differs

end ParseTree

namespace Match

open ParseTree (Edit)

variable {σ : Type} {g : Grammar} {id : NodeId} {input : String} {offset : Nat} {limits : Limits}
  {tracer : Tracer σ} {gathered : σ} {found : Found} {furthest : Nat}

/-- **When the root changes.** After any edits, the next one changes the root only if it puts another node in the place
of the root, which is then the root, or if it puts one in the place of the top of a part that was cut out. In that case
the other node is the root as well, though the node that it replaces was not attached. -/
theorem root_change_of_edits
    (ends : (traceAt g id input offset limits tracer gathered).1 = .ok ⟨some found, furthest⟩)
    (edits : List Edit) (admits : found.tree.Admits (fun t e => e.Allowed t) edits) :
    let t := found.tree.editAll edits
    ∀ e : Edit,
      (¬e.CrownsOther t → (t.edit e).root ≠ t.root →
        ∃ other, e = .replace t.root other ∧ other ≠ t.root ∧ (t.edit e).root = other) ∧
      (e.CrownsOther t → ∃ r other, e = .replace r other ∧ t.isAttached r = false ∧ (t.edit e).root = other) := by
  intro t e
  have forest : t.Forest := ParseTree.editAll_induction (fun _ _ forest allowed => forest.edit allowed) edits
    (rooted_of_traceAt ends).toForest admits
  constructor
  · intro lawful changes
    obtain ⟨r, other, rfl⟩ := ParseTree.exists_replace_of_root_ne changes
    have becomes : (t.edit (.replace r other)).root = _ := forest.root_replace_eq r other
    by_cases both : t.parent r = none ∧ other ≠ r
    · rw [if_pos both] at becomes
      have atRoot : r = t.root := by_contra fun elsewhere => lawful ⟨elsewhere, both⟩
      exact ⟨other, atRoot ▸ rfl, atRoot ▸ both.2, becomes⟩
    · rw [if_neg both] at becomes
      exact absurd becomes changes
  · intro crowns
    match e, crowns with
    | .replace r other, ⟨elsewhere, top, differs⟩ =>
      have becomes : (t.edit (.replace r other)).root = _ := forest.root_replace_eq r other
      rw [if_pos ⟨top, differs⟩] at becomes
      exact ⟨r, other, rfl, ParseTree.isAttached_of_parent_eq_none top elsewhere, becomes⟩

/-- With the inner sequence cut out, it can take the place of the root and be the root, and the literal under it can
take its own place, and is the root then too. -/
theorem nested_succession :
    nestedFound.tree.Admits (fun t e => e.Allowed t) [.remove 1] ∧
      let t := nestedFound.tree.editAll [.remove 1]
      ((t.edit (.replace 2 1)).root ≠ t.root ∧ ¬(Edit.replace 2 1).CrownsOther t ∧
        ∃ other, Edit.replace 2 1 = .replace t.root other ∧ other ≠ t.root ∧ (t.edit (.replace 2 1)).root = other) ∧
      (Edit.replace 1 0).CrownsOther t ∧
        ∃ r other, Edit.replace 1 0 = .replace r other ∧ t.isAttached r = false ∧
          (t.edit (.replace 1 0)).root = other := by
  have changes := root_change_of_edits traceAt_nested [.remove 1] (by decide)
  refine ⟨by decide, ⟨by decide, by decide, ?_⟩, by decide, ?_⟩
  · exact (changes (.replace 2 1)).1 (by decide) (by decide)
  · exact (changes (.replace 1 0)).2 (by decide)

/-- **A root from a part that was cut out.** An edit of nodes that are not attached changes the root. -/
theorem nested_crowned :
    (traceAt nested 2 (String.ofList ['a']) 0 {} .silent ()).1 = .ok ⟨some nestedFound, 0⟩ ∧
      nestedFound.tree.Admits (fun t e => e.Allowed t) [.remove 1, .replace 1 0] ∧
      let t := nestedFound.tree.editAll [.remove 1]
      t.root = 2 ∧ t.isAttached 1 = false ∧ t.isAttached 0 = false ∧ (t.edit (.replace 1 0)).root = 0 :=
  ⟨traceAt_nested, by decide, rfl, rfl, rfl, rfl⟩

end Match

end BnfTokenizer
