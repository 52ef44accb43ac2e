import Mathlib.Data.List.Perm.Subperm
import Mathlib.Logic.Relation
import BnfTokenizer.Proofs.ParseTree.Walks

/-!
# The table is a forest

A table holds every link twice: a parent lists its child, and the child names its parent. `Forest` says that
the two agree, that no child is listed twice, and that no node is above itself. It says nothing of `root`,
and it does not ask how many trees there are, so what was cut out is as much a part of the forest as what
was not.

The edits keep a forest. Each is first read as what it does to the links of all places at once: `remove`
takes one parent away, `lift` hands the children of a place to its parent, and `replace` takes parents away
and then gives one. So the first two only drop or shorten ways up, and no way up can come back to where it
began. The last one could close a circle, where the node that is put in lies above its new place; that is
what is ruled out for it.

`Above` is not bounded by anything. The search that the program makes for a node above another one is, by the
size of the table, and in a forest this finds all of them (`Forest.isAncestor_iff`).
-/

namespace BnfTokenizer.ParseTree

open Relation (TransGen ReflTransGen)

/-- `a` lies strictly above `r`: there is a way up from `r` to `a`. -/
def Above (t : ParseTree) (a r : Ref) : Prop :=
  TransGen (fun child parent => t.parent child = some parent) r a

/-- The links of a table make up trees, whichever of them is the one at the root. -/
structure Forest (t : ParseTree) : Prop where
  linked : ∀ p c, c ∈ t.children p ↔ t.parent c = some p
  once : ∀ p, (t.children p).Nodup
  acyclic : ∀ r, ¬t.Above r r

section

variable {t u : ParseTree} {a c p r other : Ref}

/-! ## Outside the table -/

/-- Outside the table no node has a parent, -/
theorem parent_of_size_le (outside : t.size ≤ r) : t.parent r = none := by
  rw [parent, node_of_size_le t outside]
  rfl

/-- nor any children. -/
theorem children_of_size_le (outside : t.size ≤ r) : t.children r = [] := by
  rw [children, node_of_size_le t outside]
  rfl

theorem child_inside (link : t.parent c = some p) : c < t.size := by
  refine Nat.not_le.mp fun outside => ?_
  rw [parent_of_size_le outside] at link
  cases link

namespace Forest

/-- A parent is in the table. -/
theorem parent_inside (forest : t.Forest) (link : t.parent c = some p) : p < t.size := by
  refine Nat.not_le.mp fun outside => ?_
  have listed := (forest.linked p c).mpr link
  rw [children_of_size_le outside] at listed
  cases listed

/-- No node of a forest is its own parent. -/
theorem ne_of_parent (forest : t.Forest) (link : t.parent c = some p) : c ≠ p := by
  rintro rfl
  exact forest.acyclic c (.single link)

/-- A node is listed in one place only. -/
theorem not_mem_children (forest : t.Forest) (link : t.parent c = some p) (elsewhere : r ≠ p) :
    c ∉ t.children r := by
  rw [forest.linked, link]
  exact fun same => elsewhere (Option.some.inj same).symm

theorem congr (forest : t.Forest) (parents : ∀ r, u.parent r = t.parent r)
    (children : ∀ r, u.children r = t.children r) : u.Forest where
  linked p c := by rw [children, parents, forest.linked]
  once p := children p ▸ forest.once p
  acyclic r above := forest.acyclic r (by simpa only [Above, parents] using above)

end Forest

/-! ## Ways up -/

/-- What stands above a node is in the table. -/
theorem Above.inside (above : t.Above a r) (forest : t.Forest) : a < t.size := by
  obtain ⟨c, _, link⟩ := TransGen.tail'_iff.mp above
  exact forest.parent_inside link

/-- What lies above a place is its parent or lies above that. -/
theorem above_iff : t.Above a r ↔ ∃ p, t.parent r = some p ∧ (p = a ∨ t.Above a p) := by
  refine TransGen.head'_iff.trans (exists_congr fun p => and_congr_right fun _ => ?_)
  rw [Relation.reflTransGen_iff_eq_or_transGen, eq_comm]
  rfl

/-- A new edge makes new ways only through itself. -/
theorem transGen_insert {α : Type} {R : α → α → Prop} {a b x y : α}
    (way : TransGen (fun x y => R x y ∨ x = a ∧ y = b) x y) :
    TransGen R x y ∨ ReflTransGen R x a ∧ ReflTransGen R b y := by
  induction way with
  | single edge =>
    rcases edge with old | ⟨rfl, rfl⟩
    · exact .inl (.single old)
    · exact .inr ⟨.refl, .refl⟩
  | tail _ edge ih =>
    rcases edge, ih with ⟨old | ⟨rfl, rfl⟩, before | ⟨before, after⟩⟩
    · exact .inl (before.tail old)
    · exact .inr ⟨before, after.tail old⟩
    · exact .inr ⟨before.to_reflTransGen, .refl⟩
    · exact .inr ⟨before, .refl⟩

/-! ## Splices -/

/-- A splice of a list without repetitions, seen from where it is made. -/
theorem exists_splice {children : List Ref} (once : children.Nodup) (listed : r ∈ children)
    (instead : List Ref) : ∃ before after, children = before ++ r :: after ∧ r ∉ before ++ after ∧
      (before ++ after).Nodup ∧ spliceAt r instead children = before ++ (instead ++ after) := by
  obtain ⟨before, after, rfl⟩ := List.append_of_mem listed
  obtain ⟨apart, rest⟩ := List.nodup_cons.mp (List.perm_middle.nodup_iff.mp once)
  have absent : r ∉ before := fun mem => apart (List.mem_append_left _ mem)
  exact ⟨before, after, rfl, apart, rest, spliceAt_append_cons _ _ absent⟩

/-- Splicing puts the new nodes in the place of one, and keeps the others. -/
theorem mem_spliceAt {children instead : List Ref} (once : children.Nodup) :
    c ∈ spliceAt r instead children ↔ r ∈ children ∧ c ∈ instead ∨ c ∈ children ∧ c ≠ r := by
  by_cases listed : r ∈ children
  · obtain ⟨before, after, rfl, apart, _, spliced⟩ := exists_splice once listed instead
    rw [spliced]
    grind
  · rw [spliceAt_of_not_mem _ listed]
    grind

theorem nodup_spliceAt {children instead : List Ref} (once : children.Nodup) (new : instead.Nodup)
    (apart : ∀ c ∈ instead, c ∉ children) : (spliceAt r instead children).Nodup := by
  by_cases listed : r ∈ children
  · obtain ⟨before, after, rfl, _, rest, spliced⟩ := exists_splice once listed instead
    rw [spliced]
    grind
  · rw [spliceAt_of_not_mem _ listed]
    exact once

/-! ## Cutting -/

/-- What hangs nowhere cannot be taken off. -/
theorem remove_of_parent_eq_none (top : t.parent c = none) : t.remove c = t := by
  unfold remove
  rw [top]

theorem lift_of_parent_eq_none (top : t.parent c = none) : t.lift c = t := by
  unfold lift
  rw [top]

namespace Forest

/-- Removing takes a node off its parent, and no other. -/
theorem parent_remove (forest : t.Forest) (c r : Ref) :
    (t.remove c).parent r = if r = c then none else t.parent r := by
  cases link : t.parent c with
  | none =>
    rw [remove_of_parent_eq_none link]
    split
    · next same => rw [same, link]
    · rfl
  | some p =>
    obtain ⟨own, above, frame⟩ := node_remove link (forest.parent_inside link) (child_inside link)
      (forest.ne_of_parent link)
    split
    · next same => rw [same, parent, own]
    · next differs =>
      by_cases atParent : r = p
      · rw [atParent, parent, above]
        rfl
      · rw [parent, frame r differs atParent]
        rfl

/-- A node that is removed is missing from its parent's children, and these are all that changes. -/
theorem children_remove (forest : t.Forest) (c r : Ref) :
    (t.remove c).children r = (t.children r).filter (· != c) := by
  have unlisted : c ∉ t.children r → (t.children r).filter (· != c) = t.children r := fun absent =>
    List.filter_eq_self.mpr fun other listed => bne_iff_ne.mpr fun same => absent (same ▸ listed)
  cases link : t.parent c with
  | none =>
    rw [remove_of_parent_eq_none link, unlisted]
    rw [forest.linked, link]
    exact nofun
  | some p =>
    have differs := forest.ne_of_parent link
    obtain ⟨own, above, frame⟩ := node_remove link (forest.parent_inside link) (child_inside link) differs
    by_cases atParent : r = p
    · rw [atParent, children, above]
    · rw [unlisted (forest.not_mem_children link atParent), children]
      by_cases here : r = c
      · rw [here, own]
        rfl
      · rw [frame r here atParent]
        rfl

/-- Removing puts nothing above a node that was not above it before. -/
theorem above_of_above_remove (forest : t.Forest) (above : (t.remove c).Above a r) : t.Above a r := by
  refine TransGen.mono (fun child parent link => ?_) _ _ above
  rw [forest.parent_remove] at link
  split at link
  · cases link
  · exact link

/-- **A cut keeps a forest.** -/
theorem remove (forest : t.Forest) (c : Ref) : (t.remove c).Forest where
  linked p r := by
    rw [forest.children_remove, forest.parent_remove, List.mem_filter, forest.linked, bne_iff_ne]
    by_cases same : r = c <;> simp [same]
  once p := by
    rw [forest.children_remove]
    exact (forest.once p).filter _
  acyclic r above := forest.acyclic r (forest.above_of_above_remove above)

/-! ## Lifting -/

/-- What lifting does to the nodes, where the links are known to make a forest. -/
theorem node_lift (forest : t.Forest) (link : t.parent c = some p) :
    (t.lift c).node c = { t.node c with children := [], parent := none } ∧
      (t.lift c).node p =
        { t.node p with children := spliceAt c (t.children c) (t.children p) } ∧
      (∀ r ∈ t.children c, (t.lift c).node r = { t.node r with parent := some p }) ∧
      ∀ r, r ≠ c → r ≠ p → r ∉ t.children c → (t.lift c).node r = t.node r := by
  refine ParseTree.node_lift link (forest.parent_inside link) (child_inside link)
    (forest.ne_of_parent link) (forest.once c) fun r listed => ?_
  have under := (forest.linked c r).mp listed
  refine ⟨forest.ne_of_parent under, ?_, child_inside under⟩
  rintro rfl
  exact forest.acyclic r (.tail (.single under) link)

/-- Lifting hands the children of a node on to its parent. -/
theorem parent_lift (forest : t.Forest) (link : t.parent c = some p) (r : Ref) :
    (t.lift c).parent r = if r = c then none else if t.parent r = some c then some p else t.parent r := by
  obtain ⟨own, above, moved, frame⟩ := forest.node_lift link
  split
  · next same => rw [same, parent, own]
  · next differs =>
    split
    · next under => rw [parent, moved r ((forest.linked c r).mpr under)]
    · next notUnder =>
      by_cases atParent : r = p
      · rw [atParent, parent, above]
        rfl
      · rw [parent, frame r differs atParent fun listed => notUnder ((forest.linked c r).mp listed)]
        rfl

/-- The children stand where the node stood, in their order. -/
theorem children_lift (forest : t.Forest) (link : t.parent c = some p) (r : Ref) :
    (t.lift c).children r = if r = c then [] else spliceAt c (t.children c) (t.children r) := by
  obtain ⟨own, above, moved, frame⟩ := forest.node_lift link
  split
  · next same => rw [same, children, own]
  · next differs =>
    by_cases atParent : r = p
    · rw [atParent, children, above]
    · rw [spliceAt_of_not_mem _ (forest.not_mem_children link atParent), children]
      by_cases under : r ∈ t.children c
      · rw [moved r under]
        rfl
      · rw [frame r differs atParent under]
        rfl

/-- **A lift keeps a forest.** -/
theorem lift (forest : t.Forest) (c : Ref) : (t.lift c).Forest := by
  cases link : t.parent c with
  | none => exact (lift_of_parent_eq_none link).symm ▸ forest
  | some p =>
    have differs := forest.ne_of_parent link
    refine ⟨fun q r => ?_, fun q => ?_, fun r above => ?_⟩
    · rw [forest.children_lift link, forest.parent_lift link]
      by_cases atPlace : q = c
      · rw [if_pos atPlace, atPlace]
        grind
      · rw [if_neg atPlace, mem_spliceAt (forest.once q), forest.linked, forest.linked, forest.linked, link]
        grind
    · rw [forest.children_lift link]
      split
      · exact List.nodup_nil
      · next elsewhere =>
        exact nodup_spliceAt (forest.once q) (forest.once c) fun r under =>
          forest.not_mem_children ((forest.linked c r).mp under) elsewhere
    · -- Each step up is one of before, or two that led over `c`.
      refine forest.acyclic r (TransGen.closed (fun child parent step => ?_) _ _ above)
      rw [forest.parent_lift link] at step
      split at step
      · cases step
      · split at step
        · next under => exact .tail (.single under) (link.trans step)
        · exact .single step

end Forest

/-! ## Replacing -/

/-- Where the replaced node has no parent, the other becomes the root. -/
theorem replace_of_parent_eq_none (differs : other ≠ r) (top : (t.remove other).parent r = none) :
    t.replace r other = { t.remove other with root := other } := by
  unfold replace
  rw [if_neg differs]
  dsimp only
  rw [top]

/-- Where it has one, the root stays. -/
theorem root_replace_of_parent (link : (t.remove other).parent r = some p) :
    (t.replace r other).root = t.root := by
  unfold replace
  split
  · rfl
  · dsimp only
    rw [link]
    exact root_remove t other

namespace Forest

section

variable (forest : t.Forest) (differs : other ≠ r) (free : ¬t.Above other r) (inside : other < t.size)
  (link : (t.remove other).parent r = some p)

include forest differs free inside link

/-- What replacing does to the nodes, once `other` is cut out. -/
theorem node_replace :
    (t.replace r other).node r = { (t.remove other).node r with parent := none } ∧
      (t.replace r other).node other = { (t.remove other).node other with parent := some p } ∧
      (t.replace r other).node p = { (t.remove other).node p with
        children := spliceAt r [other] ((t.remove other).children p) } ∧
      ∀ c, c ≠ r → c ≠ other → c ≠ p → (t.replace r other).node c = (t.remove other).node c := by
  have cut := forest.remove other
  have notSelf := cut.ne_of_parent link
  have notOther : other ≠ p := by
    rintro rfl
    exact free (forest.above_of_above_remove (.single link))
  have sizes : (t.remove other).size = t.size := size_remove t other
  have placed := child_inside link
  have above := cut.parent_inside link
  unfold replace
  rw [if_neg differs]
  dsimp only
  rw [link]
  dsimp only
  refine ⟨?_, ?_, ?_, fun c notPlace notNew notAbove => ?_⟩
  · rw [node_modify_self _ _ (by simpa only [size_modify] using placed), node_modify_of_ne _ _ differs,
      node_modify_of_ne _ _ notSelf.symm]
  · rw [node_modify_of_ne _ _ differs.symm, node_modify_self _ _ (by rwa [size_modify, sizes]),
      node_modify_of_ne _ _ notOther.symm]
  · rw [node_modify_of_ne _ _ notSelf, node_modify_of_ne _ _ notOther, node_modify_self _ _ above]
    rfl
  · rw [node_modify_of_ne _ _ notPlace.symm, node_modify_of_ne _ _ notNew.symm,
      node_modify_of_ne _ _ notAbove.symm]

/-- The other node hangs where the replaced one hung, which hangs nowhere. -/
theorem parent_replace (c : Ref) :
    (t.replace r other).parent c =
      if c = r then none else if c = other then some p else (t.remove other).parent c := by
  obtain ⟨own, new, above, frame⟩ := node_replace forest differs free inside link
  split
  · next same => rw [same, parent, own]
  · next notPlace =>
    split
    · next same => rw [same, parent, new]
    · next notNew =>
      by_cases atParent : c = p
      · rw [atParent, parent, above]
        rfl
      · rw [parent, frame c notPlace notNew atParent]
        rfl

/-- It stands in the place of the replaced one among its siblings. -/
theorem children_replace (c : Ref) :
    (t.replace r other).children c = spliceAt r [other] ((t.remove other).children c) := by
  obtain ⟨own, new, above, frame⟩ := node_replace forest differs free inside link
  by_cases atParent : c = p
  · rw [atParent, children, above]
  · rw [spliceAt_of_not_mem _ ((forest.remove other).not_mem_children link atParent), children]
    by_cases atPlace : c = r
    · rw [atPlace, own]
      rfl
    · by_cases atNew : c = other
      · rw [atNew, new]
        rfl
      · rw [frame c atPlace atNew atParent]
        rfl

end

/-- **A replacement keeps a forest**, unless what is put in lies above its new place. -/
theorem replace (forest : t.Forest) (inside : other < t.size) (free : ¬t.Above other r) :
    (t.replace r other).Forest := by
  by_cases differs : other = r
  · rw [ParseTree.replace, if_pos differs]
    exact forest
  have cut := forest.remove other
  have top : (t.remove other).parent other = none := by rw [forest.parent_remove, if_pos rfl]
  cases link : (t.remove other).parent r with
  | none =>
    rw [replace_of_parent_eq_none differs link]
    exact cut.congr (fun _ => rfl) fun _ => rfl
  | some p =>
    have parents := parent_replace forest differs free inside link
    have children := children_replace forest differs free inside link
    have differ := cut.ne_of_parent link
    refine ⟨fun q c => ?_, fun q => ?_, fun c circle => ?_⟩
    · rw [children, parents, mem_spliceAt (cut.once q), cut.linked, cut.linked, link, List.mem_singleton]
      grind
    · rw [children]
      refine nodup_spliceAt (cut.once q) (List.pairwise_singleton _ other) fun c new listed => ?_
      rw [List.mem_singleton.mp new, cut.linked, top] at listed
      cases listed
    · -- The one new step leads from `other` to `p`, so a circle would lead from `p` up to `other`.
      have step : ∀ child parent, (t.replace r other).parent child = some parent →
          (t.remove other).parent child = some parent ∨ child = other ∧ parent = p := by
        intro child parent step
        rw [parents] at step
        grind
      rcases transGen_insert (TransGen.mono step _ _ circle) with old | ⟨before, after⟩
      · exact cut.acyclic c old
      · exact free (forest.above_of_above_remove (.head' link (after.trans before)))

/-! ## Culling -/

/-- **Culling keeps a forest**, also where it goes through child lists that it changes on the way. -/
theorem cullFrom (forest : t.Forest) (filters : List Filter) (depth : Nat) (r : Ref) :
    (cullFrom filters depth t r).Forest :=
  cullFrom_induction (fun _ c forest => forest.remove c) (fun _ c forest => forest.lift c) filters depth forest r

theorem cull (forest : t.Forest) (r : Ref) (filters : List Filter) : (t.cull r filters).Forest :=
  forest.cullFrom filters t.size r

end Forest

/-! ## The search for what lies above -/

/-- What a climb meets stands above its start. -/
theorem above_of_mem_ancestorsFrom {fuel : Nat} (listed : a ∈ t.ancestorsFrom fuel r) : t.Above a r := by
  induction fuel generalizing r with
  | zero => cases listed
  | succ fuel ih =>
    rw [ancestorsFrom] at listed
    split at listed
    · next p link =>
      rcases List.mem_cons.mp listed with rfl | higher
      · exact .single link
      · exact .head link (ih higher)
    · cases listed

/-- With less fuel the search finds the beginning of the same chain. -/
theorem take_ancestorsFrom (less fuel : Nat) (r : Ref) :
    (t.ancestorsFrom fuel r).take less = t.ancestorsFrom (min less fuel) r := by
  induction fuel generalizing less r with
  | zero => rw [ancestorsFrom, List.take_nil, Nat.min_zero, ancestorsFrom]
  | succ fuel ih =>
    cases less with
    | zero => rw [List.take_zero, Nat.zero_min, ancestorsFrom]
    | succ less =>
      rw [Nat.succ_min_succ, ancestorsFrom, ancestorsFrom]
      cases t.parent r with
      | none => rfl
      | some p => exact congrArg (p :: ·) (ih less p)

/-- What stands above a node is met with fuel enough. -/
theorem exists_mem_ancestorsFrom (above : t.Above a r) : ∃ fuel, a ∈ t.ancestorsFrom fuel r := by
  induction above using TransGen.head_induction_on with
  | single link => exact ⟨1, by rw [ancestorsFrom, link]; exact List.mem_cons_self⟩
  | head link _ ih =>
    obtain ⟨fuel, listed⟩ := ih
    exact ⟨fuel + 1, by rw [ancestorsFrom, link]; exact List.mem_cons_of_mem _ listed⟩

namespace Forest

/-- No node of a forest is met twice, so fuel for all nodes is enough. -/
theorem nodup_ancestorsFrom (forest : t.Forest) (fuel : Nat) (r : Ref) :
    (t.ancestorsFrom fuel r).Nodup := by
  induction fuel generalizing r with
  | zero => exact List.nodup_nil
  | succ fuel ih =>
    rw [ancestorsFrom]
    split
    · next p link =>
      exact List.nodup_cons.mpr ⟨fun again => forest.acyclic p (above_of_mem_ancestorsFrom again), ih p⟩
    · exact List.nodup_nil

/-- As no node is above itself, a chain of parents is no longer than the table. -/
theorem length_ancestorsFrom_le (forest : t.Forest) (fuel : Nat) (r : Ref) :
    (t.ancestorsFrom fuel r).length ≤ t.size := by
  have inside : t.ancestorsFrom fuel r ⊆ List.range t.size := fun a listed =>
    List.mem_range.mpr ((above_of_mem_ancestorsFrom listed).inside forest)
  have few := ((forest.nodup_ancestorsFrom fuel r).subperm inside).length_le
  rwa [List.length_range] at few

/-- **The search for ancestors is exact**: a chain of parents ends before its fuel does. -/
theorem isAncestor_iff (forest : t.Forest) : t.isAncestor a r = true ↔ t.Above a r := by
  rw [isAncestor, List.contains_iff_mem]
  refine ⟨above_of_mem_ancestorsFrom, fun above => ?_⟩
  obtain ⟨fuel, listed⟩ := exists_mem_ancestorsFrom above
  rw [← List.take_of_length_le (forest.length_ancestorsFrom_le fuel r), take_ancestorsFrom] at listed
  have first := take_ancestorsFrom (t := t) (min t.size fuel) t.size r
  rw [Nat.min_eq_left (Nat.min_le_left t.size fuel)] at first
  exact List.mem_of_mem_take (first ▸ listed)

/-- Where the check finds no ancestor there is none. -/
theorem not_above (forest : t.Forest) (apart : t.isAncestor a r = false) : ¬t.Above a r := fun above => by
  rw [forest.isAncestor_iff.mpr above] at apart
  cases apart

end Forest

/-! ## A fresh table -/

theorem above_topFrom (circle : t.Above r r) (fuel : Nat) : t.Above (t.topFrom fuel r) (t.topFrom fuel r) := by
  induction fuel generalizing r with
  | zero => exact circle
  | succ fuel ih =>
    obtain ⟨p, link, rfl | higher⟩ := above_iff.mp circle
    · rw [topFrom, link]
      exact ih circle
    · rw [topFrom, link]
      exact ih (.tail higher link)

namespace Plant

mutual

/-- Every place of a plant but the topmost one is listed by its parent. -/
theorem Hangs.listed : ∀ {q : Plant} {parent : Option Ref}, q.Hangs t parent → r ∈ q.places →
    r = q.place ∨ ∃ p, t.parent r = some p ∧ r ∈ t.children p
  | node place under, parent, hangs, mem => by
    rcases List.mem_cons.mp mem with rfl | below
    · exact .inl rfl
    · rcases ListHangs.listed hangs.2.2 below with top | link
      · obtain ⟨q, one, rfl⟩ := List.mem_map.mp top
        exact .inr ⟨place, (listHangs_iff.mp hangs.2.2 q one).parent_eq, hangs.2.1 ▸ top⟩
      · exact .inr link

theorem ListHangs.listed : ∀ {qs : List Plant} {parent : Option Ref}, ListHangs t parent qs →
    r ∈ listPlaces qs → r ∈ qs.map Plant.place ∨ ∃ p, t.parent r = some p ∧ r ∈ t.children p
  | q :: qs, _, hangs, mem => by
    rcases List.mem_append.mp mem with here | later
    · refine (Hangs.listed hangs.1 here).imp (fun top => ?_) id
      rw [top]
      exact List.mem_cons_self
    · exact (ListHangs.listed hangs.2 later).imp (List.mem_cons_of_mem _) id

end

/-- A table in which a single plant hangs, at all places, is a forest. -/
theorem Hangs.forest {q : Plant} (hangs : q.Hangs t none) (all : q.places.Perm (List.range t.size)) :
    t.Forest := by
  have mem : ∀ r, r < t.size ↔ r ∈ q.places := fun r => List.mem_range.symm.trans all.mem_iff.symm
  refine ⟨fun p c => ⟨fun listed => ?_, fun link => ?_⟩, fun p => ?_, fun r circle => ?_⟩
  · have inside : p < t.size := by
      refine Nat.not_le.mp fun outside => ?_
      rw [children_of_size_le outside] at listed
      cases listed
    obtain ⟨part, above, rfl, own, _⟩ := hangs.exists_part ((mem p).mp inside)
    rw [own.children_eq] at listed
    obtain ⟨child, one, rfl⟩ := List.mem_map.mp listed
    exact (listHangs_iff.mp own.under_hangs child one).parent_eq
  · rcases hangs.listed ((mem c).mp (child_inside link)) with top | ⟨above, other, listed⟩
    · rw [top, hangs.parent_eq] at link
      cases link
    · rw [link] at other
      exact Option.some.inj other ▸ listed
  · by_cases inside : p < t.size
    · obtain ⟨part, above, rfl, own, sub⟩ := hangs.exists_part ((mem p).mp inside)
      have once := (all.nodup_iff.mpr List.nodup_range).sublist sub
      rw [own.children_eq]
      rw [places_eq] at once
      exact (List.nodup_cons.mp once).2.sublist (map_place_sublist part.under)
    · rw [children_of_size_le (Nat.not_lt.mp inside)]
      exact List.nodup_nil
  · -- From `r` one comes to the topmost place, and going round a circle one never comes to a top.
    obtain ⟨p, link, _⟩ := above_iff.mp circle
    obtain ⟨steps, _, climbs⟩ := hangs.topFrom_eq ((mem r).mp (child_inside link))
    have round := above_topFrom circle (0 + steps)
    rw [climbs, topFrom] at round
    obtain ⟨_, beyond, _⟩ := above_iff.mp round
    rw [hangs.parent_eq] at beyond
    cases beyond

end Plant

end

end BnfTokenizer.ParseTree
