import BnfTokenizer.Proofs.ParseTree.Replacement
import BnfTokenizer.Proofs.ParseTree.Rewrite

/-!
# Searches follow the tree

The searches keep a stack, take the topmost node off it and put others on it. What they come to is said here by the
recursion that they stand for: the nodes at and below a node are the node and then those at and below its children
(`preorder`), or the same with the node last (`postorder`).

> A search below a node lists its nodes in the order of the recursion, whatever the shape of the tree
> (`searches_follow_tree`).

What is on a stack is still to be visited, with all below it, so a search lists the preorders of the nodes on its stack,
one after the other (`Forest.visits_eq`). A search that is run from right to left has the stack in the other order, and
what it finds is the postorder read backwards (`Forest.visits_reverse_eq`). The searches for a name and for leaves visit
the same nodes and only look at them (`firstFrom_eq`, `leavesFrom_eq_filter`).
-/

namespace BnfTokenizer.ParseTree

open Plant (listPlaces listPostorder)

variable {t : ParseTree} {r c : Ref}

theorem place_plantAt (t : ParseTree) (r : Ref) : (t.plantAt r).place = r :=
  place_plantFrom ..

/-- The nodes at and below a node, each before those below it. -/
def preorder (t : ParseTree) (r : Ref) : List Ref :=
  (t.plantAt r).places

/-- The nodes at and below a node, each behind those below it. -/
def postorder (t : ParseTree) (r : Ref) : List Ref :=
  (t.plantAt r).postorder

namespace Plant

theorem listPlaces_eq_flatMap (qs : List Plant) : listPlaces qs = qs.flatMap places := by
  induction qs with
  | nil => rfl
  | cons q qs ih => rw [listPlaces, ih, List.flatMap_cons]

theorem listPostorder_eq_flatMap (qs : List Plant) : listPostorder qs = qs.flatMap postorder := by
  induction qs with
  | nil => rfl
  | cons q qs ih => rw [listPostorder, ih, List.flatMap_cons]

end Plant

/-- The two orders list the same nodes. -/
theorem perm_flatMap_postorder (stack : List Ref) : (stack.flatMap t.postorder).Perm (stack.flatMap t.preorder) :=
  List.Perm.flatMap_left _ fun c _ => (t.plantAt c).perm_postorder

/-! ## Other searches -/

/-- The search for a name stops at the first node that has it, of all that would be visited. -/
theorem firstFrom_eq (t : ParseTree) (name : String) (fuel : Nat) (stack : List Ref) :
    t.firstFrom name fuel stack = (visits t.children fuel stack).find? fun c => t.name c == some name := by
  induction fuel generalizing stack with
  | zero => rfl
  | succ fuel ih =>
    cases stack with
    | nil => rfl
    | cons c stack =>
      rw [firstFrom, visits, List.find?_cons]
      by_cases named : t.name c = some name
      · rw [if_pos named, beq_iff_eq.mpr named]
      · rw [if_neg named, beq_false_of_ne named, ih]

/-- The search for leaves keeps the childless ones of the nodes that it visits. -/
theorem leavesFrom_eq_filter (t : ParseTree) (fuel : Nat) (stack : List Ref) :
    t.leavesFrom fuel stack = (visits t.children fuel stack).filter t.isLeaf := by
  induction fuel generalizing stack with
  | zero => rfl
  | succ fuel ih =>
    cases stack with
    | nil => rfl
    | cons c stack =>
      rw [leavesFrom, visits]
      cases children : t.children c with
      | nil =>
        have leaf : t.isLeaf c = true := by rw [isLeaf, children]; rfl
        rw [List.filter_cons_of_pos leaf, List.nil_append, ih]
      | cons child others =>
        have inner : ¬t.isLeaf c = true := by rw [isLeaf, children]; exact Bool.false_ne_true
        rw [List.filter_cons_of_neg inner]
        exact ih _

/-! ## Filing under names -/

/-- A node goes under its name and nowhere else. -/
theorem fileUnder_map {keys : List String} (distinct : keys.Nodup) (listed : String → List Ref) (name : String)
    (c : Ref) : fileUnder name c (keys.map fun key => (key, listed key)) =
      keys.map fun key => (key, listed key ++ if key = name then [c] else []) := by
  induction keys with
  | nil => rfl
  | cons key keys ih =>
    obtain ⟨apart, distinct⟩ := List.nodup_cons.mp distinct
    rw [List.map_cons, List.map_cons, fileUnder]
    by_cases here : key = name
    · subst here
      rw [if_pos rfl, if_pos rfl]
      refine congrArg _ (List.map_congr_left fun other mem => ?_)
      have differs : other ≠ key := fun same => apart (same ▸ mem)
      rw [if_neg differs, List.append_nil]
    · rw [if_neg here, if_neg here, List.append_nil, ih distinct]

/-- Nodes filed one after the other: under each name stand those that have it. -/
theorem foldl_fileUnder (t : ParseTree) {keys : List String} (distinct : keys.Nodup) (found : List Ref)
    (listed : String → List Ref) :
    found.foldl
        (fun filed c =>
          match t.name c with
          | some name => fileUnder name c filed
          | none => filed)
        (keys.map fun key => (key, listed key)) =
      keys.map fun key => (key, listed key ++ found.filter fun c => t.name c == some key) := by
  induction found generalizing listed with
  | nil => simp only [List.foldl_nil, List.filter_nil, List.append_nil]
  | cons c found ih =>
    rw [List.foldl_cons]
    cases named : t.name c with
    | none =>
      rw [ih]
      refine List.map_congr_left fun key _ => ?_
      rw [List.filter_cons_of_neg (by rw [named]; exact Bool.false_ne_true)]
    | some name =>
      dsimp only
      rw [fileUnder_map distinct, ih]
      refine List.map_congr_left fun key _ => ?_
      by_cases here : key = name
      · rw [if_pos here, List.filter_cons_of_pos (by rw [named, here, beq_self_eq_true]), List.append_assoc,
          List.singleton_append]
      · rw [if_neg here, List.append_nil, List.filter_cons_of_neg]
        rw [named, beq_iff_eq, Option.some.injEq]
        exact Ne.symm here

theorem nodup_eraseDups (names : List String) : names.eraseDups.Nodup := by
  induction length : names.length using Nat.strongRecOn generalizing names with
  | ind n ih =>
    cases names with
    | nil => exact List.nodup_nil
    | cons name names =>
      have shorter : (names.filter fun other => !other == name).length < n := by
        rw [← length, List.length_cons]
        exact Nat.lt_succ_of_le (List.length_filter_le _ _)
      rw [List.eraseDups_cons]
      refine List.nodup_cons.mpr ⟨fun again => ?_, ih _ shorter _ rfl⟩
      simpa using (List.mem_filter.mp (List.mem_eraseDups.mp again)).2

/-! ## In a forest -/

namespace Forest

variable (forest : t.Forest)

include forest

theorem preorder_eq (r : Ref) : t.preorder r = r :: (t.children r).flatMap t.preorder := by
  rw [preorder, forest.plantAt_eq, Plant.places, Plant.listPlaces_eq_flatMap, List.flatMap_map]
  rfl

theorem length_preorder_lt (listed : c ∈ t.children r) : (t.preorder c).length < (t.preorder r).length := by
  have part : (t.preorder c).Sublist ((t.children r).flatMap t.preorder) :=
    List.sublist_flatten_of_mem (List.mem_map_of_mem listed)
  rw [forest.preorder_eq r, List.length_cons]
  exact Nat.lt_succ_of_le part.length_le

/-- What holds of a node as soon as it holds of its children holds of all nodes. -/
theorem induction {motive : Ref → Prop} (step : ∀ r, (∀ c ∈ t.children r, motive c) → motive r) (r : Ref) :
    motive r := by
  induction count : (t.preorder r).length using Nat.strongRecOn generalizing r with
  | ind n ih =>
    refine step r fun c listed => ih _ ?_ c rfl
    exact count ▸ forest.length_preorder_lt listed

theorem postorder_eq (r : Ref) : t.postorder r = (t.children r).flatMap t.postorder ++ [r] := by
  rw [postorder, forest.plantAt_eq, Plant.postorder, Plant.listPostorder_eq_flatMap, List.flatMap_map]
  rfl

/-- What is at or below a child of a node is below the node. -/
theorem mem_flatMap_preorder (mem : ∀ child ∈ t.children r, c ∈ t.preorder child ↔ c = child ∨ t.Above child c) :
    c ∈ (t.children r).flatMap t.preorder ↔ t.Above r c := by
  rw [List.mem_flatMap, Above, Relation.TransGen.tail'_iff]
  refine exists_congr fun child => ?_
  rw [forest.linked, and_comm, Relation.reflTransGen_iff_eq_or_transGen, eq_comm (a := child)]
  exact and_congr_left fun link => mem child ((forest.linked r child).mpr link)

/-- A preorder lists the node and those that it is above. -/
theorem mem_preorder_iff : c ∈ t.preorder r ↔ c = r ∨ t.Above r c := by
  induction r using forest.induction with
  | step r ih => rw [forest.preorder_eq, List.mem_cons, forest.mem_flatMap_preorder ih]

theorem mem_below_iff : c ∈ (t.children r).flatMap t.preorder ↔ t.Above r c :=
  forest.mem_flatMap_preorder fun _ _ => forest.mem_preorder_iff

theorem nodup_preorder (r : Ref) : (t.preorder r).Nodup :=
  (forest.hangs_plantAt r).nodup forest

/-! ### Enough fuel -/

/-- An address outside the table is one node more than the table has. -/
theorem length_preorder_le (r : Ref) : (t.preorder r).length ≤ t.size + 1 := by
  by_cases inside : r < t.size
  · refine Nat.le_succ_of_le ((forest.hangs_plantAt r).length_le forest ?_)
    rwa [place_plantAt]
  · rw [forest.preorder_eq, children_of_size_le (Nat.not_lt.mp inside)]
    exact Nat.succ_le_succ (Nat.zero_le _)

/-- A search makes one visit for each node. -/
theorem visitCount_eq (r : Ref) : t.visitCount r = (t.preorder r).length := by
  have count := (forest.hangs_plantAt r).visitCountFrom_eq t.size (forest.length_preorder_le r)
  rwa [place_plantAt] at count

/-! ### The stack -/

/-- A search from left to right lists the preorders of what is on its stack. -/
theorem visits_eq (fuel : Nat) (stack : List Ref) (enough : (stack.flatMap t.preorder).length ≤ fuel) :
    visits t.children fuel stack = stack.flatMap t.preorder := by
  induction fuel generalizing stack with
  | zero =>
    cases stack with
    | nil => rfl
    | cons r rest =>
      rw [List.flatMap_cons, forest.preorder_eq, List.cons_append, List.length_cons] at enough
      omega
  | succ fuel ih =>
    cases stack with
    | nil => rfl
    | cons r rest =>
      rw [List.flatMap_cons, forest.preorder_eq, List.cons_append, List.length_cons,
        ← List.flatMap_append] at enough
      rw [visits, ih _ (Nat.le_of_succ_le_succ enough), List.flatMap_cons, forest.preorder_eq, List.cons_append,
        List.flatMap_append]

/-- A search from right to left lists the postorders of what is on its stack, the last node first. -/
theorem visits_reverse_eq (fuel : Nat) (stack : List Ref) (enough : (stack.flatMap t.preorder).length ≤ fuel) :
    visits (fun r => (t.children r).reverse) fuel stack.reverse = (stack.flatMap t.postorder).reverse := by
  rw [← (perm_flatMap_postorder stack).length_eq] at enough
  induction fuel generalizing stack with
  | zero => rw [List.eq_nil_of_length_eq_zero (Nat.le_zero.mp enough), visits]; rfl
  | succ fuel ih =>
    rcases List.eq_nil_or_concat stack with rfl | ⟨before, r, rfl⟩
    · rfl
    · rw [List.concat_eq_append, List.flatMap_append, List.flatMap_singleton, forest.postorder_eq, ← List.append_assoc,
        ← List.flatMap_append, List.length_append] at enough
      rw [List.concat_eq_append, List.reverse_append, List.reverse_singleton, List.singleton_append, visits,
        ← List.reverse_append, ih _ (Nat.le_of_succ_le_succ enough), List.flatMap_append, List.flatMap_append,
        List.flatMap_singleton, forest.postorder_eq, ← List.append_assoc, List.reverse_concat]

theorem length_below_le (r : Ref) : ((t.children r).flatMap t.preorder).length ≤ t.visitCount r := by
  rw [forest.visitCount_eq, forest.preorder_eq, List.length_cons]
  exact Nat.le_succ _

/-! ### The searches -/

/-- The search from the root down goes in preorder. -/
theorem descendants_rootFirst (r : Ref) : t.descendants r .rootFirst = (t.children r).flatMap t.preorder :=
  forest.visits_eq _ _ (forest.length_below_le r)

/-- The search from the leaves up goes in postorder. -/
theorem descendants_leafFirst (r : Ref) : t.descendants r .leafFirst = (t.children r).flatMap t.postorder := by
  rw [descendants, forest.visits_reverse_eq _ _ (forest.length_below_le r), List.reverse_reverse]

theorem perm_descendants (r : Ref) : (t.descendants r .leafFirst).Perm (t.descendants r .rootFirst) := by
  rw [forest.descendants_leafFirst, forest.descendants_rootFirst]
  exact perm_flatMap_postorder _

theorem nodup_descendants (r : Ref) (order : Order) : (t.descendants r order).Nodup := by
  have first : (t.descendants r .rootFirst).Nodup := by
    have once := forest.nodup_preorder r
    rw [forest.preorder_eq] at once
    rw [forest.descendants_rootFirst]
    exact (List.nodup_cons.mp once).2
  cases order with
  | rootFirst => exact first
  | leafFirst => exact (forest.perm_descendants r).nodup_iff.mpr first

theorem mem_descendants_iff {order : Order} : c ∈ t.descendants r order ↔ t.Above r c := by
  have first : c ∈ t.descendants r .rootFirst ↔ t.Above r c := by
    rw [forest.descendants_rootFirst, forest.mem_below_iff]
  cases order with
  | rootFirst => exact first
  | leafFirst => exact (forest.perm_descendants r).mem_iff.trans first

/-- The search for leaves lists the childless nodes in preorder. -/
theorem leaves_eq (r : Ref) : t.leaves r = (t.preorder r).filter t.isLeaf := by
  have all : [r].flatMap t.preorder = t.preorder r := List.flatMap_singleton ..
  rw [leaves, leavesFrom_eq_filter, forest.visits_eq, all]
  exact Nat.le_of_eq (by rw [all, forest.visitCount_eq])

end Forest

/-! ## Searches for names -/

/-- The nodes with a name are listed in the order in which they are found, and all of them. -/
theorem Forest.mem_allByName_iff (forest : t.Forest) {order : Order} {name : String} :
    c ∈ t.allByName r order name ↔ t.Above r c ∧ t.name c = some name := by
  rw [allByName, List.mem_filter, forest.mem_descendants_iff, beq_iff_eq]

theorem firstByName_eq (t : ParseTree) (r : Ref) (name : String) :
    t.firstByName r name = (t.allByName r .rootFirst name).head? := by
  rw [firstByName, firstFrom_eq, ← List.head?_filter]
  rfl

theorem allByNames_eq (t : ParseTree) (r : Ref) (order : Order) (names : List String) :
    t.allByNames r order names = names.eraseDups.map fun name => (name, t.allByName r order name) := by
  have filed := foldl_fileUnder t (nodup_eraseDups names) (t.descendants r order) fun _ => []
  simp only [List.nil_append] at filed
  exact filed

/-- **Searches follow the tree.** Below every node of a forest they list the nodes that it is above, each once, in the
order of the recursion from the root down or from the leaves up. The leaves are the childless nodes of the same order,
the nodes with a name are those of the same order, the first of them is the first, and under several names each one
stands once, where it was first asked for, with the nodes that have it. -/
theorem searches_follow_tree (forest : t.Forest) (r : Ref) :
    ((∀ r, t.preorder r = r :: (t.children r).flatMap t.preorder) ∧
      ∀ r, t.postorder r = (t.children r).flatMap t.postorder ++ [r]) ∧
    (t.descendants r .rootFirst = (t.children r).flatMap t.preorder ∧
      t.descendants r .leafFirst = (t.children r).flatMap t.postorder ∧
      ∀ order, (t.descendants r order).Nodup ∧ ∀ c, c ∈ t.descendants r order ↔ t.Above r c) ∧
    t.leaves r = (t.preorder r).filter t.isLeaf ∧
    (∀ order name, (t.allByName r order name).Sublist (t.descendants r order) ∧
      ∀ c, c ∈ t.allByName r order name ↔ t.Above r c ∧ t.name c = some name) ∧
    (∀ name, t.firstByName r name = (t.allByName r .rootFirst name).head?) ∧
    ∀ order names, t.allByNames r order names = names.eraseDups.map fun name => (name, t.allByName r order name) := by
  refine ⟨⟨forest.preorder_eq, forest.postorder_eq⟩, ⟨forest.descendants_rootFirst r, forest.descendants_leafFirst r,
    fun order => ⟨forest.nodup_descendants r order, fun c => forest.mem_descendants_iff⟩⟩, forest.leaves_eq r,
    fun order name => ⟨List.filter_sublist, fun c => forest.mem_allByName_iff⟩, t.firstByName_eq r,
    t.allByNames_eq r⟩

/-- The searches in a tree where the first letter made way for the negation before it: what was cut out is not found. -/
theorem letters_searched :
    let edited := lettersTree.replace 1 0
    edited.Forest ∧
      (edited.descendants 4 .rootFirst = [3, 0, 2] ∧ edited.descendants 4 .leafFirst = [0, 2, 3]) ∧
      edited.leaves 4 = [0, 2] ∧ edited.firstByName 4 "outer" = some 2 ∧
      edited.allByNames 4 .leafFirst ["outer", "inner", "outer"] = [("outer", [2]), ("inner", [])] := by
  have forest : (lettersTree.replace 1 0).Forest :=
    forest_lettersTree.replace (by decide) (forest_lettersTree.not_above (by decide))
  obtain ⟨_, ⟨down, up, _⟩, leaves, _, first, all⟩ := searches_follow_tree forest 4
  exact ⟨forest, ⟨down.trans (by decide), up.trans (by decide)⟩, leaves.trans (by decide),
    (first "outer").trans (by decide), (all .leafFirst ["outer", "inner", "outer"]).trans (by decide)⟩

end BnfTokenizer.ParseTree
