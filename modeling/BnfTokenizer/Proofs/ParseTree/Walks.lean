import BnfTokenizer.ParseTree.Query
import BnfTokenizer.Proofs.ParseTree.Cull

/-!
# Walks through a plant

What a walk over a table comes to is told by the plant that hangs in it. A walk down takes as many steps as
the plant has places, and a walk up from a place comes to the topmost one, so the bounds that walks are
given are never what ends them.

The rows of a tree are its places in post-order (`postorder_plant`).
-/

namespace BnfTokenizer.ParseTree

open Match (DerivedTree)

/-- A climb that is at the top stays there. -/
theorem topFrom_of_parent_eq_none {t : ParseTree} {r : Ref} (fuel : Nat) (top : t.parent r = none) :
    t.topFrom fuel r = r := by
  cases fuel with
  | zero => rfl
  | succ fuel => rw [topFrom, top]

namespace Plant

mutual

/-- The places of a plant, those under a place before the place itself. -/
def postorder : Plant → List Ref
  | node place under => listPostorder under ++ [place]

/-- The places of some plants, each behind those below it. -/
def listPostorder : List Plant → List Ref
  | [] => []
  | p :: ps => p.postorder ++ listPostorder ps

end

mutual

/-- The places of a plant under which there is nothing, from left to right. -/
def tips : Plant → List Ref
  | node place [] => [place]
  | node _ (p :: ps) => p.tips ++ listTips ps

/-- The tips of some plants. -/
def listTips : List Plant → List Ref
  | [] => []
  | p :: ps => p.tips ++ listTips ps

end

section

variable {t : ParseTree} {parent : Option Ref} {r : Ref}

/-- A plant hangs where its place says. -/
theorem Hangs.parent_eq {q : Plant} (hangs : q.Hangs t parent) : t.parent q.place = parent := by
  cases q
  exact hangs.1

/-- The children of the place are those of the plant. -/
theorem Hangs.children_eq {q : Plant} (hangs : q.Hangs t parent) :
    t.children q.place = q.under.map Plant.place := by
  cases q
  exact hangs.2.1

theorem Hangs.under_hangs {q : Plant} (hangs : q.Hangs t parent) :
    ListHangs t (some q.place) q.under := by
  cases q
  exact hangs.2.2

/-- A plant's places are its own and those below. -/
theorem places_eq (q : Plant) : q.places = q.place :: listPlaces q.under := by
  cases q
  rfl

mutual

/-- Either order has the same places. -/
theorem perm_postorder : ∀ q : Plant, q.postorder.Perm q.places
  | node place under => by
    rw [postorder, places]
    exact (List.perm_append_singleton ..).trans ((perm_listPostorder under).cons place)

theorem perm_listPostorder : ∀ qs : List Plant, (listPostorder qs).Perm (listPlaces qs)
  | [] => .refl _
  | q :: qs => by
    rw [listPostorder, listPlaces]
    exact (perm_postorder q).append (perm_listPostorder qs)

end

mutual

/-- At every place of a plant hangs a part of it. -/
theorem Hangs.exists_part : ∀ {q : Plant} {parent : Option Ref}, q.Hangs t parent →
    r ∈ q.places → ∃ (part : Plant) (above : Option Ref), part.place = r ∧ part.Hangs t above ∧
      part.places.Sublist q.places
  | node place under, parent, hangs, mem => by
    rcases List.mem_cons.mp mem with rfl | below
    · exact ⟨node r under, parent, rfl, hangs, .refl _⟩
    · obtain ⟨part, found, above, sub⟩ := ListHangs.exists_part hangs.2.2 below
      exact ⟨part, found, above.1, above.2, sub.cons place⟩

/-- Every place is that of a part which hangs, and whose places are some of all. -/
theorem ListHangs.exists_part : ∀ {qs : List Plant} {parent : Option Ref}, ListHangs t parent qs →
    r ∈ listPlaces qs → ∃ (part : Plant) (above : Option Ref),
      (part.place = r ∧ part.Hangs t above) ∧ part.places.Sublist (listPlaces qs)
  | q :: qs, _, hangs, mem => by
    rcases List.mem_append.mp mem with here | later
    · obtain ⟨part, above, place, own, sub⟩ := Hangs.exists_part hangs.1 here
      exact ⟨part, above, ⟨place, own⟩, sub.trans (List.sublist_append_left ..)⟩
    · obtain ⟨part, above, own, sub⟩ := ListHangs.exists_part hangs.2 later
      exact ⟨part, above, own, sub.trans (List.sublist_append_right ..)⟩

end

/-! ## Up -/

mutual

/-- From a place of a plant the parents lead to the topmost place, in fewer steps than there are places. -/
theorem Hangs.topFrom_eq : ∀ {q : Plant} {parent : Option Ref}, q.Hangs t parent → r ∈ q.places →
    ∃ steps, steps < q.places.length ∧ ∀ fuel, t.topFrom (fuel + steps) r = t.topFrom fuel q.place
  | node place under, parent, hangs, mem => by
    rw [places, List.length_cons]
    rcases List.mem_cons.mp mem with rfl | below
    · exact ⟨0, Nat.succ_pos _, fun _ => rfl⟩
    · obtain ⟨steps, bound, climbs⟩ := ListHangs.topFrom_eq hangs.2.2 below
      exact ⟨steps, Nat.lt_succ_of_le bound, climbs⟩

/-- A climb from below comes by the place above, after no more steps than there are places. -/
theorem ListHangs.topFrom_eq : ∀ {qs : List Plant} {p : Ref}, ListHangs t (some p) qs →
    r ∈ listPlaces qs →
    ∃ steps, steps ≤ (listPlaces qs).length ∧ ∀ fuel, t.topFrom (fuel + steps) r = t.topFrom fuel p
  | q :: qs, p, hangs, mem => by
    rw [listPlaces, List.length_append]
    rcases List.mem_append.mp mem with here | later
    · obtain ⟨steps, bound, climbs⟩ := Hangs.topFrom_eq hangs.1 here
      refine ⟨steps + 1, by omega, fun fuel => ?_⟩
      have last : t.topFrom (fuel + 1) q.place = t.topFrom fuel p := by
        rw [topFrom, hangs.1.parent_eq]
      rw [Nat.add_comm steps, ← Nat.add_assoc, climbs, last]
    · obtain ⟨steps, bound, climbs⟩ := ListHangs.topFrom_eq hangs.2 later
      exact ⟨steps, by omega, climbs⟩

end

/-- The topmost place of a plant is the top of all its places. -/
theorem Hangs.top_eq {q : Plant} (hangs : q.Hangs t none) (small : q.places.length ≤ t.size)
    (mem : r ∈ q.places) : t.top r = q.place := by
  obtain ⟨steps, bound, climbs⟩ := hangs.topFrom_eq mem
  have fuel : t.size = t.size - steps + steps := by omega
  rw [top, fuel, climbs, topFrom_of_parent_eq_none _ hangs.parent_eq]

/-! ## Down -/

mutual

/-- With fuel for its height, the count of visits is the number of places. The height is at most that number, which is
why the size of the tree is fuel enough. -/
theorem Hangs.visitCountFrom_eq : ∀ {q : Plant} {parent : Option Ref} (depth : Nat), q.Hangs t parent →
    q.places.length ≤ depth + 1 → t.visitCountFrom depth q.place = q.places.length
  | node place under, parent, depth, hangs, enough => by
    rw [places, List.length_cons] at enough ⊢
    cases depth with
    | zero =>
      rw [Plant.place, visitCountFrom]
      omega
    | succ depth =>
      rw [Plant.place, visitCountFrom, hangs.2.1,
        ListHangs.foldl_visitCountFrom depth hangs.2.2 (by omega), Nat.add_comm]

theorem ListHangs.foldl_visitCountFrom : ∀ {qs : List Plant} {parent : Option Ref} (depth : Nat)
    {count : Nat}, ListHangs t parent qs → (listPlaces qs).length ≤ depth + 1 →
    (qs.map Plant.place).foldl (fun count child => count + t.visitCountFrom depth child) count =
      count + (listPlaces qs).length
  | [], _, _, _, _, _ => rfl
  | q :: qs, _, depth, count, hangs, enough => by
    rw [listPlaces, List.length_append] at enough ⊢
    rw [List.map_cons, List.foldl_cons, Hangs.visitCountFrom_eq depth hangs.1 (by omega),
      ListHangs.foldl_visitCountFrom depth hangs.2 (by omega), Nat.add_assoc]

end

/-- Where something is below, the tips are below. -/
theorem tips_node_of_ne_nil (place : Ref) {under : List Plant} (some : under ≠ []) :
    (node place under).tips = listTips under := by
  cases under with
  | nil => exact absurd rfl some
  | cons q qs => rfl

theorem listTips_append (ps qs : List Plant) : listTips (ps ++ qs) = listTips ps ++ listTips qs := by
  induction ps with
  | nil => rfl
  | cons p ps ih => rw [List.cons_append, listTips, listTips, ih, List.append_assoc]

mutual

/-- Tips are places. -/
theorem tips_subset : ∀ q : Plant, q.tips ⊆ q.places
  | node _ [] => List.Subset.refl _
  | node place (q :: qs) => fun _ mem => List.mem_cons_of_mem place (listTips_subset (q :: qs) mem)

theorem listTips_subset : ∀ qs : List Plant, listTips qs ⊆ listPlaces qs
  | [] => List.Subset.refl _
  | q :: qs => fun _ mem => List.mem_append.mpr
    ((List.mem_append.mp mem).imp (fun here => tips_subset q here) fun later => listTips_subset qs later)

end

/-- A walk over the plants on a stack finds their tips. -/
theorem leavesFrom_eq (fuel : Nat) (stack : List Plant)
    (hang : ∀ q ∈ stack, ∃ parent, q.Hangs t parent) (enough : (listPlaces stack).length ≤ fuel) :
    t.leavesFrom fuel (stack.map Plant.place) = listTips stack := by
  induction fuel generalizing stack with
  | zero =>
    cases stack with
    | nil => rfl
    | cons q rest =>
      rw [listPlaces, List.length_append, places_eq, List.length_cons] at enough
      omega
  | succ fuel ih =>
    cases stack with
    | nil => rfl
    | cons q rest =>
      obtain ⟨place, under⟩ := q
      obtain ⟨⟨parent, own⟩, later⟩ := List.forall_mem_cons.mp hang
      have below : ∀ q ∈ under, ∃ parent, q.Hangs t parent := fun q mem =>
        ⟨_, listHangs_iff.mp own.2.2 q mem⟩
      rw [listPlaces, places, List.length_append, List.length_cons] at enough
      have next := ih (under ++ rest) (List.forall_mem_append.mpr ⟨below, later⟩)
        (by rw [listPlaces_append, List.length_append]; omega)
      rw [List.map_append, listTips_append] at next
      rw [List.map_cons, Plant.place, leavesFrom, own.2.1, listTips]
      cases under with
      | nil => exact congrArg (place :: ·) next
      | cons q qs =>
        rw [tips_node_of_ne_nil place (List.cons_ne_nil q qs)]
        exact next

/-- The leaves at and below a place are the tips of what hangs there. -/
theorem Hangs.leaves_eq {q : Plant} (hangs : q.Hangs t parent) (small : q.places.length ≤ t.size + 1) :
    t.leaves q.place = q.tips := by
  have alone : listPlaces [q] = q.places := List.append_nil _
  have found := leavesFrom_eq q.places.length [q]
    (List.forall_mem_singleton.mpr ⟨parent, hangs⟩) (Nat.le_of_eq (congrArg List.length alone))
  rw [leaves, visitCount, hangs.visitCountFrom_eq t.size small]
  rwa [listTips, listTips, List.append_nil] at found

end

end Plant

end ParseTree

namespace Match.DerivedTree

open ParseTree (Plant)

mutual

/-- The places of a tree in post-order are those from `base` on. -/
theorem postorder_plant (base : Nat) : ∀ t : DerivedTree,
    (t.plant base).postorder = List.range' base t.size
  | node _ _ _ children => by
    rw [plant, Plant.postorder, listPostorder_listPlant base children, size, List.range'_concat, Nat.one_mul]

/-- A tree that was just built is numbered leaf first. -/
theorem listPostorder_listPlant (base : Nat) : ∀ ts : List DerivedTree,
    Plant.listPostorder (listPlant base ts) = List.range' base (listSize ts)
  | [] => rfl
  | t :: ts => by
    rw [listPlant, Plant.listPostorder, postorder_plant base t, listPostorder_listPlant (base + t.size) ts,
      List.range'_append_1, listSize]

end

end Match.DerivedTree

end BnfTokenizer
