import BnfTokenizer.Proofs.ParseTree.Forest

/-!
# Culling as a rewrite

What culling is meant to do can be said without a table and without an order of edits. What becomes of a node is
itself over what becomes of its children, or just that, or nothing, by the first filter that matches it
(`rewritten_eq`). Culling below a node puts what becomes of its children under it and touches nothing else, in every
forest and below every node, in the tree or cut out of it; and culling again changes nothing (`cull_rewrites`).

`plantAt` is the subtree at a node as a plant. It goes down as many levels as the table has places, and in a forest
this is enough (`Forest.plantAt_eq`): each level down adds a place to the chain of those above, and none of them
occurs twice (`Chain`).
-/

namespace BnfTokenizer.ParseTree

open Relation (TransGen ReflTransGen)
open Plant (Hangs ListHangs listPlaces listCulled)

variable {t : ParseTree} {r c : Ref}

/-! ## Subtrees as plants -/

/-- The places at and below a node, down to a depth. -/
def plantFrom (t : ParseTree) : Nat → Ref → Plant
  | 0, r => .node r []
  | depth + 1, r => .node r ((t.children r).map (plantFrom t depth))

/-- The subtree at a node as a plant. -/
def plantAt (t : ParseTree) (r : Ref) : Plant :=
  t.plantFrom t.size r

theorem place_plantFrom (t : ParseTree) (depth : Nat) (r : Ref) : (t.plantFrom depth r).place = r := by
  cases depth <;> rfl

/-- Some places above a node, each of them once. -/
structure Chain (t : ParseTree) (chain : List Ref) (r : Ref) : Prop where
  above : ∀ a ∈ chain, t.Above a r
  once : chain.Nodup

theorem Chain.nil (t : ParseTree) (r : Ref) : t.Chain [] r :=
  ⟨nofun, List.nodup_nil⟩

namespace Forest

variable (forest : t.Forest) {chain : List Ref} {depth : Nat}

include forest

theorem cons_nodup_of_chain (chained : t.Chain chain r) : (r :: chain).Nodup :=
  List.nodup_cons.mpr ⟨fun mem => forest.acyclic r (chained.above r mem), chained.once⟩

theorem chain_child (chained : t.Chain chain r) (listed : c ∈ t.children r) : t.Chain (r :: chain) c := by
  refine ⟨fun a mem => ?_, forest.cons_nodup_of_chain chained⟩
  have link := (forest.linked r c).mp listed
  rcases List.mem_cons.mp mem with rfl | higher
  · exact .single link
  · exact .head link (chained.above a higher)

/-- A chain has fewer places than the table, as the node below it is none of them. -/
theorem length_lt_of_chain (chained : t.Chain chain r) (inside : r < t.size) : chain.length < t.size := by
  have places : r :: chain ⊆ List.range t.size := by
    intro a mem
    rcases List.mem_cons.mp mem with rfl | higher
    · exact List.mem_range.mpr inside
    · exact List.mem_range.mpr ((chained.above a higher).inside forest)
  have few := ((forest.cons_nodup_of_chain chained).subperm places).length_le
  rwa [List.length_range] at few

theorem children_of_chain (chained : t.Chain chain r) (enough : t.size ≤ chain.length + 1) : t.children r = [] := by
  refine List.eq_nil_iff_forall_not_mem.mpr fun c listed => ?_
  have short := forest.length_lt_of_chain (forest.chain_child chained listed)
    (child_inside ((forest.linked r c).mp listed))
  rw [List.length_cons] at short
  omega

/-- Below the last level there is nothing. -/
theorem plantFrom_succ (chained : t.Chain chain r) (enough : t.size ≤ chain.length + 1 + depth) :
    t.plantFrom (depth + 1) r = t.plantFrom depth r := by
  induction depth generalizing chain r with
  | zero =>
    rw [plantFrom, plantFrom, forest.children_of_chain chained enough]
    rfl
  | succ depth ih =>
    refine congrArg (Plant.node r) (List.map_congr_left fun c listed => ?_)
    refine ih (forest.chain_child chained listed) ?_
    rw [List.length_cons]
    omega

/-- The subtree at a node is the node over the subtrees at its children. -/
theorem plantAt_eq (r : Ref) : t.plantAt r = .node r ((t.children r).map t.plantAt) :=
  (forest.plantFrom_succ (.nil t r) (Nat.le_add_left t.size _)).symm

theorem hangs_plantFrom (chained : t.Chain chain r) (enough : t.size ≤ chain.length + 1 + depth) :
    (t.plantFrom depth r).Hangs t (t.parent r) := by
  induction depth generalizing chain r with
  | zero => exact ⟨rfl, forest.children_of_chain chained enough, trivial⟩
  | succ depth ih =>
    refine ⟨rfl, ?_, Plant.listHangs_iff.mpr fun p mem => ?_⟩
    · rw [List.map_map, show Plant.place ∘ t.plantFrom depth = id from funext (place_plantFrom t depth), List.map_id]
    · obtain ⟨c, listed, rfl⟩ := List.mem_map.mp mem
      have hangs := ih (forest.chain_child chained listed) (by rw [List.length_cons]; omega)
      rwa [(forest.linked r c).mp listed] at hangs

theorem hangs_plantAt (r : Ref) : (t.plantAt r).Hangs t (t.parent r) :=
  forest.hangs_plantFrom (.nil t r) (Nat.le_add_left t.size _)

end Forest

/-! ## Places at and below a node -/

namespace Plant

theorem mem_listPlaces {qs : List Plant} : c ∈ listPlaces qs ↔ ∃ q ∈ qs, c ∈ q.places := by
  induction qs with
  | nil => simp [listPlaces]
  | cons q qs ih => simp [listPlaces, ih]

mutual

/-- From all places of a plant there is a way up to the topmost one. -/
theorem Hangs.up : ∀ {q : Plant} {parent : Option Ref}, q.Hangs t parent → c ∈ q.places →
    c = q.place ∨ t.Above q.place c
  | node place under, _, hangs, mem => by
    rcases List.mem_cons.mp mem with rfl | below
    · exact .inl rfl
    · exact .inr (ListHangs.up hangs.2.2 below)

theorem ListHangs.up : ∀ {qs : List Plant} {p : Ref}, ListHangs t (some p) qs → c ∈ listPlaces qs → t.Above p c
  | q :: qs, p, hangs, mem => by
    rcases List.mem_append.mp mem with here | later
    · rcases Hangs.up hangs.1 here with rfl | above
      · exact .single hangs.1.parent_eq
      · exact .tail above hangs.1.parent_eq
    · exact ListHangs.up hangs.2 later

end

/-- Two children of one node are not one above the other, so nothing is below both. -/
theorem disjoint_of_siblings (forest : t.Forest) {p : Ref} {q q' : Plant} (first : q.Hangs t (some p))
    (second : q'.Hangs t (some p)) (differ : q.place ≠ q'.place) : ∀ c ∈ q.places, c ∉ q'.places := by
  intro c mem mem'
  have apart : ∀ {a b : Ref}, t.parent a = some p → t.parent b = some p → a ≠ b →
      ¬ ReflTransGen (fun child parent => t.parent child = some parent) a b := by
    intro a b up up' differ way
    rcases ReflTransGen.cases_head way with same | ⟨next, step, onward⟩
    · exact differ same
    · cases up.symm.trans step
      exact forest.acyclic p (TransGen.tail' onward up')
  have way : ∀ {q : Plant}, q.Hangs t (some p) → c ∈ q.places →
      ReflTransGen (fun child parent => t.parent child = some parent) c q.place := by
    intro q hangs mem
    rcases hangs.up mem with rfl | above
    · exact .refl
    · exact above.to_reflTransGen
  have single : Relator.RightUnique fun child parent => t.parent child = some parent := by
    intro child a b up up'
    exact Option.some.inj (up.symm.trans up')
  rcases ReflTransGen.total_of_right_unique single (way first mem) (way second mem') with up | up
  · exact apart first.parent_eq second.parent_eq differ up
  · exact apart second.parent_eq first.parent_eq differ.symm up

mutual

/-- In a forest no place occurs twice in what hangs there. -/
theorem Hangs.nodup (forest : t.Forest) : ∀ {q : Plant} {parent : Option Ref}, q.Hangs t parent → q.places.Nodup
  | node place under, _, hangs => by
    refine List.nodup_cons.mpr ⟨fun below => forest.acyclic place (ListHangs.up hangs.2.2 below), ?_⟩
    exact ListHangs.nodup forest hangs.2.2 (hangs.2.1 ▸ forest.once place)

theorem ListHangs.nodup (forest : t.Forest) : ∀ {qs : List Plant} {p : Ref}, ListHangs t (some p) qs →
    (qs.map Plant.place).Nodup → (listPlaces qs).Nodup
  | [], _, _, _ => List.nodup_nil
  | q :: qs, p, hangs, once => by
    obtain ⟨apart, once⟩ := List.nodup_cons.mp once
    refine List.nodup_append.mpr ⟨Hangs.nodup forest hangs.1, ListHangs.nodup forest hangs.2 once, ?_⟩
    rintro c mem _ later rfl
    obtain ⟨q', one, below⟩ := mem_listPlaces.mp later
    have second := listHangs_iff.mp hangs.2 q' one
    have differ : q.place ≠ q'.place := fun same => apart (same ▸ List.mem_map_of_mem one)
    exact disjoint_of_siblings forest hangs.1 second differ c mem below

end

/-- In a forest the places of a plant below a node of the table are places of the table. -/
theorem Hangs.inside {q : Plant} {parent : Option Ref} (hangs : q.Hangs t parent) (top : q.place < t.size) :
    ∀ c ∈ q.places, c < t.size := by
  intro c mem
  rcases hangs.up mem with rfl | above
  · exact top
  · obtain ⟨p, link, _⟩ := above_iff.mp above
    exact child_inside link

/-- What hangs in a table has no more places than the table. -/
theorem Hangs.length_le (forest : t.Forest) {q : Plant} {parent : Option Ref} (hangs : q.Hangs t parent)
    (top : q.place < t.size) : q.places.length ≤ t.size := by
  have places : q.places ⊆ List.range t.size := fun c mem => List.mem_range.mpr (hangs.inside top c mem)
  have few := ((hangs.nodup forest).subperm places).length_le
  rwa [List.length_range] at few

mutual

/-- The children of a place of a plant are places below the topmost one. -/
theorem Hangs.child_mem {p : Ref} (listed : c ∈ t.children p) : ∀ {q : Plant} {parent : Option Ref},
    q.Hangs t parent → p ∈ q.places → c ∈ listPlaces q.under
  | node place under, _, hangs, mem => by
    rcases List.mem_cons.mp mem with rfl | below
    · exact map_place_subset c (hangs.2.1 ▸ listed)
    · exact ListHangs.child_mem listed hangs.2.2 below

theorem ListHangs.child_mem {p : Ref} (listed : c ∈ t.children p) : ∀ {qs : List Plant} {parent : Option Ref},
    ListHangs t parent qs → p ∈ listPlaces qs → c ∈ listPlaces qs
  | q :: qs, _, hangs, mem => by
    rcases List.mem_append.mp mem with here | later
    · have below := Hangs.child_mem listed hangs.1 here
      exact List.mem_append_left _ (places_eq q ▸ List.mem_cons_of_mem _ below)
    · exact List.mem_append_right _ (ListHangs.child_mem listed hangs.2 later)

end

mutual

/-- What hangs below a node is the subtree there. -/
theorem Hangs.plantFrom_eq : ∀ {q : Plant} {parent : Option Ref} {depth : Nat}, q.Hangs t parent →
    q.places.length ≤ depth + 1 → t.plantFrom depth q.place = q
  | node place under, parent, depth, hangs, enough => by
    obtain ⟨_, children, below⟩ := hangs
    rw [places, List.length_cons] at enough
    cases depth with
    | zero =>
      cases under with
      | nil => rfl
      | cons q qs =>
        cases q
        rw [listPlaces, places, List.length_append, List.length_cons] at enough
        omega
    | succ depth =>
      rw [Plant.place, plantFrom, children, List.map_map, ListHangs.map_plantFrom below (by omega)]

theorem ListHangs.map_plantFrom : ∀ {qs : List Plant} {parent : Option Ref} {depth : Nat}, ListHangs t parent qs →
    (listPlaces qs).length ≤ depth + 1 → qs.map (t.plantFrom depth ∘ Plant.place) = qs
  | [], _, _, _, _ => rfl
  | q :: qs, _, depth, hangs, enough => by
    rw [listPlaces, List.length_append] at enough
    rw [List.map_cons, Function.comp_apply, Hangs.plantFrom_eq hangs.1 (by omega),
      ListHangs.map_plantFrom hangs.2 (by omega)]

end

/-! ## What is left -/

theorem listCulled_eq_flatMap (strategy : Ref → Strategy) (qs : List Plant) :
    listCulled strategy qs = qs.flatMap (culled strategy) := by
  induction qs with
  | nil => rfl
  | cons q qs ih => rw [listCulled, ih, List.flatMap_cons]

mutual

/-- Only places that are to stay are left. -/
theorem keep_of_mem_culled (strategy : Ref → Strategy) : ∀ (q : Plant),
    ∀ c ∈ listPlaces (q.culled strategy), strategy c = .keep
  | node place under, c, mem => by
    rw [culled] at mem
    cases said : strategy place with
    | keep =>
      rw [said, dealt, listPlaces, listPlaces, List.append_nil, places] at mem
      rcases List.mem_cons.mp mem with rfl | below
      · exact said
      · exact keep_of_mem_listCulled strategy under c below
    | delete =>
      rw [said] at mem
      cases mem
    | lift =>
      rw [said] at mem
      exact keep_of_mem_listCulled strategy under c mem

theorem keep_of_mem_listCulled (strategy : Ref → Strategy) : ∀ (qs : List Plant),
    ∀ c ∈ listPlaces (listCulled strategy qs), strategy c = .keep
  | q :: qs, c, mem => by
    rw [listCulled, listPlaces_append] at mem
    rcases List.mem_append.mp mem with here | later
    · exact keep_of_mem_culled strategy q c here
    · exact keep_of_mem_listCulled strategy qs c later

end

end Plant

/-! ## Culling -/

/-- Where all that is below a node is to stay, culling changes nothing. -/
theorem cullFrom_of_keep {filters : List Filter} (holds : Ref → Prop)
    (keep : ∀ p, holds p → ∀ c ∈ t.children p, holds c ∧ Filter.strategyAt filters t c = .keep) (depth : Nat)
    (top : holds r) : cullFrom filters depth t r = t := by
  induction depth generalizing r with
  | zero => rfl
  | succ depth ih =>
    rw [cullFrom]
    have each := keep r top
    generalize t.children r = children at each
    induction children with
    | nil => rfl
    | cons child children later =>
      obtain ⟨⟨below, stays⟩, others⟩ := List.forall_mem_cons.mp each
      rw [List.foldl_cons]
      dsimp only
      rw [ih below, stays]
      exact later others

/-- What becomes of a node: the subtrees that are left of it, by the first filter that matches it and by what becomes
of its children. -/
def rewritten (t : ParseTree) (filters : List Filter) (c : Ref) : List Plant :=
  (t.plantAt c).culled (Filter.strategyAt filters t)

/-- **What becomes of a node**, from what becomes of its children. -/
theorem rewritten_eq (forest : t.Forest) (filters : List Filter) (c : Ref) :
    t.rewritten filters c =
      match Filter.strategyAt filters t c with
      | .keep => [.node c ((t.children c).flatMap (t.rewritten filters))]
      | .delete => []
      | .lift => (t.children c).flatMap (t.rewritten filters) := by
  have below : listCulled (Filter.strategyAt filters t) ((t.children c).map t.plantAt) =
      (t.children c).flatMap (t.rewritten filters) := by
    rw [Plant.listCulled_eq_flatMap, List.flatMap_map]
    rfl
  rw [rewritten, forest.plantAt_eq, Plant.culled, below]
  cases Filter.strategyAt filters t c <;> rfl

/-- Below the blank node there is nothing to cull. -/
theorem cull_of_size_le (filters : List Filter) (outside : t.size ≤ r) : t.cull r filters = t := by
  unfold cull
  cases t.size with
  | zero => rfl
  | succ depth =>
    rw [cullFrom, children_of_size_le outside]
    rfl

/-- Culling puts what becomes of the children under a node, and reaches no place that is not below it. -/
theorem hangs_cull (forest : t.Forest) (filters : List Filter) (inside : r < t.size) :
    Hangs (t.cull r filters) (t.parent r) (.node r ((t.children r).flatMap (t.rewritten filters))) ∧
      ∀ other, other ≠ r → ¬ t.Above r other → (t.cull r filters).node other = t.node other := by
  have hangs := forest.hangs_plantAt r
  rw [forest.plantAt_eq] at hangs
  obtain ⟨culled, frame⟩ := cullFrom_hangs filters _ t.size t _ (Nat.le_succ_of_le (hangs.length_le forest inside))
    hangs (hangs.nodup forest) (hangs.inside inside)
  rw [Plant.under, Plant.listCulled_eq_flatMap, List.flatMap_map] at culled
  refine ⟨culled, fun other differs apart => frame other fun mem => ?_⟩
  rcases hangs.up mem with same | above
  · exact differs same
  · exact apart above

/-- Culling again changes nothing. -/
theorem cull_cull (forest : t.Forest) (r : Ref) (filters : List Filter) :
    (t.cull r filters).cull r filters = t.cull r filters := by
  by_cases inside : r < t.size
  · obtain ⟨hangs, _⟩ := hangs_cull forest filters inside
    have alike := alike_cull t r filters
    refine cullFrom_of_keep (· ∈ (Plant.node r ((t.children r).flatMap (t.rewritten filters))).places) ?_ _
      List.mem_cons_self
    intro p mem c listed
    have below : c ∈ listPlaces ((t.children r).flatMap (t.rewritten filters)) := hangs.child_mem listed mem
    refine ⟨List.mem_cons_of_mem _ below, ?_⟩
    obtain ⟨q, left, place⟩ := Plant.mem_listPlaces.mp below
    obtain ⟨child, _, became⟩ := List.mem_flatMap.mp left
    rw [alike.strategyAt]
    exact Plant.keep_of_mem_culled _ _ c (Plant.mem_listPlaces.mpr ⟨q, became, place⟩)
  · rw [cull_of_size_le filters (Nat.not_lt.mp inside), cull_of_size_le filters (Nat.not_lt.mp inside)]

/-- **Culling is the rewrite.** Below a node, in the tree or cut out of it, stands what becomes of its children, one
after the other. Every place that is not below the node is as it was, the node too but for its children, and no place
shows anything else than before. Culling again with the same filters changes nothing. -/
theorem cull_rewrites (forest : t.Forest) (r : Ref) (filters : List Filter) :
    (∀ c, t.rewritten filters c =
      match Filter.strategyAt filters t c with
      | .keep => [.node c ((t.children c).flatMap (t.rewritten filters))]
      | .delete => []
      | .lift => (t.children c).flatMap (t.rewritten filters)) ∧
    (t.cull r filters).plantAt r = .node r ((t.children r).flatMap (t.rewritten filters)) ∧
    (t.cull r filters).children r = ((t.children r).flatMap (t.rewritten filters)).map Plant.place ∧
    (t.cull r filters).parent r = t.parent r ∧
    (∀ other, other ≠ r → ¬ t.Above r other → (t.cull r filters).node other = t.node other) ∧
    Alike t (t.cull r filters) ∧
    (t.cull r filters).cull r filters = t.cull r filters := by
  have alike := alike_cull t r filters
  have again := cull_cull forest r filters
  refine ⟨rewritten_eq forest filters, ?_⟩
  by_cases inside : r < t.size
  · obtain ⟨hangs, frame⟩ := hangs_cull forest filters inside
    have few := hangs.length_le (forest.cull r filters) (alike.size.symm ▸ inside)
    exact ⟨hangs.plantFrom_eq (Nat.le_succ_of_le few), hangs.children_eq, hangs.parent_eq, frame, alike, again⟩
  · have same := cull_of_size_le filters (Nat.not_lt.mp inside)
    have childless := children_of_size_le (Nat.not_lt.mp inside)
    rw [same, childless]
    refine ⟨?_, rfl, rfl, fun _ _ _ => rfl, .refl t, same⟩
    rw [forest.plantAt_eq, childless]
    rfl

/-- A tree with a wrapper in it, and a part without a name. -/
def wrapped : ParseTree :=
  ⟨['a', 'b', 'c'],
    #[⟨0, some "row", ⟨0, 3⟩, none, [1, 4], none, none⟩, ⟨1, some "wrapper", ⟨0, 2⟩, none, [2, 3], some 0, none⟩,
      ⟨2, some "letter", ⟨0, 1⟩, none, [], some 1, none⟩, ⟨3, none, ⟨1, 2⟩, none, [], some 1, none⟩,
      ⟨2, some "letter", ⟨2, 3⟩, none, [5], some 0, none⟩, ⟨3, none, ⟨2, 3⟩, none, [], some 4, none⟩], 0⟩

/-- The wrapper makes way for what is left of its children, and the parts without a name go. -/
theorem wrapped_culled : wrapped.Forest ∧
    (wrapped.cull 0 [⟨.unnamed, .delete⟩, ⟨.named ["wrapper"], .lift⟩]).plantAt 0 =
      .node 0 [.node 2 [], .node 4 []] := by
  have forest : wrapped.Forest := by
    have hangs : (Plant.node 0 [.node 1 [.node 2 [], .node 3 []], .node 4 [.node 5 []]]).Hangs wrapped none :=
      ⟨rfl, rfl, ⟨rfl, rfl, ⟨rfl, rfl, trivial⟩, ⟨rfl, rfl, trivial⟩, trivial⟩,
        ⟨rfl, rfl, ⟨rfl, rfl, trivial⟩, trivial⟩, trivial⟩
    exact hangs.forest (by decide)
  refine ⟨forest, ?_⟩
  rw [(cull_rewrites forest 0 [⟨.unnamed, .delete⟩, ⟨.named ["wrapper"], .lift⟩]).2.1]
  rfl

end BnfTokenizer.ParseTree
