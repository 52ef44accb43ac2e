import BnfTokenizer.ParseTree.Cull
import BnfTokenizer.ParseTree.View
import BnfTokenizer.Proofs.Match.Layout

/-!
# Culling a table culls its tree

Culling edits a table in place: it goes through child lists that it changes on the way. `DerivedTree.culled` says
what it is meant to do, on a tree without a table, and `view_cull` that it does just that to the table of a
tree.

In between stand the places. A `Plant` is a tree of places, and `Hangs` says that the links of a table are
those of a plant. Every edit of a table is an edit of the plant that hangs in it, as long as no place
occurs twice; and the edits leave everything but links as it is, so what a node shows, and what the filters
say of it, is the same before and after.
-/

namespace BnfTokenizer.ParseTree

open Match (DerivedTree)

/-- Places under places. -/
inductive Plant where
  | node (place : Ref) (under : List Plant)

namespace Plant

/-- The place of a plant. -/
def place : Plant → Ref
  | node place _ => place

/-- The plants below. -/
def under : Plant → List Plant
  | node _ under => under

mutual

/-- All places of a plant. -/
def places : Plant → List Ref
  | node place under => place :: listPlaces under

/-- All places of some plants. -/
def listPlaces : List Plant → List Ref
  | [] => []
  | p :: ps => p.places ++ listPlaces ps

end

mutual

/-- The links of a table are those of the plant, which stands under `parent`. -/
def Hangs (t : ParseTree) (parent : Option Ref) : Plant → Prop
  | node place under =>
    t.parent place = parent ∧ t.children place = under.map Plant.place ∧ ListHangs t (some place) under

/-- Some plants hang under one parent. -/
def ListHangs (t : ParseTree) (parent : Option Ref) : List Plant → Prop
  | [] => True
  | p :: ps => p.Hangs t parent ∧ ListHangs t parent ps

end

/-- What is left of a plant when its topmost place is dealt with. -/
def dealt (p : Plant) : Strategy → List Plant
  | .keep => [p]
  | .delete => []
  | .lift => p.under

mutual

/-- What is left when each place is dealt with as `strategy` says. -/
def culled (strategy : Ref → Strategy) : Plant → List Plant
  | node place under => (node place (listCulled strategy under)).dealt (strategy place)

/-- What culling leaves of some plants. -/
def listCulled (strategy : Ref → Strategy) : List Plant → List Plant
  | [] => []
  | p :: ps => p.culled strategy ++ listCulled strategy ps

end

mutual

/-- What a plant shows in a table. -/
def seen (t : ParseTree) : Plant → View
  | node place under => .node (t.name place) (t.value place) (t.span place) (listSeen t under)

/-- Some plants as views. -/
def listSeen (t : ParseTree) : List Plant → List View
  | [] => []
  | p :: ps => p.seen t :: listSeen t ps

end

section

variable {t u : ParseTree} {parent : Option Ref}

theorem place_mem_places (p : Plant) : p.place ∈ p.places := by
  cases p
  exact List.mem_cons_self

theorem listPlaces_append (ps qs : List Plant) : listPlaces (ps ++ qs) = listPlaces ps ++ listPlaces qs := by
  induction ps with
  | nil => rfl
  | cons p ps ih => rw [List.cons_append, listPlaces, listPlaces, ih, List.append_assoc]

theorem listSeen_append (ps qs : List Plant) :
    listSeen t (ps ++ qs) = listSeen t ps ++ listSeen t qs := by
  induction ps with
  | nil => rfl
  | cons p ps ih => rw [List.cons_append, listSeen, listSeen, ih, List.cons_append]

theorem map_place_sublist (ps : List Plant) : (ps.map Plant.place).Sublist (listPlaces ps) := by
  induction ps with
  | nil => exact .slnil
  | cons p ps ih =>
    rw [List.map_cons, listPlaces]
    cases p
    exact (ih.trans (List.sublist_append_right ..)).cons_cons _

theorem map_place_subset {ps : List Plant} : ∀ r ∈ ps.map Plant.place, r ∈ listPlaces ps :=
  fun _ mem => (map_place_sublist ps).subset mem

theorem listHangs_iff {ps : List Plant} : ListHangs t parent ps ↔ ∀ p ∈ ps, p.Hangs t parent := by
  induction ps with
  | nil => exact ⟨fun _ => nofun, fun _ => trivial⟩
  | cons p ps ih => rw [ListHangs, ih, List.forall_mem_cons]

theorem listHangs_append {ps qs : List Plant} :
    ListHangs t parent (ps ++ qs) ↔ ListHangs t parent ps ∧ ListHangs t parent qs := by
  rw [listHangs_iff, listHangs_iff, listHangs_iff, List.forall_mem_append]

mutual

/-- A plant hangs in every table that agrees at its places. -/
theorem Hangs.congr : ∀ {p : Plant} {parent : Option Ref}, p.Hangs t parent →
    (∀ r ∈ p.places, u.node r = t.node r) → p.Hangs u parent
  | node place under, parent, hangs, same => by
    have own := same place List.mem_cons_self
    refine ⟨?_, ?_, ListHangs.congr hangs.2.2 fun r mem => same r (List.mem_cons_of_mem _ mem)⟩
    · rw [ParseTree.parent, own]
      exact hangs.1
    · rw [ParseTree.children, own]
      exact hangs.2.1

theorem ListHangs.congr : ∀ {ps : List Plant} {parent : Option Ref}, ListHangs t parent ps →
    (∀ r ∈ listPlaces ps, u.node r = t.node r) → ListHangs u parent ps
  | [], _, _, _ => trivial
  | _ :: _, _, hangs, same =>
    ⟨Hangs.congr hangs.1 fun r mem => same r (List.mem_append_left _ mem),
      ListHangs.congr hangs.2 fun r mem => same r (List.mem_append_right _ mem)⟩

end

/-- Plants taken under another parent, where only the topmost links are changed. -/
theorem ListHangs.adopt {ps : List Plant} {other : Option Ref} (hangs : ListHangs t parent ps)
    (distinct : (listPlaces ps).Nodup)
    (links : ∀ r ∈ ps.map Plant.place, u.parent r = other ∧ u.children r = t.children r)
    (frame : ∀ r ∈ listPlaces ps, r ∉ ps.map Plant.place → u.node r = t.node r) :
    ListHangs u other ps := by
  induction ps with
  | nil => trivial
  | cons p ps ih =>
    obtain ⟨root, under⟩ := p
    rw [listPlaces, places] at distinct frame
    obtain ⟨own, rest, apart⟩ := List.nodup_append.mp distinct
    obtain ⟨rootApart, _⟩ := List.nodup_cons.mp own
    rw [List.map_cons, List.forall_mem_cons] at links
    refine ⟨⟨links.1.1, links.1.2.trans hangs.1.2.1, hangs.1.2.2.congr fun r mem => ?_⟩,
      ih hangs.2 rest links.2 fun r mem absent => ?_⟩
    · refine frame r (by simp [mem]) fun again => ?_
      rcases List.mem_cons.mp again with rfl | later
      · exact rootApart mem
      · exact apart r (by simp [mem]) r (map_place_subset r later) rfl
    · refine frame r (by simp [mem]) fun again => ?_
      rcases List.mem_cons.mp again with same | later
      · exact apart root List.mem_cons_self r mem same.symm
      · exact absent later

/-- Whatever is done with a plant, no place is new and their order stays. -/
theorem sublist_dealt (p : Plant) (strategy : Strategy) :
    (listPlaces (p.dealt strategy)).Sublist p.places := by
  cases strategy with
  | keep =>
    have same : listPlaces (p.dealt .keep) = p.places := by
      rw [dealt, listPlaces, listPlaces, List.append_nil]
    exact same ▸ .refl _
  | delete => exact List.nil_sublist _
  | lift =>
    cases p
    exact (List.Sublist.refl _).cons _

mutual

theorem sublist_culled (strategy : Ref → Strategy) : ∀ (p : Plant),
    (listPlaces (p.culled strategy)).Sublist p.places
  | node place under =>
    (sublist_dealt ..).trans ((sublist_listCulled strategy under).cons_cons place)

/-- Nor is any place new after culling. -/
theorem sublist_listCulled (strategy : Ref → Strategy) : ∀ (ps : List Plant),
    (listPlaces (listCulled strategy ps)).Sublist (listPlaces ps)
  | [] => List.Sublist.refl _
  | p :: ps => by
    rw [listCulled, listPlaces_append, listPlaces]
    exact (sublist_culled strategy p).append (sublist_listCulled strategy ps)

end

end

end Plant

/-! ## What no edit changes -/

/-- Two tables that hold the same at every place, links apart. -/
structure Alike (t u : ParseTree) : Prop where
  size : u.size = t.size
  source : u.source = t.source
  root : u.root = t.root
  name : ∀ r, u.name r = t.name r
  span : ∀ r, u.span r = t.span r
  value : ∀ r, u.value r = t.value r
  origin : ∀ r, u.origin r = t.origin r
  payload : ∀ r, u.payload r = t.payload r

theorem Alike.refl (t : ParseTree) : Alike t t :=
  ⟨rfl, rfl, rfl, fun _ => rfl, fun _ => rfl, fun _ => rfl, fun _ => rfl, fun _ => rfl⟩

/-- Edits one after the other change links only. -/
theorem Alike.trans {t u v : ParseTree} (h : Alike t u) (k : Alike u v) : Alike t v where
  size := k.size.trans h.size
  source := k.source.trans h.source
  root := k.root.trans h.root
  name r := (k.name r).trans (h.name r)
  span r := (k.span r).trans (h.span r)
  value r := (k.value r).trans (h.value r)
  origin r := (k.origin r).trans (h.origin r)
  payload r := (k.payload r).trans (h.payload r)

/-- A node without its links. -/
def Node.unlinked (node : Node) : Node :=
  { node with children := [], parent := none }

theorem value_modify_congr (t : ParseTree) (r : Ref) (f : Node → Node)
    (keeps : ∀ node, (f node).value = node.value ∧ (f node).span = node.span) (other : Ref) :
    (t.modify r f).value other = t.value other := by
  have values := node_modify_congr t r f Node.value (fun node => (keeps node).1) other
  have spans := node_modify_congr t r f Node.span (fun node => (keeps node).2) other
  rw [value, value, span, span, values, spans, source_modify]

/-- A change of links shows nowhere. -/
theorem alike_modify (t : ParseTree) (r : Ref) (f : Node → Node)
    (links : ∀ node, (f node).unlinked = node.unlinked) : Alike t (t.modify r f) where
  size := size_modify t r f
  source := rfl
  root := rfl
  name := node_modify_congr t r f Node.name fun node => (congrArg Node.name (links node) :)
  span := node_modify_congr t r f Node.span fun node => (congrArg Node.span (links node) :)
  value := value_modify_congr t r f fun node =>
    ⟨(congrArg Node.value (links node) :), (congrArg Node.span (links node) :)⟩
  origin := node_modify_congr t r f Node.origin fun node => (congrArg Node.origin (links node) :)
  payload := node_modify_congr t r f Node.payload fun node => (congrArg Node.payload (links node) :)

/-- Changes of links leave the rest of the nodes alike. -/
theorem alike_foldl_modify (f : Node → Node) (links : ∀ node, (f node).unlinked = node.unlinked)
    (refs : List Ref) (t : ParseTree) : Alike t (refs.foldl (fun t r => t.modify r f) t) := by
  induction refs generalizing t with
  | nil => exact .refl t
  | cons r refs ih => exact (alike_modify t r f links).trans (ih _)

/-- Removing changes links only, -/
theorem alike_remove (t : ParseTree) (r : Ref) : Alike t (t.remove r) := by
  unfold remove
  split
  · exact .refl t
  · refine (alike_modify t _ _ ?_).trans (alike_modify _ _ _ ?_)
    · exact fun _ => rfl
    · exact fun _ => rfl

/-- so does lifting, -/
theorem alike_lift (t : ParseTree) (r : Ref) : Alike t (t.lift r) := by
  unfold lift
  split
  · exact .refl t
  · refine .trans (.trans (.trans (alike_modify t _ _ ?_) (alike_foldl_modify _ ?_ _ _))
      (alike_modify _ _ _ ?_)) (alike_modify _ _ _ ?_)
    all_goals exact fun _ => rfl

/-- whichever is asked for, -/
theorem alike_apply (t : ParseTree) (r : Ref) (strategy : Strategy) : Alike t (t.apply r strategy) := by
  cases strategy with
  | keep => exact .refl t
  | delete => exact alike_remove t r
  | lift => exact alike_lift t r

/-- Culling is a run of removals and lifts: what each of these keeps, it keeps. -/
theorem cullFrom_induction {motive : ParseTree → Prop} (remove : ∀ t r, motive t → motive (t.remove r))
    (lift : ∀ t r, motive t → motive (t.lift r)) (filters : List Filter) (depth : Nat) {t : ParseTree} (start : motive t)
    (r : Ref) : motive (cullFrom filters depth t r) := by
  induction depth generalizing t r with
  | zero => exact start
  | succ depth ih =>
    rw [cullFrom]
    generalize t.children r = children
    induction children generalizing t with
    | nil => exact start
    | cons child children later =>
      rw [List.foldl_cons]
      refine later ?_
      have below := ih start child
      dsimp only
      cases Filter.strategyAt filters (cullFrom filters depth t child) child with
      | keep => exact below
      | delete => exact remove _ child below
      | lift => exact lift _ child below

theorem alike_cullFrom (filters : List Filter) (depth : Nat) (t : ParseTree) (r : Ref) :
    Alike t (cullFrom filters depth t r) :=
  cullFrom_induction (fun u c same => same.trans (alike_remove u c)) (fun u c same => same.trans (alike_lift u c))
    filters depth (.refl t) r

/-- and the whole walk. -/
theorem alike_cull (t : ParseTree) (r : Ref) (filters : List Filter) : Alike t (t.cull r filters) :=
  alike_cullFrom ..

/-- Filters say the same of places that show the same. -/
theorem Alike.strategyAt {t u : ParseTree} (alike : Alike t u) (filters : List Filter) (r : Ref) :
    Filter.strategyAt filters u r = Filter.strategyAt filters t r := by
  simp only [Filter.strategyAt, Filter.matchesAt, alike.name, alike.span]

mutual

/-- A plant looks the same in alike trees. -/
theorem Alike.seen {t u : ParseTree} (alike : Alike t u) : ∀ p : Plant, p.seen u = p.seen t
  | .node place under => by
    rw [Plant.seen, Plant.seen, alike.name, alike.value, alike.span, alike.listSeen under]

theorem Alike.listSeen {t u : ParseTree} (alike : Alike t u) : ∀ ps : List Plant,
    Plant.listSeen u ps = Plant.listSeen t ps
  | [] => rfl
  | p :: ps => by rw [Plant.listSeen, Plant.listSeen, alike.seen p, alike.listSeen ps]

end

/-! ## Edits, place by place -/

section

variable {t : ParseTree} {p c : Ref}

theorem node_remove (under : t.parent c = some p) (parentInside : p < t.size) (inside : c < t.size)
    (differs : c ≠ p) :
    (t.remove c).node c = { t.node c with parent := none } ∧
      (t.remove c).node p = { t.node p with children := (t.children p).filter (· != c) } ∧
      ∀ r, r ≠ c → r ≠ p → (t.remove c).node r = t.node r := by
  unfold remove
  rw [under]
  dsimp only
  refine ⟨?_, ?_, ?_⟩
  · rw [node_modify_self _ _ (by rwa [size_modify]), node_modify_of_ne _ _ differs.symm]
  · rw [node_modify_of_ne _ _ differs, node_modify_self _ _ parentInside]
    rfl
  · intro r notChild notParent
    rw [node_modify_of_ne _ _ notChild.symm, node_modify_of_ne _ _ notParent.symm]

theorem node_foldl_modify_of_not_mem {f : Node → Node} {refs : List Ref} {r : Ref} (absent : r ∉ refs) :
    (refs.foldl (fun t r => t.modify r f) t).node r = t.node r := by
  induction refs generalizing t with
  | nil => rfl
  | cons first refs ih =>
    rw [List.mem_cons, not_or] at absent
    rw [List.foldl_cons, ih absent.2, node_modify_of_ne _ _ (Ne.symm absent.1)]

theorem node_foldl_modify_of_mem {f : Node → Node} {refs : List Ref} {r : Ref} (distinct : refs.Nodup)
    (mem : r ∈ refs) (inside : r < t.size) :
    (refs.foldl (fun t r => t.modify r f) t).node r = f (t.node r) := by
  induction refs generalizing t with
  | nil => cases mem
  | cons first refs ih =>
    obtain ⟨absent, distinct⟩ := List.nodup_cons.mp distinct
    rw [List.foldl_cons]
    rcases List.mem_cons.mp mem with rfl | later
    · rw [node_foldl_modify_of_not_mem absent, node_modify_self _ _ inside]
    · have differs : first ≠ r := fun same => absent (same ▸ later)
      rw [ih distinct later (by rwa [size_modify]), node_modify_of_ne _ _ differs]

theorem node_lift (under : t.parent c = some p) (parentInside : p < t.size) (inside : c < t.size)
    (differs : c ≠ p) (distinct : (t.children c).Nodup)
    (apart : ∀ r ∈ t.children c, r ≠ c ∧ r ≠ p ∧ r < t.size) :
    (t.lift c).node c = { t.node c with children := [], parent := none } ∧
      (t.lift c).node p =
        { t.node p with children := spliceAt c (t.children c) (t.children p) } ∧
      (∀ r ∈ t.children c, (t.lift c).node r = { t.node r with parent := some p }) ∧
      ∀ r, r ≠ c → r ≠ p → r ∉ t.children c → (t.lift c).node r = t.node r := by
  have childAbsent : c ∉ t.children c := fun mem => (apart c mem).1 rfl
  have parentAbsent : p ∉ t.children c := fun mem => (apart p mem).2.1 rfl
  have sizes : ∀ (f : Node → Node) (refs : List Ref) (u : ParseTree),
      (refs.foldl (fun t r => t.modify r f) u).size = u.size := fun f =>
    foldl_modify_keeps size f fun _ _ => size_modify ..
  unfold lift
  rw [under]
  dsimp only
  refine ⟨?_, ?_, ?_, ?_⟩
  · rw [node_modify_self _ _ (by rwa [size_modify, sizes, size_modify]), node_modify_of_ne _ _ differs.symm,
      node_foldl_modify_of_not_mem childAbsent, node_modify_self _ _ inside]
  · rw [node_modify_of_ne _ _ differs, node_modify_self _ _ (by rwa [sizes, size_modify]),
      node_foldl_modify_of_not_mem parentAbsent, node_modify_of_ne _ _ differs]
    rfl
  · intro r mem
    obtain ⟨notChild, notParent, place⟩ := apart r mem
    rw [node_modify_of_ne _ _ notChild.symm, node_modify_of_ne _ _ notParent.symm,
      node_foldl_modify_of_mem distinct mem (by rwa [size_modify]), node_modify_of_ne _ _ notChild.symm]
  · intro r notChild notParent absent
    rw [node_modify_of_ne _ _ notChild.symm, node_modify_of_ne _ _ notParent.symm,
      node_foldl_modify_of_not_mem absent, node_modify_of_ne _ _ notChild.symm]

end

/-! ## Culling -/

open Plant (Hangs ListHangs listPlaces listCulled)

/-- Culling under a place has dealt with some of the plants there, and has others before it. -/
structure Growing (t : ParseTree) (p : Ref) (done rest : List Plant) : Prop where
  children : t.children p = (done ++ rest).map Plant.place
  hangs : ListHangs t (some p) (done ++ rest)
  distinct : (p :: listPlaces (done ++ rest)).Nodup
  inside : ∀ r ∈ p :: listPlaces (done ++ rest), r < t.size

section

variable {t u : ParseTree} {p : Ref} {q q' : Plant} {done rest : List Plant}

/-- Another plant in the place of the first one, over no other places. -/
theorem Growing.change (grows : Growing t p done (q :: rest)) (root : q'.place = q.place)
    (fewer : q'.places.Sublist q.places) (hangs : q'.Hangs u (some p))
    (frame : ∀ r, r ∉ q.places → u.node r = t.node r) (size : u.size = t.size) :
    Growing u p done (q' :: rest) := by
  have sub : (p :: listPlaces (done ++ q' :: rest)).Sublist (p :: listPlaces (done ++ q :: rest)) := by
    rw [Plant.listPlaces_append, Plant.listPlaces_append, listPlaces, listPlaces]
    exact (((fewer.append (.refl _)).append_left _)).cons_cons p
  obtain ⟨parentApart, distinct⟩ := List.nodup_cons.mp grows.distinct
  rw [Plant.listPlaces_append, listPlaces] at parentApart distinct
  obtain ⟨_, laterDistinct, apart⟩ := List.nodup_append.mp distinct
  obtain ⟨_, _, later⟩ := List.nodup_append.mp laterDistinct
  refine ⟨?_, ?_, grows.distinct.sublist sub, fun r mem => size ▸ grows.inside r (sub.subset mem)⟩
  · have own := grows.children
    rw [ParseTree.children, frame p, ← ParseTree.children, own, List.map_append, List.map_append,
      List.map_cons, List.map_cons, root]
    exact fun mem => parentApart (List.mem_append_right _ (List.mem_append_left _ mem))
  · obtain ⟨before, behind⟩ := Plant.listHangs_append.mp grows.hangs
    refine Plant.listHangs_append.mpr ⟨before.congr fun r mem => frame r fun again => ?_, hangs,
      behind.2.congr fun r mem => frame r fun again => ?_⟩
    · exact apart r mem r (List.mem_append_left _ again) rfl
    · exact later r again r mem rfl

/-- No place occurs twice. -/
theorem Growing.apart {root : Ref} {under : List Plant}
    (grows : Growing t p done (.node root under :: rest)) :
    root ≠ p ∧ (listPlaces under).Nodup ∧ (∀ r ∈ listPlaces under, r ≠ root ∧ r ≠ p) ∧
      ∀ r, r ∈ listPlaces done ∨ r ∈ listPlaces rest → r ≠ root ∧ r ≠ p ∧ r ∉ listPlaces under := by
  obtain ⟨parentApart, distinct⟩ := List.nodup_cons.mp grows.distinct
  rw [Plant.listPlaces_append, listPlaces, Plant.places] at parentApart distinct
  obtain ⟨_, later, before⟩ := List.nodup_append.mp distinct
  obtain ⟨own, _, behind⟩ := List.nodup_append.mp later
  obtain ⟨rootApart, below⟩ := List.nodup_cons.mp own
  have parentNe : ∀ r, r ∈ listPlaces done ++ (root :: listPlaces under ++ listPlaces rest) → r ≠ p :=
    fun r mem same => parentApart (same ▸ mem)
  refine ⟨parentNe root (by simp), below, fun r mem => ⟨?_, parentNe r (by simp [mem])⟩, ?_⟩
  · intro same
    exact rootApart (same ▸ mem)
  · rintro r (mem | mem)
    · refine ⟨before r mem root (by simp), parentNe r (by simp [mem]), fun again => ?_⟩
      exact before r mem r (by simp [again]) rfl
    · refine ⟨(behind root (by simp) r mem).symm, parentNe r (by simp [mem]), fun again => ?_⟩
      exact behind r (by simp [again]) r mem rfl

/-- Plants that hang stay when nothing changes at their places. -/
theorem Growing.around {root : Ref} {under : List Plant}
    (grows : Growing t p done (.node root under :: rest))
    (frame : ∀ r, r ≠ root → r ≠ p → r ∉ listPlaces under → u.node r = t.node r) :
    ListHangs u (some p) done ∧ ListHangs u (some p) rest := by
  obtain ⟨_, _, _, around⟩ := grows.apart
  obtain ⟨before, _, behind⟩ := Plant.listHangs_append.mp grows.hangs
  have kept : ∀ r, r ∈ listPlaces done ∨ r ∈ listPlaces rest → u.node r = t.node r := by
    intro r mem
    obtain ⟨notRoot, notParent, notUnder⟩ := around r mem
    exact frame r notRoot notParent notUnder
  exact ⟨before.congr fun r mem => kept r (.inl mem), behind.congr fun r mem => kept r (.inr mem)⟩

theorem Growing.remove {root : Ref} {under : List Plant}
    (grows : Growing t p done (.node root under :: rest)) :
    Growing (t.remove root) p done rest ∧
      (∀ r, r ≠ root → r ≠ p → (t.remove root).node r = t.node r) ∧
      (t.remove root).parent p = t.parent p := by
  obtain ⟨rootNe, _, _, around⟩ := grows.apart
  obtain ⟨_, here, _⟩ := Plant.listHangs_append.mp grows.hangs
  have rootIn : root ∈ p :: listPlaces (done ++ .node root under :: rest) := by
    simp [Plant.listPlaces_append, listPlaces, Plant.places]
  have sub : (listPlaces (done ++ rest)).Sublist (listPlaces (done ++ .node root under :: rest)) := by
    rw [Plant.listPlaces_append, Plant.listPlaces_append, listPlaces]
    exact (List.sublist_append_right ..).append_left _
  obtain ⟨_, changed, frame⟩ :=
    node_remove here.1 (grows.inside p List.mem_cons_self) (grows.inside root rootIn) rootNe
  -- Cutting out filters the children, and all others pass.
  have elsewhere : ∀ ps : List Plant, (∀ r ∈ listPlaces ps, r ≠ root) →
      (ps.map Plant.place).filter (· != root) = ps.map Plant.place := by
    intro ps differ
    refine List.filter_eq_self.mpr fun r mem => ?_
    exact bne_iff_ne.mpr (differ r (Plant.map_place_subset r mem))
  obtain ⟨before, behind⟩ := grows.around fun r notRoot notParent _ => frame r notRoot notParent
  refine ⟨⟨?_, Plant.listHangs_append.mpr ⟨before, behind⟩, grows.distinct.sublist (sub.cons_cons p), ?_⟩,
    frame, ?_⟩
  · have children := grows.children
    rw [List.map_append, List.map_cons] at children
    rw [ParseTree.children, changed, children, List.filter_append, List.filter_cons_of_neg (by simp [Plant.place]),
      elsewhere done fun r mem => (around r (.inl mem)).1,
      elsewhere rest fun r mem => (around r (.inr mem)).1, List.map_append]
  · intro r mem
    rw [size_remove]
    exact grows.inside r ((sub.cons_cons p).subset mem)
  · rw [ParseTree.parent, changed]
    rfl

theorem Growing.lift {root : Ref} {under : List Plant}
    (grows : Growing t p done (.node root under :: rest)) :
    Growing (t.lift root) p (done ++ under) rest ∧
      (∀ r, r ≠ root → r ≠ p → r ∉ listPlaces under → (t.lift root).node r = t.node r) ∧
      (t.lift root).parent p = t.parent p := by
  obtain ⟨rootNe, distinct, below, around⟩ := grows.apart
  obtain ⟨_, here, _⟩ := Plant.listHangs_append.mp grows.hangs
  obtain ⟨link, children, deeper⟩ := here
  have rootIn : root ∈ p :: listPlaces (done ++ .node root under :: rest) := by
    simp [Plant.listPlaces_append, listPlaces, Plant.places]
  have sub : (listPlaces (done ++ under ++ rest)).Sublist
      (listPlaces (done ++ .node root under :: rest)) := by
    rw [Plant.listPlaces_append, Plant.listPlaces_append, Plant.listPlaces_append, listPlaces,
      Plant.places, List.append_assoc, List.cons_append]
    exact (List.sublist_cons_self ..).append_left _
  have apart : ∀ r ∈ t.children root, r ≠ root ∧ r ≠ p ∧ r < t.size := by
    intro r mem
    rw [children] at mem
    have place := Plant.map_place_subset r mem
    exact ⟨(below r place).1, (below r place).2, grows.inside r (List.mem_cons_of_mem _ (sub.subset
      (by simp [Plant.listPlaces_append, place])))⟩
  obtain ⟨_, changed, moved, frame⟩ := node_lift link (grows.inside p List.mem_cons_self)
    (grows.inside root rootIn) rootNe (children ▸ distinct.sublist (Plant.map_place_sublist under)) apart
  have frame' : ∀ r, r ≠ root → r ≠ p → r ∉ listPlaces under → (t.lift root).node r = t.node r :=
    fun r notRoot notParent absent => frame r notRoot notParent fun mem =>
      absent (Plant.map_place_subset r (children ▸ mem))
  obtain ⟨before, behind⟩ := grows.around frame'
  -- Only the tops of what is lifted change, in their parent; below them all is as it was.
  have adopted : ListHangs (t.lift root) (some p) under := by
    refine deeper.adopt distinct (fun r mem => ?_) fun r mem absent => ?_
    · have own := moved r (children ▸ mem)
      rw [ParseTree.parent, ParseTree.children, own]
      exact ⟨rfl, rfl⟩
    · exact frame r (below r mem).1 (below r mem).2 (children ▸ absent)
  refine ⟨⟨?_, ?_, grows.distinct.sublist (sub.cons_cons p), ?_⟩, frame', ?_⟩
  · have all := grows.children
    rw [List.map_append, List.map_cons] at all
    rw [ParseTree.children, changed, all]
    have absent : root ∉ done.map Plant.place := fun mem =>
      (around root (.inl (Plant.map_place_subset root mem))).1 rfl
    exact (spliceAt_append_cons _ _ absent).trans (by rw [children]; simp)
  · exact Plant.listHangs_append.mpr ⟨Plant.listHangs_append.mpr ⟨before, adopted⟩, behind⟩
  · intro r mem
    rw [size_lift]
    exact grows.inside r ((sub.cons_cons p).subset mem)
  · rw [ParseTree.parent, changed]
    rfl

/-- The first plant ahead is dealt with. -/
theorem Growing.apply {root : Ref} {under : List Plant}
    (grows : Growing t p done (.node root under :: rest)) (strategy : Strategy) :
    Growing (t.apply root strategy) p (done ++ (Plant.node root under).dealt strategy) rest ∧
      (∀ r, r ∉ p :: root :: listPlaces under → (t.apply root strategy).node r = t.node r) ∧
      (t.apply root strategy).parent p = t.parent p := by
  cases strategy with
  | keep =>
    obtain ⟨children, hangs, distinct, inside⟩ := grows
    rw [List.append_cons] at children hangs distinct inside
    exact ⟨⟨children, hangs, distinct, inside⟩, fun _ _ => rfl, rfl⟩
  | delete =>
    obtain ⟨grown, frame, link⟩ := grows.remove
    rw [Plant.dealt, List.append_nil]
    refine ⟨grown, fun r absent => ?_, link⟩
    simp only [List.mem_cons, not_or] at absent
    exact frame r absent.2.1 absent.1
  | lift =>
    obtain ⟨grown, frame, link⟩ := grows.lift
    refine ⟨grown, fun r absent => ?_, link⟩
    simp only [List.mem_cons, not_or] at absent
    exact frame r absent.2.1 absent.1 absent.2.2

end

mutual

/-- **Culling below a place** deals with the plants there as the filters say, and touches no other place. -/
theorem cullFrom_hangs (filters : List Filter) : ∀ (q : Plant) (depth : Nat) (t : ParseTree)
    (parent : Option Ref), q.places.length ≤ depth + 1 → q.Hangs t parent → q.places.Nodup →
    (∀ r ∈ q.places, r < t.size) →
    Plant.Hangs (cullFrom filters depth t q.place) parent
        (.node q.place (listCulled (Filter.strategyAt filters t) q.under)) ∧
      ∀ r, r ∉ q.places → (cullFrom filters depth t q.place).node r = t.node r
  | .node root under, depth, t, parent, enough, hangs, distinct, inside => by
    obtain ⟨link, children, below⟩ := hangs
    rw [Plant.places, List.length_cons] at enough
    cases depth with
    | zero =>
      have empty : under = [] := by
        cases under with
        | nil => rfl
        | cons q qs =>
          cases q
          rw [listPlaces, Plant.places, List.length_append, List.length_cons] at enough
          omega
      subst empty
      exact ⟨⟨link, children, trivial⟩, fun _ _ => rfl⟩
    | succ depth =>
      have growing : Growing t root [] under := ⟨children, below, distinct, inside⟩
      obtain ⟨grown, frame, above⟩ := foldl_cull filters under depth t root [] (by omega) growing
      rw [Plant.place, cullFrom, children]
      have ended := grown.children
      have last := grown.hangs
      rw [List.append_nil] at ended last
      exact ⟨⟨above.trans link, ended, last⟩, frame⟩

/-- The plants under a place are dealt with one after the other. -/
theorem foldl_cull (filters : List Filter) : ∀ (rest : List Plant) (depth : Nat) (t : ParseTree) (p : Ref)
    (done : List Plant), (listPlaces rest).length ≤ depth + 1 → Growing t p done rest →
    let culled := (rest.map Plant.place).foldl (fun t child =>
      let below := cullFrom filters depth t child
      below.apply child (Filter.strategyAt filters below child)) t
    Growing culled p (done ++ listCulled (Filter.strategyAt filters t) rest) [] ∧
      (∀ r, r ∉ p :: listPlaces rest → culled.node r = t.node r) ∧ culled.parent p = t.parent p
  | [], depth, t, p, done, _, grows => by
    rw [listCulled, List.append_nil]
    exact ⟨grows, fun _ _ => rfl, rfl⟩
  | .node root under :: rest, depth, t, p, done, enough, grows => by
    rw [listPlaces, List.length_append] at enough
    obtain ⟨_, here, _⟩ := Plant.listHangs_append.mp grows.hangs
    have own : (Plant.node root under).places.Sublist
        (p :: listPlaces (done ++ .node root under :: rest)) := by
      rw [Plant.listPlaces_append, listPlaces]
      exact ((List.sublist_append_left ..).trans (List.sublist_append_right ..)).cons p
    have parentApart : p ∉ (Plant.node root under).places := by
      obtain ⟨rootNe, _, below, _⟩ := grows.apart
      rw [Plant.places, List.mem_cons, not_or]
      exact ⟨rootNe.symm, fun mem => (below p mem).2 rfl⟩
    have alike := alike_cullFrom filters depth t root
    obtain ⟨hangs, frame⟩ := cullFrom_hangs filters (.node root under) depth t (some p) (by omega)
      here (grows.distinct.sublist own) fun r mem => grows.inside r (own.subset mem)
    rw [Plant.place, Plant.under] at hangs
    rw [Plant.place] at frame
    have fewer : (Plant.node root (listCulled (Filter.strategyAt filters t) under)).places.Sublist
        (Plant.node root under).places :=
      (Plant.sublist_listCulled (Filter.strategyAt filters t) under).cons_cons root
    -- The child is culled below first, then dealt with itself, and then come those behind it. Its links are changed
    -- by nothing but that, and what is said of a node does not depend on links, so it is the same before and after.
    have changed : Growing (cullFrom filters depth t root) p done
        (.node root (listCulled (Filter.strategyAt filters t) under) :: rest) :=
      grows.change rfl fewer hangs frame alike.size
    have said : Filter.strategyAt filters (cullFrom filters depth t root) root =
        Filter.strategyAt filters t root := alike.strategyAt filters root
    obtain ⟨grown, frame', link⟩ := changed.apply (Filter.strategyAt filters t root)
    have alike' : Alike t ((cullFrom filters depth t root).apply root (Filter.strategyAt filters t root)) :=
      alike.trans (alike_apply ..)
    obtain ⟨final, frame'', link'⟩ := foldl_cull filters rest depth _ p _ (by omega) grown
    rw [show Filter.strategyAt filters _ = Filter.strategyAt filters t from
      funext (alike'.strategyAt filters), List.append_assoc] at final
    intro culled
    have same : culled = (rest.map Plant.place).foldl (fun t child =>
        let below := cullFrom filters depth t child
        below.apply child (Filter.strategyAt filters below child))
        ((cullFrom filters depth t root).apply root (Filter.strategyAt filters t root)) := by
      rw [← said]
      rfl
    rw [same]
    refine ⟨final, fun r absent => ?_, ?_⟩
    · simp only [listPlaces, Plant.places, List.mem_cons, List.mem_append, not_or] at absent
      obtain ⟨notParent, ⟨notRoot, notBelow⟩, notLater⟩ := absent
      rw [frame'' r (by simp [notParent, notLater]), frame' r, frame r (by simp [Plant.places, notRoot, notBelow])]
      simp only [List.mem_cons, not_or]
      exact ⟨notParent, notRoot, fun mem =>
        notBelow ((Plant.sublist_listCulled (Filter.strategyAt filters t) under).subset mem)⟩
    · rw [link', link, ParseTree.parent, frame p parentApart]
      rfl

end

/-! ## What is seen of a culled tree -/

mutual

theorem viewFrom_hangs (t : ParseTree) : ∀ (q : Plant) (depth : Nat) (parent : Option Ref),
    q.Hangs t parent → q.places.length ≤ depth + 1 → t.viewFrom depth q.place = q.seen t
  | .node root under, depth, parent, hangs, enough => by
    obtain ⟨_, children, below⟩ := hangs
    rw [Plant.places, List.length_cons] at enough
    cases depth with
    | zero =>
      cases under with
      | nil => rfl
      | cons q qs =>
        cases q
        rw [listPlaces, Plant.places, List.length_append, List.length_cons] at enough
        omega
    | succ depth =>
      rw [Plant.place, viewFrom, Plant.seen, children, List.map_map,
        map_viewFrom_hangs t under depth (some root) below (by omega)]

theorem map_viewFrom_hangs (t : ParseTree) : ∀ (qs : List Plant) (depth : Nat) (parent : Option Ref),
    ListHangs t parent qs → (listPlaces qs).length ≤ depth + 1 →
    qs.map (t.viewFrom depth ∘ Plant.place) = Plant.listSeen t qs
  | [], _, _, _, _ => rfl
  | q :: qs, depth, parent, hangs, enough => by
    rw [listPlaces, List.length_append] at enough
    rw [List.map_cons, Plant.listSeen, Function.comp_apply,
      viewFrom_hangs t q depth parent hangs.1 (by omega),
      map_viewFrom_hangs t qs depth parent hangs.2 (by omega)]

end

end ParseTree

namespace Match.DerivedTree

open ParseTree (Plant Filter Strategy View Ref Node)
open ParseTree.Plant (ListHangs listPlaces listSeen)

/-- What the first filter that is about a node says, or that it stays. -/
def strategyOf (filters : List Filter) (name : Option String) (span : Span) : Strategy :=
  ((filters.find? fun filter => filter.predicate.holds name span).map Filter.strategy).getD .keep

mutual

/-- What the filters leave of a tree over a source. -/
def culled (filters : List Filter) (source : List Char) : DerivedTree → List View
  | node _ name span children =>
    match strategyOf filters name span with
    | .keep =>
      [.node name (String.ofList (Text.slice source span.start span.stop)) span
        (listCulled filters source children)]
    | .delete => []
    | .lift => listCulled filters source children

/-- What culling leaves of some plants. -/
def listCulled (filters : List Filter) (source : List Char) : List DerivedTree → List View
  | [] => []
  | t :: ts => t.culled filters source ++ listCulled filters source ts

end

mutual

/-- The places of the rows of a tree. -/
def plant (base : Nat) : DerivedTree → Plant
  | node _ _ _ children => .node (base + listSize children) (listPlant base children)

def listPlant (base : Nat) : List DerivedTree → List Plant
  | [] => []
  | t :: ts => t.plant base :: listPlant (base + t.size) ts

end

theorem place_plant (base : Nat) (t : DerivedTree) : (t.plant base).place = t.top base := by
  cases t
  rfl

theorem map_place_listPlant (base : Nat) (ts : List DerivedTree) :
    (listPlant base ts).map Plant.place = tops base ts := by
  induction ts generalizing base with
  | nil => rfl
  | cons t ts ih => rw [listPlant, List.map_cons, place_plant, ih, tops]

mutual

/-- The places of a tree are those from `base` on, as many as it has nodes. -/
theorem perm_places_plant (base : Nat) : ∀ t : DerivedTree,
    (t.plant base).places.Perm (List.range' base t.size)
  | node _ _ _ children => by
    rw [plant, Plant.places, size, List.range'_concat, Nat.one_mul]
    exact (List.perm_append_singleton ..).symm.trans
      ((perm_listPlaces_listPlant base children).append_right _)

theorem perm_listPlaces_listPlant (base : Nat) : ∀ ts : List DerivedTree,
    (listPlaces (listPlant base ts)).Perm (List.range' base (listSize ts))
  | [] => .refl _
  | t :: ts => by
    rw [listPlant, listPlaces, listSize, ← List.range'_append_1]
    exact (perm_places_plant base t).append (perm_listPlaces_listPlant (base + t.size) ts)

end

section

variable {t : ParseTree}

mutual

/-- A tree that was laid out hangs where its rows are. -/
theorem hangs_plant : ∀ (tree : DerivedTree) (before after : List Node) (parent : Option Ref),
    t.nodes.toList = before ++ (tree.rows before.length parent ++ after) →
    (tree.plant before.length).Hangs t parent
  | .node origin name span children, before, after, parent, laid => by
    have row := ParseTree.node_top laid
    rw [rows_eq, List.append_assoc] at laid
    refine ⟨?_, ?_, listHangs_listPlant children before _ _ laid⟩
    · exact congrArg Node.parent row
    · rw [map_place_listPlant]
      exact congrArg Node.children row

theorem listHangs_listPlant : ∀ (trees : List DerivedTree) (before after : List Node) (parent : Option Ref),
    t.nodes.toList = before ++ (listRows before.length parent trees ++ after) →
    ListHangs t parent (listPlant before.length trees)
  | [], _, _, _, _ => trivial
  | tree :: trees, before, after, parent, laid => by
    rw [listRows, List.append_assoc] at laid
    have tail := listHangs_listPlant trees (before ++ tree.rows before.length parent) after parent
    rw [List.length_append, length_rows] at tail
    exact ⟨hangs_plant tree before _ parent laid, tail (by rw [laid, List.append_assoc])⟩

end

/-- The only tree of a table hangs at all of its places. -/
theorem hangs_all {tree : DerivedTree} (laid : t.nodes.toList = tree.rows 0 none) :
    (tree.plant 0).Hangs t none ∧ (tree.plant 0).places.Perm (List.range t.size) := by
  have size : t.size = tree.size := by
    rw [ParseTree.size, ← Array.length_toList, laid, length_rows]
  refine ⟨hangs_plant tree [] [] none (by rwa [List.append_nil]), ?_⟩
  rw [size, List.range_eq_range']
  exact perm_places_plant 0 tree

mutual

/-- What is seen of a laid out tree when it is culled. -/
theorem seen_culled (filters : List Filter) : ∀ (tree : DerivedTree) (before after : List Node)
    (parent : Option Ref), t.nodes.toList = before ++ (tree.rows before.length parent ++ after) →
    listSeen t ((tree.plant before.length).culled (Filter.strategyAt filters t)) =
      tree.culled filters t.source
  | .node origin name span children, before, after, parent, laid => by
    have row := ParseTree.node_top laid
    rw [rows_eq, List.append_assoc] at laid
    have below := seen_listCulled filters children before _ _ laid
    have names : t.name (before.length + listSize children) = name := congrArg Node.name row
    have spans : t.span (before.length + listSize children) = span := congrArg Node.span row
    have values : t.value (before.length + listSize children) =
        String.ofList (Text.slice t.source span.start span.stop) := by
      have unwritten : (t.node (before.length + listSize children)).value = none := congrArg Node.value row
      rw [ParseTree.value, spans, unwritten, Option.getD_none]
    have said : Filter.strategyAt filters t (before.length + listSize children) =
        strategyOf filters name span := by
      simp only [Filter.strategyAt, Filter.matchesAt, names, spans, strategyOf]
    rw [plant, Plant.culled, said, culled]
    cases strategyOf filters name span with
    | keep =>
      rw [Plant.dealt, listSeen, listSeen, Plant.seen, names, spans, values, below]
    | delete => rfl
    | lift => exact below

theorem seen_listCulled (filters : List Filter) : ∀ (trees : List DerivedTree) (before after : List Node)
    (parent : Option Ref), t.nodes.toList = before ++ (listRows before.length parent trees ++ after) →
    listSeen t (Plant.listCulled (Filter.strategyAt filters t) (listPlant before.length trees)) =
      listCulled filters t.source trees
  | [], _, _, _, _ => rfl
  | tree :: trees, before, after, parent, laid => by
    rw [listRows, List.append_assoc] at laid
    have tail := seen_listCulled filters trees (before ++ tree.rows before.length parent) after parent
    rw [List.length_append, length_rows] at tail
    rw [listPlant, Plant.listCulled, Plant.listSeen_append, seen_culled filters tree before _ parent laid,
      tail (by rw [laid, List.append_assoc]), listCulled]

end

/-- **The tree that culling leaves.** The topmost node stays, and below it the filters decide. -/
theorem view_cull {tree : DerivedTree} (laid : t.nodes.toList = tree.rows 0 none) (filters : List Filter) :
    (t.cull (tree.top 0) filters).view (tree.top 0) =
      .node (tree.topRow 0 none).name
        (String.ofList (Text.slice t.source (tree.topRow 0 none).span.start (tree.topRow 0 none).span.stop))
        (tree.topRow 0 none).span (listCulled filters t.source tree.children) := by
  have laid' : t.nodes.toList = [] ++ (tree.rows ([] : List Node).length none ++ []) := by
    rw [List.append_nil]
    exact laid
  obtain ⟨hangs, perm⟩ := hangs_all laid
  have long : (tree.plant 0).places.length = t.size := perm.length_eq.trans List.length_range
  have alike := ParseTree.alike_cullFrom filters t.size t (tree.top 0)
  obtain ⟨culled, _⟩ := ParseTree.cullFrom_hangs filters (tree.plant 0) t.size t none
    (by omega) hangs (perm.nodup_iff.mpr List.nodup_range) fun r mem =>
      List.mem_range.mp (perm.mem_iff.mp mem)
  rw [place_plant] at culled
  have fewer := (Plant.sublist_listCulled (Filter.strategyAt filters t) (tree.plant 0).under).length_le
  have seen := ParseTree.viewFrom_hangs _ _ t.size none culled (by
    cases tree
    rw [Plant.places, List.length_cons]
    rw [plant, Plant.places, List.length_cons] at long
    rw [plant, Plant.under] at fewer ⊢
    omega)
  rw [Plant.place, alike.seen, Plant.seen] at seen
  have row := ParseTree.node_top laid'
  have span : t.span (tree.top 0) = (tree.topRow 0 none).span := congrArg Node.span row
  have name : t.name (tree.top 0) = (tree.topRow 0 none).name := congrArg Node.name row
  have value : (t.node (tree.top 0)).value = none := by
    refine (congrArg Node.value row).trans ?_
    cases tree
    rfl
  have below : listSeen t (Plant.listCulled (Filter.strategyAt filters t) (tree.plant 0).under) =
      listCulled filters t.source tree.children := by
    cases tree
    rw [rows_eq, List.append_assoc] at laid'
    exact seen_listCulled filters _ [] _ _ laid'
  rw [ParseTree.view, ParseTree.cull, alike.size, seen, below, ParseTree.value, name, span, value,
    Option.getD_none]

end

end Match.DerivedTree

end BnfTokenizer
