import BnfTokenizer.Proofs.Dialect.Rows
import BnfTokenizer.Proofs.Dialect.Tokens
import Mathlib.Data.List.Find

/-!
# Groups and sentences are folded

The fourth pass folds the statement in each group of a sentence, inner groups first, and then the statement of the
sentence. Folding a statement lifts the statements of the groups in it, which were folded before; so the table is no
longer what it was below a group that is done, and everywhere else it is (`Kept`). A row needs no more than that:
folding goes along it and makes the nodes that `Draft.enterAll` makes (`IsRow.lowerGroups`).
-/

namespace BnfTokenizer.Dialect

open ParseTree (Ref View Forest Filter)
open Relation (TransGen)

variable {t u v : ParseTree} {r s : Ref} {area : List Ref}

/-! ## What a pass leaves alone -/

/-- Names and values everywhere are as they were, and outside an area everything is. No way up is new. -/
structure Kept (area : List Ref) (t u : ParseTree) : Prop where
  forest : u.Forest
  size : u.size = t.size
  source : u.source = t.source
  name : ∀ x, u.name x = t.name x
  value : ∀ x, u.value x = t.value x
  above : ∀ a x, u.Above a x → t.Above a x
  frame : ∀ x, x ∉ area → u.node x = t.node x

theorem Kept.refl (forest : t.Forest) : Kept [] t t :=
  ⟨forest, rfl, rfl, fun _ => rfl, fun _ => rfl, fun _ _ above => above, fun _ _ => rfl⟩

theorem Kept.mono {more : List Ref} (kept : Kept area t u) (within : area ⊆ more) : Kept more t u :=
  { kept with frame := fun x apart => kept.frame x fun mem => apart (within mem) }

theorem Kept.trans {other : List Ref} (first : Kept area t u) (second : Kept other u v) : Kept (area ++ other) t v where
  forest := second.forest
  size := second.size.trans first.size
  source := second.source.trans first.source
  name x := (second.name x).trans (first.name x)
  value x := (second.value x).trans (first.value x)
  above a x above := first.above a x (second.above a x above)
  frame x apart := by
    rw [List.mem_append, not_or] at apart
    exact (second.frame x apart.2).trans (first.frame x apart.1)

theorem Kept.children (kept : Kept area t u) (apart : r ∉ area) : u.children r = t.children r :=
  congrArg ParseTree.Node.children (kept.frame r apart)

theorem Kept.payload (kept : Kept area t u) (apart : r ∉ area) : u.payload r = t.payload r :=
  congrArg ParseTree.Node.payload (kept.frame r apart)

/-- What is below a node was below it. -/
theorem Kept.preorder_subset (kept : Kept area t u) (forest : t.Forest) (r : Ref) : u.preorder r ⊆ t.preorder r := by
  intro x mem
  rw [forest.mem_preorder_iff]
  exact (kept.forest.mem_preorder_iff.mp mem).imp id (kept.above r x)

/-- Two tables are the same in an area. -/
structure Agrees (area : List Ref) (t u : ParseTree) : Prop where
  source : u.source = t.source
  node : ∀ x ∈ area, u.node x = t.node x

namespace Agrees

theorem mono {fewer : List Ref} (agrees : Agrees area t u) (within : fewer ⊆ area) : Agrees fewer t u :=
  ⟨agrees.source, fun x mem => agrees.node x (within mem)⟩

theorem kept {other : List Ref} (agrees : Agrees area t u) (kept : Kept other u v) (apart : ∀ x ∈ area, x ∉ other) :
    Agrees area t v :=
  ⟨kept.source.trans agrees.source, fun x mem => (kept.frame x (apart x mem)).trans (agrees.node x mem)⟩

variable (agrees : Agrees area t u) {x : Ref} (mem : x ∈ area)

include agrees mem

theorem name : u.name x = t.name x :=
  congrArg ParseTree.Node.name (agrees.node x mem)

theorem children : u.children x = t.children x :=
  congrArg ParseTree.Node.children (agrees.node x mem)

theorem payload : u.payload x = t.payload x :=
  congrArg ParseTree.Node.payload (agrees.node x mem)

theorem value : u.value x = t.value x := by
  rw [ParseTree.value, ParseTree.value, ParseTree.span, ParseTree.span, agrees.node x mem, agrees.source]

end Agrees

/-- What the children hand up to a node is the same where the tables are. -/
theorem Agrees.induction {motive : Ref → Prop} (forest : t.Forest)
    (step : ∀ r, u.children r = t.children r → (∀ c ∈ t.children r, motive c) → motive r)
    (agrees : Agrees (t.preorder r) t u) : motive r := by
  induction r using forest.induction with
  | step r ih =>
    refine step r (agrees.children (forest.self_mem_preorder r)) fun c listed => ih c listed (agrees.mono ?_)
    exact forest.preorder_subset (forest.child_mem_preorder listed)

theorem Agrees.preorder (forest : t.Forest) (forest' : u.Forest) (agrees : Agrees (t.preorder r) t u) :
    u.preorder r = t.preorder r := by
  refine agrees.induction (motive := fun r => u.preorder r = t.preorder r) forest fun r own ih => ?_
  rw [forest'.preorder_eq, own, forest.preorder_eq, List.flatMap_congr ih]

theorem Agrees.postorder (forest : t.Forest) (forest' : u.Forest) (agrees : Agrees (t.preorder r) t u) :
    u.postorder r = t.postorder r := by
  refine agrees.induction (motive := fun r => u.postorder r = t.postorder r) forest fun r own ih => ?_
  rw [forest'.postorder_eq, own, forest.postorder_eq, List.flatMap_congr ih]

/-! ### Around a row that is gone along -/

section

variable (forest : t.Forest) (agrees : Agrees (t.preorder r) t u) (kept : Kept ((t.children s).flatMap t.preorder) u v)

include forest agrees kept

/-- A node that the row is below has the children that it had. -/
theorem children_around {x : Ref} (here : x ∈ t.preorder r) (under : s ∈ t.preorder x) :
    v.children x = t.children x :=
  (kept.children (forest.not_mem_below under)).trans (agrees.children here)

/-- What is done below the node as well stays below it. -/
theorem Kept.close (trees : u.Forest) {w : ParseTree} {x : Ref} (more : Kept (v.preorder x) v w)
    (here : x ∈ t.preorder r) (under : s ∈ t.preorder r) : Kept (t.preorder r) u w := by
  refine (kept.trans more).mono (List.append_subset.mpr ⟨?_, ?_⟩)
  · exact List.Subset.trans (forest.below_subset s) (forest.preorder_subset under)
  · have same := (agrees.mono (forest.preorder_subset here)).preorder forest trees
    exact List.Subset.trans (same ▸ kept.preorder_subset trees x) (forest.preorder_subset here)

end

/-! ## One statement -/

/-- What a part has added to its row. -/
def Entry (t : ParseTree) (r : Ref) : Option NodeId → Prop
  | none => t.name r = some "|"
  | some id => t.name r ≠ some "|" ∧ t.name r ≠ some "statement" ∧ t.payload r = some id

/-- What lifts the statements of groups that are done. -/
def liftStatements : List Filter :=
  [⟨.named ["statement"], .lift⟩]

/-- Culling keeps what it does not reach. -/
theorem kept_cull (forest : t.Forest) (r : Ref) (filters : List Filter) : Kept (t.preorder r) t (t.cull r filters) := by
  obtain ⟨-, -, -, -, frame, alike, -⟩ := ParseTree.cull_rewrites forest r filters
  refine ⟨forest.cull r filters, alike.size, alike.source, alike.name, alike.value,
    fun a x => forest.above_of_above_cull r filters, fun x apart => ?_⟩
  rw [forest.mem_preorder_iff, not_or] at apart
  exact frame x apart.1 apart.2

theorem kept_setPayload (forest : t.Forest) (r : Ref) (id : NodeId) : Kept [r] t (t.setPayload r id) := by
  have paid := paid_setPayload t r id
  refine ⟨paid.forest forest, paid.size, paid.source, paid.name, paid.value, fun a x above => ?_, fun x apart => ?_⟩
  · simpa only [ParseTree.Above, paid.parent] using above
  · rw [List.mem_singleton] at apart
    exact ParseTree.node_modify_of_ne t _ (Ne.symm apart)

/-- The parts of a statement stay its children when it is culled. -/
theorem children_cull_statements (forest : t.Forest) (other : ∀ c ∈ t.children s, t.name c ≠ some "statement") :
    (t.cull s liftStatements).children s = t.children s := by
  obtain ⟨rewrites, -, children, -⟩ := ParseTree.cull_rewrites forest s liftStatements
  have kept : ∀ c ∈ t.children s, (t.rewritten liftStatements c).map ParseTree.Plant.place = [c] := by
    intro c mem
    have passed : (⟨.named ["statement"], .lift⟩ : Filter).matchesAt t c = false := by
      cases named : t.name c with
      | none => simp [Filter.matchesAt, ParseTree.Predicate.holds, named]
      | some name =>
        have apart : name ≠ "statement" := fun same => other c mem (named.trans (congrArg some same))
        simpa [Filter.matchesAt, ParseTree.Predicate.holds, named] using apart
    have keep : Filter.strategyAt liftStatements t c = .keep := by
      rw [Filter.strategyAt, liftStatements, List.find?_singleton, passed]
      rfl
    rw [rewrites c, keep]
    rfl
  rw [children, List.map_flatMap, List.flatMap_congr kept, List.flatMap_singleton']

theorem between_some (id : NodeId) (entries : List (Option NodeId)) :
    Draft.between (some id :: entries) = (id :: (Draft.between entries).headD []) :: (Draft.between entries).tail := by
  unfold Draft.between
  rw [ParseTree.splitOn]
  cases ParseTree.splitOn Option.isNone entries with
  | nil => rfl
  | cons group groups => rfl

/-- No part of a statement is a statement. -/
theorem name_of_entries {rs : List Ref} {entries : List (Option NodeId)} (each : List.Forall₂ (Entry t) rs entries) :
    ∀ c ∈ rs, t.name c ≠ some "statement" := by
  induction each with
  | nil => exact nofun
  | @cons r entry rs entries own _ ih =>
    refine List.forall_mem_cons.mpr ⟨?_, ih⟩
    cases entry with
    | none =>
      intro same
      exact absurd (own.symm.trans same) (by decide)
    | some id => exact own.2.1

/-- Bars are told apart by their names, and whatever else there is has a node. -/
theorem mapM_splitOn {rs : List Ref} {entries : List (Option NodeId)} (each : List.Forall₂ (Entry t) rs entries)
    {nodeOf : Ref → Except CompileError NodeId} (known : ∀ r id, t.payload r = some id → nodeOf r = .ok id) :
    (ParseTree.splitOn (fun c => t.name c == some "|") rs).mapM (List.mapM nodeOf) = .ok (Draft.between entries) := by
  induction each with
  | nil => rfl
  | @cons r entry rs entries own _ ih =>
    cases entry with
    | none =>
      have isBar : (t.name r == some "|") = true := beq_iff_eq.mpr own
      rw [ParseTree.splitOn, if_pos isBar, List.mapM_cons, ih]
      rfl
    | some id =>
      obtain ⟨isPart, _, payload⟩ := own
      have noBar : ¬ (t.name r == some "|") = true := fun same => isPart (beq_iff_eq.mp same)
      rw [ParseTree.splitOn, if_neg noBar, between_some]
      revert ih
      generalize Draft.between entries = groups
      -- The part joins the first group of the rest. There is one: even an empty row is split into a group.
      cases split : ParseTree.splitOn (fun c => t.name c == some "|") rs with
      | nil => exact absurd split (ParseTree.splitOn_ne_nil _ rs)
      | cons first others =>
        intro ih
        rw [List.mapM_cons] at ih
        rw [List.headD_cons, List.tail_cons, List.mapM_cons, List.mapM_cons, known r id payload]
        cases head : first.mapM nodeOf with
        | error error =>
          rw [head] at ih
          cases ih
        | ok group =>
          cases tail : others.mapM (List.mapM nodeOf) with
          | error error =>
            rw [head, tail] at ih
            cases ih
          | ok more =>
            rw [head, tail] at ih
            cases ih
            rfl

/-- **A statement is folded** into the nodes that its parts have added. -/
theorem fold_eq {l : Lowering} (forest : l.tree.Forest) {entries : List (Option NodeId)}
    (each : List.Forall₂ (Entry l.tree) (l.tree.children s) entries) :
    l.fold s = .ok ({ l with
        tree := l.tree.cull s liftStatements
        draft := (l.draft.addAlternatives (Draft.between entries)).1 },
      (l.draft.addAlternatives (Draft.between entries)).2) := by
  have alike := ParseTree.alike_cull l.tree s liftStatements
  -- Culling lifts statements below the parts only, so the row is split as it was.
  have split : (l.tree.cull s liftStatements).splitChildren s "|" =
      ParseTree.splitOn (fun c => l.tree.name c == some "|") (l.tree.children s) := by
    rw [ParseTree.splitChildren, children_cull_statements forest (name_of_entries each)]
    simp only [alike.name]
  have run := mapM_splitOn each (fun r id (known : l.tree.payload r = some id) =>
    show expect (l.tree.cull s liftStatements) r ((l.tree.cull s liftStatements).payload r) = .ok id by
      rw [alike.payload, known]
      rfl)
  rw [← split] at run
  exact congrArg (Except.map _) run

/-! ## One group -/

/-- The marks at a node are the same when the links below it are. -/
theorem marksAt_congr (children : u.children r = t.children r) (names : ∀ c ∈ t.children r, u.name c = t.name c)
    (values : ∀ c ∈ t.children r, u.value c = t.value c) : marksAt u r = marksAt t r := by
  have same : ∀ name, u.childByName r name = t.childByName r name := by
    intro name
    rw [ParseTree.childByName, ParseTree.childByName, children]
    exact List.find?_congr fun c mem => by rw [names c mem]
  have value : (t.childByName r "modifier").map u.value = (t.childByName r "modifier").map t.value :=
    Option.map_congr fun c found => values c (mem_children_of_childByName found)
  rw [marksAt, marksAt, hasChild, hasChild, same, same, value]

/-- **A group is folded** when all that is in it is done. -/
theorem lowerGroup_eq {l : Lowering} (forest : l.tree.Forest) {before after : List Ref}
    (children : l.tree.children r = before ++ s :: after) (marks : ∀ c ∈ before, l.tree.name c ≠ some "statement")
    (called : l.tree.name s = some "statement") {entries : List (Option NodeId)}
    (each : List.Forall₂ (Entry l.tree) (l.tree.children s) entries) :
    ∃ u, l.lowerGroup r = .ok { l with tree := u, draft := (l.draft.close (marksAt l.tree r) entries).1 } ∧
      Kept (l.tree.preorder r) l.tree u ∧ u.payload r = some (l.draft.close (marksAt l.tree r) entries).2 := by
  have listed : s ∈ l.tree.children r := by simp [children]
  have found : l.tree.childByName r "statement" = some s := by
    have none : before.find? (fun c => l.tree.name c == some "statement") = none :=
      List.find?_eq_none.mpr fun c mem => by rw [beq_iff_eq]; exact marks c mem
    rw [ParseTree.childByName, children, List.find?_append, none, Option.none_or]
    exact List.find?_cons_of_pos (beq_iff_eq.mpr called)
  have kept := kept_cull forest s liftStatements
  have same : marksAt (l.tree.cull s liftStatements) r = marksAt l.tree r :=
    marksAt_congr (kept.children (forest.not_mem_preorder listed)) (fun c _ => kept.name c) fun c _ => kept.value c
  have inside : r < (l.tree.cull s liftStatements).size :=
    kept.size ▸ forest.parent_inside ((forest.linked r s).mp listed)
  refine ⟨(l.tree.cull s liftStatements).setPayload r (l.draft.close (marksAt l.tree r) entries).2, ?_, ?_,
    payload_setPayload inside⟩
  · rw [Lowering.lowerGroup, found]
    dsimp only
    rw [fold_eq forest each, ← same]
    rfl
  · refine (kept.trans (kept_setPayload kept.forest r _)).mono (List.append_subset.mpr ⟨?_, ?_⟩)
    · exact forest.preorder_subset (forest.child_mem_preorder listed)
    · simpa using forest.self_mem_preorder r

/-! ## All groups of a row -/

/-- The groups at and below some nodes, in the order in which they are gone to. -/
def groupsOf (t : ParseTree) (rs : List Ref) : List Ref :=
  (rs.flatMap t.postorder).filter fun r => t.name r == some "nested"

theorem groupsOf_append (t : ParseTree) (rs rs' : List Ref) : groupsOf t
    (rs ++ rs') = groupsOf t rs ++ groupsOf t rs' := by
  rw [groupsOf, List.flatMap_append, List.filter_append]
  rfl

/-- A node is gone to after what is below it. -/
theorem groupsOf_singleton (forest : t.Forest) (r : Ref) :
    groupsOf t [r] = groupsOf t (t.children r) ++ if t.name r = some "nested" then [r] else [] := by
  rw [groupsOf, List.flatMap_singleton, forest.postorder_eq, List.filter_append, List.filter_singleton, groupsOf]
  by_cases named : t.name r = some "nested"
  · rw [if_pos named, beq_iff_eq.mpr named]
    rfl
  · rw [if_neg named, beq_eq_false_iff_ne.mpr named]
    rfl

/-- There are no groups where all names are others. -/
theorem groupsOf_eq_nil {rs : List Ref}
    (other : ∀ c, c ∈ rs.flatMap t.preorder → t.name c ≠ some "nested") : groupsOf t rs = [] := by
  refine List.filter_eq_nil_iff.mpr fun c mem => ?_
  rw [beq_iff_eq]
  exact other c ((ParseTree.perm_flatMap_postorder rs).mem_iff.mp mem)

theorem groupsOf_congr (forest : t.Forest) (forest' : u.Forest) {rs : List Ref}
    (agrees : Agrees (rs.flatMap t.preorder) t u) : groupsOf u rs = groupsOf t rs := by
  have orders : rs.flatMap u.postorder = rs.flatMap t.postorder := by
    refine List.flatMap_congr fun r mem => Agrees.postorder forest forest' (agrees.mono fun x below => ?_)
    exact List.mem_flatMap.mpr ⟨r, mem, below⟩
  rw [groupsOf, orders]
  refine List.filter_congr fun x mem => ?_
  rw [agrees.name ((ParseTree.perm_flatMap_postorder rs).mem_iff.mp mem)]

/-- The groups in a group come first, and they are those of the row in it. -/
theorem groupsOf_nested (forest : t.Forest) {before after : List Ref} (named : t.name r = some "nested")
    (children : t.children r = before ++ s :: after)
    (marks : ∀ c ∈ before ++ after, t.children c = [] ∧ IsInner (t.name c)) (called : t.name s = some "statement") :
    groupsOf t [r] = groupsOf t (t.children s) ++ [r] := by
  have around : ∀ cs : List Ref, (∀ c ∈ cs, c ∈ before ++ after) → groupsOf t cs = [] := by
    intro cs among
    refine groupsOf_eq_nil fun x mem named => ?_
    obtain ⟨c, listed, below⟩ := List.mem_flatMap.mp mem
    obtain ⟨leaf, inner⟩ := marks c (among c listed)
    rw [forest.preorder_eq, leaf, List.flatMap_nil, List.mem_singleton] at below
    rw [← below, named] at inner
    exact absurd inner (by decide)
  have inside : groupsOf t (before ++ ([s] ++ after)) = groupsOf t (t.children s) := by
    rw [groupsOf_append, groupsOf_append, around before fun c => List.mem_append_left _,
      around after fun c => List.mem_append_right _, List.nil_append, List.append_nil, groupsOf_singleton forest,
      if_neg (by rw [called]; decide), List.append_nil]
  rw [groupsOf_singleton forest, if_pos named, children, ← List.singleton_append (l := after), inside]

/-- A group in a row that is gone along. -/
theorem lowerGroup_kept (forest : t.Forest) {before after : List Ref} (children : t.children r = before ++ s :: after)
    (marks : ∀ c ∈ before ++ after, t.children c = [] ∧ IsInner (t.name c)) (called : t.name s = some "statement")
    (l : Lowering) (trees : l.tree.Forest) (agrees : Agrees (t.preorder r) t l.tree) {w : ParseTree} (d : Draft)
    {entries : List (Option NodeId)} (kept : Kept ((t.children s).flatMap t.preorder) l.tree w)
    (each : List.Forall₂ (Entry w) (t.children s) entries) :
    ∃ u, Lowering.lowerGroup { l with tree := w, draft := d } r =
        .ok { l with tree := u, draft := (d.close (marksAt t r) entries).1 } ∧
      Kept (t.preorder r) l.tree u ∧ u.payload r = some (d.close (marksAt t r) entries).2 := by
  have listed : s ∈ t.children r := by simp [children]
  have under := forest.child_mem_preorder listed
  have names : ∀ {c}, c ∈ t.children r → w.name c = t.name c := fun mem =>
    (kept.name _).trans (agrees.name (forest.child_mem_preorder mem))
  have own : w.children r = t.children r := children_around forest agrees kept (forest.self_mem_preorder r) under
  have inner : w.children s = t.children s := children_around forest agrees kept under (forest.self_mem_preorder s)
  have same : marksAt w r = marksAt t r := marksAt_congr own (fun c => names) fun c mem =>
    (kept.value c).trans (agrees.value (forest.child_mem_preorder mem))
  have isMark : ∀ c ∈ before, w.name c ≠ some "statement" := by
    intro c mem
    rw [names (children ▸ List.mem_append_left _ mem)]
    intro named
    have other := (marks c (List.mem_append_left _ mem)).2
    rw [named] at other
    exact absurd other (by decide)
  obtain ⟨u, run, more, payload⟩ := @lowerGroup_eq r s { l with tree := w, draft := d } kept.forest before after
    (own.trans children) isMark ((names listed).trans called) entries (inner ▸ each)
  rw [same] at run payload
  exact ⟨u, run, kept.close forest agrees trees more (forest.self_mem_preorder r) under, payload⟩

/-- The groups of some nodes are folded, and the entries that the nodes have then are those. -/
def FoldsGroups (t : ParseTree) (rs : List Ref) (l : Lowering) (d : Draft) (entries : List (Option NodeId)) : Prop :=
  ∃ u, (groupsOf t rs).foldlM Lowering.lowerGroup l = .ok { l with tree := u, draft := d } ∧
    Kept (rs.flatMap t.preorder) l.tree u ∧ List.Forall₂ (Entry u) rs entries

/-- A part without groups is passed over. -/
theorem FoldsGroups.over {rs : List Ref} {l : Lowering} {d : Draft} {entries : List (Option NodeId)}
    (folds : FoldsGroups t rs l d entries) (none : groupsOf t [r] = []) {entry : Option NodeId}
    (own : ∀ u, Kept (rs.flatMap t.preorder) l.tree u → Entry u r entry) :
    FoldsGroups t (r :: rs) l d (entry :: entries) := by
  obtain ⟨u, run, kept, each⟩ := folds
  refine ⟨u, ?_, kept.mono fun x => List.mem_append_right _, .cons (own u kept) each⟩
  rw [← List.singleton_append, groupsOf_append, none]
  exact run

/-- What a part with a node has added. -/
theorem entry_some {id : NodeId} {name : String} (named : t.name r = some name)
    (apart : name ≠ "|" ∧ name ≠ "statement") (known : t.payload r = some id) : Entry t r (some id) := by
  refine ⟨?_, ?_, known⟩
  · rw [named]
    simpa using apart.1
  · rw [named]
    simpa using apart.2

/-- **The groups of a row are folded**, inner groups first. -/
theorem IsRow.lowerGroups (forest : t.Forest) {rs : List Ref} {row : List (Part NodeId)}
    (is : IsRow t (fun r id => t.payload r = some id) rs row) (once : (rs.flatMap t.preorder).Nodup) (l : Lowering)
    (trees : l.tree.Forest) (agrees : Agrees (rs.flatMap t.preorder) t l.tree) :
    FoldsGroups t rs l (l.draft.enterAll row).1 (l.draft.enterAll row).2 := by
  induction is generalizing l with
  | nil => exact ⟨l.tree, rfl, .refl trees, .nil⟩
  | @bar r rs row named leaf more ih =>
    obtain ⟨_, once, apart⟩ := List.nodup_append.mp once
    have here := agrees.name (List.mem_append_left _ (forest.self_mem_preorder r))
    refine (ih once l trees (agrees.mono fun x => List.mem_append_right _)).over ?_ fun u kept => ?_
    · rw [groupsOf_singleton forest, leaf, if_neg (by rw [named]; decide)]
      rfl
    · exact (kept.name r).trans (here.trans named)
  | @token r rs id row named inner known more ih =>
    obtain ⟨_, once, apart⟩ := List.nodup_append.mp once
    have here := List.mem_append_left (rs.flatMap t.preorder) (forest.self_mem_preorder r)
    refine (ih once l trees (agrees.mono fun x => List.mem_append_right _)).over ?_ fun u kept => ?_
    · refine groupsOf_eq_nil fun x mem isGroup => ?_
      rw [List.flatMap_singleton, forest.mem_preorder_iff] at mem
      rcases mem with rfl | above
      · exact absurd (named.symm.trans isGroup) (by decide)
      · have plain := inner x above
        rw [isGroup] at plain
        exact absurd plain (by decide)
    · have away : r ∉ rs.flatMap t.preorder := fun mem => apart r (forest.self_mem_preorder r) r mem rfl
      exact entry_some ((kept.name r).trans ((agrees.name here).trans named)) (by decide)
        ((kept.payload away).trans ((agrees.payload here).trans known))
  | @group r s before after rs inside row named children marks called holds more ih ih' =>
    -- The row in the group is folded first, then the group, then what is behind it. What is behind the group does not
    -- share a node with it, so both parts are as they were when they are gone to.
    obtain ⟨_, once, apart⟩ := List.nodup_append.mp once
    have under : s ∈ t.preorder r := forest.child_mem_preorder (by simp [children])
    have away : r ∉ rs.flatMap t.preorder := fun mem => apart r (forest.self_mem_preorder r) r mem rfl
    have area : Agrees (t.preorder r) t l.tree := agrees.mono fun x => List.mem_append_left _
    obtain ⟨w, run, kept, each⟩ := ih (forest.nodup_below s) l trees
      (area.mono (List.Subset.trans (forest.below_subset s) (forest.preorder_subset under)))
    obtain ⟨u, close, around, payload⟩ := lowerGroup_kept forest children marks called l trees area
      (l.draft.enterAll inside).1 kept each
    have closed : (l.draft.enter (.group (marksAt t r) inside)).1 =
        ((l.draft.enterAll inside).1.close (marksAt t r) (l.draft.enterAll inside).2).1 := rfl
    obtain ⟨v, run', kept', each'⟩ := ih' once ⟨u, (l.draft.enter (.group (marksAt t r) inside)).1, l.rules⟩ around.forest
      ((agrees.mono fun x => List.mem_append_right _).kept around fun x mem again => apart x again x mem rfl)
    refine ⟨v, ?_, around.trans kept', .cons ?_ each'⟩
    · rw [← List.singleton_append, groupsOf_append, groupsOf_nested forest named children marks called,
        List.foldlM_append, List.foldlM_append, run]
      have step : [r].foldlM Lowering.lowerGroup { l with tree := w, draft := (l.draft.enterAll inside).1 } =
          .ok ⟨u, (l.draft.enter (.group (marksAt t r) inside)).1, l.rules⟩ := by
        rw [List.foldlM_cons, close, closed]
        rfl
      exact (congrArg (Except.bind · _) step).trans run'
    · have here := area.name (forest.self_mem_preorder r)
      exact entry_some ((kept'.name r).trans ((around.name r).trans (here.trans named))) (by decide)
        ((kept'.payload away).trans payload)

end BnfTokenizer.Dialect
