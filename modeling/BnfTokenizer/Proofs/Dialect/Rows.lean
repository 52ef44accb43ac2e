import BnfTokenizer.Proofs.Dialect.Drafting
import BnfTokenizer.Proofs.Dialect.Tidiness

/-!
# Statements as rows

When escapes are resolved and wrappers have made way (`Flattened`), a statement is a row of bars, tokens and groups, and
a group holds a statement of its own between its marks. `IsRow` is that for addresses in a table: it goes along the
links, and says nothing of the nodes below tokens. The rows are the same that were seen from the start, with the same
tokens (`Rowed`).
-/

namespace BnfTokenizer.Dialect

open ParseTree (Ref View Forest)

variable {t u : ParseTree} {r s : Ref}

/-! ## The first two passes -/

/-- A wrapper that is seen is one in the table. -/
theorem wraps_of_tidy (forest : t.Forest) {o p : Ref} (tidy : Tidy (t.view p)) (link : t.parent o = some p)
    (isOpt : t.name o = some "statementOpt") : ∃ w, Wraps t o w := by
  have listed : t.view o ∈ (t.view p).children := by
    rw [forest.children_view]
    exact List.mem_map_of_mem ((forest.linked p o).mpr link)
  obtain ⟨other, w, single, inner, below⟩ := tidy.wraps _ listed ((forest.name_view o).trans isOpt)
  rw [forest.children_view] at single
  obtain ⟨w, children, rfl⟩ := List.map_eq_singleton_iff.mp single
  rw [forest.name_view] at other inner
  refine ⟨w, .inl isOpt, children, inner, ?_, ⟨p, link⟩, fun c mem => ?_⟩
  · intro p' link'
    cases link.symm.trans link'
    exact other
  · rw [← forest.name_view]
    refine below _ ?_
    rw [forest.children_view]
    exact List.mem_map_of_mem mem

theorem Wraps.revalued {o w : Ref} (wraps : Wraps t o w) (same : Revalued t u) : Wraps u o w where
  outer := by
    rw [same.name]
    exact wraps.outer
  children := (same.children o).trans wraps.children
  inner := by
    rw [same.name]
    exact wraps.inner
  above p link := by
    rw [same.name]
    exact wraps.above p ((same.parent o).symm.trans link)
  listed := by
    obtain ⟨p, link⟩ := wraps.listed
    exact ⟨p, (same.parent o).trans link⟩
  below c mem := by
    rw [same.name]
    exact wraps.below c (same.children w ▸ mem)

/-- What stands for a child when wrappers have made way. -/
def spread (t : ParseTree) (c : Ref) : List Ref :=
  if t.name c = some "statementOpt" then (t.children c).flatMap t.children else [c]

theorem spread_of_ne {c : Ref} (other : t.name c ≠ some "statementOpt") : spread t c = [c] :=
  if_neg other

/-- A tree with escapes resolved and wrappers gone. -/
structure Flattened (t u : ParseTree) : Prop where
  forest : u.Forest
  size : u.size = t.size
  source : u.source = t.source
  name : ∀ x, u.name x = t.name x
  span : ∀ x, u.span x = t.span x
  value : ∀ x, t.Above t.root x → u.value x = resolvedValue (t.name x) (t.value x)
  children : ∀ x ∈ t.preorder t.root, ¬ IsWrapper (t.name x) → u.children x = (t.children x).flatMap (spread t)

section

variable (forest : t.Forest)

include forest

theorem nodup_allByName (r : Ref) (name : String) : (t.allByName r .leafFirst name).Nodup :=
  (forest.nodup_descendants r .leafFirst).filter _

/-- What is below the root hangs in a node that is the root or below it. -/
theorem exists_parent_of_above {c : Ref} (below : t.Above r c) : ∃ p ∈ t.preorder r, t.parent c = some p := by
  obtain ⟨p, link, same | above⟩ := ParseTree.above_iff.mp below
  · exact ⟨p, forest.mem_preorder_iff.mpr (.inl same), link⟩
  · exact ⟨p, forest.mem_preorder_iff.mpr (.inr above), link⟩

/-- The first pass resolves all escapes below the root. -/
theorem view_foldl_resolveEscape (tidy : (t.view t.root).All Tidy) (ordinary : t.name t.root ≠ some "escapeSequence")
    {c : Ref} (below : t.Above t.root c) :
    ((t.allByName t.root .leafFirst "escapeSequence").foldl resolveEscape t).view c = resolved (t.view c) := by
  obtain ⟨p, inside, link⟩ := exists_parent_of_above forest below
  have all := (forest.all_of_all tidy p inside).imp fun _ => Tidy.escapes
  refine view_resolved forest (nodup_allByName forest _ _) all (fun s mem => ?_) c ((forest.linked p c).mpr link)
  rw [forest.mem_allByName_iff]
  refine ⟨And.right, fun named => ⟨?_, named⟩⟩
  have reached : s = t.root ∨ t.Above t.root s := by
    rcases forest.mem_preorder_iff.mp inside, forest.mem_preorder_iff.mp mem with ⟨rfl | above, rfl | above'⟩
    · exact .inl rfl
    · exact .inr above'
    · exact .inr above
    · exact .inr (above'.trans above)
  rcases reached with rfl | above
  · exact absurd named ordinary
  · exact above

/-- **The first two passes.** -/
theorem flattened_of_tidy (tidy : (t.view t.root).All Tidy) (ordinary : t.name t.root ≠ some "escapeSequence") :
    Flattened t ((t.allByName t.root .leafFirst "statementOpt").foldl flatten
      ((t.allByName t.root .leafFirst "escapeSequence").foldl resolveEscape t)) := by
  have seen := fun c => view_foldl_resolveEscape forest tidy ordinary (c := c)
  have isOpt : ∀ o, o ∈ t.allByName t.root .leafFirst "statementOpt" ↔
      t.Above t.root o ∧ t.name o = some "statementOpt" := fun o => forest.mem_allByName_iff
  have once := nodup_allByName forest t.root "statementOpt"
  -- From here on it is enough to know what the targets of the passes are, not how they were found, and of the first
  -- pass only that it keeps all links and what is seen behind it.
  generalize t.allByName t.root .leafFirst "statementOpt" = opts at isOpt once
  generalize t.allByName t.root .leafFirst "escapeSequence" = escapes at seen
  have revalued := revalued_foldl_resolveEscape escapes t
  generalize escapes.foldl resolveEscape t = v at seen revalued
  have trees := revalued.forest forest
  have alike := alike_foldl_flatten v opts
  have wraps : ∀ o ∈ opts, ∃ w, Wraps v o w := by
    intro o mem
    obtain ⟨below, named⟩ := (isOpt o).mp mem
    obtain ⟨p, inside, link⟩ := exists_parent_of_above forest below
    obtain ⟨w, wraps⟩ := wraps_of_tidy forest (forest.all_of_all tidy p inside).here link named
    exact ⟨w, wraps.revalued revalued⟩
  refine ⟨forest_foldl_flatten trees opts, ?_, ?_, ?_, ?_, ?_, ?_⟩
  · rw [alike.size, revalued.size]
  · rw [alike.source, revalued.source]
  · intro x
    rw [alike.name, revalued.name]
  · intro x
    rw [alike.span, revalued.span]
  · intro x below
    rw [alike.value, ← trees.value_view, seen x below, ← forest.value_view, ← forest.name_view]
    cases t.view x
    rfl
  · intro x inside other
    rw [children_foldl_flatten trees once wraps (by rwa [revalued.name]), revalued.children]
    refine List.flatMap_congr fun c mem => ?_
    have below : t.Above t.root c := by
      rcases forest.mem_preorder_iff.mp inside with rfl | above
      · exact .single ((forest.linked _ c).mp mem)
      · exact .head ((forest.linked _ c).mp mem) above
    have listed : c ∈ opts ↔ t.name c = some "statementOpt" := by rw [isOpt, and_iff_right below]
    rw [unwrapped, spread, revalued.children]
    exact if_congr listed (List.flatMap_congr fun w _ => revalued.children w) rfl

end

/-- Below a node without wrappers nothing has changed but values. -/
theorem Flattened.view_inner (flat : Flattened t u) (forest : t.Forest) {r : Ref} (below : t.Above t.root r)
    (plain : (t.view r).All fun v => ¬ IsWrapper v.name) : u.view r = resolved (t.view r) := by
  induction r using forest.induction with
  | step r ih =>
    have inside : r ∈ t.preorder t.root := forest.mem_preorder_iff.mpr (.inr below)
    have each := View.listAll_iff.mp plain.below
    rw [forest.children_view] at each
    have here := plain.here
    rw [forest.name_view] at here
    have kept : (t.children r).flatMap (spread t) = t.children r := by
      have single : ∀ c ∈ t.children r, spread t c = [c] := by
        intro c mem
        refine spread_of_ne fun isOpt => ?_
        have other := (each _ (List.mem_map_of_mem mem)).here
        rw [forest.name_view] at other
        exact other (.inl isOpt)
      rw [List.flatMap_congr single, List.flatMap_singleton']
    rw [flat.forest.view_eq, forest.view_eq, flat.name, flat.span, flat.value r below, flat.children r inside here, kept,
      resolved, listResolved_eq_map, List.map_map]
    refine congrArg _ (List.map_congr_left fun c mem => ?_)
    exact ih c mem (.head ((forest.linked r c).mp mem) below) (each _ (List.mem_map_of_mem mem))

/-! ## Rows in a table -/

/-- Nodes in a row: bars, tokens of which something is known, and groups, which hold a statement between marks. -/
inductive IsRow {α : Type} (t : ParseTree) (is : Ref → α → Prop) : List Ref → List (Part α) → Prop
  | nil : IsRow t is [] []
  | bar {r : Ref} {rs : List Ref} {row : List (Part α)} (named : t.name r = some "|") (leaf : t.children r = [])
      (more : IsRow t is rs row) : IsRow t is (r :: rs) (.bar :: row)
  | token {r : Ref} {rs : List Ref} {a : α} {row : List (Part α)} (named : t.name r = some "token")
      (inner : ∀ c, t.Above r c → IsInner (t.name c)) (known : is r a) (more : IsRow t is rs row) :
      IsRow t is (r :: rs) (.token a :: row)
  | group {r s : Ref} {before after rs : List Ref} {inside row : List (Part α)} (named : t.name r = some "nested")
      (children : t.children r = before ++ s :: after)
      (marks : ∀ c ∈ before ++ after, t.children c = [] ∧ IsInner (t.name c)) (called : t.name s = some "statement")
      (holds : IsRow t is (t.children s) inside) (more : IsRow t is rs row) :
      IsRow t is (r :: rs) (.group (marksAt t r) inside :: row)

theorem IsRow.append {α : Type} {is : Ref → α → Prop} {rs rs' : List Ref} {row row' : List (Part α)}
    (first : IsRow t is rs row)
    (second : IsRow t is rs' row') : IsRow t is (rs ++ rs') (row ++ row') := by
  induction first with
  | nil => exact second
  | bar named leaf _ ih => exact .bar named leaf ih
  | token named inner known _ ih => exact .token named inner known ih
  | group named children marks called holds _ _ ih => exact .group named children marks called holds ih

theorem listPartsOf_append (vs ws : List View) : listPartsOf (vs ++ ws) = listPartsOf vs ++ listPartsOf ws := by
  induction vs with
  | nil => rfl
  | cons v vs ih => rw [List.cons_append, listPartsOf, listPartsOf, ih, List.append_assoc]

/-- The tokens at and below some nodes, in the order in which they are gone to. -/
def tokensOf (t : ParseTree) (rs : List Ref) : List Ref :=
  (rs.flatMap t.postorder).filter fun r => t.name r == some "token"

/-- Some nodes of a tree are a row when it is flattened. -/
def Rowed (t u : ParseTree) (rs flat : List Ref) : Prop :=
  ∃ parts : List (Part Ref), IsRow u (· = ·) flat parts ∧
    listPartsOf (rs.map t.view) = Part.listMap t.view parts ∧ Part.listTokens parts = tokensOf t rs

theorem tokensOf_append (t : ParseTree) (rs rs' : List Ref) : tokensOf t
    (rs ++ rs') = tokensOf t rs ++ tokensOf t rs' := by
  rw [tokensOf, List.flatMap_append, List.filter_append]
  rfl

theorem Rowed.append {rs rs' flat flat' : List Ref} (first : Rowed t u rs flat) (second : Rowed t u rs' flat') :
    Rowed t u (rs ++ rs') (flat ++ flat') := by
  obtain ⟨parts, row, seen, tokens⟩ := first
  obtain ⟨parts', row', seen', tokens'⟩ := second
  refine ⟨parts ++ parts', row.append row', ?_, ?_⟩
  · rw [List.map_append, listPartsOf_append, seen, seen', Part.listMap_append]
  · rw [Part.listTokens_append, tokens, tokens', tokensOf_append]

/-- A node is gone to after what is below it. -/
theorem tokensOf_singleton (forest : t.Forest) {r : Ref} (other : t.name r ≠ some "token") :
    tokensOf t [r] = tokensOf t (t.children r) := by
  have passed : [r].filter (fun r => t.name r == some "token") = [] :=
    List.filter_eq_nil_iff.mpr (List.forall_mem_singleton.mpr (by rwa [beq_iff_eq]))
  rw [tokensOf, List.flatMap_singleton, forest.postorder_eq, List.filter_append, passed, List.append_nil]
  rfl

/-- Below inner nodes there are no tokens. -/
theorem tokensOf_eq_nil (forest : t.Forest) {rs : List Ref} (inner : ∀ r ∈ rs, (t.view r).All Inner) :
    tokensOf t rs = [] := by
  refine List.filter_eq_nil_iff.mpr fun c mem => ?_
  rw [(ParseTree.perm_flatMap_postorder rs).mem_iff] at mem
  obtain ⟨r, listed, mem⟩ := List.mem_flatMap.mp mem
  have plain := (forest.all_of_all (inner r listed) c mem).here.name
  rw [forest.name_view] at plain
  rw [beq_iff_eq]
  intro named
  rw [named] at plain
  exact absurd plain (by decide)

/-! ## Statements -/

/-- The links and the names of what is seen. -/
theorem links_of_view (forest : t.Forest) {name : Option String} {value : String} {span : Span} {vs : List View}
    (shown : t.view r = .node name value span vs) :
    t.name r = name ∧ t.value r = value ∧ (t.children r).map t.view = vs := by
  rw [← forest.name_view, ← forest.value_view, ← forest.children_view, shown]
  exact ⟨rfl, rfl, rfl⟩

theorem Rowed.within (forest : t.Forest) {flat : List Ref} (rowed : Rowed t u (t.children r) flat)
    (named : t.name r ∈ [some "statement", some "statementOpt", some "pipeOpt", some "spaceOpt"]) :
    Rowed t u [r] flat := by
  obtain ⟨parts, row, seen, tokens⟩ := rowed
  refine ⟨parts, row, ?_, ?_⟩
  · rw [← seen, List.map_singleton, forest.view_eq, listPartsOf, listPartsOf, List.append_nil]
    simp only [List.mem_cons, List.not_mem_nil, or_false] at named
    rcases named with named | named | named | named
    all_goals rw [named, partsOf]
  · rw [tokens, tokensOf_singleton forest]
    intro other
    rw [other] at named
    exact absurd named (by decide)

theorem MarkViews.listPartsOf {name : String} {vs : List View} (marks : MarkViews name vs)
    (other : name = "!" ∨ name = "modifier") : Dialect.listPartsOf vs = [] := by
  cases marks with
  | missing => rfl
  | there value span =>
    rcases other with rfl | rfl
    · rfl
    · rfl

mutual

/-- Only values change when escapes are resolved. -/
theorem all_resolved {holds : Option String → Prop} : ∀ {v : View}, v.All (fun v => holds v.name) →
    (Dialect.resolved v).All fun v => holds v.name
  | .node .., ⟨here, below⟩ => ⟨here, listAll_resolved below⟩

theorem listAll_resolved {holds : Option String → Prop} : ∀ {vs : List View}, View.ListAll (fun v => holds v.name) vs →
    View.ListAll (fun v => holds v.name) (listResolved vs)
  | [], _ => trivial
  | _ :: _, ⟨first, others⟩ => ⟨all_resolved first, listAll_resolved others⟩

end

/-- In the place of a wrapper stands what was wrapped. -/
theorem rowed_wrapped (forest : t.Forest) {o : Ref} {name : String} {value value' : String} {span span' : Span}
    {vs : List View} (shown : t.view o = .node (some "statementOpt") value span [.node (some name) value' span' vs])
    (named : some name ∈ [some "statement", some "statementOpt", some "pipeOpt", some "spaceOpt"])
    (holds : ∀ cs : List Ref, cs.map t.view = vs → (∀ c ∈ cs, t.Above o c) → Rowed t u cs cs) :
    Rowed t u [o] (spread t o) := by
  obtain ⟨isOpt, _, children⟩ := links_of_view forest shown
  obtain ⟨w, listed, wrapped⟩ := List.map_eq_singleton_iff.mp children
  obtain ⟨isInner, _, seen⟩ := links_of_view forest wrapped
  have link : t.parent w = some o := (forest.linked o w).mp (listed ▸ List.mem_singleton_self w)
  have inner : Rowed t u [w] (t.children w) := by
    refine .within forest (holds _ seen fun c mem => ?_) (isInner ▸ named)
    exact .head ((forest.linked w c).mp mem) (.single link)
  rw [spread, if_pos isOpt, listed, List.flatMap_singleton]
  refine .within forest ?_ (by rw [isOpt]; decide)
  rwa [listed]

section

variable (flat : Flattened t u) (forest : t.Forest)

include flat forest

/-- The marks at a node that is no wrapper and holds none are those that are seen. -/
theorem marksAt_flattened (below : t.Above t.root r) (kept : u.children r = t.children r) :
    marksAt u r = marksOf (t.view r) := by
  have same : ∀ name, u.childByName r name = t.childByName r name := by
    intro name
    simp only [ParseTree.childByName, kept, flat.name]
  have values : (t.childByName r "modifier").map u.value = (t.childByName r "modifier").map t.value := by
    refine Option.map_congr fun c found => ?_
    have listed := (forest.linked r c).mp (mem_children_of_childByName found)
    rw [flat.value c (.head listed below), name_of_childByName found]
    exact resolvedValue_of_ordinary (by decide) _
  have seen : (t.childByName r "modifier").map t.value = ((t.view r).childByName "modifier").map View.value := by
    rw [forest.childByName_view, Option.map_map]
    exact Option.map_congr fun c _ => (forest.value_view c).symm
  have negated : (t.childByName r "!").isSome = ((t.view r).childByName "!").isSome := by
    rw [forest.childByName_view, Option.isSome_map]
  rw [marksAt, marksOf, hasChild, hasMark, same, same, values, seen, negated]

/-- Nothing makes way below a node of which no child is a wrapper. -/
theorem children_flattened (below : t.Above t.root r) (plain : ¬ IsWrapper (t.name r))
    (free : ∀ v ∈ (t.view r).children, IsFree v.name) : u.children r = t.children r := by
  have single : ∀ c ∈ t.children r, spread t c = [c] := by
    intro c mem
    refine spread_of_ne fun isOpt => ?_
    have other : IsFree (t.view c).name := by
      refine free _ ?_
      rw [forest.children_view]
      exact List.mem_map_of_mem mem
    rw [forest.name_view, isOpt] at other
    exact absurd other (by decide)
  rw [flat.children r (forest.mem_preorder_iff.mpr (.inr below)) plain, List.flatMap_congr single,
    List.flatMap_singleton']

omit flat forest in
theorem plain_of_token {v : View} (named : v.name = some "token") (inner : View.ListAll Inner v.children) :
    v.All fun v => ¬ IsWrapper v.name := by
  cases v with
  | node name value span children =>
    cases named
    refine ⟨(by decide : ¬ IsWrapper (some "token")), inner.imp fun v inner wrapper => ?_⟩
    have other := inner.name
    rcases wrapper with same | same | same
    all_goals rw [same] at other; exact absurd other (by decide)

/-- A mark has nothing below it, and keeps its name. -/
theorem mark_flattened (below : t.Above t.root r) (leaf : (t.view r).children = []) (inner : (t.view r).All Inner) :
    u.children r = [] ∧ IsInner (u.name r) := by
  have named := inner.here.name
  rw [forest.name_view] at named
  have plain : ¬ IsWrapper (t.name r) := by
    rintro (same | same | same)
    all_goals rw [same] at named; exact absurd named (by decide)
  rw [forest.children_view, List.map_eq_nil_iff] at leaf
  rw [flat.children r (forest.mem_preorder_iff.mpr (.inr below)) plain, leaf, flat.name]
  exact ⟨rfl, named⟩

/-- A bar stays where it is. -/
theorem rowed_bar {value : String} {span : Span} (shown : t.view r = .node (some "|") value span [])
    (below : t.Above t.root r) : Rowed t u [r] [r] := by
  have inner : (t.view r).All Inner := by
    rw [shown]
    exact inner_leaf (by decide) (by decide) _ _
  obtain ⟨leaf, _⟩ := mark_flattened flat forest below (by rw [shown]; rfl) inner
  have named := (links_of_view forest shown).1
  refine ⟨[.bar], .bar ((flat.name r).trans named) leaf .nil, ?_, ?_⟩
  · rw [List.map_singleton, shown]
    rfl
  · rw [tokensOf_eq_nil forest (List.forall_mem_singleton.mpr inner)]
    rfl

/-- A token stays where it is. -/
theorem rowed_token {value : String} {span : Span} {vs : List View}
    (shown : t.view r = .node (some "token") value span vs)
    (inner : View.ListAll Inner vs) (below : t.Above t.root r) : Rowed t u [r] [r] := by
  obtain ⟨named, _, children⟩ := links_of_view forest shown
  have free : tokensOf t (t.children r) = [] := by
    refine tokensOf_eq_nil forest fun c mem => View.listAll_iff.mp inner _ ?_
    rw [← children]
    exact List.mem_map_of_mem mem
  have plain : (t.view r).All fun v => ¬ IsWrapper v.name := by
    rw [shown]
    exact plain_of_token rfl inner
  have names : View.ListAll (fun v => IsInner v.name) (u.view r).children := by
    rw [flat.view_inner forest below plain, shown]
    exact listAll_resolved (inner.imp fun v => Inner.name)
  refine ⟨[.token r], .token ((flat.name r).trans named) (fun c above => ?_) rfl .nil, ?_, ?_⟩
  · rw [← flat.forest.mem_below_iff] at above
    obtain ⟨child, listed, mem⟩ := List.mem_flatMap.mp above
    rw [← flat.forest.name_view]
    refine (flat.forest.all_of_all (View.listAll_iff.mp names _ ?_) c mem).here
    rw [flat.forest.children_view]
    exact List.mem_map_of_mem listed
  · rw [List.map_singleton, shown, Part.listMap, Part.map, shown]
    rfl
  · have passed : [r].filter (fun r => t.name r == some "token") = [r] :=
      List.filter_eq_self.mpr (List.forall_mem_singleton.mpr (by rw [named]; rfl))
    rw [tokensOf, List.flatMap_singleton, forest.postorder_eq, List.filter_append, passed]
    rw [tokensOf] at free
    rw [free]
    rfl

/-- A group stays where it is, and holds the row of its statement. -/
theorem rowed_nested {bangs mods : List View} {statement : View} {value : String} {span : Span}
    (shown : t.view r = .node (some "nested") value span (bangs ++ statement :: mods)) (bang : MarkViews "!" bangs)
    (modifier : MarkViews "modifier" mods) (is : StatementView statement) (below : t.Above t.root r)
    (holds : ∀ s, t.view s = statement → t.Above t.root s → Rowed t u [s] (u.children s)) : Rowed t u [r] [r] := by
  obtain ⟨named, _, children⟩ := links_of_view forest shown
  obtain ⟨before, others, listed, first, rest⟩ := List.map_eq_append_iff.mp children
  obtain ⟨s, after, rfl, seen, last⟩ := List.map_eq_cons_iff.mp rest
  have under : ∀ c ∈ before ++ s :: after, t.Above t.root c := by
    intro c mem
    exact .head ((forest.linked r c).mp (listed ▸ mem)) below
  obtain ⟨row, isRow, rowSeen, tokens⟩ := holds s seen (under s (by simp))
  have free := (ElementView.nested value span bang is modifier).free
  have kept := children_flattened flat forest below (by rw [named]; decide) (by rw [shown]; exact free)
  have marks : ∀ c ∈ before ++ after, (t.view c).children = [] ∧ ((t.view c).All Inner) := by
    intro c mem
    rcases List.mem_append.mp mem with mem | mem
    · have isMark : t.view c ∈ bangs := first ▸ List.mem_map_of_mem mem
      exact ⟨bang.leaf _ isMark, View.listAll_iff.mp (bang.inner (by decide)).1 _ isMark⟩
    · have isMark : t.view c ∈ mods := last ▸ List.mem_map_of_mem mem
      exact ⟨modifier.leaf _ isMark, View.listAll_iff.mp (modifier.inner (by decide)).1 _ isMark⟩
  refine ⟨[.group (marksAt u r) row],
    .group ((flat.name r).trans named) (kept.trans listed) (fun c mem => ?_) ?_ isRow .nil,
    ?_, ?_⟩
  · have there : c ∈ before ++ s :: after := by
      rcases List.mem_append.mp mem with mem | mem
      · exact List.mem_append_left _ mem
      · exact List.mem_append_right _ (List.mem_cons_of_mem _ mem)
    exact mark_flattened flat forest (under c there) (marks c mem).1 (marks c mem).2
  · rw [flat.name, ← forest.name_view, seen, is.name]
  · have inside : listPartsOf (bangs ++ statement :: mods) = Part.listMap t.view row := by
      rw [listPartsOf_append, listPartsOf, bang.listPartsOf (.inl rfl), modifier.listPartsOf (.inr rfl), ← rowSeen,
        List.map_singleton, seen, listPartsOf]
      rfl
    rw [List.map_singleton, marksAt_flattened flat forest below kept, shown, listPartsOf, partsOf, inside]
    rfl
  · have around : ∀ cs : List Ref, (∀ c ∈ cs, c ∈ before ++ after) → tokensOf t cs = [] := fun cs among =>
      tokensOf_eq_nil forest fun c mem => (marks c (among c mem)).2
    have inside : tokensOf t (before ++ ([s] ++ after)) = Part.listTokens row := by
      rw [tokensOf_append, tokensOf_append, around before fun c => List.mem_append_left _,
        around after fun c => List.mem_append_right _, ← tokens, List.nil_append, List.append_nil]
    rw [tokensOf_singleton forest (by rw [named]; decide), listed, ← List.singleton_append (l := after), inside,
      Part.listTokens, Part.tokens, Part.listTokens, List.append_nil]

mutual

/-- A token or a group stays where it is, and a group holds a row. -/
theorem ElementView.rowed : ∀ {v : View}, ElementView v → ∀ {r : Ref}, t.view r = v → t.Above t.root r →
    Rowed t u [r] [r]
  | _, .token value span bang is modifier, r, shown, below =>
    rowed_token flat forest shown
      (View.listAll_append.mpr ⟨(bang.inner (by decide)).1, is.inner.1, (modifier.inner (by decide)).1⟩) below
  | _, .nested value span bang is modifier, r, shown, below =>
    rowed_nested flat forest shown bang modifier is below fun s seen below => is.rowed seen below

theorem StatementView.rowed : ∀ {v : View}, StatementView v → ∀ {r : Ref}, t.view r = v → t.Above t.root r →
    Rowed t u [r] (u.children r)
  | _, @StatementView.row v vs value span first more, r, shown, below => by
    obtain ⟨named, _, children⟩ := links_of_view forest shown
    obtain ⟨c, cs, listed, isFirst, others⟩ := List.map_eq_cons_iff.mp children
    have under : ∀ x ∈ t.children r, t.Above t.root x := fun x mem => .head ((forest.linked r x).mp mem) below
    rw [listed] at under
    obtain ⟨here, later⟩ := List.forall_mem_cons.mp under
    have single : spread t c = [c] := by
      refine spread_of_ne ?_
      rw [← forest.name_view, isFirst]
      rcases first.name with named | named
      all_goals rw [named]; decide
    refine .within forest ?_ (by rw [named]; decide)
    rw [flat.children r (forest.mem_preorder_iff.mpr (.inr below)) (by rw [named]; decide), listed, List.flatMap_cons,
      single]
    exact (first.rowed isFirst here).append (more.rowed others later)

/-- In the place of a wrapper stands what was wrapped. -/
theorem ContinuedViews.rowed : ∀ {vs : List View}, ContinuedViews vs → ∀ {rs : List Ref}, rs.map t.view = vs →
    (∀ r ∈ rs, t.Above t.root r) → Rowed t u rs (rs.flatMap (spread t))
  | _, .nil, rs, shown, _ => by
    obtain rfl := List.map_eq_nil_iff.mp shown
    exact ⟨[], .nil, rfl, rfl⟩
  | _, .spaced value value' span span' element more, rs, shown, below => by
    obtain ⟨o, rs, rfl, isOpt, others⟩ := List.map_eq_cons_iff.mp shown
    obtain ⟨here, later⟩ := List.forall_mem_cons.mp below
    refine List.flatMap_cons ▸ (rowed_wrapped forest isOpt (by decide) fun cs seen inside => ?_).append
      (more.rowed others later)
    obtain ⟨c, rfl, isElement⟩ := List.map_eq_singleton_iff.mp seen
    exact element.rowed isElement ((inside c (List.mem_singleton_self c)).trans here)
  | _, .barred value value' bar span span' place element more, rs, shown, below => by
    obtain ⟨o, rs, rfl, isOpt, others⟩ := List.map_eq_cons_iff.mp shown
    obtain ⟨here, later⟩ := List.forall_mem_cons.mp below
    refine List.flatMap_cons ▸ (rowed_wrapped forest isOpt (by decide) fun cs seen inside => ?_).append
      (more.rowed others later)
    obtain ⟨b, cs, rfl, isBar, rest⟩ := List.map_eq_cons_iff.mp seen
    obtain ⟨c, rfl, isElement⟩ := List.map_eq_singleton_iff.mp rest
    have under : ∀ x ∈ [b, c], t.Above t.root x := fun x mem => (inside x mem).trans here
    have first : Rowed t u [b] [b] := rowed_bar flat forest isBar (under b (by simp))
    exact first.append (element.rowed isElement (under c (by simp)))

end

end

/-! ## What rows say -/

mutual

/-- What is read of a part is what its row says. -/
theorem readItems_eq (source : String) : ∀ {v : View}, v.All InSentence →
    readItems source v = (Part.listRead source (partsOf v)).map Part.items
  | .node name value span children, ⟨here, below⟩ => by
    have inside := listReadItems_eq source below
    unfold readItems
    dsimp only
    split
    · have row : partsOf (.node (some "token") value span children) =
          [.token (.node (some "token") value span children)] := by
        rw [partsOf]
      rw [row, Part.listRead_singleton, Part.read]
      cases readToken source (.node (some "token") value span children) <;> rfl
    · have row : partsOf (.node (some "nested") value span children) =
          [.group (marksOf (.node (some "nested") value span children)) (listPartsOf children)] := by
        rw [partsOf]
      rw [row, if_pos (here.group rfl), inside, Part.listRead_singleton, Part.read]
      cases Part.listRead source (listPartsOf children) <;> rfl
    · rfl
    · exact inside
    · exact inside
    · exact inside
    · exact inside
    · have row : partsOf (.node name value span children) = [] := by
        unfold partsOf
        dsimp only
        split
        all_goals first | contradiction | rfl
      rw [row]
      rfl

theorem listReadItems_eq (source : String) : ∀ {vs : List View}, View.ListAll InSentence vs →
    listReadItems source vs = (Part.listRead source (listPartsOf vs)).map Part.items
  | [], _ => rfl
  | v :: vs, ⟨first, others⟩ => by
    rw [listReadItems, listPartsOf, Part.listRead_append, readItems_eq source first, listReadItems_eq source others]
    cases Part.listRead source (partsOf v) with
    | error error => rfl
    | ok row =>
      cases Part.listRead source (listPartsOf vs) with
      | error error => rfl
      | ok more => exact congrArg Except.ok (Part.items_append row more).symm

end

/-- The rule that is read of a sentence is the one that it states. -/
theorem SentenceView.readSentence_eq {v : View} (sentence : SentenceView v) (source : String) :
    readSentence source v = (readStated source v).map Stated.rule := by
  have inside := sentence.tidy.2
  cases sentence with
  | @rule word value statement span place named is =>
    obtain ⟨first, found⟩ := is.found_in_sentence word value span place
    rw [readSentence, readStated, found, first]
    dsimp only
    rw [readItems_eq source inside.2.1]
    cases Part.listRead source (partsOf statement) <;> rfl

end BnfTokenizer.Dialect
