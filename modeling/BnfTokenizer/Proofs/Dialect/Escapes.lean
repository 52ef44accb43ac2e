import BnfTokenizer.Dialect.Lowering
import BnfTokenizer.Proofs.Dialect.Reading
import BnfTokenizer.Proofs.ParseTree.Edits
import BnfTokenizer.Proofs.ParseTree.Views

/-!
# Escapes resolved

The first pass blanks the marks of escapes and translates the characters behind them. It writes values and nothing else.
Each escape is dealt with once, and what is written there is seen at the two children of that escape only
(`value_foldl_resolveEscape`). So where marks and escaped characters stand in escapes and nowhere else, all of them are
resolved (`view_resolved`), and reading, which resolves escapes itself, reads the same as before.
-/

namespace BnfTokenizer.Dialect

open ParseTree (Ref View Forest)

variable {t u : ParseTree} {x s : Ref}

/-! ## Values written over nodes -/

/-- Only values differ. -/
structure Revalued (t u : ParseTree) : Prop where
  size : u.size = t.size
  source : u.source = t.source
  root : u.root = t.root
  name : ∀ x, u.name x = t.name x
  span : ∀ x, u.span x = t.span x
  children : ∀ x, u.children x = t.children x
  parent : ∀ x, u.parent x = t.parent x

theorem Revalued.refl (t : ParseTree) : Revalued t t :=
  ⟨rfl, rfl, rfl, fun _ => rfl, fun _ => rfl, fun _ => rfl, fun _ => rfl⟩

theorem Revalued.trans {v : ParseTree} (first : Revalued t u) (second : Revalued u v) : Revalued t v where
  size := second.size.trans first.size
  source := second.source.trans first.source
  root := second.root.trans first.root
  name x := (second.name x).trans (first.name x)
  span x := (second.span x).trans (first.span x)
  children x := (second.children x).trans (first.children x)
  parent x := (second.parent x).trans (first.parent x)

/-- Values are no links, so the tree stays a forest. -/
theorem Revalued.forest (same : Revalued t u) (forest : t.Forest) : u.Forest :=
  forest.congr same.parent same.children

/-- Nor are they names: the same child is found. -/
theorem Revalued.childByName (same : Revalued t u) (r : Ref) (name : String) :
    u.childByName r name = t.childByName r name := by
  simp only [ParseTree.childByName, same.children, same.name]

/-- A value that is set changes no other part of the tree. -/
theorem revalued_setValue (t : ParseTree) (r : Ref) (value : String) : Revalued t (t.setValue r value) where
  size := ParseTree.size_modify ..
  source := rfl
  root := rfl
  name := ParseTree.node_modify_congr t r _ ParseTree.Node.name fun _ => rfl
  span := ParseTree.node_modify_congr t r _ ParseTree.Node.span fun _ => rfl
  children := ParseTree.node_modify_congr t r _ ParseTree.Node.children fun _ => rfl
  parent := ParseTree.node_modify_congr t r _ ParseTree.Node.parent fun _ => rfl

theorem value_setValue_self {r : Ref} (inside : r < t.size) (value : String) :
    (t.setValue r value).value r = value := by
  rw [ParseTree.value, ParseTree.setValue, ParseTree.node_modify_self t _ inside]
  rfl

theorem value_setValue_of_ne {r : Ref} (differs : r ≠ x) (value : String) :
    (t.setValue r value).value x = t.value x := by
  rw [ParseTree.value, ParseTree.span, ParseTree.setValue, ParseTree.node_modify_of_ne t _ differs]
  rfl

/-! ## One escape -/

/-- Blanking the mark of an escape sequence changes values only. -/
theorem revalued_blankMark (t : ParseTree) (s : Ref) : Revalued t (blankMark t s) := by
  unfold blankMark
  split
  · exact revalued_setValue ..
  · exact .refl t

/-- Translating the character behind the mark changes values only. -/
theorem revalued_translateEscaped (t : ParseTree) (s : Ref) : Revalued t (translateEscaped t s) := by
  unfold translateEscaped
  split
  · exact .refl t
  · split
    · exact revalued_setValue ..
    · exact .refl t

/-- So does resolving the whole sequence. -/
theorem revalued_resolveEscape (t : ParseTree) (s : Ref) : Revalued t (resolveEscape t s) :=
  (revalued_blankMark t s).trans (revalued_translateEscaped _ s)

/-- A character without a meaning of its own stands for itself. -/
theorem unescaped_of_ordinary {text : String} (ordinary : text ∉ ["n", "t", "r"]) : unescaped text = text := by
  unfold unescaped
  split <;> simp_all

/-- Translating where there is a translation is unescaping. -/
theorem getD_translated? (text : String) : (translated? text).getD text = unescaped text := by
  by_cases special : text ∈ ["n", "t", "r"]
  · simp only [List.mem_cons, List.not_mem_nil, or_false] at special
    rcases special with rfl | rfl | rfl <;> rfl
  · have unknown : translated? text = none := by
      unfold translated?
      split <;> simp_all
    rw [unescaped_of_ordinary special, unknown, Option.getD_none]

theorem mem_children_of_childByName {name : String} (found : t.childByName s name = some x) : x ∈ t.children s :=
  List.mem_of_find?_eq_some found

theorem name_of_childByName {name : String} (found : t.childByName s name = some x) : t.name x = some name := by
  simpa using List.find?_some found

/-- The mark of the sequence is blanked, and no other node. -/
theorem value_blankMark (forest : t.Forest) (s x : Ref) :
    (blankMark t s).value x = if t.childByName s "escape" = some x then "" else t.value x := by
  unfold blankMark
  cases found : t.childByName s "escape" with
  | none => rfl
  | some mark =>
    have inside := ParseTree.child_inside ((forest.linked s mark).mp (mem_children_of_childByName found))
    by_cases here : mark = x
    · subst here
      rw [if_pos rfl, value_setValue_self inside]
    · rw [if_neg fun same => here (Option.some.inj same), value_setValue_of_ne here]

/-- The character of the sequence is unescaped, and no other node. That there is one node of the sequence with a name
is not needed: the first is meant, here as there. -/
theorem value_translateEscaped (forest : t.Forest) (s x : Ref) :
    (translateEscaped t s).value x = if t.childByName s "anyChar" = some x then unescaped (t.value x) else t.value x := by
  unfold translateEscaped
  cases found : t.childByName s "anyChar" with
  | none => rfl
  | some escaped =>
    have inside := ParseTree.child_inside ((forest.linked s escaped).mp (mem_children_of_childByName found))
    dsimp only
    by_cases here : escaped = x
    · subst here
      rw [if_pos rfl, ← getD_translated?]
      split
      · next text same => rw [value_setValue_self inside, same, Option.getD_some]
      · next same => rw [same, Option.getD_none]
    · rw [if_neg fun same => here (Option.some.inj same)]
      split
      · exact value_setValue_of_ne here _
      · rfl

/-- What a child of an escape is worth when it is resolved. -/
def resolvedValue (name : Option String) (value : String) : String :=
  if name = some "escape" then "" else if name = some "anyChar" then unescaped value else value

/-- An escape is resolved at its mark and at the character behind it. -/
def resolvedAt (t : ParseTree) (s x : Ref) : String :=
  if t.childByName s "escape" = some x ∨ t.childByName s "anyChar" = some x then resolvedValue (t.name x) (t.value x)
  else t.value x

/-- One step of the pass gives each node the value that `resolvedAt` says. -/
theorem value_resolveEscape (forest : t.Forest) (s x : Ref) : (resolveEscape t s).value x = resolvedAt t s x := by
  have same := revalued_blankMark t s
  rw [resolveEscape, value_translateEscaped (same.forest forest), same.childByName, value_blankMark forest, resolvedAt]
  by_cases mark : t.childByName s "escape" = some x
  · have named := name_of_childByName mark
    have other : t.childByName s "anyChar" ≠ some x := by
      intro again
      have both := named.symm.trans (name_of_childByName again)
      exact absurd both (by decide)
    rw [if_neg other, if_pos mark, if_pos (.inl mark), named]
    rfl
  · by_cases character : t.childByName s "anyChar" = some x
    · rw [if_pos character, if_neg mark, if_pos (.inr character), name_of_childByName character]
      rfl
    · rw [if_neg character, if_neg mark, if_neg (not_or.mpr ⟨mark, character⟩)]

/-! ## All escapes -/

/-- The whole pass changes values only. The induction is on the sequences that are left. -/
theorem revalued_foldl_resolveEscape (escapes : List Ref) (t : ParseTree) :
    Revalued t (escapes.foldl resolveEscape t) := by
  induction escapes generalizing t with
  | nil => exact .refl t
  | cons s escapes ih => exact (revalued_resolveEscape t s).trans (ih _)

/-- A sequence reaches its own children and no other node. -/
theorem resolvedAt_of_parent_ne (forest : t.Forest) (elsewhere : t.parent x ≠ some s) :
    resolvedAt t s x = t.value x := by
  refine if_neg fun found => elsewhere ?_
  have listed : x ∈ t.children s := found.elim mem_children_of_childByName mem_children_of_childByName
  exact (forest.linked s x).mp listed

/-- Each escape is resolved at its own children, and at no other node. -/
theorem value_foldl_resolveEscape {escapes : List Ref} (forest : t.Forest) (distinct : escapes.Nodup) (x : Ref) :
    (∀ s, t.parent x = some s → s ∈ escapes → (escapes.foldl resolveEscape t).value x = resolvedAt t s x) ∧
      ((∀ s, t.parent x = some s → s ∉ escapes) → (escapes.foldl resolveEscape t).value x = t.value x) := by
  induction escapes generalizing t with
  | nil => exact ⟨fun s _ mem => absurd mem List.not_mem_nil, fun _ => rfl⟩
  | cons first escapes ih =>
    obtain ⟨apart, distinct⟩ := List.nodup_cons.mp distinct
    have same := revalued_resolveEscape t first
    obtain ⟨hit, missed⟩ := ih (same.forest forest) distinct
    simp only [same.parent] at hit missed
    rw [List.foldl_cons]
    constructor
    · intro s link mem
      rcases List.mem_cons.mp mem with rfl | later
      · rw [missed fun other above => ?_, value_resolveEscape forest]
        cases link.symm.trans above
        exact apart
      · have elsewhere : t.parent x ≠ some first := by
          rw [link]
          rintro ⟨⟩
          exact apart later
        rw [hit s link later, resolvedAt, same.childByName, same.childByName, same.name, value_resolveEscape forest,
          resolvedAt_of_parent_ne forest elsewhere, resolvedAt]
    · intro free
      rw [missed fun s link mem => free s link (List.mem_cons_of_mem _ mem), value_resolveEscape forest,
        resolvedAt_of_parent_ne forest fun link => free first link List.mem_cons_self]

/-! ## What is seen then -/

mutual

/-- A subtree with its escapes resolved. -/
def resolved : View → View
  | .node name value span children => .node name (resolvedValue name value) span (listResolved children)

/-- The views of some children after the pass. -/
def listResolved : List View → List View
  | [] => []
  | v :: vs => resolved v :: listResolved vs

end

theorem listResolved_eq_map (vs : List View) : listResolved vs = vs.map resolved := by
  induction vs with
  | nil => rfl
  | cons v vs ih => rw [listResolved, ih, List.map_cons]

/-- An escape is a mark and a character, and neither of them stands anywhere else. -/
def InEscapes (v : View) : Prop :=
  if v.name = some "escapeSequence" then
    ∃ mark c first second, v.children = [.node (some "escape") mark first [], .node (some "anyChar") c second []]
  else ∀ w ∈ v.children, w.name ≠ some "escape" ∧ w.name ≠ some "anyChar"

/-- Only the two parts of a sequence have another value afterwards. -/
theorem resolvedValue_of_ordinary {name : Option String} (ordinary : name ≠ some "escape" ∧ name ≠ some "anyChar")
    (value : String) : resolvedValue name value = value := by
  rw [resolvedValue, if_neg ordinary.1, if_neg ordinary.2]

/-- A child has its value translated if it is a part of an escape, and it has its own value if not. -/
theorem value_resolved {escapes : List Ref} (forest : t.Forest) (distinct : escapes.Nodup) {r c : Ref}
    (mem : c ∈ t.children r) (shape : InEscapes (t.view r))
    (listed : r ∈ escapes ↔ t.name r = some "escapeSequence") :
    (escapes.foldl resolveEscape t).value c = resolvedValue (t.name c) (t.value c) := by
  have link := (forest.linked r c).mp mem
  obtain ⟨hit, missed⟩ := value_foldl_resolveEscape forest distinct c
  unfold InEscapes at shape
  rw [forest.name_view, forest.children_view] at shape
  by_cases escape : t.name r = some "escapeSequence"
  · rw [if_pos escape] at shape
    obtain ⟨mark, value, first, second, shown⟩ := shape
    obtain ⟨a, rest, children, isMark, shown⟩ := List.map_eq_cons_iff.mp shown
    obtain ⟨b, rest, rfl, isChar, shown⟩ := List.map_eq_cons_iff.mp shown
    obtain rfl := List.map_eq_nil_iff.mp shown
    have nameA : t.name a = some "escape" := by rw [← forest.name_view, isMark]; rfl
    have nameB : t.name b = some "anyChar" := by rw [← forest.name_view, isChar]; rfl
    rw [hit r link (listed.mpr escape), resolvedAt, if_pos]
    rw [children] at mem
    rcases List.mem_cons.mp mem with rfl | mem
    · left
      simp [ParseTree.childByName, children, nameA]
    · obtain rfl := List.mem_singleton.mp mem
      right
      simp [ParseTree.childByName, children, nameA, nameB]
  · rw [if_neg escape] at shape
    have ordinary := shape _ (List.mem_map_of_mem mem)
    rw [forest.name_view] at ordinary
    rw [missed fun s above => ?_, resolvedValue_of_ordinary ordinary]
    cases link.symm.trans above
    exact fun mem => escape (listed.mp mem)

/-- **All escapes below a node are resolved**, where each of them is gone to. -/
theorem view_resolved {escapes : List Ref} (forest : t.Forest) (distinct : escapes.Nodup) {r : Ref}
    (all : (t.view r).All InEscapes)
    (listed : ∀ s ∈ t.preorder r, s ∈ escapes ↔ t.name s = some "escapeSequence") :
    ∀ c ∈ t.children r, (escapes.foldl resolveEscape t).view c = resolved (t.view c) := by
  have same := revalued_foldl_resolveEscape escapes t
  -- What is seen at a child has the value of the child in it, which its parent decides, and what is seen below it.
  induction r using forest.induction with
  | step r ih =>
    intro c mem
    have within := forest.preorder_subset (forest.child_mem_preorder mem)
    have each := View.listAll_iff.mp all.below
    rw [forest.children_view] at each
    have below := ih c mem (each _ (List.mem_map_of_mem mem)) fun s mem => listed s (within mem)
    have value := value_resolved forest distinct mem all.here (listed r (forest.self_mem_preorder r))
    rw [(same.forest forest).view_eq, forest.view_eq, same.name, same.span, same.children, value, resolved,
      listResolved_eq_map, List.map_map]
    exact congrArg _ (List.map_congr_left below)

/-! ## Texts -/

/-- The pass keeps names, so the same child is found in a view. -/
theorem childByName_resolved (v : View) (name : String) :
    (resolved v).childByName name = (v.childByName name).map resolved := by
  obtain ⟨own, value, span, children⟩ := v
  rw [resolved, View.childByName, View.childByName, View.children, View.children, listResolved_eq_map, List.find?_map]
  refine congrArg _ (congrArg (fun named => children.find? named) (funext fun c => ?_))
  cases c
  rfl

mutual

/-- The text below a node where escapes are resolved is what the node spells. -/
theorem text_resolved : ∀ v : View, v.All InEscapes → v.name ≠ some "escape" ∧ v.name ≠ some "anyChar" →
    (resolved v).text = spelled v
  | .node name value span [], _, ordinary => by
    rw [View.name] at ordinary
    rw [resolved, listResolved, View.text, resolvedValue_of_ordinary ordinary, spelled, if_neg ordinary.1,
      if_neg ordinary.2]
  | .node name value span (v :: vs), ⟨own, below⟩, ordinary => by
    rw [View.name] at ordinary
    have shown : (resolved (.node name value span (v :: vs))).text =
        String.join ((listResolved (v :: vs)).map View.text) := by
      rw [resolved, View.text, View.texts_eq_map]
      exact List.cons_ne_nil _ _
    have spelt : spelled (.node name value span (v :: vs)) = String.join (listSpelled (v :: vs)) := by
      rw [spelled, if_neg ordinary.1, if_neg ordinary.2]
      exact List.cons_ne_nil _ _
    rw [shown, spelt]
    unfold InEscapes at own
    split at own
    · obtain ⟨mark, c, first, second, same⟩ := own
      cases same
      rfl
    · rw [← View.texts_eq_map, texts_listResolved (v :: vs) below own]

/-- Joined afterwards, the texts of some views are what they spell. -/
theorem texts_listResolved : ∀ vs : List View, View.ListAll InEscapes vs →
    (∀ w ∈ vs, w.name ≠ some "escape" ∧ w.name ≠ some "anyChar") → View.texts (listResolved vs) = listSpelled vs
  | [], _, _ => rfl
  | v :: vs, ⟨first, others⟩, ordinary => by
    obtain ⟨own, later⟩ := List.forall_mem_cons.mp ordinary
    rw [listResolved, View.texts, listSpelled, text_resolved v first own, texts_listResolved vs others later]

end

end BnfTokenizer.Dialect
