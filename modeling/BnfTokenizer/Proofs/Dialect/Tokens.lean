import BnfTokenizer.Proofs.Dialect.Drafting
import BnfTokenizer.Proofs.Dialect.Escapes

/-!
# Tokens become nodes

The third pass makes a node of each token and keeps its address at the token. It asks a token for what is seen of it
only, so it makes of a token with escapes resolved what reading makes of it with escapes (`lowerToken_eq`): the same
expression, written into the draft, or the same report. It leaves everything else of the tree as it is (`Paid`). So a
whole row comes to the draft that has its tokens, and to their addresses at them (`lowerTokens`).
-/

namespace BnfTokenizer.Dialect

open ParseTree (Ref View Forest)

variable {t u : ParseTree} {r : Ref}

/-! ## What is at a token -/

section

variable (forest : t.Forest) {v : View} (shown : t.view r = resolved v)

include forest shown

/-- A child by its name, seen before the pass over the escapes and after it. -/
theorem childByName_of_resolved (name : String) :
    (t.childByName r name).map t.view = (v.childByName name).map resolved := by
  rw [← forest.childByName_view, shown, childByName_resolved]

/-- A mark is there in the tree if it is in the view. -/
theorem hasChild_of_resolved (name : String) : hasChild t r name = hasMark v name := by
  have same := congrArg Option.isSome (childByName_of_resolved forest shown name)
  rwa [Option.isSome_map, Option.isSome_map] at same

/-- The text below a child is what its view spells. -/
theorem joinedChild_of_resolved (all : v.All InEscapes) {name : String}
    (ordinary : name ≠ "escape" ∧ name ≠ "anyChar") :
    joinedChild t r name = spelledChild v name := by
  have same := congrArg (Option.map View.text) (childByName_of_resolved forest shown name)
  rw [Option.map_map, Option.map_map] at same
  have joined : (t.childByName r name).map (fun c => t.joinLeaves c "") =
      (t.childByName r name).map (View.text ∘ t.view) :=
    Option.map_congr fun c _ => forest.joinLeaves_eq c
  have spelt : (v.childByName name).map (View.text ∘ resolved) = (v.childByName name).map spelled := by
    refine Option.map_congr fun c found => text_resolved c ?_ ?_
    · exact View.listAll_iff.mp all.below c (List.mem_of_find?_eq_some found)
    · have named : c.name = some name := by simpa using List.find?_some found
      rw [named]
      exact ⟨fun same => ordinary.1 (Option.some.inj same), fun same => ordinary.2 (Option.some.inj same)⟩
  rw [joinedChild, spelledChild, joined, same, spelt]

/-- An end of a range is the character that its view spells. -/
theorem boundAt_of_resolved (all : v.All InEscapes) {name : String} (ordinary : name ≠ "escape" ∧ name ≠ "anyChar") :
    boundAt t r name = boundOf v name := by
  rw [boundOf, ← joinedChild_of_resolved forest shown all ordinary, boundAt, joinedChild]
  cases t.childByName r name with
  | none => rfl
  | some c => rfl

theorem name_of_resolved : t.name r = v.name := by
  rw [← forest.name_view, shown]
  cases v
  rfl

/-- Outside escape sequences a node has the value that it had. -/
theorem value_of_resolved (ordinary : v.name ≠ some "escape" ∧ v.name ≠ some "anyChar") : t.value r = v.value := by
  rw [← forest.value_view, shown]
  cases v
  exact resolvedValue_of_ordinary ordinary _

/-- What has a shape that it must not have is reported with the same position and text. -/
theorem malformed_of_resolved {α : Type} : malformed (α := α) t r = misshapen (String.ofList t.source) v := by
  have place : t.span r = v.span := by
    rw [← forest.span_view, shown]
    cases v
    rfl
  rw [malformed, misshapen, place]

/-- Its marks are those of the view. -/
theorem marksAt_of_resolved : marksAt t r = marksOf v := by
  have same := congrArg (Option.map View.value) (childByName_of_resolved forest shown "modifier")
  rw [Option.map_map, Option.map_map] at same
  have own : (t.childByName r "modifier").map t.value = (t.childByName r "modifier").map (View.value ∘ t.view) :=
    Option.map_congr fun c _ => (forest.value_view c).symm
  have other : (v.childByName "modifier").map (View.value ∘ resolved) = (v.childByName "modifier").map View.value := by
    refine Option.map_congr fun c found => ?_
    have named : c.name = some "modifier" := by simpa using List.find?_some found
    cases c with
    | node name value span children =>
      cases named
      have ordinary : some "modifier" ≠ some "escape" ∧ some "modifier" ≠ some "anyChar" := by decide
      exact resolvedValue_of_ordinary ordinary value
  rw [marksAt, marksOf, hasChild_of_resolved forest shown, own, same, other]

/-- What a token says without its marks is written as it is read. -/
theorem lowerAtom_eq (all : v.All InEscapes) (isAtom : v.name.any atomNames.contains = true) (d : Draft) :
    lowerAtom t d r = (readAtom (String.ofList t.source) v).map d.write := by
  obtain ⟨name, named, listed⟩ : ∃ name, v.name = some name ∧ name ∈ atomNames := by
    cases named : v.name with
    | none =>
      rw [named] at isAtom
      cases isAtom
    | some name =>
      rw [named] at isAtom
      exact ⟨name, rfl, List.contains_iff_mem.mp isAtom⟩
  have here := (name_of_resolved forest shown).trans named
  simp only [atomNames, List.mem_cons, List.not_mem_nil, or_false] at listed
  rcases listed with rfl | rfl | rfl | rfl | rfl
  · have own : lowerAtom t d r = .ok (d.addLiteral (joinedChild t r "strOpt")) := by
      rw [lowerAtom, here]
      rfl
    rw [own, readAtom, named, joinedChild_of_resolved forest shown all (by decide)]
    rfl
  · have own : lowerAtom t d r = .ok (d.add (.oneOf (joinedChild t r "setOpt") (hasChild t r "^"))) := by
      rw [lowerAtom, here]
      rfl
    rw [own, readAtom, named, joinedChild_of_resolved forest shown all (by decide), hasChild_of_resolved forest shown]
    rfl
  · have own : lowerAtom t d r = lowerRange t d r := by
      rw [lowerAtom, here]
      rfl
    rw [own, lowerRange, boundAt_of_resolved forest shown all (by decide),
      boundAt_of_resolved forest shown all (by decide), hasChild_of_resolved forest shown,
      malformed_of_resolved forest shown]
    unfold readAtom
    rw [named]
    cases boundOf v "rangeStart" with
    | none => rfl
    | some low =>
      cases boundOf v "rangeEnd" with
      | none => rfl
      | some high =>
        by_cases ordered : low ≤ high
        · simp [ordered, Except.map, Draft.write]
        · simp [ordered, Except.map]
  · have own : lowerAtom t d r = .ok (d.add .endOfInput) := by
      rw [lowerAtom, here]
      rfl
    rw [own, readAtom, named]
    rfl
  · have own : lowerAtom t d r = .ok (d.placeholder (t.value r)) := by
      unfold lowerAtom
      rw [here]
      rfl
    rw [own, value_of_resolved forest shown (by rw [named]; decide)]
    unfold readAtom
    rw [named]
    rfl

end

/-- A repetition mark is written after what it repeats. -/
theorem Draft.write_repeated (d : Draft) (e : Expression) (modifier : Option String) :
    d.write (e.repeated modifier) = (d.write e).1.repeated (d.write e).2 modifier := by
  unfold Expression.repeated
  split
  · rfl
  · rfl
  · rfl
  · next plus star question =>
    unfold Draft.repeated
    split
    · next same => exact absurd rfl plus
    · next same => exact absurd rfl star
    · next same => exact absurd rfl question
    · rfl

/-- Marks around an expression are written after it. -/
theorem Draft.write_around (d : Draft) (marks : Marks) (e : Expression) :
    d.write (marks.around e) = (d.write e).1.marked (d.write e).2 marks.modifier marks.negated := by
  obtain ⟨modifier, negated⟩ := marks
  cases negated with
  | false => exact d.write_repeated e modifier
  | true =>
    have outer : Marks.around ⟨modifier, true⟩ e = .negation (e.repeated modifier) := rfl
    rw [outer, Draft.write, d.write_repeated]
    rfl

/-- **A token becomes the node that it is read as**, or is reported as reading reports it. -/
theorem lowerToken_eq {l : Lowering} (forest : l.tree.Forest) {v : View} (shown : l.tree.view r = resolved v)
    (all : v.All InEscapes) :
    l.lowerToken r = (readToken (String.ofList l.tree.source) v).map fun e =>
      { l with tree := l.tree.setPayload r (l.draft.write e).2, draft := (l.draft.write e).1 } := by
  -- Resolving escapes keeps names, so the pass finds the atom that reading finds.
  have atoms : ((l.tree.children r).find? fun c => (l.tree.name c).any atomNames.contains).map l.tree.view =
      (v.children.find? fun c => c.name.any atomNames.contains).map resolved := by
    have children : (l.tree.children r).map l.tree.view = v.children.map resolved := by
      rw [← forest.children_view, shown, ← listResolved_eq_map]
      cases v
      rfl
    have names : ∀ w : View, (resolved w).name = w.name := fun w => by cases w; rfl
    have found := congrArg (List.find? fun c : View => c.name.any atomNames.contains) children
    rw [List.find?_map, List.find?_map] at found
    simpa only [Function.comp_def, forest.name_view, names] using found
  rw [Lowering.lowerToken, readToken]
  cases found : (l.tree.children r).find? fun c => (l.tree.name c).any atomNames.contains with
  | none =>
    rw [found, Option.map_none, eq_comm, Option.map_eq_none_iff] at atoms
    rw [atoms]
    exact malformed_of_resolved forest shown
  | some atom =>
    rw [found, Option.map_some, eq_comm, Option.map_eq_some_iff] at atoms
    obtain ⟨w, isAtom, same⟩ := atoms
    have inside := View.listAll_iff.mp all.below w (List.mem_of_find?_eq_some isAtom)
    have named : w.name.any atomNames.contains = true := by simpa using List.find?_some isAtom
    rw [isAtom]
    dsimp only
    rw [lowerAtom_eq forest same.symm inside named]
    cases readAtom (String.ofList l.tree.source) w with
    | error error => rfl
    | ok e =>
      have written := l.draft.write_around (marksOf v) e
      rw [← marksAt_of_resolved forest shown] at written
      dsimp only [Except.map]
      rw [withMarks_eq, ← marksAt_of_resolved forest shown, written]
      rfl

/-! ## All tokens of a row -/

/-- Only payloads differ, and only at some nodes. -/
structure Paid (tokens : List Ref) (t u : ParseTree) : Prop where
  size : u.size = t.size
  source : u.source = t.source
  root : u.root = t.root
  name : ∀ x, u.name x = t.name x
  span : ∀ x, u.span x = t.span x
  value : ∀ x, u.value x = t.value x
  children : ∀ x, u.children x = t.children x
  parent : ∀ x, u.parent x = t.parent x
  payload : ∀ x, x ∉ tokens → u.payload x = t.payload x

theorem Paid.refl (t : ParseTree) : Paid [] t t :=
  ⟨rfl, rfl, rfl, fun _ => rfl, fun _ => rfl, fun _ => rfl, fun _ => rfl, fun _ => rfl, fun _ _ => rfl⟩

theorem Paid.trans {first second : List Ref} {v : ParseTree} (one : Paid first t u) (other : Paid second u v) :
    Paid (first ++ second) t v where
  size := other.size.trans one.size
  source := other.source.trans one.source
  root := other.root.trans one.root
  name x := (other.name x).trans (one.name x)
  span x := (other.span x).trans (one.span x)
  value x := (other.value x).trans (one.value x)
  children x := (other.children x).trans (one.children x)
  parent x := (other.parent x).trans (one.parent x)
  payload x apart := by
    rw [List.mem_append, not_or] at apart
    exact (other.payload x apart.2).trans (one.payload x apart.1)

/-- Payloads are no links, so the tree stays a forest. -/
theorem Paid.forest {tokens : List Ref} (paid : Paid tokens t u) (forest : t.Forest) : u.Forest :=
  forest.congr paid.parent paid.children

/-- Payloads are not seen. -/
theorem Paid.view {tokens : List Ref} (paid : Paid tokens t u) (forest : t.Forest) (r : Ref) : u.view r = t.view r := by
  induction r using forest.induction with
  | step r ih =>
    rw [(paid.forest forest).view_eq, forest.view_eq, paid.name, paid.value, paid.span, paid.children]
    exact congrArg _ (List.map_congr_left ih)

/-- A payload that is set is set at its node, and changes nothing else. -/
theorem paid_setPayload (t : ParseTree) (r : Ref) (id : NodeId) : Paid [r] t (t.setPayload r id) where
  size := ParseTree.size_modify ..
  source := rfl
  root := rfl
  name := ParseTree.node_modify_congr t r _ ParseTree.Node.name fun _ => rfl
  span := ParseTree.node_modify_congr t r _ ParseTree.Node.span fun _ => rfl
  value := ParseTree.value_modify_congr t r _ fun _ => ⟨rfl, rfl⟩
  children := ParseTree.node_modify_congr t r _ ParseTree.Node.children fun _ => rfl
  parent := ParseTree.node_modify_congr t r _ ParseTree.Node.parent fun _ => rfl
  payload x apart := by
    rw [List.mem_singleton] at apart
    rw [ParseTree.payload, ParseTree.setPayload, ParseTree.node_modify_of_ne t _ (Ne.symm apart)]
    rfl

theorem payload_setPayload {id : NodeId} (inside : r < t.size) : (t.setPayload r id).payload r = some id := by
  rw [ParseTree.payload, ParseTree.setPayload, ParseTree.node_modify_self t _ inside]

/-- The grammar node that is kept at a node. -/
def payloadAt (t : ParseTree) (r : Ref) : NodeId :=
  (t.payload r).getD 0

/-- What a row of tokens in a tree comes to: a draft with all of them, and addresses at them. -/
def Numbered (l : Lowering) (tokens : List Ref) (result : Draft) (u : ParseTree) : Prop :=
  tokens.foldlM Lowering.lowerToken l = .ok { l with tree := u, draft := result } ∧ Paid tokens l.tree u ∧
    ∀ r ∈ tokens, u.payload r = some (payloadAt u r)

/-- Tokens in a table, with what was seen of them before escapes were resolved. -/
structure TokensOf (seen : Ref → View) (tokens : List Ref) (t : ParseTree) : Prop where
  forest : t.Forest
  once : tokens.Nodup
  inside : ∀ r ∈ tokens, r < t.size
  shown : ∀ r ∈ tokens, t.view r = resolved (seen r)
  all : ∀ r ∈ tokens, (seen r).All InEscapes

/-- The first tokens are seen as all are. -/
theorem TokensOf.left {seen : Ref → View} {first second : List Ref} (is : TokensOf seen (first ++ second) t) :
    TokensOf seen first t :=
  ⟨is.forest, (List.nodup_append.mp is.once).1, fun r mem => is.inside r (List.mem_append_left _ mem),
    fun r mem => is.shown r (List.mem_append_left _ mem), fun r mem => is.all r (List.mem_append_left _ mem)⟩

/-- The tokens that come later are still there. -/
theorem TokensOf.right {seen : Ref → View} {first second : List Ref} (is : TokensOf seen (first ++ second) t)
    (paid : Paid first t u) : TokensOf seen second u where
  forest := paid.forest is.forest
  once := (List.nodup_append.mp is.once).2.1
  inside r mem := by
    rw [paid.size]
    exact is.inside r (List.mem_append_right _ mem)
  shown r mem := by
    rw [paid.view is.forest]
    exact is.shown r (List.mem_append_right _ mem)
  all r mem := is.all r (List.mem_append_right _ mem)

/-- Tokens that are lowered one after the other are numbered one after the other. -/
theorem Numbered.append {l : Lowering} {first second : List Ref} {d d' : Draft} {v : ParseTree} {seen : Ref → View}
    (one : Numbered l first d u) (other : Numbered { l with tree := u, draft := d } second d' v)
    (is : TokensOf seen (first ++ second) l.tree) : Numbered l (first ++ second) d' v := by
  obtain ⟨run, paid, known⟩ := one
  obtain ⟨run', paid', known'⟩ := other
  refine ⟨?_, paid.trans paid', fun r mem => ?_⟩
  · rw [List.foldlM_append, run]
    exact run'
  · rcases List.mem_append.mp mem with mem | mem
    · have apart : r ∉ second := fun again => (List.nodup_append.mp is.once).2.2 r mem r again rfl
      rw [payloadAt, paid'.payload r apart]
      exact known r mem
    · exact known' r mem

mutual

/-- **The tokens of a part become nodes**, or the first that is misread is reported. -/
theorem lowerTokens (source : String) (seen : Ref → View) : ∀ (p : Part Ref) (l : Lowering),
    String.ofList l.tree.source = source → TokensOf seen p.tokens l.tree →
    match (p.map seen).read source with
    | .error error => p.tokens.foldlM Lowering.lowerToken l = .error error
    | .ok part => ∃ u, Numbered l p.tokens (l.draft.number part).1 u ∧ p.map (payloadAt u) = (l.draft.number part).2
  | .bar, l, _, _ => ⟨l.tree, ⟨rfl, .refl _, nofun⟩, rfl⟩
  | .token r, l, from', is => by
    have single : r ∈ (Part.token r).tokens := List.mem_singleton_self r
    have step := lowerToken_eq is.forest (is.shown r single) (is.all r single)
    rw [from'] at step
    have run : (Part.token r).tokens.foldlM Lowering.lowerToken l = l.lowerToken r := by
      rw [Part.tokens, List.foldlM_cons]
      cases l.lowerToken r <;> rfl
    rw [Part.map, Part.read]
    cases read : readToken source (seen r) with
    | error error =>
      rw [read] at step
      exact run.trans step
    | ok e =>
      rw [read] at step
      have paid : (l.tree.setPayload r (l.draft.write e).2).payload r = some (l.draft.write e).2 :=
        payload_setPayload (is.inside r single)
      refine ⟨_, ⟨run.trans step, paid_setPayload l.tree r _, List.forall_mem_singleton.mpr ?_⟩, ?_⟩
      · rw [payloadAt, paid]
        rfl
      · rw [Part.map, payloadAt, paid]
        rfl
  | .group marks row, l, from', is => by
    have inside := lowerAllTokens source seen row l from' is
    rw [Part.map, Part.read]
    cases read : Part.listRead source (Part.listMap seen row) with
    | error error =>
      rw [read] at inside
      exact inside
    | ok parts =>
      rw [read] at inside
      obtain ⟨u, numbered, same⟩ := inside
      exact ⟨u, numbered, congrArg (Part.group marks) same⟩

/-- The same for the tokens of a whole row, by induction on its parts. -/
theorem lowerAllTokens (source : String) (seen : Ref → View) : ∀ (ps : List (Part Ref)) (l : Lowering),
    String.ofList l.tree.source = source → TokensOf seen (Part.listTokens ps) l.tree →
    match Part.listRead source (Part.listMap seen ps) with
    | .error error => (Part.listTokens ps).foldlM Lowering.lowerToken l = .error error
    | .ok row => ∃ u, Numbered l (Part.listTokens ps) (l.draft.numberAll row).1 u ∧
        Part.listMap (payloadAt u) ps = (l.draft.numberAll row).2
  | [], l, _, _ => ⟨l.tree, ⟨rfl, .refl _, nofun⟩, rfl⟩
  | p :: ps, l, from', is => by
    have first := lowerTokens source seen p l from' is.left
    rw [Part.listMap, Part.listRead]
    cases read : (p.map seen).read source with
    | error error =>
      rw [read] at first
      rw [Part.listTokens, List.foldlM_append, first]
      rfl
    | ok part =>
      rw [read] at first
      obtain ⟨u, numbered, same⟩ := first
      have others := lowerAllTokens source seen ps ⟨u, (l.draft.number part).1, l.rules⟩
        ((congrArg String.ofList numbered.2.1.source).trans from') (is.right numbered.2.1)
      cases reads : Part.listRead source (Part.listMap seen ps) with
      | error error =>
        rw [reads] at others
        rw [Part.listTokens, List.foldlM_append, numbered.1]
        exact others
      | ok row =>
        rw [reads] at others
        obtain ⟨v, numbered', same'⟩ := others
        refine ⟨v, numbered.append numbered' is, ?_⟩
        -- The tokens are different nodes, so the later ones leave what is kept at those of the first part.
        have kept : p.map (payloadAt v) = p.map (payloadAt u) := by
          refine Part.map_congr fun r mem => ?_
          have apart : r ∉ Part.listTokens ps := fun again => (List.nodup_append.mp is.once).2.2 r mem r again rfl
          rw [payloadAt, numbered'.2.1.payload r apart, payloadAt]
        rw [Part.listMap, kept, same, same']
        rfl

end

end BnfTokenizer.Dialect
