import BnfTokenizer.Lexer
import BnfTokenizer.Proofs.Match.Adequacy
import BnfTokenizer.Proofs.ParseTree.Walks

/-!
# A tree covers the text that it matched

Spans are cut at the ends of characters, and a node with children is cut into theirs: `Tiles` says that
spans follow one another from one place to another with no byte left out and none twice. What is derived
is cut like this (`Derives.covers`), so what is written into a table is (`covered_of_rows`), and whoever
joins the texts of the leaves below a node gets the text of the node back: for a leaf that is nothing to
prove, and texts that tile a span join to its text (`Text.slice_append_slice`).

A leaf is a node without children, so a repetition of nothing or an optional node that was not there counts
as one; its text is empty, and the law does not need to tell it apart.
-/

namespace BnfTokenizer

/-! ## Cutting a text -/

namespace Text

theorem takeBytes_byteLength_add (before after : List Char) (n : Nat) :
    takeBytes (byteLength before + n) (before ++ after) = before ++ takeBytes n after := by
  induction before with
  | nil => rw [byteLength, Nat.zero_add, List.nil_append, List.nil_append]
  | cons c cs ih =>
    have fits : c.utf8Size ≤ byteLength (c :: cs) + n := by
      rw [byteLength]
      omega
    have rest : byteLength (c :: cs) + n - c.utf8Size = byteLength cs + n := by
      rw [byteLength]
      omega
    rw [List.cons_append, takeBytes, if_pos fits, rest, ih, List.cons_append]

/-- No character takes no bytes. -/
theorem eq_nil_of_byteLength_eq_zero {cs : List Char} (empty : byteLength cs = 0) : cs = [] := by
  cases cs with
  | nil => rfl
  | cons c cs =>
    have := c.utf8Size_pos
    rw [byteLength] at empty
    omega

/-- Two boundaries part a text in three. -/
theorem parted_of_isBoundary {cs : List Char} {start middle : Nat} (first : isBoundary cs start = true)
    (second : isBoundary cs middle = true) (ordered : start ≤ middle) :
    ∃ before between after, cs = before ++ (between ++ after) ∧ byteLength before = start ∧
      byteLength before + byteLength between = middle := by
  obtain ⟨before, rest, rfl, rfl⟩ := (isBoundary_iff ..).mp first
  obtain ⟨longer, after, parts, rfl⟩ := (isBoundary_iff ..).mp second
  obtain ⟨between, rfl, rfl⟩ | ⟨extra, rfl, rfl⟩ := List.append_eq_append_iff.mp parts
  · exact ⟨before, between, after, rfl, rfl, (byteLength_append ..).symm⟩
  · rw [byteLength_append] at ordered
    have none : extra = [] := eq_nil_of_byteLength_eq_zero (by omega)
    rw [none, List.append_nil]
    exact ⟨longer, [], rest, rfl, rfl, rfl⟩

/-- Neighbouring parts of a text join. -/
theorem slice_append_slice {cs : List Char} {start middle stop : Nat} (first : isBoundary cs start = true)
    (second : isBoundary cs middle = true) (ordered : start ≤ middle) (further : middle ≤ stop) :
    slice cs start middle ++ slice cs middle stop = slice cs start stop := by
  obtain ⟨before, between, after, rfl, rfl, rfl⟩ := parted_of_isBoundary first second ordered
  have rest : slice (before ++ (between ++ after)) (byteLength before + byteLength between) stop =
      takeBytes (stop - (byteLength before + byteLength between)) after := by
    rw [slice, ← byteLength_append, ← List.append_assoc, dropBytes_byteLength_append]
  have whole : stop - byteLength before =
      byteLength between + (stop - (byteLength before + byteLength between)) := by
    omega
  rw [slice_byteLength_append, rest, slice, dropBytes_byteLength_append, whole, takeBytes_byteLength_add]

theorem slice_self (cs : List Char) (n : Nat) : slice cs n n = [] := by
  rw [slice, Nat.sub_self, takeBytes_zero]

theorem slice_whole (cs : List Char) : slice cs 0 (byteLength cs) = cs := by
  have whole := slice_byteLength_append [] cs []
  rwa [List.nil_append, List.append_nil, byteLength, Nat.zero_add] at whole

/-- No boundary lies behind the end. -/
theorem le_byteLength_of_isBoundary {cs : List Char} {n : Nat} (between : isBoundary cs n = true) :
    n ≤ byteLength cs := by
  obtain ⟨before, after, rfl, rfl⟩ := (isBoundary_iff ..).mp between
  rw [byteLength_append]
  exact Nat.le_add_right ..

end Text

/-- Spans that follow one another from `start` up to `stop`, with nothing between them and nothing
twice. -/
def Tiles : Nat → List Span → Nat → Prop
  | start, [], stop => start = stop
  | start, span :: spans, stop => span.start = start ∧ start ≤ span.stop ∧ Tiles span.stop spans stop

theorem Tiles.le {start stop : Nat} {spans : List Span} (tiles : Tiles start spans stop) :
    start ≤ stop := by
  induction spans generalizing start with
  | nil => exact Nat.le_of_eq tiles
  | cons span spans ih => exact Nat.le_trans tiles.2.1 (ih tiles.2.2)

/-! ## What is derived covers its text -/

namespace Match

open ParseTree (Ref Node Plant)

/-- A place between two characters of a text. -/
def Cursor.In (source : List Char) (here : Cursor) : Prop :=
  ∃ before, source = before ++ here.rest ∧ here.offset = Text.byteLength before

section

variable {source : List Char} {here stop : Cursor}

theorem Cursor.In.isBoundary (within : here.In source) : Text.isBoundary source here.offset = true := by
  obtain ⟨before, rfl, offset⟩ := within
  exact (Text.isBoundary_iff ..).mpr ⟨before, here.rest, rfl, offset.symm⟩

theorem Cursor.Spans.within {text : List Char} (spans : here.Spans text stop) (within : here.In source) :
    stop.In source := by
  obtain ⟨before, rfl, offset⟩ := within
  refine ⟨before ++ text, ?_, ?_⟩
  · rw [spans.1, List.append_assoc]
  · rw [spans.2, offset, Text.byteLength_append]

theorem Derives.within {g : Grammar} {id : NodeId} {tree : DerivedTree}
    (derives : Derives g id here (some (tree, stop))) (within : here.In source) : stop.In source :=
  (derives.spans _ rfl).elim fun _ spans => spans.within within

end

namespace DerivedTree

def span : DerivedTree → Span
  | node _ _ span _ => span

mutual

/-- Every span of a tree lies between characters of the source, and those of children tile that of their
parent. -/
def Covers (source : List Char) : DerivedTree → Prop
  | node _ _ span children =>
    (Text.isBoundary source span.start = true ∧ Text.isBoundary source span.stop = true ∧
      span.start ≤ span.stop ∧ (children ≠ [] → Tiles span.start (children.map DerivedTree.span) span.stop)) ∧
      ListCovers source children

def ListCovers (source : List Char) : List DerivedTree → Prop
  | [] => True
  | t :: ts => t.Covers source ∧ ListCovers source ts

end

theorem Covers.called {source : List Char} {tree : DerivedTree} (covers : tree.Covers source)
    (name : Option String) : (tree.called name).Covers source := by
  cases tree
  exact covers

theorem span_called (name : Option String) (tree : DerivedTree) : (tree.called name).span = tree.span := by
  cases tree
  rfl

end DerivedTree

section

variable {g : Grammar} {source : List Char}

/-- What a result shows of the place that it was found at. -/
def CoversFrom (source : List Char) (here : Cursor) (found : DerivedTree × Cursor) : Prop :=
  found.1.Covers source ∧ found.1.span = ⟨here.offset, found.2.offset⟩

/-- A node over trees that tile what it spans. -/
theorem coversFrom_spanning {here stop : Cursor} (id : NodeId) {trees : List DerivedTree}
    (begins : here.In source) (ends : stop.In source) (ordered : here.offset ≤ stop.offset)
    (covers : DerivedTree.ListCovers source trees)
    (tiles : trees ≠ [] → Tiles here.offset (trees.map DerivedTree.span) stop.offset) :
    CoversFrom source here (.spanning g id here stop trees, stop) :=
  ⟨⟨⟨begins.isBoundary, ends.isBoundary, ordered, tiles⟩, covers⟩, rfl⟩

/-- A node without children. -/
theorem coversFrom_alone {here stop : Cursor} (id : NodeId) {text : List Char} (begins : here.In source)
    (spans : here.Spans text stop) : CoversFrom source here (.spanning g id here stop [], stop) :=
  coversFrom_spanning id begins (spans.within begins) spans.offset_le trivial (absurd rfl)

mutual

/-- **What is derived covers the text** from its place up to where it ends. -/
theorem Derives.covers : ∀ {id here result}, Derives g id here result → here.In source →
    ∀ found ∈ result, CoversFrom source here found
  | id, _, _, .literal _ spans, begins, _, rfl => coversFrom_alone id begins spans
  | id, _, _, .character _ spans, begins, _, rfl => coversFrom_alone id begins spans
  | id, _, _, .sequence _ all, begins, _, rfl =>
    have ⟨covers, tiles⟩ := all.covers begins _ rfl
    have ⟨_, spans⟩ := all.spans _ rfl
    coversFrom_spanning id begins (spans.within begins) tiles.le covers fun _ => tiles
  | _, _, _, .choice _ first, begins, _, rfl =>
    have ⟨covers, span⟩ := first.covers begins _ rfl
    ⟨covers.called _, (DerivedTree.span_called ..).trans span⟩
  | id, _, _, .repetition _ rounds, begins, _, rfl =>
    have ⟨covers, tiles⟩ := rounds.covers begins
    have ⟨_, spans⟩ := rounds.spans
    coversFrom_spanning id begins (spans.within begins) tiles.le covers fun _ => tiles
  | id, _, _, .optional _ present, begins, _, rfl =>
    have ⟨covers, span⟩ := present.covers begins _ rfl
    coversFrom_spanning id begins (present.within begins) present.offset_le ⟨covers, trivial⟩ fun _ => by
      rw [List.map_singleton, span]
      exact ⟨rfl, present.offset_le, rfl⟩
  | id, _, _, .optionalSkips _ _, begins, _, rfl => coversFrom_alone id begins (.refl _)
  | id, _, _, .negation _ _, begins, _, rfl => coversFrom_alone id begins (.refl _)
  | id, _, _, .endOfInput _ _, begins, _, rfl => coversFrom_alone id begins (.refl _)
termination_by structural _ _ _ derives => derives

theorem DerivesAll.covers : ∀ {ids here result}, DerivesAll g ids here result → here.In source →
    ∀ found ∈ result, DerivedTree.ListCovers source found.1 ∧
      Tiles here.offset (found.1.map DerivedTree.span) found.2.offset
  | _, _, _, .nil, _, _, rfl => ⟨trivial, rfl⟩
  | _, _, _, .cons head tail, begins, _, rfl => by
    obtain ⟨covers, span⟩ := head.covers begins _ rfl
    obtain ⟨others, tiles⟩ := tail.covers (head.within begins) _ rfl
    refine ⟨⟨covers, others⟩, ?_⟩
    rw [List.map_cons, span]
    exact ⟨rfl, head.offset_le, tiles⟩
termination_by structural _ _ _ derives => derives

theorem DerivesFirst.covers : ∀ {ids here result}, DerivesFirst g ids here result → here.In source →
    ∀ found ∈ result, CoversFrom source here found
  | _, _, _, .here head, begins, found, mem => head.covers begins found mem
  | _, _, _, .later _ tail, begins, found, mem => tail.covers begins found mem
termination_by structural _ _ _ derives => derives

theorem DerivesMore.covers : ∀ {id here trees stop}, DerivesMore g id here trees stop → here.In source →
    DerivedTree.ListCovers source trees ∧ Tiles here.offset (trees.map DerivedTree.span) stop.offset
  | _, _, _, _, .stop _, _ => ⟨trivial, rfl⟩
  | _, _, _, _, .more once _ again, begins => by
    obtain ⟨covers, span⟩ := once.covers begins _ rfl
    obtain ⟨others, tiles⟩ := again.covers (once.within begins)
    refine ⟨⟨covers, others⟩, ?_⟩
    rw [List.map_cons, span]
    exact ⟨rfl, once.offset_le, tiles⟩
termination_by structural _ _ _ _ derives => derives

end

end

end Match

/-! ## The table of a tree -/

namespace ParseTree

open Match (DerivedTree)

/-- The span of a node lies between characters of the source, and its children, if it has any, tile it. -/
structure CoveredAt (t : ParseTree) (r : Ref) : Prop where
  starts : Text.isBoundary t.source (t.span r).start = true
  stops : Text.isBoundary t.source (t.span r).stop = true
  ordered : (t.span r).start ≤ (t.span r).stop
  tiled : t.children r ≠ [] → Tiles (t.span r).start ((t.children r).map t.span) (t.span r).stop

/-- The text that a node matched. -/
def text (t : ParseTree) (r : Ref) : List Char :=
  Text.slice t.source (t.span r).start (t.span r).stop

/-- A node whose value was not written over shows the text that it matched. -/
theorem toList_value {t : ParseTree} {r : Ref} (unwritten : (t.node r).value = none) :
    (t.value r).toList = t.text r := by
  rw [value, unwritten, Option.getD_none, String.toList_ofList, text]

section

variable {t : ParseTree}

theorem span_top {before after : List Node} {parent : Option Ref} {tree : DerivedTree}
    (laid : t.nodes.toList = before ++ (tree.rows before.length parent ++ after)) :
    t.span (tree.top before.length) = tree.span := by
  rw [span, node_top laid]
  cases tree
  rfl

theorem map_span_tops (trees : List DerivedTree) (before after : List Node) (parent : Option Ref)
    (laid : t.nodes.toList = before ++ (DerivedTree.listRows before.length parent trees ++ after)) :
    (DerivedTree.tops before.length trees).map t.span = trees.map DerivedTree.span := by
  induction trees generalizing before with
  | nil => rfl
  | cons tree trees ih =>
    rw [DerivedTree.listRows, List.append_assoc] at laid
    have tail := ih (before ++ tree.rows before.length parent)
    rw [List.length_append, DerivedTree.length_rows] at tail
    rw [DerivedTree.tops, List.map_cons, List.map_cons, span_top laid,
      tail (by rw [laid, List.append_assoc])]

mutual

/-- The rows of a tree that covers its text. -/
theorem covered_of_rows : ∀ (tree : DerivedTree) (before after : List Node) (parent : Option Ref),
    t.nodes.toList = before ++ (tree.rows before.length parent ++ after) → tree.Covers t.source →
    ∀ r ∈ (tree.plant before.length).places, t.CoveredAt r ∧ (t.node r).value = none
  | .node origin name span children, before, after, parent, laid, covers, r, mem => by
    obtain ⟨⟨starts, stops, ordered, tiles⟩, below⟩ := covers
    have row := node_top laid
    have own := span_top laid
    have spans := laid
    rw [DerivedTree.rows_eq, List.append_assoc] at spans
    rcases List.mem_cons.mp mem with rfl | under
    · have links : t.children (before.length + DerivedTree.listSize children) =
          DerivedTree.tops before.length children := congrArg Node.children row
      have place : t.span (before.length + DerivedTree.listSize children) = span := own
      refine ⟨⟨?_, ?_, ?_, ?_⟩, congrArg Node.value row⟩
      · rwa [place]
      · rwa [place]
      · rwa [place]
      · rw [links, place, map_span_tops children before _ _ spans]
        intro some
        refine tiles fun none => some ?_
        rw [none, DerivedTree.tops]
    · exact covered_of_listRows children before _ _ spans below r under

theorem covered_of_listRows : ∀ (trees : List DerivedTree) (before after : List Node)
    (parent : Option Ref),
    t.nodes.toList = before ++ (DerivedTree.listRows before.length parent trees ++ after) →
    DerivedTree.ListCovers t.source trees →
    ∀ r ∈ Plant.listPlaces (DerivedTree.listPlant before.length trees),
      t.CoveredAt r ∧ (t.node r).value = none
  | tree :: trees, before, after, parent, laid, covers, r, mem => by
    rw [DerivedTree.listRows, List.append_assoc] at laid
    rcases List.mem_append.mp mem with here | later
    · exact covered_of_rows tree before _ parent laid covers.1 r here
    · have tail := covered_of_listRows trees (before ++ tree.rows before.length parent) after parent
      rw [List.length_append, DerivedTree.length_rows] at tail
      exact tail (by rw [laid, List.append_assoc]) covers.2 r later

end

/-! ## Joining the leaves -/

mutual

/-- The texts of the tips of a plant join to the text of its topmost place. -/
theorem Plant.Hangs.flatMap_tips : ∀ {q : Plant} {parent : Option Ref}, q.Hangs t parent →
    (∀ r ∈ q.places, t.CoveredAt r) → q.tips.flatMap t.text = t.text q.place
  | .node place [], _, _, _ => List.flatMap_singleton ..
  | .node place (q :: qs), _, hangs, covered => by
    have own := covered place List.mem_cons_self
    have below : ∀ r ∈ Plant.listPlaces (q :: qs), t.CoveredAt r := fun r mem =>
      covered r (List.mem_cons_of_mem _ mem)
    have links : t.children place = (q :: qs).map Plant.place := hangs.2.1
    have tiles := own.tiled (by rw [links]; exact List.cons_ne_nil _ _)
    rw [links] at tiles
    exact Plant.ListHangs.flatMap_tips hangs.2.2 below own.starts tiles

/-- The texts of plants that tile a span join to the text there. -/
theorem Plant.ListHangs.flatMap_tips : ∀ {qs : List Plant} {parent : Option Ref} {start stop : Nat},
    Plant.ListHangs t parent qs → (∀ r ∈ Plant.listPlaces qs, t.CoveredAt r) →
    Text.isBoundary t.source start = true → Tiles start ((qs.map Plant.place).map t.span) stop →
    (Plant.listTips qs).flatMap t.text = Text.slice t.source start stop
  | [], _, start, stop, _, _, _, tiles => by
    rw [show start = stop from tiles, Text.slice_self]
    rfl
  | q :: qs, _, start, stop, hangs, covered, starts, tiles => by
    obtain ⟨begins, ordered, rest⟩ := tiles
    rw [Plant.listPlaces, List.forall_mem_append] at covered
    have own := covered.1 q.place q.place_mem_places
    have here := Plant.Hangs.flatMap_tips hangs.1 covered.1
    have later := Plant.ListHangs.flatMap_tips hangs.2 covered.2 own.stops rest
    rw [Plant.listTips, List.flatMap_append, here, later, text, begins]
    exact Text.slice_append_slice starts own.stops ordered rest.le

end

theorem toList_intercalate_nothing (texts : List String) :
    (String.intercalate "" texts).toList = texts.flatMap String.toList := by
  induction texts with
  | nil => rfl
  | cons text texts ih =>
    cases texts with
    | nil => simp
    | cons next texts =>
      rw [String.intercalate_cons_cons, String.toList_append, String.toList_append, ih]
      simp

/-- Whatever hangs in covered places, the leaves join to the value at its top. -/
theorem joinLeaves_eq_value {q : Plant} {parent : Option Ref} (hangs : q.Hangs t parent)
    (small : q.places.length ≤ t.size + 1)
    (covered : ∀ r ∈ q.places, t.CoveredAt r ∧ (t.node r).value = none) :
    t.joinLeaves q.place "" = t.value q.place := by
  have values : q.tips.map (String.toList ∘ t.value) = q.tips.map t.text :=
    List.map_congr_left fun r tip => toList_value (covered r (q.tips_subset tip)).2
  refine String.ext ?_
  calc (t.joinLeaves q.place "").toList
      = (q.tips.map t.value).flatMap String.toList := by
        rw [joinLeaves, hangs.leaves_eq small, toList_intercalate_nothing]
    _ = q.tips.flatMap t.text := by
        rw [List.flatMap_def, List.map_map, values, List.flatMap_def]
    _ = t.text q.place := hangs.flatMap_tips fun r mem => (covered r mem).1
    _ = (t.value q.place).toList := (toList_value (covered _ q.place_mem_places).2).symm

end

end ParseTree

/-! ## A whole match -/

namespace Match

open ParseTree (Ref Node Plant)

variable {σ : Type}

/-- The tree of a match covers what was matched, and no value was written over. -/
theorem covered_of_traceAt {g : Grammar} {id : NodeId} {input : String} {offset : Nat} {limits : Limits}
    {tracer : Tracer σ} {gathered : σ} {found : Found} {furthest : Nat}
    (ends : (traceAt g id input offset limits tracer gathered).1 = .ok ⟨some found, furthest⟩) :
    found.tree.source = input.toList ∧
      (found.tree.root < found.tree.size ∧ found.tree.span found.tree.root = ⟨offset, found.stop⟩) ∧
      ∀ r < found.tree.size, (found.tree.CoveredAt r ∧ (found.tree.node r).value = none) ∧
        found.tree.joinLeaves r "" = found.tree.value r := by
  obtain ⟨before, after, rfl, rfl⟩ := parted_of_traceAt ends
  obtain ⟨tree, stop, derives, laid, root, source, last⟩ := laid_of_traceAt ends
  have begins : Cursor.In found.tree.source ⟨Text.byteLength before, after⟩ := ⟨before, source, rfl⟩
  obtain ⟨covers, span⟩ := derives.covers begins _ rfl
  have rows : found.tree.nodes.toList = [] ++ (tree.rows ([] : List Node).length none ++ []) := by
    rw [List.append_nil]
    exact laid
  obtain ⟨hangs, perm⟩ := DerivedTree.hangs_all laid
  have covered := ParseTree.covered_of_rows tree [] [] none rows covers
  have few : (tree.plant 0).places.length = found.tree.size :=
    perm.length_eq.trans List.length_range
  have inside : ∀ r, r < found.tree.size ↔ r ∈ (tree.plant 0).places := fun r =>
    List.mem_range.symm.trans perm.mem_iff.symm
  refine ⟨by rw [source, String.toList_ofList], ⟨?_, ?_⟩, fun r place => ?_⟩
  · rw [root, inside, ← tree.place_plant]
    exact (tree.plant 0).place_mem_places
  · rw [root, last]
    exact (ParseTree.span_top rows).trans span
  · have mem := (inside r).mp place
    obtain ⟨part, above, rfl, own, sub⟩ := hangs.exists_part mem
    have small : part.places.length ≤ found.tree.size + 1 :=
      Nat.le_succ_of_le (few ▸ sub.length_le)
    exact ⟨covered _ mem, ParseTree.joinLeaves_eq_value own small fun other listed =>
      covered other (sub.subset listed)⟩

/-- A text that a lexer takes is matched as a whole. -/
theorem found_of_tokenize {lexer : Lexer} {text : String} {tree : ParseTree}
    (ends : lexer.tokenize text = .ok tree) :
    ∃ found furthest, matchAt lexer.grammar lexer.root text 0 lexer.limits = .ok ⟨some found, furthest⟩ ∧
      found.tree = tree ∧ Text.byteLength text.toList ≤ found.stop := by
  unfold Lexer.tokenize Lexer.judge at ends
  split at ends
  · cases ends
  · cases ends
  · next found furthest matching =>
    split at ends
    · cases ends
    · next whole =>
      cases ends
      exact ⟨found, furthest, matching, rfl, Nat.not_lt.mp whole⟩

/-- **A tree is faithful to its text.** Wherever a match is found, the root spans what was matched, every
span lies between characters of the input, the children of a node tile it, and the leaves below every node
join to its value. So the leaves of a text that was tokenized join to that text. -/
theorem traceAt_faithful_to_text (g : Grammar) (id : NodeId) (input : String) (offset : Nat)
    (limits : Limits) (tracer : Tracer σ) (gathered : σ) :
    (∀ found furthest,
        (traceAt g id input offset limits tracer gathered).1 = .ok ⟨some found, furthest⟩ →
          found.tree.source = input.toList ∧
            found.tree.span found.tree.root = ⟨offset, found.stop⟩ ∧
            ∀ r < found.tree.size,
              found.tree.CoveredAt r ∧ found.tree.joinLeaves r "" = found.tree.value r) ∧
      ∀ (lexer : Lexer) (text : String) (tree : ParseTree), lexer.tokenize text = .ok tree →
        tree.joinLeaves tree.root "" = text := by
  refine ⟨fun found furthest ends => ?_, fun lexer text tree ends => ?_⟩
  · obtain ⟨source, ⟨_, span⟩, covered⟩ := covered_of_traceAt ends
    exact ⟨source, span, fun r inside => ⟨(covered r inside).1.1, (covered r inside).2⟩⟩
  · obtain ⟨found, furthest, matching, rfl, reached⟩ := found_of_tokenize ends
    obtain ⟨source, ⟨inside, span⟩, covered⟩ := covered_of_traceAt matching
    obtain ⟨⟨own, unwritten⟩, joined⟩ := covered found.tree.root inside
    have stops := own.stops
    rw [source, span] at stops
    have stop : found.stop = Text.byteLength text.toList :=
      Nat.le_antisymm (Text.le_byteLength_of_isBoundary stops) reached
    refine String.ext ?_
    rw [joined, ParseTree.toList_value unwritten, ParseTree.text, source, span, stop, Text.slice_whole]

/-- An optional letter of two bytes, and then anything but a `b`. -/
def accents : Grammar :=
  ⟨#[⟨none, .literal ['é']⟩, ⟨none, .optional 0⟩, ⟨some "other", .charSet ['b'] true⟩,
    ⟨none, .repetition 2⟩, ⟨some "text", .sequence [1, 3]⟩]⟩

/-- Spans are counted in bytes, and leaves that matched nothing add nothing. -/
theorem accents_covered :
    (∃ found, (traceAt accents 4 (String.ofList ['x', 'é', 'ß', 'b']) 1 {} .silent ()).1 =
        .ok ⟨some found, 5⟩ ∧
      found.tree.span found.tree.root = ⟨1, 5⟩ ∧ found.tree.CoveredAt found.tree.root ∧
        found.tree.joinLeaves found.tree.root "" = String.ofList ['é', 'ß']) ∧
      ∃ (lexer : Lexer) (tree : ParseTree), lexer.grammar = accents ∧ tree.size = 5 ∧
        lexer.tokenize (String.ofList ['ß', 'é']) = .ok tree ∧
        tree.joinLeaves tree.root "" = String.ofList ['ß', 'é'] := by
  obtain ⟨found, tokenized⟩ := traceAt_faithful_to_text accents 4 (String.ofList ['x', 'é', 'ß', 'b']) 1 {}
    Tracer.silent ()
  have ends : (traceAt accents 4 (String.ofList ['x', 'é', 'ß', 'b']) 1 {} .silent ()).1 =
      .ok ⟨some ⟨⟨['x', 'é', 'ß', 'b'],
        #[⟨0, none, ⟨1, 3⟩, none, [], some 1, none⟩, ⟨1, none, ⟨1, 3⟩, none, [0], some 4, none⟩,
          ⟨2, some "other", ⟨3, 5⟩, none, [], some 3, none⟩, ⟨3, none, ⟨3, 5⟩, none, [2], some 4, none⟩,
          ⟨4, some "text", ⟨1, 5⟩, none, [1, 3], none, none⟩], 4⟩, 5⟩, 5⟩ := rfl
  have taken : (Lexer.mk accents 4 {} rfl).tokenize (String.ofList ['ß', 'é']) =
      .ok ⟨['ß', 'é'],
        #[⟨1, none, ⟨0, 0⟩, none, [], some 4, none⟩, ⟨2, some "other", ⟨0, 2⟩, none, [], some 3, none⟩,
          ⟨2, some "other", ⟨2, 4⟩, none, [], some 3, none⟩, ⟨3, none, ⟨0, 4⟩, none, [1, 2], some 4, none⟩,
          ⟨4, some "text", ⟨0, 4⟩, none, [0, 3], none, none⟩], 4⟩ := rfl
  obtain ⟨_, span, covered⟩ := found _ _ ends
  obtain ⟨root, joined⟩ := covered 4 (by decide)
  exact ⟨⟨_, ends, span, root, joined.trans rfl⟩, _, _, rfl, rfl, taken, tokenized _ _ _ taken⟩

end Match

end BnfTokenizer
