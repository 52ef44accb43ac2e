import BnfTokenizer.Proofs.Match.Lockstep
import BnfTokenizer.Proofs.Text.Slicing

/-!
# A match sees only what is left

A text in front of the input moves every place of a match, and that is all it does: a cursor keeps what is left and
not what was read. So a visit that starts `d` bytes further on, with the same text left, makes the same progress with
all places `d` bytes further on. This is one equation for each function of the match (`visit_shift` for the visit), and
it holds of whatever ends a visit, a stop by a limit included.

Read from the two ends, it compares a match from inside an input with a match of the rest of that input from its start
(`matchAt_suffix`). The values of the two trees are the same texts, cut at other offsets from other inputs.
-/

namespace BnfTokenizer

/-! ## Places further on -/

/-- The same span, some bytes further on. -/
def Span.shift (d : Nat) (span : Span) : Span :=
  ⟨span.start + d, span.stop + d⟩

namespace Text

theorem dropBytes_byteLength_add (before after : List Char) (n : Nat) :
    dropBytes (byteLength before + n) (before ++ after) = dropBytes n after := by
  induction before with
  | nil => rw [byteLength, Nat.zero_add, List.nil_append]
  | cons c cs ih =>
    have fits : c.utf8Size ≤ byteLength (c :: cs) + n := by
      rw [byteLength]
      omega
    have rest : byteLength (c :: cs) + n - c.utf8Size = byteLength cs + n := by
      rw [byteLength]
      omega
    rw [List.cons_append, dropBytes, if_pos fits, rest, ih]

/-- The same text, cut further on. -/
theorem slice_shift (before after : List Char) (span : Span) :
    slice (before ++ after) (span.shift (byteLength before)).start (span.shift (byteLength before)).stop =
      slice after span.start span.stop := by
  dsimp only [Span.shift]
  rw [slice, Nat.add_sub_add_right, Nat.add_comm, dropBytes_byteLength_add, slice]

end Text

namespace ParseTree

/-- The same node, over a span further on. -/
def Node.shift (d : Nat) (node : Node) : Node :=
  { node with span := node.span.shift d }

namespace Builder

/-- The same table, with all spans further on. -/
def shift (d : Nat) (b : Builder) : Builder :=
  ⟨b.nodes.map (Node.shift d)⟩

variable (d : Nat) (b : Builder)

@[simp] theorem size_shift : (b.shift d).size = b.size :=
  Array.size_map ..

theorem shift_empty : Builder.shift d {} = {} :=
  congrArg Builder.mk Array.map_empty

theorem truncate_shift (size : Nat) : (b.shift d).truncate size = (b.truncate size).shift d := by
  refine ext_rows ?_
  rw [rows_truncate, shift, rows, Array.toList_map, shift, rows, Array.toList_map, ← List.map_take]
  exact congrArg (List.map _) (rows_truncate b size).symm

/-- A change that does not look at spans changes what is further on in the same way. -/
theorem modify_map_shift {f : Node → Node} (blind : ∀ node, f (node.shift d) = (f node).shift d)
    (nodes : Array Node) (r : Ref) :
    (nodes.map (Node.shift d)).modify r f = (nodes.modify r f).map (Node.shift d) := by
  refine Array.ext_getElem? fun i => ?_
  rw [Array.getElem?_modify, Array.getElem?_map, Array.getElem?_map, Array.getElem?_modify]
  split
  · cases nodes[i]? with
    | none => rfl
    | some node => exact congrArg some (blind node)
  · rfl

theorem inheritName_shift (r : Ref) (name : Option String) :
    (b.shift d).inheritName r name = (b.inheritName r name).shift d :=
  congrArg Builder.mk <|
    modify_map_shift d (f := fun node => { node with name := node.name.or name }) (fun _ => rfl) b.nodes r

theorem foldl_modify_map_shift {f : Node → Node} (blind : ∀ node, f (node.shift d) = (f node).shift d)
    (refs : List Ref) (nodes : Array Node) :
    refs.foldl (fun nodes r => nodes.modify r f) (nodes.map (Node.shift d)) =
      (refs.foldl (fun nodes r => nodes.modify r f) nodes).map (Node.shift d) := by
  induction refs generalizing nodes with
  | nil => rfl
  | cons r refs ih => rw [List.foldl_cons, modify_map_shift d blind, ih, List.foldl_cons]

theorem interior_shift (origin : NodeId) (name : Option String) (span : Span) (children : List Ref) :
    (b.shift d).interior origin name (span.shift d) children = (b.interior origin name span children).shift d := by
  have adopted := foldl_modify_map_shift d (f := fun node => { node with parent := some b.size }) (fun _ => rfl)
    children b.nodes
  refine congrArg Builder.mk (Eq.trans ?_ Array.map_push.symm)
  rw [size_shift]
  exact congrArg (Array.push · _) adopted

end Builder

/-- The same tree over a source with a text in front. -/
def behind (t : ParseTree) (before : List Char) : ParseTree :=
  ⟨before ++ t.source, t.nodes.map (Node.shift (Text.byteLength before)), t.root⟩

variable (t : ParseTree) (before : List Char)

theorem node_behind {r : Ref} (inside : r < t.size) :
    (t.behind before).node r = (t.node r).shift (Text.byteLength before) := by
  have within : r < t.nodes.size := inside
  simp [node, behind, Array.getD_eq_getD_getElem?, within]

/-- All but the span of a node is as it was, also outside the table. -/
theorem read_behind {α : Type} (read : Node → α)
    (blind : ∀ node, read (node.shift (Text.byteLength before)) = read node) (r : Ref) :
    read ((t.behind before).node r) = read (t.node r) := by
  by_cases inside : r < t.size
  · rw [node_behind t before inside, blind]
  · have outside : t.size ≤ r := Nat.not_lt.mp inside
    rw [node_of_size_le t outside, node_of_size_le]
    exact Nat.le_trans (Nat.le_of_eq (Array.size_map ..)) outside

end ParseTree

namespace Match

open ParseTree (Ref)

/-- What is left is the same, at a place further on. -/
def Cursor.shift (d : Nat) (here : Cursor) : Cursor :=
  { here with offset := here.offset + d }

def Fault.shift (d : Nat) : Fault → Fault
  | idleRepetition position => idleRepetition (position + d)
  | fault => fault

def Event.shift (d : Nat) : Event → Event
  | enter node position => enter node (position + d)
  | success node start stop => success node (start + d) (stop + d)
  | failure node position => failure node (position + d)
  | backtrack choice position => backtrack choice (position + d)

/-- The same progress, with all places further on. The tracer is the one that gathers the events. -/
def Progress.shift (d : Nat) (p : Progress (List Event)) : Progress (List Event) :=
  ⟨p.fuel, p.furthest + d, p.nodes.shift d, p.trace.map (Event.shift d)⟩

def Verdict.shift {α : Type} (d : Nat) : Verdict (α × Cursor) → Verdict (α × Cursor)
  | matched (result, stop) => matched (result, stop.shift d)
  | failed => failed
  | stopped fault => stopped (fault.shift d)

/-- The same end of an attempt or of several, with all places further on. -/
def shiftEnd {α : Type} (d : Nat) (ends : Verdict (α × Cursor) × Progress (List Event)) :
    Verdict (α × Cursor) × Progress (List Event) :=
  (ends.1.shift d, ends.2.shift d)

/-- A way to visit that does not depend on where a text stands. -/
def Visit.Shifts (d : Nat) (visit : Visit (List Event)) : Prop :=
  ∀ id here p, visit id (here.shift d) (p.shift d) = shiftEnd d (visit id here p)

/-! ## Terminals -/

section

variable (d : Nat) (here : Cursor)

theorem Cursor.afterText?_shift (text : List Char) :
    (here.shift d).afterText? text = (here.afterText? text).map (Cursor.shift d) := by
  induction text generalizing here with
  | nil => rfl
  | cons c cs ih =>
    obtain ⟨offset, rest⟩ := here
    cases rest with
    | nil => rfl
    | cons next rest =>
      have further := ih ⟨offset + c.utf8Size, rest⟩
      unfold Cursor.shift at further ⊢
      dsimp only [afterText?] at further ⊢
      split
      · rw [← further, Nat.add_right_comm]
      · rfl

theorem Cursor.afterChar?_shift (accepts : Char → Bool) :
    (here.shift d).afterChar? accepts = (here.afterChar? accepts).map (Cursor.shift d) := by
  obtain ⟨offset, rest⟩ := here
  cases rest with
  | nil => rfl
  | cons c rest =>
    dsimp only [Cursor.shift, afterChar?]
    split
    · exact congrArg (fun offset => some (Cursor.mk offset rest)) (Nat.add_right_comm ..)
    · rfl

theorem Cursor.atEnd?_shift : (here.shift d).atEnd? = here.atEnd?.map (Cursor.shift d) := by
  dsimp only [Cursor.shift, atEnd?]
  split <;> rfl

variable (g : Grammar) (id : NodeId) (p : Progress (List Event))

theorem Progress.truncate_shift (size : Nat) : (p.shift d).truncate size = (p.truncate size).shift d := by
  dsimp only [Progress.shift, Progress.truncate]
  rw [ParseTree.Builder.truncate_shift]

theorem interior_shift (stop : Cursor) (children : List Ref) :
    (p.shift d).interior g id (here.shift d) (stop.shift d) children =
      shiftEnd d (p.interior g id here stop children) := by
  dsimp only [Progress.interior, shiftEnd, Verdict.shift, Progress.shift]
  rw [ParseTree.Builder.size_shift, ← ParseTree.Builder.interior_shift]
  rfl

theorem terminal_shift (lookahead : Nat) (stop? : Option Cursor) :
    (p.shift d).terminal g id lookahead (here.shift d) (stop?.map (Cursor.shift d)) =
      shiftEnd d (p.terminal g id lookahead here stop?) := by
  cases stop? with
  | some stop => exact interior_shift d here g id p stop []
  | none =>
    dsimp only [Option.map_none, Progress.terminal, Progress.miss, shiftEnd, Verdict.shift]
    split
    · dsimp only [Progress.shift, Cursor.shift]
      rw [Nat.add_max_add_right]
    · rfl

end

/-! ## Children -/

section

variable {d : Nat} {visit : Visit (List Event)}

theorem inSequence_shift (shifts : Visit.Shifts d visit) (ids : List NodeId) (here : Cursor)
    (p : Progress (List Event)) :
    inSequence visit ids (here.shift d) (p.shift d) = shiftEnd d (inSequence visit ids here p) := by
  induction ids generalizing here p with
  | nil => rfl
  | cons id ids ih =>
    unfold inSequence
    rw [shifts]
    generalize visit id here p = first
    obtain ⟨verdict, p⟩ := first
    cases verdict with
    | matched ended =>
      obtain ⟨r, next⟩ := ended
      dsimp only [shiftEnd, Verdict.shift]
      rw [ih]
      generalize inSequence visit ids next p = rest
      obtain ⟨verdict, p⟩ := rest
      cases verdict <;> rfl
    | failed => rfl
    | stopped fault => rfl

theorem firstOf_shift (shifts : Visit.Shifts d visit) (choice : NodeId) (name : Option String) (ids : List NodeId)
    (here : Cursor) (p : Progress (List Event)) :
    firstOf visit .log choice name ids (here.shift d) (p.shift d) =
      shiftEnd d (firstOf visit .log choice name ids here p) := by
  induction ids generalizing p with
  | nil => rfl
  | cons id ids ih =>
    unfold firstOf
    rw [shifts]
    generalize visit id here p = first
    obtain ⟨verdict, p⟩ := first
    cases verdict with
    | matched ended =>
      obtain ⟨r, stop⟩ := ended
      dsimp only [shiftEnd, Verdict.shift, Progress.shift]
      rw [ParseTree.Builder.inheritName_shift]
    | failed =>
      have further := ih (if ids.isEmpty then p else p.record .log (.backtrack choice here.offset))
      rw [← further]
      dsimp only [shiftEnd, Verdict.shift]
      split <;> rfl
    | stopped fault => rfl

theorem greedily_shift (shifts : Visit.Shifts d visit) (id : NodeId) (rounds : Nat) (earlier : List Ref) (here : Cursor)
    (p : Progress (List Event)) :
    greedily visit id rounds earlier (here.shift d) (p.shift d) =
      shiftEnd d (greedily visit id rounds earlier here p) := by
  induction rounds generalizing earlier here p with
  | zero => rfl
  | succ rounds ih =>
    unfold greedily
    rw [shifts]
    generalize visit id here p = first
    obtain ⟨verdict, p⟩ := first
    cases verdict with
    | matched ended =>
      obtain ⟨r, next⟩ := ended
      have still : (next.shift d).offset = (here.shift d).offset ↔ next.offset = here.offset :=
        Nat.add_right_cancel_iff
      dsimp only [shiftEnd, Verdict.shift]
      simp only [still]
      split
      · rfl
      · exact ih (r :: earlier) next p
    | failed => rfl
    | stopped fault => rfl

theorem standing_shift (g : Grammar) (id : NodeId) (here : Cursor) (attempts : Attempts (List Event)) :
    standing g id (here.shift d) (shiftEnd d attempts) = shiftEnd d (standing g id here attempts) := by
  obtain ⟨verdict, p⟩ := attempts
  match verdict with
  | .matched (rs, stop) => exact interior_shift d here g id p stop rs
  | .failed => rfl
  | .stopped fault => rfl

theorem overSome_shift (g : Grammar) (id : NodeId) (here : Cursor) (attempts : Attempts (List Event)) :
    overSome g id (here.shift d) (shiftEnd d attempts) = shiftEnd d (overSome g id here attempts) := by
  obtain ⟨verdict, p⟩ := attempts
  match verdict with
  | .matched ([], _) => rfl
  | .matched (r :: rs, stop) => exact interior_shift d here g id p stop (r :: rs)
  | .failed => rfl
  | .stopped fault => rfl

theorem overOptional_shift (g : Grammar) (id : NodeId) (here : Cursor) (attempt : Attempt (List Event)) :
    overOptional g id (here.shift d) (shiftEnd d attempt) = shiftEnd d (overOptional g id here attempt) := by
  obtain ⟨verdict, p⟩ := attempt
  match verdict with
  | .matched (r, stop) => exact interior_shift d here g id p stop [r]
  | .failed => exact interior_shift d here g id p here []
  | .stopped fault => rfl

theorem overNegation_shift (g : Grammar) (id : NodeId) (here : Cursor) (size : Nat) (attempt : Attempt (List Event)) :
    overNegation g id (here.shift d) size (shiftEnd d attempt) = shiftEnd d (overNegation g id here size attempt) := by
  obtain ⟨verdict, p⟩ := attempt
  have cut := p.truncate_shift d size
  match verdict with
  | .matched _ => exact congrArg (Prod.mk Verdict.failed) cut
  | .failed =>
    dsimp only [shiftEnd, Verdict.shift, overNegation]
    rw [cut]
    exact interior_shift d here g id (p.truncate size) here []
  | .stopped fault => exact congrArg (Prod.mk (Verdict.stopped (fault.shift d))) cut

/-- An attempt at a node does not depend on where the text stands, if the visits to its children do not. -/
theorem attempt_shift (g : Grammar) {visits : Nat → Visit (List Event)}
    (shifts : ∀ lookahead, Visit.Shifts d (visits lookahead)) (lookahead : Nat) (id : NodeId) (here : Cursor)
    (p : Progress (List Event)) :
    attempt g .log visits lookahead id (here.shift d) (p.shift d) =
      shiftEnd d (attempt g .log visits lookahead id here p) := by
  unfold attempt
  cases g.kind id with
  | literal text =>
    dsimp only
    rw [Cursor.afterText?_shift, terminal_shift]
  | charSet members negated =>
    dsimp only
    rw [Cursor.afterChar?_shift, terminal_shift]
  | charRange low high negated =>
    dsimp only
    rw [Cursor.afterChar?_shift, terminal_shift]
  | endOfInput =>
    dsimp only
    rw [Cursor.atEnd?_shift, terminal_shift]
  | sequence parts =>
    dsimp only
    rw [inSequence_shift (shifts lookahead), standing_shift]
  | choice alternatives => exact firstOf_shift (shifts lookahead) id (g.name id) alternatives here p
  | repetition child =>
    dsimp only
    rw [← overSome_shift, ← greedily_shift (shifts lookahead)]
    rfl
  | optional child =>
    dsimp only
    rw [shifts, overOptional_shift]
  -- What is taken back is counted in nodes, and these are as many.
  | negation child =>
    have same : (p.shift d).nodes.size = p.nodes.size := p.nodes.size_shift d
    dsimp only
    rw [shifts, same, overNegation_shift]
  | reference rule => rfl

end

/-! ## Visits -/

section

variable {d : Nat}

theorem conclude_shift (id : NodeId) (here : Cursor) (size : Nat) (attempt : Attempt (List Event)) :
    conclude .log id (here.shift d) size (shiftEnd d attempt) = shiftEnd d (conclude .log id here size attempt) := by
  obtain ⟨verdict, p⟩ := attempt
  match verdict with
  | .matched (r, stop) => rfl
  | .failed =>
    dsimp only [shiftEnd, Verdict.shift, conclude]
    rw [p.truncate_shift]
    rfl
  | .stopped fault => rfl

/-- **A visit does not depend on where the text stands.** -/
theorem visit_shift (g : Grammar) (levels lookahead : Nat) : Visit.Shifts d (visit g .log levels lookahead) := by
  induction levels generalizing lookahead with
  | zero =>
    intro id here p
    unfold visit
    rw [apply_ite (shiftEnd d)]
    rfl
  | succ levels ih =>
    intro id here p
    have same : (p.shift d).nodes.size = p.nodes.size := p.nodes.size_shift d
    have entered : (p.shift d).spend.record .log (.enter id (here.shift d).offset) =
        (p.spend.record .log (.enter id here.offset)).shift d := rfl
    unfold visit
    rw [same, entered, attempt_shift g ih, conclude_shift, apply_ite (shiftEnd d)]
    rfl

end

/-! ## Whole matches -/

/-- The same tree over another source, some bytes further on: the same nodes with the same links, over spans that
are further on, with the same values. -/
structure TreeShifted (d : Nat) (t u : ParseTree) : Prop where
  size : u.size = t.size
  root : u.root = t.root
  span : ∀ r < t.size, u.span r = (t.span r).shift d
  value : ∀ r < t.size, u.value r = t.value r
  name : ∀ r, u.name r = t.name r
  origin : ∀ r, u.origin r = t.origin r
  children : ∀ r, u.children r = t.children r
  parent : ∀ r, u.parent r = t.parent r
  payload : ∀ r, u.payload r = t.payload r

/-- The same end of a match, with all places some bytes further on. -/
inductive OutcomeShifted (d : Nat) : Except Fault Outcome → Except Fault Outcome → Prop
  | found {t u} (tree : TreeShifted d t u) (stop furthest : Nat) :
      OutcomeShifted d (.ok ⟨some ⟨t, stop⟩, furthest⟩) (.ok ⟨some ⟨u, stop + d⟩, furthest + d⟩)
  | failed (furthest : Nat) : OutcomeShifted d (.ok ⟨none, furthest⟩) (.ok ⟨none, furthest + d⟩)
  | stopped (fault : Fault) : OutcomeShifted d (.error fault) (.error (fault.shift d))

theorem treeShifted_behind (before : List Char) (t : ParseTree) :
    TreeShifted (Text.byteLength before) t (t.behind before) := by
  refine ⟨Array.size_map .., rfl, fun r inside => ?_, fun r inside => ?_, t.read_behind before _ fun _ => rfl,
    t.read_behind before _ fun _ => rfl, t.read_behind before _ fun _ => rfl, t.read_behind before _ fun _ => rfl,
    t.read_behind before _ fun _ => rfl⟩
  · rw [ParseTree.span, t.node_behind before inside]
    rfl
  · rw [ParseTree.value, ParseTree.value, ParseTree.span, t.node_behind before inside]
    dsimp only [ParseTree.Node.shift, ParseTree.behind]
    rw [Text.slice_shift]
    rfl

theorem outcome_shift (before after : List Char) (ends : Attempt (List Event)) :
    OutcomeShifted (Text.byteLength before) (outcome after ends)
      (outcome (before ++ after) (shiftEnd (Text.byteLength before) ends)) := by
  obtain ⟨verdict, p⟩ := ends
  match verdict with
  | .matched (r, stop) => exact .found (treeShifted_behind before (p.nodes.finish after r)) stop.offset p.furthest
  | .failed => exact .failed p.furthest
  | .stopped fault => exact .stopped fault

/-- A match from inside a text is a match of what is left, further on. -/
theorem traceAt_shift (g : Grammar) (id : NodeId) (before after : List Char) (limits : Limits) :
    let first := traceAt g id (String.ofList after) 0 limits .log []
    let second := traceAt g id (String.ofList (before ++ after)) (Text.byteLength before) limits .log []
    OutcomeShifted (Text.byteLength before) first.1 second.1 ∧
      second.2 = first.2.map (Event.shift (Text.byteLength before)) := by
  have moved := visit_shift g limits.depth 0 (d := Text.byteLength before) id ⟨0, after⟩ (.start limits 0 [])
  have here : Cursor.shift (Text.byteLength before) ⟨0, after⟩ = ⟨Text.byteLength before, after⟩ :=
    congrArg (Cursor.mk · after) (Nat.zero_add _)
  have start : (Progress.start limits 0 []).shift (Text.byteLength before) =
      .start limits (Text.byteLength before) [] := by
    dsimp only [Progress.shift, Progress.start]
    rw [Nat.zero_add, ParseTree.Builder.shift_empty]
    rfl
  have whole := traceAt_append g id [] after limits .log []
  dsimp only
  rw [traceAt_append, ← here, ← start, moved]
  exact whole ▸ ⟨outcome_shift before after _, rfl⟩

/-- **A match sees only what is left.** From a boundary inside the input a match ends as on the rest of the input
alone, from its start: with the same verdict, and in trees with the same nodes and values, while all ends, spans, and
places of failures and faults are further on by the bytes that are left out. The tracer is told the same events, at
places further on. -/
theorem matchAt_suffix (g : Grammar) (id : NodeId) (input : String) (offset : Nat) (limits : Limits)
    (between : Text.isBoundary input.toList offset = true) :
    let rest := String.ofList (Text.dropBytes offset input.toList)
    OutcomeShifted offset (matchAt g id rest 0 limits) (matchAt g id input offset limits) ∧
      events g id input offset limits = (events g id rest 0 limits).map (Event.shift offset) := by
  obtain ⟨before, after, parts, rfl⟩ := (Text.isBoundary_iff ..).mp between
  obtain ⟨ends, told⟩ := traceAt_shift g id before after limits
  rw [← parts, String.ofList_toList] at ends told
  dsimp only
  rw [parts, Text.dropBytes_byteLength_append, events, events, told, List.map_reverse]
  rw [traceAt_eq_events, traceAt_eq_events] at ends
  exact ⟨ends, rfl⟩

/-- What stands behind an accent of two bytes, and what stands there alone. -/
theorem accents_shifted :
    Text.isBoundary ['x', 'é', 'é', 'ß', 'b'] 3 = true ∧
      (∃ found, matchAt accents 4 (String.ofList ['x', 'é', 'é', 'ß', 'b']) 3 {} = .ok ⟨some found, 7⟩ ∧
        found.stop = 7 ∧ found.tree.span found.tree.root = ⟨3, 7⟩) ∧
      OutcomeShifted 3 (matchAt accents 4 (String.ofList ['é', 'ß', 'b']) 0 {})
        (matchAt accents 4 (String.ofList ['x', 'é', 'é', 'ß', 'b']) 3 {}) := by
  refine ⟨by decide, ⟨_, rfl, rfl, rfl⟩, ?_⟩
  exact (matchAt_suffix accents 4 (String.ofList ['x', 'é', 'é', 'ß', 'b']) 3 {} (by decide)).1

end Match

end BnfTokenizer
