import BnfTokenizer.Proofs.Grammar.Rank
import BnfTokenizer.Proofs.Match.Adequacy

/-!
# Matching from a checked root ends

The rank of a grammar that passed the check says how deep visits can be nested at one place, and a visit
that consumed something has fewer characters left. `need` puts the two together: it falls from a visit to
every visit made inside it (`Called.need_lt`). So it bounds the nesting, and by induction on it every node
comes to a result at every place. The other ways to stop are excluded by what the rank comes with.
-/

namespace BnfTokenizer.Match

open Grammar (Kind Ranked)

variable {σ : Type} {g : Grammar} {tracer : Tracer σ} {id : NodeId} {here : Cursor} {p : Progress σ}

/-! ## Matching nothing -/

mutual

/-- What is derived without consuming anything is nullable. -/
theorem Derives.nullable : ∀ {id here result}, Derives g id here result →
    ∀ found ∈ result, found.2.offset = here.offset → g.Nullable id
  | _, here, _, @Derives.literal _ _ _ _ text kind spans, _, rfl, still => by
    have empty : Text.byteLength text = 0 := by
      have length := spans.2
      dsimp only at still
      omega
    cases text with
    | nil => exact .literal kind
    | cons c cs =>
      have := c.utf8Size_pos
      rw [Text.byteLength] at empty
      omega
  | _, here, _, @Derives.character _ _ _ _ c _ spans, _, rfl, still => by
    have length := spans.2
    have := c.utf8Size_pos
    dsimp only at still
    rw [Text.byteLength, Text.byteLength] at length
    omega
  | _, _, _, .sequence kind all, _, rfl, still => .sequence kind (all.nullable _ rfl still)
  | _, _, _, .choice kind first, _, rfl, still =>
    have ⟨_, mem, one⟩ := first.nullable _ rfl still
    .choice kind mem one
  | _, here, _, .repetition _ (.more _ advances again), _, rfl, still => by
    obtain ⟨_, spans⟩ := again.spans
    exact absurd still (Nat.ne_of_gt (Nat.lt_of_lt_of_le advances spans.offset_le))
  | _, _, _, .optional kind _, _, rfl, _ => .optional kind
  | _, _, _, .optionalSkips kind _, _, rfl, _ => .optional kind
  | _, _, _, .negation kind _, _, rfl, _ => .negation kind
  | _, _, _, .endOfInput kind _, _, rfl, _ => .endOfInput kind

theorem DerivesAll.nullable : ∀ {ids here result}, DerivesAll g ids here result →
    ∀ found ∈ result, found.2.offset = here.offset → ∀ id ∈ ids, g.Nullable id
  | _, _, _, .nil, _, rfl, _ => nofun
  | _, here, _, .cons head tail, _, rfl, still => by
    obtain ⟨_, first⟩ := head.spans _ rfl
    obtain ⟨_, second⟩ := tail.spans _ rfl
    have before := first.offset_le
    have after := second.offset_le
    dsimp only at before after still
    exact List.forall_mem_cons.mpr ⟨head.nullable _ rfl (by dsimp only; omega),
      tail.nullable _ rfl (by dsimp only; omega)⟩

theorem DerivesFirst.nullable : ∀ {ids here result}, DerivesFirst g ids here result →
    ∀ found ∈ result, found.2.offset = here.offset → ∃ id ∈ ids, g.Nullable id
  | _, _, _, .here head, _, rfl, still => ⟨_, List.mem_cons_self, head.nullable _ rfl still⟩
  | _, _, _, .later _ tail, _, mem, still =>
    have ⟨id, listed, one⟩ := tail.nullable _ mem still
    ⟨id, List.mem_cons_of_mem _ listed, one⟩

end

theorem Derives.marked {root : NodeId} {stop : Cursor} {tree : DerivedTree} (reached : id ∈ g.reachable root)
    (derives : Derives g id here (some (tree, stop))) (still : stop.offset = here.offset) :
    (g.nullable (g.reachable root))[id]? = some true := by
  have marked : Grammar.Marked (g.nullable (g.reachable root)) id :=
    (Grammar.nullable_iff (fun _ => Grammar.lt_size_of_mem_reachable)
      (fun _ mem _ => Grammar.mem_reachable_of_edge_of_lt mem) reached).mpr (derives.nullable _ rfl still)
  rw [Grammar.Marked, Array.getD_eq_getD_getElem?] at marked
  cases found : (g.nullable (g.reachable root))[id]? with
  | none =>
    rw [found] at marked
    cases marked
  | some mark =>
    rw [found] at marked
    exact congrArg some marked

/-- **What matches nothing is marked as nullable.** Whenever a node that a root reaches matches without consuming
anything, in a visit inside any run or as a match of its own, the marks for what the root reaches say so. -/
theorem nullable_of_still (g : Grammar) (root id : NodeId) (reached : id ∈ g.reachable root) :
    (∀ {σ : Type} (tracer : Tracer σ) (levels lookahead : Nat) (here stop : Cursor) (p q : Progress σ)
        (r : ParseTree.Ref), visit g tracer levels lookahead id here p = (.matched (r, stop), q) →
      stop.offset = here.offset → (g.nullable (g.reachable root))[id]? = some true) ∧
    ∀ {σ : Type} (tracer : Tracer σ) (gathered : σ) (input : String) (position : Nat) (limits : Limits)
        (found : Found) (furthest : Nat),
      (traceAt g id input position limits tracer gathered).1 = .ok ⟨some found, furthest⟩ → found.stop = position →
        (g.nullable (g.reachable root))[id]? = some true := by
  constructor
  · intro σ tracer levels lookahead here stop p q r ends still
    have faithful := (visit_faithful g tracer levels lookahead id here p).1
    rw [ends] at faithful
    obtain ⟨_, derives, _⟩ := faithful
    exact derives.marked reached still
  · intro σ tracer gathered input position limits found furthest ends still
    obtain ⟨before, after, rfl, rfl⟩ := parted_of_traceAt ends
    obtain ⟨_, _, derives, _, _, _, last⟩ := laid_of_traceAt ends
    exact derives.marked reached (last.symm.trans still)

/-- A list that may be empty and that would call itself behind a comma, with a check in front. -/
def checkedList : Grammar :=
  ⟨#[⟨some "list", .sequence [1, 4]⟩, ⟨none, .optional 2⟩, ⟨none, .sequence [3, 0]⟩, ⟨none, .literal [',']⟩,
    ⟨none, .negation 3⟩]⟩

/-- In front of another character an empty list is matched, and the list is marked. -/
theorem checkedList_nullable :
    0 ∈ checkedList.reachable 2 ∧
      (∃ found, (traceAt checkedList 0 "ab" 1 {} .silent ()).1 = .ok ⟨some found, 1⟩ ∧ found.stop = 1) ∧
      (checkedList.nullable (checkedList.reachable 2))[0]? = some true ∧
      (checkedList.nullable (checkedList.reachable 2))[2]? = some false := by
  have reached : 0 ∈ checkedList.reachable 2 := by decide +kernel
  have ends : ∃ found, (traceAt checkedList 0 "ab" 1 {} .silent ()).1 = .ok ⟨some found, 1⟩ ∧ found.stop = 1 :=
    ⟨_, rfl, rfl⟩
  obtain ⟨found, same, still⟩ := ends
  exact ⟨reached, ⟨found, same, still⟩,
    (nullable_of_still checkedList 2 0 reached).2 .silent () "ab" 1 {} found 1 same still, by decide +kernel⟩

/-! ## Visits inside a visit -/

/-- While `id` is visited at `here`, `child` may be visited at `next`. -/
structure Called (g : Grammar) (id : NodeId) (here : Cursor) (child : NodeId) (next : Cursor) : Prop where
  edge : g.Edge id child
  spans : ∃ text, here.Spans text next
  enters : next.offset = here.offset → g.Enters id child

theorem Called.only {child : NodeId} {next : Cursor} (enters : g.Enters id child)
    (spans : ∃ text, here.Spans text next) : Called g id here child next :=
  ⟨enters.edge, spans, fun _ => enters⟩

/-- Where a sequence stands behind some of its parts. If nothing is taken so far, these are nullable. -/
structure Behind (g : Grammar) (here : Cursor) (before : List NodeId) (next : Cursor) : Prop where
  spans : ∃ text, here.Spans text next
  skipped : next.offset = here.offset → ∀ id ∈ before, g.Nullable id

theorem Behind.start : Behind g here [] here :=
  ⟨⟨[], .refl _⟩, fun _ => nofun⟩

/-- The next part is called from there. -/
theorem Behind.called {before parts : List NodeId} {child : NodeId} {next : Cursor} (behind : Behind g here before next)
    (kind : g.kind id = .sequence (before ++ child :: parts)) : Called g id here child next := by
  refine ⟨?_, behind.spans, fun still => .part kind (behind.skipped still)⟩
  rw [Grammar.Edge, Grammar.children, kind]
  exact List.mem_append_right _ List.mem_cons_self

/-- One part more is behind. If still nothing is taken, that part was empty as well. -/
theorem Behind.part {before : List NodeId} {child : NodeId} {next further : Cursor} {tree : DerivedTree}
    (behind : Behind g here before next) (derives : Derives g child next (some (tree, further))) :
    Behind g here (before ++ [child]) further := by
  obtain ⟨_, first⟩ := behind.spans
  obtain ⟨_, second⟩ := derives.spans _ rfl
  refine ⟨⟨_, first.trans second⟩, fun still => ?_⟩
  have lower := first.offset_le
  have upper := second.offset_le
  dsimp only at upper
  have earlier := behind.skipped (by omega)
  have own := derives.nullable _ rfl (by dsimp only; omega)
  exact List.forall_mem_append.mpr ⟨earlier, List.forall_mem_singleton.mpr own⟩

/-- How many visits can be open from a visit on, itself counted. -/
def need (rank : NodeId → Nat) (ids : List NodeId) (id : NodeId) (here : Cursor) : Nat :=
  rank id + ids.length * Text.byteLength here.rest

theorem Called.need_lt {rank : NodeId → Nat} {ids : List NodeId} (ranked : Ranked g ids rank)
    (mem : id ∈ ids) {child : NodeId} {next : Cursor} (under : child ∈ ids)
    (called : Called g id here child next) : need rank ids child next < need rank ids id here := by
  obtain ⟨text, rest, offset⟩ := called.spans
  have length : Text.byteLength here.rest = Text.byteLength text + Text.byteLength next.rest := by
    rw [rest, Text.byteLength_append]
  unfold need
  by_cases still : next.offset = here.offset
  · have same : Text.byteLength next.rest = Text.byteLength here.rest := by omega
    rw [same]
    exact Nat.add_lt_add_right (ranked.falls id mem child (called.enters still)) _
  · have shorter : Text.byteLength next.rest + 1 ≤ Text.byteLength here.rest := by omega
    calc rank child + ids.length * Text.byteLength next.rest
        ≤ ids.length + ids.length * Text.byteLength next.rest :=
          Nat.add_le_add_right (ranked.bounded child under).2 _
      _ = ids.length * (Text.byteLength next.rest + 1) := by rw [Nat.mul_succ, Nat.add_comm]
      _ ≤ ids.length * Text.byteLength here.rest := Nat.mul_le_mul_left _ shorter
      _ < rank id + ids.length * Text.byteLength here.rest :=
          Nat.lt_add_of_pos_left (ranked.bounded id mem).1

/-! ## What all visits keep -/

def Verdict.fault? {α : Type} : Verdict α → Option Fault
  | stopped fault => some fault
  | _ => none

/-- `keeps` holds between what was gathered before some visits and after them, and how they ended. -/
def Keeps {α : Type} (keeps : σ → Option Fault → σ → Prop) (p : Progress σ)
    (a : Verdict α × Progress σ) : Prop :=
  keeps p.trace a.1.fault? a.2.trace

/-- What holds of no visit and of one visit after another, and lets a choice go on and fuel run out. -/
structure Composes (tracer : Tracer σ) (keeps : σ → Option Fault → σ → Prop) : Prop where
  refl : ∀ a, keeps a none a
  trans : ∀ a b fault c, keeps a none b → keeps b fault c → keeps a fault c
  backtrack : ∀ choice position a, keeps a none (tracer (.backtrack choice position) a)
  exhausted : ∀ a, keeps a (some .fuelExhausted) a

section

variable {keeps : σ → Option Fault → σ → Prop} {visit : Visit σ}

theorem terminal_keeps (composes : Composes tracer keeps) (lookahead : Nat) (stop? : Option Cursor) :
    Keeps keeps p (p.terminal g id lookahead here stop?) := by
  unfold Progress.terminal
  split
  · exact composes.refl _
  · unfold Progress.miss
    split <;> exact composes.refl _

theorem inSequence_keeps (composes : Composes tracer keeps) (faithful : visit.Faithful g)
    (below : ∀ child next q, Called g id here child next → Keeps keeps q (visit child next q))
    (before parts : List NodeId) (kind : g.kind id = .sequence (before ++ parts)) (next : Cursor)
    (behind : Behind g here before next) :
    Keeps keeps p (inSequence visit parts next p) := by
  induction parts generalizing before next p with
  | nil => exact composes.refl _
  | cons child parts ih =>
    have head := below child next p (behind.called kind)
    have own := (faithful child next p).1
    unfold inSequence
    split
    · next r further q step =>
      rw [step] at head own
      obtain ⟨tree, derives, _⟩ := own
      have tail := ih (p := q) (before ++ [child]) (by rw [kind, List.append_assoc]; rfl) further
        (behind.part derives)
      have both := composes.trans _ _ _ _ head tail
      unfold Keeps
      split <;> (next last => rw [last] at both; exact both)
    · next q step =>
      rw [step] at head
      exact head
    · next fault q step =>
      rw [step] at head
      exact head

theorem firstOf_keeps (composes : Composes tracer keeps)
    (alternatives : List NodeId) (choice : NodeId) (name : Option String)
    (below : ∀ child ∈ alternatives, ∀ q, Keeps keeps q (visit child here q)) :
    Keeps keeps p (firstOf visit tracer choice name alternatives here p) := by
  induction alternatives generalizing p with
  | nil => exact composes.refl _
  | cons child alternatives ih =>
    have head := below child List.mem_cons_self p
    unfold firstOf
    split
    · next step =>
      rw [step] at head
      exact head
    · next q step =>
      rw [step] at head
      refine composes.trans _ _ _ _ head ?_
      have rest := fun q => ih (p := q) fun other mem => below other (List.mem_cons_of_mem _ mem)
      split
      · exact rest q
      · exact composes.trans _ _ _ _ (composes.backtrack choice here.offset q.trace)
          (rest (q.record tracer (.backtrack choice here.offset)))
    · next step =>
      rw [step] at head
      exact head

theorem greedily_keeps (composes : Composes tracer keeps) (faithful : visit.Faithful g) {child : NodeId}
    (advancing : ¬ g.Nullable child)
    (below : ∀ next q, (∃ text, here.Spans text next) → Keeps keeps q (visit child next q))
    (rounds : Nat) (earlier : List ParseTree.Ref) (next : Cursor) (spans : ∃ text, here.Spans text next) :
    Keeps keeps p (greedily visit child rounds earlier next p) := by
  induction rounds generalizing earlier next p with
  | zero => exact composes.exhausted _
  | succ rounds ih =>
    have head := below next p spans
    have own := (faithful child next p).1
    unfold greedily
    split
    · next r further q step =>
      rw [step] at head own
      obtain ⟨tree, derives, _⟩ := own
      split
      · next still => exact absurd (derives.nullable _ rfl still) advancing
      · obtain ⟨_, first⟩ := spans
        obtain ⟨_, second⟩ := derives.spans _ rfl
        exact composes.trans _ _ _ _ head (ih (r :: earlier) further ⟨_, first.trans second⟩)
    · next step =>
      rw [step] at head
      exact head
    · next step =>
      rw [step] at head
      exact head

/-- **What every visit of a child keeps, an attempt at the node keeps**, if it is no placeholder and
repeats nothing nullable. -/
theorem attempt_keeps {visit : Nat → Visit σ} (composes : Composes tracer keeps)
    (faithful : ∀ lookahead, (visit lookahead).Faithful g)
    (linked : ∀ rule, g.kind id ≠ .reference rule)
    (advancing : ∀ child, g.kind id = .repetition child → ¬ g.Nullable child)
    (below : ∀ lookahead child next q, Called g id here child next →
      Keeps keeps q (visit lookahead child next q)) (lookahead : Nat) :
    Keeps keeps p (attempt g tracer visit lookahead id here p) := by
  unfold attempt
  split
  · exact terminal_keeps composes lookahead _
  · next parts kind =>
    have all := inSequence_keeps (p := p) composes (faithful lookahead) (below lookahead) [] parts kind here .start
    unfold standing
    split <;> (next last => rw [last] at all; exact all)
  · next alternatives kind =>
    exact firstOf_keeps composes alternatives id _ fun child mem q =>
      below lookahead child here q (.only (.alternative kind mem) ⟨[], .refl _⟩)
  · next child kind =>
    have more := greedily_keeps (p := p) composes (faithful lookahead) (advancing child kind)
      (fun next q spans => below lookahead child next q (.only (.repetition kind) spans)) p.fuel [] here
      ⟨[], .refl _⟩
    unfold overSome standing
    split
    · next last =>
      rw [last] at more
      exact more
    · split <;> (next last => rw [last] at more; exact more)
  · next child kind =>
    have only := below lookahead child here p (.only (.optional kind) ⟨[], .refl _⟩)
    unfold overOptional
    split <;> (next last => rw [last] at only; exact only)
  · next child kind =>
    have only := below (lookahead + 1) child here p (.only (.negation kind) ⟨[], .refl _⟩)
    unfold overNegation
    split <;> (next last => rw [last] at only; exact only)
  · exact terminal_keeps composes lookahead _
  · next rule kind => exact absurd kind (linked rule)
  · exact terminal_keeps composes lookahead _

end

/-! ## How visits are nested -/

/-- How many visits are open, and how many ever were at once. -/
structure Nesting where
  level : Nat := 0
  deepest : Nat := 0
deriving DecidableEq, Repr

/-- Counts the visits that are open. -/
def Nesting.count : Tracer Nesting
  | .enter .., nesting => ⟨nesting.level + 1, max nesting.deepest (nesting.level + 1)⟩
  | .success .., nesting | .failure .., nesting => ⟨nesting.level - 1, nesting.deepest⟩
  | .backtrack .., nesting => nesting

/-- All visits were closed again unless they were stopped, and no more than `most` were open at once. -/
def Nesting.Within (most : Nat) (before : Nesting) (fault? : Option Fault) (after : Nesting) : Prop :=
  (fault? = none → after.level = before.level) ∧ after.deepest ≤ max before.deepest (before.level + most)

theorem Nesting.within_composes (most : Nat) : Composes Nesting.count (Nesting.Within most) where
  refl a := ⟨fun _ => rfl, Nat.le_max_left ..⟩
  trans a b fault? c first second := by
    have same := first.1 rfl
    refine ⟨fun closed => (second.1 closed).trans same, ?_⟩
    have lower := first.2
    have upper := second.2
    rw [same] at upper
    omega
  backtrack choice position a := ⟨fun _ => rfl, Nat.le_max_left ..⟩
  exhausted a := ⟨fun _ => rfl, Nat.le_max_left ..⟩

/-- The ways in which visits that need `most` levels may stop where there are `levels`. -/
def Fault.Allowed (levels most : Nat) : Fault → Prop
  | fuelExhausted => True
  | depthExceeded => levels < most
  | _ => False

def Excludes (levels most : Nat) (_ : σ) (fault? : Option Fault) (_ : σ) : Prop :=
  ∀ fault ∈ fault?, fault.Allowed levels most

theorem excludes_composes (tracer : Tracer σ) (levels most : Nat) :
    Composes tracer (Excludes levels most) where
  refl _ := nofun
  trans _ _ _ _ _ second := second
  backtrack _ _ _ := nofun
  exhausted _ := by
    rintro _ ⟨⟩
    trivial

/-! ## Visits from a checked root -/

section

variable {rank : NodeId → Nat} {ids : List NodeId}

/-- What every visit below needs is less than what the node needs. -/
theorem need_le_of_called (ranked : Ranked g ids rank)
    (descends : ∀ a ∈ ids, ∀ b, g.Edge a b → b ∈ ids) (mem : id ∈ ids) {child : NodeId} {next : Cursor}
    (called : Called g id here child next) :
    child ∈ ids ∧ need rank ids child next + 1 ≤ need rank ids id here :=
  have under := descends id mem child called.edge
  ⟨under, called.need_lt ranked mem under⟩

/-- A visit is stopped by a limit only, and by the limit of levels only where there are fewer than it
needs. -/
theorem visit_excludes (ranked : Ranked g ids rank) (descends : ∀ a ∈ ids, ∀ b, g.Edge a b → b ∈ ids)
    (tracer : Tracer σ) (levels lookahead : Nat) (mem : id ∈ ids) (here : Cursor) (p : Progress σ) :
    Keeps (Excludes levels (need rank ids id here)) p (visit g tracer levels lookahead id here p) := by
  induction levels generalizing lookahead id here p with
  | zero =>
    unfold visit
    split
    · rintro _ ⟨⟩
      trivial
    · rintro _ ⟨⟩
      exact Nat.lt_of_lt_of_le (ranked.bounded id mem).1 (Nat.le_add_right ..)
  | succ levels ih =>
    unfold visit
    split
    · rintro _ ⟨⟩
      trivial
    · have own := attempt_keeps (p := p.spend.record tracer (.enter id here.offset))
        (excludes_composes tracer (levels + 1) (need rank ids id here))
        (visit_faithful g tracer levels) (ranked.linked id mem) (ranked.advancing id mem)
        (fun lookahead child next q called => by
          obtain ⟨under, less⟩ := need_le_of_called ranked descends mem called
          intro fault stops
          -- One level down the call needs one level less.
          have allowed := ih lookahead under next q fault stops
          cases fault with
          | fuelExhausted => trivial
          | depthExceeded => exact Nat.lt_of_lt_of_le (Nat.succ_lt_succ allowed) less
          | unresolvedReference => exact allowed
          | idleRepetition => exact allowed)
        lookahead
      unfold conclude
      split
      · rintro _ ⟨⟩
      · rintro _ ⟨⟩
      · next step =>
        rw [step] at own
        exact own

/-- No more visits are open at once than a visit needs. -/
theorem visit_within (ranked : Ranked g ids rank) (descends : ∀ a ∈ ids, ∀ b, g.Edge a b → b ∈ ids)
    (levels lookahead : Nat) (mem : id ∈ ids) (here : Cursor) (p : Progress Nesting) :
    Keeps (Nesting.Within (need rank ids id here)) p
      (visit g Nesting.count levels lookahead id here p) := by
  induction levels generalizing lookahead id here p with
  | zero =>
    unfold visit
    split <;> exact ⟨fun closed => absurd closed (Option.some_ne_none _), Nat.le_max_left ..⟩
  | succ levels ih =>
    have positive : 0 < need rank ids id here :=
      Nat.lt_of_lt_of_le (ranked.bounded id mem).1 (Nat.le_add_right ..)
    unfold visit
    split
    · exact ⟨fun closed => absurd closed (Option.some_ne_none _), Nat.le_max_left ..⟩
    · have own := attempt_keeps (p := p.spend.record Nesting.count (.enter id here.offset))
        (Nesting.within_composes (need rank ids id here - 1))
        (visit_faithful g Nesting.count levels) (ranked.linked id mem) (ranked.advancing id mem)
        (fun lookahead child next q (called : Called g id here child next) => by
          obtain ⟨under, less⟩ := need_le_of_called ranked descends mem called
          obtain ⟨closed, deepest⟩ := ih lookahead under next q
          exact ⟨closed, by omega⟩)
        lookahead
      obtain ⟨closed, deepest⟩ := own
      have deepest' : ∀ last : Nesting,
          last.deepest ≤ max (max p.trace.deepest (p.trace.level + 1))
            (p.trace.level + 1 + (need rank ids id here - 1)) →
          last.deepest ≤ max p.trace.deepest (p.trace.level + need rank ids id here) := by
        intro last
        omega
      unfold conclude
      split
      · next step =>
        rw [step] at closed deepest
        refine ⟨fun _ => ?_, deepest' _ deepest⟩
        exact (congrArg (· - 1) (closed rfl)).trans (Nat.add_sub_cancel ..)
      · next step =>
        rw [step] at closed deepest
        refine ⟨fun _ => ?_, deepest' _ deepest⟩
        exact (congrArg (· - 1) (closed rfl)).trans (Nat.add_sub_cancel ..)
      · next step =>
        rw [step] at deepest
        exact ⟨fun closed => absurd closed (Option.some_ne_none _), deepest' _ deepest⟩

/-! ## Every node comes to a result -/

theorem derivesAll_total (parts : List NodeId) (before : List NodeId)
    (kind : g.kind id = .sequence (before ++ parts)) (next : Cursor)
    (below : ∀ child next, Called g id here child next → ∃ result, Derives g child next result)
    (behind : Behind g here before next) :
    ∃ result, DerivesAll g parts next result := by
  induction parts generalizing before next with
  | nil => exact ⟨_, .nil⟩
  | cons child parts ih =>
    obtain ⟨result, derives⟩ := below child next (behind.called kind)
    cases result with
    | none => exact ⟨none, .headFails derives⟩
    | some found =>
      obtain ⟨tree, further⟩ := found
      obtain ⟨rest, all⟩ := ih (before ++ [child]) (by rw [kind, List.append_assoc]; rfl) further
        (behind.part derives)
      cases rest with
      | none => exact ⟨none, .tailFails derives all⟩
      | some rest => exact ⟨_, .cons derives all⟩

theorem derivesFirst_total {alternatives : List NodeId}
    (below : ∀ child ∈ alternatives, ∃ result, Derives g child here result) :
    ∃ result, DerivesFirst g alternatives here result := by
  induction alternatives with
  | nil => exact ⟨none, .nil⟩
  | cons child alternatives ih =>
    obtain ⟨head, tail⟩ := List.forall_mem_cons.mp below
    obtain ⟨result, derives⟩ := head
    match result, derives with
    | some _, derives => exact ⟨_, .here derives⟩
    | none, fails =>
      obtain ⟨result, first⟩ := ih tail
      exact ⟨result, .later fails first⟩

/-- A repetition that advances comes to an end, since less is left after every round. -/
theorem derivesMore_total {child : NodeId} (advancing : ¬ g.Nullable child) (left : Nat)
    (next : Cursor) (enough : Text.byteLength next.rest < left) (spans : ∃ text, here.Spans text next)
    (below : ∀ next, (∃ text, here.Spans text next) → ∃ result, Derives g child next result) :
    ∃ trees stop, DerivesMore g child next trees stop := by
  induction left generalizing next with
  | zero => cases enough
  | succ left ih =>
    obtain ⟨result, derives⟩ := below next spans
    match result, derives with
    | none, fails => exact ⟨[], next, .stop fails⟩
    | some (tree, further), derives =>
      obtain ⟨_, first⟩ := spans
      obtain ⟨text, second⟩ := derives.spans _ rfl
      have advances : next.offset < further.offset :=
        Nat.lt_of_le_of_ne second.offset_le fun still =>
          advancing (derives.nullable _ rfl still.symm)
      have shorter : Text.byteLength further.rest < left := by
        have length := second.2
        rw [second.1, Text.byteLength_append] at enough
        dsimp only at length enough
        omega
      obtain ⟨trees, stop, again⟩ := ih further shorter ⟨_, first.trans second⟩
      exact ⟨tree :: trees, stop, .more derives advances again⟩

theorem derives_of_class (single : (g.kind id).IsClass) : ∃ result, Derives g id here result := by
  cases step : here.afterChar? fun c => (g.kind id).accepts c with
  | some stop =>
    obtain ⟨c, accepted, rest, offset⟩ := (Cursor.afterChar?_eq_some_iff here stop _).mp step
    exact ⟨_, .character ((accepts_iff_takes single c).mp accepted) ⟨rest, offset⟩⟩
  | none =>
    refine ⟨none, .characterFails single fun c first takes => ?_⟩
    have refused := (afterChar?_eq_none_iff here _).mp step c first
    rw [(accepts_iff_takes single c).mpr takes] at refused
    cases refused

/-- **Every node that a checked root reaches comes to a result at every place.** -/
theorem derives_total (ranked : Ranked g ids rank) (descends : ∀ a ∈ ids, ∀ b, g.Edge a b → b ∈ ids)
    (bound : Nat) (mem : id ∈ ids) (here : Cursor) (enough : need rank ids id here < bound) :
    ∃ result, Derives g id here result := by
  induction bound generalizing id here with
  | zero => cases enough
  -- Whatever is called needs less: it has a smaller rank at the same place, or less of the text is left.
  | succ bound ih =>
    have below : ∀ child next, Called g id here child next → ∃ result, Derives g child next result := by
      intro child next called
      obtain ⟨under, less⟩ := need_le_of_called ranked descends mem called
      exact ih under next (by omega)
    cases kind : g.kind id with
    | literal text =>
      by_cases starts : text <+: here.rest
      · obtain ⟨rest, starts⟩ := starts
        have spans : here.Spans text ⟨here.offset + Text.byteLength text, rest⟩ := ⟨starts.symm, rfl⟩
        exact ⟨_, .literal kind spans⟩
      · exact ⟨none, .literalFails kind starts⟩
    | charSet members negated => exact derives_of_class (by rw [kind]; trivial)
    | charRange low high negated => exact derives_of_class (by rw [kind]; trivial)
    | sequence parts =>
      obtain ⟨result, all⟩ :=
        derivesAll_total parts [] kind here below .start
      match result, all with
      | none, fails => exact ⟨none, .sequenceFails kind fails⟩
      | some _, all => exact ⟨_, .sequence kind all⟩
    | choice alternatives =>
      obtain ⟨result, first⟩ := derivesFirst_total fun child listed =>
        below child here (.only (.alternative kind listed) ⟨[], .refl _⟩)
      match result, first with
      | none, fails => exact ⟨none, .choiceFails kind fails⟩
      | some _, first => exact ⟨_, .choice kind first⟩
    | repetition child =>
      obtain ⟨trees, stop, rounds⟩ := derivesMore_total (ranked.advancing id mem child kind)
        (Text.byteLength here.rest + 1) here (Nat.lt_succ_self _) ⟨[], .refl _⟩
        fun next spans => below child next (.only (.repetition kind) spans)
      match trees, rounds with
      | [], .stop never => exact ⟨none, .repetitionFails kind never⟩
      | _ :: _, rounds => exact ⟨_, .repetition kind rounds⟩
    | optional child =>
      obtain ⟨result, derives⟩ := below child here (.only (.optional kind) ⟨[], .refl _⟩)
      match result, derives with
      | none, absent => exact ⟨_, .optionalSkips kind absent⟩
      | some _, present => exact ⟨_, .optional kind present⟩
    | negation child =>
      obtain ⟨result, derives⟩ := below child here (.only (.negation kind) ⟨[], .refl _⟩)
      match result, derives with
      | none, absent => exact ⟨_, .negation kind absent⟩
      | some _, present => exact ⟨none, .negationFails kind present⟩
    | endOfInput =>
      by_cases rest : here.rest = []
      · exact ⟨_, .endOfInput kind rest⟩
      · exact ⟨none, .endOfInputFails kind rest⟩
    | reference rule => exact absurd kind (ranked.linked id mem rule)

end

/-! ## Matches from a checked root -/

/-- How deep matching from a root can nest visits, with so many bytes left. -/
def depthBound (g : Grammar) (root : NodeId) (left : Nat) : Nat :=
  (g.reachable root).length * (left + 1)

theorem need_le_depthBound {rank : NodeId → Nat} {root : NodeId}
    (ranked : Ranked g (g.reachable root) rank) (mem : root ∈ g.reachable root) (here : Cursor) :
    need rank (g.reachable root) root here ≤ depthBound g root (Text.byteLength here.rest) := by
  unfold need depthBound
  rw [Nat.mul_succ, Nat.add_comm]
  exact Nat.add_le_add_left (ranked.bounded root mem).2 _

/-- **Matching from a checked root ends.** Nothing but a limit stops it. Visits are never nested deeper than
the number of nodes times one more than the number of bytes left, so no deeper limit of levels is ever
reached; and with such a limit of levels some limit of visits is enough. -/
theorem matchAt_of_checked (g : Grammar) (closed : g.Closed) (root : NodeId) (inside : root < g.size)
    (checked : g.defect? root = none) (before after : List Char) :
    let run := matchAt g root (String.ofList (before ++ after)) (Text.byteLength before)
    let bound := depthBound g root (Text.byteLength after)
    (∀ limits, (∀ position, run limits ≠ .error (.idleRepetition position)) ∧
      ∀ rule, run limits ≠ .error (.unresolvedReference rule)) ∧
    (∀ limits, (traceAt g root (String.ofList (before ++ after)) (Text.byteLength before) limits
      Nesting.count {}).2.deepest ≤ bound) ∧
    (∀ limits, bound ≤ limits.depth → run limits ≠ .error .depthExceeded) ∧
    ∀ depth, bound ≤ depth → ∃ enough, ∀ fuel, enough ≤ fuel → ∃ final, run ⟨fuel, depth⟩ = .ok final := by
  intro run bound
  obtain ⟨rank, ranked⟩ := (Grammar.defect?_eq_none_iff closed root).mp checked
  have descends : ∀ a ∈ g.reachable root, ∀ b, g.Edge a b → b ∈ g.reachable root :=
    fun _ mem _ => Grammar.mem_reachable_of_edge closed mem
  have mem := Grammar.root_mem_reachable inside
  have needs := need_le_depthBound ranked mem ⟨Text.byteLength before, after⟩
  have stops : ∀ limits fault, run limits = .error fault → fault.Allowed limits.depth bound := by
    intro limits fault ends
    have own := visit_excludes ranked descends .silent limits.depth 0 mem ⟨Text.byteLength before, after⟩
      (.start limits (Text.byteLength before) ())
    rw [show run limits = _ from congrArg Prod.fst (traceAt_append ..)] at ends
    dsimp only at ends
    unfold outcome at ends
    split at ends
    · cases ends
    · cases ends
    · next step =>
      cases ends
      rw [step] at own
      match fault, own fault rfl with
      | .fuelExhausted, _ => trivial
      | .depthExceeded, short => exact Nat.lt_of_lt_of_le short needs
  refine ⟨fun limits => ⟨fun _ ends => stops limits _ ends, fun _ ends => stops limits _ ends⟩, ?_, ?_, ?_⟩
  · intro limits
    have own := visit_within ranked descends limits.depth 0 mem ⟨Text.byteLength before, after⟩
      (.start limits (Text.byteLength before) {})
    rw [traceAt_append]
    refine Nat.le_trans own.2 (Nat.max_le.mpr ⟨Nat.zero_le _, ?_⟩)
    exact Nat.le_trans (Nat.le_of_eq (Nat.zero_add _)) needs
  · intro limits enough ends
    exact Nat.not_lt.mpr enough (stops limits _ ends)
  · intro depth deep
    obtain ⟨result, derives⟩ := derives_total ranked descends _ mem ⟨Text.byteLength before, after⟩
      (Nat.lt_succ_self _)
    obtain ⟨cost, height, settles⟩ := matchAt_of_derives derives
    refine ⟨cost, fun fuel enough => ?_⟩
    obtain ⟨final, ends, _⟩ | ⟨fault, ends, trips⟩ := settles ⟨fuel, depth⟩
    · exact ⟨final, ends⟩
    · match fault, trips, stops _ _ ends with
      | .fuelExhausted, few, _ => exact absurd few (Nat.not_lt.mpr enough)
      | .depthExceeded, _, short => exact absurd short (Nat.not_lt.mpr deep)

/-- Brackets in brackets. -/
def brackets : Grammar :=
  ⟨#[⟨none, .literal ['(']⟩, ⟨none, .literal [')']⟩, ⟨none, .optional 3⟩,
    ⟨some "brackets", .sequence [0, 2, 1]⟩]⟩

/-- Four nodes and four characters: twenty levels are enough. -/
theorem brackets_end :
    (brackets.Closed ∧ 3 < brackets.size ∧ brackets.defect? 3 = none) ∧
      depthBound brackets 3 (Text.byteLength ['(', '(', ')', ')']) = 20 ∧
      ∃ enough, ∀ fuel, enough ≤ fuel → ∃ final,
        matchAt brackets 3 (String.ofList ([] ++ ['(', '(', ')', ')'])) (Text.byteLength []) ⟨fuel, 20⟩ =
          .ok final := by
  have closed : brackets.Closed := by
    unfold Grammar.Closed
    decide
  have inside : 3 < brackets.size := by decide
  have checked : brackets.defect? 3 = none := by rfl
  have bound : depthBound brackets 3 (Text.byteLength ['(', '(', ')', ')']) = 20 := by rfl
  obtain ⟨_, _, _, ends⟩ := matchAt_of_checked brackets closed 3 inside checked [] ['(', '(', ')', ')']
  exact ⟨⟨closed, inside, checked⟩, bound, ends 20 (Nat.le_of_eq bound)⟩

end BnfTokenizer.Match
