import Mathlib.Order.Bounds.Basic
import BnfTokenizer.Proofs.Match.Lockstep
import BnfTokenizer.Proofs.Match.Termination

/-!
# What a tracer can rely on

The events of a match follow its calls. A call that no limit refuses enters its node; then come the events
of the calls that it makes, one call after another; and then the node is left. So the events are `Complete`
brackets where a match is carried to its end, and where it is stopped they break off inside exactly the
calls that are open then (`events_follow_calls`).

The calls are read off `visit` itself: `Call.calls` lists what a call makes, in order, from the same
functions for each kind. What is said of them is said of a match that logs its events, and no tracer
changes a match (`traceAt_eq_events`).
-/

namespace BnfTokenizer.Match

open ParseTree (Ref)

/-- What a match carries that logs its events. -/
abbrev Logged := Progress (List Event)

/-! ## Well-nested events -/

/-- The event of leaving a node that was entered: it failed, or it matched up to a place that is not before
the one where it was entered. -/
inductive Closes (id : NodeId) (position : Nat) : Event → Prop
  | success (stop : Nat) (forward : position ≤ stop) : Closes id position (.success id position stop)
  | failure : Closes id position (.failure id position)

/-- Events in which every node entered is left again, and whatever was entered in between is left before.
A choice goes on to its next alternative only where it is `around` all else that is open, at the place
where it was entered. -/
inductive Complete (g : Grammar) : Option (NodeId × Nat) → List Event → Prop
  | nil {around} : Complete g around []
  | call {around id position inner closing rest} (within : Complete g (some (id, position)) inner)
      (closes : Closes id position closing) (next : Complete g around rest) :
      Complete g around (.enter id position :: (inner ++ closing :: rest))
  | backtrack {choice position alternatives rest} (kind : g.kind choice = .choice alternatives)
      (next : Complete g (some (choice, position)) rest) :
      Complete g (some (choice, position)) (.backtrack choice position :: rest)

/-- Events that break off inside some entries, outermost first. What was entered besides is left again. -/
inductive Broken (g : Grammar) : Option (NodeId × Nat) → List (NodeId × Nat) → List Event → Prop
  | here {around es} (complete : Complete g around es) : Broken g around [] es
  | inside {around id position stack earlier inner} (complete : Complete g around earlier)
      (within : Broken g (some (id, position)) stack inner) :
      Broken g around ((id, position) :: stack) (earlier ++ .enter id position :: inner)

def Event.isEnter : Event → Bool
  | enter .. => true
  | _ => false

/-- The number of nodes entered. -/
def entries (es : List Event) : Nat :=
  es.countP Event.isEnter

/-- The number of entries that were open at once. -/
def deepest (es : List Event) : Nat :=
  (gatherAll Nesting.count {} es).deepest

section

variable {g : Grammar} {around : Option (NodeId × Nat)} {id : NodeId} {position : Nat} {es es' : List Event}
  {closing : Event}

theorem gatherAll_append {σ : Type} (tracer : Tracer σ) (gathered : σ) (es es' : List Event) :
    gatherAll tracer gathered (es ++ es') = gatherAll tracer (gatherAll tracer gathered es) es' :=
  List.foldl_append

theorem Closes.isEnter (closes : Closes id position closing) : closing.isEnter = false := by
  cases closes <;> rfl

theorem Closes.count (closes : Closes id position closing) (n : Nesting) :
    Nesting.count closing n = ⟨n.level - 1, n.deepest⟩ := by
  cases closes <;> rfl

theorem Complete.append (first : Complete g around es) (second : Complete g around es') :
    Complete g around (es ++ es') := by
  induction first with
  | nil => exact second
  | call within closes _ _ ih =>
    rw [List.cons_append, List.append_assoc, List.cons_append]
    exact .call within closes (ih second)
  | backtrack kind _ ih => exact .backtrack kind (ih second)

theorem Broken.after (first : Complete g around es) {stack : List (NodeId × Nat)}
    (second : Broken g around stack es') : Broken g around stack (es ++ es') := by
  cases second with
  | here complete => exact .here (first.append complete)
  | inside complete within =>
    rw [← List.append_assoc]
    exact .inside (first.append complete) within

/-- What breaks off can be completed, by leaving what is open as failed. -/
theorem Broken.completes {stack : List (NodeId × Nat)} (broken : Broken g around stack es) :
    ∃ rest, Complete g around (es ++ rest) := by
  induction broken with
  | here complete => exact ⟨[], by rwa [List.append_nil]⟩
  | @inside around id position stack earlier inner complete _ ih =>
    obtain ⟨rest, within⟩ := ih
    refine ⟨rest ++ [.failure id position], ?_⟩
    have call : Complete g around (.enter id position :: (inner ++ rest ++ .failure id position :: [])) :=
      .call within .failure .nil
    rw [List.append_assoc, List.cons_append, ← List.append_assoc inner]
    exact complete.append call

/-- Complete events leave the level as it was, and how deep they go does not depend on where they begin. -/
theorem Complete.nests (complete : Complete g around es) (n : Nesting) (sound : n.level ≤ n.deepest) :
    gatherAll Nesting.count n es = ⟨n.level, max n.deepest (n.level + deepest es)⟩ := by
  induction complete generalizing n with
  | nil =>
    obtain ⟨level, most⟩ := n
    rw [show max most (level + deepest []) = most from Nat.max_eq_left sound]
    rfl
  | @call around id position inner closing rest _ closes _ within next =>
    have told : ∀ n : Nesting, n.level ≤ n.deepest →
        gatherAll Nesting.count n (.enter id position :: (inner ++ closing :: rest)) =
          ⟨n.level, max (max n.deepest (n.level + 1 + deepest inner)) (n.level + deepest rest)⟩ := by
      intro n sound
      have inside := within ⟨n.level + 1, max n.deepest (n.level + 1)⟩ (Nat.le_max_right ..)
      have outside :=
        next ⟨n.level, max n.deepest (n.level + 1 + deepest inner)⟩ (Nat.le_trans sound (Nat.le_max_left ..))
      have opened : gatherAll Nesting.count n (.enter id position :: (inner ++ closing :: rest)) =
          gatherAll Nesting.count ⟨n.level + 1, max n.deepest (n.level + 1)⟩ (inner ++ closing :: rest) := rfl
      rw [opened, gatherAll_append, inside]
      have closed : Nesting.count closing
          ⟨n.level + 1, max (max n.deepest (n.level + 1)) (n.level + 1 + deepest inner)⟩ =
          ⟨n.level, max n.deepest (n.level + 1 + deepest inner)⟩ := by
        rw [closes.count, Nat.add_sub_cancel, Nat.max_assoc, Nat.max_eq_right (Nat.le_add_right ..)]
      rw [gatherAll, List.foldl_cons, closed]
      exact outside
    have whole : deepest (.enter id position :: (inner ++ closing :: rest)) =
        max (1 + deepest inner) (deepest rest) := by
      rw [deepest, told {} (Nat.le_refl 0)]
      simp only [Nat.zero_add, Nat.zero_max]
    rw [told n sound, whole, ← Nat.add_max_add_left, Nat.max_assoc, Nat.add_assoc]
  | backtrack _ _ ih => exact ih n sound

theorem Complete.deepest_append (first : Complete g around es) {around' : Option (NodeId × Nat)}
    (second : Complete g around' es') : deepest (es ++ es') = max (deepest es) (deepest es') := by
  rw [deepest, gatherAll_append, first.nests {} (Nat.le_refl 0)]
  rw [second.nests _ (Nat.zero_le _)]
  simp only [Nat.zero_add, Nat.zero_max]

theorem Complete.deepest_call (within : Complete g (some (id, position)) es) (closes : Closes id position closing) :
    deepest (.enter id position :: (es ++ [closing])) = deepest es + 1 := by
  have inside := within.nests ⟨1, 1⟩ (Nat.le_refl 1)
  have opened : gatherAll Nesting.count {} (.enter id position :: (es ++ [closing])) =
      gatherAll Nesting.count ⟨1, 1⟩ (es ++ [closing]) := rfl
  rw [deepest, opened, gatherAll_append, inside, gatherAll, List.foldl_cons, closes.count]
  show max 1 (1 + deepest es) = deepest es + 1
  omega

theorem entries_append (es es' : List Event) : entries (es ++ es') = entries es + entries es' :=
  List.countP_append

theorem entries_call (closes : Closes id position closing) :
    entries (.enter id position :: (es ++ [closing])) = entries es + 1 := by
  rw [entries, List.countP_cons_of_pos rfl, List.countP_append, List.countP_cons_of_neg (by rw [closes.isEnter]; nofun)]
  rfl

end

/-! ## Calls -/

/-- A visit that is asked for. -/
structure Call where
  levels : Nat
  lookahead : Nat
  id : NodeId
  here : Cursor
  before : Logged

namespace Call

/-- How a call ends. -/
def ended (g : Grammar) (c : Call) : Attempt (List Event) :=
  visit g .log c.levels c.lookahead c.id c.here c.before

/-- No limit refuses the call. -/
def Entered (c : Call) : Prop :=
  c.before.fuel ≠ 0 ∧ c.levels ≠ 0

def Stops (g : Grammar) (c : Call) : Prop :=
  (c.ended g).1.fault? ≠ none

/-- What is entered, and where. -/
def place (c : Call) : NodeId × Nat :=
  (c.id, c.here.offset)

end Call

section

variable (g : Grammar) (levels lookahead : Nat)

/-- The calls for all of some nodes. -/
def sequenceCalls : List NodeId → Cursor → Logged → List Call
  | [], _, _ => []
  | id :: ids, here, p =>
    ⟨levels, lookahead, id, here, p⟩ ::
      match visit g .log levels lookahead id here p with
      | (.matched (_, next), q) => sequenceCalls ids next q
      | _ => []

/-- The calls for the alternatives of a choice. -/
def choiceCalls (choice : NodeId) : List NodeId → Cursor → Logged → List Call
  | [], _, _ => []
  | id :: ids, here, p =>
    ⟨levels, lookahead, id, here, p⟩ ::
      match visit g .log levels lookahead id here p with
      | (.failed, q) =>
        choiceCalls choice ids here <| if ids.isEmpty then q else q.record .log (.backtrack choice here.offset)
      | _ => []

/-- The calls for the rounds of a repetition. -/
def repetitionCalls (id : NodeId) : Nat → Cursor → Logged → List Call
  | 0, _, _ => []
  | rounds + 1, here, p =>
    ⟨levels, lookahead, id, here, p⟩ ::
      match visit g .log levels lookahead id here p with
      | (.matched (_, next), q) => if next.offset = here.offset then [] else repetitionCalls id rounds next q
      | _ => []

/-- The calls that an attempt at a node makes. -/
def attemptCalls (id : NodeId) (here : Cursor) (p : Logged) : List Call :=
  match g.kind id with
  | .sequence parts => sequenceCalls g levels lookahead parts here p
  | .choice alternatives => choiceCalls g levels lookahead id alternatives here p
  | .repetition child => repetitionCalls g levels lookahead child p.fuel here p
  | .optional child => [⟨levels, lookahead, child, here, p⟩]
  | .negation child => [⟨levels, lookahead + 1, child, here, p⟩]
  | _ => []

end

/-- The calls that an entered call makes itself, in order. -/
def Call.calls (g : Grammar) (c : Call) : List Call :=
  attemptCalls g (c.levels - 1) c.lookahead c.id c.here (c.before.spend.record .log (.enter c.id c.here.offset))

/-- Calls that are open at once while some calls are made: one of these, one that it makes, and so on. -/
inductive Open (g : Grammar) : List Call → List Call → Prop
  | none {calls} : Open g calls []
  | call {calls c cs} (made : c ∈ calls) (entered : c.Entered) (below : Open g (c.calls g) cs) :
      Open g calls (c :: cs)

/-- The calls that are open where calls were stopped: always the one that was stopped itself, until none is
left that had been entered. -/
inductive OpenAtStop (g : Grammar) : List Call → List Call → Prop
  | raised {calls} (last : ∀ c ∈ calls, c.Stops g → ¬ c.Entered) : OpenAtStop g calls []
  | call {calls c cs} (made : c ∈ calls) (entered : c.Entered) (stops : c.Stops g)
      (below : OpenAtStop g (c.calls g) cs) : OpenAtStop g calls (c :: cs)

/-- How many calls are open at once while some calls are made. -/
def depths (g : Grammar) (calls : List Call) : Set Nat :=
  {n | ∃ cs, Open g calls cs ∧ cs.length = n}

section

variable {g : Grammar} {c : Call} {calls cs : List Call}

theorem depths_nil : depths g [] = {0} := by
  ext n
  constructor
  · rintro ⟨cs, opened, rfl⟩
    cases opened with
    | none => rfl
    | call made => cases made
  · rintro rfl
    exact ⟨[], .none, rfl⟩

theorem depths_cons (c : Call) (calls : List Call) : depths g (c :: calls) = depths g [c] ∪ depths g calls := by
  ext n
  constructor
  · rintro ⟨cs, opened, rfl⟩
    cases opened with
    | none => exact .inl ⟨[], .none, rfl⟩
    | call made entered below =>
      rcases List.mem_cons.mp made with rfl | made
      · exact .inl ⟨_, .call (List.mem_singleton_self _) entered below, rfl⟩
      · exact .inr ⟨_, .call made entered below, rfl⟩
  · rintro (⟨cs, opened, rfl⟩ | ⟨cs, opened, rfl⟩)
    · cases opened with
      | none => exact ⟨[], .none, rfl⟩
      | call made entered below =>
        obtain rfl := List.mem_singleton.mp made
        exact ⟨_, .call List.mem_cons_self entered below, rfl⟩
    · cases opened with
      | none => exact ⟨[], .none, rfl⟩
      | call made entered below => exact ⟨_, .call (List.mem_cons_of_mem _ made) entered below, rfl⟩

/-- A call is open itself, around those that it makes. -/
theorem isGreatest_depths_call (entered : c.Entered) {n : Nat} (below : IsGreatest (depths g (c.calls g)) n) :
    IsGreatest (depths g [c]) (n + 1) := by
  obtain ⟨⟨cs, opened, rfl⟩, most⟩ := below
  refine ⟨⟨c :: cs, .call (List.mem_singleton_self c) entered opened, rfl⟩, ?_⟩
  rintro _ ⟨cs', opened', rfl⟩
  cases opened' with
  | none => exact Nat.zero_le _
  | call made _ below =>
    obtain rfl := List.mem_singleton.mp made
    exact Nat.succ_le_succ (most ⟨_, below, rfl⟩)

end

/-! ## What is told of some calls -/

/-- What is told while some calls are made, from progress `p` to progress `q`. -/
def Told (g : Grammar) (around : Option (NodeId × Nat)) (calls : List Call) (p : Logged) (fault? : Option Fault)
    (q : Logged) : Prop :=
  ∃ es, q.trace = es.reverse ++ p.trace ∧
    match fault? with
    | none => p.fuel = q.fuel + entries es ∧ Complete g around es ∧ IsGreatest (depths g calls) (deepest es)
    | some _ => ∃ cs, OpenAtStop g calls cs ∧ Broken g around (cs.map Call.place) es

section

variable {σ : Type} {g : Grammar} {around : Option (NodeId × Nat)} {levels lookahead : Nat} {id : NodeId}
  {here : Cursor} {p q r : Logged} {c : Call} {calls : List Call} {fault? : Option Fault}

theorem told_nothing (fuel : q.fuel = p.fuel) (trace : q.trace = p.trace) : Told g around [] p none q :=
  ⟨[], trace, fuel.symm, .nil, by rw [depths_nil]; exact isGreatest_singleton⟩

theorem told_raised (fault : Fault) (trace : q.trace = p.trace) : Told g around [] p (some fault) q :=
  ⟨[], trace, [], .raised nofun, .here .nil⟩

/-- One call, and then others. -/
theorem Told.cons (head : Told g around [c] p none q) (carried : ¬ c.Stops g) (tail : Told g around calls q fault? r) :
    Told g around (c :: calls) p fault? r := by
  obtain ⟨es, trace, fuel, complete, deep⟩ := head
  obtain ⟨es', trace', more⟩ := tail
  refine ⟨es ++ es', by rw [trace', trace, List.reverse_append, List.append_assoc], ?_⟩
  cases fault? with
  | none =>
    obtain ⟨fuel', complete', deep'⟩ := more
    refine ⟨by rw [fuel, fuel', entries_append]; omega, complete.append complete', ?_⟩
    rw [depths_cons, complete.deepest_append complete']
    exact deep.union deep'
  | some fault =>
    obtain ⟨cs, opened, broken⟩ := more
    refine ⟨cs, ?_, broken.after complete⟩
    cases opened with
    | raised last =>
      refine .raised fun c' made stops => ?_
      rcases List.mem_cons.mp made with rfl | made
      · exact absurd stops carried
      · exact last c' made stops
    | call made entered stops below => exact .call (List.mem_cons_of_mem _ made) entered stops below

theorem carried_of_step {verdict : Verdict (Ref × Cursor)}
    (step : visit g .log levels lookahead id here p = (verdict, q)) (carried : verdict.fault? = none) :
    ¬ (⟨levels, lookahead, id, here, p⟩ : Call).Stops g := by
  unfold Call.Stops Call.ended
  rw [step]
  exact absurd carried

/-- A choice goes on. -/
theorem Told.backtrack {choice : NodeId} {position : Nat} {alternatives : List NodeId}
    (kind : g.kind choice = .choice alternatives) 
    (told : Told g (some (choice, position)) calls (q.record .log (.backtrack choice position)) fault? r) :
    Told g (some (choice, position)) calls q fault? r := by
  obtain ⟨es, trace, more⟩ := told
  refine ⟨.backtrack choice position :: es, ?_, ?_⟩
  · rw [trace, List.reverse_cons, List.append_assoc]
    rfl
  · cases fault? with
    | none =>
      obtain ⟨fuel, complete, deep⟩ := more
      exact ⟨fuel, .backtrack kind complete, deep⟩
    | some fault =>
      obtain ⟨cs, opened, broken⟩ := more
      exact ⟨cs, opened, broken.after (.backtrack kind .nil)⟩

theorem terminal_told (lookahead : Nat) (stop? : Option Cursor) :
    Told g around [] p (p.terminal g id lookahead here stop?).1.fault? (p.terminal g id lookahead here stop?).2 := by
  cases stop? with
  | some stop => exact told_nothing rfl rfl
  | none =>
    dsimp only [Progress.terminal, Progress.miss]
    split <;> exact told_nothing rfl rfl

section

variable (each : ∀ lookahead id here p around, Told g around [⟨levels, lookahead, id, here, p⟩] p
  (visit g .log levels lookahead id here p).1.fault? (visit g .log levels lookahead id here p).2)

include each

theorem inSequence_told (lookahead : Nat) (around : Option (NodeId × Nat)) (ids : List NodeId) (here : Cursor)
    (p : Logged) :
    Told g around (sequenceCalls g levels lookahead ids here p) p
      (inSequence (visit g .log levels lookahead) ids here p).1.fault?
      (inSequence (visit g .log levels lookahead) ids here p).2 := by
  induction ids generalizing here p with
  | nil => exact told_nothing rfl rfl
  | cons id ids ih =>
    have head := each lookahead id here p around
    unfold sequenceCalls inSequence
    generalize step : visit g .log levels lookahead id here p = first at head
    obtain ⟨verdict, q⟩ := first
    cases verdict with
    | matched pair =>
      obtain ⟨r, next⟩ := pair
      have both := head.cons (carried_of_step step rfl) (ih next q)
      dsimp only
      generalize inSequence (visit g .log levels lookahead) ids next q = rest at both
      obtain ⟨verdict, q⟩ := rest
      cases verdict <;> exact both
    | failed => exact head
    | stopped fault => exact head

theorem firstOf_told (lookahead : Nat) {choice : NodeId} {all : List NodeId} (kind : g.kind choice = .choice all)
    (name : Option String) (ids : List NodeId) (here : Cursor) (p : Logged) :
    Told g (some (choice, here.offset)) (choiceCalls g levels lookahead choice ids here p) p
      (firstOf (visit g .log levels lookahead) .log choice name ids here p).1.fault?
      (firstOf (visit g .log levels lookahead) .log choice name ids here p).2 := by
  induction ids generalizing p with
  | nil => exact told_nothing rfl rfl
  | cons id ids ih =>
    have head := each lookahead id here p (some (choice, here.offset))
    unfold choiceCalls firstOf
    generalize step : visit g .log levels lookahead id here p = first at head
    obtain ⟨verdict, q⟩ := first
    cases verdict with
    | matched _ => exact head
    | failed =>
      refine head.cons (carried_of_step step rfl) ?_
      cases ids with
      | nil => exact ih q
      | cons => exact (ih _).backtrack kind
    | stopped fault => exact head

theorem greedily_told (lookahead : Nat) (around : Option (NodeId × Nat)) (id : NodeId) (rounds : Nat)
    (earlier : List Ref) (here : Cursor) (p : Logged) :
    Told g around (repetitionCalls g levels lookahead id rounds here p) p
      (greedily (visit g .log levels lookahead) id rounds earlier here p).1.fault?
      (greedily (visit g .log levels lookahead) id rounds earlier here p).2 := by
  induction rounds generalizing earlier here p with
  | zero => exact told_raised .fuelExhausted rfl
  | succ rounds ih =>
    have head := each lookahead id here p around
    unfold repetitionCalls greedily
    generalize step : visit g .log levels lookahead id here p = first at head
    obtain ⟨verdict, q⟩ := first
    cases verdict with
    | matched pair =>
      obtain ⟨r, next⟩ := pair
      have carried := carried_of_step step rfl
      dsimp only
      by_cases idle : next.offset = here.offset
      · rw [if_pos idle, if_pos idle]
        exact head.cons carried (told_raised (.idleRepetition here.offset) rfl)
      · rw [if_neg idle, if_neg idle]
        exact head.cons carried (ih (r :: earlier) next q)
    | failed => exact head
    | stopped fault => exact head

/-- What is told inside a node is told of the calls that the attempt at it makes. -/
theorem attempt_told (lookahead : Nat) (id : NodeId) (here : Cursor) (p : Logged) :
    Told g (some (id, here.offset)) (attemptCalls g levels lookahead id here p) p
      (attempt g .log (visit g .log levels) lookahead id here p).1.fault?
      (attempt g .log (visit g .log levels) lookahead id here p).2 := by
  unfold attemptCalls attempt
  cases kind : g.kind id with
  | sequence parts =>
    have all := inSequence_told each lookahead (some (id, here.offset)) parts here p
    dsimp only
    generalize inSequence _ parts here p = last at all
    obtain ⟨verdict, q⟩ := last
    cases verdict <;> exact all
  | choice alternatives => exact firstOf_told each lookahead kind _ alternatives here p
  | repetition child =>
    have more := greedily_told each lookahead (some (id, here.offset)) child p.fuel [] here p
    dsimp only
    generalize greedily _ child p.fuel [] here p = last at more
    obtain ⟨verdict, q⟩ := last
    match verdict with
    | .matched ([], _) => exact more
    | .matched (_ :: _, _) => exact more
    | .failed => exact more
    | .stopped _ => exact more
  | optional child =>
    have only := each lookahead child here p (some (id, here.offset))
    dsimp only
    generalize visit g .log levels lookahead child here p = last at only
    obtain ⟨verdict, q⟩ := last
    cases verdict <;> exact only
  | negation child =>
    have only := each (lookahead + 1) child here p (some (id, here.offset))
    dsimp only
    generalize visit g .log levels (lookahead + 1) child here p = last at only
    obtain ⟨verdict, q⟩ := last
    cases verdict <;> exact only
  | reference rule => exact told_raised (.unresolvedReference rule) rfl
  | _ => exact terminal_told lookahead _

end

theorem visit_empty (tracer : Tracer σ) (levels : Nat) {p : Progress σ} (empty : p.fuel = 0) :
    visit g tracer levels lookahead id here p = (.stopped .fuelExhausted, p) := by
  cases levels <;> exact if_pos empty

theorem visit_entered (tracer : Tracer σ) {p : Progress σ} (some : p.fuel ≠ 0) :
    visit g tracer (levels + 1) lookahead id here p = conclude tracer id here p.nodes.size
      (attempt g tracer (visit g tracer levels) lookahead id here
        (p.spend.record tracer (.enter id here.offset))) :=
  if_neg some

/-- A call that is refused tells nothing. -/
theorem told_refused (refused : ¬ c.Entered) (fault : Fault) (silent : q.trace = c.before.trace) :
    Told g around [c] c.before (some fault) q := by
  refine ⟨[], silent, [], .raised fun c' made _ => ?_, .here .nil⟩
  rwa [List.mem_singleton.mp made]

/-- A visit that is not stopped is told last how its node is left. -/
theorem conclude_closes (id : NodeId) {a : Attempt (List Event)} (size : Nat) (carried : a.1.fault? = none)
    (forward : ∀ r stop q, a = (.matched (r, stop), q) → here.offset ≤ stop.offset) :
    ∃ closing, Closes id here.offset closing ∧ (conclude .log id here size a).2.trace = closing :: a.2.trace ∧
      (conclude .log id here size a).2.fuel = a.2.fuel := by
  obtain ⟨verdict, q⟩ := a
  match verdict with
  | .matched (r, stop) => exact ⟨_, .success stop.offset (forward r stop q rfl), rfl, rfl⟩
  | .failed => exact ⟨_, .failure, rfl, rfl⟩
  | .stopped fault => cases carried

theorem conclude_fault? (tracer : Tracer σ) (id : NodeId) (here : Cursor) (size : Nat) (a : Attempt σ) :
    (conclude tracer id here size a).1.fault? = a.1.fault? := by
  obtain ⟨verdict, q⟩ := a
  cases verdict <;> rfl

/-- An entered call tells that it enters its node, then what is told inside, and then how it leaves the node. -/
theorem Told.call (entered : c.Entered) {a : Attempt (List Event)} {size : Nat}
    (ends : c.ended g = conclude .log c.id c.here size a)
    (forward : ∀ r stop q, a = (.matched (r, stop), q) → c.here.offset ≤ stop.offset)
    (inner : Told g (some c.place) (c.calls g) (c.before.spend.record .log (.enter c.id c.here.offset))
      a.1.fault? a.2) :
    Told g around [c] c.before (c.ended g).1.fault? (c.ended g).2 := by
  obtain ⟨es, trace, more⟩ := inner
  rw [ends, conclude_fault?]
  cases verdict : a.1.fault? with
  | none =>
    rw [verdict] at more
    obtain ⟨cost, within, deep⟩ := more
    obtain ⟨closing, closes, last, fuel⟩ := conclude_closes c.id size verdict forward
    refine ⟨.enter c.id c.here.offset :: (es ++ [closing]), ?_, ?_, .call within closes .nil, ?_⟩
    · rw [last, trace, List.reverse_cons, List.reverse_append, List.append_assoc]
      rfl
    · have one : c.before.fuel - 1 = a.2.fuel + entries es := cost
      have some := entered.1
      rw [entries_call closes, fuel]
      omega
    · rw [within.deepest_call closes]
      exact isGreatest_depths_call entered deep
  | some fault =>
    rw [verdict] at more
    obtain ⟨cs, opened, broken⟩ := more
    have stops : c.Stops g := by
      unfold Call.Stops
      rw [ends, conclude_fault?, verdict]
      exact Option.some_ne_none fault
    refine ⟨.enter c.id c.here.offset :: es, ?_, c :: cs, .call (List.mem_singleton_self c) entered stops opened,
      .inside .nil broken⟩
    obtain ⟨v, q⟩ := a
    match v with
    | .stopped _ =>
      refine trace.trans ?_
      rw [List.reverse_cons, List.append_assoc]
      rfl
    | .matched _ | .failed => cases verdict

/-- A node that matched does not end before the place where it was entered. -/
theorem attempt_forward {stop : Cursor} {r : Ref}
    (step : attempt g .log (visit g .log levels) lookahead id here p = (.matched (r, stop), q)) :
    here.offset ≤ stop.offset := by
  have derived := attempt_faithful (visit_faithful g .log levels) .log lookahead id here p
  rw [step] at derived
  obtain ⟨tree, derives, _⟩ := derived
  exact derives.offset_le

/-- **What is told of a call** is told of the calls inside it, and of itself around these. -/
theorem visit_told (g : Grammar) (levels lookahead : Nat) (id : NodeId) (here : Cursor) (p : Logged)
    (around : Option (NodeId × Nat)) :
    Told g around [⟨levels, lookahead, id, here, p⟩] p (visit g .log levels lookahead id here p).1.fault?
      (visit g .log levels lookahead id here p).2 := by
  induction levels generalizing lookahead id here p around with
  | zero =>
    have refused : ¬ (⟨0, lookahead, id, here, p⟩ : Call).Entered := fun entered => entered.2 rfl
    unfold visit
    split
    · exact told_refused refused .fuelExhausted rfl
    · exact told_refused refused .depthExceeded rfl
  | succ levels ih =>
    by_cases empty : p.fuel = 0
    · have refused : ¬ (⟨levels + 1, lookahead, id, here, p⟩ : Call).Entered := fun entered => entered.1 empty
      rw [visit_empty .log _ empty]
      exact told_refused refused .fuelExhausted rfl
    · have entered : (⟨levels + 1, lookahead, id, here, p⟩ : Call).Entered := ⟨empty, Nat.succ_ne_zero _⟩
      exact Told.call entered (visit_entered .log empty) (fun _ _ _ => attempt_forward)
        (attempt_told ih lookahead id here _)

end

/-! ## Whole matches -/

/-- The call that a match begins with. There is none at an offset that is not between two characters. -/
def outermost (id : NodeId) (input : String) (offset : Nat) (limits : Limits) : List Call :=
  ((Cursor.ofOffset? input.toList offset).map fun here => ⟨limits.depth, 0, id, here, .start limits offset []⟩).toList

/-- The fuel that a match leaves. -/
def fuelLeft (g : Grammar) (id : NodeId) (input : String) (offset : Nat) (limits : Limits) : Nat :=
  match Cursor.ofOffset? input.toList offset with
  | none => limits.fuel
  | some here => (visit g .silent limits.depth 0 id here (.start limits offset ())).2.fuel

section

variable (g : Grammar) (id : NodeId) (limits : Limits) {input : String} {offset : Nat}

/-- Where no match begins, nothing happens. -/
theorem events_of_nowhere (nowhere : Cursor.ofOffset? input.toList offset = none) :
    events g id input offset limits = [] ∧ outermost id input offset limits = [] ∧
      matchAt g id input offset limits = .ok ⟨none, offset⟩ ∧ fuelLeft g id input offset limits = limits.fuel := by
  unfold events outermost matchAt traceAt fuelLeft
  rw [nowhere]
  exact ⟨rfl, rfl, rfl, rfl⟩

/-- Where a match begins, it is its outermost call. -/
theorem events_of_call {here : Cursor} (starts : Cursor.ofOffset? input.toList offset = some here) :
    let c : Call := ⟨limits.depth, 0, id, here, .start limits offset []⟩
    outermost id input offset limits = [c] ∧ matchAt g id input offset limits = outcome input.toList (c.ended g) ∧
      events g id input offset limits = (c.ended g).2.trace.reverse ∧
      fuelLeft g id input offset limits = (c.ended g).2.fuel := by
  intro c
  have logged : traceAt g id input offset limits .log [] =
      (outcome input.toList (c.ended g), (c.ended g).2.trace) := by
    unfold traceAt
    rw [starts]
    rfl
  have untold : Follows Eq (fun (_ : Unit) (_ : List Event) => True) .silent .log := ⟨fun _ _ _ _ => trivial⟩
  have same := visit_together (.refl g) untold limits.depth 0 (Eq.refl id) here
    (⟨rfl, rfl, ParseTree.Builder.Like.refl _, trivial⟩ :
      (Progress.start limits offset ()).Like Eq (fun _ _ => True) (Progress.start limits offset []))
  refine ⟨?_, ?_, ?_, ?_⟩
  · unfold outermost
    rw [starts]
    rfl
  · have silent := congrArg Prod.fst (traceAt_eq_events g id input offset limits .log [])
    rw [logged] at silent
    exact silent.symm
  · unfold events
    rw [logged]
  · unfold fuelLeft
    rw [starts]
    exact same.progress.fuel

/-- What is told of a match, by how it ends. -/
theorem match_told (g : Grammar) (id : NodeId) (input : String) (offset : Nat) (limits : Limits) :
    match matchAt g id input offset limits with
    | .ok _ =>
      Complete g none (events g id input offset limits) ∧
        limits.fuel = fuelLeft g id input offset limits + entries (events g id input offset limits) ∧
        IsGreatest (depths g (outermost id input offset limits)) (deepest (events g id input offset limits))
    | .error _ =>
      ∃ stack, OpenAtStop g (outermost id input offset limits) stack ∧
        Broken g none (stack.map Call.place) (events g id input offset limits) := by
  cases starts : Cursor.ofOffset? input.toList offset with
  | none =>
    obtain ⟨silent, uncalled, ends, left⟩ := events_of_nowhere g id limits starts
    rw [silent, uncalled, ends, left, depths_nil]
    exact ⟨.nil, rfl, isGreatest_singleton⟩
  | some here =>
    obtain ⟨called, ends, logged, left⟩ := events_of_call g id limits starts
    have told := visit_told g limits.depth 0 id here (.start limits offset []) none
    rw [called, ends, logged, left]
    generalize last : Call.ended g _ = a
    replace last : visit g .log limits.depth 0 id here (.start limits offset []) = a := last
    rw [last] at told
    obtain ⟨es, trace, more⟩ := told
    -- The log has the last event in front.
    have gathered : a.2.trace.reverse = es := by
      rw [trace, Progress.start, List.append_nil, List.reverse_reverse]
    rw [gathered]
    obtain ⟨verdict, q⟩ := a
    match verdict with
    | .matched _ | .failed =>
      obtain ⟨cost, complete, deep⟩ := more
      exact ⟨complete, cost, deep⟩
    | .stopped fault =>
      obtain ⟨stack, opened, broken⟩ := more
      exact ⟨stack, opened, broken⟩

end

/-- **The events of a match follow its calls**, and no tracer changes either.

A match carried to its end tells of brackets that are complete; it has entered as many nodes as it spent fuel,
and the brackets are nested as deep as calls were open at once. A match that was stopped tells of brackets
that are complete but for those of the calls open where it was stopped. -/
theorem events_follow_calls (g : Grammar) (id : NodeId) (input : String) (offset : Nat) (limits : Limits) :
    (∀ {σ : Type} (tracer : Tracer σ) (gathered : σ), traceAt g id input offset limits tracer gathered =
      (matchAt g id input offset limits, gatherAll tracer gathered (events g id input offset limits))) ∧
    (∀ final, matchAt g id input offset limits = .ok final →
      Complete g none (events g id input offset limits) ∧
      limits.fuel = fuelLeft g id input offset limits + entries (events g id input offset limits) ∧
      IsGreatest (depths g (outermost id input offset limits)) (deepest (events g id input offset limits))) ∧
    ∀ fault, matchAt g id input offset limits = .error fault →
      ∃ stack, OpenAtStop g (outermost id input offset limits) stack ∧
        Broken g none (stack.map Call.place) (events g id input offset limits) ∧
        ∃ rest, Complete g none (events g id input offset limits ++ rest) := by
  have told := match_told g id input offset limits
  refine ⟨fun tracer gathered => traceAt_eq_events g id input offset limits tracer gathered, ?_, ?_⟩
  · intro final ends
    rw [ends] at told
    exact told
  · intro fault ends
    rw [ends] at told
    obtain ⟨stack, opened, broken⟩ := told
    exact ⟨stack, opened, broken, broken.completes⟩

/-- Five calls are open at once when the text is matched. With three levels the match stops inside the outer
choice, which is inside the repetition. -/
theorem letters_told :
    (Complete letters none (events letters 6 "a" 0 {}) ∧ fuelLeft letters 6 "a" 0 {} + 11 = 100000000 ∧
        IsGreatest (depths letters (outermost 6 "a" 0 {})) 5) ∧
      ∃ stack, OpenAtStop letters (outermost 6 "a" 0 ⟨100, 3⟩) stack ∧
        Broken letters none (stack.map Call.place) [.enter 6 0, .enter 5 0, .enter 4 0, .failure 4 0, .success 5 0 0,
          .enter 3 0, .enter 2 0] := by
  obtain ⟨_, carried, _⟩ := events_follow_calls letters 6 "a" 0 {}
  obtain ⟨_, _, stopped⟩ := events_follow_calls letters 6 "a" 0 ⟨100, 3⟩
  have ends : ∃ final, matchAt letters 6 "a" 0 {} = .ok final := ⟨_, rfl⟩
  have stops : matchAt letters 6 "a" 0 ⟨100, 3⟩ = .error .depthExceeded := rfl
  obtain ⟨final, ends⟩ := ends
  obtain ⟨complete, cost, deep⟩ := carried final ends
  obtain ⟨stack, opened, broken, _⟩ := stopped _ stops
  exact ⟨⟨complete, cost.symm, deep⟩, stack, opened, broken⟩

end BnfTokenizer.Match
