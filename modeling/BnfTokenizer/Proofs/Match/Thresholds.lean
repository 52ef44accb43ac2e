import BnfTokenizer.Proofs.Match.Protocol

/-!
# How much a match needs

A match carried to its end under some limits needs exactly as many visits as it entered nodes, and exactly as
many levels as calls were open at once. Under other limits it ends the same way, or the first call that is
refused stops it, and then with the fault of a limit that is less than what is needed
(`matchAt_cut_off`). No kind of node takes that stop for a failure.

The proof sets the run that is known beside a run from other limits. `Again` says how the second stands to
the events of the first; it composes over the calls of a node, and a call adds one entry around what it
makes.
-/

namespace BnfTokenizer.Match

open ParseTree (Ref)

section

variable {σ τ : Type}

/-- The same furthest failure and the same table. -/
structure Progress.Agrees (p : Progress σ) (q : Progress τ) : Prop where
  furthest : p.furthest = q.furthest
  nodes : p.nodes = q.nodes

end

/-- How calls end under other limits, from progress `p`, that ended as `a` and were told as `es`: in the same
way, after as many visits, or stopped by a limit that is less than what was needed. -/
def Again {α : Type} (es : List Event) (a : Verdict α × Logged) (levels : Nat) (p : Progress Unit)
    (b : Verdict α × Progress Unit) : Prop :=
  (b.1 = a.1 ∧ a.2.Agrees b.2 ∧ b.2.fuel + entries es = p.fuel ∧ deepest es ≤ levels) ∨
    ∃ fault, b.1 = .stopped fault ∧ fault.Trips (entries es) (deepest es) ⟨p.fuel, levels⟩

/-- Calls from progress `p` that ended as `a` do so again, where they were not stopped. -/
def Repeats {α : Type} (g : Grammar) (around : Option (NodeId × Nat)) (least : Nat) (p : Logged)
    (a : Verdict α × Logged) (again : Nat → Progress Unit → Verdict α × Progress Unit) : Prop :=
  a.1.fault? = none → ∃ es, a.2.trace = es.reverse ++ p.trace ∧ Complete g around es ∧ least ≤ entries es ∧
    ∀ levels p', p.Agrees p' → Again es a levels p' (again levels p')

section

variable {α β : Type} {g : Grammar} {around : Option (NodeId × Nat)} {es es' : List Event} {levels levels' : Nat}
  {p q : Logged} {p' q' : Progress Unit} {a : Verdict α × Logged} {b : Verdict α × Progress Unit}

/-- Without any events the attempt is the same and costs nothing. -/
theorem again_nothing (verdict : b.1 = a.1) (agrees : a.2.Agrees b.2) (fuel : b.2.fuel = p'.fuel) :
    Again [] a levels p' b :=
  .inl ⟨verdict, agrees, fuel, Nat.zero_le _⟩

/-- An attempt that was tripped in its first part is tripped, whatever would have come behind. -/
theorem again_tripped (first : Complete g around es) (second : Complete g around es') (fault : Fault)
    (trips : fault.Trips (entries es) (deepest es) ⟨p'.fuel, levels⟩) :
    Again (es ++ es') a levels p' (.stopped fault, q') := by
  refine .inr ⟨fault, rfl, trips.mono ?_ ?_⟩
  · rw [entries_append]
    omega
  · rw [first.deepest_append second]
    exact Nat.add_le_add_left (Nat.le_max_left ..) _

/-- A first part that is in the limits leaves the rest with what is left of the fuel. -/
theorem Again.after (first : Complete g around es) (second : Complete g around es')
    (fuel : q'.fuel + entries es = p'.fuel) (deep : deepest es ≤ levels) (rest : Again es' a levels q' b) :
    Again (es ++ es') a levels p' b := by
  obtain ⟨verdict, agrees, fuel', deep'⟩ | ⟨fault, stops, trips⟩ := rest
  · refine .inl ⟨verdict, agrees, ?_, ?_⟩
    · rw [entries_append]
      omega
    · rw [first.deepest_append second]
      exact Nat.max_le.mpr ⟨deep, deep'⟩
  · refine .inr ⟨fault, stops, trips.mono ?_ ?_⟩
    · rw [entries_append]
      dsimp only
      omega
    · rw [first.deepest_append second]
      exact Nat.add_le_add_left (Nat.le_max_right ..) _

theorem Repeats.least {again : Nat → Progress Unit → Verdict α × Progress Unit} (one : Repeats g around 1 p a again) :
    Repeats g around 0 p a again := by
  intro carried
  obtain ⟨es, trace, complete, _, again⟩ := one carried
  exact ⟨es, trace, complete, Nat.zero_le _, again⟩

/-! ## What a node makes of its children -/

/-- What is made of an attempt passes a stop on, costs nothing and tells nothing, and depends on the furthest
failure and the table alone. -/
structure Passes (f : ∀ {σ : Type}, Verdict α × Progress σ → Verdict β × Progress σ) : Prop where
  stopped : ∀ {σ : Type} fault (q : Progress σ), (f (.stopped fault, q)).1 = .stopped fault
  fuel : ∀ {σ : Type} v (q : Progress σ), (f (v, q)).2.fuel = q.fuel
  trace : ∀ {σ : Type} v (q : Progress σ), (f (v, q)).2.trace = q.trace
  verdict : ∀ v {q : Logged} {q' : Progress Unit}, q.Agrees q' → (f (v, q')).1 = (f (v, q)).1
  agrees : ∀ v {q : Logged} {q' : Progress Unit}, q.Agrees q' → (f (v, q)).2.Agrees (f (v, q')).2

/-- What is made of an attempt, without a look at its limits, is cut off where the attempt is. -/
theorem Repeats.map {f : ∀ {σ : Type}, Verdict α × Progress σ → Verdict β × Progress σ} (passes : Passes f)
    {least : Nat} {again : Nat → Progress Unit → Verdict α × Progress Unit}
    (repeats : Repeats g around least p a again) :
    Repeats g around least p (f a) fun levels p' => f (again levels p') := by
  intro carried
  obtain ⟨v, q⟩ := a
  have went : v.fault? = none := by
    cases v with
    | stopped fault =>
      rw [passes.stopped fault q] at carried
      cases carried
    | _ => rfl
  obtain ⟨es, trace, complete, enough, again'⟩ := repeats went
  refine ⟨es, (passes.trace v q).trans trace, complete, enough, fun levels p' agrees => ?_⟩
  have ends := again' levels p' agrees
  dsimp only
  generalize again levels p' = b at ends
  obtain ⟨v', q'⟩ := b
  obtain ⟨rfl, same, fuel, deep⟩ | ⟨fault, rfl, trips⟩ := ends
  · exact .inl ⟨passes.verdict v' same, passes.agrees v' same, (congrArg (· + _) (passes.fuel v' q')).trans fuel, deep⟩
  · exact .inr ⟨fault, passes.stopped fault q', trips⟩

/-- A node that is added does not look at the limits. -/
theorem interior_passes {q : Logged} {q' : Progress Unit} (same : q.Agrees q') (id : NodeId) (here stop : Cursor)
    (children : List Ref) : (q'.interior g id here stop children).1 = (q.interior g id here stop children).1 ∧
      (q.interior g id here stop children).2.Agrees (q'.interior g id here stop children).2 := by
  obtain ⟨furthest, nodes⟩ := same
  refine ⟨?_, furthest, ?_⟩
  · dsimp only [Progress.interior]
    rw [nodes]
  · dsimp only [Progress.interior]
    rw [nodes]

theorem standing_passes (g : Grammar) (id : NodeId) (here : Cursor) : Passes (standing g id here) where
  stopped _ _ := rfl
  fuel v _ := by cases v <;> rfl
  trace v _ := by cases v <;> rfl
  verdict v _ _ same := by
    cases v with
    | matched found => exact (interior_passes same id here found.2 found.1).1
    | _ => rfl
  agrees v _ _ same := by
    cases v with
    | matched found => exact (interior_passes same id here found.2 found.1).2
    | _ => exact same

theorem overSome_passes (g : Grammar) (id : NodeId) (here : Cursor) : Passes (overSome g id here) where
  stopped _ _ := rfl
  fuel | .matched ([], _), _ | .matched (_ :: _, _), _ | .failed, _ | .stopped _, _ => rfl
  trace | .matched ([], _), _ | .matched (_ :: _, _), _ | .failed, _ | .stopped _, _ => rfl
  verdict v _ _ same :=
    match v with
    | .matched (r :: rs, stop) => (interior_passes same id here stop (r :: rs)).1
    | .matched ([], _) | .failed | .stopped _ => rfl
  agrees v _ _ same :=
    match v with
    | .matched (r :: rs, stop) => (interior_passes same id here stop (r :: rs)).2
    | .matched ([], _) | .failed | .stopped _ => same

theorem overOptional_passes (g : Grammar) (id : NodeId) (here : Cursor) : Passes (overOptional g id here) where
  stopped _ _ := rfl
  fuel v _ := by cases v <;> rfl
  trace v _ := by cases v <;> rfl
  verdict v _ _ same := by
    cases v with
    | matched found => exact (interior_passes same id here found.2 [found.1]).1
    | failed => exact (interior_passes same id here here []).1
    | stopped _ => rfl
  agrees v _ _ same := by
    cases v with
    | matched found => exact (interior_passes same id here found.2 [found.1]).2
    | failed => exact (interior_passes same id here here []).2
    | stopped _ => exact same

/-- Cutting the table back does not look at the fuel. -/
theorem Progress.Agrees.truncate {q : Logged} {q' : Progress Unit} (same : q.Agrees q') (size : Nat) :
    (q.truncate size).Agrees (q'.truncate size) :=
  ⟨same.furthest, congrArg (·.truncate size) same.nodes⟩

theorem overNegation_passes (g : Grammar) (id : NodeId) (here : Cursor) (size : Nat) :
    Passes (overNegation g id here size) where
  stopped _ _ := rfl
  fuel v _ := by cases v <;> rfl
  trace v _ := by cases v <;> rfl
  verdict v _ _ same := by
    cases v with
    | failed => exact (interior_passes (same.truncate size) id here here []).1
    | _ => rfl
  agrees v _ _ same := by
    cases v with
    | failed => exact (interior_passes (same.truncate size) id here here []).2
    | _ => exact same.truncate size

/-! ## The same calls again -/

/-- A terminal calls nothing, so no limit stops it. -/
theorem terminal_repeats (id : NodeId) (lookahead : Nat) (here : Cursor) (stop? : Option Cursor) :
    Repeats g around 0 p (p.terminal g id lookahead here stop?)
      fun _ p' => p'.terminal g id lookahead here stop? := by
  intro _
  refine ⟨[], ?_, .nil, Nat.zero_le _, fun levels p' agrees => ?_⟩
  · cases stop? with
    | some stop => rfl
    | none =>
      dsimp only [Progress.terminal, Progress.miss]
      split <;> rfl
  · cases stop? with
    | some stop =>
      have both := interior_passes (g := g) agrees id here stop []
      exact again_nothing both.1 both.2 rfl
    | none =>
      dsimp only [Progress.terminal, Progress.miss]
      split
      · exact again_nothing rfl ⟨congrArg (max · here.offset) agrees.furthest, agrees.nodes⟩ rfl
      · exact again_nothing rfl agrees rfl

section

variable {n : Nat} (each : ∀ lookahead id here p around, Repeats g around 1 p (visit g .log n lookahead id here p)
  fun levels p' => visit g .silent levels lookahead id here p')

include each

/-- Parts are cut off in the first that is. The induction is on the parts, each with the fuel that the one before
left. -/
theorem inSequence_repeats (lookahead : Nat) (ids : List NodeId) (here : Cursor) (p : Logged) :
    Repeats g around 0 p (inSequence (visit g .log n lookahead) ids here p)
      fun levels p' => inSequence (visit g .silent levels lookahead) ids here p' := by
  induction ids generalizing here p with
  | nil => exact fun _ => ⟨[], rfl, .nil, Nat.zero_le _, fun _ _ agrees => again_nothing rfl agrees rfl⟩
  | cons id ids ih =>
    intro carried
    have head := each lookahead id here p around
    unfold inSequence at carried ⊢
    generalize visit g .log n lookahead id here p = first at head carried
    obtain ⟨v, q⟩ := first
    cases v with
    | matched pair =>
      obtain ⟨r, next⟩ := pair
      obtain ⟨es, trace, complete, _, again⟩ := head rfl
      have tail := ih next q
      dsimp only at carried ⊢
      generalize inSequence (visit g .log n lookahead) ids next q = rest at tail carried
      obtain ⟨w, last⟩ := rest
      have went : w.fault? = none := by cases w <;> first | rfl | cases carried
      obtain ⟨es', trace', complete', _, again'⟩ := tail went
      refine ⟨es ++ es', ?_, complete.append complete', Nat.zero_le _, fun levels p' agrees => ?_⟩
      · rw [List.reverse_append, List.append_assoc, ← trace, ← trace']
        cases w <;> rfl
      · have begins := again levels p' agrees
        dsimp only at begins ⊢
        generalize visit g .silent levels lookahead id here p' = b at begins
        obtain ⟨v', q'⟩ := b
        obtain ⟨rfl, same, fuel, deep⟩ | ⟨fault, rfl, trips⟩ := begins
        · have ends := (again' levels q' same).after complete complete' fuel deep
          dsimp only at ends ⊢
          generalize inSequence (visit g .silent levels lookahead) ids next q' = b at ends
          obtain ⟨w', last'⟩ := b
          obtain ⟨rfl, same⟩ | ⟨fault, rfl, trips⟩ := ends
          · cases w' <;> exact .inl ⟨rfl, same⟩
          · exact .inr ⟨fault, rfl, trips⟩
        · exact again_tripped complete complete' fault trips
    | failed =>
      obtain ⟨es, trace, complete, _, again⟩ := head rfl
      refine ⟨es, trace, complete, Nat.zero_le _, fun levels p' agrees => ?_⟩
      have begins := again levels p' agrees
      dsimp only at begins ⊢
      generalize visit g .silent levels lookahead id here p' = b at begins
      obtain ⟨v', q'⟩ := b
      obtain ⟨rfl, same⟩ | ⟨fault, rfl, trips⟩ := begins
      · exact .inl ⟨rfl, same⟩
      · exact .inr ⟨fault, rfl, trips⟩
    | stopped fault => cases carried

/-- So are alternatives; that another one is tried is an event, and no call. -/
theorem firstOf_repeats (lookahead : Nat) {choice : NodeId} {all : List NodeId} (kind : g.kind choice = .choice all)
    (name : Option String) (ids : List NodeId) (here : Cursor) (p : Logged) :
    Repeats g (some (choice, here.offset)) 0 p (firstOf (visit g .log n lookahead) .log choice name ids here p)
      fun levels p' => firstOf (visit g .silent levels lookahead) .silent choice name ids here p' := by
  induction ids generalizing p with
  | nil => exact fun _ => ⟨[], rfl, .nil, Nat.zero_le _, fun _ _ agrees => again_nothing rfl agrees rfl⟩
  | cons id ids ih =>
    intro carried
    have head := each lookahead id here p (some (choice, here.offset))
    unfold firstOf at carried ⊢
    generalize visit g .log n lookahead id here p = first at head carried
    obtain ⟨v, q⟩ := first
    cases v with
    | matched pair =>
      obtain ⟨r, stop⟩ := pair
      obtain ⟨es, trace, complete, _, again⟩ := head rfl
      refine ⟨es, trace, complete, Nat.zero_le _, fun levels p' agrees => ?_⟩
      have begins := again levels p' agrees
      dsimp only at begins ⊢
      generalize visit g .silent levels lookahead id here p' = b at begins
      obtain ⟨v', q'⟩ := b
      obtain ⟨rfl, same, cost⟩ | ⟨fault, rfl, trips⟩ := begins
      · exact .inl ⟨rfl, ⟨same.furthest, congrArg (·.inheritName r name) same.nodes⟩, cost⟩
      · exact .inr ⟨fault, rfl, trips⟩
    | failed =>
      obtain ⟨es, trace, complete, _, again⟩ := head rfl
      -- going on to the next alternative tells of it, and costs nothing
      have goesOn : ∃ es', (firstOf (visit g .log n lookahead) .log choice name ids here
            (if ids.isEmpty then q else q.record .log (.backtrack choice here.offset))).2.trace =
            es'.reverse ++ q.trace ∧ Complete g (some (choice, here.offset)) es' ∧ ∀ levels q', q.Agrees q' →
          Again es' (firstOf (visit g .log n lookahead) .log choice name ids here
            (if ids.isEmpty then q else q.record .log (.backtrack choice here.offset))) levels q'
            (firstOf (visit g .silent levels lookahead) .silent choice name ids here
              (if ids.isEmpty then q' else q'.record .silent (.backtrack choice here.offset))) := by
        cases ids with
        | nil =>
          obtain ⟨es', trace', complete', _, again'⟩ := ih q carried
          exact ⟨es', trace', complete', again'⟩
        | cons other ids =>
          obtain ⟨es', trace', complete', _, again'⟩ := ih _ carried
          refine ⟨.backtrack choice here.offset :: es', ?_, .backtrack kind complete', fun levels q' agrees => ?_⟩
          · refine trace'.trans ?_
            rw [List.reverse_cons, List.append_assoc]
            rfl
          · exact again' levels (q'.record .silent (.backtrack choice here.offset)) ⟨agrees.furthest, agrees.nodes⟩
      obtain ⟨es', trace', complete', again'⟩ := goesOn
      refine ⟨es ++ es', ?_, complete.append complete', Nat.zero_le _, fun levels p' agrees => ?_⟩
      · rw [List.reverse_append, List.append_assoc, ← trace]
        exact trace'
      · have begins := again levels p' agrees
        dsimp only at begins ⊢
        generalize visit g .silent levels lookahead id here p' = b at begins
        obtain ⟨v', q'⟩ := b
        obtain ⟨rfl, same, fuel, deep⟩ | ⟨fault, rfl, trips⟩ := begins
        · exact (again' levels q' same).after complete complete' fuel deep
        · exact again_tripped complete complete' fault trips
    | stopped fault => cases carried

/-- Every round enters a node at least, so where there were enough rounds for the fuel, there are again. -/
theorem greedily_repeats (lookahead : Nat) (id : NodeId) (rounds : Nat) (earlier : List Ref) (here : Cursor)
    (p : Logged) (carried : (greedily (visit g .log n lookahead) id rounds earlier here p).1.fault? = none) :
    ∃ es, (greedily (visit g .log n lookahead) id rounds earlier here p).2.trace = es.reverse ++ p.trace ∧
      Complete g around es ∧ 1 ≤ entries es ∧ ∀ levels rounds' p', p.Agrees p' → p'.fuel ≤ rounds' →
        Again es (greedily (visit g .log n lookahead) id rounds earlier here p) levels p'
          (greedily (visit g .silent levels lookahead) id rounds' earlier here p') := by
  induction rounds generalizing earlier here p with
  | zero => cases carried
  | succ rounds ih =>
    have head := each lookahead id here p around
    unfold greedily at carried ⊢
    generalize visit g .log n lookahead id here p = first at head carried
    obtain ⟨v, q⟩ := first
    cases v with
    | matched pair =>
      obtain ⟨r, next⟩ := pair
      obtain ⟨es, trace, complete, some, again⟩ := head rfl
      dsimp only at carried ⊢
      by_cases idle : next.offset = here.offset
      · rw [if_pos idle] at carried
        cases carried
      · rw [if_neg idle] at carried ⊢
        obtain ⟨es', trace', complete', _, again'⟩ := ih (r :: earlier) next q carried
        refine ⟨es ++ es', ?_, complete.append complete', ?_, fun levels rounds' p' agrees enough => ?_⟩
        · rw [List.reverse_append, List.append_assoc, ← trace]
          exact trace'
        · rw [entries_append]
          omega
        · have begins := again levels p' agrees
          dsimp only at begins
          cases rounds' with
          -- No round is left only where no fuel is, since rounds are not fewer.
          | zero =>
            have empty : p'.fuel < entries es := by omega
            exact again_tripped complete complete' .fuelExhausted empty
          | succ rounds' =>
            dsimp only
            generalize visit g .silent levels lookahead id here p' = b at begins
            obtain ⟨v', q'⟩ := b
            obtain ⟨rfl, same, fuel, deep⟩ | ⟨fault, rfl, trips⟩ := begins
            · have less : q'.fuel + entries es = p'.fuel := fuel
              dsimp only
              rw [if_neg idle]
              exact (again' levels rounds' q' same (by omega)).after complete complete' fuel deep
            · exact again_tripped complete complete' fault trips
    | failed =>
      obtain ⟨es, trace, complete, some, again⟩ := head rfl
      refine ⟨es, trace, complete, some, fun levels rounds' p' agrees enough => ?_⟩
      have begins := again levels p' agrees
      dsimp only at begins
      cases rounds' with
      | zero =>
        have empty : p'.fuel < entries es := by omega
        exact .inr ⟨.fuelExhausted, rfl, empty⟩
      | succ rounds' =>
        dsimp only
        generalize visit g .silent levels lookahead id here p' = b at begins
        obtain ⟨v', q'⟩ := b
        obtain ⟨rfl, same⟩ | ⟨fault, rfl, trips⟩ := begins
        · exact .inl ⟨rfl, same⟩
        · exact .inr ⟨fault, rfl, trips⟩
    | stopped fault => cases carried

/-- One lemma for each kind comes to this: an attempt is cut off where the visits are that it makes. -/
theorem attempt_repeats (lookahead : Nat) (id : NodeId) (here : Cursor) (p : Logged) :
    Repeats g (some (id, here.offset)) 0 p (attempt g .log (visit g .log n) lookahead id here p)
      fun levels p' => attempt g .silent (visit g .silent levels) lookahead id here p' := by
  unfold attempt
  cases kind : g.kind id with
  | sequence parts => exact (inSequence_repeats each lookahead parts here p).map (standing_passes g id here)
  | choice alternatives => exact firstOf_repeats each lookahead kind _ alternatives here p
  | repetition child =>
    have rounds : Repeats g (some (id, here.offset)) 0 p (greedily (visit g .log n lookahead) child p.fuel [] here p)
        fun levels p' => greedily (visit g .silent levels lookahead) child p'.fuel [] here p' := by
      intro carried
      obtain ⟨es, trace, complete, _, again⟩ := greedily_repeats each lookahead child p.fuel [] here p carried
      exact ⟨es, trace, complete, Nat.zero_le _, fun levels p' agrees =>
        again levels p'.fuel p' agrees (Nat.le_refl _)⟩
    exact rounds.map (overSome_passes g id here)
  | optional child =>
    exact ((each lookahead child here p _).map (overOptional_passes g id here)).least
  | negation child =>
    intro carried
    obtain ⟨es, trace, complete, enough, again⟩ :=
      ((each (lookahead + 1) child here p _).map (overNegation_passes g id here p.nodes.size)).least carried
    refine ⟨es, trace, complete, enough, fun levels p' agrees => ?_⟩
    dsimp only
    rw [← agrees.nodes]
    exact again levels p' agrees
  | reference rule => exact fun carried => nomatch carried
  | _ => exact terminal_repeats id lookahead here _

end

/-- Reporting the end of a visit changes neither verdict nor fuel. -/
theorem conclude_agrees (id : NodeId) (here : Cursor) (size : Nat) (v : Verdict (Ref × Cursor)) {q' : Progress Unit}
    (same : q.Agrees q') : (conclude .silent id here size (v, q')).1 = (conclude .log id here size (v, q)).1 ∧
      (conclude .log id here size (v, q)).2.Agrees (conclude .silent id here size (v, q')).2 ∧
      (conclude .silent id here size (v, q')).2.fuel = q'.fuel := by
  cases v with
  | matched _ => exact ⟨rfl, ⟨same.furthest, same.nodes⟩, rfl⟩
  | failed => exact ⟨rfl, ⟨same.furthest, (same.truncate size).nodes⟩, rfl⟩
  | stopped _ => exact ⟨rfl, same, rfl⟩

/-- **Visits repeat themselves.** A visit that was not stopped ends in the same way under other limits, after as
many visits, unless one of these limits is less than what was needed. -/
theorem visit_repeats (g : Grammar) (n lookahead : Nat) (id : NodeId) (here : Cursor) (p : Logged)
    (around : Option (NodeId × Nat)) : Repeats g around 1 p (visit g .log n lookahead id here p)
      fun levels p' => visit g .silent levels lookahead id here p' := by
  induction n generalizing lookahead id here p around with
  | zero =>
    intro carried
    unfold visit at carried
    split at carried <;> cases carried
  | succ n ih =>
    by_cases empty : p.fuel = 0
    · intro carried
      rw [visit_empty .log _ empty] at carried
      cases carried
    · rw [visit_entered .log empty]
      intro carried
      rw [conclude_fault?] at carried
      obtain ⟨es, trace, within, _, again⟩ :=
        attempt_repeats ih lookahead id here (p.spend.record .log (.enter id here.offset)) carried
      obtain ⟨closing, closes, last, _⟩ := conclude_closes id p.nodes.size carried fun _ _ _ => attempt_forward
      generalize attempt g .log (visit g .log n) lookahead id here _ = a at trace again last
      refine ⟨.enter id here.offset :: (es ++ [closing]), ?_, .call within closes .nil, ?_, fun levels p' agrees => ?_⟩
      · rw [last, trace, List.reverse_cons, List.reverse_append, List.append_assoc]
        rfl
      · rw [entries_call closes]
        exact Nat.le_add_left ..
      -- A call costs one unit and one level more than what is in it, so it is cut off for want of them or where
      -- something in it is.
      · unfold Again
        rw [entries_call closes, within.deepest_call closes]
        dsimp only
        by_cases empty' : p'.fuel = 0
        · rw [visit_empty .silent _ empty']
          have less : p'.fuel < entries es + 1 := by omega
          exact .inr ⟨.fuelExhausted, rfl, less⟩
        · cases levels with
          | zero =>
            have refused : visit g .silent 0 lookahead id here p' = (.stopped .depthExceeded, p'.spend) := if_neg empty'
            rw [refused]
            exact .inr ⟨.depthExceeded, rfl, Nat.succ_pos _⟩
          | succ levels =>
            rw [visit_entered .silent empty', ← agrees.nodes]
            have ends := again levels (p'.spend.record .silent (.enter id here.offset)) ⟨agrees.furthest, agrees.nodes⟩
            dsimp only at ends
            generalize attempt g .silent (visit g .silent levels) lookahead id here _ = b at ends
            obtain ⟨v, q⟩ := a
            obtain ⟨v', q'⟩ := b
            obtain ⟨rfl, same, fuel, deep⟩ | ⟨fault, rfl, trips⟩ := ends
            · have cost : q'.fuel + entries es = p'.fuel - 1 := fuel
              have alike : q.Agrees q' := same
              obtain ⟨verdict, agree, left⟩ := conclude_agrees id here p.nodes.size v' alike
              exact .inl ⟨verdict, agree, by rw [left]; omega, Nat.succ_le_succ deep⟩
            · refine .inr ⟨fault, rfl, trips.mono ?_ ?_⟩
              · show p'.fuel + entries es ≤ p'.fuel - 1 + (entries es + 1)
                omega
              · show levels + 1 + deepest es ≤ levels + (deepest es + 1)
                omega

end

/-! ## Whole matches -/

/-- A match that was not stopped, under other limits: the same outcome, or the fault of a limit that is less than
what it told of needing. -/
theorem matchAt_again {g : Grammar} {id : NodeId} {input : String} {offset : Nat} {limits : Limits} {final : Outcome}
    (ends : matchAt g id input offset limits = .ok final) (others : Limits) :
    (matchAt g id input offset others = .ok final ∧ entries (events g id input offset limits) ≤ others.fuel ∧
        deepest (events g id input offset limits) ≤ others.depth) ∨
      ∃ fault, matchAt g id input offset others = .error fault ∧
        fault.Trips (entries (events g id input offset limits)) (deepest (events g id input offset limits)) others := by
  cases starts : Cursor.ofOffset? input.toList offset with
  | none =>
    obtain ⟨silent, _, nowhere, _⟩ := events_of_nowhere g id limits starts
    obtain ⟨_, _, nowhere', _⟩ := events_of_nowhere g id others starts
    rw [silent]
    exact .inl ⟨nowhere'.trans (nowhere.symm.trans ends), Nat.zero_le _, Nat.zero_le _⟩
  | some here =>
    obtain ⟨_, logged, told, _⟩ := events_of_call g id limits starts
    have repeats := visit_repeats g limits.depth 0 id here (.start limits offset []) none
    have other : matchAt g id input offset others =
        outcome input.toList (visit g .silent others.depth 0 id here (.start others offset ())) := by
      unfold matchAt traceAt
      rw [starts]
    rw [logged] at ends
    rw [told, other]
    generalize own : Call.ended g _ = a at ends
    replace own : visit g .log limits.depth 0 id here (.start limits offset []) = a := own
    rw [own] at repeats
    have carried : a.1.fault? = none := by
      obtain ⟨v, q⟩ := a
      cases v with
      | stopped _ => cases ends
      | _ => rfl
    obtain ⟨es, trace, _, _, again⟩ := repeats carried
    have gathered : a.2.trace.reverse = es := by
      rw [trace, Progress.start, List.append_nil, List.reverse_reverse]
    rw [gathered]
    -- The run under the other limits takes the same steps until it is cut off.
    have same := again others.depth (.start others offset ()) ⟨rfl, rfl⟩
    dsimp only at same
    generalize visit g .silent others.depth 0 id here _ = b at same
    obtain ⟨v, q⟩ := a
    obtain ⟨v', q'⟩ := b
    obtain ⟨rfl, agrees, fuel, deep⟩ | ⟨fault, rfl, trips⟩ := same
    · obtain ⟨furthest, nodes⟩ : q.Agrees q' := agrees
      have spent : q'.fuel + entries es = others.fuel := fuel
      refine .inl ⟨?_, by omega, deep⟩
      rw [← ends]
      cases v' with
      | matched found =>
        dsimp only [outcome]
        rw [furthest, nodes]
      | failed =>
        dsimp only [outcome]
        rw [furthest]
      | stopped _ => cases carried
    · exact .inr ⟨fault, rfl, trips⟩

/-- **Limits only cut a match off.** A match that was not stopped, entered `visits` nodes and had `nested` calls open
at once has the same outcome under all limits that are not less than that. Where only one limit is less, the
match is stopped by that limit, and where both are, by one of them. -/
theorem matchAt_cut_off (g : Grammar) (id : NodeId) (input : String) (offset : Nat) (limits : Limits) (final : Outcome)
    (ends : matchAt g id input offset limits = .ok final) (visits nested : Nat)
    (visited : entries (events g id input offset limits) = visits)
    (deep : IsGreatest (depths g (outermost id input offset limits)) nested) (fuel depth : Nat) :
    (visits ≤ fuel → nested ≤ depth → matchAt g id input offset ⟨fuel, depth⟩ = .ok final) ∧
    (fuel < visits → nested ≤ depth → matchAt g id input offset ⟨fuel, depth⟩ = .error .fuelExhausted) ∧
    (visits ≤ fuel → depth < nested → matchAt g id input offset ⟨fuel, depth⟩ = .error .depthExceeded) ∧
    (fuel < visits → depth < nested → matchAt g id input offset ⟨fuel, depth⟩ = .error .fuelExhausted ∨
      matchAt g id input offset ⟨fuel, depth⟩ = .error .depthExceeded) := by
  have told := match_told g id input offset limits
  rw [ends] at told
  have reached : deepest (events g id input offset limits) = nested := told.2.2.unique deep
  have again := matchAt_again ends ⟨fuel, depth⟩
  rw [visited, reached] at again
  obtain ⟨same, few, shallow⟩ | ⟨fault, stops, trips⟩ := again
  · have few : visits ≤ fuel := few
    have shallow : nested ≤ depth := shallow
    exact ⟨fun _ _ => same, fun short _ => absurd few (Nat.not_le.mpr short),
      fun _ short => absurd shallow (Nat.not_le.mpr short), fun short _ => absurd few (Nat.not_le.mpr short)⟩
  · match fault, trips with
    | .fuelExhausted, trips =>
      have short : fuel < visits := trips
      exact ⟨fun enough _ => absurd short (Nat.not_lt.mpr enough), fun _ _ => stops,
        fun enough _ => absurd short (Nat.not_lt.mpr enough), fun _ _ => .inl stops⟩
    | .depthExceeded, trips =>
      have short : depth < nested := trips
      exact ⟨fun _ enough => absurd short (Nat.not_lt.mpr enough), fun _ enough => absurd short (Nat.not_lt.mpr enough),
        fun _ _ => stops, fun _ _ => .inr stops⟩

/-- Eleven visits, five of them open at once, are needed, and fewer of either are noticed. -/
theorem letters_cut_off :
    (∃ final, matchAt letters 6 "a" 0 {} = .ok final ∧ matchAt letters 6 "a" 0 ⟨11, 5⟩ = .ok final) ∧
      entries (events letters 6 "a" 0 {}) = 11 ∧ IsGreatest (depths letters (outermost 6 "a" 0 {})) 5 ∧
      matchAt letters 6 "a" 0 ⟨10, 5⟩ = .error .fuelExhausted ∧
      matchAt letters 6 "a" 0 ⟨11, 4⟩ = .error .depthExceeded ∧
      (matchAt letters 6 "a" 0 ⟨10, 4⟩ = .error .fuelExhausted ∨
        matchAt letters 6 "a" 0 ⟨10, 4⟩ = .error .depthExceeded) := by
  obtain ⟨final, ends⟩ : ∃ final, matchAt letters 6 "a" 0 {} = .ok final := ⟨_, rfl⟩
  have told := match_told letters 6 "a" 0 {}
  rw [ends] at told
  have visited : entries (events letters 6 "a" 0 {}) = 11 := by rfl
  have deep : IsGreatest (depths letters (outermost 6 "a" 0 {})) 5 := told.2.2
  have cut := matchAt_cut_off letters 6 "a" 0 {} final ends 11 5 visited deep
  exact ⟨⟨final, ends, (cut 11 5).1 (Nat.le_refl _) (Nat.le_refl _)⟩, visited, deep,
    (cut 10 5).2.1 (by decide) (by decide), (cut 11 4).2.2.1 (by decide) (by decide),
    (cut 10 4).2.2.2 (by decide) (by decide)⟩

end BnfTokenizer.Match
