import BnfTokenizer.Proofs.Match.Layout

/-!
# Matching is ordered choice

A match and a derivation say the same. What a visit comes to is derived (`visit_faithful`), and what is
derived a visit comes to, unless it runs into a limit first, which it does not when the limits are large
enough (`Derives.visited`).
-/

namespace BnfTokenizer.Match

open ParseTree (Ref)
open Grammar (Kind)

variable {σ : Type} {g : Grammar} {tracer : Tracer σ} {id : NodeId} {here : Cursor} {p : Progress σ}

/-! ## Terminals -/

theorem isClass_of_takes {kind : Kind} {c : Char} (takes : kind.Takes c) : kind.IsClass := by
  cases kind <;> first | exact takes.elim | trivial

theorem accepts_iff_takes {kind : Kind} (single : kind.IsClass) (c : Char) :
    kind.accepts c = true ↔ kind.Takes c := by
  cases kind with
  | charSet members negated => cases negated <;> simp [Kind.accepts, Kind.Takes]
  | charRange low high negated =>
    cases negated <;> simp [Kind.accepts, Kind.Takes, Decidable.imp_iff_not_or]
  | _ => exact absurd single id

/-- A text does not stand here exactly where what is left starts otherwise. -/
theorem afterText?_eq_none_iff (here : Cursor) (text : List Char) :
    here.afterText? text = none ↔ ¬ text <+: here.rest := by
  constructor
  · rintro absent ⟨rest, starts⟩
    have found := (Cursor.afterText?_eq_some_iff here ⟨here.offset + Text.byteLength text, rest⟩ text).mpr
      ⟨starts.symm, rfl⟩
    rw [absent] at found
    cases found
  · intro differs
    refine Option.eq_none_iff_forall_ne_some.mpr ?_
    intro stop found
    exact differs ⟨_, ((Cursor.afterText?_eq_some_iff here stop text).mp found).1.symm⟩

/-- There is no step over a character exactly where the next one is refused or there is none. -/
theorem afterChar?_eq_none_iff (here : Cursor) (accepts : Char → Bool) :
    here.afterChar? accepts = none ↔ ∀ c ∈ here.rest.head?, accepts c = false := by
  obtain ⟨offset, rest⟩ := here
  cases rest with
  | nil => simp [Cursor.afterChar?]
  | cons c rest => simp [Cursor.afterChar?]

/-! ## What a visit comes to is derived -/

/-- An attempt at a node that ended otherwise than by a stop has a derivation, and its table is the one
that it began with and behind it the rows of the tree. -/
def Faithful (g : Grammar) (id : NodeId) (here : Cursor) (p : Progress σ) : Attempt σ → Prop
  | (.matched (r, stop), q) =>
    ∃ tree, Derives g id here (some (tree, stop)) ∧ r = tree.top p.nodes.size ∧
      q.nodes.rows = p.nodes.rows ++ tree.rows p.nodes.size none
  | (.failed, q) => Derives g id here none ∧ ∃ rows, q.nodes.rows = p.nodes.rows ++ rows
  | (.stopped _, _) => True

/-- The same of attempts in a row. -/
def FaithfulAll (g : Grammar) (ids : List NodeId) (here : Cursor) (p : Progress σ) : Attempts σ → Prop
  | (.matched (rs, stop), q) =>
    ∃ trees, DerivesAll g ids here (some (trees, stop)) ∧ rs = DerivedTree.tops p.nodes.size trees ∧
      q.nodes.rows = p.nodes.rows ++ DerivedTree.listRows p.nodes.size none trees
  | (.failed, q) => DerivesAll g ids here none ∧ ∃ rows, q.nodes.rows = p.nodes.rows ++ rows
  | (.stopped _, _) => True

/-- A visit that is faithful wherever it is made, and that restores the table when it fails. -/
def Visit.Faithful (g : Grammar) (visit : Visit σ) : Prop :=
  ∀ id here p, Match.Faithful g id here p (visit id here p) ∧
    ∀ q, visit id here p = (.failed, q) → q.nodes = p.nodes

/-- A node built over the trees that its children left at the end of the table. -/
theorem interior_faithful {q : Progress σ} {stop : Cursor} {trees : List DerivedTree}
    (laid : q.nodes.rows = p.nodes.rows ++ DerivedTree.listRows p.nodes.size none trees)
    (derives : Derives g id here (some (.spanning g id here stop trees, stop))) :
    Faithful g id here p (q.interior g id here stop (DerivedTree.tops p.nodes.size trees)) := by
  refine ⟨_, derives, ?_, ParseTree.Builder.rows_interior laid ..⟩
  rw [← q.nodes.length_rows, laid, List.length_append, p.nodes.length_rows, DerivedTree.length_listRows]
  rfl

theorem leaf_faithful {stop : Cursor}
    (derives : Derives g id here (some (.spanning g id here stop [], stop))) :
    Faithful g id here p (p.leaf g id here stop) :=
  interior_faithful (List.append_nil _).symm derives

theorem miss_faithful (lookahead : Nat) (derives : Derives g id here none) :
    Faithful g id here p (p.miss lookahead here) := by
  refine ⟨derives, [], ?_⟩
  rw [List.append_nil]
  split <;> rfl

theorem terminal_faithful (lookahead : Nat) (stop? : Option Cursor)
    (present : ∀ stop ∈ stop?, Derives g id here (some (.spanning g id here stop [], stop)))
    (absent : stop? = none → Derives g id here none) :
    Faithful g id here p (p.terminal g id lookahead here stop?) := by
  cases stop? with
  | some stop => exact leaf_faithful (present stop rfl)
  | none => exact miss_faithful lookahead (absent rfl)

theorem inSequence_faithful {visit : Visit σ} (faithful : visit.Faithful g) (ids : List NodeId)
    (here : Cursor) (p : Progress σ) : FaithfulAll g ids here p (inSequence visit ids here p) := by
  induction ids generalizing here p with
  | nil => exact ⟨[], .nil, rfl, (List.append_nil _).symm⟩
  | cons id ids ih =>
    have head := (faithful id here p).1
    unfold inSequence
    split
    · next r next q step =>
      rw [step] at head
      obtain ⟨tree, derives, rfl, laid⟩ := head
      have size : q.nodes.size = p.nodes.size + tree.size := by
        rw [← q.nodes.length_rows, laid, List.length_append, p.nodes.length_rows, DerivedTree.length_rows]
      have tail := ih next q
      split
      · next rs stop last step =>
        rw [step] at tail
        obtain ⟨trees, all, rfl, more⟩ := tail
        refine ⟨tree :: trees, .cons derives all, by rw [size, DerivedTree.tops], ?_⟩
        rw [more, laid, size, DerivedTree.listRows, List.append_assoc]
      · next last step =>
        rw [step] at tail
        obtain ⟨none, rows, more⟩ := tail
        exact ⟨.tailFails derives none, _, by rw [more, laid, List.append_assoc]⟩
      · trivial
    · next q step =>
      rw [step] at head
      exact ⟨.headFails head.1, head.2⟩
    · trivial

theorem firstOf_faithful {visit : Visit σ} (faithful : visit.Faithful g) (tracer : Tracer σ)
    (choice : NodeId) (name : Option String) (ids : List NodeId) (here : Cursor) (p : Progress σ) :
    match firstOf visit tracer choice name ids here p with
    | (.matched (r, stop), q) =>
      ∃ tree, DerivesFirst g ids here (some (tree, stop)) ∧ r = tree.top p.nodes.size ∧
        q.nodes.rows = p.nodes.rows ++ (tree.called name).rows p.nodes.size none
    | (.failed, q) => DerivesFirst g ids here none ∧ q.nodes = p.nodes
    | (.stopped _, _) => True := by
  induction ids generalizing p with
  | nil => exact ⟨.nil, rfl⟩
  | cons id ids ih =>
    obtain ⟨head, restores⟩ := faithful id here p
    unfold firstOf
    cases step : visit id here p with
    | mk verdict q =>
      rw [step] at head
      cases verdict with
      | matched found =>
        obtain ⟨tree, derives, place, laid⟩ := head
        refine ⟨tree, .here derives, place, ?_⟩
        rw [place]
        exact ParseTree.Builder.rows_inheritName laid name
      | failed =>
        -- What failed has taken its nodes back, so the next alternative starts where this one did.
        have same := restores q step
        have rest := ih (if ids.isEmpty then q else q.record tracer (.backtrack choice here.offset))
        have nodes : (if ids.isEmpty then q
            else q.record tracer (.backtrack choice here.offset)).nodes = p.nodes := by
          rw [← same]
          split <;> rfl
        dsimp only
        rw [nodes] at rest
        split at rest
        · obtain ⟨tree, first, place, laid⟩ := rest
          exact ⟨tree, .later head.1 first, place, laid⟩
        · exact ⟨.later head.1 rest.1, rest.2⟩
        · trivial
      | stopped fault => trivial

theorem greedily_faithful {visit : Visit σ} (faithful : visit.Faithful g) (id : NodeId)
    (rounds : Nat) (earlier : List Ref) (here : Cursor) (p : Progress σ) :
    match greedily visit id rounds earlier here p with
    | (.matched (rs, stop), q) =>
      ∃ trees, DerivesMore g id here trees stop ∧
        rs = earlier.reverse ++ DerivedTree.tops p.nodes.size trees ∧
        q.nodes.rows = p.nodes.rows ++ DerivedTree.listRows p.nodes.size none trees
    | (.failed, _) => False
    | (.stopped _, _) => True := by
  induction rounds generalizing earlier here p with
  | zero => trivial
  | succ rounds ih =>
    obtain ⟨head, restores⟩ := faithful id here p
    unfold greedily
    cases step : visit id here p with
    | mk verdict q =>
      rw [step] at head
      cases verdict with
      | matched found =>
        obtain ⟨r, next⟩ := found
        obtain ⟨tree, derives, rfl, laid⟩ := head
        dsimp only
        -- A round that took nothing stops the run, and every other one leaves less to take.
        by_cases idle : next.offset = here.offset
        · rw [if_pos idle]
          trivial
        · rw [if_neg idle]
          have advances : here.offset < next.offset :=
            Nat.lt_of_le_of_ne derives.offset_le (Ne.symm idle)
          have size : q.nodes.size = p.nodes.size + tree.size := by
            rw [← q.nodes.length_rows, laid, List.length_append, p.nodes.length_rows, DerivedTree.length_rows]
          have again := ih (tree.top p.nodes.size :: earlier) next q
          split at again
          · obtain ⟨trees, more, rfl, longer⟩ := again
            refine ⟨tree :: trees, .more derives advances more, ?_, ?_⟩
            · rw [List.reverse_cons, List.append_assoc, size]
              rfl
            · rw [longer, laid, size, DerivedTree.listRows, List.append_assoc]
          · exact again
          · trivial
      | failed =>
        refine ⟨[], .stop head.1, (List.append_nil _).symm, ?_⟩
        rw [restores q step]
        exact (List.append_nil _).symm
      | stopped fault => trivial

/-- The place behind a character that is taken, or a failure. -/
theorem afterChar?_faithful (single : (g.kind id).IsClass) (lookahead : Nat) :
    Faithful g id here p
      (p.terminal g id lookahead here (here.afterChar? fun c => (g.kind id).accepts c)) := by
  refine terminal_faithful lookahead _ ?_ ?_
  · intro stop found
    obtain ⟨c, accepted, rest, offset⟩ := (Cursor.afterChar?_eq_some_iff here stop _).mp found
    exact .character ((accepts_iff_takes single c).mp accepted) ⟨rest, offset⟩
  · intro absent
    refine .characterFails single ?_
    intro c first takes
    have refused := (afterChar?_eq_none_iff here _).mp absent c first
    rw [(accepts_iff_takes single c).mpr takes] at refused
    cases refused

theorem attempt_faithful {visit : Nat → Visit σ} (faithful : ∀ lookahead, (visit lookahead).Faithful g)
    (tracer : Tracer σ) (lookahead : Nat) (id : NodeId) (here : Cursor) (p : Progress σ) :
    Faithful g id here p (attempt g tracer visit lookahead id here p) := by
  unfold attempt
  split
  · next text kind =>
    refine terminal_faithful lookahead _ ?_ ?_
    · intro stop found
      exact .literal kind ((Cursor.afterText?_eq_some_iff here stop text).mp found)
    · intro absent
      exact .literalFails kind ((afterText?_eq_none_iff here text).mp absent)
  · next parts kind =>
    have all := inSequence_faithful (faithful lookahead) parts here p
    unfold FaithfulAll at all
    split at all
    · next rs stop q step =>
      obtain ⟨trees, derives, rfl, laid⟩ := all
      rw [step]
      exact interior_faithful laid (.sequence kind derives)
    · next q step =>
      rw [step]
      exact ⟨.sequenceFails kind all.1, all.2⟩
    · next step =>
      rw [step]
      trivial
  · next alternatives kind =>
    have first := firstOf_faithful (faithful lookahead) tracer id (g.name id) alternatives here p
    split at first
    · next step =>
      obtain ⟨tree, derives, place, laid⟩ := first
      rw [step]
      exact ⟨_, .choice kind derives, by rw [place, DerivedTree.top_called], laid⟩
    · next step =>
      rw [step]
      exact ⟨.choiceFails kind first.1, [], by rw [first.2, List.append_nil]⟩
    · next step =>
      rw [step]
      trivial
  · next child kind =>
    have more := greedily_faithful (faithful lookahead) child p.fuel [] here p
    split at more
    · next rs stop q step =>
      obtain ⟨trees, derives, rfl, laid⟩ := more
      rw [step]
      cases trees with
      | nil =>
        -- No round went well: the repetition fails and has laid nothing.
        refine ⟨.repetitionFails kind ?_, [], laid⟩
        cases derives with
        | stop never => exact never
      | cons tree trees => exact interior_faithful laid (.repetition kind derives)
    · exact more.elim
    · next step =>
      rw [step]
      trivial
  · next child kind =>
    obtain ⟨only, restores⟩ := faithful lookahead child here p
    cases step : visit lookahead child here p with
    | mk verdict q =>
      rw [step] at only
      cases verdict with
      | matched found =>
        obtain ⟨tree, derives, place, laid⟩ := only
        obtain ⟨r, stop⟩ := found
        subst place
        have row : DerivedTree.listRows p.nodes.size none [tree] = tree.rows p.nodes.size none :=
          List.append_nil _
        exact interior_faithful (row ▸ laid) (.optional kind derives)
      | failed =>
        refine interior_faithful ?_ (.optionalSkips kind only.1)
        rw [restores q step]
        exact (List.append_nil _).symm
      | stopped fault => trivial
  · next child kind =>
    obtain ⟨only, restores⟩ := faithful (lookahead + 1) child here p
    cases step : visit (lookahead + 1) child here p with
    | mk verdict q =>
      rw [step] at only
      -- Whatever was laid to look ahead is taken back.
      have cut : ∀ rows, q.nodes.rows = p.nodes.rows ++ rows →
          (q.nodes.truncate p.nodes.size).rows = p.nodes.rows := by
        intro rows laid
        rw [ParseTree.Builder.rows_truncate, laid, ← p.nodes.length_rows, List.take_left]
      cases verdict with
      | matched found =>
        obtain ⟨tree, derives, _, laid⟩ := only
        exact ⟨.negationFails kind derives, [], by rw [List.append_nil]; exact cut _ laid⟩
      | failed =>
        obtain ⟨none, rows, laid⟩ := only
        refine interior_faithful ?_ (.negation kind none)
        exact (cut rows laid).trans (List.append_nil _).symm
      | stopped fault => trivial
  · next kind =>
    refine terminal_faithful lookahead _ ?_ ?_
    · intro stop found
      unfold Cursor.atEnd? at found
      split at found
      · next empty =>
        cases found
        exact .endOfInput kind (List.isEmpty_iff.mp empty)
      · cases found
    · intro absent
      refine .endOfInputFails kind ?_
      intro empty
      rw [Cursor.atEnd?, if_pos (List.isEmpty_iff.mpr empty)] at absent
      cases absent
  · trivial
  · refine afterChar?_faithful ?_ lookahead
    cases kind : g.kind id <;> simp_all [Kind.IsClass]

/-- **What a visit comes to is derived**, and its table is the one that it began with and behind it the
rows of what was derived; where it failed, its table is the one that it began with. -/
theorem visit_faithful (g : Grammar) (tracer : Tracer σ) (levels lookahead : Nat) :
    (visit g tracer levels lookahead).Faithful g := by
  induction levels generalizing lookahead with
  | zero =>
    intro id here p
    unfold visit
    split <;> exact ⟨trivial, fun q => nofun⟩
  | succ levels ih =>
    intro id here p
    unfold visit
    split
    · exact ⟨trivial, fun q => nofun⟩
    · have own := attempt_faithful ih tracer lookahead id here
        (p.spend.record tracer (.enter id here.offset))
      unfold Match.Faithful at own
      split at own
      · next step =>
        rw [step]
        exact ⟨own, fun q => nofun⟩
      · next step =>
        rw [step]
        obtain ⟨derives, rows, laid⟩ := own
        -- A call that fails cuts off what it has laid, and its attempt has only laid something behind what there was.
        have same : ∀ q : Progress σ, q.nodes.rows = p.nodes.rows ++ rows →
            q.nodes.truncate p.nodes.size = p.nodes := by
          intro q laid
          refine ParseTree.Builder.ext_rows ?_
          rw [ParseTree.Builder.rows_truncate, laid, ← p.nodes.length_rows, List.take_left]
        refine ⟨⟨derives, [], ?_⟩, ?_⟩
        · rw [List.append_nil]
          exact congrArg _ (same _ laid)
        · intro q concluded
          cases concluded
          exact same _ laid
      · next step =>
        rw [step]
        exact ⟨trivial, fun q => nofun⟩

/-! ## What is derived a visit comes to -/

/-- A fault that tells nothing but that a limit was below what is needed. -/
def Fault.Trips (cost height : Nat) (limits : Limits) : Fault → Prop
  | fuelExhausted => limits.fuel < cost
  | depthExceeded => limits.depth < height
  | _ => False

/-- Limits that are large enough are not reached. -/
theorem Fault.not_trips {cost height : Nat} {limits : Limits} {fault : Fault} (fuel : cost ≤ limits.fuel)
    (depth : height ≤ limits.depth) : ¬ fault.Trips cost height limits := by
  intro trips
  match fault, trips with
  | fuelExhausted, trips => exact Nat.not_lt.mpr fuel trips
  | depthExceeded, trips => exact Nat.not_lt.mpr depth trips

theorem Fault.Trips.mono {cost height more higher : Nat} {limits tighter : Limits} {fault : Fault}
    (h : fault.Trips cost height limits) (fuel : tighter.fuel + cost ≤ limits.fuel + more)
    (depth : tighter.depth + height ≤ limits.depth + higher) : fault.Trips more higher tighter := by
  match fault, h with
  | fuelExhausted, h =>
    have small : limits.fuel < cost := h
    exact show tighter.fuel < more by omega
  | depthExceeded, h =>
    have small : limits.depth < height := h
    exact show tighter.depth < higher by omega

/-- A match that ends at a place, or a failure. -/
def EndsAt {α : Type} (stop? : Option Cursor) : Verdict (α × Cursor) → Prop
  | .matched (_, stop) => stop? = some stop
  | .failed => stop? = none
  | .stopped _ => False

/-- Visits that need fuel `cost` and `height` levels: they ended as they should and spent from `least` up to
`cost`, or a limit that was too small stopped them. -/
def Settled {α : Type} (least cost height levels : Nat) (ended : Verdict α → Prop) (p : Progress σ)
    (a : Verdict α × Progress σ) : Prop :=
  (ended a.1 ∧ a.2.fuel + least ≤ p.fuel ∧ p.fuel ≤ a.2.fuel + cost) ∨
    ∃ fault, a.1 = .stopped fault ∧ fault.Trips cost height ⟨p.fuel, levels⟩

/-- Every visit to a node at a place, with whatever limits, ends in one way or is stopped by a limit below
bounds that depend on the node and the place alone. -/
def Attained (g : Grammar) (id : NodeId) (here : Cursor) (stop? : Option Cursor) : Prop :=
  ∃ cost height, ∀ {σ : Type} (tracer : Tracer σ) (levels lookahead : Nat) (p : Progress σ),
    Settled 1 cost height levels (EndsAt stop?) p (visit g tracer levels lookahead id here p)

/-- An attempt that settles makes a visit that does, at the cost of one visit and one level. -/
theorem attained_of_attempt {stop? : Option Cursor} (cost height : Nat)
    (settles : ∀ {σ : Type} (tracer : Tracer σ) (levels lookahead : Nat) (p : Progress σ),
      Settled 0 cost height levels (EndsAt stop?) p
        (attempt g tracer (visit g tracer levels) lookahead id here p)) :
    Attained g id here stop? := by
  refine ⟨cost + 1, height + 1, ?_⟩
  intro σ tracer levels lookahead p
  cases levels with
  | zero =>
    unfold visit
    split
    · next empty => exact .inr ⟨_, rfl, show p.fuel < cost + 1 by omega⟩
    · exact .inr ⟨_, rfl, show 0 < height + 1 from Nat.succ_pos height⟩
  | succ levels =>
    unfold visit
    split
    · next empty => exact .inr ⟨_, rfl, show p.fuel < cost + 1 by omega⟩
    · next left =>
      have own := settles tracer levels lookahead (p.spend.record tracer (.enter id here.offset))
      have spent : (p.spend.record tracer (.enter id here.offset)).fuel + 1 = p.fuel :=
        Nat.succ_pred_eq_of_ne_zero left
      generalize p.spend.record tracer (.enter id here.offset) = start at own spent
      generalize attempt g tracer (visit g tracer levels) lookahead id here start = a at own
      -- Concluding reports and takes nodes back; neither the verdict nor the fuel depends on it.
      have kept : (conclude tracer id here p.nodes.size a).1 = a.1 ∧
          (conclude tracer id here p.nodes.size a).2.fuel = a.2.fuel := by
        unfold conclude
        split <;> exact ⟨rfl, rfl⟩
      unfold Settled
      rw [kept.1, kept.2]
      obtain ⟨ends, least, enough⟩ | ⟨fault, stops, trips⟩ := own
      · exact .inl ⟨ends, by omega, by omega⟩
      · exact .inr ⟨fault, stops, trips.mono (by dsimp only; omega) (by dsimp only; omega)⟩

section

variable {α : Type} {least cost height levels : Nat} {a : Verdict (α × Cursor) × Progress σ}

/-- Visits that should match did, or were stopped by a limit. -/
theorem Settled.of_matched {stop : Cursor}
    (h : Settled least cost height levels (EndsAt (some stop)) p a) :
    (∃ r q, a = (.matched (r, stop), q) ∧ q.fuel + least ≤ p.fuel ∧ p.fuel ≤ q.fuel + cost) ∨
      ∃ fault q, a = (.stopped fault, q) ∧ fault.Trips cost height ⟨p.fuel, levels⟩ := by
  match a, h with
  | (.matched (r, _), q), .inl ⟨rfl, spent, enough⟩ => exact .inl ⟨r, q, rfl, spent, enough⟩
  | (.stopped fault, q), .inr ⟨_, rfl, trips⟩ => exact .inr ⟨fault, q, rfl, trips⟩

/-- Visits that should fail did, or were stopped by a limit. -/
theorem Settled.of_failed (h : Settled least cost height levels (EndsAt none) p a) :
    (∃ q, a = (.failed, q) ∧ q.fuel + least ≤ p.fuel ∧ p.fuel ≤ q.fuel + cost) ∨
      ∃ fault q, a = (.stopped fault, q) ∧ fault.Trips cost height ⟨p.fuel, levels⟩ := by
  match a, h with
  | (.failed, q), .inl ⟨_, spent, enough⟩ => exact .inl ⟨q, rfl, spent, enough⟩
  | (.stopped fault, q), .inr ⟨_, rfl, trips⟩ => exact .inr ⟨fault, q, rfl, trips⟩

end

/-- A terminal costs nothing beyond its own visit. -/
theorem settled_terminal {levels lookahead : Nat} (stop? : Option Cursor) :
    Settled 0 0 0 levels (EndsAt stop?) p (p.terminal g id lookahead here stop?) := by
  cases stop? with
  | some stop => exact .inl ⟨rfl, Nat.le_refl _, Nat.le_refl _⟩
  | none =>
    refine .inl ⟨rfl, ?_⟩
    simp only [Progress.terminal, Progress.miss]
    split <;> exact ⟨Nat.le_refl _, Nat.le_refl _⟩

section

variable {ids : List NodeId} {next stop : Cursor} {stop? : Option Cursor} {cost more height higher levels : Nat}
  {visit : Visit σ} {choice : NodeId} {name : Option String}

/-! ### Visits in a row -/

theorem settled_cons
    (head : Settled 1 cost height levels (EndsAt (some next)) p (visit id here p))
    (tail : ∀ q : Progress σ,
      Settled 0 more higher levels (EndsAt stop?) q (inSequence visit ids next q)) :
    Settled 0 (cost + more) (max height higher) levels (EndsAt stop?) p
      (inSequence visit (id :: ids) here p) := by
  unfold inSequence
  obtain ⟨r, q, step, spent, enough⟩ | ⟨fault, q, step, trips⟩ := head.of_matched
  · rw [step]
    have rest := tail q
    cases stop? with
    | some stop =>
      obtain ⟨rs, last, step', spent', enough'⟩ | ⟨fault, last, step', trips⟩ := rest.of_matched
      · simp only [step']
        exact .inl ⟨rfl, by dsimp only; omega, by dsimp only; omega⟩
      · simp only [step']
        exact .inr ⟨fault, rfl, trips.mono (by dsimp only; omega) (by dsimp only; omega)⟩
    | none =>
      obtain ⟨last, step', spent', enough'⟩ | ⟨fault, last, step', trips⟩ := rest.of_failed
      · simp only [step']
        exact .inl ⟨rfl, by dsimp only; omega, by dsimp only; omega⟩
      · simp only [step']
        exact .inr ⟨fault, rfl, trips.mono (by dsimp only; omega) (by dsimp only; omega)⟩
  · rw [step]
    exact .inr ⟨fault, rfl, trips.mono (by dsimp only; omega) (by dsimp only; omega)⟩

theorem settled_headFails
    (head : Settled 1 cost height levels (EndsAt none) p (visit id here p)) :
    Settled 0 cost height levels (EndsAt none) p
      (inSequence visit (id :: ids) here p) := by
  unfold inSequence
  obtain ⟨q, step, spent, enough⟩ | ⟨fault, q, step, trips⟩ := head.of_failed
  · rw [step]
    exact .inl ⟨rfl, by dsimp only; omega, enough⟩
  · rw [step]
    exact .inr ⟨fault, rfl, trips⟩

/-! ### Alternatives -/

theorem settled_here
    (head : Settled 1 cost height levels (EndsAt (some stop)) p (visit id here p)) :
    Settled 0 cost height levels (EndsAt (some stop)) p
      (firstOf visit tracer choice name (id :: ids) here p) := by
  unfold firstOf
  obtain ⟨r, q, step, spent, enough⟩ | ⟨fault, q, step, trips⟩ := head.of_matched
  · rw [step]
    exact .inl ⟨rfl, by dsimp only; omega, enough⟩
  · rw [step]
    exact .inr ⟨fault, rfl, trips⟩

theorem settled_later
    (head : Settled 1 cost height levels (EndsAt none) p (visit id here p))
    (tail : ∀ q : Progress σ, Settled 0 more higher levels (EndsAt stop?) q
      (firstOf visit tracer choice name ids here q)) :
    Settled 0 (cost + more) (max height higher) levels (EndsAt stop?) p
      (firstOf visit tracer choice name (id :: ids) here p) := by
  unfold firstOf
  obtain ⟨q, step, spent, enough⟩ | ⟨fault, q, step, trips⟩ := head.of_failed
  · rw [step]
    have rest := tail (if ids.isEmpty then q else q.record tracer (.backtrack choice here.offset))
    have fuel : (if ids.isEmpty then q
        else q.record tracer (.backtrack choice here.offset)).fuel = q.fuel := by
      split <;> rfl
    obtain ⟨ends, spent', enough'⟩ | ⟨fault, stops, trips⟩ := rest
    · exact .inl ⟨ends, by dsimp only; omega, by dsimp only; omega⟩
    · exact .inr ⟨fault, stops, trips.mono (by dsimp only; omega) (by dsimp only; omega)⟩
  · rw [step]
    exact .inr ⟨fault, rfl, trips.mono (by dsimp only; omega) (by dsimp only; omega)⟩

/-! ### Rounds -/

/-- So many rounds more, the last of which ended at a place. -/
def EndsMore (earlier : List Ref) (count : Nat) (stop : Cursor) :
    Verdict (List Ref × Cursor) → Prop :=
  fun verdict => ∃ rs, verdict = .matched (earlier.reverse ++ rs, stop) ∧ rs.length = count

theorem settled_stop {rounds : Nat} (earlier : List Ref) (bound : p.fuel ≤ rounds)
    (fails : Settled 1 cost height levels (EndsAt none) p (visit id here p)) :
    Settled 0 (cost + 1) height levels (EndsMore earlier 0 here) p
      (greedily visit id rounds earlier here p) := by
  cases rounds with
  | zero => exact .inr ⟨_, rfl, show p.fuel < _ + 1 by omega⟩
  | succ rounds =>
    unfold greedily
    obtain ⟨q, step, spent, enough⟩ | ⟨fault, q, step, trips⟩ := fails.of_failed
    · rw [step]
      refine .inl ⟨⟨[], ?_, rfl⟩, by dsimp only; omega, by dsimp only; omega⟩
      rw [List.append_nil]
    · rw [step]
      exact .inr ⟨fault, rfl, trips.mono (by dsimp only; omega) (by dsimp only; omega)⟩

theorem settled_more {rounds count : Nat} {earlier : List Ref} (bound : p.fuel ≤ rounds)
    (advances : here.offset < next.offset)
    (once : Settled 1 cost height levels (EndsAt (some next)) p (visit id here p))
    (again : ∀ (q : Progress σ) (rounds : Nat) (earlier : List Ref), q.fuel ≤ rounds →
      Settled 0 more higher levels (EndsMore earlier count stop) q
        (greedily visit id rounds earlier next q)) :
    Settled 0 (cost + more + 1) (max height higher) levels (EndsMore earlier (count + 1) stop) p
      (greedily visit id rounds earlier here p) := by
  cases rounds with
  | zero => exact .inr ⟨_, rfl, show p.fuel < _ + 1 by omega⟩
  | succ rounds =>
    unfold greedily
    obtain ⟨r, q, step, spent, enough⟩ | ⟨fault, q, step, trips⟩ := once.of_matched
    · rw [step]
      dsimp only
      rw [if_neg (Nat.ne_of_gt advances)]
      have rest := again q rounds (r :: earlier) (by omega)
      obtain ⟨⟨rs, ends, length⟩, spent', enough'⟩ | ⟨fault, stops, trips⟩ := rest
      · refine .inl ⟨⟨r :: rs, ?_, ?_⟩, by omega, by omega⟩
        · rw [ends, List.reverse_cons, List.append_assoc, List.singleton_append]
        · rw [List.length_cons, length]
      · exact .inr ⟨fault, stops, trips.mono (by dsimp only; omega) (by dsimp only; omega)⟩
    · rw [step]
      exact .inr ⟨fault, rfl, trips.mono (by dsimp only; omega) (by dsimp only; omega)⟩

end

/-! ### Derivations -/

theorem attempt_of_class (single : (g.kind id).IsClass) (visit : Nat → Visit σ) (lookahead : Nat) :
    attempt g tracer visit lookahead id here p =
      p.terminal g id lookahead here (here.afterChar? fun c => (g.kind id).accepts c) := by
  unfold attempt
  split
  · simp_all [Kind.IsClass]
  all_goals first | rfl | simp_all [Kind.IsClass]

mutual

/-- What is derived every visit comes to, up to limits that are too small. -/
theorem Derives.attained : ∀ {id here result}, Derives g id here result →
    Attained g id here (result.map Prod.snd)
  | _, here, _, .literal kind spans => attained_of_attempt 0 0 fun _ _ _ _ => by
    simp only [attempt, kind, (Cursor.afterText?_eq_some_iff here _ _).mpr spans]
    exact settled_terminal _
  | _, here, _, .literalFails kind differs => attained_of_attempt 0 0 fun _ _ _ _ => by
    simp only [attempt, kind, (afterText?_eq_none_iff here _).mpr differs]
    exact settled_terminal _
  | id, here, _, .character takes spans => attained_of_attempt 0 0 fun _ _ _ _ => by
    have single := isClass_of_takes takes
    have found : (here.afterChar? fun c => (g.kind id).accepts c) = some _ :=
      (Cursor.afterChar?_eq_some_iff here _ _).mpr
        ⟨_, (accepts_iff_takes single _).mpr takes, spans.1, spans.2⟩
    rw [attempt_of_class single, found]
    exact settled_terminal _
  | id, here, _, .characterFails single refused => attained_of_attempt 0 0 fun _ _ _ _ => by
    have absent : (here.afterChar? fun c => (g.kind id).accepts c) = none := by
      refine (afterChar?_eq_none_iff here _).mpr ?_
      intro c first
      exact Bool.eq_false_iff.mpr (mt (accepts_iff_takes single c).mp (refused c first))
    rw [attempt_of_class single, absent]
    exact settled_terminal _
  | _, here, _, .sequence kind all => by
    obtain ⟨cost, height, settles⟩ := all.settles
    refine attained_of_attempt cost height fun tracer levels lookahead p => ?_
    have own := settles tracer levels lookahead p
    simp only [attempt, kind]
    obtain ⟨rs, q, step, spent, enough⟩ | ⟨fault, q, step, trips⟩ := own.of_matched
    · rw [step]
      exact .inl ⟨rfl, spent, enough⟩
    · rw [step]
      exact .inr ⟨fault, rfl, trips⟩
  | _, here, _, .sequenceFails kind all => by
    obtain ⟨cost, height, settles⟩ := all.settles
    refine attained_of_attempt cost height fun tracer levels lookahead p => ?_
    have own := settles tracer levels lookahead p
    simp only [attempt, kind]
    obtain ⟨q, step, spent, enough⟩ | ⟨fault, q, step, trips⟩ := own.of_failed
    · rw [step]
      exact .inl ⟨rfl, spent, enough⟩
    · rw [step]
      exact .inr ⟨fault, rfl, trips⟩
  | id, here, _, .choice kind first => by
    obtain ⟨cost, height, settles⟩ := first.settles
    refine attained_of_attempt cost height fun tracer levels lookahead p => ?_
    simp only [attempt, kind]
    exact settles tracer levels lookahead id (g.name id) p
  | id, here, _, .choiceFails kind first => by
    obtain ⟨cost, height, settles⟩ := first.settles
    refine attained_of_attempt cost height fun tracer levels lookahead p => ?_
    simp only [attempt, kind]
    exact settles tracer levels lookahead id (g.name id) p
  -- The rounds are given all the fuel that there is, which is more of them than there can be visits.
  | _, here, _, .repetition kind rounds => by
    obtain ⟨cost, height, settles⟩ := rounds.settles
    refine attained_of_attempt cost height fun tracer levels lookahead p => ?_
    have own := settles tracer levels lookahead p p.fuel [] (Nat.le_refl _)
    simp only [attempt, kind]
    generalize greedily (visit g tracer levels lookahead) _ p.fuel [] here p = a at own
    obtain ⟨⟨rs, ends, length⟩, spent, enough⟩ | ⟨fault, stops, trips⟩ := own
    · obtain ⟨verdict, q⟩ := a
      cases ends
      cases rs with
      | nil => cases length
      | cons r rs => exact .inl ⟨rfl, spent, enough⟩
    · obtain ⟨verdict, q⟩ := a
      cases stops
      exact .inr ⟨fault, rfl, trips⟩
  -- One round is begun and fails, so what it costs is what its visit does and the round itself.
  | _, here, _, .repetitionFails kind never => by
    obtain ⟨cost, height, settles⟩ := never.attained
    refine attained_of_attempt (cost + 1) height fun tracer levels lookahead p => ?_
    have own := settled_stop [] (Nat.le_refl p.fuel) (settles tracer levels lookahead p)
    simp only [attempt, kind]
    generalize greedily (visit g tracer levels lookahead) _ p.fuel [] here p = a at own
    obtain ⟨⟨rs, ends, length⟩, spent, enough⟩ | ⟨fault, stops, trips⟩ := own
    · obtain ⟨verdict, q⟩ := a
      cases ends
      cases List.eq_nil_of_length_eq_zero length
      exact .inl ⟨rfl, spent, enough⟩
    · obtain ⟨verdict, q⟩ := a
      cases stops
      exact .inr ⟨fault, rfl, trips⟩
  | _, here, _, .optional kind present => by
    obtain ⟨cost, height, settles⟩ := present.attained
    refine attained_of_attempt cost height fun tracer levels lookahead p => ?_
    have own := settles tracer levels lookahead p
    simp only [attempt, kind]
    obtain ⟨r, q, step, spent, enough⟩ | ⟨fault, q, step, trips⟩ := own.of_matched
    · rw [step]
      exact .inl ⟨rfl, Nat.le_of_succ_le spent, enough⟩
    · rw [step]
      exact .inr ⟨fault, rfl, trips⟩
  | _, here, _, .optionalSkips kind absent => by
    obtain ⟨cost, height, settles⟩ := absent.attained
    refine attained_of_attempt cost height fun tracer levels lookahead p => ?_
    have own := settles tracer levels lookahead p
    simp only [attempt, kind]
    obtain ⟨q, step, spent, enough⟩ | ⟨fault, q, step, trips⟩ := own.of_failed
    · rw [step]
      exact .inl ⟨rfl, Nat.le_of_succ_le spent, enough⟩
    · rw [step]
      exact .inr ⟨fault, rfl, trips⟩
  | _, here, _, .negation kind absent => by
    obtain ⟨cost, height, settles⟩ := absent.attained
    refine attained_of_attempt cost height fun tracer levels lookahead p => ?_
    have own := settles tracer levels (lookahead + 1) p
    simp only [attempt, kind]
    obtain ⟨q, step, spent, enough⟩ | ⟨fault, q, step, trips⟩ := own.of_failed
    · rw [step]
      exact .inl ⟨rfl, Nat.le_of_succ_le spent, enough⟩
    · rw [step]
      exact .inr ⟨fault, rfl, trips⟩
  | _, here, _, .negationFails kind present => by
    obtain ⟨cost, height, settles⟩ := present.attained
    refine attained_of_attempt cost height fun tracer levels lookahead p => ?_
    have own := settles tracer levels (lookahead + 1) p
    simp only [attempt, kind]
    obtain ⟨r, q, step, spent, enough⟩ | ⟨fault, q, step, trips⟩ := own.of_matched
    · rw [step]
      exact .inl ⟨rfl, Nat.le_of_succ_le spent, enough⟩
    · rw [step]
      exact .inr ⟨fault, rfl, trips⟩
  | _, here, _, .endOfInput kind rest => attained_of_attempt 0 0 fun _ _ _ _ => by
    simp only [attempt, kind, Cursor.atEnd?, List.isEmpty_iff.mpr rest]
    exact settled_terminal _
  | _, here, _, .endOfInputFails kind left => attained_of_attempt 0 0 fun _ _ _ _ => by
    simp only [attempt, kind, Cursor.atEnd?, if_neg (mt List.isEmpty_iff.mp left)]
    exact settled_terminal _
termination_by structural _ _ _ derives => derives

theorem DerivesAll.settles : ∀ {ids here result}, DerivesAll g ids here result →
    ∃ cost height, ∀ {σ : Type} (tracer : Tracer σ) (levels lookahead : Nat) (p : Progress σ),
      Settled 0 cost height levels (EndsAt (result.map Prod.snd)) p
        (inSequence (visit g tracer levels lookahead) ids here p)
  | _, _, _, .nil => ⟨0, 0, fun _ _ _ _ => .inl ⟨rfl, Nat.le_refl _, Nat.le_refl _⟩⟩
  | _, _, _, .cons head tail =>
    have ⟨_, _, first⟩ := head.attained
    have ⟨_, _, rest⟩ := tail.settles
    ⟨_, _, fun tracer levels lookahead p =>
      settled_cons (first tracer levels lookahead p) (rest tracer levels lookahead)⟩
  | _, _, _, .headFails head =>
    have ⟨_, _, first⟩ := head.attained
    ⟨_, _, fun tracer levels lookahead p => settled_headFails (first tracer levels lookahead p)⟩
  | _, _, _, .tailFails head tail =>
    have ⟨_, _, first⟩ := head.attained
    have ⟨_, _, rest⟩ := tail.settles
    ⟨_, _, fun tracer levels lookahead p =>
      settled_cons (first tracer levels lookahead p) (rest tracer levels lookahead)⟩
termination_by structural _ _ _ derives => derives

theorem DerivesFirst.settles : ∀ {ids here result}, DerivesFirst g ids here result →
    ∃ cost height, ∀ {σ : Type} (tracer : Tracer σ) (levels lookahead : Nat) (choice : NodeId)
      (name : Option String) (p : Progress σ), Settled 0 cost height levels
        (EndsAt (result.map Prod.snd)) p
        (firstOf (visit g tracer levels lookahead) tracer choice name ids here p)
  | _, _, _, .nil => ⟨0, 0, fun _ _ _ _ _ _ => .inl ⟨rfl, Nat.le_refl _, Nat.le_refl _⟩⟩
  | _, _, _, .here head =>
    have ⟨_, _, first⟩ := head.attained
    ⟨_, _, fun tracer levels lookahead _ _ p => settled_here (first tracer levels lookahead p)⟩
  | _, _, _, .later head tail =>
    have ⟨_, _, first⟩ := head.attained
    have ⟨_, _, rest⟩ := tail.settles
    ⟨_, _, fun tracer levels lookahead choice name p =>
      settled_later (first tracer levels lookahead p) (rest tracer levels lookahead choice name)⟩
termination_by structural _ _ _ derives => derives

theorem DerivesMore.settles : ∀ {id here trees stop}, DerivesMore g id here trees stop →
    ∃ cost height, ∀ {σ : Type} (tracer : Tracer σ) (levels lookahead : Nat) (p : Progress σ)
      (rounds : Nat) (earlier : List Ref), p.fuel ≤ rounds → Settled 0 cost height levels
        (EndsMore earlier trees.length stop) p
        (greedily (visit g tracer levels lookahead) id rounds earlier here p)
  | _, _, _, _, .stop fails =>
    have ⟨_, _, last⟩ := fails.attained
    ⟨_, _, fun tracer levels lookahead p _ _ bound =>
      settled_stop _ bound (last tracer levels lookahead p)⟩
  | _, _, _, _, .more once advances again =>
    have ⟨_, _, first⟩ := once.attained
    have ⟨_, _, rest⟩ := again.settles
    ⟨_, _, fun tracer levels lookahead p _ _ bound =>
      settled_more bound advances (first tracer levels lookahead p) (rest tracer levels lookahead)⟩
termination_by structural _ _ _ _ derives => derives

end

/-! ## A whole match -/

/-- An outcome says what a result says: a failure, or a tree and the offset behind it. -/
def Outcome.Reports (outcome : Outcome) (result : Result) : Prop :=
  outcome.found.map (fun found => (found.tree.branch found.tree.root, found.stop)) =
    result.map fun found => (found.1, found.2.offset)

/-- Between two parts of the input a match can begin. -/
theorem ofOffset?_append (before after : List Char) :
    Cursor.ofOffset? (before ++ after) (Text.byteLength before) =
      some ⟨Text.byteLength before, after⟩ := by
  have between : Text.isBoundary (before ++ after) (Text.byteLength before) = true :=
    (Text.isBoundary_iff ..).mpr ⟨before, after, rfl, rfl⟩
  rw [Cursor.ofOffset?, if_pos between, Text.dropBytes_byteLength_append]

/-- A match that begins between two parts of the input is a visit to its node there. -/
theorem traceAt_append (g : Grammar) (id : NodeId) (before after : List Char) (limits : Limits)
    (tracer : Tracer σ) (gathered : σ) :
    traceAt g id (String.ofList (before ++ after)) (Text.byteLength before) limits tracer gathered =
      let last := visit g tracer limits.depth 0 id ⟨Text.byteLength before, after⟩
        (.start limits (Text.byteLength before) gathered)
      (outcome (before ++ after) last, last.2.trace) := by
  rw [traceAt, String.toList_ofList, ofOffset?_append]

/-- What the outermost visit reports. -/
theorem reports_of_faithful {input : List Char} {limits : Limits} {offset : Nat} {gathered : σ}
    {a : Attempt σ} {final : Outcome}
    (faithful : Faithful g id here (.start limits offset gathered) a) (ends : outcome input a = .ok final) :
    ∃ result, Derives g id here result ∧ final.Reports result := by
  match a, faithful with
  | (.matched (r, stop), q), ⟨tree, derives, place, laid⟩ =>
    cases ends
    refine ⟨_, derives, ?_⟩
    subst place
    exact congrArg (fun tree => some (tree, stop.offset)) (ParseTree.branch_finish laid input)
  | (.failed, q), ⟨derives, _⟩ =>
    cases ends
    exact ⟨_, derives, rfl⟩
  | (.stopped _, q), _ => cases ends

/-- What a match reports is derived. -/
theorem derives_of_matchAt {before after : List Char} {limits : Limits} {final : Outcome}
    (ends : matchAt g id (String.ofList (before ++ after)) (Text.byteLength before) limits = .ok final) :
    ∃ result, Derives g id ⟨Text.byteLength before, after⟩ result ∧ final.Reports result := by
  rw [matchAt, traceAt_append] at ends
  exact reports_of_faithful (visit_faithful g .silent limits.depth 0 id _ _).1 ends

/-- Where a match is found, the input is parted at the offset that it began at. -/
theorem parted_of_traceAt {input : String} {offset : Nat} {limits : Limits} {gathered : σ} {found : Found}
    {furthest : Nat}
    (ends : (traceAt g id input offset limits tracer gathered).1 = .ok ⟨some found, furthest⟩) :
    ∃ before after, input = String.ofList (before ++ after) ∧ offset = Text.byteLength before := by
  unfold traceAt Cursor.ofOffset? at ends
  split at ends
  · cases ends
  · next within =>
    split at within
    · next between =>
      obtain ⟨before, after, parts, length⟩ := (Text.isBoundary_iff ..).mp between
      exact ⟨before, after, by rw [← parts, String.ofList_toList], length.symm⟩
    · cases within

/-- The table of a match that was found holds the derived tree and nothing else. -/
theorem laid_of_traceAt {before after : List Char} {limits : Limits} {gathered : σ} {found : Found}
    {furthest : Nat}
    (ends : (traceAt g id (String.ofList (before ++ after)) (Text.byteLength before) limits tracer
      gathered).1 = .ok ⟨some found, furthest⟩) :
    ∃ tree stop, Derives g id ⟨Text.byteLength before, after⟩ (some (tree, stop)) ∧
      found.tree.nodes.toList = tree.rows 0 none ∧ found.tree.root = tree.top 0 ∧
      found.tree.source = before ++ after ∧ found.stop = stop.offset := by
  rw [traceAt_append] at ends
  have faithful := (visit_faithful g tracer limits.depth 0 id ⟨Text.byteLength before, after⟩
    (.start limits (Text.byteLength before) gathered)).1
  dsimp only at ends
  generalize visit g tracer limits.depth 0 id ⟨Text.byteLength before, after⟩
    (.start limits (Text.byteLength before) gathered) = a at ends faithful
  match a, faithful with
  | (.matched (r, stop), q), ⟨tree, derives, place, laid⟩ =>
    cases ends
    exact ⟨tree, stop, derives, laid, place, rfl, rfl⟩
  | (.failed, q), _ => cases ends
  | (.stopped _, q), _ => cases ends

theorem laid_of_matchAt {before after : List Char} {limits : Limits} {found : Found} {furthest : Nat}
    (ends : matchAt g id (String.ofList (before ++ after)) (Text.byteLength before) limits =
      .ok ⟨some found, furthest⟩) :
    ∃ tree stop, Derives g id ⟨Text.byteLength before, after⟩ (some (tree, stop)) ∧
      found.tree.nodes.toList = tree.rows 0 none ∧ found.tree.root = tree.top 0 ∧
      found.tree.source = before ++ after ∧ found.stop = stop.offset :=
  laid_of_traceAt ends

/-- What is derived a match reports, unless a limit below bounds that do not depend on the limits stops
it. -/
theorem matchAt_of_derives {before after : List Char} {result : Result}
    (derives : Derives g id ⟨Text.byteLength before, after⟩ result) :
    ∃ cost height, ∀ limits : Limits,
      let matching :=
        matchAt g id (String.ofList (before ++ after)) (Text.byteLength before) limits
      (∃ final, matching = .ok final ∧ final.Reports result) ∨
        ∃ fault, matching = .error fault ∧ fault.Trips cost height limits := by
  obtain ⟨cost, height, settles⟩ := derives.attained
  refine ⟨cost, height, fun limits => ?_⟩
  have settled := settles .silent limits.depth 0 (.start limits (Text.byteLength before) ())
  have faithful := (visit_faithful g .silent limits.depth 0 id ⟨Text.byteLength before, after⟩
    (.start limits (Text.byteLength before) ())).1
  dsimp only
  rw [matchAt, traceAt_append]
  dsimp only
  generalize visit g .silent limits.depth 0 id ⟨Text.byteLength before, after⟩
    (.start limits (Text.byteLength before) ()) = a at settled faithful
  have report : ∀ {final}, outcome (before ++ after) a = .ok final → final.Reports result := by
    intro final ends
    obtain ⟨other, derives', reports⟩ := reports_of_faithful faithful ends
    rwa [derives.unique derives']
  match a, settled with
  | (.matched _, q), _ => exact .inl ⟨_, rfl, report rfl⟩
  | (.failed, q), _ => exact .inl ⟨_, rfl, report rfl⟩
  | (.stopped fault, q), .inr ⟨_, rfl, trips⟩ => exact .inr ⟨fault, rfl, trips⟩

/-- **Matching is ordered choice.** At every place of every input, an outcome reports the one result that
is derived there; and a result that is derived is reported whenever the limits are large enough. -/
theorem matchAt_reports_derivation (g : Grammar) (id : NodeId) (before after : List Char) :
    (∀ limits final,
      matchAt g id (String.ofList (before ++ after)) (Text.byteLength before) limits = .ok final →
        (∃ result, Derives g id ⟨Text.byteLength before, after⟩ result ∧ final.Reports result) ∧
          ∀ result, Derives g id ⟨Text.byteLength before, after⟩ result → final.Reports result) ∧
      ∀ result, Derives g id ⟨Text.byteLength before, after⟩ result →
        ∃ enough : Limits, ∀ limits : Limits, enough.fuel ≤ limits.fuel → enough.depth ≤ limits.depth →
          ∃ final,
            matchAt g id (String.ofList (before ++ after)) (Text.byteLength before) limits =
              .ok final ∧ final.Reports result := by
  refine ⟨fun limits final ends => ?_, fun result derives => ?_⟩
  · obtain ⟨result, derives, reports⟩ := derives_of_matchAt ends
    refine ⟨⟨result, derives, reports⟩, fun other derives' => ?_⟩
    rwa [derives'.unique derives]
  · obtain ⟨cost, height, settles⟩ := matchAt_of_derives derives
    refine ⟨⟨cost, height⟩, fun limits fuel depth => ?_⟩
    obtain done | ⟨fault, _, trips⟩ := settles limits
    · exact done
    · exact absurd trips (Fault.not_trips fuel depth)

/-- Choices in a choice under a repetition, behind a negation. -/
def letters : Grammar :=
  ⟨#[⟨none, .literal ['a']⟩, ⟨some "inner", .choice [0]⟩, ⟨some "outer", .choice [1, 4]⟩,
    ⟨none, .repetition 2⟩, ⟨none, .literal ['b']⟩, ⟨none, .negation 4⟩, ⟨some "word", .sequence [5, 3]⟩]⟩

/-- The innermost choice with a name gives it, in front of what cannot be matched as well. -/
theorem letters_derived :
    ∃ stop, stop.offset = 3 ∧ Derives letters 6 ⟨1, ['a', 'b', 'c']⟩ (some
      (.node 6 (some "word") ⟨1, 3⟩ [.node 5 none ⟨1, 1⟩ [],
        .node 3 none ⟨1, 3⟩ [.node 0 (some "inner") ⟨1, 2⟩ [], .node 4 (some "outer") ⟨2, 3⟩ []]],
      stop)) := by
  have ends : matchAt letters 6 (String.ofList (['x'] ++ ['a', 'b', 'c'])) (Text.byteLength ['x']) {} =
      .ok ⟨some ⟨⟨['x', 'a', 'b', 'c'],
        #[⟨5, none, ⟨1, 1⟩, none, [], some 4, none⟩, ⟨0, some "inner", ⟨1, 2⟩, none, [], some 3, none⟩,
          ⟨4, some "outer", ⟨2, 3⟩, none, [], some 3, none⟩, ⟨3, none, ⟨1, 3⟩, none, [1, 2], some 4, none⟩,
          ⟨6, some "word", ⟨1, 3⟩, none, [0, 3], none, none⟩], 4⟩, 3⟩, 3⟩ := by
    rfl
  obtain ⟨⟨result, derives, reports⟩, _⟩ :=
    (matchAt_reports_derivation letters 6 ['x'] ['a', 'b', 'c']).1 {} _ ends
  match result, reports with
  | some (tree, stop), reports =>
    obtain ⟨rfl, offset⟩ := Prod.mk.inj (Option.some.inj reports)
    exact ⟨stop, offset.symm, derives⟩

end BnfTokenizer.Match
