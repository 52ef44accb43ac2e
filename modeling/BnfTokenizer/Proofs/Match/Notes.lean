import BnfTokenizer.Proofs.Match.Coverage
import BnfTokenizer.Proofs.Match.Protocol

/-!
# What a match notes on its way

Two things that a match carries survive backtracking: how far a terminal failed, and what the tracer has gathered. They
are its `Notes`. The table is cut back where a node fails, and fuel is only ever spent, but the notes of an attempt that
was given up stay.

`Kept` says what a relation between earlier and later notes has to put up with: no visit and one visit after another, a
stop, a choice that goes on, a terminal that fails, and a node that is entered and left. Whatever relation does, it holds
between the notes before a visit and those after it, in every grammar and under every limit (`visit_carries`). It may
depend on the number of negations that are open, and every offset that it is asked about is a place between two
characters of the source.
-/

namespace BnfTokenizer

/-- A kind that consumes or fails by itself, without visiting a child. -/
def Grammar.Kind.IsTerminal : Grammar.Kind → Prop
  | literal _ | charSet .. | charRange .. | endOfInput => True
  | _ => False

def Grammar.Kind.IsNegation : Grammar.Kind → Prop
  | negation _ => True
  | _ => False

/-- The number of negations around the children of a node that is inside so many itself. -/
def Grammar.lookaheadIn (g : Grammar) (id : NodeId) (lookahead : Nat) : Nat :=
  match g.kind id with
  | .negation _ => lookahead + 1
  | _ => lookahead

namespace Match

open ParseTree (Ref)

/-! ## Notes -/

/-- What a match has noted: how far a terminal failed, and what the tracer has gathered. -/
structure Notes (σ : Type) where
  furthest : Nat
  trace : σ

def Progress.notes {σ : Type} (p : Progress σ) : Notes σ :=
  ⟨p.furthest, p.trace⟩

namespace Notes

variable {σ : Type}

def record (a : Notes σ) (tracer : Tracer σ) (event : Event) : Notes σ :=
  { a with trace := tracer event a.trace }

/-- A terminal failed at a place, inside so many negations. -/
def miss (a : Notes σ) (lookahead position : Nat) : Notes σ :=
  if lookahead = 0 then { a with furthest := max a.furthest position } else a

/-- The events that were logged, in order. -/
def events (a : Notes (List Event)) : List Event :=
  a.trace.reverse

@[simp] theorem events_record (a : Notes (List Event)) (event : Event) :
    (a.record .log event).events = a.events ++ [event] :=
  List.reverse_cons

@[simp] theorem events_miss (a : Notes (List Event)) (lookahead position : Nat) :
    (a.miss lookahead position).events = a.events := by
  unfold miss
  split <;> rfl

end Notes

/-- The offsets of an event lie between characters of a source. -/
def Event.Within (source : List Char) : Event → Prop
  | enter _ position | failure _ position | backtrack _ position => Text.isBoundary source position = true
  | success _ start stop =>
    Text.isBoundary source start = true ∧ Text.isBoundary source stop = true ∧ start ≤ stop

/-- The offset of a fault, if it has one, lies between characters of a source. -/
def Fault.Within (source : List Char) : Fault → Prop
  | idleRepetition position => Text.isBoundary source position = true
  | _ => True

/-- A relation, inside so many negations, between notes and later ones that holds across every step of a match. -/
structure Kept {σ : Type} (g : Grammar) (tracer : Tracer σ) (source : List Char)
    (keeps : Nat → Notes σ → Option Fault → Notes σ → Prop) : Prop where
  refl : ∀ lookahead a, keeps lookahead a none a
  trans : ∀ {lookahead a b fault? c}, keeps lookahead a none b → keeps lookahead b fault? c → keeps lookahead a fault? c
  raise : ∀ lookahead a fault, fault.Within source → keeps lookahead a (some fault) a
  backtrack : ∀ lookahead a {choice alternatives position}, g.kind choice = .choice alternatives →
    Text.isBoundary source position = true →
      keeps lookahead a none (a.record tracer (.backtrack choice position))
  miss : ∀ lookahead a {id position}, (g.kind id).IsTerminal → Text.isBoundary source position = true →
    keeps lookahead a none
      (((a.record tracer (.enter id position)).miss lookahead position).record tracer (.failure id position))
  /-- A node is entered and left. A terminal is only left like this if it matched. -/
  call : ∀ {lookahead a b id position closing}, Text.isBoundary source position = true →
    keeps (g.lookaheadIn id lookahead) (a.record tracer (.enter id position)) none b → Closes id position closing →
      closing.Within source → ((g.kind id).IsTerminal → closing ≠ .failure id position) →
        keeps lookahead a none (b.record tracer closing)
  stop : ∀ {lookahead a b id position fault}, Text.isBoundary source position = true →
    keeps (g.lookaheadIn id lookahead) (a.record tracer (.enter id position)) (some fault) b →
      keeps lookahead a (some fault) b

section

variable {σ : Type} {g : Grammar} {tracer : Tracer σ} {source : List Char}
  {keeps : Nat → Notes σ → Option Fault → Notes σ → Prop} {levels lookahead : Nat} {id : NodeId} {here : Cursor}
  {p : Progress σ}

/-- The relation holds between the notes before an attempt and those after it. -/
def Carries {α : Type} (keeps : Nat → Notes σ → Option Fault → Notes σ → Prop) (lookahead : Nat) (p : Progress σ)
    (a : Verdict α × Progress σ) : Prop :=
  keeps lookahead p.notes a.1.fault? a.2.notes

/-! ## Visits in a row -/

section

variable {visit : Visit σ}

theorem inSequence_carries (kept : Kept g tracer source keeps) (faithful : visit.Faithful g)
    (each : ∀ id here p, here.In source → Carries keeps lookahead p (visit id here p)) (ids : List NodeId)
    (here : Cursor) (p : Progress σ) (begins : here.In source) :
    Carries keeps lookahead p (inSequence visit ids here p) := by
  induction ids generalizing here p with
  | nil => exact kept.refl lookahead p.notes
  | cons id ids ih =>
    have head := each id here p begins
    have own := (faithful id here p).1
    unfold inSequence
    generalize visit id here p = first at head own
    obtain ⟨verdict, q⟩ := first
    cases verdict with
    | matched pair =>
      obtain ⟨r, next⟩ := pair
      obtain ⟨tree, derives, _⟩ := own
      have both := kept.trans head (ih next q (derives.within begins))
      unfold Carries
      dsimp only
      generalize inSequence visit ids next q = rest at both
      obtain ⟨verdict, q⟩ := rest
      cases verdict <;> exact both
    | failed => exact head
    | stopped fault => exact head

theorem firstOf_carries (kept : Kept g tracer source keeps)
    (each : ∀ id here p, here.In source → Carries keeps lookahead p (visit id here p)) {choice : NodeId}
    {all : List NodeId} (kind : g.kind choice = .choice all) (name : Option String) (ids : List NodeId)
    (p : Progress σ) (begins : here.In source) :
    Carries keeps lookahead p (firstOf visit tracer choice name ids here p) := by
  induction ids generalizing p with
  | nil => exact kept.refl lookahead p.notes
  | cons id ids ih =>
    have head := each id here p begins
    unfold firstOf
    generalize visit id here p = first at head
    obtain ⟨verdict, q⟩ := first
    cases verdict with
    | matched _ => exact head
    | failed =>
      refine kept.trans head ?_
      cases ids with
      | nil => exact ih q
      | cons =>
        exact kept.trans (kept.backtrack lookahead q.notes kind begins.isBoundary)
          (ih (q.record tracer (.backtrack choice here.offset)))
    | stopped fault => exact head

theorem greedily_carries (kept : Kept g tracer source keeps) (faithful : visit.Faithful g)
    (each : ∀ id here p, here.In source → Carries keeps lookahead p (visit id here p)) (id : NodeId) (rounds : Nat)
    (earlier : List Ref) (here : Cursor) (p : Progress σ) (begins : here.In source) :
    Carries keeps lookahead p (greedily visit id rounds earlier here p) := by
  induction rounds generalizing earlier here p with
  | zero => exact kept.raise lookahead p.notes .fuelExhausted trivial
  | succ rounds ih =>
    have head := each id here p begins
    have own := (faithful id here p).1
    unfold greedily
    generalize visit id here p = first at head own
    obtain ⟨verdict, q⟩ := first
    cases verdict with
    | matched pair =>
      obtain ⟨r, next⟩ := pair
      obtain ⟨tree, derives, _⟩ := own
      dsimp only
      split
      · exact kept.trans head (kept.raise lookahead q.notes (.idleRepetition here.offset) begins.isBoundary)
      · exact kept.trans head (ih (r :: earlier) next q (derives.within begins))
    | failed => exact head
    | stopped fault => exact head

end

/-! ## Kinds -/

/-- A terminal consumes something and notes nothing, or it fails and notes where. -/
theorem attempt_of_terminal (terminal : (g.kind id).IsTerminal) (visit : Nat → Visit σ) :
    let a := attempt g tracer visit lookahead id here p
    (∃ found, a.1 = .matched found ∧ a.2.notes = p.notes) ∨
      a.1 = .failed ∧ a.2.notes = p.notes.miss lookahead here.offset := by
  have either : ∀ stop? : Option Cursor, let a := p.terminal g id lookahead here stop?
      (∃ found, a.1 = .matched found ∧ a.2.notes = p.notes) ∨
        a.1 = .failed ∧ a.2.notes = p.notes.miss lookahead here.offset := by
    intro stop?
    cases stop? with
    | some stop => exact .inl ⟨_, rfl, rfl⟩
    | none =>
      refine .inr ⟨rfl, ?_⟩
      dsimp only [Progress.terminal, Progress.miss, Notes.miss]
      split <;> rfl
  unfold attempt
  cases kind : g.kind id with
  | literal _ | charSet _ _ | charRange _ _ _ | endOfInput => exact either _
  | _ =>
    rw [kind] at terminal
    exact terminal.elim

/-- An attempt at any other node notes what the visits to its children note. -/
theorem attempt_carries (kept : Kept g tracer source keeps) {visit : Nat → Visit σ}
    (faithful : ∀ lookahead, (visit lookahead).Faithful g)
    (each : ∀ lookahead id here p, here.In source → Carries keeps lookahead p (visit lookahead id here p))
    (composite : ¬ (g.kind id).IsTerminal) (lookahead : Nat) (p : Progress σ) (begins : here.In source) :
    Carries keeps (g.lookaheadIn id lookahead) p (attempt g tracer visit lookahead id here p) := by
  unfold Grammar.lookaheadIn attempt
  cases kind : g.kind id with
  | sequence parts =>
    have all := inSequence_carries kept (faithful lookahead) (each lookahead) parts here p begins
    dsimp only
    generalize inSequence (visit lookahead) parts here p = last at all
    obtain ⟨verdict, q⟩ := last
    cases verdict <;> exact all
  | choice alternatives => exact firstOf_carries kept (each lookahead) kind _ alternatives p begins
  | repetition child =>
    have more := greedily_carries kept (faithful lookahead) (each lookahead) child p.fuel [] here p begins
    dsimp only
    generalize greedily (visit lookahead) child p.fuel [] here p = last at more
    obtain ⟨verdict, q⟩ := last
    match verdict with
    | .matched ([], _) => exact more
    | .matched (_ :: _, _) => exact more
    | .failed => exact more
    | .stopped _ => exact more
  | optional child =>
    have only := each lookahead child here p begins
    dsimp only
    generalize visit lookahead child here p = last at only
    obtain ⟨verdict, q⟩ := last
    cases verdict <;> exact only
  | negation child =>
    have only := each (lookahead + 1) child here p begins
    dsimp only
    generalize visit (lookahead + 1) child here p = last at only
    obtain ⟨verdict, q⟩ := last
    cases verdict <;> exact only
  | reference rule => exact kept.raise lookahead p.notes (.unresolvedReference rule) trivial
  | _ =>
    rw [kind] at composite
    exact absurd trivial composite

/-! ## Whole visits -/

/-- A node that matched is left where it is derived to end. -/
theorem matched_carries (kept : Kept g tracer source keeps) {a b : Notes σ} {stop : Cursor} {tree : DerivedTree}
    (begins : here.In source) (derives : Derives g id here (some (tree, stop)))
    (inner : keeps (g.lookaheadIn id lookahead) (a.record tracer (.enter id here.offset)) none b) :
    keeps lookahead a none (b.record tracer (.success id here.offset stop.offset)) :=
  kept.call begins.isBoundary inner (.success stop.offset derives.offset_le)
    ⟨begins.isBoundary, (derives.within begins).isBoundary, derives.offset_le⟩ fun _ => nofun

/-- A terminal that is entered notes that it was left, or where it failed. -/
theorem terminal_carries (kept : Kept g tracer source keeps) (terminal : (g.kind id).IsTerminal) (lookahead : Nat)
    (p : Progress σ) (begins : here.In source) (size : Nat) {a : Attempt σ}
    (own : Faithful g id here (p.record tracer (.enter id here.offset)) a)
    (tried : (∃ found, a.1 = .matched found ∧ a.2.notes = p.notes.record tracer (.enter id here.offset)) ∨
      a.1 = .failed ∧ a.2.notes = (p.notes.record tracer (.enter id here.offset)).miss lookahead here.offset) :
    Carries keeps lookahead p (conclude tracer id here size a) := by
  obtain ⟨verdict, q⟩ := a
  obtain ⟨⟨r, stop⟩, ends, same⟩ | ⟨ends, missed⟩ := tried
  · cases ends
    obtain ⟨tree, derives, _⟩ := own
    have left := matched_carries (a := p.notes) kept begins derives (kept.refl (g.lookaheadIn id lookahead) _)
    rw [← same] at left
    exact left
  · cases ends
    have noted := kept.miss lookahead p.notes terminal begins.isBoundary
    rw [← missed] at noted
    exact noted

/-- Any other node that is entered notes how it was left, unless it was stopped inside. -/
theorem composite_carries (kept : Kept g tracer source keeps) (composite : ¬ (g.kind id).IsTerminal) (lookahead : Nat)
    (p : Progress σ) (begins : here.In source) (size : Nat) {a : Attempt σ}
    (own : Faithful g id here (p.record tracer (.enter id here.offset)) a)
    (inner : Carries keeps (g.lookaheadIn id lookahead) (p.record tracer (.enter id here.offset)) a) :
    Carries keeps lookahead p (conclude tracer id here size a) := by
  obtain ⟨verdict, q⟩ := a
  match verdict with
  | .matched (r, stop) =>
    obtain ⟨tree, derives, _⟩ := own
    exact matched_carries (a := p.notes) (b := q.notes) kept begins derives inner
  | .failed =>
    exact kept.call (a := p.notes) (b := q.notes) begins.isBoundary inner .failure begins.isBoundary
      fun terminal => absurd terminal composite
  | .stopped fault => exact kept.stop (a := p.notes) (b := q.notes) begins.isBoundary inner

/-- **What every step of a match keeps, every visit keeps**, however it ends. -/
theorem visit_carries (kept : Kept g tracer source keeps) (levels lookahead : Nat) (id : NodeId) (here : Cursor)
    (p : Progress σ) (begins : here.In source) :
    Carries keeps lookahead p (visit g tracer levels lookahead id here p) := by
  induction levels generalizing lookahead id here p with
  | zero =>
    unfold visit
    split
    · exact kept.raise lookahead p.notes .fuelExhausted trivial
    · exact kept.raise lookahead p.notes .depthExceeded trivial
  | succ levels ih =>
    by_cases empty : p.fuel = 0
    · rw [visit_empty tracer _ empty]
      exact kept.raise lookahead p.notes .fuelExhausted trivial
    rw [visit_entered tracer empty]
    have own := attempt_faithful (visit_faithful g tracer levels) tracer lookahead id here
      (p.spend.record tracer (.enter id here.offset))
    by_cases terminal : (g.kind id).IsTerminal
    · exact terminal_carries kept terminal lookahead p.spend begins p.nodes.size own
        (attempt_of_terminal terminal (visit g tracer levels))
    · exact composite_carries kept terminal lookahead p.spend begins p.nodes.size own
        (attempt_carries kept (visit_faithful g tracer levels) ih terminal lookahead _ begins)

end

/-- A cursor lies in the text that it was put into. -/
theorem within_of_ofOffset? {source : List Char} {offset : Nat} {here : Cursor}
    (starts : Cursor.ofOffset? source offset = some here) : here.In source ∧ here.offset = offset := by
  unfold Cursor.ofOffset? at starts
  split at starts
  · next boundary =>
    cases starts
    exact ⟨⟨Text.takeBytes offset source, (Text.takeBytes_append_dropBytes offset source).symm,
      (beq_iff_eq.mp boundary).symm⟩, rfl⟩
  · cases starts

/-- **What every step keeps, a whole match keeps**: from its offset and no events, to what it notes in the end. -/
theorem matchAt_carries {g : Grammar} {input : String} {keeps : Nat → Notes (List Event) → Option Fault →
    Notes (List Event) → Prop} (kept : Kept g .log input.toList keeps) (id : NodeId) (offset : Nat) (limits : Limits) :
    ∃ fault? last, keeps 0 ⟨offset, []⟩ fault? last ∧ last.events = events g id input offset limits ∧
      match matchAt g id input offset limits with
      | .ok final => last.furthest = final.furthest
      | .error fault => fault? = some fault := by
  cases starts : Cursor.ofOffset? input.toList offset with
  | none =>
    obtain ⟨silent, _, ends, _⟩ := events_of_nowhere g id limits starts
    rw [silent, ends]
    exact ⟨none, _, kept.refl 0 _, rfl, rfl⟩
  | some here =>
    obtain ⟨_, ends, logged, _⟩ := events_of_call g id limits starts
    have carried := visit_carries kept limits.depth 0 id here (.start limits offset []) (within_of_ofOffset? starts).1
    rw [ends, logged]
    generalize last : Call.ended g _ = a
    replace last : visit g .log limits.depth 0 id here (.start limits offset []) = a := last
    rw [last] at carried
    obtain ⟨verdict, q⟩ := a
    refine ⟨_, q.notes, carried, rfl, ?_⟩
    cases verdict <;> rfl

end Match

end BnfTokenizer
