import BnfTokenizer.Proofs.Match.Budget

/-!
# A match that counts in words of 32 bits

A match counts the visits left, the visits that are open and the negations around it, and it addresses the nodes of its
table. Here it keeps all of these in words, as registers that it changes one at a time. A change that a word cannot hold,
up or down, is no change and ends the computation with no result; so does an address that a word cannot hold. And every
change, of any register, is checked against what the registers are supposed to keep (`Registers.InBounds`):

> the nodes in the table and the visits left are never more than the visits at the start, no more visits are open than
> levels are allowed, and no more negations are around than visits are open

A match in registers always has a result, and it is the match itself (`matchedInWords_eq`). The counters are balanced in
it: whatever a visit is given up for, it leaves as many visits open and as many negations around as it found.

What keeps the table small enough is that no visit pushes two nodes for one unit of fuel (`visit_frugal`).
-/

namespace BnfTokenizer.Match

open ParseTree (Ref Builder)

/-! ## Words -/

/-- How far a match may go, in words. -/
structure WordLimits where
  /-- The number of visits. -/
  fuel : UInt32
  /-- The number of visits open at once. -/
  depth : UInt32
deriving DecidableEq, Repr

def WordLimits.limits (w : WordLimits) : Limits :=
  ⟨w.fuel.toNat, w.depth.toNat⟩

/-- One more, if a word can hold it. -/
def increment? (n : UInt32) : Option UInt32 :=
  if n.toNat + 1 < UInt32.size then some (n + 1) else none

/-- One less, if there is any. -/
def decrement? (n : UInt32) : Option UInt32 :=
  if n = 0 then none else some (n - 1)

/-- A number as a word, if a word can hold it. -/
def word? (n : Nat) : Option UInt32 :=
  if n < UInt32.size then some (UInt32.ofNat n) else none

/-! ## Registers -/

/-- What a match carries that counts in words. -/
structure Registers (σ : Type) where
  /-- The number of visits left. -/
  fuel : UInt32
  /-- The number of visits that are open. -/
  depth : UInt32
  /-- The number of negations around. -/
  lookahead : UInt32
  furthest : Nat
  nodes : Builder
  trace : σ

/-- What registers are supposed to keep. -/
def Registers.InBounds {σ : Type} (w : WordLimits) (r : Registers σ) : Prop :=
  r.nodes.size + r.fuel.toNat ≤ w.fuel.toNat ∧ r.depth ≤ w.depth ∧ r.lookahead ≤ r.depth

instance {σ : Type} (w : WordLimits) (r : Registers σ) : Decidable (r.InBounds w) :=
  inferInstanceAs (Decidable (_ ∧ _ ∧ _))

/-- A computation over registers, which may have no result. -/
abbrev Machine (σ α : Type) :=
  StateT (Registers σ) Option α

/-- The end of a visit: the address of the node that it pushed, and the place behind it. -/
abbrev WordVerdict :=
  Verdict (UInt32 × Cursor)

namespace Machine

variable {σ : Type}

/-- Change the registers, if that can be done and they stay in bounds. -/
def change (w : WordLimits) (f : Registers σ → Option (Registers σ)) : Machine σ Unit := fun r =>
  match f r with
  | some r => if r.InBounds w then some ((), r) else none
  | none => none

def spend (w : WordLimits) : Machine σ Unit :=
  change w fun r => (decrement? r.fuel).map fun fuel => { r with fuel }

/-- A visit is open. -/
def enter (w : WordLimits) : Machine σ Unit :=
  change w fun r => (increment? r.depth).map fun depth => { r with depth }

/-- The innermost open visit is left. -/
def leave (w : WordLimits) : Machine σ Unit :=
  change w fun r => (decrement? r.depth).map fun depth => { r with depth }

/-- A negation is around what comes next. -/
def lookIn (w : WordLimits) : Machine σ Unit :=
  change w fun r => (increment? r.lookahead).map fun lookahead => { r with lookahead }

/-- The innermost negation is around no more. -/
def lookOut (w : WordLimits) : Machine σ Unit :=
  change w fun r => (decrement? r.lookahead).map fun lookahead => { r with lookahead }

def record (w : WordLimits) (tracer : Tracer σ) (event : Event) : Machine σ Unit :=
  change w fun r => some { r with trace := tracer event r.trace }

def truncate (w : WordLimits) (size : Nat) : Machine σ Unit :=
  change w fun r => some { r with nodes := r.nodes.truncate size }

def inheritName (w : WordLimits) (address : UInt32) (name : Option String) : Machine σ Unit :=
  change w fun r => some { r with nodes := r.nodes.inheritName address.toNat name }

/-- The address of the next node. -/
def next : Machine σ UInt32 := fun r =>
  (word? r.nodes.size).map fun address => (address, r)

def interior (w : WordLimits) (g : Grammar) (id : NodeId) (here stop : Cursor) (children : List UInt32) :
    Machine σ WordVerdict := do
  let address ← next
  change w fun r => some
    { r with nodes := r.nodes.interior id (g.name id) ⟨here.offset, stop.offset⟩ (children.map UInt32.toNat) }
  return .matched (address, stop)

/-- A terminal failed here. -/
def miss (w : WordLimits) (here : Cursor) : Machine σ WordVerdict := do
  change w fun r => some (if r.lookahead = 0 then { r with furthest := max r.furthest here.offset } else r)
  return .failed

def terminal (w : WordLimits) (g : Grammar) (id : NodeId) (here : Cursor) (stop? : Option Cursor) :
    Machine σ WordVerdict :=
  match stop? with
  | some stop => interior w g id here stop []
  | none => miss w here

section

/-! ## Matching in registers -/

variable (child : NodeId → Cursor → Machine σ WordVerdict)

/-- All of some nodes, each where the one before it ended. -/
def inSequence : List NodeId → Cursor → Machine σ (Verdict (List UInt32 × Cursor))
  | [], here => return .matched ([], here)
  | id :: ids, here => do
    match ← child id here with
    | .matched (address, next) =>
      match ← inSequence ids next with
      | .matched (addresses, stop) => return .matched (address :: addresses, stop)
      | .failed => return .failed
      | .stopped fault => return .stopped fault
    | .failed => return .failed
    | .stopped fault => return .stopped fault

/-- The first of some alternatives that matches here. -/
def firstOf (w : WordLimits) (tracer : Tracer σ) (choice : NodeId) (name : Option String) :
    List NodeId → Cursor → Machine σ WordVerdict
  | [], _ => return .failed
  | id :: ids, here => do
    match ← child id here with
    | .matched (address, stop) => do
      inheritName w address name
      return .matched (address, stop)
    | .failed => do
      if ids.isEmpty then firstOf w tracer choice name ids here
      else do
        record w tracer (.backtrack choice here.offset)
        firstOf w tracer choice name ids here
    | .stopped fault => return .stopped fault

/-- One node as often as it matches. There is no result if it goes round more often than `rounds` says. -/
def greedily (id : NodeId) : Nat → List UInt32 → Cursor → Machine σ (Verdict (List UInt32 × Cursor))
  | 0, _, _ => failure
  | rounds + 1, earlier, here => do
    match ← child id here with
    | .matched (address, next) =>
      if next.offset = here.offset then return .stopped (.idleRepetition here.offset)
      else greedily id rounds (address :: earlier) next
    | .failed => return .matched (earlier.reverse, here)
    | .stopped fault => return .stopped fault

end

/-- A node that stands over those of its children, when these have matched. -/
def standing (w : WordLimits) (g : Grammar) (id : NodeId) (here : Cursor) :
    Verdict (List UInt32 × Cursor) → Machine σ WordVerdict
  | .matched (addresses, stop) => interior w g id here stop addresses
  | .failed => return .failed
  | .stopped fault => return .stopped fault

/-- A repetition, when it can go no further. -/
def overSome (w : WordLimits) (g : Grammar) (id : NodeId) (here : Cursor) :
    Verdict (List UInt32 × Cursor) → Machine σ WordVerdict
  | .matched ([], _) => return .failed
  | verdict => standing w g id here verdict

/-- An optional node, when its child was tried. -/
def overOptional (w : WordLimits) (g : Grammar) (id : NodeId) (here : Cursor) : WordVerdict → Machine σ WordVerdict
  | .matched (address, stop) => interior w g id here stop [address]
  | .failed => interior w g id here here []
  | .stopped fault => return .stopped fault

/-- A negation, when its child was tried and its nodes were given up. -/
def overNegation (w : WordLimits) (g : Grammar) (id : NodeId) (here : Cursor) : WordVerdict → Machine σ WordVerdict
  | .matched _ => return .failed
  | .failed => interior w g id here here []
  | .stopped fault => return .stopped fault

/-- What a visit to a node does, by its kind. -/
def attempt (w : WordLimits) (g : Grammar) (tracer : Tracer σ) (child : NodeId → Cursor → Machine σ WordVerdict)
    (id : NodeId) (here : Cursor) : Machine σ WordVerdict :=
  match g.kind id with
  | .literal text => terminal w g id here (here.afterText? text)
  | .sequence parts => do
    let verdict ← inSequence child parts here
    standing w g id here verdict
  | .choice alternatives => firstOf child w tracer id (g.name id) alternatives here
  | .repetition one => do
    let fuel := (← get).fuel
    let verdict ← greedily child one (fuel.toNat + 1) [] here
    overSome w g id here verdict
  | .optional one => do
    let verdict ← child one here
    overOptional w g id here verdict
  | .negation one => do
    let size := (← get).nodes.size
    lookIn w
    let verdict ← child one here
    lookOut w
    truncate w size
    overNegation w g id here verdict
  | .endOfInput => terminal w g id here here.atEnd?
  | .reference rule => return .stopped (.unresolvedReference rule)
  | kind => terminal w g id here (here.afterChar? fun c => kind.accepts c)

/-- The end of a visit to a node, which found `size` nodes in the table. -/
def conclude (w : WordLimits) (tracer : Tracer σ) (id : NodeId) (here : Cursor) (size : Nat) :
    WordVerdict → Machine σ Unit
  | .matched (_, stop) => record w tracer (.success id here.offset stop.offset)
  | .failed => do
    truncate w size
    record w tracer (.failure id here.offset)
  | .stopped _ => return ()

/-- A visit to a node that is not refused. -/
def admitted (w : WordLimits) (g : Grammar) (tracer : Tracer σ) (child : NodeId → Cursor → Machine σ WordVerdict)
    (id : NodeId) (here : Cursor) : Machine σ WordVerdict := do
  enter w
  record w tracer (.enter id here.offset)
  let size := (← get).nodes.size
  let verdict ← attempt w g tracer child id here
  leave w
  conclude w tracer id here size verdict
  return verdict

/-- One visit to a node. There is no result if visits are nested deeper than `nesting` says. -/
def visit (w : WordLimits) (g : Grammar) (tracer : Tracer σ) : Nat → NodeId → Cursor → Machine σ WordVerdict
  | 0, _, _ => failure
  | nesting + 1, id, here => do
    if (← get).fuel = 0 then return .stopped .fuelExhausted
    else do
      spend w
      if w.depth ≤ (← get).depth then return .stopped .depthExceeded
      else admitted w g tracer (visit w g tracer nesting) id here

end Machine

/-- A match in registers. The counters of what is open have to be back at zero at its end. -/
def matchedInWords {σ : Type} (g : Grammar) (id : NodeId) (input : String) (offset : Nat) (w : WordLimits)
    (tracer : Tracer σ) (gathered : σ) : Option (Except Fault Outcome × σ) :=
  match Cursor.ofOffset? input.toList offset with
  | none => some (.ok ⟨none, offset⟩, gathered)
  | some here => do
    let start : Registers σ := ⟨w.fuel, 0, 0, offset, {}, gathered⟩
    guard (start.InBounds w)
    let (verdict, last) ← Machine.visit w g tracer (w.depth.toNat + 1) id here start
    guard (last.depth = 0 ∧ last.lookahead = 0)
    match verdict with
    | .matched (root, stop) =>
      return (.ok ⟨some ⟨last.nodes.finish input.toList root.toNat, stop.offset⟩, last.furthest⟩, last.trace)
    | .failed => return (.ok ⟨none, last.furthest⟩, last.trace)
    | .stopped fault => return (.error fault, last.trace)

/-! ## Registers and numbers -/

/-- A result of another kind. -/
def Verdict.map {α β : Type} (f : α → β) : Verdict α → Verdict β
  | matched result => matched (f result)
  | failed => failed
  | stopped fault => stopped fault

/-- One node by its address. -/
def oneWord (result : Ref × Cursor) : UInt32 × Cursor :=
  (UInt32.ofNat result.1, result.2)

/-- Some nodes by their addresses. -/
def manyWords (result : List Ref × Cursor) : List UInt32 × Cursor :=
  (result.1.map UInt32.ofNat, result.2)

/-- What a match carries, in registers, while so many visits are open and so many negations are around. -/
def Progress.registers {σ : Type} (p : Progress σ) (depth lookahead : Nat) : Registers σ :=
  ⟨UInt32.ofNat p.fuel, UInt32.ofNat depth, UInt32.ofNat lookahead, p.furthest, p.nodes, p.trace⟩

/-- How something ended, in registers. -/
def inRegisters {σ α β : Type} (words : α → β) (depth lookahead : Nat) (a : Verdict α × Progress σ) :
    Option (Verdict β × Registers σ) :=
  some (a.1.map words, a.2.registers depth lookahead)

/-- Numbers that registers are supposed to hold. -/
structure Fits {σ : Type} (w : WordLimits) (depth lookahead : Nat) (p : Progress σ) : Prop where
  weight : p.weight ≤ w.fuel.toNat
  deep : depth ≤ w.depth.toNat
  around : lookahead ≤ depth

/-- A visit in registers that does what another one does, and leaves the counters of what is open as it found them. -/
def Simulates {σ : Type} (w : WordLimits) (depth lookahead : Nat) (child : NodeId → Cursor → Machine σ WordVerdict)
    (visit : Visit σ) : Prop :=
  ∀ id here p, Fits w depth lookahead p →
    child id here (p.registers depth lookahead) = inRegisters oneWord depth lookahead (visit id here p)

section

variable {σ : Type} {w : WordLimits} {depth lookahead : Nat} {p q : Progress σ} {r r' : Registers σ} {g : Grammar}
  {tracer : Tracer σ} {id : NodeId} {here stop : Cursor}

theorem toNat_word {n : Nat} {word : UInt32} (le : n ≤ word.toNat) : (UInt32.ofNat n).toNat = n :=
  UInt32.toNat_ofNat_of_lt' (Nat.lt_of_le_of_lt le word.toNat_lt_size)

theorem increment?_ofNat {n : Nat} {word : UInt32} (le : n + 1 ≤ word.toNat) :
    increment? (UInt32.ofNat n) = some (UInt32.ofNat (n + 1)) := by
  have small : n + 1 < UInt32.size := Nat.lt_of_le_of_lt le word.toNat_lt_size
  rw [increment?, toNat_word (Nat.le_of_succ_le le), if_pos small, UInt32.ofNat_add]
  rfl

theorem ofNat_eq_zero {n : Nat} {word : UInt32} (le : n ≤ word.toNat) : UInt32.ofNat n = 0 ↔ n = 0 := by
  rw [← UInt32.toNat_inj, toNat_word le]
  rfl

theorem decrement?_ofNat {n : Nat} {word : UInt32} (le : n + 1 ≤ word.toNat) :
    decrement? (UInt32.ofNat (n + 1)) = some (UInt32.ofNat n) := by
  have positive : UInt32.ofNat (n + 1) ≠ 0 := (ofNat_eq_zero le).not.mpr (Nat.succ_ne_zero n)
  have less : UInt32.ofNat (n + 1) - 1 = UInt32.ofNat n := by
    rw [UInt32.ofNat_add]
    exact UInt32.add_sub_cancel _ 1
  rw [decrement?, if_neg positive, less]

namespace Fits

theorem fuel (fits : Fits w depth lookahead p) : p.fuel ≤ w.fuel.toNat :=
  Nat.le_trans (Nat.le_add_left ..) fits.weight

theorem lookahead_le (fits : Fits w depth lookahead p) : lookahead ≤ w.depth.toNat :=
  Nat.le_trans fits.around fits.deep

theorem inBounds (fits : Fits w depth lookahead p) : (p.registers depth lookahead).InBounds w := by
  refine ⟨?_, ?_, ?_⟩
  · show p.nodes.size + (UInt32.ofNat p.fuel).toNat ≤ _
    rw [toNat_word fits.fuel]
    exact fits.weight
  · rw [UInt32.le_iff_toNat_le]
    show (UInt32.ofNat depth).toNat ≤ _
    rw [toNat_word fits.deep]
    exact fits.deep
  · rw [UInt32.le_iff_toNat_le]
    show (UInt32.ofNat lookahead).toNat ≤ (UInt32.ofNat depth).toNat
    rw [toNat_word fits.deep, toNat_word fits.lookahead_le]
    exact fits.around

/-- Where no visit or negation begins or ends, it is enough that the nodes and the visits left do not get more. -/
theorem of_le (fits : Fits w depth lookahead p) (le : q.weight ≤ p.weight) : Fits w depth lookahead q :=
  ⟨Nat.le_trans le fits.weight, fits.deep, fits.around⟩

/-- A node that was given has an address, as it is in the table or was in it. -/
theorem ref_lt (fits : Fits w depth lookahead p) {node : Ref} (inside : node < p.weight) : node < UInt32.size :=
  Nat.lt_trans (Nat.lt_of_lt_of_le inside fits.weight) w.fuel.toNat_lt_size

end Fits

namespace Machine

/-! ## What a command does -/

theorem bind_run {α β : Type} {m : Machine σ α} {result : α} (ran : m r = some (result, r')) (f : α → Machine σ β) :
    (m >>= f) r = f result r' := by
  show (m r).bind _ = _
  rw [ran]
  rfl

theorem get_run : (get : Machine σ (Registers σ)) r = some (r, r) :=
  rfl

/-- Nothing is changed but to registers that are in bounds. -/
theorem change_eq_some {f : Registers σ → Option (Registers σ)} :
    change w f r = some ((), r') ↔ f r = some r' ∧ r'.InBounds w := by
  unfold change
  cases f r with
  | none => simp
  | some changed =>
    simp only [Option.ite_none_right_eq_some, Option.some.injEq, Prod.mk.injEq, true_and]
    constructor
    · rintro ⟨bounds, rfl⟩
      exact ⟨rfl, bounds⟩
    · rintro ⟨rfl, bounds⟩
      exact ⟨bounds, rfl⟩

theorem change_run {f : Registers σ → Option (Registers σ)} (fits : Fits w depth lookahead q)
    (changed : f r = some (q.registers depth lookahead)) :
    change w f r = some ((), q.registers depth lookahead) :=
  change_eq_some.mpr ⟨changed, fits.inBounds⟩

theorem spend_run (fits : Fits w depth lookahead p) (left : p.fuel ≠ 0) :
    spend w (p.registers depth lookahead) = some ((), p.spend.registers depth lookahead) := by
  have less : p.spend.weight ≤ p.weight := Nat.add_le_add_left (Nat.sub_le ..) _
  have one : p.spend.fuel + 1 = p.fuel := Nat.succ_pred_eq_of_ne_zero left
  refine change_run (fits.of_le less) ?_
  show (decrement? (UInt32.ofNat p.fuel)).map _ = _
  rw [← one, decrement?_ofNat (Nat.le_trans (Nat.le_of_eq one) fits.fuel)]
  rfl

theorem enter_run (fits : Fits w (depth + 1) lookahead p) :
    enter w (p.registers depth lookahead) = some ((), p.registers (depth + 1) lookahead) := by
  refine change_run fits ?_
  show (increment? (UInt32.ofNat depth)).map _ = _
  rw [increment?_ofNat fits.deep]
  rfl

theorem leave_run (fits : Fits w (depth + 1) lookahead p) (around : lookahead ≤ depth) :
    leave w (p.registers (depth + 1) lookahead) = some ((), p.registers depth lookahead) := by
  refine change_run ⟨fits.weight, Nat.le_of_succ_le fits.deep, around⟩ ?_
  show (decrement? (UInt32.ofNat (depth + 1))).map _ = _
  rw [decrement?_ofNat fits.deep]
  rfl

theorem lookIn_run (fits : Fits w depth (lookahead + 1) p) :
    lookIn w (p.registers depth lookahead) = some ((), p.registers depth (lookahead + 1)) := by
  refine change_run fits ?_
  show (increment? (UInt32.ofNat lookahead)).map _ = _
  rw [increment?_ofNat fits.lookahead_le]
  rfl

theorem lookOut_run (fits : Fits w depth (lookahead + 1) p) :
    lookOut w (p.registers depth (lookahead + 1)) = some ((), p.registers depth lookahead) := by
  refine change_run ⟨fits.weight, fits.deep, Nat.le_of_succ_le fits.around⟩ ?_
  show (decrement? (UInt32.ofNat (lookahead + 1))).map _ = _
  rw [decrement?_ofNat fits.lookahead_le]
  rfl

theorem record_run (fits : Fits w depth lookahead p) (tracer : Tracer σ) (event : Event) :
    record w tracer event (p.registers depth lookahead) =
      some ((), (p.record tracer event).registers depth lookahead) :=
  change_run (q := p.record tracer event) (fits.of_le (Nat.le_refl _)) rfl

theorem truncate_run (fits : Fits w depth lookahead p) (size : Nat) :
    truncate w size (p.registers depth lookahead) = some ((), (p.truncate size).registers depth lookahead) :=
  change_run (q := p.truncate size) (fits.of_le (weight_truncate_le p size)) rfl

theorem inheritName_run (fits : Fits w depth lookahead p) {node : Ref} (small : node < UInt32.size)
    (name : Option String) :
    inheritName w (UInt32.ofNat node) name (p.registers depth lookahead) =
      some ((), { p with nodes := p.nodes.inheritName node name }.registers depth lookahead) := by
  have same : ({ p with nodes := p.nodes.inheritName node name } : Progress σ).weight = p.weight := by
    rw [Progress.weight, ParseTree.Builder.size_inheritName, Progress.weight]
  refine change_run (fits.of_le (Nat.le_of_eq same)) ?_
  rw [UInt32.toNat_ofNat_of_lt' small]
  rfl

/-- A node that is paid for finds an address, and a place in the table. -/
theorem interior_run (fits : Fits w depth lookahead p) (room : p.weight < w.fuel.toNat) (children : List Ref)
    (small : ∀ child ∈ children, child < UInt32.size) :
    interior w g id here stop (children.map UInt32.ofNat) (p.registers depth lookahead) =
      inRegisters oneWord depth lookahead (p.interior g id here stop children) := by
  have own : p.nodes.size < UInt32.size := by
    calc p.nodes.size ≤ p.weight := Nat.le_add_right ..
      _ < w.fuel.toNat := room
      _ < UInt32.size := w.fuel.toNat_lt_size
  have addressed : next (p.registers depth lookahead) =
      some (UInt32.ofNat p.nodes.size, p.registers depth lookahead) := by
    show (word? p.nodes.size).map _ = _
    rw [word?, if_pos own]
    rfl
  have same : (children.map UInt32.ofNat).map UInt32.toNat = children := by
    rw [List.map_map]
    exact (List.map_congr_left fun child mem => UInt32.toNat_ofNat_of_lt' (small child mem)).trans (List.map_id' children)
  have pushed : Fits w depth lookahead (p.interior g id here stop children).2 :=
    ⟨Nat.le_trans (interior_affords (Nat.lt_succ_self _) (Nat.le_refl _) children).weight room, fits.deep, fits.around⟩
  rw [interior, bind_run addressed, bind_run (change_run pushed (by rw [same]; rfl))]
  rfl

theorem miss_run (fits : Fits w depth lookahead p) :
    miss w here (p.registers depth lookahead) = inRegisters oneWord depth lookahead (p.miss lookahead here) := by
  have zero := ofNat_eq_zero fits.lookahead_le
  have missed : Fits w depth lookahead (p.miss lookahead here).2 := by
    refine fits.of_le ?_
    dsimp only [Progress.miss]
    split
    · exact Nat.le_refl _
    · exact Nat.le_refl _
  refine bind_run (change_run missed ?_) _
  simp only [Progress.registers, Progress.miss, zero]
  split
  · rfl
  · rfl

theorem terminal_run (fits : Fits w depth lookahead p) (room : p.weight < w.fuel.toNat) (stop? : Option Cursor) :
    terminal w g id here stop? (p.registers depth lookahead) =
      inRegisters oneWord depth lookahead (p.terminal g id lookahead here stop?) := by
  cases stop? with
  | some stop => exact interior_run fits room [] nofun
  | none => exact miss_run fits

/-! ## Visits in a row -/

section

variable {child : NodeId → Cursor → Machine σ WordVerdict} {visit : Visit σ}

theorem inSequence_run (frugal : visit.Frugal) (simulates : Simulates w depth lookahead child visit)
    (ids : List NodeId) (here : Cursor) (fits : Fits w depth lookahead p) :
    inSequence child ids here (p.registers depth lookahead) =
      inRegisters manyWords depth lookahead (Match.inSequence visit ids here p) := by
  induction ids generalizing here p with
  | nil => rfl
  | cons id ids ih =>
    have head := simulates id here p fits
    have left := fits.of_le (frugal id here p).weight
    rw [inSequence, Match.inSequence, bind_run head]
    generalize visit id here p = a at left
    match a with
    | (.matched (node, next), q) =>
      have rest := ih next left
      refine (bind_run rest _).trans ?_
      dsimp only
      match Match.inSequence visit ids next q with
      | (.matched (nodes, stop), q') => rfl
      | (.failed, q') => rfl
      | (.stopped fault, q') => rfl
    | (.failed, q) => rfl
    | (.stopped fault, q) => rfl

theorem firstOf_run (frugal : visit.Frugal) (simulates : Simulates w depth lookahead child visit) (tracer : Tracer σ)
    (choice : NodeId) (name : Option String) (ids : List NodeId) (here : Cursor) (fits : Fits w depth lookahead p) :
    firstOf child w tracer choice name ids here (p.registers depth lookahead) =
      inRegisters oneWord depth lookahead (Match.firstOf visit tracer choice name ids here p) := by
  induction ids generalizing p with
  | nil => rfl
  | cons id ids ih =>
    have head := simulates id here p fits
    have affords := frugal id here p
    rw [firstOf, Match.firstOf, bind_run head]
    generalize visit id here p = a at affords
    have left := fits.of_le affords.weight
    match a with
    | (.matched (node, stop), q) => exact bind_run (inheritName_run left (fits.ref_lt affords.one_lt) name) _
    | (.failed, q) =>
      cases ids with
      | nil => exact ih left
      | cons id ids =>
        have told := record_run left tracer (.backtrack choice here.offset)
        exact (bind_run told _).trans (ih (left.of_le (Nat.le_refl _)))
    | (.stopped fault, q) => rfl

/-- A round that finds no fuel left is the last one, and so there is one round more than there are visits left. -/
theorem greedily_run (frugal : visit.Frugal) (simulates : Simulates w depth lookahead child visit)
    (empty : ∀ id here p, p.fuel = 0 → visit id here p = (.stopped .fuelExhausted, p)) (id : NodeId) (rounds : Nat)
    (earlier : List Ref) (here : Cursor) (fits : Fits w depth lookahead p) (enough : p.fuel ≤ rounds) :
    greedily child id (rounds + 1) (earlier.map UInt32.ofNat) here (p.registers depth lookahead) =
      inRegisters manyWords depth lookahead (Match.greedily visit id rounds earlier here p) := by
  induction rounds generalizing earlier here p with
  | zero =>
    -- The round is begun all the same, and its visit is the one that is refused.
    have head := simulates id here p fits
    rw [empty id here p (Nat.le_zero.mp enough)] at head
    exact bind_run head _
  | succ rounds ih =>
    have head := simulates id here p fits
    have affords := frugal id here p
    rw [greedily, Match.greedily, bind_run head]
    generalize visit id here p = a at affords
    have left := fits.of_le affords.weight
    match a with
    | (.matched (node, next), q) =>
      have fewer : q.fuel ≤ rounds := Nat.le_trans affords.fuel (Nat.sub_le_of_le_add enough)
      dsimp only [Verdict.map, oneWord]
      by_cases idle : next.offset = here.offset
      · rw [if_pos idle, if_pos idle]
        rfl
      · rw [if_neg idle, if_neg idle]
        exact ih (node :: earlier) next left fewer
    | (.failed, q) =>
      show some _ = some _
      rw [← List.map_reverse]
      rfl
    | (.stopped fault, q) => rfl

end

/-! ## Kinds -/

section

variable {fuel : Nat}

theorem standing_run (fits : Fits w depth lookahead p) (room : p.weight < w.fuel.toNat) {a : Attempts σ}
    (affords : Affords Prod.fst p.weight fuel a) :
    standing w g id here (a.1.map manyWords) (a.2.registers depth lookahead) =
      inRegisters oneWord depth lookahead (Match.standing g id here a) := by
  match a, affords with
  | (.matched (nodes, stop), q), affords =>
    exact interior_run (fits.of_le affords.weight) (Nat.lt_of_le_of_lt affords.weight room) nodes
      fun node mem => fits.ref_lt (affords.many_lt node mem)
  | (.failed, q), _ => rfl
  | (.stopped fault, q), _ => rfl

theorem overSome_run (fits : Fits w depth lookahead p) (room : p.weight < w.fuel.toNat) {a : Attempts σ}
    (affords : Affords Prod.fst p.weight fuel a) :
    overSome w g id here (a.1.map manyWords) (a.2.registers depth lookahead) =
      inRegisters oneWord depth lookahead (Match.overSome g id here a) := by
  have stood : standing w g id here (a.1.map manyWords) (a.2.registers depth lookahead) = _ :=
    standing_run fits room affords
  match a, stood with
  | (.matched ([], stop), q), _ => rfl
  | (.matched (node :: nodes, stop), q), stood => exact stood
  | (.failed, q), _ => rfl
  | (.stopped fault, q), _ => rfl

theorem overOptional_run (fits : Fits w depth lookahead p) (room : p.weight < w.fuel.toNat) {a : Attempt σ}
    (affords : Affords oneRef p.weight fuel a) :
    overOptional w g id here (a.1.map oneWord) (a.2.registers depth lookahead) =
      inRegisters oneWord depth lookahead (Match.overOptional g id here a) := by
  have left := fits.of_le affords.weight
  have less := Nat.lt_of_le_of_lt affords.weight room
  match a, affords with
  | (.matched (node, stop), q), affords =>
    exact interior_run left less [node] (List.forall_mem_singleton.mpr (fits.ref_lt affords.one_lt))
  | (.failed, q), _ => exact interior_run left less [] nofun
  | (.stopped fault, q), _ => rfl

theorem overNegation_run (fits : Fits w depth lookahead p) (room : p.weight < w.fuel.toNat) {a : Attempt σ}
    (affords : Affords oneRef p.weight fuel a) (size : Nat) :
    overNegation w g id here (a.1.map oneWord) ((a.2.truncate size).registers depth lookahead) =
      inRegisters oneWord depth lookahead (Match.overNegation g id here size a) := by
  have cut := Nat.le_trans (weight_truncate_le a.2 size) affords.weight
  match a, cut with
  | (.matched _, q), _ => rfl
  | (.failed, q), cut => exact interior_run (fits.of_le cut) (Nat.lt_of_le_of_lt cut room) [] nofun
  | (.stopped fault, q), _ => rfl

theorem attempt_run {child : NodeId → Cursor → Machine σ WordVerdict} {visit : Nat → Visit σ}
    (frugal : ∀ lookahead, (visit lookahead).Frugal)
    (empty : ∀ lookahead id here p, p.fuel = 0 → visit lookahead id here p = (.stopped .fuelExhausted, p))
    (simulates : ∀ lookahead, Simulates w depth lookahead child (visit lookahead)) (inside : lookahead < depth)
    (fits : Fits w depth lookahead p) (room : p.weight < w.fuel.toNat) (g : Grammar) (tracer : Tracer σ) (id : NodeId)
    (here : Cursor) :
    attempt w g tracer child id here (p.registers depth lookahead) =
      inRegisters oneWord depth lookahead (Match.attempt g tracer visit lookahead id here p) := by
  have frugal' := frugal lookahead
  have simulates' := simulates lookahead
  unfold attempt Match.attempt
  generalize g.kind id = kind
  match kind with
  | .literal _ | .charSet _ _ | .charRange _ _ _ | .endOfInput => exact terminal_run fits room _
  | .sequence parts =>
    exact (bind_run (inSequence_run frugal' simulates' parts here fits) _).trans
      (standing_run fits room (inSequence_affords frugal' parts here p))
  | .choice alternatives => exact firstOf_run frugal' simulates' tracer id (g.name id) alternatives here fits
  | .repetition one =>
    have known : (p.registers depth lookahead).fuel.toNat = p.fuel := toNat_word fits.fuel
    have rounds := greedily_run frugal' simulates' (empty lookahead) one p.fuel [] here fits (Nat.le_refl _)
    refine (bind_run get_run _).trans ?_
    dsimp only
    rw [known]
    exact (bind_run rounds _).trans
      (overSome_run fits room (greedily_affords frugal' one p.fuel here p nofun (Nat.le_refl _) (Nat.le_refl _)))
  | .optional one =>
    exact (bind_run (simulates' one here p fits) _).trans (overOptional_run fits room (frugal' one here p))
  | .negation one =>
    -- The counter is back and the nodes are cut before the verdict is looked at, so a stop leaves them balanced too.
    have deeper : Fits w depth (lookahead + 1) p := ⟨fits.weight, fits.deep, inside⟩
    have affords := frugal (lookahead + 1) one here p
    have left := deeper.of_le affords.weight
    refine (bind_run get_run _).trans ?_
    refine (bind_run (lookIn_run deeper) _).trans ?_
    refine (bind_run (simulates (lookahead + 1) one here p deeper) _).trans ?_
    refine (bind_run (lookOut_run left) _).trans ?_
    refine (bind_run (truncate_run (fits.of_le affords.weight) p.nodes.size) _).trans ?_
    exact overNegation_run fits room affords p.nodes.size
  | .reference rule => rfl

theorem conclude_run {a : Attempt σ} (fits : Fits w depth lookahead a.2) (tracer : Tracer σ) (size : Nat) :
    conclude w tracer id here size (a.1.map oneWord) (a.2.registers depth lookahead) =
      some ((), (Match.conclude tracer id here size a).2.registers depth lookahead) := by
  match a, fits with
  | (.matched (node, stop), q), fits => exact record_run fits tracer _
  | (.failed, q), fits =>
    have cut := truncate_run fits size
    exact (bind_run cut _).trans (record_run (fits.of_le (weight_truncate_le q size)) tracer _)
  | (.stopped fault, q), _ => rfl

end

/-- A visit that is not refused opens, and is not open at its end. -/
theorem admitted_run {child : NodeId → Cursor → Machine σ WordVerdict} {visit : Nat → Visit σ}
    (frugal : ∀ lookahead, (visit lookahead).Frugal)
    (empty : ∀ lookahead id here p, p.fuel = 0 → visit lookahead id here p = (.stopped .fuelExhausted, p))
    (simulates : ∀ lookahead, Simulates w (depth + 1) lookahead child (visit lookahead))
    (fits : Fits w depth lookahead p) (left : p.fuel ≠ 0) (above : depth < w.depth.toNat) :
    admitted w g tracer child id here (p.spend.registers depth lookahead) =
      inRegisters oneWord depth lookahead (Match.conclude tracer id here p.nodes.size
        (Match.attempt g tracer visit lookahead id here (p.spend.record tracer (.enter id here.offset)))) := by
  -- The unit of fuel that was spent makes the room in the bound for a node of the attempt itself.
  have paid : p.spend.weight + 1 = p.weight := by
    show p.nodes.size + (p.fuel - 1) + 1 = p.nodes.size + p.fuel
    omega
  have room : p.spend.weight < w.fuel.toNat := Nat.le_trans (Nat.le_of_eq paid) fits.weight
  have entered : Fits w (depth + 1) lookahead p.spend := ⟨Nat.le_of_lt room, above, Nat.le_succ_of_le fits.around⟩
  have told : Fits w (depth + 1) lookahead (p.spend.record tracer (.enter id here.offset)) :=
    entered.of_le (Nat.le_refl _)
  have attempted := attempt_run frugal empty simulates (Nat.lt_succ_of_le fits.around) told room g tracer id here
  have affords := attempt_affords (g := g) frugal tracer lookahead id here
    (p.spend.record tracer (.enter id here.offset))
  refine (bind_run (enter_run entered) _).trans ?_
  refine (bind_run (record_run entered tracer _) _).trans ?_
  refine (bind_run get_run _).trans ?_
  refine (bind_run attempted _).trans ?_
  generalize Match.attempt g tracer visit lookahead id here _ = a at affords
  have ended : Fits w depth lookahead a.2 := fits.of_le (Nat.le_trans affords.weight (Nat.le_of_eq paid))
  have last : Fits w (depth + 1) lookahead a.2 := ⟨ended.weight, entered.deep, entered.around⟩
  refine (bind_run (leave_run last fits.around) _).trans ?_
  refine (bind_run (conclude_run ended tracer p.nodes.size) _).trans ?_
  match a with
  | (.matched _, _) | (.failed, _) | (.stopped _, _) => rfl

theorem visit_run_empty (nesting : Nat) (fits : Fits w depth lookahead p) (empty : p.fuel = 0) :
    visit w g tracer (nesting + 1) id here (p.registers depth lookahead) =
      inRegisters oneWord depth lookahead (.stopped .fuelExhausted, p) := by
  have none : (p.registers depth lookahead).fuel = 0 := (ofNat_eq_zero fits.fuel).mpr empty
  refine (bind_run get_run _).trans ?_
  rw [if_pos none]
  rfl

/-- A visit that finds some fuel left spends a unit of it, and then looks how many visits are open. -/
theorem visit_run_spent (nesting : Nat) (fits : Fits w depth lookahead p) (left : p.fuel ≠ 0) :
    visit w g tracer (nesting + 1) id here (p.registers depth lookahead) =
      if w.depth.toNat ≤ depth then inRegisters oneWord depth lookahead (.stopped .depthExceeded, p.spend)
      else admitted w g tracer (visit w g tracer nesting) id here (p.spend.registers depth lookahead) := by
  have some : (p.registers depth lookahead).fuel ≠ 0 := (ofNat_eq_zero fits.fuel).not.mpr left
  have deep : w.depth ≤ (p.spend.registers depth lookahead).depth ↔ w.depth.toNat ≤ depth := by
    rw [UInt32.le_iff_toNat_le]
    show _ ≤ (UInt32.ofNat depth).toNat ↔ _
    rw [toNat_word fits.deep]
  refine (bind_run get_run _).trans ?_
  rw [if_neg some]
  refine (bind_run (spend_run fits left) _).trans ?_
  refine (bind_run get_run _).trans ?_
  simp only [deep]
  split
  · rfl
  · rfl

/-- **Visits in registers do what visits do.** The levels allowed are those left and those of the visits that are open. -/
theorem visit_run (g : Grammar) (tracer : Tracer σ) (levels : Nat) (all : levels + depth = w.depth.toNat) :
    Simulates w depth lookahead (visit w g tracer (levels + 1)) (Match.visit g tracer levels lookahead) := by
  induction levels generalizing depth lookahead with
  | zero =>
    intro id here p fits
    by_cases empty : p.fuel = 0
    · rw [visit_empty tracer _ empty, visit_run_empty _ fits empty]
    · have bottom : w.depth.toNat ≤ depth := by omega
      rw [visit_run_spent _ fits empty, if_pos bottom, Match.visit, if_neg empty]
  | succ levels ih =>
    intro id here p fits
    by_cases empty : p.fuel = 0
    · rw [visit_empty tracer _ empty, visit_run_empty _ fits empty]
    · have above : depth < w.depth.toNat := by omega
      have below : levels + (depth + 1) = w.depth.toNat := by omega
      rw [visit_entered tracer empty, visit_run_spent _ fits empty, if_neg (Nat.not_le_of_lt above)]
      exact admitted_run (visit_frugal g tracer levels) (fun _ _ _ _ => visit_empty tracer levels) (fun _ => ih below)
        fits empty above

end Machine

/-! ## Whole matches -/

/-- The start of a match: all its visits are left, and none is open. -/
theorem fits_start (w : WordLimits) (offset : Nat) (gathered : σ) : Fits w 0 0 (.start w.limits offset gathered) := by
  have weight : (Progress.start w.limits offset gathered).weight = w.fuel.toNat := Nat.zero_add _
  exact ⟨Nat.le_of_eq weight, Nat.zero_le _, Nat.le_refl _⟩

/-- **A match in registers always has a result, and it is the match itself**: no counter is counted beyond what a word
can hold, no node has an address that a word cannot hold, the registers are in bounds after every change, and the
counters of what is open are back at zero at the end. And the tree that is found has no more nodes than there were
visits. -/
theorem matchedInWords_eq (g : Grammar) (id : NodeId) (input : String) (offset : Nat) (w : WordLimits)
    (tracer : Tracer σ) (gathered : σ) :
    matchedInWords g id input offset w tracer gathered =
        some (traceAt g id input offset w.limits tracer gathered) ∧
      ∀ found furthest, (traceAt g id input offset w.limits tracer gathered).1 = .ok ⟨some found, furthest⟩ →
        found.tree.size ≤ w.fuel.toNat := by
  unfold matchedInWords traceAt
  cases Cursor.ofOffset? input.toList offset with
  | none => exact ⟨rfl, nofun⟩
  | some here =>
    have fits := fits_start w offset gathered
    have start : (⟨w.fuel, 0, 0, offset, {}, gathered⟩ : Registers σ) =
        (Progress.start w.limits offset gathered).registers 0 0 := by
      show _ = Registers.mk (UInt32.ofNat w.fuel.toNat) _ _ _ _ _
      rw [UInt32.ofNat_toNat]
      rfl
    have ran := Machine.visit_run g tracer w.limits.depth (Nat.add_zero _) id here _ fits
    -- Nodes and fuel together never grow, so the root of the tree fits into a word as the fuel did.
    have affords := (visit_frugal g tracer w.limits.depth 0 id here (.start w.limits offset gathered)).mono fits.weight
      (Nat.le_refl _)
    dsimp only
    rw [start, guard, if_pos fits.inBounds]
    show (Machine.visit w g tracer (w.limits.depth + 1) id here _ >>= _) = _ ∧ _
    rw [ran]
    generalize visit g tracer w.limits.depth 0 id here _ = a at affords
    match a, affords with
    | (.matched (root, stop), q), affords =>
      refine ⟨?_, ?_⟩
      · have same : (UInt32.ofNat root).toNat = root := toNat_word (Nat.le_of_lt affords.one_lt)
        show some (Except.ok (Outcome.mk (some ⟨q.nodes.finish _ (UInt32.ofNat root).toNat, _⟩) _), _) = _
        rw [same]
        rfl
      · rintro _ _ ⟨⟩
        exact Nat.le_trans (Nat.le_add_right ..) affords.weight
    | (.failed, q), _ => exact ⟨rfl, nofun⟩
    | (.stopped fault, q), _ => exact ⟨rfl, nofun⟩

end

/-- With just as many visits as the match makes and as many levels as it goes down, one negation among them. -/
theorem letters_in_words :
    ∃ found, traceAt letters 6 "xabc" 1 ⟨15, 5⟩ .silent () = (.ok ⟨some found, 3⟩, ()) ∧ found.tree.size = 5 ∧
      matchedInWords letters 6 "xabc" 1 ⟨15, 5⟩ .silent () = some (.ok ⟨some found, 3⟩, ()) ∧ found.tree.size ≤ 15 := by
  obtain ⟨found, ends, size⟩ :
      ∃ found, traceAt letters 6 "xabc" 1 ⟨15, 5⟩ .silent () = (.ok ⟨some found, 3⟩, ()) ∧ found.tree.size = 5 :=
    ⟨_, rfl, rfl⟩
  obtain ⟨same, small⟩ := matchedInWords_eq letters 6 "xabc" 1 ⟨15, 5⟩ .silent ()
  exact ⟨found, ends, size, same.trans (congrArg some ends), small found 3 (congrArg Prod.fst ends)⟩

end BnfTokenizer.Match
