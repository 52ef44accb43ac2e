import BnfTokenizer.Proofs.Match.Notes

/-!
# How far a match came

The furthest failure of a match is one number that it carries through every attempt, and it is exact: no terminal
failed further on outside negation, and where the number is not the offset of the match itself, a terminal did fail
there. That includes the alternatives that were given up, and everything inside them.

What counts is read off the events. A terminal is `Missed` where its failure is told while none of the nodes that are
open (`openAfter`) is a negation. The match itself decides by a depth that it hands down; the two agree because a
negation is open exactly where that depth is not zero, and this is the invariant of the run.
-/

namespace BnfTokenizer.Match

/-! ## Open nodes -/

/-- What an event does to the nodes that are open, innermost first. -/
def Tracer.opened : Tracer (List NodeId)
  | .enter id _, opened => id :: opened
  | .success .., opened | .failure .., opened => opened.tail
  | .backtrack .., opened => opened

/-- The nodes that are open behind some events, innermost first. -/
def openAfter (es : List Event) : List NodeId :=
  gatherAll .opened [] es

theorem openAfter_concat (es : List Event) (e : Event) : openAfter (es ++ [e]) = Tracer.opened e (openAfter es) :=
  gatherAll_append ..

/-- A node that is left closes itself, whatever was open before it was entered. -/
theorem Closes.opened {id : NodeId} {position : Nat} {closing : Event} (closes : Closes id position closing)
    (opened : List NodeId) : Tracer.opened closing (id :: opened) = opened := by
  cases closes <;> rfl

section

variable (g : Grammar)

/-- None of some nodes is a negation. -/
def Expecting (opened : List NodeId) : Prop :=
  ∀ id ∈ opened, ¬ (g.kind id).IsNegation

/-- A terminal failed at a place while no negation was open. -/
def Missed (es : List Event) (position : Nat) : Prop :=
  ∃ before id after, es = before ++ .failure id position :: after ∧ (g.kind id).IsTerminal ∧
    Expecting g (openAfter before)

/-- The furthest of an offset and all places where a terminal was missed. -/
def IsFurthest (offset : Nat) (es : List Event) (furthest : Nat) : Prop :=
  IsGreatest {position | position = offset ∨ Missed g es position} furthest

end

section

variable {g : Grammar} {es : List Event} {e : Event} {id : NodeId} {offset furthest position lookahead : Nat}
  {opened : List NodeId}

theorem missed_concat : Missed g (es ++ [e]) position ↔
    Missed g es position ∨
      ∃ id, e = .failure id position ∧ (g.kind id).IsTerminal ∧ Expecting g (openAfter es) := by
  constructor
  -- A failure is the last event, or it stands among those before.
  · rintro ⟨before, id, after, parts, terminal, expecting⟩
    obtain rfl | ⟨init, last, rfl⟩ := List.eq_nil_or_concat after
    · obtain ⟨rfl, same⟩ := List.append_inj' parts rfl
      exact .inr ⟨id, List.head_eq_of_cons_eq same, terminal, expecting⟩
    · rw [List.concat_eq_append, ← List.cons_append, ← List.append_assoc] at parts
      exact .inl ⟨before, id, init, (List.append_inj' parts rfl).1, terminal, expecting⟩
  · rintro (⟨before, id, after, rfl, terminal, expecting⟩ | ⟨id, rfl, terminal, expecting⟩)
    · exact ⟨before, id, after ++ [e], by rw [List.append_assoc, List.cons_append], terminal, expecting⟩
    · exact ⟨es, id, [], rfl, terminal, expecting⟩

/-- An event that is no failure of a terminal outside negation leaves the furthest place as it is. -/
theorem IsFurthest.concat (exact : IsFurthest g offset es furthest)
    (other : ∀ id position, e = .failure id position → (g.kind id).IsTerminal → ¬ Expecting g (openAfter es)) :
    IsFurthest g offset (es ++ [e]) furthest := by
  have same : {position | position = offset ∨ Missed g (es ++ [e]) position} =
      {position | position = offset ∨ Missed g es position} := by
    refine Set.ext fun position => or_congr_right ?_
    rw [missed_concat]
    refine or_iff_left ?_
    rintro ⟨id, failure, terminal, expecting⟩
    exact other id position failure terminal expecting
  rwa [IsFurthest, same]

/-- Where a terminal fails outside negation, the furthest place moves up to it. -/
theorem IsFurthest.miss (exact : IsFurthest g offset es furthest) (terminal : (g.kind id).IsTerminal)
    (expecting : Expecting g (openAfter es)) :
    IsFurthest g offset (es ++ [.failure id position]) (max furthest position) := by
  have missed : {other | other = offset ∨ Missed g (es ++ [.failure id position]) other} =
      insert position {other | other = offset ∨ Missed g es other} := by
    refine Set.ext fun other => ?_
    change _ ∨ Missed g _ other ↔ _ ∨ (_ ∨ Missed g es other)
    rw [missed_concat, ← or_assoc, or_comm]
    refine or_congr_left ⟨?_, ?_⟩
    · rintro ⟨_, failure, _⟩
      exact (Event.failure.inj failure).2.symm
    · rintro rfl
      exact ⟨id, rfl, terminal, expecting⟩
  rw [IsFurthest, missed, max_comm]
  exact exact.insert position

/-- A terminal is not a negation. -/
theorem expecting_cons_iff_of_terminal (terminal : (g.kind id).IsTerminal) :
    Expecting g (id :: opened) ↔ Expecting g opened := by
  refine List.forall_mem_cons.trans (and_iff_right fun negation => ?_)
  cases kind : g.kind id <;> rw [kind] at terminal negation <;> trivial

/-- Inside a node, the depth handed down is zero where neither the node nor one around it is a negation. -/
theorem lookaheadIn_eq_zero_iff (depth : lookahead = 0 ↔ Expecting g opened) :
    g.lookaheadIn id lookahead = 0 ↔ Expecting g (id :: opened) := by
  unfold Expecting Grammar.lookaheadIn
  rw [List.forall_mem_cons]
  cases kind : g.kind id with
  | negation child => exact ⟨nofun, fun both => absurd trivial both.1⟩
  | _ => exact depth.trans (and_iff_right nofun).symm

/-- A run that begins where no negation is open exactly if its depth is zero leaves the same nodes open unless it is
stopped, and what is furthest stays furthest. -/
def KeepsFurthest (g : Grammar) (offset lookahead : Nat) (a : Notes (List Event)) (fault? : Option Fault)
    (b : Notes (List Event)) : Prop :=
  (lookahead = 0 ↔ Expecting g (openAfter a.events)) →
    (fault? = none → openAfter b.events = openAfter a.events) ∧
      (IsFurthest g offset a.events a.furthest → IsFurthest g offset b.events b.furthest)

theorem openAfter_entered (a : Notes (List Event)) (id : NodeId) (position : Nat) :
    openAfter (a.record .log (.enter id position)).events = id :: openAfter a.events := by
  rw [Notes.events_record, openAfter_concat]
  rfl

theorem IsFurthest.entered {a : Notes (List Event)} (exact : IsFurthest g offset a.events furthest) :
    IsFurthest g offset (a.record .log (.enter id position)).events furthest := by
  rw [Notes.events_record]
  exact exact.concat nofun

/-- The depth that is handed down agrees with the negations that are open inside a node that was entered. -/
theorem depth_entered {a : Notes (List Event)} (depth : lookahead = 0 ↔ Expecting g (openAfter a.events)) :
    g.lookaheadIn id lookahead = 0 ↔ Expecting g (openAfter (a.record .log (.enter id position)).events) := by
  rw [openAfter_entered]
  exact lookaheadIn_eq_zero_iff depth

end

/-- **Every step of a match keeps the furthest place exact.** -/
theorem kept_furthest (g : Grammar) (source : List Char) (offset : Nat) :
    Kept g .log source (KeepsFurthest g offset) where
  refl _ _ _ := ⟨fun _ => rfl, id⟩
  trans first second depth := by
    obtain ⟨closed, furthest⟩ := first depth
    obtain ⟨closes, further⟩ := second (by rwa [closed rfl])
    exact ⟨fun ends => (closes ends).trans (closed rfl), further ∘ furthest⟩
  raise _ _ _ _ _ := ⟨nofun, id⟩
  backtrack _ a _ _ _ _ _ _ := by
    rw [Notes.events_record, openAfter_concat]
    exact ⟨fun _ => rfl, fun furthest => furthest.concat nofun⟩
  miss lookahead a id position terminal _ depth := by
    have outside : Expecting g (openAfter (a.record .log (.enter id position)).events) ↔ lookahead = 0 := by
      rw [openAfter_entered, depth]
      exact expecting_cons_iff_of_terminal terminal
    rw [Notes.events_record, Notes.events_miss, openAfter_concat, openAfter_entered]
    refine ⟨fun _ => rfl, fun furthest => ?_⟩
    by_cases zero : lookahead = 0
    · have moved : IsFurthest g offset _ (max a.furthest position) :=
        furthest.entered.miss terminal (outside.mpr zero)
      rwa [Notes.miss, if_pos zero]
    · have stays := furthest.entered.concat (e := .failure id position) fun _ _ _ _ expecting =>
        zero (outside.mp expecting)
      rwa [Notes.miss, if_neg zero]
  call _ inner closes _ matched depth := by
    obtain ⟨closed, furthest⟩ := inner (depth_entered depth)
    rw [Notes.events_record, openAfter_concat, closed rfl, openAfter_entered]
    refine ⟨fun _ => closes.opened _, fun before => (furthest before.entered).concat ?_⟩
    -- The only failure that closes a node is its own, and a terminal is not left by this way when it failed.
    rintro _ _ rfl terminal
    cases closes
    exact absurd rfl (matched terminal)
  stop _ inner depth := by
    obtain ⟨_, furthest⟩ := inner (depth_entered depth)
    exact ⟨nofun, fun before => furthest before.entered⟩

/-- Before anything has happened, the offset of the match is all there is. -/
theorem isFurthest_nil (g : Grammar) (offset : Nat) : IsFurthest g offset [] offset := by
  refine ⟨.inl rfl, ?_⟩
  rintro _ (rfl | ⟨before, _, _, parts, _⟩)
  · exact Nat.le_refl _
  · exact absurd parts (by simp)

theorem isFurthest_of_matchAt {g : Grammar} {id : NodeId} {input : String} {offset : Nat} {limits : Limits}
    {final : Outcome} (ends : matchAt g id input offset limits = .ok final) :
    IsFurthest g offset (events g id input offset limits) final.furthest := by
  obtain ⟨_, last, kept, told, furthest⟩ := matchAt_carries (kept_furthest g input.toList offset) id offset limits
  rw [ends] at furthest
  have depth : (0 = 0 ↔ Expecting g (openAfter [])) := iff_of_true rfl nofun
  rw [← furthest, ← told]
  exact (kept depth).2 (isFurthest_nil g offset)

/-- **The furthest failure is exact.** Where a match is carried to its end, found or not, the furthest place is the
greatest among its offset and the places where a terminal failed while no negation was open. No tracer changes it. -/
theorem furthest_exact (g : Grammar) (id : NodeId) (input : String) (offset : Nat) (limits : Limits) {σ : Type}
    (tracer : Tracer σ) (gathered : σ) {final : Outcome}
    (ends : (traceAt g id input offset limits tracer gathered).1 = .ok final) :
    IsGreatest {position | position = offset ∨ Missed g (events g id input offset limits) position}
      final.furthest := by
  rw [traceAt_eq_events] at ends
  exact isFurthest_of_matchAt ends

/-- An `a` with a `b` and a `c` behind it, or an `a` that is followed by a `b` and no more than that, or an `a`. -/
def probing : Grammar :=
  ⟨#[⟨none, .literal ['a', 'b']⟩, ⟨none, .literal ['c']⟩, ⟨none, .sequence [0, 1]⟩, ⟨none, .literal ['a']⟩,
    ⟨none, .literal ['b', 'd']⟩, ⟨none, .literal ['x']⟩, ⟨none, .sequence [4, 5]⟩, ⟨none, .negation 6⟩,
    ⟨none, .negation 7⟩, ⟨none, .sequence [3, 8]⟩, ⟨some "text", .choice [2, 9, 3]⟩]⟩

/-- Only the first letter is matched. The `c` that is missing behind the second counts, although it belongs to an
alternative that was given up, and the `x` that is missing further on does not, inside two negations. -/
theorem probing_furthest :
    ∃ final, (traceAt probing 10 "abd" 0 {} .silent ()).1 = .ok final ∧ final.found.map Found.stop = some 1 ∧
      .failure 5 3 ∈ events probing 10 "abd" 0 {} ∧
      IsGreatest {position | position = 0 ∨ Missed probing (events probing 10 "abd" 0 {}) position} 2 := by
  obtain ⟨final, ends, stop, furthest⟩ :
      ∃ final, (traceAt probing 10 "abd" 0 {} .silent ()).1 = .ok final ∧ final.found.map Found.stop = some 1 ∧
        final.furthest = 2 := ⟨_, rfl, rfl, rfl⟩
  have exact := furthest_exact probing 10 "abd" 0 {} .silent () ends
  rw [furthest] at exact
  exact ⟨final, ends, stop, by decide, exact⟩

end BnfTokenizer.Match
