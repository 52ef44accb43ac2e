import BnfTokenizer.Proofs.Match.Furthest
import BnfTokenizer.Proofs.Text.Slicing

/-!
# Places that a match speaks of

A match moves by whole characters, and every place that it speaks of is one where it stood: the offsets of its events,
the place of a repetition that goes round without consuming anything, the end of what it found, and how far a terminal
came. So all of them lie between two characters of the input, however much was tried and given up in between. The first
two hold of every step and so of a whole run (`kept_within`). The furthest failure is no step's own doing, but since it
is exact, it is the place of an event, or of the beginning.

A lexer begins at offset zero, which is a boundary of every text. So the places in its errors are boundaries too.
-/

namespace BnfTokenizer

namespace Match

/-- All events told later are told at places between characters if all earlier ones are, and so is a fault. -/
def KeepsWithin (source : List Char) (_ : Nat) (a : Notes (List Event)) (fault? : Option Fault)
    (b : Notes (List Event)) : Prop :=
  ((∀ e ∈ a.events, e.Within source) → ∀ e ∈ b.events, e.Within source) ∧ ∀ fault ∈ fault?, fault.Within source

section

variable {source : List Char} {a : Notes (List Event)} {e : Event}

theorem within_record (within : ∀ e ∈ a.events, e.Within source) (own : e.Within source) :
    ∀ other ∈ (a.record .log e).events, other.Within source := by
  rw [Notes.events_record, List.forall_mem_append]
  exact ⟨within, List.forall_mem_singleton.mpr own⟩

/-- **Every step of a match stands between two characters.** -/
theorem kept_within (g : Grammar) (source : List Char) : Kept g .log source (KeepsWithin source) where
  refl _ _ := ⟨id, nofun⟩
  trans first second := ⟨second.1 ∘ first.1, second.2⟩
  raise _ _ fault own := ⟨id, by rintro _ ⟨⟩; exact own⟩
  backtrack _ _ _ _ _ _ boundary := ⟨fun within => within_record within boundary, nofun⟩
  miss _ a id position _ boundary := by
    refine ⟨fun within => within_record ?_ boundary, nofun⟩
    rw [Notes.events_miss]
    exact within_record within boundary
  call boundary inner _ closing _ :=
    ⟨fun within => within_record (inner.1 (within_record within boundary)) closing, nofun⟩
  stop boundary inner := ⟨fun within => inner.1 (within_record within boundary), inner.2⟩

end

section

variable {g : Grammar} {id : NodeId} {input : String} {offset : Nat} {limits : Limits}

/-- Every event is told at a place between two characters. -/
theorem events_within (g : Grammar) (id : NodeId) (input : String) (offset : Nat) (limits : Limits) :
    ∀ e ∈ events g id input offset limits, e.Within input.toList := by
  obtain ⟨_, last, kept, told, _⟩ := matchAt_carries (kept_within g input.toList) id offset limits
  rw [← told]
  exact kept.1 nofun

theorem within_of_fault {fault : Fault} (ends : matchAt g id input offset limits = .error fault) :
    fault.Within input.toList := by
  obtain ⟨fault?, _, kept, _, stops⟩ := matchAt_carries (kept_within g input.toList) id offset limits
  rw [ends] at stops
  exact kept.2 fault stops

/-- The furthest failure is at a boundary if the match begins at one. -/
theorem isBoundary_furthest {final : Outcome} (begins : Text.isBoundary input.toList offset = true)
    (ends : matchAt g id input offset limits = .ok final) :
    Text.isBoundary input.toList final.furthest = true := by
  obtain here | ⟨before, node, _, parts, _⟩ := (isFurthest_of_matchAt ends).1
  · rwa [here]
  · refine events_within g id input offset limits (.failure node final.furthest) ?_
    rw [parts]
    exact List.mem_append_right _ List.mem_cons_self

/-- What was found ends at a boundary. -/
theorem isBoundary_stop {found : Found} {furthest : Nat}
    (ends : matchAt g id input offset limits = .ok ⟨some found, furthest⟩) :
    Text.isBoundary input.toList found.stop = true := by
  obtain ⟨source, ⟨inside, span⟩, covered⟩ := covered_of_traceAt ends
  have stops := (covered found.tree.root inside).1.1.stops
  rwa [source, span] at stops

end

end Match

/-! ## Errors of a lexer -/

/-- The places that an error speaks of. -/
def TokenizeError.places : TokenizeError → List Nat
  | noMatch position _ => [position]
  | incomplete consumed position _ => [consumed, position]
  | stopped (.idleRepetition position) => [position]
  | stopped _ => []

/-- Whatever is consumed of an incomplete match is less than all there is, and nothing is missed before its end. -/
def TokenizeError.Ordered (length : Nat) : TokenizeError → Prop
  | incomplete consumed position _ => consumed < length ∧ consumed ≤ position
  | _ => True

namespace Lexer

variable {lexer : Lexer} {input : String} {error : TokenizeError}

/-- No tracer changes the errors of a lexer. -/
theorem tokenizeTracing_eq {σ : Type} (lexer : Lexer) (input : String) (tracer : Match.Tracer σ) (gathered : σ) :
    (lexer.tokenizeTracing input tracer gathered).1 = lexer.tokenize input := by
  unfold tokenizeTracing tokenize
  rw [Match.traceAt_eq_events]

/-- The places in an error are boundaries of the input. -/
theorem isBoundary_of_tokenize (refused : lexer.tokenize input = .error error) :
    ∀ place ∈ error.places, Text.isBoundary input.toList place = true := by
  have begins := Text.isBoundary_zero input.toList
  unfold tokenize judge at refused
  split at refused
  · next fault ends =>
    cases refused
    have own := Match.within_of_fault ends
    cases fault with
    | idleRepetition position => exact List.forall_mem_singleton.mpr own
    | _ => exact List.forall_mem_nil _
  · next furthest ends =>
    cases refused
    exact List.forall_mem_singleton.mpr (Match.isBoundary_furthest begins ends)
  · next found furthest ends =>
    split at refused
    · cases refused
      have reached := Match.isBoundary_furthest begins ends
      have stops := Match.isBoundary_stop ends
      refine List.forall_mem_cons.mpr ⟨stops, List.forall_mem_singleton.mpr ?_⟩
      obtain same | same : max furthest found.stop = furthest ∨ max furthest found.stop = found.stop := by omega
      · rwa [same]
      · rwa [same]
    · cases refused

theorem ordered_of_tokenize (refused : lexer.tokenize input = .error error) :
    error.Ordered (Text.byteLength input.toList) := by
  unfold tokenize judge at refused
  split at refused
  · cases refused
    trivial
  · cases refused
    trivial
  · split at refused
    · next short =>
      cases refused
      exact ⟨short, Nat.le_max_right ..⟩
    · cases refused

end Lexer

end BnfTokenizer
