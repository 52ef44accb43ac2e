import BnfTokenizer.Proofs.Dialect.Lowering
import BnfTokenizer.Proofs.Match.Positions

/-!
# Errors can be reported

What goes wrong with a text is reported three times over: by its line and column, by what stands there, and by an
excerpt with a mark. Each of these cuts the text where the error says. An error that said a place inside a character
would be lost in the attempt to report it, so it has to be shown that none does: the places in the errors of a lexer
are boundaries (`Lexer.isBoundary_of_tokenize`), and a grammar text is only called out of the dialect where the
dialect's own lexer refuses it (`parse_of_unexpected`).

`Text.Reportable` and `Diagnostic.Drawable` say what a report needs of a place and of a diagnostic: that every slice
taken on the way exists, and that what is marked is in order and inside.
-/

namespace BnfTokenizer

/-- A place that a text can be cut at, and the slices that tell its line and column, and what stands there. -/
structure Text.Reportable (source : String) (offset : Nat) : Prop where
  boundary : isBoundary source.toList offset = true
  inside : offset ≤ byteLength source.toList
  located : lineCol? source offset = some (lineCol source offset)
  described : ∀ limit, describeAt? source offset limit = some (describeAt source offset limit)

/-- A diagnostic whose mark can be found in a source, and is a span of it. -/
structure Diagnostic.Drawable (d : Diagnostic) (source : String) : Prop where
  marked : d.markedSpan? source = some (d.markedSpan source)
  ordered : (d.markedSpan source).1 ≤ (d.markedSpan source).2
  inside : (d.markedSpan source).2 ≤ Text.byteLength source.toList

section

variable {source : String} {offset : Nat}

theorem Text.reportable_of_isBoundary (boundary : isBoundary source.toList offset = true) :
    Reportable source offset :=
  ⟨boundary, le_byteLength_of_isBoundary boundary, lineCol?_eq source offset, describeAt?_eq source offset⟩

theorem Diagnostic.drawable_of_isBoundary {d : Diagnostic} (boundary : Text.isBoundary source.toList d.start = true) :
    d.Drawable source :=
  ⟨markedSpan?_eq boundary, (markedSpan_le boundary).1, (markedSpan_le boundary).2⟩

end

/-- A diagnostic points at a place in its error, or at the beginning if the error has none. -/
theorem TokenizeError.start_diagnostic (error : TokenizeError) :
    error.diagnostic.start ∈ error.places ∨ error.diagnostic.start = 0 := by
  match error with
  | .noMatch _ _ => exact .inl (List.mem_singleton_self _)
  | .incomplete consumed _ _ => exact .inl (List.mem_cons_of_mem consumed (List.mem_singleton_self _))
  | .stopped (.idleRepetition _) => exact .inl (List.mem_singleton_self _)
  | .stopped .fuelExhausted | .stopped .depthExceeded | .stopped (.unresolvedReference _) => exact .inr rfl

namespace Dialect

variable {limits : Match.Limits} {source : String} {line column position : Nat} {found : String}

/-- No step behind the dialect's lexer calls a text out of the dialect. -/
theorem parse_of_unexpected (failed : compile limits source = .error (.unexpected line column position found)) :
    parse limits source = .error (.unexpected line column position found) := by
  obtain refused | ⟨tree, parsed, lowering | ⟨g, table, _, assembling⟩⟩ := compile_error failed
  · exact refused
  · obtain ⟨_, _, _, ⟨⟩⟩ | ⟨_, _, _, ⟨⟩⟩ := (lower_error_iff parsed).mp lowering
  · obtain ⟨⟨⟩⟩ | ⟨_, _, _, _, _, _, _, ⟨⟩⟩ := assemble_error assembling

/-- A text is called out of the dialect at a boundary. -/
theorem isBoundary_of_unexpected (failed : compile limits source = .error (.unexpected line column position found)) :
    Text.isBoundary source.toList position = true := by
  obtain ⟨refusal, refused, same⟩ := parse_error (parse_of_unexpected failed)
  have places := Lexer.isBoundary_of_tokenize refused
  match refusal with
  | .noMatch _ _ =>
    cases same
    exact places position (List.mem_singleton_self _)
  | .incomplete consumed _ _ =>
    cases same
    exact places position (List.mem_cons_of_mem consumed (List.mem_singleton_self _))
  | .stopped _ => cases same

end Dialect

/-- **Every error points into its text.** Whatever a lexer refuses, under whatever limits, every place in its error can
be reported, less is consumed than there is and nothing is missed before that, and the diagnostic can be drawn. The
same holds of the place where a grammar text is called out of the dialect. -/
theorem errors_point_into_text :
    (∀ (lexer : Lexer) (input : String) {σ : Type} (tracer : Match.Tracer σ) (gathered : σ) (error : TokenizeError),
      (lexer.tokenizeTracing input tracer gathered).1 = .error error →
        (∀ place ∈ error.places, Text.Reportable input place) ∧
          error.Ordered (Text.byteLength input.toList) ∧ error.diagnostic.Drawable input) ∧
      ∀ (limits : Match.Limits) (source : String) (line column position : Nat) (found : String),
        Dialect.compile limits source = .error (.unexpected line column position found) →
          Text.Reportable source position ∧
            ∀ d ∈ (Dialect.CompileError.unexpected line column position found).diagnostic?, d.Drawable source := by
  refine ⟨?_, ?_⟩
  · intro lexer input σ tracer gathered error ends
    have refused : lexer.tokenize input = .error error :=
      (Lexer.tokenizeTracing_eq lexer input tracer gathered).symm.trans ends
    have places := Lexer.isBoundary_of_tokenize refused
    refine ⟨fun place mem => Text.reportable_of_isBoundary (places place mem), Lexer.ordered_of_tokenize refused, ?_⟩
    obtain mem | beginning := error.start_diagnostic
    · exact Diagnostic.drawable_of_isBoundary (places _ mem)
    · refine Diagnostic.drawable_of_isBoundary ?_
      rw [beginning]
      exact Text.isBoundary_zero input.toList
  · intro limits source line column position found failed
    have boundary := Dialect.isBoundary_of_unexpected failed
    refine ⟨Text.reportable_of_isBoundary boundary, ?_⟩
    rintro _ ⟨⟩
    exact Diagnostic.drawable_of_isBoundary boundary

/-- Half a mark behind a letter of two bytes. -/
def halfMarked : String := "a::=\"é\" :b"

/-- One byte is consumed, and the letter of two bytes that is in the way stands behind the next. In a grammar text, what
is in the way stands behind such a letter. -/
theorem places_reported :
    (∃ (lexer : Lexer) (error : TokenizeError), lexer.grammar = Match.probing ∧
      (lexer.tokenizeTracing "abé" .silent ()).1 = .error error ∧ error.places = [1, 2] ∧
        Text.Reportable "abé" 2 ∧ error.Ordered 4 ∧ error.diagnostic.Drawable "abé") ∧
      ∃ found, (Dialect.compile {} halfMarked).map (fun _ => ()) = .error (.unexpected 1 9 9 found) ∧
        Text.Reportable halfMarked 9 := by
  obtain ⟨lexed, compiled⟩ := errors_point_into_text
  constructor
  · have refused : ((Lexer.mk Match.probing 10 {} rfl).tokenizeTracing "abé" .silent ()).1 =
        .error (.incomplete 1 2 "\"é\"") := rfl
    obtain ⟨places, ordered, drawn⟩ := lexed _ "abé" .silent () _ refused
    exact ⟨_, _, rfl, refused, rfl, places 2 (by decide), ordered, drawn⟩
  · have failed : (Dialect.compile {} halfMarked).map (fun _ => ()) = .error (.unexpected 1 9 9 "\":b\"") := by
      decide +kernel
    refine ⟨_, failed, ?_⟩
    cases ends : Dialect.compile {} halfMarked with
    | ok lexer =>
      rw [ends] at failed
      cases failed
    | error error =>
      rw [ends] at failed
      cases failed
      exact (compiled {} halfMarked 1 9 9 _ ends).1

end BnfTokenizer
