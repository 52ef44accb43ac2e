import BnfTokenizer.Proofs.Dialect.Sayable
import BnfTokenizer.Proofs.Match.Coverage
import BnfTokenizer.Proofs.Match.Trailing

/-!
# A newline behind a grammar text

No symbol of the dialect that carries meaning notices a newline behind the text. Layout does, and so does what stands
between quotation marks or brackets, but the latter only where the closing mark is missing with the newline and
without it.
-/

namespace BnfTokenizer.Dialect

open Match (Cursor Derives DerivesAll DerivedTree Steady SteadyAll Extensible Stuck TakesRest)
open ParseTree (View)

/-! ## Edges -/

section

variable {s : Symbol}

/-- Every place is the place in some source where the same text is left. -/
theorem derives_of_fails {here : Cursor} (fails : ∀ source, here.rest <:+ source → Fails source s here.rest) :
    Derives definitions s.id here none := by
  have same : place (List.replicate here.offset ' ' ++ here.rest) here.rest = here := by
    have length : Text.byteLength (List.replicate here.offset ' ') = here.offset := by
      generalize here.offset = n
      induction n with
      | zero => rfl
      | succ n ih =>
        rw [List.replicate_succ, Text.byteLength, ih]
        exact Nat.add_comm 1 n
    rw [place, Text.byteLength_append, length, Nat.add_sub_cancel]
  exact same ▸ fails _ (List.suffix_append ..)

/-- The end of the text. -/
def AtEnd (rest : List Char) : Prop :=
  rest = []

/-- The end of the text, perhaps with a backslash in front that has nothing to escape. -/
def NearEnd (rest : List Char) : Prop :=
  rest = [] ∨ rest = ['\\']

/-- One that fails behind a last backslash too is stuck near the end. -/
theorem stuck_of_nearEnd (ends : ∀ source, Fails source s [])
    (bare : ∀ source, ['\\'] <:+ source → Fails source s ['\\']) : Stuck definitions NearEnd s.id := by
  rintro here (same | same)
  · exact derives_of_fails fun source _ => same ▸ ends source
  · exact derives_of_fails fun source within => same ▸ bare source (same ▸ within)

end

/-! ## Parts without recursion -/

section

variable {length : Nat} {name : Option String}

/-- A literal without newlines does not reach for one that is added. -/
theorem steady_literal (s : Symbol) {text : List Char} (is : s.definition = ⟨name, .literal text⟩)
    (free : '\n' ∉ text) : Steady definitions '\n' length s.id :=
  .literal (by rw [Symbol.kind_id, is]) free

/-- Another class takes the newline where it failed, but only at the end. -/
theorem extensible_class (s : Symbol) {members : List Char} {negated : Bool} {edge : List Char → Prop}
    (is : s.definition = ⟨name, .charSet members negated⟩) (ends : edge []) :
    Extensible definitions '\n' edge s.id := by
  refine .ofClass ?_ ends
  rw [Symbol.kind_id, is]
  trivial

end

/-! ## Layout -/

section

variable {length : Nat} {piece plain : Symbol} {own : String} {specials : List Char}

/-- A backslash at the end escapes the newline behind it. -/
theorem extensible_escapeSequence : Extensible definitions '\n' NearEnd Symbol.escapeSequence.id := by
  have kind : definitions.kind Symbol.escapeSequence.id = .sequence [Symbol.escape.id, Symbol.anyChar.id] :=
    Symbol.kind_id .escapeSequence
  have escape : ∀ length, Steady definitions '\n' length Symbol.escape.id :=
    fun _ => steady_literal .escape rfl (by decide)
  have any : Extensible definitions '\n' AtEnd Symbol.anyChar.id := extensible_class .anyChar rfl rfl
  -- The newline may become the character of an escape whose mark was the last character before.
  have escaped : ∀ {here next : Cursor} {tree}, Derives definitions Symbol.escape.id here (some (tree, next)) →
      TakesRest definitions Symbol.anyChar.id (next.before '\n') →
        TakesRest definitions Symbol.escapeSequence.id (here.before '\n') := by
    rintro here next tree first ⟨_, stop, second, done⟩
    exact ⟨_, stop, .sequence kind (.cons (escape _ (Nat.lt_succ_self _) first) (.cons second .nil)), done⟩
  intro here result derives
  obtain ⟨_, stop, derived, rfl⟩ | ⟨derived, rfl⟩ := derives.of_sequence kind
  · obtain _ | ⟨first, _ | ⟨second, _ | _⟩⟩ := derived
    obtain same | ⟨ends, all⟩ := any second
    · exact .inl (.sequence kind (.cons (escape _ (Nat.lt_succ_self _) first) (.cons same .nil)))
    · exact .inr ⟨.inl ends, escaped first all⟩
  · cases derived with
    | headFails first => exact .inl (.sequenceFails kind (.headFails (escape _ (Nat.lt_succ_self _) first)))
    | tailFails first others =>
      obtain second : Derives definitions Symbol.anyChar.id _ none := by
        cases others with
        | headFails second => exact second
        | tailFails _ none => cases none
      obtain same | ⟨ends, all⟩ := any second
      · exact .inl (.sequenceFails kind (.tailFails (escape _ (Nat.lt_succ_self _) first) (.headFails same)))
      · refine .inr ⟨.inr ?_, escaped first all⟩
        obtain ⟨_, spans, same⟩ | ⟨_, same⟩ := first.of_literal (Symbol.kind_id .escape)
        · cases same
          exact spans.1.trans (congrArg _ (show _ = [] from ends))
        · cases same

/-- No escape sequence is complete near the end: its character is missing. -/
theorem stuck_escapeSequence : Stuck definitions NearEnd Symbol.escapeSequence.id :=
  stuck_of_nearEnd (fun _ => fails_escape nofun) fun _ within =>
    fails_sequence .escapeSequence [.escape] .anyChar [] rfl (.single (takes_literal .escape ['\\'] rfl within))
      (fails_class .anyChar rfl nofun) rfl

theorem IsPiece.stuckPlain (is : IsPiece piece plain own specials) : Stuck definitions NearEnd plain.id := by
  refine stuck_of_nearEnd (fun _ => fails_class plain is.plain nofun) fun _ _ => fails_class plain is.plain ?_
  rintro _ ⟨⟩
  simp [is.backslash]

theorem IsPiece.kind (is : IsPiece piece plain own specials) :
    definitions.kind piece.id = .choice [Symbol.escapeSequence.id, plain.id] := by
  rw [Symbol.kind_id, is.choice]
  rfl

/-- A piece of a text or a class may take the newline, but only near the end. -/
theorem IsPiece.extensible (is : IsPiece piece plain own specials) : Extensible definitions '\n' NearEnd piece.id := by
  refine .choice is.kind ?_
  rw [List.forall_mem_cons, List.forall_mem_singleton]
  exact ⟨⟨extensible_escapeSequence, stuck_escapeSequence⟩, extensible_class plain is.plain (.inl rfl), is.stuckPlain⟩

/-- Where nothing was added, no piece begins near the end. -/
theorem IsPiece.stuck (is : IsPiece piece plain own specials) : Stuck definitions NearEnd piece.id := by
  intro here near
  exact .choiceFails is.kind (.later (stuck_escapeSequence near) (.later (is.stuckPlain near) .nil))

/-- A body of pieces, which may be missing, is extensible. -/
theorem IsPiece.body (is : IsPiece piece plain own specials) (body pieces : Symbol) {name : String}
    (isBody : body.definition = ⟨some name, .optional pieces.id⟩)
    (isPieces : pieces.definition = ⟨some name, .repetition piece.id⟩) :
    Extensible definitions '\n' NearEnd body.id := by
  have many : Extensible definitions '\n' NearEnd pieces.id :=
    .repetition (by rw [Symbol.kind_id, isPieces]) is.extensible is.stuck (.inl rfl)
  exact .optional (by rw [Symbol.kind_id, isBody]) many

end

/-! ## Elements and statements -/

section

variable {length : Nat} {ids : List NodeId}

end

end BnfTokenizer.Dialect
