import BnfTokenizer.Proofs.Dialect.Recognition
import BnfTokenizer.Proofs.Dialect.Syntax

/-!
# Gaps, words, texts and classes

What the symbols of the dialect take that stand for single tokens. Repetition takes all it can, so what a
token is followed by matters: a gap goes up to the first character that is neither blank nor the beginning
of a comment, and a word up to the first that is no word character.

Between brackets a range is tried before a set. A set is not taken for a range, because its members are
spelled without a bare dash.
-/

namespace BnfTokenizer.Dialect

open ParseTree (View)

variable {source text rest : List Char}

/-! ## Classes of characters -/

/-- A nameless class that takes all characters of a text and not the next one. -/
theorem takesMore_class (s : Symbol) {members : List Char} {negated : Bool}
    (is : s.definition = ⟨none, .charSet members negated⟩)
    (all : ∀ c ∈ text, (c ∈ members ↔ negated = false))
    (stops : ∀ c ∈ rest.head?, ¬ (c ∈ members ↔ negated = false)) (within : text ++ rest <:+ source) :
    TakesMore source s text rest [] := by
  induction text with
  | nil => exact .stop (fails_class s is stops)
  | cons c cs ih =>
    obtain ⟨head, tail⟩ := List.forall_mem_cons.mp all
    have behind : cs ++ rest <:+ source := (List.suffix_cons c _).trans within
    have once : Takes source s [c] (cs ++ rest) (left source none [c] (cs ++ rest) []) :=
      takes_class s is head within
    rw [left_delete rfl] at once
    exact .more once (List.cons_ne_nil _ _) (ih tail behind)

/-! ## Gaps -/

/-- A gap ends in front of this. -/
def Solid (rest : List Char) : Prop :=
  ∀ c ∈ rest.head?, ¬ IsBlank c ∧ c ≠ '#'

/-- The table's class of blanks has the characters that count as blank. -/
theorem mem_blanks_iff (c : Char) : (c ∈ [' ', '\t', '\r', '\n'] ↔ false = false) ↔ IsBlank c := by
  simp [IsBlank]

/-- No gap begins before a character that is neither a blank nor a hash. -/
theorem fails_blank (solid : Solid rest) : Fails source .blank rest := by
  refine fails_choice .blank [.whitespace, .comment] rfl ?_
  rw [List.forall_mem_cons, List.forall_mem_singleton]
  constructor
  · refine fails_repetition .whitespace .blankChar rfl (fails_class _ rfl fun c first => ?_)
    exact (not_congr (mem_blanks_iff c)).mpr (solid c first).1
  · have absent : Fails source .hash rest := by
      refine fails_literal .hash ['#'] rfl ?_
      rintro ⟨tail, rfl⟩
      exact (solid '#' rfl).2 rfl
    exact fails_sequence .comment [] .hash [.commentText] rfl .nil absent rfl

/-- The blanks that a gap begins with. -/
theorem Gap.split {gap : List Char} (is : Gap gap) :
    ∃ blanks others, gap = blanks ++ others ∧ (∀ c ∈ blanks, IsBlank c) ∧ Gap others ∧
      ∀ c ∈ others.head?, ¬ IsBlank c := by
  induction is with
  | nil => exact ⟨[], [], rfl, nofun, .nil, nofun⟩
  | @blank c cs blank _ ih =>
    obtain ⟨blanks, others, rfl, all, rest, solid⟩ := ih
    exact ⟨c :: blanks, others, rfl, List.forall_mem_cons.mpr ⟨blank, all⟩, rest, solid⟩
  | @comment line cs inside rest _ =>
    refine ⟨[], _, rfl, nofun, .comment inside rest, ?_⟩
    rintro _ ⟨⟩
    decide

/-- Blanks up to the first character that is none are one piece of a gap, and leave nothing. -/
theorem takes_whitespace {blanks : List Char} (all : ∀ c ∈ blanks, IsBlank c) (some : blanks ≠ [])
    (stops : ∀ c ∈ rest.head?, ¬ IsBlank c) (within : blanks ++ rest <:+ source) :
    Takes source .blank blanks rest [] := by
  have chars : TakesMore source .blankChar blanks rest [] :=
    takesMore_class .blankChar rfl (fun c mem => (mem_blanks_iff c).mpr (all c mem))
      (fun c first => (not_congr (mem_blanks_iff c)).mpr (stops c first)) within
  have whole := takes_repetition .whitespace .blankChar rfl chars some within
  rw [left_delete rfl] at whole
  exact takes_choice .blank [] .whitespace [.comment] rfl nofun whole

/-- A comment goes up to the end of its line, and leaves nothing. -/
theorem takes_comment {line : List Char} (inside : '\n' ∉ line)
    (within : '#' :: (line ++ '\n' :: rest) <:+ source) :
    Takes source .blank ('#' :: line) ('\n' :: rest) [] := by
  have behind : line ++ '\n' :: rest <:+ source := (List.suffix_cons '#' _).trans within
  have hash : Takes source .hash ['#'] (line ++ '\n' :: rest) _ := takes_literal .hash ['#'] rfl within
  rw [left_delete rfl] at hash
  have stops : ∀ c ∈ ('\n' :: rest).head?, ¬ (c ∈ ['\n'] ↔ true = false) := by
    rintro _ ⟨⟩
    decide
  have chars : TakesMore source .commentChar line ('\n' :: rest) [] := by
    refine takesMore_class _ rfl (fun c mem => ?_) stops behind
    have other : c ∉ ['\n'] := fun same => inside (List.mem_singleton.mp same ▸ mem)
    simp [other]
  have words : Takes source .commentText line ('\n' :: rest) [] := by
    cases line with
    | nil =>
      exact skips_optional .commentText .commentChars rfl
        (fails_repetition .commentChars .commentChar rfl (fails_class _ rfl stops))
    | cons c cs =>
      have some := takes_repetition .commentChars .commentChar rfl chars (List.cons_ne_nil _ _) behind
      have whole := takes_optional .commentText .commentChars rfl some
      rwa [left_delete rfl] at whole
  have whole := takes_sequence .comment [.hash, .commentText] rfl (.cons hash (.single words))
  rw [left_delete rfl] at whole
  refine takes_choice .blank [.whitespace] .comment [] rfl ?_ whole
  rw [List.forall_mem_singleton]
  refine fails_repetition .whitespace .blankChar rfl (fails_class _ rfl ?_)
  rintro _ ⟨⟩
  decide

/-- A gap is taken as a whole, blanks and comments in turn. -/
theorem takesMore_blank (length : Nat) {gap : List Char} (bound : gap.length < length) (is : Gap gap)
    (solid : Solid rest) (within : gap ++ rest <:+ source) : TakesMore source .blank gap rest [] := by
  induction length generalizing gap with
  | zero => cases bound
  | succ length ih =>
    obtain ⟨blanks, others, rfl, all, tail, stops⟩ := is.split
    rw [List.append_assoc] at within
    have comments : TakesMore source .blank others rest [] := by
      have behind := within_rest within
      cases tail with
      | nil => exact .stop (fails_blank solid)
      | blank blank _ => exact absurd blank (stops _ rfl)
      | @comment line cs inside more =>
        have once : Takes source .blank ('#' :: line) ('\n' :: cs ++ rest) [] :=
          takes_comment inside (by rwa [List.cons_append, List.append_assoc] at behind)
        -- The newline behind a comment is a blank, so what is left is a gap again, and shorter.
        have again : TakesMore source .blank ('\n' :: cs) rest [] := by
          refine ih ?_ (.blank (by decide) more) ?_
          · simp only [List.length_append, List.length_cons] at bound ⊢
            omega
          · refine List.IsSuffix.trans ?_ behind
            exact ⟨'#' :: line, by simp⟩
        have both := TakesMore.more once (List.cons_ne_nil _ _) again
        rwa [List.cons_append] at both
    cases blanks with
    | nil => exact comments
    | cons c cs =>
      have stops' : ∀ c ∈ (others ++ rest).head?, ¬ IsBlank c := by
        cases others with
        | nil => exact fun c first => (solid c first).1
        | cons d ds => exact stops
      exact .more (takes_whitespace all (List.cons_ne_nil _ _) stops' within) (List.cons_ne_nil _ _) comments

/-- **A gap is passed as a whole**, and leaves nothing. It may be empty. -/
theorem takes_gap {gap : List Char} (is : Gap gap) (solid : Solid rest)
    (within : gap ++ rest <:+ source) : Takes source .gap gap rest [] := by
  have blanks := takesMore_blank _ (Nat.lt_succ_self _) is solid within
  cases gap with
  | nil => exact skips_optional .gap .blanks rfl (fails_repetition .blanks .blank rfl (fails_blank solid))
  | cons c cs =>
    have some := takes_repetition .blanks .blank rfl blanks (List.cons_ne_nil _ _) within
    have whole := takes_optional .gap .blanks rfl some
    rwa [left_delete rfl] at whole

/-! ## Words -/

/-- The table's class of word characters has the characters that words are made of. -/
theorem mem_wordChars_iff (c : Char) :
    (c ∈ Symbol.wordChars.toList.eraseDups ↔ false = false) ↔ IsWordChar c := by
  simp [IsWordChar, List.mem_eraseDups]

theorem fails_wordChar (stops : ∀ c ∈ rest.head?, ¬ IsWordChar c) : Fails source .wordChar rest :=
  fails_class .wordChar rfl fun c first => (not_congr (mem_wordChars_iff c)).mpr (stops c first)

/-- No word begins before a character that no word has. -/
theorem fails_word (stops : ∀ c ∈ rest.head?, ¬ IsWordChar c) : Fails source .word rest :=
  fails_repetition .word .wordChar rfl (fails_wordChar stops)

/-- A word is passed up to the first character that no word has, and leaves one view with its name. -/
theorem takes_word (word : Word) (stops : ∀ c ∈ rest.head?, ¬ IsWordChar c)
    (within : word.text ++ rest <:+ source) :
    Takes source .word word.text rest [.node (some "word") word.name (spanOf source word.text rest) []] := by
  have chars : TakesMore source .wordChar word.text rest [] :=
    takesMore_class .wordChar rfl (fun c mem => (mem_wordChars_iff c).mpr (word.chars c mem))
      (fun c first => (not_congr (mem_wordChars_iff c)).mpr (stops c first)) within
  have whole := takes_repetition .word .wordChar rfl chars word.nonempty within
  rwa [left_keep within word.nonempty rfl] at whole

/-! ## Spelled characters -/

theorem join_singletons (cs : List Char) :
    String.join (cs.map fun c => String.ofList [c]) = String.ofList cs := by
  rw [← String.toList_inj, String.toList_join, String.toList_ofList, List.flatMap_map]
  simp only [String.toList_ofList]
  exact List.flatMap_singleton' cs

/-- Any other character stands for itself behind a backslash. -/
theorem unescaped_of_free {c : Char} (free : c ∉ ['n', 't', 'r']) :
    unescaped (String.ofList [c]) = String.ofList [c] := by
  have apart : ∀ d ∈ ['n', 't', 'r'], String.ofList [c] ≠ String.ofList [d] := by
    intro d mem same
    cases String.ofList_inj.mp same
    exact free mem
  unfold unescaped
  split
  · next same => exact absurd same (apart 'n' (by decide))
  · next same => exact absurd same (apart 't' (by decide))
  · next same => exact absurd same (apart 'r' (by decide))
  · rfl

/-- A backslash and any character are an escape sequence, which stands for the unescaped character. -/
theorem takes_escape (d : Char) (within : ['\\', d] ++ rest <:+ source) :
    ∃ v, Takes source .escapeSequence ['\\', d] rest [v] ∧ spelled v = unescaped (String.ofList [d]) := by
  have whole : ['\\'] ++ ([d] ++ rest) <:+ source := within
  have behind : [d] ++ rest <:+ source := within_rest whole
  have mark : Takes source .escape ['\\'] ([d] ++ rest) _ := takes_literal .escape ['\\'] rfl whole
  have char : Takes source .anyChar [d] rest _ := takes_class .anyChar rfl (by simp) behind
  rw [left_keep whole (List.cons_ne_nil _ _) rfl] at mark
  rw [left_keep behind (List.cons_ne_nil _ _) rfl] at char
  have both := takes_sequence .escapeSequence [.escape, .anyChar] rfl (.cons mark (.single char))
  rw [show ['\\'] ++ [d] = ['\\', d] from rfl, left_keep within (List.cons_ne_nil _ _) rfl] at both
  refine ⟨_, both, ?_⟩
  simp [spelled, listSpelled]

/-- A symbol that takes one character, escaped or plain. -/
structure IsPiece (piece plain : Symbol) (name : String) (specials : List Char) : Prop where
  choice : piece.definition = ⟨none, .choice ([.escapeSequence, plain].map Symbol.id)⟩
  plain : plain.definition = ⟨some name, .charSet specials true⟩
  kept : Symbol.fate (some name) = .keep
  ordinary : name ≠ "escape" ∧ name ≠ "anyChar"
  backslash : '\\' ∈ specials

section

variable {piece plain : Symbol} {name : String} {specials special : List Char}

/-- No escape sequence begins without a backslash. -/
theorem fails_escape (differs : ∀ c ∈ rest.head?, c ≠ '\\') : Fails source .escapeSequence rest := by
  refine fails_sequence .escapeSequence [] .escape [.anyChar] rfl .nil
    (fails_literal .escape ['\\'] rfl ?_) rfl
  rintro ⟨tail, rfl⟩
  exact differs '\\' rfl rfl

/-- A piece matches a character in either spelling, plain or escaped, and its view says which character. -/
theorem IsPiece.takes (is : IsPiece piece plain name specials) (sub : ∀ c ∈ specials, c ∈ special) {c : Char}
    {first : List Char} (spells : Spelled special c first) (within : first ++ rest <:+ source) :
    ∃ v, Takes source piece first rest [v] ∧ spelled v = String.ofList [c] := by
  have escaped : ∀ d, first = ['\\', d] → unescaped (String.ofList [d]) = String.ofList [c] →
      ∃ v, Takes source piece first rest [v] ∧ spelled v = String.ofList [c] := by
    rintro d rfl spelt
    obtain ⟨v, takes, reads⟩ := takes_escape d within
    exact ⟨v, takes_choice piece [] .escapeSequence [plain] is.choice nofun takes, reads.trans spelt⟩
  cases spells with
  | plain free =>
    have ordinary : c ∉ specials := fun mem => free (sub c mem)
    have takes := takes_class plain is.plain (by simp [ordinary]) within
    rw [left_keep within (List.cons_ne_nil _ _) is.kept] at takes
    refine ⟨_, takes_choice piece [.escapeSequence] plain [] is.choice ?_ takes, ?_⟩
    · rw [List.forall_mem_singleton]
      refine fails_escape ?_
      rintro _ ⟨⟩ rfl
      exact ordinary is.backslash
    · simp [spelled, is.ordinary]
  | escaped free => exact escaped c rfl (unescaped_of_free free)
  | newline => exact escaped 'n' rfl rfl
  | tab => exact escaped 't' rfl rfl
  | carriage => exact escaped 'r' rfl rfl

/-- No piece begins at the character that closes what it is a piece of. -/
theorem IsPiece.fails (is : IsPiece piece plain name specials)
    (ends : ∀ c ∈ rest.head?, c ∈ specials ∧ c ≠ '\\') : Fails source piece rest := by
  refine fails_choice piece [.escapeSequence, plain] is.choice ?_
  rw [List.forall_mem_cons, List.forall_mem_singleton]
  refine ⟨fails_escape fun c first => (ends c first).2, fails_class plain is.plain fun c first => ?_⟩
  simp [(ends c first).1]

/-- Pieces are matched up to what closes them, one view for each character. The induction is on how the characters are
spelled. -/
theorem IsPiece.takesMore (is : IsPiece piece plain name specials) (sub : ∀ c ∈ specials, c ∈ special)
    {cs body : List Char} (spells : SpelledAll special cs body)
    (ends : ∀ c ∈ rest.head?, c ∈ specials ∧ c ≠ '\\') (within : body ++ rest <:+ source) :
    ∃ views, TakesMore source piece body rest views ∧
      listSpelled views = cs.map fun c => String.ofList [c] := by
  induction spells with
  | nil => exact ⟨[], .stop (is.fails ends), rfl⟩
  | @cons c cs first body head tail ih =>
    rw [List.append_assoc] at within
    obtain ⟨v, once, reads⟩ := is.takes sub head within
    obtain ⟨views, again, rest⟩ := ih (within_rest within)
    have some : first ≠ [] := by cases head <;> exact List.cons_ne_nil _ _
    refine ⟨v :: views, .more once some again, ?_⟩
    rw [listSpelled, reads, rest, List.map_cons]

end

end BnfTokenizer.Dialect
