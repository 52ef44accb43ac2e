import BnfTokenizer.Proofs.Dialect.Atoms

/-!
# What elements begin with and what they are followed by

An element could be taken for the head of the next rule, and a modifier, a longer word or a head could be
found where it ends. `Leads` says what an element begins with and `Ahead` what may stand behind one; from
the two it follows that nothing of the kind is found.
-/

namespace BnfTokenizer.Dialect

open ParseTree (View)

variable {source text rest gap next : List Char}

/-! ## Beginnings -/

/-- What an element may begin with. -/
def Leads (c : Char) : Prop :=
  IsWordChar c ∨ c ∈ ['!', '"', '[', '(']

/-- What follows no gap, no head and no operand. -/
def strange : List Char :=
  [' ', '\t', '\r', '\n', '#', ':', '+', '*', '?', '|', ')']

/-- Word characters are none of those that mean something between elements. -/
theorem IsWordChar.not_mem {c : Char} (is : IsWordChar c) : ∀ d ∈ strange, c ≠ d := by
  have ordinary : ∀ d ∈ strange, ¬ IsWordChar d := forall_mem_of_all (by decide)
  rintro d mem rfl
  exact ordinary _ mem is

theorem Leads.not_mem {c : Char} (leads : Leads c) : c ∉ strange := by
  have marks : ∀ d ∈ ['!', '"', '[', '('], d ∉ strange := forall_mem_of_all (by decide)
  intro mem
  rcases leads with is | mark
  · exact is.not_mem c mem rfl
  · exact marks c mark mem

theorem isBlank_mem_strange {c : Char} (blank : IsBlank c) : c ∈ strange := by
  rcases blank with rfl | rfl | rfl | rfl <;> decide

/-- What may lead an element ends the gap in front of it. -/
theorem Leads.solid {c : Char} {cs : List Char} (leads : Leads c) : Solid (c :: cs) := by
  rintro _ ⟨⟩
  refine ⟨fun blank => leads.not_mem (isBlank_mem_strange blank), ?_⟩
  rintro rfl
  exact leads.not_mem (by decide)

/-- A text that begins like an element. -/
def Begins (text : List Char) : Prop :=
  ∃ c cs, text = c :: cs ∧ Leads c

theorem Begins.append (begins : Begins text) (more : List Char) : Begins (text ++ more) := by
  obtain ⟨c, cs, rfl, leads⟩ := begins
  exact ⟨c, cs ++ more, rfl, leads⟩

/-- A word begins as an element may. -/
theorem Word.begins (word : Word) : Begins word.text := by
  obtain ⟨text, nonempty, chars⟩ := word
  obtain ⟨c, cs, rfl⟩ := List.exists_cons_of_ne_nil nonempty
  exact ⟨c, cs, rfl, .inl (chars c List.mem_cons_self)⟩

/-- So does whatever is written for an operand or a group, -/
theorem Primary.Written.begins {primary : Primary} (written : primary.Written text) : Begins text := by
  cases written with
  | text => exact ⟨'"', _, rfl, .inr (by decide)⟩
  | set => exact ⟨'[', _, rfl, .inr (by decide)⟩
  | range => exact ⟨'[', _, rfl, .inr (by decide)⟩
  | endOfInput => exact ⟨'E', _, rfl, .inl (by decide)⟩
  | name => exact Word.begins _
  | group => exact ⟨'(', _, rfl, .inr (by decide)⟩

/-- for an element with its marks, -/
theorem Element.Written.begins {element : Element} (written : element.Written text) : Begins text := by
  cases written with
  | @mk negated _ _ _ inner =>
    cases negated with
    | true => exact ⟨'!', _, rfl, .inr (by decide)⟩
    | false => exact inner.begins.append _

/-- for a row, -/
theorem Row.Written.begins {row : Row} (written : row.Written text) : Begins text := by
  cases written with
  | last only => exact only.begins
  | next head => exact head.begins.append _

/-- and for alternatives. -/
theorem Alternatives.Written.begins {alternatives : Alternatives} (written : alternatives.Written text) :
    Begins text := by
  cases written with
  | last only => exact only.begins
  | next head => exact head.begins.append _

/-! ## What follows -/

/-- Behind a text no word goes on that it ends with. -/
def Stops (text rest : List Char) : Prop :=
  Apart text [] rest

/-- What may stand behind an element: a gap, and then nothing that would belong to it. -/
def Ahead (rest : List Char) : Prop :=
  ∃ gap next, rest = gap ++ next ∧ Gap gap ∧
    ∀ c ∈ next.head?, ¬ IsBlank c ∧ c ∉ ['#', ':', '+', '*', '?']

/-- A gap that is not empty keeps words apart. -/
theorem Gap.head?_not_wordChar (is : Gap gap) (some : gap ≠ []) :
    ∀ c ∈ (gap ++ next).head?, ¬ IsWordChar c := by
  cases is with
  | nil => exact absurd rfl some
  | blank blank _ =>
    rintro _ ⟨⟩ word
    exact word.not_mem _ (isBlank_mem_strange blank) rfl
  | comment _ _ =>
    rintro _ ⟨⟩
    decide

/-- A gap, or the first character behind it, stops every word that should not go on. -/
theorem Gap.stops (is : Gap gap) (apart : Apart text gap next) : Stops text (gap ++ next) := by
  intro _ c last d first both
  cases gap with
  | nil => exact apart rfl c last d first both
  | cons e es => exact is.head?_not_wordChar (List.cons_ne_nil _ _) d first both.2

/-- A word that stops is not gone on with. -/
theorem Stops.word {word : Word} (stops : Stops word.text rest) : ∀ c ∈ rest.head?, ¬ IsWordChar c := by
  intro d first other
  have last := List.getLast?_eq_some_getLast word.nonempty
  exact stops rfl _ last d first ⟨word.chars _ (List.getLast_mem _), other⟩

/-- What stands behind an element is a gap and something that ends it, with no colon at its head. -/
theorem Ahead.solid (ahead : Ahead rest) : ∃ gap next, rest = gap ++ next ∧ Gap gap ∧ Solid next ∧
    ∀ c ∈ next.head?, c ≠ ':' := by
  obtain ⟨gap, next, rfl, is, clear⟩ := ahead
  refine ⟨gap, next, rfl, is, fun c first => ⟨(clear c first).1, ?_⟩, fun c first => ?_⟩
  · rintro rfl
    exact (clear '#' first).2 (by decide)
  · rintro rfl
    exact (clear ':' first).2 (by decide)

/-- No modifier stands behind a finished element. -/
theorem Ahead.not_modifier (ahead : Ahead rest) : ∀ c ∈ rest.head?, c ∉ ['+', '*', '?'] := by
  obtain ⟨gap, next, rfl, is, clear⟩ := ahead
  cases is with
  | nil =>
    intro c first modifier
    refine (clear c first).2 ?_
    simp only [List.mem_cons] at modifier ⊢
    exact .inr (.inr modifier)
  | blank blank _ =>
    rintro c ⟨⟩
    rcases blank with rfl | rfl | rfl | rfl <;> decide
  | comment _ _ =>
    rintro c ⟨⟩
    decide

/-- An element may stand behind a gap behind another. -/
theorem Begins.ahead (begins : Begins next) (is : Gap gap) : Ahead (gap ++ next) := by
  obtain ⟨c, cs, rfl, leads⟩ := begins
  refine ⟨gap, c :: cs, rfl, is, ?_⟩
  rintro _ ⟨⟩
  have inside : ∀ d ∈ ['#', ':', '+', '*', '?'], d ∈ strange := forall_mem_of_all (by decide)
  exact ⟨fun blank => leads.not_mem (isBlank_mem_strange blank), fun mem => leads.not_mem (inside c mem)⟩

/-! ## Heads of rules -/

/-- No rule begins where no word does. -/
theorem fails_head (stops : ∀ c ∈ rest.head?, ¬ IsWordChar c) : Fails source .head rest :=
  fails_sequence .head [] .word [.gap, .define] rfl .nil (fails_word stops) rfl

/-- A word is no head of a rule where the mark of a rule does not follow. -/
theorem fails_head_of_word (word : Word) (is : Gap gap) (solid : Solid next)
    (noMark : ∀ c ∈ next.head?, c ≠ ':') (stops : ∀ c ∈ (gap ++ next).head?, ¬ IsWordChar c)
    (within : word.text ++ (gap ++ next) <:+ source) :
    Fails source .head (word.text ++ (gap ++ next)) := by
  have behind := within_rest within
  have noDefine : Fails source .define next := by
    refine fails_literal .define defineMark rfl ?_
    rintro ⟨tail, rfl⟩
    exact noMark ':' rfl rfl
  exact fails_sequence .head [.word, .gap] .define [] rfl
    (.cons (takes_word word stops within) (.single (takes_gap is solid behind))) noDefine
    (List.append_assoc ..)

/-- A word under a modifier is no head of a rule. -/
theorem fails_head_of_modified (word : Word) {c : Char} (modifier : c ∈ ['+', '*', '?'])
    (within : word.text ++ ([] ++ c :: rest) <:+ source) :
    Fails source .head (word.text ++ ([] ++ c :: rest)) := by
  have inside : ∀ d ∈ ['+', '*', '?'], ¬ IsBlank d ∧ d ≠ '#' ∧ d ≠ ':' ∧ ¬ IsWordChar d :=
    forall_mem_of_all (by decide)
  obtain ⟨noBlank, noComment, noMark, noWord⟩ := inside c modifier
  refine fails_head_of_word word .nil ?_ ?_ ?_ within
  · rintro _ ⟨⟩
    exact ⟨noBlank, noComment⟩
  · rintro _ ⟨⟩
    exact noMark
  · rintro _ ⟨⟩
    exact noWord

/-- A word with a modifier heads no rule: no sign of definition follows. -/
theorem fails_head_of_operand (word : Word) (modifier : Modifier) (ahead : Ahead rest)
    (stops : Stops (word.text ++ modifier.mark) rest)
    (within : word.text ++ (modifier.mark ++ rest) <:+ source) :
    Fails source .head (word.text ++ (modifier.mark ++ rest)) := by
  cases modifier with
  | once =>
    obtain ⟨gap, next, rfl, is, solid, noMark⟩ := ahead.solid
    rw [Modifier.mark, List.append_nil] at stops
    rw [Modifier.mark, List.nil_append] at within ⊢
    exact fails_head_of_word word is solid noMark stops.word within
  | more => exact fails_head_of_modified word (by decide) within
  | any => exact fails_head_of_modified word (by decide) within
  | maybe => exact fails_head_of_modified word (by decide) within

/-- The keyword as a word. -/
def Word.eof : Word :=
  ⟨Word.endOfInput, by decide, isWordChar_of_mem_endOfInput⟩

/-- **An element is no head of a rule.** -/
theorem Element.Written.fails_head {element : Element} (written : element.Written text)
    (ahead : Ahead rest) (stops : Stops text rest) (within : text ++ rest <:+ source) :
    Fails source .head (text ++ rest) := by
  cases written with
  | @mk negated primary modifier text inner =>
    cases negated with
    | true =>
      refine Dialect.fails_head ?_
      rintro _ ⟨⟩
      decide
    | false =>
      rw [negationMark, if_neg Bool.false_ne_true, List.nil_append] at within stops ⊢
      rw [List.append_assoc] at within ⊢
      cases inner with
      | endOfInput => exact fails_head_of_operand .eof modifier ahead stops within
      | @name word free => exact fails_head_of_operand word modifier ahead stops within
      | _ =>
        refine Dialect.fails_head ?_
        rintro _ ⟨⟩
        decide

end BnfTokenizer.Dialect
