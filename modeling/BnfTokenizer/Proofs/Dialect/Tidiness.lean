import BnfTokenizer.Proofs.Dialect.Escapes
import BnfTokenizer.Proofs.Dialect.Flattening
import BnfTokenizer.Proofs.Dialect.Shapes

/-!
# Where the passes find what they edit

The first two passes take what they are given for granted: that a mark and an escaped character stand in an escape and
nowhere else, and that a wrapper holds a wrapper. The shapes that culling leaves are such (`Tidy`), in every node of a
sentence (`SentenceView.tidy`). They are also such that a group holds a statement, and that no sentence is in another.

Most nodes are nowhere near an escape or a wrapper, and are tidy since the names of their children are (`IsFree`).
-/

namespace BnfTokenizer.Dialect

open ParseTree (View)

/-! ## Where escapes and wrappers stand -/

/-- A wrapper is below a node that is none, and holds a wrapper of things that are none. -/
def WrapsBelow (v : View) : Prop :=
  ∀ o ∈ v.children, o.name = some "statementOpt" → ¬ IsWrapper v.name ∧
    ∃ w, o.children = [w] ∧ IsWrapper w.name ∧ ∀ c ∈ w.children, ¬ IsWrapper c.name

/-- Escapes and wrappers stand where the passes look for them. -/
structure Tidy (v : View) : Prop where
  escapes : InEscapes v
  wraps : WrapsBelow v

/-- The names of the nodes that rows are made of. -/
def structural : List String :=
  ["sentence", "statement", "statementOpt", "pipeOpt", "spaceOpt", "token", "nested"]

/-- A name that is none of these. -/
def IsInner (name : Option String) : Prop :=
  name ∉ structural.map some

/-- A name that a node may have wherever it stands. -/
def IsFree (name : Option String) : Prop :=
  name ∉ [some "escape", some "anyChar", some "statementOpt"]

instance : DecidablePred IsWrapper := fun name =>
  inferInstanceAs (Decidable (name = some "statementOpt" ∨ name = some "pipeOpt" ∨ name = some "spaceOpt"))

instance : DecidablePred IsInner := fun name => inferInstanceAs (Decidable (name ∉ structural.map some))

instance : DecidablePred IsFree := fun name =>
  inferInstanceAs (Decidable (name ∉ [some "escape", some "anyChar", some "statementOpt"]))

/-- A tidy node that no row is made of. -/
structure Inner (v : View) : Prop where
  tidy : Tidy v
  name : IsInner v.name

theorem tidy_of_free {name : Option String} (plain : name ≠ some "escapeSequence") (value : String) (span : Span)
    {children : List View} (free : ∀ w ∈ children, IsFree w.name) : Tidy (.node name value span children) := by
  constructor
  · refine (if_neg plain).mpr fun w mem => ?_
    have other := free w mem
    simp only [IsFree, List.mem_cons, not_or] at other
    exact ⟨other.1, other.2.1⟩
  · intro o mem isOpt
    have other := free o mem
    rw [isOpt] at other
    exact absurd other (by decide)

theorem inner_of_free {name : Option String} (plain : name ≠ some "escapeSequence") (inner : IsInner name)
    (value : String) (span : Span) {children : List View} (free : ∀ w ∈ children, IsFree w.name)
    (below : View.ListAll Inner children) : (View.node name value span children).All Inner :=
  ⟨⟨tidy_of_free plain value span free, inner⟩, below⟩

/-- What has nothing below it has an inner shape, if its name allows that. -/
theorem inner_leaf {name : Option String} (plain : name ≠ some "escapeSequence") (inner : IsInner name)
    (value : String) (span : Span) : (View.node name value span []).All Inner :=
  inner_of_free plain inner value span (List.forall_mem_nil _) trivial

/-- A name that neither escapes nor rows have. -/
structure Ordinary (name : String) : Prop where
  plain : some name ≠ some "escapeSequence"
  inner : IsInner (some name)
  free : IsFree (some name)

instance (name : String) : Decidable (Ordinary name) :=
  decidable_of_iff (some name ≠ some "escapeSequence" ∧ IsInner (some name) ∧ IsFree (some name))
    ⟨fun ⟨plain, inner, free⟩ => ⟨plain, inner, free⟩, fun ⟨plain, inner, free⟩ => ⟨plain, inner, free⟩⟩

theorem Ordinary.leaf {name : String} (is : Ordinary name) (value : String) (span : Span) :
    (View.node (some name) value span []).All Inner :=
  inner_leaf is.plain is.inner value span

section

variable {name own : String} {vs : List View} {v : View}

/-- Marks have nothing below them. -/
theorem MarkViews.inner (marks : MarkViews name vs) (is : Ordinary name) :
    View.ListAll Inner vs ∧ ∀ w ∈ vs, IsFree w.name := by
  cases marks with
  | missing => exact ⟨trivial, nofun⟩
  | there value span => exact ⟨⟨is.leaf value span, trivial⟩, List.forall_mem_singleton.mpr is.free⟩

theorem PieceView.inner (piece : PieceView own v) (is : Ordinary own) : v.All Inner ∧ IsFree v.name := by
  cases piece with
  | plain c span => exact ⟨is.leaf _ span, is.free⟩
  | escaped value mark c span first second =>
    have sequence : Tidy (.node (some "escapeSequence") value span
        [.node (some "escape") mark first [], .node (some "anyChar") (String.ofList [c]) second []]) := by
      refine ⟨(if_pos rfl).mpr ⟨_, _, _, _, rfl⟩, ?_⟩
      simp [WrapsBelow, View.children, View.name]
    have leaf : ∀ {name : String} (value : String) (span : Span), name = "escape" ∨ name = "anyChar" →
        (View.node (some name) value span []).All Inner := by
      rintro name value span (rfl | rfl)
      · exact inner_leaf (by decide) (by decide) value span
      · exact inner_leaf (by decide) (by decide) value span
    have isInner : IsInner (some "escapeSequence") := by decide
    have isFree : IsFree (some "escapeSequence") := by decide
    exact ⟨⟨⟨sequence, isInner⟩, leaf mark first (.inl rfl), leaf _ second (.inr rfl), trivial⟩, isFree⟩

theorem BodyViews.inner (body : BodyViews name own vs) (is : Ordinary name) (is' : Ordinary own) :
    View.ListAll Inner vs ∧ ∀ w ∈ vs, IsFree w.name := by
  cases body with
  | missing => exact ⟨trivial, nofun⟩
  | @there pieces value value' span span' filled each =>
    have inner : View.ListAll Inner pieces := View.listAll_iff.mpr fun w mem => ((each w mem).inner is').1
    have body : (View.node (some name) value' span' pieces).All Inner :=
      inner_of_free is.plain is.inner _ _ (fun w mem => ((each w mem).inner is').2) inner
    exact ⟨⟨inner_of_free is.plain is.inner _ _ (List.forall_mem_singleton.mpr is.free) ⟨body, trivial⟩, trivial⟩,
      List.forall_mem_singleton.mpr is.free⟩

/-- A bound is a node around one piece. -/
theorem PieceView.bound (piece : PieceView own v) (is : Ordinary name) (is' : Ordinary own) (value : String)
    (span : Span) :
    (View.node (some name) value span [v]).All Inner :=
  inner_of_free is.plain is.inner _ _ (List.forall_mem_singleton.mpr (piece.inner is').2) ⟨(piece.inner is').1, trivial⟩

end

/-- No row is made of what is in an atom. -/
theorem AtomView.inner {v : View} (atom : AtomView v) : v.All Inner ∧ IsFree v.name := by
  cases atom with
  | text value span body =>
    obtain ⟨inner, free⟩ := body.inner (by decide) (by decide)
    exact ⟨inner_of_free (by decide) (by decide) _ _ free inner, (by decide : IsFree (some "string"))⟩
  | set value span mark body =>
    obtain ⟨inner, free⟩ := body.inner (by decide) (by decide)
    obtain ⟨inner', free'⟩ := mark.inner (by decide)
    refine ⟨inner_of_free (by decide) (by decide) _ _ (List.forall_mem_append.mpr ⟨free', free⟩) ?_,
      (by decide : IsFree (some "charset"))⟩
    exact View.listAll_append.mpr ⟨inner', inner⟩
  | range value lower upper span first last mark isLow isHigh =>
    obtain ⟨inner, free⟩ := mark.inner (by decide)
    have low : (View.node (some "rangeStart") lower first [_]).All Inner := isLow.bound (by decide) (by decide) _ _
    have high : (View.node (some "rangeEnd") upper last [_]).All Inner := isHigh.bound (by decide) (by decide) _ _
    refine ⟨inner_of_free (by decide) (by decide) _ _ (List.forall_mem_append.mpr ⟨free, ?_⟩) ?_,
      (by decide : IsFree (some "chargroup"))⟩
    · simp only [List.forall_mem_cons]
      exact ⟨(by decide : IsFree (some "rangeStart")), (by decide : IsFree (some "rangeEnd")), nofun⟩
    · exact View.listAll_append.mpr ⟨inner, low, high, trivial⟩
  | endOfInput value span =>
    exact ⟨inner_leaf (by decide) (by decide) _ _, (by decide : IsFree (some "eof"))⟩
  | word span is => exact ⟨inner_leaf (by decide) (by decide) _ _, (by decide : IsFree (some "word"))⟩

theorem ElementView.name {v : View} (element : ElementView v) : v.name = some "token" ∨ v.name = some "nested" := by
  cases element with
  | token => exact .inl rfl
  | nested => exact .inr rfl

/-- Around its statement a group has marks only, and around its atom a token. -/
theorem ElementView.free {v : View} (element : ElementView v) : ∀ w ∈ v.children, IsFree w.name := by
  cases element with
  | token value span bang atom modifier =>
    refine List.forall_mem_append.mpr ⟨(bang.inner (by decide)).2, List.forall_mem_cons.mpr ⟨atom.inner.2, ?_⟩⟩
    exact (modifier.inner (by decide)).2
  | nested value span bang statement modifier =>
    refine List.forall_mem_append.mpr ⟨(bang.inner (by decide)).2, List.forall_mem_cons.mpr ⟨?_, ?_⟩⟩
    · rw [statement.name]
      decide
    · exact (modifier.inner (by decide)).2

/-- What goes on behind an element is in wrappers. -/
theorem ContinuedViews.wraps {vs : List View} (more : ContinuedViews vs) :
    ∀ o ∈ vs, o.name = some "statementOpt" ∧
      ∃ w, o.children = [w] ∧ IsWrapper w.name ∧ ∀ c ∈ w.children, ¬ IsWrapper c.name := by
  have element : ∀ {v : View}, ElementView v → ¬ IsWrapper v.name := by
    intro v is
    rcases is.name with named | named
    · rw [named]
      decide
    · rw [named]
      decide
  cases more with
  | nil => exact nofun
  | spaced value value' span span' is more =>
    refine List.forall_mem_cons.mpr ⟨⟨rfl, _, rfl, .inr (.inr rfl), ?_⟩, more.wraps⟩
    exact List.forall_mem_singleton.mpr (element is)
  | barred value value' bar span span' place is more =>
    refine List.forall_mem_cons.mpr ⟨⟨rfl, _, rfl, .inr (.inl rfl), ?_⟩, more.wraps⟩
    simp only [View.children, List.forall_mem_cons]
    exact ⟨(by decide : ¬ IsWrapper (some "|")), element is, nofun⟩

/-- A tidy node in a sentence. If it is a group, it holds a statement, and if it is a token, no row is made of it. -/
structure InSentence (v : View) : Prop where
  tidy : Tidy v
  name : v.name ≠ some "sentence"
  group : v.name = some "nested" → hasMark v "statement" = true
  token : v.name = some "token" → View.ListAll Inner v.children

theorem Inner.inSentence {v : View} (inner : Inner v) : InSentence v := by
  have other : ∀ {name}, v.name = some name → IsInner (some name) := fun same => same ▸ inner.name
  exact ⟨inner.tidy, fun same => absurd (other same) (by decide), fun same => absurd (other same) (by decide),
    fun same => absurd (other same) (by decide)⟩

theorem inSentence_of_free {name : String} (plain : name ∉ ["escapeSequence", "sentence", "nested", "token"])
    (value : String)
    (span : Span) {children : List View} (free : ∀ w ∈ children, IsFree w.name)
    (inside : View.ListAll InSentence children) : (View.node (some name) value span children).All InSentence := by
  simp only [List.mem_cons, List.not_mem_nil, or_false, not_or] at plain
  have apart : ∀ {other}, name ≠ other → some name ≠ some other := fun differs same => differs (Option.some.inj same)
  exact ⟨⟨tidy_of_free (apart plain.1) value span free, apart plain.2.1, fun same => absurd same (apart plain.2.2.1),
    fun same => absurd same (apart plain.2.2.2)⟩, inside⟩

/-- A statement may have wrappers in it. -/
theorem tidy_statement {v : View} {vs : List View} (value : String) (span : Span) (first : ElementView v)
    (more : ContinuedViews vs) : Tidy (.node (some "statement") value span (v :: vs)) := by
  constructor
  · refine (if_neg (by decide : some "statement" ≠ some "escapeSequence")).mpr
      (List.forall_mem_cons.mpr ⟨?_, fun o mem => ?_⟩)
    · rcases first.name with named | named
      · rw [named]
        decide
      · rw [named]
        decide
    · rw [(more.wraps o mem).1]
      decide
  · intro o mem isOpt
    rcases List.mem_cons.mp mem with rfl | mem
    · rcases first.name with named | named
      · exact absurd (named.symm.trans isOpt) (by decide)
      · exact absurd (named.symm.trans isOpt) (by decide)
    · exact ⟨(by decide : ¬ IsWrapper (some "statement")), (more.wraps o mem).2⟩

/-- Elements stand in wrappers as they stand anywhere. -/
theorem ElementView.isFree {v : View} (element : ElementView v) : IsFree v.name := by
  rcases element.name with named | named
  · rw [named]
    decide
  · rw [named]
    decide

mutual

theorem ElementView.inSentence : ∀ {v : View}, ElementView v → v.All InSentence
  | _, @ElementView.token bangs mods atomView value span bang atom modifier => by
    have free := (ElementView.token value span bang atom modifier).free
    have tidy : Tidy (.node (some "token") value span (bangs ++ atomView :: mods)) :=
      tidy_of_free (by decide) value span free
    have inner : View.ListAll Inner (bangs ++ atomView :: mods) := View.listAll_append.mpr
      ⟨(bang.inner (by decide)).1, atom.inner.1, (modifier.inner (by decide)).1⟩
    exact ⟨⟨tidy, (by decide : some "token" ≠ some "sentence"),
      fun same => absurd same (by decide : some "token" ≠ some "nested"), fun _ => inner⟩,
      inner.imp fun _ => Inner.inSentence⟩
  | _, .nested value span bang statement modifier => by
    have free := (ElementView.nested value span bang statement modifier).free
    have tidy : Tidy (.node (some "nested") value span _) := tidy_of_free (by decide) value span free
    refine ⟨⟨tidy, (by decide : some "nested" ≠ some "sentence"), fun _ => ?_,
      fun same => absurd same (by decide : some "nested" ≠ some "token")⟩,
      View.listAll_append.mpr ⟨?_, statement.inSentence, ?_⟩⟩
    · rw [hasMark, View.childByName, View.children, find?_statement bang statement]
      rfl
    · exact (bang.inner (by decide)).1.imp fun _ => Inner.inSentence
    · exact (modifier.inner (by decide)).1.imp fun _ => Inner.inSentence

theorem StatementView.inSentence : ∀ {v : View}, StatementView v → v.All InSentence
  | _, .row value span first more =>
    ⟨⟨tidy_statement value span first more, (by decide : some "statement" ≠ some "sentence"),
      fun same => absurd same (by decide : some "statement" ≠ some "nested"),
      fun same => absurd same (by decide : some "statement" ≠ some "token")⟩, first.inSentence, more.inSentence⟩

theorem ContinuedViews.inSentence : ∀ {vs : List View}, ContinuedViews vs → View.ListAll InSentence vs
  | _, .nil => trivial
  | _, .spaced value value' span span' element more => by
    have inner : (View.node (some "spaceOpt") value' span' [_]).All InSentence :=
      inSentence_of_free (by decide) _ _ (List.forall_mem_singleton.mpr element.isFree)
        ⟨element.inSentence, trivial⟩
    have outer : (View.node (some "statementOpt") value span [.node (some "spaceOpt") value' span' [_]]).All InSentence :=
      inSentence_of_free (by decide) _ _
        (List.forall_mem_singleton.mpr (by decide : IsFree (some "spaceOpt"))) ⟨inner, trivial⟩
    exact ⟨outer, more.inSentence⟩
  | _, .barred value value' bar span span' place element more => by
    have isBar : (View.node (some "|") bar place []).All InSentence :=
      inSentence_of_free (by decide) _ _ nofun trivial
    have inner : (View.node (some "pipeOpt") value' span' [.node (some "|") bar place [], _]).All InSentence :=
      inSentence_of_free (by decide) _ _
        (List.forall_mem_cons.mpr ⟨(by decide : IsFree (some "|")), List.forall_mem_singleton.mpr element.isFree⟩)
        ⟨isBar, element.inSentence, trivial⟩
    have outer : (View.node (some "statementOpt") value span [.node (some "pipeOpt") value' span' _]).All InSentence :=
      inSentence_of_free (by decide) _ _
        (List.forall_mem_singleton.mpr (by decide : IsFree (some "pipeOpt"))) ⟨inner, trivial⟩
    exact ⟨outer, more.inSentence⟩

end

/-- A sentence is tidy throughout, and the only one in it. -/
theorem SentenceView.tidy {v : View} (sentence : SentenceView v) : Tidy v ∧ View.ListAll InSentence v.children := by
  cases sentence with
  | @rule word value statement span place named is =>
    have isWord : (View.node (some "word") word place []).All InSentence :=
      inSentence_of_free (by decide) _ _ nofun trivial
    have free : ∀ w ∈ [View.node (some "word") word place [], statement], IsFree w.name := by
      refine List.forall_mem_cons.mpr ⟨(by decide : IsFree (some "word")), List.forall_mem_singleton.mpr ?_⟩
      rw [is.name]
      decide
    exact ⟨tidy_of_free (by decide) _ _ free, isWord, is.inSentence, trivial⟩

end BnfTokenizer.Dialect
