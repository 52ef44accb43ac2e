import BnfTokenizer.Grammar.Dump
import BnfTokenizer.Proofs.Dialect.Assembly

/-!
# What is printed can be read

The written form of a node is a text that its expression can be written as. `Shown` says so level by level: an
operand in parentheses is a group, and what holds together tightly may stand where less is asked for.

The printed expression is not the one that was compiled: it mentions each rule by the name of its body, aliases
being gone, and lists each member of a class once. It stands at the same node (`printed_kind`).
-/

namespace BnfTokenizer.Dialect

open Grammar (Kind Node Level Written)

variable {g : Grammar}

/-! ## Levels -/

/-- A text that an expression can be written as, where a level is asked for. -/
def ShownAt (text : List Char) (e : Expression) : Level → Prop
  | .atom => ∃ primary : Primary, primary.meaning = e ∧ primary.Written text
  | .unary => ∃ element : Element, element.meaning = e ∧ element.Written text
  | .sequence => ∃ row : Row, row.meaning = e ∧ row.Written text
  | .choice => ∃ body : Alternatives, body.meaning = e ∧ body.Written text

/-- A written form that an expression can be written as. -/
def Shown (w : Written) (e : Expression) : Prop :=
  ShownAt w.text.toList e w.level

section

variable {text : List Char} {e : Expression}

/-- What is shown as an atom is shown where a mark may stand at it, -/
theorem ShownAt.unary (shown : ShownAt text e .atom) : ShownAt text e .unary := by
  obtain ⟨primary, rfl, written⟩ := shown
  have bare : (Element.mk false primary .once).Written ([] ++ (text ++ [])) := .mk written
  rw [List.nil_append, List.append_nil] at bare
  exact ⟨.mk false primary .once, rfl, bare⟩

/-- what is shown there, in a sequence, -/
theorem ShownAt.sequence (shown : ShownAt text e .unary) : ShownAt text e .sequence := by
  obtain ⟨element, rfl, written⟩ := shown
  exact ⟨.last element, rfl, .last written⟩

/-- and what is shown there, between bars. -/
theorem ShownAt.choice (shown : ShownAt text e .sequence) : ShownAt text e .choice := by
  obtain ⟨row, rfl, written⟩ := shown
  exact ⟨.last row, rfl, .last written⟩

/-- What holds together tightly may stand where less is asked for. -/
theorem ShownAt.loosen {tight loose : Level} (shown : ShownAt text e tight) (le : loose.toNat ≤ tight.toNat) :
    ShownAt text e loose := by
  cases tight <;> cases loose <;> first
    | exact shown
    | exact shown.choice
    | exact shown.sequence
    | exact shown.unary
    | exact shown.sequence.choice
    | exact shown.unary.sequence
    | exact shown.unary.sequence.choice
    | exact absurd le (by decide)

/-- A group may stand anywhere. -/
theorem ShownAt.group (shown : ShownAt text e .choice) : ShownAt (['('] ++ (text ++ [')'])) e .atom := by
  obtain ⟨body, rfl, written⟩ := shown
  have group := Primary.Written.group .nil written .nil
  rw [List.nil_append, List.nil_append] at group
  exact ⟨.group body, rfl, group⟩

/-- An operand is put in parentheses where that is needed. -/
theorem Shown.operand {w : Written} (shown : Shown w e) (level : Level) : ShownAt (w.operand level).toList e level := by
  unfold Written.operand
  split
  · have group := (shown.loosen (Nat.zero_le _)).group
    rw [String.toList_append, String.toList_append, List.append_assoc]
    exact group.loosen (by cases level <;> decide)
  · next tight => exact shown.loosen (Nat.not_lt.mp tight)

/-- A modifier behind what is shown shows the modified expression, in brackets where they are needed. -/
theorem Shown.postfixed {w : Written} (shown : Shown w e) (modifier : Modifier) :
    Shown (w.postfixed (String.ofList modifier.mark)) (modifier.apply e) := by
  obtain ⟨primary, rfl, written⟩ := shown.operand .atom
  refine ⟨.mk false primary modifier, rfl, ?_⟩
  rw [Written.postfixed, String.toList_append, String.toList_ofList]
  exact .mk written

/-- A bang in front shows the negation. -/
theorem Shown.prefixed {w : Written} (shown : Shown w e) : Shown (w.prefixed "!") (.negation e) := by
  obtain ⟨primary, rfl, written⟩ := shown.operand .atom
  refine ⟨.mk true primary .once, rfl, ?_⟩
  have marked : (Element.mk true primary .once).Written (['!'] ++ ((w.operand .atom).toList ++ [])) := .mk written
  rw [List.append_nil] at marked
  rw [Written.prefixed, String.toList_append]
  exact marked

end

/-! ## Rows and alternatives -/

/-- A row means what its parts make. -/
theorem Row.meaning_eq_ofParts (row : Row) : row.meaning = Expression.ofParts row.parts := by
  cases row with
  | last element => rfl
  | next element rest => cases rest <;> rfl

/-- Alternatives mean what their branches make. -/
theorem Alternatives.meaning_eq_ofAlternatives (body : Alternatives) :
    body.meaning = Expression.ofAlternatives body.branches := by
  cases body with
  | last row => rfl
  | next row rest => cases rest <;> rfl

/-- Elements with blanks between them are a row. -/
theorem exists_row {texts : List String} {es : List Expression}
    (all : List.Forall₂ (fun text e => ShownAt text.toList e .unary) texts es) (some : es ≠ []) :
    ∃ row : Row, row.parts = es ∧ row.Written (String.intercalate " " texts).toList := by
  induction all with
  | nil => exact absurd rfl some
  | @cons text e texts es head tail ih =>
    obtain ⟨element, rfl, written⟩ := head
    cases tail with
    | nil =>
      rw [String.intercalate_singleton]
      exact ⟨.last element, rfl, .last written⟩
    | cons =>
      obtain ⟨row, parts, others⟩ := ih (List.cons_ne_nil _ _)
      refine ⟨.next element row, congrArg _ parts, ?_⟩
      rw [String.intercalate_cons_cons, String.toList_append, String.toList_append, List.append_assoc]
      exact .next written (.blank (.inl rfl) .nil) others nofun

/-- Rows with bars between them are alternatives. -/
theorem exists_alternatives {texts : List String} {es : List Expression}
    (all : List.Forall₂ (fun text e => ShownAt text.toList e .sequence) texts es) (some : es ≠ []) :
    ∃ body : Alternatives, body.branches = es ∧ body.Written (String.intercalate " | " texts).toList := by
  induction all with
  | nil => exact absurd rfl some
  | @cons text e texts es head tail ih =>
    obtain ⟨row, rfl, written⟩ := head
    cases tail with
    | nil =>
      rw [String.intercalate_singleton]
      exact ⟨.last row, rfl, .last written⟩
    | cons =>
      obtain ⟨body, branches, others⟩ := ih (List.cons_ne_nil _ _)
      refine ⟨.next row body, congrArg _ branches, ?_⟩
      rw [String.intercalate_cons_cons, String.toList_append, String.toList_append, List.append_assoc]
      exact .next written (.blank (.inl rfl) .nil) (.blank (.inl rfl) .nil) others

/-! ## Characters -/

/-- What a character in a text is written as spells it. -/
theorem spelled_escapeChar (c : Char) : Spelled textSpecials c (Text.escapeChar c) := by
  unfold Text.escapeChar
  split
  · exact .escaped (by decide)
  · exact .escaped (by decide)
  · exact .newline
  · exact .tab
  · exact .carriage
  · next quote backslash _ _ _ => exact .plain (by simpa [textSpecials] using ⟨quote, backslash⟩)

/-- What a character in a class is written as spells it: more characters are escaped there. -/
theorem spelled_classChar (c : Char) : Spelled classSpecials c (Grammar.classChar c).toList := by
  unfold Grammar.classChar
  split
  · exact .escaped (by decide)
  · exact .escaped (by decide)
  · exact .escaped (by decide)
  · exact .escaped (by decide)
  · exact .newline
  · exact .tab
  · exact .carriage
  · next bracket backslash dash caret _ _ _ =>
    have plain : Spelled classSpecials c [c] :=
      .plain (by simpa [classSpecials] using ⟨bracket, backslash, dash, caret⟩)
    rwa [Char.toString_eq_singleton, String.toList_singleton]

/-- Characters that are written one by one are spelled one by one. -/
theorem spelledAll_flatMap {special : List Char} {spell : Char → List Char} (each : ∀ c, Spelled special c (spell c))
    (cs : List Char) : SpelledAll special cs (cs.flatMap spell) := by
  induction cs with
  | nil => exact .nil
  | cons c cs ih => exact .cons (each c) ih

theorem toList_bracketed (members : String) (negated : Bool) : (Grammar.bracketed members negated).toList =
    ['['] ++ (negationMark negated '^' ++ (members.toList ++ [']'])) := by
  cases negated <;> simp [Grammar.bracketed, negationMark]

/-- A literal is shown in quotes. -/
theorem shown_literal (text : List Char) :
    Shown ⟨Text.quoted (String.ofList text), .atom, []⟩ (.literal (String.ofList text)) := by
  refine ⟨.text text, rfl, ?_⟩
  have spelled := Primary.Written.text (spelledAll_flatMap spelled_escapeChar text)
  rw [Text.quoted, String.toList_append, String.toList_append, Text.toList_escape, @String.toList_ofList text,
    List.append_assoc]
  exact spelled

/-- A set is shown in brackets, its members in the order that they have. -/
theorem shown_charSet (members : List Char) (negated : Bool) :
    Shown ⟨Grammar.bracketed (String.join (members.map Grammar.classChar)) negated, .atom, []⟩
      (.charSet (String.ofList members) negated) := by
  refine ⟨.set negated members, rfl, ?_⟩
  rw [toList_bracketed, String.toList_join, List.flatMap_map]
  exact .set (spelledAll_flatMap spelled_classChar members)

/-- A range is shown by its ends, if they are in order; the dialect has no other ranges. -/
theorem shown_charRange {low high : Char} (ordered : low ≤ high) (negated : Bool) :
    Shown ⟨Grammar.bracketed (Grammar.classChar low ++ "-" ++ Grammar.classChar high) negated, .atom, []⟩
      (.charRange low high negated) := by
  refine ⟨.range negated low high ordered, rfl, ?_⟩
  rw [toList_bracketed, String.toList_append, String.toList_append, List.append_assoc, List.append_assoc]
  exact .range (spelled_classChar low) (spelled_classChar high)

theorem eraseDups_eraseDups (cs : List Char) : cs.eraseDups.eraseDups = cs.eraseDups := by
  induction length : cs.length using Nat.strongRecOn generalizing cs with
  | ind n ih =>
    cases cs with
    | nil => rfl
    | cons c cs =>
      have shorter : (cs.filter fun b => !b == c).length < n := by
        rw [← length, List.length_cons]
        exact Nat.lt_succ_of_le (List.length_filter_le _ _)
      have others : ((cs.filter fun b => !b == c).eraseDups.filter fun b => !b == c) =
          (cs.filter fun b => !b == c).eraseDups := by
        rw [List.filter_eq_self]
        intro b mem
        exact (List.mem_filter.mp (List.mem_eraseDups.mp mem)).2
      rw [List.eraseDups_cons, List.eraseDups_cons, others, ih _ shorter _ rfl]

/-! ## Heights -/

namespace Expression

mutual

/-- The number of steps down to the lowest part. -/
def height : Expression → Nat
  | sequence parts | choice parts => listHeight parts
  | repetition inner | optional inner | negation inner => inner.height + 1
  | _ => 0

/-- The height of the tallest of some expressions. -/
def listHeight : List Expression → Nat
  | [] => 0
  | e :: es => max (e.height + 1) (listHeight es)

end

variable {mention : NodeId → String → Prop}

mutual

/-- Where children come before their parents, an expression is no higher than its node is far behind. -/
theorem height_le_of_stands (backward : ∀ {a c}, c ∈ g.children a → c < a) :
    ∀ (e : Expression) {id : NodeId} {name : Option String}, e.Stands g mention id name → e.height ≤ id
  | literal _, _, _, _ | charSet .., _, _, _ | charRange .., _, _, _ | endOfInput, _, _, _ | rule _, _, _, _ =>
    Nat.zero_le _
  | sequence es, _, _, ⟨_, row, all⟩ | choice es, _, _, ⟨_, row, all⟩ =>
    listHeight_le_of_allStand backward es all fun _ mem => backward (child_of_row row mem)
  | repetition e, _, _, ⟨_, row, stands⟩ | optional e, _, _, ⟨_, row, stands⟩ | negation e, _, _, ⟨_, row, stands⟩ =>
    Nat.lt_of_le_of_lt (height_le_of_stands backward e stands) (backward (child_of_row row List.mem_cons_self))

/-- Where nodes are made of earlier ones, expressions that stand below a node are no taller than its number. So a
number of rounds that is as large as the graph writes them all. -/
theorem listHeight_le_of_allStand (backward : ∀ {a c}, c ∈ g.children a → c < a) {a : NodeId} :
    ∀ (es : List Expression) {ids : List NodeId}, AllStand g mention ids es → (∀ id ∈ ids, id < a) → listHeight es ≤ a
  | [], [], _, _ => Nat.zero_le _
  | e :: es, _ :: _, ⟨stands, all⟩, before => by
    obtain ⟨own, others⟩ := List.forall_mem_cons.mp before
    have head := height_le_of_stands backward e stands
    have tail := listHeight_le_of_allStand backward es all others
    rw [listHeight]
    exact Nat.max_le.mpr ⟨Nat.lt_of_le_of_lt head own, tail⟩

end

end Expression

/-! ## Printed nodes -/

/-- The nodes that are mentioned, each under the name of its rule. -/
def Mentioned (g : Grammar) (mentions : List NodeId) (id : NodeId) (name : String) : Prop :=
  id ∈ mentions ∧ g.ruleName? id = some name

/-- A written form shows an expression that a node stands for, and mentions nothing that was not mentioned. -/
structure Printed (g : Grammar) (mention : NodeId → String → Prop) (w : Written) (id : NodeId)
    (name : Option String) (e : Expression) : Prop where
  shown : Shown w e
  stands : e.Stands g (Mentioned g w.mentions) id name
  known : ∀ id ∈ w.mentions, ∃ name, mention id name

/-- More mentions hold those that there were. -/
theorem mentioned_mono {mentions more : List NodeId} (sub : mentions ⊆ more) (id : NodeId) (name : String)
    (mentioned : Mentioned g mentions id name) : Mentioned g more id name :=
  ⟨sub mentioned.1, mentioned.2⟩

section

variable {mention : NodeId → String → Prop} {e : Expression}

/-- What is printed for a whole that is more than a name, whatever it is called, is what its node stands for. -/
def PrintsWhole (g : Grammar) (mention : NodeId → String → Prop) (e : Expression) : Prop :=
  ∀ (id : NodeId) (name : Option String) (fuel : Nat), e.height ≤ fuel → e.Stands g mention id name →
    ∃ e' : Expression, (∀ target, e' ≠ .rule target) ∧ e'.ownName = e.ownName ∧
      Printed g mention (g.writtenKind (g.written fuel) (g.kind id)) id name e'

/-- What is printed for a part is what its node stands for, and it is called the same. -/
def PrintsPart (g : Grammar) (mention : NodeId → String → Prop) (e : Expression) : Prop :=
  ∀ (id : NodeId) (fuel : Nat), e.height < fuel → e.Stands g mention id e.ownName →
    ∃ e' : Expression, e'.ownName = e.ownName ∧ Printed g mention (g.written fuel id) id e.ownName e'

/-- An expression is printed as a whole and as a part, and so is what is repeated in it. -/
structure Prints (g : Grammar) (mention : NodeId → String → Prop) (e : Expression) : Prop where
  whole : (∀ target, e ≠ .rule target) → PrintsWhole g mention e
  part : PrintsPart g mention e
  starred : ∀ x, e = .repetition x → PrintsPart g mention x

/-- Where the nodes that are mentioned are rules. -/
def MentionsRules (g : Grammar) (mention : NodeId → String → Prop) : Prop :=
  ∀ id name, mention id name → ∃ target, IsMention target ∧ g.ruleName? id = some target

/-- A rule is written by its name, and mentioned. -/
theorem printsPart_rule (named : MentionsRules g mention) (name : String) : PrintsPart g mention (.rule name) := by
  intro id fuel enough stands
  obtain ⟨fuel, rfl⟩ : ∃ less, fuel = less + 1 := ⟨fuel - 1, by omega⟩
  obtain ⟨_, ⟨word, free, rfl⟩, own⟩ := named id name stands
  refine ⟨.rule word.name, rfl, ?_, ?_, ?_⟩
  · rw [Grammar.written, own]
    refine ⟨.name word free, rfl, ?_⟩
    dsimp only
    rw [Word.name, String.toList_ofList]
    exact .name
  · rw [Grammar.written, own]
    exact ⟨List.mem_cons_self, own⟩
  · rw [Grammar.written, own]
    exact List.forall_mem_singleton.mpr ⟨name, stands⟩

/-- A part that is more than a name is printed like a whole. -/
theorem PrintsWhole.part (whole : PrintsWhole g mention e) (more : ∀ target, e ≠ .rule target) :
    PrintsPart g mention e := by
  intro id fuel enough stands
  obtain ⟨fuel, rfl⟩ : ∃ less, fuel = less + 1 := ⟨fuel - 1, by omega⟩
  obtain ⟨e', _, same, printed⟩ := whole id _ fuel (Nat.le_of_lt_succ enough) stands
  have nameless : g.ruleName? id = none := by
    obtain ⟨kind, row, _⟩ := row_of_stands stands more
    rw [Grammar.ruleName?, name_of_row row]
    exact filter_ownName e
  refine ⟨e', same, ?_⟩
  rw [Grammar.written, nameless]
  exact printed

/-- What is neither a name nor a repetition is written the same way as a part and as a whole. -/
theorem PrintsWhole.prints (whole : PrintsWhole g mention e) (more : ∀ target, e ≠ .rule target)
    (other : ∀ x, e ≠ .repetition x) : Prints g mention e :=
  ⟨fun _ => whole, whole.part more, fun x same => absurd same (other x)⟩

/-! ## One kind after the other -/

theorem printsWhole_literal (text : String) : PrintsWhole g mention (.literal text) := by
  intro id name fuel _ stands
  refine ⟨.literal text, nofun, rfl, ?_⟩
  have shown := shown_literal text.toList
  rw [String.ofList_toList] at shown
  rw [kind_of_row stands, Grammar.writtenKind, String.ofList_toList]
  exact ⟨shown, stands, nofun⟩

theorem printsWhole_charSet (members : String) (negated : Bool) : PrintsWhole g mention (.charSet members negated) := by
  intro id name fuel _ stands
  refine ⟨.charSet (String.ofList members.toList.eraseDups) negated, nofun, rfl, ?_⟩
  rw [kind_of_row stands]
  refine ⟨shown_charSet _ negated, ?_, nofun⟩
  rw [Expression.Stands, String.toList_ofList, eraseDups_eraseDups]
  exact stands

theorem printsWhole_charRange {low high : Char} (ordered : low ≤ high) (negated : Bool) :
    PrintsWhole g mention (.charRange low high negated) := by
  intro id name fuel _ stands
  refine ⟨.charRange low high negated, nofun, rfl, ?_⟩
  rw [kind_of_row stands]
  exact ⟨shown_charRange ordered negated, stands, nofun⟩

theorem printsWhole_endOfInput : PrintsWhole g mention .endOfInput := by
  intro id name fuel _ stands
  refine ⟨.endOfInput, nofun, rfl, ?_⟩
  rw [kind_of_row stands]
  have text : "EOF".toList = Word.endOfInput := by decide
  exact ⟨⟨.endOfInput, rfl, text ▸ .endOfInput⟩, stands, nofun⟩

theorem printsWhole_repetition (part : PrintsPart g mention e) : PrintsWhole g mention (.repetition e) := by
  intro id name fuel enough ⟨child, row, stands⟩
  obtain ⟨e', same, printed⟩ := part child fuel enough stands
  refine ⟨.repetition e', nofun, rfl, ?_⟩
  rw [kind_of_row row]
  exact ⟨printed.shown.postfixed .more, ⟨child, row, same ▸ printed.stands⟩, printed.known⟩

theorem printsWhole_negation (part : PrintsPart g mention e) : PrintsWhole g mention (.negation e) := by
  intro id name fuel enough ⟨child, row, stands⟩
  obtain ⟨e', same, printed⟩ := part child fuel enough stands
  refine ⟨.negation e', nofun, rfl, ?_⟩
  rw [kind_of_row row]
  exact ⟨printed.shown.prefixed, ⟨child, row, same ▸ printed.stands⟩, printed.known⟩

/-- Only a repetition is written with the mark for any number. -/
theorem starred?_eq_none {child : NodeId} (named : MentionsRules g mention) (other : ∀ x, e ≠ .repetition x)
    (stands : e.Stands g mention child e.ownName) : g.starred? child = none := by
  unfold Grammar.starred?
  cases e with
  | repetition x => exact absurd rfl (other x)
  | rule name =>
    obtain ⟨_, _, own⟩ := named child name stands
    split
    · next nameless _ =>
      rw [Grammar.ruleName?, nameless] at own
      cases own
    · rfl
  | literal _ | charSet _ _ | charRange _ _ _ | endOfInput =>
    rw [kind_of_row stands]
    split
    · next repeats => cases repeats
    · rfl
  | sequence _ | choice _ | optional _ | negation _ =>
    obtain ⟨_, row, _⟩ := stands
    rw [kind_of_row row]
    split
    · next repeats => cases repeats
    · rfl

/-- An optional repetition is written with one mark for both. -/
theorem printsWhole_starred (part : PrintsPart g mention e) : PrintsWhole g mention (.optional (.repetition e)) := by
  intro id name fuel enough ⟨child, row, deeper, row', stands⟩
  obtain ⟨e', same, printed⟩ := part deeper fuel (Nat.lt_of_succ_lt enough) stands
  have starred : g.starred? child = some deeper := by
    rw [Grammar.starred?, name_of_row row', kind_of_row row']
    rfl
  refine ⟨.optional (.repetition e'), nofun, rfl, ?_⟩
  rw [kind_of_row row, Grammar.writtenKind, starred]
  exact ⟨printed.shown.postfixed .any, ⟨child, row, deeper, row', same ▸ printed.stands⟩, printed.known⟩

/-- Any other optional part is written with its own mark. -/
theorem printsWhole_optional (named : MentionsRules g mention) (prints : Prints g mention e) :
    PrintsWhole g mention (.optional e) := by
  by_cases starred : ∃ x, e = .repetition x
  · obtain ⟨x, rfl⟩ := starred
    exact printsWhole_starred (prints.starred x rfl)
  · have other : ∀ x, e ≠ .repetition x := fun x same => starred ⟨x, same⟩
    intro id name fuel enough ⟨child, row, stands⟩
    obtain ⟨e', same, printed⟩ := prints.part child fuel enough stands
    refine ⟨.optional e', nofun, rfl, ?_⟩
    rw [kind_of_row row, Grammar.writtenKind, starred?_eq_none named other stands]
    exact ⟨printed.shown.postfixed .maybe, ⟨child, row, same ▸ printed.stands⟩, printed.known⟩

/-- What is printed for the parts of a whole. -/
def PrintsAll (g : Grammar) (mention : NodeId → String → Prop) (es : List Expression) : Prop :=
  ∀ (ids : List NodeId) (fuel : Nat), Expression.listHeight es ≤ fuel → Expression.AllStand g mention ids es →
    ∃ es' : List Expression, es'.length = es.length ∧
      List.Forall₂ (fun w e' => Shown w e') (ids.map (g.written fuel)) es' ∧
      Expression.AllStand g (Mentioned g ((ids.map (g.written fuel)).flatMap (·.mentions))) ids es' ∧
      ∀ id ∈ (ids.map (g.written fuel)).flatMap (·.mentions), ∃ name, mention id name

theorem PrintsAll.nil : PrintsAll g mention [] := by
  intro ids fuel _ stand
  cases ids with
  | nil => exact ⟨[], rfl, .nil, trivial, nofun⟩
  | cons => exact stand.elim

theorem PrintsAll.cons {es : List Expression} (head : PrintsPart g mention e) (tail : PrintsAll g mention es) :
    PrintsAll g mention (e :: es) := by
  intro ids fuel enough stand
  rw [Expression.listHeight] at enough
  cases ids with
  | nil => exact stand.elim
  | cons id ids =>
    obtain ⟨e', same, printed⟩ := head id fuel (by omega) stand.1
    obtain ⟨es', length, shown, all, known⟩ := tail ids fuel (by omega) stand.2
    refine ⟨e' :: es', congrArg Nat.succ length, .cons printed.shown shown, ⟨?_, ?_⟩, ?_⟩
    · exact (same ▸ printed.stands).mono (mentioned_mono (List.subset_append_left _ _))
    · exact all.mono (mentioned_mono (List.subset_append_right _ _))
    · exact List.forall_mem_append.mpr ⟨printed.known, known⟩

/-- Operands show their expressions at every level, since brackets are put where they are needed. -/
theorem forall₂_operand {ws : List Written} {es : List Expression} (all : List.Forall₂ (fun w e => Shown w e) ws es)
    (level : Level) :
    List.Forall₂ (fun text e => ShownAt text.toList e level) (ws.map (·.operand level)) es :=
  List.forall₂_map_left_iff.mpr (all.imp fun _ _ shown => shown.operand level)

theorem ofParts_of_length {es : List Expression} (two : 2 ≤ es.length) : Expression.ofParts es = .sequence es := by
  match es, two with
  | _ :: _ :: _, _ => rfl

theorem ofAlternatives_of_length {es : List Expression} (two : 2 ≤ es.length) :
    Expression.ofAlternatives es = .choice es := by
  match es, two with
  | _ :: _ :: _, _ => rfl

/-- A sequence is written by its parts with blanks between them; it has two parts, since a single one is no
sequence. -/
theorem printsWhole_sequence {es : List Expression} (two : 2 ≤ es.length) (all : PrintsAll g mention es) :
    PrintsWhole g mention (.sequence es) := by
  intro id name fuel enough ⟨ids, row, stand⟩
  obtain ⟨es', length, shown, stands, known⟩ := all ids fuel enough stand
  have two' : 2 ≤ es'.length := length ▸ two
  obtain ⟨r, parts, written⟩ := exists_row (forall₂_operand shown .unary) (List.length_pos_iff.mp (by omega))
  refine ⟨.sequence es', nofun, rfl, ?_⟩
  rw [kind_of_row row]
  refine ⟨⟨r, ?_, written⟩, ⟨ids, row, stands⟩, known⟩
  rw [r.meaning_eq_ofParts, parts, ofParts_of_length two']

/-- A choice is written with bars. -/
theorem printsWhole_choice {es : List Expression} (two : 2 ≤ es.length) (all : PrintsAll g mention es) :
    PrintsWhole g mention (.choice es) := by
  intro id name fuel enough ⟨ids, row, stand⟩
  obtain ⟨es', length, shown, stands, known⟩ := all ids fuel enough stand
  have two' : 2 ≤ es'.length := length ▸ two
  obtain ⟨b, branches, written⟩ := exists_alternatives (forall₂_operand shown .sequence)
    (List.length_pos_iff.mp (by omega))
  refine ⟨.choice es', nofun, rfl, ?_⟩
  rw [kind_of_row row]
  refine ⟨⟨b, ?_, written⟩, ⟨ids, row, stands⟩, known⟩
  rw [b.meaning_eq_ofAlternatives, branches, ofAlternatives_of_length two']

/-! ## Any expression -/

mutual

/-- **What is printed for a node** can be read, and is what the node stands for. -/
theorem prints (named : MentionsRules g mention) : ∀ e : Expression, e.Sayable → Prints g mention e
  | .literal text, _ => (printsWhole_literal text).prints nofun nofun
  | .charSet members negated, _ => (printsWhole_charSet members negated).prints nofun nofun
  | .charRange _ _ negated, ordered => (printsWhole_charRange ordered negated).prints nofun nofun
  | .endOfInput, _ => printsWhole_endOfInput.prints nofun nofun
  | .rule name, _ => ⟨fun whole => absurd rfl (whole name), printsPart_rule named name, nofun⟩
  | .sequence es, ⟨two, all⟩ => (printsWhole_sequence two (printsAll named es all)).prints nofun nofun
  | .choice es, ⟨two, all⟩ => (printsWhole_choice two (printsAll named es all)).prints nofun nofun
  | .repetition inner, sayable =>
    have part := (prints named inner sayable).part
    have whole := printsWhole_repetition part
    ⟨fun _ => whole, whole.part nofun, fun _ same => Expression.repetition.inj same ▸ part⟩
  | .optional inner, sayable => (printsWhole_optional named (prints named inner sayable)).prints nofun nofun
  | .negation inner, sayable => (printsWhole_negation (prints named inner sayable).part).prints nofun nofun

/-- Every expression in a list is written, one behind the other. -/
theorem printsAll (named : MentionsRules g mention) :
    ∀ es : List Expression, Expression.AllSayable es → PrintsAll g mention es
  | [], _ => .nil
  | e :: es, ⟨own, others⟩ => .cons (prints named e own).part (printsAll named es others)

end

end

end BnfTokenizer.Dialect
