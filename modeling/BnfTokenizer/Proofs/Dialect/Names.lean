import BnfTokenizer.Proofs.Dialect.Linking
import BnfTokenizer.Proofs.Dialect.Sayable

/-!
# Which rules an expression mentions

`AllNames` says something of every name that an expression mentions. What stands for the names may be known by more or
by less than it was. Two nodes that stand for the same expression, each in its grammar, are alike down to what stands
for the names (`Stands.matched`).
-/

namespace BnfTokenizer.Dialect

open Grammar (Kind Matched)

namespace Expression

variable {g : Grammar} {P : String → Prop} {mention mention' : NodeId → String → Prop}

mutual

/-- Something holds of every name that is mentioned. -/
def AllNames (P : String → Prop) : Expression → Prop
  | rule name => P name
  | sequence parts | choice parts => ListNames P parts
  | repetition inner | optional inner | negation inner => inner.AllNames P
  | _ => True

/-- All names in some expressions have a property. -/
def ListNames (P : String → Prop) : List Expression → Prop
  | [] => True
  | e :: es => e.AllNames P ∧ ListNames P es

end

mutual

/-- A property of all names is one of all that are mentioned. -/
theorem allNames_iff : ∀ e : Expression, e.AllNames P ↔ ∀ name ∈ e.mentioned, P name
  | .literal _ | .charSet .. | .charRange .. | .endOfInput => ⟨nofun, fun _ => trivial⟩
  | .rule name => (List.forall_mem_singleton (a := name) (p := P)).symm
  | .sequence es | .choice es => listNames_iff es
  | .repetition e | .optional e | .negation e => allNames_iff e

theorem listNames_iff : ∀ es : List Expression, ListNames P es ↔ ∀ name ∈ listMentioned es, P name
  | [] => ⟨nofun, fun _ => trivial⟩
  | e :: es => by
    rw [ListNames, listMentioned, allNames_iff e, listNames_iff es]
    exact List.forall_mem_append.symm

end

mutual

/-- What can be said mentions only names that can be. -/
theorem allNames_of_sayable : ∀ e : Expression, e.Sayable → e.AllNames IsMention
  | .literal _, _ | .charSet .., _ | .charRange .., _ | .endOfInput, _ => trivial
  | .rule _, mention => mention
  | .sequence es, ⟨_, all⟩ | .choice es, ⟨_, all⟩ => listNames_of_sayable es all
  | .repetition inner, sayable | .optional inner, sayable | .negation inner, sayable =>
    allNames_of_sayable inner sayable

theorem listNames_of_sayable : ∀ es : List Expression, AllSayable es → ListNames IsMention es
  | [], _ => trivial
  | e :: es, ⟨own, others⟩ => ⟨allNames_of_sayable e own, listNames_of_sayable es others⟩

end

/-! ## Standing for an expression -/

mutual

/-- What holds of a name that a node stands for holds of every name that is mentioned. -/
theorem allNames_of_stands (holds : ∀ id name, mention id name → P name) :
    ∀ (e : Expression) {id : NodeId} {name : Option String}, e.Stands g mention id name → e.AllNames P
  | .literal _, _, _, _ | .charSet .., _, _, _ | .charRange .., _, _, _ | .endOfInput, _, _, _ => trivial
  | .rule _, _, _, stands => holds _ _ stands
  | .sequence es, _, _, ⟨_, _, all⟩ | .choice es, _, _, ⟨_, _, all⟩ => listNames_of_allStand holds es all
  | .repetition inner, _, _, ⟨_, _, stands⟩ | .optional inner, _, _, ⟨_, _, stands⟩
  | .negation inner, _, _, ⟨_, _, stands⟩ => allNames_of_stands holds inner stands

/-- Where expressions stand, each name has what the graph knows of it. -/
theorem listNames_of_allStand (holds : ∀ id name, mention id name → P name) :
    ∀ (es : List Expression) {ids : List NodeId}, AllStand g mention ids es → ListNames P es
  | [], [], _ => trivial
  | e :: es, _ :: _, ⟨stands, all⟩ => ⟨allNames_of_stands holds e stands, listNames_of_allStand holds es all⟩

end

mutual

/-- What stands for a name may be known by other things, where they hold for the names that are mentioned. -/
theorem stands_imp (more : ∀ id name, P name → mention id name → mention' id name) :
    ∀ (e : Expression) {id : NodeId} {name : Option String}, e.AllNames P → e.Stands g mention id name →
      e.Stands g mention' id name
  | .literal _, _, _, _, stands | .charSet .., _, _, _, stands | .charRange .., _, _, _, stands
  | .endOfInput, _, _, _, stands => stands
  | .rule _, _, _, named, stands => more _ _ named stands
  | .sequence es, _, _, named, ⟨ids, row, all⟩ | .choice es, _, _, named, ⟨ids, row, all⟩ =>
    ⟨ids, row, allStand_imp more es named all⟩
  | .repetition inner, _, _, named, ⟨child, row, stands⟩ | .optional inner, _, _, named, ⟨child, row, stands⟩
  | .negation inner, _, _, named, ⟨child, row, stands⟩ => ⟨child, row, stands_imp more inner named stands⟩

/-- What stands still stands when the graph says more of the names that occur. -/
theorem allStand_imp (more : ∀ id name, P name → mention id name → mention' id name) :
    ∀ (es : List Expression) {ids : List NodeId}, ListNames P es → AllStand g mention ids es →
      AllStand g mention' ids es
  | [], [], _, _ => trivial
  | e :: es, _ :: _, ⟨own, others⟩, ⟨stands, all⟩ => ⟨stands_imp more e own stands, allStand_imp more es others all⟩

end

/-- And when it says more of all names. -/
theorem Stands.mono (more : ∀ id name, mention id name → mention' id name) {e : Expression} {id : NodeId}
    {name : Option String} (stands : e.Stands g mention id name) : e.Stands g mention' id name :=
  stands_imp (fun id name (_ : True) => more id name) e (allNames_of_stands (fun _ _ _ => trivial) e stands) stands

theorem AllStand.mono (more : ∀ id name, mention id name → mention' id name) {es : List Expression} {ids : List NodeId}
    (all : AllStand g mention ids es) : AllStand g mention' ids es :=
  allStand_imp (fun id name (_ : True) => more id name) es (listNames_of_allStand (fun _ _ _ => trivial) es all) all

/-! ## Standing for the same expression -/

section

variable {h : Grammar} {S : NodeId → NodeId → Prop} {a b : NodeId}

/-- Two rows with one name and like kinds match. -/
theorem matched_of_rows {name : Option String} {kind kind' : Kind} (first : g.nodes[a]? = some ⟨name, kind⟩)
    (second : h.nodes[b]? = some ⟨name, kind'⟩) (like : Kind.Like S kind kind') : Matched g h S a b := by
  obtain ⟨inside, node⟩ := Grammar.getElem?_eq_some_iff.mp first
  obtain ⟨inside', node'⟩ := Grammar.getElem?_eq_some_iff.mp second
  refine ⟨⟨inside, inside'⟩, ?_, ?_⟩
  · rw [Grammar.name, Grammar.name, node, node']
  · rw [Grammar.kind, Grammar.kind, node, node']
    exact like

/-- Nodes that stand for the same part of something are related. -/
def RelatesParts (g h : Grammar) (mention mention' : NodeId → String → Prop) (S : NodeId → NodeId → Prop) : Prop :=
  ∀ e : Expression, ∀ a b, e.Stands g mention a e.ownName → e.Stands h mention' b e.ownName → S a b

theorem AllStand.forall₂ (parts : RelatesParts g h mention mention' S) {es : List Expression} {ids ids' : List NodeId}
    (first : AllStand g mention ids es) (second : AllStand h mention' ids' es) : List.Forall₂ S ids ids' := by
  induction es generalizing ids ids' with
  | nil =>
    cases ids with
    | nil =>
      cases ids' with
      | nil => exact .nil
      | cons => exact second.elim
    | cons => exact first.elim
  | cons e es ih =>
    cases ids with
    | nil => exact first.elim
    | cons =>
      cases ids' with
      | nil => exact second.elim
      | cons => exact .cons (parts e _ _ first.1 second.1) (ih first.2 second.2)

/-- **Nodes that stand for the same are alike**, and their children stand for the same parts. -/
theorem Stands.matched (parts : RelatesParts g h mention mention' S) {e : Expression} {name : Option String}
    (whole : ∀ target, e ≠ .rule target) (first : e.Stands g mention a name) (second : e.Stands h mention' b name) :
    Matched g h S a b := by
  cases e with
  | rule target => exact absurd rfl (whole target)
  | literal _ | charSet _ _ | charRange _ _ _ | endOfInput => exact matched_of_rows first second (.leaf rfl)
  | sequence es =>
    obtain ⟨ids, row, all⟩ := first
    obtain ⟨ids', row', all'⟩ := second
    exact matched_of_rows row row' (.sequence (all.forall₂ parts all'))
  | choice es =>
    obtain ⟨ids, row, all⟩ := first
    obtain ⟨ids', row', all'⟩ := second
    exact matched_of_rows row row' (.choice (all.forall₂ parts all'))
  | repetition e =>
    obtain ⟨child, row, stands⟩ := first
    obtain ⟨child', row', stands'⟩ := second
    exact matched_of_rows row row' (.repetition (parts e _ _ stands stands'))
  | optional e =>
    obtain ⟨child, row, stands⟩ := first
    obtain ⟨child', row', stands'⟩ := second
    exact matched_of_rows row row' (.optional (parts e _ _ stands stands'))
  | negation e =>
    obtain ⟨child, row, stands⟩ := first
    obtain ⟨child', row', stands'⟩ := second
    exact matched_of_rows row row' (.negation (parts e _ _ stands stands'))

end

end Expression

end BnfTokenizer.Dialect
