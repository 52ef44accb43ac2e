import BnfTokenizer.Grammar.Dump
import BnfTokenizer.Proofs.Grammar.Nullability
import BnfTokenizer.Proofs.Grammar.Reachability
import Mathlib.Data.List.Forall2

/-!
# The same grammar at other addresses

`Twins` relates nodes of two grammars one to one, so that related nodes have the same name and the same kind
and their children are related in order. Searches from related roots go on side by side, so what the roots
reach is the same but for the addresses: `listing` puts the place in the list for each address, and is equal.

What is nullable is said by kinds and edges, so a node is nullable where its twin is.
-/

namespace BnfTokenizer.Grammar

variable {g h : Grammar} {R : NodeId → NodeId → Prop}

/-! ## Kinds that differ in addresses only -/

/-- The same kind, with related children. -/
inductive Kind.Like (R : NodeId → NodeId → Prop) : Kind → Kind → Prop
  | leaf {kind} (bare : kind.children = []) : Like R kind kind
  | sequence {ids ids'} (all : List.Forall₂ R ids ids') : Like R (.sequence ids) (.sequence ids')
  | choice {ids ids'} (all : List.Forall₂ R ids ids') : Like R (.choice ids) (.choice ids')
  | repetition {id id'} (child : R id id') : Like R (.repetition id) (.repetition id')
  | optional {id id'} (child : R id id') : Like R (.optional id) (.optional id')
  | negation {id id'} (child : R id id') : Like R (.negation id) (.negation id')

theorem Kind.Like.symm {kind kind' : Kind} (like : Kind.Like R kind kind') :
    Kind.Like (fun b a => R a b) kind' kind := by
  cases like with
  | leaf bare => exact .leaf bare
  | sequence all => exact .sequence all.flip
  | choice all => exact .choice all.flip
  | repetition child => exact .repetition child
  | optional child => exact .optional child
  | negation child => exact .negation child

theorem Kind.Like.children {kind kind' : Kind} (like : Kind.Like R kind kind') :
    List.Forall₂ R kind.children kind'.children := by
  cases like with
  | leaf bare =>
    rw [bare]
    exact .nil
  | sequence all => exact all
  | choice all => exact all
  | repetition child => exact .cons child .nil
  | optional child => exact .cons child .nil
  | negation child => exact .cons child .nil

/-- Kinds that are alike are alike in any way in which their children are related. -/
theorem Kind.Like.mono {R' : NodeId → NodeId → Prop} {kind kind' : Kind} (like : Kind.Like R kind kind')
    (all : List.Forall₂ R' kind.children kind'.children) : Kind.Like R' kind kind' := by
  cases like with
  | leaf bare => exact .leaf bare
  | sequence _ => exact .sequence all
  | choice _ => exact .choice all
  | repetition _ => exact .repetition (List.forall₂_cons.mp all).1
  | optional _ => exact .optional (List.forall₂_cons.mp all).1
  | negation _ => exact .negation (List.forall₂_cons.mp all).1

/-- New children make kinds alike where the new children are related. -/
theorem Kind.Like.withChildren {R' : NodeId → NodeId → Prop} {kind kind' : Kind} (like : Kind.Like R kind kind')
    {ids ids' : List NodeId} (length : ids.length = kind.children.length) (all : List.Forall₂ R' ids ids') :
    Kind.Like R' (kind.withChildren ids) (kind'.withChildren ids') := by
  cases like with
  | leaf bare =>
    rw [bare] at length
    obtain rfl := List.eq_nil_of_length_eq_zero length
    cases all
    cases kind with
    | sequence _ => exact .sequence .nil
    | choice _ => exact .choice .nil
    | repetition _ | optional _ | negation _ => cases bare
    | _ => exact .leaf rfl
  | sequence _ => exact .sequence all
  | choice _ => exact .choice all
  | repetition _ =>
    obtain _ | ⟨partner, _⟩ := all
    · cases length
    · exact .repetition partner
  | optional _ =>
    obtain _ | ⟨partner, _⟩ := all
    · cases length
    · exact .optional partner
  | negation _ =>
    obtain _ | ⟨partner, _⟩ := all
    · cases length
    · exact .negation partner

theorem map_eq_map_of_forall₂ {α β γ : Type} {S : α → β → Prop} {f : α → γ} {f' : β → γ}
    (same : ∀ a b, S a b → f a = f' b) {as : List α} {bs : List β} (all : List.Forall₂ S as bs) :
    as.map f = bs.map f' := by
  induction all with
  | nil => rfl
  | cons head _ ih => rw [List.map_cons, List.map_cons, same _ _ head, ih]

theorem Kind.Like.mapChildren_eq {kind kind' : Kind} (like : Kind.Like R kind kind') {f f' : NodeId → NodeId}
    (same : ∀ a b, R a b → f a = f' b) : kind.mapChildren f = kind'.mapChildren f' := by
  cases like with
  | leaf bare =>
    cases kind with
    | sequence ids | choice ids =>
      cases bare
      rfl
    | repetition id | optional id | negation id => cases bare
    | _ => rfl
  | sequence all => exact congrArg Kind.sequence (map_eq_map_of_forall₂ same all)
  | choice all => exact congrArg Kind.choice (map_eq_map_of_forall₂ same all)
  | repetition child => exact congrArg Kind.repetition (same _ _ child)
  | optional child => exact congrArg Kind.optional (same _ _ child)
  | negation child => exact congrArg Kind.negation (same _ _ child)

theorem exists_left_of_mem {α β : Type} {R : α → β → Prop} {as : List α} {bs : List β}
    (all : List.Forall₂ R as bs) {b : β} (mem : b ∈ bs) :
    ∃ a ∈ as, R a b := by
  induction all with
  | nil => cases mem
  | cons head _ ih =>
    rcases List.mem_cons.mp mem with rfl | later
    · exact ⟨_, List.mem_cons_self, head⟩
    · obtain ⟨a, earlier, related⟩ := ih later
      exact ⟨a, List.mem_cons_of_mem _ earlier, related⟩

/-- Related members of two lists are known to be members. -/
theorem forall₂_mem {α β : Type} {S : α → β → Prop} {as : List α} {bs : List β} (all : List.Forall₂ S as bs) :
    List.Forall₂ (fun a b => S a b ∧ a ∈ as ∧ b ∈ bs) as bs := by
  induction all with
  | nil => exact .nil
  | cons head _ ih =>
    refine .cons ⟨head, List.mem_cons_self, List.mem_cons_self⟩ (ih.imp fun _ _ later => ?_)
    exact ⟨later.1, List.mem_cons_of_mem _ later.2.1, List.mem_cons_of_mem _ later.2.2⟩

theorem rel_of_getElem? {α β : Type} {S : α → β → Prop} {as : List α} {bs : List β} (all : List.Forall₂ S as bs)
    {i : Nat} {a : α} {b : β} (left : as[i]? = some a) (right : bs[i]? = some b) : S a b := by
  obtain ⟨within, rfl⟩ := List.getElem?_eq_some_iff.mp left
  obtain ⟨within', rfl⟩ := List.getElem?_eq_some_iff.mp right
  exact (List.forall₂_iff_get.mp all).2 i within within'

/-! ## Twins -/

/-- Nodes of two grammars, related one to one. -/
structure Twins (g h : Grammar) (R : NodeId → NodeId → Prop) : Prop where
  inside : ∀ {a b}, R a b → a < g.size ∧ b < h.size
  name : ∀ {a b}, R a b → g.name a = h.name b
  kind : ∀ {a b}, R a b → Kind.Like R (g.kind a) (h.kind b)
  left : ∀ {a a' b}, R a b → R a' b → a = a'
  right : ∀ {a b b'}, R a b → R a b' → b = b'

namespace Twins

theorem symm (twins : Twins g h R) : Twins h g fun b a => R a b where
  inside related := (twins.inside related).symm
  name related := (twins.name related).symm
  kind related := (twins.kind related).symm
  left := twins.right
  right := twins.left

theorem isReference_eq (twins : Twins g h R) {a b : NodeId} (related : R a b) :
    (g.kind a).isReference = (h.kind b).isReference := by
  have like := twins.kind related
  generalize g.kind a = kind at like
  generalize h.kind b = kind' at like
  cases like <;> rfl

theorem eq_iff (twins : Twins g h R) {a a' b b' : NodeId} (first : R a b) (second : R a' b') : a = a' ↔ b = b' := by
  constructor
  · rintro rfl
    exact twins.right first second
  · rintro rfl
    exact twins.left first second

/-! ## The same reachable nodes -/

/-- Related nodes with related labels. -/
def Labelled {α : Type} (R : NodeId → NodeId → Prop) (L : α → α → Prop) (v w : NodeId × α) : Prop :=
  R v.1 w.1 ∧ L v.2 w.2

/-- Two searches that have the same stack and have seen the same visit the same, and with the same labels. -/
theorem search {α : Type} {L : α → α → Prop} {inherit inherit' : NodeId → α → α} (twins : Twins g h R)
    (inherits : ∀ {a b x y}, R a b → L x y → L (inherit a x) (inherit' b y))
    {stack stack' visits visits' : List (NodeId × α)} {seen seen' : Array Bool}
    (first : Search g inherit stack seen visits) (second : Search h inherit' stack' seen' visits')
    (level : List.Forall₂ (Labelled R L) stack stack') (marks : ∀ a b, R a b → (Seen seen a ↔ Seen seen' b)) :
    List.Forall₂ (Labelled R L) visits visits' := by
  -- The marks agree on twins, so a node is skipped in one search where its twin is skipped in the other.
  induction first generalizing stack' seen' visits' with
  | done =>
    cases second with
    | done => exact .nil
    | skip => cases level
    | visit => cases level
  | skip again _ ih =>
    cases second with
    | done => cases level
    | skip _ rest' =>
      obtain _ | ⟨_, below⟩ := level
      exact ih rest' below marks
    | visit fresh _ =>
      obtain _ | ⟨⟨related, _⟩, _⟩ := level
      exact absurd ((marks _ _ related).mp again) fresh
  | visit fresh _ ih =>
    cases second with
    | done => cases level
    | skip again _ =>
      obtain _ | ⟨⟨related, _⟩, _⟩ := level
      exact absurd ((marks _ _ related).mpr again) fresh
    | visit _ rest' =>
      obtain _ | ⟨⟨related, label⟩, below⟩ := level
      have own := inherits related label
      refine .cons ⟨related, own⟩ (ih rest' ?_ fun a b other => ?_)
      · have children := (twins.kind related).children
        refine List.rel_append ?_ below
        rw [List.forall₂_map_left_iff, List.forall₂_map_right_iff]
        exact children.imp fun _ _ partner => ⟨partner, own⟩
      · rw [seen_set, seen_set, twins.eq_iff other related, marks a b other]

theorem walk {α : Type} {L : α → α → Prop} {inherit inherit' : NodeId → α → α} (twins : Twins g h R)
    (inherits : ∀ {a b x y}, R a b → L x y → L (inherit a x) (inherit' b y)) {root root' : NodeId}
    (related : R root root') {start start' : α} (label : L start start') :
    List.Forall₂ (Labelled R L) (g.walk inherit root start) (h.walk inherit' root' start') := by
  refine twins.search inherits (walk_search g _ root start) (walk_search h _ root' start')
    (.cons ⟨related, label⟩ .nil) ?_
  intro a b other
  obtain ⟨inside, inside'⟩ := twins.inside other
  exact iff_of_false (not_seen_replicate inside) (not_seen_replicate inside')

theorem reachable (twins : Twins g h R) {root root' : NodeId} (related : R root root') :
    List.Forall₂ R (g.reachable root) (h.reachable root') := by
  have visits : List.Forall₂ (Labelled R fun _ _ => True) (g.walk (fun _ _ => ()) root ())
      (h.walk (fun _ _ => ()) root' ()) := twins.walk (fun _ _ => trivial) related trivial
  unfold Grammar.reachable
  rw [List.forall₂_map_left_iff, List.forall₂_map_right_iff]
  exact visits.imp fun _ _ both => both.1

theorem idxOf_eq (twins : Twins g h R) {ids ids' : List NodeId} (all : List.Forall₂ R ids ids') {a b : NodeId}
    (related : R a b) : ids.idxOf a = ids'.idxOf b := by
  induction all with
  | nil => rfl
  | @cons c d ids ids' head _ ih =>
    by_cases same : c = a
    · have same' := (twins.eq_iff head related).mp same
      rw [same, same', List.idxOf_cons_self, List.idxOf_cons_self]
    · have differs := fun same' => same ((twins.eq_iff head related).mpr same')
      rw [List.idxOf_cons_ne _ same, List.idxOf_cons_ne _ differs, ih]

end Twins

/-- The nodes that a root reaches, in order, with the place in the list for the address of each child. -/
def listing (g : Grammar) (root : NodeId) : List Node :=
  (g.reachable root).map fun id => ⟨g.name id, (g.kind id).mapChildren (g.reachable root).idxOf⟩

namespace Twins

theorem map_node_eq (twins : Twins g h R) {f f' : NodeId → NodeId} (same : ∀ a b, R a b → f a = f' b)
    {ids ids' : List NodeId} (all : List.Forall₂ R ids ids') :
    (ids.map fun id => (⟨g.name id, (g.kind id).mapChildren f⟩ : Node)) =
      ids'.map fun id => ⟨h.name id, (h.kind id).mapChildren f'⟩ := by
  induction all with
  | nil => rfl
  | cons head _ ih =>
    rw [List.map_cons, List.map_cons, twins.name head, (twins.kind head).mapChildren_eq same, ih]

/-- **Twins reach the same**, but for the addresses. -/
theorem listing_eq (twins : Twins g h R) {root root' : NodeId} (related : R root root') :
    g.listing root = h.listing root' :=
  have all := twins.reachable related
  twins.map_node_eq (fun _ _ other => twins.idxOf_eq all other) all

/-! ## The same nodes are nullable -/

theorem kind_of (twins : Twins g h R) {a b : NodeId} (related : R a b) {kind : Kind} (own : g.kind a = kind) :
    ∃ other, h.kind b = other ∧ Kind.Like R kind other :=
  ⟨_, rfl, own ▸ twins.kind related⟩

/-- A node is nullable if its twin is. What makes it so is at children, and these have twins in turn. -/
theorem nullable (twins : Twins g h R) {a b : NodeId} (nullable : g.Nullable a) (related : R a b) :
    h.Nullable b := by
  induction nullable generalizing b with
  | literal kind =>
    obtain ⟨other, same, like⟩ := twins.kind_of related kind
    cases like
    exact .literal same
  | sequence kind _ ih =>
    obtain ⟨other, same, like⟩ := twins.kind_of related kind
    cases like with
    | leaf bare =>
      obtain rfl := bare
      exact .sequence same (List.forall_mem_nil _)
    | sequence all =>
      refine .sequence same fun part mem => ?_
      obtain ⟨own, earlier, partner⟩ := exists_left_of_mem all mem
      exact ih own earlier partner
  | choice kind mem _ ih =>
    obtain ⟨other, same, like⟩ := twins.kind_of related kind
    cases like with
    | leaf bare =>
      obtain rfl := bare
      cases mem
    | choice all =>
      obtain ⟨part, later, partner⟩ := exists_left_of_mem all.flip mem
      exact .choice same later (ih partner)
  | repetition kind _ ih =>
    obtain ⟨other, same, like⟩ := twins.kind_of related kind
    cases like with
    | leaf bare => cases bare
    | repetition child => exact .repetition same (ih child)
  | optional kind =>
    obtain ⟨other, same, like⟩ := twins.kind_of related kind
    cases like with
    | leaf bare => cases bare
    | optional _ => exact .optional same
  | negation kind =>
    obtain ⟨other, same, like⟩ := twins.kind_of related kind
    cases like with
    | leaf bare => cases bare
    | negation _ => exact .negation same
  | endOfInput kind =>
    obtain ⟨other, same, like⟩ := twins.kind_of related kind
    cases like
    exact .endOfInput same

theorem nullable_iff (twins : Twins g h R) {a b : NodeId} (related : R a b) : g.Nullable a ↔ h.Nullable b :=
  ⟨fun nullable => twins.nullable nullable related, fun nullable => twins.symm.nullable nullable related⟩

end Twins

/-! ## Nodes that stand in one place -/

/-- A rule is known by its name, and anything else stands in one place below one of the nodes that the root reaches. -/
structure Placed (g : Grammar) (root : NodeId) : Prop where
  once : ∀ {a a' c : NodeId} {i i' : Nat}, g.Reaches root a → g.Reaches root a' → (g.children a)[i]? = some c →
    (g.children a')[i']? = some c → g.ruleName? c = none → a = a' ∧ i = i'
  named : ∀ {a b name}, g.ruleName? a = some name → g.ruleName? b = some name → a = b
  root : (g.ruleName? root).isSome = true

/-- The same way leads to two nodes from two roots. -/
inductive Joined (g h : Grammar) (root root' : NodeId) : NodeId → NodeId → Prop
  | root : Joined g h root root' root root'
  | child {a b c d : NodeId} {i : Nat} (above : Joined g h root root' a b) (left : (g.children a)[i]? = some c)
      (right : (h.children b)[i]? = some d) : Joined g h root root' c d

theorem Joined.symm {root root' a b : NodeId} (joined : Joined g h root root' a b) :
    Joined h g root' root b a := by
  induction joined with
  | root => exact .root
  | child _ left right ih => exact .child ih right left

theorem Joined.reaches {root root' a b : NodeId} (joined : Joined g h root root' a b) : h.Reaches root' b := by
  induction joined with
  | root => exact .refl
  | child _ _ right ih => exact ih.tail (List.mem_of_getElem? right)

/-- Nodes inside, with the same name and the same kind, and with children that are matched in turn. -/
def Matched (g h : Grammar) (R : NodeId → NodeId → Prop) (a b : NodeId) : Prop :=
  (a < g.size ∧ b < h.size) ∧ g.name a = h.name b ∧ Kind.Like R (g.kind a) (h.kind b)

theorem Joined.matched {root root' a b : NodeId} (step : ∀ a b, R a b → Matched g h R a b) (start : R root root')
    (joined : Joined g h root root' a b) : R a b := by
  induction joined with
  | root => exact start
  | child _ left right ih => exact rel_of_getElem? (step _ _ ih).2.2.children left right

theorem ruleName?_eq (same : ∀ a b, R a b → g.name a = h.name b) {a b : NodeId} (related : R a b) :
    g.ruleName? a = h.ruleName? b := by
  rw [ruleName?, ruleName?, same a b related]

/-- Where nothing stands in two places, the way to a node is the only one. -/
theorem Joined.left_unique {root root' a a' b : NodeId} (placed : Placed g root) (placed' : Placed h root')
    (same : ∀ a b, Joined g h root root' a b → g.ruleName? a = h.ruleName? b)
    (first : Joined g h root root' a b) (second : Joined g h root root' a' b) : a = a' := by
  induction first generalizing a' with
  | root =>
    obtain ⟨name, named⟩ := Option.isSome_iff_exists.mp placed.root
    exact placed.named named ((same _ _ second).trans ((same _ _ .root).symm.trans named))
  | @child a b c d i above left right ih =>
    have own := same _ _ (.child above left right)
    cases named : h.ruleName? d with
    | some name => exact placed.named (own.trans named) ((same _ _ second).trans named)
    | none =>
      cases second with
      | root =>
        have isRule := placed'.root
        rw [named] at isRule
        cases isRule
      | child above' left' right' =>
        obtain ⟨rfl, rfl⟩ := placed'.once above.reaches above'.reaches right right' named
        cases ih above'
        exact Option.some.inj (left.symm.trans left')

/-- **Grammars that match from their roots on are twins**, where nothing stands in two places. -/
theorem twins_of_matched {root root' : NodeId} (placed : Placed g root) (placed' : Placed h root')
    (step : ∀ a b, R a b → Matched g h R a b) (start : R root root') : Twins g h (Joined g h root root') := by
  have matched : ∀ {a b}, Joined g h root root' a b → Matched g h R a b := fun joined =>
    step _ _ (joined.matched step start)
  have same : ∀ a b, Joined g h root root' a b → g.ruleName? a = h.ruleName? b := fun a b joined =>
    ruleName?_eq (R := Joined g h root root') (fun _ _ joined => (matched joined).2.1) joined
  refine {
    inside := fun joined => (matched joined).1
    name := fun joined => (matched joined).2.1
    kind := fun joined => (matched joined).2.2.mono ?_
    left := Joined.left_unique placed placed' same
    right := fun first second =>
      Joined.left_unique placed' placed (fun _ _ joined => (same _ _ joined.symm).symm) first.symm second.symm }
  refine List.forall₂_iff_get.mpr ⟨(matched joined).2.2.children.length_eq, fun i within within' => ?_⟩
  exact .child joined (List.getElem?_eq_getElem within) (List.getElem?_eq_getElem within')

end BnfTokenizer.Grammar
