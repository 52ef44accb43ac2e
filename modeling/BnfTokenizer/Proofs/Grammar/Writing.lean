import BnfTokenizer.Proofs.Grammar.RuleOrder
import BnfTokenizer.Proofs.Grammar.Twins

/-!
# Twins are written the same

A written form is cut off where its fuel ends, and the fuel goes by the size of the table, which twins need not
share. In a table that `Descends` the fuel is never what ends it: a child has a smaller address than its parent, or
it is a rule, of which only the name is written. So twins are written with the same text and mention twins, and
their rules come out of the queue in the same order (`Twins.dump_eq`).
-/

namespace BnfTokenizer.Grammar

variable {g h : Grammar} {R : NodeId → NodeId → Prop} {a b : NodeId} {fuel fuel' : Nat}

/-! ## Fuel that is enough -/

/-- Children come before their parents, but for rules. -/
def Descends (g : Grammar) : Prop :=
  ∀ a c, g.Edge a c → 0 < a ∧ (c < a ∨ (g.ruleName? c).isSome = true)

/-- With so much fuel a node is written out to its end. -/
def Suffices (g : Grammar) (fuel : Nat) (id : NodeId) : Prop :=
  0 < fuel ∧ (id < fuel ∨ (g.ruleName? id).isSome = true)

/-- Where edges lead down, the number of a node is fuel enough below it. -/
theorem Descends.suffices (down : g.Descends) {c : NodeId} (edge : g.Edge a c) (enough : a ≤ fuel) :
    g.Suffices fuel c := by
  obtain ⟨positive, below⟩ := down a c edge
  exact ⟨Nat.lt_of_lt_of_le positive enough, below.imp_left fun less => Nat.lt_of_lt_of_le less enough⟩

theorem starred?_eq_some {child inner : NodeId} (starred : g.starred? child = some inner) :
    g.ruleName? child = none ∧ g.Edge child inner := by
  unfold starred? at starred
  split at starred
  · next nameless repeats =>
    cases starred
    refine ⟨by rw [ruleName?, nameless]; rfl, ?_⟩
    rw [Edge, children, repeats]
    exact List.mem_singleton_self _
  · cases starred

/-- A repetition that is written with its parent is written out to its end. -/
theorem Descends.suffices_starred (down : g.Descends) {child inner : NodeId} (edge : g.Edge a child)
    (starred : g.starred? child = some inner) (enough : a ≤ fuel) : g.Suffices fuel inner := by
  obtain ⟨nameless, deeper⟩ := starred?_eq_some starred
  obtain ⟨_, below | named⟩ := down a child edge
  · exact down.suffices deeper (Nat.le_trans (Nat.le_of_lt below) enough)
  · rw [nameless] at named
    cases named

/-! ## Written forms -/

/-- The same text, with twins mentioned in it. -/
structure SameWritten (R : NodeId → NodeId → Prop) (w w' : Written) : Prop where
  text : w.text = w'.text
  level : w.level = w'.level
  mentions : List.Forall₂ R w.mentions w'.mentions

namespace SameWritten

variable {w w' : Written} {ws ws' : List Written}

theorem operand (same : SameWritten R w w') (level : Level) : w.operand level = w'.operand level := by
  rw [Written.operand, Written.operand, same.text, same.level]

theorem postfixed (same : SameWritten R w w') (operator : String) :
    SameWritten R (w.postfixed operator) (w'.postfixed operator) :=
  ⟨congrArg (· ++ operator) (same.operand .atom), rfl, same.mentions⟩

theorem prefixed (same : SameWritten R w w') (operator : String) :
    SameWritten R (w.prefixed operator) (w'.prefixed operator) :=
  ⟨congrArg (operator ++ ·) (same.operand .atom), rfl, same.mentions⟩

/-- Rules that are written alike mention twins. -/
theorem flatMap_mentions (all : List.Forall₂ (SameWritten R) ws ws') :
    List.Forall₂ R (ws.flatMap (·.mentions)) (ws'.flatMap (·.mentions)) := by
  induction all with
  | nil => exact .nil
  | cons head _ ih => exact List.rel_append head.mentions ih

theorem joined (all : List.Forall₂ (SameWritten R) ws ws') (separator : String) (operand own : Level) :
    SameWritten R (.joined ws separator operand own) (.joined ws' separator operand own) :=
  ⟨congrArg (String.intercalate separator) (map_eq_map_of_forall₂ (fun _ _ same => same.operand operand) all), rfl,
    flatMap_mentions all⟩

end SameWritten

namespace Twins

/-- Twins are starred alike. -/
theorem starred?_rel (twins : Twins g h R) (related : R a b) : Option.Rel R (g.starred? a) (h.starred? b) := by
  have like := twins.kind related
  unfold starred?
  rw [← twins.name related]
  generalize g.kind a = kind at like
  generalize h.kind b = kind' at like
  cases g.name a with
  | some name => exact .none
  | none =>
    cases like with
    | repetition child => exact .some child
    | leaf bare =>
      cases kind with
      | repetition id => cases bare
      | _ => exact .none
    | _ => exact .none

/-- Where the nodes below are written the same, so is the whole. -/
theorem writtenKind_same (twins : Twins g h R) (down : g.Descends) (down' : h.Descends)
    (each : ∀ c d, R c d → g.Suffices fuel c → h.Suffices fuel' d →
      SameWritten R (g.written fuel c) (h.written fuel' d))
    (related : R a b) (enough : a ≤ fuel) (enough' : b ≤ fuel') :
    SameWritten R (g.writtenKind (g.written fuel) (g.kind a)) (h.writtenKind (h.written fuel') (h.kind b)) := by
  have like := twins.kind related
  have below : ∀ c d, R c d → c ∈ (g.kind a).children → d ∈ (h.kind b).children →
      SameWritten R (g.written fuel c) (h.written fuel' d) := fun c d partner edge edge' =>
    each c d partner (down.suffices edge enough) (down'.suffices edge' enough')
  have deeper : ∀ c d i j, c ∈ (g.kind a).children → d ∈ (h.kind b).children → g.starred? c = some i →
      h.starred? d = some j → R i j → SameWritten R (g.written fuel i) (h.written fuel' j) :=
    fun c d i j edge edge' starred starred' partner =>
      each i j partner (down.suffices_starred edge starred enough) (down'.suffices_starred edge' starred' enough')
  generalize g.kind a = kind at like below deeper
  generalize h.kind b = kind' at like below deeper
  have listed : ∀ {ids ids' : List NodeId}, List.Forall₂ R ids ids' → ids ⊆ kind.children → ids' ⊆ kind'.children →
      List.Forall₂ (SameWritten R) (ids.map (g.written fuel)) (ids'.map (h.written fuel')) := by
    intro ids ids' all sub sub'
    rw [List.forall₂_map_left_iff, List.forall₂_map_right_iff]
    exact (forall₂_mem all).imp fun c d both => below c d both.1 (sub both.2.1) (sub' both.2.2)
  cases like with
  | leaf bare =>
    cases kind with
    | sequence ids | choice ids =>
      obtain rfl := bare
      exact .joined .nil _ _ _
    | repetition id | optional id | negation id => cases bare
    | _ => exact ⟨rfl, rfl, .nil⟩
  | sequence all => exact .joined (listed all (List.Subset.refl _) (List.Subset.refl _)) _ _ _
  | choice all => exact .joined (listed all (List.Subset.refl _) (List.Subset.refl _)) _ _ _
  | repetition child => exact (below _ _ child List.mem_cons_self List.mem_cons_self).postfixed "+"
  | negation child => exact (below _ _ child List.mem_cons_self List.mem_cons_self).prefixed "!"
  | @optional c d child =>
    have starred := twins.starred?_rel child
    rw [writtenKind, writtenKind]
    generalize found : g.starred? c = inner at starred
    generalize found' : h.starred? d = inner' at starred
    cases starred with
    | some partner =>
      exact (deeper c d _ _ List.mem_cons_self List.mem_cons_self found found' partner).postfixed "*"
    | none => exact (below _ _ child List.mem_cons_self List.mem_cons_self).postfixed "?"

/-- **Twins are written the same**, each with fuel that is enough for its own table. -/
theorem written_same (twins : Twins g h R) (down : g.Descends) (down' : h.Descends) (related : R a b)
    (enough : g.Suffices fuel a) (enough' : h.Suffices fuel' b) :
    SameWritten R (g.written fuel a) (h.written fuel' b) := by
  induction fuel generalizing a b fuel' with
  | zero => exact absurd enough.1 (Nat.lt_irrefl 0)
  | succ fuel ih =>
    cases fuel' with
    | zero => exact absurd enough'.1 (Nat.lt_irrefl 0)
    | succ fuel' =>
      have named : h.ruleName? b = g.ruleName? a := (ruleName?_eq (fun _ _ related => twins.name related) related).symm
      unfold written
      rw [named]
      cases own : g.ruleName? a with
      | some name => exact ⟨rfl, rfl, .cons related .nil⟩
      | none =>
        have less := enough.2.resolve_right (by rw [own]; exact Bool.false_ne_true)
        have less' := enough'.2.resolve_right (by rw [named, own]; exact Bool.false_ne_true)
        exact twins.writtenKind_same down down' (fun c d partner => ih partner) related (Nat.le_of_lt_succ less)
          (Nat.le_of_lt_succ less')

/-- **Twins have the same body**, as text, and mention twins in the same order. -/
theorem body_same (twins : Twins g h R) (down : g.Descends) (down' : h.Descends) (related : R a b) :
    SameWritten R (g.body a) (h.body b) :=
  have ⟨inside, inside'⟩ := twins.inside related
  twins.writtenKind_same down down' (fun _ _ => twins.written_same down down') related (Nat.le_of_lt inside)
    (Nat.le_of_lt inside')

/-! ## Rules -/

/-- Two queues of twins are emptied side by side. -/
theorem lists_same (twins : Twins g h R) (down : g.Descends) (down' : h.Descends)
    {queue queue' earlier earlier' ids ids' : List NodeId} (first : Lists g queue earlier ids)
    (second : Lists h queue' earlier' ids') (level : List.Forall₂ R queue queue')
    (marks : ∀ a b, R a b → (a ∈ earlier ↔ b ∈ earlier')) : List.Forall₂ R ids ids' := by
  induction first generalizing queue' earlier' ids' with
  | done =>
    cases level
    cases second
    exact .nil
  | skip again _ ih =>
    obtain _ | ⟨related, below⟩ := level
    cases second with
    | skip _ rest' => exact ih rest' below marks
    | take fresh _ => exact absurd ((marks _ _ related).mp again) fresh
  | take fresh _ ih =>
    obtain _ | ⟨related, below⟩ := level
    cases second with
    | skip again _ => exact absurd ((marks _ _ related).mpr again) fresh
    | take _ rest' =>
      have mentions := (twins.body_same down down' related).mentions
      refine .cons related (ih rest' (List.rel_append below mentions) fun c d other => ?_)
      rw [List.mem_cons, List.mem_cons, twins.eq_iff other related, marks c d other]

/-- So they are written on the same line. -/
theorem entry_eq (twins : Twins g h R) (down : g.Descends) (down' : h.Descends) (related : R a b) :
    g.entry a = h.entry b := by
  rw [entry, entry, twins.name related, (twins.body_same down down' related).text]

/-- **Twins have the same written form.** -/
theorem dump_eq (twins : Twins g h R) (down : g.Descends) (down' : h.Descends) {root root' : NodeId}
    (start : R root root') : g.dump root = h.dump root' := by
  have ⟨inside, inside'⟩ := twins.inside start
  have rules : List.Forall₂ R (g.rules root) (h.rules root') :=
    twins.lists_same down down' (rules_lists inside) (rules_lists inside') (.cons start .nil)
      fun _ _ _ => iff_of_false List.not_mem_nil List.not_mem_nil
  have entries : (g.rules root).map g.entry = (h.rules root').map h.entry :=
    map_eq_map_of_forall₂ (fun _ _ related => twins.entry_eq down down' related) rules
  rw [dump, dump, entries]

end Twins

end BnfTokenizer.Grammar
