import BnfTokenizer.Grammar.Nullable
import BnfTokenizer.Proofs.Grammar.Reachability

/-!
# The marks of `nullable` are a least fixed point

`Nullable g id` is the least predicate that obeys what each kind says of itself. A sweep sets only marks
that follow from marks already set, so every mark is right. The last sweep sets none, so nothing that
follows is missing. Together the marks are the predicate on every list of nodes that has the children of
its nodes, as far as they are in the table (`nullable_iff`).
-/

namespace BnfTokenizer.Grammar

variable {g : Grammar}

/-- The node can succeed without consuming anything, as far as the kinds show. -/
inductive Nullable (g : Grammar) : NodeId → Prop
  | literal {id} (kind : g.kind id = .literal []) : Nullable g id
  | sequence {id parts} (kind : g.kind id = .sequence parts)
      (all : ∀ part ∈ parts, Nullable g part) : Nullable g id
  | choice {id alternatives alternative} (kind : g.kind id = .choice alternatives)
      (mem : alternative ∈ alternatives) (one : Nullable g alternative) : Nullable g id
  | repetition {id child} (kind : g.kind id = .repetition child) (once : Nullable g child) :
      Nullable g id
  | optional {id child} (kind : g.kind id = .optional child) : Nullable g id
  | negation {id child} (kind : g.kind id = .negation child) : Nullable g id
  | endOfInput {id} (kind : g.kind id = .endOfInput) : Nullable g id

/-- A node has its mark. -/
def Marked (marks : Array Bool) (id : NodeId) : Prop :=
  marks.getD id false = true

/-- Setting an entry inside a table changes that entry and no other. -/
theorem getD_set {α : Type} {marks : Array α} {id other : NodeId} {mark outside : α} (inside : id < marks.size) :
    (marks.setIfInBounds id mark).getD other outside = if other = id then mark else marks.getD other outside := by
  rw [Array.getD_eq_getD_getElem?, Array.getD_eq_getD_getElem?, Array.getElem?_setIfInBounds]
  by_cases same : id = other
  · subst same
    simp [inside]
  · simp [same, Ne.symm same]

/-- Setting a mark inside the table marks that node and no other. -/
theorem marked_set {marks : Array Bool} {id other : NodeId} (inside : id < marks.size) :
    Marked (marks.setIfInBounds id true) other ↔ other = id ∨ Marked marks other := by
  unfold Marked
  rw [getD_set inside]
  by_cases same : other = id
  · simp [same]
  · simp [same]

/-- What follows from right marks is right. -/
theorem Nullable.of_given {marks : NodeId → Bool} (right : ∀ id, marks id = true → g.Nullable id)
    {id : NodeId} (given : (g.kind id).nullableGiven marks = true) : g.Nullable id := by
  cases kind : g.kind id with
  | literal text =>
    rw [kind] at given
    exact .literal (kind.trans (congrArg _ (List.isEmpty_iff.mp given)))
  | sequence parts =>
    rw [kind] at given
    exact .sequence kind fun part mem => right part (List.all_eq_true.mp given part mem)
  | choice alternatives =>
    rw [kind] at given
    obtain ⟨alternative, mem, marked⟩ := List.any_eq_true.mp given
    exact .choice kind mem (right alternative marked)
  | repetition child =>
    rw [kind] at given
    exact .repetition kind (right child given)
  | optional child => exact .optional kind
  | negation child => exact .negation kind
  | endOfInput => exact .endOfInput kind
  | _ =>
    rw [kind] at given
    cases given

/-- A property is had by all nullable nodes if it goes over to a node from the children that a kind asks for. -/
theorem Nullable.induction_given {P : NodeId → Prop} (closed : ∀ id (marks : NodeId → Bool),
    (∀ child, marks child = true → P child) → (g.kind id).nullableGiven marks = true → P id)
    {id : NodeId} (nullable : g.Nullable id) : P id := by
  classical
  have right : ∀ child, decide (P child) = true → P child := fun _ => of_decide_eq_true
  induction nullable with
  | literal kind | optional kind | negation kind | endOfInput kind => exact closed _ _ right (by rw [kind]; rfl)
  | sequence kind _ ih =>
    refine closed _ _ right ?_
    rw [kind]
    exact List.all_eq_true.mpr fun part mem => decide_eq_true (ih part mem)
  | choice kind mem _ ih =>
    refine closed _ _ right ?_
    rw [kind]
    exact List.any_eq_true.mpr ⟨_, mem, decide_eq_true ih⟩
  | repetition kind _ ih =>
    refine closed _ _ right ?_
    rw [kind]
    exact decide_eq_true ih

/-! ## Sweeps -/

@[simp] theorem size_nullableSweep (g : Grammar) (ids : List NodeId) (marks : Array Bool) :
    (g.nullableSweep ids marks).1.size = marks.size := by
  induction ids generalizing marks with
  | nil => rfl
  | cons id ids ih =>
    unfold nullableSweep
    split
    · exact (ih _).trans (Array.size_setIfInBounds ..)
    · exact ih marks

theorem lt_size_of_not_marked {marks : Array Bool} {id : NodeId} (unmarked : marks.getD id true = false) :
    id < marks.size := by
  refine Nat.not_le.mp fun outside => ?_
  rw [Array.getD_eq_getD_getElem?, Array.getElem?_eq_none outside] at unmarked
  cases unmarked

/-- A sweep marks only what is nullable. -/
theorem nullableSweep_right (ids : List NodeId) {marks : Array Bool}
    (right : ∀ id, Marked marks id → g.Nullable id) :
    ∀ id, Marked (g.nullableSweep ids marks).1 id → g.Nullable id := by
  induction ids generalizing marks with
  | nil => exact right
  | cons id ids ih =>
    unfold nullableSweep
    split
    · next follows =>
      rw [Bool.and_eq_true, Bool.not_eq_true'] at follows
      refine ih fun other marked => ?_
      rcases (marked_set (lt_size_of_not_marked follows.1)).mp marked with rfl | before
      · exact .of_given right follows.2
      · exact right other before
    · exact ih right

/-- A sweep that sets no mark leaves none to set. -/
theorem nullableSweep_still (g : Grammar) (ids : List NodeId) (marks : Array Bool)
    (still : (g.nullableSweep ids marks).2 = false) :
    (g.nullableSweep ids marks).1 = marks ∧
      ∀ id ∈ ids, (g.kind id).nullableGiven (marks.getD · false) = true → marks.getD id true = true := by
  induction ids with
  | nil => exact ⟨rfl, nofun⟩
  | cons id ids ih =>
    unfold nullableSweep at still ⊢
    split at still
    · cases still
    · next stays =>
      rw [if_neg stays]
      obtain ⟨same, rest⟩ := ih still
      refine ⟨same, fun other mem follows => ?_⟩
      rcases List.mem_cons.mp mem with rfl | later
      · rw [follows, Bool.and_true, Bool.not_eq_true', Bool.not_eq_false] at stays
        exact stays
      · exact rest other later follows

/-- The number of marks that are not set. -/
def unmarked (marks : Array Bool) : Nat :=
  marks.toList.count false

/-- Each new mark leaves fewer nodes without one. -/
theorem unmarked_set {marks : Array Bool} {id : NodeId} (fresh : marks.getD id true = false) :
    unmarked (marks.setIfInBounds id true) < unmarked marks := by
  have inside := lt_size_of_not_marked fresh
  have listed : id < marks.toList.length := Array.length_toList ▸ inside
  have entry : marks.toList[id] = false := by
    rw [Array.getD_eq_getD_getElem?, Array.getElem?_eq_getElem inside] at fresh
    exact fresh
  have positive : 0 < marks.toList.count false :=
    List.count_pos_iff.mpr (entry ▸ List.getElem_mem _)
  unfold unmarked
  rw [Array.toList_setIfInBounds, List.count_set listed, entry]
  simp only [BEq.rfl, if_true]
  exact Nat.lt_of_le_of_lt (Nat.le_of_eq (Nat.add_zero _)) (Nat.sub_lt positive Nat.one_pos)

/-- A sweep that changed something leaves fewer nodes without a mark, which bounds the number of sweeps. -/
theorem unmarked_nullableSweep (g : Grammar) (ids : List NodeId) (marks : Array Bool) :
    unmarked (g.nullableSweep ids marks).1 ≤ unmarked marks ∧
      ((g.nullableSweep ids marks).2 = true → unmarked (g.nullableSweep ids marks).1 < unmarked marks) := by
  induction ids generalizing marks with
  | nil => exact ⟨Nat.le_refl _, nofun⟩
  | cons id ids ih =>
    unfold nullableSweep
    split
    · next follows =>
      rw [Bool.and_eq_true, Bool.not_eq_true'] at follows
      have fewer := Nat.lt_of_le_of_lt (ih (marks.setIfInBounds id true)).1 (unmarked_set follows.1)
      exact ⟨Nat.le_of_lt fewer, fun _ => fewer⟩
    · exact ih marks

/-! ## All sweeps -/

/-- All sweeps together mark only what is nullable. -/
theorem nullableFrom_right {ids : List NodeId} {fuel : Nat} {marks : Array Bool}
    (right : ∀ id, Marked marks id → g.Nullable id) :
    ∀ id, Marked (g.nullableFrom ids fuel marks) id → g.Nullable id := by
  induction fuel generalizing marks with
  | zero => exact right
  | succ fuel ih =>
    have swept := nullableSweep_right ids right
    unfold nullableFrom
    split
    · next step =>
      rw [step] at swept
      exact ih swept
    · next step =>
      rw [step] at swept
      exact swept

/-- With more sweeps than marks to set, the last one sets none. -/
theorem nullableFrom_closed {ids : List NodeId} {fuel : Nat} {marks : Array Bool}
    (enough : unmarked marks < fuel) (inside : ∀ id ∈ ids, id < marks.size) :
    ∀ id ∈ ids, (g.kind id).nullableGiven ((g.nullableFrom ids fuel marks).getD · false) = true →
      Marked (g.nullableFrom ids fuel marks) id := by
  induction fuel generalizing marks with
  | zero => cases enough
  | succ fuel ih =>
    have fewer := (unmarked_nullableSweep g ids marks).2
    have size := size_nullableSweep g ids marks
    unfold nullableFrom
    split
    · next step =>
      rw [step] at fewer size
      exact ih (Nat.lt_of_lt_of_le (fewer rfl) (Nat.le_of_lt_succ enough)) fun id mem =>
        size ▸ inside id mem
    · next step =>
      have still := nullableSweep_still g ids marks (by rw [step])
      rw [step] at still
      obtain ⟨rfl, settled⟩ := still
      intro id mem follows
      have set := settled id mem follows
      unfold Marked
      rw [Array.getD_eq_getD_getElem?, Array.getElem?_eq_getElem (inside id mem)] at set ⊢
      exact set

/-- **What is marked is nullable.** -/
theorem nullable_right {ids : List NodeId} {id : NodeId} (marked : Marked (g.nullable ids) id) :
    g.Nullable id := by
  refine nullableFrom_right (fun id marked => ?_) id marked
  by_cases inside : id < g.size
  · simp [Marked, inside] at marked
  · simp [Marked, inside] at marked

/-- At the end no rule asks for a further mark. -/
theorem nullable_closed {ids : List NodeId} (inside : ∀ id ∈ ids, id < g.size) :
    ∀ id ∈ ids, (g.kind id).nullableGiven ((g.nullable ids).getD · false) = true →
      Marked (g.nullable ids) id := by
  refine nullableFrom_closed ?_ fun id mem => Array.size_replicate ▸ inside id mem
  unfold unmarked
  rw [Array.toList_replicate, List.count_replicate_self]
  exact Nat.lt_succ_self _

/-- Nothing is nullable outside the table. -/
theorem Nullable.lt_size {id : NodeId} (nullable : g.Nullable id) : id < g.size := by
  refine Nat.not_le.mp fun outside => ?_
  have empty := kind_of_size_le outside
  cases nullable with
  | choice kind mem _ =>
    rw [empty, Kind.choice.injEq] at kind
    exact List.not_mem_nil (kind ▸ mem)
  | _ kind => cases empty.symm.trans kind

/-- **The marks are the least fixed point**, on nodes whose children in the table are listed with them. -/
theorem nullable_iff {ids : List NodeId} (inside : ∀ id ∈ ids, id < g.size)
    (descends : ∀ a ∈ ids, ∀ b, g.Edge a b → b < g.size → b ∈ ids) {id : NodeId} (mem : id ∈ ids) :
    Marked (g.nullable ids) id ↔ g.Nullable id := by
  refine ⟨nullable_right, fun nullable => ?_⟩
  have edge : ∀ {a : NodeId} {kind : Kind}, g.kind a = kind → ∀ b ∈ kind.children, g.Edge a b :=
    fun same b mem => by rw [Edge, children, same]; exact mem
  induction nullable with
  | literal kind => exact nullable_closed inside _ mem (by rw [kind]; rfl)
  | sequence kind all ih =>
    refine nullable_closed inside _ mem ?_
    rw [kind]
    exact List.all_eq_true.mpr fun part listed =>
      ih part listed (descends _ mem part (edge kind part listed) (all part listed).lt_size)
  | choice kind listed one ih =>
    refine nullable_closed inside _ mem ?_
    rw [kind]
    exact List.any_eq_true.mpr ⟨_, listed, ih (descends _ mem _ (edge kind _ listed) one.lt_size)⟩
  | repetition kind once ih =>
    refine nullable_closed inside _ mem ?_
    rw [kind]
    exact ih (descends _ mem _ (edge kind _ List.mem_cons_self) once.lt_size)
  | optional kind => exact nullable_closed inside _ mem (by rw [kind]; rfl)
  | negation kind => exact nullable_closed inside _ mem (by rw [kind]; rfl)
  | endOfInput kind => exact nullable_closed inside _ mem (by rw [kind]; rfl)

end BnfTokenizer.Grammar
