import Mathlib.Order.Bounds.Basic
import Mathlib.Order.BooleanAlgebra.Basic
import BnfTokenizer.Proofs.Grammar.Nullability
import BnfTokenizer.Proofs.Grammar.Preorder

/-!
# The marks solve the equations of the kinds, and least of all

Each kind says when a node can match nothing, in terms of its children. Over some listed nodes this is a system of
equations between marks (`Solves`), and where nodes refer to one another in a circle it has several solutions. Sweeps in
place reach the least of them, whatever is listed and in which order (`isLeast_nullable`).

`Sweeps` says what repeated sweeps give, without fuel, and `nullableFrom_sweeps` that fuel is never what ends them. From
there everything is a fact about a single mark that is set (`Sweeps.keeps`): it follows from the marks before
it, so it follows from more marks too, and it is in every solution that has the marks before it. The equations do not
say in which order the nodes are listed, and a least solution is unique.
-/

namespace BnfTokenizer.Grammar

/-- When a node of a kind can match nothing, if `holds` tells it of the children. -/
def Kind.EmptyGiven (holds : NodeId → Prop) : Kind → Prop
  | literal text => text = []
  | sequence parts => ∀ part ∈ parts, holds part
  | choice alternatives => ∃ alternative ∈ alternatives, holds alternative
  | repetition child => holds child
  | optional _ | negation _ | endOfInput => True
  | charSet .. | charRange .. | reference _ => False

/-- Marks that obey the kinds of the listed nodes, and are set nowhere else. -/
def Solves (g : Grammar) (ids : List NodeId) (marks : NodeId → Bool) : Prop :=
  (∀ id ∈ ids, marks id = true ↔ (g.kind id).EmptyGiven fun child => marks child = true) ∧
    ∀ id, id ∉ ids → marks id = false

/-- What sweeps over some nodes make of some marks, one sweep after another until one sets no mark. -/
inductive Sweeps (g : Grammar) (ids : List NodeId) : Array Bool → Array Bool → Prop
  | still {marks} (none : (g.nullableSweep ids marks).2 = false) : Sweeps g ids marks (g.nullableSweep ids marks).1
  | again {marks last} (some : (g.nullableSweep ids marks).2 = true)
      (rest : Sweeps g ids (g.nullableSweep ids marks).1 last) : Sweeps g ids marks last

/-- The marks of an array, one for each address. -/
def marksOf (marks : Array Bool) (id : NodeId) : Bool :=
  marks.getD id false

/-- What holds of some marks also holds with one mark more, on a listed node for which it follows from the marks
before. -/
def KeptByMarks (g : Grammar) (ids : List NodeId) (P : Array Bool → Prop) : Prop :=
  ∀ ⦃marks id⦄, id ∈ ids → id < marks.size → (g.kind id).nullableGiven (marksOf marks) = true → P marks →
    P (marks.setIfInBounds id true)

/-- Every mark is on a listed node, and follows from the marks there are. -/
def Supported (g : Grammar) (ids : List NodeId) (marks : Array Bool) : Prop :=
  ∀ id, marksOf marks id = true → id ∈ ids ∧ (g.kind id).nullableGiven (marksOf marks) = true

section

variable {g : Grammar} {ids ids' : List NodeId} {marks last : Array Bool}

theorem Kind.nullableGiven_iff (marks : NodeId → Bool) (kind : Kind) :
    kind.nullableGiven marks = true ↔ kind.EmptyGiven fun child => marks child = true := by
  cases kind with
  | literal text => exact List.isEmpty_iff
  | sequence parts => exact List.all_eq_true
  | choice alternatives => exact List.any_eq_true
  | repetition child => exact Iff.rfl
  | optional _ | negation _ | endOfInput => exact iff_of_true rfl trivial
  | charSet | charRange | reference => exact iff_of_false nofun id

/-! ## Sweeps without fuel -/

/-- **Fuel does not end the sweeps**: each but the last sets a mark, and there are no more marks to set than nodes. -/
theorem nullableFrom_sweeps {fuel : Nat} (enough : unmarked marks < fuel) :
    Sweeps g ids marks (g.nullableFrom ids fuel marks) := by
  induction fuel generalizing marks with
  | zero => cases enough
  | succ fuel ih =>
    have fewer := (unmarked_nullableSweep g ids marks).2
    unfold nullableFrom
    split
    · next step =>
      have some : (g.nullableSweep ids marks).2 = true := by rw [step]
      refine .again some ?_
      rw [step] at fewer ⊢
      exact ih (Nat.lt_of_lt_of_le (fewer rfl) (Nat.le_of_lt_succ enough))
    · next step =>
      have none : (g.nullableSweep ids marks).2 = false := by rw [step]
      have swept := Sweeps.still none
      rwa [step] at swept

theorem nullable_sweeps (g : Grammar) (ids : List NodeId) :
    Sweeps g ids (Array.replicate g.size false) (g.nullable ids) := by
  refine nullableFrom_sweeps ?_
  unfold unmarked
  rw [Array.toList_replicate, List.count_replicate_self]
  exact Nat.lt_succ_self _

theorem nullableSweep_keeps {P : Array Bool → Prop} (kept : g.KeptByMarks ids P) (listed : ids' ⊆ ids)
    (start : P marks) : P (g.nullableSweep ids' marks).1 := by
  induction ids' generalizing marks with
  | nil => exact start
  | cons id ids' ih =>
    obtain ⟨mem, others⟩ := List.cons_subset.mp listed
    unfold nullableSweep
    split
    · next follows =>
      rw [Bool.and_eq_true, Bool.not_eq_true'] at follows
      exact ih others (kept mem (lt_size_of_not_marked follows.1) follows.2 start)
    · exact ih others start

/-- What single marks keep, all sweeps keep. -/
theorem Sweeps.keeps {P : Array Bool → Prop} (sweeps : Sweeps g ids marks last) (kept : g.KeptByMarks ids P)
    (start : P marks) : P last := by
  induction sweeps with
  | still => exact nullableSweep_keeps kept (List.Subset.refl ids) start
  | again _ _ ih => exact ih (nullableSweep_keeps kept (List.Subset.refl ids) start)

/-! ## The equations -/

/-- Behind the last sweep nothing follows any more that is not marked. -/
theorem Sweeps.settled (sweeps : Sweeps g ids marks last) :
    ∀ id ∈ ids, (g.kind id).nullableGiven (marksOf last) = true → last.getD id true = true := by
  induction sweeps with
  | @still marks none =>
    obtain ⟨same, settled⟩ := nullableSweep_still g ids marks none
    rw [same]
    exact settled
  | again _ _ ih => exact ih

theorem kept_supported (g : Grammar) (ids : List NodeId) : g.KeptByMarks ids (g.Supported ids) := by
  intro marks id mem inside follows supported
  have more : ∀ child, marksOf marks child = true → marksOf (marks.setIfInBounds id true) child = true :=
    fun child marked => (marked_set inside).mpr (.inr marked)
  intro other marked
  obtain rfl | before := (marked_set inside).mp marked
  · exact ⟨mem, Kind.nullableGiven_mono more _ follows⟩
  · exact ⟨(supported other before).1, Kind.nullableGiven_mono more _ (supported other before).2⟩

/-- No mark is set that a solution does not have. -/
theorem kept_below {solution : NodeId → Bool} (solves : g.Solves ids solution) :
    g.KeptByMarks ids fun marks => ∀ id, marksOf marks id = true → solution id = true := by
  intro marks id mem inside follows below other marked
  obtain rfl | before := (marked_set inside).mp marked
  · exact (solves.1 other mem).mpr ((Kind.nullableGiven_iff ..).mp (Kind.nullableGiven_mono below _ follows))
  · exact below other before

theorem kept_size (g : Grammar) (ids : List NodeId) (n : Nat) : g.KeptByMarks ids fun marks => marks.size = n :=
  fun _ _ _ _ _ size => (Array.size_setIfInBounds ..).trans size

theorem not_marked_replicate (n : Nat) (id : NodeId) : marksOf (Array.replicate n false) id ≠ true := by
  by_cases inside : id < n
  · simp [marksOf, inside]
  · simp [marksOf, inside]

theorem size_nullable (g : Grammar) (ids : List NodeId) : (g.nullable ids).size = g.size :=
  (nullable_sweeps g ids).keeps (kept_size g ids g.size) Array.size_replicate

/-- Outside the table no node follows, whatever is listed. -/
theorem lt_size_of_nullableGiven {marks : NodeId → Bool} {id : NodeId}
    (follows : (g.kind id).nullableGiven marks = true) : id < g.size := by
  refine Nat.not_le.mp fun outside => ?_
  rw [kind_of_size_le outside] at follows
  cases follows

theorem solves_nullable (g : Grammar) (ids : List NodeId) : g.Solves ids (marksOf (g.nullable ids)) := by
  have sweeps := nullable_sweeps g ids
  have supported := sweeps.keeps (kept_supported g ids) fun id marked => absurd marked (not_marked_replicate g.size id)
  refine ⟨fun id mem => ?_, fun id absent => ?_⟩
  · rw [← Kind.nullableGiven_iff]
    refine ⟨fun marked => (supported id marked).2, fun follows => ?_⟩
    -- The list may have addresses behind the table, where no mark can be set: nothing follows there either.
    have inside : id < (g.nullable ids).size := size_nullable g ids ▸ lt_size_of_nullableGiven follows
    have set := sweeps.settled id mem follows
    rw [marksOf, Array.getD_eq_getD_getElem?, Array.getElem?_eq_getElem inside] at *
    exact set
  · exact Bool.eq_false_iff.mpr fun marked => absent (supported id marked).1

/-- **The marks are the least solution of the equations.** -/
theorem isLeast_nullable (g : Grammar) (ids : List NodeId) :
    IsLeast {marks | g.Solves ids marks} (marksOf (g.nullable ids)) := by
  refine ⟨solves_nullable g ids, fun solution solves id => Bool.le_iff_imp.mpr ?_⟩
  exact (nullable_sweeps g ids).keeps (kept_below solves)
    (fun other marked => absurd marked (not_marked_replicate g.size other)) id

/-- The equations do not depend on the order of the nodes. -/
theorem solves_iff_of_perm (perm : ids.Perm ids') {marks : NodeId → Bool} :
    g.Solves ids marks ↔ g.Solves ids' marks := by
  simp only [Solves, perm.mem_iff]

theorem ext_marksOf {other : Array Bool} (size : marks.size = other.size) (same : marksOf marks = marksOf other) :
    marks = other := by
  refine Array.ext size fun id left right => ?_
  have here := congrFun same id
  rwa [marksOf, marksOf, Array.getD_eq_getD_getElem?, Array.getD_eq_getD_getElem?, Array.getElem?_eq_getElem left,
    Array.getElem?_eq_getElem right] at here

theorem nullable_perm (g : Grammar) (perm : ids.Perm ids') : g.nullable ids = g.nullable ids' := by
  refine ext_marksOf ((size_nullable g ids).trans (size_nullable g ids').symm) ?_
  have least := isLeast_nullable g ids
  simp only [solves_iff_of_perm perm] at least
  exact least.unique (isLeast_nullable g ids')

end

/-- **The nodes that can match nothing are a least fixed point.** From every root of every grammar the search and then
the sweeps come to their end, and the marks are the least assignment that obeys the kinds of the nodes the root reaches
and is false elsewhere. Whatever nodes are listed for the sweeps, the marks are the same in every order of the list. -/
theorem nullable_least (g : Grammar) (root : NodeId) :
    g.SearchLists root (g.reachable root) ∧
      Sweeps g (g.reachable root) (Array.replicate g.size false) (g.nullable (g.reachable root)) ∧
      IsLeast {marks | g.Solves (g.reachable root) marks} (marksOf (g.nullable (g.reachable root))) ∧
      ∀ ids ids', ids.Perm ids' → g.nullable ids = g.nullable ids' :=
  ⟨searchLists_reachable g root, nullable_sweeps g _, isLeast_nullable g _, fun _ _ perm => nullable_perm g perm⟩

/-- A choice that goes round through itself, and behind it an option that is repeated. -/
def swirl : Grammar :=
  ⟨#[⟨none, .choice [1, 2]⟩, ⟨none, .sequence [0]⟩, ⟨none, .literal ['a']⟩, ⟨none, .repetition 4⟩, ⟨none, .optional 2⟩,
    ⟨none, .sequence [0, 3]⟩]⟩

/-- The choice and the sequence in it could both be marked, and the root with them: that solves the equations too. The
sweeps mark the option and the repetition only, forwards and backwards. -/
theorem swirl_least :
    swirl.Solves (swirl.reachable 5) (fun id => [0, 1, 3, 4, 5].contains id) ∧
      swirl.nullable (swirl.reachable 5) = #[false, false, false, true, true, false] ∧
      (∀ id, marksOf (swirl.nullable (swirl.reachable 5)) id ≤ [0, 1, 3, 4, 5].contains id) ∧
      (swirl.reachable 5).reverse.Perm (swirl.reachable 5) ∧
      swirl.nullable (swirl.reachable 5).reverse = #[false, false, false, true, true, false] := by
  have listed : swirl.reachable 5 = [5, 0, 1, 2, 3, 4] := by rfl
  have marks : swirl.nullable (swirl.reachable 5) = #[false, false, false, true, true, false] := by rfl
  have perm := List.reverse_perm (swirl.reachable 5)
  have solves : swirl.Solves (swirl.reachable 5) (fun id => [0, 1, 3, 4, 5].contains id) := by
    rw [listed]
    refine ⟨?_, fun id absent => ?_⟩
    · simp only [← Kind.nullableGiven_iff]
      decide
    · simp only [List.mem_cons, not_or] at absent
      simp [absent]
  obtain ⟨_, _, least, orders⟩ := nullable_least swirl 5
  exact ⟨solves, marks, least.2 solves, perm, (orders _ _ perm).trans marks⟩

end BnfTokenizer.Grammar
