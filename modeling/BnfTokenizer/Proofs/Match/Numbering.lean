import BnfTokenizer.Match.Transcript
import BnfTokenizer.Proofs.Grammar.Defects
import BnfTokenizer.Proofs.Match.Lockstep
import BnfTokenizer.Proofs.Match.Termination

/-!
# Addresses do not matter

What a root reaches is listed in the order of the search, and the listing puts the place in the list for each
address. Grammars with the same listing are twins: nodes in the same place correspond. So the check finds the
same defect in both, and matching from the roots goes the same way in both, down to the lines of a transcript.
The trees differ in the addresses of the grammar nodes only, and these stand in the same place
(`matchAt_renumbered`).

No node that a root does not reach has a say in this.
-/

namespace BnfTokenizer

namespace Grammar

variable {g h : Grammar} {root root' : NodeId}

/-- A root inside the table that reaches nothing outside. -/
structure Whole (g : Grammar) (root : NodeId) : Prop where
  inside : root < g.size
  below : ∀ a ∈ g.reachable root, ∀ b, g.Edge a b → b < g.size

theorem Closed.whole (closed : g.Closed) (inside : root < g.size) : g.Whole root :=
  ⟨inside, fun _ _ _ edge => closed.lt_size edge⟩

theorem Whole.descends (whole : g.Whole root) {a b : NodeId} (mem : a ∈ g.reachable root) (edge : g.Edge a b) :
    b ∈ g.reachable root :=
  ((walk_search g _ root ()).descends mem edge).resolve_left (not_seen_replicate (whole.below a mem b edge))

theorem getElem?_zero_reachable (inside : root < g.size) : (g.reachable root)[0]? = some root := by
  have search := walk_search g (fun _ _ => ()) root ()
  unfold reachable
  generalize g.walk (fun _ _ => ()) root () = visits at search
  cases search with
  | skip again _ => exact absurd again (not_seen_replicate inside)
  | visit _ _ => rfl

/-- Nodes that stand in the same place in what two roots reach. -/
def SamePlace (g h : Grammar) (root root' : NodeId) (a b : NodeId) : Prop :=
  ∃ i : Nat, (g.reachable root)[i]? = some a ∧ (h.reachable root')[i]? = some b

section

variable {a b : NodeId}

theorem SamePlace.symm (same : SamePlace g h root root' a b) : SamePlace h g root' root b a := by
  obtain ⟨i, left, right⟩ := same
  exact ⟨i, right, left⟩

theorem SamePlace.mem (same : SamePlace g h root root' a b) : a ∈ g.reachable root ∧ b ∈ h.reachable root' := by
  obtain ⟨i, left, right⟩ := same
  exact ⟨List.mem_of_getElem? left, List.mem_of_getElem? right⟩

theorem samePlace_of_idxOf (mem : a ∈ g.reachable root) (mem' : b ∈ h.reachable root')
    (same : (g.reachable root).idxOf a = (h.reachable root').idxOf b) : SamePlace g h root root' a b :=
  ⟨_, List.getElem?_idxOf mem, by rw [same]; exact List.getElem?_idxOf mem'⟩

/-- No node stands in two places. -/
theorem SamePlace.left_unique {a' : NodeId} (first : SamePlace g h root root' a b)
    (second : SamePlace g h root root' a' b) : a = a' := by
  obtain ⟨i, left, right⟩ := first
  obtain ⟨j, left', right'⟩ := second
  have within := (List.getElem?_eq_some_iff.mp right).1
  have same : i = j := (List.getElem?_inj within (nodup_reachable h root')).mp (right.trans right'.symm)
  rw [same] at left
  exact Option.some.inj (left.symm.trans left')

end

theorem forall₂_of_map_eq {R : NodeId → NodeId → Prop} {f f' : NodeId → NodeId} {ids ids' : List NodeId}
    (related : ∀ a ∈ ids, ∀ b ∈ ids', f a = f' b → R a b) (same : ids.map f = ids'.map f') :
    List.Forall₂ R ids ids' := by
  induction ids generalizing ids' with
  | nil =>
    cases ids' with
    | nil => exact .nil
    | cons => cases same
  | cons a ids ih =>
    cases ids' with
    | nil => cases same
    | cons b ids' =>
      obtain ⟨head, tail⟩ := List.cons.inj same
      refine .cons (related a List.mem_cons_self b List.mem_cons_self head) (ih ?_ tail)
      exact fun a mem b mem' => related a (List.mem_cons_of_mem _ mem) b (List.mem_cons_of_mem _ mem')

/-- Kinds that become the same when something takes the place of their children. -/
theorem Kind.like_of_mapChildren_eq {R : NodeId → NodeId → Prop} {f f' : NodeId → NodeId} {kind kind' : Kind}
    (related : ∀ a ∈ kind.children, ∀ b ∈ kind'.children, f a = f' b → R a b)
    (same : kind.mapChildren f = kind'.mapChildren f') : Kind.Like R kind kind' := by
  have children : List.Forall₂ R kind.children kind'.children := by
    refine forall₂_of_map_eq related ?_
    rw [← Kind.children_mapChildren, ← Kind.children_mapChildren, same]
  cases kind with
  | sequence ids =>
    cases kind' with
    | sequence ids' => exact .sequence children
    | _ => cases same
  | choice ids =>
    cases kind' with
    | choice ids' => exact .choice children
    | _ => cases same
  | repetition id =>
    cases kind' with
    | repetition id' => exact .repetition (List.forall₂_cons.mp children).1
    | _ => cases same
  | optional id =>
    cases kind' with
    | optional id' => exact .optional (List.forall₂_cons.mp children).1
    | _ => cases same
  | negation id =>
    cases kind' with
    | negation id' => exact .negation (List.forall₂_cons.mp children).1
    | _ => cases same
  | _ =>
    cases kind' <;> cases same
    exact .leaf rfl

/-- **Grammars with the same listing are twins**, node by node in the same place. -/
theorem twins_of_listing (whole : g.Whole root) (whole' : h.Whole root') (same : g.listing root = h.listing root') :
    Twins g h (SamePlace g h root root') := by
  have row : ∀ {a b}, SamePlace g h root root' a b → g.name a = h.name b ∧
      (g.kind a).mapChildren (g.reachable root).idxOf = (h.kind b).mapChildren (h.reachable root').idxOf := by
    rintro a b ⟨i, left, right⟩
    have here := congrArg (·[i]?) same
    simp only [listing, List.getElem?_map, left, right, Option.map_some, Option.some.injEq, Node.mk.injEq] at here
    exact here
  exact {
    inside := fun related => ⟨lt_size_of_mem_reachable related.mem.1, lt_size_of_mem_reachable related.mem.2⟩
    name := fun related => (row related).1
    kind := fun related => Kind.like_of_mapChildren_eq (fun a edge b edge' =>
      samePlace_of_idxOf (whole.descends related.mem.1 edge) (whole'.descends related.mem.2 edge')) (row related).2
    left := SamePlace.left_unique
    right := fun first second => SamePlace.left_unique first.symm second.symm }

end Grammar

namespace Match

open Grammar (Twins Whole SamePlace)

section

variable {g h : Grammar} {R : NodeId → NodeId → Prop} {a b : NodeId}

/-- Twins are shown alike in a transcript. -/
theorem TranscriptStyle.shows_eq (twins : Twins g h R) (related : R a b) (s : TranscriptStyle) :
    { s with grammar := g }.shows a = { s with grammar := h }.shows b := by
  unfold TranscriptStyle.shows
  dsimp only
  rw [twins.name related]

/-- Twins are called the same in a transcript. -/
theorem TranscriptStyle.label_eq (twins : Twins g h R) (related : R a b) (s : TranscriptStyle) :
    { s with grammar := g }.label a = { s with grammar := h }.label b := by
  have like := twins.kind related
  unfold TranscriptStyle.label
  dsimp only
  rw [twins.name related]
  generalize g.kind a = kind at like
  generalize h.kind b = kind' at like
  cases h.name b with
  | some name => rfl
  | none => cases like <;> rfl

theorem Transcript.record_follows (twins : Twins g h R) (s : TranscriptStyle) :
    Follows R Eq (Transcript.record { s with grammar := g }) (Transcript.record { s with grammar := h }) := by
  refine ⟨fun {e e'} like {t t'} same => ?_⟩
  subst same
  cases like with
  | enter related position =>
    unfold Transcript.record
    dsimp only
    rw [TranscriptStyle.shows_eq twins related s, TranscriptStyle.label_eq twins related s]
    rfl
  | success related start stop => rfl
  | failure related position => rfl
  | backtrack related position =>
    unfold Transcript.record
    dsimp only
    rw [TranscriptStyle.label_eq twins related s]

end

/-- **Addresses do not matter.** From roots with the same listing, the check finds the same defect; and at every
place of every input and under all limits, a match ends in the same way and with the same lines in a
transcript, and where it finds a tree, the grammar nodes in it stand in the same places. -/
theorem matchAt_renumbered (g h : Grammar) (root root' : NodeId) (whole : g.Whole root) (whole' : h.Whole root')
    (same : g.listing root = h.listing root') :
    g.defect? root = h.defect? root' ∧ ∀ (input : String) (offset : Nat) (limits : Limits),
      Outcome.Like (SamePlace g h root root') (matchAt g root input offset limits) (matchAt h root' input offset limits) ∧
        ∀ (s : TranscriptStyle) (t : Transcript),
          (traceAt g root input offset limits (Transcript.record { s with grammar := g }) t).2 =
            (traceAt h root' input offset limits (Transcript.record { s with grammar := h }) t).2 := by
  have twins := Grammar.twins_of_listing whole whole' same
  have start : SamePlace g h root root' root root' :=
    ⟨0, Grammar.getElem?_zero_reachable whole.inside, Grammar.getElem?_zero_reachable whole'.inside⟩
  refine ⟨twins.defect?_eq start, fun input offset limits => ⟨?_, fun s t => ?_⟩⟩
  · have untold : Follows (SamePlace g h root root') (fun (_ _ : Unit) => True) .silent .silent :=
      ⟨fun _ _ _ _ => trivial⟩
    exact (traceAt_together twins.mirrors untold start input offset limits (s := ()) (t := ()) trivial).1
  · exact (traceAt_together twins.mirrors (Transcript.record_follows twins s) start input offset limits rfl).2

/-- Brackets in brackets, written down from the root on, with a placeholder that nothing leads to. -/
def rotated : Grammar :=
  ⟨#[⟨some "brackets", .sequence [4, 1, 2]⟩, ⟨none, .optional 0⟩, ⟨none, .literal [')']⟩,
    ⟨some "unused", .reference "missing"⟩, ⟨none, .literal ['(']⟩]⟩

/-- The same brackets, with other addresses and one node more. -/
theorem brackets_rotated :
    (brackets.Whole 3 ∧ rotated.Whole 0 ∧ brackets.listing 3 = rotated.listing 0) ∧
      brackets.defect? 3 = rotated.defect? 0 ∧
      Outcome.Like (SamePlace brackets rotated 3 0) (matchAt brackets 3 "(())" 0 {}) (matchAt rotated 0 "(())" 0 {}) := by
  have whole : brackets.Whole 3 := by
    refine Grammar.Closed.whole ?_ (by decide)
    unfold Grammar.Closed
    decide
  have whole' : rotated.Whole 0 := by
    refine Grammar.Closed.whole ?_ (by decide)
    unfold Grammar.Closed
    decide
  have same : brackets.listing 3 = rotated.listing 0 := by rfl
  obtain ⟨defects, ends⟩ := matchAt_renumbered brackets rotated 3 0 whole whole' same
  exact ⟨⟨whole, whole', same⟩, defects, (ends "(())" 0 {}).1⟩

end Match

end BnfTokenizer
