import BnfTokenizer.Match.Run
import BnfTokenizer.Proofs.Grammar.Twins
import BnfTokenizer.Proofs.Match.Layout

/-!
# Two matches side by side

Two matches of related nodes, in one grammar or in two, take the same steps: they visit related nodes at the
same places, come to the same verdicts, and leave tables that differ in the grammar nodes only
(`visit_together`). What their tracers gather may differ in any way that the tracers keep.

With one grammar on both sides this says that a tracer cannot steer a match: whatever it gathers, it gathers
from the events of the match, and these are the same for all (`traceAt_eq_events`).
-/

namespace BnfTokenizer

/-! ## Related grammars -/

namespace Grammar

variable {g h : Grammar} {R : NodeId → NodeId → Prop}

/-- Related nodes have the same name and the same kind, and their children are related in order. -/
structure Mirrors (g h : Grammar) (R : NodeId → NodeId → Prop) : Prop where
  name : ∀ {a b}, R a b → g.name a = h.name b
  kind : ∀ {a b}, R a b → Kind.Like R (g.kind a) (h.kind b)

theorem Twins.mirrors (twins : Twins g h R) : Mirrors g h R :=
  ⟨twins.name, twins.kind⟩

theorem Kind.Like.refl (kind : Kind) : Kind.Like Eq kind kind := by
  cases kind with
  | sequence ids => exact .sequence (List.forall₂_refl ids)
  | choice ids => exact .choice (List.forall₂_refl ids)
  | repetition id => exact .repetition rfl
  | optional id => exact .optional rfl
  | negation id => exact .negation rfl
  | _ => exact .leaf rfl

theorem Mirrors.refl (g : Grammar) : Mirrors g g Eq where
  name := congrArg g.name
  kind same := same ▸ .refl _

end Grammar

/-! ## Related tables -/

namespace ParseTree

variable {R : NodeId → NodeId → Prop}

/-- The same node of a tree, but for the grammar node that it was matched by. -/
structure Node.Like (R : NodeId → NodeId → Prop) (n m : Node) : Prop where
  origin : R n.origin m.origin
  same : m = { n with origin := m.origin }

/-- Tables with the same nodes, but for the grammar nodes that these were matched by. -/
def Builder.Like (R : NodeId → NodeId → Prop) (b c : Builder) : Prop :=
  List.Forall₂ (Node.Like R) b.rows c.rows

theorem Builder.Like.refl (b : Builder) : Builder.Like Eq b b :=
  List.forall₂_same.mpr fun _ _ => ⟨rfl, rfl⟩

theorem Builder.Like.size {b c : Builder} (like : Builder.Like R b c) : b.size = c.size := by
  rw [← b.length_rows, ← c.length_rows]
  exact like.length_eq

theorem forall₂_modify {α β : Type} {S : α → β → Prop} {f : α → α} {f' : β → β} (keeps : ∀ a b, S a b → S (f a) (f' b))
    {as : List α} {bs : List β} (all : List.Forall₂ S as bs) (i : Nat) :
    List.Forall₂ S (as.modify i f) (bs.modify i f') := by
  induction all generalizing i with
  | nil => cases i <;> exact .nil
  | cons head tail ih =>
    cases i with
    | zero => exact .cons (keeps _ _ head) tail
    | succ i => exact .cons head (ih i)

theorem forall₂_foldl_modify {α β : Type} {S : α → β → Prop} {f : α → α} {f' : β → β}
    (keeps : ∀ a b, S a b → S (f a) (f' b)) (refs : List Ref) {as : List α} {bs : List β}
    (all : List.Forall₂ S as bs) :
    List.Forall₂ S (refs.foldl (fun rows r => rows.modify r f) as)
      (refs.foldl (fun rows r => rows.modify r f') bs) := by
  induction refs generalizing as bs with
  | nil => exact all
  | cons r refs ih => exact ih (forall₂_modify keeps all r)

theorem Builder.Like.truncate {b c : Builder} (like : Builder.Like R b c) (size : Nat) :
    Builder.Like R (b.truncate size) (c.truncate size) := by
  unfold Builder.Like
  rw [Builder.rows_truncate, Builder.rows_truncate]
  exact List.forall₂_take size like

theorem Builder.Like.inheritName {b c : Builder} (like : Builder.Like R b c) (r : Ref) (name : Option String) :
    Builder.Like R (b.inheritName r name) (c.inheritName r name) := by
  unfold Builder.Like Builder.rows Builder.inheritName
  rw [Array.toList_modify, Array.toList_modify]
  refine forall₂_modify (fun n m same => ⟨same.origin, ?_⟩) like r
  rw [same.same]

theorem Builder.Like.interior {b c : Builder} (like : Builder.Like R b c) {origin origin' : NodeId}
    (related : R origin origin') (name : Option String) (span : Span) (children : List Ref) :
    Builder.Like R (b.interior origin name span children) (c.interior origin' name span children) := by
  have adopted := forall₂_foldl_modify (fun n m (same : Node.Like R n m) =>
    (⟨same.origin, by rw [same.same]⟩ : Node.Like R { n with parent := some b.size } { m with parent := some b.size }))
    children like
  unfold Builder.Like Builder.rows Builder.interior
  rw [Array.toList_push, Array.toList_push, Builder.toList_foldl_modify, Builder.toList_foldl_modify, ← like.size]
  exact List.rel_append adopted (.cons ⟨related, rfl⟩ .nil)

theorem Builder.eq_of_like {b c : Builder} (like : Builder.Like Eq b c) : b = c := by
  refine Builder.ext_rows (List.forall₂_eq_eq_eq ▸ like.imp fun n m same => ?_)
  rw [same.same, ← same.origin]

end ParseTree

namespace Match

open ParseTree (Ref)
open Grammar (Kind Mirrors)

/-! ## Related matches -/

/-- The same event at related nodes. -/
inductive Event.Like (R : NodeId → NodeId → Prop) : Event → Event → Prop
  | enter {a b} (related : R a b) (position : Nat) : Like R (.enter a position) (.enter b position)
  | success {a b} (related : R a b) (start stop : Nat) : Like R (.success a start stop) (.success b start stop)
  | failure {a b} (related : R a b) (position : Nat) : Like R (.failure a position) (.failure b position)
  | backtrack {a b} (related : R a b) (position : Nat) : Like R (.backtrack a position) (.backtrack b position)

section

variable {σ τ : Type} {g h : Grammar} {R : NodeId → NodeId → Prop} {T : σ → τ → Prop} {tracer : Tracer σ}
  {tracer' : Tracer τ}

/-- Two tracers keep what relates that which they have gathered. -/
structure Follows (R : NodeId → NodeId → Prop) (T : σ → τ → Prop) (tracer : Tracer σ) (tracer' : Tracer τ) : Prop where
  gathers : ∀ {e e'}, Event.Like R e e' → ∀ {s t}, T s t → T (tracer e s) (tracer' e' t)

/-- The same progress, but for the grammar nodes in the table and what was gathered. -/
structure Progress.Like (R : NodeId → NodeId → Prop) (T : σ → τ → Prop) (p : Progress σ) (q : Progress τ) : Prop where
  fuel : p.fuel = q.fuel
  furthest : p.furthest = q.furthest
  nodes : p.nodes.Like R q.nodes
  trace : T p.trace q.trace

/-- Two attempts that came to the same verdict and to the same progress. -/
structure Together {α : Type} (R : NodeId → NodeId → Prop) (T : σ → τ → Prop) (a : Verdict α × Progress σ)
    (b : Verdict α × Progress τ) : Prop where
  verdict : a.1 = b.1
  progress : a.2.Like R T b.2

/-- Two ways to visit that stay together at related nodes. -/
def Visit.Together (R : NodeId → NodeId → Prop) (T : σ → τ → Prop) (visit : Visit σ) (visit' : Visit τ) : Prop :=
  ∀ {a b}, R a b → ∀ (here : Cursor) {p q}, p.Like R T q → Match.Together R T (visit a here p) (visit' b here q)

variable {a b : NodeId} {p : Progress σ} {q : Progress τ}

theorem Progress.Like.record (like : p.Like R T q) (follows : Follows R T tracer tracer') {e e' : Event}
    (same : Event.Like R e e') : (p.record tracer e).Like R T (q.record tracer' e') :=
  ⟨like.fuel, like.furthest, like.nodes, follows.gathers same like.trace⟩

theorem Progress.Like.truncate (like : p.Like R T q) (size : Nat) : (p.truncate size).Like R T (q.truncate size) :=
  ⟨like.fuel, like.furthest, like.nodes.truncate size, like.trace⟩

theorem interior_together (mirrors : Mirrors g h R) (related : R a b) (like : p.Like R T q) (here stop : Cursor)
    (children : List Ref) : Together R T (p.interior g a here stop children) (q.interior h b here stop children) := by
  refine ⟨?_, like.fuel, like.furthest, ?_, like.trace⟩
  · exact congrArg (fun r => Verdict.matched (r, stop)) like.nodes.size
  · dsimp only [Progress.interior]
    rw [mirrors.name related]
    exact like.nodes.interior related _ _ _

theorem terminal_together (mirrors : Mirrors g h R) (related : R a b) (like : p.Like R T q) (lookahead : Nat)
    (here : Cursor) (stop? : Option Cursor) :
    Together R T (p.terminal g a lookahead here stop?) (q.terminal h b lookahead here stop?) := by
  cases stop? with
  | some stop => exact interior_together mirrors related like here stop []
  | none =>
    refine ⟨rfl, ?_⟩
    dsimp only [Progress.terminal, Progress.miss]
    split
    · exact ⟨like.fuel, congrArg (max · here.offset) like.furthest, like.nodes, like.trace⟩
    · exact like

section

variable {visit : Visit σ} {visit' : Visit τ}

theorem inSequence_together (visits : Visit.Together R T visit visit') {ids ids' : List NodeId}
    (all : List.Forall₂ R ids ids') (here : Cursor) (like : p.Like R T q) :
    Together R T (inSequence visit ids here p) (inSequence visit' ids' here q) := by
  induction all generalizing here p q with
  | nil => exact ⟨rfl, like⟩
  | @cons a b ids ids' related _ ih =>
    have head := visits related here like
    unfold inSequence
    generalize visit a here p = first at head
    generalize visit' b here q = second at head
    obtain ⟨verdict, p⟩ := first
    obtain ⟨verdict', q⟩ := second
    obtain ⟨rfl, like⟩ := head
    match verdict with
    | .matched (r, next) =>
      have tail := ih next like
      dsimp only
      generalize inSequence visit ids next p = first at tail
      generalize inSequence visit' ids' next q = second at tail
      obtain ⟨verdict, p⟩ := first
      obtain ⟨verdict', q⟩ := second
      obtain ⟨rfl, like⟩ := tail
      cases verdict <;> exact ⟨rfl, like⟩
    | .failed => exact ⟨rfl, like⟩
    | .stopped fault => exact ⟨rfl, like⟩

theorem firstOf_together (visits : Visit.Together R T visit visit') (follows : Follows R T tracer tracer')
    (related : R a b) (name : Option String) {ids ids' : List NodeId} (all : List.Forall₂ R ids ids') (here : Cursor)
    (like : p.Like R T q) :
    Together R T (firstOf visit tracer a name ids here p) (firstOf visit' tracer' b name ids' here q) := by
  induction all generalizing p q with
  | nil => exact ⟨rfl, like⟩
  | @cons c d ids ids' first rest ih =>
    have head := visits first here like
    unfold firstOf
    generalize visit c here p = one at head
    generalize visit' d here q = other at head
    obtain ⟨verdict, p⟩ := one
    obtain ⟨verdict', q⟩ := other
    obtain ⟨rfl, like⟩ := head
    match verdict with
    | .matched (r, stop) =>
      exact ⟨rfl, like.fuel, like.furthest, like.nodes.inheritName r name, like.trace⟩
    | .failed =>
      cases rest with
      | nil => exact ih like
      | cons => exact ih (like.record follows (.backtrack related here.offset))
    | .stopped fault => exact ⟨rfl, like⟩

theorem greedily_together (visits : Visit.Together R T visit visit') (related : R a b) (rounds : Nat)
    (earlier : List Ref) (here : Cursor) (like : p.Like R T q) :
    Together R T (greedily visit a rounds earlier here p) (greedily visit' b rounds earlier here q) := by
  induction rounds generalizing earlier here p q with
  | zero => exact ⟨rfl, like⟩
  | succ rounds ih =>
    have head := visits related here like
    unfold greedily
    generalize visit a here p = first at head
    generalize visit' b here q = second at head
    obtain ⟨verdict, p⟩ := first
    obtain ⟨verdict', q⟩ := second
    obtain ⟨rfl, like⟩ := head
    match verdict with
    | .matched (r, next) =>
      dsimp only
      split
      · exact ⟨rfl, like⟩
      · exact ih (r :: earlier) next like
    | .failed => exact ⟨rfl, like⟩
    | .stopped fault => exact ⟨rfl, like⟩

end

theorem standing_together (mirrors : Mirrors g h R) (related : R a b) (here : Cursor) {first : Attempts σ}
    {second : Attempts τ} (both : Together R T first second) :
    Together R T (standing g a here first) (standing h b here second) := by
  obtain ⟨verdict, p⟩ := first
  obtain ⟨verdict', q⟩ := second
  obtain ⟨rfl, like⟩ := both
  match verdict with
  | .matched (rs, stop) => exact interior_together mirrors related like here stop rs
  | .failed => exact ⟨rfl, like⟩
  | .stopped fault => exact ⟨rfl, like⟩

/-- Attempts at related nodes stay together, if the visits to their children do. -/
theorem attempt_together (mirrors : Mirrors g h R) (follows : Follows R T tracer tracer') {visit : Nat → Visit σ}
    {visit' : Nat → Visit τ} (visits : ∀ lookahead, Visit.Together R T (visit lookahead) (visit' lookahead))
    (lookahead : Nat) (related : R a b) (here : Cursor) (like : p.Like R T q) :
    Together R T (attempt g tracer visit lookahead a here p) (attempt h tracer' visit' lookahead b here q) := by
  have alike := mirrors.kind related
  unfold attempt
  generalize own : g.kind a = kind at alike
  generalize other : h.kind b = kind' at alike
  cases alike with
  | leaf bare =>
    cases kind with
    | sequence ids =>
      obtain rfl := bare
      exact interior_together mirrors related like here here []
    | choice ids =>
      obtain rfl := bare
      exact ⟨rfl, like⟩
    | repetition child => cases bare
    | optional child => cases bare
    | negation child => cases bare
    | reference rule => exact ⟨rfl, like⟩
    | _ => exact terminal_together mirrors related like lookahead here _
  | sequence all => exact standing_together mirrors related here (inSequence_together (visits lookahead) all here like)
  | choice all =>
    dsimp only
    rw [mirrors.name related]
    exact firstOf_together (visits lookahead) follows related _ all here like
  | repetition child =>
    have more := greedily_together (visits lookahead) child p.fuel [] here like
    dsimp only
    rw [← like.fuel]
    generalize greedily (visit lookahead) _ p.fuel [] here p = first at more
    generalize greedily (visit' lookahead) _ p.fuel [] here q = second at more
    have stands := standing_together mirrors related here more
    obtain ⟨verdict, p⟩ := first
    obtain ⟨verdict', q⟩ := second
    obtain ⟨rfl, like⟩ := more
    -- Both have made the same number of rounds, so both fail or neither.
    match verdict, stands with
    | .matched ([], _), _ => exact ⟨rfl, like⟩
    | .matched (_ :: _, _), stands => exact stands
    | .failed, stands => exact stands
    | .stopped _, stands => exact stands
  | optional child =>
    have only := visits lookahead child here like
    dsimp only
    generalize visit lookahead _ here p = first at only
    generalize visit' lookahead _ here q = second at only
    obtain ⟨verdict, p⟩ := first
    obtain ⟨verdict', q⟩ := second
    obtain ⟨rfl, like⟩ := only
    match verdict with
    | .matched (r, stop) => exact interior_together mirrors related like here stop [r]
    | .failed => exact interior_together mirrors related like here here []
    | .stopped fault => exact ⟨rfl, like⟩
  | negation child =>
    have only := visits (lookahead + 1) child here like
    dsimp only
    rw [like.nodes.size]
    generalize visit (lookahead + 1) _ here p = first at only
    generalize visit' (lookahead + 1) _ here q = second at only
    obtain ⟨verdict, p⟩ := first
    obtain ⟨verdict', q'⟩ := second
    obtain ⟨rfl, like⟩ := only
    match verdict with
    | .matched _ => exact ⟨rfl, like.truncate _⟩
    | .failed => exact interior_together mirrors related (like.truncate _) here here []
    | .stopped fault => exact ⟨rfl, like.truncate _⟩

/-- **Visits to related nodes stay together**, whatever the limits. -/
theorem visit_together (mirrors : Mirrors g h R) (follows : Follows R T tracer tracer') (levels lookahead : Nat) :
    Visit.Together R T (visit g tracer levels lookahead) (visit h tracer' levels lookahead) := by
  induction levels generalizing lookahead with
  | zero =>
    intro a b related here p q like
    unfold visit
    rw [← like.fuel]
    split
    · exact ⟨rfl, like⟩
    · exact ⟨rfl, congrArg (· - 1) like.fuel, like.furthest, like.nodes, like.trace⟩
  | succ levels ih =>
    intro a b related here p q like
    have spent : p.spend.Like R T q.spend :=
      ⟨congrArg (· - 1) like.fuel, like.furthest, like.nodes, like.trace⟩
    unfold visit
    rw [← like.fuel]
    split
    · exact ⟨rfl, like⟩
    · have own := attempt_together mirrors follows ih lookahead related here
        (spent.record follows (.enter related here.offset))
      rw [like.nodes.size]
      generalize attempt g tracer (visit g tracer levels) lookahead a here _ = first at own
      generalize attempt h tracer' (visit h tracer' levels) lookahead b here _ = second at own
      obtain ⟨verdict, p⟩ := first
      obtain ⟨verdict', q'⟩ := second
      obtain ⟨rfl, like⟩ := own
      match verdict with
      | .matched (r, stop) => exact ⟨rfl, like.record follows (.success related here.offset stop.offset)⟩
      | .failed => exact ⟨rfl, (like.truncate _).record follows (.failure related here.offset)⟩
      | .stopped fault => exact ⟨rfl, like⟩

end

/-! ## Whole matches -/

/-- The same tree, but for the grammar nodes that its nodes were matched by. -/
structure TreeLike (R : NodeId → NodeId → Prop) (t u : ParseTree) : Prop where
  source : t.source = u.source
  root : t.root = u.root
  nodes : List.Forall₂ (ParseTree.Node.Like R) t.nodes.toList u.nodes.toList

/-- The same end of a match, but for the grammar nodes in the tree. -/
inductive Outcome.Like (R : NodeId → NodeId → Prop) : Except Fault Outcome → Except Fault Outcome → Prop
  | found {t u} (tree : TreeLike R t u) (stop furthest : Nat) :
      Like R (.ok ⟨some ⟨t, stop⟩, furthest⟩) (.ok ⟨some ⟨u, stop⟩, furthest⟩)
  | failed (furthest : Nat) : Like R (.ok ⟨none, furthest⟩) (.ok ⟨none, furthest⟩)
  | stopped (fault : Fault) : Like R (.error fault) (.error fault)

section

variable {σ τ : Type} {g h : Grammar} {R : NodeId → NodeId → Prop} {T : σ → τ → Prop} {tracer : Tracer σ}
  {tracer' : Tracer τ} {a b : NodeId} {s : σ} {t : τ}

/-- **Matches of related nodes end in the same way**, under the same limits, and what their tracers have
gathered is related. -/
theorem traceAt_together (mirrors : Mirrors g h R) (follows : Follows R T tracer tracer') (related : R a b)
    (input : String) (offset : Nat) (limits : Limits) (start : T s t) :
    Outcome.Like R (traceAt g a input offset limits tracer s).1 (traceAt h b input offset limits tracer' t).1 ∧
      T (traceAt g a input offset limits tracer s).2 (traceAt h b input offset limits tracer' t).2 := by
  unfold traceAt
  split
  · exact ⟨.failed offset, start⟩
  · next here _ =>
    have both := visit_together mirrors follows limits.depth 0 related here
      (⟨rfl, rfl, .nil, start⟩ : (Progress.start limits offset s).Like R T (Progress.start limits offset t))
    dsimp only
    generalize visit g tracer limits.depth 0 a here _ = first at both
    generalize visit h tracer' limits.depth 0 b here _ = second at both
    obtain ⟨verdict, p⟩ := first
    obtain ⟨verdict', q⟩ := second
    obtain ⟨rfl, like⟩ := both
    have furthest : p.furthest = q.furthest := like.furthest
    refine ⟨?_, like.trace⟩
    match verdict with
    | .matched (r, stop) =>
      dsimp only [outcome]
      rw [furthest]
      refine .found ?_ stop.offset q.furthest
      exact ⟨rfl, rfl, like.nodes⟩
    | .failed =>
      dsimp only [outcome]
      rw [furthest]
      exact .failed q.furthest
    | .stopped fault => exact .stopped fault

theorem Outcome.Like.eq {first second : Except Fault Outcome} (like : Outcome.Like Eq first second) :
    first = second := by
  cases like with
  | @found t u tree stop furthest =>
    obtain ⟨source, nodes, root⟩ := t
    obtain ⟨source', nodes', root'⟩ := u
    obtain ⟨rfl, rfl, all⟩ := tree
    have same : (⟨nodes⟩ : ParseTree.Builder) = ⟨nodes'⟩ := ParseTree.Builder.eq_of_like all
    rw [ParseTree.Builder.mk.inj same]
  | failed furthest => rfl
  | stopped fault => rfl

theorem Event.Like.eq {e e' : Event} (like : Event.Like Eq e e') : e = e' := by
  cases like with
  | enter related _ | success related _ _ | failure related _ | backtrack related _ => rw [related]

end

/-! ## What a tracer is told -/

/-- What happens in a match, in order. -/
def events (g : Grammar) (id : NodeId) (input : String) (offset : Nat) (limits : Limits) : List Event :=
  (traceAt g id input offset limits .log []).2.reverse

/-- What a tracer makes of some events. -/
def gatherAll {σ : Type} (tracer : Tracer σ) (gathered : σ) (es : List Event) : σ :=
  es.foldl (fun gathered event => tracer event gathered) gathered

/-- **No tracer steers a match.** The outcome is the same for all tracers, and each is told the same events. -/
theorem traceAt_eq_events {σ : Type} (g : Grammar) (id : NodeId) (input : String) (offset : Nat) (limits : Limits)
    (tracer : Tracer σ) (gathered : σ) :
    traceAt g id input offset limits tracer gathered =
      (matchAt g id input offset limits, gatherAll tracer gathered (events g id input offset limits)) := by
  have untold : Follows Eq (fun (_ : σ) (_ : Unit) => True) tracer .silent := ⟨fun _ _ _ _ => trivial⟩
  have told : Follows Eq (fun (s : σ) es => s = gatherAll tracer gathered es.reverse) tracer .log := by
    refine ⟨fun {e e'} same {s es} gathers => ?_⟩
    rw [same.eq, gathers, Tracer.log, List.reverse_cons, gatherAll, gatherAll, List.foldl_append]
    rfl
  have silent := traceAt_together (.refl g) untold (Eq.refl id) input offset limits (s := gathered) (t := ()) trivial
  have logged := traceAt_together (.refl g) told (Eq.refl id) input offset limits (s := gathered) (t := []) rfl
  exact Prod.ext silent.1.eq logged.2

end Match

end BnfTokenizer
