import BnfTokenizer.Dialect.Lowering
import BnfTokenizer.Proofs.ParseTree.Views

/-!
# Wrappers make way

The second pass splices wrappers into the statements that they stand in. A wrapper holds another one, and that one holds
what counts (`Wraps`). No wrapper holds a third, so it does not matter in which order they are gone through: in the end
the children of a node that is no wrapper are those that it had, with what was wrapped in the place of each wrapper
(`children_foldl_flatten`). Nothing but links is changed, and the links are still those of a forest.
-/

namespace BnfTokenizer.Dialect

open ParseTree (Ref Forest Alike spliceAt)

variable {t : ParseTree} {o w x : Ref}

/-- The names of the nodes that wrap what follows in a statement. -/
def IsWrapper (name : Option String) : Prop :=
  name = some "statementOpt" ∨ name = some "pipeOpt" ∨ name = some "spaceOpt"

/-- A wrapper around a wrapper, which stands in a node that is none and holds nodes that are none. -/
structure Wraps (t : ParseTree) (o w : Ref) : Prop where
  outer : IsWrapper (t.name o)
  children : t.children o = [w]
  inner : IsWrapper (t.name w)
  above : ∀ p, t.parent o = some p → ¬ IsWrapper (t.name p)
  listed : ∃ p, t.parent o = some p
  below : ∀ c ∈ t.children w, ¬ IsWrapper (t.name c)

theorem spliceAt_eq_flatMap {instead children : List Ref} (once : children.Nodup) :
    spliceAt o instead children = children.flatMap fun c => if c = o then instead else [c] := by
  induction children with
  | nil => rfl
  | cons c cs ih =>
    obtain ⟨apart, once⟩ := List.nodup_cons.mp once
    rw [spliceAt, List.flatMap_cons, ← ih once]
    by_cases here : c = o
    · subst here
      rw [if_pos rfl, if_pos rfl, ParseTree.spliceAt_of_not_mem instead apart]
    · rw [if_neg here, if_neg here, List.singleton_append]

theorem Wraps.link (wraps : Wraps t o w) (forest : t.Forest) : t.parent w = some o :=
  (forest.linked o w).mp (wraps.children ▸ List.mem_cons_self)

/-- What one step does to the children of the nodes. -/
theorem children_flatten (forest : t.Forest) (wraps : Wraps t o w) (x : Ref) :
    (flatten t o).children x =
      if x = o ∨ x = w then [] else (t.children x).flatMap fun c => if c = o then t.children w else [c] := by
  obtain ⟨p, link⟩ := wraps.listed
  have inside := wraps.link forest
  have differs := forest.ne_of_parent inside
  have lifted := forest.children_lift inside
  have still : (t.lift w).parent o = some p := by
    have notUnder : t.parent o ≠ some w := by
      rw [link]
      rintro ⟨⟩
      exact wraps.above w link wraps.inner
    rw [forest.parent_lift inside, if_neg differs.symm, if_neg notUnder, link]
  have own : (t.lift w).children o = t.children w := by
    rw [lifted, if_neg differs.symm, wraps.children, spliceAt, if_pos rfl, List.append_nil]
  have step : flatten t o = (t.lift w).lift o := by
    rw [flatten, wraps.children]
  rw [step, (forest.lift w).children_lift still, own]
  by_cases here : x = o
  · rw [if_pos here, if_pos (.inl here)]
  · rw [if_neg here, lifted]
    by_cases there : x = w
    · rw [if_pos there, if_pos (.inr there)]
      rfl
    · rw [if_neg there, if_neg (not_or.mpr ⟨here, there⟩),
        ParseTree.spliceAt_of_not_mem _ (forest.not_mem_children inside here), spliceAt_eq_flatMap (forest.once x)]

theorem forest_flatten (forest : t.Forest) (o : Ref) : (flatten t o).Forest := by
  unfold flatten
  dsimp only
  split
  · exact (forest.lift _).lift o
  · exact forest.lift o

theorem alike_flatten (t : ParseTree) (o : Ref) : Alike t (flatten t o) := by
  unfold flatten
  dsimp only
  split
  · exact (ParseTree.alike_lift t _).trans (ParseTree.alike_lift _ o)
  · exact ParseTree.alike_lift t o

/-- What stands for a child when the wrappers in a list are gone. -/
def unwrapped (t : ParseTree) (opts : List Ref) (c : Ref) : List Ref :=
  if c ∈ opts then (t.children c).flatMap t.children else [c]

section

variable (forest : t.Forest) (own : Wraps t o w)

include forest own

/-- Another wrapper has the children that it had: what is flattened does not stand below a wrapper. -/
theorem children_flatten_wrapper {x : Ref} (isWrapper : IsWrapper (t.name x)) (notOuter : x ≠ o) (notInner : x ≠ w) :
    (flatten t o).children x = t.children x := by
  have absent : o ∉ t.children x := fun mem => own.above x ((forest.linked x o).mp mem) isWrapper
  rw [children_flatten forest own, if_neg (not_or.mpr ⟨notOuter, notInner⟩),
    ← spliceAt_eq_flatMap (forest.once x), ParseTree.spliceAt_of_not_mem _ absent]

/-- Another wrapper stands where it stood, if it is not the one within. -/
theorem parent_flatten_wrapper {x : Ref} (isWrapper : IsWrapper (t.name x)) (notOuter : x ≠ o) (notInner : x ≠ w)
    (p : Ref) : (flatten t o).parent x = some p ↔ t.parent x = some p := by
  rw [← (forest_flatten forest o).linked, ← forest.linked, children_flatten forest own]
  split
  · next gone =>
    refine iff_of_false List.not_mem_nil fun mem => ?_
    rcases gone with rfl | rfl
    · rw [own.children, List.mem_singleton] at mem
      exact notInner mem
    · exact own.below x mem isWrapper
  · rw [List.mem_flatMap]
    constructor
    · rintro ⟨c, mem, found⟩
      split at found
      · exact absurd isWrapper (own.below x found)
      · rwa [List.mem_singleton.mp found]
    · intro mem
      exact ⟨x, mem, by rw [if_neg notOuter]; exact List.mem_singleton_self x⟩

end

/-- What is wrapped elsewhere is as it was. -/
theorem Wraps.flatten {o' w' : Ref} (wraps : Wraps t o' w') (forest : t.Forest) (own : Wraps t o w) (differs : o' ≠ o) :
    Wraps (Dialect.flatten t o) o' w' ∧ (Dialect.flatten t o).children w' = t.children w' := by
  have alike := alike_flatten t o
  have notInner : o' ≠ w := by
    rintro rfl
    exact wraps.above o (own.link forest) own.outer
  have outermost := children_flatten_wrapper forest own wraps.outer differs notInner
  have innermost : (Dialect.flatten t o).children w' = t.children w' := by
    refine children_flatten_wrapper forest own wraps.inner ?_ ?_
    · rintro rfl
      exact own.above o' (wraps.link forest) wraps.outer
    · rintro rfl
      exact differs (Option.some.inj ((wraps.link forest).symm.trans (own.link forest)))
  have links := parent_flatten_wrapper forest own wraps.outer differs notInner
  refine ⟨⟨?_, outermost.trans wraps.children, ?_, ?_, ?_, ?_⟩, innermost⟩
  · rw [alike.name]
    exact wraps.outer
  · rw [alike.name]
    exact wraps.inner
  · intro p link
    rw [alike.name]
    exact wraps.above p ((links p).mp link)
  · obtain ⟨p, link⟩ := wraps.listed
    exact ⟨p, (links p).mpr link⟩
  · intro c mem
    rw [alike.name]
    exact wraps.below c (innermost ▸ mem)

/-- **What flattening leaves.** In the place of each wrapper stands what was wrapped. -/
theorem children_foldl_flatten {opts : List Ref} (forest : t.Forest) (distinct : opts.Nodup)
    (wraps : ∀ o ∈ opts, ∃ w, Wraps t o w) {x : Ref} (other : ¬ IsWrapper (t.name x)) :
    (opts.foldl flatten t).children x = (t.children x).flatMap (unwrapped t opts) := by
  induction opts generalizing t with
  | nil =>
    have same : unwrapped t [] = fun c => [c] := funext fun c => if_neg List.not_mem_nil
    rw [same, List.flatMap_singleton']
    rfl
  | cons o opts ih =>
    obtain ⟨apart, distinct⟩ := List.nodup_cons.mp distinct
    obtain ⟨⟨w, own⟩, others⟩ := List.forall_mem_cons.mp wraps
    have differs : ∀ o' ∈ opts, o' ≠ o := fun o' mem same => apart (same ▸ mem)
    have later : ∀ o' ∈ opts, ∃ w', Wraps (flatten t o) o' w' := by
      intro o' mem
      obtain ⟨w', wraps⟩ := others o' mem
      exact ⟨w', (wraps.flatten forest own (differs o' mem)).1⟩
    have outside : ¬ (x = o ∨ x = w) := by
      rintro (rfl | rfl)
      · exact other own.outer
      · exact other own.inner
    have step := children_flatten forest own x
    rw [if_neg outside] at step
    rw [List.foldl_cons, ih (forest_flatten forest o) distinct later (by rwa [(alike_flatten t o).name]), step,
      List.flatMap_assoc]
    refine List.flatMap_congr fun c _ => ?_
    by_cases here : c = o
    · subst here
      have innermost : ∀ c' ∈ t.children w, unwrapped (flatten t c) opts c' = [c'] := by
        intro c' mem
        refine if_neg fun listed => own.below c' mem ?_
        obtain ⟨_, wraps⟩ := others c' listed
        exact wraps.outer
      rw [if_pos rfl, List.flatMap_congr innermost, List.flatMap_singleton', unwrapped, if_pos List.mem_cons_self,
        own.children, List.flatMap_singleton]
    · rw [if_neg here, List.flatMap_singleton, unwrapped, unwrapped]
      by_cases listed : c ∈ opts
      · obtain ⟨w', wraps⟩ := others c listed
        obtain ⟨still, innermost⟩ := wraps.flatten forest own here
        rw [if_pos listed, if_pos (List.mem_cons_of_mem _ listed), still.children, wraps.children,
          List.flatMap_singleton, List.flatMap_singleton, innermost]
      · rw [if_neg listed, if_neg fun mem => (List.mem_cons.mp mem).elim here listed]

theorem forest_foldl_flatten (forest : t.Forest) (opts : List Ref) : (opts.foldl flatten t).Forest := by
  induction opts generalizing t with
  | nil => exact forest
  | cons o opts ih => exact ih (forest_flatten forest o)

theorem alike_foldl_flatten (t : ParseTree) (opts : List Ref) : Alike t (opts.foldl flatten t) := by
  induction opts generalizing t with
  | nil => exact .refl t
  | cons o opts ih => exact (alike_flatten t o).trans (ih _)

end BnfTokenizer.Dialect
