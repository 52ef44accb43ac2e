import BnfTokenizer.Proofs.Dialect.Reading
import Mathlib.Data.List.Forall2

/-!
# Reading up to a range that is not in order

A range is written with two bounds, and nothing but its bounds can be wrong with a grammar text that was matched. So
the readings are told with the ranges of what they read: `Settles ranges holds result` says that the first of the
ranges that is not in order is reported, and that there is a result, with some property, if all of them are in order.

`ranges` looks for them in all of a subtree. Readings of parts are put together to readings of wholes, and the ranges of
the parts come in the same order.
-/

namespace BnfTokenizer.Dialect

open ParseTree (View)

/-! ## Written ranges -/

/-- What the bounds of a range spell, if both are there. -/
def bounds? (v : View) : Option (Char × Char) :=
  match boundOf v "rangeStart", boundOf v "rangeEnd" with
  | some low, some high => some (low, high)
  | _, _ => none

mutual

/-- The bounds of the ranges in a subtree, in the order of the text. -/
def ranges : View → List (Char × Char)
  | .node name value span children =>
    if name = some "chargroup" then (bounds? (.node name value span children)).toList ++ listRanges children
    else listRanges children

/-- The ranges below some views, in their order. -/
def listRanges : List View → List (Char × Char)
  | [] => []
  | v :: vs => ranges v ++ listRanges vs

end

theorem listRanges_append (vs ws : List View) : listRanges (vs ++ ws) = listRanges vs ++ listRanges ws := by
  induction vs with
  | nil => rfl
  | cons v vs ih => rw [List.cons_append, listRanges, listRanges, ih, List.append_assoc]

theorem listRanges_singleton (v : View) : listRanges [v] = ranges v :=
  List.append_nil _

/-- A view that is no range itself has those of its children. -/
theorem ranges_node {name : Option String} (ordinary : name ≠ some "chargroup") (value : String) (span : Span)
    (children : List View) : ranges (.node name value span children) = listRanges children := by
  rw [ranges, if_neg ordinary]

/-- The bounds of a range are the wrong way round. -/
def Misordered (range : Char × Char) : Prop :=
  range.2 < range.1

instance : DecidablePred Misordered := fun range => inferInstanceAs (Decidable (range.2 < range.1))

/-! ## Readings that stop at a range -/

/-- What comes of a step that is done comes of what the step was done with. -/
theorem exists_of_map_ok {α β : Type} {f : α → β} {read : Except CompileError α} {b : β} (done : read.map f = .ok b) :
    ∃ a, read = .ok a ∧ f a = b := by
  cases read with
  | error error => cases done
  | ok a =>
    cases done
    exact ⟨a, rfl, rfl⟩

/-- There is a result with a property, or else the first range that is not in order is reported. -/
def Settles {α : Type} (ranges : List (Char × Char)) (holds : α → Prop) (result : Except CompileError α) : Prop :=
  match ranges.find? fun range => decide (Misordered range) with
  | some (low, high) => result = .error (.invalidRange low high)
  | none => ∃ a, result = .ok a ∧ holds a

namespace Settles

variable {α β : Type} {own others : List (Char × Char)} {holds : α → Prop} {holds' : β → Prop}
  {result : Except CompileError α}

theorem ok {a : α} (is : holds a) : Settles [] holds (.ok a) :=
  ⟨a, rfl, is⟩

/-- Steps settle the ranges of both, if the second does so wherever the first is done. -/
theorem bind {next : α → Except CompileError β} (first : Settles own holds result)
    (later : ∀ a, holds a → Settles others holds' (next a)) : Settles (own ++ others) holds' (result.bind next) := by
  unfold Settles at first ⊢
  rw [List.find?_append]
  cases found : own.find? fun range => decide (Misordered range) with
  | some range =>
    rw [found] at first
    rw [show result = _ from first]
    rfl
  | none =>
    rw [found] at first
    obtain ⟨a, rfl, is⟩ := first
    exact later a is

/-- What is made of a result settles the same ranges. -/
theorem map {f : α → β} (first : Settles own holds result) (kept : ∀ a, holds a → holds' (f a)) :
    Settles own holds' (result.map f) := by
  have both : Settles (own ++ []) holds' (result.bind fun a => .ok (f a)) := first.bind fun a is => .ok (kept a is)
  rwa [List.append_nil] at both

/-- A result settles what is made of it. -/
theorem of_map {f : α → β} (mapped : Settles own holds' (result.map f)) : Settles own
    (fun a => holds' (f a)) result := by
  unfold Settles at mapped ⊢
  split
  · next found =>
    rw [found] at mapped
    cases result with
    | ok a => cases mapped
    | error error =>
      cases mapped
      rfl
  · next found =>
    rw [found] at mapped
    obtain ⟨_, done, is⟩ := mapped
    obtain ⟨a, rfl, rfl⟩ := exists_of_map_ok done
    exact ⟨a, rfl, is⟩

theorem imp {holds' : α → Prop} (first : Settles own holds result) (kept : ∀ a, holds a → holds' a) :
    Settles own holds' result := by
  unfold Settles at first ⊢
  split
  · next found => rwa [found] at first
  · next found =>
    rw [found] at first
    obtain ⟨a, same, is⟩ := first
    exact ⟨a, same, kept a is⟩

/-- A range alone is read if it is in order. -/
theorem range {low high : Char} {a : α} (is : low ≤ high → holds a) :
    Settles [(low, high)] holds (if low ≤ high then .ok a else .error (.invalidRange low high)) := by
  by_cases ordered : low ≤ high
  · have none : [(low, high)].find? (fun range => decide (Misordered range)) = none :=
      List.find?_eq_none.mpr (List.forall_mem_singleton.mpr fun wrong =>
        Char.not_lt.mpr ordered (of_decide_eq_true wrong))
    rw [Settles, none, if_pos ordered]
    exact ⟨a, rfl, is ordered⟩
  · have found : [(low, high)].find? (fun range => decide (Misordered range)) = some (low, high) :=
      List.find?_cons_of_pos (decide_eq_true (Char.not_le.mp ordered))
    rw [Settles, found, if_neg ordered]

/-- The first range that is not in order is reported, or all are in order and there is a result. -/
theorem cases (settles : Settles own holds result) :
    (∃ low high, own.find? (fun range => decide (Misordered range)) = some (low, high) ∧
        result = .error (.invalidRange low high)) ∨
      (∀ range ∈ own, ¬ Misordered range) ∧ ∃ a, result = .ok a ∧ holds a := by
  unfold Settles at settles
  split at settles
  · next low high found => exact .inl ⟨low, high, found, settles⟩
  · next found =>
    exact .inr ⟨fun range mem wrong => List.find?_eq_none.mp found range mem (decide_eq_true wrong), settles⟩

/-- A result that is there has the property. -/
theorem of_ok {a : α} (settles : Settles own holds result) (same : result = .ok a) : holds a := by
  obtain ⟨_, _, _, failed⟩ | ⟨_, b, is, holds⟩ := settles.cases
  · cases same.symm.trans failed
  · cases same.symm.trans is
    exact holds

end Settles

/-- Views are read one after the other. -/
theorem settles_mapM {α : Type} {f : View → Except CompileError α} {holds : View → α → Prop} {vs : List View}
    (each : ∀ v ∈ vs, Settles (ranges v) (holds v) (f v)) :
    Settles (listRanges vs) (List.Forall₂ holds vs) (vs.mapM f) := by
  induction vs with
  | nil => exact .ok .nil
  | cons v vs ih =>
    obtain ⟨head, tail⟩ := List.forall_mem_cons.mp each
    have step : (v :: vs).mapM f = (f v).bind fun a => (vs.mapM f).map (a :: ·) := by
      rw [List.mapM_cons]
      rfl
    rw [step, listRanges]
    exact head.bind fun a is => (ih tail).map fun as are => .cons is are

/-- Parts of a row are read one after the other. -/
theorem settles_row {source : String} {v : View} {vs : List View} {holds holds' row : List Item → Prop}
    (head : Settles (ranges v) holds (readItems source v))
    (tail : Settles (listRanges vs) holds' (listReadItems source vs))
    (joined : ∀ items others, holds items → holds' others → row (items ++ others)) :
    Settles (listRanges (v :: vs)) row (listReadItems source (v :: vs)) := by
  have step : listReadItems source (v :: vs) =
      (readItems source v).bind fun items => (listReadItems source vs).map (items ++ ·) := by
    rw [listReadItems]
    cases readItems source v <;> rfl
  rw [step, listRanges]
  exact head.bind fun items is => tail.map fun others are => joined items others is are

/-- A single view settles its ranges as a row of one. -/
theorem settles_single {source : String} {v : View} {holds : List Item → Prop}
    (reads : Settles (ranges v) holds (readItems source v)) :
    Settles (listRanges [v]) holds (listReadItems source [v]) := by
  have behind : Settles (listRanges []) (· = []) (listReadItems source []) := .ok rfl
  refine settles_row reads behind ?_
  rintro items _ is rfl
  rwa [List.append_nil]

end BnfTokenizer.Dialect
