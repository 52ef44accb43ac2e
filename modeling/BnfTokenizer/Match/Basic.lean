import BnfTokenizer.ParseTree.Builder

/-!
# What a match reads and what it can say

A match is limited in two ways: by the number of visits to nodes, and by how deep visits may be nested.
Running into a limit says nothing about the input, so it is kept apart from an ordinary failure: a
`Verdict` is a result, a failure, or a stop with its `Fault`.

A `Cursor` is a place in the input together with what is left there. A match never looks back, so
nothing before the place is kept.
-/

namespace BnfTokenizer.Match

/-- How far a match may go. -/
structure Limits where
  /-- The number of visits. -/
  fuel : Nat := 100000000
  /-- The number of visits open at once. -/
  depth : Nat := 256
deriving DecidableEq, Repr

/-- Why a match could not be carried to its end. -/
inductive Fault where
  | fuelExhausted
  | depthExceeded
  /-- A placeholder that was never linked was visited. -/
  | unresolvedReference (rule : String)
  /-- A repetition went round without consuming anything. -/
  | idleRepetition (position : Nat)
deriving DecidableEq, Repr

def Fault.message : Fault → String
  | fuelExhausted => "runtime execution limit exceeded"
  | depthExceeded => "runtime recursion limit exceeded"
  | unresolvedReference rule => "unresolved reference to `" ++ rule ++ "` reached during matching"
  | idleRepetition position =>
    "repetition at position " ++ toString position ++ " matched without consuming input"

/-- The end of an attempt. -/
inductive Verdict (α : Type) where
  | matched (result : α)
  | failed
  | stopped (fault : Fault)
deriving DecidableEq, Repr

/-- A place in the input: its byte offset, and the characters from there on. -/
structure Cursor where
  offset : Nat
  rest : List Char
deriving DecidableEq, Repr

namespace Cursor

/-- The cursor at a byte offset, if the offset lies between two characters. -/
def ofOffset? (input : List Char) (offset : Nat) : Option Cursor :=
  if Text.isBoundary input offset then
    some ⟨offset, Text.dropBytes offset input⟩
  else
    none

/-- The place behind a text, if the text stands here. -/
def afterText? (cursor : Cursor) : List Char → Option Cursor
  | [] => some cursor
  | c :: cs =>
    match cursor.rest with
    | d :: rest => if c = d then afterText? ⟨cursor.offset + c.utf8Size, rest⟩ cs else none
    | [] => none

/-- The place behind the next character, if there is one that `accepts` takes. -/
def afterChar? (cursor : Cursor) (accepts : Char → Bool) : Option Cursor :=
  match cursor.rest with
  | c :: rest => if accepts c then some ⟨cursor.offset + c.utf8Size, rest⟩ else none
  | [] => none

/-- A text stands here exactly where what is left starts with it. -/
theorem afterText?_eq_some_iff (here stop : Cursor) (text : List Char) :
    here.afterText? text = some stop ↔
      here.rest = text ++ stop.rest ∧ stop.offset = here.offset + Text.byteLength text := by
  induction text generalizing here with
  | nil =>
    obtain ⟨offset, rest⟩ := here
    obtain ⟨last, left⟩ := stop
    simp only [afterText?, Option.some.injEq, mk.injEq, List.nil_append, Text.byteLength, Nat.add_zero]
    exact ⟨fun h => ⟨h.2, h.1.symm⟩, fun h => ⟨h.2.symm, h.1⟩⟩
  | cons c cs ih =>
    obtain ⟨offset, rest⟩ := here
    cases rest with
    | nil => simp [afterText?]
    | cons d rest =>
      by_cases h : c = d
      · simp [afterText?, h, ih, Text.byteLength, Nat.add_assoc]
      · simp [afterText?, h, Ne.symm h]

/-- A step over a character is a step over the next one, and it is accepted. -/
theorem afterChar?_eq_some_iff (here stop : Cursor) (accepts : Char → Bool) :
    here.afterChar? accepts = some stop ↔
      ∃ c, accepts c = true ∧ here.rest = c :: stop.rest ∧ stop.offset = here.offset + c.utf8Size := by
  obtain ⟨offset, rest⟩ := here
  cases rest with
  | nil => simp [afterChar?]
  | cons c rest =>
    obtain ⟨last, left⟩ := stop
    by_cases h : accepts c
    · simp only [afterChar?, h, if_true, Option.some.injEq, mk.injEq, List.cons.injEq]
      constructor
      · rintro ⟨rfl, rfl⟩
        exact ⟨c, h, ⟨rfl, rfl⟩, rfl⟩
      · rintro ⟨_, _, ⟨rfl, rfl⟩, rfl⟩
        exact ⟨rfl, rfl⟩
    · simp only [afterChar?, h, List.cons.injEq]
      constructor
      · intro none
        cases none
      · rintro ⟨_, accepted, ⟨rfl, _⟩, _⟩
        exact absurd accepted h

/-- This place, if nothing is left. -/
def atEnd? (cursor : Cursor) : Option Cursor :=
  if cursor.rest.isEmpty then some cursor else none

end Cursor

end BnfTokenizer.Match
