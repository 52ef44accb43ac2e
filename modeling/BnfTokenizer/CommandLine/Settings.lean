/-!
# Settings

What can be asked for on a command line, whichever way it is spelled there: a command, and its options with
at most two paths.
-/

namespace BnfTokenizer.CommandLine

/-- What the program can be asked to do. -/
inductive Command where
  | check
  | tokenize
  | trace
  | dump
deriving DecidableEq, Repr

/-- Does a command read an input besides the grammar? -/
def Command.readsInput : Command → Bool
  | tokenize | trace => true
  | check | dump => false

/-- When output is coloured. -/
inductive When where
  | auto
  | always
  | never
deriving DecidableEq, Repr

/-- Is output coloured, where nothing but people read it or somewhere else? -/
def When.resolve (terminal : Bool) : When → Bool
  | auto => terminal
  | always => true
  | never => false

/-- What options and paths a command line gives. -/
structure Settings where
  grammar : Option String := none
  source : Option String := none
  color : Option When := none
  fuel : Option Nat := none
  spans : Bool := false
  json : Bool := false
  compact : Bool := false
  /-- How often `-v` is given. -/
  verbose : Nat := 0
  paths : List String := []
deriving DecidableEq, Repr

end BnfTokenizer.CommandLine
