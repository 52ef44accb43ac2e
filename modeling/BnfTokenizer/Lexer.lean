import BnfTokenizer.Grammar.Validation
import BnfTokenizer.Match.Run
import BnfTokenizer.Text.Escape

/-!
# Lexers

A lexer is a grammar with a root that was checked: it carries the fact that the check found no defect, so
there is no way to match with an unchecked one. Tokenizing matches the root against the whole input; a
match of a part of it is an error, and the error points at the furthest place that was reached.
-/

namespace BnfTokenizer

/-- A checked grammar, ready to tokenize. -/
structure Lexer where
  grammar : Grammar
  root : NodeId
  limits : Match.Limits := {}
  sound : grammar.defect? root = none

/-- Why an input could not be tokenized. -/
inductive TokenizeError where
  /-- The root does not match at all. -/
  | noMatch (position : Nat) (found : String)
  /-- The root matches the first `consumed` bytes and no more. -/
  | incomplete (consumed position : Nat) (found : String)
  /-- The match was stopped. -/
  | stopped (fault : Match.Fault)
deriving DecidableEq, Repr

namespace TokenizeError

def message : TokenizeError → String
  | noMatch position found => "no match: unexpected " ++ found ++ " at position " ++ toString position
  | incomplete consumed position found =>
    "input not fully consumed: matched " ++ toString consumed ++ " bytes, unexpected " ++ found ++
      " at position " ++ toString position
  | stopped fault => fault.message

/-- The byte offset that the error points at, if it has one. -/
def position? : TokenizeError → Option Nat
  | noMatch position _ => some position
  | incomplete _ position _ => some position
  | stopped (.idleRepetition position) => some position
  | stopped _ => none

end TokenizeError

namespace Lexer

/-- How many characters of the input an error quotes. -/
def contextLength : Nat := 20

/-- A grammar as a lexer, if the check finds no defect. -/
def ofGrammar (grammar : Grammar) (root : NodeId) : Except Grammar.Defect Lexer :=
  match h : grammar.defect? root with
  | none => .ok { grammar, root, sound := h }
  | some defect => .error defect

def withLimits (lexer : Lexer) (limits : Match.Limits) : Lexer :=
  { lexer with limits }

/-- What an outcome says about the input as a whole. -/
def judge (input : String) : Except Match.Fault Match.Outcome → Except TokenizeError ParseTree
  | .error fault => .error (.stopped fault)
  | .ok ⟨none, furthest⟩ =>
    .error (.noMatch furthest (Text.describeAt input furthest contextLength))
  | .ok ⟨some found, furthest⟩ =>
    if found.stop < Text.byteLength input.toList then
      let position := max furthest found.stop
      .error (.incomplete found.stop position (Text.describeAt input position contextLength))
    else
      .ok found.tree

/-- Match the whole input, and tell a tracer. -/
def tokenizeTracing {σ : Type} (lexer : Lexer) (input : String) (tracer : Match.Tracer σ)
    (gathered : σ) : Except TokenizeError ParseTree × σ :=
  let (outcome, gathered) :=
    Match.traceAt lexer.grammar lexer.root input 0 lexer.limits tracer gathered
  (judge input outcome, gathered)

/-- Match the whole input. -/
def tokenize (lexer : Lexer) (input : String) : Except TokenizeError ParseTree :=
  judge input (Match.matchAt lexer.grammar lexer.root input 0 lexer.limits)

end Lexer

end BnfTokenizer
