import BnfTokenizer.Grammar.Basic

/-!
# Rules as expressions

An expression is what a rule says, as a tree: operators over texts, classes of characters and names of
other rules. Groups leave no trace in it beyond the shape of the tree, and a sequence or a choice of one
is that one.
-/

namespace BnfTokenizer.Dialect

/-- What a rule says. -/
inductive Expression where
  | literal (text : String)
  /-- One of some characters, or none of them. -/
  | charSet (members : String) (negated : Bool)
  | charRange (low high : Char) (negated : Bool)
  | endOfInput
  /-- Another rule, by its name. -/
  | rule (name : String)
  | sequence (parts : List Expression)
  | choice (alternatives : List Expression)
  | repetition (inner : Expression)
  | optional (inner : Expression)
  | negation (inner : Expression)

/-- A name and what it stands for. -/
structure Rule where
  name : String
  body : Expression

namespace Expression

/-- The parts of a sequence, which is no sequence when there is only one. -/
def ofParts : List Expression → Expression
  | [part] => part
  | parts => sequence parts

/-- The alternatives of a choice, which is no choice when there is only one. -/
def ofAlternatives : List Expression → Expression
  | [alternative] => alternative
  | alternatives => choice alternatives

/-- The name of a literal in a grammar. -/
def literalName (text : String) : Option String :=
  if text.isEmpty then none else some ("'" ++ text)

mutual

/-- The names that an expression mentions, from left to right. -/
def mentioned : Expression → List String
  | rule name => [name]
  | sequence parts | choice parts => listMentioned parts
  | repetition inner | optional inner | negation inner => inner.mentioned
  | _ => []

def listMentioned : List Expression → List String
  | [] => []
  | e :: es => e.mentioned ++ listMentioned es

end

end Expression

end BnfTokenizer.Dialect
