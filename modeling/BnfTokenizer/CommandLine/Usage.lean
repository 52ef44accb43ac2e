import BnfTokenizer.CommandLine.Settings

/-!
# Arguments

A command line names a command, and after it options and at most two paths in any order. All commands
take the same options; what a command has no use for is accepted and ignored.

Options are read from left to right. An option that takes a value takes it from the same argument, behind
`=` or, if it has one letter, right behind the letter, or else from the next argument, which must not
look like an option. `--` ends the options. A value is judged when the argument after it is understood, or
at the end; so where an argument is none that exists, that is reported and not the value before it.

An option is given once; only `-v` adds up, to no more than 255.
-/

namespace BnfTokenizer.CommandLine

namespace Command

def name : Command → String
  | check => "check"
  | tokenize => "tokenize"
  | trace => "trace"
  | dump => "dump"

def all : List Command :=
  [check, tokenize, trace, dump]

def ofName? (name : String) : Option Command :=
  all.find? fun command => command.name == name

end Command

namespace When

def name : When → String
  | auto => "auto"
  | always => "always"
  | never => "never"

def ofName? (name : String) : Option When :=
  [auto, always, never].find? fun w => w.name == name

end When

/-- Why a command line asks for nothing that could be done. -/
inductive UsageError where
  /-- Help was asked for. -/
  | help
  /-- No command was given. -/
  | missingCommand
  | unknownCommand
  | unknownArgument
  /-- A value is missing, or is none of those that there are. -/
  | invalidValue
  /-- A value is no number in the range. -/
  | malformedValue
  /-- A value where none is taken. -/
  | needlessValue
  /-- An option is given twice. -/
  | repeatedOption
  /-- An option is given without another that it needs. -/
  | missingOption
deriving DecidableEq, Repr

/-- The exit code when nothing is done. -/
def UsageError.exitCode : UsageError → Nat
  | help => 0
  | _ => 2

/-- Options that take a value. -/
inductive Setting where
  | grammar
  | source
  | color
  | fuel
deriving DecidableEq, Repr

/-- Options that take no value. -/
inductive Switch where
  | spans
  | json
  | compact
  | help
deriving DecidableEq, Repr

/-- What was begun and is not yet judged. -/
inductive Pending where
  | nothing
  /-- An option, and no value so far. -/
  | option (setting : Setting)
  | value (setting : Setting) (text : String)
  | path (text : String)
deriving DecidableEq, Repr

/-- How far a command line was read. -/
structure Reading where
  settings : Settings := {}
  pending : Pending := .nothing
  /-- How many paths were seen. -/
  paths : Nat := 0
  optionsEnded : Bool := false
deriving DecidableEq, Repr

/-! ## Values -/

/-- A number from its digits. -/
def natOfDigits? (digits : List Char) : Option Nat :=
  if digits.isEmpty || !digits.all Char.isDigit then none
  else some (digits.foldl (fun n c => 10 * n + (c.toNat - '0'.toNat)) 0)

/-- A number of visits: decimal digits, perhaps with a sign, that fit in 32 bits. -/
def fuelOfText? (text : String) : Option Nat :=
  let number? := match text.toList with
    | '+' :: digits => natOfDigits? digits
    | '-' :: digits => (natOfDigits? digits).filter (· == 0)
    | digits => natOfDigits? digits
  number?.filter (· < UInt32.size)

namespace Settings

/-- A value for an option that has none so far. -/
def give (s : Settings) (setting : Setting) (text : String) : Except UsageError Settings :=
  match setting with
  | .grammar =>
    if s.grammar.isSome then .error .repeatedOption else .ok { s with grammar := some text }
  | .source => if s.source.isSome then .error .repeatedOption else .ok { s with source := some text }
  | .color =>
    if s.color.isSome then .error .repeatedOption
    else match When.ofName? text with
      | some w => .ok { s with color := some w }
      | none => .error .invalidValue
  | .fuel =>
    if s.fuel.isSome then .error .repeatedOption
    else match fuelOfText? text with
      | some n => .ok { s with fuel := some n }
      | none => .error .malformedValue

/-- An option without a value, which is not given so far. -/
def turnOn (s : Settings) : Switch → Except UsageError Settings
  | .spans => if s.spans then .error .repeatedOption else .ok { s with spans := true }
  | .json => if s.json then .error .repeatedOption else .ok { s with json := true }
  | .compact => if s.compact then .error .repeatedOption else .ok { s with compact := true }
  | .help => .error .help

/-- One path more; a path has at least a character. -/
def addPath (s : Settings) (path : String) : Except UsageError Settings :=
  if path.isEmpty then .error .invalidValue else .ok { s with paths := s.paths ++ [path] }

end Settings

/-! ## Arguments, one by one -/

namespace Reading

/-- What was begun is judged. -/
def settle (r : Reading) : Except UsageError Reading :=
  match r.pending with
  | .nothing => .ok r
  | .option _ => .error .invalidValue
  | .value setting text =>
    (r.settings.give setting text).map fun settings => { r with settings, pending := .nothing }
  | .path text => (r.settings.addPath text).map fun settings => { r with settings, pending := .nothing }

/-- An option with its value in one argument. -/
def give (r : Reading) (setting : Setting) (text : String) : Except UsageError Reading := do
  let r ← r.settle
  let settings ← r.settings.give setting text
  return { r with settings }

/-- An option whose value is the next argument. -/
def await (r : Reading) (setting : Setting) : Except UsageError Reading := do
  let r ← r.settle
  return { r with pending := .option setting }

def turnOn (r : Reading) (switch : Switch) : Except UsageError Reading := do
  let r ← r.settle
  let settings ← r.settings.turnOn switch
  return { r with settings }

/-- One `-v` more. -/
def beVerbose (r : Reading) : Except UsageError Reading := do
  let r ← r.settle
  return { r with settings := { r.settings with verbose := min 255 (r.settings.verbose + 1) } }

/-- A path, if there were no two before. -/
def path (r : Reading) (text : String) : Except UsageError Reading :=
  if 2 ≤ r.paths then .error .unknownArgument
  else do
    let r ← r.settle
    return { r with pending := .path text, paths := r.paths + 1 }

end Reading

/-- What a long option is. -/
def longOption? : String → Option (Setting ⊕ Switch)
  | "grammar" => some (.inl .grammar)
  | "source" => some (.inl .source)
  | "color" => some (.inl .color)
  | "fuel" => some (.inl .fuel)
  | "spans" => some (.inr .spans)
  | "json" => some (.inr .json)
  | "compact" => some (.inr .compact)
  | "help" => some (.inr .help)
  | _ => none

/-- The part of a list before the first `=`, and the part behind it if there is one. -/
def cutAtEquals : List Char → List Char × Option (List Char)
  | [] => ([], none)
  | '=' :: cs => ([], some cs)
  | c :: cs =>
    let (before, behind) := cutAtEquals cs
    (c :: before, behind)

namespace Reading

/-- An argument behind two dashes. -/
def long (r : Reading) (text : List Char) : Except UsageError Reading :=
  let (name, value?) := cutAtEquals text
  match longOption? (String.ofList name), value? with
  | none, _ => .error .unknownArgument
  | some (.inl setting), some value => r.give setting (String.ofList value)
  | some (.inl setting), none => r.await setting
  | some (.inr switch), none => r.turnOn switch
  | some (.inr _), some _ => .error .needlessValue

/-- The rest of an argument as the value of the letter before it; a `=` in front is no part of it. -/
def shortValue (r : Reading) (setting : Setting) : List Char → Except UsageError Reading
  | [] => r.await setting
  | '=' :: value => r.give setting (String.ofList value)
  | value => r.give setting (String.ofList value)

/-- Letters behind one dash. -/
def short (r : Reading) : List Char → Except UsageError Reading
  | [] => .ok r
  | 'v' :: letters => do (← r.beVerbose).short letters
  | 'h' :: _ => r.turnOn .help
  | 'g' :: rest => r.shortValue .grammar rest
  | 's' :: rest => r.shortValue .source rest
  | _ => .error .unknownArgument

/-- One argument. -/
def step (r : Reading) (argument : String) : Except UsageError Reading :=
  if r.optionsEnded then r.path argument
  else match argument.toList, r.pending with
    | ['-', '-'], _ => .ok { r with optionsEnded := true }
    | '-' :: '-' :: text, _ => r.long text
    | '-' :: c :: letters, _ => r.short (c :: letters)
    | _, .option setting => .ok { r with pending := .value setting argument }
    | _, _ => r.path argument

/-- The end of the arguments. -/
def finish (r : Reading) : Except UsageError Settings := do
  let r ← r.settle
  if r.settings.compact && !r.settings.json then .error .missingOption else .ok r.settings

end Reading

/-- The settings that the arguments of a command give. -/
def readSettings (arguments : List String) : Except UsageError Settings := do
  let r ← arguments.foldlM Reading.step {}
  r.finish

/-! ## The whole line -/

/-- What `help` does with the arguments behind it. -/
def readHelp : List String → UsageError
  | [] => .help
  | [name] => if name = "help" || (Command.ofName? name).isSome then .help else .unknownCommand
  | _ => .unknownCommand

/-- The command of a line and its settings. `--` in front of the command ends the options there are, and
with them the commands. -/
def readLine : (optionsEnded : Bool) → List String → Except UsageError (Command × Settings)
  | _, [] => .error .missingCommand
  | true, name :: _ =>
    .error (if name = "help" || (Command.ofName? name).isSome then .unknownArgument else .unknownCommand)
  | false, name :: arguments =>
    if name = "help" then .error (readHelp arguments)
    else match Command.ofName? name with
      | some command => (readSettings arguments).map fun settings => (command, settings)
      | none =>
        match name.toList with
        | ['-', '-'] => readLine true arguments
        | '-' :: '-' :: text =>
          match cutAtEquals text with
          | (['h', 'e', 'l', 'p'], none) => .error .help
          | (['h', 'e', 'l', 'p'], some _) => .error .needlessValue
          | _ => .error .unknownArgument
        | '-' :: 'h' :: _ => .error .help
        | '-' :: _ :: _ => .error .unknownArgument
        | _ => .error .unknownCommand

/-- What a command line asks for. -/
def parse (arguments : List String) : Except UsageError (Command × Settings) :=
  readLine false arguments

end BnfTokenizer.CommandLine
