/-!
# Files as texts

Reading a file gives its text, or the reason why there is none. A file is a text only if its bytes are
well-formed UTF-8.

What the system answers to a path is for the system to say, and a run takes it as it comes: its
surroundings are any function from paths to such results. A `Directory` is one that can be written down, so
that a run can be repeated: a flat list of named files. `Directory.read` walks a path there step by step,
and the first step that fails decides. Every step starts from a directory, which no file is. Above the
directory there are more directories, but nothing in them has a known name.
-/

namespace BnfTokenizer

/-- Why a file could not be read as a text. -/
inductive ReadFault where
  | notFound
  | isDirectory
  | notDirectory
  | nameTooLong
  | nameHoldsNul
  | notText
deriving DecidableEq, Repr

def ReadFault.message : ReadFault → String
  | notFound => "No such file or directory (os error 2)"
  | isDirectory => "Is a directory (os error 21)"
  | notDirectory => "Not a directory (os error 20)"
  | nameTooLong => "File name too long (os error 36)"
  | nameHoldsNul => "file name contained an unexpected NUL byte"
  | notText => "stream did not contain valid UTF-8"

/-- Bytes as a text. -/
def textOfBytes (bytes : ByteArray) : Except ReadFault String :=
  match String.fromUTF8? bytes with
  | some text => .ok text
  | none => .error .notText

/-- Files by name, none of them in a directory of its own. -/
structure Directory where
  files : List (String × ByteArray) := []

namespace Directory

/-- Where a walk along a path has come to. -/
inductive Place where
  /-- The directory itself. -/
  | here
  /-- A directory outside it. -/
  | elsewhere
  | file (bytes : ByteArray)

/-- One step of a walk. -/
def step (d : Directory) (place : Place) (name : String) : Except ReadFault Place :=
  match place with
  | .file _ => .error .notDirectory
  | _ =>
    if name = "" || name = "." then .ok place
    else if name = ".." then .ok .elsewhere
    else if 255 < name.utf8ByteSize then .error .nameTooLong
    else match place, d.files.lookup name with
      | .here, some bytes => .ok (.file bytes)
      | _, _ => .error .notFound

/-- A walk along some names. -/
def walk (d : Directory) (place : Place) : List String → Except ReadFault Place
  | [] => .ok place
  | name :: names =>
    match d.step place name with
    | .ok place => walk d place names
    | .error fault => .error fault

/-- What comes of a path in a directory. -/
def read (d : Directory) (path : String) : Except ReadFault String :=
  if path.contains '\x00' then .error .nameHoldsNul
  else if path.isEmpty then .error .notFound
  else if 4095 < path.utf8ByteSize then .error .nameTooLong
  else
    match d.walk (if path.startsWith "/" then .elsewhere else .here) (path.splitOn "/") with
    | .ok (.file bytes) => textOfBytes bytes
    | .ok _ => .error .isDirectory
    | .error fault => .error fault

end Directory

end BnfTokenizer
