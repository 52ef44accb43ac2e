import BnfTokenizer.CommandLine.Run

/-!
# The program

The outer layer: it reads the texts that a request names, asks `CommandLine.Request.run` what comes of the
request, and writes that out. The standard input is read only where a path asks for it.
-/

namespace BnfTokenizer.CommandLine

/-- The fault that the system's refusal to read a file comes down to. -/
def faultOf (error : IO.Error) : ReadFault :=
  match error with
  | .inappropriateType _ code _ => if code = 20 then .notDirectory else .isDirectory
  | .invalidArgument _ code _ => if code = 36 then .nameTooLong else .nameHoldsNul
  | _ => .notFound

/-- A file as a text. -/
def readFile (path : String) : IO (Except ReadFault String) := do
  try
    return textOfBytes (← IO.FS.readBinFile path)
  catch error => return .error (faultOf error)

/-- What the program says of a line that it cannot follow. -/
def usage : String :=
  "usage: check|dump <GRAMMAR>\n" ++
  "       tokenize|trace <GRAMMAR> <INPUT>\n" ++
  "options: -g/--grammar <TEXT>, -s/--source <TEXT>, --spans, --json, --compact, -v,\n" ++
  "         --fuel <N>, --color auto|always|never, -h/--help\n"

/-- The surroundings of a request: the texts that it names, and no others. -/
def surroundingsOf (r : Request) : IO Surroundings := do
  let paths := (r.grammarPath.toList ++ r.inputPath.toList).eraseDups
  let standardInput ←
    if paths.any isStandardInput then
      pure (textOfBytes (← (← IO.getStdin).readBinToEnd))
    else pure (.ok "")
  let texts ← (paths.filter fun path => !isStandardInput path).mapM fun path => do
    return (path, ← readFile path)
  let terminal := (← (← IO.getStdout).isTty) && (← (← IO.getStderr).isTty)
  return {
    standardInput
    fileAt := fun path => (texts.lookup path).getD (.error .notFound)
    terminal }

end BnfTokenizer.CommandLine

open BnfTokenizer BnfTokenizer.CommandLine in
def main (arguments : List String) : IO UInt32 := do
  match request arguments with
  | .error error =>
    if error = .help then IO.print usage else IO.eprint usage
    return error.exitCode.toUInt32
  | .ok r =>
    let response := r.run Diagnostic.Report.draw (← surroundingsOf r)
    IO.print response.output
    IO.eprint response.errors
    return response.exitCode.toUInt32
