import BnfTokenizer.CommandLine.Response
import BnfTokenizer.CommandLine.Usage
import BnfTokenizer.Diagnostic.Render

/-!
# Command lines

A command line that is understood makes a request, and what comes of it is what comes of the request, with
its diagnostics drawn as reports are drawn here.
-/

namespace BnfTokenizer.CommandLine

/-- The request that a command line makes. -/
def request (arguments : List String) : Except UsageError Request :=
  (parse arguments).map fun (command, settings) => .ofSettings command settings

/-- What comes of a command line. -/
def run (arguments : List String) (world : Surroundings) : Except UsageError Response :=
  (request arguments).map fun r => r.run Diagnostic.Report.draw world

end BnfTokenizer.CommandLine
