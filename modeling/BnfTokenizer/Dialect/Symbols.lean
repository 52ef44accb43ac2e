import BnfTokenizer.Lexer

/-!
# The dialect as a grammar

Grammar texts are written in a small dialect, and the dialect is itself given as a grammar graph, so that
one matcher reads both. `Symbol` lists its nodes and `Symbol.definition` says what each is.

```text
grammar     ::= gap sentence* EOF
sentence    ::= word gap "::=" gap statement gap
statement   ::= element (pipeOpt | spaceOpt)*
pipeOpt     ::= gap "|" gap !(word gap "::=") element
spaceOpt    ::= gap !(word gap "::=") element
element     ::= token | nested
token       ::= "!"? atom [+*?]?
nested      ::= "!"? "(" gap statement gap ")" [+*?]?
atom        ::= string | chargroup | charset | eof | word
```

A name is given to the nodes that a reader of the parse tree looks for; the nodes without a name are
scaffolding. Two nodes of one name under each other, such as the two of a text's body, stand for one
thing that may be missing.
-/

namespace BnfTokenizer.Dialect

/-- A node of the dialect's grammar. -/
inductive Symbol where
  | wordChar
  | word
  | blankChar
  | whitespace
  | hash
  | commentChar
  | commentChars
  | commentText
  | comment
  | blank
  | blanks
  | gap
  | escape
  | anyChar
  | escapeSequence
  | quote
  | stringChar
  | stringPiece
  | stringPieces
  | stringBody
  | string
  | openBracket
  | closeBracket
  | caret
  | negated
  | setChar
  | setPiece
  | setPieces
  | setBody
  | charset
  | rangeChar
  | rangePiece
  | rangeStart
  | rangeEnd
  | dash
  | chargroup
  | eofKeyword
  | wordEnds
  | eof
  | atom
  | bang
  | leadingMark
  | modifier
  | trailingMark
  | token
  | openGroup
  | closeGroup
  | nested
  | element
  | define
  | head
  | notHead
  | pipe
  | pipeOpt
  | spaceOpt
  | continuation
  | statementOpt
  | continuations
  | statementTail
  | statement
  | sentence
  | sentences
  | sentenceList
  | finish
  | grammar
deriving DecidableEq, Repr

namespace Symbol

/-- All nodes, in the order of their addresses. -/
def all : List Symbol :=
  [wordChar, word, blankChar, whitespace, hash, commentChar, commentChars, commentText, comment, blank,
    blanks, gap, escape, anyChar, escapeSequence, quote, stringChar, stringPiece, stringPieces,
    stringBody, string, openBracket, closeBracket, caret, negated, setChar, setPiece, setPieces,
    setBody, charset, rangeChar, rangePiece, rangeStart, rangeEnd, dash, chargroup, eofKeyword,
    wordEnds, eof, atom, bang, leadingMark, modifier, trailingMark, token, openGroup, closeGroup,
    nested, element, define, head, notHead, pipe, pipeOpt, spaceOpt, continuation, statementOpt,
    continuations, statementTail, statement, sentence, sentences, sentenceList, finish, grammar]

/-- The address of a node. -/
def id (s : Symbol) : NodeId :=
  s.ctorIdx

instance : Coe Symbol NodeId := ⟨id⟩

/-- A node stands in the list at its address. -/
theorem all_getElem_id (s : Symbol) : all[s.id]? = some s := by
  cases s <;> rfl

/-- The characters of a word. -/
def wordChars : String :=
  "ABCDEFGHIJKLMNOPQRSTUVWXYZabcdefghijklmnopqrstuvwxyz0123456789_"

open Grammar (Node Kind) in
/-- What each node is called and matches. -/
def definition : Symbol → Node
  | wordChar => ⟨none, .oneOf wordChars false⟩
  | word => ⟨"word", .repetition wordChar⟩
  | blankChar => ⟨none, .oneOf " \t\r\n" false⟩
  | whitespace => ⟨"whitespace", .repetition blankChar⟩
  | hash => ⟨none, .exactly "#"⟩
  | commentChar => ⟨none, .oneOf "\n" true⟩
  | commentChars => ⟨none, .repetition commentChar⟩
  | commentText => ⟨none, .optional commentChars⟩
  | comment => ⟨"comment", .sequence [hash, commentText]⟩
  | blank => ⟨none, .choice [whitespace, comment]⟩
  | blanks => ⟨none, .repetition blank⟩
  | gap => ⟨none, .optional blanks⟩
  | escape => ⟨"escape", .exactly "\\"⟩
  | anyChar => ⟨"anyChar", .oneOf "" true⟩
  | escapeSequence => ⟨"escapeSequence", .sequence [escape, anyChar]⟩
  | quote => ⟨none, .exactly "\""⟩
  | stringChar => ⟨"strChar", .oneOf "\"\\" true⟩
  | stringPiece => ⟨none, .choice [escapeSequence, stringChar]⟩
  | stringPieces => ⟨"strOpt", .repetition stringPiece⟩
  | stringBody => ⟨"strOpt", .optional stringPieces⟩
  | string => ⟨"string", .sequence [quote, stringBody, quote]⟩
  | openBracket => ⟨none, .exactly "["⟩
  | closeBracket => ⟨none, .exactly "]"⟩
  | caret => ⟨"^", .exactly "^"⟩
  | negated => ⟨"modifiers", .optional caret⟩
  | setChar => ⟨"setChar", .oneOf "]\\" true⟩
  | setPiece => ⟨none, .choice [escapeSequence, setChar]⟩
  | setPieces => ⟨"setOpt", .repetition setPiece⟩
  | setBody => ⟨"setOpt", .optional setPieces⟩
  | charset => ⟨"charset", .sequence [openBracket, negated, setBody, closeBracket]⟩
  | rangeChar => ⟨"rangeChar", .oneOf "]\\-" true⟩
  | rangePiece => ⟨none, .choice [escapeSequence, rangeChar]⟩
  | rangeStart => ⟨"rangeStart", .sequence [rangePiece]⟩
  | rangeEnd => ⟨"rangeEnd", .sequence [rangePiece]⟩
  | dash => ⟨none, .exactly "-"⟩
  | chargroup =>
    ⟨"chargroup", .sequence [openBracket, negated, rangeStart, dash, rangeEnd, closeBracket]⟩
  | eofKeyword => ⟨none, .exactly "EOF"⟩
  | wordEnds => ⟨none, .negation wordChar⟩
  | eof => ⟨"eof", .sequence [eofKeyword, wordEnds]⟩
  | atom => ⟨none, .choice [string, chargroup, charset, eof, word]⟩
  | bang => ⟨"!", .exactly "!"⟩
  | leadingMark => ⟨"modifiers", .optional bang⟩
  | modifier => ⟨"modifier", .oneOf "+*?" false⟩
  | trailingMark => ⟨"modifiers", .optional modifier⟩
  | token => ⟨"token", .sequence [leadingMark, atom, trailingMark]⟩
  | openGroup => ⟨none, .exactly "("⟩
  | closeGroup => ⟨none, .exactly ")"⟩
  | nested =>
    ⟨"nested", .sequence [leadingMark, openGroup, gap, statement, gap, closeGroup, trailingMark]⟩
  | element => ⟨none, .choice [token, nested]⟩
  | define => ⟨"::=", .exactly "::="⟩
  | head => ⟨none, .sequence [word, gap, define]⟩
  | notHead => ⟨none, .negation head⟩
  | pipe => ⟨"|", .exactly "|"⟩
  | pipeOpt => ⟨"pipeOpt", .sequence [gap, pipe, gap, notHead, element]⟩
  | spaceOpt => ⟨"spaceOpt", .sequence [gap, notHead, element]⟩
  | continuation => ⟨none, .choice [pipeOpt, spaceOpt]⟩
  | statementOpt => ⟨"statementOpt", .sequence [continuation]⟩
  | continuations => ⟨"statementList", .repetition statementOpt⟩
  | statementTail => ⟨"statementList", .optional continuations⟩
  | statement => ⟨"statement", .sequence [element, statementTail]⟩
  | sentence => ⟨"sentence", .sequence [word, gap, define, gap, statement, gap]⟩
  | sentences => ⟨"statementList", .repetition sentence⟩
  | sentenceList => ⟨"statementList", .optional sentences⟩
  | finish => ⟨none, .endOfInput⟩
  | grammar => ⟨"grammar", .sequence [gap, sentenceList, finish]⟩

end Symbol

/-- The dialect's grammar. -/
def definitions : Grammar :=
  ⟨(Symbol.all.map Symbol.definition).toArray⟩

/-- The dialect's grammar has no defect. -/
theorem defect?_definitions : definitions.defect? Symbol.grammar = none := by
  decide +kernel

/-- The lexer that reads grammar texts. -/
def lexer : Lexer where
  grammar := definitions
  root := Symbol.grammar
  sound := defect?_definitions

end BnfTokenizer.Dialect
