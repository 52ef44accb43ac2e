import BnfTokenizer.Dialect.Draft
import BnfTokenizer.Proofs.Dialect.Reading

/-!
# Lowering without a tree

What lowering comes to does not depend on a table, or on the order in which its links are edited. A statement is a row
of bars, tokens and groups of rows, in whatever wrappers they stand (`partsOf`). The tokens of all sentences are written
into a draft first, from left to right (`Draft.number`). Then the rows are gone through sentence by sentence, and each
group, inner ones first, becomes a node behind the nodes of the tokens (`Draft.enter`). So a node is known by what is
seen of the tree, spans and all layout aside.

`draftRules` is the whole of it. The rules that it is about are the same that `rulesOf` reads (`Sentence.rule`).
-/

namespace BnfTokenizer.Dialect

open ParseTree (View)

/-! ## Parts of a statement -/

/-- The marks around a token or a group. -/
structure Marks where
  modifier : Option String
  negated : Bool

/-- One thing in a row: a bar, a token, or a group, which is a row under marks. -/
inductive Part (α : Type) where
  | bar
  | token (a : α)
  | group (marks : Marks) (row : List (Part α))

namespace Part

variable {α β : Type}

mutual

/-- The same with each token changed by `f`. -/
def map (f : α → β) : Part α → Part β
  | bar => bar
  | token a => token (f a)
  | group marks row => group marks (listMap f row)

def listMap (f : α → β) : List (Part α) → List (Part β)
  | [] => []
  | p :: ps => p.map f :: listMap f ps

end

mutual

/-- The tokens, from left to right. -/
def tokens : Part α → List α
  | bar => []
  | token a => [a]
  | group _ row => listTokens row

def listTokens : List (Part α) → List α
  | [] => []
  | p :: ps => p.tokens ++ listTokens ps

end

theorem listMap_append (f : α → β) (ps qs : List (Part α)) : listMap f (ps ++ qs) = listMap f ps ++ listMap f qs := by
  induction ps with
  | nil => rfl
  | cons p ps ih => rw [List.cons_append, listMap, listMap, ih, List.cons_append]

theorem listTokens_append (ps qs : List (Part α)) : listTokens (ps ++ qs) = listTokens ps ++ listTokens qs := by
  induction ps with
  | nil => rfl
  | cons p ps ih => rw [List.cons_append, listTokens, listTokens, ih, List.append_assoc]

mutual

theorem map_congr {f g : α → β} : ∀ {p : Part α}, (∀ a ∈ p.tokens, f a = g a) → p.map f = p.map g
  | bar, _ => rfl
  | token _, same => congrArg token (same _ List.mem_cons_self)
  | group marks _, same => congrArg (group marks) (listMap_congr same)

/-- Only the tokens decide. -/
theorem listMap_congr {f g : α → β} : ∀ {ps : List (Part α)}, (∀ a ∈ listTokens ps, f a = g a) →
    listMap f ps = listMap g ps
  | [], _ => rfl
  | _ :: _, same => by
    obtain ⟨first, others⟩ := List.forall_mem_append.mp same
    rw [listMap, listMap, map_congr first, listMap_congr others]

end

end Part

/-- A rule as it is stated: its name, and a row. -/
structure Stated (α : Type) where
  name : String
  row : List (Part α)

/-! ## Reading the tokens -/

/-- The marks that stand at a token or a group. -/
def marksOf (site : View) : Marks :=
  ⟨(site.childByName "modifier").map View.value, hasMark site "!"⟩

/-- The marks that a table has there. -/
def marksAt (t : ParseTree) (site : ParseTree.Ref) : Marks :=
  ⟨(t.childByName site "modifier").map t.value, hasChild t site "!"⟩

mutual

/-- The row that a part of a statement is, with its tokens as they are seen. -/
def partsOf : View → List (Part View)
  | .node name value span children =>
    let self := View.node name value span children
    match name with
    | some "token" => [.token self]
    | some "nested" => [.group (marksOf self) (listPartsOf children)]
    | some "|" => [.bar]
    | some "statement" | some "statementOpt" | some "pipeOpt" | some "spaceOpt" => listPartsOf children
    | _ => []

def listPartsOf : List View → List (Part View)
  | [] => []
  | v :: vs => partsOf v ++ listPartsOf vs

end

namespace Part

mutual

/-- The tokens read, from left to right. -/
def read (source : String) : Part View → Except CompileError (Part Expression)
  | bar => .ok bar
  | token v => (readToken source v).map token
  | group marks row => (listRead source row).map (group marks)

def listRead (source : String) : List (Part View) → Except CompileError (List (Part Expression))
  | [] => .ok []
  | p :: ps =>
    match p.read source with
    | .error error => .error error
    | .ok part => (listRead source ps).map (part :: ·)

end

end Part

/-- The rule that a sentence states, as a row. -/
def readStated (source : String) (sentence : View) : Except CompileError (Stated Expression) :=
  match sentence.childByName "word", sentence.childByName "statement" with
  | some word, some statement => (Part.listRead source (partsOf statement)).map fun row => ⟨word.value, row⟩
  | _, _ => misshapen source sentence

/-! ## Writing the tokens -/

namespace Draft

mutual

/-- An expression written into a draft, with one placeholder for all mentions of a rule. -/
def write (d : Draft) : Expression → Draft × NodeId
  | .literal text => d.addLiteral text
  | .charSet members negated => d.add (.oneOf members negated)
  | .charRange low high negated => d.add (.charRange low high negated)
  | .endOfInput => d.add .endOfInput
  | .rule name => d.placeholder name
  | .sequence parts =>
    let (d, ids) := d.writeAll parts
    d.add (.sequence ids)
  | .choice alternatives =>
    let (d, ids) := d.writeAll alternatives
    d.add (.choice ids)
  | .repetition inner =>
    let (d, id) := d.write inner
    d.add (.repetition id)
  | .optional inner =>
    let (d, id) := d.write inner
    d.add (.optional id)
  | .negation inner =>
    let (d, id) := d.write inner
    d.add (.negation id)

def writeAll (d : Draft) : List Expression → Draft × List NodeId
  | [] => (d, [])
  | e :: es =>
    let (d, id) := d.write e
    let (d, ids) := d.writeAll es
    (d, id :: ids)

end

mutual

/-- The tokens written into a draft, from left to right. -/
def number (d : Draft) : Part Expression → Draft × Part NodeId
  | .bar => (d, .bar)
  | .token e =>
    let (d, id) := d.write e
    (d, .token id)
  | .group marks row =>
    let (d, row) := d.numberAll row
    (d, .group marks row)

def numberAll (d : Draft) : List (Part Expression) → Draft × List (Part NodeId)
  | [] => (d, [])
  | p :: ps =>
    let (d, part) := d.number p
    let (d, row) := d.numberAll ps
    (d, part :: row)

end

/-- The tokens of all sentences written into a draft. -/
def numberStated (d : Draft) : List (Stated Expression) → Draft × List (Stated NodeId)
  | [] => (d, [])
  | s :: ss =>
    let (d, row) := d.numberAll s.row
    let (d, others) := d.numberStated ss
    (d, ⟨s.name, row⟩ :: others)

/-! ## Folding the rows -/

/-- Nodes and bars as groups of nodes between bars. -/
def between (entries : List (Option NodeId)) : List (List NodeId) :=
  (ParseTree.splitOn Option.isNone entries).map (·.filterMap id)

/-- A group of what its row has added. -/
def close (d : Draft) (marks : Marks) (entries : List (Option NodeId)) : Draft × NodeId :=
  let (d, body) := d.addAlternatives (between entries)
  d.marked body marks.modifier marks.negated

mutual

/-- What a part adds to its row, groups folded. -/
def enter (d : Draft) : Part NodeId → Draft × Option NodeId
  | .bar => (d, none)
  | .token id => (d, some id)
  | .group marks row =>
    let (d, entries) := d.enterAll row
    let (d, id) := d.close marks entries
    (d, some id)

def enterAll (d : Draft) : List (Part NodeId) → Draft × List (Option NodeId)
  | [] => (d, [])
  | p :: ps =>
    let (d, entry) := d.enter p
    let (d, entries) := d.enterAll ps
    (d, entry :: entries)

end

/-- A row as one node. -/
def foldRow (d : Draft) (row : List (Part NodeId)) : Draft × NodeId :=
  let (d, entries) := d.enterAll row
  d.addAlternatives (between entries)

end Draft

/-- One rule more in a draft and in a table. -/
def defineRule : Draft × RuleTable → Stated NodeId → Except CompileError (Draft × RuleTable)
  | (d, table), stated =>
    let (d, body) := d.foldRow stated.row
    (table.define stated.name body).map fun table => (d.calledAfter body stated.name, table)

/-- The grammar and the table of rules as they are stated: first all tokens, and then rule by rule. -/
def draftRules (stated : List (Stated Expression)) : Except CompileError (Grammar × RuleTable) :=
  let (d, rows) := Draft.numberStated {} stated
  (rows.foldlM defineRule (d, {})).map fun (d, table) => (d.grammar, table)

/-! ## The rules that are stated -/

/-- An expression under the repetition mark behind it. -/
def Expression.repeated (inner : Expression) : Option String → Expression
  | some "+" => .repetition inner
  | some "*" => .optional (.repetition inner)
  | some "?" => .optional inner
  | _ => inner

/-- An expression under some marks. -/
def Marks.around (marks : Marks) (inner : Expression) : Expression :=
  if marks.negated then .negation (inner.repeated marks.modifier) else inner.repeated marks.modifier

theorem withMarks_eq (v : View) (e : Expression) : withMarks v e = (marksOf v).around e :=
  rfl

namespace Part

mutual

/-- What a part means in its row. -/
def item : Part Expression → Item
  | bar => .bar
  | token e => .expression e
  | group marks row => .expression (marks.around (Item.fold (items row)))

def items : List (Part Expression) → List Item
  | [] => []
  | p :: ps => p.item :: items ps

end

theorem items_append (ps qs : List (Part Expression)) : items (ps ++ qs) = items ps ++ items qs := by
  induction ps with
  | nil => rfl
  | cons p ps ih => rw [List.cons_append, items, items, ih, List.cons_append]

theorem listRead_singleton (source : String) (p : Part View) : listRead source [p] = (p.read source).map fun p =>
    [p] := by
  rw [listRead, listRead]
  cases p.read source <;> rfl

theorem listRead_append (source : String) (ps qs : List (Part View)) :
    listRead source (ps ++ qs) =
      (listRead source ps).bind fun row => (listRead source qs).map (row ++ ·) := by
  induction ps with
  | nil =>
    rw [List.nil_append, listRead]
    cases listRead source qs <;> rfl
  | cons p ps ih =>
    rw [List.cons_append, listRead, listRead, ih]
    cases p.read source with
    | error error => rfl
    | ok part =>
      cases listRead source ps with
      | error error => rfl
      | ok row => cases listRead source qs <;> rfl

end Part

/-- What a stated rule says. -/
def Stated.rule (stated : Stated Expression) : Rule :=
  ⟨stated.name, Item.fold (Part.items stated.row)⟩

end BnfTokenizer.Dialect
