import Mathlib.Data.List.Forall2
import BnfTokenizer.Json.Basic

/-!
# How JSON is spelled

A JSON text is a row of tokens, with blanks before, between and behind them. The tokens of a value are those of its parts
with marks around them and commas between them (`Json.tokens`), and they say nothing of blanks. What may be written for a
row of tokens is `Spelled`: a text between quotes with any of its characters escaped, a count by its decimal digits. Two
counts could run together, so a count ends before something that is no digit.

> Both layouts of a value spell the tokens of the value (`spelled_compact`, `spelled_pretty`).

A part spells its tokens in front of anything that does not go on with a digit (`Spells`), and where it ends with a mark
or a quote in front of anything (`Closes`). The layouts differ in the blanks around the parts of a list or a record and
in nothing else, so one law is enough for them (`Closes.bracketed`).

This is the part of JSON that is written here. Fractions, signs and exponents are left out, and so are the three words,
and two escapes for one character.
-/

namespace BnfTokenizer

namespace Json

/-! ## Tokens -/

/-- The marks that give a JSON text its structure. -/
inductive Mark where
  | openRecord
  | closeRecord
  | openList
  | closeList
  | colon
  | comma
deriving DecidableEq, Repr

/-- The character of a mark. -/
def Mark.char : Mark → Char
  | openRecord => '\x7b'
  | closeRecord => '\x7d'
  | openList => '['
  | closeList => ']'
  | colon => ':'
  | comma => ','

/-- A mark, a text or a count. -/
inductive Token where
  | mark (mark : Mark)
  | text (value : String)
  | count (value : Nat)
deriving DecidableEq, Repr

mutual

/-- The tokens of a value. -/
def tokens : Json → List Token
  | text value => [.text value]
  | count value => [.count value]
  | list items => .mark .openList :: ([.mark .comma].intercalate (itemTokens items) ++ [.mark .closeList])
  | record fields => .mark .openRecord :: ([.mark .comma].intercalate (fieldTokens fields) ++ [.mark .closeRecord])

/-- The tokens of the items of a list, apart. -/
def itemTokens : List Json → List (List Token)
  | [] => []
  | item :: items => item.tokens :: itemTokens items

/-- The tokens of the fields of a record, apart; a field has its name and a colon in front. -/
def fieldTokens : List (String × Json) → List (List Token)
  | [] => []
  | (key, value) :: fields => (.text key :: .mark .colon :: value.tokens) :: fieldTokens fields

end

/-! ## Spelling -/

/-- Blanks between tokens. -/
def IsBlank (c : Char) : Prop :=
  c = ' ' ∨ c = '\t' ∨ c = '\n' ∨ c = '\r'

instance (c : Char) : Decidable (IsBlank c) :=
  inferInstanceAs (Decidable (_ ∨ _ ∨ _ ∨ _))

/-- The character that stands for itself or another one behind a backslash. -/
def short? : Char → Option Char
  | '"' => some '"'
  | '\\' => some '\\'
  | '/' => some '/'
  | 'b' => some '\x08'
  | 'f' => some '\x0c'
  | 'n' => some '\n'
  | 'r' => some '\r'
  | 't' => some '\t'
  | _ => none

/-- The value of a hexadecimal digit, in lower or upper case. -/
def hexValue? (c : Char) : Option Nat :=
  if c.isDigit then some (c.toNat - '0'.toNat)
  else if 'a' ≤ c ∧ c ≤ 'f' then some (c.toNat - 'a'.toNat + 10)
  else if 'A' ≤ c ∧ c ≤ 'F' then some (c.toNat - 'A'.toNat + 10)
  else none

/-- One hexadecimal digit more. -/
def hexDigits? (value : Nat) (digits : List Char) : Option Nat :=
  digits.foldlM (fun value digit => (hexValue? digit).map (16 * value + ·)) value

/-- What may stand between quotes for some characters. -/
inductive SpelledText : List Char → List Char → Prop
  | nil : SpelledText [] []
  | plain {c cs body} (free : c ≠ '"' ∧ c ≠ '\\' ∧ 32 ≤ c.toNat) (rest : SpelledText cs body) :
      SpelledText (c :: cs) (c :: body)
  | short {c cs letter body} (stands : short? letter = some c) (rest : SpelledText cs body) :
      SpelledText (c :: cs) ('\\' :: letter :: body)
  | numbered {c cs digits body} (four : digits.length = 4) (stands : hexDigits? 0 digits = some c.toNat)
      (rest : SpelledText cs body) : SpelledText (c :: cs) ('\\' :: 'u' :: (digits ++ body))

/-- Does a text not go on with a digit? -/
def NoDigit (text : List Char) : Prop :=
  ∀ c ∈ text.head?, c.isDigit = false

/-- What may be written for a row of tokens. -/
inductive Spelled : List Token → List Char → Prop
  | nil : Spelled [] []
  | blank {c tokens text} (is : IsBlank c) (rest : Spelled tokens text) : Spelled tokens (c :: text)
  | mark {m tokens text} (rest : Spelled tokens text) : Spelled (.mark m :: tokens) (m.char :: text)
  | text {value body tokens text} (inner : SpelledText value.toList body) (rest : Spelled tokens text) :
      Spelled (.text value :: tokens) ('"' :: (body ++ '"' :: text))
  | count {value tokens text} (ends : NoDigit text) (rest : Spelled tokens text) :
      Spelled (.count value :: tokens) (Nat.toDigits 10 value ++ text)

/-! ## Parts of a text -/

/-- A part spells tokens in front of what does not go on with a digit. -/
def Spells (tokens : List Token) (text : List Char) : Prop :=
  ∀ more rest, NoDigit rest → Spelled more rest → Spelled (tokens ++ more) (text ++ rest)

/-- A part spells tokens in front of anything. -/
def Closes (tokens : List Token) (text : List Char) : Prop :=
  ∀ more rest, Spelled more rest → Spelled (tokens ++ more) (text ++ rest)

variable {first later : List Token} {written behind : List Char}

theorem Spells.spelled (spells : Spells first written) : Spelled first written := by
  have whole := spells [] [] (by rintro _ ⟨⟩) .nil
  rwa [List.append_nil, List.append_nil] at whole

namespace Closes

theorem spells (closes : Closes first written) : Spells first written :=
  fun more rest _ spelled => closes more rest spelled

/-- Blanks stand anywhere. -/
theorem blanks (blank : ∀ c ∈ written, IsBlank c) : Closes [] written := by
  intro more rest spelled
  induction written with
  | nil => exact spelled
  | cons c written ih =>
    obtain ⟨is, others⟩ := List.forall_mem_cons.mp blank
    exact .blank is (ih others)

theorem mark (m : Mark) : Closes [.mark m] [m.char] :=
  fun _ _ spelled => .mark spelled

/-- What closes may stand before anything that is spelled. -/
theorem before (closes : Closes first written) (spells : Spells later behind) :
    Spells (first ++ later) (written ++ behind) := by
  intro more rest ends spelled
  rw [List.append_assoc, List.append_assoc]
  exact closes _ _ (spells more rest ends spelled)

/-- Two that close stand one behind the other. -/
theorem append (closes : Closes first written) (next : Closes later behind) : Closes (first ++ later)
    (written ++ behind) := by
  intro more rest spelled
  rw [List.append_assoc, List.append_assoc]
  exact closes _ _ (next more rest spelled)

end Closes

/-- What closes and does not begin with a digit closes what stands before it. -/
theorem Spells.closed (spells : Spells first written) (closes : Closes later behind) (some : behind ≠ [])
    (ends : NoDigit behind) : Closes (first ++ later) (written ++ behind) := by
  intro more rest spelled
  rw [List.append_assoc, List.append_assoc]
  refine spells _ _ ?_ (closes more rest spelled)
  obtain ⟨c, behind, rfl⟩ := List.exists_cons_of_ne_nil some
  exact ends

/-! ## Texts and counts -/

/-- A hexadecimal digit is read back. -/
theorem hexValue?_hexDigit (n : Nat) : hexValue? (hexDigit n) = some (n % 16) := by
  have small : ∀ n < 16, hexValue? (Nat.digitChar n) = some n := by decide
  exact small _ (Nat.mod_lt n (by decide))

/-- A control character is written by its number. -/
theorem hexDigits?_control {c : Char} (control : c.toNat < 32) :
    hexDigits? 0 ['0', '0', hexDigit (c.toNat / 16), hexDigit c.toNat] = some c.toNat := by
  have number : 16 * (16 * (16 * (16 * 0 + 0) + 0) + c.toNat / 16 % 16) + c.toNat % 16 = c.toNat := by omega
  have zero : hexValue? '0' = some 0 := by decide
  simp only [hexDigits?, List.foldlM_cons, List.foldlM_nil, zero, hexValue?_hexDigit, Option.map_some,
    Option.bind_eq_bind, Option.bind_some, Option.pure_def]
  exact congrArg some number

/-- An escaped character spells the character. The cases are those of the escape. -/
theorem SpelledText.escaped (c : Char) {cs body : List Char} (rest : SpelledText cs body) :
    SpelledText (c :: cs) (escapeChar c ++ body) := by
  unfold escapeChar
  split
  case h_8 quote backslash _ _ _ _ _ =>
    split
    · next control => exact .numbered rfl (hexDigits?_control control) rest
    · next control => exact .plain ⟨quote, backslash, Nat.not_lt.mp control⟩ rest
  all_goals exact .short rfl rest

/-- Characters that are escaped one by one are spelled one by one. -/
theorem spelledText_flatMap (cs : List Char) : SpelledText cs (cs.flatMap escapeChar) := by
  induction cs with
  | nil => exact .nil
  | cons c cs ih => exact .escaped c ih

theorem toList_quoted (value : String) :
    (quoted value).toList = '"' :: (value.toList.flatMap escapeChar ++ ['"']) := by
  rw [quoted, String.toList_append, String.toList_append, String.toList_ofList, String.toList_ofList]
  rfl

/-- A quoted text is closed by its quote. -/
theorem Closes.text (value : String) : Closes [.text value] (quoted value).toList := by
  intro more rest spelled
  have whole := Spelled.text (spelledText_flatMap value.toList) spelled
  rw [toList_quoted]
  simpa using whole

/-- A number is spelled, but not closed: a digit behind it would belong to it. -/
theorem Spells.count (value : Nat) : Spells [.count value] (toString value).toList := by
  intro more rest ends spelled
  rw [Nat.toString_eq_ofList_toDigits, String.toList_ofList]
  exact .count ends spelled

/-! ## Lists and records -/

/-- Parts with commas between them. -/
theorem Spells.separated {blanks : List Char} (blank : ∀ c ∈ blanks, IsBlank c) {parts : List (List Token)}
    {texts : List (List Char)} (each : List.Forall₂ Spells parts texts) :
    Spells ([.mark .comma].intercalate parts) ((',' :: blanks).intercalate texts) := by
  have comma : Closes [.mark .comma] (',' :: blanks) := (Closes.mark .comma).append (.blanks blank)
  induction each with
  | nil => exact (Closes.blanks (List.forall_mem_nil _)).spells
  | cons here others ih =>
    cases others with
    | nil =>
      rw [List.intercalate_singleton, List.intercalate_singleton]
      exact here
    | cons next others =>
      rw [List.intercalate_cons_cons, List.intercalate_cons_cons]
      exact (here.closed comma (List.cons_ne_nil _ _) (by rintro _ ⟨⟩; rfl)).before ih

/-- A list or a record, with any blanks around its parts. -/
theorem Closes.bracketed (opening : Mark) {closing : Mark} (ends : closing.char.isDigit = false)
    (inside between behind : List Char) (blank : ∀ c ∈ inside ++ (between ++ behind), IsBlank c)
    {parts : List (List Token)} {texts : List (List Char)} (each : List.Forall₂ Spells parts texts) :
    Closes (.mark opening :: ([.mark .comma].intercalate parts ++ [.mark closing]))
      (opening.char :: (inside ++ ((',' :: between).intercalate texts ++ (behind ++ [closing.char])))) := by
  obtain ⟨before, blank⟩ := List.forall_mem_append.mp blank
  obtain ⟨amid, after⟩ := List.forall_mem_append.mp blank
  have close : Closes [.mark closing] (behind ++ [closing.char]) := (Closes.blanks after).append (.mark closing)
  refine (Closes.mark opening).append ((Closes.blanks before).append ?_)
  refine (Spells.separated amid each).closed close (List.append_ne_nil_of_right_ne_nil _ (List.cons_ne_nil _ _)) ?_
  cases behind with
  | nil =>
    rintro _ ⟨⟩
    exact ends
  | cons c behind =>
    rintro _ ⟨⟩
    obtain ⟨rfl | rfl | rfl | rfl, _⟩ := List.forall_mem_cons.mp after <;> rfl

/-! ## Both layouts -/

theorem toList_compact_list (items : List Json) :
    (compact (.list items)).toList =
      '[' :: ([] ++ ([','].intercalate ((compactItems items).map String.toList) ++ ([] ++ [']']))) := by
  rw [compact, String.toList_append, String.toList_append, String.toList_intercalate]
  rfl

theorem toList_compact_record (fields : List (String × Json)) :
    (compact (.record fields)).toList =
      '\x7b' :: ([] ++ ([','].intercalate ((compactFields fields).map String.toList) ++ ([] ++ ['\x7d']))) := by
  rw [compact, String.toList_append, String.toList_append, String.toList_intercalate]
  rfl

/-- A key, a colon and perhaps a blank, and a value. -/
theorem Spells.field (key : String) {blanks : List Char} (blank : ∀ c ∈ blanks, IsBlank c)
    (spells : Spells first written) :
    Spells (.text key :: .mark .colon :: first) ((quoted key).toList ++ (':' :: blanks ++ written)) :=
  (Closes.text key).before (((Closes.mark .colon).append (.blanks blank)).before spells)

mutual

/-- **The compact layout spells the tokens.** One case for each kind of value, one theorem for each kind of list. -/
theorem spells_compact : ∀ json : Json, Spells json.tokens json.compact.toList
  | .text value => (Closes.text value).spells
  | .count value => Spells.count value
  | .list items => by
    rw [toList_compact_list]
    exact (Closes.bracketed .openList rfl [] [] [] (List.forall_mem_nil _) (spells_compactItems items)).spells
  | .record fields => by
    rw [toList_compact_record]
    exact (Closes.bracketed .openRecord rfl [] [] [] (List.forall_mem_nil _) (spells_compactFields fields)).spells

theorem spells_compactItems : ∀ items : List Json,
    List.Forall₂ Spells (itemTokens items) ((compactItems items).map String.toList)
  | [] => .nil
  | item :: items => .cons (spells_compact item) (spells_compactItems items)

theorem spells_compactFields : ∀ fields : List (String × Json),
    List.Forall₂ Spells (fieldTokens fields) ((compactFields fields).map String.toList)
  | [] => .nil
  | (key, value) :: fields => by
    have field := Spells.field key (List.forall_mem_nil _) (spells_compact value)
    refine .cons ?_ (spells_compactFields fields)
    rw [String.toList_append, String.toList_append, List.append_assoc]
    exact field

end

/-- A new line with its indentation is blank. -/
theorem isBlank_indent {c : Char} (level : Nat) (mem : c ∈ '\n' :: (Text.indent level).toList) : IsBlank c := by
  rcases List.mem_cons.mp mem with rfl | blank
  · exact .inr (.inr (.inl rfl))
  · rw [Text.indent, String.toList_ofList] at blank
    exact .inl (List.eq_of_mem_replicate blank)

/-- A list or a record on lines of its own. -/
theorem Closes.block (left right : String) (opening closing : Mark) (ends : closing.char.isDigit = false)
    (opens : left.toList = [opening.char]) (shuts : right.toList = [closing.char]) (level : Nat)
    {parts : List (List Token)} {lines : List String} (each : List.Forall₂ Spells parts (lines.map String.toList)) :
    Closes (.mark opening :: ([.mark .comma].intercalate parts ++ [.mark closing]))
      (Json.block left right level lines).toList := by
  cases lines with
  | nil =>
    have together := Closes.bracketed opening ends [] [] [] (List.forall_mem_nil IsBlank) each
    rwa [Json.block, String.toList_append, opens, shuts]
  | cons line lines =>
    have blank : ∀ c ∈ '\n' :: (Text.indent (level + 1)).toList ++ ('\n' :: (Text.indent (level + 1)).toList ++
        '\n' :: (Text.indent level).toList), IsBlank c := by
      have inner := fun c => isBlank_indent (c := c) (level + 1)
      exact List.forall_mem_append.mpr ⟨inner, List.forall_mem_append.mpr ⟨inner, fun c => isBlank_indent level⟩⟩
    have together := Closes.bracketed opening ends _ _ _ blank each
    have newline : "\n".toList = ['\n'] := rfl
    have comma : ",".toList = [','] := rfl
    rw [Json.block]
    · simp only [String.toList_append, opens, shuts, newline, comma, String.toList_intercalate]
      simpa only [List.append_assoc, List.cons_append, List.nil_append] using together
    · exact List.cons_ne_nil _ _

mutual

/-- **The indented layout spells the same tokens**, at every level. -/
theorem spells_prettyAt (level : Nat) : ∀ json : Json, Spells json.tokens (prettyAt level json).toList
  | .text value => (Closes.text value).spells
  | .count value => Spells.count value
  | .list items =>
    (Closes.block "[" "]" .openList .closeList rfl rfl rfl level (spells_prettyItems (level + 1) items)).spells
  | .record fields =>
    (Closes.block "\x7b" "\x7d" .openRecord .closeRecord rfl rfl rfl level
      (spells_prettyFields (level + 1) fields)).spells

theorem spells_prettyItems (level : Nat) : ∀ items : List Json,
    List.Forall₂ Spells (itemTokens items) ((prettyItems level items).map String.toList)
  | [] => .nil
  | item :: items => .cons (spells_prettyAt level item) (spells_prettyItems level items)

theorem spells_prettyFields (level : Nat) : ∀ fields : List (String × Json),
    List.Forall₂ Spells (fieldTokens fields) ((prettyFields level fields).map String.toList)
  | [] => .nil
  | (key, value) :: fields => by
    have blank : ∀ c ∈ [' '], IsBlank c := List.forall_mem_singleton.mpr (.inl rfl)
    have field := Spells.field key blank (spells_prettyAt level value)
    refine .cons ?_ (spells_prettyFields level fields)
    rw [String.toList_append, String.toList_append, List.append_assoc]
    exact field

end

theorem spelled_compact (json : Json) : Spelled json.tokens json.compact.toList :=
  (spells_compact json).spelled

theorem spelled_pretty (json : Json) : Spelled json.tokens json.pretty.toList :=
  (spells_prettyAt 0 json).spelled

end Json

end BnfTokenizer
