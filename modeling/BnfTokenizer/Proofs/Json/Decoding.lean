import BnfTokenizer.Proofs.Json.Spelling

/-!
# Reading JSON

A text is read in two passes, and each of them goes through what it reads once, from left to right. The first one makes
tokens of characters (`lexFrom`). It stands between tokens or within one (`Scan`), and a token is said when it ends; the
end of a count is only seen behind it. The second one makes a value of tokens (`Reading.step`). It keeps the lists and
records that are open, and what may come next.

> What is spelled for the tokens of a value is read as the value (`decode_of_spelled`).

So no text is spelled for two values (`Spelled.unique`), whatever blanks are in it and however its characters are
escaped.
-/

namespace BnfTokenizer.Json

/-! ## From characters to tokens -/

/-- Where the first pass stands. Of a text between quotes it keeps what was read, the last character first. -/
inductive Scan where
  | between
  | inText (read : List Char)
  /-- Behind a backslash. -/
  | escaped (read : List Char)
  /-- In the number of a character, with one digit to come and some more. -/
  | numbered (read : List Char) (more value : Nat)
  | inCount (value : Nat)

def Mark.ofChar? : Char → Option Mark
  | '\x7b' => some openRecord
  | '\x7d' => some closeRecord
  | '[' => some openList
  | ']' => some closeList
  | ':' => some colon
  | ',' => some comma
  | _ => none

namespace Scan

/-- What a character between tokens begins, and the tokens that it says. -/
def begin (c : Char) : Option (Scan × List Token) :=
  if IsBlank c then some (between, [])
  else if c = '"' then some (inText [], [])
  else if c.isDigit then some (inCount (c.toNat - '0'.toNat), [])
  else (Mark.ofChar? c).map fun m => (between, [.mark m])

/-- What comes of a number with some digits to come. With none to come it is a character, or nothing. -/
def numberFrom (read : List Char) (value : Nat) : Nat → Option (Scan × List Token)
  | more + 1 => some (numbered read more value, [])
  | 0 => if (Char.ofNat value).toNat = value then some (inText (Char.ofNat value :: read), []) else none

/-- What comes of one character more, and the tokens that it says. -/
def step : Scan → Char → Option (Scan × List Token)
  | between, c => begin c
  | inText read, c =>
    if c = '"' then some (between, [.text (String.ofList read.reverse)])
    else if c = '\\' then some (escaped read, [])
    else if c.toNat < 32 then none
    else some (inText (c :: read), [])
  | escaped read, c =>
    if c = 'u' then some (numbered read 3 0, [])
    else (short? c).map fun c => (inText (c :: read), [])
  | numbered read more value, c => (hexValue? c).bind fun digit => numberFrom read (16 * value + digit) more
  | inCount value, c =>
    if c.isDigit then
      -- No digit comes behind a leading zero.
      if value = 0 then none else some (inCount (10 * value + (c.toNat - '0'.toNat)), [])
    else (begin c).map fun next => (next.1, .count value :: next.2)

/-- The tokens that the end of a text says. -/
def finish : Scan → Option (List Token)
  | between => some []
  | inCount value => some [.count value]
  | _ => none

end Scan

/-- The tokens of a text, from where a scan stands. -/
def lexFrom (scan : Scan) : List Char → Option (List Token)
  | [] => scan.finish
  | c :: cs => (scan.step c).bind fun next => (lexFrom next.1 cs).map (next.2 ++ ·)

/-- A character that says nothing moves the scan. -/
theorem lexFrom_cons {scan next : Scan} {c : Char} (cs : List Char) (step : scan.step c = some (next, [])) :
    lexFrom scan (c :: cs) = lexFrom next cs := by
  rw [lexFrom, step, Option.bind_some]
  exact Option.map_id'

theorem lexFrom_cons_said {scan next : Scan} {c : Char} {token : Token} (cs : List Char)
    (step : scan.step c = some (next, [token])) :
    lexFrom scan (c :: cs) = (lexFrom next cs).map (token :: ·) := by
  rw [lexFrom, step, Option.bind_some]
  rfl

/-- The digits of a number are read one after the other, and then it stands for a character. -/
theorem lexFrom_digits {digits : List Char} {c : Char} (read text : List Char) (more value : Nat)
    (enough : digits.length = more + 1) (stands : hexDigits? value digits = some c.toNat) :
    lexFrom (.numbered read more value) (digits ++ text) = lexFrom (.inText (c :: read)) text := by
  induction digits generalizing more value with
  | nil => cases enough
  | cons digit digits ih =>
    rw [hexDigits?, List.foldlM_cons] at stands
    obtain ⟨next, known, stands⟩ := Option.bind_eq_some_iff.mp stands
    obtain ⟨n, value?, rfl⟩ := Option.map_eq_some_iff.mp known
    have step : (Scan.numbered read more value).step digit = Scan.numberFrom read (16 * value + n) more := by
      rw [Scan.step, value?, Option.bind_some]
    rw [List.cons_append]
    cases more with
    | succ more =>
      rw [lexFrom_cons _ step]
      exact ih more _ (Nat.succ.inj enough) stands
    | zero =>
      obtain rfl := List.eq_nil_of_length_eq_zero (Nat.succ.inj enough)
      have number : 16 * value + n = c.toNat := Option.some.inj stands
      rw [number, Scan.numberFrom, Char.ofNat_toNat, if_pos rfl] at step
      rw [lexFrom_cons _ step, List.nil_append]

/-- The characters of a text between quotes are read one after the other. -/
theorem lexFrom_body {cs body : List Char} (spelled : SpelledText cs body) (read text : List Char) :
    lexFrom (.inText read) (body ++ text) = lexFrom (.inText (cs.reverse ++ read)) text := by
  induction spelled generalizing read with
  | nil => rfl
  | @plain c cs body free rest ih =>
    obtain ⟨quote, backslash, visible⟩ := free
    have step : (Scan.inText read).step c = some (.inText (c :: read), []) := by
      rw [Scan.step, if_neg quote, if_neg backslash, if_neg (Nat.not_lt.mpr visible)]
    rw [List.cons_append, lexFrom_cons _ step, ih, List.reverse_cons, List.append_assoc, List.singleton_append]
  | @short c cs letter body stands rest ih =>
    have start : (Scan.inText read).step '\\' = some (.escaped read, []) := rfl
    have step : (Scan.escaped read).step letter = some (.inText (c :: read), []) := by
      have other : letter ≠ 'u' := by
        rintro rfl
        cases stands
      rw [Scan.step, if_neg other, stands, Option.map_some]
    rw [List.cons_append, List.cons_append, lexFrom_cons _ start, lexFrom_cons _ step, ih, List.reverse_cons,
      List.append_assoc, List.singleton_append]
  | @numbered c cs digits body four stands rest ih =>
    have start : (Scan.inText read).step '\\' = some (.escaped read, []) := rfl
    have step : (Scan.escaped read).step 'u' = some (.numbered read 3 0, []) := rfl
    rw [List.cons_append, List.cons_append, List.append_assoc, lexFrom_cons _ start, lexFrom_cons _ step,
      lexFrom_digits read _ 3 0 four stands, ih, List.reverse_cons, List.append_assoc, List.singleton_append]

/-! ### Counts -/

theorem isDigit_digitChar {n : Nat} (small : n < 10) : (Nat.digitChar n).isDigit = true := by
  rw [Nat.isDigit_digitChar]
  exact decide_eq_true small

/-- What a digit begins. -/
theorem begin_digitChar {n : Nat} (small : n < 10) : Scan.begin (Nat.digitChar n) = some (.inCount n, []) := by
  have all : ∀ n < 10, ¬IsBlank (Nat.digitChar n) ∧ Nat.digitChar n ≠ '"' := by decide
  obtain ⟨blank, quote⟩ := all n small
  rw [Scan.begin, if_neg blank, if_neg quote, if_pos (isDigit_digitChar small)]
  exact congrArg (fun n => some (Scan.inCount n, [])) (Nat.toNat_digitChar_sub_48_of_lt_ten small)

/-- The digits of a count lead to the count. -/
theorem lexFrom_toDigits (n : Nat) (text : List Char) :
    lexFrom .between (Nat.toDigits 10 n ++ text) = lexFrom (.inCount n) text := by
  induction n using Nat.strongRecOn generalizing text with
  | ind n ih =>
    by_cases small : n < 10
    · rw [Nat.toDigits_of_lt_base small]
      exact lexFrom_cons text (begin_digitChar small)
    · have large := Nat.not_lt.mp small
      have digit : n % 10 < 10 := Nat.mod_lt n (by decide)
      have led : n / 10 ≠ 0 := by omega
      have step : (Scan.inCount (n / 10)).step (Nat.digitChar (n % 10)) =
          some (.inCount (10 * (n / 10) + n % 10), []) := by
        rw [Scan.step, if_pos (isDigit_digitChar digit), if_neg led]
        exact congrArg (fun d => some (Scan.inCount (10 * (n / 10) + d), []))
          (Nat.toNat_digitChar_sub_48_of_lt_ten digit)
      rw [Nat.toDigits_of_base_le (by decide) large, List.append_assoc, ih _ (by omega), List.singleton_append,
        lexFrom_cons _ step, Nat.div_add_mod]

/-- A count is said in front of what does not go on with a digit. -/
theorem lexFrom_inCount (n : Nat) {text : List Char} (ends : NoDigit text) :
    lexFrom (.inCount n) text = (lexFrom .between text).map (.count n :: ·) := by
  cases text with
  | nil => rfl
  | cons c cs =>
    have apart : ¬c.isDigit = true := by
      rw [ends c rfl]
      exact Bool.false_ne_true
    have step : (Scan.inCount n).step c = (Scan.begin c).map fun next => (next.1, .count n :: next.2) := if_neg apart
    rw [lexFrom, lexFrom, step, Option.bind_map, Option.map_bind, Scan.step]
    refine congrArg _ (funext fun next => ?_)
    rw [Function.comp_apply, Function.comp_apply, Option.map_map]
    rfl

/-- **The first pass reads what is spelled.** -/
theorem lexFrom_of_spelled {tokens : List Token} {text : List Char} (spelled : Spelled tokens text) :
    lexFrom .between text = some tokens := by
  induction spelled with
  | nil => rfl
  | blank is rest ih =>
    have step : Scan.between.step _ = some (.between, []) := if_pos is
    rw [lexFrom_cons _ step, ih]
  | @mark m tokens text rest ih =>
    have step : Scan.between.step m.char = some (.between, [.mark m]) := by
      cases m <;> rfl
    rw [lexFrom_cons_said _ step, ih, Option.map_some]
  | @text value body tokens text inner rest ih =>
    have start : Scan.between.step '"' = some (.inText [], []) := rfl
    have stop : (Scan.inText value.toList.reverse).step '"' = some (.between, [.text value]) := by
      rw [Scan.step, if_pos rfl, List.reverse_reverse, String.ofList_toList]
    rw [lexFrom_cons _ start, lexFrom_body inner, List.append_nil, lexFrom_cons_said _ stop, ih, Option.map_some]
  | count ends rest ih => rw [lexFrom_toDigits, lexFrom_inCount _ ends, ih, Option.map_some]

/-! ## From tokens to a value -/

/-- A list or a record that is open, with the parts that were read, the last one first. In a record the value of a key
is still to come. -/
inductive Frame where
  | items (done : List Json)
  | fields (done : List (String × Json)) (key : String)

/-- Where the second pass stands, inside some open lists and records. -/
inductive Reading where
  | beforeValue (around : List Frame)
  /-- Before the first item of a list, or its end. -/
  | inList (around : List Frame)
  /-- Before the first key of a record, or its end. -/
  | inRecord (around : List Frame)
  | beforeKey (done : List (String × Json)) (around : List Frame)
  | behindKey (done : List (String × Json)) (key : String) (around : List Frame)
  | behindValue (value : Json) (around : List Frame)

namespace Reading

/-- What a token begins where a value may stand. -/
def begin (around : List Frame) : Token → Option Reading
  | .text value => some (behindValue (.text value) around)
  | .count value => some (behindValue (.count value) around)
  | .mark .openList => some (inList around)
  | .mark .openRecord => some (inRecord around)
  | .mark _ => none

/-- What comes of one token more. -/
def step : Reading → Token → Option Reading
  | beforeValue around, token => begin around token
  | inList around, .mark .closeList => some (behindValue (.list []) around)
  | inList around, token => begin (.items [] :: around) token
  | inRecord around, .mark .closeRecord => some (behindValue (.record []) around)
  | inRecord around, .text key => some (behindKey [] key around)
  | beforeKey done around, .text key => some (behindKey done key around)
  | behindKey done key around, .mark .colon => some (beforeValue (.fields done key :: around))
  | behindValue value (.items done :: around), .mark .comma => some (beforeValue (.items (value :: done) :: around))
  | behindValue value (.items done :: around), .mark .closeList =>
    some (behindValue (.list (value :: done).reverse) around)
  | behindValue value (.fields done key :: around), .mark .comma => some (beforeKey ((key, value) :: done) around)
  | behindValue value (.fields done key :: around), .mark .closeRecord =>
    some (behindValue (.record ((key, value) :: done).reverse) around)
  | _, _ => none

/-- What comes of some tokens more. -/
def after (reading : Reading) (tokens : List Token) : Option Reading :=
  tokens.foldlM step reading

theorem after_cons {reading next : Reading} {token : Token} (tokens : List Token)
    (step : reading.step token = some next) : reading.after (token :: tokens) = next.after tokens := by
  rw [after, List.foldlM_cons, step]
  rfl

/-- A first item is read like any other. -/
theorem inList_after (around : List Frame) (first : Json) (items : List Json) (tokens : List Token) :
    (inList around).after ([.mark .comma].intercalate (itemTokens (first :: items)) ++ tokens) =
      (beforeValue (.items [] :: around)).after ([.mark .comma].intercalate (itemTokens (first :: items)) ++ tokens) := by
  have begins : ∀ tokens, (inList around).after (first.tokens ++ tokens) =
      (beforeValue (.items [] :: around)).after (first.tokens ++ tokens) := fun _ => by
    cases first <;> rfl
  cases items with
  | nil =>
    rw [itemTokens, itemTokens, List.intercalate_singleton]
    exact begins tokens
  | cons next items =>
    rw [itemTokens, itemTokens, List.intercalate_cons_cons, List.append_assoc, List.append_assoc]
    exact begins _

/-- A key, a colon and the beginning of the value. -/
theorem field_after {reading : Reading} {done : List (String × Json)} {key : String} {around : List Frame}
    (step : reading.step (.text key) = some (behindKey done key around)) (tokens : List Token) :
    reading.after (.text key :: .mark .colon :: tokens) = (beforeValue (.fields done key :: around)).after tokens :=
  (after_cons _ step).trans (after_cons _ rfl)

mutual

/-- **The tokens of a value are read as the value**, inside anything and in front of anything. -/
theorem after_tokens : ∀ (value : Json) (around : List Frame) (tokens : List Token),
    (beforeValue around).after (value.tokens ++ tokens) = (behindValue value around).after tokens
  | .text _, _, _ | .count _, _, _ => rfl
  | .list [], _, _ => rfl
  | .list (first :: items), around, tokens => by
    have rest := after_items (first :: items) [] around tokens (List.cons_ne_nil _ _)
    rw [Json.tokens, List.cons_append, List.append_assoc, after_cons _ rfl, inList_after]
    exact rest
  | .record [], _, _ => rfl
  | .record (first :: fields), around, tokens => by
    have rest := after_fields (first :: fields) [] (inRecord around) around tokens (fun _ => rfl) (List.cons_ne_nil _ _)
    rw [Json.tokens, List.cons_append, List.append_assoc, after_cons _ rfl]
    exact rest

/-- The rest of a list. -/
theorem after_items : ∀ (items done : List Json) (around : List Frame) (tokens : List Token), items ≠ [] →
    (beforeValue (.items done :: around)).after
        ([.mark .comma].intercalate (itemTokens items) ++ ([.mark .closeList] ++ tokens)) =
      (behindValue (.list (done.reverse ++ items)) around).after tokens
  | [], _, _, _, left => absurd rfl left
  | [item], done, around, tokens, _ => by
    rw [itemTokens, itemTokens, List.intercalate_singleton, after_tokens item, List.singleton_append, after_cons _ rfl,
      List.reverse_cons]
  | item :: next :: items, done, around, tokens, _ => by
    rw [itemTokens, itemTokens, List.intercalate_cons_cons, List.append_assoc, List.append_assoc, after_tokens item,
      List.singleton_append, after_cons _ rfl]
    have rest := after_items (next :: items) (item :: done) around tokens (List.cons_ne_nil _ _)
    rw [List.reverse_cons, List.append_assoc, List.singleton_append] at rest
    exact rest

/-- The rest of a record. -/
theorem after_fields : ∀ (fields done : List (String × Json)) (reading : Reading) (around : List Frame)
    (tokens : List Token), (∀ key, reading.step (.text key) = some (behindKey done key around)) → fields ≠ [] →
    reading.after ([.mark .comma].intercalate (fieldTokens fields) ++ ([.mark .closeRecord] ++ tokens)) =
      (behindValue (.record (done.reverse ++ fields)) around).after tokens
  | [], _, _, _, _, _, left => absurd rfl left
  | [(key, value)], done, reading, around, tokens, step, _ => by
    rw [fieldTokens, fieldTokens, List.intercalate_singleton, List.cons_append, List.cons_append,
      field_after (step key), after_tokens value, List.singleton_append, after_cons _ rfl, List.reverse_cons]
  | (key, value) :: next :: fields, done, reading, around, tokens, step, _ => by
    have rest := after_fields (next :: fields) ((key, value) :: done) (beforeKey ((key, value) :: done) around) around
      tokens (fun _ => rfl) (List.cons_ne_nil _ _)
    rw [List.reverse_cons, List.append_assoc, List.singleton_append] at rest
    rw [fieldTokens, fieldTokens, List.intercalate_cons_cons, List.append_assoc, List.append_assoc, List.cons_append,
      List.cons_append, field_after (step key), after_tokens value, List.singleton_append, after_cons _ rfl]
    exact rest

end

end Reading

/-- The value of some tokens. -/
def valueOf? (tokens : List Token) : Option Json :=
  match (Reading.beforeValue []).after tokens with
  | some (.behindValue value []) => some value
  | _ => none

theorem valueOf?_tokens (value : Json) : valueOf? value.tokens = some value := by
  have read := Reading.after_tokens value [] []
  rw [List.append_nil] at read
  rw [valueOf?, read]
  rfl

/-! ## Both passes -/

/-- The value of a text. -/
def decode (text : List Char) : Option Json :=
  (lexFrom .between text).bind valueOf?

/-- **What is spelled for a value is read as the value.** -/
theorem decode_of_spelled {value : Json} {text : List Char} (spelled : Spelled value.tokens text) :
    decode text = some value := by
  rw [decode, lexFrom_of_spelled spelled, Option.bind_some, valueOf?_tokens]

/-- No text is spelled for two values. -/
theorem Spelled.unique {value other : Json} {text : List Char} (spelled : Spelled value.tokens text)
    (again : Spelled other.tokens text) : value = other :=
  Option.some.inj ((decode_of_spelled spelled).symm.trans (decode_of_spelled again))

end BnfTokenizer.Json
