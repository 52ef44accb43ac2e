/-!
# Byte offsets into text

A text is a list of characters, and a position in it is a number of UTF-8 bytes counted from its
start. `takeBytes n` and `dropBytes n` cut a text at byte `n`, and

> an offset inside a character, or past the end, is rounded down to the character boundary before it

so the two parts always join to the text (`takeBytes_append_dropBytes`) and no character is ever cut.
`lineCol` and `describeAt` are read off these two parts; neither has a precondition on its offset.

Columns count characters. How wide a character is drawn belongs to `Diagnostic.Width`.
-/

namespace BnfTokenizer.Text

/-! ## Widths and cuts -/

/-- The number of bytes a text takes in UTF-8. -/
def byteLength : List Char → Nat
  | [] => 0
  | c :: cs => c.utf8Size + byteLength cs

/-- The characters that end at byte `n` or before it. -/
def takeBytes (n : Nat) : List Char → List Char
  | [] => []
  | c :: cs => if c.utf8Size ≤ n then c :: takeBytes (n - c.utf8Size) cs else []

/-- The characters that end after byte `n`. -/
def dropBytes (n : Nat) : List Char → List Char
  | [] => []
  | c :: cs => if c.utf8Size ≤ n then dropBytes (n - c.utf8Size) cs else c :: cs

/-- The last character boundary that is not after byte `n`. -/
def floorBoundary (cs : List Char) (n : Nat) : Nat :=
  byteLength (takeBytes n cs)

/-- Byte `n` lies between two characters, or at one of the ends. -/
def isBoundary (cs : List Char) (n : Nat) : Bool :=
  floorBoundary cs n == n

/-- The text between two byte offsets. -/
def slice (cs : List Char) (start stop : Nat) : List Char :=
  takeBytes (stop - start) (dropBytes start cs)

/-- Cutting loses nothing. -/
theorem takeBytes_append_dropBytes (n : Nat) (cs : List Char) :
    takeBytes n cs ++ dropBytes n cs = cs := by
  induction cs generalizing n with
  | nil => rfl
  | cons c cs ih =>
    by_cases h : c.utf8Size ≤ n
    · simp [takeBytes, dropBytes, h, ih]
    · simp [takeBytes, dropBytes, h]

@[simp] theorem byteLength_append (as bs : List Char) :
    byteLength (as ++ bs) = byteLength as + byteLength bs := by
  induction as with
  | nil => simp [byteLength]
  | cons a as ih => simp [byteLength, ih, Nat.add_assoc]

/-- No character fits into no bytes. -/
@[simp] theorem takeBytes_zero (cs : List Char) : takeBytes 0 cs = [] := by
  cases cs with
  | nil => rfl
  | cons c cs => simp [takeBytes, Nat.not_le.mpr c.utf8Size_pos]

@[simp] theorem dropBytes_zero (cs : List Char) : dropBytes 0 cs = cs := by
  simpa using takeBytes_append_dropBytes 0 cs

/-- A cut between two texts gives the first of them. -/
theorem takeBytes_byteLength_append (as bs : List Char) : takeBytes (byteLength as) (as ++ bs) = as := by
  induction as with
  | nil => simp [byteLength]
  | cons a as ih => simp [byteLength, takeBytes, ih]

/-- A cut between two texts leaves the second of them. -/
theorem dropBytes_byteLength_append (as bs : List Char) : dropBytes (byteLength as) (as ++ bs) = bs := by
  induction as with
  | nil => simp [byteLength]
  | cons a as ih => simp [byteLength, dropBytes, ih]

/-- The text between the ends of two others. -/
theorem slice_byteLength_append (as bs cs : List Char) :
    slice (as ++ (bs ++ cs)) (byteLength as) (byteLength as + byteLength bs) = bs := by
  rw [slice, dropBytes_byteLength_append, Nat.add_sub_cancel_left, takeBytes_byteLength_append]

/-- Byte `n` is a boundary exactly where the text can be parted there. -/
theorem isBoundary_iff (cs : List Char) (n : Nat) :
    isBoundary cs n = true ↔ ∃ as bs, cs = as ++ bs ∧ byteLength as = n := by
  rw [isBoundary, beq_iff_eq]
  constructor
  · intro h
    exact ⟨takeBytes n cs, dropBytes n cs, (takeBytes_append_dropBytes n cs).symm, h⟩
  · rintro ⟨as, bs, rfl, rfl⟩
    rw [floorBoundary, takeBytes_byteLength_append]

/-- Rounding down never goes up. -/
theorem floorBoundary_le (cs : List Char) (n : Nat) : floorBoundary cs n ≤ n := by
  unfold floorBoundary
  induction cs generalizing n with
  | nil => simp [takeBytes, byteLength]
  | cons c cs ih =>
    by_cases h : c.utf8Size ≤ n
    · have := ih (n - c.utf8Size)
      simp only [takeBytes, h, if_true, byteLength]
      omega
    · simp [takeBytes, h, byteLength]

/-- A cut falls where its offset is rounded down to. -/
theorem takeBytes_floorBoundary (cs : List Char) (n : Nat) :
    takeBytes (floorBoundary cs n) cs = takeBytes n cs := by
  have h := takeBytes_byteLength_append (takeBytes n cs) (dropBytes n cs)
  rwa [takeBytes_append_dropBytes] at h

theorem dropBytes_floorBoundary (cs : List Char) (n : Nat) :
    dropBytes (floorBoundary cs n) cs = dropBytes n cs := by
  have h := dropBytes_byteLength_append (takeBytes n cs) (dropBytes n cs)
  rwa [takeBytes_append_dropBytes] at h

/-! ## Lines and columns -/

/-- A place in a text as people name it; both numbers start at 1. -/
structure LineCol where
  line : Nat
  column : Nat
deriving DecidableEq, Repr

/-- The part of a text after its last newline. -/
def lastLine (cs : List Char) : List Char :=
  (cs.reverse.takeWhile (· != '\n')).reverse

/-- The line and column of a byte offset. -/
def lineCol (source : String) (offset : Nat) : LineCol :=
  let before := takeBytes offset source.toList
  ⟨before.count '\n' + 1, (lastLine before).length + 1⟩

end BnfTokenizer.Text
