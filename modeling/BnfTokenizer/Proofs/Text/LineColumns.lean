import Mathlib.Data.Prod.Lex
import Mathlib.Order.Bounds.Basic
import BnfTokenizer.Proofs.Text.Slicing

/-!
# Lines and columns keep the order of a text

Further on in a text is further on by line and column: between two boundaries stands at least one character, and either
one of these is a newline and the line goes up, or none is and the line stays while the column goes up
(`placeBehind_lt_append`). So no two boundaries have the same line and column.

An offset that is no boundary has the place of the nearest boundary before it. That boundary is found by going back byte
by byte from the offset, or from the end of the text where the offset lies behind it (`backUp?`). The search ends before
it passes the beginning, since the beginning is a boundary of every text.

A boundary is what `String` itself calls a valid position among its bytes (`isBoundary_toList_iff`).
-/

namespace BnfTokenizer.Text

/-- The nearest boundary at a byte or before it, looked for byte by byte. There is none if the search would pass the
beginning. -/
def backUp? (cs : List Char) : Nat → Option Nat
  | 0 => if isBoundary cs 0 then some 0 else none
  | n + 1 => if isBoundary cs (n + 1) then some (n + 1) else backUp? cs n

/-- A place as a pair, which is ordered by its line first. -/
def LineCol.ordered (place : LineCol) : Nat ×ₗ Nat :=
  toLex (place.line, place.column)

/-- The place behind a text. -/
def placeBehind (before : List Char) : LineCol :=
  ⟨before.count '\n' + 1, (lastLine before).length + 1⟩

section

variable {cs : List Char} {n : Nat}

/-! ## Boundaries -/

theorem utf8ByteSize_ofList_eq (cs : List Char) : (String.ofList cs).utf8ByteSize = byteLength cs := by
  induction cs with
  | nil => rfl
  | cons c cs ih =>
    have parts : String.ofList (c :: cs) = String.singleton c ++ String.ofList cs := by
      rw [String.singleton_eq_ofList, ← String.ofList_append, List.singleton_append]
    rw [parts, String.utf8ByteSize_append, String.utf8ByteSize_singleton, ih, byteLength]

/-- The bytes of a string are counted from its characters. -/
theorem byteLength_toList (s : String) : byteLength s.toList = s.utf8ByteSize := by
  rw [← utf8ByteSize_ofList_eq, String.ofList_toList]

/-- Boundaries are the positions that are valid among the bytes of a string. -/
theorem isBoundary_toList_iff (s : String) (n : Nat) :
    isBoundary s.toList n = true ↔ String.Pos.Raw.IsValid s ⟨n⟩ := by
  rw [isBoundary_iff, String.Pos.Raw.isValid_iff_exists_append]
  constructor
  · rintro ⟨before, after, parts, rfl⟩
    refine ⟨String.ofList before, String.ofList after, ?_, ?_⟩
    · rw [← String.ofList_append, ← parts, String.ofList_toList]
    · rw [← utf8ByteSize_ofList_eq]
      rfl
  · rintro ⟨before, after, rfl, same⟩
    refine ⟨before.toList, after.toList, String.toList_append, ?_⟩
    rw [byteLength_toList]
    exact congrArg String.Pos.Raw.byteIdx same.symm

theorem isBoundary_floorBoundary (cs : List Char) (n : Nat) : isBoundary cs (floorBoundary cs n) = true := by
  have cut := isBoundary_byteLength (takeBytes n cs) (dropBytes n cs)
  rwa [takeBytes_append_dropBytes] at cut

/-- No boundary between an offset and what it is rounded down to. -/
theorem le_floorBoundary {b : Nat} (boundary : isBoundary cs b = true) (le : b ≤ n) : b ≤ floorBoundary cs n := by
  obtain ⟨before, after, rfl, rfl⟩ := (isBoundary_iff ..).mp boundary
  obtain ⟨further, rfl⟩ := Nat.exists_eq_add_of_le le
  rw [floorBoundary, takeBytes_byteLength_add, byteLength_append]
  exact Nat.le_add_right ..

/-- Rounding down gives the greatest boundary that is neither behind the offset nor behind the end. -/
theorem isGreatest_floorBoundary (cs : List Char) (n : Nat) :
    IsGreatest {b | isBoundary cs b = true ∧ b ≤ min n (byteLength cs)} (floorBoundary cs n) := by
  have boundary := isBoundary_floorBoundary cs n
  refine ⟨⟨boundary, Nat.le_min.mpr ⟨floorBoundary_le cs n, le_byteLength_of_isBoundary boundary⟩⟩, ?_⟩
  rintro b ⟨other, le⟩
  exact le_floorBoundary other (Nat.le_trans le (Nat.min_le_left ..))

theorem floorBoundary_min (cs : List Char) (n : Nat) : floorBoundary cs
    (min n (byteLength cs)) = floorBoundary cs n := by
  have capped := isGreatest_floorBoundary cs (min n (byteLength cs))
  rw [Nat.min_assoc, Nat.min_self] at capped
  exact capped.unique (isGreatest_floorBoundary cs n)

/-- Going back byte by byte ends where the offset is rounded down to. -/
theorem backUp?_eq (cs : List Char) (n : Nat) : backUp? cs n = some (floorBoundary cs n) := by
  induction n with
  | zero => rw [backUp?, if_pos (isBoundary_zero cs), beq_iff_eq.mp (isBoundary_zero cs)]
  | succ n ih =>
    unfold backUp?
    split
    · next here => rw [beq_iff_eq.mp here]
    · next inside =>
      have boundary := isBoundary_floorBoundary cs (n + 1)
      have differs : floorBoundary cs (n + 1) ≠ n + 1 := fun same => inside (same ▸ boundary)
      have below : floorBoundary cs (n + 1) ≤ n := by
        have := floorBoundary_le cs (n + 1)
        omega
      have up := le_floorBoundary (isBoundary_floorBoundary cs n) (Nat.le_succ_of_le (floorBoundary_le cs n))
      rw [ih, Nat.le_antisymm up (le_floorBoundary boundary below)]

/-! ## Order -/

theorem lastLine_append {line : List Char} (before : List Char) (free : '\n' ∉ line) :
    lastLine (before ++ line) = lastLine before ++ line := by
  have own : ∀ c ∈ line.reverse, (c != '\n') = true := by
    intro c mem
    refine bne_iff_ne.mpr fun same => free ?_
    rw [← same]
    exact List.mem_reverse.mp mem
  rw [lastLine, List.reverse_append, List.takeWhile_append_of_pos own, List.reverse_append, List.reverse_reverse]
  rfl

/-- **With more text before it a place is further on.** -/
theorem placeBehind_lt_append (before : List Char) {between : List Char} (some : between ≠ []) :
    (placeBehind before).ordered < (placeBehind (before ++ between)).ordered := by
  rw [LineCol.ordered, LineCol.ordered, Prod.Lex.toLex_lt_toLex]
  dsimp only [placeBehind]
  rw [List.count_append]
  by_cases breaks : '\n' ∈ between
  · have := List.count_pos_iff.mpr breaks
    exact .inl (by omega)
  · have := List.length_pos_iff.mpr some
    rw [List.count_eq_zero.mpr breaks, lastLine_append before breaks, List.length_append]
    exact .inr ⟨rfl, by omega⟩

theorem lineCol_floorBoundary (source : String) (offset : Nat) :
    lineCol source (floorBoundary source.toList offset) = lineCol source offset := by
  rw [lineCol, lineCol, takeBytes_floorBoundary]

theorem describeAt_floorBoundary (source : String) (offset limit : Nat) :
    describeAt source (floorBoundary source.toList offset) limit = describeAt source offset limit := by
  rw [describeAt, describeAt, dropBytes_floorBoundary]

theorem lineCol_lt {source : String} {a b : Nat} (first : isBoundary source.toList a = true)
    (second : isBoundary source.toList b = true) (lt : a < b) :
    (lineCol source a).ordered < (lineCol source b).ordered := by
  obtain ⟨before, between, after, parts, rfl, rfl⟩ := parted_of_isBoundary first second (Nat.le_of_lt lt)
  have some : between ≠ [] := by
    rintro rfl
    exact Nat.lt_irrefl _ lt
  have behind : ∀ n, lineCol source n = placeBehind (takeBytes n source.toList) := fun _ => rfl
  rw [behind, behind, parts, takeBytes_byteLength_append, takeBytes_byteLength_add, takeBytes_byteLength_append]
  exact placeBehind_lt_append before some

end

/-- **Lines and columns keep the order of a text.** Of two valid positions in a string, the one further on has the later
place, by line and then by column, so no two have the same. And at every offset, inside a character and behind the end
too, the search for a boundary ends at the greatest valid position that is neither behind the offset nor behind the end;
line and column are worked out with all slices at boundaries, and so is every description of what stands there; and all
of it is what that position gives. -/
theorem lineCol_strictMonoOn (source : String) :
    StrictMonoOn (fun n => (lineCol source n).ordered) {n | String.Pos.Raw.IsValid source ⟨n⟩} ∧
      Set.InjOn (lineCol source) {n | String.Pos.Raw.IsValid source ⟨n⟩} ∧
      ∀ offset, ∃ boundary,
        IsGreatest {n | String.Pos.Raw.IsValid source ⟨n⟩ ∧ n ≤ min offset source.utf8ByteSize} boundary ∧
          backUp? source.toList (min offset source.utf8ByteSize) = some boundary ∧
          lineCol? source offset = some (lineCol source boundary) ∧
          lineCol source offset = lineCol source boundary ∧
          ∀ limit, describeAt? source offset limit = some (describeAt source boundary limit) ∧
            describeAt source offset limit = describeAt source boundary limit := by
  have valid : ∀ n, String.Pos.Raw.IsValid source ⟨n⟩ ↔ isBoundary source.toList n = true :=
    fun n => (isBoundary_toList_iff source n).symm
  simp only [valid, ← byteLength_toList]
  have increasing : StrictMonoOn (fun n => (lineCol source n).ordered) {n | isBoundary source.toList n = true} :=
    fun a first b second lt => lineCol_lt first second lt
  refine ⟨increasing, ?_, fun offset => ⟨floorBoundary source.toList offset, ?_⟩⟩
  · exact fun a first b second same => increasing.injOn first second (congrArg LineCol.ordered same)
  · rw [backUp?_eq, floorBoundary_min, lineCol?_eq, lineCol_floorBoundary]
    refine ⟨isGreatest_floorBoundary source.toList offset, rfl, rfl, rfl, fun limit => ?_⟩
    rw [describeAt?_eq, describeAt_floorBoundary]
    exact ⟨rfl, rfl⟩

/-- The euro sign on the second line takes the bytes from two to five: an offset inside it has its place, and the
character behind it comes later. -/
theorem euro_places :
    (lineCol "a\n€b" 2).ordered < (lineCol "a\n€b" 5).ordered ∧ lineCol "a\n€b" 2 = ⟨2, 1⟩ ∧
      lineCol? "a\n€b" 4 = some (lineCol "a\n€b" 2) ∧ describeAt? "a\n€b" 4 9 = some (describeAt "a\n€b" 2 9) := by
  obtain ⟨increasing, _, places⟩ := lineCol_strictMonoOn "a\n€b"
  have first : String.Pos.Raw.IsValid "a\n€b" ⟨2⟩ := (isBoundary_toList_iff ..).mp (by decide)
  have second : String.Pos.Raw.IsValid "a\n€b" ⟨5⟩ := (isBoundary_toList_iff ..).mp (by decide)
  obtain ⟨boundary, _, found, place, _, described⟩ := places 4
  have searched : backUp? "a\n€b".toList (min 4 "a\n€b".utf8ByteSize) = some 2 := by decide
  cases found.symm.trans searched
  exact ⟨increasing first second (by decide), by decide, place, (described 9).1⟩

end BnfTokenizer.Text
