import BnfTokenizer.Match.Transcript
import BnfTokenizer.Proofs.Match.Entries
import BnfTokenizer.Proofs.Match.Positions

/-!
# What a transcript holds

A transcript is written with a look back: the line of a node is begun when the node is entered, and found again through
a stack when the node is left. What it should hold can be said with a look ahead instead. The event that leaves a node
is the first behind its entry that leaves more than was entered (`closing?`), so all lines can be listed in the order of
the events, each with its outcome at once (`TranscriptStyle.written`).

The two agree on any events (`lines_eq_written`). Of a transcript that is not finished yet, what counts are its lines
as they will be (`foreseen`): an event finishes the line that it was foreseen to finish, or adds one behind, so what is
foreseen and what is still to be written make up the same lines all along.

That the outcome belongs to the node it stands behind is a fact about matches: their events are brackets (`Complete`),
or break off inside the calls that were open (`Broken`).
-/

namespace BnfTokenizer.Match

/-! ## The lines to be -/

namespace TranscriptStyle

variable (s : TranscriptStyle)

/-- The text that was matched, where it is shown and is not empty. -/
def shownText (start stop : Nat) : String :=
  if s.verbosity != .brief && start < stop then s.matchedText start stop else ""

/-- How a node was left. -/
def outcome : Event → String
  | .success _ start stop => " -> " ++ toString stop ++ s.shownText start stop
  | .failure .. => " " ++ s.palette.dim ++ "failed" ++ s.palette.reset
  | _ => ""

/-- What comes behind an entry, if it is left at all. -/
def ending (left? : Option Event) : String :=
  (left?.map s.outcome).getD ""

/-- The blanks before a line: two for each open node that is shown. -/
def margin (opened : List NodeId) : String :=
  Text.indent (opened.countP s.shows)

/-- A node that is entered, with the text ahead where it is shown. -/
def entry (id : NodeId) (position : Nat) : String :=
  s.label id ++ " @" ++ toString position ++ if s.verbosity = .veryVerbose then s.textAhead position else ""

/-- A choice that goes on to its next alternative. -/
def goingOn (choice : NodeId) (position : Nat) : String :=
  s.palette.dim ++ "backtrack " ++ s.label choice ++ " @" ++ toString position ++ s.palette.reset

/-- The line of an event, if it has one, from the nodes that are open and the events behind it. -/
def line? (opened : List NodeId) (later : List Event) : Event → Option String
  | .enter id position =>
    if s.shows id then some (s.margin opened ++ s.entry id position ++ s.ending (closing? 0 later)) else none
  | .backtrack choice position =>
    if s.verbosity = .brief then none else some (s.margin opened ++ s.goingOn choice position)
  | _ => none

/-- The lines of some events, with some nodes open around them. -/
def written (opened : List NodeId) : List Event → List String
  | [] => []
  | e :: es => (s.line? opened es e).toList ++ written (Tracer.opened e opened) es

/-- Is there a line for this event? -/
def tells : Event → Bool
  | .enter id _ => s.shows id
  | .backtrack .. => s.verbosity != .brief
  | _ => false

theorem isSome_line? (opened : List NodeId) (later : List Event) (e : Event) :
    (s.line? opened later e).isSome = s.tells e := by
  cases e with
  | enter id position => cases shown : s.shows id <;> simp [line?, tells, shown]
  | backtrack choice position => by_cases brief : s.verbosity = .brief <;> simp [line?, tells, brief]
  | success | failure => rfl

/-- There is a line for each entry of a node that is shown and, unless the transcript is brief, for each time that a
choice goes on. -/
theorem length_written (opened : List NodeId) (es : List Event) : (s.written opened es).length = es.countP s.tells := by
  induction es generalizing opened with
  | nil => rfl
  | cons e es ih =>
    rw [written, List.length_append, ih, List.countP_cons, Nat.add_comm, ← s.isSome_line? opened es e]
    cases s.line? opened es e <;> rfl

/-! ## Slices that exist -/

/-- A part of the source that is shown, if it can be cut out. -/
def excerpt? (start stop : Nat) : Option String :=
  (Text.slice? s.source start stop).map s.excerpt

/-- The text ahead: what is left of the source is cut off, and of that the first twelve characters. -/
def textAhead? (position : Nat) : Option String :=
  let length := Text.byteLength s.source
  (Text.slice? s.source position length).bind fun rest =>
    let stop := if 12 < rest.length then position + Text.byteLength (rest.take 12) else length
    (s.excerpt? position stop).map fun text => " " ++ s.palette.dim ++ "»" ++ s.palette.reset ++ text

def shownText? (start stop : Nat) : Option String :=
  if s.verbosity != .brief && start < stop then s.excerpt? start stop else some ""

def entry? (id : NodeId) (position : Nat) : Option String :=
  (if s.verbosity = .veryVerbose then s.textAhead? position else some "").map fun ahead =>
    s.label id ++ " @" ++ toString position ++ ahead

section

variable {s} {start stop position : Nat}

theorem textAhead?_eq (boundary : Text.isBoundary s.source position = true) :
    s.textAhead? position = some (s.textAhead position) := by
  obtain ⟨before, rest, parts, rfl⟩ := (Text.isBoundary_iff ..).mp boundary
  unfold textAhead? textAhead excerpt?
  dsimp only
  rw [parts, Text.slice?_suffix, Option.bind_some, Text.dropBytes_byteLength_append]
  split
  · next longer =>
    have cut := Text.slice?_append before (rest.take 12) (rest.drop 12)
    rw [List.take_append_drop] at cut
    rw [cut]
    rfl
  · next shorter =>
    rw [Text.slice?_suffix, List.take_of_length_le (Nat.not_lt.mp shorter)]
    rfl

theorem shownText?_eq (first : Text.isBoundary s.source start = true) (last : Text.isBoundary s.source stop = true) :
    s.shownText? start stop = some (s.shownText start stop) := by
  unfold shownText? shownText
  split
  · next shown =>
    have ordered := of_decide_eq_true (Bool.and_eq_true_iff.mp shown).2
    rw [excerpt?, Text.slice?_eq (Nat.le_of_lt ordered) first last]
    rfl
  · rfl

theorem entry?_eq (id : NodeId) (boundary : Text.isBoundary s.source position = true) :
    s.entry? id position = some (s.entry id position) := by
  unfold entry? entry
  rw [textAhead?_eq boundary]
  split <;> rfl

end

end TranscriptStyle

/-! ## The lines so far -/

namespace Transcript

/-- What a transcript keeps of the nodes that are open: which of them have a line, and a place for each that has. -/
structure Traces (s : TranscriptStyle) (opened : List NodeId) (t : Transcript) : Prop where
  shown : t.unfinished.map Option.isSome = opened.map s.shows
  placed : ∀ place, some place ∈ t.unfinished → place < t.lines.size

/-- The lines as they will be when some events have happened, as far as they are begun: each line of an open node is
finished with the event that will leave the node. -/
def foreseen (s : TranscriptStyle) (later : List Event) : Nat → List (Option Nat) → List String → List String
  | _, [], lines => lines
  | depth, none :: outer, lines => foreseen s later (depth + 1) outer lines
  | depth, some place :: outer, lines =>
    foreseen s later (depth + 1) outer (lines.modify place (· ++ s.ending (closing? depth later)))

section

variable {s : TranscriptStyle} {opened : List NodeId} {t : Transcript} {es es' : List Event} {depth depth' : Nat}
  {unfinished : List (Option Nat)} {lines : List String}

/-- Where nothing happens any more, no line is finished. -/
theorem foreseen_nil : foreseen s [] depth unfinished lines = lines := by
  induction unfinished generalizing depth lines with
  | nil => rfl
  | cons place? outer ih =>
    cases place? with
    | none => exact ih
    | some place =>
      have same : (fun line => line ++ s.ending (closing? depth [])) = id := funext fun _ => String.append_empty
      rw [foreseen, ih, same, List.modify_id]

/-- Only the events that leave the open nodes matter. -/
theorem foreseen_congr (same : ∀ n, closing? (depth + n) es = closing? (depth' + n) es') :
    foreseen s es depth unfinished lines = foreseen s es' depth' unfinished lines := by
  induction unfinished generalizing depth depth' lines with
  | nil => rfl
  | cons place? outer ih =>
    have outside : ∀ n, closing? (depth + 1 + n) es = closing? (depth' + 1 + n) es' := fun n => by
      rw [Nat.add_assoc, Nat.add_assoc]
      exact same (1 + n)
    cases place? with
    | none => exact ih outside
    | some place =>
      have own : closing? depth es = closing? depth' es' := same 0
      rw [foreseen, foreseen, own]
      exact ih outside

theorem modify_concat {place : Nat} (before : place < lines.length) (change : String → String) (line : String) :
    (lines ++ [line]).modify place change = lines.modify place change ++ [line] := by
  have inside := Nat.le_of_lt before
  rw [List.modify_eq_take_drop, List.modify_eq_take_drop, List.take_append_of_le_length inside,
    List.drop_append_of_le_length inside, List.drop_eq_getElem_cons before, List.cons_append, List.modifyHead_cons,
    List.modifyHead_cons, List.append_assoc, List.cons_append]

theorem modify_length_concat (change : String → String) (line : String) :
    (lines ++ [line]).modify lines.length change = lines ++ [change line] := by
  rw [List.modify_eq_take_drop, List.take_left, List.drop_left, List.modifyHead_cons]

/-- A line behind all those of open nodes stays as it is. -/
theorem foreseen_concat (placed : ∀ place, some place ∈ unfinished → place < lines.length) (line : String) :
    foreseen s es depth unfinished (lines ++ [line]) = foreseen s es depth unfinished lines ++ [line] := by
  induction unfinished generalizing depth lines with
  | nil => rfl
  | cons place? outer ih =>
    have outside := fun place mem => placed place (List.mem_cons_of_mem _ mem)
    cases place? with
    | none => exact ih outside
    | some place =>
      have before := placed place List.mem_cons_self
      rw [foreseen, foreseen, modify_concat before]
      refine ih ?_
      rwa [List.length_modify]

/-! ## One event -/

theorem Traces.margin_eq (traces : Traces s opened t) : t.margin = s.margin opened := by
  have same := congrArg (List.countP id) traces.shown
  rw [List.countP_map, List.countP_map] at same
  exact congrArg Text.indent same

theorem record_shown {id : NodeId} (shown : s.shows id = true) (position : Nat) (t : Transcript) :
    record s (.enter id position) t =
      ⟨t.lines.push (t.margin ++ s.entry id position), some t.lines.size :: t.unfinished⟩ := by
  rw [record, if_pos shown]
  simp only [TranscriptStyle.entry, String.append_assoc]

theorem record_hidden {id : NodeId} (hidden : ¬ s.shows id = true) (position : Nat) (t : Transcript) :
    record s (.enter id position) t = ⟨t.lines, none :: t.unfinished⟩ :=
  if_neg hidden

theorem record_goingOn (verbose : s.verbosity ≠ .brief) (choice : NodeId) (position : Nat) (t : Transcript) :
    record s (.backtrack choice position) t =
      ⟨t.lines.push (t.margin ++ s.goingOn choice position), t.unfinished⟩ := by
  rw [record, if_neg verbose]
  simp only [TranscriptStyle.goingOn, String.append_assoc]

theorem unfinished_finish (t : Transcript) (suffix : String) : (t.finish suffix).unfinished = t.unfinished.tail := by
  obtain ⟨lines, unfinished⟩ := t
  match unfinished with
  | [] | none :: _ | some _ :: _ => rfl

theorem size_finish (t : Transcript) (suffix : String) : (t.finish suffix).lines.size = t.lines.size := by
  obtain ⟨lines, unfinished⟩ := t
  match unfinished with
  | [] | none :: _ => rfl
  | some place :: _ => exact Array.size_modify

theorem Traces.finish (traces : Traces s opened t) (suffix : String) : Traces s opened.tail (t.finish suffix) := by
  refine ⟨?_, fun place mem => ?_⟩
  · rw [unfinished_finish, List.map_tail, traces.shown, List.map_tail]
  · rw [unfinished_finish] at mem
    rw [size_finish]
    exact traces.placed place (List.mem_of_mem_tail mem)

/-- A transcript keeps up with the nodes that are open. -/
theorem Traces.record (traces : Traces s opened t) (e : Event) :
    Traces s (Tracer.opened e opened) (Transcript.record s e t) := by
  have longer : ∀ line place, some place ∈ t.unfinished → place < (t.lines.push line).size := fun line place mem => by
    rw [Array.size_push]
    exact Nat.lt_succ_of_lt (traces.placed place mem)
  cases e with
  | enter id position =>
    by_cases shown : s.shows id = true
    · rw [record_shown shown]
      refine ⟨?_, fun place mem => ?_⟩
      · rw [Tracer.opened, List.map_cons, List.map_cons, traces.shown, shown]
        rfl
      · obtain ⟨⟩ | ⟨_, mem⟩ := mem
        · rw [Array.size_push]
          exact Nat.lt_succ_self _
        · exact longer _ place mem
    · rw [record_hidden shown]
      refine ⟨?_, fun place mem => ?_⟩
      · rw [Tracer.opened, List.map_cons, List.map_cons, traces.shown, Bool.eq_false_iff.mpr shown]
        rfl
      · obtain ⟨⟩ | ⟨_, mem⟩ := mem
        exact traces.placed place mem
  | success | failure => exact traces.finish _
  | backtrack choice position =>
    by_cases brief : s.verbosity = .brief
    · rwa [Transcript.record, if_pos brief]
    · rw [record_goingOn brief]
      exact ⟨traces.shown, longer _⟩

/-- What is foreseen of a line that an event finishes now is what was foreseen before. -/
theorem foreseen_finish {e : Event} (leaves : ∀ es, closing? 0 (e :: es) = some e)
    (inside : ∀ depth es, closing? (depth + 1) (e :: es) = closing? depth es) (t : Transcript) (es : List Event) :
    foreseen s es 0 (t.finish (s.outcome e)).unfinished (t.finish (s.outcome e)).lines.toList =
      foreseen s (e :: es) 0 t.unfinished t.lines.toList := by
  have outside : ∀ n, closing? (0 + n) es = closing? (1 + n) (e :: es) := fun n => by
    rw [Nat.zero_add, Nat.add_comm, inside]
  obtain ⟨lines, unfinished⟩ := t
  match unfinished with
  | [] => rfl
  | none :: outer => exact foreseen_congr outside
  | some place :: outer =>
    rw [foreseen, leaves, finish, Array.toList_modify]
    exact foreseen_congr outside

/-- **An event finishes the line that it was foreseen to finish, or begins its own behind all others.** -/
theorem foreseen_record (traces : Traces s opened t) (e : Event) (es : List Event) :
    foreseen s es 0 (Transcript.record s e t).unfinished (Transcript.record s e t).lines.toList =
      foreseen s (e :: es) 0 t.unfinished t.lines.toList ++ (s.line? opened es e).toList := by
  cases e with
  | enter id position =>
    have around : ∀ n, closing? (1 + n) es = closing? (0 + n) (.enter id position :: es) := fun n => by
      rw [Nat.zero_add, Nat.add_comm]
      rfl
    by_cases shown : s.shows id = true
    -- The new line is foreseen finished at once, and it stands behind the lines of all nodes around it.
    · rw [record_shown shown, foreseen, Array.toList_push, ← Array.length_toList, modify_length_concat,
        foreseen_concat traces.placed, foreseen_congr around, traces.margin_eq, TranscriptStyle.line?, if_pos shown]
      rfl
    · rw [record_hidden shown, foreseen, foreseen_congr around, TranscriptStyle.line?, if_neg shown,
        Option.toList_none, List.append_nil]
  | success id start stop =>
    have same := foreseen_finish (s := s) (e := .success id start stop) (fun _ => rfl) (fun _ _ => rfl) t es
    exact same.trans (List.append_nil _).symm
  | failure id position =>
    have same := foreseen_finish (s := s) (e := .failure id position) (fun _ => rfl) (fun _ _ => rfl) t es
    exact same.trans (List.append_nil _).symm
  | backtrack choice position =>
    have around : ∀ n, closing? (0 + n) es = closing? (0 + n) (.backtrack choice position :: es) := fun _ => rfl
    by_cases brief : s.verbosity = .brief
    · rw [Transcript.record, if_pos brief, foreseen_congr around, TranscriptStyle.line?, if_pos brief,
        Option.toList_none, List.append_nil]
    · rw [record_goingOn brief, Array.toList_push, foreseen_concat traces.placed, foreseen_congr around,
        traces.margin_eq, TranscriptStyle.line?, if_neg brief]
      rfl

/-! ## All events -/

/-- **What is foreseen and what is still to be written are the lines in the end.** -/
theorem lines_eq_written (traces : Traces s opened t) (es : List Event) :
    (gatherAll (Transcript.record s) t es).lines.toList =
      foreseen s es 0 t.unfinished t.lines.toList ++ s.written opened es := by
  -- On the events, for every transcript that is begun: what they find unfinished is in what is foreseen.
  induction es generalizing t opened with
  | nil => rw [foreseen_nil, TranscriptStyle.written, List.append_nil, gatherAll, List.foldl_nil]
  | cons e es ih =>
    rw [gatherAll, List.foldl_cons]
    refine (ih (traces.record e)).trans ?_
    rw [foreseen_record traces, TranscriptStyle.written, List.append_assoc]

/-! ## Nothing out of range -/

/-- The innermost open node is left, if there is a line at its place. -/
def finish? (t : Transcript) (suffix : String) : Option Transcript :=
  match t.unfinished with
  | some place :: outer => if place < t.lines.size then some ⟨t.lines.modify place (· ++ suffix), outer⟩ else none
  | none :: outer => some ⟨t.lines, outer⟩
  | [] => some t

/-- One event written down, if every part of the source that is shown can be cut out, and every line that is finished
is there. -/
def record? (s : TranscriptStyle) : Event → Transcript → Option Transcript
  | .enter id position, t =>
    if s.shows id then
      (s.entry? id position).map fun entry =>
        ⟨t.lines.push (t.margin ++ entry), some t.lines.size :: t.unfinished⟩
    else some ⟨t.lines, none :: t.unfinished⟩
  | .success _ start stop, t =>
    (s.shownText? start stop).bind fun text => t.finish? (" -> " ++ toString stop ++ text)
  | .failure _ _, t => t.finish? (" " ++ s.palette.dim ++ "failed" ++ s.palette.reset)
  | .backtrack choice position, t =>
    if s.verbosity = .brief then some t
    else some ⟨t.lines.push (t.margin ++ s.goingOn choice position), t.unfinished⟩

/-- Writes down events as long as nothing is out of range. -/
def checked (s : TranscriptStyle) : Tracer (Option Transcript) :=
  fun e t? => t?.bind (record? s e)

theorem finish?_eq (traces : Traces s opened t) (suffix : String) : t.finish? suffix = some (t.finish suffix) := by
  obtain ⟨lines, unfinished⟩ := t
  match unfinished with
  | [] | none :: _ => rfl
  | some place :: outer => exact if_pos (traces.placed place List.mem_cons_self)

theorem record?_eq (traces : Traces s opened t) {e : Event} (within : e.Within s.source) :
    record? s e t = some (Transcript.record s e t) := by
  cases e with
  | enter id position =>
    by_cases shown : s.shows id = true
    · rw [record?, if_pos shown, TranscriptStyle.entry?_eq id within, record_shown shown]
      rfl
    · rw [record?, if_neg shown, record_hidden shown]
  | success id start stop =>
    rw [record?, TranscriptStyle.shownText?_eq within.1 within.2.1]
    exact finish?_eq traces _
  | failure id position => exact finish?_eq traces _
  | backtrack choice position =>
    by_cases brief : s.verbosity = .brief
    · rw [record?, if_pos brief, Transcript.record, if_pos brief]
    · rw [record?, if_neg brief, record_goingOn brief]

/-- **Nothing is out of range** where events are told of places between characters. -/
theorem gatherAll_checked (traces : Traces s opened t) (within : ∀ e ∈ es, e.Within s.source) :
    gatherAll (checked s) (some t) es = some (gatherAll (Transcript.record s) t es) := by
  induction es generalizing t opened with
  | nil => rfl
  | cons e es ih =>
    obtain ⟨own, others⟩ := List.forall_mem_cons.mp within
    rw [gatherAll, gatherAll, List.foldl_cons, List.foldl_cons, checked, Option.bind_some, record?_eq traces own]
    exact ih (traces.record e) others

end

end Transcript

/-! ## The transcript of a match -/

/-- An entry that was left shows how, so the entries without an outcome are those that were not left. -/
theorem Entry.Own.ending_eq_empty_iff {x : Entry} (own : x.Own) (s : TranscriptStyle) :
    s.ending x.left? = "" ↔ x.left? = none := by
  obtain ⟨node, position, left?⟩ := x
  cases left? with
  | none => exact iff_of_true rfl rfl
  | some e =>
    refine iff_of_false ?_ (Option.some_ne_none e)
    have closes : Closes node position e := own e rfl
    cases closes <;> simp [TranscriptStyle.ending, TranscriptStyle.outcome]

/-- **A transcript records the calls of a match**, whatever it is a match of, and however much is shown.

It has a line for each entry of a node that is shown and, unless it is brief, for each time that a choice goes on, in
the order of the events and set in by the nodes that are open and shown. The line of an entry ends with the outcome of
that entry. Of a match that is carried to its end every entry has an outcome; of one that is stopped, all have but
those of the calls that are open then. Every slice of the input and every line that is looked up on the way exists. -/
theorem transcript_records_calls (g : Grammar) (id : NodeId) (input : String) (offset : Nat) (limits : Limits)
    (verbosity : Verbosity) (palette : Palette) :
    let s : TranscriptStyle := ⟨input.toList, g, verbosity, palette⟩
    let es := events g id input offset limits
    let t := (traceAt g id input offset limits (Transcript.record s) {}).2
    t.lines.toList = s.written [] es ∧ t.lines.size = es.countP s.tells ∧
      (∀ x ∈ entered es, x.Own ∧ (s.ending x.left? = "" ↔ x.left? = none)) ∧
      (match matchAt g id input offset limits with
        | .ok _ => unended es = []
        | .error _ => ∃ stack, OpenAtStop g (outermost id input offset limits) stack ∧
            unended es = stack.map Call.place) ∧
      (traceAt g id input offset limits (Transcript.checked s) (some {})).2 = some t := by
  intro s es t
  have gathered : t = gatherAll (Transcript.record s) {} es :=
    congrArg Prod.snd (traceAt_eq_events g id input offset limits (Transcript.record s) {})
  have begins : Transcript.Traces s [] {} := ⟨rfl, nofun⟩
  have lines : t.lines.toList = s.written [] es := by
    rw [gathered]
    exact Transcript.lines_eq_written begins es
  -- Events that are carried to the end break off inside nothing.
  have broken : ∃ stack, Broken g none stack es ∧ match matchAt g id input offset limits with
      | .ok _ => stack = []
      | .error _ => ∃ calls, OpenAtStop g (outermost id input offset limits) calls ∧ stack = calls.map Call.place := by
    have told := match_told g id input offset limits
    cases ends : matchAt g id input offset limits with
    | ok final =>
      rw [ends] at told
      exact ⟨[], .here told.1, rfl⟩
    | error fault =>
      rw [ends] at told
      obtain ⟨calls, opened, broken⟩ := told
      exact ⟨_, broken, calls, opened, rfl⟩
  obtain ⟨stack, broken, ends⟩ := broken
  obtain ⟨left, own⟩ := broken.unended_eq
  refine ⟨lines, ?_, fun x mem => ⟨own x mem, (own x mem).ending_eq_empty_iff s⟩, ?_, ?_⟩
  · rw [← Array.length_toList, lines, s.length_written]
  · rw [left]
    exact ends
  · rw [traceAt_eq_events, gathered]
    exact Transcript.gatherAll_checked begins (events_within g id input offset limits)

/-- The fuel runs out where the second letter is tried in another way: three nodes are open then, and all that was left
before has its outcome. -/
theorem letters_transcribed :
    let t := (traceAt letters 6 "ab" 0 ⟨10, 30⟩
      (Transcript.record ⟨['a', 'b'], letters, .verbose, .plain⟩) {}).2
    t.lines.toList = ["word @0", "  Negation @0 -> 0", "    \"b\" @0 failed", "  Repeat @0",
        "    outer @0 -> 1 \"a\"", "      inner @0 -> 1 \"a\"", "        \"a\" @0 -> 1 \"a\"", "    outer @1",
        "      inner @1 failed", "        \"a\" @1 failed", "      backtrack outer @1"] ∧
      (∃ stack, OpenAtStop letters (outermost 6 "ab" 0 ⟨10, 30⟩) stack ∧
        stack.map Call.place = [(6, 0), (3, 0), (2, 1)]) ∧
      (traceAt letters 6 "ab" 0 ⟨10, 30⟩
        (Transcript.checked ⟨['a', 'b'], letters, .verbose, .plain⟩) (some {})).2 = some t := by
  intro t
  obtain ⟨lines, _, _, ends, checked⟩ := transcript_records_calls letters 6 "ab" 0 ⟨10, 30⟩ .verbose .plain
  have stops : matchAt letters 6 "ab" 0 ⟨10, 30⟩ = .error .fuelExhausted := rfl
  rw [stops] at ends
  obtain ⟨stack, opened, left⟩ := ends
  have unleft : unended (events letters 6 "ab" 0 ⟨10, 30⟩) = [(6, 0), (3, 0), (2, 1)] := by decide
  exact ⟨lines.trans (by decide +kernel), ⟨stack, opened, left.symm.trans unleft⟩, checked⟩

end BnfTokenizer.Match
