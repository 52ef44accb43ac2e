import BnfTokenizer.Proofs.Match.Derivation

/-!
# One character behind the text

What changes for a node when one more character stands behind everything that is left? A node that cannot take that
character comes to the same result, unless one of its parts can. A node that can take it may come to another one, but
only where it looked at the end of the text: then it goes on to the new end.

So there are two ways for a node to behave. It is `Steady` if its result is the same. It is `Extensible` if its result
is the same or else it takes all there is, and the latter only where it came to an edge before. What is at the edge is a
parameter; for a body in quotes it is the end of the text, and also a single backslash in front of it.

An extensible part makes a sequence extensible too, unless what follows the part cannot begin at an edge
(`SteadyAll.closed`). That is how a quoted text is steady although what stands between its quotation marks is not.
-/

namespace BnfTokenizer.Match

open Grammar (Kind)

/-- The same place with one more character behind the text. -/
def Cursor.before (last : Char) (here : Cursor) : Cursor :=
  ⟨here.offset, here.rest ++ [last]⟩

/-- The same result with one more character behind the text. -/
def resultBefore {α : Type} (last : Char) (result : Option (α × Cursor)) : Option (α × Cursor) :=
  result.map fun found => (found.1, found.2.before last)

section

variable {g : Grammar} {last : Char} {id child : NodeId} {here stop : Cursor} {text : List Char}

theorem Cursor.Spans.before (spans : here.Spans text stop) : (here.before last).Spans text (stop.before last) :=
  ⟨(congrArg (· ++ [last]) spans.1).trans (List.append_assoc ..), spans.2⟩

/-- What is left behind a text is no longer than what was left in front of it. -/
theorem Cursor.Spans.length_le (spans : here.Spans text stop) : stop.rest.length ≤ here.rest.length := by
  rw [spans.1, List.length_append]
  exact Nat.le_add_left ..

end

/-! ## Nodes that do not notice -/

/-- A node comes to the same result wherever less than some number of characters is left. -/
def Steady (g : Grammar) (last : Char) (length : Nat) (id : NodeId) : Prop :=
  ∀ ⦃here result⦄, here.rest.length < length → Derives g id here result →
    Derives g id (here.before last) (resultBefore last result)

def SteadyAll (g : Grammar) (last : Char) (length : Nat) (ids : List NodeId) : Prop :=
  ∀ ⦃here result⦄, here.rest.length < length → DerivesAll g ids here result →
    DerivesAll g ids (here.before last) (resultBefore last result)

section

variable {g : Grammar} {last : Char} {length : Nat} {id child : NodeId} {ids parts alternatives : List NodeId}

/-- A text is found or not, whatever stands behind, if it does not hold the new character. -/
theorem Steady.literal {text : List Char} (kind : g.kind id = .literal text) (free : last ∉ text) :
    Steady g last length id := by
  intro here result _ derives
  obtain ⟨stop, spans, rfl⟩ | ⟨differs, rfl⟩ := derives.of_literal kind
  · exact .literal kind spans.before
  · refine .literalFails kind fun found => differs ?_
    obtain whole | inside := List.prefix_concat_iff.mp found
    · exact absurd (whole ▸ List.mem_concat_self) free
    · exact inside

theorem Steady.ofClass (single : (g.kind id).IsClass) (refused : ¬ (g.kind id).Takes last) :
    Steady g last length id := by
  intro here result _ derives
  obtain ⟨c, stop, takes, spans, rfl⟩ | ⟨none, rfl⟩ := derives.of_class single
  · exact .character takes spans.before
  · refine .characterFails single fun c first => ?_
    rw [Cursor.before, List.head?_append] at first
    cases found : here.rest.head? with
    | none =>
      rw [found] at first
      cases first
      exact refused
    | some d =>
      rw [found] at first
      cases first
      exact none _ found

theorem SteadyAll.nil : SteadyAll g last length [] := by
  intro here result _ all
  cases all
  exact .nil

theorem SteadyAll.cons (head : Steady g last length id) (tail : SteadyAll g last length ids) :
    SteadyAll g last length (id :: ids) := by
  intro here result short all
  cases all with
  | cons first others =>
    obtain ⟨_, spans⟩ := first.spans _ rfl
    exact .cons (head short first) (tail (Nat.lt_of_le_of_lt spans.length_le short) others)
  | headFails first => exact .headFails (head short first)
  | tailFails first others =>
    obtain ⟨_, spans⟩ := first.spans _ rfl
    exact .tailFails (head short first) (tail (Nat.lt_of_le_of_lt spans.length_le short) others)

/-- Behind a text that is not empty, less is left. -/
theorem SteadyAll.consumed {c : Char} {cs : List Char} (kind : g.kind id = .literal (c :: cs)) (free : last ∉ c :: cs)
    (tail : SteadyAll g last length ids) : SteadyAll g last (length + 1) (id :: ids) := by
  have head : Steady g last (length + 1) id := .literal kind free
  have shorter : ∀ {here next : Cursor} {tree}, Derives g id here (some (tree, next)) →
      here.rest.length < length + 1 → next.rest.length < length := by
    intro here next tree first short
    obtain ⟨_, spans, same⟩ | ⟨_, same⟩ := first.of_literal kind
    · cases same
      have whole := congrArg List.length spans.1
      rw [List.length_append, List.length_cons] at whole
      omega
    · cases same
  intro here result short all
  cases all with
  | cons first others => exact .cons (head short first) (tail (shorter first short) others)
  | headFails first => exact .headFails (head short first)
  | tailFails first others => exact .tailFails (head short first) (tail (shorter first short) others)

theorem Steady.sequence (kind : g.kind id = .sequence parts) (all : SteadyAll g last length parts) :
    Steady g last length id := by
  intro here result short derives
  obtain ⟨trees, stop, derived, rfl⟩ | ⟨derived, rfl⟩ := derives.of_sequence kind
  · exact .sequence kind (all short derived)
  · exact .sequenceFails kind (all short derived)

theorem Steady.choice (kind : g.kind id = .choice alternatives)
    (each : ∀ alternative ∈ alternatives, Steady g last length alternative) : Steady g last length id := by
  intro here result short derives
  have first : ∀ {result}, DerivesFirst g alternatives here result →
      DerivesFirst g alternatives (here.before last) (resultBefore last result) := by
    intro result first
    clear kind derives
    induction alternatives with
    | nil =>
      cases first
      exact .nil
    | cons alternative alternatives ih =>
      obtain ⟨own, others⟩ := List.forall_mem_cons.mp each
      cases first with
      | here head => exact .here (own short head)
      | later head tail => exact .later (own short head) (ih others tail)
  obtain ⟨tree, stop, derived, rfl⟩ | ⟨derived, rfl⟩ := derives.of_choice kind
  · exact .choice kind (first derived)
  · exact .choiceFails kind (first derived)

theorem Steady.more (steady : Steady g last length child) {here stop : Cursor} {trees : List DerivedTree}
    (short : here.rest.length < length) (rounds : DerivesMore g child here trees stop) :
    DerivesMore g child (here.before last) trees (stop.before last) := by
  induction trees generalizing here with
  | nil =>
    cases rounds with
    | stop fails => exact .stop (steady short fails)
  | cons tree trees ih =>
    cases rounds with
    | more once advances again =>
      obtain ⟨_, spans⟩ := once.spans _ rfl
      exact .more (steady short once) advances (ih (Nat.lt_of_le_of_lt spans.length_le short) again)

theorem Steady.repetition (kind : g.kind id = .repetition child) (steady : Steady g last length child) :
    Steady g last length id := by
  intro here result short derives
  obtain ⟨tree, trees, stop, rounds, rfl⟩ | ⟨never, rfl⟩ := derives.of_repetition kind
  · exact .repetition kind (steady.more short rounds)
  · exact .repetitionFails kind (steady short never)

theorem Steady.optional (kind : g.kind id = .optional child) (steady : Steady g last length child) :
    Steady g last length id := by
  intro here result short derives
  obtain ⟨tree, stop, present, rfl⟩ | ⟨absent, rfl⟩ := derives.of_optional kind
  · exact .optional kind (steady short present)
  · exact .optionalSkips kind (steady short absent)

theorem Steady.negation (kind : g.kind id = .negation child) (steady : Steady g last length child) :
    Steady g last length id := by
  intro here result short derives
  obtain ⟨tree, stop, present, rfl⟩ | ⟨absent, rfl⟩ := derives.of_negation kind
  · exact .negationFails kind (steady short present)
  · exact .negation kind (steady short absent)

end

/-! ## Nodes that may go on to the end -/

/-- A node takes all that is left. -/
def TakesRest (g : Grammar) (id : NodeId) (here : Cursor) : Prop :=
  ∃ tree stop, Derives g id here (some (tree, stop)) ∧ stop.rest = []

/-- What is left where a node came to a result. -/
def leftBy {α : Type} (here : Cursor) (result : Option (α × Cursor)) : List Char :=
  (result.elim here Prod.snd).rest

/-- A node comes to the same result, or else it takes the new character as well, having come to an edge before. -/
def Extensible (g : Grammar) (last : Char) (edge : List Char → Prop) (id : NodeId) : Prop :=
  ∀ ⦃here result⦄, Derives g id here result →
    Derives g id (here.before last) (resultBefore last result) ∨
      edge (leftBy here result) ∧ TakesRest g id (here.before last)

/-- A node fails where an edge is left. -/
def Stuck (g : Grammar) (edge : List Char → Prop) (id : NodeId) : Prop :=
  ∀ ⦃here : Cursor⦄, edge here.rest → Derives g id here none

section

variable {g : Grammar} {last : Char} {edge : List Char → Prop} {length : Nat} {id child : NodeId}
  {ids alternatives : List NodeId}

theorem Steady.extensible (steady : ∀ length, Steady g last length id) : Extensible g last edge id :=
  fun _ _ derives => .inl (steady _ (Nat.lt_succ_self _) derives)

/-- A class of characters takes the new one only where nothing was left. -/
theorem Extensible.ofClass (single : (g.kind id).IsClass) (ends : edge []) : Extensible g last edge id := by
  intro here result derives
  obtain ⟨c, stop, takes, spans, rfl⟩ | ⟨refused, rfl⟩ := derives.of_class single
  · exact .inl (.character takes spans.before)
  · obtain ⟨offset, rest⟩ := here
    cases rest with
    | cons c cs => exact .inl (.characterFails single refused)
    | nil =>
      by_cases takes : (g.kind id).Takes last
      · refine .inr ⟨ends, _, ⟨offset + Text.byteLength [last], []⟩, .character takes ⟨rfl, rfl⟩, rfl⟩
      · refine .inl (.characterFails single ?_)
        rintro _ ⟨⟩
        exact takes

theorem Extensible.choice (kind : g.kind id = .choice alternatives)
    (each : ∀ alternative ∈ alternatives, Extensible g last edge alternative ∧ Stuck g edge alternative) :
    Extensible g last edge id := by
  have first : ∀ {here result}, DerivesFirst g alternatives here result →
      DerivesFirst g alternatives (here.before last) (resultBefore last result) ∨
        edge (leftBy here result) ∧
          ∃ tree stop, DerivesFirst g alternatives (here.before last) (some (tree, stop)) ∧ stop.rest = [] := by
    intro here result first
    clear kind
    induction alternatives with
    | nil =>
      cases first
      exact .inl .nil
    | cons alternative alternatives ih =>
      obtain ⟨⟨own, _⟩, others⟩ := List.forall_mem_cons.mp each
      cases first with
      | here head =>
        obtain same | ⟨near, tree, stop, all, done⟩ := own head
        · exact .inl (.here same)
        · exact .inr ⟨near, tree, stop, .here all, done⟩
      | later head tail =>
        obtain same | ⟨near, tree, stop, all, done⟩ := own head
        · obtain still | ⟨near, tree, stop, all, done⟩ := ih others tail
          · exact .inl (.later same still)
          · exact .inr ⟨near, tree, stop, .later same all, done⟩
        · -- at an edge the later alternatives fail as well
          have failed : DerivesFirst g alternatives here none := by
            clear ih tail each
            induction alternatives with
            | nil => exact .nil
            | cons other alternatives ih =>
              obtain ⟨⟨_, stuck⟩, others⟩ := List.forall_mem_cons.mp others
              exact .later (stuck near) (ih others)
          cases tail.unique failed
          exact .inr ⟨near, tree, stop, .here all, done⟩
  intro here result derives
  obtain ⟨tree, stop, derived, rfl⟩ | ⟨derived, rfl⟩ := derives.of_choice kind
  · obtain same | ⟨near, _, _, all, done⟩ := first derived
    · exact .inl (.choice kind same)
    · exact .inr ⟨near, _, _, .choice kind all, done⟩
  · obtain same | ⟨near, _, _, all, done⟩ := first derived
    · exact .inl (.choiceFails kind same)
    · exact .inr ⟨near, _, _, .choice kind all, done⟩

/-- Rounds of an extensible child are the same, or else the last of them takes all that is left. -/
theorem Extensible.more (extensible : Extensible g last edge child) (stuck : Stuck g edge child) (ends : edge [])
    {here stop : Cursor} {trees : List DerivedTree} (rounds : DerivesMore g child here trees stop) :
    DerivesMore g child (here.before last) trees (stop.before last) ∨
      edge stop.rest ∧ ∃ tree trees' stop', DerivesMore g child (here.before last) (tree :: trees') stop' ∧
        stop'.rest = [] := by
  -- A round that takes the character in front of the end is the last one: at the end the child is stuck.
  have final : ∀ {here : Cursor}, TakesRest g child (here.before last) → ∃ tree trees stop,
      DerivesMore g child (here.before last) (tree :: trees) stop ∧ stop.rest = [] := by
    rintro here ⟨tree, stop, all, done⟩
    obtain ⟨text, spans⟩ := all.spans _ rfl
    have whole : here.rest ++ [last] = text := by
      have split := spans.1
      rwa [done, List.append_nil] at split
    refine ⟨tree, [], stop, .more all ?_ (.stop (stuck (done ▸ ends))), done⟩
    rw [spans.2, ← whole, Text.byteLength_append]
    have := last.utf8Size_pos
    simp only [Cursor.before, Text.byteLength]
    omega
  induction trees generalizing here with
  | nil =>
    cases rounds with
    | stop fails =>
      obtain same | ⟨near, all⟩ := extensible fails
      · exact .inl (.stop same)
      · exact .inr ⟨near, final all⟩
  | cons tree trees ih =>
    cases rounds with
    | more once advances again =>
      obtain same | ⟨near, all⟩ := extensible once
      · obtain still | ⟨near, tree', trees', stop', more, done⟩ := ih again
        · exact .inl (.more same advances still)
        · exact .inr ⟨near, tree, tree' :: trees', stop', .more same advances more, done⟩
      · obtain ⟨_, rfl⟩ := again.unique (.stop (stuck near))
        exact .inr ⟨near, final all⟩

theorem Extensible.repetition (kind : g.kind id = .repetition child) (extensible : Extensible g last edge child)
    (stuck : Stuck g edge child) (ends : edge []) : Extensible g last edge id := by
  intro here result derives
  obtain ⟨tree, trees, stop, rounds, rfl⟩ | ⟨never, rfl⟩ := derives.of_repetition kind
  · obtain same | ⟨near, _, _, _, more, done⟩ := extensible.more stuck ends rounds
    · exact .inl (.repetition kind same)
    · exact .inr ⟨near, _, _, .repetition kind more, done⟩
  · obtain same | ⟨near, _, _, _, more, done⟩ := extensible.more stuck ends (.stop never)
    · cases same with
      | stop fails => exact .inl (.repetitionFails kind fails)
    · exact .inr ⟨near, _, _, .repetition kind more, done⟩

theorem Extensible.optional (kind : g.kind id = .optional child) (extensible : Extensible g last edge child) :
    Extensible g last edge id := by
  intro here result derives
  obtain ⟨tree, stop, present, rfl⟩ | ⟨absent, rfl⟩ := derives.of_optional kind
  · obtain same | ⟨near, _, _, all, done⟩ := extensible present
    · exact .inl (.optional kind same)
    · exact .inr ⟨near, _, _, .optional kind all, done⟩
  · obtain same | ⟨near, _, _, all, done⟩ := extensible absent
    · exact .inl (.optionalSkips kind same)
    · exact .inr ⟨near, _, _, .optional kind all, done⟩

/-- A sequence of one part is as extensible as that part. -/
theorem Extensible.single (kind : g.kind id = .sequence [child]) (extensible : Extensible g last edge child) :
    Extensible g last edge id := by
  intro here result derives
  obtain ⟨trees, stop, derived, rfl⟩ | ⟨derived, rfl⟩ := derives.of_sequence kind
  · obtain _ | ⟨head, _ | _⟩ := derived
    obtain same | ⟨near, _, _, all, done⟩ := extensible head
    · exact .inl (.sequence kind (.cons same .nil))
    · exact .inr ⟨near, _, _, .sequence kind (.cons all .nil), done⟩
  · obtain head : Derives g child here none := by
      cases derived with
      | headFails head => exact head
      | tailFails _ tail => cases tail
    obtain same | ⟨near, _, _, all, done⟩ := extensible head
    · exact .inl (.sequenceFails kind (.headFails same))
    · exact .inr ⟨near, _, _, .sequence kind (.cons all .nil), done⟩

/-- **An extensible part is closed by what cannot begin at an edge.** Where the part goes on to the end, the sequence
failed behind it, and fails there still. -/
theorem SteadyAll.closed (extensible : Extensible g last edge id) (ends : edge [])
    (stuck : ∀ {here : Cursor}, edge here.rest → DerivesAll g ids here none) (tail : SteadyAll g last length ids) :
    SteadyAll g last length (id :: ids) := by
  have blocked : ∀ {here : Cursor}, TakesRest g id here → DerivesAll g (id :: ids) here none := by
    rintro here ⟨tree, stop, all, done⟩
    exact .tailFails all (stuck (done ▸ ends))
  intro here result short all
  cases all with
  | cons first others =>
    obtain ⟨_, spans⟩ := first.spans _ rfl
    obtain same | ⟨near, _⟩ := extensible first
    · exact .cons same (tail (Nat.lt_of_le_of_lt spans.length_le short) others)
    · cases others.unique (stuck near)
  | headFails first =>
    obtain same | ⟨_, all⟩ := extensible first
    · exact .headFails same
    · exact blocked all
  | tailFails first others =>
    obtain ⟨_, spans⟩ := first.spans _ rfl
    obtain same | ⟨_, all⟩ := extensible first
    · exact .tailFails same (tail (Nat.lt_of_le_of_lt spans.length_le short) others)
    · exact blocked all

end

end BnfTokenizer.Match
