import BnfTokenizer.Proofs.Grammar.Rank
import BnfTokenizer.Proofs.Grammar.Twins

/-!
# Twins have the same defects

The check of a grammar goes by the nodes in the order of the search from the root, by their kinds, and by what
it has found out about their children. So for twins it takes the same steps: it meets the same placeholder,
the same repetition of nothing, or the same cycle, and it names the same rules (`Twins.defect?_eq`).

The two tables may have different sizes, and the fuel of a search for cycles goes by the size. So the searches
are set side by side with fuel that is enough for each: `Stage` says why it is.
-/

namespace BnfTokenizer.Grammar

variable {g h : Grammar} {R : NodeId → NodeId → Prop}

/-! ## Lists side by side -/

section

variable {α β γ : Type} {S : α → β → Prop} {as : List α} {bs : List β}

theorem findSome?_eq_of_forall₂ {f : α → Option γ} {f' : β → Option γ} (same : ∀ a b, S a b → f a = f' b)
    (all : List.Forall₂ S as bs) : as.findSome? f = bs.findSome? f' := by
  induction all with
  | nil => rfl
  | cons head _ ih => rw [List.findSome?_cons, List.findSome?_cons, same _ _ head, ih]

theorem filterMap_eq_of_forall₂ {f : α → Option γ} {f' : β → Option γ} (same : ∀ a b, S a b → f a = f' b)
    (all : List.Forall₂ S as bs) : as.filterMap f = bs.filterMap f' := by
  induction all with
  | nil => rfl
  | cons head _ ih => rw [List.filterMap_cons, List.filterMap_cons, same _ _ head, ih]

theorem rel_find?_of_forall₂ {p : α → Bool} {q : β → Bool} (same : ∀ a b, S a b → p a = q b)
    (all : List.Forall₂ S as bs) : Option.Rel S (as.find? p) (bs.find? q) := by
  induction all with
  | nil => exact .none
  | cons head _ ih =>
    rw [List.find?_cons, List.find?_cons, same _ _ head]
    split
    · exact .some head
    · exact ih

theorem forall₂_takeWhile {p : α → Bool} {q : β → Bool} (same : ∀ a b, S a b → p a = q b)
    (all : List.Forall₂ S as bs) : List.Forall₂ S (as.takeWhile p) (bs.takeWhile q) := by
  induction all with
  | nil => exact .nil
  | cons head _ ih =>
    rw [List.takeWhile_cons, List.takeWhile_cons, same _ _ head]
    split
    · exact .cons head ih
    · exact .nil

end

namespace Twins

/-! ## What a node says of itself -/

/-- Twins refer to the same name, or to none. -/
theorem referenceAt?_eq (twins : Twins g h R) {a b : NodeId} (related : R a b) :
    g.referenceAt? a = h.referenceAt? b := by
  have like := twins.kind related
  unfold referenceAt?
  generalize g.kind a = kind at like
  generalize h.kind b = kind' at like
  cases like <;> rfl

/-- Labels are found alike under twins. -/
theorem lookup_eq (twins : Twins g h R) {α : Type} {vs ws : List (NodeId × α)}
    (all : List.Forall₂ (Labelled R Eq) vs ws) {a b : NodeId} (related : R a b) : vs.lookup a = ws.lookup b := by
  induction all with
  | nil => rfl
  | @cons v w _ _ head _ ih =>
    obtain ⟨c, label⟩ := v
    obtain ⟨d, label'⟩ := w
    obtain ⟨partner, rfl⟩ := head
    have asked : (a == c) = (b == d) := by
      rw [Bool.eq_iff_iff, beq_iff_eq, beq_iff_eq]
      exact twins.eq_iff related partner
    rw [List.lookup_cons, List.lookup_cons, asked, ih]

/-- Twins have the same owner. -/
theorem owner_eq (twins : Twins g h R) {root root' a b : NodeId} (start : R root root') (related : R a b) :
    g.owner root a = h.owner root' b := by
  have visits : List.Forall₂ (Labelled R Eq) (g.owners root) (h.owners root') :=
    twins.walk (fun related label => by rw [twins.name related, label]) start rfl
  unfold owner
  rw [twins.lookup_eq visits related]

/-- Cycles of twins have the same names. -/
theorem cycleNames_eq (twins : Twins g h R) {root root' : NodeId} (start : R root root') {cycle cycle' : List NodeId}
    (all : List.Forall₂ R cycle cycle') : g.cycleNames root cycle = h.cycleNames root' cycle' := by
  have names : cycle.filterMap g.name = cycle'.filterMap h.name :=
    filterMap_eq_of_forall₂ (fun _ _ related => twins.name related) all
  have first : R (cycle.headD root) (cycle'.headD root') := by
    cases all with
    | nil => exact start
    | cons head _ => exact head
  unfold cycleNames
  rw [names, twins.owner_eq start first]

/-! ## What a node says of its children -/

/-- The same marks, and related nodes. -/
def SameMarks {α : Type} (R : NodeId → NodeId → Prop) (none : α) (marks marks' : Array α) : Prop :=
  ∀ a b, R a b → marks.getD a none = marks'.getD b none

section

variable {nullable nullable' : Array Bool}

/-- A twin repeats nothing where the other does. -/
theorem repeatsNothing_eq (twins : Twins g h R) (same : SameMarks R false nullable nullable') {a b : NodeId}
    (related : R a b) : g.repeatsNothing nullable a = h.repeatsNothing nullable' b := by
  have like := twins.kind related
  unfold repeatsNothing
  generalize g.kind a = kind at like
  generalize h.kind b = kind' at like
  cases like with
  | repetition child => exact same _ _ child
  | leaf bare => cases kind <;> first | rfl | cases bare
  | _ => rfl

/-- The leading parts end at twins, since the marks are the same. -/
theorem forall₂_leadingParts (same : SameMarks R false nullable nullable') {ids ids' : List NodeId}
    (all : List.Forall₂ R ids ids') : List.Forall₂ R (leadingParts nullable ids) (leadingParts nullable' ids') := by
  induction all with
  | nil => exact .nil
  | cons head _ ih =>
    unfold leadingParts
    rw [same _ _ head]
    split
    · exact .cons head ih
    · exact .cons head .nil

/-- What can be entered from twins are twins. -/
theorem forall₂_entries (twins : Twins g h R) (same : SameMarks R false nullable nullable') {a b : NodeId}
    (related : R a b) : List.Forall₂ R (g.entries nullable a) (h.entries nullable' b) := by
  have like := twins.kind related
  unfold entries
  generalize g.kind a = kind at like
  generalize h.kind b = kind' at like
  cases like with
  | sequence all => exact forall₂_leadingParts same all
  | leaf bare =>
    cases kind with
    | sequence ids | choice ids =>
      obtain rfl := bare
      exact .nil
    | repetition id | optional id | negation id => cases bare
    | _ => exact .nil
  | choice all => exact all
  | repetition child | optional child | negation child => exact .cons child .nil

end

/-! ## The search for a cycle -/

/-- The same end of a search, but for the addresses. -/
def SameEnd (R : NodeId → NodeId → Prop) : CycleSearch → CycleSearch → Prop
  | .ok marks, .ok marks' => SameMarks R .done marks marks'
  | .error cycle, .error cycle' => List.Forall₂ R cycle cycle'
  | _, _ => False

/-- Two searches end alike: both with marks, or both with a cycle. -/
theorem SameEnd.cases {ended ended' : CycleSearch} (same : SameEnd R ended ended') :
    (∃ marks marks', ended = .ok marks ∧ ended' = .ok marks' ∧ SameMarks R .done marks marks') ∨
      ∃ cycle cycle', ended = .error cycle ∧ ended' = .error cycle' ∧ List.Forall₂ R cycle cycle' := by
  cases ended with
  | ok marks =>
    cases ended' with
    | ok marks' => exact .inl ⟨marks, marks', rfl, rfl, same⟩
    | error _ => exact same.elim
  | error cycle =>
    cases ended' with
    | ok _ => exact same.elim
    | error cycle' => exact .inr ⟨cycle, cycle', rfl, rfl, same⟩

section

variable {ids ids' path path' order order' : List NodeId} {nullable nullable' : Array Bool} {marks marks' : Array Mark}

/-- Marks stay the same when twins get the same mark. -/
theorem SameMarks.set (twins : Twins g h R) (same : SameMarks R .done marks marks') (size : marks.size = g.size)
    (size' : marks'.size = h.size) {a b : NodeId} (related : R a b) (mark : Mark) :
    SameMarks R .done (marks.setIfInBounds a mark) (marks'.setIfInBounds b mark) := by
  obtain ⟨inside, inside'⟩ := twins.inside related
  intro c d other
  rw [getD_set (size ▸ inside), getD_set (size' ▸ inside'), same c d other]
  by_cases own : c = a
  · rw [if_pos own, if_pos ((twins.eq_iff other related).mp own)]
  · rw [if_neg own, if_neg fun own' => own ((twins.eq_iff other related).mpr own')]

/-- Searches below several nodes stay side by side, where each does. -/
theorem searchEach_same (search search' : NodeId → Array Mark → CycleSearch) {targets targets' : List NodeId}
    (all : List.Forall₂ R targets targets')
    (each : ∀ a ∈ targets, ∀ b ∈ targets', R a b → ∀ order marks order' marks', Stage g nullable ids path order marks →
      Stage h nullable' ids' path' order' marks' → SameMarks R .done marks marks' →
        SameEnd R (search a marks) (search' b marks') ∧ Finishes g nullable ids path order (search a marks) [a] ∧
          Finishes h nullable' ids' path' order' (search' b marks') [b])
    (stage : Stage g nullable ids path order marks) (stage' : Stage h nullable' ids' path' order' marks')
    (same : SameMarks R .done marks marks') :
    SameEnd R (searchEach search targets marks) (searchEach search' targets' marks') := by
  induction all generalizing order marks order' marks' with
  | nil => exact same
  | @cons a b targets targets' head rest ih =>
    obtain ⟨ends, finishes, finishes'⟩ := each a List.mem_cons_self b List.mem_cons_self head _ _ _ _ stage stage' same
    unfold searchEach
    obtain ⟨_, _, left, right, ends⟩ | ⟨_, _, left, right, ends⟩ := ends.cases
    · rw [left, right]
      obtain ⟨_, stage, _⟩ := finishes _ left
      obtain ⟨_, stage', _⟩ := finishes' _ right
      exact ih (fun c mem d mem' => each c (List.mem_cons_of_mem _ mem) d (List.mem_cons_of_mem _ mem')) stage stage'
        ends
    · rw [left, right]
      exact ends

/-- There are fewer different active nodes than nodes, so fuel is left wherever a search comes. -/
theorem fuel_ne_zero (inside : ∀ id ∈ path, id < g.size) (distinct : path.Nodup) {fuel : Nat}
    (enough : path.length + fuel = g.size + 1) : fuel ≠ 0 := by
  have short := distinct.length_le_of_subset fun id mem => List.mem_range.mpr (inside id mem)
  rw [List.length_range] at short
  omega

/-- **Searches for a cycle stay side by side**, each with fuel that is enough for its own table. -/
theorem searchCycle_same (twins : Twins g h R) (listed : ∀ {a b}, R a b → a ∈ ids ∧ b ∈ ids')
    (inside : ∀ id ∈ ids, id < g.size) (inside' : ∀ id ∈ ids', id < h.size)
    (descends : ∀ a ∈ ids, ∀ b ∈ g.entries nullable a, b < g.size → b ∈ ids)
    (descends' : ∀ a ∈ ids', ∀ b ∈ h.entries nullable' a, b < h.size → b ∈ ids')
    (known : SameMarks R false nullable nullable') (fuel fuel' : Nat) (above : List.Forall₂ R path path')
    (distinct : path.Nodup) (distinct' : path'.Nodup) (enough : path.length + fuel = g.size + 1)
    (enough' : path'.length + fuel' = h.size + 1) {a b : NodeId} (related : R a b)
    (stage : Stage g nullable ids path order marks) (stage' : Stage h nullable' ids' path' order' marks')
    (same : SameMarks R .done marks marks') :
    SameEnd R (g.searchCycle nullable fuel path a marks) (h.searchCycle nullable' fuel' path' b marks') := by
  have on : ∀ id ∈ path, id ∈ ids := fun id mem =>
    have ⟨_, _, partner⟩ := exists_left_of_mem above.flip mem
    (listed partner).1
  have on' : ∀ id ∈ path', id ∈ ids' := fun id mem =>
    have ⟨_, _, partner⟩ := exists_left_of_mem above mem
    (listed partner).2
  obtain ⟨mem, mem'⟩ := listed related
  induction fuel generalizing path path' a b fuel' order order' marks marks' with
  | zero => exact absurd rfl (fuel_ne_zero (fun id mem => inside id (on id mem)) distinct enough)
  | succ fuel ih =>
    cases fuel' with
    | zero => exact absurd rfl (fuel_ne_zero (fun id mem => inside' id (on' id mem)) distinct' enough')
    | succ fuel' =>
      unfold searchCycle
      rw [← same a b related]
      split
      · exact same
      · -- the cycle is what stands on the way from the active node on
        have again : ∀ c d, R c d → (c != a) = (d != b) := by
          intro c d other
          rw [Bool.eq_iff_iff, bne_iff_ne, bne_iff_ne]
          exact (twins.eq_iff other related).not
        have way := List.rel_append (.cons related (forall₂_takeWhile again above)) (.cons related .nil)
        exact List.rel_reverse way
      · next fresh =>
        have fresh' : marks'.getD b .done = .fresh := (same a b related).symm.trans fresh
        have new : a ∉ path := by
          intro again
          rw [(stage.active a mem).mpr again] at fresh
          cases fresh
        have new' : b ∉ path' := by
          intro again
          rw [(stage'.active b mem').mpr again] at fresh'
          cases fresh'
        have distinct : (a :: path).Nodup := List.nodup_cons.mpr ⟨new, distinct⟩
        have distinct' : (b :: path').Nodup := List.nodup_cons.mpr ⟨new', distinct'⟩
        have on := List.forall_mem_cons.mpr ⟨mem, on⟩
        have on' := List.forall_mem_cons.mpr ⟨mem', on'⟩
        have enough : (a :: path).length + fuel = g.size + 1 := by rw [List.length_cons]; omega
        have enough' : (b :: path').length + fuel' = h.size + 1 := by rw [List.length_cons]; omega
        -- That both searches finish below is known of each alone; it keeps their marks told by what they have done.
        have finishes := fun c (entered : c ∈ g.entries nullable a) =>
          searchCycle_finishes inside descends fuel (a :: path) distinct on enough c (descends a mem c entered)
        have finishes' := fun d (entered : d ∈ h.entries nullable' b) =>
          searchCycle_finishes inside' descends' fuel' (b :: path') distinct' on' enough' d (descends' b mem' d entered)
        have entries := twins.forall₂_entries known related
        have entered := stage.enter (inside a mem) mem fresh
        have entered' := stage'.enter (inside' b mem') mem' fresh'
        have below := searchEach_same (g.searchCycle nullable fuel (a :: path))
          (h.searchCycle nullable' fuel' (b :: path')) entries
          (fun c under d under' partner _ _ _ _ stage stage' same =>
            have ⟨mem, mem'⟩ := listed partner
            ⟨ih fuel' (.cons related above) distinct distinct' enough enough' partner stage stage' same on on' mem mem',
              finishes c under _ _ stage, finishes' d under' _ _ stage'⟩)
          entered entered' (same.set twins stage.size stage'.size related .active)
        dsimp only
        obtain ⟨last, last', left, right, below⟩ | ⟨_, _, left, right, below⟩ := below.cases
        · rw [left, right]
          obtain ⟨_, left, _⟩ := searchEach_finishes _ finishes entered last left
          obtain ⟨_, right, _⟩ := searchEach_finishes _ finishes' entered' last' right
          exact below.set twins left.size right.size related .done
        · rw [left, right]
          exact below

end

/-! ## The check -/

section

variable {root root' : NodeId}

/-- Children of what a root reaches have twins, so the root reaches them. -/
theorem descends (twins : Twins g h R) (start : R root root') :
    ∀ a ∈ g.reachable root, ∀ c, g.Edge a c → c ∈ g.reachable root := by
  intro a mem c edge
  obtain ⟨b, _, related⟩ := exists_left_of_mem (twins.reachable start).flip mem
  obtain ⟨d, _, partner⟩ := exists_left_of_mem (twins.kind related).children.flip edge
  exact ((walk_search g _ root ()).descends mem edge).resolve_left (not_seen_replicate (twins.inside partner).1)

/-- What both roots reach are twins among themselves. -/
theorem restrict (twins : Twins g h R) (start : R root root') :
    Twins g h fun a b => R a b ∧ a ∈ g.reachable root ∧ b ∈ h.reachable root' where
  inside related := twins.inside related.1
  name related := twins.name related.1
  left first second := twins.left first.1 second.1
  right first second := twins.right first.1 second.1
  kind := by
    rintro a b ⟨related, mem, mem'⟩
    refine (twins.kind related).mono (List.Forall₂.imp ?_ (forall₂_mem (twins.kind related).children))
    rintro c d ⟨partner, edge, edge'⟩
    exact ⟨partner, twins.descends start a mem c edge, twins.symm.descends start b mem' d edge'⟩

theorem nullable_same (twins : Twins g h R) (listed : ∀ {a b}, R a b → a ∈ g.reachable root ∧ b ∈ h.reachable root') :
    SameMarks R false (g.nullable (g.reachable root)) (h.nullable (h.reachable root')) := by
  have inside : ∀ id ∈ g.reachable root, id < g.size := fun _ => lt_size_of_mem_reachable
  have inside' : ∀ id ∈ h.reachable root', id < h.size := fun _ => lt_size_of_mem_reachable
  intro a b related
  obtain ⟨mem, mem'⟩ := listed related
  rw [Bool.eq_iff_iff]
  calc Marked (g.nullable (g.reachable root)) a
      ↔ g.Nullable a := Grammar.nullable_iff inside (fun _ mem _ => mem_reachable_of_edge_of_lt mem) mem
    _ ↔ h.Nullable b := twins.nullable_iff related
    _ ↔ Marked (h.nullable (h.reachable root')) b :=
      (Grammar.nullable_iff inside' (fun _ mem _ => mem_reachable_of_edge_of_lt mem) mem').symm

/-- The first cycle among what the roots reach. -/
theorem rel_leftCycle? (twins : Twins g h R) (listed : ∀ {a b}, R a b → a ∈ g.reachable root ∧ b ∈ h.reachable root')
    (start : R root root') {nullable nullable' : Array Bool} (known : SameMarks R false nullable nullable')
    (below : ∀ a ∈ g.reachable root, ∀ b ∈ g.entries nullable a, b < g.size → b ∈ g.reachable root)
    (below' : ∀ a ∈ h.reachable root', ∀ b ∈ h.entries nullable' a, b < h.size → b ∈ h.reachable root') :
    Option.Rel (List.Forall₂ R) (g.leftCycle? (g.reachable root) nullable)
      (h.leftCycle? (h.reachable root') nullable') := by
  have inside : ∀ id ∈ g.reachable root, id < g.size := fun _ => lt_size_of_mem_reachable
  have inside' : ∀ id ∈ h.reachable root', id < h.size := fun _ => lt_size_of_mem_reachable
  have fresh : SameMarks R Mark.done (Array.replicate g.size .fresh) (Array.replicate h.size .fresh) := by
    intro a b related
    simp [(twins.inside related).1, (twins.inside related).2]
  have finishes := fun a (mem : a ∈ g.reachable root) =>
    searchCycle_finishes inside below (g.size + 1) [] .nil (List.forall_mem_nil _) (Nat.zero_add _) a fun _ => mem
  have finishes' := fun b (mem : b ∈ h.reachable root') =>
    searchCycle_finishes inside' below' (h.size + 1) [] .nil (List.forall_mem_nil _) (Nat.zero_add _) b fun _ => mem
  have ends := searchEach_same (g.searchCycle nullable (g.size + 1) []) (h.searchCycle nullable' (h.size + 1) [])
    (twins.reachable start) (fun a mem b mem' related _ _ _ _ stage stage' same =>
      ⟨twins.searchCycle_same listed inside inside' below below' known (g.size + 1) (h.size + 1) .nil .nil .nil
          (Nat.zero_add _) (Nat.zero_add _) related stage stage' same,
        finishes a mem _ _ stage, finishes' b mem' _ _ stage'⟩)
    (Stage.start inside) (Stage.start inside') fresh
  unfold leftCycle?
  obtain ⟨_, _, left, right, _⟩ | ⟨_, _, left, right, ends⟩ := ends.cases
  · rw [left, right]
    exact .none
  · rw [left, right]
    exact .some ends

/-- **Twins have the same defects**, under the same names. -/
theorem defect?_eq (twins : Twins g h R) (start : R root root') : g.defect? root = h.defect? root' := by
  have twins' := twins.restrict start
  generalize both : (fun a b => R a b ∧ a ∈ g.reachable root ∧ b ∈ h.reachable root') = S at twins'
  have listed : ∀ {a b}, S a b → a ∈ g.reachable root ∧ b ∈ h.reachable root' := by
    subst both
    exact fun related => related.2
  -- What is out of reach says nothing, so the relation is cut down to what the roots reach.
  have start : S root root' := by
    subst both
    have inside := twins.inside start
    exact ⟨start, root_mem_reachable inside.1, root_mem_reachable inside.2⟩
  have all := twins'.reachable start
  have known := twins'.nullable_same listed
  have below : ∀ a ∈ g.reachable root, ∀ b ∈ g.entries (g.nullable (g.reachable root)) a,
      b < g.size → b ∈ g.reachable root := fun _ mem _ => mem_reachable_of_entry mem
  have below' : ∀ a ∈ h.reachable root', ∀ b ∈ h.entries (h.nullable (h.reachable root')) a,
      b < h.size → b ∈ h.reachable root' := fun _ mem _ => mem_reachable_of_entry mem
  have linked : (g.reachable root).findSome? g.referenceAt? = (h.reachable root').findSome? h.referenceAt? :=
    findSome?_eq_of_forall₂ (fun _ _ => twins'.referenceAt?_eq) all
  have idle := rel_find?_of_forall₂ (fun _ _ related => twins'.repeatsNothing_eq known related) all
  have cycle := twins'.rel_leftCycle? listed start known below below'
  unfold defect?
  dsimp only
  rw [linked]
  split
  · rfl
  · generalize (g.reachable root).find? _ = found at idle
    generalize (h.reachable root').find? _ = found' at idle
    cases idle with
    | some related => exact congrArg (fun rule => some (Defect.nullableRepetition rule)) (twins'.owner_eq start related)
    | none =>
      dsimp only
      generalize g.leftCycle? _ _ = cycle? at cycle
      generalize h.leftCycle? _ _ = cycle?' at cycle
      cases cycle with
      | some chain => exact congrArg (fun names => some (Defect.leftRecursion names)) (twins'.cycleNames_eq start chain)
      | none => rfl

end

end Twins

end BnfTokenizer.Grammar
