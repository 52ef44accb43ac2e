import BnfTokenizer.Grammar.Dump
import BnfTokenizer.Proofs.Grammar.Reachability
import Mathlib.Data.List.Perm.Subperm
import Mathlib.Data.List.TakeWhile

/-!
# Which rules are written

The rules of a written grammar come out of a queue. `Lists` says what comes out of it without fuel, and
`rulesFrom_lists` that the fuel is never what ends it: each round writes one rule more, and there are no more
rules than nodes. From there on it is an induction on `Lists`: no rule is written twice, and with a rule all
that it mentions is written.
-/

namespace BnfTokenizer.Grammar

variable {g : Grammar}

/-! ## What is mentioned -/

theorem lt_size_of_ruleName? {id : NodeId} {name : String} (named : g.ruleName? id = some name) : id < g.size := by
  refine Nat.not_le.mp fun outside => ?_
  rw [ruleName?, Grammar.name, node_of_size_le outside] at named
  cases named

theorem mentions_writtenKind {mention : NodeId → Written} {P : NodeId → Prop}
    (each : ∀ id, ∀ m ∈ (mention id).mentions, P m) (kind : Kind) :
    ∀ m ∈ (g.writtenKind mention kind).mentions, P m := by
  have joined : ∀ ids : List NodeId, ∀ m ∈ (ids.map mention).flatMap (·.mentions), P m := by
    intro ids m mem
    obtain ⟨w, listed, inside⟩ := List.mem_flatMap.mp mem
    obtain ⟨id, _, rfl⟩ := List.mem_map.mp listed
    exact each id m inside
  cases kind with
  | literal _ | charSet _ _ | charRange _ _ _ | endOfInput | reference _ => exact nofun
  | sequence ids => exact joined ids
  | choice ids => exact joined ids
  | repetition child => exact each child
  | negation child => exact each child
  | optional child =>
    rw [writtenKind]
    split
    · next inner _ => exact each inner
    · exact each child

/-- Only rules are mentioned. -/
theorem mentions_written (fuel : Nat) (id : NodeId) : ∀ m ∈ (g.written fuel id).mentions, m < g.size := by
  induction fuel generalizing id with
  | zero => exact nofun
  | succ fuel ih =>
    rw [written]
    split
    · next name named =>
      intro m mem
      rw [List.mem_singleton.mp mem]
      exact lt_size_of_ruleName? named
    · exact mentions_writtenKind ih _

theorem mentions_body (id : NodeId) : ∀ m ∈ (g.body id).mentions, m < g.size :=
  mentions_writtenKind (mentions_written _) _

/-! ## The queue -/

/-- What comes out of a queue, less what was written earlier. -/
inductive Lists (g : Grammar) : List NodeId → List NodeId → List NodeId → Prop
  | done {earlier} : Lists g [] earlier []
  | skip {id queue earlier ids} (again : id ∈ earlier) (rest : Lists g queue earlier ids) :
      Lists g (id :: queue) earlier ids
  | take {id queue earlier ids} (first : id ∉ earlier)
      (rest : Lists g (queue ++ (g.body id).mentions) (id :: earlier) ids) : Lists g (id :: queue) earlier (id :: ids)

variable {queue earlier ids : List NodeId}

theorem Lists.of_dropWhile (lists : Lists g (queue.dropWhile earlier.contains) earlier ids) :
    Lists g queue earlier ids := by
  induction queue with
  | nil => exact lists
  | cons id queue ih =>
    rw [List.dropWhile_cons] at lists
    split at lists
    · next again => exact .skip (List.contains_iff_mem.mp again) (ih lists)
    · exact lists

/-- **Fuel does not end the list.** -/
theorem rulesFrom_lists (fuel : Nat) (inside : ∀ id ∈ queue, id < g.size) (before : ∀ id ∈ earlier, id < g.size)
    (distinct : earlier.Nodup) (enough : g.size ≤ earlier.length + fuel) :
    Lists g queue earlier (g.rulesFrom fuel queue earlier) := by
  induction fuel generalizing queue earlier with
  | zero =>
    have all : List.range g.size ⊆ earlier := by
      have sub : earlier ⊆ List.range g.size := fun id mem => List.mem_range.mpr (before id mem)
      have perm := (List.subperm_of_subset distinct sub).perm_of_length_le (by rwa [List.length_range])
      exact perm.symm.subset
    refine .of_dropWhile ?_
    have empty : queue.dropWhile earlier.contains = [] := by
      rw [List.dropWhile_eq_nil_iff]
      exact fun id mem => List.contains_iff_mem.mpr (all (List.mem_range.mpr (inside id mem)))
    rw [empty]
    exact .done
  | succ fuel ih =>
    refine .of_dropWhile ?_
    have sub : queue.dropWhile earlier.contains ⊆ queue := (List.dropWhile_sublist _).subset
    have head : ∀ id ∈ (queue.dropWhile earlier.contains).head?, id ∉ earlier := by
      intro id mem again
      have stops := List.head?_dropWhile_not earlier.contains queue
      rw [Option.mem_def.mp mem] at stops
      exact absurd (List.contains_iff_mem.mpr again) (Bool.eq_false_iff.mp stops)
    rw [rulesFrom]
    split
    · next empty =>
      rw [empty]
      exact .done
    · next id rest next =>
      rw [next] at sub head ⊢
      have fresh := head id rfl
      have own : id < g.size := inside id (sub List.mem_cons_self)
      refine .take fresh (ih ?_ ?_ (List.nodup_cons.mpr ⟨fresh, distinct⟩) ?_)
      · rw [List.forall_mem_append]
        exact ⟨fun other mem => inside other (sub (List.mem_cons_of_mem _ mem)), mentions_body id⟩
      · exact List.forall_mem_cons.mpr ⟨own, before⟩
      · rw [List.length_cons]
        omega

theorem rules_lists {root : NodeId} (inside : root < g.size) : Lists g [root] [] (g.rules root) :=
  rulesFrom_lists _ (List.forall_mem_singleton.mpr inside) (List.forall_mem_nil _) List.nodup_nil
    (by rw [List.length_nil, Nat.zero_add])

namespace Lists

/-- No rule is written twice, and none that was written earlier. -/
theorem fresh (lists : Lists g queue earlier ids) : ids.Nodup ∧ ∀ id ∈ ids, id ∉ earlier := by
  induction lists with
  | done => exact ⟨List.nodup_nil, List.forall_mem_nil _⟩
  | skip _ _ ih => exact ih
  | take first _ ih =>
    obtain ⟨distinct, unwritten⟩ := ih
    refine ⟨List.nodup_cons.mpr ⟨fun again => unwritten _ again List.mem_cons_self, distinct⟩, ?_⟩
    exact List.forall_mem_cons.mpr ⟨first, fun id mem before => unwritten id mem (List.mem_cons_of_mem _ before)⟩

/-- What waits in the queue is written. -/
theorem takes (lists : Lists g queue earlier ids) : ∀ id ∈ queue, id ∈ earlier ∨ id ∈ ids := by
  induction lists with
  | done => exact List.forall_mem_nil _
  | skip again _ ih => exact List.forall_mem_cons.mpr ⟨.inl again, ih⟩
  | take _ _ ih =>
    refine List.forall_mem_cons.mpr ⟨.inr List.mem_cons_self, fun id mem => ?_⟩
    rcases ih id (List.mem_append_left _ mem) with before | later
    · exact (List.mem_cons.mp before).elim (fun same => .inr (same ▸ List.mem_cons_self)) .inl
    · exact .inr (List.mem_cons_of_mem _ later)

/-- With a rule all that it mentions is written. -/
theorem descends (lists : Lists g queue earlier ids) :
    ∀ id ∈ ids, ∀ m ∈ (g.body id).mentions, m ∈ earlier ∨ m ∈ ids := by
  induction lists with
  | done => exact List.forall_mem_nil _
  | skip _ _ ih => exact ih
  | @take id queue earlier ids _ rest ih =>
    have widen : ∀ m, m ∈ id :: earlier ∨ m ∈ ids → m ∈ earlier ∨ m ∈ id :: ids := by
      intro m found
      rcases found with before | later
      · exact (List.mem_cons.mp before).elim (fun same => .inr (same ▸ List.mem_cons_self)) .inl
      · exact .inr (List.mem_cons_of_mem _ later)
    refine List.forall_mem_cons.mpr ⟨fun m mem => widen m ?_, fun other mem m inside => widen m (ih other mem m inside)⟩
    exact rest.takes m (List.mem_append_right _ mem)

/-- What holds of the queue and goes on to what is mentioned holds of all that is written. -/
theorem holds {P : NodeId → Prop} (step : ∀ id, P id → ∀ m ∈ (g.body id).mentions, P m)
    (lists : Lists g queue earlier ids) (start : ∀ id ∈ queue, P id) : ∀ id ∈ ids, P id := by
  induction lists with
  | done => exact List.forall_mem_nil _
  | skip _ _ ih => exact ih (List.forall_mem_cons.mp start).2
  | take _ _ ih =>
    obtain ⟨own, others⟩ := List.forall_mem_cons.mp start
    refine List.forall_mem_cons.mpr ⟨own, ih ?_⟩
    exact List.forall_mem_append.mpr ⟨others, step _ own⟩

end Lists

end BnfTokenizer.Grammar
