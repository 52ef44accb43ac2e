import BnfTokenizer.Proofs.Dialect.Passes
import BnfTokenizer.Proofs.Dialect.Reports
import BnfTokenizer.Proofs.Dialect.Sayable
import BnfTokenizer.Proofs.Dialect.Standing
import Mathlib.Data.List.Induction

/-!
# What can be wrong with a text in the dialect

Lowering is what happens between the culled tree of a text and the first look at its names: the rules are read and
given their places in a grammar. Of a text in the dialect it reports the first range that is not in order, or else the
first name that is stated again, and nothing else (`lower_error_iff`). No shape that is looked for is ever missing, so
a text is called out of the dialect only where the dialect's lexer refuses it.
-/

namespace BnfTokenizer.Dialect

variable {source : String} {limits : Match.Limits} {tree : ParseTree} {error : CompileError}

/-! ## Names that are stated again -/

/-- The first name of some that was there before. -/
def FirstRepeated (names : List String) (name : String) : Prop :=
  ∃ before after, names = before ++ name :: after ∧ before.Nodup ∧ name ∈ before

theorem FirstRepeated.not_nodup {names : List String} {name : String} (first : FirstRepeated names name) :
    ¬ names.Nodup := by
  obtain ⟨before, after, rfl, _, mem⟩ := first
  intro distinct
  exact (List.nodup_append.mp distinct).2.2 name mem name List.mem_cons_self rfl

/-- A list without repetitions goes on to no name that was there before. -/
theorem FirstRepeated.not_shorter {before before' after after' : List String} {name name' : String}
    (same : before ++ name :: after = before' ++ name' :: after') (mem : name ∈ before) (distinct : before'.Nodup) :
    before'.length ≤ before.length := by
  by_contra longer
  -- Were it longer, it would hold the name and what is before it, and so the name twice.
  have own : before ++ [name] <+: before ++ name :: after := ⟨after, by rw [List.append_assoc, List.singleton_append]⟩
  have other : before' <+: before ++ name :: after := ⟨name' :: after', same.symm⟩
  have within : (before ++ [name]).length ≤ before'.length := by
    rw [List.length_append, List.length_singleton]
    omega
  have prior := List.prefix_of_prefix_length_le own other within
  have twice := distinct.sublist prior.sublist
  exact (List.nodup_append.mp twice).2.2 name mem name List.mem_cons_self rfl

theorem FirstRepeated.unique {names : List String} {name name' : String} (first : FirstRepeated names name)
    (second : FirstRepeated names name') : name = name' := by
  obtain ⟨before, after, rfl, distinct, mem⟩ := first
  obtain ⟨before', after', same, distinct', mem'⟩ := second
  have length : before.length = before'.length :=
    Nat.le_antisymm (not_shorter same.symm mem' distinct) (not_shorter same mem distinct')
  exact (List.cons.inj (List.append_inj same length).2).1

theorem exists_firstRepeated_iff {names : List String} : (∃ name, FirstRepeated names name) ↔ ¬ names.Nodup := by
  refine ⟨fun ⟨_, first⟩ => first.not_nodup, fun again => ?_⟩
  induction names using List.reverseRecOn with
  | nil => exact absurd List.nodup_nil again
  | append_singleton names last ih =>
    by_cases distinct : names.Nodup
    · refine ⟨last, names, [], rfl, distinct, ?_⟩
      by_contra free
      refine again (List.nodup_append.mpr ⟨distinct, List.pairwise_singleton _ _, fun a mem b single same => free ?_⟩)
      obtain rfl : b = last := List.mem_singleton.mp single
      rwa [← same]
    · obtain ⟨name, before, after, rfl, free, mem⟩ := ih distinct
      exact ⟨name, before, after ++ [last], by rw [List.append_assoc, List.cons_append], free, mem⟩

/-! ## Drafting -/

theorem Draft.map_name_numberStated : ∀ (ss : List (Stated Expression)) (d : Draft),
    (d.numberStated ss).2.map Stated.name = ss.map Stated.name
  | [], _ => rfl
  | s :: ss, d => congrArg (s.name :: ·) (map_name_numberStated ss (d.numberAll s.row).1)

/-- Rules are defined one after the other, up to a name that is taken. -/
theorem foldlM_defineRule : ∀ (rows : List (Stated NodeId)) (d : Draft) (table : RuleTable),
    (table.entries.map Prod.fst).Nodup →
      (∃ result, rows.foldlM defineRule (d, table) = .ok result ∧
        (table.entries.map Prod.fst ++ rows.map Stated.name).Nodup) ∨
      ∃ before row after, rows = before ++ row :: after ∧
        (table.entries.map Prod.fst ++ before.map Stated.name).Nodup ∧
        row.name ∈ table.entries.map Prod.fst ++ before.map Stated.name ∧
        rows.foldlM defineRule (d, table) = .error (.duplicateRule row.name)
  | [], d, table, distinct => .inl ⟨(d, table), rfl, by rwa [List.map_nil, List.append_nil]⟩
  | row :: rows, d, table, distinct => by
    rw [List.foldlM_cons, defineRule]
    dsimp only
    by_cases taken : row.name ∈ table.entries.map Prod.fst
    · rw [define_of_taken taken]
      exact .inr ⟨[], row, rows, rfl, by rwa [List.map_nil, List.append_nil], List.mem_append_left _ taken, rfl⟩
    · rw [define_of_free taken]
      have later := foldlM_defineRule rows ((d.foldRow row.row).1.calledAfter (d.foldRow row.row).2 row.name)
        ⟨table.entries ++ [(row.name, (d.foldRow row.row).2)]⟩ (nodup_names_concat distinct taken _)
      simp only [List.map_append, List.append_assoc] at later
      obtain ⟨result, ended, free⟩ | ⟨before, other, after, rfl, free, again, ended⟩ := later
      · exact .inl ⟨result, ended, free⟩
      · exact .inr ⟨row :: before, other, after, rfl, free, again, ended⟩

/-- **Rules have their place in a grammar**, or else the first name that is stated again is reported. -/
theorem draftRules_cases (ss : List (Stated Expression)) :
    (∃ g table, draftRules ss = .ok (g, table) ∧ (ss.map Stated.name).Nodup) ∨
      ∃ name, FirstRepeated (ss.map Stated.name) name ∧ draftRules ss = .error (.duplicateRule name) := by
  rw [draftRules, ← Draft.map_name_numberStated ss {}]
  dsimp only
  obtain ⟨⟨d, table⟩, ended, free⟩ | ⟨before, row, after, same, free, again, ended⟩ :=
    foldlM_defineRule (Draft.numberStated {} ss).2 (Draft.numberStated {} ss).1 {} List.nodup_nil
  · rw [ended]
    exact .inl ⟨d.grammar, table, rfl, free⟩
  · rw [ended]
    refine .inr ⟨row.name, ⟨before.map Stated.name, after.map Stated.name, ?_, free, again⟩, rfl⟩
    rw [same, List.map_append, List.map_cons]

/-! ## Lowering -/

/-- What the sentences of a tree state. -/
def statedIn (tree : ParseTree) : Except CompileError (List (Stated Expression)) :=
  (tree.view tree.root).children.mapM (readStated (String.ofList tree.source))

section

variable {text : List Char} (sentenced : Sentenced text tree)

include sentenced

/-- The passes come to what the sentences state. -/
theorem Sentenced.lower_eq : lower tree = (statedIn tree).bind draftRules := by
  have forest := sentenced.forest
  have sentences := sentenced.sentences
  rw [statedIn]
  rw [forest.children_view] at sentences ⊢
  refine Dialect.lower_eq forest (fun c mem => sentences _ (List.mem_map_of_mem mem)) ?_
  rw [← forest.name_view]
  exact sentenced.called

/-- So does reading the rules from left to right. -/
theorem Sentenced.rulesOf_eq : rulesOf tree = (statedIn tree).map (List.map Stated.rule) := by
  have sentences := sentenced.sentences
  rw [rulesOf, readRules, statedIn, List.filter_eq_self.mpr fun v mem => beq_iff_eq.mpr (sentences v mem).name]
  generalize (tree.view tree.root).children = vs at sentences
  induction vs with
  | nil => rfl
  | cons v vs ih =>
    obtain ⟨first, others⟩ := List.forall_mem_cons.mp sentences
    rw [List.mapM_cons, List.mapM_cons, first.readSentence_eq, ih others]
    cases readStated (String.ofList tree.source) v with
    | error error => rfl
    | ok stated => cases vs.mapM (readStated (String.ofList tree.source)) <;> rfl

end

/-- How lowering ends, by what the text is read as. -/
inductive Lowers : Except CompileError (List Rule) → Except CompileError (Grammar × RuleTable) → Prop
  | misread (error : CompileError) : Lowers (.error error) (.error error)
  | repeated {rules : List Rule} {name : String} (first : FirstRepeated (rules.map Rule.name) name) :
      Lowers (.ok rules) (.error (.duplicateRule name))
  | tabled {rules : List Rule} {g : Grammar} {table : RuleTable} (distinct : (rules.map Rule.name).Nodup)
      (tabled : Tabled rules g table) : Lowers (.ok rules) (.ok (g, table))

/-- **Lowering gives the rules of a text their table**, and reports what reading them reports. -/
theorem Sentenced.lowers {text : List Char} (sentenced : Sentenced text tree) : Lowers (rulesOf tree) (lower tree) := by
  rw [sentenced.lower_eq, sentenced.rulesOf_eq]
  cases statedIn tree with
  | error error => exact .misread error
  | ok ss =>
    change Lowers (.ok (ss.map Stated.rule)) (draftRules ss)
    have names : (ss.map Stated.rule).map Rule.name = ss.map Stated.name := List.map_map
    obtain ⟨g, table, drafted, distinct⟩ | ⟨name, first, drafted⟩ := draftRules_cases ss
    · rw [drafted]
      exact .tabled (names ▸ distinct) (tabled_of_draftRules drafted)
    · rw [drafted]
      exact .repeated (names ▸ first)

theorem lowers_of_parse (parsed : parse limits source = .ok tree) : Lowers (rulesOf tree) (lower tree) :=
  (sentenced_of_parse ((congrArg (parse limits) (String.ofList_toList (s := source))).trans parsed)).lowers

/-- Rules with distinct names that can be said. -/
structure Proper (rules : List Rule) : Prop where
  distinct : (rules.map Rule.name).Nodup
  names : ∀ rule ∈ rules, IsName rule.name
  sayable : ∀ rule ∈ rules, rule.body.Sayable

theorem proper_of_rulesOf {rules : List Rule} (parsed : parse limits source = .ok tree)
    (read : rulesOf tree = .ok rules)
    (distinct : (rules.map Rule.name).Nodup) : Proper rules :=
  have sayable := sayable_of_rulesOf ((congrArg (parse limits) String.ofList_toList).trans parsed) read
  ⟨distinct, fun rule mem => (sayable rule mem).1, fun rule mem => (sayable rule mem).2⟩

/-- What is lowered has the table of the rules that are read. -/
theorem tabled_of_lower {g : Grammar} {table : RuleTable} (parsed : parse limits source = .ok tree)
    (lowered : lower tree = .ok (g, table)) :
    ∃ rules, rulesOf tree = .ok rules ∧ Proper rules ∧ Tabled rules g table := by
  have lowers := lowers_of_parse parsed
  rw [lowered] at lowers
  generalize read : rulesOf tree = result at lowers
  cases lowers with
  | @tabled rules _ _ distinct tabled => exact ⟨rules, rfl, proper_of_rulesOf parsed read distinct, tabled⟩

/-- Rules that are read and have distinct names are lowered. -/
theorem exists_tabled {rules : List Rule} (parsed : parse limits source = .ok tree) (read : rulesOf tree = .ok rules)
    (distinct : (rules.map Rule.name).Nodup) : ∃ g table, lower tree = .ok (g, table) ∧ Tabled rules g table := by
  have lowers := lowers_of_parse parsed
  rw [read] at lowers
  generalize lower tree = result at lowers
  cases lowers with
  | repeated first => exact absurd distinct first.not_nodup
  | tabled _ tabled => exact ⟨_, _, rfl, tabled⟩

/-- **What lowering reports of a text in the dialect**: the first range that is not in order, or else the first name
that is stated again. -/
theorem lower_error_iff (parsed : parse limits source = .ok tree) :
    lower tree = .error error ↔
      (∃ low high, (ranges (tree.view tree.root)).find? (fun range => decide (Misordered range)) = some (low, high) ∧
        error = .invalidRange low high) ∨
      (∀ range ∈ ranges (tree.view tree.root), ¬ Misordered range) ∧
        ∃ name, FirstRepeated (statedNames (tree.view tree.root)) name ∧ error = .duplicateRule name := by
  -- How reading ends decides the case: it stops at the first range that is not in order, and only a text without one
  -- gets as far as its names.
  have settles := settles_rulesOf ((congrArg (parse limits) (String.ofList_toList (s := source))).trans parsed)
  have lowers := lowers_of_parse parsed
  obtain ⟨low, high, found, read⟩ | ⟨ordered, rules, read, names, _⟩ := settles.cases
  · have wrong := List.find?_some found
    rw [read] at lowers
    generalize lower tree = lowered at lowers
    cases lowers with
    | misread _ =>
      rw [found]
      constructor
      · intro same
        cases same
        exact .inl ⟨low, high, rfl, rfl⟩
      · rintro (⟨_, _, same, rfl⟩ | ⟨ordered, _⟩)
        · cases same
          rfl
        · exact absurd (of_decide_eq_true wrong) (ordered _ (List.mem_of_find?_eq_some found))
  · have none := List.find?_eq_none.mpr fun range mem wrong => ordered range mem (of_decide_eq_true wrong)
    rw [read] at lowers
    rw [none, ← names]
    generalize lower tree = lowered at lowers
    cases lowers with
    | @repeated _ name first =>
      constructor
      · intro same
        cases same
        exact .inr ⟨ordered, name, first, rfl⟩
      · rintro (⟨_, _, same, _⟩ | ⟨_, other, again, rfl⟩)
        · cases same
        · rw [first.unique again]
    | tabled distinct _ =>
      constructor
      · exact nofun
      · rintro (⟨_, _, same, _⟩ | ⟨_, _, again, _⟩)
        · cases same
        · exact absurd distinct again.not_nodup

/-! ## Compiling -/

theorem compile_eq_bind (limits : Match.Limits) (source : String) :
    compile limits source =
      (parse limits source).bind fun tree => (lower tree).bind fun (g, table) => assemble g table := by
  unfold compile
  cases parse limits source with
  | error error => rfl
  | ok tree =>
    dsimp only [Except.bind]
    cases lower tree <;> rfl

/-- The step that refused a text. -/
theorem compile_error (failed : compile limits source = .error error) :
    parse limits source = .error error ∨ ∃ tree, parse limits source = .ok tree ∧
      (lower tree = .error error ∨ ∃ g table, lower tree = .ok (g, table) ∧ assemble g table = .error error) := by
  rw [compile_eq_bind] at failed
  cases parsed : parse limits source with
  | error first =>
    rw [parsed] at failed
    cases failed
    exact .inl rfl
  | ok tree =>
    rw [parsed] at failed
    refine .inr ⟨tree, rfl, ?_⟩
    cases lowered : lower tree with
    | error first =>
      rw [Except.bind, lowered] at failed
      cases failed
      exact .inl rfl
    | ok result =>
      rw [Except.bind, lowered] at failed
      exact .inr ⟨result.1, result.2, rfl, failed⟩

/-- **Lowering never meets a shape that it does not expect.** Of a text in the dialect it reports a range exactly when
one is not in order, and a name exactly when all ranges are in order and two sentences state it; it reports nothing
else. So a text is called out of the dialect only where the dialect's lexer refuses it. -/
theorem lower_reports (limits : Match.Limits) (source : String) :
    (∀ tree, parse limits source = .ok tree →
      (∀ error, lower tree = .error error →
        (∃ low high, error = .invalidRange low high) ∨ ∃ name, error = .duplicateRule name) ∧
      ((∃ low high, lower tree = .error (.invalidRange low high)) ↔
        ∃ range ∈ ranges (tree.view tree.root), Misordered range) ∧
      ((∃ name, lower tree = .error (.duplicateRule name)) ↔
        (∀ range ∈ ranges (tree.view tree.root), ¬ Misordered range) ∧
          ¬ (statedNames (tree.view tree.root)).Nodup)) ∧
    ∀ line column position found, compile limits source = .error (.unexpected line column position found) →
      ∃ refusal, (lexer.withLimits limits).tokenize source = .error refusal ∧ ∀ fault, refusal ≠ .stopped fault := by
  refine ⟨fun tree parsed => ⟨?_, ?_, ?_⟩, ?_⟩
  · intro error failed
    obtain ⟨low, high, _, same⟩ | ⟨_, name, _, same⟩ := (lower_error_iff parsed).mp failed
    · exact .inl ⟨low, high, same⟩
    · exact .inr ⟨name, same⟩
  · constructor
    · rintro ⟨low, high, failed⟩
      obtain ⟨low, high, found, _⟩ | ⟨_, _, _, ⟨⟩⟩ := (lower_error_iff parsed).mp failed
      have wrong := List.find?_some found
      exact ⟨_, List.mem_of_find?_eq_some found, of_decide_eq_true wrong⟩
    · rintro ⟨range, mem, wrong⟩
      cases found : (ranges (tree.view tree.root)).find? fun range => decide (Misordered range) with
      | none => exact absurd (decide_eq_true wrong) (List.find?_eq_none.mp found range mem)
      | some first => exact ⟨first.1, first.2, (lower_error_iff parsed).mpr (.inl ⟨_, _, found, rfl⟩)⟩
  · rw [← exists_firstRepeated_iff]
    constructor
    · rintro ⟨name, failed⟩
      obtain ⟨_, _, _, ⟨⟩⟩ | ⟨ordered, name, first, _⟩ := (lower_error_iff parsed).mp failed
      exact ⟨ordered, name, first⟩
    · rintro ⟨ordered, name, first⟩
      exact ⟨name, (lower_error_iff parsed).mpr (.inr ⟨ordered, name, first, rfl⟩)⟩
  · intro line column position found failed
    obtain refused | ⟨tree, parsed, lowering | ⟨g, table, _, assembling⟩⟩ := compile_error failed
    · obtain ⟨refusal, refused, same⟩ := parse_error refused
      refine ⟨refusal, refused, ?_⟩
      rintro fault rfl
      cases same
    · obtain ⟨_, _, _, ⟨⟩⟩ | ⟨_, _, _, ⟨⟩⟩ := (lower_error_iff parsed).mp lowering
    · obtain ⟨⟨⟩⟩ | ⟨_, _, _, _, _, _, _, ⟨⟩⟩ := assemble_error assembling

/-- A range in a group that is the wrong way round. -/
def swapped : String := "a::=(b|[z-a])"

/-- Two sentences with one name. -/
def doubled : String := "a::=b\na::=[a-z]"

/-- A sentence with half of its mark. -/
def misspelt : String := "a:=b"

theorem swapped_reported :
    (∃ tree, parse {} swapped = .ok tree ∧ ∃ low high, lower tree = .error (.invalidRange low high)) ∧
      (∃ tree, parse {} doubled = .ok tree ∧ ∃ name, lower tree = .error (.duplicateRule name)) ∧
        ∃ refusal, (lexer.withLimits {}).tokenize misspelt = .error refusal ∧ ∀ fault, refusal ≠ .stopped fault := by
  have wrong : ((parse {} swapped).toOption.any fun tree : ParseTree =>
      decide (∃ range ∈ ranges (tree.view tree.root), Misordered range)) = true := by decide +kernel
  have again : ((parse {} doubled).toOption.any fun tree : ParseTree =>
      decide ((∀ range ∈ ranges (tree.view tree.root), ¬ Misordered range) ∧
        ¬ (statedNames (tree.view tree.root)).Nodup)) = true := by decide +kernel
  have refused : (compile {} misspelt).map (fun _ => ()) = .error (.unexpected 1 2 1 "\":=b\"") := by decide +kernel
  refine ⟨?_, ?_, ?_⟩
  · cases parsed : parse {} swapped with
    | error error =>
      rw [parsed] at wrong
      cases wrong
    | ok tree =>
      rw [parsed] at wrong
      exact ⟨tree, rfl, ((lower_reports {} swapped).1 tree parsed).2.1.mpr (of_decide_eq_true wrong)⟩
  · cases parsed : parse {} doubled with
    | error error =>
      rw [parsed] at again
      cases again
    | ok tree =>
      rw [parsed] at again
      exact ⟨tree, rfl, ((lower_reports {} doubled).1 tree parsed).2.2.mpr (of_decide_eq_true again)⟩
  · cases failed : compile {} misspelt with
    | error error =>
      rw [failed] at refused
      cases refused
      exact (lower_reports {} misspelt).2 1 2 1 _ failed
    | ok lexer =>
      rw [failed] at refused
      cases refused

end BnfTokenizer.Dialect
