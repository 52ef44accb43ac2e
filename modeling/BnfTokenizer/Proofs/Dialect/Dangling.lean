import BnfTokenizer.Proofs.Dialect.Circularity
import BnfTokenizer.Proofs.Dialect.Undefined

/-!
# Aliases that lead nowhere

A chain of aliases of a text that compiles has an end, since the check looks along every chain. Whether the end is a
body or a name that is not defined (`Settles`, `Dangles`) is another matter: the check leaves an undefined name to those
who follow the chain, and only the root and linking follow chains. So the aliases that the root comes to settle, and an
alias that it does not come to may dangle.

This does not say that an idle alias is looked at and let through. It is not looked at: with one more of them, whatever
name it stands for, the lexer is the same.
-/

namespace BnfTokenizer.Dialect

variable {rules : List Rule} {name : String}

/-! ## How chains end -/

namespace RuleTable

variable {table : RuleTable} {g : Grammar}

/-- Following aliases from a name comes to a rule that is no alias. -/
def Settles (table : RuleTable) (g : Grammar) (name : String) : Prop :=
  ∃ last id, table.EndsIn g name last ∧ table.get? last = some id ∧ (g.kind id).isReference = false

/-- Following aliases from a name comes to a name that no rule has. -/
def Dangles (table : RuleTable) (g : Grammar) (name : String) : Prop :=
  ∃ last, table.EndsIn g name last ∧ table.get? last = none

theorem Settles.not_dangles (settles : table.Settles g name) : ¬ table.Dangles g name := by
  obtain ⟨last, id, ends, known, _⟩ := settles
  rintro ⟨other, ends', unknown⟩
  rw [ends'.unique ends, known] at unknown
  cases unknown

/-- In a checked table every chain ends, in one way or the other. -/
theorem settles_or_dangles (checked : table.checkAliases g = .ok ()) (name : String) :
    table.Settles g name ∨ table.Dangles g name := by
  obtain ⟨last, ends, ⟨id, _, known, proper⟩ | ⟨_, _, unknown, _⟩⟩ := (resolve_resolution checked name name).endsIn
  · exact .inl ⟨last, id, ends, known, proper⟩
  · exact .inr ⟨last, ends, unknown⟩

theorem Resolves.settles {id : NodeId} (resolves : table.Resolves g name id) : table.Settles g name := by
  obtain ⟨last, ends, ⟨_, _, known, proper⟩ | ⟨_, failed, _⟩⟩ := (resolves.resolution name).endsIn
  · exact ⟨last, _, ends, known, proper⟩
  · cases failed

end RuleTable

/-! ## Texts that compile -/

variable {limits limits' : Match.Limits} {source source' : String} {lexer : Lexer}

/-- What a text that compiles has passed on the way. -/
theorem readAs_of_compile (read : (parse limits source).bind rulesOf = .ok rules)
    (compiled : compile limits source = .ok lexer) :
    ReadAs limits source rules ∧ ∃ g table root final, (parse limits source).bind lower = .ok (g, table) ∧
      table.root g = .ok root ∧ table.link g root = .ok final := by
  unfold compile at compiled
  split at compiled
  · cases compiled
  · next tree parsed =>
    split at compiled
    · cases compiled
    · next g table lowered =>
      have bound : (parse limits source).bind lower = .ok (g, table) := by
        rw [parsed]
        exact lowered
      unfold assemble at compiled
      split at compiled
      · cases compiled
      · next checked =>
        have reads : ReadAs limits source rules := by
          refine ⟨read, ?_⟩
          rw [bound]
          exact checked
        split at compiled
        · cases compiled
        · next root rooted =>
          split at compiled
          · cases compiled
          · next final linking => exact ⟨reads, g, table, root, final, bound, rooted, linking⟩

/-- **The aliases that the root comes to are settled, and the others are not looked at.** In a text that compiles every
alias has an end. It is a rule that is no alias, if the root comes to the alias at all; else it may be a name that no rule
has. And an idle alias more leaves the lexer as it was, whatever it stands for. -/
theorem aliases_settled_where_needed {g : Grammar} {table : RuleTable}
    (read : (parse limits source).bind rulesOf = .ok rules) (lowered : (parse limits source).bind lower = .ok (g, table))
    (compiled : compile limits source = .ok lexer) :
    (∀ name target, table.Alias g name target →
      (Needed rules name → table.Settles g name) ∧ (table.Settles g name ↔ ¬ table.Dangles g name)) ∧
    ∀ {limits' source'} name target, ReadAs limits' source' (rules ++ [⟨name, .rule target⟩]) → ¬ Needed rules name →
      ∃ lexer', compile limits' source' = .ok lexer' ∧ SameLexer lexer lexer' := by
  obtain ⟨reads, g', table', root, final, lowered', rooted, linking⟩ := readAs_of_compile read compiled
  cases lowered.symm.trans lowered'
  have own := reads.checked_of_lower lowered
  refine ⟨fun name target _ => ⟨fun needed => ?_, RuleTable.Settles.not_dangles, fun ends => ?_⟩, ?_⟩
  · obtain ⟨visited, linked⟩ := RuleTable.linked_of_link linking
    obtain ⟨id, resolves, _⟩ := resolves_of_needed own rooted linked needed
    exact resolves.settles
  · exact (RuleTable.settles_or_dangles own.checked name).resolve_right ends
  · intro limits' source' name target reads' idle
    have agree : Agree rules (rules ++ [⟨name, .rule target⟩]) :=
      agree_of_perm (List.Perm.refl _) reads'.distinct (List.forall_mem_singleton.mpr idle)
    have same := reads.compile_same reads' agree
    rw [compiled] at same
    generalize compile limits' source' = outcome at same
    cases same with
    | ok same => exact ⟨_, rfl, same⟩

/-- A rule that stands alone, and an alias that stands for nothing. -/
def dangling : String := "root::=[y]\nx::=gone"

def danglingRules : List Rule :=
  [⟨"root", .charSet "y" false⟩, ⟨"x", .rule "gone"⟩]

/-- The same behind an alias that is needed. -/
def danglingBeside : String := "root::=a\na::=[y]\nx::=gone"

/-- An alias that is needed is settled, and an idle one beside it changes nothing. -/
theorem tidy_settled : ∃ lexer g table, compile {} tidy = .ok lexer ∧ (parse {} tidy).bind lower = .ok (g, table) ∧
    table.Settles g "root" ∧ ∃ lexer', compile {} danglingBeside = .ok lexer' ∧ SameLexer lexer lexer' := by
  have ⟨read, isAlias, done⟩ : (parse {} tidy).bind rulesOf = .ok tidyRules ∧
      (((parse {} tidy).bind lower).toOption.bind fun lowered => (lowered.2.get? "root").map lowered.1.kind) =
        some (.reference "a") ∧
      (compile {} tidy).toOption.isSome = true := by decide +kernel
  have reads : ReadAs {} danglingBeside (tidyRules ++ [⟨"x", .rule "gone"⟩]) := by decide +kernel
  cases compiled : compile {} tidy with
  | error error =>
    rw [compiled] at done
    cases done
  | ok lexer =>
    obtain ⟨_, g, table, _, _, lowered, _⟩ := readAs_of_compile read compiled
    rw [lowered] at isAlias
    obtain ⟨body, known, kind⟩ := Option.map_eq_some_iff.mp isAlias
    obtain ⟨settled, unread⟩ := aliases_settled_where_needed read lowered compiled
    have idle : ¬ Needed tidyRules "x" := fun needed =>
      absurd (few_of_needed_tidy needed) (by decide)
    exact ⟨lexer, g, table, rfl, lowered, (settled "root" "a" ⟨body, known, kind⟩).1 .root,
      unread "x" "gone" reads idle⟩

/-- **A text compiles with an alias in it that leads nowhere.** -/
theorem idle_alias_dangles : (∃ lexer, compile {} dangling = .ok lexer) ∧
    (parse {} dangling).bind rulesOf = .ok danglingRules ∧
      ∃ g table, (parse {} dangling).bind lower = .ok (g, table) ∧ table.Alias g "x" "gone" ∧ ¬ table.Settles g "x" := by
  have ⟨read, facts, done⟩ : (parse {} dangling).bind rulesOf = .ok danglingRules ∧
      (((parse {} dangling).bind lower).toOption.map fun lowered =>
        ((lowered.2.get? "x").map lowered.1.kind, lowered.2.get? "gone")) = some (some (.reference "gone"), none) ∧
      (compile {} dangling).toOption.isSome = true := by decide +kernel
  cases compiled : compile {} dangling with
  | error error =>
    rw [compiled] at done
    cases done
  | ok lexer =>
    obtain ⟨_, g, table, _, _, lowered, _⟩ := readAs_of_compile read compiled
    rw [lowered] at facts
    obtain ⟨isAlias, unknown⟩ := Prod.mk.inj (Option.some.inj facts)
    have step : table.Alias g "x" "gone" := Option.map_eq_some_iff.mp isAlias
    refine ⟨⟨lexer, rfl⟩, read, g, table, lowered, step, fun settles => settles.not_dangles ⟨"gone", ?_, unknown⟩⟩
    exact ⟨.single step, fun _ => RuleTable.not_alias_of_missing unknown⟩

end BnfTokenizer.Dialect
