import BnfTokenizer.Dialect.Compile
import BnfTokenizer.Proofs.Dialect.Linking

/-!
# Which step reports what

A text is refused by the first step that finds something, and each step finds things of its own kind. The steps that
look at the names of rules report names (`Misnamed`), whatever the table is, the check of the linked grammar reports a
defect, and the dialect's lexer reports where the text goes wrong or the limit that stopped it.
-/

namespace BnfTokenizer.Dialect

open Grammar (Seen)

variable {table : RuleTable} {g : Grammar} {error : CompileError}

/-- What can be wrong with the names in a table. -/
inductive Misnamed : CompileError → Prop
  | circularReference (chain : List String) : Misnamed (.circularReference chain)
  | missingRoot : Misnamed .missingRoot
  | undefinedRule (name referencedFrom : String) : Misnamed (.undefinedRule name referencedFrom)

/-- A traversal fails as one of its members does. -/
theorem exists_of_mapM_error {α β : Type} {f : α → Except CompileError β} {as : List α}
    (failed : as.mapM f = .error error) : ∃ a ∈ as, f a = .error error := by
  induction as with
  | nil => cases failed
  | cons a as ih =>
    rw [List.mapM_cons] at failed
    cases own : f a with
    | error other =>
      rw [own] at failed
      cases failed
      exact ⟨a, List.mem_cons_self, own⟩
    | ok b =>
      rw [own] at failed
      cases rest : as.mapM f with
      | error other =>
        rw [rest] at failed
        cases failed
        obtain ⟨a, mem, own⟩ := ih rest
        exact ⟨a, List.mem_cons_of_mem _ mem, own⟩
      | ok bs =>
        rw [rest] at failed
        cases failed

/-! ## Tables -/

namespace RuleTable

/-- The check of the aliases reports a chain that circles. -/
theorem misnamed_of_checkAliases (failed : table.checkAliases g = .error error) : Misnamed error := by
  unfold checkAliases at failed
  split at failed
  · cases failed
    exact .circularReference _
  · cases failed

/-- Resolving reports a name that no rule has. -/
theorem misnamed_of_resolveFrom {fuel : Nat} {name owner : String}
    (failed : table.resolveFrom g fuel name owner = .error error) : Misnamed error := by
  induction fuel generalizing name owner with
  | zero =>
    cases failed
    exact .circularReference _
  | succ fuel ih =>
    unfold resolveFrom at failed
    split at failed
    · cases failed
      exact .undefinedRule _ _
    · split at failed
      · exact ih failed
      · cases failed

/-- Looking for the root reports that there is none. -/
theorem misnamed_of_root (failed : table.root g = .error error) : Misnamed error := by
  unfold root at failed
  split at failed
  · cases failed
    exact .missingRoot
  · split at failed
    · exact misnamed_of_resolveFrom failed
    · cases failed

theorem misnamed_of_target {owner : String} {id : NodeId} (failed : table.target g owner id = .error error) :
    Misnamed error := by
  unfold target at failed
  split at failed
  · exact misnamed_of_resolveFrom failed
  · cases failed

/-- Linking reports what resolving does. The induction is on its steps. -/
theorem misnamed_of_linkFrom {fuel : Nat} {stack : List (NodeId × String)} {seen : Array Bool}
    (failed : table.linkFrom fuel stack seen g = .error error) : Misnamed error := by
  induction fuel generalizing stack seen g with
  | zero => cases failed
  | succ fuel ih =>
    match stack with
    | [] => cases failed
    | (id, owner) :: stack =>
      by_cases again : Seen seen id
      · rw [linkFrom_again fuel again] at failed
        exact ih failed
      · rw [linkFrom_first fuel again] at failed
        split at failed
        · next own targets =>
          cases failed
          obtain ⟨_, _, target⟩ := exists_of_mapM_error targets
          exact misnamed_of_target target
        · exact ih failed

end RuleTable

/-! ## Steps -/

/-- A table is refused for its names, or else for a defect of the linked grammar. -/
theorem assemble_error (failed : assemble g table = .error error) :
    Misnamed error ∨ ∃ root linked defect, table.checkAliases g = .ok () ∧ table.root g = .ok root ∧
      table.link g root = .ok linked ∧ Lexer.ofGrammar linked root = .error defect ∧ error = .defective defect := by
  unfold assemble at failed
  split at failed
  · next checked =>
    cases failed
    exact .inl (RuleTable.misnamed_of_checkAliases checked)
  · next checked =>
    split at failed
    · next rooted =>
      cases failed
      exact .inl (RuleTable.misnamed_of_root rooted)
    · next root rooted =>
      split at failed
      · next linking =>
        cases failed
        exact .inl (RuleTable.misnamed_of_linkFrom linking)
      · next linked linking =>
        cases ended : Lexer.ofGrammar linked root with
        | ok lexer =>
          rw [ended] at failed
          cases failed
        | error defect =>
          rw [ended] at failed
          cases failed
          exact .inr ⟨root, linked, defect, checked, rooted, linking, ended, rfl⟩

/-- A text that the dialect's lexer refuses is reported where it is refused, or with the limit that stopped it. -/
theorem parse_error {limits : Match.Limits} {source : String} (failed : parse limits source = .error error) :
    ∃ refusal, (lexer.withLimits limits).tokenize source = .error refusal ∧ error = ofTokenizeError source refusal := by
  unfold parse at failed
  split at failed
  · cases failed
  · next refusal refused =>
    cases failed
    exact ⟨refusal, refused, rfl⟩

end BnfTokenizer.Dialect
