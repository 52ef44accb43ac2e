import BnfTokenizer.Proofs.Dialect.Dependence
import BnfTokenizer.Proofs.Dialect.RoundTrip
import BnfTokenizer.Proofs.Grammar.Unrolling

/-!
# The written form of a compiled grammar ends

A table can have cycles for which there is no written form. In what a text compiles to there are none: there children
come before their parents, but for rules (`descends_of_linked`), so no cycle goes without a rule.
-/

namespace BnfTokenizer.Dialect

theorem guarded_of_compile {limits : Match.Limits} {source : String} {lexer : Lexer}
    (compiled : compile limits source = .ok lexer) (root : NodeId) : lexer.grammar.Guarded root := by
  obtain ⟨_, _, _, _, assembled⟩ := assembled_of_compile compiled
  exact (descends_of_linked assembled.tabled assembled.proper assembled.linked).guarded root

/-- **Writing ends, with each rule written once.** It ends just where every cycle that the root reaches passes through
a rule, and then the root is written, and each rule that it reaches. In a compiled grammar it ends for all roots. -/
theorem each_rule_written_once :
    (∀ (g : Grammar) (root : NodeId), root < g.size →
      ((∃ ids text, g.Dumps [root] [] ids text) ↔ g.Guarded root) ∧ (g.Guarded root → g.WrittenOut root)) ∧
    ∀ (limits : Match.Limits) (source : String) (lexer : Lexer), compile limits source = .ok lexer →
      lexer.root < lexer.grammar.size ∧
        ∀ root < lexer.grammar.size, lexer.grammar.Guarded root ∧ lexer.grammar.WrittenOut root := by
  refine ⟨fun g root inside => ⟨Grammar.exists_dumps_iff inside, fun guarded => guarded.writtenOut inside⟩, ?_⟩
  intro limits source lexer compiled
  obtain ⟨_, _, _, _, assembled⟩ := assembled_of_compile compiled
  refine ⟨assembled.lt_size, fun root inside => ?_⟩
  have guarded := guarded_of_compile compiled root
  exact ⟨guarded, guarded.writtenOut inside⟩

/-- A list in brackets, whose items are lists; the root is no rule. -/
def lists : Grammar :=
  ⟨#[⟨some "'(", .literal ['(']⟩, ⟨none, .literal [')']⟩, ⟨none, .repetition 4⟩, ⟨none, .optional 2⟩,
    ⟨some "list", .sequence [0, 3, 1]⟩, ⟨none, .choice [4, 1]⟩]⟩

theorem lists_descend : lists.Descends := by
  intro a c edge
  have inside : a < 6 := edge.lt_size
  have all : ∀ a < 6, ∀ c ∈ lists.children a, 0 < a ∧ (c < a ∨ (lists.ruleName? c).isSome = true) := by decide +kernel
  exact all a inside c edge

/-- A cycle through a repetition that is not written, and a compiled cycle. -/
theorem lists_written_once :
    lists.WrittenOut 5 ∧ lists.dump 5 = "<anonymous> ::= list | \")\"\nlist ::= \"(\" list* \")\"\n" ∧
      ∃ lexer, compile {} nested = .ok lexer ∧ lexer.grammar.WrittenOut lexer.root ∧
        lexer.grammar.dump lexer.root = "l ::= \"(\" l* \")\" | [^a]\n" := by
  obtain ⟨written, compiles⟩ := each_rule_written_once
  refine ⟨(written lists 5 (by decide)).2 (lists_descend.guarded 5), by decide +kernel, ?_⟩
  have dump : (compile {} nested).toOption.map (fun lexer => lexer.grammar.dump lexer.root) =
      some "l ::= \"(\" l* \")\" | [^a]\n" := by decide +kernel
  cases compiled : compile {} nested with
  | error error =>
    rw [compiled] at dump
    cases dump
  | ok lexer =>
    rw [compiled] at dump
    obtain ⟨inside, all⟩ := compiles {} nested lexer compiled
    exact ⟨lexer, rfl, (all lexer.root inside).2, Option.some.inj dump⟩

end BnfTokenizer.Dialect
