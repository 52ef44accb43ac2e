import BnfTokenizer.Proofs.Dialect.Counterparts
import BnfTokenizer.Proofs.Dialect.Parallel

/-!
# A lexer depends on the rules that its root needs

The tables of rules that agree are parallel, so they are assembled side by side: to the same report, to a grammar with
the same defect, or to twin grammars, which are written the same and have the same nodes in the same order
(`compile_depends_on_needed`). The order of the rules, rules that are not needed, and how the needed ones are written
down leave no trace in the lexer.
-/

namespace BnfTokenizer.Dialect

variable {rules rules' : List Rule}

/-! ## Assembling -/

/-- The same written form, the same nodes in the same order, and the same limits. -/
structure SameLexer (lexer lexer' : Lexer) : Prop where
  dump : lexer.grammar.dump lexer.root = lexer'.grammar.dump lexer'.root
  listing : lexer.grammar.listing lexer.root = lexer'.grammar.listing lexer'.root
  limits : lexer.limits = lexer'.limits

/-- The table of proper rules whose aliases do not circle. -/
structure Checked (rules : List Rule) (g : Grammar) (table : RuleTable) : Prop where
  proper : Proper rules
  tabled : Tabled rules g table
  checked : table.checkAliases g = .ok ()

section

variable {g g' : Grammar} {table table' : RuleTable}

theorem Agree.parallel (agree : Agree rules rules') (own : Checked rules g table) (other : Checked rules' g' table') :
    Parallel (Needed rules) (Counterpart (Needed rules) g table g' table') table g table' g' :=
  have distinct := own.proper.distinct
  have distinct' := other.proper.distinct
  have twins := agree.twins own.tabled other.tabled distinct distinct'
  { twins
    root := .root
    known := agree.rel_get? own.tabled other.tabled distinct distinct'
    asked := fun related kind => (agree.saysSame own.tabled other.tabled distinct distinct' related).needed kind
    owner := fun related proper =>
      related.ruleAt?_eq own.tabled other.tabled distinct distinct' proper (twins.isReference_eq related ▸ proper)
    checked := own.checked
    checked' := other.checked }

/-- In a linked grammar children come before their parents, but for bodies. -/
theorem descends_of_linked (tabled : Tabled rules g table) (proper : Proper rules) {root : NodeId}
    {visited : NodeId → Prop} {final : Grammar} (linked : table.Linked g root visited final) : final.Descends := by
  intro a c edge
  obtain ⟨i, found⟩ := List.mem_iff_getElem?.mp edge
  obtain ⟨old, place, leads⟩ := linked.child found
  have less := tabled.backward (List.mem_of_getElem? place)
  refine ⟨Nat.zero_lt_of_lt less, ?_⟩
  rcases leads with rfl | leads
  · exact .inl less
  · rcases eq_or_known_of_leads leads with rfl | ⟨name, known, isProper⟩
    · exact .inl less
    · obtain ⟨rule, body, _⟩ := BodyOf.of_mem tabled ((tabled.get?_iff proper.distinct).mp known) isProper
      right
      rw [linked.ruleName?, body.ruleName? (proper.names rule body.mem)]
      rfl

end

theorem ofGrammar_same {g h : Grammar} {root root' : NodeId} (defects : g.defect? root = h.defect? root')
    (dump : g.dump root = h.dump root') (listing : g.listing root = h.listing root') :
    SameResult SameLexer ((Lexer.ofGrammar g root).mapError .defective)
      ((Lexer.ofGrammar h root').mapError .defective) := by
  unfold Lexer.ofGrammar
  split
  · next sound =>
    split
    · exact .ok ⟨dump, listing, rfl⟩
    · next defect found =>
      rw [← defects, sound] at found
      cases found
  · next defect found =>
    split
    · next sound =>
      rw [← defects, found] at sound
      cases sound
    · next other found' =>
      rw [← defects, found] at found'
      cases found'
      exact .error (.defective defect)

/-- **Rules that agree are assembled to the same.** -/
theorem Agree.assemble {g g' : Grammar} {table table' : RuleTable} (agree : Agree rules rules')
    (own : Checked rules g table) (other : Checked rules' g' table') :
    SameResult SameLexer (Dialect.assemble g table) (Dialect.assemble g' table') := by
  have parallel := agree.parallel own other
  have roots := parallel.root_same
  unfold Dialect.assemble
  rw [own.checked, other.checked]
  dsimp only
  generalize rooted : table.root g = found at roots
  generalize table'.root g' = found' at roots
  cases roots with
  | error unfit => exact .error unfit
  | @ok root root' related =>
    have links := parallel.link_same related (RuleTable.isReference_root own.checked rooted)
    dsimp only
    generalize link : table.link g root = result at links
    generalize link' : table'.link g' root' = result' at links
    cases links with
    | error unfit => exact .error unfit
    | ok _ =>
      obtain ⟨visited, linked⟩ := RuleTable.linked_of_link link
      obtain ⟨visited', linked'⟩ := RuleTable.linked_of_link link'
      have twins := parallel.linked_twins linked linked'
      have start := And.intro related (And.intro linked.root linked'.root)
      have dump := twins.dump_eq (descends_of_linked own.tabled own.proper linked)
        (descends_of_linked other.tabled other.proper linked') start
      exact ofGrammar_same (twins.defect?_eq start) dump (twins.listing_eq start)

/-! ## Compiling -/

/-- A text is read as some rules, and is lowered to a table without circular aliases. -/
@[mk_iff]
structure ReadAs (limits : Match.Limits) (source : String) (rules : List Rule) : Prop where
  read : (parse limits source).bind rulesOf = .ok rules
  checked : (((parse limits source).bind lower).bind fun (g, table) => table.checkAliases g) = .ok ()

instance (limits : Match.Limits) (source : String) (rules : List Rule) : Decidable (ReadAs limits source rules) :=
  decidable_of_iff' _ (readAs_iff limits source rules)

/-- A text that is read as some rules is compiled by way of their table. -/
theorem ReadAs.exists_checked {limits : Match.Limits} {source : String} (reads : ReadAs limits source rules) :
    ∃ tree g table, parse limits source = .ok tree ∧ rulesOf tree = .ok rules ∧ lower tree = .ok (g, table) ∧
      Checked rules g table ∧ compile limits source = assemble g table := by
  obtain ⟨read, checked⟩ := reads
  rw [compile]
  cases parsed : parse limits source with
  | error error =>
    rw [parsed] at read
    cases read
  | ok tree =>
    rw [parsed] at read checked
    replace read : rulesOf tree = .ok rules := read
    replace checked : (lower tree).bind (fun (g, table) => table.checkAliases g) = .ok () := checked
    cases lowered : lower tree with
    | error error =>
      rw [lowered] at checked
      cases checked
    | ok result =>
      obtain ⟨g, table⟩ := result
      rw [lowered] at checked
      obtain ⟨_, again, proper, tabled⟩ := tabled_of_lower parsed lowered
      cases read.symm.trans again
      refine ⟨tree, g, table, rfl, read, lowered, ⟨proper, tabled, checked⟩, ?_⟩
      dsimp only
      rw [lowered]

namespace ReadAs

variable {limits limits' : Match.Limits} {source source' : String} (reads : ReadAs limits source rules)

include reads

theorem checked_of_lower {g : Grammar} {table : RuleTable}
    (lowered : (parse limits source).bind lower = .ok (g, table)) :
    Checked rules g table := by
  obtain ⟨tree, _, _, parsed, _, lowered', own, _⟩ := reads.exists_checked
  rw [parsed] at lowered
  cases lowered'.symm.trans lowered
  exact own

theorem distinct : (rules.map Rule.name).Nodup := by
  obtain ⟨_, _, _, _, _, _, own, _⟩ := reads.exists_checked
  exact own.proper.distinct

/-- Texts whose rules agree compile to the same. -/
theorem compile_same (reads' : ReadAs limits' source' rules') (agree : Agree rules rules') :
    SameResult SameLexer (compile limits source) (compile limits' source') := by
  obtain ⟨_, g, table, _, _, _, own, compiled⟩ := reads.exists_checked
  obtain ⟨_, g', table', _, _, _, other, compiled'⟩ := reads'.exists_checked
  rw [compiled, compiled']
  exact agree.assemble own other

end ReadAs

/-- **A lexer depends on no rule but those that its root needs.** Texts whose rules agree compile to the same report
or to the same lexer; so do texts with the same rules in any order, next to rules that are not needed. -/
theorem compile_depends_on_needed {limits limits' : Match.Limits} {source source' : String}
    (reads : ReadAs limits source rules) (reads' : ReadAs limits' source' rules') :
    (Agree rules rules' → SameResult SameLexer (compile limits source) (compile limits' source')) ∧
      ∀ more : List Rule, rules'.Perm (rules ++ more) → (∀ rule ∈ more, ¬ Needed rules rule.name) →
        SameResult SameLexer (compile limits source) (compile limits' source') :=
  ⟨reads.compile_same reads', fun _ perm idle => reads.compile_same reads' (agree_of_perm perm reads'.distinct idle)⟩

/-- A rule under another name. -/
def tidy : String := "root::=a\na::=[y]"

/-- The same in another order, with a member listed twice, and next to a rule that leads nowhere. -/
def scattered : String := "b::=c\na::=[yy]\nroot::=a"

def tidyRules : List Rule :=
  [⟨"root", .rule "a"⟩, ⟨"a", .charSet "y" false⟩]

def scatteredRules : List Rule :=
  [⟨"b", .rule "c"⟩, ⟨"a", .charSet "yy" false⟩, ⟨"root", .rule "a"⟩]

theorem few_of_needed_tidy {name : String} (needed : Needed tidyRules name) : name = "root" ∨ name = "a" := by
  have root : said? tidyRules "root" = some (.rule "a") := by decide +kernel
  have leaf : said? tidyRules "a" = some (.charSet "y" false) := by decide +kernel
  induction needed with
  | root => exact .inl rfl
  | mention _ said mem ih =>
    rcases ih with rfl | rfl
    · cases root.symm.trans said
      exact .inr (List.mem_singleton.mp mem)
    · cases leaf.symm.trans said
      cases mem

theorem agree_tidy : Agree tidyRules scatteredRules := by
  intro name needed
  rcases few_of_needed_tidy needed with rfl | rfl
  · decide +kernel
  · decide +kernel

/-- The two texts compile to the same lexer, and what it says is written down. -/
theorem scattered_tidied : ∃ lexer lexer', compile {} tidy = .ok lexer ∧ compile {} scattered = .ok lexer' ∧
    lexer.grammar.dump lexer.root = "a ::= [y]\n" ∧ SameLexer lexer lexer' := by
  have ⟨reads, written⟩ : ReadAs {} tidy tidyRules ∧
      (compile {} tidy).toOption.map (fun lexer => lexer.grammar.dump lexer.root) = some "a ::= [y]\n" := by
    decide +kernel
  have reads' : ReadAs {} scattered scatteredRules := by decide +kernel
  have same := (compile_depends_on_needed reads reads').1 agree_tidy
  generalize compile {} tidy = first at same written
  generalize compile {} scattered = second at same
  cases same with
  | error _ => cases written
  | ok same => exact ⟨_, _, rfl, rfl, Option.some.inj written, same⟩

end BnfTokenizer.Dialect
