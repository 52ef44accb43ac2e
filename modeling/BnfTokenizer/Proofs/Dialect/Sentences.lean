import BnfTokenizer.Proofs.Dialect.Lowering
import BnfTokenizer.Proofs.Dialect.Statements
import BnfTokenizer.Proofs.Match.Adequacy

/-!
# Grammar texts are read as they were meant

A sentence goes up to the head of the next one, or to the end of the text, and takes the gap in front of it.
From there on nothing is recursive: the whole text is derived from the dialect's grammar, so a match finds it
unless a limit stops it, reading what culling leaves gives the rules, and lowering it gives the rules their table.
-/

namespace BnfTokenizer.Dialect

open Match (Cursor Derives DerivedTree Limits)
open ParseTree (View)

variable {source text rest gap next : List Char}

/-! ## Heads -/

theorem Gap.head?_not_wordChar_append (is : Gap gap) (stops : ∀ c ∈ next.head?, ¬ IsWordChar c) :
    ∀ c ∈ (gap ++ next).head?, ¬ IsWordChar c := by
  cases gap with
  | nil => exact stops
  | cons c cs => exact is.head?_not_wordChar (List.cons_ne_nil _ _)

/-- The sign of definition ends the gap in front of it. -/
theorem defineMark_solid : Solid (defineMark ++ rest) := by
  rintro _ ⟨⟩
  decide

/-- The name at the head of a rule is taken, up to the gap before the sign. -/
theorem takes_ruleWord (word : Word) (is : Gap gap) (within : word.text ++ (gap ++ (defineMark ++ rest)) <:+ source) :
    Takes source .word word.text (gap ++ (defineMark ++ rest))
      [.node (some "word") word.name (spanOf source word.text (gap ++ (defineMark ++ rest))) []] := by
  refine takes_word word (is.head?_not_wordChar_append ?_) within
  rintro _ ⟨⟩
  decide

theorem takes_define (within : defineMark ++ rest <:+ source) :
    Takes source .define defineMark rest [] := by
  have takes := takes_literal .define defineMark rfl within
  rwa [left_delete rfl] at takes

/-- The head of a rule is no place where a row goes on. -/
theorem fails_notHead (word : Word) (is : Gap gap)
    (within : word.text ++ (gap ++ (defineMark ++ rest)) <:+ source) :
    Fails source .notHead (word.text ++ (gap ++ (defineMark ++ rest))) := by
  have behind := within_rest within
  have head := takes_sequence .head [.word, .gap, .define] rfl
    (.cons (by simpa only [List.append_assoc] using takes_ruleWord word is within)
      (.cons (takes_gap is defineMark_solid behind) (.single (takes_define (within_rest behind)))))
  have fails := fails_negation .notHead .head rfl head
  simpa only [List.append_assoc] using fails

/-! ## Sentences -/

/-- Where a statement ends: at the end of the text, or in front of the next rule. -/
inductive Final (source : List Char) : List Char → Prop
  | nil : Final source []
  | head {c cs} (leads : Leads c) (fails : Fails source .notHead (c :: cs)) : Final source (c :: cs)

/-- Behind a sentence there is the end, or the head of another. -/
theorem WrittenAll.final {sentences : List Sentence} (written : WrittenAll sentences text)
    (within : text <:+ source) : Final source text := by
  cases written with
  | nil => exact .nil
  | @cons sentence sentences first gap others head between tail apart =>
    cases head with
    | @mk before after text left right body =>
      simp only [List.append_assoc] at within ⊢
      obtain ⟨c, cs, begins, leads⟩ := sentence.word.begins
      have fails := fails_notHead sentence.word left within
      rw [begins] at fails ⊢
      exact .head leads fails

/-- Neither is taken for a modifier of the last element, -/
theorem Final.ahead (final : Final source next) (is : Gap gap) : Ahead (gap ++ next) := by
  cases final with
  | nil => exact ⟨gap, [], rfl, is, nofun⟩
  | head leads _ => exact Begins.ahead ⟨_, _, rfl, leads⟩ is

theorem Final.solid (final : Final source next) : Solid next := by
  cases final with
  | nil => exact nofun
  | head leads _ => exact leads.solid

/-- nor for a continuation of the statement. -/
theorem Final.ends (final : Final source next) (is : Gap gap) (within : gap ++ next <:+ source) :
    Fails source .statementOpt (gap ++ next) := by
  cases final with
  | nil => exact fails_statementOpt is nofun nofun (.inr ⟨fails_head nofun, fails_element nofun nofun nofun⟩) within
  | head leads fails =>
    refine fails_statementOpt is leads.solid ?_ (.inl fails) within
    rintro _ ⟨⟩ rfl
    exact leads.not_mem (by decide)

/-- A sentence reads as its rule: the name, and the fold of its statement. -/
theorem reads_sentence {name : Option String} {word value : String} {span span' : Span} {v : View}
    {items : List Item} (called : v.name = some "statement") (reads : Reads v items) (source : String) :
    readSentence source (.node name value span [.node (some "word") word span' [], v]) =
      .ok ⟨word, Item.fold items⟩ := by
  have statement : (View.node name value span [.node (some "word") word span' [], v]).childByName "statement" =
      some v := by
    unfold View.childByName View.children
    rw [List.find?_cons, List.find?_cons, called]
    rfl
  rw [readSentence, statement]
  exact congrArg (Except.map _) (reads source)

/-- A sentence is taken together with the gap behind it, and states its rule. -/
theorem Sentence.Written.takes {sentence : Sentence} (written : sentence.Written text) (between : Gap gap)
    (apart : Apart text gap next) (final : Final source next) (within : text ++ (gap ++ next) <:+ source) :
    ∃ v, Takes source .sentence (text ++ gap) next [v] ∧ v.name = some "sentence" ∧
      ∀ source, readSentence source v = .ok sentence.rule := by
  cases written with
  | @mk before after text left right body =>
    simp only [List.append_assoc] at within
    have gapped := within_rest within
    have marked := within_rest gapped
    have gapped' := within_rest marked
    have stated := within_rest gapped'
    -- What ends the sentence may be the gap or, where there is none, what comes next.
    have stops : Stops text (gap ++ next) := by
      refine between.stops ?_
      intro empty c last
      refine apart empty c ?_
      simp only [List.getLast?_append, Option.mem_def.mp last, Option.some_or, Option.mem_def]
    have parts := body.parts (final.ends between (within_rest stated)) (final.ahead between) stops stated
    obtain ⟨v, statement, called, reads⟩ := parts.takes stated
    have all : TakesAll source [.word, .gap, .define, .gap, .statement, .gap]
        (sentence.word.text ++ (before ++ (defineMark ++ (after ++ (text ++ gap))))) next
        ([_] ++ ([] ++ ([] ++ ([] ++ ([v] ++ []))))) :=
      .cons (by simpa only [List.append_assoc] using takes_ruleWord sentence.word left within)
        (.cons (by simpa only [List.append_assoc] using takes_gap left defineMark_solid gapped)
          (.cons (by simpa only [List.append_assoc] using takes_define marked)
            (.cons (by simpa only [List.append_assoc] using takes_gap right body.begins.solid gapped')
              (.cons statement (.single (takes_gap between final.solid (within_rest stated)))))))
    have takes := takes_sequence .sentence _ rfl all
    have filled : sentence.word.text ++ (before ++ (defineMark ++ (after ++ (text ++ gap)))) ≠ [] :=
      List.append_ne_nil_of_left_ne_nil sentence.word.nonempty _
    rw [left_keep (by simpa only [List.append_assoc] using within) filled rfl] at takes
    refine ⟨_, by simpa only [List.append_assoc] using takes, rfl, fun source => ?_⟩
    rw [Sentence.rule, ← sentence.body.fold_items]
    exact reads_sentence called reads source

/-- All sentences are taken, each in front of the others, and read as the rules. The induction is from the last to the
first. -/
theorem WrittenAll.takesMore {sentences : List Sentence} (written : WrittenAll sentences text)
    (within : text <:+ source) :
    ∃ views, TakesMore source .sentence text [] views ∧ (∀ v ∈ views, v.name = some "sentence") ∧
      ∀ source, views.mapM (readSentence source) = .ok (sentences.map Sentence.rule) := by
  induction written with
  | nil =>
    have absent : Fails source .word [] := fails_word nofun
    refine ⟨[], .stop ?_, nofun, fun _ => rfl⟩
    exact fails_sequence .sentence [] .word [.gap, .define, .gap, .statement, .gap] rfl .nil absent rfl
  | @cons sentence sentences first gap others head between tail apart ih =>
    have behind : others <:+ source := (List.suffix_append_of_suffix (List.suffix_append gap others)).trans within
    obtain ⟨views, again, named, reads⟩ := ih behind
    obtain ⟨v, once, name, rule⟩ := head.takes between apart (tail.final behind) within
    have filled : first ++ gap ≠ [] := by
      cases head with
      | mk => exact List.append_ne_nil_of_left_ne_nil (List.append_ne_nil_of_left_ne_nil sentence.word.nonempty _) _
    have more := TakesMore.more (by rwa [List.append_nil]) filled again
    rw [List.append_assoc] at more
    refine ⟨_, more, List.forall_mem_cons.mpr ⟨name, named⟩, fun source => ?_⟩
    rw [List.singleton_append, List.mapM_cons, rule, reads]
    rfl

/-! ## Whole texts -/

/-- A written grammar is derived as a whole, and the rules are what culling leaves of the derived tree. -/
theorem Rendered.derives {sentences : List Sentence} (rendered : Rendered sentences source) :
    ∃ tree stop, Derives definitions Symbol.grammar.id ⟨0, source⟩ (some (tree, stop)) ∧
      stop.offset = Text.byteLength source ∧
      ∀ name value span, readRules (String.ofList source)
        (.node name value span (DerivedTree.listCulled cullFilters source tree.children)) =
          .ok (sentences.map Sentence.rule) := by
  obtain ⟨gap, text, is, written, rfl⟩ := rendered
  have within : gap ++ text <:+ gap ++ text := List.suffix_refl _
  have behind : text <:+ gap ++ text := List.suffix_append gap text
  obtain ⟨views, rounds, named, reads⟩ := written.takesMore behind
  -- Without sentences the list is skipped, since a repetition does not take an empty text.
  have list : Takes (gap ++ text) .sentenceList text [] views := by
    cases text with
    | nil =>
      obtain ⟨fails, rfl⟩ := rounds.of_nil rfl
      exact skips_optional .sentenceList .sentences rfl (fails_repetition .sentences .sentence rfl fails)
    | cons c cs =>
      have behind : c :: cs ++ [] <:+ gap ++ c :: cs := by rwa [List.append_nil]
      have some := takes_repetition .sentences .sentence rfl rounds (List.cons_ne_nil _ _) behind
      rw [left_lift behind (List.cons_ne_nil _ _) rfl] at some
      have whole := takes_optional .sentenceList .sentences rfl some
      rwa [left_lift behind (List.cons_ne_nil _ _) rfl] at whole
  have all : TakesAll (gap ++ text) [.gap, .sentenceList, .finish] (gap ++ (text ++ [])) [] ([] ++ (views ++ [])) :=
    .cons (by simpa only [List.append_nil] using takes_gap is (written.final behind).solid within)
      (.cons list (.single (takes_endOfInput .finish rfl)))
  obtain ⟨trees, derives, culled⟩ := all.derives
  have derived : Derives definitions Symbol.grammar.id (place (gap ++ text) (gap ++ (text ++ [])))
      (some (.spanning definitions Symbol.grammar.id _ _ trees, place (gap ++ text) [])) :=
    .sequence (by rw [Symbol.kind_id]; rfl) (by rwa [List.append_assoc, List.append_nil] at derives)
  rw [List.append_nil, place, Nat.sub_self] at derived
  refine ⟨_, _, derived, Nat.sub_zero _, fun name value span => ?_⟩
  rw [DerivedTree.spanning, DerivedTree.children, culled, List.nil_append, List.append_nil, readRules, View.children,
    List.filter_eq_self.mpr fun v mem => beq_iff_eq.mpr (named v mem)]
  exact reads _

/-- The culled tree of a text that was derived as a whole. -/
theorem parse_of_derives {rules : List Rule} {tree : DerivedTree} {stop : Cursor}
    (derives : Derives definitions Symbol.grammar.id ⟨0, source⟩ (some (tree, stop)))
    (whole : stop.offset = Text.byteLength source)
    (reads : ∀ name value span, readRules (String.ofList source)
      (.node name value span (DerivedTree.listCulled cullFilters source tree.children)) = .ok rules) :
    ∃ cost height, ∀ limits : Limits,
      (∃ culled, parse limits (String.ofList source) = .ok culled ∧ rulesOf culled = .ok rules) ∨
        ∃ fault, parse limits (String.ofList source) = .error (.stopped fault) ∧ fault.Trips cost height limits := by
  have start : Derives definitions Symbol.grammar.id ⟨Text.byteLength ([] : List Char), source⟩
      (some (tree, stop)) := derives
  obtain ⟨cost, height, settles⟩ := Match.matchAt_of_derives start
  refine ⟨cost, height, fun limits => ?_⟩
  rcases settles limits with ⟨⟨found, furthest⟩, ends, reports⟩ | ⟨fault, ends, trips⟩
  · cases found with
    | none => cases reports
    | some found =>
      obtain ⟨tree', stop', derives', laid, root, text, last⟩ := Match.laid_of_matchAt ends
      obtain ⟨rfl, rfl⟩ : tree' = tree ∧ stop' = stop := by
        have same := derives'.unique derives
        cases same
        exact ⟨rfl, rfl⟩
      have judged : (lexer.withLimits limits).tokenize (String.ofList source) = .ok found.tree := by
        have done : ¬ found.stop < Text.byteLength (String.ofList source).toList := by
          rw [String.toList_ofList, last, whole]
          exact Nat.lt_irrefl _
        rw [tokenize_eq]
        exact (congrArg _ ends).trans (if_neg done)
      refine .inl ⟨_, by rw [parse, judged], ?_⟩
      have alike := ParseTree.alike_cull found.tree found.tree.root cullFilters
      rw [rulesOf, alike.source, alike.root, root, DerivedTree.view_cull laid, text]
      exact reads _ _ _
  · refine .inr ⟨fault, ?_, trips⟩
    have judged : (lexer.withLimits limits).tokenize (String.ofList source) = .error (.stopped fault) :=
      (tokenize_eq limits source).trans (congrArg _ ends)
    rw [parse, judged]
    rfl

/-! ## Tables -/

/-- A written grammar is read as its rules, unless a limit stops the reading. -/
theorem Rendered.rulesOf_parse {sentences : List Sentence} (rendered : Rendered sentences source) :
    ∃ cost height, ∀ limits : Limits,
      (∃ tree, parse limits (String.ofList source) = .ok tree ∧
        rulesOf tree = .ok (sentences.map Sentence.rule)) ∨
      ∃ fault, parse limits (String.ofList source) = .error (.stopped fault) ∧
        fault.Trips cost height limits := by
  obtain ⟨tree, stop, derives, whole, reads⟩ := rendered.derives
  exact parse_of_derives derives whole reads

/-- A table lists the names of some rules in order, and the body of each stands for what the rule means. All mentions
of a name share one placeholder. -/
structure Tabulated (sentences : List Sentence) (g : Grammar) (table : RuleTable) : Prop where
  bodies : List.Forall₂ (fun sentence entry => entry.1 = sentence.word.name ∧
      Expression.Stands g (Expression.Placeholder g) entry.2
        (sentence.body.meaning.bodyName sentence.word.name) sentence.body.meaning)
    sentences table.entries
  shared : ∀ {a b name}, g.kind a = .reference name → g.kind b = .reference name → a = b

theorem nodup_names {sentences : List Sentence}
    (distinct : (sentences.map fun sentence => sentence.word.text).Nodup) :
    ((sentences.map Sentence.rule).map Rule.name).Nodup := by
  have same : (sentences.map Sentence.rule).map Rule.name =
      (sentences.map fun sentence => sentence.word.text).map String.ofList := by
    rw [List.map_map, List.map_map]
    rfl
  rw [same]
  exact List.Pairwise.map _ (fun _ _ differ same => differ (String.ofList_inj.mp same)) distinct

/-- **A written grammar is lowered to what it means.** Under all limits that are large enough, and under all
others unless one of them stops the reading. -/
theorem Rendered.tabulated {sentences : List Sentence} (rendered : Rendered sentences source)
    (distinct : (sentences.map fun sentence => sentence.word.text).Nodup) :
    ∃ enough : Limits, ∀ limits : Limits,
      (∃ tree g table, parse limits (String.ofList source) = .ok tree ∧ lower tree = .ok (g, table) ∧
        Tabulated sentences g table) ∨
      ¬ (enough.fuel ≤ limits.fuel ∧ enough.depth ≤ limits.depth) ∧
        (parse limits (String.ofList source) = .error (.stopped .fuelExhausted) ∨
          parse limits (String.ofList source) = .error (.stopped .depthExceeded)) := by
  obtain ⟨cost, height, settles⟩ := rendered.rulesOf_parse
  refine ⟨⟨cost, height⟩, fun limits => ?_⟩
  rcases settles limits with ⟨tree, parsed, read⟩ | ⟨fault, stopped, trips⟩
  · obtain ⟨g, table, lowered, tabled⟩ := exists_tabled parsed read (nodup_names distinct)
    have bodies := tabled.bodies
    rw [List.forall₂_map_left_iff] at bodies
    exact .inl ⟨tree, g, table, parsed, lowered, bodies, tabled.shared⟩
  · refine .inr ⟨fun large => Match.Fault.not_trips large.1 large.2 trips, ?_⟩
    match fault, trips with
    | .fuelExhausted, _ => exact .inl stopped
    | .depthExceeded, _ => exact .inr stopped

/-- Two rules that mention each other under marks, in a group and in front of the end of the input. -/
def parities : List Sentence :=
  [⟨⟨['r', 'o', 'o', 't'], by decide, forall_mem_of_all (by decide)⟩, .next
      (.next (.mk true (.text ['"', 'a']) .any)
        (.last (.mk false (.name ⟨['o'], by decide, forall_mem_of_all (by decide)⟩ (by decide)) .once)))
      (.last (.last (.mk false .endOfInput .once)))⟩,
    ⟨⟨['o'], by decide, forall_mem_of_all (by decide)⟩, .last (.last (.mk false (.group (.next
      (.last (.mk false (.range true 'a' 'z' (by decide)) .more))
      (.last (.last (.mk false (.set false ['-']) .maybe))))) .once))⟩]

/-- Rules are written with and without gaps, one of them a comment. -/
theorem parities_rendered : Rendered parities
    "root::=!\"\\\"a\"*o|EOF # end\no ::= ([^a-z]+| [\\-]?)".toList := by
  have blank : Gap [' '] := .blank (by decide) .nil
  have comment : Gap (' ' :: '#' :: ([' ', 'e', 'n', 'd'] ++ '\n' :: [])) :=
    .blank (by decide) (.comment (by decide) .nil)
  have quoted : Element.Written (.mk true (.text ['"', 'a']) .any)
      (['!'] ++ (['"'] ++ ((['\\', '"'] ++ (['a'] ++ [])) ++ ['"']) ++ ['*'])) :=
    .mk (.text (.cons (.escaped (by decide)) (.cons (.plain (by decide)) .nil)))
  have odd : Element.Written (.mk false (.name ⟨['o'], by decide, forall_mem_of_all (by decide)⟩ (by decide)) .once)
      ([] ++ (['o'] ++ [])) := .mk .name
  have ends : Element.Written (.mk false .endOfInput .once) ([] ++ (['E', 'O', 'F'] ++ [])) := .mk .endOfInput
  have range : Element.Written (.mk false (.range true 'a' 'z' (by decide)) .more)
      ([] ++ (['['] ++ (['^'] ++ (['a'] ++ (['-'] ++ (['z'] ++ [']'])))) ++ ['+'])) :=
    .mk (.range (.plain (by decide)) (.plain (by decide)))
  have dash : Element.Written (.mk false (.set false ['-']) .maybe)
      ([] ++ (['['] ++ ([] ++ ((['\\', '-'] ++ []) ++ [']'])) ++ ['?'])) :=
    .mk (.set (.cons (.escaped (by decide)) .nil))
  have root : Sentence.Written parities[0] _ := .mk .nil .nil
    (.next (.next quoted .nil (.last odd) (by decide)) .nil .nil (.last (.last ends)))
  have other : Sentence.Written parities[1] _ := .mk blank blank
    (.last (.last (.mk (.group .nil (.next (.last range) .nil blank (.last (.last dash))) .nil))))
  exact ⟨[], _, .nil, .cons root comment (.cons other .nil .nil (by decide)) (by decide), rfl⟩

theorem parities_tabulated :
    Rendered parities "root::=!\"\\\"a\"*o|EOF # end\no ::= ([^a-z]+| [\\-]?)".toList ∧
      (parities.map fun sentence => sentence.word.text).Nodup ∧
      ∃ enough : Limits, ∀ limits : Limits,
        let reading := parse limits (String.ofList
          "root::=!\"\\\"a\"*o|EOF # end\no ::= ([^a-z]+| [\\-]?)".toList)
        (∃ tree g table, reading = .ok tree ∧ lower tree = .ok (g, table) ∧ Tabulated parities g table) ∨
        ¬ (enough.fuel ≤ limits.fuel ∧ enough.depth ≤ limits.depth) ∧
          (reading = .error (.stopped .fuelExhausted) ∨ reading = .error (.stopped .depthExceeded)) :=
  ⟨parities_rendered, by decide, parities_rendered.tabulated (by decide)⟩

end BnfTokenizer.Dialect
