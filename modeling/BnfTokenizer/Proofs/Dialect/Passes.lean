import BnfTokenizer.Proofs.Dialect.Folding

/-!
# All passes together

The four passes edit one tree, each what the ones before it have left. What comes of them is told from the tree as it
was: the rules that its sentences state, their tokens written first and their groups folded after (`lower_eq`). So no
pass meets a shape that it does not look for, whatever the earlier ones have done to the tree; what is reported is a
range that is not in order or a name that is taken, as `readStated` and `draftRules` report it.

This is for trees that have sentences below the root and nothing else, as culling leaves them.
-/

namespace BnfTokenizer.Dialect

open ParseTree (Ref View Forest)

variable {t u : ParseTree} {r s : Ref}

/-! ## Sentences -/

/-- A sentence in a table: a name and a statement, which is a row. -/
structure IsSentence {α : Type} (t : ParseTree) (is : Ref → α → Prop) (r : Ref) (stated : Stated α)
    (word statement : Ref) :
    Prop where
  children : t.children r = [word, statement]
  named : t.name word = some "word"
  leaf : t.children word = []
  value : t.value word = stated.name
  called : t.name statement = some "statement"
  row : IsRow t is (t.children statement) stated.row

section

variable {α : Type} {is : Ref → α → Prop} {stated : Stated α} {word : Ref} (sentence : IsSentence t is r stated word s)

include sentence

/-- The two parts of a sentence are found by their names, as long as these stay. -/
theorem IsSentence.childByName (children : u.children r = t.children r)
    (names : ∀ c ∈ t.children r, u.name c = t.name c) :
    u.childByName r "word" = some word ∧ u.childByName r "statement" = some s := by
  rw [sentence.children] at children names
  have isWord := (names word (by simp)).trans sentence.named
  have isStatement := (names s (by simp)).trans sentence.called
  constructor
  · simp [ParseTree.childByName, children, isWord]
  · simp [ParseTree.childByName, children, isWord, isStatement]

/-- The groups in a sentence are those of its row. -/
theorem IsSentence.groups (forest : t.Forest) (forest' : u.Forest) (agrees : Agrees (t.preorder r) t u) :
    u.allByName r .leafFirst "nested" = groupsOf t (t.children s) := by
  have all : u.allByName r .leafFirst "nested" = groupsOf u (t.children r) := by
    rw [ParseTree.allByName, forest'.descendants_leafFirst, agrees.children (forest.self_mem_preorder r), groupsOf]
  have none : groupsOf t [word] = [] := by
    rw [groupsOf_singleton forest, sentence.leaf, if_neg (by rw [sentence.named]; decide)]
    rfl
  rw [all, groupsOf_congr forest forest' (agrees.mono (forest.below_subset r)), sentence.children,
    ← List.singleton_append, groupsOf_append, none, groupsOf_singleton forest,
    if_neg (by rw [sentence.called]; decide), List.append_nil, List.nil_append]

end

/-- Folding a sentence is defining its rule. -/
theorem lowerSentence_eq (forest : t.Forest) {stated : Stated NodeId} {word : Ref}
    (is : IsSentence t (fun r id => t.payload r = some id) r stated word s) (l : Lowering) (trees : l.tree.Forest)
    (agrees : Agrees (t.preorder r) t l.tree) :
    ∃ u, Kept (t.preorder r) l.tree u ∧
      l.lowerSentence r = (defineRule (l.draft, l.rules) stated).map fun (d, table) => ⟨u, d, table⟩ := by
  have here := forest.self_mem_preorder r
  have there : ∀ c ∈ [word, s], c ∈ t.preorder r := fun c mem => forest.child_mem_preorder (is.children ▸ mem)
  have under := there s (by simp)
  obtain ⟨w, run, kept, each⟩ := is.row.lowerGroups forest (forest.nodup_below s) l trees
    (agrees.mono (List.Subset.trans (forest.below_subset s) (forest.preorder_subset under)))
  -- The sentence is looked at before its groups are folded, for its name, and after it, for its statement.
  have before := is.childByName (agrees.children here) fun c mem => agrees.name (forest.child_mem_preorder mem)
  have after := is.childByName (children_around forest agrees kept here under) fun c mem =>
    (kept.name c).trans (agrees.name (forest.child_mem_preorder mem))
  have inner := children_around forest agrees kept under (forest.self_mem_preorder s)
  have folded := @fold_eq s ⟨w, (l.draft.enterAll stated.row).1, l.rules⟩ kept.forest (l.draft.enterAll stated.row).2
    (inner ▸ each)
  refine ⟨w.cull s liftStatements,
    kept.close forest agrees trees (kept_cull kept.forest s liftStatements) under under, ?_⟩
  rw [Lowering.lowerSentence, before.1]
  dsimp only
  rw [is.groups forest trees agrees, run]
  dsimp only
  rw [after.2]
  dsimp only
  rw [Lowering.lowerStatement, folded, agrees.value (there word (by simp)), is.value]
  dsimp only [defineRule, Draft.foldRow]
  cases l.rules.define stated.name _ with
  | error error => rfl
  | ok rules => rfl

/-- Sentences are defined one after the other. -/
theorem lowerSentences_eq (forest : t.Forest) {rs : List Ref} {stated : List (Stated NodeId)}
    (each : List.Forall₂ (fun r stated => ∃ word s, IsSentence t (fun r id => t.payload r = some id) r stated word s)
      rs stated) (once : (rs.flatMap t.preorder).Nodup) (l : Lowering) (trees : l.tree.Forest)
    (agrees : Agrees (rs.flatMap t.preorder) t l.tree) :
    ((rs.foldlM Lowering.lowerSentence l).map fun l => (l.draft, l.rules)) =
      stated.foldlM defineRule (l.draft, l.rules) := by
  induction each generalizing l with
  | nil => rfl
  | @cons r stated rs others own _ ih =>
    obtain ⟨word, s, is⟩ := own
    obtain ⟨_, once, apart⟩ := List.nodup_append.mp once
    obtain ⟨u, kept, step⟩ := lowerSentence_eq forest is l trees (agrees.mono fun x => List.mem_append_left _)
    rw [List.foldlM_cons, List.foldlM_cons, step]
    cases defineRule (l.draft, l.rules) stated with
    | error error => rfl
    | ok result =>
      exact ih once ⟨u, result.1, result.2⟩ kept.forest
        ((agrees.mono fun x => List.mem_append_right _).kept kept fun x mem again => apart x again x mem rfl)

/-! ## The tokens of all sentences -/

/-- The same with each token changed by `f`. -/
def Stated.map {α β : Type} (f : α → β) (stated : Stated α) : Stated β :=
  ⟨stated.name, Part.listMap f stated.row⟩

/-- The tokens of a rule read. -/
def Stated.read (source : String) (stated : Stated View) : Except CompileError (Stated Expression) :=
  (Part.listRead source stated.row).map fun row => ⟨stated.name, row⟩

/-- **The tokens of all sentences become nodes**, or the first that is misread is reported. -/
theorem lowerStatedTokens (source : String) (seen : Ref → View) (ss : List (Stated Ref)) (l : Lowering)
    (from' : String.ofList l.tree.source = source)
    (is : TokensOf seen (ss.flatMap fun stated => Part.listTokens stated.row) l.tree) :
    match (ss.map (Stated.map seen)).mapM (Stated.read source) with
    | .error error => (ss.flatMap fun stated => Part.listTokens stated.row).foldlM Lowering.lowerToken l = .error error
    | .ok stated => ∃ u,
        Numbered l (ss.flatMap fun stated => Part.listTokens stated.row) (l.draft.numberStated stated).1 u ∧
        ss.map (Stated.map (payloadAt u)) = (l.draft.numberStated stated).2 := by
  induction ss generalizing l with
  | nil => exact ⟨l.tree, ⟨rfl, .refl _, nofun⟩, rfl⟩
  | cons first ss ih =>
    have own := lowerAllTokens source seen first.row l from' is.left
    have step : ((first :: ss).map (Stated.map seen)).mapM (Stated.read source) =
        ((first.map seen).read source).bind fun stated =>
          ((ss.map (Stated.map seen)).mapM (Stated.read source)).map (stated :: ·) := by
      rw [List.map_cons, List.mapM_cons]
      rfl
    rw [step, Stated.read, Stated.map]
    cases read : Part.listRead source (Part.listMap seen first.row) with
    | error error =>
      rw [read] at own
      rw [List.flatMap_cons, List.foldlM_append, own]
      rfl
    | ok row =>
      rw [read] at own
      obtain ⟨u, numbered, same⟩ := own
      have others := ih ⟨u, (l.draft.numberAll row).1, l.rules⟩
        ((congrArg String.ofList numbered.2.1.source).trans from') (is.right numbered.2.1)
      cases reads : (ss.map (Stated.map seen)).mapM (Stated.read source) with
      | error error =>
        rw [reads] at others
        rw [List.flatMap_cons, List.foldlM_append, numbered.1]
        exact others
      | ok stated =>
        rw [reads] at others
        obtain ⟨v, numbered', same'⟩ := others
        refine ⟨v, numbered.append numbered' is, ?_⟩
        -- As within a row: later tokens leave what is kept at earlier ones.
        have kept : Part.listMap (payloadAt v) first.row = Part.listMap (payloadAt u) first.row := by
          refine Part.listMap_congr fun r mem => ?_
          have apart : r ∉ ss.flatMap fun stated => Part.listTokens stated.row := fun again =>
            (List.nodup_append.mp is.once).2.2 r mem r again rfl
          rw [payloadAt, numbered'.2.1.payload r apart, payloadAt]
        rw [List.map_cons, same', Stated.map, kept, same]
        rfl

section

variable {tokens : List Ref} (paid : Paid tokens t u)

include paid

theorem marksAt_paid (r : Ref) : marksAt u r = marksAt t r :=
  marksAt_congr (paid.children r) (fun c _ => paid.name c) fun c _ => paid.value c

/-- A row of tokens is one of their nodes when it is paid. -/
theorem IsRow.payloads {rs : List Ref} {row : List (Part Ref)} (is : IsRow t (· = ·) rs row)
    (known : ∀ r ∈ Part.listTokens row, u.payload r = some (payloadAt u r)) :
    IsRow u (fun r id => u.payload r = some id) rs (Part.listMap (payloadAt u) row) := by
  induction is with
  | nil => exact .nil
  | @bar r rs row named leaf _ ih => exact .bar ((paid.name r).trans named) ((paid.children r).trans leaf) (ih known)
  | @token r rs a row named inner same _ ih =>
    cases same
    obtain ⟨own, others⟩ := List.forall_mem_cons.mp known
    refine .token ((paid.name r).trans named) (fun c above => ?_) own (ih others)
    rw [paid.name]
    refine inner c ?_
    simpa only [ParseTree.Above, paid.parent] using above
  | @group r s before after rs inside row named children marks called _ _ ih ih' =>
    obtain ⟨own, others⟩ := List.forall_mem_append.mp known
    have held := ih own
    rw [← paid.children s] at held
    rw [Part.listMap, Part.map, ← marksAt_paid paid r]
    refine .group ((paid.name r).trans named) ((paid.children r).trans children) (fun c mem => ?_)
      ((paid.name s).trans called) held (ih' others)
    rw [paid.children, paid.name]
    exact marks c mem

theorem IsSentence.payloads {stated : Stated Ref} {word : Ref} (is : IsSentence t (· = ·) r stated word s)
    (known : ∀ r ∈ Part.listTokens stated.row, u.payload r = some (payloadAt u r)) :
    IsSentence u (fun r id => u.payload r = some id) r (stated.map (payloadAt u)) word s where
  children := (paid.children r).trans is.children
  named := (paid.name word).trans is.named
  leaf := (paid.children word).trans is.leaf
  value := (paid.value word).trans is.value
  called := (paid.name s).trans is.called
  row := by
    rw [paid.children s]
    exact is.row.payloads paid known

/-- Sentences of tokens are sentences of their nodes when they are paid. -/
theorem forall₂_payloads {rs : List Ref} {ss : List (Stated Ref)}
    (known : ∀ r ∈ ss.flatMap fun stated => Part.listTokens stated.row, u.payload r = some (payloadAt u r))
    (states : List.Forall₂ (fun r stated => ∃ word s, IsSentence t (· = ·) r stated word s) rs ss) :
    List.Forall₂ (fun r stated => ∃ word s, IsSentence u (fun r id => u.payload r = some id) r stated word s) rs
      (ss.map (Stated.map (payloadAt u))) := by
  induction states with
  | nil => exact .nil
  | cons own _ ih =>
    obtain ⟨word, s, is⟩ := own
    obtain ⟨first, others⟩ := List.forall_mem_append.mp known
    exact .cons ⟨word, s, is.payloads paid first⟩ (ih others)

end

/-- Sentences whose tokens are nodes get their places in the grammar. -/
theorem draftRules_of_paid (forest : t.Forest) {rs : List Ref} (once : (rs.flatMap t.preorder).Nodup)
    {stated : List (Stated Expression)} {rows : List (Stated NodeId)}
    (states : List.Forall₂
      (fun r row => ∃ word s, IsSentence t (fun r id => t.payload r = some id) r row word s) rs rows)
    (same : rows = (Draft.numberStated {} stated).2) :
    (rs.foldlM Lowering.lowerSentence ⟨t, (Draft.numberStated {} stated).1, {}⟩).map
      (fun l => (l.draft.grammar, l.rules)) = draftRules stated := by
  have folded := lowerSentences_eq forest states once ⟨t, (Draft.numberStated {} stated).1, {}⟩ forest
    ⟨rfl, fun _ _ => rfl⟩
  rw [draftRules]
  dsimp only
  rw [← same, ← folded]
  cases rs.foldlM Lowering.lowerSentence ⟨t, (Draft.numberStated {} stated).1, {}⟩ with
  | error error => rfl
  | ok l => rfl

/-! ## The tree of a text -/

/-- A sentence that is seen is one in the table when the tree is flattened, with the same tokens. -/
theorem SentenceView.flattened (flat : Flattened t u) (forest : t.Forest) {v : View} (sentence : SentenceView v)
    (shown : t.view r = v) (below : t.Above t.root r) (source : String) :
    ∃ stated : Stated Ref, (∃ word s, IsSentence u (· = ·) r stated word s) ∧
      readStated source v = (stated.map t.view).read source ∧ Part.listTokens stated.row = tokensOf t [r] := by
  cases sentence with
  | @rule word value statement span place _ is =>
    obtain ⟨named, _, children⟩ := links_of_view forest shown
    obtain ⟨w, others, listed, isWord, rest⟩ := List.map_eq_cons_iff.mp children
    obtain ⟨s, rfl, isStatement⟩ := List.map_eq_singleton_iff.mp rest
    have under : ∀ c ∈ [w, s], t.Above t.root c := fun c mem => .head ((forest.linked r c).mp (listed ▸ mem)) below
    have inner : (t.view w).All Inner := by
      rw [isWord]
      exact inner_leaf (by decide) (by decide) _ _
    have free : ∀ c ∈ (t.view r).children, IsFree c.name := by
      rw [shown]
      refine List.forall_mem_cons.mpr ⟨(by decide : IsFree (some "word")), List.forall_mem_singleton.mpr ?_⟩
      rw [is.name]
      decide
    have kept := children_flattened flat forest below (by rw [named]; decide) free
    have leaf := (mark_flattened flat forest (under w (by simp)) (by rw [isWord]; rfl) inner).1
    obtain ⟨isNamed, isValue, _⟩ := links_of_view forest isWord
    have calledStatement : t.name s = some "statement" := by rw [← forest.name_view, isStatement, is.name]
    obtain ⟨row, isRow, seen, tokens⟩ := is.rowed flat forest isStatement (under s (by simp))
    refine ⟨⟨word, row⟩, ⟨w, s, kept.trans listed, (flat.name w).trans isNamed, leaf, ?_,
      (flat.name s).trans calledStatement, isRow⟩, ?_, ?_⟩
    · rw [flat.value w (under w (by simp)), isNamed, isValue]
      exact resolvedValue_of_ordinary (by decide) word
    · obtain ⟨first, found⟩ := is.found_in_sentence word value span place
      rw [List.map_singleton, isStatement, listPartsOf, listPartsOf, List.append_nil] at seen
      rw [readStated, found, first, Stated.read, Stated.map]
      dsimp only
      rw [seen]
      rfl
    · rw [tokens, tokensOf_singleton forest (r := r) (by rw [named]; decide), listed,
        ← List.singleton_append (l := [s]), tokensOf_append,
        tokensOf_eq_nil forest (List.forall_mem_singleton.mpr inner), List.nil_append]

/-- What the passes work on is gathered under its names. -/
theorem lookup_allByNames (t : ParseTree) {name : String} (mem : name ∈ passTargets) :
    ((t.allByNames t.root .leafFirst passTargets).lookup name).getD [] = t.allByName t.root .leafFirst name := by
  have keys : passTargets.eraseDups = passTargets := by decide
  rw [ParseTree.allByNames_eq, keys]
  simp only [passTargets, List.mem_cons, List.not_mem_nil, or_false] at mem
  rcases mem with rfl | rfl | rfl | rfl
  all_goals rfl

section

variable (forest : t.Forest) (sentences : ∀ c ∈ t.children t.root, SentenceView (t.view c))

include forest sentences

omit sentences in
/-- What is below a sentence is tidy. -/
theorem inSentence_of_above {c x : Ref} (sentence : SentenceView (t.view c)) (above : t.Above c x) :
    InSentence (t.view x) := by
  obtain ⟨child, listed, mem⟩ := List.mem_flatMap.mp (forest.mem_below_iff.mpr above)
  have inside := sentence.tidy.2
  rw [forest.children_view] at inside
  exact (forest.all_of_all (View.listAll_iff.mp inside _ (List.mem_map_of_mem listed)) x mem).here

/-- The sentences stand below the root, in their order. -/
theorem allByName_sentence : t.allByName t.root .leafFirst "sentence" = t.children t.root := by
  rw [ParseTree.allByName, forest.descendants_leafFirst, List.filter_flatMap]
  have own : ∀ c ∈ t.children t.root, (t.postorder c).filter (fun d => t.name d == some "sentence") = [c] := by
    intro c mem
    have below : ((t.children c).flatMap t.postorder).filter (fun d => t.name d == some "sentence") = [] := by
      refine List.filter_eq_nil_iff.mpr fun x inside => ?_
      rw [(ParseTree.perm_flatMap_postorder _).mem_iff, forest.mem_below_iff] at inside
      have other := (inSentence_of_above forest (sentences c mem) inside).name
      rw [forest.name_view] at other
      rwa [beq_iff_eq]
    have here : t.name c == some "sentence" := by
      rw [← forest.name_view, (sentences c mem).name]
      rfl
    rw [forest.postorder_eq, List.filter_append, below, List.filter_singleton, here]
    rfl
  rw [List.flatMap_congr own, List.flatMap_singleton']

theorem tidy_root (named : t.name t.root = some "grammar") : (t.view t.root).All Tidy := by
  rw [forest.view_eq, named]
  refine ⟨tidy_of_free (by decide) _ _ ?_, View.listAll_iff.mpr ?_⟩
  · rw [List.forall_mem_map]
    intro c mem
    rw [(sentences c mem).name]
    decide
  · rw [List.forall_mem_map]
    intro c mem
    obtain ⟨here, below⟩ := (sentences c mem).tidy
    revert here below
    cases t.view c
    exact fun here below => ⟨here, below.imp fun _ => InSentence.tidy⟩

omit sentences in
/-- The tokens of all sentences are still there when the tree is flattened. -/
theorem tokensOf_flattened (flat : Flattened t u) (tidy : (t.view t.root).All Tidy)
    (each : ∀ c ∈ t.children t.root, SentenceView (t.view c)) :
    TokensOf t.view (t.allByName t.root .leafFirst "token") u := by
  have token : ∀ {r}, r ∈ t.allByName t.root .leafFirst "token" → t.Above t.root r ∧ t.name r = some "token" :=
    fun mem => forest.mem_allByName_iff.mp mem
  refine ⟨flat.forest, nodup_allByName forest _ _, fun r mem => ?_, fun r mem => ?_, fun r mem => ?_⟩
  · obtain ⟨p, _, link⟩ := exists_parent_of_above forest (token mem).1
    rw [flat.size]
    exact ParseTree.child_inside link
  · obtain ⟨above, named⟩ := token mem
    obtain ⟨c, listed, below⟩ := List.mem_flatMap.mp (forest.mem_below_iff.mpr above)
    have inside : t.Above c r := by
      rcases forest.mem_preorder_iff.mp below with rfl | inside
      · rw [← forest.name_view, (each r listed).name] at named
        exact absurd named (by decide)
      · exact inside
    have isToken := (forest.name_view r).trans named
    exact flat.view_inner forest above
      (plain_of_token isToken ((inSentence_of_above forest (each c listed) inside).token isToken))
  · have reached := forest.mem_preorder_iff.mpr (.inr (token mem).1)
    exact (forest.all_of_all tidy r reached).imp fun _ => Tidy.escapes

omit sentences in
/-- The sentences as they are stated, in a row. -/
theorem exists_stated (flat : Flattened t u) (source : String) (rs : List Ref)
    (each : ∀ r ∈ rs, SentenceView (t.view r) ∧ t.Above t.root r) :
    ∃ ss : List (Stated Ref),
      List.Forall₂ (fun r stated => ∃ word s, IsSentence u (· = ·) r stated word s) rs ss ∧
        (rs.map t.view).mapM (readStated source) = (ss.map (Stated.map t.view)).mapM (Stated.read source) ∧
        (ss.flatMap fun stated => Part.listTokens stated.row) = tokensOf t rs := by
  induction rs with
  | nil => exact ⟨[], .nil, rfl, rfl⟩
  | cons r rs ih =>
    obtain ⟨⟨sentence, below⟩, others⟩ := List.forall_mem_cons.mp each
    obtain ⟨ss, states, reads, tokens⟩ := ih others
    obtain ⟨stated, isSentence, read, own⟩ := sentence.flattened flat forest rfl below source
    refine ⟨stated :: ss, .cons isSentence states, ?_, ?_⟩
    · rw [List.map_cons, List.map_cons, List.mapM_cons, List.mapM_cons, read, reads]
    · rw [List.flatMap_cons, tokens, own, ← tokensOf_append, List.singleton_append]

/-- The sentences stay below the root. -/
theorem children_root (flat : Flattened t u) (named : t.name t.root = some "grammar") :
    u.children t.root = t.children t.root := by
  have single : ∀ c ∈ t.children t.root, spread t c = [c] := by
    intro c mem
    refine spread_of_ne ?_
    rw [← forest.name_view, (sentences c mem).name]
    decide
  rw [flat.children t.root (forest.self_mem_preorder t.root) (by rw [named]; decide), List.flatMap_congr single,
    List.flatMap_singleton']

/-- **Lowering is told by the tree as it was**: the rules that are stated in it, their tokens first. -/
theorem lower_eq (named : t.name t.root = some "grammar") :
    lower t = (((t.children t.root).map t.view).mapM (readStated (String.ofList t.source))).bind draftRules := by
  have ordinary : t.name t.root ≠ some "escapeSequence" := by
    rw [named]
    decide
  have tidy := tidy_root forest sentences named
  have flat := flattened_of_tidy forest tidy ordinary
  have is := tokensOf_flattened forest flat tidy sentences
  rw [lower]
  dsimp only
  rw [lookup_allByNames t (by decide), lookup_allByNames t (by decide), lookup_allByNames t (by decide),
    lookup_allByNames t (by decide), allByName_sentence forest sentences]
  -- Of the first two passes only what they leave of the tree is needed.
  generalize (t.allByName t.root .leafFirst "statementOpt").foldl flatten
    ((t.allByName t.root .leafFirst "escapeSequence").foldl resolveEscape t) = u at flat is
  obtain ⟨ss, states, reads, tokens⟩ := exists_stated forest flat (String.ofList t.source) (t.children t.root)
    fun r mem => ⟨sentences r mem, .single ((forest.linked _ r).mp mem)⟩
  have gathered : t.allByName t.root .leafFirst "token" = ss.flatMap fun stated => Part.listTokens stated.row := by
    rw [tokens, ParseTree.allByName, forest.descendants_leafFirst, tokensOf]
  rw [gathered] at is
  rw [gathered, reads]
  have lowered := lowerStatedTokens (String.ofList t.source) t.view ss { tree := u }
    (congrArg String.ofList flat.source) is
  cases read : (ss.map (Stated.map t.view)).mapM (Stated.read (String.ofList t.source)) with
  | error error =>
    rw [read] at lowered
    rw [lowered]
    rfl
  | ok stated =>
    rw [read] at lowered
    obtain ⟨v, ⟨run, paid, known⟩, same⟩ := lowered
    have children : v.children t.root = t.children t.root :=
      (paid.children t.root).trans (children_root forest sentences flat named)
    have forest' := paid.forest flat.forest
    have once := forest'.nodup_below t.root
    rw [children] at once
    rw [run]
    exact draftRules_of_paid forest' once (forall₂_payloads paid known states) same

end

end BnfTokenizer.Dialect
