import BnfTokenizer.CommandLine.Response
import BnfTokenizer.Proofs.Diagnostic.Origins
import BnfTokenizer.Proofs.Match.Positions

/-!
# Where the texts of a request come from

A request that reads an input is about two texts, and each of them is given inline or read at a path. What is loaded
says which (`Request.Given`), and so do the drawings of diagnostics, in the name that they show. Nothing is said of how
diagnostics are drawn but that the name can be told from a drawing (`Renderer.ShowsOrigins`).

The input is loaded, and drawn, with paths that were perhaps not read, since a text that is given inline goes before a
path: a grammar given inline still keeps the input from the standard input, and a drawing of an input given inline still
shows a path. Both happen only where a part of a request has a text and a path.
-/

namespace BnfTokenizer.CommandLine

/-- One of the texts that a request is about. -/
inductive Part where
  | grammar
  | input
deriving DecidableEq, Repr

/-- A text as it is used. -/
def Part.prepared : Part → String → String
  | grammar, text => Text.normalizeLines text
  | input, text => text

namespace Request

variable {r : Request} {draw : Diagnostic.Renderer} {world : Surroundings} {part : Part} {text : String}

/-! ## Parts of a request -/

def inline? (r : Request) : Part → Option String
  | .grammar => r.grammarText
  | .input => r.inputText

def path? (r : Request) : Part → Option String
  | .grammar => r.grammarPath
  | .input => r.inputPath

/-- The path that a text is read at, if it is not given inline. -/
def readAt? (r : Request) (part : Part) : Option String :=
  if (r.inline? part).isSome then none else r.path? part

/-- A text is to be read from the standard input. -/
def OnStandardInput (r : Request) (part : Part) : Prop :=
  r.readAt? part = some "-"

/-- The text of a part, and the path that it was read at, or none if it was given inline. -/
inductive Given (r : Request) (world : Surroundings) (part : Part) : Option String → String → Prop
  | inline {text : String} (given : r.inline? part = some text) : Given r world part none (part.prepared text)
  | read {path text : String} (absent : r.inline? part = none) (given : r.path? part = some path)
      (found : world.read path = .ok text) : Given r world part (some path) (part.prepared text)

theorem readAt?_of_inline (given : r.inline? part = some text) : r.readAt? part = none :=
  if_pos (Option.isSome_of_mem given)

theorem readAt?_of_not_inline (absent : r.inline? part = none) : r.readAt? part = r.path? part := by
  rw [readAt?, absent]
  rfl

theorem readAt?_eq_some_iff {path : String} :
    r.readAt? part = some path ↔ r.inline? part = none ∧ r.path? part = some path := by
  cases text : r.inline? part with
  | none => rw [readAt?_of_not_inline text, and_iff_right rfl]
  | some text' => rw [readAt?_of_inline text]; exact iff_of_false nofun nofun

theorem Given.place {place : Option String} (given : r.Given world part place text) : place = r.readAt? part := by
  cases given with
  | inline given => exact (readAt?_of_inline given).symm
  | read absent given _ => exact (readAt?_of_not_inline absent ▸ given).symm

/-! ## Loading -/

section

variable {ε α β : Type} {x : Except ε α} {f : α → β}

theorem map_eq_ok_iff {b : β} : x.map f = .ok b ↔ ∃ a, x = .ok a ∧ f a = b := by
  cases x with
  | error error => exact iff_of_false nofun nofun
  | ok a =>
    constructor
    · exact fun same => ⟨a, rfl, Except.ok.inj same⟩
    · rintro ⟨_, same, rfl⟩
      cases same
      rfl

theorem map_eq_error_iff {error : ε} : x.map f = .error error ↔ x = .error error := by
  cases x with
  | error other => rw [Except.map, Except.error.injEq, Except.error.injEq]
  | ok a => exact iff_of_false nofun nofun

end

/-- The texts of a request, or what keeps them from being loaded. -/
def load (r : Request) (world : Surroundings) : Except LoadError (GrammarSource × String) :=
  match world.loadGrammar r.grammarPath r.grammarText with
  | .error error => .error error
  | .ok source => (world.loadInput r.inputPath r.inputText r.grammarPath).map fun input => (source, input)

/-- Both texts are loaded, the grammar first. -/
theorem load_eq_ok_iff {source : GrammarSource} {input : String} :
    r.load world = .ok (source, input) ↔
      world.loadGrammar r.grammarPath r.grammarText = .ok source ∧
        world.loadInput r.inputPath r.inputText r.grammarPath = .ok input := by
  unfold load
  cases world.loadGrammar r.grammarPath r.grammarText with
  | error error => exact iff_of_false nofun nofun
  | ok found =>
    rw [map_eq_ok_iff, Except.ok.injEq]
    constructor
    · rintro ⟨_, read, same⟩
      cases same
      exact ⟨rfl, read⟩
    · rintro ⟨rfl, read⟩
      exact ⟨input, read, rfl⟩

theorem load_eq_error_iff {error : LoadError} :
    r.load world = .error error ↔
      world.loadGrammar r.grammarPath r.grammarText = .error error ∨
        (∃ source, world.loadGrammar r.grammarPath r.grammarText = .ok source) ∧
          world.loadInput r.inputPath r.inputText r.grammarPath = .error error := by
  unfold load
  cases world.loadGrammar r.grammarPath r.grammarText with
  | error other =>
    constructor
    · intro failed
      cases failed
      exact .inl rfl
    · rintro (same | ⟨⟨_, absent⟩, _⟩)
      · cases same
        rfl
      · cases absent
  | ok found =>
    rw [map_eq_error_iff]
    exact ⟨fun failed => .inr ⟨⟨found, rfl⟩, failed⟩, fun either => either.elim nofun And.right⟩

theorem lexerAndInput_eq (r : Request) (draw : Diagnostic.Renderer) (world : Surroundings) :
    r.lexerAndInput draw world =
      match r.load world with
      | .error error => .error (loadComplaint error)
      | .ok (source, input) => (r.compile draw world source).map fun lexer => (lexer.withLimits r.limits, input) := by
  unfold lexerAndInput load
  cases world.loadGrammar r.grammarPath r.grammarText with
  | error error => rfl
  | ok source =>
    cases world.loadInput r.inputPath r.inputText r.grammarPath with
    | error error => rfl
    | ok input =>
      dsimp only [Except.map, Except.mapError, bind, Except.bind]
      cases r.compile draw world source <;> rfl

theorem given_of_loadGrammar {source : GrammarSource}
    (loaded : world.loadGrammar r.grammarPath r.grammarText = .ok source) :
    ∃ place, r.Given world .grammar place source.text ∧ source.origin = place.map originName := by
  unfold Surroundings.loadGrammar at loaded
  split at loaded
  · next given =>
    cases loaded
    exact ⟨none, .inline given, rfl⟩
  · cases loaded
  · next path absent given =>
    obtain ⟨text, found, rfl⟩ := map_eq_ok_iff.mp loaded
    exact ⟨some path, .read absent given found, rfl⟩

theorem given_of_loadInput {input : String}
    (loaded : world.loadInput r.inputPath r.inputText r.grammarPath = .ok input) :
    ∃ place, r.Given world .input place input := by
  unfold Surroundings.loadInput at loaded
  split at loaded
  · next given =>
    cases loaded
    exact ⟨none, .inline given⟩
  · cases loaded
  · next path absent given =>
    split at loaded
    · cases loaded
    · exact ⟨some path, .read absent given loaded⟩

/-- What is loaded has the texts of both parts, and the grammar the name of the place that it was read at. -/
theorem given_of_load {source : GrammarSource} {input : String} (loaded : r.load world = .ok (source, input)) :
    (r.Given world .grammar (r.readAt? .grammar) source.text ∧ source.origin = (r.readAt? .grammar).map originName) ∧
      r.Given world .input (r.readAt? .input) input := by
  obtain ⟨first, second⟩ := load_eq_ok_iff.mp loaded
  obtain ⟨_, given, named⟩ := given_of_loadGrammar first
  obtain ⟨_, given'⟩ := given_of_loadInput second
  cases given.place
  cases given'.place
  exact ⟨⟨given, named⟩, given'⟩

/-! ## The standard input -/

theorem not_standardInputTwice_of_read {path : String} : world.read path ≠ .error .standardInputTwice := by
  unfold Surroundings.read
  generalize (if isStandardInput path then world.standardInput else world.fileAt path) = found
  cases found <;> exact nofun

theorem loadInput_eq_standardInputTwice_iff :
    world.loadInput r.inputPath r.inputText r.grammarPath = .error .standardInputTwice ↔
      r.OnStandardInput .input ∧ r.grammarPath = some "-" := by
  have leads : r.grammarPath.any isStandardInput = true ↔ r.grammarPath = some "-" := by
    rw [Option.any_eq_true]
    exact ⟨fun ⟨_, given, same⟩ => given.trans (congrArg some (beq_iff_eq.mp same)), fun given => ⟨_, given, rfl⟩⟩
  unfold Surroundings.loadInput
  split
  · next text given =>
    refine iff_of_false nofun fun both => ?_
    have none : r.readAt? .input = none := readAt?_of_inline given
    cases none.symm.trans both.1
  · next absent missing =>
    refine iff_of_false nofun fun both => ?_
    have none : r.readAt? .input = none := Eq.trans (readAt?_of_not_inline absent) missing
    cases none.symm.trans both.1
  · next path absent given =>
    have reads : r.readAt? .input = some path := Eq.trans (readAt?_of_not_inline absent) given
    rw [OnStandardInput, reads, Option.some.injEq, ← leads]
    split
    · next both =>
      rw [Bool.and_eq_true] at both
      exact iff_of_true rfl ⟨beq_iff_eq.mp both.1, both.2⟩
    · next other =>
      refine iff_of_false not_standardInputTwice_of_read fun both => other ?_
      rw [Bool.and_eq_true]
      exact ⟨beq_iff_eq.mpr both.1, both.2⟩

theorem loadGrammar_ne_standardInputTwice :
    world.loadGrammar r.grammarPath r.grammarText ≠ .error .standardInputTwice := by
  unfold Surroundings.loadGrammar
  split
  · exact nofun
  · exact nofun
  · next path _ _ => exact fun failed => not_standardInputTwice_of_read (map_eq_error_iff.mp failed)

/-- A grammar whose path leads to the standard input is there, if it is given inline or the standard input is a text. -/
theorem exists_loadGrammar_iff (leads : r.grammarPath = some "-") :
    (∃ source, world.loadGrammar r.grammarPath r.grammarText = .ok source) ↔
      (r.grammarText = none → ∃ text, world.standardInput = .ok text) := by
  rw [leads]
  cases r.grammarText with
  | some text => exact iff_of_true ⟨_, rfl⟩ nofun
  | none =>
    have reads : world.loadGrammar (some "-") none = (world.standardInput.mapError (.unreadable "<stdin>")).map
        fun text => ⟨Text.normalizeLines text, some "<stdin>"⟩ := rfl
    rw [reads]
    cases world.standardInput with
    | error fault =>
      refine iff_of_false nofun fun found => ?_
      obtain ⟨_, same⟩ := found rfl
      cases same
    | ok text => exact iff_of_true ⟨_, rfl⟩ fun _ => ⟨text, rfl⟩

/-- A request is refused for using the standard input twice where its input would be read there and the path of its
grammar leads there, when the grammar was read there before, or else is given inline. -/
theorem load_eq_standardInputTwice_iff :
    r.load world = .error .standardInputTwice ↔
      r.OnStandardInput .input ∧ r.grammarPath = some "-" ∧
        (r.grammarText = none → ∃ text, world.standardInput = .ok text) := by
  rw [← and_assoc, load_eq_error_iff, or_iff_right loadGrammar_ne_standardInputTwice,
    loadInput_eq_standardInputTwice_iff, and_comm]
  exact and_congr_right fun twice => exists_loadGrammar_iff twice.2

/-! ## What a run says -/

theorem run_of_error {response : Response} (reads : r.command.readsInput = true)
    (stops : r.lexerAndInput draw world = .error response) : r.run draw world = response := by
  unfold run
  cases command : r.command with
  | check => rw [command] at reads; cases reads
  | dump => rw [command] at reads; cases reads
  | tokenize => rw [runTokenize, stops]; rfl
  | trace => rw [runTrace, stops]; rfl

theorem run_of_load_error {error : LoadError} (reads : r.command.readsInput = true)
    (failed : r.load world = .error error) : r.run draw world = loadComplaint error :=
  run_of_error reads (by rw [lexerAndInput_eq, failed])

/-- A diagnostic as a run draws it. -/
structure Drawing where
  part : Part
  diagnostic : Diagnostic
  text : String
  origin : Option String
deriving DecidableEq, Repr

/-- What a run draws, if it draws anything. -/
def drawing? (r : Request) (world : Surroundings) : Option Drawing :=
  match r.load world with
  | .error _ => none
  | .ok (source, input) =>
    match Dialect.compile {} source.text with
    | .error error => error.diagnostic?.map fun diagnostic => ⟨.grammar, diagnostic, source.text, source.origin⟩
    | .ok lexer =>
      match r.command, (lexer.withLimits r.limits).tokenize input with
      | _, .ok _ => none
      | .trace, .error (.stopped _) => none
      | _, .error error => some ⟨.input, error.diagnostic, input, r.inputPath.map originName⟩

/-- What is shown of a drawing. -/
def Drawing.shown (d : Drawing) (draw : Diagnostic.Renderer) (colored : Bool) : String :=
  draw (d.diagnostic.report d.text d.origin) colored

/-- What a run tells: what it draws, or one plain line, or nothing at all. -/
inductive Tells (draw : Diagnostic.Renderer) (colored : Bool) : Option Drawing → String → Prop
  | drawing (d : Drawing) : Tells draw colored (some d) (d.shown draw colored ++ "\n")
  | unloaded (error : LoadError) : Tells draw colored none ("error: " ++ error.message ++ "\n")
  | uncompiled (error : Dialect.CompileError) (pointless : error.diagnostic? = none) :
      Tells draw colored none ("error: " ++ error.message ++ "\n")
  | stopped (fault : Match.Fault) : Tells draw colored none ("runtime error: " ++ fault.message ++ "\n")
  | nothing : Tells draw colored none ""

theorem Tells.errors_eq {colored : Bool} {d : Drawing} {errors : String} (tells : Tells draw colored (some d) errors) :
    errors = d.shown draw colored ++ "\n" := by
  cases tells
  rfl

theorem run_tells (reads : r.command.readsInput = true) :
    Tells draw (r.colored world) (r.drawing? world) (r.run draw world).errors := by
  unfold drawing?
  cases loaded : r.load world with
  | error error =>
    rw [run_of_load_error reads loaded]
    exact .unloaded error
  | ok both =>
    obtain ⟨source, input⟩ := both
    -- Both texts are there, so only the grammar and then the input can be what is reported.
    have reading := lexerAndInput_eq r draw world
    rw [loaded] at reading
    dsimp only at reading ⊢
    unfold compile at reading
    cases compiled : Dialect.compile {} source.text with
    | error error =>
      rw [compiled] at reading
      rw [run_of_error reads reading]
      dsimp only
      cases pointed : error.diagnostic? with
      | none => exact .uncompiled error pointed
      | some diagnostic => exact .drawing ⟨.grammar, diagnostic, source.text, source.origin⟩
    | ok lexer =>
      rw [compiled] at reading
      have reading : r.lexerAndInput draw world = .ok (lexer.withLimits r.limits, input) := reading
      dsimp only
      unfold run
      cases command : r.command with
      | check => rw [command] at reads; cases reads
      | dump => rw [command] at reads; cases reads
      | tokenize =>
        rw [runTokenize, reading]
        dsimp only [bind, Except.bind]
        cases (lexer.withLimits r.limits).tokenize input with
        | ok tree => exact .nothing
        | error error => cases error <;> exact .drawing ⟨.input, _, input, r.inputPath.map originName⟩
      | trace =>
        rw [runTrace, reading]
        dsimp only [bind, Except.bind]
        have same := fun style => Lexer.tokenizeTracing_eq (lexer.withLimits r.limits) input
          (Match.Transcript.record style) {}
        rw [same]
        cases (lexer.withLimits r.limits).tokenize input with
        | ok tree => exact .nothing
        | error error =>
          cases error with
          | stopped fault => exact .stopped fault
          | noMatch position found => exact .drawing ⟨.input, _, input, r.inputPath.map originName⟩
          | incomplete consumed position found => exact .drawing ⟨.input, _, input, r.inputPath.map originName⟩

/-- A drawing shows a text of the request. That of the grammar names the place where the grammar was read, and that of
the input the path that is given for the input, read or not. -/
theorem given_of_drawing {d : Drawing} (drawn : d ∈ r.drawing? world) :
    r.Given world d.part (r.readAt? d.part) d.text ∧
      ((d.part = .grammar ∧ d.origin = (r.readAt? .grammar).map originName) ∨
        d.part = .input ∧ d.origin = r.inputPath.map originName) := by
  unfold drawing? at drawn
  split at drawn
  · cases drawn
  · next source input loaded =>
    obtain ⟨⟨grammar, named⟩, given⟩ := given_of_load loaded
    split at drawn
    · next error _ =>
      obtain ⟨diagnostic, _, rfl⟩ := Option.map_eq_some_iff.mp drawn
      exact ⟨grammar, .inl ⟨rfl, named⟩⟩
    · split at drawn
      · cases drawn
      · cases drawn
      · cases drawn
        exact ⟨given, .inr ⟨rfl, rfl⟩⟩

/-! ## Main results -/

/-- Behind an inline grammar a path of the grammar is left over only where two paths are given. -/
theorem grammarPath_eq_standardInput_iff {command : Command} (reads : command.readsInput = true) {s : Settings}
    (given : s.grammar.isSome = true) (input : (ofSettings command s).inputPath = some "-") :
    (ofSettings command s).grammarPath = some "-" ↔ s.paths.take 2 = ["-", "-"] := by
  have paths : ((ofSettings command s).grammarPath, (ofSettings command s).inputPath) =
      shiftPaths true s.paths[0]? s.paths[1]? := by rw [ofSettings, if_pos reads, given]
  match listed : s.paths with
  | [] =>
    rw [listed] at paths
    cases (Prod.mk.inj paths).2.symm.trans input
  | [only] =>
    rw [listed] at paths
    rw [(Prod.mk.inj paths).1]
    exact iff_of_false nofun nofun
  | first :: second :: _ =>
    rw [listed] at paths
    obtain ⟨own, other⟩ := Prod.mk.inj paths
    cases other.symm.trans input
    rw [own]
    simp

/-- **The standard input is used once.** A command with two texts never has both from there, and a run that cannot load
them says why and nothing else. It is refused for using the standard input twice where both texts are to be read there,
when the grammar was; and also where two paths lead there behind a grammar that is given inline. -/
theorem standardInput_used_once (command : Command) (reads : command.readsInput = true) (s : Settings)
    (draw : Diagnostic.Renderer) (world : Surroundings) :
    let r := ofSettings command s
    (r.load world = .error .standardInputTwice ↔
      r.OnStandardInput .input ∧ (r.OnStandardInput .grammar ∧ (∃ text, world.standardInput = .ok text) ∨
        s.grammar.isSome = true ∧ s.paths.take 2 = ["-", "-"])) ∧
    (∀ loaded, r.load world = .ok loaded → ¬ (r.OnStandardInput .grammar ∧ r.OnStandardInput .input)) ∧
    ∀ error, r.load world = .error error → r.run draw world = loadComplaint error := by
  intro r
  refine ⟨?_, ?_, fun error failed => run_of_load_error reads failed⟩
  · rw [load_eq_standardInputTwice_iff]
    refine and_congr_right fun input => ?_
    rw [OnStandardInput, readAt?_eq_some_iff]
    -- Without an inline grammar both sides speak of the same; with one, only a needless pair of dashes is left.
    cases text : s.grammar with
    | none =>
      have absent : r.inline? .grammar = none := text
      rw [and_iff_right absent]
      constructor
      · exact fun ⟨leads, found⟩ => .inl ⟨leads, found absent⟩
      · rintro (⟨leads, found⟩ | ⟨given, _⟩)
        · exact ⟨leads, fun _ => found⟩
        · cases given
    | some text' =>
      have given : r.grammarText = some text' := text
      have both : r.grammarPath = some "-" ↔ s.paths.take 2 = ["-", "-"] :=
        grammarPath_eq_standardInput_iff reads (Option.isSome_of_mem text) (readAt?_eq_some_iff.mp input).2
      rw [both]
      constructor
      · exact fun ⟨leads, _⟩ => .inr ⟨rfl, leads⟩
      · rintro (⟨⟨absent, _⟩, _⟩ | ⟨_, leads⟩)
        · cases given.symm.trans absent
        · exact ⟨leads, fun absent => by cases given.symm.trans absent⟩
  · rintro ⟨source, text⟩ loaded ⟨grammar, input⟩
    have twice := (@loadInput_eq_standardInputTwice_iff r world).mpr ⟨input, (readAt?_eq_some_iff.mp grammar).2⟩
    cases twice.symm.trans (load_eq_ok_iff.mp loaded).2

/-- A world with a text on the standard input, and one file. -/
def withFile (input path text : String) : Surroundings where
  standardInput := .ok input
  fileAt asked := if asked = path then .ok text else .error .notFound

/-- Two dashes are refused, and the run says so. -/
theorem two_dashes_refused :
    let r := ofSettings .trace { paths := ["-", "-"] }
    r.OnStandardInput .grammar ∧ r.OnStandardInput .input ∧
      r.run Diagnostic.Report.draw (withFile "root::=\"a\"" "in" "a") =
        { exitCode := 1, errors := "error: grammar and input cannot both be read from stdin\n" } := by
  obtain ⟨refused, _, complains⟩ := standardInput_used_once .trace rfl { paths := ["-", "-"] }
    Diagnostic.Report.draw (withFile "root::=\"a\"" "in" "a")
  have twice := refused.mpr ⟨rfl, .inl ⟨rfl, _, rfl⟩⟩
  exact ⟨rfl, rfl, complains _ twice⟩

/-- Behind an inline grammar two dashes are refused as well, whatever the surroundings, although the grammar is not read
from the standard input. -/
theorem dash_refused_beside_inline_grammar :
    let r := ofSettings .tokenize { grammar := some "root::=\"a\"", paths := ["-", "-"] }
    ¬ r.OnStandardInput .grammar ∧ r.OnStandardInput .input ∧
      ∀ world, r.load world = .error .standardInputTwice := by
  intro r
  refine ⟨nofun, rfl, fun world => ?_⟩
  exact load_eq_standardInputTwice_iff.mpr ⟨rfl, rfl, nofun⟩

/-- A drawing names the place that its text was read at, and none for a text that was given inline, unless it is the
input that was given inline and beside a path. -/
theorem origin_eq_iff {d : Drawing} (drawn : d ∈ r.drawing? world) :
    d.origin = (r.readAt? d.part).map originName ↔
      ¬ (d.part = .input ∧ r.inputText.isSome = true ∧ r.inputPath.isSome = true) := by
  obtain ⟨_, ⟨part, named⟩ | ⟨part, named⟩⟩ := given_of_drawing drawn
  · refine iff_of_true (part ▸ named) ?_
    rintro ⟨other, _⟩
    cases part.symm.trans other
  · rw [named, part]
    cases text : r.inputText with
    | none =>
      have place : r.readAt? .input = r.inputPath := readAt?_of_not_inline text
      rw [place]
      exact iff_of_true rfl nofun
    | some text' =>
      have nowhere : r.readAt? .input = none := readAt?_of_inline text
      rw [nowhere]
      cases r.inputPath with
      | none => exact iff_of_true rfl nofun
      | some path => exact iff_of_false nofun fun other => other ⟨rfl, rfl, rfl⟩

/-- **Drawings name the place that their text was read at**, and none for a text that was given inline, unless it is the
input that was given inline and beside a path. So it is with every renderer that shows the names of sources: elsewhere
what the run tells is what it would tell under the name of that place. -/
theorem drawings_name_their_place {draw : Diagnostic.Renderer} (shows : draw.ShowsOrigins) (command : Command)
    (reads : command.readsInput = true) (s : Settings) (world : Surroundings) :
    let r := ofSettings command s
    Tells draw (r.colored world) (r.drawing? world) (r.run draw world).errors ∧
      ∀ d ∈ r.drawing? world, r.Given world d.part (r.readAt? d.part) d.text ∧
        ((r.run draw world).errors =
            draw (d.diagnostic.report d.text ((r.readAt? d.part).map originName)) (r.colored world) ++ "\n" ↔
          ¬ (d.part = .input ∧ r.inputText.isSome = true ∧ r.inputPath.isSome = true)) := by
  intro r
  have tells : Tells draw (r.colored world) (r.drawing? world) (r.run draw world).errors := run_tells reads
  refine ⟨tells, fun d drawn => ⟨(given_of_drawing drawn).1, ?_⟩⟩
  rw [Option.mem_def.mp drawn] at tells
  rw [← origin_eq_iff drawn, tells.errors_eq, Drawing.shown]
  constructor
  · intro same
    rw [← String.toList_inj, String.toList_append, String.toList_append, List.append_left_inj,
      String.toList_inj] at same
    exact shows (d.diagnostic.report d.text none) _ _ _ same
  · intro same
    rw [same]

/-- An input that is read from a file is drawn under the name of the file. -/
theorem file_named :
    let r := ofSettings .tokenize { grammar := some "root::=\"a\"", paths := ["in"] }
    let d : Drawing := ⟨.input, .unexpected "input does not match the grammar" 0 "\"b\"", "b", some "in"⟩
    r.drawing? (withFile "" "in" "b") = some d ∧ r.Given (withFile "" "in" "b") .input (some "in") "b" ∧
      (r.run Diagnostic.Report.draw (withFile "" "in" "b")).errors =
        d.diagnostic.render "b" (some "in") false ++ "\n" := by
  intro r d
  obtain ⟨_, names⟩ := drawings_name_their_place Diagnostic.Report.draw_showsOrigins .tokenize rfl
    { grammar := some "root::=\"a\"", paths := ["in"] } (withFile "" "in" "b")
  have drawn : r.drawing? (withFile "" "in" "b") = some d := by decide +kernel
  obtain ⟨given, named⟩ := names d drawn
  exact ⟨drawn, given, named.mpr nofun⟩

/-- An input that is given inline is drawn under the name of a file that was not read, and is not there. -/
theorem inline_input_named :
    let r := ofSettings .tokenize { grammar := some "root::=\"a\"", source := some "b", paths := ["in"] }
    (∀ place, r.Given (withFile "" "other" "") .input place "b" → place = none) ∧
      ∃ d, r.drawing? (withFile "" "other" "") = some d ∧ d.part = .input ∧ d.text = "b" ∧ d.origin = some "in" ∧
        ∀ draw, (r.run draw (withFile "" "other" "")).errors =
          draw (d.diagnostic.report "b" (some "in")) false ++ "\n" := by
  intro r
  let d : Drawing := ⟨.input, .unexpected "input does not match the grammar" 0 "\"b\"", "b", some "in"⟩
  have drawn : r.drawing? (withFile "" "other" "") = some d := by decide +kernel
  refine ⟨fun place given => given.place, d, drawn, rfl, rfl, rfl, fun draw => ?_⟩
  have tells : Tells draw (r.colored _) (r.drawing? _) (r.run draw (withFile "" "other" "")).errors := run_tells rfl
  rw [drawn] at tells
  exact tells.errors_eq

end Request

end BnfTokenizer.CommandLine
