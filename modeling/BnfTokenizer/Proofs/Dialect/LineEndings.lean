import BnfTokenizer.Grammar.Dump
import BnfTokenizer.Proofs.Dialect.Lowering
import BnfTokenizer.Proofs.Dialect.Newlines
import BnfTokenizer.Proofs.Text.Lines

/-!
# Line endings of a grammar text

A grammar file is read line by line: its lines are put together again by newlines, and there is none behind the last
one. So a text and the file that holds it differ in a newline at the end, and nowhere else if the text has no carriage
returns.

That newline does not change what is read. What carries meaning does not notice it (`steady_rule`), so only the gaps
between rules do, and of these only one that goes up to the end of the text, which then takes the newline as well. Going
through the text rule by rule, the same views are left below each rule (`TakesAll.grammar_before`), and reading looks at
nothing else (`SentenceView.same`). Where the text is no grammar text the newline may move the place that is reported.
-/

namespace BnfTokenizer

namespace Match.DerivedTree

mutual

/-- What culling leaves of a tree depends on the text that the tree covers, and on none behind it. -/
theorem culled_append (filters : List ParseTree.Filter) {source : List Char} (more : List Char) :
    ∀ tree : DerivedTree, tree.Covers source → tree.culled filters (source ++ more) = tree.culled filters source
  | .node _ name span children, ⟨⟨starts, stops, ordered, _⟩, below⟩ => by
    have same : Text.slice (source ++ more) span.start span.stop = Text.slice source span.start span.stop := by
      obtain ⟨before, between, after, rfl, first, last⟩ := Text.parted_of_isBoundary starts stops ordered
      rw [← last, ← first, List.append_assoc, List.append_assoc, Text.slice_byteLength_append,
        Text.slice_byteLength_append]
    rw [culled, culled, same, listCulled_append filters more children below]

theorem listCulled_append (filters : List ParseTree.Filter) {source : List Char} (more : List Char) :
    ∀ trees : List DerivedTree, ListCovers source trees →
      listCulled filters (source ++ more) trees = listCulled filters source trees
  | [], _ => rfl
  | tree :: trees, ⟨own, others⟩ => by
    rw [listCulled, listCulled, culled_append filters more tree own, listCulled_append filters more trees others]

end

end Match.DerivedTree

namespace Dialect

open Match (Cursor Derives DerivesAll DerivedTree Steady SteadyAll)
open ParseTree (View)

variable {source text rest : List Char} {s : Symbol} {parts : List Symbol} {views : List View}

/-! ## Rows and rounds -/

theorem TakesAll.append {others : List Symbol} {first second : List Char} {more : List View}
    (all : TakesAll source parts first (second ++ rest) views) (tail : TakesAll source others second rest more) :
    TakesAll source (parts ++ others) (first ++ second) rest (views ++ more) := by
  generalize behind : second ++ rest = next at all
  induction all with
  | nil => exact tail
  | cons head _ ih =>
    subst behind
    rw [List.append_assoc, List.append_assoc]
    exact .cons (by rwa [List.append_assoc]) (ih rfl)

theorem TakesMore.fails (more : TakesMore source s text rest views) : Fails source s rest := by
  induction more with
  | stop fails => exact fails
  | more _ _ _ ih => exact ih

theorem in_place (within : rest <:+ source) : (place source rest).In source := by
  obtain ⟨before, rfl⟩ := within
  refine ⟨before, rfl, ?_⟩
  rw [place, Text.byteLength_append]
  exact Nat.add_sub_cancel ..

theorem place_before (source rest : List Char) (last : Char) :
    (place source rest).before last = place (source ++ [last]) (rest ++ [last]) := by
  simp only [place, Cursor.before, Text.byteLength_append, Nat.add_sub_add_right]

theorem within_before (within : rest <:+ source) (last : Char) : rest ++ [last] <:+ source ++ [last] := by
  obtain ⟨before, rfl⟩ := within
  exact ⟨before, (List.append_assoc ..).symm⟩

/-- What steady symbols take they take with a newline behind the text. -/
theorem TakesAll.before (all : TakesAll source parts text rest views) (within : text ++ rest <:+ source)
    (steady : ∀ length, SteadyAll definitions '\n' length (parts.map Symbol.id)) :
    TakesAll (source ++ ['\n']) parts text (rest ++ ['\n']) views := by
  obtain ⟨trees, derives, rfl⟩ := all.derives
  have same := steady _ (Nat.lt_succ_self _) derives
  rw [place_before, Match.resultBefore, Option.map_some, place_before] at same
  obtain ⟨text', rest', split, stops, taken⟩ := takesAll_of_derives (within_before within '\n') same
  cases place_inj stops
  rw [List.append_assoc] at split
  cases List.append_cancel_right split
  rwa [DerivedTree.listCulled_append cullFilters _ trees (derives.covers (in_place within) _ rfl).1] at taken

/-- What is left to read when there is a newline behind the text: that newline too, unless the text was read up to its
end, since then the gap that it was read up to its end with took the newline. -/
def unread (rest : List Char) : List Char :=
  if rest = [] then [] else rest ++ ['\n']

theorem ok_of_map {α β : Type} {f : α → β} {result other : Except CompileError α} {b : β}
    (kept : ∀ a, result = .ok a → other = .ok a) (mapped : result.map f = .ok b) : other.map f = .ok b := by
  cases result with
  | error error => cases mapped
  | ok a => rwa [kept a rfl]

/-- Where a shape is read the text that it stands in does not matter. -/
theorem readToken_of_ok {source : String} {v : View} {e : Expression} (other : String)
    (read : readToken source v = .ok e) : readToken other v = .ok e := by
  have atom : ∀ {w e}, readAtom source w = .ok e → readAtom other w = .ok e := by
    intro w e read
    unfold readAtom at read ⊢
    split at read
    · exact read
    · exact read
    · split at read
      · exact read
      · cases read
    · exact read
    · exact read
  unfold readToken at read ⊢
  split at read
  · exact ok_of_map (fun _ => atom) read
  · cases read

mutual

theorem Part.read_of_ok {source : String} (other : String) : ∀ {part : Part View} {read : Part Expression},
    part.read source = .ok read → part.read other = .ok read
  | .bar, _, done => done
  | .token _, _, done => ok_of_map (fun _ => readToken_of_ok other) done
  | .group _ _, _, done => ok_of_map (fun _ => Part.listRead_of_ok other) done

theorem Part.listRead_of_ok {source : String} (other : String) : ∀ {row : List (Part View)}
    {read : List (Part Expression)},
    Part.listRead source row = .ok read → Part.listRead other row = .ok read
  | [], _, done => done
  | part :: row, read, done => by
    unfold Part.listRead at done ⊢
    split at done
    · cases done
    · next own found =>
      rw [Part.read_of_ok other found]
      exact ok_of_map (fun _ => Part.listRead_of_ok other) done

end

/-- Two readings over the same ranges come to the same, if they do where the first comes to a result. -/
theorem Settles.same {α : Type} {own : List (Char × Char)} {holds holds' : α → Prop}
    {result other : Except CompileError α} (first : Settles own holds result) (second : Settles own holds' other)
    (agree : ∀ a, result = .ok a → other = .ok a) : other = result := by
  unfold Settles at first second
  split at first
  · next found =>
    rw [found] at second
    exact (show other = _ from second).trans first.symm
  · obtain ⟨a, rfl, _⟩ := first
    exact agree a rfl

/-- Two sentences with the same views below them state the same. -/
theorem SentenceView.same {v w : View} (sentence : SentenceView v) (sentence' : SentenceView w)
    (below : w.children = v.children) (source other : String) : readStated other w = readStated source v := by
  have first := (sentence.readSentence_eq source ▸ sentence.reads source).of_map
  have second := (sentence'.readSentence_eq other ▸ sentence'.reads other).of_map
  have named := sentence.name
  have named' := sentence'.name
  obtain ⟨name, value, span, children⟩ := v
  obtain ⟨name', value', span', children'⟩ := w
  obtain rfl : name = some "sentence" := named
  obtain rfl : name' = some "sentence" := named'
  obtain rfl : children' = children := below
  rw [ranges_node (by decide)] at first second
  refine first.same second fun stated read => ?_
  have found : ∀ name : String, (View.node (some "sentence") value' span' children').childByName name =
      (View.node (some "sentence") value span children').childByName name := fun _ => rfl
  unfold readStated at read ⊢
  rw [found, found]
  split at read
  · exact ok_of_map (fun _ => Part.listRead_of_ok other) read
  · cases read

/-- The same result, or else both texts are refused as no grammar texts, perhaps at different places. -/
inductive SameButPlace : Except CompileError Lexer → Except CompileError Lexer → Prop
  | same (result : Except CompileError Lexer) : SameButPlace result result
  | elsewhere (line line' column column' position position' : Nat) (found found' : String) :
      SameButPlace (.error (.unexpected line column position found))
        (.error (.unexpected line' column' position' found'))

theorem SameButPlace.symm {result other : Except CompileError Lexer} (same : SameButPlace result other) :
    SameButPlace other result := by
  cases same with
  | same => exact .same _
  | elsewhere => exact .elsewhere ..

end Dialect

end BnfTokenizer
