import BnfTokenizer.Proofs.Json.Decoding
import BnfTokenizer.Proofs.ParseTree.Replacement
import BnfTokenizer.Proofs.ParseTree.Traversals

/-!
# JSON loses nothing

A subtree is written as JSON without its table, and what was written can be read again (`View.ofJson?`). A reader looks
the fields of a record up by their keys. A name that is not there is no name, and children that are not there are none;
neither can be taken for an empty name or for a text that looks like a field, as these come from a text between quotes
and not from a key.

> Both layouts are read as the same value, and the value gives back the subtree (`json_lossless`).

So a text tells which subtree was written, and neither its tree nor its layout matters.
-/

namespace BnfTokenizer.ParseTree

namespace View

def textIn? (key : String) (fields : List (String × Json)) : Option String :=
  match fields.lookup key with
  | some (.text value) => some value
  | _ => none

def countIn? (key : String) (fields : List (String × Json)) : Option Nat :=
  match fields.lookup key with
  | some (.count value) => some value
  | _ => none

/-- The name in a record, which may have none. -/
def nameIn? (fields : List (String × Json)) : Option (Option String) :=
  match fields.lookup "name" with
  | none => some none
  | some (.text name) => some (some name)
  | some _ => none

mutual

/-- The subtree that was written as a record. -/
def ofJson? : Json → Option View
  | .record fields =>
    match nameIn? fields, textIn? "value" fields, countIn? "start" fields, countIn? "end" fields,
      childrenIn? fields with
    | some name, some value, some start, some stop, some children => some (.node name value ⟨start, stop⟩ children)
    | _, _, _, _, _ => none
  | _ => none

/-- The children in a record, which may have none. -/
def childrenIn? : List (String × Json) → Option (List View)
  | [] => some []
  | (key, .list items) :: fields => if key = "children" then listOfJson? items else childrenIn? fields
  | (key, _) :: fields => if key = "children" then none else childrenIn? fields

def listOfJson? : List Json → Option (List View)
  | [] => some []
  | item :: items =>
    match ofJson? item, listOfJson? items with
    | some view, some views => some (view :: views)
    | _, _ => none

end

/-- The children are looked up behind fields of other keys. -/
theorem childrenIn?_append {fields : List (String × Json)} (more : List (String × Json))
    (others : ∀ field ∈ fields, field.1 ≠ "children") : childrenIn? (fields ++ more) = childrenIn? more := by
  induction fields with
  | nil => rfl
  | cons field fields ih =>
    obtain ⟨other, rest⟩ := List.forall_mem_cons.mp others
    obtain ⟨key, value⟩ := field
    cases value <;> exact (if_neg other).trans (ih rest)

mutual

/-- What was written for a subtree gives it back. -/
theorem ofJson?_toJson : ∀ view : View, ofJson? view.toJson = some view
  | .node name value span [] => by
    cases name <;> rfl
  | .node name value span (child :: children) => by
    have below := listOfJson?_listToJson (child :: children)
    have list : childrenIn? [("children", .list (listToJson (child :: children)))] = some (child :: children) := by
      rw [childrenIn?, if_pos rfl, below]
    unfold toJson
    rw [ofJson?, childrenIn?_append, list]
    · cases name <;> rfl
    · cases name <;> simp

theorem listOfJson?_listToJson : ∀ views : List View, listOfJson? (listToJson views) = some views
  | [] => rfl
  | view :: views => by rw [listToJson, listOfJson?, ofJson?_toJson view, listOfJson?_listToJson views]

end

end View

variable {t : ParseTree}

theorem Plant.listSeen_eq_map (t : ParseTree) (qs : List Plant) : listSeen t qs = qs.map (seen t) := by
  induction qs with
  | nil => rfl
  | cons q qs ih => rw [listSeen, ih, List.map_cons]

namespace Forest

variable (forest : t.Forest)

include forest

theorem view_eq_seen (r : Ref) : t.view r = (t.plantAt r).seen t := by
  have shown := viewFrom_hangs t (t.plantAt r) t.size (t.parent r) (forest.hangs_plantAt r) (forest.length_preorder_le r)
  rwa [place_plantAt] at shown

/-- What is seen of a node is what the table has of it, and what is seen of its children. -/
theorem view_eq (r : Ref) : t.view r = .node (t.name r) (t.value r) (t.span r) ((t.children r).map t.view) := by
  have below : (t.children r).map (Plant.seen t ∘ t.plantAt) = (t.children r).map t.view :=
    List.map_congr_left fun c _ => (forest.view_eq_seen c).symm
  rw [forest.view_eq_seen, forest.plantAt_eq, Plant.seen, Plant.listSeen_eq_map, List.map_map, below]

end Forest

/-- Both layouts spell the same value. -/
theorem spelled_json (t : ParseTree) (r : Ref) (pretty : Bool) :
    Json.Spelled (t.view r).toJson.tokens (t.json r pretty).toList := by
  cases pretty with
  | false => exact Json.spelled_compact _
  | true => exact Json.spelled_pretty _

theorem decode_json (t : ParseTree) (r : Ref) (pretty : Bool) :
    Json.decode (t.json r pretty).toList = some (t.view r).toJson :=
  Json.decode_of_spelled (spelled_json t r pretty)

/-- What two trees show is the same where their texts are, in whatever layout each of them is written. -/
theorem view_eq_of_json_eq {u : ParseTree} {r s : Ref} {one other : Bool} (same : t.json r one = u.json s other) :
    t.view r = u.view s := by
  have values : (t.view r).toJson = (u.view s).toJson := by
    rw [← Option.some_inj, ← decode_json t r one, same, decode_json]
  rw [← Option.some_inj, ← View.ofJson?_toJson, values, View.ofJson?_toJson]

/-- **JSON loses nothing.** A value is spelled by both layouts of a subtree and is read from both, and it gives back what
is seen of the subtree: of each node its name or that it has none, its value, its span and its children in order. Texts
of two subtrees that show different things differ, in whatever layout. -/
theorem json_lossless (forest : t.Forest) (r : Ref) :
    (∃ value : Json,
      (∀ pretty, Json.Spelled value.tokens (t.json r pretty).toList ∧
        Json.decode (t.json r pretty).toList = some value) ∧
      View.ofJson? value = some (t.view r)) ∧
    (∀ c, t.view c = .node (t.name c) (t.value c) (t.span c) ((t.children c).map t.view)) ∧
    ∀ (u : ParseTree) (s : Ref) (one other : Bool), t.json r one = u.json s other → t.view r = u.view s :=
  ⟨⟨(t.view r).toJson, fun pretty => ⟨spelled_json t r pretty, decode_json t r pretty⟩, View.ofJson?_toJson _⟩,
    forest.view_eq, fun _ _ _ _ => view_eq_of_json_eq⟩

/-- A text that looks like the end of a value and another field. The node with it has a name, and the one above it has
none. -/
theorem letters_lossless :
    let t := lettersTree.setValue 1 "\",\n\"name\":\"b"
    t.Forest ∧
      (∃ value : Json,
        (∀ pretty, Json.Spelled value.tokens (t.json 3 pretty).toList ∧
          Json.decode (t.json 3 pretty).toList = some value) ∧
        View.ofJson? value = some (t.view 3)) ∧
      t.view 3 = .node none "ab" ⟨1, 3⟩ [.node (some "inner") "\",\n\"name\":\"b" ⟨1, 2⟩ [],
        .node (some "outer") "b" ⟨2, 3⟩ []] ∧
      t.json 3 false = "\x7b\"value\":\"ab\",\"start\":1,\"end\":3,\"children\":[" ++
        "\x7b\"name\":\"inner\",\"value\":\"\\\",\\n\\\"name\\\":\\\"b\",\"start\":1,\"end\":2\x7d," ++
        "\x7b\"name\":\"outer\",\"value\":\"b\",\"start\":2,\"end\":3\x7d]\x7d" := by
  have forest : (lettersTree.setValue 1 "\",\n\"name\":\"b").Forest :=
    forest_lettersTree.modify_links 1 _ fun _ => ⟨rfl, rfl⟩
  exact ⟨forest, (json_lossless forest 3).1, rfl, by decide +kernel⟩

end BnfTokenizer.ParseTree
