import Inquiry.Proofs.Json.Reading
import Inquiry.Proofs.Value.Reading
set_option autoImplicit false

/-!
Values written as JSON and read again. Each record takes two containers, one for the value and one
for its fields, so what is nested too deeply is written but not read.
-/

namespace Inquiry

mutual

def Value.depth : Value → Nat
  | .record fields => fields.depth + 1
  | _ => 0

def Fields.depth : Fields → Nat
  | .nil => 0
  | .cons _ value rest => max value.depth rest.depth

end

mutual

theorem Value.plain_json : (v : Value) → v.json.Plain
  | .number n => Json.plain_pair (.int n.toInt)
  | .boolean b => Json.plain_pair (.bool b)
  | .record fields => Json.plain_pair <|
    .object (fun m hm => (fields.plain_members m hm).1) fun m hm => (fields.plain_members m hm).2
  | .function (some name) => Json.plain_pair (.text name)
  | .function none => Json.plain_pair .null
  | .undefined => Json.plain_ofMembers (by simp [Json.Plain.text])

theorem Fields.plain_members : (fields : Fields) →
    ∀ m ∈ fields.members, (∃ name, m.1 = Json.escape name) ∧ m.2.Plain
  | .nil => by simp [Fields.members]
  | .cons name value rest =>
    List.forall_mem_cons.mpr ⟨⟨⟨name, rfl⟩, value.plain_json⟩, rest.plain_members⟩

end

theorem Value.parse?_compact (v : Value) : Json.parse? v.json.compact = some v.json :=
  v.plain_json.parse?_compact

theorem Category.ofJson?_name (ahead : Bool) (depth : Nat) (category : Category) :
    ofJson? ahead depth (.ofText category.name) = some category := by
  have hname : ofName? category.name = some category := by cases category <;> decide
  simp [Json.ofText, ofJson?, Json.unescape?_escape, hname]

namespace Value

theorem ofJsonWithin?_content (depth : Nat) (ahead : Bool) (category : Category) (content : Json) :
    ofJsonWithin? (depth + 1) ahead
      (.ofMembers [("type", .ofText category.name), ("value", content)]) =
      contentOfJson? (fieldsOfJson? ahead depth) category content := by
  have hmembers : Json.plainMembers? [(Json.escape "type", .ofText category.name),
      (Json.escape "value", content)] =
        some [("type", .ofText category.name), ("value", content)] := by
    simp [Json.plainMembers?, Json.unescape?_escape]
  have hrelevant : List.filter (fun m : String × Json => m.1 == "type" || m.1 == "value")
      [("type", .ofText category.name), ("value", content)] =
        [("type", .ofText category.name), ("value", content)] := rfl
  rw [ofJsonWithin?_succ]
  simp only [Json.ofMembers, List.map_cons, List.map_nil, hmembers, Option.map_some, hrelevant,
    Category.ofJson?_name]

theorem ofJsonWithin?_undefined (depth : Nat) (ahead : Bool) :
    ofJsonWithin? (depth + 1) ahead (.ofMembers [("type", .ofText Category.undefined.name)]) =
      some .undefined := by
  have hmembers : Json.plainMembers? [(Json.escape "type", .ofText Category.undefined.name)] =
      some [("type", .ofText Category.undefined.name)] := by
    simp [Json.plainMembers?, Json.unescape?_escape]
  have hrelevant : List.filter (fun m : String × Json => m.1 == "type" || m.1 == "value")
      [("type", .ofText Category.undefined.name)] =
        [("type", .ofText Category.undefined.name)] := rfl
  rw [ofJsonWithin?_succ]
  simp only [Json.ofMembers, List.map_cons, List.map_nil, hmembers, Option.map_some, hrelevant,
    Category.ofJson?_name]
  rfl

theorem plainMembers?_members : ∀ fields : Fields, Json.plainMembers? fields.members =
    some (fields.toList.map fun field => (field.1, field.2.json))
  | .nil => rfl
  | .cons name value rest => by
    have hrest := plainMembers?_members rest
    simp only [Json.plainMembers?] at hrest
    simp [Fields.members, Fields.toList, Json.plainMembers?, Json.unescape?_escape, hrest]

def readField? (ahead : Bool) (depth : Nat) (field : String × Value) : Option (String × Value) :=
  (ofJsonWithin? depth ahead field.2.json).map fun value => (field.1, value)

theorem fieldsOfJson?_members (ahead : Bool) (depth : Nat) (fields : Fields) :
    fieldsOfJson? ahead (depth + 1) fields.members =
      (fields.toList.mapM (readField? ahead depth)).map Fields.ofList := by
  simp only [fieldsOfJson?, plainMembers?_members, Option.bind_eq_bind, Option.bind_some,
    List.mapM_map]
  change (fields.toList.mapM (readField? ahead depth)).bind (fun found => some _) = _
  cases fields.toList.mapM (readField? ahead depth) <;> rfl

theorem ofJsonWithin?_record (ahead : Bool) (depth : Nat) (fields : Fields) :
    ofJsonWithin? (depth + 2) ahead (Value.record fields).json =
      (fields.toList.mapM (readField? ahead depth)).map fun found =>
        .record (Fields.ofList found) := by
  have hcontent := ofJsonWithin?_content (depth + 1) ahead .record (.object fields.members)
  refine hcontent.trans ?_
  rw [contentOfJson?, fieldsOfJson?_members, Option.map_map]
  rfl

mutual

/-- With enough containers left to open, a value is read as it was written. -/
theorem ofJsonWithin?_json (ahead : Bool) : (v : Value) → v.Canonical →
    ∀ depth, 2 * v.depth < depth → ofJsonWithin? depth ahead v.json = some v
  | .number n, _, depth + 1, _ => by
    refine (ofJsonWithin?_content depth ahead .number (.ofInt n.toInt)).trans ?_
    rw [contentOfJson?, Json.int64?_ofInt]
    rfl
  | .boolean b, _, depth + 1, _ => ofJsonWithin?_content depth ahead .boolean (.bool b)
  | .function (some name), _, depth + 1, _ => by
    refine (ofJsonWithin?_content depth ahead .function (.ofText name)).trans ?_
    simp only [Json.ofText, contentOfJson?, Json.text?, Json.unescape?_escape]
    rfl
  | .function none, _, depth + 1, _ => ofJsonWithin?_content depth ahead .function .null
  | .undefined, _, depth + 1, _ => ofJsonWithin?_undefined depth ahead
  | .record fields, ⟨hsorted, hfields⟩, depth + 2, hd => by
    have hread :=
      mapM_readField? ahead fields hfields depth (by simp only [Value.depth] at hd; omega)
    rw [ofJsonWithin?_record, hread, Option.map_some, Fields.ofList_toList hsorted]
  | .record _, _, 1, hd => by simp only [Value.depth] at hd; omega

theorem mapM_readField? (ahead : Bool) : (fields : Fields) → fields.Canonical →
    ∀ depth, 2 * fields.depth < depth →
      fields.toList.mapM (readField? ahead depth) = some fields.toList
  | .nil, _, _, _ => rfl
  | .cons name value rest, ⟨hvalue, hrest⟩, depth, hd => by
    simp only [Fields.depth] at hd
    have hfirst := ofJsonWithin?_json ahead value hvalue depth (by omega)
    have hmore := mapM_readField? ahead rest hrest depth (by omega)
    simp [Fields.toList, readField?, hfirst, hmore]

end

mutual

theorem ofJsonWithin?_json_eq_none (ahead : Bool) : (v : Value) →
    ∀ depth, depth < 2 * v.depth → ofJsonWithin? depth ahead v.json = none
  | .record fields, 0, _ => rfl
  | .record fields, 1, _ => ofJsonWithin?_content 0 ahead .record (.object fields.members)
  | .record fields, depth + 2, hd => by
    have hread := mapM_readField?_eq_none ahead fields depth
      (by simp only [Value.depth] at hd; omega)
    rw [ofJsonWithin?_record, hread, Option.map_none]
  | .number _, _, hd | .boolean _, _, hd | .function _, _, hd | .undefined, _, hd =>
    absurd hd (Nat.not_lt_zero _)

theorem mapM_readField?_eq_none (ahead : Bool) : (fields : Fields) →
    ∀ depth, depth < 2 * fields.depth → fields.toList.mapM (readField? ahead depth) = none
  | .nil, _, hd => absurd hd (Nat.not_lt_zero _)
  | .cons name value rest, depth, hd => by
    simp only [Fields.depth] at hd
    by_cases hv : depth < 2 * value.depth
    · have hfirst := ofJsonWithin?_json_eq_none ahead value depth hv
      simp [Fields.toList, readField?, hfirst]
    · have hmore := mapM_readField?_eq_none ahead rest depth (by omega)
      simp [Fields.toList, hmore]

end

/-- Two values that are written alike are the same, however deep they are. -/
theorem eq_of_compact_json {v w : Value} (hv : v.Canonical) (hw : w.Canonical)
    (h : w.json.compact = v.json.compact) : w = v := by
  have hjson : w.json = v.json := by
    have hparse := w.parse?_compact
    rw [h, v.parse?_compact] at hparse
    exact (Option.some.inj hparse).symm
  let depth := 2 * v.depth + 2 * w.depth + 1
  have hreadv := ofJsonWithin?_json false v hv depth (by omega)
  have hreadw := ofJsonWithin?_json false w hw depth (by omega)
  rw [hjson, hreadv] at hreadw
  exact (Option.some.inj hreadw).symm

/-- A value is read from its text as it was written, unless it holds more than 63 records inside
each other: then it is not read at all. No two values are written alike, however deep they are. -/
theorem round_trip {v : Value} (hv : v.Canonical) :
    ofText? v.json.compact = (if v.depth ≤ 63 then some v else none) ∧
      ∀ w : Value, w.Canonical → w.json.compact = v.json.compact → w = v := by
  refine ⟨?_, fun w hw h => eq_of_compact_json hv hw h⟩
  rw [ofText?, v.parse?_compact, Option.bind_some, ofJson?]
  split
  · exact ofJsonWithin?_json false v hv Json.maxDepth (by simp only [Json.maxDepth]; omega)
  · exact ofJsonWithin?_json_eq_none false v Json.maxDepth (by simp only [Json.maxDepth]; omega)

theorem round_trip_order :
    let order : Value := .record
      (.cons "best \"by\"" (.record (.cons "limit" (.number Int64.minValue) .nil))
        (.cons "charge" (.function (some "charge")) (.cons "discount" (.function none)
          (.cons "gift" (.boolean false) (.cons "rate" .undefined .nil)))))
    order.Canonical ∧ order.depth = 2 ∧ ofText? order.json.compact = some order ∧
      ∀ w : Value, w.Canonical → w.json.compact = order.json.compact → w = order := by
  intro order
  have hinner : (Value.record (.cons "limit" (.number Int64.minValue) .nil)).Canonical :=
    ⟨by decide, trivial, trivial⟩
  have hc : order.Canonical := ⟨by decide, hinner, trivial, trivial, trivial, trivial, trivial⟩
  exact ⟨hc, rfl, round_trip hc⟩

def nested : Nat → Value
  | 0 => .record .nil
  | n + 1 => .record (.cons "a" (nested n) .nil)

theorem canonical_nested (n : Nat) : (nested n).Canonical := by
  induction n with
  | zero => exact ⟨.nil, trivial⟩
  | succ n ih => exact ⟨List.pairwise_singleton _ _, ih, trivial⟩

theorem depth_nested (n : Nat) : (nested n).depth = n + 1 := by
  induction n with
  | zero => rfl
  | succ n ih => simp [nested, Value.depth, Fields.depth, ih]

/-- This many records inside each other are written, but not read. -/
theorem no_round_trip_nested :
    (nested 63).Canonical ∧ ofText? (nested 63).json.compact ≠ some (nested 63) := by
  have hread := ofJsonWithin?_json_eq_none false (nested 63) Json.maxDepth
    (by rw [depth_nested]; decide)
  refine ⟨canonical_nested 63, ?_⟩
  rw [ofText?, parse?_compact, Option.bind_some, ofJson?, hread]
  exact Option.some_ne_none _ |>.symm

end Value

end Inquiry
