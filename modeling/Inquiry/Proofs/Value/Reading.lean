import Inquiry.Proofs.Value.Canonical
import Inquiry.Value.Json
set_option autoImplicit false

namespace Inquiry

theorem exists_of_mem_mapM {α β : Type} {f : α → Option β} {as : List α} {bs : List β}
    (h : as.mapM f = some bs) {b : β} (hb : b ∈ bs) : ∃ a ∈ as, f a = some b := by
  induction as generalizing bs with
  | nil => cases h; contradiction
  | cons a as ih =>
    rw [List.mapM_cons] at h
    obtain ⟨c, hc, h⟩ := Option.bind_eq_some_iff.mp h
    obtain ⟨cs, hcs, h⟩ := Option.bind_eq_some_iff.mp h
    cases h
    rcases List.mem_cons.mp hb with rfl | hb
    · exact ⟨a, List.mem_cons_self, hc⟩
    · obtain ⟨a', ha, hf⟩ := ih hcs hb
      exact ⟨a', List.mem_cons_of_mem _ ha, hf⟩

namespace Value

def fieldsOfJson? (ahead : Bool) : Nat → List (String × Json) → Option Fields
  | 0, _ => none
  | depth + 1, members => do
    let members ← Json.plainMembers? members
    let fields ← members.mapM fun m =>
      (ofJsonWithin? depth ahead m.2).map fun value => (m.1, value)
    return Fields.ofList fields

theorem ofJsonWithin?_succ (depth : Nat) (ahead : Bool) (j : Json) :
    ofJsonWithin? (depth + 1) ahead j =
      match j with
      | .array [type, content] =>
        match Category.ofItem? ahead type with
        | some category => contentOfJson? (fieldsOfJson? ahead depth) category content
        | none => none
      | .object members =>
        match (Json.plainMembers? members).map
            (List.filter fun m => m.1 == "type" || m.1 == "value") with
        | some [("type", type)] => (Category.ofJson? ahead depth type).bind withoutContent?
        | some [("type", type), ("value", content)] =>
          match Category.ofJson? ahead depth type with
          | some category => contentOfJson? (fieldsOfJson? ahead depth) category content
          | none => none
        | some [("value", content), ("type", type)] =>
          if content.holds depth then
            match Category.ofJson? ahead depth type with
            | some category => contentOfJson? (fieldsOfJson? true depth) category content
            | none => none
          else none
        | _ => none
      | _ => none := by
  cases depth <;> rfl

theorem canonical_contentOfJson? {read : List (String × Json) → Option Fields}
    (hread : ∀ members fields, read members = some fields → (Value.record fields).Canonical)
    {category : Category} {j : Json} {v : Value} (h : contentOfJson? read category j = some v) :
    v.Canonical := by
  unfold contentOfJson? at h
  split at h
  case h_3 =>
    obtain ⟨fields, hf, rfl⟩ := Option.map_eq_some_iff.mp h
    exact hread _ _ hf
  case h_1 | h_2 | h_6 =>
    obtain ⟨_, _, rfl⟩ := Option.map_eq_some_iff.mp h
    trivial
  all_goals
    cases h
    try trivial

theorem canonical_withoutContent? {category : Category} {v : Value}
    (h : withoutContent? category = some v) : v.Canonical := by
  cases category with
  | function | undefined =>
    cases h
    trivial
  | _ => contradiction

theorem canonical_fieldsOfJson? {depth : Nat}
    (hread : ∀ ahead j v, ofJsonWithin? depth ahead j = some v → v.Canonical) (ahead : Bool)
    (members : List (String × Json)) (fields : Fields)
    (h : fieldsOfJson? ahead (depth + 1) members = some fields) :
    (Value.record fields).Canonical := by
  obtain ⟨named, _, h⟩ := Option.bind_eq_some_iff.mp h
  obtain ⟨found, hfound, h⟩ := Option.bind_eq_some_iff.mp h
  cases h
  refine canonical_ofList fun field hf => ?_
  obtain ⟨m, _, hm⟩ := exists_of_mem_mapM hfound hf
  obtain ⟨value, hvalue, rfl⟩ := Option.map_eq_some_iff.mp hm
  exact hread ahead m.2 value hvalue

theorem canonical_ofJsonWithin?_succ {depth : Nat} (hread : ∀ ahead members fields,
      fieldsOfJson? ahead depth members = some fields → (Value.record fields).Canonical)
    {ahead : Bool} {j : Json} {v : Value} (h : ofJsonWithin? (depth + 1) ahead j = some v) :
    v.Canonical := by
  rw [ofJsonWithin?_succ] at h
  split at h
  · split at h
    · exact canonical_contentOfJson? (hread ahead) h
    · contradiction
  · split at h
    · obtain ⟨category, _, h⟩ := Option.bind_eq_some_iff.mp h
      exact canonical_withoutContent? h
    · split at h
      · exact canonical_contentOfJson? (hread ahead) h
      · contradiction
    · split at h
      · split at h
        · exact canonical_contentOfJson? (hread true) h
        · contradiction
      · contradiction
    · contradiction
  · contradiction

theorem canonical_ofJsonWithin? {depth : Nat} {ahead : Bool} {j : Json} {v : Value}
    (h : ofJsonWithin? depth ahead j = some v) : v.Canonical := by
  induction depth using Nat.strongRecOn generalizing ahead j v with
  | ind depth ih =>
    match depth with
    | 0 => contradiction
    | 1 => exact canonical_ofJsonWithin?_succ (fun _ _ _ hf => by contradiction) h
    | depth + 2 =>
      exact canonical_ofJsonWithin?_succ
        (canonical_fieldsOfJson? fun ahead j v hv => ih depth (by omega) hv) h

/-- Whatever text a value is read from, it is canonical. -/
theorem canonical_ofText? {text : String} {v : Value} (h : ofText? text = some v) :
    v.Canonical := by
  obtain ⟨j, _, hj⟩ := Option.bind_eq_some_iff.mp h
  exact canonical_ofJsonWithin? hj

end Value

end Inquiry
