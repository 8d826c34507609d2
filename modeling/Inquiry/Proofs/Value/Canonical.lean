import Inquiry.Heap.Reveal
set_option autoImplicit false

/-!
The order of fields. Putting fields in their places one by one leaves them sorted, each name once,
so there is only one way to hold a record; and all values that the host is shown are held like this.
-/

namespace Inquiry

mutual

/-- Whether all records in the value are sorted by field name and hold each name once. -/
def Value.Canonical : Value → Prop
  | .record fields => fields.toList.Pairwise (fun field later => field.1 < later.1) ∧
    fields.Canonical
  | _ => True

def Fields.Canonical : Fields → Prop
  | .nil => True
  | .cons _ value rest => value.Canonical ∧ rest.Canonical

end

namespace Fields

theorem toList_inj : ∀ {fields other : Fields}, fields.toList = other.toList → fields = other
  | .nil, .nil, _ => rfl
  | .cons _ _ rest, .cons _ _ rest', h => by
    simp only [toList, List.cons.injEq, Prod.mk.injEq] at h
    obtain ⟨⟨rfl, rfl⟩, hrest⟩ := h
    rw [toList_inj hrest]

theorem toList_insert_of_lt {name : String} (value : Value) : ∀ {fields : Fields},
    (∀ field ∈ fields.toList, field.1 < name) →
      (fields.insert name value).toList = fields.toList ++ [(name, value)]
  | .nil, _ => rfl
  | .cons other old rest, h => by
    obtain ⟨hlt, hrest⟩ := List.forall_mem_cons.mp h
    have hne : name ≠ other := fun he => String.lt_irrefl other (he ▸ hlt)
    have hinsert : insert name value (.cons other old rest) =
        .cons other old (rest.insert name value) := by
      rw [insert, if_neg hne, if_neg (String.lt_asymm hlt)]
    rw [hinsert, toList, toList_insert_of_lt value hrest]
    rfl

theorem toList_foldl_insert (more : List (String × Value)) (fields : Fields)
    (h : (fields.toList ++ more).Pairwise fun field later => field.1 < later.1) :
    (more.foldl (fun acc field => acc.insert field.1 field.2) fields).toList =
      fields.toList ++ more := by
  induction more generalizing fields with
  | nil => simp
  | cons field more ih =>
    obtain ⟨name, value⟩ := field
    have hlast : ∀ field ∈ fields.toList, field.1 < name := fun field hf =>
      (List.pairwise_append.mp h).2.2 field hf (name, value) List.mem_cons_self
    have hinsert := toList_insert_of_lt value hlast
    rw [List.foldl_cons, ih, hinsert, List.append_assoc]
    · rfl
    · rw [hinsert, List.append_assoc]
      exact h

theorem ofList_toList {fields : Fields}
    (h : fields.toList.Pairwise fun field later => field.1 < later.1) :
    ofList fields.toList = fields :=
  toList_inj (toList_foldl_insert fields.toList .nil h)

theorem mem_toList_insert {name : String} {value : Value} {field : String × Value} :
    ∀ {fields : Fields}, field ∈ (fields.insert name value).toList →
      field = (name, value) ∨ field ∈ fields.toList
  | .nil, h => by
    simp only [insert, toList, List.mem_singleton] at h
    exact .inl h
  | .cons other old rest, h => by
    unfold insert at h
    split at h
    · grind [toList]
    · split at h
      · grind [toList]
      · rcases List.mem_cons.mp h with rfl | h
        · exact .inr List.mem_cons_self
        · exact (mem_toList_insert h).imp id (List.mem_cons_of_mem _)

theorem pairwise_insert {name : String} {value : Value} : ∀ {fields : Fields},
    (fields.toList.Pairwise fun field later => field.1 < later.1) →
      (fields.insert name value).toList.Pairwise fun field later => field.1 < later.1
  | .nil, _ => by simp [insert, toList]
  | .cons other old rest, h => by
    obtain ⟨hother, hrest⟩ := List.pairwise_cons.mp h
    unfold insert
    split
    · rename_i he
      exact List.pairwise_cons.mpr ⟨he ▸ hother, hrest⟩
    · rename_i hne
      split
      · rename_i hlt
        refine List.pairwise_cons.mpr ⟨List.forall_mem_cons.mpr ⟨hlt, fun later hm => ?_⟩, h⟩
        exact String.lt_trans hlt (hother later hm)
      · rename_i hnlt
        refine List.pairwise_cons.mpr ⟨fun later hm => ?_, pairwise_insert hrest⟩
        rcases mem_toList_insert hm with rfl | hm
        · have hlt : other < name := Decidable.byContradiction fun hn =>
            hne (String.le_antisymm (String.not_lt.mp hn) (String.not_lt.mp hnlt))
          exact hlt
        · exact hother later hm

theorem Canonical.insert {name : String} {value : Value} (hv : value.Canonical) :
    ∀ {fields : Fields}, fields.Canonical → (fields.insert name value).Canonical
  | .nil, _ => ⟨hv, trivial⟩
  | .cons other old rest, ⟨hold, hrest⟩ => by
    unfold Fields.insert
    split
    · exact ⟨hv, hrest⟩
    · split
      · exact ⟨hv, hold, hrest⟩
      · exact ⟨hold, hrest.insert hv⟩

end Fields

/-- A record whose fields are put in their places one by one is canonical, if their values are. -/
theorem Value.canonical_ofList {fields : List (String × Value)}
    (h : ∀ field ∈ fields, field.2.Canonical) :
    (Value.record (Fields.ofList fields)).Canonical := by
  suffices hfold : ∀ acc : Fields, (Value.record acc).Canonical →
      (Value.record (fields.foldl (fun acc field => acc.insert field.1 field.2) acc)).Canonical from
    hfold .nil ⟨.nil, trivial⟩
  induction fields with
  | nil => exact fun _ hacc => hacc
  | cons field fields ih =>
    obtain ⟨hfield, hfields⟩ := List.forall_mem_cons.mp h
    exact fun acc hacc =>
      ih hfields _ ⟨Fields.pairwise_insert hacc.1, Fields.Canonical.insert hfield hacc.2⟩

/-- What the host is shown of a heap is canonical. -/
theorem Heap.canonical_reveal (h : Heap) (d : Datum) : (h.reveal d).Canonical := by
  suffices hwithin : ∀ depth opened d, (h.revealWithin depth opened d).Canonical from hwithin _ _ d
  intro depth
  induction depth with
  | zero =>
    intro opened d
    cases d <;> simp [revealWithin, Value.Canonical, Fields.Canonical, Fields.toList]
  | succ depth ih =>
    intro opened d
    cases d with
    | record id =>
      apply Value.canonical_ofList
      intro field hf
      obtain ⟨⟨name, thunk⟩, _, hsome⟩ := List.mem_filterMap.mp hf
      simp only at hsome
      split at hsome
      · contradiction
      · split at hsome
        · contradiction
        · cases hsome
          exact ih _ _
    | _ => simp [revealWithin, Value.Canonical]

end Inquiry
