import Mathlib.Data.List.Nodup
import Mathlib.Data.List.Perm.Subperm
import Mathlib.Logic.Relation
import Inquiry.Proofs.Heap.Records
import Inquiry.Proofs.Value.Canonical
set_option autoImplicit false

namespace Inquiry

theorem RecordId.length_le_of_nodup {ids : List RecordId} {n : Nat} (hn : ids.Nodup)
    (hb : ∀ id ∈ ids, id.index < n) : ids.length ≤ n := by
  have hinj : Function.Injective RecordId.index := fun ⟨_⟩ ⟨_⟩ h => congrArg RecordId.mk h
  have hsub : ids.map RecordId.index ⊆ List.range n := by
    intro i hi
    obtain ⟨id, hid, rfl⟩ := List.mem_map.mp hi
    exact List.mem_range.mpr (hb id hid)
  simpa using (List.subperm_of_subset (List.Nodup.map hinj hn) hsub).length_le

namespace Fields

def names (fields : Fields) : List String := fields.toList.map Prod.fst

theorem mem_toList_of_get? {name : String} {v : Value} : ∀ {fields : Fields},
    fields.get? name = some v → (name, v) ∈ fields.toList
  | .cons other value rest, h => by
    unfold get? at h
    split at h
    · rename_i he
      rw [he, Option.some.inj h]
      exact List.mem_cons_self
    · exact List.mem_cons_of_mem _ (mem_toList_of_get? h)

theorem mem_names_insert {name other : String} {value : Value} : ∀ {fields : Fields},
    other ∈ (fields.insert name value).names ↔ other = name ∨ other ∈ fields.names
  | .nil => by simp [insert, names, toList]
  | .cons key old rest => by
    have ih : other ∈ (rest.insert name value).names ↔ other = name ∨ other ∈ rest.names :=
      mem_names_insert
    unfold names at ih ⊢
    unfold insert
    split
    · rename_i he
      simp [toList, he]
    · split
      · simp [toList]
      · simp only [toList, List.map_cons, List.mem_cons, ih]
        exact or_left_comm

theorem mem_names_ofList {name : String} {fields : List (String × Value)} :
    name ∈ (ofList fields).names ↔ name ∈ fields.map Prod.fst := by
  suffices hfold : ∀ acc : Fields,
      name ∈ (fields.foldl (fun acc field => acc.insert field.1 field.2) acc).names ↔
        name ∈ fields.map Prod.fst ∨ name ∈ acc.names by
    simpa [ofList, names, toList] using hfold .nil
  induction fields with
  | nil => simp
  | cons field rest ih =>
    intro acc
    rw [List.foldl_cons, ih, mem_names_insert, List.map_cons, List.mem_cons]
    exact or_left_comm.trans or_assoc.symm

theorem mem_of_mem_ofList {entry : String × Value} {fields : List (String × Value)}
    (h : entry ∈ (ofList fields).toList) : entry ∈ fields := by
  suffices hfold : ∀ acc : Fields,
      entry ∈ (fields.foldl (fun acc field => acc.insert field.1 field.2) acc).toList →
        entry ∈ fields ∨ entry ∈ acc.toList by
    simpa [toList] using hfold .nil h
  clear h
  induction fields with
  | nil => simp
  | cons field rest ih =>
    intro acc h
    rcases ih _ h with h | h
    · exact .inl (List.mem_cons_of_mem _ h)
    · rcases mem_toList_insert h with rfl | h
      · exact .inl List.mem_cons_self
      · exact .inr h

end Fields

namespace Heap

open Relation (ReflTransGen TransGen)

def Leads (h : Heap) (parent child : RecordId) : Prop :=
  ∃ field ∈ h.record parent, h.forced? field.2 = some (.record child)

/-- All fields of the value have values, and these are settled. None of its records is inside itself
or among those in `opened`. -/
inductive Settled (h : Heap) : List RecordId → Datum → Prop where
  | plain {opened : List RecordId} {d : Datum} (hd : ∀ id, d ≠ .record id) : Settled h opened d
  | record {opened : List RecordId} {id : RecordId} (hi : id.index < h.records.size)
      (hn : id ∉ opened) (hf : ∀ field ∈ h.record id, ∃ d, h.forced? field.2 = some d)
      (hs : ∀ field ∈ h.record id, ∀ d, h.forced? field.2 = some d → Settled h (id :: opened) d) :
      Settled h opened (.record id)

mutual

/-- The value shows the datum and all that is in it. -/
def Unfolds (h : Heap) (d : Datum) : Value → Prop
  | .number n => d = .number n
  | .boolean b => d = .boolean b
  | .record fields => ∃ id, d = .record id ∧
    (∀ name, name ∈ fields.names ↔ name ∈ h.fieldNames id) ∧ h.FieldsUnfold id fields
  | .function name => ∃ id, d = .closure id ∧ (h.closure id).name = name
  | .undefined => d = .undefined

def FieldsUnfold (h : Heap) (id : RecordId) : Fields → Prop
  | .nil => True
  | .cons name value rest =>
    (∃ thunk d, (name, thunk) ∈ h.record id ∧ h.forced? thunk = some d ∧ h.Unfolds d value) ∧
      h.FieldsUnfold id rest

end

/-- What has a value keeps it, and the records stay as they are. -/
structure Retains (h later : Heap) : Prop where
  forced : ∀ id d, h.forced? id = some d → later.forced? id = some d
  records : h.KeepsRecords later

variable {h later : Heap} {opened : List RecordId} {d : Datum} {id child last : RecordId}

theorem state_of_forced? {id : ThunkId} (hd : h.forced? id = some d) :
    (h.thunk id).state = .forced d := by
  unfold forced? at hd
  split at hd
  · rename_i hs
    rwa [Option.some.inj hd] at hs
  · cases hd

theorem fieldsUnfold_iff : ∀ {fields : Fields}, h.FieldsUnfold id fields ↔
    ∀ entry ∈ fields.toList, ∃ thunk d, (entry.1, thunk) ∈ h.record id ∧
      h.forced? thunk = some d ∧ h.Unfolds d entry.2
  | .nil => by simp [FieldsUnfold, Fields.toList]
  | .cons name value rest => by
    rw [FieldsUnfold, fieldsUnfold_iff, Fields.toList, List.forall_mem_cons]

namespace Settled

theorem retain (hs : h.Settled opened d) (hr : h.Retains later) : later.Settled opened d := by
  induction hs with
  | plain hd => exact .plain hd
  | @record opened id hi hn hf _ ih =>
    have hrecord := hr.records.record_eq hi
    refine .record (hr.records.lt hi) hn (fun field hm => ?_) fun field hm d hd => ?_
    · obtain ⟨d, hd⟩ := hf field (hrecord ▸ hm)
      exact ⟨d, hr.forced _ _ hd⟩
    · obtain ⟨found, hfound⟩ := hf field (hrecord ▸ hm)
      obtain rfl : found = d := Option.some.inj ((hr.forced _ _ hfound).symm.trans hd)
      exact ih field (hrecord ▸ hm) found hfound

theorem fields (hs : h.Settled opened (.record id)) :
    ∀ field ∈ h.record id, ∃ d, h.forced? field.2 = some d := by
  cases hs with
  | plain hd => exact absurd rfl (hd id)
  | record _ _ hf _ => exact hf

theorem not_mem (hs : h.Settled opened (.record id)) : id ∉ opened := by
  cases hs with
  | plain hd => exact absurd rfl (hd id)
  | record _ hn _ _ => exact hn

theorem field (hs : h.Settled opened (.record id)) {field : String × ThunkId}
    (hm : field ∈ h.record id) (hd : h.forced? field.2 = some d) :
    h.Settled (id :: opened) d := by
  cases hs with
  | plain hd => exact absurd rfl (hd id)
  | record _ _ _ hs => exact hs field hm d hd

theorem lead (hs : h.Settled opened (.record id)) (hl : h.Leads id child) :
    h.Settled (id :: opened) (.record child) := by
  obtain ⟨_, hm, hd⟩ := hl
  exact hs.field hm hd

/-- What is inside a settled record is settled, and all records on the way there are open. -/
theorem reach (hs : h.Settled opened (.record id)) (hl : ReflTransGen h.Leads id last) :
    ∃ inner, opened ⊆ inner ∧ h.Settled inner (.record last) := by
  induction hl with
  | refl => exact ⟨opened, List.Subset.refl _, hs⟩
  | @tail parent child _ hl ih =>
    obtain ⟨inner, hsub, hs⟩ := ih
    exact ⟨parent :: inner, List.subset_cons_of_subset _ hsub, hs.lead hl⟩

theorem acyclic (hs : h.Settled opened (.record id)) : ¬TransGen h.Leads id id := by
  intro hcycle
  obtain ⟨child, hl, hback⟩ := TransGen.head'_iff.mp hcycle
  obtain ⟨inner, hsub, hs⟩ := (hs.lead hl).reach hback
  exact hs.not_mem (hsub List.mem_cons_self)

theorem not_among (hs : h.Settled opened d) : d.isAmong opened = false := by
  cases d with
  | record id => simpa [Datum.isAmong] using hs.not_mem
  | _ => rfl

theorem revealWithin_record (hs : h.Settled opened (.record id)) (look : Nat) :
    h.revealWithin (look + 1) opened (.record id) =
      .record (Fields.ofList ((h.record id).filterMap fun field =>
        (h.forced? field.2).map fun d => (field.1, h.revealWithin look (id :: opened) d))) := by
  rw [revealWithin]
  congr 2
  refine List.filterMap_congr fun field hm => ?_
  obtain ⟨d, hd⟩ := hs.fields field hm
  simp only [hd, (hs.field hm hd).not_among]
  rfl

/-- Looking as deep as there are records shows all of a settled value. -/
theorem unfolds (hs : h.Settled opened d) (hn : opened.Nodup)
    (hb : ∀ id ∈ opened, id.index < h.records.size) {look : Nat}
    (hl : h.records.size ≤ look + opened.length) :
    h.Unfolds d (h.revealWithin look opened d) := by
  induction hs generalizing look with
  | @plain opened d hd =>
    cases d with
    | record id => exact absurd rfl (hd id)
    | _ => simp [revealWithin, Unfolds]
  | @record opened id hi hid hf hs ih =>
    have hn' : (id :: opened).Nodup := List.nodup_cons.mpr ⟨hid, hn⟩
    have hb' : ∀ other ∈ id :: opened, other.index < h.records.size :=
      List.forall_mem_cons.mpr ⟨hi, hb⟩
    -- One more record is open, so there was depth left.
    have hlen := RecordId.length_le_of_nodup hn' hb'
    rw [List.length_cons] at hlen
    obtain ⟨look, rfl⟩ : ∃ deeper, look = deeper + 1 := ⟨look - 1, by omega⟩
    have hdeep : h.records.size ≤ look + (id :: opened).length := by
      rw [List.length_cons]
      omega
    rw [(Settled.record hi hid hf hs).revealWithin_record look, Unfolds]
    refine ⟨id, rfl, fun name => ?_, fieldsUnfold_iff.mpr fun entry he => ?_⟩
    · rw [Fields.mem_names_ofList]
      constructor
      · intro hname
        obtain ⟨entry, he, rfl⟩ := List.mem_map.mp hname
        obtain ⟨field, hm, hshown⟩ := List.mem_filterMap.mp he
        obtain ⟨d, _, rfl⟩ := Option.map_eq_some_iff.mp hshown
        exact List.mem_map.mpr ⟨field, hm, rfl⟩
      · intro hname
        obtain ⟨field, hm, rfl⟩ := List.mem_map.mp hname
        obtain ⟨d, hd⟩ := hf field hm
        refine List.mem_map.mpr ⟨(field.1, h.revealWithin look (id :: opened) d),
          List.mem_filterMap.mpr ⟨field, hm, ?_⟩, rfl⟩
        rw [hd, Option.map_some]
    · obtain ⟨field, hm, hshown⟩ := List.mem_filterMap.mp (Fields.mem_of_mem_ofList he)
      obtain ⟨d, hd, rfl⟩ := Option.map_eq_some_iff.mp hshown
      exact ⟨field.2, d, hm, hd, ih field hm d hd hn' hb' hdeep⟩

end Settled

end Heap

end Inquiry
