import Inquiry.Proofs.Heap.References
import Inquiry.Proofs.Heap.Settling
set_option autoImplicit false

/-!
What is shown of a heap is shown of any later one. A value once there stays, and so does a record
that leads back to itself: the later heap leaves out no field that the earlier one showed.
-/

namespace Inquiry

/-- The one value has all that the other has. Only records can have more. -/
inductive Value.Extends : Value → Value → Prop where
  | plain {v : Value} (hv : ∀ fields, v ≠ .record fields) : Extends v v
  | record {more fields : Fields}
      (hn : ∀ name v, fields.get? name = some v → ∃ w, more.get? name = some w)
      (he : ∀ name v w, fields.get? name = some v → more.get? name = some w → Extends w v) :
      Extends (.record more) (.record fields)

theorem Value.Extends.of_forall {more fields : Fields}
    (h : ∀ name v, fields.get? name = some v → ∃ w, more.get? name = some w ∧ w.Extends v) :
    Extends (.record more) (.record fields) := by
  refine .record (fun name v hv => ?_) fun name v w hv hw => ?_
  · obtain ⟨w, hw, _⟩ := h name v hv
    exact ⟨w, hw⟩
  · obtain ⟨found, hfound, he⟩ := h name v hv
    cases hfound.symm.trans hw
    exact he

namespace Fields

theorem exists_get?_of_mem_names {name : String} : ∀ {fields : Fields},
    name ∈ fields.names → ∃ v, fields.get? name = some v
  | .nil, hn => by cases hn
  | .cons other value rest, hn => by
    unfold get?
    split
    · exact ⟨value, rfl⟩
    · rename_i hne
      exact exists_get?_of_mem_names ((List.mem_cons.mp hn).resolve_left hne)

theorem get?_ofList {name : String} {v : Value} {fields : List (String × Value)}
    (hn : (fields.map Prod.fst).Nodup) :
    (ofList fields).get? name = some v ↔ (name, v) ∈ fields := by
  constructor
  · exact fun hv => mem_of_mem_ofList (mem_toList_of_get? hv)
  · intro hm
    have hname : name ∈ (ofList fields).names :=
      mem_names_ofList.mpr (List.mem_map.mpr ⟨(name, v), hm, rfl⟩)
    obtain ⟨w, hw⟩ := exists_get?_of_mem_names hname
    have hm' := mem_of_mem_ofList (mem_toList_of_get? hw)
    cases List.inj_on_of_nodup_map hn hm' hm rfl
    exact hw

end Fields

namespace Heap

/-- The closures and the first `count` frames stay as they are. -/
structure Fixes (count : Nat) (h later : Heap) : Prop where
  closures : h.closures.size ≤ later.closures.size
  closure : ∀ id, id.index < h.closures.size → later.closure id = h.closure id
  frame : ∀ id, id.index < count → later.frame id = h.frame id

variable {h later latest : Heap} {parents : Parents} {count : Nat} {opened : List RecordId}
  {d : Datum} {id : RecordId}

theorem Retains.refl (h : Heap) : h.Retains h := ⟨fun _ _ => id, .refl h⟩

theorem Retains.trans (hl : h.Retains later) (hr : later.Retains latest) : h.Retains latest :=
  ⟨fun id d hd => hr.forced id d (hl.forced id d hd), hl.records.trans hr.records⟩

namespace Fixes

theorem of_eq (hf : later.frames = h.frames) (hc : later.closures = h.closures) :
    h.Fixes count later := by
  refine ⟨Nat.le_of_eq (by rw [hc]), fun id _ => ?_, fun id _ => ?_⟩
  · simp only [Heap.closure, hc]
  · simp only [Heap.frame, hf]

theorem refl (h : Heap) : h.Fixes count h := .of_eq rfl rfl

theorem mono {fewer : Nat} (hf : h.Fixes count later) (hc : fewer ≤ count) :
    h.Fixes fewer later :=
  ⟨hf.closures, hf.closure, fun id hi => hf.frame id (Nat.lt_of_lt_of_le hi hc)⟩

theorem trans (hl : h.Fixes count later) (hr : later.Fixes count latest) :
    h.Fixes count latest where
  closures := Nat.le_trans hl.closures hr.closures
  closure id hi :=
    (hr.closure id (Nat.lt_of_lt_of_le hi hl.closures)).trans (hl.closure id hi)
  frame id hi := (hr.frame id hi).trans (hl.frame id hi)

theorem addFrame (h : Heap) : h.Fixes count h.addFrame.2 :=
  ⟨Nat.le_refl _, fun _ _ => rfl, fun id _ => frame_addFrame h id⟩

theorem addClosure (h : Heap) (closure : Closure) : h.Fixes count (h.addClosure closure).2 := by
  refine ⟨?_, fun id hi => ?_, fun _ _ => rfl⟩
  · simp [Heap.addClosure]
  · rw [closure_push, if_neg (Nat.ne_of_lt hi)]

theorem declare (h : Heap) {frame : FrameId} (hc : count ≤ frame.index) (slot : Slot)
    (binding : Binding) : h.Fixes count (h.declare frame slot binding) := by
  refine ⟨Nat.le_refl _, fun _ _ => rfl, fun id hi => ?_⟩
  have hne : id ≠ frame := fun he => absurd (he ▸ hi) (Nat.not_lt_of_le hc)
  rw [frame_declare, if_neg fun he => hne he.1]

end Fixes

theorem Declares.fixes {frame : FrameId} {scope : Scope} {bindings : List (Slot × Expr)}
    (hd : Declares frame scope bindings h later) (hc : count ≤ frame.index) :
    h.Fixes count later := by
  induction hd with
  | nil => exact .refl _
  | @delayed h _ _ label e _ _ ih =>
    have hdelay : h.Fixes count (h.delay label e scope).2 := .of_eq rfl rfl
    exact hdelay.trans ((Fixes.declare _ hc _ _).trans ih)
  | function _ _ ih =>
    exact (Fixes.addClosure _ _).trans ((Fixes.declare (addClosure _ _).2 hc _ _).trans ih)

theorem Opens.fixes {frame : FrameId} {scope : Scope} {bindings : List (Slot × Expr)}
    (ho : h.Opens frame scope bindings later) : h.Fixes h.frames.size later := by
  obtain ⟨rfl, hd⟩ := ho
  exact (Fixes.addFrame h).trans (hd.fixes (Nat.le_refl _))

/-- What is shown of a field inside the records in `opened`, if anything. -/
def shownField (h : Heap) (look : Nat) (opened : List RecordId) (field : String × ThunkId) :
    Option (String × Value) :=
  (h.forced? field.2).bind fun d =>
    if d.isAmong opened then none else some (field.1, h.revealWithin look opened d)

theorem shownField_eq_some_iff {look : Nat} {field : String × ThunkId} {entry : String × Value} :
    h.shownField look opened field = some entry ↔ field.1 = entry.1 ∧ ∃ d,
      h.forced? field.2 = some d ∧ d.isAmong opened = false ∧
        h.revealWithin look opened d = entry.2 := by
  simp only [shownField, Option.bind_eq_some_iff]
  grind

theorem revealWithin_record (look : Nat) :
    h.revealWithin (look + 1) opened (.record id) =
      .record (Fields.ofList ((h.record id).filterMap (h.shownField look (id :: opened)))) := by
  rw [revealWithin]
  congr 2
  refine List.filterMap_congr fun field _ => ?_
  simp only [shownField]
  cases h.forced? field.2 <;> rfl

theorem get?_shownFields {look : Nat} {name : String} {v : Value}
    (hn : (h.fieldNames id).Nodup) :
    (Fields.ofList ((h.record id).filterMap (h.shownField look opened))).get? name = some v ↔
      ∃ thunk d, (name, thunk) ∈ h.record id ∧ h.forced? thunk = some d ∧
        d.isAmong opened = false ∧ h.revealWithin look opened d = v := by
  have hnames : (((h.record id).filterMap (h.shownField look opened)).map Prod.fst).Nodup := by
    rw [List.Nodup, List.pairwise_map, List.pairwise_filterMap]
    refine (List.pairwise_map.mp hn).imp fun hne entry he entry' he' => ?_
    rwa [← (shownField_eq_some_iff.mp he).1, ← (shownField_eq_some_iff.mp he').1]
  simp only [Fields.get?_ofList hnames, List.mem_filterMap, shownField_eq_some_iff]
  constructor
  · rintro ⟨⟨_, thunk⟩, hm, rfl, d, hd⟩
    exact ⟨thunk, d, hm, hd⟩
  · rintro ⟨thunk, d, hm, hd⟩
    exact ⟨(name, thunk), hm, rfl, d, hd⟩

theorem not_mem_of_isAmong (ha : (Datum.record id).isAmong opened = false) : id ∉ opened := by
  simpa [Datum.isAmong] using ha

/-- As long as there is a record that is not open, there is depth left to show it. -/
theorem exists_look {look : Nat} (hi : id.index < h.records.size)
    (ha : (Datum.record id).isAmong opened = false) (ho : opened.Nodup)
    (hb : ∀ other ∈ opened, other.index < h.records.size)
    (hl : h.records.size ≤ look + opened.length) : ∃ deeper, look = deeper + 1 := by
  have hnodup := List.nodup_cons.mpr ⟨not_mem_of_isAmong ha, ho⟩
  have hlen := RecordId.length_le_of_nodup hnodup (List.forall_mem_cons.mpr ⟨hi, hb⟩)
  rw [List.length_cons] at hlen
  exact ⟨look - 1, by omega⟩

theorem revealWithin_plain {look look' : Nat} (hf : h.Fixes count later) (hd : d.Known h)
    (hp : ∀ id, d ≠ .record id) :
    (later.revealWithin look' opened d).Extends (h.revealWithin look opened d) := by
  cases d with
  | record id => exact absurd rfl (hp id)
  | closure id =>
    simp only [revealWithin, hf.closure id hd]
    exact .plain (by simp)
  | _ =>
    simp only [revealWithin]
    exact .plain (by simp)

theorem revealWithin_extends {look look' : Nat} (hs : h.Sound parents)
    (hr : h.Retains later) (hf : h.Fixes count later) (hn : ∀ id, (h.fieldNames id).Nodup)
    (hd : d.Known h) (ha : d.isAmong opened = false) (ho : opened.Nodup)
    (hb : ∀ id ∈ opened, id.index < h.records.size)
    (hl : h.records.size ≤ look + opened.length)
    (hl' : later.records.size ≤ look' + opened.length) :
    (later.revealWithin look' opened d).Extends (h.revealWithin look opened d) := by
  -- On how deep the earlier heap is looked into; the later one may have more records.
  induction look generalizing look' opened d with
  | zero =>
    cases d with
    | record id =>
      obtain ⟨_, hdeeper⟩ := exists_look hd ha ho hb hl
      cases hdeeper
    | _ => exact revealWithin_plain hf hd nofun
  | succ look ih =>
    cases d with
    | record id =>
      have hrecord := hr.records.record_eq hd
      obtain ⟨look', rfl⟩ := exists_look (hr.records.lt hd) ha ho
        (fun other hm => hr.records.lt (hb other hm)) hl'
      have hn' : (later.fieldNames id).Nodup := by
        rw [fieldNames, hrecord]
        exact hn id
      rw [revealWithin_record, revealWithin_record]
      refine .of_forall fun name v hv => ?_
      obtain ⟨thunk, d, hm, hforced, hamong, rfl⟩ := (get?_shownFields (hn id)).mp hv
      -- The value leads to the same records later, so it is not left out for leading back.
      refine ⟨later.revealWithin look' (id :: opened) d, (get?_shownFields hn').mpr
        ⟨thunk, d, hrecord ▸ hm, hr.forced _ _ hforced, hamong, rfl⟩, ?_⟩
      apply ih (hs.forced (hs.field hd hm) (state_of_forced? hforced)) hamong
      · exact List.nodup_cons.mpr ⟨not_mem_of_isAmong ha, ho⟩
      · exact List.forall_mem_cons.mpr ⟨hd, hb⟩
      · rw [List.length_cons]
        omega
      · rw [List.length_cons]
        omega
    | _ => exact revealWithin_plain hf hd nofun

theorem reveal_extends (hs : h.Sound parents) (hr : h.Retains later) (hf : h.Fixes count later)
    (hn : ∀ id, (h.fieldNames id).Nodup) (hd : d.Known h) :
    (later.reveal d).Extends (h.reveal d) := by
  refine revealWithin_extends hs hr hf hn hd ?_ .nil nofun (Nat.le_refl _) (Nat.le_refl _)
  cases d <;> rfl

end Heap

end Inquiry
