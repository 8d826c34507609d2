import Mathlib.Logic.ExistsUnique
import Inquiry.Proofs.Heap.Showing
set_option autoImplicit false

namespace Inquiry

namespace Heap

open Relation (ReflTransGen)

/-- What the fields of records refer to is there: their delayed expressions, and the records and
closures that these have as values. -/
structure InRange (h : Heap) : Prop where
  field : ∀ fields ∈ h.records, ∀ field ∈ fields, field.2.index < h.thunks.size
  value : ∀ thunk ∈ h.thunks, thunk.state.Known h

/-- Showing a value inside the records in `opened`, to whatever depth. Of a record are shown the
fields that have a value and do not lead back, each as `value` says, which shows what is in it. -/
inductive Shown (h : Heap) : List RecordId → Datum → Value → Prop where
  | number {opened : List RecordId} (n : Int64) : Shown h opened (.number n) (.number n)
  | boolean {opened : List RecordId} (b : Bool) : Shown h opened (.boolean b) (.boolean b)
  | closure {opened : List RecordId} (id : ClosureId) :
      Shown h opened (.closure id) (.function (h.closure id).name)
  | undefined {opened : List RecordId} : Shown h opened .undefined .undefined
  | record {opened : List RecordId} {id : RecordId} (value : Datum → Value)
      (hv : ∀ field ∈ h.record id, ∀ d, h.forced? field.2 = some d →
        d.isAmong (id :: opened) = false → Shown h (id :: opened) d (value d)) :
      Shown h opened (.record id) (.record (.ofList ((h.record id).filterMap fun field =>
        (h.forced? field.2).bind fun d =>
          if d.isAmong (id :: opened) then none else some (field.1, value d))))

inductive Descends (h : Heap) : List RecordId × Datum → List RecordId × Datum → Prop where
  | field {opened : List RecordId} {id : RecordId} {field : String × ThunkId} {d : Datum}
      (hm : field ∈ h.record id) (hd : h.forced? field.2 = some d)
      (ha : d.isAmong (id :: opened) = false) :
      Descends h (opened, .record id) (id :: opened, d)

/-- What is open while a value is shown: known records, none twice, and not the value itself. -/
structure Within (h : Heap) (opened : List RecordId) (d : Datum) : Prop where
  known : d.Known h
  opened_lt : ∀ id ∈ opened, id.index < h.records.size
  nodup : opened.Nodup
  not_among : d.isAmong opened = false

variable {h : Heap} {opened : List RecordId} {d : Datum} {id : RecordId} {v w : Value}

/-- The heaps that passes work on are among these. -/
theorem Sound.inRange {parents : Parents} (hs : h.Sound parents) : h.InRange :=
  ⟨hs.record, fun thunk hm => (hs.thunk thunk hm).2⟩

theorem InRange.known {thunk : ThunkId} (hr : h.InRange) (hi : thunk.index < h.thunks.size)
    (hd : h.forced? thunk = some d) : d.Known h := by
  have hk := hr.value _ (thunk_mem hi)
  rwa [state_of_forced? hd] at hk

namespace Within

theorem outermost (hd : d.Known h) : h.Within [] d := by
  refine ⟨hd, nofun, .nil, ?_⟩
  cases d <;> rfl

theorem field (hw : h.Within opened (.record id)) (hr : h.InRange) {field : String × ThunkId}
    (hm : field ∈ h.record id) (hd : h.forced? field.2 = some d)
    (ha : d.isAmong (id :: opened) = false) : h.Within (id :: opened) d where
  known := hr.known (hr.field _ (record_mem hw.known) field hm) hd
  opened_lt := List.forall_mem_cons.mpr ⟨hw.known, hw.opened_lt⟩
  nodup := List.nodup_cons.mpr ⟨not_mem_of_isAmong hw.not_among, hw.nodup⟩
  not_among := ha

theorem of_descent (hw : h.Within [] d) (hr : h.InRange) {place : List RecordId × Datum}
    (hp : ReflTransGen h.Descends ([], d) place) : h.Within place.1 place.2 := by
  induction hp with
  | refl => exact hw
  | tail _ hstep ih =>
    cases hstep with
    | field hm hd ha => exact ih.field hr hm hd ha

theorem length_le (hw : h.Within opened d) : opened.length ≤ h.records.size :=
  RecordId.length_le_of_nodup hw.nodup hw.opened_lt

end Within

namespace Shown

theorem unique (hv : h.Shown opened d v) (hw : h.Shown opened d w) : v = w := by
  induction hv generalizing w with
  | number | boolean | closure | undefined =>
    cases hw
    rfl
  | record value _ ih =>
    cases hw with
    | record value' hv' =>
      congr 2
      refine List.filterMap_congr fun field hm => ?_
      cases hd : h.forced? field.2 with
      | none => rfl
      | some d =>
        simp only [Option.bind_some]
        split
        · rfl
        · rename_i ha
          rw [Bool.not_eq_true] at ha
          rw [ih field hm d hd ha (hv' field hm d hd ha)]

end Shown

theorem Within.shown (hw : h.Within opened d) (hr : h.InRange) {look : Nat}
    (hl : h.records.size ≤ look + opened.length) :
    h.Shown opened d (h.revealWithin look opened d) := by
  induction look generalizing opened d with
  | zero =>
    cases d with
    | number n => exact .number n
    | boolean b => exact .boolean b
    | closure id => exact .closure id
    | undefined => exact .undefined
    | record id =>
      obtain ⟨_, hdeeper⟩ := exists_look hw.known hw.not_among hw.nodup hw.opened_lt hl
      cases hdeeper
  | succ look ih =>
    cases d with
    | number n => exact .number n
    | boolean b => exact .boolean b
    | closure id => exact .closure id
    | undefined => exact .undefined
    | record id =>
      rw [revealWithin_record]
      refine .record (h.revealWithin look (id :: opened)) fun field hm d hd ha => ?_
      apply ih (hw.field hr hm hd ha)
      rw [List.length_cons]
      omega

theorem Within.get?_iff (hw : h.Within opened (.record id)) (hr : h.InRange)
    (hn : (h.fieldNames id).Nodup) {fields : Fields}
    (hs : h.Shown opened (.record id) (.record fields)) (name : String) (v : Value) :
    fields.get? name = some v ↔ ∃ thunk d, (name, thunk) ∈ h.record id ∧
      h.forced? thunk = some d ∧ d.isAmong (id :: opened) = false ∧ h.Shown (id :: opened) d v := by
  have hl : h.records.size ≤ h.records.size + 1 + opened.length := by omega
  have hshown := hw.shown hr hl
  rw [revealWithin_record] at hshown
  obtain rfl := Value.record.inj (hs.unique hshown)
  rw [get?_shownFields hn]
  refine exists_congr fun thunk => exists_congr fun d => and_congr_right fun hm =>
    and_congr_right fun hd => and_congr_right fun ha => ?_
  have hinner := (hw.field hr hm hd ha).shown hr (Nat.le_add_right h.records.size _)
  exact ⟨fun hv => hv ▸ hinner, hinner.unique⟩

/-- Whatever has values on a heap and however its records lead back to each other, showing a value
comes to an end, with what the host is shown. On the way to any value that is shown as a part, no
record is gone into twice, so no more are open than there are. If a record that is shown there
repeats no name, it has a field just where its own field has a value that is none of the open
records, and then it shows this value. -/
theorem reveal_terminates (hr : h.InRange) (hd : d.Known h) :
    h.Shown [] d (h.reveal d) ∧
    ∀ opened part, ReflTransGen h.Descends ([], d) (opened, part) →
      part.Known h ∧ (∃! v, h.Shown opened part v) ∧
      opened.Nodup ∧ opened.length ≤ h.records.size ∧
      ∀ id, part = .record id →
        (id :: opened).Nodup ∧ (id :: opened).length ≤ h.records.size ∧
        ((h.fieldNames id).Nodup → ∀ fields, h.Shown opened part (.record fields) → ∀ name v,
          (fields.get? name = some v ↔ ∃ thunk d, (name, thunk) ∈ h.record id ∧
            h.forced? thunk = some d ∧ d.isAmong (id :: opened) = false ∧
              h.Shown (id :: opened) d v)) := by
  have houter := Within.outermost hd
  refine ⟨houter.shown hr (Nat.le_refl _), fun opened part hp => ?_⟩
  have hw : h.Within opened part := houter.of_descent hr hp
  have hshown := hw.shown hr (Nat.le_add_right h.records.size _)
  refine ⟨hw.known, ⟨_, hshown, fun v hv => hv.unique hshown⟩, hw.nodup, hw.length_le, ?_⟩
  rintro id rfl
  have hnodup := List.nodup_cons.mpr ⟨not_mem_of_isAmong hw.not_among, hw.nodup⟩
  have hlt : ∀ other ∈ id :: opened, other.index < h.records.size :=
    List.forall_mem_cons.mpr ⟨hw.known, hw.opened_lt⟩
  exact ⟨hnodup, RecordId.length_le_of_nodup hnodup hlt, fun hn _ hs => hw.get?_iff hr hn hs⟩

theorem reveal_terminates_ring :
    let forced := fun label d => (⟨label, .number 0, [], .forced d⟩ : Thunk)
    let waiting : Thunk := ⟨"hint", .number 0, [], .unforced⟩
    let thunks := #[forced "size" (.number 1), forced "next" (.record ⟨1⟩),
      forced "back" (.record ⟨0⟩), waiting]
    let ring : Heap :=
      ⟨#[[]], thunks, #[[("size", ⟨0⟩), ("next", ⟨1⟩)], [("back", ⟨2⟩), ("hint", ⟨3⟩)]], #[]⟩
    ring.InRange ∧ (Datum.record ⟨0⟩).Known ring ∧
      ring.Shown [] (.record ⟨0⟩)
        (.record (.cons "next" (.record .nil) (.cons "size" (.number 1) .nil))) ∧
      ring.Descends ([], .record ⟨0⟩) ([⟨0⟩], .record ⟨1⟩) ∧
      ∃! v, ring.Shown [⟨0⟩] (.record ⟨1⟩) v := by
  intro forced waiting thunks ring
  have hr : ring.InRange := by
    refine ⟨by decide, fun thunk hm => ?_⟩
    simp only [ring, thunks, Array.mem_def, List.mem_cons, List.not_mem_nil, or_false] at hm
    rcases hm with rfl | rfl | rfl | rfl
    · trivial
    · exact Nat.one_lt_two
    · exact Nat.two_pos
    · trivial
  have hd : (Datum.record ⟨0⟩).Known ring := Nat.two_pos
  have hshown : ring.reveal (.record ⟨0⟩) =
      .record (.cons "next" (.record .nil) (.cons "size" (.number 1) .nil)) := by decide
  have hinto : ring.Descends ([], .record ⟨0⟩) ([⟨0⟩], .record ⟨1⟩) := by
    have hm : ("next", ⟨1⟩) ∈ ring.record ⟨0⟩ := by decide
    exact .field hm rfl rfl
  obtain ⟨hall, hparts⟩ := reveal_terminates hr hd
  exact ⟨hr, hd, hshown ▸ hall, hinto, (hparts _ _ (.single hinto)).2.1⟩

end Heap

end Inquiry
