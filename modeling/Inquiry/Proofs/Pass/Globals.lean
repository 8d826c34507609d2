import Inquiry.Proofs.Heap.Showing
import Inquiry.Proofs.Pass.Materialization
import Inquiry.Proofs.Pass.Selection
import Inquiry.Proofs.Recasting.Globals
set_option autoImplicit false

namespace Inquiry

namespace Globals

variable {h later : Heap} {parents : Parents} {name : String} {v : Value}

theorem entries_fixed (hf : h.Fixes 1 later) : entries ⟨some later⟩ = entries ⟨some h⟩ := by
  simp only [entries, hf.frame Heap.globalFrame Nat.one_pos]

theorem names_fixed (hf : h.Fixes 1 later) : names ⟨some later⟩ = names ⟨some h⟩ := by
  rw [names, names, entries_fixed hf]

theorem get?_eq_some_iff : get? ⟨some h⟩ name = some v ↔ ∃ entry,
    ((entries ⟨some h⟩).reverse.find? fun entry => entry.slot.name == name) = some entry ∧
      entry.binding.value? h = some v := by
  simp only [get?, Option.bind_some, valueAmong]
  cases (entries ⟨some h⟩).reverse.find? fun entry : Entry => entry.slot.name == name with
  | none => simp
  | some entry =>
    obtain ⟨slot, binding⟩ := entry
    cases binding <;> simp [Binding.value?]

theorem known_of_mem {entry : Entry} (hs : h.Sound parents) (he : entry ∈ entries ⟨some h⟩) :
    entry.binding.Known h := by
  have hm : entry ∈ h.frame Heap.globalFrame := (entries_perm h).mem_iff.mp he
  exact hs.frame _ (Heap.frame_mem hm) entry hm

end Globals

/-- What a name is bound to is shown later, and has all that it had. -/
theorem Binding.value?_extends {h later : Heap} {parents : Parents} {binding : Binding} {v : Value}
    (hs : h.Sound parents) (hr : h.Retains later) (hf : h.Fixes 1 later)
    (hn : ∀ id, (h.fieldNames id).Nodup) (hb : binding.Known h) (hv : binding.value? h = some v) :
    ∃ w, binding.value? later = some w ∧ w.Extends v := by
  cases binding with
  | value d =>
    cases hv
    exact ⟨later.reveal d, rfl, Heap.reveal_extends hs hr hf hn hb⟩
  | delayed id =>
    obtain ⟨d, hd, rfl⟩ := Option.map_eq_some_iff.mp hv
    have hknown := hs.forced hb (Heap.state_of_forced? hd)
    refine ⟨later.reveal d, ?_, Heap.reveal_extends hs hr hf hn hknown⟩
    rw [value?, hr.forced id d hd, Option.map_some]

theorem Globals.get?_extends {h later : Heap} {parents : Parents} {name : String} {v : Value}
    (hs : h.Sound parents) (hr : h.Retains later) (hf : h.Fixes 1 later)
    (hn : ∀ id, (h.fieldNames id).Nodup) (hv : get? ⟨some h⟩ name = some v) :
    ∃ w, get? ⟨some later⟩ name = some w ∧ w.Extends v := by
  obtain ⟨entry, he, hv⟩ := get?_eq_some_iff.mp hv
  have hknown := known_of_mem hs (List.mem_reverse.mp (List.mem_of_find?_eq_some he))
  obtain ⟨w, hw, hextends⟩ := Binding.value?_extends hs hr hf hn hknown hv
  exact ⟨w, get?_eq_some_iff.mpr ⟨entry, entries_fixed hf ▸ he, hw⟩, hextends⟩

namespace Machine

variable {answers : Answers} {m m' : Machine} {control next : Control}

def globals (m : Machine) : Globals := ⟨some m.heap⟩

theorem fixes_of_step (hs : m.step answers control = .next next m') :
    m.heap.Fixes m.heap.frames.size m'.heap := by
  cases move_of_step hs with
  | record ho =>
    obtain ⟨_, _, _, hopens, rfl⟩ := Heap.openRecord_opens ho
    exact hopens.fixes.trans (.of_eq rfl rfl)
  | function ho =>
    cases ho
    exact .addClosure _ _
  | block ho | blockOfNames _ ho =>
    obtain ⟨_, _, hopens⟩ := Heap.openBlock_opens ho
    exact hopens.fixes
  | callee _ ho =>
    obtain ⟨_, _, hopens⟩ := Heap.openCall_opens ho
    exact hopens.fixes
  | completeRecord _ hf | recordField hf => cases hf <;> exact .of_eq rfl rfl
  | _ => exact .of_eq rfl rfl

theorem heap_of_stop {outcome : Outcome} (hs : m.step answers control = .stop outcome m') :
    m'.heap = m.heap ∨ m'.heap = m.heap.addFrame.2 := by
  cases move_of_step hs with
  | blockEmpty => exact .inr rfl
  | completeRecord _ hf | recordField hf =>
    cases hf
    exact .inl rfl
  | _ => exact .inl rfl

end Machine

namespace Pass

/-- What the host finds at a moment: the machine as it stands there, or as the turn leaves it that
ends the pass, if only in an error. -/
inductive Finds : Moment → Machine → Prop where
  | stands {standing : Standing} {m : Machine} : Finds (standing, m) m
  | ends {answers : Answers} {control : Control} {m m' : Machine} {outcome : Outcome}
      (hs : m.step answers control = .stop outcome m') : Finds (.running control, m) m'

/-- A pass that the host looks at on its way: it reads global names whenever it likes. -/
inductive Watched (first : Moment) : List (String × Option Value) → Moment → Prop where
  | start : Watched first [] first
  | advance {looks : List (String × Option Value)} {before after : Moment}
      (h : Watched first looks before) (ha : Advances before after) : Watched first looks after
  | look {looks : List (String × Option Value)} {now : Moment} (name : String)
      (h : Watched first looks now) :
      Watched first (looks ++ [(name, now.2.globals.get? name)]) now

variable {captureTrace : Bool} {program : Program} {standing : Standing} {m found : Machine}
  {before after : Moment}

theorem Reaches.frames_pos (h : Reaches captureTrace program standing m) :
    1 ≤ m.heap.frames.size := by
  obtain ⟨parents, hm, _⟩ := h.sound
  have hglobal : parents[0]? = some none := (hm.heap.outermost 0).mpr rfl
  rw [← hm.heap.parents_size]
  exact (Array.getElem?_eq_some_iff.mp hglobal).1

/-- From one moment to the next nothing is lost that the host can see. -/
theorem Reaches.keeps (h : Reaches captureTrace program before.1 before.2)
    (ha : Advances before after) :
    before.2.heap.Retains after.2.heap ∧ before.2.heap.Fixes 1 after.2.heap := by
  cases ha with
  | turn hs => exact ⟨h.retains hs, (Machine.fixes_of_step hs).mono h.frames_pos⟩
  | stop hs ho =>
    obtain ⟨rfl, _⟩ := Machine.eq_of_stop hs ho
    exact ⟨.refl _, .refl _⟩
  | answer answer => exact ⟨.refl _, .of_eq rfl rfl⟩

theorem Reaches.keeps_later (h : Reaches captureTrace program before.1 before.2)
    (hl : Later before after) :
    before.2.heap.Retains after.2.heap ∧ before.2.heap.Fixes 1 after.2.heap := by
  induction hl with
  | refl => exact ⟨.refl _, .refl _⟩
  | tail hl ha ih =>
    obtain ⟨hr, hf⟩ := (h.later hl).keeps ha
    exact ⟨ih.1.trans hr, ih.2.trans hf⟩

theorem Finds.keeps (h : Finds after found) :
    after.2.heap.Retains found.heap ∧ after.2.heap.Fixes 1 found.heap := by
  cases h with
  | stands => exact ⟨.refl _, .refl _⟩
  | ends hs =>
    rcases Machine.heap_of_stop hs with he | he <;> rw [he]
    · exact ⟨.refl _, .refl _⟩
    · exact ⟨⟨fun _ _ => id, .refl _⟩, .addFrame _⟩

namespace Watched

variable {first now : Moment} {looks : List (String × Option Value)}

theorem later (h : Watched first looks now) : Later first now := by
  induction h with
  | start => exact .refl
  | advance _ ha ih => exact ih.tail ha
  | look _ _ ih => exact ih

theorem seen (h : Watched first looks now) : ∀ look ∈ looks, ∃ moment : Moment,
    Later first moment ∧ Later moment now ∧ look.2 = moment.2.globals.get? look.1 := by
  induction h with
  | start => nofun
  | advance _ ha ih =>
    intro look hl
    obtain ⟨moment, hfirst, hnow, hlook⟩ := ih look hl
    exact ⟨moment, hfirst, hnow.tail ha, hlook⟩
  | look name h ih =>
    intro look hl
    rcases List.mem_append.mp hl with hl | hl
    · exact ih look hl
    · obtain rfl := List.mem_singleton.mp hl
      exact ⟨_, h.later, .refl, rfl⟩

end Watched

variable (hd : ∀ part ∈ (Expr.block program.body).within, part.fieldNames.Nodup)
include hd

theorem Reaches.globals_extend (h : Reaches captureTrace program before.1 before.2)
    (hl : Later before after) (hf : Finds after found) :
    found.heap.frame Heap.globalFrame = before.2.heap.frame Heap.globalFrame ∧
      found.globals.names = before.2.globals.names ∧
      ∀ name v, before.2.globals.get? name = some v →
        ∃ w, found.globals.get? name = some w ∧ w.Extends v := by
  obtain ⟨parents, hm, _⟩ := h.sound
  obtain ⟨hretains, hfixes⟩ := h.keeps_later hl
  obtain ⟨hretains', hfixes'⟩ := hf.keeps
  have hfixed := hfixes.trans hfixes'
  refine ⟨hfixed.frame Heap.globalFrame Nat.one_pos, Globals.names_fixed hfixed, ?_⟩
  intro name v hv
  exact Globals.get?_extends hm.heap (hretains.trans hretains') hfixed (h.nodup_fieldNames hd) hv

theorem Watched.pairwise {looks : List (String × Option Value)}
    (h : Reaches captureTrace program before.1 before.2) (hw : Watched before looks after) :
    looks.Pairwise fun look next => look.1 = next.1 → ∀ v, look.2 = some v →
      ∃ w, next.2 = some w ∧ w.Extends v := by
  induction hw with
  | start => exact .nil
  | advance _ _ ih => exact ih
  | look name hw ih =>
    refine List.pairwise_append.mpr ⟨ih, List.pairwise_singleton _ _, fun look hm next hn => ?_⟩
    obtain rfl := List.mem_singleton.mp hn
    rintro rfl v hv
    obtain ⟨moment, hfirst, hnow, hlook⟩ := hw.seen look hm
    obtain ⟨_, _, hgain⟩ := (h.later hfirst).globals_extend hd hnow .stands
    exact hgain _ _ (hlook ▸ hv)

/-- If no literal of a program repeats the name of a field, the global frame only gains information
in a pass, whatever is answered on the way. At any later moment it is the same frame with the same
names, and a name that could be read is read with a value that has all that the earlier one had,
also where a turn ends the pass in an error. A pass that is looked at on its way is as one that is
not, so this goes for what the host read itself. -/
theorem Reaches.globals_gain (h : Reaches captureTrace program standing m) :
    (∀ after found, Later (standing, m) after → Finds after found →
      found.heap.frame Heap.globalFrame = m.heap.frame Heap.globalFrame ∧
      found.globals.names = m.globals.names ∧
      ∀ name v, m.globals.get? name = some v →
        ∃ w, found.globals.get? name = some w ∧ w.Extends v) ∧
    ∀ looks after, Watched (standing, m) looks after → Later (standing, m) after ∧
      looks.Pairwise fun look next => look.1 = next.1 → ∀ v, look.2 = some v →
        ∃ w, next.2 = some w ∧ w.Extends v := by
  refine ⟨fun after found hl hf => ?_, fun looks after hw => ?_⟩
  · exact h.globals_extend hd hl hf
  · exact ⟨hw.later, hw.pairwise hd h⟩

omit hd

def estimate : Program := ⟨[
  .bind ⟨0, "unit"⟩ (.record [.mk "price" ⟨1, "price"⟩ (.number 5),
    .mk "weight" ⟨2, "weight"⟩ (.number 2)]),
  .expr (.binary .add (.access (.name ⟨0, "unit"⟩) "price")
    (.binary .mul (.input ⟨"units", .number, ""⟩) (.access (.name ⟨0, "unit"⟩) "weight")))]⟩

theorem globals_gain_estimate :
    let config : Config := ⟨50, true, false⟩
    let units : Question := ⟨"units", .number, ""⟩
    let parked := start config estimate .empty
    let pass := parked.resume config (.number 3) (Answers.empty.insert "units" (.number 3))
    let priced : Value := .record (.cons "price" (.number 5) .nil)
    let weighed : Value := .record (.cons "price" (.number 5) (.cons "weight" (.number 2) .nil))
    Later (.parked units, parked.machine) (.finished (.number 11), pass.machine) ∧
      parked.machine.globals.get? "unit" = some priced ∧
      pass.machine.globals.get? "unit" = some weighed ∧ weighed.Extends priced ∧
      pass.machine.globals.names = parked.machine.globals.names := by
  intro config units parked pass priced weighed
  have hd : ∀ part ∈ (Expr.block estimate.body).within, part.fieldNames.Nodup := by decide
  have hparked : parked.outcome = .parked units := by decide
  have hdone : pass.outcome = .finished (.number 11) := by decide
  have hpriced : parked.machine.globals.get? "unit" = some priced := by decide
  have hweighed : pass.machine.globals.get? "unit" = some weighed := by decide
  have hl : Later (.parked units, parked.machine) (.finished (.number 11), pass.machine) :=
    later_resume hparked (congrArg Outcome.standing? hdone)
  have hreaches : Reaches true estimate (.parked units) parked.machine :=
    (reached_start config estimate .empty).parked hparked
  obtain ⟨_, hnames, hgain⟩ := (hreaches.globals_gain hd).1 _ _ hl .stands
  obtain ⟨w, hw, hextends⟩ := hgain "unit" priced hpriced
  cases hw.symm.trans hweighed
  exact ⟨hl, hpriced, hweighed, hextends, hnames⟩

end Pass

end Inquiry
