import Inquiry.Proofs.Heap.References
import Inquiry.Proofs.Pass.Reach
set_option autoImplicit false

namespace Inquiry

def Task.Known (parents : Parents) (h : Heap) : Task → Prop
  | .binaryRight _ _ scope | .logicalRight _ _ scope | .branch _ _ scope | .callee _ scope =>
    scope.Nests parents
  | .binaryApply _ left => left.Known h
  | .memoize id => id.index < h.thunks.size
  | .recordField record _ => record.index < h.records.size
  | _ => True

def Control.Known (parents : Parents) (h : Heap) : Control → Prop
  | .eval _ scope => scope.Nests parents
  | .give d => d.Known h

def Standing.Known (parents : Parents) (h : Heap) : Standing → Prop
  | .running control => control.Known parents h
  | .parked _ => True
  | .finished d => d.Known h

structure Machine.Sound (parents : Parents) (m : Machine) : Prop where
  heap : m.heap.Sound parents
  stack : ∀ task ∈ m.stack, task.Known parents m.heap
  opened : ∀ record ∈ m.opened, record.index < m.heap.records.size

theorem Answer.datum_known (answer : Answer) (h : Heap) : answer.datum.Known h := by
  cases answer <;> trivial

theorem Task.Known.mono {parents more : Parents} {h later : Heap} {task : Task}
    (ht : task.Known parents h) (hp : parents.ExtendsTo more) (hg : h.Grows later) :
    task.Known more later := by
  cases task with
  | binaryRight | logicalRight | branch | callee => exact Scope.Nests.mono ht hp
  | binaryApply => exact Datum.Known.mono ht hg
  | memoize => exact Nat.lt_of_lt_of_le ht hg.thunks
  | recordField => exact Nat.lt_of_lt_of_le ht hg.records
  | _ => trivial

namespace Machine

variable {answers : Answers} {parents more : Parents} {m m' : Machine} {control next : Control}
  {task : Task}

theorem sound_push : (m.push task).Sound parents ↔ task.Known parents m.heap ∧ m.Sound parents := by
  constructor
  · rintro ⟨hheap, hstack, hopened⟩
    obtain ⟨htask, hrest⟩ := List.forall_mem_cons.mp hstack
    exact ⟨htask, hheap, hrest, hopened⟩
  · rintro ⟨htask, hheap, hrest, hopened⟩
    exact ⟨hheap, List.forall_mem_cons.mpr ⟨htask, hrest⟩, hopened⟩

namespace Sound

theorem write (hm : m.Sound parents) (d : Datum) (rule : Summary → Rule) :
    (m.write d rule).Sound parents := ⟨hm.heap, hm.stack, hm.opened⟩

theorem withHeap {heap : Heap} (hm : m.Sound parents) (hp : parents.ExtendsTo more)
    (hg : m.heap.Grows heap) (hh : heap.Sound more) : (m.withHeap heap).Sound more :=
  ⟨hh, fun task ht => (hm.stack task ht).mono hp hg,
    fun record hr => Nat.lt_of_lt_of_le (hm.opened record hr) hg.records⟩

theorem setState {id : ThunkId} {state : ThunkState} (hm : m.Sound parents)
    (hk : state.Known m.heap) : (m.withHeap (m.heap.setState id state)).Sound parents :=
  hm.withHeap (.refl parents) (.setState m.heap id state) (hm.heap.setState hk)

theorem enter {id : ThunkId} (hm : m.Sound parents) (hi : id.index < m.heap.thunks.size)
    (ht : task.Known parents m.heap) :
    (m.enter id task).Sound parents ∧ (m.heap.thunk id).scope.Nests parents := by
  have hg := Heap.Grows.setState m.heap id .forcing
  refine ⟨sound_push.mpr ⟨Nat.lt_of_lt_of_le hi hg.thunks, sound_push.mpr ⟨?_, ?_⟩⟩, ?_⟩
  · exact ht.mono (.refl parents) hg
  · exact hm.setState trivial
  · exact (hm.heap.thunk _ (Heap.thunk_mem hi)).1

theorem openResult {record : RecordId} (hm : m.Sound parents)
    (hr : record.index < m.heap.records.size) : (m.openResult record).Sound parents :=
  ⟨hm.heap, hm.stack, List.forall_mem_cons.mpr ⟨hr, hm.opened⟩⟩

theorem fieldMove {record : RecordId} {i : Nat} (hm : m.Sound parents)
    (hr : record.index < m.heap.records.size) (hf : FieldMove record i m (.next next m')) :
    m'.Sound parents ∧ next.Known parents m'.heap := by
  have hfield : (m.push (.recordField record i)).Sound parents := sound_push.mpr ⟨hr, hm⟩
  cases hf with
  | ready hf hs =>
    have hi := hm.heap.field hr (List.mem_of_getElem? hf)
    have hcomplete : ((m.push (.recordField record i)).push .complete).Sound parents :=
      sound_push.mpr ⟨trivial, hfield⟩
    exact ⟨hcomplete.write _ _, hm.heap.forced hi hs⟩
  | start hf hs =>
    have hi := hm.heap.field hr (List.mem_of_getElem? hf)
    exact hfield.enter hi trivial
  | close hf =>
    have hclosed : m.closeResult.Sound parents :=
      ⟨hm.heap, hm.stack, fun other ho => hm.opened other (List.mem_of_mem_drop ho)⟩
    exact ⟨hclosed.write _ _, hr⟩

theorem step (hm : m.Sound parents) (hc : control.Known parents m.heap)
    (hs : m.step answers control = .next next m') :
    ∃ more, m'.Sound more ∧ next.Known more m'.heap := by
  cases move_of_step hs with
  | number | boolean => exact ⟨parents, hm.write _ _, trivial⟩
  | @answered _ _ _ answer => exact ⟨parents, hm.write _ _, answer.datum_known _⟩
  | record ho =>
    obtain ⟨more, hp, hg, hh, hi⟩ := Heap.openRecord_sound ho hm.heap hc
    exact ⟨more, (hm.withHeap hp hg hh).write _ _, hi⟩
  | @function m scope name params body id heap ho =>
    have hh : (m.heap.addClosure ⟨name, params, body, scope⟩).2.Sound parents :=
      hm.heap.addClosure hc
    have hg := Heap.Grows.addClosure m.heap ⟨name, params, body, scope⟩
    have hi : (m.heap.addClosure ⟨name, params, body, scope⟩).1.index <
        (m.heap.addClosure ⟨name, params, body, scope⟩).2.closures.size := by
      simp [Heap.addClosure]
    rw [ho] at hh hg hi
    exact ⟨parents, (hm.withHeap (.refl parents) hg hh).write _ _, hi⟩
  | nameBound hl => exact ⟨parents, hm.write _ _, hm.heap.lookup hl⟩
  | nameReady hl hf => exact ⟨parents, hm.write _ _, hm.heap.forced (hm.heap.lookup hl) hf⟩
  | nameStart hl => exact ⟨parents, hm.enter (hm.heap.lookup hl) trivial⟩
  | binary | logical | conditional | call => exact ⟨parents, sound_push.mpr ⟨hc, hm⟩, hc⟩
  | unary | access => exact ⟨parents, sound_push.mpr ⟨trivial, hm⟩, hc⟩
  | block ho he =>
    obtain ⟨frame, rfl, hopens⟩ := Heap.openBlock_opens ho
    obtain ⟨more, hp, hg, hh, hinner⟩ := hopens.sound hm.heap hc (.inl rfl)
    exact ⟨more, sound_push.mpr ⟨trivial, hm.withHeap hp hg hh⟩, hinner⟩
  | blockOfNames _ ho =>
    obtain ⟨frame, rfl, hopens⟩ := Heap.openBlock_opens ho
    obtain ⟨more, hp, hg, hh, _⟩ := hopens.sound hm.heap hc (.inl rfl)
    exact ⟨more, (hm.withHeap hp hg hh).write _ _, trivial⟩
  | binaryRight =>
    obtain ⟨ht, hrest⟩ := sound_push.mp hm
    exact ⟨parents, sound_push.mpr ⟨hc, hrest⟩, ht⟩
  | logicalRight | branch =>
    obtain ⟨ht, hrest⟩ := sound_push.mp hm
    exact ⟨parents, sound_push.mpr ⟨trivial, hrest⟩, ht⟩
  | binaryApply hr =>
    obtain ⟨_, _, result, _, _, rfl⟩ := BinOp.apply_eq_ok hr
    exact ⟨parents, (sound_push.mp hm).2.write _ _, result.datum_known _⟩
  | unaryApply hr =>
    obtain ⟨_, result, _, rfl⟩ := UnaryOp.apply_eq_ok hr
    exact ⟨parents, (sound_push.mp hm).2.write _ _, result.datum_known _⟩
  | accessReady hr hf =>
    obtain ⟨_, hrest⟩ := sound_push.mp hm
    have hi := hrest.heap.field hc (Heap.mem_record_of_field? hr)
    exact ⟨parents, hrest.write _ _, hrest.heap.forced hi hf⟩
  | accessStart hf =>
    obtain ⟨_, hrest⟩ := sound_push.mp hm
    have hi := hrest.heap.field hc (Heap.mem_record_of_field? hf)
    exact ⟨parents, hrest.enter hi trivial⟩
  | @memoize m d id =>
    obtain ⟨_, hrest⟩ := sound_push.mp hm
    have hg := Heap.Grows.setState m.heap id (.forced d)
    exact ⟨parents, hrest.setState hc, hc.mono hg⟩
  | callee hn ho =>
    obtain ⟨ht, hrest⟩ := sound_push.mp hm
    have hclosure := hrest.heap.closure _ (Heap.closure_mem hc)
    obtain ⟨frame, rfl, hopens⟩ := Heap.openCall_opens ho
    obtain ⟨more, hp, hg, hh, hinner⟩ := hopens.sound hrest.heap hclosure (.inr ht)
    exact ⟨more, sound_push.mpr ⟨trivial, hrest.withHeap hp hg hh⟩, hinner⟩
  | completePlain => exact ⟨parents, (sound_push.mp hm).2, hc⟩
  | @completeRecord m record _ _ hf =>
    obtain ⟨_, hrest⟩ := sound_push.mp hm
    exact ⟨parents, (hrest.openResult hc).fieldMove hc hf⟩
  | recordField hf =>
    obtain ⟨ht, hrest⟩ := sound_push.mp hm
    exact ⟨parents, hrest.fieldMove ht hf⟩
  | _ => exact ⟨parents, (sound_push.mp hm).2.write _ _, hc⟩

end Sound

theorem sound_enterBlock {captureTrace : Bool} {body : List Stmt}
    (h : (initial captureTrace).enterBlock Heap.globalFrame [] body = (control, m)) :
    m.Sound #[none] ∧ control.Known #[none] m.heap := by
  have hglobal : Scope.Nests #[none] [Heap.globalFrame] := .outermost rfl
  have hh := (Heap.declares_bindAll Heap.initial Heap.globalFrame [] body).sound .initial hglobal
  obtain ⟨e, _, rfl, rfl⟩ | ⟨rfl, rfl⟩ := enterBlock_initial h
  · exact ⟨⟨hh, by simp [Task.Known], by simp⟩, hglobal⟩
  · exact ⟨⟨hh, by simp [Task.Known], by simp⟩, trivial⟩

end Machine

namespace Pass

variable {captureTrace : Bool} {program : Program} {standing : Standing} {m : Machine}

/-- Wherever a pass stands, every reference leads to something. -/
theorem Reaches.sound (h : Reaches captureTrace program standing m) :
    ∃ parents, m.Sound parents ∧ standing.Known parents m.heap := by
  induction h with
  | start _ hm => exact ⟨_, Machine.sound_enterBlock hm⟩
  | next _ hs ih =>
    obtain ⟨parents, hm, hc⟩ := ih
    exact hm.step hc hs
  | stop _ hs ho ih =>
    obtain ⟨parents, hm, hc⟩ := ih
    obtain ⟨rfl, hcases⟩ := Machine.eq_of_stop hs ho
    rcases hcases with ⟨question, scope, rfl, rfl⟩ | ⟨d, rfl, rfl, _⟩
    · exact ⟨parents, hm, trivial⟩
    · exact ⟨parents, hm, hc⟩
  | answer answer _ ih =>
    obtain ⟨parents, hm, _⟩ := ih
    exact ⟨parents, ⟨hm.heap, hm.stack, hm.opened⟩, answer.datum_known _⟩

end Pass

end Inquiry
