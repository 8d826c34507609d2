import Inquiry.Proofs.ByName.World
import Inquiry.Proofs.Heap.Reading
set_option autoImplicit false

/-!
What new parts of a heap stand for. Opening a block, a call or a record takes a new frame and puts
off one expression after the other; when all names are there, the frame stands for the environment
of what was opened.
-/

namespace Inquiry

theorem getElem?_concat_of_some {α : Type} {as : List α} {a : α} (b : α) {i : Nat}
    (h : as[i]? = some a) : (as ++ [b])[i]? = some a := by
  grind

theorem getElem?_concat_eq_some {α : Type} {as : List α} {a b : α} {i : Nat}
    (h : (as ++ [b])[i]? = some a) : as[i]? = some a ∧ i < as.length ∨ i = as.length ∧ a = b := by
  grind

namespace Heap

variable {h : Heap}

theorem evolves_addFrame : h.Evolves h.addFrame.2 :=
  ⟨fun _ _ hd => hd, fun _ hf => hf, fun _ _ hr => hr, fun _ _ hc => hc⟩

theorem evolves_declare (frame : FrameId) (slot : Slot) (binding : Binding) :
    h.Evolves (h.declare frame slot binding) :=
  ⟨fun _ _ hd => hd, fun _ hf => hf, fun _ _ hr => hr, fun _ _ hc => hc⟩

theorem evolves_delay (label : String) (e : Expr) (scope : Scope) :
    h.Evolves (h.delay label e scope).2 where
  forced id d hd := by
    rw [thunk_delay]
    split
    · rename_i hi
      have hn : h.thunk id = default := by simp [thunk, hi]
      rw [hn] at hd
      cases hd
    · exact hd
  forcing id hf := by
    rw [thunk_delay] at hf
    split at hf
    · cases hf
    · exact hf
  records _ _ hr := hr
  closures _ _ hc := hc

theorem evolves_addClosure (closure : Closure) : h.Evolves (h.addClosure closure).2 where
  forced _ _ hd := hd
  forcing _ hf := hf
  records _ _ hr := hr
  closures i c hc := by
    simp only [addClosure, Array.getElem?_push]
    grind

theorem evolves_addRecord (fields : List (String × ThunkId)) :
    h.Evolves (h.addRecord fields).2 where
  forced _ _ hd := hd
  forcing _ hf := hf
  records i r hr := by
    simp only [addRecord, Array.getElem?_push]
    grind
  closures _ _ hc := hc

end Heap

namespace ByName

namespace World

variable (w : World)

theorem grows_frame (env : Env) : w.Grows { w with frames := w.frames ++ [env] } :=
  ⟨fun _ _ h => getElem?_concat_of_some env h, fun _ _ h => h, fun _ _ h => h, fun _ _ h => h⟩

theorem grows_thunk (thunk : Expr × Env) : w.Grows { w with thunks := w.thunks ++ [thunk] } :=
  ⟨fun _ _ h => h, fun _ _ h => getElem?_concat_of_some thunk h, fun _ _ h => h, fun _ _ h => h⟩

theorem grows_record (form : Form) : w.Grows { w with records := w.records ++ [form] } :=
  ⟨fun _ _ h => h, fun _ _ h => h, fun _ _ h => getElem?_concat_of_some form h, fun _ _ h => h⟩

theorem grows_closure (form : Form) : w.Grows { w with closures := w.closures ++ [form] } :=
  ⟨fun _ _ h => h, fun _ _ h => h, fun _ _ h => h, fun _ _ h => getElem?_concat_of_some form h⟩

end World

variable {answers : Answers} {goals : Goal → Prop} {w w' : World} {h h' : Heap}

namespace Backs

theorem addFrame (hb : Backs answers goals w h) (env : Env) :
    Backs answers goals { w with frames := w.frames ++ [env] } h.addFrame.2 where
  thunks_size := hb.thunks_size
  records_size := hb.records_size
  closures_size := hb.closures_size
  thunk ht := (hb.thunk ht).mono (w.grows_frame env)
  record hr := hb.record hr
  closure hc :=
    let ⟨scope, heq, hr⟩ := hb.closure hc
    ⟨scope, heq, hr.mono (w.grows_frame env)⟩

theorem declare (hb : Backs answers goals w h) (frame : FrameId) (slot : Slot)
    (binding : Binding) : Backs answers goals w (h.declare frame slot binding) :=
  ⟨hb.thunks_size, hb.records_size, hb.closures_size, hb.thunk, hb.record, hb.closure⟩

theorem delay (hb : Backs answers goals w h) (label : String) (e : Expr) {scope : Scope}
    {env : Env} (hs : w.Reads scope env) :
    Backs answers goals { w with thunks := w.thunks ++ [(e, env)] } (h.delay label e scope).2 where
  thunks_size := by simp [Heap.delay, hb.thunks_size]
  records_size := hb.records_size
  closures_size := hb.closures_size
  thunk ht := by
    rw [Heap.thunk_delay]
    rcases getElem?_concat_eq_some ht with ⟨ht, hi⟩ | ⟨hi, heq⟩
    · rw [if_neg (by have := hb.thunks_size; omega)]
      exact (hb.thunk ht).mono (w.grows_thunk _)
    · rw [if_pos (hi.trans hb.thunks_size)]
      cases heq
      refine ⟨rfl, hs.mono (w.grows_thunk _), ?_, ?_⟩
      · intro d hd
        contradiction
      · intro hf
        contradiction
  record hr := (hb.record hr).mono (w.grows_thunk _)
  closure hc :=
    let ⟨scope, heq, hr⟩ := hb.closure hc
    ⟨scope, heq, hr.mono (w.grows_thunk _)⟩

theorem addRecord (hb : Backs answers goals w h) {fields : List Field} {env : Env}
    {entries : List (String × ThunkId)} (hf : w.Holds (.record fields env) entries fields) :
    Backs answers goals { w with records := w.records ++ [.record fields env] }
      (h.addRecord entries).2 where
  thunks_size := hb.thunks_size
  records_size := by simp [Heap.addRecord, hb.records_size]
  closures_size := hb.closures_size
  thunk ht := (hb.thunk ht).mono (w.grows_record _)
  record hr := by
    rw [Heap.record_push]
    rcases getElem?_concat_eq_some hr with ⟨hr, hi⟩ | ⟨hi, heq⟩
    · rw [if_neg (by have := hb.records_size; omega)]
      exact hb.record hr
    · rw [if_pos (hi.trans hb.records_size)]
      cases heq
      exact hf
  closure hc :=
    let ⟨scope, heq, hr⟩ := hb.closure hc
    ⟨scope, heq, hr.mono (w.grows_record _)⟩

theorem addClosure (hb : Backs answers goals w h) {scope : Scope} {env : Env}
    (hs : w.Reads scope env) (name : Option String) (params : List Slot) (body : Expr) :
    Backs answers goals { w with closures := w.closures ++ [.closure name params body env] }
      (h.addClosure ⟨name, params, body, scope⟩).2 where
  thunks_size := hb.thunks_size
  records_size := hb.records_size
  closures_size := by simp [Heap.addClosure, hb.closures_size]
  thunk ht := (hb.thunk ht).mono (w.grows_closure _)
  record hr := hb.record hr
  closure hc := by
    rw [Heap.closure_push]
    rcases getElem?_concat_eq_some hc with ⟨hc, hi⟩ | ⟨hi, heq⟩
    · rw [if_neg (by have := hb.closures_size; omega)]
      obtain ⟨scope, heq, hr⟩ := hb.closure hc
      exact ⟨scope, heq, hr.mono (w.grows_closure _)⟩
    · rw [if_pos (hi.trans hb.closures_size)]
      cases heq
      exact ⟨scope, rfl, hs.mono (w.grows_closure _)⟩

end Backs

/-- The heap goes on to one in which `frame` has these bindings besides those it had. -/
structure Fills (answers : Answers) (goals : Goal → Prop) (frame : FrameId)
    (entries : List (Slot × Expr)) (home : Env) (w : World) (h : Heap) (w' : World) (h' : Heap) :
    Prop where
  grows : w.Grows w'
  evolves : h.Evolves h'
  backs : Backs answers goals w' h'
  frames : w'.frames = w.frames
  size : h'.frames.size = h.frames.size
  other : ∀ id, id ≠ frame → h'.frame id = h.frame id
  lookup : ∀ own : Slot → Option (Expr × Env),
    (∀ slot, w.Bound ((h.frame frame).lookup slot) (own slot)) → ∀ slot,
      w'.Bound ((h'.frame frame).lookup slot)
        (((bound? slot entries).map fun e => (e, home)).or (own slot))

namespace Fills

variable {frame : FrameId} {home : Env}

theorem nil (hb : Backs answers goals w h) : Fills answers goals frame [] home w h w h where
  grows := .refl w
  evolves := .refl h
  backs := hb
  frames := rfl
  size := rfl
  other _ _ := rfl
  lookup _ ho := ho

theorem cons {entry : Slot × Expr} {entries : List (Slot × Expr)} {w'' : World} {h'' : Heap}
    (hl : Fills answers goals frame [entry] home w h w' h')
    (hr : Fills answers goals frame entries home w' h' w'' h'') :
    Fills answers goals frame (entry :: entries) home w h w'' h'' where
  grows := hl.grows.trans hr.grows
  evolves := hl.evolves.trans hr.evolves
  backs := hr.backs
  frames := hr.frames.trans hl.frames
  size := hr.size.trans hl.size
  other id hi := (hr.other id hi).trans (hl.other id hi)
  lookup own ho slot := by
    have h := hr.lookup _ (hl.lookup own ho) slot
    rw [← Option.or_assoc, ← Option.map_or] at h
    exact h

theorem declare (slot : Slot) {e : Expr} {binding : Binding} (hg : w.Grows w')
    (he : h.Evolves h') (hb : Backs answers goals w' h') (hw : w'.frames = w.frames)
    (hh : h'.frames = h.frames) (hf : frame.index < h.frames.size)
    (hs : w'.Bound (some binding) (some (e, home))) :
    Fills answers goals frame [(slot, e)] home w h w' (h'.declare frame slot binding) where
  grows := hg
  evolves := he.trans (Heap.evolves_declare frame slot binding)
  backs := hb.declare frame slot binding
  frames := hw
  size := by simp [Heap.declare, hh]
  other id hi := by
    rw [Heap.frame_declare, if_neg (by simp [hi])]
    simp only [Heap.frame, hh]
  lookup own ho other := by
    have hframe : h'.frame frame = h.frame frame := by simp only [Heap.frame, hh]
    rw [Heap.frame_declare, if_pos ⟨rfl, by rw [hh]; exact hf⟩, Frame.lookup_declare, hframe]
    by_cases hi : slot.id = other.id
    · simpa [bound?, hi] using hs
    · simpa [bound?, hi, Ne.symm hi] using (ho other).mono hg

theorem declareDelayed (hb : Backs answers goals w h) (hf : frame.index < h.frames.size)
    {scope : Scope} (hs : w.Reads scope home) (slot : Slot) (label : String) (e : Expr) :
    Fills answers goals frame [(slot, e)] home w h { w with thunks := w.thunks ++ [(e, home)] }
      (h.declareDelayed frame slot label e scope).2 :=
  declare slot (w.grows_thunk _) (Heap.evolves_delay label e scope) (hb.delay label e hs) rfl rfl hf
    (.delayed (by simp [← hb.thunks_size]))

theorem bindAll (hb : Backs answers goals w h) (hf : frame.index < h.frames.size)
    {outer : Scope} (hs : w.Reads (frame :: outer) home) (body : List Stmt) :
    ∃ w', Fills answers goals frame (Env.block body .nil).entries home w h w'
      (h.bindAll frame outer body) := by
  induction body generalizing w h with
  | nil => exact ⟨w, .nil hb⟩
  | cons stmt rest ih =>
    cases stmt with
    | expr e => exact ih hb hf hs
    | bind slot value =>
      have hput := declareDelayed hb hf hs slot slot.name value
      have hdelayed := ih hput.backs (by rw [hput.size]; exact hf) (hs.mono hput.grows)
      cases value with
      | function name params body =>
        have hnew : (w.closures ++ [.closure name params body home])[
            (ClosureId.mk h.closures.size).index]? = some (.closure name params body home) := by
          simp [← hb.closures_size]
        have hfirst := declare slot (w.grows_closure _) (Heap.evolves_addClosure _)
          (hb.addClosure hs name params body) rfl rfl hf (.function hnew)
        obtain ⟨w', hrest⟩ := ih hfirst.backs (by rw [hfirst.size]; exact hf)
          (hs.mono hfirst.grows)
        exact ⟨w', hfirst.cons hrest⟩
      | _ =>
        obtain ⟨w', hrest⟩ := hdelayed
        exact ⟨w', hput.cons hrest⟩

theorem bindFields (hb : Backs answers goals w h) (hf : frame.index < h.frames.size)
    {outer : Scope} (hs : w.Reads (frame :: outer) home) (fields : List Field) :
    ∃ w', Fills answers goals frame (Env.record fields .nil).entries home w h w'
        (h.bindFields frame outer fields).2 ∧
      w'.Holds home (h.bindFields frame outer fields).1 fields := by
  induction fields generalizing w h with
  | nil => exact ⟨w, .nil hb, .nil⟩
  | cons field rest ih =>
    obtain ⟨name, slot, value⟩ := field
    have hfirst := declareDelayed hb hf hs slot name value
    obtain ⟨w', hrest, hh⟩ := ih hfirst.backs (by rw [hfirst.size]; exact hf)
      (hs.mono hfirst.grows)
    refine ⟨w', hfirst.cons hrest, .cons ⟨rfl, hrest.grows.thunks _ _ ?_⟩ hh⟩
    simp [← hb.thunks_size, Field.value]

theorem bindParams (hb : Backs answers goals w h) (hf : frame.index < h.frames.size)
    {caller : Scope} (hs : w.Reads caller home) (params : List Slot) (args : List Expr) :
    ∃ w', Fills answers goals frame (params.zip args) home w h w'
      (h.bindParams frame caller params args) := by
  induction params generalizing w h args with
  | nil => exact ⟨w, .nil hb⟩
  | cons param params ih =>
    cases args with
    | nil => exact ⟨w, .nil hb⟩
    | cons arg args =>
      have hfirst := declareDelayed hb hf hs param param.name arg
      obtain ⟨w', hrest⟩ := ih hfirst.backs (by rw [hfirst.size]; exact hf)
        (hs.mono hfirst.grows) args
      exact ⟨w', hfirst.cons hrest⟩

end Fills

structure Becomes (answers : Answers) (goals : Goal → Prop) (w : World) (h : Heap) (w' : World)
    (h' : Heap) : Prop where
  grows : w.Grows w'
  evolves : h.Evolves h'
  models : Models answers goals w' h'

theorem Becomes.trans {w'' : World} {h'' : Heap} (hl : Becomes answers goals w h w' h')
    (hr : Becomes answers goals w' h' w'' h'') : Becomes answers goals w h w'' h'' where
  grows := hl.grows.trans hr.grows
  evolves := hl.evolves.trans hr.evolves
  models := hr.models

namespace Models

/-- A frame that is filled with the bindings of an environment stands for it. -/
theorem enter (hm : Models answers goals w h) (env : Env)
    (hf : Fills answers goals ⟨h.frames.size⟩ env.entries env.home
      { w with frames := w.frames ++ [env] } h.addFrame.2 w' h') :
    Becomes answers goals w h w' h' where
  grows := (w.grows_frame env).trans hf.grows
  evolves := Heap.evolves_addFrame.trans hf.evolves
  models := {
    toBacks := hf.backs
    frames_size := by simp [hf.frames, hf.size, Heap.addFrame, hm.frames_size]
    frame := fun {id env'} hi slot => by
      rw [hf.frames] at hi
      rcases getElem?_concat_eq_some hi with ⟨hold, hlt⟩ | ⟨hnew, rfl⟩
      · have hne : id ≠ ⟨h.frames.size⟩ := by
          rintro rfl
          rw [hm.frames_size] at hlt
          exact Nat.lt_irrefl _ hlt
        rw [hf.other id hne, Heap.frame_addFrame]
        exact (hm.frame hold slot).mono ((w.grows_frame env).trans hf.grows)
      · obtain rfl : id = ⟨h.frames.size⟩ := by
          obtain ⟨i⟩ := id
          exact congrArg FrameId.mk (hnew.trans hm.frames_size)
        have hempty : h.addFrame.2.frame ⟨h.frames.size⟩ = [] := h.frame_addFrame_new
        have hb := hf.lookup (fun _ => none) (fun slot => by rw [hempty]; exact .none) slot
        rw [Option.or_none] at hb
        exact hb }

variable {scope : Scope} {env : Env}

theorem reads_new (hm : Models answers goals w h) {env : Env} (hn : env ≠ .nil)
    (hs : w.Reads scope env.outer) :
    World.Reads { w with frames := w.frames ++ [env] } (⟨h.frames.size⟩ :: scope) env :=
  .cons (by simp [← hm.frames_size]) hn (hs.mono (w.grows_frame env))

theorem openBlock (hm : Models answers goals w h) (hs : w.Reads scope env) (body : List Stmt) :
    ∃ w', Becomes answers goals w h w' (h.openBlock scope body).2 ∧
      w'.Reads (h.openBlock scope body).1 (.block body env) := by
  have hnew : World.Reads { w with frames := w.frames ++ [.block body env] } _ _ :=
    hm.reads_new (by simp) hs
  obtain ⟨w', hf⟩ := Fills.bindAll (hm.toBacks.addFrame (.block body env))
    (by simp [Heap.addFrame]) hnew body
  exact ⟨w', hm.enter (.block body env) hf, hnew.mono hf.grows⟩

theorem openCall (hm : Models answers goals w h) (closure : Closure) {caller : Scope}
    {outer : Env} (hs : w.Reads closure.scope outer) (hc : w.Reads caller env)
    (args : List Expr) :
    ∃ w', Becomes answers goals w h w' (h.openCall closure args caller).2 ∧
      w'.Reads (h.openCall closure args caller).1 (.call closure.params args env outer) := by
  have hnew : World.Reads
      { w with frames := w.frames ++ [.call closure.params args env outer] } _ _ :=
    hm.reads_new (by simp) hs
  have hsize : (FrameId.mk h.frames.size).index < h.addFrame.2.frames.size := by
    simp [Heap.addFrame]
  obtain ⟨w', hf⟩ := Fills.bindParams (hm.toBacks.addFrame (.call closure.params args env outer))
    hsize (hc.mono (w.grows_frame _)) closure.params args
  exact ⟨w', hm.enter (.call closure.params args env outer) hf, hnew.mono hf.grows⟩

theorem addClosure (hm : Models answers goals w h) (hs : w.Reads scope env)
    (name : Option String) (params : List Slot) (body : Expr) :
    ∃ w', Becomes answers goals w h w' (h.addClosure ⟨name, params, body, scope⟩).2 ∧
      w'.Stands (.closure (h.addClosure ⟨name, params, body, scope⟩).1)
        (.closure name params body env) := by
  refine ⟨_, ⟨w.grows_closure _, Heap.evolves_addClosure _,
    { toBacks := hm.toBacks.addClosure hs name params body
      frames_size := hm.frames_size
      frame := fun hi slot => (hm.frame hi slot).mono (w.grows_closure _) }⟩, .closure ?_⟩
  simp [Heap.addClosure, ← hm.closures_size]

theorem openRecord (hm : Models answers goals w h) (hs : w.Reads scope env)
    (fields : List Field) :
    ∃ w', Becomes answers goals w h w' (h.openRecord scope fields).2 ∧
      w'.Stands (.record (h.openRecord scope fields).1) (.record fields env) := by
  have hnew : World.Reads { w with frames := w.frames ++ [.record fields env] } _ _ :=
    hm.reads_new (by simp) hs
  obtain ⟨w', hf, hh⟩ := Fills.bindFields (hm.toBacks.addFrame (.record fields env))
    (by simp [Heap.addFrame]) hnew fields
  have hentered := hm.enter (.record fields env) hf
  refine ⟨_, hentered.trans ⟨w'.grows_record _, Heap.evolves_addRecord _,
    { toBacks := hentered.models.toBacks.addRecord hh
      frames_size := hentered.models.frames_size
      frame := fun hi slot => (hentered.models.frame hi slot).mono (w'.grows_record _) }⟩,
    .record ?_⟩
  have hr := hentered.models.records_size
  show (w'.records ++ [.record fields env])[
    (h.addFrame.2.bindFields h.addFrame.1 scope fields).2.records.size]? = _
  simp only [Heap.addFrame] at hr ⊢
  simp [← hr]

end Models

end ByName

end Inquiry
