import Inquiry.Proofs.ByName.Evaluation
import Inquiry.Proofs.Heap.Settling
set_option autoImplicit false

/-!
Completing a result with a store and without one. A result that is completed shows the same value
from then on. A record that is met inside itself would have to be completed inside its own
completion, so without a store it has no finite value.
-/

namespace Inquiry

/-- All that is in the value is there, down to some depth, and no record is inside itself. -/
def Heap.Completed (h : Heap) : Nat → List RecordId → Datum → Value → Prop
  | _, _, .number n, v => v = .number n
  | _, _, .boolean b, v => v = .boolean b
  | _, _, .closure id, v =>
    ∃ closure, h.closures[id.index]? = some closure ∧ v = .function closure.name
  | _, _, .undefined, v => v = .undefined
  | 0, _, .record _, _ => False
  | depth + 1, opened, .record id, v =>
    id ∉ opened ∧ ∃ fields shown, h.records[id.index]? = some fields ∧
      v = .record (Fields.ofList shown) ∧
      List.Forall₂ (fun (field : String × ThunkId) (entry : String × Value) =>
        entry.1 = field.1 ∧ ∃ d, (h.thunk field.2).state = .forced d ∧
          h.Completed depth (id :: opened) d entry.2) fields shown

namespace Heap.Completed

variable {h later : Heap} {depth : Nat} {opened : List RecordId} {d : Datum} {v : Value}

theorem mono (he : h.Evolves later) (hc : h.Completed depth opened d v) :
    later.Completed depth opened d v := by
  induction depth generalizing opened d v with
  | zero =>
    cases d with
    | closure id =>
      obtain ⟨closure, hi, hv⟩ := hc
      exact ⟨closure, he.closures _ _ hi, hv⟩
    | _ => exact hc
  | succ depth ih =>
    cases d with
    | closure id =>
      obtain ⟨closure, hi, hv⟩ := hc
      exact ⟨closure, he.closures _ _ hi, hv⟩
    | record id =>
      obtain ⟨hn, fields, shown, hi, hv, hf⟩ := hc
      refine ⟨hn, fields, shown, he.records _ _ hi, hv, hf.imp fun field entry hfield => ?_⟩
      obtain ⟨hname, d, hd, hc⟩ := hfield
      exact ⟨hname, d, he.forced _ _ hd, ih hc⟩
    | _ => exact hc

theorem not_among (hc : h.Completed depth opened d v) : d.isAmong opened = false := by
  cases d with
  | record id =>
    cases depth with
    | zero => cases hc
    | succ depth => simpa [Datum.isAmong] using hc.1
  | _ => rfl

theorem reveal (hc : h.Completed depth opened d v) (hn : opened.Nodup)
    (hb : ∀ id ∈ opened, id.index < h.records.size) {look : Nat}
    (hl : h.records.size ≤ look + opened.length) : h.revealWithin look opened d = v := by
  induction depth generalizing opened d v look with
  | zero =>
    cases d with
    | record id => cases hc
    | closure id =>
      obtain ⟨closure, hi, rfl⟩ := hc
      simp [revealWithin, Heap.closure, hi]
    | _ =>
      cases hc
      simp [revealWithin]
  | succ depth ih =>
    cases d with
    | closure id =>
      obtain ⟨closure, hi, rfl⟩ := hc
      simp [revealWithin, Heap.closure, hi]
    | record id =>
      obtain ⟨hid, fields, shown, hi, rfl, hf⟩ := hc
      have hn' : (id :: opened).Nodup := List.nodup_cons.mpr ⟨hid, hn⟩
      have hb' : ∀ other ∈ id :: opened, other.index < h.records.size := by
        intro other ho
        rcases List.mem_cons.mp ho with rfl | ho
        · exact (Array.getElem?_eq_some_iff.mp hi).1
        · exact hb other ho
      have hlen : opened.length + 1 ≤ h.records.size := by
        simpa using RecordId.length_le_of_nodup hn' hb'
      obtain ⟨look, rfl⟩ : ∃ deeper, look = deeper + 1 := ⟨look - 1, by omega⟩
      have hr : h.record id = fields := by simp [Heap.record, hi]
      simp only [revealWithin, hr]
      congr 2
      clear hi hr
      induction hf with
      | nil => rfl
      | @cons field entry fields shown hfield _ ihf =>
        obtain ⟨hname, d, hd, hc⟩ := hfield
        have hdeep : h.records.size ≤ look + (id :: opened).length := by
          rw [List.length_cons]
          omega
        have hv := ih hc hn' hb' hdeep
        have hforced : h.forced? field.2 = some d := by simp [Heap.forced?, hd]
        simp only [List.filterMap_cons, hforced, hc.not_among, hv, ihf]
        rw [← hname]
        rfl
    | _ =>
      cases hc
      simp [revealWithin]

theorem reveal_eq (hc : h.Completed depth [] d v) : h.reveal d = v :=
  hc.reveal .nil nofun (by simp)

end Heap.Completed

namespace ByName

open ByNeed (Store)

variable {answers : Answers} {goals : Goal → Prop} {slack height : Nat} {w w' : World}
  {h h' : Heap} {s : Store}

theorem Matches.bind_right {α β δ : Type} {R : World → Heap → α → β → Prop}
    {R' : World → Heap → α → δ → Prop} {x : Option (Except Halt (α × Store))}
    {y : Nat → Evaluation β} {g : β → δ} (hx : Matches answers goals slack height R w h x y)
    (hr : ∀ a b w' h', Becomes answers goals w h w' h' → R w' h' a b → R' w' h' a (g b)) :
    Matches answers goals slack height R' w h x fun k => do
      let b ← y k
      return g b := by
  match x with
  | some (.ok (a, s)) =>
    obtain ⟨w', b, hb, hab, hy⟩ := hx
    exact ⟨w', g b, hb, hr a b w' s.heap hb hab, hy.bind (.const _)⟩
  | some (.error _) => exact Halts.imp hx (fun hn => hn.bind _) fun hs => hs.bind_error
  | none =>
    show (y height >>= fun b => pure (g b)) = none
    rw [bind_eq, show y height = none from hx]
    rfl

theorem complete_steady (answers : Answers) (form : Form) :
    Steady fun k => complete answers k form := fun k => .complete answers k form

theorem completeField_steady (answers : Answers) (inner : Env) (field : Field) :
    Steady fun k => completeField (evaluate answers k) (complete answers k) inner field :=
  fun k => .completeField (.evaluate answers k) (.complete answers k) inner field

theorem completeFields_steady (answers : Answers) (inner : Env) (fields : List Field) :
    Steady fun k =>
      fields.mapM (completeField (evaluate answers k) (complete answers k) inner) :=
  fun k => .mapM (completeField_steady answers inner · k) fields

/-- The records that are being completed are among the goals. -/
def Awaits (goals : Goal → Prop) (w : World) (opened : List RecordId) : Prop :=
  ∀ id ∈ opened, ∃ form, w.records[id.index]? = some form ∧ goals (.completion form)

theorem Awaits.mono {opened : List RecordId} (ho : Awaits goals w opened) (hw : w.Grows w') :
    Awaits goals w' opened := by
  intro id hid
  obtain ⟨form, hf, hg⟩ := ho id hid
  exact ⟨form, hw.records _ _ hf, hg⟩

def FieldShown (height : Nat) (opened : List RecordId) (h : Heap) (field : String × ThunkId)
    (entry : String × Value) : Prop :=
  entry.1 = field.1 ∧ ∃ d, (h.thunk field.2).state = .forced d ∧
    h.Completed height opened d entry.2

theorem FieldShown.mono {opened : List RecordId} {field : String × ThunkId}
    {entry : String × Value} (he : h.Evolves h') (hs : FieldShown height opened h field entry) :
    FieldShown height opened h' field entry := by
  obtain ⟨hname, d, hd, hc⟩ := hs
  exact ⟨hname, d, he.forced _ _ hd, hc.mono he⟩

/-- How a completion with a store is compared to one without, inside these records. -/
def CompletesAlike (answers : Answers) (goals : Goal → Prop) (height : Nat)
    (opened : List RecordId) : Prop :=
  ∀ (w : World) (s : Store) (field : String) (d : Datum) (form : Form),
    Models answers goals w s.heap → Awaits goals w opened → w.Stands d form →
    Matches answers goals 0 height (fun _ h _ v => h.Completed height opened d v) w s.heap
      (ByNeed.complete answers height opened field d s) fun k => complete answers k form

section Fields

variable {opened : List RecordId} {inner : Env}

theorem completeField_matches
    (ih : CompletesAlike answers goals height opened)
    (hm : Models answers goals w s.heap) (ho : Awaits goals w opened)
    {entry : String × ThunkId} {field : Field}
    (hf : entry.1 = field.name ∧ w.thunks[entry.2.index]? = some (field.value, inner)) :
    Matches answers goals 0 height (fun _ h _ shown => FieldShown height opened h entry shown)
      w s.heap
      (ByNeed.completeField (ByNeed.evaluate answers height)
        (ByNeed.complete answers height opened) entry s)
      fun k => completeField (evaluate answers k) (complete answers k) inner field := by
  refine .bind (evaluate_steady _ _ _) (force_matches (evaluate_agrees answers height) hm hf.2)
    fun found form w₁ s₁ h₁ hfound => ?_
  have hcomplete (s₂ : Store) (hs : s₂.heap = s₁.heap) :
      Matches answers goals 0 height (fun _ h _ shown => FieldShown height opened h entry shown)
        w₁ s₁.heap (ByNeed.complete answers height opened entry.1 found.1 s₂)
        fun k => do
          let v ← complete answers k form
          return (field.name, v) := by
    have hv := ih w₁ s₂ entry.1 found.1 form (hs ▸ h₁.models) (ho.mono h₁.grows) hfound.1
    rw [hs] at hv
    refine hv.bind_right fun _ v w₂ h₂ hb hc => ⟨hf.1.symm, found.1, ?_, hc⟩
    exact hb.evolves.forced _ _ hfound.2
  split
  · exact hcomplete s₁ rfl
  · rw [ByNeed.bind_apply]
    exact hcomplete _ rfl

theorem completeFields_match
    (ih : CompletesAlike answers goals height opened)
    (hm : Models answers goals w s.heap) (ho : Awaits goals w opened)
    {entries : List (String × ThunkId)} {fields : List Field}
    (hf : w.Holds inner entries fields) :
    Matches answers goals 0 height
      (fun _ h _ shown => List.Forall₂ (FieldShown height opened h) entries shown) w s.heap
      (entries.forM (ByNeed.completeField (ByNeed.evaluate answers height)
        (ByNeed.complete answers height opened)) s)
      fun k => fields.mapM (completeField (evaluate answers k) (complete answers k) inner) := by
  induction entries generalizing fields w s with
  | nil =>
    cases hf
    exact ⟨w, [], ⟨.refl w, .refl _, hm⟩, .nil, .const _⟩
  | cons entry entries ihf =>
    cases hf with
    | @cons _ field _ fields hfirst hrest =>
      simp only [List.mapM_cons]
      refine .bind (completeField_steady _ _ _) (completeField_matches ih hm ho hfirst)
        fun _ shown w₁ s₁ h₁ hshown => ?_
      have hnext := ihf h₁.models (ho.mono h₁.grows) (World.Holds.mono h₁.grows hrest)
      exact hnext.bind_right fun _ rest w₂ h₂ hb hr => .cons (hshown.mono hb.evolves) hr

end Fields

theorem Matches.restrict {α β : Type} {goals' : Goal → Prop}
    {R : World → Heap → α → β → Prop} {x : Option (Except Halt (α × Store))}
    {y y' : Nat → Evaluation β} {height' : Nat} (hm : Models answers goals w h)
    (hx : Matches answers goals' slack height R w h x y)
    (hn : Needs answers goals' slack y → Needs answers goals 0 y')
    (hs : ∀ r, Settles y r → Settles y' r) (hnone : y height = none → y' height' = none) :
    Matches answers goals 0 height' R w h x y' := by
  match x with
  | some (.ok (a, s)) =>
    obtain ⟨w', b, hb, hab, hy⟩ := hx
    exact ⟨w', b, ⟨hb.grows, hb.evolves, hm.restrict hb.grows hb.evolves hb.models⟩, hab, hs _ hy⟩
  | some (.error _) => exact Halts.imp hx hn (hs _)
  | none => exact hnone hx

theorem Models.goals_mono {goals' : Goal → Prop} (hg : ∀ goal, goals goal → goals' goal)
    (hm : Models answers goals w h) : Models answers goals' w h := by
  refine hm.with_thunks rfl fun ht => ?_
  have hs := hm.thunk ht
  exact ⟨hs.expr, hs.scope, hs.forced, fun hf => hg _ (hs.forcing hf)⟩

theorem Backs.record_get (hb : Backs answers goals w h) {id : RecordId} {form : Form}
    (hr : w.records[id.index]? = some form) : h.records[id.index]? = some (h.record id) := by
  have hi : id.index < h.records.size := by
    rw [← hb.records_size]
    exact (List.getElem?_eq_some_iff.mp hr).1
  simp [Heap.record, Array.getElem?_eq_getElem hi]

theorem Backs.closure_get (hb : Backs answers goals w h) {id : ClosureId} {form : Form}
    (hc : w.closures[id.index]? = some form) : h.closures[id.index]? = some (h.closure id) := by
  have hi : id.index < h.closures.size := by
    rw [← hb.closures_size]
    exact (List.getElem?_eq_some_iff.mp hc).1
  simp [Heap.closure, Array.getElem?_eq_getElem hi]

theorem complete_agrees (answers : Answers) (goals : Goal → Prop) (height : Nat)
    (opened : List RecordId) : CompletesAlike answers goals height opened := by
  induction height generalizing goals opened with
  | zero => exact fun _ _ _ _ _ _ _ _ => rfl
  | succ height ih =>
    intro w s field d form hm ho hd
    have hstart : Becomes answers goals w s.heap w s.heap := ⟨.refl w, .refl _, hm⟩
    cases hd with
    | number n => exact ⟨w, .number n, hstart, rfl, .of_succ (.const _)⟩
    | boolean b => exact ⟨w, .boolean b, hstart, rfl, .of_succ (.const _)⟩
    | undefined => exact ⟨w, .undefined, hstart, rfl, .of_succ (.const _)⟩
    | @closure id name params body env hc =>
      obtain ⟨scope, heq, _⟩ := hm.closure hc
      refine ⟨w, .function name, hstart, ⟨_, hm.closure_get hc, ?_⟩, .of_succ (.const _)⟩
      rw [heq]
    | @record id fields env hr =>
      simp only [ByNeed.complete]
      by_cases hid : opened.contains id = true
      · -- The record is inside itself: its completion is one of the goals.
        rw [if_pos hid]
        obtain ⟨form, hf, hg⟩ := ho id (List.contains_iff_mem.mp hid)
        rw [hr] at hf
        cases hf
        exact .inr ⟨_, hg, fun k hk => ⟨k, Nat.le_refl k, hk⟩⟩
      · rw [if_neg hid]
        have hnot : id ∉ opened := fun hmem => hid (List.contains_iff_mem.mpr hmem)
        -- While its fields are completed, its own completion is a goal too.
        let own : Goal := .completion (.record fields env)
        have hm' : Models answers (fun goal => goals goal ∨ goal = own) w s.heap :=
          hm.goals_mono fun _ => .inl
        have ho' : Awaits (fun goal => goals goal ∨ goal = own) w (id :: opened) := by
          intro other hother
          rcases List.mem_cons.mp hother with rfl | hother
          · exact ⟨_, hr, .inr rfl⟩
          · obtain ⟨form, hf, hg⟩ := ho other hother
            exact ⟨form, hf, .inl hg⟩
        have hfields := completeFields_match (ih _ (id :: opened)) hm' ho' (hm.record hr)
        refine Matches.restrict hm (.read (.bind (completeFields_steady _ _ _) hfields
          fun _ shown w₁ s₁ h₁ hshown => ?_)) (fun hn => ?_) (fun _ hs => hs.of_succ) fun hn => hn
        · exact ⟨w₁, _, ⟨.refl w₁, .refl _, h₁.models⟩,
            ⟨hnot, _, shown, h₁.evolves.records _ _ (hm.record_get hr), rfl, hshown⟩, .const _⟩
        · have hown : ∀ k, own.Ends answers k → complete answers k (.record fields env) ≠ none :=
            fun _ he => he
          exact .discharge hown (.of_succ rfl hn)

theorem models_empty : Models answers goals ⟨[], [], [], []⟩ ⟨#[], #[], #[], #[]⟩ where
  thunks_size := rfl
  records_size := rfl
  closures_size := rfl
  frames_size := rfl
  frame hf := by simp at hf
  thunk ht := by simp at ht
  record hr := by simp at hr
  closure hc := by simp at hc

theorem program_steady (answers : Answers) (program : Program) :
    Steady fun k => evaluateProgram answers k program := by
  intro k
  unfold evaluateProgram
  split
  · exact .refl _
  · exact (Below.evaluateBody (.evaluate answers k) _ _).bind (.complete answers k)

theorem body_steady (answers : Answers) (inner : Env) (body : List Stmt) :
    Steady fun k => evaluateBody (evaluate answers k) inner body :=
  fun k => .evaluateBody (.evaluate answers k) inner body

theorem Matches.settled {α β : Type} {R : World → Heap → α → β → Prop}
    {x : Option (Except Halt (α × Store))} {y : Nat → Evaluation β}
    (hx : Matches answers goals slack height R w h x y) :
    Matches answers goals slack height (fun w h a b => R w h a b ∧ Settles y (.ok b)) w h x y := by
  match x with
  | some (.ok (a, s)) =>
    obtain ⟨w', b, hb, hr, hy⟩ := hx
    exact ⟨w', b, hb, ⟨hr, hy⟩, hy⟩
  | some (.error _) => exact hx
  | none => exact hx

theorem completed_matches {env : Env} {scope : Scope} (height : Nat) (body : List Stmt)
    (hm : Models answers (fun _ => False) w s.heap) (hr : w.Reads scope env) :
    Matches answers (fun _ => False) 0 height
      (fun w h d v => h.Completed height [] d v ∧ ∃ form, w.Stands d form ∧
        Settles (fun k => evaluateBody (evaluate answers k) env body) (.ok form)) w s.heap
      ((do
        let d ← ByNeed.evaluateBody (ByNeed.evaluate answers height) scope body
        ByNeed.complete answers height [] "record" d
        return d : ByNeed.Evaluation Datum) s)
      (fun k => do
        let form ← evaluateBody (evaluate answers k) env body
        complete answers k form) := by
  refine .bind (body_steady _ _ _) (body_matches (evaluate_agrees answers height) hm hr _).settled
    fun d form w₁ s₁ h₁ hd => ?_
  refine .bind_left (complete_steady _ _)
    (complete_agrees answers _ height [] w₁ s₁ "record" d form h₁.models nofun hd.1)
    fun _ v w₂ s₂ h₂ hc => ?_
  exact ⟨w₂, v, ⟨.refl w₂, .refl _, h₂.models⟩, ⟨hc, form, hd.1.mono h₂.grows, hd.2⟩, .const _⟩

theorem models_start (answers : Answers) (body : List Stmt) :
    ∃ w, Models answers (fun _ => False) w (Heap.initial.bindAll Heap.globalFrame [] body) ∧
      w.Reads [Heap.globalFrame] (.block body .nil) := by
  have hempty : Models answers (fun _ => False) ⟨[], [], [], []⟩ ⟨#[], #[], #[], #[]⟩ :=
    models_empty
  obtain ⟨w, hw, hr⟩ := hempty.openBlock .nil body
  exact ⟨w, hw.models, hr⟩

/-- A program with a store, which at its end can show its value, and without one. -/
theorem program_matches (answers : Answers) (height : Nat) (program : Program)
    (captureTrace : Bool) :
    match ByNeed.evaluateProgram answers height program captureTrace with
    | some (.ok (d, s)) =>
      Settles (fun k => evaluateProgram answers k program) (.ok (s.heap.reveal d))
    | some (.error e) =>
      Halts answers (fun _ => False) 0 e fun k => evaluateProgram answers k program
    | none => evaluateProgram answers height program = none := by
  unfold ByNeed.evaluateProgram evaluateProgram
  by_cases hb : program.body.isEmpty = true
  · simp only [hb, if_true]
    exact .const _
  · simp only [hb, Bool.false_eq_true, if_false]
    obtain ⟨w, hm, hr⟩ := models_start answers program.body
    have hmatches := completed_matches (s := ⟨_, Tape.empty captureTrace⟩) height program.body hm hr
    split
    · rename_i d s hx
      rw [hx] at hmatches
      obtain ⟨w', v, _, ⟨hc, _⟩, hy⟩ := hmatches
      rw [hc.reveal_eq]
      exact hy
    · rename_i e hx
      rw [hx] at hmatches
      exact hmatches
    · rename_i hx
      rw [hx] at hmatches
      exact hmatches

end ByName

end Inquiry
