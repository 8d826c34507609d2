import Inquiry.Proofs.Pass.Transparency
import Inquiry.Proofs.Recasting.Expr
set_option autoImplicit false

/-!
Reading a field instead of completing the record. The expression of a field has the same value
whether all fields are evaluated one after the other or this one alone, so a program that ends in
one field of its result comes to what that field was shown with.
-/

namespace Inquiry

def Expr.fieldNames : Expr → List String
  | .record fields => fields.map Field.name
  | _ => []

theorem Field.find?_of_nodup {fields : List Field} {field : Field}
    (hn : (fields.map Field.name).Nodup) (hm : field ∈ fields) :
    (fields.find? fun other => other.name == field.name) = some field := by
  induction fields with
  | nil => cases hm
  | cons first rest ih =>
    obtain ⟨hfirst, hrest⟩ := List.nodup_cons.mp hn
    rcases List.mem_cons.mp hm with rfl | hm
    · simp
    · have hne : first.name ≠ field.name := fun he => hfirst (he ▸ List.mem_map_of_mem hm)
      simpa [hne] using ih hrest hm

namespace Heap

variable {h later : Heap}

theorem map_fst_bindFields (frame : FrameId) (outer : Scope) (fields : List Field) :
    (h.bindFields frame outer fields).1.map Prod.fst = fields.map Field.name := by
  induction fields generalizing h with
  | nil => rfl
  | cons field rest ih =>
    obtain ⟨name, slot, value⟩ := field
    exact congrArg (name :: ·) ih

theorem fieldNames_openRecord {scope : Scope} {fields : List Field} {id : RecordId}
    (ho : h.openRecord scope fields = (id, later)) (other : RecordId) :
    later.fieldNames other = h.fieldNames other ∨
      later.fieldNames other = fields.map Field.name := by
  let named := h.addFrame.2.bindFields h.addFrame.1 scope fields
  have hlater : later = (named.2.addRecord named.1).2 := (congrArg Prod.snd ho).symm
  have hrecords : named.2.records = h.records := (declares_bindFields _ _ _ _).records_eq
  rw [hlater, fieldNames, record_push]
  split
  · exact .inr (map_fst_bindFields _ _ _)
  · exact .inl (by simp only [fieldNames, record, hrecords])

theorem eq_undefined_of_reveal {d : Datum} (hr : h.reveal d = .undefined) : d = .undefined := by
  unfold reveal at hr
  generalize h.records.size = look at hr
  cases d <;> cases look <;> simp [revealWithin] at hr ⊢

theorem bindAll_replace (h : Heap) (frame : FrameId) (outer : Scope) (e e' : Expr)
    (before after : List Stmt) :
    h.bindAll frame outer (before ++ .expr e :: after) =
      h.bindAll frame outer (before ++ .expr e' :: after) := by
  induction before generalizing h with
  | nil => rfl
  | cons stmt rest ih =>
    cases stmt with
    | expr => exact ih h
    | bind slot value => cases value <;> exact ih _

end Heap

theorem Stmt.lastExpr?_append {before after : List Stmt} (e : Expr)
    (ha : lastExpr? after = none) : lastExpr? (before ++ .expr e :: after) = some e := by
  induction before with
  | nil => simp [lastExpr?, ha]
  | cons stmt rest ih => cases stmt <;> simp [lastExpr?, ih]

namespace Machine

variable {answers : Answers} {m m' : Machine} {control next : Control}

theorem fieldNames_of_step (hs : m.step answers control = .next next m') (id : RecordId) :
    m'.heap.fieldNames id = m.heap.fieldNames id ∨
      ∃ fields scope, control = .eval (.record fields) scope ∧
        m'.heap.fieldNames id = fields.map Field.name := by
  have hkept {later : Heap} (hr : later.records = m.heap.records) :
      later.fieldNames id = m.heap.fieldNames id := by
    simp only [Heap.fieldNames, Heap.record, hr]
  cases move_of_step hs with
  | record ho => exact (Heap.fieldNames_openRecord ho id).imp_right fun hn => ⟨_, _, rfl, hn⟩
  | function ho =>
    cases ho
    exact .inl rfl
  | block ho | blockOfNames _ ho =>
    obtain ⟨_, _, hopens⟩ := Heap.openBlock_opens ho
    exact .inl (hkept hopens.declares.records_eq)
  | callee _ ho =>
    obtain ⟨_, _, hopens⟩ := Heap.openCall_opens ho
    exact .inl (hkept hopens.declares.records_eq)
  | completeRecord _ hf | recordField hf => cases hf <;> exact .inl rfl
  | _ => exact .inl rfl

end Machine

namespace ByName

variable {answers : Answers} {α β : Type}

theorem Steady.settles {y : Nat → Evaluation α} (hy : Steady y) {k : Nat} {r : Except Halt α}
    (h : y k = some r) : Settles y r := ⟨k, fun _ hn => hy.of_le hn h⟩

theorem Settles.unique {y : Nat → Evaluation α} {r r' : Except Halt α} (h : Settles y r)
    (h' : Settles y r') : r = r' := by
  obtain ⟨n, hn⟩ := h
  obtain ⟨n', hn'⟩ := h'
  have heq := (hn _ (Nat.le_max_left n n')).symm.trans (hn' _ (Nat.le_max_right n n'))
  exact Option.some.inj heq

theorem bind_eq_ok {x : Evaluation α} {f : α → Evaluation β} {b : β}
    (h : (x >>= f) = some (.ok b)) : ∃ a, x = some (.ok a) ∧ f a = some (.ok b) := by
  rw [bind_eq] at h
  match x with
  | some (.ok a) => exact ⟨a, rfl, h⟩
  | some (.error _) => cases h
  | none => cases h

theorem exists_of_mem_mapM {f : α → Evaluation β} {as : List α} {bs : List β}
    (h : as.mapM f = some (.ok bs)) {b : β} (hb : b ∈ bs) : ∃ a ∈ as, f a = some (.ok b) := by
  induction as generalizing bs with
  | nil =>
    cases h
    cases hb
  | cons a as ih =>
    rw [List.mapM_cons] at h
    obtain ⟨first, hfirst, h⟩ := bind_eq_ok h
    obtain ⟨rest, hrest, h⟩ := bind_eq_ok h
    cases h
    rcases List.mem_cons.mp hb with rfl | hb
    · exact ⟨a, List.mem_cons_self, hfirst⟩
    · obtain ⟨found, hm, hf⟩ := ih hrest hb
      exact ⟨found, List.mem_cons_of_mem _ hm, hf⟩

variable {height : Nat} {env outer : Env} {fields : List Field} {e : Expr} {form : Form}

theorem World.Holds.names {w : World} {inner : Env} {entries : List (String × ThunkId)}
    {fields : List Field} (h : w.Holds inner entries fields) :
    entries.map Prod.fst = fields.map Field.name := by
  induction h with
  | nil => rfl
  | cons hf _ ih => rw [List.map_cons, List.map_cons, hf.1, ih]

theorem field_of_complete {shown : Fields} {name : String} {v : Value}
    (hc : complete answers height (.record fields outer) = some (.ok (.record shown)))
    (hv : shown.get? name = some v) :
    ∃ field ∈ fields, field.name = name ∧ ∃ k form,
      evaluate answers k (.record fields outer) field.value = some (.ok form) ∧
        complete answers k form = some (.ok v) := by
  cases height with
  | zero => cases hc
  | succ height =>
    obtain ⟨entries, hentries, hc⟩ := bind_eq_ok hc
    cases hc
    have hm := Fields.mem_of_mem_ofList (Fields.mem_toList_of_get? hv)
    obtain ⟨field, hf, hfield⟩ := exists_of_mem_mapM hentries hm
    obtain ⟨form, hform, hfield⟩ := bind_eq_ok hfield
    obtain ⟨v', hv', hfield⟩ := bind_eq_ok hfield
    cases hfield
    exact ⟨field, hf, rfl, height, form, hform, hv'⟩

/-- A program that comes to its end with a store does so without one, with what its value stands
for. -/
theorem form_of_evaluated {body : List Stmt} {captureTrace : Bool} {d : Datum} {s : ByNeed.Store}
    (h : ByNeed.evaluateProgram answers height ⟨body⟩ captureTrace = some (.ok (d, s))) :
    ∃ w form k, Models answers (fun _ => False) w s.heap ∧ w.Stands d form ∧
      Settles (fun k => evaluateBody (evaluate answers k) (.block body .nil) body) (.ok form) ∧
      complete answers k form = some (.ok (s.heap.reveal d)) := by
  unfold ByNeed.evaluateProgram at h
  split at h
  · cases h
  · obtain ⟨w, hm, hr⟩ := models_start answers body
    have hmatches := completed_matches (s := ⟨_, Tape.empty captureTrace⟩) height body hm hr
    rw [h] at hmatches
    obtain ⟨w', v, hb, ⟨hc, form, hstands, hform⟩, n, hn⟩ := hmatches
    obtain rfl := hc.reveal_eq
    obtain ⟨form', hform', hcomplete⟩ := bind_eq_ok (hn n (Nat.le_refl n))
    cases hform.unique ((body_steady _ _ _).settles hform')
    exact ⟨w', form, n, hb.models, hstands, hform, hcomplete⟩

theorem Halts.ne_ok {y : Nat → Evaluation α} {halt : Halt} {a : α}
    (h : Halts answers (fun _ => False) 0 halt y) : ¬Settles y (.ok a) := by
  rintro ⟨n, hn⟩
  unfold Halts at h
  split at h
  · cases (hn n (Nat.le_refl n)).symm.trans (h.never n)
  · cases h.unique ⟨n, hn⟩

/-- Reading a field finds what the field alone is evaluated to. -/
theorem settles_access {field : Field} (hn : (fields.map Field.name).Nodup) (hm : field ∈ fields)
    (hb : Settles (fun k => evaluate answers k env e) (.ok (.record fields outer)))
    (hf : evaluate answers height (.record fields outer) field.value = some (.ok form)) :
    Settles (fun k => evaluate answers k env (.access e field.name)) (.ok form) := by
  refine .of_succ (.bind hb ?_)
  simp only [Field.find?_of_nodup hn hm]
  exact (evaluate_steady answers _ _).settles hf

end ByName

namespace Pass

variable {config : Config} {captureTrace : Bool} {program : Program} {answers : Answers}
  {standing : Standing} {m : Machine} {body body' : List Stmt} {v : Value}

theorem Reaches.nodup_fieldNames (h : Reaches captureTrace program standing m)
    (hd : ∀ part ∈ (Expr.block program.body).within, part.fieldNames.Nodup) (id : RecordId) :
    (m.heap.fieldNames id).Nodup := by
  induction h with
  | @start control m _ hm =>
    have hrecords : m.heap.records = #[] := by
      obtain ⟨_, _, _, rfl⟩ | ⟨_, rfl⟩ := Machine.enterBlock_initial hm <;>
        exact (Heap.declares_bindAll _ _ _ _).records_eq
    simp [Heap.fieldNames, Heap.record, hrecords]
  | next h hs ih =>
    rcases Machine.fieldNames_of_step hs id with hk | ⟨fields, scope, rfl, hn⟩
    · rwa [hk]
    · rw [hn]
      exact hd _ (h.partOf (.record fields) List.mem_cons_self).mem_within
  | stop _ hs ho ih =>
    obtain ⟨rfl, _⟩ := Machine.eq_of_stop hs ho
    exact ih
  | answer _ _ ih => exact ih

theorem Shows.undefined {pass : Pass} (h : pass.Shows (.ok .undefined)) :
    pass.outcome = .finished .undefined := by
  obtain ⟨d, ho, hr⟩ := h
  rw [ho, Heap.eq_undefined_of_reveal hr]

theorem form_of_shows (hd : ∀ part ∈ (Expr.block body).within, part.fieldNames.Nodup)
    {shown : Fields} (hs : (start config ⟨body⟩ answers).Shows (.ok (.record shown))) :
    ∃ fields env k, (fields.map Field.name).Nodup ∧
      ByName.Settles (fun k => ByName.evaluateBody (ByName.evaluate answers k)
        (.block body .nil) body) (.ok (.record fields env)) ∧
      ByName.complete answers k (.record fields env) = some (.ok (.record shown)) := by
  have hgas : (start (config.withGasLimit config.gasLimit) ⟨body⟩ answers).outcome ≠
      .failed .gasExhausted := hs.ne_gasExhausted nofun
  obtain ⟨found, he, hends⟩ := evaluated_of_start hgas
  have hshown := hends.shown hs
  match found with
  | .error _ => cases hshown
  | .ok (d, s) =>
    have hreveal : s.heap.reveal d = .record shown := (Except.ok.inj hshown).symm
    obtain ⟨ho, hheap, _⟩ := hends
    obtain ⟨w, form, k, hm, hstands, hform, hcomplete⟩ := ByName.form_of_evaluated he
    rw [hreveal] at hcomplete
    cases hstands with
    | @record id fields env hi =>
      have hreaches : Reaches config.captureTrace ⟨body⟩ (.finished (.record id))
          (start (config.withGasLimit config.gasLimit) ⟨body⟩ answers).machine :=
        (reached_start config ⟨body⟩ answers).reaches _ (congrArg Outcome.standing? ho)
      have hnames := hreaches.nodup_fieldNames hd id
      rw [hheap, Heap.fieldNames, (hm.record hi).names] at hnames
      exact ⟨fields, env, k, hnames, hform, hcomplete⟩
    | _ => simp [Heap.reveal, Heap.revealWithin] at hreveal

/-- Statements that declare the same names as those of a program are shown with what is found for
them among these names. -/
theorem shows_of_settled (hb : body' ≠ [])
    (hheap : Heap.initial.bindAll Heap.globalFrame [] body' =
      Heap.initial.bindAll Heap.globalFrame [] body)
    (hy : ByName.Settles (fun k => do
      let form ← ByName.evaluateBody (ByName.evaluate answers k) (.block body .nil) body'
      ByName.complete answers k form) (.ok v)) :
    ∃ enough, ∀ gas, enough ≤ gas →
      (start (config.withGasLimit gas) ⟨body'⟩ answers).Shows (.ok v) := by
  obtain ⟨w, hm, hr⟩ := ByName.models_start answers body
  obtain ⟨n, hn⟩ := hy
  have hmatches := ByName.completed_matches
    (s := ⟨_, Tape.empty config.captureTrace⟩) n body' hm hr
  have hprogram : ByNeed.evaluateProgram answers n ⟨body'⟩ config.captureTrace = (do
      let d ← ByNeed.evaluateBody (ByNeed.evaluate answers n) [Heap.globalFrame] body'
      ByNeed.complete answers n [] "record" d
      return d : ByNeed.Evaluation Datum)
        ⟨Heap.initial.bindAll Heap.globalFrame [] body, Tape.empty config.captureTrace⟩ := by
    simp only [ByNeed.evaluateProgram, List.isEmpty_iff, hb, if_false, hheap]
  rw [← hprogram] at hmatches
  -- What is found without a store rules out that the height is too low, or that it halts.
  match hx : ByNeed.evaluateProgram answers n ⟨body'⟩ config.captureTrace with
  | none =>
    rw [hx] at hmatches
    cases (hn n (Nat.le_refl n)).symm.trans hmatches
  | some (.error halt) =>
    rw [hx] at hmatches
    cases hmatches.ne_ok ⟨n, hn⟩
  | some (.ok (d, s)) =>
    rw [hx] at hmatches
    obtain ⟨_, v', _, ⟨hc, _⟩, hy⟩ := hmatches
    cases hy.unique ⟨n, hn⟩
    obtain ⟨enough, hends⟩ := endsAs_of_evaluated hx
    refine ⟨enough, fun gas hgas => ?_⟩
    have hshows := (hends gas hgas).1.shows
    rwa [Except.map, hc.reveal_eq] at hshows

/-- A program whose literals repeat no names of fields, and which shows a record, may read a field
of it at its end instead. With gas enough it is shown with the value that the field was shown with,
and so it has asked for nothing; it is undefined if the field was shown as undefined. -/
theorem field_of_completed (config : Config) (answers : Answers) {before after : List Stmt}
    {e : Expr} {shown : Fields} {name : String} (ha : Stmt.lastExpr? after = none)
    (hd : ∀ part ∈ (Expr.block (before ++ .expr e :: after)).within, part.fieldNames.Nodup)
    (hs : (start config ⟨before ++ .expr e :: after⟩ answers).Shows (.ok (.record shown)))
    (hv : shown.get? name = some v) :
    ∃ enough, ∀ gas, enough ≤ gas →
      let pass := start (config.withGasLimit gas)
        ⟨before ++ .expr (.access e name) :: after⟩ answers
      pass.Shows (.ok v) ∧ (v = .undefined → pass.outcome = .finished .undefined) := by
  obtain ⟨fields, env, k, hn, hform, hcomplete⟩ := form_of_shows hd hs
  obtain ⟨field, hm, rfl, n, form, hfield, hshown⟩ := ByName.field_of_complete hcomplete hv
  simp only [ByName.evaluateBody, Stmt.lastExpr?_append e ha] at hform
  have haccess := ByName.settles_access hn hm hform hfield
  have hbound :=
    Heap.initial.bindAll_replace Heap.globalFrame [] (.access e field.name) e before after
  have hfound : ∃ enough, ∀ gas, enough ≤ gas → (start (config.withGasLimit gas)
      ⟨before ++ .expr (.access e field.name) :: after⟩ answers).Shows (.ok v) := by
    refine shows_of_settled (by simp) hbound ?_
    simp only [ByName.evaluateBody, Stmt.lastExpr?_append (.access e field.name) ha]
    exact haccess.bind ((ByName.complete_steady answers form).settles hshown)
  obtain ⟨enough, hshows⟩ := hfound
  refine ⟨enough, fun gas hgas => ⟨hshows gas hgas, ?_⟩⟩
  rintro rfl
  exact (hshows gas hgas).undefined

theorem field_of_completed_siblings :
    let config : Config := ⟨50, true, false⟩
    let units := Expr.input ⟨"units", .number, ""⟩
    let order := Expr.record [
      .mk "units" ⟨0, "units"⟩ units,
      .mk "total" ⟨1, "total"⟩ (.binary .mul (.name ⟨0, "units"⟩) (.number 5))]
    let answers := Answers.empty.insert "units" (.number 3)
    let shown := Fields.cons "total" (.number 15) (.cons "units" (.number 3) .nil)
    (start config ⟨[] ++ .expr order :: []⟩ answers).Shows (.ok (.record shown)) ∧
      shown.get? "total" = some (.number 15) ∧
      ∃ enough, ∀ gas, enough ≤ gas →
        (start (config.withGasLimit gas) ⟨[] ++ .expr (.access order "total") :: []⟩ answers).Shows
          (.ok (.number 15)) := by
  intro config units order answers shown
  have hshows : (start config ⟨[] ++ .expr order :: []⟩ answers).Shows (.ok (.record shown)) :=
    ⟨.record ⟨0⟩, by decide, by decide⟩
  obtain ⟨enough, hfield⟩ := field_of_completed config answers rfl (by decide) hshows
    (show shown.get? "total" = some (.number 15) by decide)
  exact ⟨hshows, by decide, enough, fun gas hgas => (hfield gas hgas).1⟩

end Pass

end Inquiry
