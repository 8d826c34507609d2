import Inquiry.Proofs.Machine.Premises
import Inquiry.Proofs.Pass.Interruption
set_option autoImplicit false

namespace Inquiry

namespace Tape.Derives

variable {answers : Answers} {asked : List String}

theorem empty : (Tape.empty true).Derives answers [] [] :=
  ⟨⟨#[], []⟩, .empty, .empty, rfl, rfl⟩

theorem decode {tape : Tape} {v : Summary} (h : tape.Derives answers asked [v]) :
    ∃ trace, tape.decode = .ok trace ∧ trace.Justified answers ∧
      trace.rootNode?.map (fun node => node.rule.value) = some v ∧
      trace.inputs = distinctBy id asked := by
  obtain ⟨forest, hreads, hj, hq, hv⟩ := h
  obtain ⟨root, hroots, hroot⟩ := List.map_eq_singleton_iff.mp hv
  have hlt : root < forest.nodes.size := hj.roots root (by simp [hroots])
  refine ⟨⟨some root, forest.nodes⟩, hreads.decode hroots, hj.nodes, ?_, ?_⟩
  · simp only [valueAt, Array.getElem?_eq_getElem hlt, Option.map_some, Option.getD_some] at hroot
    simp [Trace.rootNode?, Array.getElem?_eq_getElem hlt, hroot]
  · rw [← hq]
    rfl

end Tape.Derives

theorem Machine.derives_enterBlock (answers : Answers) (frame : FrameId) (body : List Stmt) :
    ((initial true).enterBlock frame [] body).2.Derives answers []
      ((initial true).enterBlock frame [] body).1 := by
  have hresult : ∀ heap, Demand heap [.complete] [] := by
    intro heap
    have hcomplete : Task.Holds heap .complete [] := rfl
    exact .cons hcomplete .nil
  have hbody : ∀ heap, Demand heap [.blockDone, .complete] [] := by
    intro heap
    have hblock : Task.Holds heap .blockDone [] := rfl
    exact .cons hblock (hresult heap)
  cases he : Stmt.lastExpr? body with
  | none =>
    simp only [initial, enterBlock, he]
    exact ⟨[], Tape.Derives.empty.emit [] rfl, hresult _⟩
  | some e =>
    simp only [initial, enterBlock, he]
    exact ⟨[], Tape.Derives.empty, hbody _⟩

namespace Pass

variable {config : Config} {program : Program} {answers : Answers} {pass : Pass} {d : Datum}

/-- The questions whose answers a pass reads, one for each reading. -/
def consulted (config : Config) (program : Program) (answers : Answers) : List String :=
  let (control, m) :=
    (Machine.initial config.captureTrace).enterBlock Heap.globalFrame [] program.body
  m.consulted answers config.gasLimit control

theorem derives_of_finished (ht : config.captureTrace = true)
    (ho : (start config program answers).outcome = .finished d) :
    (start config program answers).machine.tape.Derives answers (consulted config program answers)
      [(start config program answers).machine.heap.summary d] := by
  unfold start at ho ⊢
  split at ho
  · contradiction
  · rename_i hb
    simp only [hb, consulted]
    rw [ht] at ho ⊢
    exact (Machine.derives_enterBlock answers Heap.globalFrame program.body).run ho

/-- A pass that is done, however often it was interrupted, leaves a derivation of its result in
which every node follows from those it rests on. -/
theorem derivation_justified (hp : Interrupted config program answers pass)
    (ht : config.captureTrace = true) (ho : pass.outcome = .finished d) :
    ∃ trace, pass.machine.tape.decode = .ok trace ∧ trace.Justified answers ∧
      trace.rootNode?.map (fun node => node.rule.value) = some (pass.machine.heap.summary d) := by
  have he := hp.eq_start
  subst he
  obtain ⟨trace, hdecode, hj, hroot, _⟩ := (derives_of_finished ht ho).decode
  exact ⟨trace, hdecode, hj, hroot⟩

theorem derivation_justified_invoice :
    let config : Config := ⟨50, true, false⟩
    let ordered := Answers.empty.insert "ordered" (.number 2)
    let priced := ordered.insert "price" (.number 5)
    let pass := (start config invoice ordered).resume config (.number 5) priced
    pass.outcome = .finished (.record ⟨0⟩) ∧
      ∃ trace, pass.machine.tape.decode = .ok trace ∧ trace.Justified priced ∧
        trace.rootNode?.map (fun node => node.rule.value) =
          some (pass.machine.heap.summary (.record ⟨0⟩)) := by
  intro config ordered priced pass
  have hparked : (start config invoice ordered).outcome = .parked ⟨"price", .number, ""⟩ := by
    decide
  have hpass : Interrupted config invoice priced pass :=
    .resume (.start ordered) hparked (Answers.extendsTo_insert rfl) rfl
  have hdone : pass.outcome = .finished (.record ⟨0⟩) := by decide
  exact ⟨hdone, derivation_justified hpass rfl hdone⟩

end Pass

end Inquiry
