import Inquiry.Proofs.Machine.Failure
set_option autoImplicit false

/-!
The machines that passes over a program come to, turn by turn, whatever is answered on the way.
What holds before the first turn and is kept by every turn and answer holds in every pass.
-/

namespace Inquiry

/-- Where a pass stands: before its next turn, parked, or at its end. -/
inductive Standing where
  | running (control : Control)
  | parked (question : Question)
  | finished (d : Datum)

def Outcome.standing? : Outcome → Option Standing
  | .finished d => some (.finished d)
  | .parked question => some (.parked question)
  | .failed _ => none

namespace Pass

inductive Reaches (captureTrace : Bool) (program : Program) : Standing → Machine → Prop where
  | start {control : Control} {m : Machine} (hb : program.body ≠ [])
      (hm : (Machine.initial captureTrace).enterBlock Heap.globalFrame [] program.body =
        (control, m)) :
      Reaches captureTrace program (.running control) m
  | next {answers : Answers} {control next : Control} {m m' : Machine}
      (h : Reaches captureTrace program (.running control) m)
      (hs : m.step answers control = .next next m') :
      Reaches captureTrace program (.running next) m'
  | stop {answers : Answers} {control : Control} {m m' : Machine} {outcome : Outcome}
      {standing : Standing} (h : Reaches captureTrace program (.running control) m)
      (hs : m.step answers control = .stop outcome m') (ho : outcome.standing? = some standing) :
      Reaches captureTrace program standing m'
  | answer {m : Machine} {question : Question} (answer : Answer)
      (h : Reaches captureTrace program (.parked question) m) :
      Reaches captureTrace program (.running (.give answer.datum))
        (m.emit (.input question.text answer.summary))

structure Reached (captureTrace : Bool) (program : Program) (pass : Pass) : Prop where
  reaches : ∀ standing, pass.outcome.standing? = some standing →
    Reaches captureTrace program standing pass.machine
  failed : ∀ e, pass.outcome = .failed e →
    e.ofEvaluation = true ∨ e = .gasExhausted ∨ e = .emptyProgram

variable {captureTrace : Bool} {program : Program} {answers : Answers}

theorem Reaches.run {gas turns : Nat} {control : Control} {m : Machine}
    (h : Reaches captureTrace program (.running control) m) :
    Reached captureTrace program (m.run answers gas turns control) := by
  refine ⟨?_, fun e ho => ?_⟩
  · induction gas generalizing turns control m with
    | zero =>
      intro standing ho
      contradiction
    | succ gas ih =>
      unfold Machine.run
      split
      · rename_i hs
        exact ih (h.next hs)
      · rename_i hs
        exact fun standing ho => h.stop hs ho
  · rcases Machine.ofEvaluation_of_run ho with he | he
    · exact .inl he
    · exact .inr (.inl he)

theorem reached_start (config : Config) (program : Program) (answers : Answers) :
    Reached config.captureTrace program (start config program answers) := by
  unfold start
  split
  · refine ⟨?_, ?_⟩
    · intro standing ho
      contradiction
    · intro e ho
      simp only [Outcome.failed.injEq] at ho
      exact .inr (.inr ho.symm)
  · rename_i hb
    simp only [List.isEmpty_iff] at hb
    exact (Reaches.start hb rfl).run

theorem Reached.parked {pass : Pass} {question : Question}
    (h : Reached captureTrace program pass) (ho : pass.outcome = .parked question) :
    Reaches captureTrace program (.parked question) pass.machine := by
  apply h.reaches
  rw [ho]
  rfl

theorem Reached.resume {pass : Pass} (h : Reached captureTrace program pass) (config : Config)
    (answer : Answer) (answers : Answers) :
    Reached captureTrace program (pass.resume config answer answers) := by
  cases ho : pass.outcome with
  | parked question =>
    rw [resume_of_parked ho]
    exact ((h.parked ho).answer answer).run
  | finished d | failed e => rwa [resume_of_not_parked (by simp [ho])]

/-- The passes over a program, whatever is answered before and on the way. -/
inductive Arises (config : Config) (program : Program) : Pass → Prop where
  | start (answers : Answers) : Arises config program (Pass.start config program answers)
  | resume {pass : Pass} (answer : Answer) (answers : Answers) (h : Arises config program pass) :
      Arises config program (pass.resume config answer answers)

theorem Arises.reached {config : Config} {pass : Pass} (h : Arises config program pass) :
    pass.Reached config.captureTrace program := by
  induction h with
  | start answers => exact reached_start config program answers
  | resume answer answers _ ih => exact ih.resume config answer answers

/-- The errors that a turn of a pass can end in. -/
def Fails (captureTrace : Bool) (program : Program) (e : EvalError) : Prop :=
  ∃ answers control m m', Reaches captureTrace program (.running control) m ∧
    m.step answers control = .stop (.failed e) m'

variable {e : EvalError}

theorem Reaches.fails_of_run {gas turns : Nat} {control : Control} {m : Machine}
    (h : Reaches captureTrace program (.running control) m)
    (ho : (m.run answers gas turns control).outcome = .failed e) :
    e = .gasExhausted ∨ Fails captureTrace program e := by
  induction gas generalizing turns control m with
  | zero =>
    simp only [Machine.run, Outcome.failed.injEq] at ho
    exact .inl ho.symm
  | succ gas ih =>
    unfold Machine.run at ho
    split at ho
    · rename_i hs
      exact ih (h.next hs) ho
    · rename_i outcome m' hs
      simp only at ho
      subst ho
      exact .inr ⟨_, _, _, _, h, hs⟩

/-- A new pass fails in one of its turns, or there are too many of them, or none. -/
theorem fails_of_start {config : Config} (ho : (start config program answers).outcome = .failed e) :
    e = .emptyProgram ∨ e = .gasExhausted ∨ Fails config.captureTrace program e := by
  unfold start at ho
  split at ho
  · cases ho
    exact .inl rfl
  · rename_i hb
    simp only [List.isEmpty_iff] at hb
    exact .inr ((Reaches.start hb rfl).fails_of_run ho)

theorem Reached.fails_of_resume {pass : Pass} {question : Question} {config : Config}
    {answer : Answer} (h : Reached captureTrace program pass)
    (hp : pass.outcome = .parked question)
    (ho : (pass.resume config answer answers).outcome = .failed e) :
    e = .gasExhausted ∨ Fails captureTrace program e := by
  rw [resume_of_parked hp] at ho
  exact ((h.parked hp).answer answer).fails_of_run ho

end Pass

namespace Machine

variable {answers : Answers} {m m' : Machine} {control : Control}

theorem enterBlock_initial {captureTrace : Bool} {body : List Stmt}
    (h : (initial captureTrace).enterBlock Heap.globalFrame [] body = (control, m)) :
    let heap := Heap.initial.bindAll Heap.globalFrame [] body
    (∃ e, Stmt.lastExpr? body = some e ∧ control = .eval e [Heap.globalFrame] ∧
      m = ⟨heap, [.blockDone, .complete], .empty captureTrace, []⟩) ∨
    (control = .give .undefined ∧
      m = ⟨heap, [.complete], (Tape.empty captureTrace).emit (.block false .undefined), []⟩) := by
  cases he : Stmt.lastExpr? body with
  | some e =>
    simp only [initial, enterBlock, he] at h
    cases h
    exact .inl ⟨e, rfl, rfl, rfl⟩
  | none =>
    simp only [initial, enterBlock, he] at h
    cases h
    exact .inr ⟨rfl, rfl⟩

theorem eq_of_stop {outcome : Outcome} {standing : Standing}
    (hs : m.step answers control = .stop outcome m') (ho : outcome.standing? = some standing) :
    m' = m ∧ ((∃ question scope, standing = .parked question ∧
        control = .eval (.input question) scope) ∨
      ∃ d, standing = .finished d ∧ control = .give d ∧ m.stack = []) := by
  cases move_of_step hs with
  | asked ha =>
    cases ho
    exact ⟨rfl, .inl ⟨_, _, rfl, rfl⟩⟩
  | finished hm =>
    cases ho
    exact ⟨rfl, .inr ⟨_, rfl, rfl, hm⟩⟩
  | completeRecord _ hf | recordField hf =>
    cases hf
    contradiction
  | _ => contradiction

end Machine

end Inquiry
