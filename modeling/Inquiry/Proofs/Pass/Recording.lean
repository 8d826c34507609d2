import Inquiry.Proofs.Derivation.Decoding
import Inquiry.Proofs.Machine.Balance
import Inquiry.Proofs.Pass.Reach
set_option autoImplicit false

namespace Inquiry

def Standing.held : Standing → Nat
  | .running control => control.held
  | .parked _ => 0
  | .finished _ => 1

/-- What a trace is of: one derivation, or nothing where none is captured. -/
def Trace.Recorded (trace : Trace) : Bool → Prop
  | true => ∃ t : Derivation, trace = t.trace
  | false => trace = ⟨none, #[]⟩

namespace Machine

theorem allOpen_enterBlock {captureTrace : Bool} {body : List Stmt} {control : Control}
    {m : Machine}
    (h : (initial captureTrace).enterBlock Heap.globalFrame [] body = (control, m)) :
    m.AllOpen := by
  obtain ⟨_, _, rfl, rfl⟩ | ⟨rfl, rfl⟩ := enterBlock_initial h <;> simp [AllOpen, Task.Open]

theorem gets_enterBlock {captureTrace : Bool} {body : List Stmt} {control : Control}
    {m : Machine}
    (h : (initial captureTrace).enterBlock Heap.globalFrame [] body = (control, m)) :
    (Tape.empty captureTrace).Gets 0 m.tape (control.held + m.held) := by
  obtain ⟨_, _, rfl, rfl⟩ | ⟨rfl, rfl⟩ := enterBlock_initial h
  · exact .nothing rfl rfl
  · exact .node _ _ rfl rfl rfl

end Machine

namespace Pass

variable {captureTrace : Bool} {program : Program} {standing : Standing} {m : Machine}

theorem Reaches.allOpen (h : Reaches captureTrace program standing m) : m.AllOpen := by
  induction h with
  | start _ hm => exact Machine.allOpen_enterBlock hm
  | next _ hs ih => exact ih.step hs
  | stop _ hs ho ih =>
    rw [(Machine.eq_of_stop hs ho).1]
    exact ih
  | answer _ _ ih => exact ih

/-- What an empty tape has and every balanced writing keeps is true of the tape of every pass. -/
theorem Reaches.tape {p : Tape → Nat → Prop} (hempty : p (.empty captureTrace) 0)
    (hgets : ∀ {tape tape' before after}, p tape before → tape.Gets before tape' after →
      p tape' after)
    (h : Reaches captureTrace program standing m) : p m.tape (standing.held + m.held) := by
  induction h with
  | start _ hm => exact hgets hempty (Machine.gets_enterBlock hm)
  | next h hs ih => exact hgets ih (Machine.gets_of_step h.allOpen hs)
  | stop _ hs ho ih =>
    obtain ⟨rfl, hcases⟩ := Machine.eq_of_stop hs ho
    rcases hcases with ⟨question, scope, rfl, rfl⟩ | ⟨d, rfl, rfl, _⟩
    · exact ih
    · exact ih
  | answer answer _ ih => exact hgets ih (.node _ _ rfl rfl rfl)

theorem Reaches.holds (h : Reaches true program standing m) :
    m.tape.Holds (standing.held + m.held) := h.tape Tape.holds_empty Tape.Holds.gets

theorem Reaches.tape_eq_empty (h : Reaches false program standing m) : m.tape = .empty false :=
  h.tape (p := fun tape _ => tape = .empty false) rfl Tape.gets_disabled

theorem Reaches.stack_eq_nil {d : Datum} (h : Reaches captureTrace program (.finished d) m) :
    m.stack = [] := by
  cases h with
  | stop _ hs ho =>
    obtain ⟨rfl, hcases⟩ := Machine.eq_of_stop hs ho
    rcases hcases with ⟨_, _, h, _⟩ | ⟨_, _, _, hm⟩
    · contradiction
    · exact hm

theorem Reaches.held_of_finished {d : Datum}
    (h : Reaches captureTrace program (.finished d) m) :
    (Standing.finished d).held + m.held = 1 := by
  rw [Machine.held, h.stack_eq_nil]
  rfl

theorem Reaches.tokens_of_finished {d : Datum} (h : Reaches true program (.finished d) m) :
    ∃ t : Derivation, m.tape.tokens.toList = t.tokens := by
  obtain ⟨_, trees, htokens, hlength⟩ := h.holds
  obtain ⟨t, rfl⟩ := List.length_eq_one_iff.mp (hlength.trans h.held_of_finished)
  exact ⟨t, by simpa using htokens⟩

theorem Reaches.decode_of_finished {d : Datum}
    (h : Reaches captureTrace program (.finished d) m) :
    ∃ trace, m.tape.decode = .ok trace ∧ trace.Recorded captureTrace := by
  cases captureTrace with
  | true =>
    obtain ⟨t, ht⟩ := h.tokens_of_finished
    exact ⟨t.trace, Derivation.decode_of_tokens ht, t, rfl⟩
  | false =>
    rw [h.tape_eq_empty]
    exact ⟨⟨none, #[]⟩, rfl, rfl⟩

end Pass

end Inquiry
