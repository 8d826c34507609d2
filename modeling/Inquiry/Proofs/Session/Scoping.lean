import Inquiry.Proofs.Pass.Heredity
import Inquiry.Proofs.Session.Driving
set_option autoImplicit false

namespace Inquiry

mutual

/-- The slots of the names that nothing in the expression declares around them. A block declares
for all of its statements, a record for all of its fields, a function for its body. -/
def Expr.free : Expr → List Nat
  | .number _ | .boolean _ | .input _ => []
  | .name slot => [slot.id]
  | .record fields => (Field.freeAll fields).removeAll (slotIds (Field.bindings fields))
  | .function _ params body => body.free.removeAll (params.map Slot.id)
  | .binary _ left right | .logical _ left right => left.free ++ right.free
  | .unary _ operand => operand.free
  | .conditional predicate consequent alternate =>
    predicate.free ++ consequent.free ++ alternate.free
  | .access base _ => base.free
  | .block body => (Stmt.freeAll body).removeAll (slotIds (Stmt.bindings body))
  | .call callee args => callee.free ++ Expr.freeAll args
  termination_by structural e => e

def Field.free : Field → List Nat
  | .mk _ _ value => value.free
  termination_by structural f => f

def Stmt.free : Stmt → List Nat
  | .bind _ value => value.free
  | .expr value => value.free
  termination_by structural s => s

def Expr.freeAll : List Expr → List Nat
  | [] => []
  | e :: es => e.free ++ Expr.freeAll es
  termination_by structural es => es

def Field.freeAll : List Field → List Nat
  | [] => []
  | f :: fs => f.free ++ Field.freeAll fs
  termination_by structural fs => fs

def Stmt.freeAll : List Stmt → List Nat
  | [] => []
  | s :: ss => s.free ++ Stmt.freeAll ss
  termination_by structural ss => ss

end

/-- Whether every name of the program is declared around it. -/
def Program.Scoped (p : Program) : Prop := (Expr.block p.body).free = []

instance (p : Program) : Decidable p.Scoped := inferInstanceAs (Decidable (_ = []))

theorem Expr.freeAll_eq (es : List Expr) : Expr.freeAll es = es.flatMap Expr.free :=
  eq_flatMap rfl (fun _ _ => rfl) es

theorem Field.freeAll_eq (fields : List Field) :
    Field.freeAll fields = fields.flatMap fun field => field.value.free :=
  eq_flatMap rfl (fun ⟨_, _, _⟩ _ => rfl) fields

theorem Stmt.freeAll_eq (body : List Stmt) :
    Stmt.freeAll body = body.flatMap fun stmt => stmt.value.free :=
  eq_flatMap rfl (fun stmt _ => by cases stmt <;> rfl) body

theorem Expr.free_operand {e part : Expr} (hp : part ∈ e.operands) : part.free ⊆ e.free := by
  intro id hi
  cases e <;> simp only [operands, List.mem_cons, List.not_mem_nil, or_false] at hp
  case call =>
    simp only [free, freeAll_eq, List.mem_append, List.mem_flatMap]
    grind
  all_goals grind [free]

theorem mem_append_of_removeAll {ids declared shown : List Nat} {id : Nat}
    (h : ids.removeAll declared ⊆ shown) (hi : id ∈ ids) : id ∈ declared ++ shown := by
  by_cases hd : id ∈ declared
  · exact List.mem_append_left _ hd
  · exact List.mem_append_right _ (h (by simp [List.removeAll, hi, hd]))

/-- If what is free in an expression is in view, then so is what is free in its parts. -/
theorem hereditary_free : Hereditary fun shown e => e.free ⊆ shown where
  mono h hs := List.Subset.trans h hs
  operand h _ hp := List.Subset.trans (Expr.free_operand hp) h
  record {_ fields} h field hf id hi := by
    apply mem_append_of_removeAll h
    rw [Field.freeAll_eq]
    exact List.mem_flatMap.mpr ⟨field, hf, hi⟩
  function h _ hi := mem_append_of_removeAll h hi
  block {_ body} h stmt hs id hi := by
    apply mem_append_of_removeAll h
    rw [Stmt.freeAll_eq]
    exact List.mem_flatMap.mpr ⟨stmt, hs, hi⟩

namespace Machine

variable {answers : Answers} {m m' : Machine} {control : Control} {name : String}

theorem unbound_of_step (h : m.step answers control = .stop (.failed (.unboundName name)) m') :
    ∃ slot scope, control = .eval (.name slot) scope ∧ slot.id ∉ m.heap.inView scope := by
  cases move_of_step h with
  | unbound hl => exact ⟨_, _, rfl, Heap.lookup_eq_none_iff.mp hl⟩
  | binaryFailed hr => cases BinOp.ofOperands_of_apply hr
  | unaryFailed hr => cases UnaryOp.ofOperands_of_apply hr
  | logicalRightFailed hb | logicalFailed hb | branchFailed hb =>
    cases Datum.ofOperands_of_toBool hb
  | completeRecord _ hf | recordField hf => cases hf

end Machine

variable {program : Program} {config : Config} {captureTrace : Bool} {name : String}

theorem Program.Scoped.not_fails (hp : program.Scoped) :
    ¬Pass.Fails captureTrace program (.unboundName name) := by
  rintro ⟨answers, control, m, m', hreaches, hs⟩
  have hfree : (Expr.block program.body).free ⊆ [] := by
    rw [show (Expr.block program.body).free = [] from hp]
    exact List.nil_subset _
  obtain ⟨slot, scope, rfl, hn⟩ := Machine.unbound_of_step hs
  have hview : [slot.id] ⊆ m.heap.inView scope := (hreaches.inherits hereditary_free hfree).2
  exact hn (hview (List.mem_singleton_self _))

namespace Pass.Arises

variable {pass : Pass}

theorem ne_unbound (h : Arises config program pass) (hp : program.Scoped) :
    pass.outcome ≠ .failed (.unboundName name) := by
  induction h with
  | start answers =>
    intro ho
    rcases fails_of_start ho with he | he | hf
    · contradiction
    · contradiction
    · exact hp.not_fails hf
  | @resume pass answer answers h ih =>
    cases hq : pass.outcome with
    | parked question =>
      intro ho
      rcases h.reached.fails_of_resume hq ho with he | hf
      · contradiction
      · exact hp.not_fails hf
    | finished d | failed e =>
      rwa [resume_of_not_parked (by simp [hq])]

end Pass.Arises

namespace History

variable {log : List Exchange} {s before : Session} {request : Request} {pass : Pass}

theorem ne_unbound (h : History program config log s) (hp : program.Scoped) (request : Request) :
    (s.handle request).result ≠ .error (.unboundName name) := by
  intro he
  rcases h.drives_or_responds request with ⟨before, pass, hd⟩ | ⟨hr, _⟩
  · rw [hd.handle_eq] at he
    have hs := Session.settle_settled before pass
    generalize before.settle pass = reply at hs he
    replace he := map_eq_error he
    cases hs with
    | failed ho =>
      cases he
      exact (h.arises hd).ne_unbound hp ho
    | unheard | malformed => cases he
    | _ => contradiction
  · cases hr.refuses he

end History

/-- If every name of a program is declared around it, no pass over the program comes to a name that
is not bound, whatever is answered and however often the pass is parked; and no session reports
such a name, whatever it is asked for. -/
theorem Program.never_unbound (hp : program.Scoped) (config : Config) (name : String) :
    (∀ pass, Pass.Arises config program pass → pass.outcome ≠ .failed (.unboundName name)) ∧
    ∀ log s, History program config log s →
      ∀ request, (s.handle request).result ≠ .error (.unboundName name) :=
  ⟨fun _ h => h.ne_unbound hp, fun _ _ h => h.ne_unbound hp⟩

def Pass.charges : Program := ⟨[
  .bind ⟨0, "charge"⟩ (.function (some "charge") [⟨1, "units"⟩]
    (.binary .mul (.name ⟨1, "units"⟩) (.name ⟨2, "rate"⟩))),
  .expr (.record [
    .mk "net" ⟨3, "net"⟩ (.call (.name ⟨0, "charge"⟩) [.name ⟨4, "ordered"⟩]),
    .mk "ordered" ⟨4, "ordered"⟩ (.input ⟨"ordered", .number, ""⟩)]),
  .bind ⟨2, "rate"⟩ (.input ⟨"rate", .number, ""⟩)]⟩

theorem Program.never_unbound_charges :
    let config : Config := ⟨50, true, false⟩
    let ordered := Answers.empty.insert "ordered" (.number 2)
    let rated := ordered.insert "rate" (.number 5)
    let parked := (Pass.start config Pass.charges .empty).resume config (.number 2) ordered
    let pass := parked.resume config (.number 5) rated
    let s := Session.new Pass.charges config
    Pass.charges.Scoped ∧ Pass.Arises config Pass.charges pass ∧
      parked.outcome = .parked ⟨"rate", .number, ""⟩ ∧
      pass.outcome = .finished (.record ⟨0⟩) ∧ pass.outcome ≠ .failed (.unboundName "rate") ∧
      (s.handle .evaluate).result ≠ .error (.unboundName "rate") := by
  intro config ordered rated parked pass s
  have hp : Pass.charges.Scoped := by decide
  obtain ⟨hpasses, hsessions⟩ := Program.never_unbound hp config "rate"
  have ha : Pass.Arises config Pass.charges pass := ((Pass.Arises.start _).resume _ _).resume _ _
  exact ⟨hp, ha, by decide +kernel, by decide +kernel, hpasses pass ha,
    hsessions [] s .new .evaluate⟩

end Inquiry
