import Inquiry.Proofs.Pass.Gas
import Inquiry.Proofs.Session.Driving
set_option autoImplicit false

namespace Inquiry

def Session.withGasLimit (s : Session) (gasLimit : Nat) : Session :=
  { s with config := s.config.withGasLimit gasLimit }

def Reply.withGasLimit {α : Type} (reply : Reply α) (gasLimit : Nat) : Reply α :=
  { reply with session := reply.session.withGasLimit gasLimit }

def Exchange.withGasLimit (e : Exchange) (gasLimit : Nat) : Exchange :=
  { e with reply := e.reply.withGasLimit gasLimit }

theorem Reply.map_eq_error_iff {α β : Type} {f : α → β} {reply : Reply α} {e : EvalError} :
    (reply.map f).result = .error e ↔ reply.result = .error e := by
  constructor
  · exact map_eq_error
  · intro he
    simp [Reply.map, Except.map, he]

theorem Settled.gasExhausted_iff {s : Session} {pass : Pass} {reply : Reply Status}
    (h : Settled s pass reply) :
    reply.result = .error .gasExhausted ↔ pass.outcome = .failed .gasExhausted := by
  cases h with
  | failed ho | unheard ho | parked ho | undefined ho | malformed ho => simp [Session.fail, ho]
  | complete hr =>
    obtain ⟨d, ho, _⟩ := hr
    simp [ho]

namespace Session

variable {s : Session} {more : Nat}

theorem settle_withGasLimit (s : Session) (more : Nat) (pass : Pass) :
    (s.withGasLimit more).settle pass = (s.settle pass).withGasLimit more := by
  unfold settle
  cases pass.outcome with
  | failed e => rfl
  | parked question =>
    simp only
    by_cases hc : (s.listener? question.text).isNone && s.config.requireHandlers
    · rw [show s.park pass question = _ from if_pos hc]
      exact if_pos hc
    · rw [show s.park pass question = _ from if_neg hc]
      exact if_neg hc
  | finished d =>
    cases d with
    | undefined => rfl
    | _ => cases hd : pass.machine.tape.decode <;> rfl

theorem settle_ne_gasExhausted {pass : Pass}
    (h : (s.settle pass).result ≠ .error .gasExhausted) :
    pass.outcome ≠ .failed .gasExhausted :=
  fun ho => h ((settle_settled s pass).gasExhausted_iff.mpr ho)

theorem evaluate_withGasLimit (hg : s.config.gasLimit ≤ more)
    (h : s.evaluate.result ≠ .error .gasExhausted) :
    (s.withGasLimit more).evaluate = s.evaluate.withGasLimit more := by
  have hpass : Pass.start (s.config.withGasLimit more) s.program s.answers =
      Pass.start s.config s.program s.answers :=
    Pass.start_withGasLimit hg (settle_ne_gasExhausted h)
  exact (congrArg (s.withGasLimit more).discardParked.settle hpass).trans
    (settle_withGasLimit s.discardParked more _)

theorem resume_withGasLimit {c : Continuation} {v : Value} (hg : s.config.gasLimit ≤ more)
    (h : (s.resume c v).result ≠ .error .gasExhausted) :
    (s.withGasLimit more).resume c v = (s.resume c v).withGasLimit more := by
  by_cases hgen : c.generation = s.generation
  · by_cases hpend : ∃ parked, s.parked = some parked ∧ parked.continuation.ticket = c.ticket
    · obtain ⟨parked, hp, ht⟩ := hpend
      by_cases hkind : v.kind? = some c.kind
      · obtain ⟨answer, rfl, hk⟩ := Value.of_kind?_eq_some hkind
        rw [resume_of_answer hgen hp ht hk] at h ⊢
        rw [resume_of_answer (s := s.withGasLimit more) hgen hp ht hk]
        have hpass : parked.pass.resume (s.config.withGasLimit more) answer
              (s.answers.insert c.question answer) =
            parked.pass.resume s.config answer (s.answers.insert c.question answer) :=
          Pass.resume_withGasLimit hg (settle_ne_gasExhausted h)
        exact (congrArg ((s.withGasLimit more).answered c.question answer).settle hpass).trans
          (settle_withGasLimit (s.answered c.question answer) more _)
      · rw [resume_of_mismatch hgen hp ht hkind,
          resume_of_mismatch (s := s.withGasLimit more) hgen hp ht hkind]
        rfl
    · have hticket : ∀ p, s.pending = some p → p.ticket ≠ c.ticket := by
        intro p hp ht
        obtain ⟨parked, hparked, rfl⟩ := Option.map_eq_some_iff.mp hp
        exact hpend ⟨parked, hparked, ht⟩
      rw [resume_of_consumed hgen hticket,
        resume_of_consumed (s := s.withGasLimit more) hgen hticket]
      rfl
  · rw [resume_of_stale hgen, resume_of_stale (s := s.withGasLimit more) hgen]
    rfl

theorem answerAhead_withGasLimit (s : Session) (more : Nat) (question : String) (v : Value) :
    (s.withGasLimit more).answerAhead question v =
      (s.answerAhead question v).withGasLimit more := by
  simp only [answerAhead, withQuestion, withGasLimit]
  cases s.program.question? question with
  | none => rfl
  | some q =>
    by_cases ha : s.answers.contains question = true
    · simp only [ha, if_true]
      rfl
    · simp only [ha]
      cases checkKind question q.kind v <;> rfl

theorem provide_withGasLimit {question : String} {v : Value} (hg : s.config.gasLimit ≤ more)
    (h : (s.provide question v).result ≠ .error .gasExhausted) :
    (s.withGasLimit more).provide question v = (s.provide question v).withGasLimit more := by
  have hp : (s.withGasLimit more).pending = s.pending := rfl
  have hahead := answerAhead_withGasLimit s more question v
  unfold provide at h ⊢
  rw [hp]
  cases hc : s.pending with
  | none => exact hahead
  | some c =>
    simp only [hc] at h ⊢
    by_cases hq : c.question = question
    · rw [if_pos hq] at h ⊢
      rw [if_pos hq]
      exact resume_withGasLimit hg h
    · rw [if_neg hq, if_neg hq]
      exact hahead

theorem handle_withGasLimit {request : Request} (hg : s.config.gasLimit ≤ more)
    (h : (s.handle request).result ≠ .error .gasExhausted) :
    (s.withGasLimit more).handle request = (s.handle request).withGasLimit more := by
  cases request with
  | evaluate =>
    exact congrArg (Reply.map some) (evaluate_withGasLimit hg (mt Reply.map_eq_error_iff.mpr h))
  | provide question v =>
    exact congrArg (Reply.map some) (provide_withGasLimit hg (mt Reply.map_eq_error_iff.mpr h))
  | resume c v =>
    exact congrArg (Reply.map some) (resume_withGasLimit hg (mt Reply.map_eq_error_iff.mpr h))
  | validate question | invalidate question =>
    simp only [handle, validate, invalidate, withQuestion, withGasLimit]
    cases s.program.question? question <;> rfl
  | register question listener =>
    simp only [handle, register, withQuestion, withGasLimit]
    cases s.program.question? question <;> rfl
  | onFinish | onUndefined => rfl

end Session

namespace History

variable {program : Program} {config : Config} {log : List Exchange} {s before : Session}
  {request : Request} {pass : Pass} {more : Nat}

/-- As long as no pass is cut off, the host has the same dialogue under a higher limit. -/
theorem withGasLimit {gas : Nat} (hg : gas ≤ more)
    (h : History program (config.withGasLimit gas) log s)
    (hlog : ∀ e ∈ log, e.reply.result ≠ .error .gasExhausted) :
    History program (config.withGasLimit more) (log.map fun e => e.withGasLimit more)
      (s.withGasLimit more) := by
  induction h with
  | new => exact .new
  | @exchange log s request h ih =>
    obtain ⟨hlast, hearlier⟩ := List.forall_mem_cons.mp hlog
    have hs : s.config.gasLimit ≤ more := by
      rw [h.underway.config_eq]
      exact hg
    have hmore := History.exchange request (ih hearlier)
    rw [Session.handle_withGasLimit hs hlast] at hmore
    exact hmore

/-- A pass that a session sets going is on a schedule. It is a new one, or the parked one with one
resumption more. -/
theorem exists_schedule (h : History program config log s) (hd : s.Drives request before pass) :
    ∃ first schedule, Pass.Admits config.captureTrace program first schedule ∧
      pass = Pass.after config program first schedule ∧
      ((request = .evaluate ∧ first = s.answers ∧ schedule = []) ∨
      ∃ p r earlier, s.parked = some p ∧ schedule = r :: earlier ∧
        p.pass = Pass.after config program first earlier) := by
  rcases h.start_or_resume hd with ⟨rfl, rfl⟩ | ⟨p, question, _, answer, hp, ho, _, rfl⟩
  · exact ⟨s.answers, [], trivial, rfl, .inl ⟨rfl, rfl, rfl⟩⟩
  · obtain ⟨first, earlier, ha, heq⟩ := (h.arises_of_parked hp).exists_schedule
    rw [heq] at ho ⊢
    let r : Resumption := ⟨answer, before.answers⟩
    exact ⟨first, r :: earlier, Pass.admits_of_parked r ha ho, rfl,
      .inr ⟨p, r, earlier, hp, rfl, heq⟩⟩

end History

/-- Gas cuts a pass off and does nothing else. Where a pass stops, and after how many turns, all its
resumptions together, is settled without a limit. It runs out of gas exactly if these are more turns
than there is gas for, one turn later; otherwise it is what it is under any higher limit. In a
session no other request runs out of gas, and if none does, none can tell one limit from a higher
one. -/
theorem Pass.gas_cuts_off (config : Config) (program : Program) {gas more : Nat}
    (hg : gas ≤ more) :
    (∀ first schedule, Pass.Admits config.captureTrace program first schedule →
      let cut := Pass.after (config.withGasLimit gas) program first schedule
      cut.turns ≤ gas + 1 ∧
      (cut.outcome = .failed .gasExhausted ↔
        Pass.Outlasts gas config.captureTrace program first schedule) ∧
      (cut.outcome ≠ .failed .gasExhausted →
        Pass.Lasts config.captureTrace program first schedule cut.turns cut.outcome cut.machine ∧
        Pass.after (config.withGasLimit more) program first schedule = cut)) ∧
    ∀ log s, History program (config.withGasLimit gas) log s →
      (∀ request,
        s.Responds request (s.handle request) ∧
          (s.handle request).result ≠ .error .gasExhausted ∨
        ∃ (before : Session) (first : Answers) (schedule : List Resumption),
          Pass.Admits config.captureTrace program first schedule ∧
          s.handle request =
            (before.settle (Pass.after (config.withGasLimit gas) program first schedule)).map some ∧
          ((request = .evaluate ∧ first = s.answers ∧ schedule = []) ∨
          ∃ p r earlier, s.parked = some p ∧ schedule = r :: earlier ∧
            p.pass = Pass.after (config.withGasLimit gas) program first earlier) ∧
          ((s.handle request).result = .error .gasExhausted ↔
            Pass.Outlasts gas config.captureTrace program first schedule)) ∧
      (∀ request, (s.handle request).result ≠ .error .gasExhausted →
        (s.withGasLimit more).handle request = (s.handle request).withGasLimit more) ∧
      ((∀ e ∈ log, e.reply.result ≠ .error .gasExhausted) →
        History program (config.withGasLimit more) (log.map fun e => e.withGasLimit more)
          (s.withGasLimit more)) := by
  refine ⟨fun first schedule ha => ⟨Pass.turns_le ha, Pass.exhausted_iff ha,
    Pass.after_of_le hg ha⟩, fun log s h => ⟨fun request => ?_, fun request hr => ?_,
    h.withGasLimit hg⟩⟩
  · rcases h.drives_or_responds request with ⟨before, pass, hd⟩ | ⟨hr, _⟩
    · obtain ⟨first, schedule, ha, rfl, hcourse⟩ := h.exists_schedule hd
      refine .inr ⟨before, first, schedule, ha, hd.handle_eq, hcourse, ?_⟩
      rw [hd.handle_eq, Reply.map_eq_error_iff,
        (Session.settle_settled before _).gasExhausted_iff]
      exact Pass.exhausted_iff ha
    · refine .inl ⟨hr, fun he => ?_⟩
      cases hr.refuses he
  · refine Session.handle_withGasLimit ?_ hr
    rw [h.underway.config_eq]
    exact hg

theorem Pass.gas_cuts_off_invoice :
    let config : Config := ⟨14, true, false⟩
    let ordered := Answers.empty.insert "ordered" (.number 2)
    let priced := ordered.insert "price" (.number 5)
    let once : List Resumption := [⟨.number 2, ordered⟩]
    let twice : List Resumption := ⟨.number 5, priced⟩ :: once
    let parked := Pass.after config Pass.invoice .empty once
    let asked := (Session.new Pass.invoice config).handle .evaluate
    let told := asked.session.handle (.provide "ordered" (.number 2))
    14 ≤ 50 ∧ Pass.Admits true Pass.invoice .empty twice ∧
      parked.outcome = .parked ⟨"price", .number, ""⟩ ∧
      Pass.Lasts true Pass.invoice .empty once 14 parked.outcome parked.machine ∧
      Pass.after (config.withGasLimit 50) Pass.invoice .empty once = parked ∧
      (Pass.after config Pass.invoice .empty twice).turns ≤ 15 ∧
      Pass.Outlasts 14 true Pass.invoice .empty twice ∧
      (told.session.handle (.provide "price" (.number 5))).result = .error .gasExhausted ∧
      (told.session.withGasLimit 50).pending = some ⟨"price", .number, 1, 2⟩ ∧
      ∃ log, History Pass.invoice (config.withGasLimit 50) log (told.session.withGasLimit 50) := by
  intro config ordered priced once twice parked asked told
  obtain ⟨hpasses, hsessions⟩ := Pass.gas_cuts_off config Pass.invoice (show 14 ≤ 50 by decide)
  have hfirst : (Pass.after config Pass.invoice .empty []).outcome =
    .parked ⟨"ordered", .number, ""⟩ := by decide +kernel
  have hnone : Pass.Admits config.captureTrace Pass.invoice .empty [] := trivial
  have honce : Pass.Admits true Pass.invoice .empty once := Pass.admits_of_parked _ hnone hfirst
  have hparked : parked.outcome = .parked ⟨"price", .number, ""⟩ := by decide +kernel
  have htwice : Pass.Admits true Pass.invoice .empty twice := Pass.admits_of_parked _ honce hparked
  have hturns : parked.turns = 14 := by decide +kernel
  obtain ⟨_, _, hsame⟩ := hpasses .empty once honce
  obtain ⟨hlasts, hmore⟩ := hsame (hparked ▸ nofun)
  obtain ⟨hle, hcut, _⟩ := hpasses .empty twice htwice
  have hhistory : History Pass.invoice config [⟨_, told⟩, ⟨_, asked⟩] told.session :=
    .exchange (.provide "ordered" (.number 2)) (.exchange .evaluate .new)
  have hlog : ∀ e ∈ [Exchange.mk (.provide "ordered" (.number 2)) told, ⟨.evaluate, asked⟩],
      e.reply.result ≠ .error .gasExhausted := by decide +kernel
  exact ⟨by decide, htwice, hparked, hturns ▸ hlasts, hmore, hle, hcut.mp (by decide +kernel),
    by decide +kernel, by decide +kernel, _, (hsessions _ _ hhistory).2.2 hlog⟩

end Inquiry
