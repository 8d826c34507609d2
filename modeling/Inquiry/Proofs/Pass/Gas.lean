import Inquiry.Proofs.Machine.Consultation
import Inquiry.Proofs.Pass.Reach
set_option autoImplicit false

/-!
Turns and gas. What a pass comes to, and after how many turns, is settled without any limit. Gas
says how many turns are granted to it, from its start on and however often it is parked; the limit
is exceeded by one turn at most.
-/

namespace Inquiry

namespace Machine

variable {answers : Answers} {control next : Control} {m m' last last' : Machine}
  {n n' gas more : Nat} {outcome outcome' : Outcome}

/-- The machine stops after so many turns, if it is left to itself. -/
inductive Takes (answers : Answers) : Control → Machine → Nat → Outcome → Machine → Prop where
  | stop {control : Control} {m last : Machine} {outcome : Outcome}
      (hs : m.step answers control = .stop outcome last) : Takes answers control m 1 outcome last
  | next {control next : Control} {m m' last : Machine} {n : Nat} {outcome : Outcome}
      (hs : m.step answers control = .next next m') (h : Takes answers next m' n outcome last) :
      Takes answers control m (n + 1) outcome last

theorem Takes.unique (h : Takes answers control m n outcome last)
    (h' : Takes answers control m n' outcome' last') :
    n = n' ∧ outcome = outcome' ∧ last = last' := by
  induction h generalizing n' with
  | stop hs =>
    cases h' with
    | stop hs' =>
      cases hs.symm.trans hs'
      exact ⟨rfl, rfl, rfl⟩
    | next hs' => cases hs.symm.trans hs'
  | next hs _ ih =>
    cases h' with
    | stop hs' => cases hs.symm.trans hs'
    | next hs' h' =>
      cases hs.symm.trans hs'
      obtain ⟨rfl, ho, hl⟩ := ih h'
      exact ⟨rfl, ho, hl⟩

theorem Takes.ne_gasExhausted (h : Takes answers control m n outcome last) :
    outcome ≠ .failed .gasExhausted := by
  induction h with
  | stop hs =>
    rintro rfl
    have he := ofEvaluation_of_step hs
    contradiction
  | next _ _ ih => exact ih

theorem Takes.run (h : Takes answers control m n outcome last) (hg : n ≤ gas) (turns : Nat) :
    m.run answers gas turns control = ⟨last, outcome, turns + n⟩ := by
  induction h generalizing gas turns with
  | stop hs =>
    obtain ⟨gas, rfl⟩ := Nat.exists_eq_add_of_le' hg
    exact run_succ_of_stop hs
  | @next control next m m' last n outcome hs _ ih =>
    obtain ⟨gas, rfl⟩ := Nat.exists_eq_add_of_le' hg
    rw [← Nat.add_assoc, run_succ_of_next hs, ih (Nat.le_add_left n gas), Nat.add_right_comm,
      Nat.add_assoc]

/-- A machine stops within its gas, or it uses all of it up and one turn more is counted. -/
theorem takes_or_exhausted (answers : Answers) (gas turns : Nat) (control : Control)
    (m : Machine) :
    (∃ n outcome last, n ≤ gas ∧ Takes answers control m n outcome last) ∨
    ((m.run answers gas turns control).outcome = .failed .gasExhausted ∧
      (m.run answers gas turns control).turns = turns + gas + 1 ∧
      ∀ n outcome last, Takes answers control m n outcome last → gas < n) := by
  induction gas generalizing turns control m with
  | zero =>
    refine .inr ⟨rfl, rfl, fun n outcome last h => ?_⟩
    cases h <;> exact Nat.succ_pos _
  | succ gas ih =>
    cases hs : m.step answers control with
    | stop outcome last => exact .inl ⟨1, outcome, last, Nat.le_add_left 1 gas, .stop hs⟩
    | next next m' =>
      rcases ih (turns + 1) next m' with ⟨n, outcome, last, hn, h⟩ | ⟨ho, ht, hlong⟩
      · exact .inl ⟨n + 1, outcome, last, Nat.succ_le_succ hn, .next hs h⟩
      · rw [run_succ_of_next hs]
        refine .inr ⟨ho, by omega, fun n outcome last h => ?_⟩
        cases h with
        | stop hs' => cases hs.symm.trans hs'
        | next hs' h =>
          cases hs.symm.trans hs'
          exact Nat.succ_lt_succ (hlong _ _ _ h)

theorem run_of_le {turns : Nat} (hg : gas ≤ more)
    (ho : (m.run answers gas turns control).outcome ≠ .failed .gasExhausted) :
    m.run answers more turns control = m.run answers gas turns control := by
  rcases m.takes_or_exhausted answers gas turns control with
    ⟨n, outcome, last, hn, h⟩ | ⟨hout, _⟩
  · rw [h.run hn, h.run (Nat.le_trans hn hg)]
  · contradiction

end Machine

namespace Pass

variable {config : Config} {program : Program} {answers : Answers} {pass : Pass} {more : Nat}

theorem start_withGasLimit (hg : config.gasLimit ≤ more)
    (ho : (start config program answers).outcome ≠ .failed .gasExhausted) :
    start (config.withGasLimit more) program answers = start config program answers := by
  unfold start at ho ⊢
  split
  · rfl
  · rw [if_neg ‹_›] at ho
    exact Machine.run_of_le hg ho

theorem resume_withGasLimit {answer : Answer} (hg : config.gasLimit ≤ more)
    (ho : (pass.resume config answer answers).outcome ≠ .failed .gasExhausted) :
    pass.resume (config.withGasLimit more) answer answers = pass.resume config answer answers := by
  cases hq : pass.outcome with
  | parked question =>
    rw [resume_of_parked hq] at ho
    rw [resume_of_parked hq, resume_of_parked hq]
    exact Machine.run_of_le (Nat.sub_le_sub_right hg _) ho
  | finished | failed =>
    rw [resume_of_not_parked (by simp [hq]), resume_of_not_parked (by simp [hq])]

end Pass

/-- What a parked pass is given: the answer, and all the answers there are from then on. -/
structure Resumption where
  answer : Answer
  answers : Answers

namespace Pass

/-- The pass over the first answers after these resumptions, the last one first. -/
def after (config : Config) (program : Program) (first : Answers) : List Resumption → Pass
  | [] => start config program first
  | r :: earlier => (after config program first earlier).resume config r.answer r.answers

/-- Without a limit, the pass takes so many turns in all, and this is what it comes to after the
last resumption. -/
inductive Lasts (captureTrace : Bool) (program : Program) (first : Answers) :
    List Resumption → Nat → Outcome → Machine → Prop where
  | empty (hb : program.body = []) :
      Lasts captureTrace program first [] 0 (.failed .emptyProgram) (.initial captureTrace)
  | start {control : Control} {m last : Machine} {n : Nat} {outcome : Outcome}
      (hb : program.body ≠ [])
      (hm : (Machine.initial captureTrace).enterBlock Heap.globalFrame [] program.body =
        (control, m)) (ht : Machine.Takes first control m n outcome last) :
      Lasts captureTrace program first [] n outcome last
  | resume {earlier : List Resumption} {r : Resumption} {n k : Nat} {question : Question}
      {m last : Machine} {outcome : Outcome}
      (h : Lasts captureTrace program first earlier n (.parked question) m)
      (ht : Machine.Takes r.answers (.give r.answer.datum)
        (m.emit (.input question.text r.answer.summary)) k outcome last) :
      Lasts captureTrace program first (r :: earlier) (n + k) outcome last

def Admits (captureTrace : Bool) (program : Program) (first : Answers) : List Resumption → Prop
  | [] => True
  | _ :: earlier =>
    ∃ n question m, Lasts captureTrace program first earlier n (.parked question) m

/-- Without a limit, the pass would take more turns than there is gas for, or go on forever. -/
def Outlasts (gas : Nat) (captureTrace : Bool) (program : Program) (first : Answers)
    (schedule : List Resumption) : Prop :=
  ∀ n outcome m, Lasts captureTrace program first schedule n outcome m → gas < n

variable {config : Config} {program : Program} {first : Answers} {schedule : List Resumption}
  {n n' : Nat} {outcome outcome' : Outcome} {m m' : Machine} {captureTrace : Bool}

theorem Lasts.unique (h : Lasts captureTrace program first schedule n outcome m)
    (h' : Lasts captureTrace program first schedule n' outcome' m') :
    n = n' ∧ outcome = outcome' ∧ m = m' := by
  induction h generalizing n' outcome' m' with
  | empty hb =>
    cases h' with
    | empty => exact ⟨rfl, rfl, rfl⟩
    | start hb' => contradiction
  | start hb hm ht =>
    cases h' with
    | empty hb' => contradiction
    | start _ hm' ht' =>
      cases hm.symm.trans hm'
      exact ht.unique ht'
  | resume _ ht ih =>
    cases h' with
    | resume h' ht' =>
      obtain ⟨rfl, ho, rfl⟩ := ih h'
      cases ho
      obtain ⟨rfl, ho, hm⟩ := ht.unique ht'
      exact ⟨rfl, ho, hm⟩

theorem Lasts.ne_gasExhausted (h : Lasts captureTrace program first schedule n outcome m) :
    outcome ≠ .failed .gasExhausted := by
  cases h with
  | empty => simp
  | start _ _ ht | resume _ ht => exact ht.ne_gasExhausted

theorem after_of_lasts (h : Lasts config.captureTrace program first schedule n outcome m)
    (hg : n ≤ config.gasLimit) :
    after config program first schedule = ⟨m, outcome, n⟩ := by
  induction h with
  | empty hb => simp [after, Pass.start, hb]
  | start hb hm ht =>
    have hne : program.body.isEmpty = false := by simpa using hb
    simp only [after, Pass.start, hne, Bool.false_eq_true, if_false, hm]
    rw [ht.run hg, Nat.zero_add]
  | @resume earlier r n k question m last outcome _ ht ih =>
    rw [after, ih (by omega), resume_of_parked rfl]
    exact ht.run (by simp only; omega) n

theorem Lasts.admits (h : Lasts captureTrace program first schedule n outcome m) :
    Admits captureTrace program first schedule := by
  cases h with
  | empty | start => trivial
  | resume h => exact ⟨_, _, _, h⟩

/-- What a limit comes to on a schedule: the pass lasts no longer, or it is ended one turn later. -/
inductive Limited (config : Config) (program : Program) (first : Answers)
    (schedule : List Resumption) : Prop where
  | within {n : Nat} {outcome : Outcome} {m : Machine} (hn : n ≤ config.gasLimit)
      (h : Lasts config.captureTrace program first schedule n outcome m)
  | exceeded (ho : (after config program first schedule).outcome = .failed .gasExhausted)
      (ht : (after config program first schedule).turns = config.gasLimit + 1)
      (hlong : Outlasts config.gasLimit config.captureTrace program first schedule)

theorem limited_start (config : Config) (program : Program) (first : Answers) :
    Limited config program first [] := by
  by_cases hb : program.body = []
  · exact .within (Nat.zero_le _) (.empty hb)
  · obtain ⟨⟨control, m⟩, hm⟩ : ∃ entered, (Machine.initial config.captureTrace).enterBlock
        Heap.globalFrame [] program.body = entered := ⟨_, rfl⟩
    have hstart : after config program first [] = m.run first config.gasLimit 0 control := by
      simp [after, Pass.start, hb, hm]
    rcases m.takes_or_exhausted first config.gasLimit 0 control with
      ⟨n, outcome, last, hn, h⟩ | ⟨ho, ht, hlong⟩
    · exact .within hn (.start hb hm h)
    · rw [← hstart] at ho ht
      refine .exceeded ho (by omega) fun n outcome last h => ?_
      cases h with
      | empty hb' => contradiction
      | start _ hm' h =>
        cases hm.symm.trans hm'
        exact hlong n outcome last h

theorem Limited.resume {question : Question} (hl : Limited config program first schedule)
    (h : Lasts config.captureTrace program first schedule n (.parked question) m)
    (r : Resumption) : Limited config program first (r :: schedule) := by
  cases hl with
  | within hn h' =>
    obtain ⟨rfl, rfl, rfl⟩ := h.unique h'
    have hafter : after config program first (r :: schedule) =
        (m.emit (.input question.text r.answer.summary)).run r.answers (config.gasLimit - n) n
          (.give r.answer.datum) := by
      rw [after, after_of_lasts h hn, resume_of_parked rfl]
    rcases (m.emit (.input question.text r.answer.summary)).takes_or_exhausted r.answers
      (config.gasLimit - n) n (.give r.answer.datum) with
      ⟨k, outcome, last, hk, ht⟩ | ⟨ho, ht, hlong⟩
    · exact .within (by omega) (.resume h ht)
    · rw [← hafter] at ho ht
      refine .exceeded ho (by omega) fun total outcome last hl => ?_
      cases hl with
      | resume h' ht' =>
        obtain ⟨rfl, hq, rfl⟩ := h.unique h'
        cases hq
        have hk := hlong _ _ _ ht'
        omega
  | exceeded ho ht hlong =>
    -- What was cut off is not parked, so nothing comes of the resumption.
    have hafter : after config program first (r :: schedule) =
        after config program first schedule := resume_of_not_parked (by simp [ho])
    rw [← hafter] at ho ht
    refine .exceeded ho ht fun total outcome last hl => ?_
    cases hl with
    | resume h' => exact Nat.lt_add_right _ (hlong _ _ _ h')

theorem Admits.limited (ha : Admits config.captureTrace program first schedule) :
    Limited config program first schedule := by
  induction schedule with
  | nil => exact limited_start config program first
  | cons r earlier ih =>
    obtain ⟨n, question, m, h⟩ := ha
    exact (ih h.admits).resume h r

theorem admits_of_parked {question : Question} (r : Resumption)
    (ha : Admits config.captureTrace program first schedule)
    (ho : (after config program first schedule).outcome = .parked question) :
    Admits config.captureTrace program first (r :: schedule) := by
  cases ha.limited with
  | @within n outcome m hn h =>
    rw [after_of_lasts h hn] at ho
    obtain rfl : outcome = .parked question := ho
    exact ⟨n, question, m, h⟩
  | exceeded hout =>
    rw [ho] at hout
    contradiction

/-- However a pass arises, there is a schedule for it. -/
theorem Arises.exists_schedule {pass : Pass} (h : Arises config program pass) :
    ∃ first schedule, Admits config.captureTrace program first schedule ∧
      pass = after config program first schedule := by
  induction h with
  | start answers => exact ⟨answers, [], trivial, rfl⟩
  | @resume pass answer answers _ ih =>
    obtain ⟨first, schedule, ha, rfl⟩ := ih
    cases ho : (after config program first schedule).outcome with
    | parked question =>
      exact ⟨first, ⟨answer, answers⟩ :: schedule, admits_of_parked _ ha ho, rfl⟩
    | finished | failed =>
      exact ⟨first, schedule, ha, resume_of_not_parked (by simp [ho])⟩

theorem exhausted_iff (ha : Admits config.captureTrace program first schedule) :
    (after config program first schedule).outcome = .failed .gasExhausted ↔
      Outlasts config.gasLimit config.captureTrace program first schedule := by
  cases ha.limited with
  | within hn h =>
    rw [after_of_lasts h hn]
    refine ⟨fun ho => absurd ho h.ne_gasExhausted, fun hlong => ?_⟩
    exact absurd (hlong _ _ _ h) (Nat.not_lt.mpr hn)
  | exceeded ho _ hlong => exact ⟨fun _ => hlong, fun _ => ho⟩

theorem turns_le (ha : Admits config.captureTrace program first schedule) :
    (after config program first schedule).turns ≤ config.gasLimit + 1 := by
  cases ha.limited with
  | within hn h =>
    rw [after_of_lasts h hn]
    exact Nat.le_succ_of_le hn
  | exceeded _ ht => exact Nat.le_of_eq ht

theorem after_of_le {gas more : Nat} (hg : gas ≤ more)
    (ha : Admits config.captureTrace program first schedule)
    (ho : (after (config.withGasLimit gas) program first schedule).outcome ≠
      .failed .gasExhausted) :
    Lasts config.captureTrace program first schedule
        (after (config.withGasLimit gas) program first schedule).turns
        (after (config.withGasLimit gas) program first schedule).outcome
        (after (config.withGasLimit gas) program first schedule).machine ∧
      after (config.withGasLimit more) program first schedule =
        after (config.withGasLimit gas) program first schedule := by
  have hlimited : Limited (config.withGasLimit gas) program first schedule := Admits.limited ha
  cases hlimited with
  | within hn h =>
    have hn' : _ ≤ (config.withGasLimit more).gasLimit := Nat.le_trans hn hg
    rw [after_of_lasts h hn]
    exact ⟨h, after_of_lasts h hn'⟩
  | exceeded hout => contradiction

end Pass

end Inquiry
