import Inquiry.Proofs.Session.Representation
import Mathlib.Data.List.Perm.Subperm
set_option autoImplicit false

namespace Inquiry

open Dialogue

def Event.asks? : Event → Option String
  | .request _ c _ => some c.question
  | _ => none

namespace Exchange

/-- The question that is waited for now. If nobody listens for it that can be an error. -/
def waitsFor? (e : Exchange) : Option String :=
  match e.reply.result with
  | .ok (some (.waiting question)) | .error (.noHandler question) => some question
  | _ => none

def asked (e : Exchange) : List String :=
  e.waitsFor?.toList ++ e.reply.events.filterMap Event.asks?

theorem mem_asked {e : Exchange} {text : String} :
    text ∈ e.asked ↔ e.reply.result = .ok (some (.waiting text)) ∨
      e.reply.result = .error (.noHandler text) ∨
      ∃ event ∈ e.reply.events, event.asks? = some text := by
  have hw : e.waitsFor? = some text ↔ e.reply.result = .ok (some (.waiting text)) ∨
      e.reply.result = .error (.noHandler text) := by
    unfold waitsFor?
    split <;> simp_all
  rw [asked, List.mem_append, Option.mem_toList, hw, List.mem_filterMap, or_assoc]

/-- Whether the request was granted. What came of it may still be an error. -/
def granted (e : Exchange) : Bool :=
  match e.reply.result with
  | .ok _ => true
  | .error error => !error.refuses

def gives (question : String) (e : Exchange) : Bool :=
  match e.request with
  | .resume c _ => c.question == question && e.granted
  | .provide text _ => text == question && e.granted
  | _ => false

def withdraws (question : String) (e : Exchange) : Bool :=
  match e.request with
  | .invalidate text => text == question && e.reply.result.isOk
  | _ => false

end Exchange

namespace Dialogue

/-- The question on which a pass was suspended in the exchange after these. -/
def suspension? (earlier : List Exchange) (e : Exchange) : Option String :=
  if drives earlier e then e.waitsFor? else none

/-- The questions on which the last pass was suspended, the last one first. -/
def suspensions : List Exchange → List String
  | [] => []
  | e :: earlier => (suspension? earlier e).toList ++
    match e.request with
    | .evaluate => []
    | _ => suspensions earlier

theorem suspensions_cons {log : List Exchange} {e : Exchange} (hd : e.request ≠ .evaluate) :
    suspensions (e :: log) = (suspension? log e).toList ++ suspensions log := by
  simp only [suspensions]

theorem mem_asked_of_suspension? {earlier : List Exchange} {e : Exchange} {text : String}
    (h : suspension? earlier e = some text) : text ∈ e.asked := by
  simp only [suspension?] at h
  split at h
  · simp [Exchange.asked, h]
  · contradiction

end Dialogue

theorem Pass.get?_of_resume_parked {config : Config} {answers : Answers} {answer : Answer}
    {pass : Pass} {asked question : Question} (hp : pass.outcome = .parked asked)
    (h : (pass.resume config answer answers).outcome = .parked question) :
    answers.get? question.text = none := by
  rw [resume_of_parked hp] at h
  exact Machine.get?_of_run_parked h

theorem Settled.waitsFor?_eq {s : Session} {request : Request} {pass : Pass} {reply : Reply Status}
    {question : Question} (h : Settled s pass reply) (ho : pass.outcome = .parked question) :
    (Exchange.mk request (reply.map some)).waitsFor? = some question.text := by
  cases h with
  | unheard ho' | parked ho' =>
    cases ho.symm.trans ho'
    rfl
  | complete hr =>
    obtain ⟨d, hd, _⟩ := hr
    cases ho.symm.trans hd
  | failed ho' | undefined ho' | malformed ho' => cases ho.symm.trans ho'

theorem Settled.parked_on {s : Session} {pass : Pass} {reply : Reply Status} {p : Parked}
    (h : Settled s pass reply) (hn : s.parked = none) (hp : reply.session.parked = some p) :
    ∃ question, pass.outcome = .parked question ∧ p.continuation.question = question.text := by
  cases h with
  | parked ho =>
    cases hp
    exact ⟨_, ho, rfl⟩
  | _ => cases hn.symm.trans hp

theorem Settled.parked_of_mem_asked {captureTrace : Bool} {program : Program} {s : Session}
    {request : Request} {pass : Pass} {reply : Reply Status} {text : String}
    (h : Settled s pass reply) (hr : pass.Reached captureTrace program)
    (ha : text ∈ (Exchange.mk request (reply.map some)).asked) :
    ∃ question, pass.outcome = .parked question ∧ question.text = text := by
  rw [Exchange.mem_asked] at ha
  cases h with
  | @failed e ho =>
    have he : e = .noHandler text := by
      simpa [Reply.map, Session.fail, Except.map] using ha
    subst he
    rcases hr.failed _ ho with he | he | he <;> contradiction
  | @unheard question ho =>
    refine ⟨question, ho, ?_⟩
    simpa [Reply.map, Session.fail, Except.map] using ha
  | @parked question ho =>
    refine ⟨question, ho, ?_⟩
    simp only [Reply.map, Except.map, List.mem_append, List.mem_map] at ha
    rcases ha with hw | hn | ⟨_, ⟨_, _, rfl⟩ | ⟨_, _, rfl⟩, hq⟩
    · cases hw
      rfl
    · contradiction
    · exact Option.some.inj hq
    · contradiction
  | undefined | complete => simp [Reply.map, Except.map, Event.asks?] at ha
  | malformed => simp [Reply.map, Except.map, Session.fail] at ha

theorem Answers.contains_insert_of_contains {answers : Answers} {question text : String}
    {answer : Answer} (h : answers.contains text = true) :
    (answers.insert question answer).contains text = true := by
  rw [contains, get?_insert]
  split
  · rfl
  · exact h

variable {program : Program} {config : Config} {log : List Exchange} {s before : Session}
  {request : Request} {pass : Pass} {question text : String}

theorem Session.Responds.waiting_of_mem_asked {reply : Reply (Option Status)}
    (h : s.Responds request reply) (ha : text ∈ (Exchange.mk request reply).asked) :
    reply.session.status = .waiting text := by
  rw [Exchange.mem_asked] at ha
  cases h with
  | @refused request e he =>
    have hn : e = .noHandler text := by simpa [Session.reply] using ha
    subst hn
    contradiction
  | ahead => simpa using ha
  | _ => simp [Event.asks?] at ha

/-- Without any pass, what is parked stays parked and what is answered stays answered, unless an
answer is withdrawn. -/
theorem Session.Responds.parked_or {reply : Reply (Option Status)} (h : s.Responds request reply) :
    reply.session.parked = none ∨
    reply.session.parked = s.parked ∧ s.answers.ExtendsTo reply.session.answers := by
  cases h with
  | invalidated => exact .inl rfl
  | ahead ha => exact .inr ⟨rfl, Answers.extendsTo_insert ha⟩
  | _ => exact .inr ⟨rfl, fun _ _ => id⟩

namespace History

variable (h : History program config log s)
include h

theorem get?_of_parked (hd : s.Drives request before pass) {question : Question}
    (ho : pass.outcome = .parked question) : before.answers.get? question.text = none := by
  cases hd with
  | evaluated => exact Pass.get?_of_start_parked ho
  | resumed hr hg hp =>
    obtain ⟨asked, hparked, _⟩ := h.orderly.parked _ hp
    exact Pass.get?_of_resume_parked hparked ho

theorem suspension?_of_parked (hd : s.Drives request before pass) {question : Question}
    (ho : pass.outcome = .parked question) :
    suspension? log ⟨request, s.handle request⟩ = some question.text := by
  rw [suspension?, h.drives_eq_true hd, if_pos rfl, hd.handle_eq]
  exact (Session.settle_settled before pass).waitsFor?_eq ho

theorem parked_of_mem_asked (hd : s.Drives request before pass)
    (ha : text ∈ (Exchange.mk request (s.handle request)).asked) :
    ∃ question, pass.outcome = .parked question ∧ question.text = text := by
  rw [hd.handle_eq] at ha
  exact (Session.settle_settled before pass).parked_of_mem_asked (hd.reached h.underway) ha

end History

namespace Dialogue

theorem get?_of_waiting (h : Dialogue program config log s) (hs : s.status = .waiting text) :
    s.answers.get? text = none := by
  obtain ⟨p, hp⟩ := h.orderly.waiting text hs
  obtain ⟨question, ho, _, hw⟩ := h.orderly.parked p hp
  rw [hs, Status.waiting.injEq] at hw
  rw [hw]
  exact Pass.get?_of_start_parked (h.coherent.parked p hp ▸ ho)

theorem get?_of_mem_asked (h : Dialogue program config log s) (hh : request.Honest log)
    (ha : text ∈ (Exchange.mk request (s.handle request)).asked) :
    (s.handle request).session.answers.get? text = none := by
  rcases h.history.drives_or_responds request with ⟨before, pass, hd⟩ | ⟨hr, _⟩
  · obtain ⟨question, ho, rfl⟩ := h.history.parked_of_mem_asked hd ha
    rw [hd.handle_eq, Reply.map, (Session.settle_settled before pass).answers_eq]
    exact h.history.get?_of_parked hd ho
  · exact (h.exchange request hh).get?_of_waiting (hr.waiting_of_mem_asked ha)

end Dialogue

theorem Exchange.question_of_gives {c : Continuation} {v : Value} {reply : Reply (Option Status)}
    (hr : request.resumption? s = some (c, v))
    (hg : (Exchange.mk request reply).gives text = true) : c.question = text := by
  cases request with
  | resume other v' =>
    cases hr
    simp only [gives, Bool.and_eq_true, beq_iff_eq] at hg
    exact hg.1
  | provide question v' =>
    simp only [gives, Bool.and_eq_true, beq_iff_eq] at hg
    simp only [Request.resumption?] at hr
    split at hr
    · split at hr
      · rename_i hq
        cases hr
        exact hq.trans hg.1
      · contradiction
    · contradiction
  | _ => contradiction

namespace History

variable (h : History program config log s)
include h

theorem contains_of_gives
    (hg : (Exchange.mk request (s.handle request)).gives text = true) :
    (s.handle request).session.answers.contains text = true := by
  rcases h.drives_or_responds request with ⟨before, pass, hd⟩ | ⟨hr, _⟩
  · rw [hd.handle_eq, Reply.map, (Session.settle_settled before pass).answers_eq]
    cases hd with
    | evaluated => contradiction
    | resumed hr =>
      simp [Session.answered, Answers.contains, Answers.get?_insert,
        Exchange.question_of_gives hr hg]
  · generalize s.handle request = reply at hr hg
    cases hr with
    | @refused request e he =>
      cases request <;> simp [Exchange.gives, Exchange.granted, Session.reply, he] at hg
    | ahead =>
      simp only [Exchange.gives, Bool.and_eq_true, beq_iff_eq] at hg
      simp [Answers.contains, Answers.get?_insert, hg.1]
    | _ => contradiction

theorem contains_of_not_withdraws (hc : s.answers.contains text = true)
    (hw : (Exchange.mk request (s.handle request)).withdraws text = false) :
    (s.handle request).session.answers.contains text = true := by
  rcases h.drives_or_responds request with ⟨before, pass, hd⟩ | ⟨hr, _⟩
  · rw [hd.handle_eq, Reply.map, (Session.settle_settled before pass).answers_eq]
    cases hd with
    | evaluated => exact hc
    | resumed => exact Answers.contains_insert_of_contains hc
  · generalize s.handle request = reply at hr hw
    cases hr with
    | ahead => exact Answers.contains_insert_of_contains hc
    | @invalidated question =>
      have hne : text ≠ question := by
        rintro rfl
        simp [Exchange.withdraws, Except.isOk, Except.toBool] at hw
      simpa [Answers.contains, Answers.get?_erase, hne] using hc
    | _ => exact hc

end History

namespace Dialogue

/-- A question is not asked between the answer to it and the withdrawal of that, nor in the
exchange in which it is answered. -/
theorem not_asked_of_gives {since earlier : List Exchange} {e : Exchange}
    (h : Dialogue program config (since ++ e :: earlier) s) (hg : e.gives text = true)
    (hw : ∀ e' ∈ since, e'.withdraws text = false) :
    s.answers.contains text = true ∧ ∀ e' ∈ since ++ [e], text ∉ e'.asked := by
  have hunasked {log : List Exchange} {s : Session} {request : Request}
      (h : Dialogue program config log s) (hh : request.Honest log)
      (hc : (s.handle request).session.answers.contains text = true) :
      text ∉ (Exchange.mk request (s.handle request)).asked := by
    intro ha
    simp [Answers.contains, h.get?_of_mem_asked hh ha] at hc
  induction since generalizing s with
  | nil =>
    cases h with
    | exchange request h hh =>
      have hc := h.history.contains_of_gives hg
      exact ⟨hc, List.forall_mem_singleton.mpr (hunasked h hh hc)⟩
  | cons last since ih =>
    obtain ⟨hlast, hsince⟩ := List.forall_mem_cons.mp hw
    cases h with
    | exchange request h hh =>
      obtain ⟨hc, hnot⟩ := ih h hsince
      have hc := h.history.contains_of_not_withdraws hc hlast
      exact ⟨hc, List.forall_mem_cons.mpr ⟨hunasked h hh hc, hnot⟩⟩

end Dialogue

/-- What every exchange of a dialogue keeps about the questions of one pass. -/
structure Unrepeated (program : Program) (log : List Exchange) (s : Session) : Prop where
  nodup : (suspensions log).Nodup
  mem : suspensions log ⊆ program.questions.map Question.text
  parked : ∀ p, s.parked = some p → ∃ answered,
    suspensions log = p.continuation.question :: answered ∧
      ∀ text ∈ answered, s.answers.contains text = true

namespace Unrepeated

theorem answered (h : Unrepeated program log s) (hd : Dialogue program config log s)
    (hh : request.Honest log) (hdr : s.Drives request before pass) :
    ∃ answered, suspensions (⟨request, s.handle request⟩ :: log) =
        (suspension? log ⟨request, s.handle request⟩).toList ++ answered ∧
      answered.Nodup ∧ answered ⊆ program.questions.map Question.text ∧
      ∀ text ∈ answered, before.answers.contains text = true := by
  cases hdr with
  | evaluated => exact ⟨[], rfl, List.nodup_nil, List.nil_subset _, by simp⟩
  | @resumed request c v parked answer hr hg hp ht =>
    refine ⟨_, suspensions_cons ?_, h.nodup, h.mem, ?_⟩
    · rintro rfl
      contradiction
    · obtain ⟨rest, hcons, hrest⟩ := h.parked parked hp
      have hc : c = parked.continuation := Orderly.eq_continuation hd.orderly hh hr hp ht
      rw [hcons, ← hc]
      refine List.forall_mem_cons.mpr ⟨?_, fun text ht => ?_⟩
      · simp [Session.answered, Answers.contains, Answers.get?_insert]
      · exact Answers.contains_insert_of_contains (hrest text ht)

theorem drive (h : Unrepeated program log s) (hd : Dialogue program config log s)
    (hh : request.Honest log) (hdr : s.Drives request before pass) :
    Unrepeated program (⟨request, s.handle request⟩ :: log) (s.handle request).session := by
  obtain ⟨answered, hcons, hnodup, hmem, hanswered⟩ := h.answered hd hh hdr
  have hs := Session.settle_settled before pass
  have hparked : ∀ p, (s.handle request).session.parked = some p → ∃ question,
      pass.outcome = .parked question ∧ p.continuation.question = question.text := by
    intro p hp
    rw [hdr.handle_eq] at hp
    exact hs.parked_on hdr.parked_eq hp
  cases ha : suspension? log ⟨request, s.handle request⟩ with
  | none =>
    rw [ha] at hcons
    refine ⟨hcons ▸ hnodup, hcons ▸ hmem, fun p hp => ?_⟩
    obtain ⟨question, ho, _⟩ := hparked p hp
    rw [hd.history.suspension?_of_parked hdr ho] at ha
    contradiction
  | some text =>
    obtain ⟨question, ho, rfl⟩ :=
      hd.history.parked_of_mem_asked hdr (mem_asked_of_suspension? ha)
    have hnone := hd.history.get?_of_parked hdr ho
    have hmention := (hdr.reached hd.history.underway).mem_mentions ho
    -- What the pass was suspended on before has an answer by now, and this question has none.
    have hnew : question.text ∉ answered := by
      intro hm
      simpa [Answers.contains, hnone] using hanswered _ hm
    rw [ha, Option.toList_some, List.singleton_append] at hcons
    refine ⟨hcons ▸ List.nodup_cons.mpr ⟨hnew, hnodup⟩, ?_, fun p hp => ?_⟩
    · have htext := Program.mem_questions.mpr (List.mem_map.mpr ⟨question, hmention, rfl⟩)
      exact hcons ▸ List.cons_subset.mpr ⟨htext, hmem⟩
    · obtain ⟨asked, ho', hq⟩ := hparked p hp
      cases ho.symm.trans ho'
      refine ⟨answered, by rw [hcons, hq], ?_⟩
      rw [hdr.handle_eq, Reply.map, hs.answers_eq]
      exact hanswered

theorem exchange (h : Unrepeated program log s) (hd : Dialogue program config log s)
    (hh : request.Honest log) :
    Unrepeated program (⟨request, s.handle request⟩ :: log) (s.handle request).session := by
  rcases hd.history.drives_or_responds request with ⟨before, pass, hdr⟩ | ⟨hr, hdrives⟩
  · exact h.drive hd hh hdr
  · have hcons : suspensions (⟨request, s.handle request⟩ :: log) = suspensions log := by
      rw [suspensions_cons, suspension?, hdrives]
      · rfl
      · rintro rfl
        contradiction
    refine ⟨hcons ▸ h.nodup, hcons ▸ h.mem, fun p hp => ?_⟩
    rcases hr.parked_or with hnone | ⟨hsame, hmore⟩
    · rw [hnone] at hp
      contradiction
    · rw [hsame] at hp
      obtain ⟨answered, hlog, hanswered⟩ := h.parked p hp
      refine ⟨answered, hcons.trans hlog, fun text ht => ?_⟩
      obtain ⟨answer, ha⟩ := Option.isSome_iff_exists.mp (hanswered text ht)
      simp [Answers.contains, hmore text answer ha]

end Unrepeated

namespace Dialogue

theorem unrepeated (h : Dialogue program config log s) : Unrepeated program log s := by
  induction h with
  | new => exact ⟨List.nodup_nil, List.nil_subset _, by simp [Session.new]⟩
  | exchange request h hh ih => exact ih.exchange h hh

/-- A pass is suspended only on what has no answer, and on each question of the program at most
once. Once a question is answered it is not asked again until the answer is withdrawn. -/
theorem asked_unless_answered (h : Dialogue program config log s) :
    (∀ request before pass question, s.Drives request before pass →
      pass.outcome = .parked question → before.answer? question.text = none ∧
        suspension? log ⟨request, s.handle request⟩ = some question.text) ∧
    (∀ text since e earlier, log = since ++ e :: earlier → e.gives text = true →
      (∀ e' ∈ since, e'.withdraws text = false) → ∀ e' ∈ since ++ [e], text ∉ e'.asked) ∧
    (suspensions log).Nodup ∧ suspensions log ⊆ s.questions.map Question.text ∧
      (suspensions log).length ≤ s.questions.length := by
  refine ⟨?_, ?_, ?_⟩
  · intro request before pass question hd ho
    refine ⟨?_, h.history.suspension?_of_parked hd ho⟩
    rw [Session.answer?, h.history.get?_of_parked hd ho, Option.map_none]
  · rintro text since e earlier rfl hg hw
    exact (h.not_asked_of_gives hg hw).2
  · have hu := h.unrepeated
    have hmem : suspensions log ⊆ s.questions.map Question.text := by
      rw [Session.questions, h.history.underway.program_eq]
      exact hu.mem
    refine ⟨hu.nodup, hmem, ?_⟩
    have hle := (hu.nodup.subperm hmem).length_le
    rwa [List.length_map] at hle

theorem asked_unless_answered_invoice :
    let config : Config := ⟨50, true, false⟩
    let price : Question := ⟨"price", .number, ""⟩
    let asked := ((Session.new Pass.invoice config).handle .evaluate).session
    let given := asked.handle (.provide "ordered" (.number 2))
    let again := given.session.handle .evaluate
    ∃ earlier, Dialogue Pass.invoice config earlier given.session ∧
      suspensions earlier = ["price", "ordered"] ∧ (suspensions earlier).Nodup ∧
      (suspensions earlier).length ≤ given.session.questions.length ∧
      (Exchange.mk .evaluate again).asked = ["price"] ∧
      "ordered" ∉ (Exchange.mk .evaluate again).asked ∧
      ∃ before pass, given.session.Drives .evaluate before pass ∧
        pass.outcome = .parked price ∧ before.answer? price.text = none := by
  intro config price asked given again
  have hprice {log : List Exchange} {s : Session} (h : Dialogue Pass.invoice config log s)
      (ho : (Pass.start s.config s.program s.answers).outcome = .parked price) :
      ∃ before pass, s.Drives .evaluate before pass ∧ pass.outcome = .parked price ∧
        before.answer? price.text = none := by
    have hd : s.Drives .evaluate _ _ := .evaluated
    have hn := ((Dialogue.asked_unless_answered h).1 .evaluate _ _ price hd ho).1
    exact ⟨_, _, hd, ho, hn⟩
  have hunasked {since : List Exchange} {e : Exchange} {log : List Exchange} {s : Session}
      (h : Dialogue Pass.invoice config (since ++ e :: log) s) (hg : e.gives "ordered" = true)
      (hw : ∀ e' ∈ since, e'.withdraws "ordered" = false) :
      ∀ e' ∈ since, "ordered" ∉ e'.asked := by
    have hn := (Dialogue.asked_unless_answered h).2.1 "ordered" since e log rfl hg hw
    exact fun e' he => hn e' (List.mem_append_left _ he)
  have h₁ : Dialogue Pass.invoice config _ asked := .exchange .evaluate .new trivial
  have h₂ : Dialogue Pass.invoice config _ given.session :=
    .exchange (.provide "ordered" (.number 2)) h₁ trivial
  have h₃ : Dialogue Pass.invoice config ([⟨.evaluate, again⟩] ++ _) again.session :=
    .exchange .evaluate h₂ trivial
  obtain ⟨_, _, hnodup, _, hle⟩ := Dialogue.asked_unless_answered h₂
  exact ⟨_, h₂, by decide +kernel, hnodup, hle, by decide +kernel,
    hunasked h₃ (by decide +kernel) (by simp [Exchange.withdraws]) _ (List.mem_singleton_self _),
    hprice h₂ (by decide +kernel)⟩

end Dialogue

end Inquiry
