import Inquiry.Proofs.Session.Continuations
set_option autoImplicit false

/-!
Several sessions over one program. A continuation that one of them gave out may be handed to
another, which knows it by generation and ticket only; among its own that is enough.
-/

namespace Inquiry

open Dialogue

/-- The members a conference can come to, with what was asked of which, the last first. Each has
its own settings; a continuation may come from any of them. -/
inductive Conference {ι : Type} [DecidableEq ι] (program : Program) (config : ι → Config) :
    List (ι × Exchange) → (ι → Session) → Prop where
  | new : Conference program config [] fun i => Session.new program (config i)
  | exchange {log : List (ι × Exchange)} {members : ι → Session} (i : ι) (request : Request)
      (h : Conference program config log members) (hr : request.Honest (log.map Prod.snd)) :
      Conference program config ((i, ⟨request, (members i).handle request⟩) :: log)
        fun j => if j = i then ((members i).handle request).session else members j

variable {ι : Type} [DecidableEq ι] {program : Program} {config : ι → Config}
  {log : List (ι × Exchange)} {members : ι → Session}

namespace Conference

def own (i : ι) (log : List (ι × Exchange)) : List Exchange :=
  log.filterMap fun entry => if entry.1 = i then some entry.2 else none

theorem history (h : Conference program config log members) (i : ι) :
    History program (config i) (own i log) (members i) := by
  induction h with
  | new => exact .new
  | exchange j request _ _ ih =>
    by_cases hj : j = i
    · subst hj
      simpa [own] using ih.exchange request
    · simpa [own, hj, Ne.symm hj] using ih

end Conference

/-- The session is parked on this question, and the answer is kept for it and changes no other. -/
def Session.AnswersAsked (s : Session) (question : String) (kind : Kind) (v : Value)
    (after : Session) : Prop :=
  ∃ parked asked answer, s.parked = some parked ∧ parked.pass.outcome = .parked asked ∧
    asked.text = question ∧ asked.kind = kind ∧ answer.value = v ∧ answer.kind = kind ∧
    ∀ other, after.answers.get? other =
      if other = asked.text then some answer else s.answers.get? other

namespace Session

variable {s : Session} {c : Continuation} {v : Value}

theorem parked_of_accepted (h : ∀ e, (s.resume c v).result = .error e → e.rejects = false) :
    ∃ parked answer, s.parked = some parked ∧ c.generation = s.generation ∧
      parked.continuation.ticket = c.ticket ∧ answer.value = v ∧ answer.kind = c.kind ∧
      ∀ other, (s.resume c v).session.answers.get? other =
        if other = c.question then some answer else s.answers.get? other := by
  have hnot : ∀ error : EvalError, error.rejects = true →
      s.resume c v ≠ s.reply (.error error) [] := by
    intro error he hr
    have hf := h error (by rw [hr]; rfl)
    rw [he] at hf
    contradiction
  by_cases hg : c.generation = s.generation
  · by_cases hp : ∃ p, s.pending = some p ∧ p.ticket = c.ticket
    · obtain ⟨p, hp, ht⟩ := hp
      obtain ⟨parked, hparked, rfl⟩ := Option.map_eq_some_iff.mp hp
      by_cases hk : v.kind? = some c.kind
      · obtain ⟨answer, rfl, hkind⟩ := Value.of_kind?_eq_some hk
        refine ⟨parked, answer, hparked, hg, ht, rfl, hkind, ?_⟩
        intro other
        rw [resume_of_answer hg hparked ht hkind, (settle_settled _ _).answers_eq]
        exact Answers.get?_insert s.answers c.question other answer
      · exact absurd (resume_of_mismatch hg hparked ht hk) (hnot _ rfl)
    · have hne : ∀ p, s.pending = some p → p.ticket ≠ c.ticket := fun p h ht => hp ⟨p, h, ht⟩
      exact absurd (resume_of_consumed hg hne) (hnot _ rfl)
  · exact absurd (resume_of_stale hg) (hnot _ rfl)

end Session

namespace Conference

/-- A member that does not turn a continuation down was parked on its question and kind, and keeps
the answer for that question and no other, exactly if the continuation is the pending one. Of the
continuations that it gave out itself it takes only that one. -/
theorem answersAsked_iff_pending (h : Conference program config log members) (i : ι)
    (c : Continuation) (v : Value)
    (ha : ∀ e, ((members i).resume c v).result = .error e → e.rejects = false) :
    ((members i).AnswersAsked c.question c.kind v ((members i).resume c v).session ↔
      (members i).pending = some c) ∧
    (c ∈ issued (own i log) →
      (members i).AnswersAsked c.question c.kind v ((members i).resume c v).session) := by
  have ho := (h.history i).orderly
  obtain ⟨parked, answer, hp, hg, ht, hv, hk, hanswers⟩ := Session.parked_of_accepted ha
  obtain ⟨asked, hout, hcont, _⟩ := ho.parked parked hp
  have hiff : (members i).AnswersAsked c.question c.kind v ((members i).resume c v).session ↔
      (members i).pending = some c := by
    constructor
    · rintro ⟨parked', asked', _, hp', hout', hq, hkind, _⟩
      rw [hp, Option.some.injEq] at hp'
      subst hp'
      rw [hout, Outcome.parked.injEq] at hout'
      subst hout'
      have htickets : (members i).tickets = c.ticket := by rw [← ht, hcont]; rfl
      simp only [Session.pending, hp, Option.map_some, hcont, Session.continuationOf, hq, hkind,
        ← hg, htickets]
    · intro hpending
      have hc : parked.continuation = c := by
        simpa only [Session.pending, hp, Option.map_some, Option.some.injEq] using hpending
      have hq : asked.text = c.question := by rw [← hc, hcont]; rfl
      have hkind : asked.kind = c.kind := by rw [← hc, hcont]; rfl
      exact ⟨parked, asked, answer, hp, hout, hq, hkind, hv, hk, hq ▸ hanswers⟩
  refine ⟨hiff, ?_⟩
  intro hi
  -- Only one of its own continuations has the last ticket.
  have htickets : c.ticket = (members i).tickets := by rw [← ht, hcont]; rfl
  have hc := ho.unique c hi parked hp htickets
  exact hiff.mpr (by rw [hc, Session.pending, hp]; rfl)

def delivery : Program := ⟨[.expr (.conditional (.input ⟨"gift", .boolean, ""⟩) (.number 0)
  (.input ⟨"price", .number, ""⟩))]⟩

theorem answersAsked_iff_pending_delivery :
    let config : Bool → Config := fun _ => ⟨50, true, false⟩
    let gift : Continuation := ⟨"gift", .boolean, 1, 1⟩
    ∃ log members, Conference delivery config log members ∧ gift ∈ issued (own true log) ∧
      (∀ e, ((members true).resume gift (.boolean true)).result = .error e → e.rejects = false) ∧
      (members true).AnswersAsked gift.question gift.kind (.boolean true)
        ((members true).resume gift (.boolean true)).session ∧
      (members true).pending = some gift := by
  intro config gift
  have hown {log : List (Bool × Exchange)} {members : Bool → Session}
      (h : Conference delivery config log members) (hi : gift ∈ issued (own true log))
      (hr : ((members true).resume gift (.boolean true)).result = .ok (.complete (.number 0))) :
      (∀ e, ((members true).resume gift (.boolean true)).result = .error e → e.rejects = false) ∧
        (members true).AnswersAsked gift.question gift.kind (.boolean true)
          ((members true).resume gift (.boolean true)).session ∧
        (members true).pending = some gift := by
    have ha : ∀ e, ((members true).resume gift (.boolean true)).result = .error e →
        e.rejects = false := by
      intro e he
      rw [hr] at he
      contradiction
    obtain ⟨hiff, hasked⟩ := answersAsked_iff_pending h true gift (.boolean true) ha
    exact ⟨ha, hasked hi, hiff.mp (hasked hi)⟩
  have h₁ : Conference delivery config _ _ :=
    .exchange false (.provide "gift" (.boolean false)) .new trivial
  have h₂ := Conference.exchange true .evaluate h₁ trivial
  exact ⟨_, _, h₂, by decide +kernel, hown h₂ (by decide +kernel) rfl⟩

/-- The member that is told in advance that it is no gift is parked on the price under the same
generation and ticket as the one that has to ask, which takes a number for whether it is a gift. -/
theorem accepts_of_another :
    let config : Bool → Config := fun _ => ⟨50, true, false⟩
    let gift : Continuation := ⟨"gift", .boolean, 1, 1⟩
    let price : Continuation := ⟨"price", .number, 1, 1⟩
    ∃ log members, Conference delivery config log members ∧
      price ∈ issued (own false log) ∧ (members true).pending = some gift ∧
      ((members true).resume price (.number 5)).result =
        .error (.typeMismatch (.condition .predicate .number)) ∧
      ((members true).resume price (.number 5)).session.answers =
        Answers.empty.insert "price" (.number 5) ∧
      ¬(members true).AnswersAsked price.question price.kind (.number 5)
        ((members true).resume price (.number 5)).session := by
  intro config gift price
  have hnot {s after : Session} (hp : s.parked.map (·.pass.outcome) =
      some (.parked ⟨"gift", .boolean, ""⟩)) :
      ¬s.AnswersAsked price.question price.kind (.number 5) after := by
    rintro ⟨parked, asked, _, hparked, hout, hq, _⟩
    rw [hparked, Option.map_some, hout, Option.some.injEq, Outcome.parked.injEq] at hp
    rw [hp] at hq
    revert hq
    decide
  have h₁ : Conference delivery config _ _ :=
    .exchange false (.provide "gift" (.boolean false)) .new trivial
  have h₂ := Conference.exchange false .evaluate h₁ trivial
  have h₃ := Conference.exchange true .evaluate h₂ trivial
  exact ⟨_, _, h₃, by decide +kernel, by decide +kernel, rfl, by decide +kernel,
    hnot (by decide +kernel)⟩

end Conference

end Inquiry
