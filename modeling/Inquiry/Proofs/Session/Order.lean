import Inquiry.Proofs.Session.Reaction
set_option autoImplicit false

/-!
The order of a dialogue. A pass is parked exactly while the status says so, under the current
generation and the last ticket, and no earlier continuation has that ticket.
-/

namespace Inquiry

open Dialogue

/-- What every exchange of a dialogue keeps about parked passes and their continuations. -/
structure Orderly (log : List Exchange) (s : Session) : Prop where
  parked : ∀ p, s.parked = some p → ∃ question, p.pass.outcome = .parked question ∧
    p.continuation = s.continuationOf question ∧ s.status = .waiting question.text
  waiting : ∀ q, s.status = .waiting q → ∃ p, s.parked = some p
  tickets : ∀ c ∈ issued log, c.ticket ≤ s.tickets
  unique : ∀ c ∈ issued log, ∀ p, s.parked = some p → c.ticket = s.tickets → c = p.continuation

namespace Dialogue

theorem mem_issued_cons {e : Exchange} {log : List Exchange} {c : Continuation}
    (h : c ∈ issued (e :: log)) : e.reply.session.pending = some c ∨ c ∈ issued log := by
  simp only [issued, List.filterMap_cons] at h
  split at h
  · exact .inr h
  · rename_i new hn
    rcases List.mem_cons.mp h with rfl | h
    · exact .inl hn
    · exact .inr h

end Dialogue

theorem Request.ne_of_unresumed {s : Session} {question : String} {v : Value} {c : Continuation}
    (hn : (Request.provide question v).resumption? s = none) (hc : s.pending = some c) :
    c.question ≠ question := by
  intro hq
  simp [resumption?, hc, hq] at hn

namespace Orderly

variable {log : List Exchange} {s s' : Session}

theorem unparked {e : Exchange} (he : e.reply.session = s') (hp : s'.parked = none)
    (hw : ∀ q, s'.status ≠ .waiting q) (ht : ∀ c ∈ issued log, c.ticket ≤ s'.tickets) :
    Orderly (e :: log) s' := by
  have hi : ∀ c ∈ issued (e :: log), c ∈ issued log := by
    intro c hc
    rcases mem_issued_cons hc with hc | hc
    · rw [he] at hc
      simp [Session.pending, hp] at hc
    · exact hc
  refine ⟨?_, ?_, ?_, ?_⟩
  · intro p h
    rw [hp] at h
    contradiction
  · intro q hq
    exact absurd hq (hw q)
  · intro c hc
    exact ht c (hi c hc)
  · intro c _ p h
    rw [hp] at h
    contradiction

theorem unchanged {e : Exchange} (h : Orderly log s) (he : e.reply.session = s')
    (hp : s'.parked = s.parked) (hs : s'.status = s.status)
    (hg : s'.generation = s.generation) (ht : s'.tickets = s.tickets) :
    Orderly (e :: log) s' := by
  have hc : ∀ question, s'.continuationOf question = s.continuationOf question := by
    simp [Session.continuationOf, hg, ht]
  have hnew : ∀ c ∈ issued (e :: log), c ∈ issued log ∨ ∃ p, s.parked = some p ∧
      c = p.continuation := by
    intro c h
    rcases mem_issued_cons h with h | h
    · rw [he] at h
      simp only [Session.pending, hp, Option.map_eq_some_iff] at h
      obtain ⟨p, hp, rfl⟩ := h
      exact .inr ⟨p, hp, rfl⟩
    · exact .inl h
  refine ⟨?_, ?_, ?_, ?_⟩
  · intro p h'
    rw [hp] at h'
    obtain ⟨question, ho, hq, hst⟩ := h.parked p h'
    exact ⟨question, ho, by rw [hc, hq], by rw [hs, hst]⟩
  · intro q h'
    rw [hs] at h'
    rw [hp]
    exact h.waiting q h'
  · intro c h'
    rw [ht]
    rcases hnew c h' with h' | ⟨p, hp', rfl⟩
    · exact h.tickets c h'
    · obtain ⟨question, _, hq, _⟩ := h.parked p hp'
      rw [hq]
      exact Nat.le_refl _
  · intro c h' p hp' hct
    rw [hp] at hp'
    rw [ht] at hct
    rcases hnew c h' with h' | ⟨p', hp'', rfl⟩
    · exact h.unique c h' p hp' hct
    · rw [hp'] at hp''
      rw [Option.some.inj hp'']

theorem settled {pass : Pass} {reply : Reply Status} (h : Settled s pass reply)
    (hp : s.parked = none) (ht : ∀ c ∈ issued log, c.ticket ≤ s.tickets) (request : Request) :
    Orderly (⟨request, reply.map some⟩ :: log) reply.session := by
  cases h with
  | failed ho => exact unparked rfl hp (by simp [Session.fail]) ht
  | unheard ho hl hr =>
    exact unparked rfl hp (by simp [Session.fail]) fun c hc => Nat.le_succ_of_le (ht c hc)
  | undefined ho => exact unparked rfl hp (by simp) ht
  | malformed ho hd ht' => exact unparked rfl hp (by simp [Session.fail]) ht
  | complete hr => exact unparked rfl hp (by simp) ht
  | @parked question ho hl =>
    have hlt : ∀ c ∈ issued log, c.ticket < s.nextTicket.tickets :=
      fun c hc => Nat.lt_succ_of_le (ht c hc)
    refine ⟨?_, ?_, ?_, ?_⟩
    · intro p h
      simp only [Option.some.injEq] at h
      subst h
      exact ⟨question, ho, rfl, rfl⟩
    · intro q _
      exact ⟨_, rfl⟩
    · intro c hc
      rcases mem_issued_cons hc with h | h
      · simp only [Reply.map, Session.pending, Option.map_some, Option.some.injEq] at h
        subst h
        exact Nat.le_refl _
      · exact Nat.le_of_lt (hlt c h)
    · intro c hc p h hct
      simp only [Option.some.injEq] at h
      subst h
      rcases mem_issued_cons hc with h | h
      · simp only [Reply.map, Session.pending, Option.map_some, Option.some.injEq] at h
        exact h.symm
      · have hc := hlt c h
        simp only at hct
        omega

theorem exchange (h : Orderly log s) (request : Request) :
    Orderly (⟨request, s.handle request⟩ :: log) (s.handle request).session := by
  have hr := Session.handle_reaction s request
  generalize s.handle request = reply at hr
  cases hr with
  | evaluated hs => exact settled hs rfl h.tickets _
  | resumed hr hg hp ht hk hs => exact settled hs rfl h.tickets _
  | invalidated hq => exact unparked rfl rfl (by simp) h.tickets
  | _ => exact unchanged h rfl rfl rfl rfl rfl

/-- Of the continuations given out, only the one of the parked pass can go on with it. -/
theorem eq_continuation (h : Orderly log s) {request : Request} (hh : request.Honest log)
    {c : Continuation} {v : Value} (hr : request.resumption? s = some (c, v)) {p : Parked}
    (hp : s.parked = some p) (ht : p.continuation.ticket = c.ticket) : c = p.continuation := by
  obtain ⟨question, _, hcont, _⟩ := h.parked p hp
  have htickets : c.ticket = s.tickets := by rw [← ht, hcont]; rfl
  cases request with
  | resume c' v' =>
    simp only [Request.resumption?, Option.some.injEq, Prod.mk.injEq] at hr
    obtain ⟨rfl, rfl⟩ := hr
    exact h.unique c' hh p hp htickets
  | provide text v' =>
    simp only [Request.resumption?, Session.pending, hp, Option.map_some] at hr
    split at hr
    · simp only [Option.some.injEq, Prod.mk.injEq] at hr
      exact hr.1.symm
    · contradiction
  | _ => simp [Request.resumption?] at hr

theorem ne_of_ahead {question : String} {v : Value}
    (hn : (Request.provide question v).resumption? s = none) {p : Parked}
    (hp : s.parked = some p) : p.continuation.question ≠ question :=
  Request.ne_of_unresumed hn (by simp [Session.pending, hp])

end Orderly

theorem Dialogue.orderly {program : Program} {config : Config} {log : List Exchange}
    {s : Session} (h : Dialogue program config log s) : Orderly log s := by
  induction h with
  | new => exact ⟨by simp [Session.new], by simp [Session.new], by simp [issued], by simp [issued]⟩
  | exchange request _ _ ih => exact ih.exchange request

end Inquiry
