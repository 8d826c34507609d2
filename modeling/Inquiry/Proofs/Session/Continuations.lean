import Inquiry.Proofs.Session.History
set_option autoImplicit false

namespace Inquiry

open Dialogue

variable {log : List Exchange} {s : Session}

/-- What every exchange keeps about the continuations that were given out. -/
structure Disciplined (log : List Exchange) (s : Session) : Prop where
  generation_le : ∀ c ∈ issued log, c.generation ≤ s.generation
  voided_iff : ∀ c ∈ issued log, Voided c log ↔ c.generation ≠ s.generation
  answered : ∀ c, Answered c log → s.pending ≠ some c
  pending : ∀ c ∈ issued log, ¬Voided c log → ¬Answered c log → s.pending = some c
  mem_parkings : ∀ c, c ∈ issued log ↔ c ∈ parkings log
  sorted : (parkings log).Pairwise fun later earlier => earlier.ticket < later.ticket
  resumed : ∀ c, log.filter (Exchange.resumes c) = [] ∨
    (log.filter (Exchange.resumes c)).length = 1 ∧ c.ticket ≤ s.tickets ∧
      ∀ p, s.pending = some p → c.ticket < p.ticket

namespace Session.Drove

variable {before after : Session}

theorem tickets_le (h : before.Drove after) : before.tickets ≤ after.tickets := by
  rcases h.2 with ⟨_, ht⟩ | ⟨c, _, _, _, ht⟩ <;> omega

theorem ticket_eq (h : before.Drove after) {c : Continuation} (hc : after.pending = some c) :
    c.ticket = before.tickets + 1 := by
  rcases h.2 with ⟨hn, _⟩ | ⟨c', hc', _, ht, _⟩
  · rw [hn] at hc
    contradiction
  · rw [hc', Option.some.injEq] at hc
    rw [← hc, ht]

end Session.Drove

/-- What an exchange leaves pending was pending before, or is made with the next ticket. -/
theorem Course.pending {e : Exchange} (h : Course s e) {c : Continuation}
    (hc : e.reply.session.pending = some c) :
    s.pending = some c ∨ c.ticket = s.tickets + 1 := by
  cases h with
  | kept _ _ _ _ hp => exact .inl (hp ▸ hc)
  | dropped _ _ _ _ hp =>
    rw [hp] at hc
    contradiction
  | evaluated _ _ _ hs => exact .inr (hs.ticket_eq hc)
  | answered _ _ _ _ _ hs => exact .inr (hs.ticket_eq hc)

theorem Course.tickets_le {e : Exchange} (h : Course s e) :
    s.tickets ≤ e.reply.session.tickets := by
  cases h with
  | kept _ _ _ _ _ _ ht => exact Nat.le_of_eq ht.symm
  | dropped _ _ _ _ _ _ ht => exact Nat.le_of_eq ht.symm
  | evaluated _ _ _ hs => exact hs.tickets_le
  | answered _ _ _ _ _ hs => exact hs.tickets_le

theorem Course.generation {e : Exchange} (h : Course s e) :
    e.reply.session.generation = s.generation + e.voids.toNat := by
  cases h with
  | kept hv _ _ _ _ hg => rw [hg, hv]; rfl
  | dropped hv _ _ _ _ hg => rw [hg, hv]; rfl
  | evaluated hv _ _ hs => rw [hs.1, hv]; rfl
  | answered _ hv _ _ _ hs => rw [hs.1, hv]; rfl

namespace Disciplined

variable {e : Exchange}

theorem generation_eq (ho : Orderly log s) {c : Continuation} (h : s.pending = some c) :
    c.generation = s.generation := by
  simp only [Session.pending, Option.map_eq_some_iff] at h
  obtain ⟨parked, hp, rfl⟩ := h
  obtain ⟨question, _, hc, _⟩ := ho.parked parked hp
  rw [hc]
  rfl

theorem pending_or_mem {c : Continuation} (hc : c ∈ issued (e :: log)) :
    e.reply.session.pending = some c ∨
      e.reply.session.pending ≠ some c ∧ c ∈ issued log := by
  by_cases h : e.reply.session.pending = some c
  · exact .inl h
  · exact .inr ⟨h, (mem_issued_cons hc).resolve_left h⟩

theorem voided_cons (h : Disciplined log s) (ho' : Orderly (e :: log) e.reply.session)
    (hc : Course s e) {c : Continuation} (hi : c ∈ issued (e :: log)) :
    c.generation ≤ e.reply.session.generation ∧
      (Voided c (e :: log) ↔ c.generation ≠ e.reply.session.generation) := by
  have hg := hc.generation
  by_cases hold : c ∈ issued log
  · have hle := h.generation_le c hold
    have hv := h.voided_iff c hold
    refine ⟨by omega, ?_⟩
    rw [Voided, happened_cons]
    cases he : e.voids with
    | true =>
      rw [he, Bool.toNat_true] at hg
      exact ⟨fun _ => by omega, fun _ => .inl ⟨hold, rfl⟩⟩
    | false =>
      rw [he, Bool.toNat_false, Nat.add_zero] at hg
      rw [hg, ← hv]
      simp [Voided]
  · have hp := (mem_issued_cons hi).resolve_right hold
    have hgen := generation_eq ho' hp
    refine ⟨Nat.le_of_eq hgen, ?_⟩
    have hnot : ¬Voided c (e :: log) := by
      intro hv
      rcases happened_cons.mp hv with ⟨hm, _⟩ | hv
      · exact hold hm
      · exact hold (mem_issued_of_voided hv)
    simp [hnot, hgen]

theorem answered_cons (h : Disciplined log s) (ho : Orderly log s) (hc : Course s e)
    {c : Continuation} (ha : Answered c (e :: log)) :
    e.reply.session.pending ≠ some c := by
  intro hp
  have hi : c ∈ issued log := by
    rcases happened_cons.mp ha with ⟨hm, _⟩ | ha
    · exact mem_issued_of_pending hm
    · exact mem_issued_of_answered ha
  have hle := ho.tickets c hi
  -- A new ticket would be higher than that of any continuation given out before.
  rcases hc.pending hp with hold | hnew
  · have hnow : e.answers c = true := by
      rcases happened_cons.mp ha with ⟨_, hnow⟩ | ha
      · exact hnow
      · exact absurd hold (h.answered c ha)
    cases hc with
    | kept _ hk => simp [hk c hold] at hnow
    | dropped _ hk => simp [hk c] at hnow
    | evaluated _ _ _ hs =>
      have ht := hs.ticket_eq hp
      simp only [Session.discardParked] at ht
      omega
    | answered _ _ _ _ _ hs =>
      have ht := hs.ticket_eq hp
      omega
  · omega

theorem pending_cons (h : Disciplined log s) (hlog : pending? log = s.pending) (hc : Course s e)
    {c : Continuation} (hi : c ∈ issued (e :: log)) (hv : ¬Voided c (e :: log))
    (ha : ¬Answered c (e :: log)) : e.reply.session.pending = some c := by
  rcases pending_or_mem hi with hp | ⟨_, hold⟩
  · exact hp
  · rw [Voided, happened_cons] at hv
    rw [Answered, happened_cons] at ha
    have hvoids : e.voids ≠ true := fun he => hv (.inl ⟨hold, he⟩)
    have hpend := h.pending c hold (fun hv' => hv (.inr hv')) (fun ha' => ha (.inr ha'))
    cases hc with
    | kept _ _ _ _ hp => rw [hp, hpend]
    | dropped he => exact absurd he hvoids
    | evaluated he => exact absurd he hvoids
    | @answered c' hc' _ hans =>
      rw [hpend, Option.some.injEq] at hc'
      subst hc'
      exact absurd (.inl ⟨hlog.trans hpend, hans⟩) ha

theorem drives_of_course (hlog : pending? log = s.pending) (hc : Course s e) :
    (drives log e = false ∧
      ∀ c, e.reply.session.pending = some c → s.pending = some c) ∨
    (drives log e = true ∧
      ∀ c, e.reply.session.pending = some c → c.ticket = s.tickets + 1) := by
  have hdef : e.request ≠ .evaluate → drives log e = s.pending.any e.answers := by
    intro hd
    unfold drives
    split
    · exact absurd ‹_› hd
    · rw [hlog]
  cases hc with
  | kept _ ha _ hd hp =>
    refine .inl ⟨?_, fun c h => hp ▸ h⟩
    rw [hdef hd]
    cases hpend : s.pending with
    | none => rfl
    | some c => simp [ha c hpend]
  | dropped _ ha _ hd hp =>
    refine .inl ⟨?_, fun c h => by simp [hp] at h⟩
    rw [hdef hd]
    cases s.pending <;> simp [ha]
  | evaluated _ _ hd hs => exact .inr ⟨by simp [drives, hd], fun c h => hs.ticket_eq h⟩
  | answered hpend _ ha _ hd hs =>
    refine .inr ⟨?_, fun c h => hs.ticket_eq h⟩
    rw [hdef hd, hpend]
    simp [ha]

theorem parkings_cons (h : Disciplined log s) (ho : Orderly log s)
    (hlog : pending? log = s.pending) (hc : Course s e) :
    (∀ c, c ∈ issued (e :: log) ↔ c ∈ parkings (e :: log)) ∧
      (parkings (e :: log)).Pairwise fun later earlier => earlier.ticket < later.ticket := by
  have hissued : ∀ c, c ∈ issued (e :: log) ↔
      e.reply.session.pending = some c ∨ c ∈ issued log := by
    intro c
    constructor
    · exact mem_issued_cons
    · rintro (hp | hi)
      · exact mem_issued_of_pending hp
      · exact mem_issued_of_mem hi
  -- Either what is pending was pending before, or a pass was set going and has the next ticket.
  rcases drives_of_course hlog hc with ⟨hd, hp⟩ | ⟨hd, hp⟩
  · have hpark : parkings (e :: log) = parkings log := by simp [parkings, hd]
    rw [hpark]
    refine ⟨?_, h.sorted⟩
    intro c
    rw [hissued, ← h.mem_parkings]
    constructor
    · rintro (hnow | hi)
      · exact mem_issued_of_pending (hlog.trans (hp c hnow))
      · exact hi
    · exact .inr
  · have hpark : parkings (e :: log) = e.reply.session.pending.toList ++ parkings log := by
      simp [parkings, hd]
    rw [hpark]
    constructor
    · intro c
      rw [hissued, h.mem_parkings, List.mem_append, Option.mem_toList]
    · rw [List.pairwise_append]
      refine ⟨by cases e.reply.session.pending <;> simp, h.sorted, ?_⟩
      intro c hnew c' hold
      rw [Option.mem_toList] at hnew
      have hle := ho.tickets c' ((h.mem_parkings c').mpr hold)
      have ht := hp c hnew
      omega

theorem resumed_cons (h : Disciplined log s) (ho : Orderly log s) (hc : Course s e)
    (c : Continuation) :
    (e :: log).filter (Exchange.resumes c) = [] ∨
      ((e :: log).filter (Exchange.resumes c)).length = 1 ∧ c.ticket ≤ e.reply.session.tickets ∧
        ∀ p, e.reply.session.pending = some p → c.ticket < p.ticket := by
  have hle := hc.tickets_le
  have hlater : c.ticket ≤ s.tickets → (∀ p, s.pending = some p → c.ticket < p.ticket) →
      ∀ p, e.reply.session.pending = some p → c.ticket < p.ticket := by
    intro ht hp p hnow
    rcases hc.pending hnow with hold | hnew
    · exact hp p hold
    · omega
  cases hr : e.resumes c with
  | false =>
    rw [List.filter_cons_of_neg (by simp [hr])]
    rcases h.resumed c with hnil | ⟨hone, ht, hp⟩
    · exact .inl hnil
    · exact .inr ⟨hone, by omega, hlater ht hp⟩
  | true =>
    cases hc with
    | kept _ _ hn => simp [hn c] at hr
    | dropped _ _ hn => simp [hn c] at hr
    | evaluated _ hn => simp [hn c] at hr
    | @answered c' hpend _ _ heq _ hs =>
      -- The ticket is that of the parked pass, so it cannot have served before.
      have hticket := (heq c hr).2
      have hbound : c'.ticket ≤ s.tickets := by
        obtain ⟨parked, hp, rfl⟩ := Option.map_eq_some_iff.mp hpend
        obtain ⟨question, _, hcont, _⟩ := ho.parked parked hp
        rw [hcont]
        exact Nat.le_refl _
      have hnil : log.filter (Exchange.resumes c) = [] := by
        rcases h.resumed c with hnil | ⟨_, _, hp⟩
        · exact hnil
        · have hlt := hp c' hpend
          omega
      rw [List.filter_cons_of_pos hr, hnil]
      refine .inr ⟨rfl, by omega, ?_⟩
      intro p hp
      have ht := hs.ticket_eq hp
      omega

theorem exchange (h : Disciplined log s) (ho : Orderly log s)
    (ho' : Orderly (e :: log) e.reply.session) (hlog : pending? log = s.pending)
    (hc : Course s e) : Disciplined (e :: log) e.reply.session where
  generation_le _ hi := (voided_cons h ho' hc hi).1
  voided_iff _ hi := (voided_cons h ho' hc hi).2
  answered _ ha := answered_cons h ho hc ha
  pending _ hi hv ha := pending_cons h hlog hc hi hv ha
  mem_parkings := (parkings_cons h ho hlog hc).1
  sorted := (parkings_cons h ho hlog hc).2
  resumed := resumed_cons h ho hc

end Disciplined

theorem History.disciplined {program : Program} {config : Config}
    (h : History program config log s) : Disciplined log s := by
  induction h with
  | new =>
    exact ⟨by simp [issued], by simp [issued], fun c ha => absurd ha not_happened_nil,
      by simp [issued], by simp [issued, parkings], by simp [parkings], by simp⟩
  | exchange request h ih =>
    exact ih.exchange h.orderly (h.exchange request).orderly h.pending?_eq
      (Session.course h.orderly request)

theorem Value.of_kind?_eq_some {v : Value} {kind : Kind} (h : v.kind? = some kind) :
    ∃ answer : Answer, answer.value = v ∧ answer.kind = kind := by
  cases v <;> simp only [kind?, Option.some.injEq, reduceCtorEq] at h
  case number n => exact ⟨.number n, rfl, h⟩
  case boolean b => exact ⟨.boolean b, rfl, h⟩

namespace Session

theorem resume_of_stale {c : Continuation} {v : Value} (hg : c.generation ≠ s.generation) :
    s.resume c v = s.reply (.error (.staleContinuation c.question)) [] := by
  simp [resume, hg]

theorem resume_of_consumed {c : Continuation} {v : Value} (hg : c.generation = s.generation)
    (hp : ∀ p, s.pending = some p → p.ticket ≠ c.ticket) :
    s.resume c v = s.reply (.error (.continuationConsumed c.question)) [] := by
  cases hs : s.parked with
  | none => simp [resume, hg, hs]
  | some parked =>
    have ht := hp parked.continuation (by simp [pending, hs])
    simp [resume, hg, hs, ht]

theorem checkKind_of_mismatch {question : String} {expected : Kind} {v : Value}
    (hk : v.kind? ≠ some expected) :
    checkKind question expected v = .error (.inputKindMismatch question expected v.category) := by
  rw [Value.kind?_eq] at hk
  unfold checkKind
  cases ha : v.answer? with
  | none => rfl
  | some answer => simpa [ha] using hk

theorem checkKind_of_answer {question : String} {answer : Answer} :
    checkKind question answer.kind answer.value = .ok answer := by
  simp [checkKind, Value.answer?_value]

theorem resume_of_mismatch {c : Continuation} {v : Value} {parked : Parked}
    (hg : c.generation = s.generation) (hp : s.parked = some parked)
    (ht : parked.continuation.ticket = c.ticket) (hk : v.kind? ≠ some c.kind) :
    s.resume c v =
      s.reply (.error (.inputKindMismatch c.question c.kind v.category)) [] := by
  simp [resume, hg, hp, ht, checkKind_of_mismatch hk]

theorem resume_of_answer {c : Continuation} {answer : Answer} {parked : Parked}
    (hg : c.generation = s.generation) (hp : s.parked = some parked)
    (ht : parked.continuation.ticket = c.ticket) (hk : answer.kind = c.kind) :
    s.resume c answer.value = (s.answered c.question answer).settle
      (parked.pass.resume s.config answer (s.answers.insert c.question answer)) := by
  simp [resume, hg, hp, ht, ← hk, checkKind_of_answer, answered]

/-- Goes on with the parked pass from its question, which the continuation has. -/
def Continues (s : Session) (c : Continuation) (v : Value) : Prop :=
  ∃ parked answer, s.parked = some parked ∧ answer.value = v ∧
    s.resume c v = (s.answered c.question answer).settle
      (parked.pass.resume s.config answer (s.answers.insert c.question answer))

theorem Continues.result_ne {c : Continuation} {v : Value} (h : s.Continues c v)
    (ho : Orderly log s) {error : EvalError} (he : error.rejects = true) :
    (s.resume c v).result ≠ .error error := by
  obtain ⟨parked, answer, hp, rfl, hr⟩ := h
  obtain ⟨question, hout, _, _⟩ := ho.parked parked hp
  have ha := (settle_settled (s.answered c.question answer) (parked.pass.resume s.config answer
    (s.answers.insert c.question answer))).accepted
    (fun e h => Pass.rejects_of_resume hout h) .evaluate
  rw [← hr] at ha
  intro hn
  simp [Exchange.accepted, Reply.map, hn, Except.map, he] at ha

theorem resume_of_pending (ho : Orderly log s) {c : Continuation} (hp : s.pending = some c)
    (v : Value) :
    (v.kind? ≠ some c.kind → s.resume c v =
      s.reply (.error (.inputKindMismatch c.question c.kind v.category)) []) ∧
    (v.kind? = some c.kind → s.Continues c v) := by
  have hg := Disciplined.generation_eq ho hp
  obtain ⟨parked, hparked, hcont⟩ := Option.map_eq_some_iff.mp hp
  have ht : parked.continuation.ticket = c.ticket := by rw [hcont]
  constructor
  · exact resume_of_mismatch hg hparked ht
  · intro hk
    obtain ⟨answer, rfl, hkind⟩ := Value.of_kind?_eq_some hk
    exact ⟨parked, answer, hparked, rfl, resume_of_answer hg hparked ht hkind⟩

theorem resume_of_pending_ne (ho : Orderly log s) {c : Continuation} (hi : c ∈ issued log)
    (hg : c.generation = s.generation) (hp : s.pending ≠ some c) (v : Value) :
    s.resume c v = s.reply (.error (.continuationConsumed c.question)) [] := by
  apply resume_of_consumed hg
  intro p hpend ht
  obtain ⟨parked, hparked, hcont⟩ := Option.map_eq_some_iff.mp hpend
  obtain ⟨question, _, hof, _⟩ := ho.parked parked hparked
  have htickets : c.ticket = s.tickets := by rw [← ht, ← hcont, hof]; rfl
  have hc := ho.unique c hi parked hparked htickets
  rw [hc, hcont] at hp
  exact hp hpend

end Session

/-- A continuation that was given out is stale exactly if an evaluation was begun or an answer
withdrawn since; else it is consumed exactly if its question was answered at its place; else it is
the pending one, and the kind of the value decides. None serves twice, and no two places where a
pass was parked have continuations of one generation and ticket. -/
theorem History.continuation_verdict {program : Program} {config : Config}
    (h : History program config log s) :
    (∀ c ∈ issued log, ∀ v,
      ((s.resume c v).result = .error (.staleContinuation c.question) ↔ Voided c log) ∧
      ((s.resume c v).result = .error (.continuationConsumed c.question) ↔
        ¬Voided c log ∧ Answered c log) ∧
      (¬Voided c log → ¬Answered c log → s.pending = some c ∧
        (v.kind? ≠ some c.kind → s.resume c v =
          s.reply (.error (.inputKindMismatch c.question c.kind v.category)) []) ∧
        (v.kind? = some c.kind → s.Continues c v))) ∧
    (∀ c, (log.filter (Exchange.resumes c)).length ≤ 1) ∧
    (∀ c, c ∈ issued log ↔ c ∈ parkings log) ∧
    ((parkings log).map fun c => (c.generation, c.ticket)).Nodup := by
  have ho := h.orderly
  have hd := h.disciplined
  refine ⟨?_, ?_, hd.mem_parkings, ?_⟩
  · intro c hi v
    have hv := hd.voided_iff c hi
    have hpending : ¬Voided c log → ¬Answered c log → s.pending = some c := hd.pending c hi
    by_cases hvoid : Voided c log
    · have hr := Session.resume_of_stale (v := v) (hv.mp hvoid)
      simp [hr, Session.reply, hvoid]
    · have hg : c.generation = s.generation := Decidable.not_not.mp fun hg => hvoid (hv.mpr hg)
      by_cases hans : Answered c log
      · have hr := Session.resume_of_pending_ne ho hi hg (hd.answered c hans) v
        simp [hr, Session.reply, hvoid, hans]
      · have hp := hpending hvoid hans
        obtain ⟨hmismatch, hcontinues⟩ := Session.resume_of_pending ho hp v
        have hne : ∀ error : EvalError, error.rejects = true →
            (∀ q k f, error ≠ .inputKindMismatch q k f) →
            (s.resume c v).result ≠ .error error := by
          intro error he hn
          by_cases hk : v.kind? = some c.kind
          · exact (hcontinues hk).result_ne ho he
          · rw [hmismatch hk]
            intro h
            exact hn _ _ _ (Except.error.inj h).symm
        have hstale := hne (.staleContinuation c.question) rfl (by simp)
        have hconsumed := hne (.continuationConsumed c.question) rfl (by simp)
        refine ⟨by simp [hstale, hvoid], by simp [hconsumed, hans], ?_⟩
        exact fun _ _ => ⟨hp, hmismatch, hcontinues⟩
  · intro c
    rcases hd.resumed c with hnil | ⟨hone, _⟩
    · simp [hnil]
    · omega
  · rw [List.Nodup, List.pairwise_map]
    exact hd.sorted.imp fun hlt heq => by
      simp only [Prod.mk.injEq] at heq
      omega

theorem History.continuation_verdict_invoice :
    let config : Config := ⟨50, true, false⟩
    let c : Continuation := ⟨"ordered", .number, 1, 1⟩
    ∃ log s, History Pass.invoice config log s ∧ c ∈ issued log ∧ s.pending ≠ some c ∧
      (s.resume c (.number 7)).result = .error (.continuationConsumed "ordered") ∧
      ¬Voided c log ∧ Answered c log ∧ (log.filter (Exchange.resumes c)).length ≤ 1 ∧
      (∀ c, c ∈ issued log ↔ c ∈ parkings log) ∧
      ((parkings log).map fun c => (c.generation, c.ticket)).Nodup := by
  intro config c
  have hanswered {log : List Exchange} {s : Session} (h : History Pass.invoice config log s)
      (hi : c ∈ issued log)
      (hr : (s.resume c (.number 7)).result = .error (.continuationConsumed "ordered")) :
      ¬Voided c log ∧ Answered c log ∧ (log.filter (Exchange.resumes c)).length ≤ 1 ∧
        (∀ c, c ∈ issued log ↔ c ∈ parkings log) ∧
        ((parkings log).map fun c => (c.generation, c.ticket)).Nodup := by
    obtain ⟨hverdict, honce, hmem, hnodup⟩ := History.continuation_verdict h
    obtain ⟨hv, ha⟩ := (hverdict c hi (.number 7)).2.1.mp hr
    exact ⟨hv, ha, honce c, hmem, hnodup⟩
  have h₁ : History Pass.invoice config _ _ := .exchange .evaluate .new
  have h₂ := History.exchange (.provide "ordered" (.number 2)) h₁
  exact ⟨_, _, h₂, by decide +kernel, by decide +kernel, rfl,
    hanswered h₂ (by decide +kernel) rfl⟩

end Inquiry
