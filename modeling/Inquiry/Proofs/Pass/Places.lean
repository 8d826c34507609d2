import Inquiry.Proofs.Pass.Deriving
import Inquiry.Proofs.Pass.Gas
import Inquiry.Proofs.Pass.Recording
set_option autoImplicit false

namespace Inquiry

namespace Heap

variable {h : Heap} {id : ThunkId}

def forcedThunks (h : Heap) : List ThunkId :=
  ((List.range h.thunks.size).map ThunkId.mk).filter fun id => (h.forced? id).isSome

theorem lt_of_forced? (hd : (h.forced? id).isSome) : id.index < h.thunks.size := by
  apply Nat.lt_of_not_le
  intro hi
  have hstate : (h.thunk id).state = .unforced := state_of_le hi
  simp [forced?, hstate] at hd

theorem mem_forcedThunks : id ∈ h.forcedThunks ↔ (h.forced? id).isSome := by
  obtain ⟨i⟩ := id
  simp only [forcedThunks, List.mem_filter, List.mem_map, List.mem_range, ThunkId.mk.injEq,
    exists_eq_right, and_iff_right_iff_imp]
  exact lt_of_forced?

theorem nodup_forcedThunks (h : Heap) : h.forcedThunks.Nodup :=
  (List.nodup_range.map fun _ _ he => ThunkId.mk.inj he).filter _

theorem isSome_forced?_setState {d : Datum} (hi : id.index < h.thunks.size) (other : ThunkId) :
    ((h.setState id (.forced d)).forced? other).isSome ↔
      other = id ∨ (h.forced? other).isSome := by
  by_cases ho : other = id
  · simp [ho, forced?_setState hi]
  · simp [forced?, thunk_setState, ho]

end Heap

theorem Tape.Gets.written_le {tape tape' : Tape} {before after : Nat}
    (h : tape.Gets before tape' after) : tape'.written ≤ tape.written + 1 := by
  cases h with
  | nothing ht =>
    rw [ht]
    exact Nat.le_succ _
  | node rule _ ht =>
    rw [ht]
    exact tape.written_emit_le rule

/-- Where the value of a delayed expression is kept. The node at `node` is written next; it carries
the derivation of that value if it is `shown`. -/
structure Place where
  thunk : ThunkId
  shown : Bool
  node : Nat

namespace Pass

def place? : Moment → Option Place
  | (.running (.give _), m) =>
    match m.stack with
    | .memoize id :: rest => some ⟨id, rest.head?.any Task.shows, m.tape.written⟩
    | _ => none
  | _ => none

def places (moments : List Moment) : List Place := moments.filterMap place?

/-- The node that shows the value that was just kept, if it is still to be written. -/
def pending : Moment → List Nat
  | (.running (.give _), m) => if m.shows then [m.tape.written] else []
  | _ => []

/-- The places so far account for the delayed expressions that have values and for the nodes that
carry their derivations. -/
structure Accounted (now : Moment) (earlier : List Moment) : Prop where
  covered : now.2.Covered
  quiet : (∀ d, now.1 ≠ .running (.give d)) → now.2.shows = false
  nodup : ((places earlier).map Place.thunk).Nodup
  forced : ∀ id, id ∈ (places earlier).map Place.thunk ↔ (now.2.heap.forced? id).isSome
  nodes : ∃ rules : List Rule, now.2.tape.Lists rules ∧
    rules.findIdxs Rule.derives ++ pending now =
      (((places earlier).filter Place.shown).map Place.node).reverse

variable {captureTrace : Bool} {program : Program} {answers : Answers} {control next : Control}
  {standing : Standing} {m m' : Machine} {now after : Moment} {earlier : List Moment}

theorem places_cons_of_none (hp : place? now = none) : places (now :: earlier) = places earlier :=
  List.filterMap_cons_none hp

theorem pending_of_not_shows (hs : now.2.shows = false) : pending now = [] := by
  obtain ⟨standing, m⟩ := now
  match standing with
  | .running (.give d) => exact if_neg (by simpa using hs)
  | .running (.eval _ _) | .parked _ | .finished _ => rfl

theorem place?_push_of_not_kept {d : Datum} {task : Task} (hk : task.kept? = none) :
    place? (.running (.give d), m.push task) = none := by
  cases task with
  | memoize => cases hk
  | _ => rfl

theorem quiet_now (hq : m.Quiet control) :
    place? (.running control, m) = none ∧ pending (.running control, m) = [] := by
  obtain ⟨heap, stack, tape, opened⟩ := m
  match control, stack with
  | .eval _ _, _ => exact ⟨rfl, rfl⟩
  | .give d, [] => exact ⟨rfl, rfl⟩
  | .give d, task :: stack =>
    obtain ⟨hk, hs⟩ := hq d rfl task rfl
    exact ⟨place?_push_of_not_kept (m := ⟨heap, stack, tape, opened⟩) hk, pending_of_not_shows hs⟩

namespace Accounted

theorem keep (h : Accounted now earlier) (hp : place? now = none) (hn : pending now = [])
    (hc : after.2.Covered) (hs : after.2.shows = false)
    (hf : ∀ id, after.2.heap.forced? id = now.2.heap.forced? id)
    (ht : after.2.tape = now.2.tape ∨
      ∃ rule : Rule, rule.derives = false ∧ after.2.tape = now.2.tape.emit rule) :
    Accounted after (now :: earlier) := by
  obtain ⟨_, _, hnodup, hforced, rules, hlists, hnodes⟩ := h
  rw [hn, List.append_nil] at hnodes
  refine ⟨hc, fun _ => hs, ?_, ?_, ?_⟩
  · rwa [places_cons_of_none hp]
  · intro id
    rw [places_cons_of_none hp, hf id]
    exact hforced id
  · rw [places_cons_of_none hp, pending_of_not_shows hs]
    rcases ht with ht | ⟨rule, hr, ht⟩
    · exact ⟨rules, ht ▸ hlists, by rw [List.append_nil, hnodes]⟩
    · refine ⟨rules ++ [rule], ht ▸ hlists.emit rule, ?_⟩
      simp [List.findIdxs_append, hr, hnodes]

theorem shown {d : Datum} {task : Task} {rule : Rule}
    (h : Accounted (.running (.give d), m.push task) earlier) (ht : task.shows = true)
    (hr : rule.derives = true) :
    Accounted (.running (.give d), m.emit rule) ((.running (.give d), m.push task) :: earlier) := by
  have hk : task.kept? = none := Task.kept?_of_shows ht
  have hp := place?_push_of_not_kept (m := m) (d := d) hk
  obtain ⟨hs, hc⟩ := h.covered.of_push hk
  obtain ⟨_, _, hnodup, hforced, rules, hlists, hnodes⟩ := h
  have hpending : pending (.running (.give d), m.push task) = [rules.length] := by
    rw [← hlists.written]
    exact if_pos ht
  refine ⟨hc, fun _ => hs, ?_, ?_, rules ++ [rule], hlists.emit rule, ?_⟩
  · rwa [places_cons_of_none hp]
  · rwa [places_cons_of_none hp]
  · rw [hpending] at hnodes
    rw [places_cons_of_none hp, pending_of_not_shows hs, ← hnodes]
    simp [List.findIdxs_append, hr]

theorem kept {d : Datum} {id : ThunkId}
    (h : Accounted (.running (.give d), m.push (.memoize id)) earlier)
    (hi : id.index < m.heap.thunks.size) (hf : m.heap.forced? id = none) :
    Accounted (.running (.give d), m.withHeap (m.heap.setState id (.forced d)))
      ((.running (.give d), m.push (.memoize id)) :: earlier) := by
  have hp : places ((.running (.give d), m.push (.memoize id)) :: earlier) =
      ⟨id, m.shows, m.tape.written⟩ :: places earlier := rfl
  obtain ⟨hc, _, hnodup, hforced, rules, hlists, hnodes⟩ := h
  refine ⟨(Machine.covered_push.mp hc).2, fun hn => absurd rfl (hn d), ?_, ?_, rules, hlists, ?_⟩
  · rw [hp, List.map_cons, List.nodup_cons, hforced id]
    exact ⟨by simp [hf], hnodup⟩
  · intro other
    rw [hp, List.map_cons, List.mem_cons, hforced other]
    exact (Heap.isSome_forced?_setState hi other).symm
  · have hpending : pending (.running (.give d), m.withHeap (m.heap.setState id (.forced d))) =
        if m.shows then [m.tape.written] else [] := rfl
    rw [pending_of_not_shows rfl, List.append_nil] at hnodes
    rw [hp, hnodes, hpending]
    cases hs : m.shows <;> simp

theorem turn (h : Accounted (.running control, m) earlier)
    (hr : Reaches captureTrace program (.running control) m)
    (hs : m.step answers control = .next next m') :
    Accounted (.running next, m') ((.running control, m) :: earlier) := by
  obtain ⟨_, hm, _⟩ := hr.sound
  have hidle : ∀ e scope, control = .eval e scope → m.shows = false := by
    rintro e scope rfl
    exact h.quiet nofun
  cases Machine.deriving_of_step hm h.covered hidle hs with
  | other hq ht hf hs hc =>
    obtain ⟨hp, hn⟩ := quiet_now hq
    exact h.keep hp hn hc hs hf ht
  | shows ht hrule => exact h.shown ht hrule
  | @keeps m d id hi =>
    have hforcing : (m.heap.thunk id).state = .forcing := by
      apply (hr.tracked.forcing_iff id).mpr
      rw [Machine.underway_push]
      exact List.mem_cons_self
    exact h.kept hi (by simp [Heap.forced?, hforcing])

theorem stop {outcome : Outcome} (h : Accounted (.running control, m) earlier)
    (hs : m.step answers control = .stop outcome m') (ho : outcome.standing? = some standing) :
    Accounted (standing, m') ((.running control, m) :: earlier) := by
  obtain ⟨rfl, hcases⟩ := Machine.eq_of_stop hs ho
  have hquiet : m'.Quiet control ∧ m'.shows = false := by
    rcases hcases with ⟨question, scope, rfl, rfl⟩ | ⟨d, rfl, rfl, hstack⟩
    · exact ⟨nofun, h.quiet nofun⟩
    · simp [Machine.Quiet, Machine.shows, hstack]
  obtain ⟨hp, hn⟩ := quiet_now hquiet.1
  exact h.keep hp hn h.covered hquiet.2 (fun _ => rfl) (.inl rfl)

theorem answer {question : Question} (h : Accounted (.parked question, m) earlier)
    (answer : Answer) :
    Accounted (.running (.give answer.datum), m.emit (.input question.text answer.summary))
      ((.parked question, m) :: earlier) :=
  h.keep rfl rfl h.covered (h.quiet nofun) (fun _ => rfl) (.inr ⟨_, rfl, rfl⟩)

theorem start {body : List Stmt}
    (hm : (Machine.initial true).enterBlock Heap.globalFrame [] body = (control, m)) :
    Accounted (.running control, m) [] := by
  obtain ⟨hc, hs⟩ := Machine.covered_enterBlock hm
  have hheap : ∀ id, m.heap.forced? id = none := by
    intro id
    have hstates : Heap.initial.KeepsStates (Heap.initial.bindAll Heap.globalFrame [] body) :=
      (Heap.declares_bindAll _ _ _ _).keepsStates
    obtain ⟨_, _, _, rfl⟩ | ⟨_, rfl⟩ := Machine.enterBlock_initial hm <;>
      exact (hstates.forced?_eq id).trans rfl
  refine ⟨hc, fun _ => hs, .nil, fun id => ?_, ?_⟩
  · simp [places, hheap id]
  · rw [pending_of_not_shows hs]
    obtain ⟨_, _, _, rfl⟩ | ⟨_, rfl⟩ := Machine.enterBlock_initial hm
    · exact ⟨[], .empty, rfl⟩
    · exact ⟨[_], Tape.Lists.empty.emit _, rfl⟩

end Accounted

theorem Course.accounted (h : Course true program (now :: earlier)) : Accounted now earlier := by
  generalize hmoments : now :: earlier = moments at h
  induction h generalizing now earlier with
  | start _ hm =>
    cases hmoments
    exact .start hm
  | advance hc ha ih =>
    cases hmoments
    have hbefore := ih rfl
    cases ha with
    | turn hs => exact hbefore.turn hc.reaches hs
    | stop hs ho => exact hbefore.stop hs ho
    | answer answer => exact hbefore.answer answer

theorem Course.places_of_finished {d : Datum}
    (h : Course true program ((.finished d, m) :: earlier)) {trace : Trace}
    (ht : m.tape.decode = .ok trace) :
    ((places earlier).map Place.thunk).Perm m.heap.forcedThunks ∧
      ((places earlier).filter Place.shown).map Place.node = trace.derived.reverse := by
  obtain ⟨_, _, hnodup, hforced, rules, hlists, hnodes⟩ := h.accounted
  constructor
  · refine (List.perm_ext_iff_of_nodup hnodup m.heap.nodup_forcedThunks).mpr fun id => ?_
    rw [hforced id, Heap.mem_forcedThunks]
  · obtain ⟨t, htokens⟩ := h.reaches.tokens_of_finished
    obtain rfl : trace = t.trace :=
      Except.ok.inj (ht.symm.trans (Derivation.decode_of_tokens htokens))
    rw [Trace.derived_eq, hlists.rules_eq htokens, ← List.reverse_eq_iff]
    exact hnodes.symm.trans (List.append_nil _)

theorem Reaches.written_le_run {gas turns : Nat}
    (h : Reaches captureTrace program (.running control) m) (hw : m.tape.written ≤ turns + 1)
    (ho : (m.run answers gas turns control).outcome.standing? = some standing) :
    (m.run answers gas turns control).machine.tape.written ≤
      (m.run answers gas turns control).turns := by
  induction gas generalizing turns control m with
  | zero => cases ho
  | succ gas ih =>
    unfold Machine.run at ho ⊢
    split at ho
    · rename_i hs
      have hgets := (Machine.gets_of_step h.allOpen hs).written_le
      exact ih (h.next hs) (Nat.le_trans hgets (Nat.succ_le_succ hw)) ho
    · -- The turn that stops the machine writes none, which makes up for the node written at first.
      rename_i hs
      obtain ⟨rfl, _⟩ := Machine.eq_of_stop hs ho
      exact hw

variable {config : Config} {pass : Pass} {d : Datum}

theorem Arises.written_le_turns (h : Arises config program pass)
    (ho : pass.outcome.standing? = some standing) : pass.machine.tape.written ≤ pass.turns := by
  induction h generalizing standing with
  | start answers =>
    unfold Pass.start at ho ⊢
    split at ho
    · cases ho
    · rename_i hb
      simp only [if_neg hb]
      simp only [List.isEmpty_iff] at hb
      refine (Reaches.start hb rfl).written_le_run ?_ ho
      exact (Machine.gets_enterBlock rfl).written_le
  | @resume pass answer answers h ih =>
    cases hp : pass.outcome with
    | parked question =>
      rw [resume_of_parked hp] at ho ⊢
      have hwritten : pass.machine.tape.written ≤ pass.turns := ih (by rw [hp]; rfl)
      have hemit := pass.machine.tape.written_emit_le (.input question.text answer.summary)
      exact ((h.reached.parked hp).answer answer).written_le_run
        (Nat.le_trans hemit (Nat.succ_le_succ hwritten)) ho
    | finished | failed =>
      rw [resume_of_not_parked (by simp [hp])] at ho ⊢
      exact ih ho

theorem Arises.turns_le_gasLimit (h : Arises config program pass)
    (ho : pass.outcome ≠ .failed .gasExhausted) : pass.turns ≤ config.gasLimit := by
  obtain ⟨first, schedule, ha, rfl⟩ := h.exists_schedule
  cases ha.limited with
  | within hn h => rwa [after_of_lasts h hn]
  | exceeded hout => contradiction

/-- A pass that is done, whatever was answered before and on the way, took at least as many turns as
its trace has nodes, within its gas. The nodes for names and fields that carry a derivation are no
more than the delayed expressions that have got a value: each of these was given its value at just
one of the moments of the pass, and the nodes are those that come next at some of these moments. -/
theorem Arises.trace_bounded (h : Arises config program pass) (ht : config.captureTrace = true)
    (ho : pass.outcome = .finished d) :
    let m := pass.machine
    ∃ trace, m.tape.decode = .ok trace ∧
      trace.nodes.size ≤ pass.turns ∧ pass.turns ≤ config.gasLimit ∧
      trace.derived.length ≤ m.heap.forcedThunks.length ∧
      (∃ earlier, Course true program ((.finished d, m) :: earlier)) ∧
      ∀ earlier, Course true program ((.finished d, m) :: earlier) →
        ((places earlier).map Place.thunk).Perm m.heap.forcedThunks ∧
          ((places earlier).filter Place.shown).map Place.node = trace.derived.reverse := by
  intro m
  have hstanding : pass.outcome.standing? = some (.finished d) := by
    rw [ho]
    rfl
  have hreaches : Reaches true program (.finished d) m := ht ▸ h.reached.reaches _ hstanding
  obtain ⟨t, htokens⟩ := hreaches.tokens_of_finished
  have hdecode := Derivation.decode_of_tokens htokens
  obtain ⟨earlier, hcourse⟩ := hreaches.exists_course
  obtain ⟨hthunks, hnodes⟩ := hcourse.places_of_finished hdecode
  refine ⟨t.trace, hdecode, ?_, h.turns_le_gasLimit (by rw [ho]; nofun), ?_, ⟨earlier, hcourse⟩,
    fun _ hcourse => hcourse.places_of_finished hdecode⟩
  · obtain ⟨_, _, _, _, rules, hlists, _⟩ := hcourse.accounted
    calc t.trace.nodes.size
      _ = (t.trace.nodes.toList.map Node.rule).length := by simp
      _ = m.tape.written := by rw [hlists.rules_eq htokens, hlists.written]
      _ ≤ pass.turns := h.written_le_turns hstanding
  · calc t.trace.derived.length
      _ = (((places earlier).filter Place.shown).map Place.node).length := by simp [hnodes]
      _ ≤ ((places earlier).map Place.thunk).length := by
        rw [List.length_map, List.length_map]
        exact List.length_filter_le _ _
      _ = m.heap.forcedThunks.length := hthunks.length_eq

theorem trace_bounded_invoice :
    let config : Config := ⟨50, true, false⟩
    let ordered := Answers.empty.insert "ordered" (.number 2)
    let priced := ordered.insert "price" (.number 5)
    let parked := (start config invoice .empty).resume config (.number 2) ordered
    let pass := parked.resume config (.number 5) priced
    Arises config invoice pass ∧ pass.outcome = .finished (.record ⟨0⟩) ∧ pass.turns = 19 ∧
      pass.machine.heap.forcedThunks = [⟨0⟩, ⟨1⟩] ∧
      ∃ trace, pass.machine.tape.decode = .ok trace ∧ trace.nodes.size ≤ 19 ∧
        trace.derived.length ≤ 2 := by
  intro config ordered priced parked pass
  have harises : Arises config invoice pass := .resume _ _ (.resume _ _ (.start _))
  have hdone : pass.outcome = .finished (.record ⟨0⟩) := by decide
  have hturns : pass.turns = 19 := by decide
  have hforced : pass.machine.heap.forcedThunks = [⟨0⟩, ⟨1⟩] := by decide
  obtain ⟨trace, hdecode, hsize, _, hderived, _⟩ := harises.trace_bounded rfl hdone
  rw [hforced] at hderived
  exact ⟨harises, hdone, hturns, hforced, trace, hdecode, hturns ▸ hsize, hderived⟩

end Pass

end Inquiry
