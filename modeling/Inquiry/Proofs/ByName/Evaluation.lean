import Inquiry.Proofs.ByName.Agreement
import Inquiry.Proofs.Operators
set_option autoImplicit false

namespace Inquiry

namespace ByName

open ByNeed (Store)

variable {answers : Answers} {goals : Goal → Prop} {slack height : Nat} {w w' : World}
  {h h' : Heap} {s : Store}

namespace World

theorem Stands.answer (w : World) (a : Answer) : w.Stands a.datum (.ofResult a.datum) := by
  cases a with
  | number n => exact .number n
  | boolean b => exact .boolean b

theorem Stands.toBool {d : Datum} {form : Form} (hs : w.Stands d form) (place : Condition) :
    form.operand.toBool place = d.toBool place := by
  cases hs <;> rfl

theorem Stands.same {l r : Datum} {l' r' : Form} (hl : w.Stands l l') (hr : w.Stands r r')
    (op : BinOp) : l'.operand.same op r'.operand = l.same op r := by
  cases hl <;> cases hr <;> rfl

theorem Stands.binary {l r : Datum} {l' r' : Form} (hl : w.Stands l l') (hr : w.Stands r r')
    (op : BinOp) : op.apply l'.operand r'.operand = op.apply l r := by
  unfold BinOp.apply
  rw [hl.same hr, hl.same hr]
  cases hl <;> cases hr <;> rfl

theorem Stands.unary {d : Datum} {form : Form} (hs : w.Stands d form) (op : UnaryOp) :
    op.apply form.operand = op.apply d := by
  cases op <;> cases hs <;> rfl

end World

theorem Backs.thunk_of_state (hb : Backs answers goals w h) {id : ThunkId}
    (hs : (h.thunk id).state ≠ .unforced) : ∃ e env, w.thunks[id.index]? = some (e, env) := by
  have hi : id.index < w.thunks.length := by
    rw [hb.thunks_size]
    apply Nat.lt_of_not_le
    intro hn
    exact hs (by simp [Heap.thunk, Array.getElem?_eq_none hn]; rfl)
  exact ⟨_, _, List.getElem?_eq_getElem hi⟩

section Force

variable {id : ThunkId} {e : Expr} {env : Env}

theorem Backs.thunk_lt (hb : Backs answers goals w h)
    (ht : w.thunks[id.index]? = some (e, env)) : id.index < h.thunks.size := by
  rw [← hb.thunks_size]
  exact (List.getElem?_eq_some_iff.mp ht).1

/-- While an expression is evaluated it is one of the goals. -/
theorem Models.start (hm : Models answers goals w h) (ht : w.thunks[id.index]? = some (e, env)) :
    Models answers (fun goal => goals goal ∨ goal = .value e env) w
      (h.setState id .forcing) := by
  refine hm.with_thunks Array.size_modify fun {other e' env'} hother => ?_
  have hs := hm.thunk hother
  show StandsFor _ _ w ((h.setState id .forcing).thunk other) e' env'
  rw [Heap.thunk_setState]
  split
  · rename_i hi
    obtain rfl := hi.1
    rw [ht] at hother
    cases hother
    exact ⟨hs.expr, hs.scope, nofun, fun _ => .inr rfl⟩
  · exact ⟨hs.expr, hs.scope, hs.forced, fun hf => .inl (hs.forcing hf)⟩

theorem Models.restrict {goals' : Goal → Prop} (hm : Models answers goals w h)
    (hg : w.Grows w') (he : h.Evolves h') (hm' : Models answers goals' w' h') :
    Models answers goals w' h' := by
  refine hm'.with_thunks rfl fun {other e' env'} ht => ?_
  have hs := hm'.thunk ht
  refine ⟨hs.expr, hs.scope, hs.forced, fun hf => ?_⟩
  have hold := he.forcing other hf
  have hstarted : (h.thunk other).state ≠ .unforced := by
    rw [hold]
    nofun
  obtain ⟨e₀, env₀, hwas⟩ := hm.thunk_of_state hstarted
  have hgoal := (hm.thunk hwas).forcing hold
  rw [hg.thunks _ _ hwas] at ht
  cases ht
  exact hgoal

theorem Models.keep (hm : Models answers goals w h) (ht : w.thunks[id.index]? = some (e, env))
    {d : Datum} {form : Form} (hd : w.Stands d form)
    (hy : Settles (fun n => evaluate answers n env e) (.ok form)) :
    Models answers goals w (h.setState id (.forced d)) := by
  refine hm.with_thunks Array.size_modify fun {other e' env'} hother => ?_
  have hs := hm.thunk hother
  show StandsFor _ _ w ((h.setState id (.forced d)).thunk other) e' env'
  rw [Heap.thunk_setState]
  split
  · rename_i hi
    obtain rfl := hi.1
    rw [ht] at hother
    cases hother
    refine ⟨hs.expr, hs.scope, fun d' hd' => ?_, nofun⟩
    cases hd'
    exact ⟨form, hd, hy⟩
  · exact hs

theorem Models.finish (hm : Models answers goals w h) (ht : w.thunks[id.index]? = some (e, env))
    (hu : (h.thunk id).state = .unforced)
    (hb : Becomes answers (fun goal => goals goal ∨ goal = .value e env) w
      (h.setState id .forcing) w' h') {d : Datum} {form : Form} (hd : w'.Stands d form)
    (hy : Settles (fun n => evaluate answers n env e) (.ok form)) :
    Becomes answers goals w h w' (h'.setState id (.forced d)) := by
  have ht' := hb.grows.thunks _ _ ht
  have hlt := hb.models.thunk_lt ht'
  have hevolves : h.Evolves (h'.setState id (.forced d)) := by
    refine ⟨fun other d' hd' => ?_, fun other hf => ?_, hb.evolves.records, hb.evolves.closures⟩
    · have hne : other ≠ id := by
        rintro rfl
        rw [hu] at hd'
        cases hd'
      rw [Heap.thunk_setState, if_neg (by simp [hne])]
      apply hb.evolves.forced
      rw [Heap.thunk_setState, if_neg (by simp [hne])]
      exact hd'
    · rw [Heap.thunk_setState] at hf
      split at hf
      · cases hf
      · rename_i hi
        have hne : other ≠ id := fun he => hi ⟨he, hlt⟩
        have hold := hb.evolves.forcing other hf
        rw [Heap.thunk_setState, if_neg (by simp [hne])] at hold
        exact hold
  exact ⟨hb.grows, hevolves, hm.restrict hb.grows hevolves (hb.models.keep ht' hd hy)⟩

theorem never_of_earlier {P : Nat → Prop} (h : ∀ k, P k → ∃ j, j < k ∧ P j) (k : Nat) : ¬P k := by
  induction k using Nat.strongRecOn with
  | _ k ih =>
    intro hk
    obtain ⟨j, hj, hp⟩ := h k hk
    exact ih j hj hp

end Force

/-- If something needs itself among its goals, it is never found. -/
theorem Needs.discharge {α : Type} {y : Nat → Evaluation α} {own : Goal}
    (hy : ∀ k, own.Ends answers k → y k ≠ none)
    (h : Needs answers (fun goal => goals goal ∨ goal = own) 1 y) :
    Needs answers goals 0 y := by
  rcases h with hnone | ⟨goal, hg | rfl, hends⟩
  · exact .inl hnone
  · exact Needs.weaken (.inr ⟨goal, hg, hends⟩)
  · have hnever := never_of_earlier (P := fun k => y k ≠ none) fun k hk =>
      let ⟨j, hj, he⟩ := hends k hk
      ⟨j, hj, hy j he⟩
    exact .inl fun k => not_not.mp (hnever k)

/-- How an evaluation with a store is compared to one without: at any world and heap. -/
def Agrees (answers : Answers) (height : Nat)
    (eval : Scope → Expr → ByNeed.Evaluation Datum) : Prop :=
  ∀ (goals : Goal → Prop) (w : World) (s : Store) (scope : Scope) (e : Expr) (env : Env),
    Models answers goals w s.heap → w.Reads scope env →
    Matches answers goals 1 height (fun w _ d form => w.Stands d form) w s.heap (eval scope e s)
      fun k => evaluate answers k env e

theorem force_matches {eval : Scope → Expr → ByNeed.Evaluation Datum}
    (he : Agrees answers height eval) (hm : Models answers goals w s.heap) {id : ThunkId}
    {e : Expr} {env : Env} (ht : w.thunks[id.index]? = some (e, env)) :
    Matches answers goals 0 height
      (fun w h found form => w.Stands found.1 form ∧ (h.thunk id).state = .forced found.1)
      w s.heap (ByNeed.force eval id s) fun k => evaluate answers k env e := by
  have hstands := hm.thunk ht
  cases hs : (s.heap.thunk id).state with
  | forced d =>
    obtain ⟨form, hd, hy⟩ := hstands.forced d hs
    rw [ByNeed.force_of_forced hs]
    exact ⟨w, form, ⟨.refl w, .refl _, hm⟩, ⟨hd, hs⟩, hy⟩
  | forcing =>
    rw [ByNeed.force_of_forcing hs]
    exact .inr ⟨.value e env, hstands.forcing hs, fun k hk => ⟨k, Nat.le_refl k, hk⟩⟩
  | unforced =>
    rw [ByNeed.force_of_unforced hs, hstands.expr, ByNeed.bind_apply]
    have hinner := he _ w ⟨s.heap.setState id .forcing, s.tape⟩ _ e env (hm.start ht)
      hstands.scope
    match hx : eval (s.heap.thunk id).scope e ⟨s.heap.setState id .forcing, s.tape⟩ with
    | none =>
      rw [hx] at hinner
      exact hinner
    | some (.error halt) =>
      rw [hx] at hinner
      -- Meanwhile it was a goal of its own; should it be the one that is needed, it is never found.
      exact Halts.imp hinner (.discharge fun _ he => he) fun hs => hs
    | some (.ok (d, s')) =>
      rw [hx] at hinner
      obtain ⟨w', form, hb, hd, hy⟩ := hinner
      have hlt := hb.models.thunk_lt (hb.grows.thunks _ _ ht)
      refine ⟨w', form, hm.finish ht hs hb hd hy, ⟨hd, ?_⟩, hy⟩
      show ((s'.heap.setState id (.forced d)).thunk id).state = .forced d
      rw [Heap.thunk_setState, if_pos ⟨rfl, hlt⟩]

theorem evaluate_steady (answers : Answers) (env : Env) (e : Expr) :
    Steady fun k => evaluate answers k env e := fun k => .evaluate answers k env e

theorem conclude_matches (hm : Models answers goals w s.heap) {d : Datum} {form : Form}
    (hd : w.Stands d form) (rule : Summary → Rule) :
    Matches answers goals slack height (fun w _ d form => w.Stands d form) w s.heap
      (ByNeed.conclude d rule s) fun _ => pure form :=
  ⟨w, form, ⟨.refl w, .refl _, hm⟩, hd, .const _⟩

theorem demand_matches {eval : Scope → Expr → ByNeed.Evaluation Datum}
    (he : Agrees answers height eval) (hm : Models answers goals w s.heap) {id : ThunkId}
    {e : Expr} {env : Env} (ht : w.thunks[id.index]? = some (e, env))
    (rule : Bool → Summary → Rule) :
    Matches answers goals 0 height (fun w _ d form => w.Stands d form) w s.heap
      ((do
        let found ← ByNeed.force eval id
        ByNeed.conclude found.1 (rule found.2) : ByNeed.Evaluation Datum) s)
      fun k => evaluate answers k env e :=
  .bind_left (evaluate_steady answers env e) (force_matches he hm ht)
    fun _ _ _ _ hb hd => conclude_matches hb.models hd.1 _

theorem body_matches {eval : Scope → Expr → ByNeed.Evaluation Datum}
    (he : Agrees answers height eval) (hm : Models answers goals w s.heap) {scope : Scope}
    {env : Env} (hr : w.Reads scope env) (body : List Stmt) :
    Matches answers goals 0 height (fun w _ d form => w.Stands d form) w s.heap
      (ByNeed.evaluateBody eval scope body s)
      fun k => evaluateBody (evaluate answers k) env body := by
  unfold ByNeed.evaluateBody evaluateBody
  cases Stmt.lastExpr? body with
  | none => exact conclude_matches hm .undefined _
  | some e =>
    exact .bind_left (evaluate_steady answers env e) (he goals w s scope e env hm hr).weaken
      fun _ _ _ _ hb hd => conclude_matches hb.models hd _

/-- A function has its value where it is declared; without a store, where it is read. -/
theorem function_matches (hm : Models answers goals w s.heap) {id : ClosureId}
    {name : Option String} {params : List Slot} {body : Expr} {env : Env}
    (hc : w.closures[id.index]? = some (.closure name params body env)) (rule : Summary → Rule) :
    Matches answers goals 0 height (fun w _ d form => w.Stands d form) w s.heap
      (ByNeed.conclude (.closure id) rule s)
      fun k => evaluate answers k env (.function name params body) :=
  ⟨w, _, ⟨.refl w, .refl _, hm⟩, .closure hc, .of_succ (.const _)⟩

theorem evaluate_agrees (answers : Answers) (height : Nat) :
    Agrees answers height (ByNeed.evaluate answers height) := by
  induction height with
  | zero => exact fun _ _ _ _ _ _ _ _ => rfl
  | succ height ih =>
    intro goals w s scope e env hm hr
    -- Operands are evaluated where the heap may have grown meanwhile.
    have hsub {w' : World} {s' : Store} (hb : Becomes answers goals w s.heap w' s'.heap)
        (e : Expr) := (ih goals w' s' scope e env hb.models (hr.mono hb.grows)).weaken
    have hstart : Becomes answers goals w s.heap w s.heap := ⟨.refl w, .refl _, hm⟩
    refine .later ?_ rfl
    cases e with
    | number n => exact conclude_matches hm (.number n) _
    | boolean b => exact conclude_matches hm (.boolean b) _
    | input question =>
      simp only [ByNeed.evaluate, evaluate]
      cases answers.get? question.text with
      | some answer => exact conclude_matches hm (.answer w answer) _
      | none => exact .halt rfl
    | record fields =>
      obtain ⟨w', hb, hd⟩ := hm.openRecord hr fields
      exact .allocate hb (conclude_matches (s := ⟨_, s.tape⟩) hb.models hd _)
    | function name params body =>
      obtain ⟨w', hb, hd⟩ := hm.addClosure hr name params body
      exact .allocate hb (conclude_matches (s := ⟨_, s.tape⟩) hb.models hd _)
    | name slot =>
      refine .read ?_
      have hbound := hm.lookup hr slot
      simp only [evaluate]
      generalize s.heap.lookup slot scope = binding at hbound ⊢
      generalize env.lookup slot = found at hbound ⊢
      cases hbound with
      | none => exact .halt rfl
      | delayed ht => exact demand_matches ih hm ht _
      | function hc => exact function_matches hm hc _
    | binary op left right =>
      refine .bind (evaluate_steady _ _ _) (hsub hstart left) fun l l' w₁ s₁ h₁ hl => ?_
      refine .bind (evaluate_steady _ _ _) (hsub h₁ right) fun r r' w₂ s₂ h₂ hr' => ?_
      rw [(hl.mono h₂.grows).binary hr']
      refine .ofExcept (fun e => BinOp.ofOperands_of_apply) fun d hd => ?_
      obtain ⟨_, _, c, _, _, rfl⟩ := BinOp.apply_eq_ok hd
      exact conclude_matches h₂.models (.answer w₂ c) _
    | unary op operand =>
      refine .bind (evaluate_steady _ _ _) (hsub hstart operand) fun d f w₁ s₁ h₁ hd => ?_
      rw [hd.unary]
      refine .ofExcept (fun e => UnaryOp.ofOperands_of_apply) fun result hresult => ?_
      obtain ⟨_, c, _, rfl⟩ := UnaryOp.apply_eq_ok hresult
      exact conclude_matches h₁.models (.answer w₁ c) _
    | logical op left right =>
      refine .bind (evaluate_steady _ _ _) (hsub hstart left) fun l l' w₁ s₁ h₁ hl => ?_
      rw [hl.toBool]
      refine .ofExcept (fun e => Datum.ofOperands_of_toBool) fun b _ => ?_
      by_cases hb : b = op.decider
      · simp only [hb, if_true]
        exact conclude_matches h₁.models hl _
      · simp only [hb, if_false]
        refine .bind (evaluate_steady _ _ _) (hsub h₁ right) fun r r' w₂ s₂ h₂ hr' => ?_
        rw [hr'.toBool]
        refine .ofExcept (fun e => Datum.ofOperands_of_toBool) fun _ _ => ?_
        exact conclude_matches h₂.models hr' _
    | conditional predicate consequent alternate =>
      refine .bind (evaluate_steady _ _ _) (hsub hstart predicate) fun p p' w₁ s₁ h₁ hp => ?_
      rw [hp.toBool]
      refine .ofExcept (fun e => Datum.ofOperands_of_toBool) fun taken _ => ?_
      exact .bind_left (evaluate_steady _ _ _) (hsub h₁ _)
        fun _ _ _ _ h₂ hd => conclude_matches h₂.models hd _
    | access base field =>
      refine .bind (evaluate_steady _ _ _) (hsub hstart base) fun b b' w₁ s₁ h₁ hb => ?_
      cases hb with
      | record hrec =>
        refine .read ?_
        rcases h₁.models.field? hrec field with ⟨hf, hf'⟩ | ⟨id, f, hf, hf', ht⟩
        · simp only [hf, hf']
          exact .halt rfl
        · simp only [hf, hf']
          exact demand_matches ih h₁.models ht _
      | _ => exact .halt rfl
    | block body =>
      cases body with
      | nil => exact .halt rfl
      | cons stmt rest =>
        obtain ⟨w', hb, hinner⟩ := hm.openBlock hr (stmt :: rest)
        exact .allocate hb (body_matches (s := ⟨_, s.tape⟩) ih hb.models hinner (stmt :: rest))
    | call callee args =>
      refine .bind (evaluate_steady _ _ _) (hsub hstart callee) fun c c' w₁ s₁ h₁ hc => ?_
      cases hc with
      | @closure id name params body outer hc =>
        obtain ⟨inner, heq, hinner⟩ := h₁.models.closure hc
        refine .read ?_
        simp only [heq]
        by_cases hn : params.length = args.length
        · simp only [hn, if_true]
          obtain ⟨w', hb, hread⟩ := h₁.models.openCall ⟨name, params, body, inner⟩ hinner
            (hr.mono h₁.grows) args
          have hbody := ih goals w' ⟨_, s₁.tape⟩ _ body _ hb.models hread
          exact .allocate hb (.bind_left (evaluate_steady _ _ _) hbody.weaken
            fun _ _ _ _ h₂ hd => conclude_matches h₂.models hd _)
        · simp only [hn, if_false]
          exact .halt rfl
      | _ => exact .halt rfl

end ByName

end Inquiry
