import Inquiry.Proofs.Likeness.Machine
import Inquiry.Proofs.Pass.Holes
import Inquiry.Proofs.Pass.Transparency
set_option autoImplicit false

namespace Inquiry

def Program.named (p : Program) : List Nat :=
  (Expr.block p.body).within.flatMap fun e => e.named.map Slot.id

theorem Program.named_part {p : Program} {slot : Slot}
    (h : (Expr.block p.body).PartOf (.name slot)) : slot.id ∈ p.named :=
  List.mem_flatMap.mpr ⟨.name slot, h.mem_within, List.mem_cons_self⟩

theorem Expr.alike_filling {named : Nat → Prop} {context : Expr} {hole : Slot}
    {body body' : List Stmt} (hb : body ≠ []) (hb' : body' ≠ [])
    (hl : Stmt.lastExpr? body = Stmt.lastExpr? body')
    (hd : ∀ id, named id → Stmt.declared? id body = Stmt.declared? id body')
    (hn : ∀ slot, (context.recast (.filling hole (.block body))).PartOf (.name slot) →
      named slot.id) :
    (context.recast (.filling hole (.block body))).Alike named
      (context.recast (.filling hole (.block body'))) := by
  refine alike_recast (fun _ => rfl) (fun _ => rfl) fun slot hs => ?_
  replace hs := hs.recast (r := .filling hole (.block body))
  by_cases hslot : slot = hole
  · simp only [recast, Recasting.filling, if_pos hslot] at hs ⊢
    exact alike_block hb hb' hl hd fun other ho => hn other (hs.trans ho)
  · simp only [recast, Recasting.filling, if_neg hslot] at hs ⊢
    exact .name (hn slot hs)

theorem Heap.alike_initial (named : Nat → Prop) :
    Heap.initial.Alike named .none Heap.initial where
  frames_size := rfl
  records_size := rfl
  thunk_lt := False.elim
  closure_lt := False.elim
  left_unique := False.elim
  right_unique := False.elim
  thunk := False.elim
  closure := False.elim
  record _ := .nil
  frame id slot _ := by
    have hempty : initial.frame id = [] := by
      obtain ⟨i⟩ := id
      cases i <;> rfl
    rw [hempty]
    exact .none

namespace Pass

variable {named : Nat → Prop}

theorem alike_start (config : Config) (answers : Answers) {program program' : Program}
    (hb : (Expr.block program.body).Alike named (.block program'.body)) :
    ∃ l, (start config program answers).EndsAlike named l (start config program' answers) := by
  have hinitial : (Machine.initial config.captureTrace).Alike named .none
      (Machine.initial config.captureTrace) :=
    ⟨Heap.alike_initial named, .cons .complete .nil, rfl, rfl⟩
  simp only [start, ← hb.isEmpty_eq]
  cases program.body.isEmpty with
  | true => exact ⟨_, hinitial, .failed _, rfl⟩
  | false =>
    obtain ⟨l, hcontrol, hm⟩ :=
      hinitial.enterBlock Heap.globalFrame Nat.zero_lt_one rfl rfl [] hb
    exact hm.run 0 hcontrol

theorem EndsAlike.shows_iff {l : Likeness} {pass other : Pass} (h : pass.EndsAlike named l other)
    (r : Except Halt Value) : pass.Shows r ↔ other.Shows r := by
  obtain ⟨m, outcome, turns⟩ := pass
  obtain ⟨m', outcome', turns'⟩ := other
  cases h.outcome with
  | finished hd =>
    have hreveal := h.machine.heap.reveal hd
    cases r with
    | error e => cases e <;> simp [Shows, Halt.outcome]
    | ok v => simp [Shows, hreveal]
  | parked | failed => cases r <;> simp [Shows]

/-- A block means what it ends with and, for each slot that is named, its last declaration. With a
block in place of another that agrees on this, wherever it stands in a program, a pass shows the
same, writes down the same and takes the same number of turns. -/
theorem block_determined (config : Config) (answers : Answers) {program program' : Program}
    {context : Expr} {hole : Slot} {body body' : List Stmt}
    (hp : .block program.body = context.recast (.filling hole (.block body)))
    (hp' : .block program'.body = context.recast (.filling hole (.block body')))
    (hb : body ≠ []) (hb' : body' ≠ []) (hl : Stmt.lastExpr? body = Stmt.lastExpr? body')
    (hd : ∀ id ∈ program.named ++ program'.named,
      Stmt.declared? id body = Stmt.declared? id body') :
    let pass := start config program answers
    let pass' := start config program' answers
    (∀ r, pass.Shows r ↔ pass'.Shows r) ∧ pass.machine.tape = pass'.machine.tape ∧
      pass.turns = pass'.turns := by
  intro pass pass'
  have halike : (Expr.block program.body).Alike (· ∈ program.named ++ program'.named)
      (.block program'.body) := by
    rw [hp, hp']
    refine Expr.alike_filling hb hb' hl hd fun slot hs => ?_
    rw [← hp] at hs
    exact List.mem_append_left _ (Program.named_part hs)
  obtain ⟨l, h⟩ := alike_start config answers halike
  exact ⟨h.shows_iff, h.machine.tape, h.turns⟩

def order (body : List Stmt) : Program :=
  ⟨[.expr (.record [.mk "total" ⟨4, "total"⟩ (.block body)])]⟩

/-- The price is declared twice, the rest in another order, and what does not count would have asked
another question or failed. -/
theorem block_determined_order :
    let config : Config := ⟨50, true, false⟩
    let answers := Answers.empty.insert "price" (.number 5)
    let price : Slot := ⟨0, "price"⟩
    let double : Slot := ⟨1, "double"⟩
    let n : Slot := ⟨2, "n"⟩
    let priced : Stmt := .bind price (.input ⟨"price", .number, ""⟩)
    let doubled : Stmt := .bind double (.function none [n] (.binary .mul (.name n) (.number 2)))
    let total : Stmt := .expr (.call (.name double) [.name price])
    let discounted : Stmt := .bind price (.input ⟨"discount", .number, ""⟩)
    let divided : Stmt := .bind ⟨3, "rate"⟩ (.binary .div (.name price) (.number 0))
    let body := [priced, doubled, total]
    let body' := [discounted, .expr (.name double), divided, doubled, total, priced]
    let v : Value := .record (.cons "total" (.number 10) .nil)
    let pass := start config (order body) answers
    let pass' := start config (order body') answers
    pass.Shows (.ok v) ∧ pass'.Shows (.ok v) ∧ pass.machine.tape = pass'.machine.tape ∧
      pass.turns = pass'.turns := by
  intro config answers price double n priced doubled total discounted divided body body' v
  let hole : Slot := ⟨9, "block"⟩
  let context : Expr := .block [.expr (.record [.mk "total" ⟨4, "total"⟩ (.name hole)])]
  have hp : .block (order body).body = context.recast (.filling hole (.block body)) := rfl
  have hp' : .block (order body').body = context.recast (.filling hole (.block body')) := rfl
  have hd : ∀ id ∈ (order body).named ++ (order body').named,
      Stmt.declared? id body = Stmt.declared? id body' := by
    have hnamed : (order body).named ++ (order body').named = [2, 1, 0, 1, 0, 2, 1, 0] := rfl
    rw [hnamed]
    intro id hi
    simp only [List.mem_cons, List.not_mem_nil, or_false] at hi
    rcases hi with rfl | rfl | rfl | rfl | rfl | rfl | rfl | rfl <;> rfl
  have hshows : (start config (order body) answers).Shows (.ok v) :=
    ⟨.record ⟨0⟩, by decide, by decide⟩
  have hsame := block_determined config answers hp hp' (List.cons_ne_nil _ _)
    (List.cons_ne_nil _ _) rfl hd
  exact ⟨hshows, (hsame.1 _).mp hshows, hsame.2⟩

end Pass

end Inquiry
