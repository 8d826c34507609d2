import Inquiry.Proofs.ByName.Allocation
import Inquiry.Proofs.Machine.Failure
set_option autoImplicit false

/-!
Keeping values changes nothing. Whatever evaluation with a store comes to, evaluation without one
comes to as well: the same value, the same error, the same question. A cycle is an expression that
is needed for its own value; without a store its derivation would have to be inside itself, lower
than it is.
-/

namespace Inquiry

def Halt.cyclic : Halt → Bool
  | .failed (.cyclicEvaluation _) => true
  | _ => false

theorem Halt.not_cyclic_of_ofOperands {e : EvalError} (h : e.ofOperands = true) :
    (Halt.failed e).cyclic = false := by
  cases e <;> first | rfl | cases h

namespace ByName

open ByNeed (Store)

def Goal.Ends (answers : Answers) (height : Nat) : Goal → Prop
  | .value e env => evaluate answers height env e ≠ none
  | .completion form => complete answers height form ≠ none

/-- Nothing is ever found; or where something is found, one of the goals had ended already, by as
much lower as `slack` says. -/
def Needs {α : Type} (answers : Answers) (goals : Goal → Prop) (slack : Nat)
    (y : Nat → Evaluation α) : Prop :=
  (∀ k, y k = none) ∨
    ∃ goal, goals goal ∧ ∀ k, y k ≠ none → ∃ j, j + slack ≤ k ∧ goal.Ends answers j

def Halts {α : Type} (answers : Answers) (goals : Goal → Prop) (slack : Nat) (e : Halt)
    (y : Nat → Evaluation α) : Prop :=
  if e.cyclic then Needs answers goals slack y else Settles y (.error e)

theorem Halts.imp {α β : Type} {answers : Answers} {goals goals' : Goal → Prop}
    {slack slack' : Nat} {e : Halt} {y : Nat → Evaluation α} {y' : Nat → Evaluation β}
    (h : Halts answers goals slack e y)
    (hn : Needs answers goals slack y → Needs answers goals' slack' y')
    (hs : Settles y (.error e) → Settles y' (.error e)) : Halts answers goals' slack' e y' := by
  unfold Halts at h ⊢
  split at h
  · simp_all
  · simp_all

/-- What evaluation with a store came to, from a heap that stands for the world, against what is
found without a store. -/
def Matches {α β : Type} (answers : Answers) (goals : Goal → Prop) (slack height : Nat)
    (R : World → Heap → α → β → Prop) (w : World) (h : Heap)
    (x : Option (Except Halt (α × Store))) (y : Nat → Evaluation β) : Prop :=
  match x with
  | some (.ok (a, s)) =>
    ∃ w' b, Becomes answers goals w h w' s.heap ∧ R w' s.heap a b ∧ Settles y (.ok b)
  | some (.error e) => Halts answers goals slack e y
  | none => y height = none

variable {answers : Answers} {goals : Goal → Prop} {slack height : Nat} {w : World} {h : Heap}
  {s : Store} {α β γ δ : Type}

theorem Settles.const (r : Except Halt β) : Settles (fun _ => (some r : Option _)) r :=
  ⟨0, fun _ _ => rfl⟩

theorem Settles.of_succ {y : Nat → Evaluation β} {r : Except Halt β}
    (h : Settles (fun k => y (k + 1)) r) : Settles y r := by
  obtain ⟨n, hn⟩ := h
  refine ⟨n + 1, fun k hk => ?_⟩
  obtain ⟨k, rfl⟩ : ∃ i, k = i + 1 := ⟨k - 1, by omega⟩
  exact hn k (by omega)

theorem Settles.bind {y : Nat → Evaluation β} {g : Nat → β → Evaluation δ} {b : β}
    {r : Except Halt δ} (hy : Settles y (.ok b)) (hg : Settles (fun k => g k b) r) :
    Settles (fun k => y k >>= g k) r := by
  obtain ⟨m, hm⟩ := hy
  obtain ⟨n, hn⟩ := hg
  refine ⟨max m n, fun k hk => ?_⟩
  simp only [bind_eq, hm k (Nat.le_trans (Nat.le_max_left m n) hk)]
  exact hn k (Nat.le_trans (Nat.le_max_right m n) hk)

theorem Settles.bind_error {y : Nat → Evaluation β} {g : Nat → β → Evaluation δ} {e : Halt}
    (hy : Settles y (.error e)) : Settles (fun k => y k >>= g k) (.error e) := by
  obtain ⟨m, hm⟩ := hy
  refine ⟨m, fun k hk => ?_⟩
  simp only [bind_eq, hm k hk]
  rfl

theorem Needs.weaken {y : Nat → Evaluation β} (h : Needs answers goals 1 y) :
    Needs answers goals 0 y := by
  rcases h with hnone | ⟨goal, hg, hends⟩
  · exact .inl hnone
  · refine .inr ⟨goal, hg, fun k hk => ?_⟩
    obtain ⟨j, hj, he⟩ := hends k hk
    exact ⟨j, by omega, he⟩

theorem Needs.of_succ {y : Nat → Evaluation β} (hy : y 0 = none)
    (h : Needs answers goals 0 fun k => y (k + 1)) : Needs answers goals 1 y := by
  rcases h with hnone | ⟨goal, hg, hends⟩
  · refine .inl fun k => ?_
    cases k with
    | zero => exact hy
    | succ k => exact hnone k
  · refine .inr ⟨goal, hg, fun k hk => ?_⟩
    cases k with
    | zero => exact absurd hy hk
    | succ k =>
      obtain ⟨j, hj, he⟩ := hends k hk
      exact ⟨j, by omega, he⟩

theorem Needs.never {y : Nat → Evaluation β} (h : Needs answers (fun _ => False) slack y)
    (k : Nat) : y k = none := by
  rcases h with hnone | ⟨_, hgoal, _⟩
  · exact hnone k
  · exact hgoal.elim

/-- If the whole finds something, so does the rest. -/
theorem rest_ne_none {y : Nat → Evaluation β} (hy : Steady y) {b : β} (hb : Settles y (.ok b))
    {g : Nat → β → Evaluation δ} {k : Nat} (h : (y k >>= g k) ≠ none) : g k b ≠ none := by
  obtain ⟨n, hn⟩ := hb
  rw [bind_eq] at h
  cases hk : y k with
  | none =>
    rw [hk] at h
    exact absurd rfl h
  | some r =>
    obtain rfl := hy.unique hk (hn n (Nat.le_refl n))
    rw [hk] at h
    exact h

theorem Needs.bind {y : Nat → Evaluation β} (hy : Needs answers goals slack y)
    (g : Nat → β → Evaluation δ) : Needs answers goals slack fun k => y k >>= g k := by
  have hsub : ∀ k, y k = none → (y k >>= g k) = none := by
    intro k hk
    rw [bind_eq, hk]
    rfl
  rcases hy with hnone | ⟨goal, hg, hends⟩
  · exact .inl fun k => hsub k (hnone k)
  · exact .inr ⟨goal, hg, fun k hk => hends k fun hn => hk (hsub k hn)⟩

theorem Needs.of_rest {y : Nat → Evaluation β} (hy : Steady y) {b : β}
    (hb : Settles y (.ok b)) {g : Nat → β → Evaluation δ}
    (h : Needs answers goals slack fun k => g k b) :
    Needs answers goals slack fun k => y k >>= g k := by
  rcases h with hnone | ⟨goal, hg, hends⟩
  · refine .inl fun k => ?_
    by_contra hk
    exact rest_ne_none hy hb hk (hnone k)
  · exact .inr ⟨goal, hg, fun k hk => hends k (rest_ne_none hy hb hk)⟩

namespace Matches

variable {R : World → Heap → α → β → Prop} {R' : World → Heap → γ → δ → Prop}
  {y : Nat → Evaluation β}

theorem weaken {x : Option (Except Halt (α × Store))}
    (hx : Matches answers goals 1 height R w h x y) :
    Matches answers goals 0 height R w h x y := by
  match x with
  | some (.ok _) => exact hx
  | some (.error _) => exact Halts.imp hx .weaken id
  | none => exact hx

theorem later {x : Option (Except Halt (α × Store))}
    (hx : Matches answers goals 0 height R w h x fun k => y (k + 1)) (hy : y 0 = none) :
    Matches answers goals 1 (height + 1) R w h x y := by
  match x with
  | some (.ok (a, s)) =>
    obtain ⟨w', b, hb, hr, hsettles⟩ := hx
    exact ⟨w', b, hb, hr, hsettles.of_succ⟩
  | some (.error _) => exact Halts.imp hx (.of_succ hy) .of_succ
  | none => exact hx

theorem after {w' : World} {h' : Heap} {x : Option (Except Halt (α × Store))}
    (hb : Becomes answers goals w h w' h') (hx : Matches answers goals slack height R w' h' x y) :
    Matches answers goals slack height R w h x y := by
  match x with
  | some (.ok (a, s)) =>
    obtain ⟨w'', b, hb', hr, hy⟩ := hx
    exact ⟨w'', b, hb.trans hb', hr, hy⟩
  | none => exact hx
  | some (.error _) => exact hx

theorem bind {x : ByNeed.Evaluation α} {f : α → ByNeed.Evaluation γ}
    {g : Nat → β → Evaluation δ} (hy : Steady y)
    (hx : Matches answers goals slack height R w s.heap (x s) y)
    (hf : ∀ a b w' s', Becomes answers goals w s.heap w' s'.heap → R w' s'.heap a b →
      Matches answers goals slack height R' w' s'.heap (f a s') fun k => g k b) :
    Matches answers goals slack height R' w s.heap ((x >>= f) s) fun k => y k >>= g k := by
  rw [ByNeed.bind_apply]
  match hs : x s with
  | none =>
    rw [hs] at hx
    show (y height >>= g height) = none
    rw [bind_eq, show y height = none from hx]
    rfl
  | some (.error e) =>
    rw [hs] at hx
    exact Halts.imp hx (fun hn => hn.bind g) fun hs => hs.bind_error
  | some (.ok (a, s')) =>
    rw [hs] at hx
    obtain ⟨w', b, hb, hr, hsettles⟩ := hx
    have hrest := hf a b w' s' hb hr
    simp only
    match hs' : f a s' with
    | none =>
      rw [hs'] at hrest
      show (y height >>= g height) = none
      -- If the whole were found at this height, so would be the rest.
      by_contra hk
      exact rest_ne_none hy hsettles hk hrest
    | some (.error e) =>
      rw [hs'] at hrest
      exact Halts.imp hrest (fun hn => hn.of_rest hy hsettles) fun hs => hsettles.bind hs
    | some (.ok (c, s'')) =>
      rw [hs'] at hrest
      obtain ⟨w'', d, hb', hr', hsettles'⟩ := hrest
      exact ⟨w'', d, hb.trans hb', hr', hsettles.bind hsettles'⟩

theorem bind_left {x : ByNeed.Evaluation α} {f : α → ByNeed.Evaluation γ}
    {R' : World → Heap → γ → β → Prop} (hy : Steady y)
    (hx : Matches answers goals slack height R w s.heap (x s) y)
    (hf : ∀ a b w' s', Becomes answers goals w s.heap w' s'.heap → R w' s'.heap a b →
      Matches answers goals slack height R' w' s'.heap (f a s') fun _ => pure b) :
    Matches answers goals slack height R' w s.heap ((x >>= f) s) y := by
  have hb := hx.bind (g := fun _ => pure) hy hf
  simpa only [bind_pure] using hb

theorem read {f : Heap → γ} {g : γ → ByNeed.Evaluation α}
    (hx : Matches answers goals slack height R w s.heap (g (f s.heap) s) y) :
    Matches answers goals slack height R w s.heap ((ByNeed.read f >>= g) s) y := by
  rw [ByNeed.bind_apply]
  exact hx

theorem allocate {f : Heap → γ × Heap} {g : γ → ByNeed.Evaluation α} {w' : World}
    (hb : Becomes answers goals w s.heap w' (f s.heap).2)
    (hx : Matches answers goals slack height R w' (f s.heap).2
      (g (f s.heap).1 ⟨(f s.heap).2, s.tape⟩) y) :
    Matches answers goals slack height R w s.heap ((ByNeed.allocate f >>= g) s) y := by
  rw [ByNeed.bind_apply]
  exact hx.after hb

theorem halt {e : Halt} (hc : e.cyclic = false) :
    Matches answers goals slack height R w h (some (.error e)) fun _ => ByName.halt e := by
  simp only [Matches, Halts, hc]
  exact .const _

theorem ofExcept {x : Except EvalError γ} {f : γ → ByNeed.Evaluation α}
    {g : Nat → γ → Evaluation β} (hc : ∀ e, x = .error e → e.ofOperands = true)
    (hf : ∀ a, x = .ok a →
      Matches answers goals slack height R w s.heap (f a s) fun k => g k a) :
    Matches answers goals slack height R w s.heap ((ByNeed.ofExcept x >>= f) s)
      fun k => ByName.ofExcept x >>= g k := by
  cases x with
  | ok a => exact hf a rfl
  | error e => exact halt (Halt.not_cyclic_of_ofOperands (hc e rfl))

end Matches

end ByName

end Inquiry
