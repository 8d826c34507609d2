import Inquiry.Proofs.Derivation.Grammar
set_option autoImplicit false

namespace Inquiry

open Inquiry.Derivation

namespace Trace

/-- The derivation that the references from a node spell out, if none leads deeper than `depth`. -/
def derivationAt (trace : Trace) : Nat → Nat → Option Derivation
  | 0, _ => none
  | depth + 1, i => do
    let node ← trace.nodes[i]?
    let premises ← node.children.mapM (trace.derivationAt depth)
    infer? node.rule premises

def derivation? (trace : Trace) : Option Derivation :=
  trace.root.bind (trace.derivationAt trace.nodes.size)

/-- Whether the references from the node at `i` lead to `j`, in any number of steps. -/
inductive Below (trace : Trace) : Nat → Nat → Prop where
  | refl (i : Nat) : Below trace i i
  | child {i child j : Nat} {node : Node} (hn : trace.nodes[i]? = some node)
      (hc : child ∈ node.children) (hb : Below trace child j) : Below trace i j

/-- Whether the nodes from `start` on begin with these. -/
def Lists (trace : Trace) (start : Nat) (part : List Node) : Prop :=
  ∃ rest, trace.nodes.toList.drop start = part ++ rest

variable {trace : Trace} {start : Nat}

theorem Lists.left {before after : List Node} (h : trace.Lists start (before ++ after)) :
    trace.Lists start before := by
  obtain ⟨rest, h⟩ := h
  exact ⟨after ++ rest, by rw [h, List.append_assoc]⟩

theorem Lists.right {before after : List Node} (h : trace.Lists start (before ++ after)) :
    trace.Lists (start + before.length) after := by
  obtain ⟨rest, h⟩ := h
  exact ⟨rest, by rw [← List.drop_drop, h, List.append_assoc, List.drop_left]⟩

theorem Lists.getElem? {node : Node} (h : trace.Lists start [node]) :
    trace.nodes[start]? = some node := by
  obtain ⟨rest, h⟩ := h
  rw [← Array.getElem?_toList, ← Nat.add_zero start, ← List.getElem?_drop, h]
  rfl

theorem Lists.root {t : Derivation} (h : trace.Lists start (t.layout start)) :
    trace.nodes[start + t.size - 1]? = some ⟨t.rule, rootsAll t.premises start⟩ := by
  rw [t.layout_eq] at h
  have hpos := t.size_pos
  have hlast := h.right.getElem?
  rw [length_layoutAll_premises, ← Nat.add_sub_assoc hpos] at hlast
  exact hlast

theorem Lists.premises {t : Derivation} (h : trace.Lists start (t.layout start)) :
    trace.Lists start (layoutAll t.premises start) := by
  rw [t.layout_eq] at h
  exact h.left

theorem Lists.head {t : Derivation} {trees : List Derivation}
    (h : trace.Lists start (layoutAll (t :: trees) start)) :
    trace.Lists start (t.layout start) := by
  rw [layoutAll_cons] at h
  exact h.left

theorem Lists.tail {t : Derivation} {trees : List Derivation}
    (h : trace.Lists start (layoutAll (t :: trees) start)) :
    trace.Lists (start + t.size) (layoutAll trees (start + t.size)) := by
  rw [layoutAll_cons] at h
  have ht := h.right
  rwa [length_layout] at ht

theorem mapM_derivationAt {trees : List Derivation} {depth : Nat}
    (ih : ∀ t ∈ trees, ∀ start, trace.Lists start (t.layout start) → t.size ≤ depth →
      trace.derivationAt depth (start + t.size - 1) = some t)
    (h : trace.Lists start (layoutAll trees start))
    (hd : (layoutAll trees start).length ≤ depth) :
    (rootsAll trees start).mapM (trace.derivationAt depth) = some trees := by
  induction trees generalizing start with
  | nil => rfl
  | cons t trees iht =>
    simp only [layoutAll_cons, List.length_append, length_layout] at hd
    have ht := ih t (by simp) start h.head (by omega)
    have htrees := iht (fun s hs => ih s (by simp [hs])) h.tail (by omega)
    simp [rootsAll_cons, ht, htrees]

theorem derivationAt_of_lists {t : Derivation} {depth : Nat}
    (h : trace.Lists start (t.layout start)) (hd : t.size ≤ depth) :
    trace.derivationAt depth (start + t.size - 1) = some t := by
  induction t using Derivation.induction generalizing start depth with
  | h t ih =>
    cases depth with
    | zero =>
      have hpos := t.size_pos
      omega
    | succ depth =>
      have hpremises : (rootsAll t.premises start).mapM (trace.derivationAt depth) =
          some t.premises := by
        apply mapM_derivationAt _ h.premises
        · rw [length_layoutAll_premises]
          omega
        · intro s hs start hl hd
          exact ih s hs hl hd
      simp [derivationAt, h.root, hpremises, t.infer?_premises]

theorem below_of_root {t : Derivation} (h : trace.Lists start (t.layout start)) (j : Nat) :
    trace.Below (start + t.size - 1) j ↔
      j = start + t.size - 1 ∨ ∃ child ∈ rootsAll t.premises start, trace.Below child j := by
  constructor
  · intro hb
    cases hb with
    | refl => exact .inl rfl
    | child hn hc hb =>
      rw [h.root, Option.some.injEq] at hn
      subst hn
      exact .inr ⟨_, hc, hb⟩
  · rintro (rfl | ⟨child, hc, hb⟩)
    · exact .refl _
    · exact .child h.root hc hb

theorem below_of_roots {trees : List Derivation}
    (ih : ∀ t ∈ trees, ∀ start, trace.Lists start (t.layout start) → ∀ j,
      trace.Below (start + t.size - 1) j ↔ start ≤ j ∧ j < start + t.size)
    (h : trace.Lists start (layoutAll trees start)) (j : Nat) :
    (∃ root ∈ rootsAll trees start, trace.Below root j) ↔
      start ≤ j ∧ j < start + (layoutAll trees start).length := by
  induction trees generalizing start with
  | nil => simp
  | cons t trees iht =>
    have ht := ih t (by simp) start h.head j
    have htrees := iht (fun s hs => ih s (by simp [hs])) h.tail
    simp only [rootsAll_cons, layoutAll_cons, List.mem_cons, exists_eq_or_imp, ht, htrees,
      List.length_append, length_layout]
    omega

/-- Below the root of a derivation are all of its nodes, which stand together. -/
theorem below_iff {t : Derivation} (h : trace.Lists start (t.layout start)) (j : Nat) :
    trace.Below (start + t.size - 1) j ↔ start ≤ j ∧ j < start + t.size := by
  induction t using Derivation.induction generalizing start j with
  | h t ih =>
    have hpos := t.size_pos
    have hpremises := below_of_roots (fun s hs start hl j => ih s hs hl j) h.premises j
    rw [length_layoutAll_premises] at hpremises
    rw [below_of_root h, hpremises]
    omega

theorem child_lt {t : Derivation} (h : trace.Lists start (t.layout start)) {child : Nat}
    (hc : child ∈ rootsAll t.premises start) : child < start + t.size - 1 := by
  have hpos := t.size_pos
  have hb := (below_of_roots (fun s _ _ hl j => below_iff (t := s) hl j) h.premises child).mp
    ⟨child, hc, .refl child⟩
  rw [length_layoutAll_premises] at hb
  omega

theorem exists_of_mem_rootsAll {trees : List Derivation}
    (h : trace.Lists start (layoutAll trees start)) {root : Nat}
    (hr : root ∈ rootsAll trees start) :
    ∃ (first : Nat) (s : Derivation), trace.Lists first (s.layout first) ∧
      root = first + s.size - 1 := by
  induction trees generalizing start with
  | nil => contradiction
  | cons t trees ih =>
    rw [rootsAll_cons] at hr
    rcases List.mem_cons.mp hr with rfl | hr
    · exact ⟨start, t, h.head, rfl⟩
    · exact ih h.tail hr

theorem exists_of_below {i j : Nat} (hb : trace.Below i j) {t : Derivation}
    (h : trace.Lists start (t.layout start)) (hi : i = start + t.size - 1) :
    ∃ (first : Nat) (s : Derivation), trace.Lists first (s.layout first) ∧
      j = first + s.size - 1 := by
  induction hb generalizing start t with
  | refl => exact ⟨start, t, h, hi⟩
  | child hn hc _ ih =>
    rw [hi, h.root, Option.some.injEq] at hn
    subst hn
    obtain ⟨first, s, hs, hroot⟩ := exists_of_mem_rootsAll h.premises hc
    exact ih hs hroot

end Trace

namespace Derivation

theorem perm_layoutAll {trees : List Derivation}
    (ih : ∀ t ∈ trees, ∀ start,
      ((t.layout start).flatMap Node.children ++ [start + t.size - 1]).Perm
        (List.range' start t.size)) (start : Nat) :
    ((layoutAll trees start).flatMap Node.children ++ rootsAll trees start).Perm
      (List.range' start (layoutAll trees start).length) := by
  induction trees generalizing start with
  | nil => exact .refl _
  | cons t trees iht =>
    have ht := ih t (by simp) start
    have htrees := iht (fun s hs => ih s (by simp [hs])) (start + t.size)
    -- The root of the first tree moves up to the references of its nodes.
    have hmove : ((t.layout start).flatMap Node.children ++
        (layoutAll trees (start + t.size)).flatMap Node.children ++
          (start + t.size - 1) :: rootsAll trees (start + t.size)).Perm
        (((t.layout start).flatMap Node.children ++ [start + t.size - 1]) ++
          ((layoutAll trees (start + t.size)).flatMap Node.children ++
            rootsAll trees (start + t.size))) := by
      simp only [List.append_assoc, List.singleton_append]
      exact List.perm_middle.append_left _
    rw [layoutAll_cons, rootsAll_cons, List.length_append, length_layout, List.flatMap_append,
      ← List.range'_append_1]
    exact hmove.trans (ht.append htrees)

/-- The references from the nodes of a derivation, and its root, are all positions once each. -/
theorem perm_layout (t : Derivation) (start : Nat) :
    ((t.layout start).flatMap Node.children ++ [start + t.size - 1]).Perm
      (List.range' start t.size) := by
  induction t using Derivation.induction generalizing start with
  | h t ih =>
    have hpos := t.size_pos
    have hpremises := perm_layoutAll ih start
    have hsize : t.size - 1 + 1 = t.size := by omega
    have hlast : start + t.size - 1 = start + (t.size - 1) := by omega
    rw [length_layoutAll_premises] at hpremises
    rw [t.layout_eq, List.flatMap_append, List.flatMap_singleton, hlast, ← hsize,
      List.range'_1_concat, Nat.add_sub_cancel]
    exact hpremises.append_right _

end Derivation

end Inquiry
