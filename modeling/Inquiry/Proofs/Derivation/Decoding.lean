import Mathlib.Data.List.Nodup
import Inquiry.Proofs.Derivation.Arena
set_option autoImplicit false

namespace Inquiry

theorem existsUnique_place {α β : Type} {l : List α} {f : α → List β} {b : β}
    (hn : (l.flatMap f).Nodup) (hb : b ∈ l.flatMap f) :
    ∃! place : Nat × Nat, ∃ a, l[place.1]? = some a ∧ (f a)[place.2]? = some b := by
  obtain ⟨hinner, houter⟩ := List.nodup_flatMap.mp hn
  rw [List.pairwise_iff_getElem] at houter
  have happart : ∀ (i k : Nat) (a c : α), l[i]? = some a → l[k]? = some c → b ∈ f a → b ∈ f c →
      ¬i < k := by
    intro i k a c ha hc hba hbc hlt
    obtain ⟨hi, rfl⟩ := List.getElem?_eq_some_iff.mp ha
    obtain ⟨hk, rfl⟩ := List.getElem?_eq_some_iff.mp hc
    exact houter i k hi hk hlt hba hbc
  obtain ⟨a, ha, hba⟩ := List.mem_flatMap.mp hb
  obtain ⟨i, hi⟩ := List.mem_iff_getElem?.mp ha
  obtain ⟨p, hp⟩ := List.mem_iff_getElem?.mp hba
  refine ⟨(i, p), ⟨a, hi, hp⟩, ?_⟩
  rintro ⟨k, q⟩ ⟨c, hk, hq⟩
  have hbc : b ∈ f c := List.mem_iff_getElem?.mpr ⟨q, hq⟩
  have hik : k = i := by
    have h₁ := happart i k a c hi hk hba hbc
    have h₂ := happart k i c a hk hi hbc hba
    omega
  subst hik
  rw [hi, Option.some.injEq] at hk
  subst hk
  have hlt : q < (f a).length := (List.getElem?_eq_some_iff.mp hq).1
  have hqp : q = p := (List.getElem?_inj hlt (hinner a ha)).mp (hq.trans hp.symm)
  rw [hqp]

theorem Tape.toList_foldl_emit (rules : List Rule) (tokens : Array Token) :
    (rules.foldl Tape.emit ⟨tokens, true⟩).tokens.toList =
      tokens.toList ++ rules.flatMap Rule.tokens := by
  induction rules generalizing tokens with
  | nil => simp
  | cons rule rules ih =>
    have hrules := ih (tokens ++ rule.tokens)
    simpa [emit, append] using hrules

namespace Derivation

theorem lists_trace (t : Derivation) : t.trace.Lists 0 (t.layout 0) :=
  ⟨[], by simp [trace]⟩

theorem derivation?_trace (t : Derivation) : t.trace.derivation? = some t := by
  have h : t.trace.derivationAt t.size (0 + t.size - 1) = some t :=
    Trace.derivationAt_of_lists t.lists_trace (Nat.le_refl _)
  rw [Nat.zero_add] at h
  simpa [Trace.derivation?, trace] using h

theorem decode_of_tokens {t : Derivation} {tape : Tape} (h : tape.tokens.toList = t.tokens) :
    tape.decode = .ok t.trace := Tape.decode_eq_ok_iff.mpr (.inr ⟨t, h, rfl⟩)

theorem tokens_injective {t s : Derivation} (h : t.tokens = s.tokens) : t = s := by
  have ht : (Tape.mk t.tokens.toArray true).decode = .ok t.trace := decode_of_tokens rfl
  have hs : (Tape.mk t.tokens.toArray true).decode = .ok s.trace := decode_of_tokens h
  have htrace : t.trace = s.trace := Except.ok.inj (ht.symm.trans hs)
  have hd := t.derivation?_trace
  rw [htrace, s.derivation?_trace] at hd
  exact (Option.some.inj hd).symm

/-- A derivation that is written down rule by rule is read back as its nodes in post-order, whose
references spell it out again from the root, the last of them. -/
theorem decode_foldl_emit (t : Derivation) :
    ∃ trace, (t.rules.foldl Tape.emit (Tape.empty true)).decode = .ok trace ∧
      trace.nodes.toList = t.layout 0 ∧ trace.nodes.toList.map Node.rule = t.rules ∧
      trace.root = some (trace.nodes.size - 1) ∧ trace.derivation? = some t := by
  refine ⟨t.trace, ?_, rfl, t.map_rule_layout 0, ?_, t.derivation?_trace⟩
  · apply decode_of_tokens
    simp [Tape.empty, Tape.toList_foldl_emit, tokens]
  · simp [trace]

end Derivation

/-- The nodes of one tree, each after those it rests on. -/
structure Trace.Arranged (trace : Trace) : Prop where
  nonempty : 0 < trace.nodes.size
  root : trace.root = some (trace.nodes.size - 1)
  child_lt : ∀ (i : Nat) (node : Node), trace.nodes[i]? = some node →
    ∀ child ∈ node.children, child < i
  /-- A place is a node and which one of its children. -/
  place : ∀ i, i + 1 < trace.nodes.size → ∃! place : Nat × Nat, ∃ node,
    trace.nodes[place.1]? = some node ∧ node.children[place.2]? = some i
  subtree : ∀ i < trace.nodes.size, ∃ first ≤ i, ∀ j, trace.Below i j ↔ first ≤ j ∧ j ≤ i

theorem Derivation.arranged_trace (t : Derivation) : t.trace.Arranged := by
  have hlists := t.lists_trace
  have hpos := t.size_pos
  have hsize : t.trace.nodes.size = t.size := by simp [trace]
  -- Every node is the root of a derivation, whose nodes stand together.
  have hsub : ∀ i < t.size, ∃ (first : Nat) (s : Derivation),
      t.trace.Lists first (s.layout first) ∧ i = first + s.size - 1 := by
    intro i hi
    have hb := (Trace.below_iff hlists i).mpr ⟨Nat.zero_le i, by omega⟩
    exact Trace.exists_of_below hb hlists rfl
  refine ⟨by omega, by rw [hsize]; rfl, ?_, ?_, ?_⟩
  · intro i node hn child hc
    have hi : i < t.size := hsize ▸ (Array.getElem?_eq_some_iff.mp hn).1
    obtain ⟨first, s, hs, rfl⟩ := hsub i hi
    rw [hs.root, Option.some.injEq] at hn
    subst hn
    exact Trace.child_lt hs hc
  · intro i hi
    -- The references and the root are all positions once each, and `i` is not the root.
    have hperm := t.perm_layout 0
    have hnodup := hperm.nodup_iff.mpr List.nodup_range'
    have hmem : i ∈ (t.layout 0).flatMap Node.children := by
      have hm := hperm.mem_iff.mpr (List.mem_range'_1.mpr ⟨Nat.zero_le i, by omega⟩)
      rcases List.mem_append.mp hm with hm | hm
      · exact hm
      · rw [List.mem_singleton] at hm
        omega
    have hplace := existsUnique_place (List.nodup_append.mp hnodup).1 hmem
    simpa [trace] using hplace
  · intro i hi
    obtain ⟨first, s, hs, rfl⟩ := hsub i (hsize ▸ hi)
    have hspos := s.size_pos
    refine ⟨first, by omega, ?_⟩
    intro j
    rw [Trace.below_iff hs]
    omega

theorem Tape.tokens_eq_of_decode {tape : Tape} {trace : Trace} (h : tape.decode = .ok trace) :
    ((trace.nodes.toList.map Node.rule).foldl Tape.emit (Tape.empty true)).tokens =
      tape.tokens := by
  apply Array.toList_inj.mp
  rcases decode_eq_ok_iff.mp h with ⟨ht, rfl⟩ | ⟨t, ht, rfl⟩
  · simp [ht, Tape.empty]
  · rw [ht]
    simp [Derivation.trace, t.map_rule_layout, Tape.empty, toList_foldl_emit, Derivation.tokens]

open Inquiry.Derivation in
/-- Just the tapes that are empty or hold one derivation can be decoded. Its nodes, written down
again, are the tape, and they are arranged as one tree. -/
theorem Tape.decode_accepts_trees (tape : Tape) :
    ((∃ trace, tape.decode = .ok trace) ↔
      tape.tokens = #[] ∨ ∃! t : Derivation, tape.tokens.toList = t.tokens) ∧
    ∀ trace, tape.decode = .ok trace →
      ((trace.nodes.toList.map Node.rule).foldl Tape.emit (Tape.empty true)).tokens =
        tape.tokens ∧
      (∀ other : Tape, other.decode = .ok trace → other.tokens = tape.tokens) ∧
      (tape.tokens ≠ #[] → trace.Arranged) := by
  constructor
  · constructor
    · rintro ⟨trace, h⟩
      rcases decode_eq_ok_iff.mp h with ⟨hempty, _⟩ | ⟨t, ht, _⟩
      · exact .inl hempty
      · exact .inr ⟨t, ht, fun s hs => tokens_injective (hs.symm.trans ht)⟩
    · rintro (hempty | ⟨t, ht, _⟩)
      · exact ⟨_, decode_eq_ok_iff.mpr (.inl ⟨hempty, rfl⟩)⟩
      · exact ⟨_, decode_of_tokens ht⟩
  · intro trace h
    refine ⟨tokens_eq_of_decode h, ?_, ?_⟩
    · intro other ho
      rw [← tokens_eq_of_decode ho, tokens_eq_of_decode h]
    · intro hne
      rcases decode_eq_ok_iff.mp h with ⟨hempty, _⟩ | ⟨t, _, rfl⟩
      · exact absurd hempty hne
      · exact t.arranged_trace

theorem Tape.decode_accepts_trees_record :
    let rules : List Rule := [.literal (.record ["a"]), .literal (.number 1),
      .record ["a"] (.record ["a"])]
    let tape := rules.foldl Tape.emit (Tape.empty true)
    let trace : Trace := ⟨some 2, #[⟨.literal (.record ["a"]), []⟩, ⟨.literal (.number 1), []⟩,
      ⟨.record ["a"] (.record ["a"]), [0, 1]⟩]⟩
    tape.decode = .ok trace ∧ tape.tokens ≠ #[] ∧
      (∃! t : Derivation, tape.tokens.toList = t.tokens) ∧
      ((trace.nodes.toList.map Node.rule).foldl Tape.emit (Tape.empty true)).tokens =
        tape.tokens ∧ trace.Arranged := by
  intro rules tape trace
  have hdecode : tape.decode = .ok trace := rfl
  have hne : tape.tokens ≠ #[] := by decide
  obtain ⟨haccepts, hshape⟩ := Tape.decode_accepts_trees tape
  obtain ⟨hwritten, _, harranged⟩ := hshape trace hdecode
  exact ⟨hdecode, hne, (haccepts.mp ⟨trace, hdecode⟩).resolve_left hne, hwritten, harranged hne⟩

end Inquiry
