import Mathlib.Algebra.GroupWithZero.Nat
import Mathlib.Data.List.Perm.Basic
import Inquiry.Derivation.Text
import Inquiry.Proofs.Derivation.Decoding
import Inquiry.Proofs.Distinct
set_option autoImplicit false

namespace Inquiry

namespace Rule

/-- What a rule says of its premises, given what they say. -/
def sentence : Rule → List String → String
  | .literal value, _ => value.text
  | .input question value, _ => "[" ++ question ++ ": " ++ value.text ++ "]"
  | .name text false (.function _), _ => text
  | .name text false value, _ => text ++ "=" ++ value.text
  | .name text true _, [derived] => text ++ ":" ++ derived
  | .binary op value, [left, right] =>
    "(" ++ left ++ " " ++ op.symbol ++ " " ++ right ++ " => " ++ value.text ++ ")"
  | .unary op value, [operand] => "(" ++ op.symbol ++ operand ++ " => " ++ value.text ++ ")"
  | .logical op true value, [left, right] =>
    "(" ++ left ++ " " ++ op.symbol ++ " " ++ right ++ " => " ++ value.text ++ ")"
  | .logical op false value, [left] =>
    "(" ++ left ++ " " ++ op.symbol ++ " _ => " ++ value.text ++ ")"
  | .conditional taken value, [predicate, branch] =>
    "(if " ++ predicate ++ (if taken then " then " else " else ") ++ branch ++ " => "
      ++ value.text ++ ")"
  | .access field true _, [base, derived] => base ++ "." ++ field ++ ":" ++ derived
  | .access field false value, [base] => base ++ "." ++ field ++ "=" ++ value.text
  | .block true _, [body] => "\x7b " ++ body ++ " \x7d"
  | .block false _, _ => "\x7b \x7d"
  | .call _, [callee, body] => callee ++ "(" ++ body ++ ")"
  | .record fields _, source :: parts =>
    source ++ " \x7b" ++ ", ".intercalate (fields.zipWith (fun field part => field ++ ": " ++ part)
      parts) ++ "\x7d"
  | _, _ => ""

def weave : List String → List String → String
  | [], _ => ""
  | s :: texts, [] => s ++ weave texts []
  | s :: texts, part :: parts => s ++ part ++ weave texts parts

theorem weave_fields (s field part : String) {fields parts : List String}
    (h : parts.length = fields.length) :
    weave ((s ++ field ++ ": ") :: fields.map (fun next => ", " ++ next ++ ": ") ++ ["\x7d"])
        (part :: parts) =
      s ++ ", ".intercalate ((field :: fields).zipWith (fun field part => field ++ ": " ++ part)
        (part :: parts)) ++ "\x7d" := by
  induction fields generalizing s field part parts with
  | nil =>
    obtain rfl := List.length_eq_zero_iff.mp h
    simp [weave, String.append_assoc]
  | cons next fields ih =>
    match parts with
    | part' :: parts =>
      have hlength : parts.length = fields.length := by simpa using h
      have hrest := ih ", " next part' hlength
      simp only [List.map_cons, List.cons_append, weave, List.zipWith_cons_cons,
        String.intercalate_cons_cons, String.append_assoc] at hrest ⊢
      rw [hrest]

theorem weave_fieldTexts {fields parts : List String} (h : parts.length = fields.length) :
    weave (fieldTexts fields) parts = " \x7b" ++ ", ".intercalate (fields.zipWith
      (fun field part => field ++ ": " ++ part) parts) ++ "\x7d" := by
  match fields, parts with
  | [], [] => rfl
  | field :: _, part :: _ => exact weave_fields " \x7b" field part (by simpa using h)

/-- The texts of a rule, with what its premises say between them, are what the rule says. -/
theorem weave_texts {rule : Rule} {parts : List String} (h : parts.length = rule.arity) :
    weave rule.texts parts = rule.sentence parts := by
  cases rule with
  | literal | input =>
    obtain rfl := List.length_eq_zero_iff.mp h
    simp [texts, weave, sentence]
  | name text derived value =>
    cases derived with
    | true =>
      obtain ⟨derivation, rfl⟩ := List.length_eq_one_iff.mp h
      simp [texts, weave, sentence]
    | false =>
      obtain rfl := List.length_eq_zero_iff.mp h
      cases value <;> simp [texts, weave, sentence]
  | unary =>
    obtain ⟨operand, rfl⟩ := List.length_eq_one_iff.mp h
    simp [texts, weave, sentence, String.append_assoc]
  | binary | call =>
    obtain ⟨first, second, rfl⟩ := List.length_eq_two.mp h
    simp [texts, weave, sentence, String.append_assoc]
  | logical op evaluatedRight =>
    cases evaluatedRight with
    | true =>
      obtain ⟨left, right, rfl⟩ := List.length_eq_two.mp h
      simp [texts, weave, sentence, String.append_assoc]
    | false =>
      obtain ⟨left, rfl⟩ := List.length_eq_one_iff.mp h
      simp [texts, weave, sentence, String.append_assoc]
  | conditional taken =>
    obtain ⟨predicate, branch, rfl⟩ := List.length_eq_two.mp h
    cases taken <;> simp [texts, weave, sentence, String.append_assoc]
  | access field derived =>
    cases derived with
    | true =>
      obtain ⟨base, derivation, rfl⟩ := List.length_eq_two.mp h
      simp [texts, weave, sentence, String.append_assoc]
    | false =>
      obtain ⟨base, rfl⟩ := List.length_eq_one_iff.mp h
      simp [texts, weave, sentence, String.append_assoc]
  | block hasBody =>
    cases hasBody with
    | true =>
      obtain ⟨body, rfl⟩ := List.length_eq_one_iff.mp h
      simp [texts, weave, sentence, String.append_assoc]
    | false =>
      obtain rfl := List.length_eq_zero_iff.mp h
      simp [texts, weave, sentence]
  | record fields =>
    cases parts with
    | nil =>
      simp only [List.length_nil, arity] at h
      omega
    | cons source parts =>
      have hlength : parts.length = fields.length := by
        simp only [List.length_cons, arity] at h
        omega
      simp [texts, weave, sentence, weave_fieldTexts hlength, String.append_assoc]

end Rule

namespace Derivation

def text : Derivation → String
  | infer rule premises => rule.sentence (List.ofFn fun i => (premises i).text)

def preorder : Derivation → List Rule
  | infer rule premises => rule :: (List.ofFn fun i => (premises i).preorder).flatten

theorem text_eq (t : Derivation) : t.text = t.rule.sentence (t.premises.map text) := by
  cases t
  simp [text, rule, premises, Function.comp_def]

theorem preorder_eq (t : Derivation) : t.preorder = t.rule :: t.premises.flatMap preorder := by
  cases t
  simp [preorder, rule, premises, List.flatMap_def, Function.comp_def]

theorem preorder_perm (t : Derivation) : t.preorder.Perm t.rules := by
  induction t using Derivation.induction with
  | h t ih =>
    rw [t.preorder_eq, t.rules_eq]
    have hpremises := List.Perm.flatMap_left t.premises ih
    exact (hpremises.cons t.rule).trans (List.perm_append_singleton _ _).symm

theorem filterMap_question?_preorder (t : Derivation) :
    t.preorder.filterMap Rule.question? = t.rules.filterMap Rule.question? := by
  induction t using Derivation.induction with
  | h t ih =>
    have hpremises : (t.premises.flatMap preorder).filterMap Rule.question? =
        (t.premises.flatMap rules).filterMap Rule.question? := by
      rw [List.filterMap_flatMap, List.filterMap_flatMap]
      exact List.flatMap_congr ih
    rw [t.preorder_eq, t.rules_eq, List.filterMap_append, ← hpremises]
    cases hq : t.rule.question? with
    | none => simp [hq]
    | some question =>
      -- A question rests on nothing, so it makes no difference that it comes first.
      have hnone : t.premises = [] := by
        rw [← List.length_eq_zero_iff, t.length_premises]
        cases hr : t.rule <;> simp_all [Rule.question?, Rule.arity]
      simp [hnone]

end Derivation

namespace Piece

def isText : Piece → Bool
  | .text _ => true
  | .node _ => false

def node? : Piece → Option Nat
  | .text _ => none
  | .node i => some i

theorem countP_interleave (texts : List String) (nodes : List Nat) :
    (interleave texts nodes).countP isText = texts.length := by
  induction texts generalizing nodes with
  | nil => rfl
  | cons s texts ih => cases nodes <;> simp [interleave, List.countP_cons, isText, ih]

theorem filterMap_interleave {texts : List String} {nodes : List Nat}
    (h : nodes.length ≤ texts.length) : (interleave texts nodes).filterMap node? = nodes := by
  induction texts generalizing nodes with
  | nil =>
    obtain rfl := List.length_eq_zero_iff.mp (Nat.le_zero.mp h)
    rfl
  | cons s texts ih =>
    cases nodes with
    | nil =>
      have hrest : (interleave texts []).filterMap node? = [] := ih (Nat.zero_le _)
      simp [interleave, List.filterMap_cons, node?, hrest]
    | cons i nodes =>
      have hrest := ih (Nat.le_of_succ_le_succ h)
      simp [interleave, List.filterMap_cons, node?, hrest]

end Piece

namespace Trace

/-- Writing the pieces of a work list up to the last one, however many there are: the steps it
takes, the nodes it meets and the text it comes to. -/
inductive Writes (trace : Trace) : Nat → List Piece → List (Nat × Node) → String → Prop where
  | nil : Writes trace 0 [] [] ""
  | text {n : Nat} {s out : String} {work : List Piece} {met : List (Nat × Node)}
      (h : Writes trace n work met out) : Writes trace (n + 1) (.text s :: work) met (s ++ out)
  | node {n i : Nat} {node : Node} {out : String} {work : List Piece} {met : List (Nat × Node)}
      (hn : trace.nodes[i]? = some node) (h : Writes trace n (node.pieces ++ work) met out) :
      Writes trace (n + 1) (.node i :: work) ((i, node) :: met) out

variable {trace : Trace} {start : Nat}

namespace Writes

variable {n m : Nat} {work more : List Piece} {met met' : List (Nat × Node)} {out out' : String}

theorem append (h : trace.Writes n work met out) (h' : trace.Writes m more met' out') :
    trace.Writes (n + m) (work ++ more) (met ++ met') (out ++ out') := by
  induction h with
  | nil => simpa using h'
  | text _ ih =>
    rw [Nat.add_right_comm, String.append_assoc]
    exact .text ih
  | node hn _ ih =>
    rw [Nat.add_right_comm]
    rw [List.append_assoc] at ih
    exact .node hn ih

theorem write_eq (h : trace.Writes n work met out) {fuel : Nat} (hf : n ≤ fuel)
    (before : String) : trace.write fuel work before = before ++ out := by
  induction h generalizing fuel before with
  | nil => simp [write]
  | text _ ih =>
    cases fuel with
    | zero => omega
    | succ fuel => rw [write, ih (Nat.le_of_succ_le_succ hf), String.append_assoc]
  | node hn _ ih =>
    cases fuel with
    | zero => omega
    | succ fuel =>
      simp only [write, hn]
      exact ih (Nat.le_of_succ_le_succ hf) before

/-- Each step is a text of the work list, a node that is met or a text of such a node. -/
theorem steps_eq (h : trace.Writes n work met out) :
    n = work.countP Piece.isText +
      ((met.map fun visit => visit.2.rule).map fun rule => rule.texts.length + 1).sum := by
  induction h with
  | nil => rfl
  | text _ ih =>
    simp only [List.countP_cons, Piece.isText]
    simp +arith [ih]
  | node _ _ ih =>
    simp only [List.countP_append, Node.pieces, Piece.countP_interleave] at ih
    simp +arith [Piece.isText, ih]

theorem visit_eq (h : trace.Writes n work met out)
    (hc : ∀ (i : Nat) (node : Node), trace.nodes[i]? = some node → node.Complete) {fuel : Nat}
    (hf : met.length ≤ fuel) (before : Array (Nat × Node)) :
    (trace.visit fuel (work.filterMap Piece.node?) before).toList = before.toList ++ met := by
  induction h generalizing fuel before with
  | nil => simp [visit]
  | text _ ih =>
    rw [List.filterMap_cons_none rfl]
    exact ih hf before
  | @node _ i node _ work _ hn _ ih =>
    cases fuel with
    | zero => simp at hf
    | succ fuel =>
      have hchildren : node.pieces.filterMap Piece.node? = node.children := by
        apply Piece.filterMap_interleave
        rw [hc i node hn, node.rule.length_texts]
        exact Nat.le_succ _
      have hrest := ih (Nat.le_of_succ_le_succ hf) (before.push (i, node))
      rw [List.filterMap_append, hchildren] at hrest
      simp only [List.filterMap_cons, Piece.node?, visit, hn, hrest, Array.toList_push,
        List.append_assoc, List.singleton_append]

end Writes

/-- The work list is written to this text, and the nodes that are met have these rules, in this
order, and these positions. -/
def Renders (trace : Trace) (work : List Piece) (out : String) (rules : List Rule)
    (places : List Nat) : Prop :=
  ∃ n met, trace.Writes n work met out ∧ (met.map fun visit => visit.2.rule) = rules ∧
    (met.map Prod.fst).Perm places

namespace Renders

variable {work more : List Piece} {out out' : String} {rules rules' : List Rule}
  {places places' : List Nat}

theorem nil : trace.Renders [] "" [] [] := ⟨0, [], .nil, rfl, .nil⟩

theorem text (s : String) (h : trace.Renders work out rules places) :
    trace.Renders (.text s :: work) (s ++ out) rules places := by
  obtain ⟨n, met, hw, hr, hp⟩ := h
  exact ⟨n + 1, met, .text hw, hr, hp⟩

theorem node {i : Nat} {node : Node} (hn : trace.nodes[i]? = some node)
    (h : trace.Renders node.pieces out rules places) :
    trace.Renders [.node i] out (node.rule :: rules) (i :: places) := by
  obtain ⟨n, met, hw, hr, hp⟩ := h
  rw [← List.append_nil node.pieces] at hw
  exact ⟨n + 1, (i, node) :: met, .node hn hw, congrArg (node.rule :: ·) hr, hp.cons i⟩

theorem append (h : trace.Renders work out rules places)
    (h' : trace.Renders more out' rules' places') :
    trace.Renders (work ++ more) (out ++ out') (rules ++ rules') (places ++ places') := by
  obtain ⟨n, met, hw, hr, hp⟩ := h
  obtain ⟨m, met', hw', hr', hp'⟩ := h'
  refine ⟨n + m, met ++ met', hw.append hw', ?_, ?_⟩
  · rw [List.map_append, hr, hr']
  · rw [List.map_append]
    exact hp.append hp'

end Renders

open Inquiry.Derivation

theorem renders_interleave {trees : List Derivation} {texts : List String}
    (ih : ∀ t ∈ trees, ∀ start, trace.Lists start (t.layout start) →
      trace.Renders [.node (start + t.size - 1)] t.text t.preorder (List.range' start t.size))
    (h : trace.Lists start (layoutAll trees start)) (hl : trees.length ≤ texts.length) :
    trace.Renders (Piece.interleave texts (rootsAll trees start))
      (Rule.weave texts (trees.map Derivation.text)) (trees.flatMap Derivation.preorder)
      (List.range' start (layoutAll trees start).length) := by
  induction texts generalizing trees start with
  | nil =>
    obtain rfl := List.length_eq_zero_iff.mp (Nat.le_zero.mp hl)
    exact .nil
  | cons s texts iht =>
    cases trees with
    | nil => exact (iht ih h (Nat.zero_le _)).text s
    | cons t trees =>
      have ht := ih t List.mem_cons_self start h.head
      have htrees := iht (fun other hm => ih other (List.mem_cons_of_mem _ hm)) h.tail
        (Nat.le_of_succ_le_succ hl)
      rw [rootsAll_cons, layoutAll_cons, List.length_append, length_layout,
        ← List.range'_append_1]
      simp only [Piece.interleave, List.map_cons, Rule.weave, List.flatMap_cons,
        String.append_assoc]
      exact (ht.append htrees).text s

/-- A derivation is written from its root, and each of its nodes is met once. -/
theorem renders_root {t : Derivation} (h : trace.Lists start (t.layout start)) :
    trace.Renders [.node (start + t.size - 1)] t.text t.preorder (List.range' start t.size) := by
  induction t using Derivation.induction generalizing start with
  | h t ih =>
    have hl : t.premises.length ≤ t.rule.texts.length := by simp [Rule.length_texts]
    have hpremises := renders_interleave (fun s hs start hl => ih s hs hl) h.premises hl
    rw [length_layoutAll_premises, Rule.weave_texts (by simp), ← t.text_eq] at hpremises
    obtain ⟨n, met, hw, hr, hp⟩ := Renders.node h.root hpremises
    rw [← t.preorder_eq] at hr
    have hpos := t.size_pos
    refine ⟨n, met, hw, hr, hp.trans ?_⟩
    have hlast : start + t.size - 1 = start + (t.size - 1) := by omega
    have hsize : t.size = t.size - 1 + 1 := by omega
    rw [hlast]
    conv_rhs => rw [hsize, List.range'_1_concat]
    exact (List.perm_append_singleton _ _).symm

end Trace

theorem Trace.pieceCount_eq (trace : Trace) :
    trace.pieceCount =
      ((trace.nodes.toList.map Node.rule).map fun rule => rule.texts.length + 1).sum := by
  have hfold (nodes : List Node) (n : Nat) :
      nodes.foldl (fun n node => n + node.rule.texts.length + 1) n =
        n + ((nodes.map Node.rule).map fun rule => rule.texts.length + 1).sum := by
    induction nodes generalizing n with
    | nil => rfl
    | cons node nodes ih => simp +arith [ih]
  rw [pieceCount, ← Array.foldl_toList, hfold, Nat.zero_add]

theorem Trace.inputs_eq (trace : Trace) :
    trace.inputs = ((trace.nodes.toList.map Node.rule).filterMap Rule.question?).eraseDups := by
  rw [inputs, distinctBy_id, List.filterMap_map]
  rfl

namespace Derivation

theorem writes_trace (t : Derivation) :
    t.trace.Writes t.trace.pieceCount [.node (t.size - 1)] t.trace.preorder.toList t.text ∧
      (t.trace.preorder.toList.map fun visit => visit.2.rule) = t.preorder ∧
      (t.trace.preorder.toList.map Prod.fst).Perm (List.range t.size) := by
  have hrules : t.trace.nodes.toList.map Node.rule = t.rules := t.map_rule_layout 0
  have hrenders := Trace.renders_root t.lists_trace
  rw [Nat.zero_add] at hrenders
  obtain ⟨n, met, hw, hr, hp⟩ := hrenders
  have hsteps : n = t.trace.pieceCount := by
    rw [hw.steps_eq, hr, t.trace.pieceCount_eq, hrules]
    have hsum := (t.preorder_perm.map fun rule => rule.texts.length + 1).sum_nat
    simpa [Piece.isText] using hsum
  have hmet : t.trace.preorder.toList = met := by
    have hlength : met.length = t.trace.nodes.size := by
      simpa [trace] using hp.length_eq
    have hcomplete (i : Nat) (node : Node) (hn : t.trace.nodes[i]? = some node) :
        node.Complete := by
      have hm : node ∈ t.layout 0 := List.mem_of_getElem? (by simpa [trace] using hn)
      exact complete_of_mem_layout hm
    have hvisit := hw.visit_eq hcomplete (Nat.le_of_eq hlength) #[]
    simpa [Trace.preorder, trace, Piece.node?] using hvisit
  rw [List.range_eq_range', hmet, ← hsteps]
  exact ⟨hw, hr, hp⟩

end Derivation

/-- A trace that was decoded is written as the tree that its references spell out from the root: the
work list comes to an end with the last of the pieces that were counted, each node is met once, and
the text is that of the tree. The questions it lists are those that the walk from the root, premises
from left to right, meets in its nodes, each where it is met first. -/
theorem Tape.written_as_tree {tape : Tape} {trace : Trace} (h : tape.decode = .ok trace) :
    let walk := trace.preorder.toList
    let tree? := trace.derivation?
    tree?.isSome = trace.root.isSome ∧
      trace.Writes trace.pieceCount (trace.root.toList.map .node) walk trace.text ∧
      (walk.map Prod.fst).Perm (List.range trace.nodes.size) ∧
      trace.text = (tree?.map Derivation.text).getD "" ∧
      (walk.map fun visit => visit.2.rule) = (tree?.map Derivation.preorder).getD [] ∧
      trace.inputs = (walk.filterMap fun visit => visit.2.rule.question?).eraseDups := by
  intro walk tree?
  rcases Tape.decode_eq_ok_iff.mp h with ⟨_, rfl⟩ | ⟨t, _, rfl⟩
  · exact ⟨rfl, .nil, .nil, rfl, rfl, rfl⟩
  · obtain ⟨hw, hr, hp⟩ := t.writes_trace
    have htext : t.trace.text = t.text := by
      have hwrite := hw.write_eq (Nat.le_refl _) ""
      simpa [Trace.text, Derivation.trace] using hwrite
    have hsize : t.trace.nodes.size = t.size := by simp [Derivation.trace]
    have htree : tree? = some t := t.derivation?_trace
    refine ⟨by rw [htree]; rfl, htext ▸ hw, hsize ▸ hp, by rw [htext, htree]; rfl,
      by rw [htree]; exact hr, ?_⟩
    have hquestions : (walk.filterMap fun visit => visit.2.rule.question?) =
        t.preorder.filterMap Rule.question? := by
      rw [← hr, List.filterMap_map]
      rfl
    rw [hquestions, t.filterMap_question?_preorder, Trace.inputs_eq]
    exact congrArg (fun rules => (rules.filterMap Rule.question?).eraseDups) (t.map_rule_layout 0)

theorem Tape.written_as_tree_record :
    let fields := ["total", "open"]
    let rules : List Rule := [.literal (.record fields), .input "rate" (.number 2),
      .input "rate" (.number 2), .binary .add (.number 4), .input "open" (.boolean true),
      .record fields (.record fields)]
    let tape := rules.foldl Tape.emit (Tape.empty true)
    let trace : Trace := ⟨some 5, #[⟨.literal (.record fields), []⟩,
      ⟨.input "rate" (.number 2), []⟩, ⟨.input "rate" (.number 2), []⟩,
      ⟨.binary .add (.number 4), [1, 2]⟩, ⟨.input "open" (.boolean true), []⟩,
      ⟨.record fields (.record fields), [0, 3, 4]⟩]⟩
    let text :=
      "\x7btotal, open\x7d \x7btotal: ([rate: 2] + [rate: 2] => 4), open: [open: true]\x7d"
    tape.decode = .ok trace ∧
      trace.Writes 17 [.node 5] trace.preorder.toList text ∧
      trace.preorder.toList.map Prod.fst = [5, 0, 3, 1, 2, 4] ∧
      trace.derivation?.map Derivation.text = some text ∧ trace.inputs = ["rate", "open"] := by
  intro fields rules tape trace text
  have hdecode : tape.decode = .ok trace := by decide +kernel
  obtain ⟨hsome, hwrites, _, htree, _, hinputs⟩ := Tape.written_as_tree hdecode
  have htext : trace.text = text := by decide +kernel
  have hcount : trace.pieceCount = 17 := by decide
  have hroot : trace.root.toList.map Piece.node = [.node 5] := rfl
  rw [hcount, hroot, htext] at hwrites
  refine ⟨hdecode, hwrites, by decide, ?_, hinputs.trans (by decide)⟩
  obtain ⟨t, ht⟩ := Option.isSome_iff_exists.mp hsome
  rw [ht] at htree ⊢
  exact congrArg some (htree.symm.trans htext)

end Inquiry
