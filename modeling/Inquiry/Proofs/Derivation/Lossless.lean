import Inquiry.Derivation.Json
import Inquiry.Proofs.Derivation.Decoding
import Inquiry.Proofs.Json.Lines
set_option autoImplicit false

namespace Inquiry

namespace Json

theorem escape_inj {s t : String} : escape s = escape t ↔ s = t := by
  refine ⟨fun h => ?_, congrArg escape⟩
  have hread := unescape?_escape s
  rw [h, unescape?_escape] at hread
  exact (Option.some.inj hread).symm

@[simp] theorem ofText_inj {s t : String} : ofText s = ofText t ↔ s = t := by
  rw [ofText, ofText, Json.string.injEq, escape_inj]

@[simp] theorem ofText_ne_null (s : String) : ofText s ≠ .null := nofun

@[simp] theorem null_ne_ofText (s : String) : .null ≠ ofText s := nofun

@[simp] theorem map_ofText_inj {texts others : List String} :
    texts.map ofText = others.map ofText ↔ texts = others :=
  (List.map_injective_iff.mpr fun _ _ => ofText_inj.mp).eq_iff

@[simp] theorem ofInt_inj {i k : Int} : ofInt i = ofInt k ↔ i = k := by
  refine ⟨fun h => ?_, congrArg ofInt⟩
  have hread := int?_ofInt i
  rw [h, int?_ofInt] at hread
  exact (Option.some.inj hread).symm

@[simp] theorem ofNat_ne_null (n : Nat) : ofNat n ≠ .null := nofun

@[simp] theorem null_ne_ofNat (n : Nat) : .null ≠ ofNat n := nofun

theorem ofNat_eq (n : Nat) : ofNat n = ofInt n := rfl

theorem plain_ofNat (n : Nat) : (ofNat n).Plain := .int n

@[simp] theorem ofNat_inj {n m : Nat} : ofNat n = ofNat m ↔ n = m := by
  rw [ofNat_eq, ofNat_eq, ofInt_inj, Int.natCast_inj]

@[simp] theorem ofMembers_inj {members others : List (String × Json)} :
    ofMembers members = ofMembers others ↔ members = others := by
  have hinj : Function.Injective fun m : String × Json => (escape m.1, m.2) := by
    rintro ⟨key, value⟩ ⟨key', value'⟩ h
    simpa [escape_inj] using h
  rw [ofMembers, ofMembers, Json.object.injEq, (List.map_injective_iff.mpr hinj).eq_iff]

end Json

theorem BinOp.word_inj {op other : BinOp} : op.word = other.word ↔ op = other := by
  cases op <;> cases other <;> simp [word]

theorem UnaryOp.word_inj {op other : UnaryOp} : op.word = other.word ↔ op = other := by
  cases op <;> cases other <;> simp [word]

theorem LogicalOp.word_inj {op other : LogicalOp} : op.word = other.word ↔ op = other := by
  cases op <;> cases other <;> simp [word]

theorem RuleKind.word_inj {kind other : RuleKind} : kind.word = other.word ↔ kind = other := by
  cases kind <;> cases other <;> simp [word]

namespace Summary

theorem plain_json (v : Summary) : v.json.Plain := by
  cases v with
  | number n => exact Json.plain_pair (.int n.toInt)
  | boolean b => exact Json.plain_pair (.bool b)
  | record fields =>
    refine Json.plain_pair (.array fun item hm => ?_)
    obtain ⟨field, _, rfl⟩ := List.mem_map.mp hm
    exact .text field
  | function name =>
    cases name with
    | none => exact Json.plain_pair .null
    | some name => exact Json.plain_pair (.text name)
  | undefined => exact Json.plain_ofMembers (by simp [Json.Plain.text])

theorem json_inj {v w : Summary} : v.json = w.json ↔ v = w := by
  refine ⟨fun h => ?_, congrArg json⟩
  rcases v with n | b | fields | (_ | name) | _ <;>
    rcases w with n' | b' | fields' | (_ | name') | _ <;>
      simp_all [json, Int64.toInt_inj]

end Summary

namespace Node

theorem childJson_inj {node other : Node} {place : Nat} :
    node.childJson place = other.childJson place ↔
      node.children[place]? = other.children[place]? := by
  unfold childJson
  cases node.children[place]? <;> cases other.children[place]? <;> simp

theorem fieldsJson_inj {fields others : List String} {children children' : List Nat}
    (hl : children.length = fields.length) (hl' : children'.length = others.length)
    (h : fieldsJson fields children = fieldsJson others children') :
    fields = others ∧ children = children' := by
  have hinj : Function.Injective fun entry : String × Nat =>
      Json.ofMembers [("name", .ofText entry.1), ("trace", .ofNat entry.2)] := by
    rintro ⟨field, i⟩ ⟨field', i'⟩ h
    simpa using h
  have hzip : fields.zip children = others.zip children' :=
    List.map_injective_iff.mpr hinj (Json.array.inj h)
  constructor
  · rw [← List.map_fst_zip (Nat.le_of_eq hl.symm), hzip, List.map_fst_zip (Nat.le_of_eq hl'.symm)]
  · rw [← List.map_snd_zip (Nat.le_of_eq hl), hzip, List.map_snd_zip (Nat.le_of_eq hl')]

theorem children_eq {children others : List Nat} (hl : children.length ≤ 2)
    (hl' : others.length ≤ 2) (hfirst : children[0]? = others[0]?)
    (hsecond : children[1]? = others[1]?) : children = others := by
  apply List.ext_getElem?
  rintro (_ | _ | i)
  · exact hfirst
  · exact hsecond
  · rw [List.getElem?_eq_none (by omega), List.getElem?_eq_none (by omega)]

theorem child_eq {children others : List Nat} (hl : children.length ≤ 1)
    (hl' : others.length ≤ 1) (hfirst : children[0]? = others[0]?) : children = others := by
  refine children_eq (by omega) (by omega) hfirst ?_
  rw [List.getElem?_eq_none hl, List.getElem?_eq_none hl']

theorem flag_eq {b b' : Bool} (h : b.toNat = b'.toNat) : b = b' := by
  cases b <;> cases b' <;> simp_all

/-- A complete node is known by its kind, its value and what else it holds. -/
theorem eq_of_details {node other : Node} (hc : node.Complete) (hc' : other.Complete)
    (hk : node.rule.kind = other.rule.kind) (hv : node.rule.value = other.rule.value)
    (hd : node.details = other.details) : node = other := by
  obtain ⟨rule, children⟩ := node
  obtain ⟨rule', children'⟩ := other
  replace hc : children.length = rule.arity := hc
  replace hc' : children'.length = rule'.arity := hc'
  cases rule <;> cases rule' <;> cases hk <;> cases hv
  all_goals
    simp only [details, childJson_inj, BinOp.word_inj, UnaryOp.word_inj, LogicalOp.word_inj,
      List.cons.injEq, Prod.mk.injEq, true_and, and_true, Json.ofText_inj, Json.bool.injEq] at hd
    simp only [Rule.arity] at hc hc'
  case literal.literal =>
    rw [List.length_eq_zero_iff.mp hc, List.length_eq_zero_iff.mp hc']
  case input.input =>
    rw [hd, List.length_eq_zero_iff.mp hc, List.length_eq_zero_iff.mp hc']
  case name.name derived _ _ derived' =>
    obtain ⟨rfl, hfirst⟩ := hd
    have hle := derived.toNat_le
    have hle' := derived'.toNat_le
    obtain rfl := child_eq (by omega) (by omega) hfirst
    rw [flag_eq (hc.symm.trans hc')]
  case binary.binary =>
    obtain ⟨rfl, hfirst, hsecond⟩ := hd
    rw [children_eq (by omega) (by omega) hfirst hsecond]
  case unary.unary =>
    obtain ⟨rfl, hfirst⟩ := hd
    rw [child_eq (by omega) (by omega) hfirst]
  case logical.logical evaluatedRight _ _ evaluatedRight' =>
    obtain ⟨rfl, hfirst, hsecond⟩ := hd
    have hle := evaluatedRight.toNat_le
    have hle' := evaluatedRight'.toNat_le
    obtain rfl := children_eq (by omega) (by omega) hfirst hsecond
    rw [flag_eq (Nat.add_left_cancel (hc.symm.trans hc'))]
  case conditional.conditional =>
    obtain ⟨hfirst, rfl, hsecond⟩ := hd
    rw [children_eq (by omega) (by omega) hfirst hsecond]
  case access.access derived _ _ derived' =>
    obtain ⟨hfirst, rfl, hsecond⟩ := hd
    have hle := derived.toNat_le
    have hle' := derived'.toNat_le
    obtain rfl := children_eq (by omega) (by omega) hfirst hsecond
    rw [flag_eq (Nat.add_left_cancel (hc.symm.trans hc'))]
  case block.block hasBody _ hasBody' =>
    have hle := hasBody.toNat_le
    have hle' := hasBody'.toNat_le
    obtain rfl := child_eq (by omega) (by omega) hd
    rw [flag_eq (hc.symm.trans hc')]
  case call.call =>
    obtain ⟨hfirst, hsecond⟩ := hd
    rw [children_eq (by omega) (by omega) hfirst hsecond]
  case record.record fields _ fields' =>
    obtain ⟨hsource, hfields⟩ := hd
    obtain ⟨rfl, hrest⟩ := fieldsJson_inj (by simp [hc]) (by simp [hc']) hfields
    have hchildren : children = children' := by
      apply List.ext_getElem?
      rintro (_ | i)
      · exact hsource
      · have hi := congrArg (fun rest => rest[i]?) hrest
        simpa [List.getElem?_drop, Nat.add_comm] using hi
    rw [hchildren]

theorem json_inj {node other : Node} (hc : node.Complete) (hc' : other.Complete)
    (h : node.json = other.json) : node = other := by
  rw [json, json, Json.ofMembers_inj, List.cons_append, List.cons_append] at h
  obtain ⟨hkind, hrest⟩ := List.cons.inj h
  obtain ⟨hdetails, hvalue⟩ := List.append_inj' hrest rfl
  simp only [Prod.mk.injEq, true_and, Json.ofText_inj, RuleKind.word_inj] at hkind
  simp only [List.cons.injEq, Prod.mk.injEq, true_and, and_true, Summary.json_inj] at hvalue
  exact eq_of_details hc hc' hkind hvalue hdetails

theorem plain_childJson (node : Node) (place : Nat) : (node.childJson place).Plain := by
  unfold childJson
  split
  · exact Json.plain_ofNat _
  · exact .null

theorem plain_fieldsJson (fields : List String) (children : List Nat) :
    (fieldsJson fields children).Plain := by
  refine .array fun item hm => ?_
  obtain ⟨⟨field, i⟩, _, rfl⟩ := List.mem_map.mp hm
  exact Json.plain_ofMembers (by simp [Json.Plain.text, Json.plain_ofNat])

theorem plain_details (node : Node) : ∀ m ∈ node.details, m.2.Plain := by
  obtain ⟨rule, children⟩ := node
  cases rule <;>
    simp [details, Json.Plain.text, Json.Plain.bool, plain_childJson, plain_fieldsJson]

theorem plain_json (node : Node) : node.json.Plain := by
  apply Json.plain_ofMembers
  intro m hm
  rcases List.mem_append.mp hm with hm | hm
  · rcases List.mem_cons.mp hm with rfl | hm
    · exact .text _
    · exact node.plain_details m hm
  · rw [List.mem_singleton.mp hm]
    exact node.rule.value.plain_json

end Node

namespace Trace

/-- Every node of the trace holds the references that its kind has a place for, no more and no
fewer. -/
def Complete (trace : Trace) : Prop := ∀ node ∈ trace.nodes.toList, node.Complete

theorem plain_json (trace : Trace) : trace.json.Plain := by
  have hroot : ((trace.root.map Json.ofNat).getD .null).Plain := by
    cases trace.root with
    | none => exact .null
    | some i => exact Json.plain_ofNat i
  have hnodes : (Json.array (trace.nodes.toList.map Node.json)).Plain := by
    refine .array fun item hm => ?_
    obtain ⟨node, _, rfl⟩ := List.mem_map.mp hm
    exact node.plain_json
  exact Json.plain_ofMembers (by simp [hroot, hnodes])

theorem map_json_inj {nodes others : List Node} (hc : ∀ node ∈ nodes, node.Complete)
    (hc' : ∀ node ∈ others, node.Complete) (h : nodes.map Node.json = others.map Node.json) :
    nodes = others := by
  induction nodes generalizing others with
  | nil => exact (List.map_eq_nil_iff.mp h.symm).symm
  | cons node nodes ih =>
    cases others with
    | nil => cases h
    | cons other others =>
      obtain ⟨hnode, hnodes⟩ := List.forall_mem_cons.mp hc
      obtain ⟨hother, hothers⟩ := List.forall_mem_cons.mp hc'
      obtain ⟨hfirst, hrest⟩ := List.cons.inj h
      rw [Node.json_inj hnode hother hfirst, ih hnodes hothers hrest]

theorem json_inj {trace other : Trace} (hc : trace.Complete) (hc' : other.Complete)
    (h : trace.json = other.json) : trace = other := by
  obtain ⟨root, nodes⟩ := trace
  obtain ⟨root', nodes'⟩ := other
  simp only [json, Json.ofMembers_inj, List.cons.injEq, Prod.mk.injEq, true_and, and_true,
    Json.array.injEq] at h
  obtain ⟨hroot, hnodes⟩ := h
  have hroots : root = root' := by cases root <;> cases root' <;> simp_all
  obtain rfl : nodes = nodes' := Array.toList_inj.mp (map_json_inj hc hc' hnodes)
  rw [hroots]

end Trace

theorem Tape.complete_of_decode {tape : Tape} {trace : Trace} (h : tape.decode = .ok trace) :
    trace.Complete := by
  rcases Tape.decode_eq_ok_iff.mp h with ⟨_, rfl⟩ | ⟨t, _, rfl⟩
  · simp [Trace.Complete]
  · exact fun node hm => Derivation.complete_of_mem_layout hm

/-- Whatever its nodes, a trace is known by the text of its JSON: no other trace has the same. -/
theorem Trace.determined_by_text {trace other : Trace} (hc : trace.Complete)
    (hc' : other.Complete) (h : trace.json.pretty = other.json.pretty) : trace = other :=
  json_inj hc hc' (trace.plain_json.eq_of_pretty other.plain_json h)

theorem Trace.determined_by_text_gift :
    let rule : Rule := .name "\"gift\"" false (.boolean true)
    let trace : Trace := ⟨some 0, #[⟨rule, []⟩]⟩
    let text := "\x7b\n  \"root\": 0,\n  \"nodes\": [\n    \x7b\n      \"node\": \"name\",\n"
      ++ "      \"name\": \"\\\"gift\\\"\",\n      \"derivation\": null,\n      \"value\": \x7b\n"
      ++ "        \"type\": \"boolean\",\n        \"value\": true\n      \x7d\n    \x7d\n  ]\n\x7d"
    ((Tape.empty true).emit rule).decode = .ok trace ∧ trace.Complete ∧ trace.json.pretty = text ∧
      ∀ other : Trace, other.Complete → other.json.pretty = text → trace = other := by
  intro rule trace text
  have hdecode : ((Tape.empty true).emit rule).decode = .ok trace := by decide +kernel
  have hc : trace.Complete := Tape.complete_of_decode hdecode
  have htext : trace.json.pretty = text := by decide +kernel
  exact ⟨hdecode, hc, htext, fun other ho hother =>
    Trace.determined_by_text hc ho (htext.trans hother.symm)⟩

end Inquiry
