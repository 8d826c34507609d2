import Inquiry.Proofs.Derivation.Tree
set_option autoImplicit false

/-!
The grammar of tapes. A tape reads as a forest exactly if its tokens are those of trees in
post-order, and then it is the forest of these trees.
-/

namespace Inquiry

namespace Token

theorem result?_eq_some (token : Token) (v : Summary) :
    token.result? = some v ↔ token = .result v := by cases token <;> simp [result?]

theorem label?_eq_some (token : Token) (text : String) :
    token.label? = some text ↔ token = .label text := by cases token <;> simp [label?]

theorem flag?_eq_some (token : Token) (b : Bool) :
    token.flag? = some b ↔ token = .flag b := by cases token <;> simp [flag?]

theorem count?_eq_some (token : Token) (n : Nat) :
    token.count? = some n ↔ token = .count n := by cases token <;> simp [count?]

theorem binary?_eq_some (token : Token) (op : BinOp) :
    token.binary? = some op ↔ token = .binary op := by cases token <;> simp [binary?]

theorem unary?_eq_some (token : Token) (op : UnaryOp) :
    token.unary? = some op ↔ token = .unary op := by cases token <;> simp [unary?]

theorem logical?_eq_some (token : Token) (op : LogicalOp) :
    token.logical? = some op ↔ token = .logical op := by cases token <;> simp [logical?]

theorem leadingLabels_append (tokens : List Token) :
    (leadingLabels tokens).1.map .label ++ (leadingLabels tokens).2 = tokens := by
  induction tokens with
  | nil => rfl
  | cons token tokens ih => cases token <;> simp [leadingLabels, ih]

end Token

theorem Attribute.read_eq_ok {α : Type} {expected : Attribute} {sort? : Token → Option α}
    {shown : α → Token} (hs : ∀ token a, sort? token = some a ↔ token = shown a)
    {tokens rest : List Token} {a : α} (h : expected.read sort? tokens = .ok (a, rest)) :
    tokens = shown a :: rest := by
  cases tokens with
  | nil => contradiction
  | cons token tokens =>
    simp only [Attribute.read] at h
    split at h
    · rename_i b hb
      simp only [Except.ok.injEq, Prod.mk.injEq] at h
      rw [(hs token b).mp hb, h.1, h.2]
    · contradiction

theorem bind_eq_ok {ε α β : Type} {x : Except ε α} {f : α → Except ε β} {b : β}
    (h : (x >>= f) = .ok b) : ∃ a, x = .ok a ∧ f a = .ok b := by
  cases x with
  | error e => contradiction
  | ok a => exact ⟨a, rfl, h⟩

namespace Rule

theorem read_eq_ok {kind : RuleKind} {tokens rest : List Token} {rule : Rule}
    (h : Rule.read kind tokens = .ok (rule, rest)) :
    rule.kind = kind ∧ tokens = rule.attributes ++ .result rule.value :: rest := by
  cases kind with
  | literal | call =>
    obtain ⟨⟨v, left⟩, hv, h⟩ := bind_eq_ok h
    cases h
    exact ⟨rfl, Attribute.read_eq_ok Token.result?_eq_some hv⟩
  | input =>
    obtain ⟨⟨question, left⟩, hq, h⟩ := bind_eq_ok h
    obtain ⟨⟨v, left⟩, hv, h⟩ := bind_eq_ok h
    cases h
    rw [Attribute.read_eq_ok Token.label?_eq_some hq,
      Attribute.read_eq_ok Token.result?_eq_some hv]
    exact ⟨rfl, rfl⟩
  | name | access =>
    obtain ⟨⟨text, left⟩, ht, h⟩ := bind_eq_ok h
    obtain ⟨⟨derived, left⟩, hd, h⟩ := bind_eq_ok h
    obtain ⟨⟨v, left⟩, hv, h⟩ := bind_eq_ok h
    cases h
    rw [Attribute.read_eq_ok Token.label?_eq_some ht, Attribute.read_eq_ok Token.flag?_eq_some hd,
      Attribute.read_eq_ok Token.result?_eq_some hv]
    exact ⟨rfl, rfl⟩
  | binary =>
    obtain ⟨⟨op, left⟩, ho, h⟩ := bind_eq_ok h
    obtain ⟨⟨v, left⟩, hv, h⟩ := bind_eq_ok h
    cases h
    rw [Attribute.read_eq_ok Token.binary?_eq_some ho,
      Attribute.read_eq_ok Token.result?_eq_some hv]
    exact ⟨rfl, rfl⟩
  | unary =>
    obtain ⟨⟨op, left⟩, ho, h⟩ := bind_eq_ok h
    obtain ⟨⟨v, left⟩, hv, h⟩ := bind_eq_ok h
    cases h
    rw [Attribute.read_eq_ok Token.unary?_eq_some ho,
      Attribute.read_eq_ok Token.result?_eq_some hv]
    exact ⟨rfl, rfl⟩
  | logical =>
    obtain ⟨⟨op, left⟩, ho, h⟩ := bind_eq_ok h
    obtain ⟨⟨evaluatedRight, left⟩, he, h⟩ := bind_eq_ok h
    obtain ⟨⟨v, left⟩, hv, h⟩ := bind_eq_ok h
    cases h
    rw [Attribute.read_eq_ok Token.logical?_eq_some ho,
      Attribute.read_eq_ok Token.flag?_eq_some he, Attribute.read_eq_ok Token.result?_eq_some hv]
    exact ⟨rfl, rfl⟩
  | conditional | block =>
    obtain ⟨⟨b, left⟩, hb, h⟩ := bind_eq_ok h
    obtain ⟨⟨v, left⟩, hv, h⟩ := bind_eq_ok h
    cases h
    rw [Attribute.read_eq_ok Token.flag?_eq_some hb,
      Attribute.read_eq_ok Token.result?_eq_some hv]
    exact ⟨rfl, rfl⟩
  | record =>
    have hlabels := Token.leadingLabels_append tokens
    obtain ⟨⟨count, left⟩, hc, h⟩ := bind_eq_ok h
    simp only at h
    split at h
    · rename_i hn
      obtain ⟨⟨v, left⟩, hv, h⟩ := bind_eq_ok h
      cases h
      rw [Attribute.read_eq_ok Token.count?_eq_some hc,
        Attribute.read_eq_ok Token.result?_eq_some hv, hn] at hlabels
      exact ⟨rfl, by simp [attributes, value, hlabels]⟩
    · contradiction

end Rule

namespace Forest

/-- A node is added exactly if its tokens are those of a rule and the roots suffice for it. -/
theorem close_eq_ok_iff {forest next : Forest} {kind : RuleKind} {tokens : List Token} :
    forest.close kind tokens = .ok next ↔
      ∃ rule : Rule, rule.kind = kind ∧ tokens = rule.attributes ++ [.result rule.value] ∧
        rule.arity ≤ forest.roots.length ∧ next = forest.add rule := by
  constructor
  · intro h
    obtain ⟨⟨rule, rest⟩, hr, h⟩ := bind_eq_ok h
    obtain ⟨hk, ht⟩ := Rule.read_eq_ok hr
    simp only at h
    split at h
    · contradiction
    · rename_i hn
      cases rest with
      | cons token rest => contradiction
      | nil =>
        cases h
        have ha : rule.arity ≤ forest.roots.length := by simp at hn; omega
        exact ⟨rule, hk, ht, ha, rfl⟩
  · rintro ⟨rule, rfl, rfl, ha, rfl⟩
    exact close_rule ha

theorem read_flatMap {more : List Derivation}
    (h : ∀ t ∈ more, ∀ trees, (of trees).read [] t.tokens = .ok (of (trees ++ [t])))
    (trees : List Derivation) :
    (of trees).read [] (more.flatMap Derivation.tokens) = .ok (of (trees ++ more)) := by
  induction more generalizing trees with
  | nil => simp [read]
  | cons t more ih =>
    have ht := h t (by simp) trees
    have hmore := ih (fun s hs => h s (by simp [hs])) (trees ++ [t])
    rw [List.flatMap_cons, read_append _ ht, hmore, List.append_assoc, List.singleton_append]

theorem read_tokens (t : Derivation) (trees : List Derivation) :
    (of trees).read [] t.tokens = .ok (of (trees ++ [t])) := by
  induction t using Derivation.induction generalizing trees with
  | h t ih =>
    have ha : t.rule.arity ≤ (of (trees ++ t.premises)).roots.length := by simp
    rw [t.tokens_eq, read_append _ (read_flatMap ih trees), read_rule ha, add_of]

/-- Whatever is read from a forest of trees on is a forest of trees, and its tokens are those that
were read and those of the trees before. -/
theorem exists_trees_of_read {trees : List Derivation} {pending tokens : List Token}
    {last : Forest} (h : (of trees).read pending tokens = .ok last) :
    ∃ more, last = of more ∧
      more.flatMap Derivation.tokens =
        trees.flatMap Derivation.tokens ++ pending.reverse ++ tokens := by
  induction tokens generalizing trees pending with
  | nil =>
    simp only [read] at h
    split at h
    · rename_i hp
      cases h
      exact ⟨trees, rfl, by simp [List.isEmpty_iff.mp hp]⟩
    · contradiction
  | cons token tokens ih =>
    cases token with
    | marker kind =>
      simp only [read] at h
      split at h
      · rename_i next hc
        obtain ⟨rule, rfl, hp, ha, rfl⟩ := close_eq_ok_iff.mp hc
        rw [length_roots_of] at ha
        obtain ⟨before, t, rfl, rfl⟩ := Derivation.exists_of_arity_le ha
        rw [add_of] at h
        obtain ⟨more, hlast, hmore⟩ := ih h
        refine ⟨more, hlast, ?_⟩
        rw [hmore, hp]
        simp [t.tokens_eq, Rule.tokens]
      · contradiction
    | _ =>
      obtain ⟨more, hlast, hmore⟩ := ih h
      exact ⟨more, hlast, by simp [hmore]⟩

theorem read_eq_ok_iff {tokens : List Token} {forest : Forest} :
    Forest.read ⟨#[], []⟩ [] tokens = .ok forest ↔
      ∃ trees : List Derivation, tokens = trees.flatMap Derivation.tokens ∧ forest = of trees := by
  constructor
  · intro h
    have hempty : (of []).read [] tokens = .ok forest := h
    obtain ⟨trees, hforest, ht⟩ := exists_trees_of_read hempty
    exact ⟨trees, by simpa using ht.symm, hforest⟩
  · rintro ⟨trees, rfl, rfl⟩
    exact read_flatMap (fun t _ => read_tokens t) []

end Forest

/-- A tape can be decoded exactly if it is empty or has the tokens of one tree. -/
theorem Tape.decode_eq_ok_iff {tape : Tape} {trace : Trace} :
    tape.decode = .ok trace ↔
      (tape.tokens = #[] ∧ trace = ⟨none, #[]⟩) ∨
        ∃ t : Derivation, tape.tokens.toList = t.tokens ∧ trace = t.trace := by
  constructor
  · intro h
    unfold Tape.decode at h
    split at h
    · contradiction
    · rename_i nodes hread
      obtain ⟨trees, htokens, hforest⟩ := Forest.read_eq_ok_iff.mp hread
      have hlength : trees.length = 0 := by rw [← Forest.length_roots_of, ← hforest]; rfl
      obtain rfl := List.length_eq_zero_iff.mp hlength
      cases hforest
      cases h
      exact .inl ⟨by simpa using htokens, rfl⟩
    · rename_i nodes root hread
      obtain ⟨trees, htokens, hforest⟩ := Forest.read_eq_ok_iff.mp hread
      have hlength : trees.length = 1 := by rw [← Forest.length_roots_of, ← hforest]; rfl
      obtain ⟨t, rfl⟩ := List.length_eq_one_iff.mp hlength
      rw [Forest.of_singleton] at hforest
      cases hforest
      cases h
      exact .inr ⟨t, by simpa using htokens, rfl⟩
    · contradiction
  · rintro (⟨ht, rfl⟩ | ⟨t, ht, rfl⟩)
    · simp [Tape.decode, ht, Forest.read]
    · have hread := Forest.read_eq_ok_iff.mpr ⟨[t], by simpa using ht, rfl⟩
      simp only [Tape.decode, hread, Forest.of_singleton]
      rfl

end Inquiry
